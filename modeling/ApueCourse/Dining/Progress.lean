import Mathlib.Algebra.Order.BigOperators.Group.Finset
import Mathlib.Data.Fintype.Basic
import ApueCourse.Dining.Exclusion
import ApueCourse.Transition.OrderedWait

/-! Deadlock freedom: forks are taken in increasing order, so some philosopher
always gets on, and the table can be brought to rest from every state. -/

namespace ApueCourse.Dining

open Transition

variable {N : Nat}

def Event.FailedLock (e : Event N) : Prop := ∃ i f, e = .openExcl i f false

def Consistent (s : State N) : Prop := ∃ owner, Represents s owner

theorem Consistent.step (hN : 2 ≤ N) {s s' : State N} {e : Event N}
    (hs : Consistent s) (hstep : (table N).Step s e s') : Consistent s' := by
  obtain ⟨owner, hrep⟩ := hs
  have hmove := step_move hstep
  cases haction : lockAction e with
  | none => exact ⟨owner, hrep.stutter hmove haction⟩
  | some action =>
      obtain ⟨owner', -, hrep'⟩ := hrep.step hN hmove haction
      exact ⟨owner', hrep'⟩

theorem Consistent.run (hN : 2 ≤ N) {s s' : State N} {trace : List (Event N)}
    (hs : Consistent s) (hrun : (table N).Run s trace s') : Consistent s' := by
  induction hrun with
  | refl => exact hs
  | snoc _ hstep ih => exact ih.step hN hstep

theorem reachable_consistent (hN : 2 ≤ N) {s : State N}
    (hs : (table N).Reachable s) : Consistent s := by
  apply hs.invariant
  · exact fun s hs => ⟨_, Represents.initial hs⟩
  · exact fun _ _ _ hs hstep => hs.step hN hstep

/-! The blocked philosophers do not wait in a circle. -/

/-- Philosopher `i` is between `thinking` and the end of `putFork`. -/
def Active (s : State N) (i : Fin N) : Prop :=
  s.phil i ≠ .unforked ∧ s.phil i ≠ .thinking

/-- Philosopher `i` is about to call `open` on a file that exists. -/
def Blocked (s : State N) (i : Fin N) : Prop :=
  ∃ f next, Takes i f (s.phil i) next ∧ s.file f = true

def asks (i : Fin N) : PhilosopherPc → Fin N
  | .takeSecond => (takeFork i).2
  | _ => (takeFork i).1

theorem Takes.asks_eq {i f : Fin N} {pc next : PhilosopherPc}
    (htakes : Takes i f pc next) : asks i pc = f := by
  cases htakes <;> rfl

theorem Takes.holds_lt (hN : 2 ≤ N) {i f g : Fin N} {pc next : PhilosopherPc}
    (htakes : Takes i f pc next) (hholds : Holds i g pc) : g < f := by
  cases htakes with
  | first => exact hholds.elim
  | second =>
      cases hholds
      exact takeFork_fst_lt_snd hN i

theorem active_of_holds {s : State N} {i f : Fin N}
    (hholds : Holds i f (s.phil i)) : Active s i := by
  constructor <;> intro hpc <;> rw [hpc] at hholds <;> exact hholds

theorem exists_active_not_blocked (hN : 2 ≤ N) {s : State N}
    (hs : Consistent s) (hactive : ∃ i, Active s i) :
    ∃ i, Active s i ∧ ¬ Blocked s i := by
  classical
  obtain ⟨owner, hrep⟩ := hs
  obtain ⟨i, hi⟩ := hactive
  have hinit := hrep.initlocked_of_started hi.1
  let active : Finset (Fin N) := Finset.univ.filter (Active s)
  have hmem : ∀ j, j ∈ active ↔ Active s j := by
    intro j
    simp [active]
  obtain ⟨j, hj, hfree⟩ :=
    exists_not_blocked_of_increasing active (Blocked s)
      (fun j => asks j (s.phil j)) (fun j f => Holds j f (s.phil j))
      ⟨i, (hmem i).mpr hi⟩
      (by
        intro p _ hblocked
        obtain ⟨f, next, htakes, hfile⟩ := hblocked
        rw [hrep.file hinit, Option.isSome_iff_exists] at hfile
        obtain ⟨q, hq⟩ := hfile
        have hholds := (hrep.holds q f).mpr hq
        refine ⟨q, (hmem q).mpr (active_of_holds hholds), ?_⟩
        rw [htakes.asks_eq]
        exact hholds)
      (by
        intro p _ hblocked g hholds
        obtain ⟨f, next, htakes, -⟩ := hblocked
        rw [htakes.asks_eq]
        exact htakes.holds_lt hN hholds)
  exact ⟨j, (hmem j).mp hj, hfree⟩

/-! Steps that bring the table to rest. -/

/-- Steps of a philosopher until it is `thinking` again. -/
def rank : PhilosopherPc → Nat
  | .unforked | .thinking => 0
  | .takeFirst => 5
  | .takeSecond => 4
  | .eating => 3
  | .putFirst => 2
  | .putSecond => 1

theorem Takes.rank_lt {i f : Fin N} {pc next : PhilosopherPc}
    (htakes : Takes i f pc next) : rank next < rank pc := by
  cases htakes <;> decide

theorem Puts.rank_lt {i f : Fin N} {pc next : PhilosopherPc}
    (hputs : Puts i f pc next) : rank next < rank pc := by
  cases hputs <;> decide

theorem active_cases {s : State N} {i : Fin N} (hactive : Active s i) :
    (∃ f next, Takes i f (s.phil i) next) ∨ s.phil i = .eating ∨
      ∃ f next, Puts i f (s.phil i) next := by
  cases hpc : s.phil i with
  | unforked => exact absurd hpc hactive.1
  | thinking => exact absurd hpc hactive.2
  | takeFirst => exact Or.inl ⟨_, _, .first⟩
  | takeSecond => exact Or.inl ⟨_, _, .second⟩
  | eating => exact Or.inr (Or.inl rfl)
  | putFirst => exact Or.inr (Or.inr ⟨_, _, .first⟩)
  | putSecond => exact Or.inr (Or.inr ⟨_, _, .second⟩)

/-- An active philosopher that is not blocked has a step, no failing attempt,
that brings it nearer to `thinking`. -/
theorem exists_step_of_not_blocked {s : State N} {i : Fin N}
    (hactive : Active s i) (hfree : ¬ Blocked s i) :
    ∃ e s' next, s.philosopher i = some (e, s') ∧ ¬ e.FailedLock ∧
      s'.main = s.main ∧ s'.phil = (s.goto i next).phil ∧
      rank next < rank (s.phil i) := by
  rcases active_cases hactive with
    ⟨f, next, htakes⟩ | hpc | ⟨f, next, hputs⟩
  · have hfile : s.file f = false := by
      by_contra hexists
      exact hfree ⟨f, next, htakes, by simpa using hexists⟩
    have hstep := philosopher_of_takes htakes
    rw [State.lock_of_absent hfile] at hstep
    exact ⟨_, _, next, hstep, by simp [Event.FailedLock], rfl, rfl,
      htakes.rank_lt⟩
  · refine ⟨_, _, .putFirst, philosopher_of_eating hpc,
      by simp [Event.FailedLock], rfl, rfl, ?_⟩
    rw [hpc]
    decide
  · exact ⟨_, _, next, philosopher_of_puts hputs,
      by simp [Event.FailedLock], rfl, rfl, hputs.rank_lt⟩

theorem sum_rank_goto_lt {s : State N} {i : Fin N} {next : PhilosopherPc}
    (hlt : rank next < rank (s.phil i)) :
    ∑ j, rank ((s.goto i next).phil j) < ∑ j, rank (s.phil j) := by
  apply Finset.sum_lt_sum
  · intro j _
    by_cases hj : j = i
    · subst j
      rw [State.goto_phil_self]
      exact hlt.le
    · rw [State.goto_phil_other s next hj]
  · refine ⟨i, Finset.mem_univ i, ?_⟩
    rw [State.goto_phil_self]
    exact hlt

/-- Steps of `main` until it waits. -/
def mainRank (N : Nat) : MainPc → Nat
  | .initlock i => (N - i) + N + 2
  | .fork i => (N - i) + 1
  | .wait => 0

theorem exists_mainMove {s : State N} (hmain : s.main ≠ .wait) :
    ∃ e s', Move s e s' ∧ mainRank N s'.main < mainRank N s.main := by
  cases hpc : s.main with
  | wait => exact absurd hpc hmain
  | initlock i =>
      rcases Nat.lt_or_ge i N with h | h
      · exact ⟨_, _, .initlock h hpc, by simp only [mainRank]; omega⟩
      · exact ⟨_, _, .initlocked h hpc, by simp only [mainRank]; omega⟩
  | fork i =>
      rcases Nat.lt_or_ge i N with h | h
      · exact ⟨_, _, .fork h hpc, by simp only [mainRank]; omega⟩
      · exact ⟨_, _, .forked h hpc, by simp only [mainRank]; omega⟩

theorem exists_run_to_wait (hN : 2 ≤ N) {s : State N} (hs : Consistent s) :
    ∃ trace s', (table N).Run s trace s' ∧ Consistent s' ∧ s'.main = .wait := by
  apply System.exists_run_of_decreasing (fun s => mainRank N s.main) ?_ hs
  intro s hs hmain
  obtain ⟨e, s', hmove, hlt⟩ := exists_mainMove hmain
  have hstep := step_of_move hmove
  exact ⟨e, s', hstep, hs.step hN hstep, hlt⟩

theorem exists_run_to_rest (hN : 2 ≤ N) {s : State N} (hs : Consistent s)
    (hmain : s.main = .wait) :
    ∃ trace s', (table N).Run s trace s' ∧ Consistent s' ∧
      ∀ i, s'.phil i = .thinking := by
  have hrun : ∃ trace s', (table N).Run s trace s' ∧
      (Consistent s' ∧ s'.main = .wait) ∧ ∀ i, s'.phil i = .thinking := by
    apply System.exists_run_of_decreasing (fun s => ∑ j, rank (s.phil j)) ?_
      ⟨hs, hmain⟩
    rintro s ⟨hs, hmain⟩ hbusy
    have hactive : ∃ i, Active s i := by
      obtain ⟨owner, hrep⟩ := hs
      push Not at hbusy
      obtain ⟨i, hi⟩ := hbusy
      refine ⟨i, ?_, hi⟩
      rw [Ne, hrep.unforked, hmain]
      exact Nat.not_le.mpr i.isLt
    obtain ⟨i, hi, hfree⟩ := exists_active_not_blocked hN hs hactive
    obtain ⟨e, s', next, hact, -, hmain', hphil, hlt⟩ :=
      exists_step_of_not_blocked hi hfree
    have hstep : (table N).Step s e s' := ⟨.philosopher i, hact⟩
    refine ⟨e, s', hstep, ⟨hs.step hN hstep, hmain'.trans hmain⟩, ?_⟩
    rw [hphil]
    exact sum_rank_goto_lt hlt
  obtain ⟨trace, s', hrun, ⟨hs', -⟩, hrest⟩ := hrun
  exact ⟨trace, s', hrun, hs', hrest⟩

theorem file_absent_at_rest {s : State N} (hs : Consistent s)
    (hrest : ∀ i, s.phil i = .thinking) (f : Fin N) : s.file f = false := by
  obtain ⟨owner, hrep⟩ := hs
  have hstarted : s.phil f ≠ .unforked := by simp [hrest f]
  have hfree : owner f = none := by
    apply hrep.free_of_not_held
    intro j hholds
    rw [hrest j] at hholds
    exact hholds
  rw [hrep.file (hrep.initlocked_of_started hstarted), hfree]
  rfl

theorem exists_run_to_eating (hN : 2 ≤ N) {s : State N} (hs : Consistent s)
    (hrest : ∀ i, s.phil i = .thinking) (i : Fin N) :
    ∃ trace s', (table N).Run s trace s' ∧ s'.phil i = .eating := by
  have hfile := file_absent_at_rest hs hrest
  have hne := (takeFork_fst_lt_snd hN i).ne'
  let hungry := s.goto i .takeFirst
  let holding : State N := { hungry.goto i .takeSecond with
    file := Function.update hungry.file (takeFork i).1 true }
  have hthink : Move s (.think i) hungry := .think (hrest i)
  have hfirst : Move hungry (.openExcl i (takeFork i).1 true) holding := by
    refine .take ?_ (hfile _)
    rw [State.goto_phil_self]
    exact .first
  have hfree : holding.file (takeFork i).2 = false := by
    change Function.update s.file (takeFork i).1 true (takeFork i).2 = false
    rw [Function.update_of_ne hne]
    exact hfile _
  have htakes : Takes i (takeFork i).2 (holding.phil i) .eating := by
    change Takes i _ ((hungry.goto i .takeSecond).phil i) _
    rw [State.goto_phil_self]
    exact .second
  have hsecond := Move.take htakes hfree
  refine ⟨_, _, System.Run.cons (step_of_move hthink)
    (System.Run.cons (step_of_move hfirst)
      (System.Run.single (step_of_move hsecond))), ?_⟩
  exact State.goto_phil_self holding i .eating

/-- In every reachable state some started philosopher's next step is not a failing
lock attempt, and every philosopher can still get to eat. -/
theorem table_deadlock_free (hN : 2 ≤ N) {s : State N}
    (hs : (table N).Reachable s) :
    ((∃ i, s.phil i ≠ .unforked) →
      ∃ i e s', s.philosopher i = some (e, s') ∧ ¬ e.FailedLock) ∧
    ∀ i, ∃ trace s', (table N).Run s trace s' ∧ s'.phil i = .eating := by
  have hconsistent := reachable_consistent hN hs
  constructor
  · rintro ⟨i, hi⟩
    by_cases hpc : s.phil i = .thinking
    · exact ⟨i, _, _, philosopher_of_thinking hpc, by simp [Event.FailedLock]⟩
    · obtain ⟨j, hj, hfree⟩ :=
        exists_active_not_blocked hN hconsistent ⟨i, hi, hpc⟩
      obtain ⟨e, s', next, hact, hnot, -⟩ := exists_step_of_not_blocked hj hfree
      exact ⟨j, e, s', hact, hnot⟩
  · intro i
    obtain ⟨first, waiting, hfirst, hwaiting, hmain⟩ :=
      exists_run_to_wait hN hconsistent
    obtain ⟨second, resting, hsecond, hresting, hrest⟩ :=
      exists_run_to_rest hN hwaiting hmain
    obtain ⟨third, s', hthird, heating⟩ :=
      exists_run_to_eating hN hresting hrest i
    exact ⟨_, s', hfirst.trans (hsecond.trans hthird), heating⟩

/-- Philosopher 0 of two eats and philosopher 1 polls for fork 0. -/
theorem table_deadlock_free_polling :
    ∃ s : State 2, (table 2).Reachable s ∧ s.phil 0 = .eating ∧ Blocked s 1 ∧
      ((∃ i, s.phil i ≠ .unforked) →
        ∃ i e s', s.philosopher i = some (e, s') ∧ ¬ e.FailedLock) ∧
      ∀ i, ∃ trace s', (table 2).Run s trace s' ∧ s'.phil i = .eating := by
  have hrun := run_of_schedule (s := atStart fun _ : Fin 2 => false)
    [.main, .main, .main, .main, .main, .philosopher 0, .philosopher 1,
      .philosopher 0, .philosopher 0] rfl
  have hreachable : (table 2).Reachable _ := ⟨_, _, atStart_initial _, hrun⟩
  refine ⟨_, hreachable, rfl, ⟨0, .takeSecond, Takes.first, rfl⟩, ?_⟩
  exact table_deadlock_free (Nat.le_refl 2) hreachable

end ApueCourse.Dining
