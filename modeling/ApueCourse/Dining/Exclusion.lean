import ApueCourse.Dining.Table
import ApueCourse.Transition.LockTable

/-! The fork files refine an exclusive lock table whose owners are the
philosophers. -/

namespace ApueCourse.Dining

open Transition

variable {N : Nat}

def lockAction : Event N → Option (LockAction (Fin N) (Fin N))
  | .openExcl i f true => some (.acquire i f)
  | .unlink i f => some (.release i f)
  | _ => none

def MainPc.forkCount (N : Nat) : MainPc → Nat
  | .initlock _ => 0
  | .fork i => i
  | .wait => N

/-- The state `s` has its fork files and program counters as `owner` says. -/
structure Represents (s : State N) (owner : LockTable (Fin N) (Fin N)) :
    Prop where
  unforked : ∀ i, s.phil i = .unforked ↔ s.main.forkCount N ≤ i.val
  swept : ∀ k, s.main = .initlock k → ∀ f, f.val < k → s.file f = false
  file : s.Initlocked → ∀ f, s.file f = (owner f).isSome
  holds : ∀ i f, Holds i f (s.phil i) ↔ owner f = some i

namespace State

@[simp] theorem goto_main (s : State N) (i : Fin N) (pc : PhilosopherPc) :
    (s.goto i pc).main = s.main := rfl

@[simp] theorem goto_file (s : State N) (i : Fin N) (pc : PhilosopherPc) :
    (s.goto i pc).file = s.file := rfl

@[simp] theorem goto_phil_self (s : State N) (i : Fin N) (pc : PhilosopherPc) :
    (s.goto i pc).phil i = pc := by
  simp [goto]

theorem goto_phil_other (s : State N) {i j : Fin N} (pc : PhilosopherPc)
    (hne : j ≠ i) : (s.goto i pc).phil j = s.phil j := by
  simp [goto, hne]

end State

namespace Represents

theorem initlocked_of_started {s : State N} {owner : LockTable (Fin N) (Fin N)}
    (hrep : Represents s owner) {i : Fin N} (hi : s.phil i ≠ .unforked) :
    s.Initlocked := by
  intro k hmain
  apply hi
  rw [hrep.unforked, hmain]
  exact Nat.zero_le i.val

theorem free_of_no_file {s : State N} {owner : LockTable (Fin N) (Fin N)}
    (hrep : Represents s owner) (hinit : s.Initlocked) {f : Fin N}
    (hfile : s.file f = false) : owner f = none := by
  simpa [hrep.file hinit f] using hfile

theorem free_of_not_held {s : State N} {owner : LockTable (Fin N) (Fin N)}
    (hrep : Represents s owner) {f : Fin N}
    (hfree : ∀ j, ¬ Holds j f (s.phil j)) : owner f = none := by
  cases howner : owner f with
  | none => rfl
  | some j => exact absurd ((hrep.holds j f).mpr howner) (hfree j)

/-- A move of philosopher `i` between two program counters of a started
philosopher, with the files and the lock table changed alike. -/
theorem move {s : State N} {owner owner' : LockTable (Fin N) (Fin N)}
    (hrep : Represents s owner) {i : Fin N} {next : PhilosopherPc}
    {file' : Fin N → Bool} (hi : s.phil i ≠ .unforked) (hnext : next ≠ .unforked)
    (hfile : ∀ f, file' f = (owner' f).isSome)
    (hself : ∀ f, Holds i f next ↔ owner' f = some i)
    (hothers : ∀ j f, j ≠ i → (owner' f = some j ↔ owner f = some j)) :
    Represents { s.goto i next with file := file' } owner' where
  unforked j := by
    by_cases hj : j = i
    · subst j
      have := (hrep.unforked i).not.mp hi
      simpa [hnext] using this
    · simpa [State.goto_phil_other s next hj] using hrep.unforked j
  swept k hmain := absurd hmain (hrep.initlocked_of_started hi k)
  file _ := hfile
  holds j f := by
    by_cases hj : j = i
    · subst j
      simpa using hself f
    · simpa [State.goto_phil_other s next hj, hothers j f hj] using hrep.holds j f

theorem initial {s : State N} (hs : (table N).Initial s) :
    Represents s (fun _ => none) where
  unforked i := by
    simp [hs.1, hs.2 i, MainPc.forkCount]
  swept k hmain := by
    have hk : k = 0 := by
      have := hs.1.symm.trans hmain
      exact (MainPc.initlock.inj this).symm
    subst k
    intro f hf
    exact absurd hf (Nat.not_lt_zero _)
  file hinit := absurd hs.1 (hinit 0)
  holds i f := by
    simp [hs.2 i, Holds]

theorem goto {s : State N} {owner : LockTable (Fin N) (Fin N)}
    (hrep : Represents s owner) {i : Fin N} {next : PhilosopherPc}
    (hi : s.phil i ≠ .unforked) (hnext : next ≠ .unforked)
    (hholds : ∀ f, Holds i f next ↔ Holds i f (s.phil i)) :
    Represents (s.goto i next) owner := by
  have hinit := hrep.initlocked_of_started hi
  apply hrep.move hi hnext
  · exact hrep.file hinit
  · intro f
    rw [hholds, hrep.holds]
  · exact fun _ _ _ => Iff.rfl

theorem initlock {s : State N} {owner : LockTable (Fin N) (Fin N)}
    (hrep : Represents s owner) {i : Nat} (h : i < N)
    (hmain : s.main = .initlock i) :
    Represents
      { s with
        main := .initlock (i + 1)
        file := Function.update s.file ⟨i, h⟩ false } owner where
  unforked j := by
    rw [hrep.unforked j, hmain]
    rfl
  swept k hk := by
    cases hk
    intro f hf
    by_cases hne : f = ⟨i, h⟩
    · subst f
      exact Function.update_self _ _ _
    · have hval := Fin.val_ne_of_ne hne
      dsimp only at hval ⊢
      rw [Function.update_of_ne hne]
      exact hrep.swept i hmain f (by omega)
  file hinit := absurd rfl (hinit _)
  holds := hrep.holds

theorem initlocked {s : State N} {owner : LockTable (Fin N) (Fin N)}
    (hrep : Represents s owner) {i : Nat} (h : N ≤ i)
    (hmain : s.main = .initlock i) :
    Represents { s with main := .fork 0 } owner := by
  have hunforked : ∀ j, s.phil j = .unforked := by
    intro j
    rw [hrep.unforked, hmain]
    exact Nat.zero_le _
  refine ⟨?_, ?_, ?_, hrep.holds⟩
  · intro j
    simp [hunforked j, MainPc.forkCount]
  · intro k hk
    cases hk
  · intro _ f
    have hfile := hrep.swept i hmain f (by omega)
    have hfree : owner f = none := by
      apply hrep.free_of_not_held
      intro j hholds
      rw [hunforked j] at hholds
      exact hholds
    simp [hfile, hfree]

theorem fork {s : State N} {owner : LockTable (Fin N) (Fin N)}
    (hrep : Represents s owner) {i : Nat} (h : i < N)
    (hmain : s.main = .fork i) :
    Represents { s.goto ⟨i, h⟩ .thinking with main := .fork (i + 1) } owner := by
  have hunforked : s.phil ⟨i, h⟩ = .unforked := by
    rw [hrep.unforked, hmain]
    exact Nat.le_refl i
  refine ⟨?_, ?_, ?_, ?_⟩
  · intro j
    change (s.goto ⟨i, h⟩ .thinking).phil j = .unforked ↔ i + 1 ≤ j.val
    by_cases hj : j = ⟨i, h⟩
    · subst j
      simp
    · have hne := Fin.val_ne_of_ne hj
      have hold : s.phil j = .unforked ↔ i ≤ j.val := by
        simpa [hmain, MainPc.forkCount] using hrep.unforked j
      rw [State.goto_phil_other s _ hj, hold]
      dsimp only at hne
      omega
  · intro k hk
    cases hk
  · intro _
    apply hrep.file
    intro k hk
    rw [hmain] at hk
    cases hk
  · intro j f
    change Holds j f ((s.goto ⟨i, h⟩ .thinking).phil j) ↔ _
    by_cases hj : j = ⟨i, h⟩
    · subst j
      rw [← hrep.holds, hunforked, State.goto_phil_self]
      exact Iff.rfl
    · rw [State.goto_phil_other s _ hj]
      exact hrep.holds j f

theorem forked {s : State N} {owner : LockTable (Fin N) (Fin N)}
    (hrep : Represents s owner) {i : Nat} (h : N ≤ i)
    (hmain : s.main = .fork i) :
    Represents { s with main := .wait } owner := by
  refine ⟨?_, ?_, ?_, hrep.holds⟩
  · intro j
    have hold : s.phil j = .unforked ↔ i ≤ j.val := by
      simpa [hmain, MainPc.forkCount] using hrep.unforked j
    rw [hold]
    simp only [MainPc.forkCount]
    omega
  · intro k hk
    cases hk
  · intro _
    apply hrep.file
    intro k hk
    rw [hmain] at hk
    cases hk

theorem stutter {s s' : State N} {e : Event N}
    {owner : LockTable (Fin N) (Fin N)} (hrep : Represents s owner)
    (hmove : Move s e s') (haction : lockAction e = none) :
    Represents s' owner := by
  cases hmove with
  | initlock h hmain => exact hrep.initlock h hmain
  | initlocked h hmain => exact hrep.initlocked h hmain
  | fork h hmain => exact hrep.fork h hmain
  | forked h hmain => exact hrep.forked h hmain
  | think hpc => exact hrep.goto (by simp [hpc]) (by simp) (by simp [hpc, Holds])
  | blocked => exact hrep
  | take => cases haction
  | eat hpc => exact hrep.goto (by simp [hpc]) (by simp) (by simp [hpc, Holds])
  | put => cases haction

theorem step (hN : 2 ≤ N) {s s' : State N} {e : Event N}
    {owner : LockTable (Fin N) (Fin N)} {action : LockAction (Fin N) (Fin N)}
    (hrep : Represents s owner) (hmove : Move s e s')
    (haction : lockAction e = some action) :
    ∃ owner', LockTable.Step owner action owner' ∧ Represents s' owner' := by
  cases hmove with
  | initlock | initlocked | fork | forked | think | blocked | eat =>
      cases haction
  | @take i f next htakes hfile =>
      cases haction
      obtain ⟨hi, hnext⟩ := htakes.started
      have hinit := hrep.initlocked_of_started hi
      have hfree := hrep.free_of_no_file hinit hfile
      refine ⟨_, .acquire hfree, hrep.move hi hnext ?_ ?_ ?_⟩
      · intro g
        rw [LockTable.isSome_acquire, funext (hrep.file hinit)]
      · intro g
        rw [htakes.holds_iff, LockTable.acquire_eq_some hfree, hrep.holds]
        simp [eq_comm]
      · intro j g hj
        rw [LockTable.acquire_eq_some hfree]
        simp [Ne.symm hj]
  | @put i f next hputs =>
      cases haction
      obtain ⟨hi, hnext⟩ := hputs.started
      have hinit := hrep.initlocked_of_started hi
      have howned : owner f = some i := (hrep.holds i f).mp hputs.holds
      refine ⟨_, .release howned, hrep.move hi hnext ?_ ?_ ?_⟩
      · intro g
        rw [LockTable.isSome_release, funext (hrep.file hinit)]
      · intro g
        rw [hputs.holds_iff hN, LockTable.release_eq_some, hrep.holds]
      · intro j g hj
        rw [LockTable.release_eq_some]
        constructor
        · exact fun h => h.1
        · intro h
          refine ⟨h, ?_⟩
          rintro rfl
          exact hj (Option.some.inj (h.symm.trans howned))

end Represents

/-- Philosopher `i` created the file of fork `f` and has not unlinked it since. -/
def Outstanding (trace : List (Event N)) (i f : Fin N) : Prop :=
  Since trace (.openExcl i f true) (.unlink i f)

theorem since_lockAction_iff (trace : List (Event N)) (i f : Fin N) :
    Since (trace.filterMap lockAction) (.acquire i f) (.release i f) ↔
      Outstanding trace i f := by
  induction trace using List.reverseRecOn with
  | nil => simp [Outstanding, not_since_nil]
  | append_singleton trace e ih =>
      unfold Outstanding at ih ⊢
      rw [since_snoc, ← ih, List.filterMap_append]
      cases haction : lockAction e with
      | none =>
          have hne : e ≠ .openExcl i f true ∧ e ≠ .unlink i f := by
            constructor <;> rintro rfl <;> cases haction
          simp [haction, hne]
      | some action =>
          have htail : List.filterMap lockAction [e] = [action] := by
            simp [haction]
          rw [htail, since_snoc]
          cases e with
          | openExcl j g created =>
              cases created <;> cases haction
              simp
          | unlink j g =>
              cases haction
              simp
          | initlock | initlocked | fork | forked | think | eat => cases haction

theorem run_represents (hN : 2 ≤ N) {start s : State N} {trace : List (Event N)}
    (hstart : (table N).Initial start) (hrun : (table N).Run start trace s) :
    ∃ owner, Represents s owner ∧
      ∀ i f, Outstanding trace i f ↔ owner f = some i := by
  obtain ⟨origin, owner, horigin, hrunA, hrep⟩ :=
    System.Run.simulation (A := LockTable.system (Fin N) (Fin N))
      (R := Represents) lockAction
      (fun s hs => ⟨_, rfl, Represents.initial hs⟩)
      (fun _ _ _ _ hrep hstep => hrep.stutter (step_move hstep))
      (fun _ _ _ _ _ hrep hstep => hrep.step hN (step_move hstep))
      hstart hrun
  refine ⟨owner, hrep, ?_⟩
  intro i f
  rw [← since_lockAction_iff, LockTable.run_owner_iff horigin hrunA]

theorem not_both_eating {s : State N} {owner : LockTable (Fin N) (Fin N)}
    (hrep : Represents s owner) {i j : Fin N} (hne : i ≠ j)
    (hshares : SharesFork i j) :
    ¬ (s.phil i = .eating ∧ s.phil j = .eating) := by
  rintro ⟨hi, hj⟩
  obtain ⟨f, hif, hjf⟩ := hshares
  have howner : owner f = some i := by
    rw [← hrep.holds, hi]
    exact hif
  have hother : owner f = some j := by
    rw [← hrep.holds, hj]
    exact hjf
  exact hne (Option.some.inj (howner.symm.trans hother))

/-- In every run, once `initlock` is through: the fork files are exactly those
created and not yet unlinked, each by one philosopher; an `unlink` removes the
caller's own file; neighbours do not eat at the same time. -/
theorem fork_files_exclusive (hN : 2 ≤ N) {start s : State N}
    {trace : List (Event N)} (hstart : (table N).Initial start)
    (hrun : (table N).Run start trace s) (hinit : s.Initlocked) :
    (∀ f, s.file f = true ↔ ∃ i, Outstanding trace i f) ∧
    (∀ f i j, Outstanding trace i f → Outstanding trace j f → i = j) ∧
    (∀ i f s', (table N).Step s (.unlink i f) s' →
      s.file f = true ∧ Outstanding trace i f ∧
        ∀ j, j ≠ i → ¬ Outstanding trace j f) ∧
    (∀ i j, i ≠ j → SharesFork i j →
      ¬ (s.phil i = .eating ∧ s.phil j = .eating)) := by
  obtain ⟨owner, hrep, howner⟩ := run_represents hN hstart hrun
  have hfile : ∀ f, s.file f = true ↔ ∃ i, Outstanding trace i f := by
    intro f
    rw [hrep.file hinit f, Option.isSome_iff_exists]
    simp only [howner]
  have hunique : ∀ f i j, Outstanding trace i f → Outstanding trace j f → i = j := by
    intro f i j hi hj
    rw [howner] at hi hj
    exact Option.some.inj (hi.symm.trans hj)
  refine ⟨hfile, hunique, ?_, ?_⟩
  · intro i f s' hstep
    cases step_move hstep with
    | put hputs =>
        have hown : Outstanding trace i f :=
          (howner i f).mpr ((hrep.holds i f).mp hputs.holds)
        refine ⟨(hfile f).mpr ⟨i, hown⟩, hown, ?_⟩
        intro j hj hother
        exact hj (hunique f j i hother hown)
  · intro i j hne hshares
    exact not_both_eating hrep hne hshares

/-- Two philosophers and both fork files left over: philosopher 0 gets to eat. -/
theorem fork_files_exclusive_first_meal :
    ∃ (trace : List (Event 2)) (s : State 2),
      (table 2).Run (atStart fun _ => true) trace s ∧ s.phil 0 = .eating ∧
      (∀ f, s.file f = true ↔ ∃ i, Outstanding trace i f) ∧
      (∀ f i j, Outstanding trace i f → Outstanding trace j f → i = j) ∧
      (∀ i f s', (table 2).Step s (.unlink i f) s' →
        s.file f = true ∧ Outstanding trace i f ∧
          ∀ j, j ≠ i → ¬ Outstanding trace j f) ∧
      (∀ i j, i ≠ j → SharesFork i j →
        ¬ (s.phil i = .eating ∧ s.phil j = .eating)) := by
  have hrun := run_of_schedule (s := atStart fun _ : Fin 2 => true)
    [.main, .main, .main, .main, .main, .philosopher 0, .philosopher 0,
      .philosopher 0] rfl
  refine ⟨_, _, hrun, rfl, ?_⟩
  apply fork_files_exclusive (Nat.le_refl 2) (atStart_initial _) hrun
  intro i hmain
  cases hmain

end ApueCourse.Dining
