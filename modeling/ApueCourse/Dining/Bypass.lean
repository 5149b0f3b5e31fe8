import Mathlib.Data.List.Chain
import ApueCourse.Dining.Progress

/-! How often a neighbour can eat while a philosopher polls in `takeFork`. -/

namespace ApueCourse.Dining

open Transition

variable {N : Nat}

/-- The second `lock` of `takeFork(i)` returns: `i` leaves `takeFork` and eats. -/
def startMeal (i : Fin N) : Event N := .openExcl i (takeFork i).2 true

def InTakeFork (pc : PhilosopherPc) : Prop := pc = .takeFirst ∨ pc = .takeSecond

def Polls (i : Fin N) (_ : List (Event N)) (e : Event N) : Prop :=
  ∃ f created, e = .openExcl i f created

/-- Philosopher `i` makes a lock attempt on a fork that nobody else has in hand,
the steps of `past` being those before the attempt. -/
def PollsFreeFork (i : Fin N) (past : List (Event N)) (e : Event N) : Prop :=
  ∃ f created, e = .openExcl i f created ∧ ∀ j, j ≠ i → ¬ Outstanding past j f

/-- Between any two consecutive meals of `j` in `trace` there is an attempt. -/
def AttemptBetweenMeals (attempt : List (Event N) → Event N → Prop)
    (past trace : List (Event N)) (j : Fin N) : Prop :=
  ∀ before between after,
    trace = before ++ .eat j :: (between ++ startMeal j :: after) →
    startMeal j ∉ between →
    ∃ first e rest, between = first ++ e :: rest ∧
      attempt (past ++ (before ++ .eat j :: first)) e

/-- In every run and for every philosopher `i` inside `takeFork` that makes an
attempt between any two consecutive meals of each neighbour, no neighbour starts
more than `K` meals before `i` leaves `takeFork`. -/
def BoundedBypass (N K : Nat)
    (attempt : Fin N → List (Event N) → Event N → Prop) : Prop :=
  ∀ start past middle trace finish i,
    (table N).Initial start → (table N).Run start past middle →
    InTakeFork (middle.phil i) → (table N).Run middle trace finish →
    startMeal i ∉ trace →
    (∀ j, j ≠ i → SharesFork i j →
      AttemptBetweenMeals (attempt i) past trace j) →
    ∀ j, j ≠ i → SharesFork i j → trace.count (startMeal j) ≤ K

/-! An attempt on a free fork succeeds, and there are only two of them. -/

theorem attempt_takes {s s' : State N} {i f : Fin N} {created : Bool}
    (hmove : Move s (.openExcl i f created) s') :
    ∃ next, Takes i f (s.phil i) next ∧
      (created = true → s'.phil i = next) := by
  cases hmove with
  | @blocked _ _ next htakes hfile => exact ⟨next, htakes, by simp⟩
  | @take _ _ next htakes hfile =>
      exact ⟨next, htakes, fun _ => State.goto_phil_self s i next⟩

theorem attempt_succeeds (hN : 2 ≤ N) {start s s' : State N}
    {past : List (Event N)} {e : Event N} {i : Fin N}
    (hstart : (table N).Initial start) (hpast : (table N).Run start past s)
    (hstep : (table N).Step s e s') (hfree : PollsFreeFork i past e) :
    ∃ f next, e = .openExcl i f true ∧ Takes i f (s.phil i) next ∧
      s'.phil i = next := by
  obtain ⟨f, created, rfl, hothers⟩ := hfree
  have hmove := step_move hstep
  obtain ⟨next, htakes, hnext⟩ := attempt_takes hmove
  cases created with
  | true => exact ⟨f, next, rfl, htakes, hnext rfl⟩
  | false =>
      obtain ⟨owner, hrep, howner⟩ := run_represents hN hstart hpast
      have hinit := hrep.initlocked_of_started htakes.started.1
      have hfile : s.file f = true := by
        cases hmove with
        | blocked _ hfile => exact hfile
      rw [hrep.file hinit, Option.isSome_iff_exists] at hfile
      obtain ⟨j, hj⟩ := hfile
      have hself : j = i := by
        by_contra hne
        exact hothers j hne ((howner j f).mpr hj)
      subst j
      exact absurd ((hrep.holds i f).mpr hj) (htakes.not_holds hN)

def Event.actor : Event N → Option (Fin N)
  | .initlock _ | .initlocked | .forked => none
  | .fork i | .think i | .openExcl i _ _ | .eat i | .unlink i _ => some i

theorem phil_of_other_actor {s s' : State N} {e : Event N} {i : Fin N}
    (hmove : Move s e s') (hactor : e.actor ≠ some i) :
    s'.phil i = s.phil i := by
  cases hmove with
  | initlock | initlocked | forked | blocked => rfl
  | fork h hmain =>
      exact State.goto_phil_other s _ (fun h => hactor (congrArg some h.symm))
  | think | take | eat | put =>
      exact State.goto_phil_other s _ (fun h => hactor (congrArg some h.symm))

theorem philosopher_of_actor {s s' : State N} {e : Event N} {i : Fin N}
    (hs : Consistent s) (hmove : Move s e s') (hactor : e.actor = some i)
    (hstarted : s.phil i ≠ .unforked) : s.philosopher i = some (e, s') := by
  cases hmove with
  | initlock | initlocked | forked => cases hactor
  | fork h hmain =>
      cases hactor
      obtain ⟨owner, hrep⟩ := hs
      rw [Ne, hrep.unforked, hmain] at hstarted
      exact absurd (Nat.le_refl _) hstarted
  | think hpc =>
      cases hactor
      exact philosopher_of_thinking hpc
  | blocked htakes hfile =>
      cases hactor
      rw [philosopher_of_takes htakes, State.lock_of_present hfile]
  | take htakes hfile =>
      cases hactor
      rw [philosopher_of_takes htakes, State.lock_of_absent hfile]
  | eat hpc =>
      cases hactor
      exact philosopher_of_eating hpc
  | put hputs =>
      cases hactor
      exact philosopher_of_puts hputs

theorem takeSecond_step {s s' : State N} {e : Event N} {i : Fin N}
    (hs : Consistent s) (hmove : Move s e s') (hpc : s.phil i = .takeSecond)
    (hleave : e ≠ startMeal i) : s'.phil i = .takeSecond := by
  by_cases hactor : e.actor = some i
  · have hown := philosopher_of_actor hs hmove hactor (by simp [hpc])
    have htakes : Takes i (takeFork i).2 (s.phil i) .eating := by
      rw [hpc]
      exact .second
    rw [philosopher_of_takes htakes] at hown
    cases hfile : s.file (takeFork i).2 with
    | true =>
        rw [State.lock_of_present hfile] at hown
        cases hown
        exact hpc
    | false =>
        rw [State.lock_of_absent hfile] at hown
        cases hown
        exact absurd rfl hleave
  · rw [phil_of_other_actor hmove hactor, hpc]

theorem eating_step {s s' : State N} {e : Event N} {i : Fin N}
    (hs : Consistent s) (hmove : Move s e s') (hpc : s.phil i = .eating)
    (hleave : e ≠ .eat i) : s'.phil i = .eating := by
  by_cases hactor : e.actor = some i
  · have hown := philosopher_of_actor hs hmove hactor (by simp [hpc])
    rw [philosopher_of_eating hpc] at hown
    cases hown
    exact absurd rfl hleave
  · rw [phil_of_other_actor hmove hactor, hpc]

theorem stays_at (hN : 2 ≤ N) {i : Fin N} {pc : PhilosopherPc} {leave : Event N}
    (hstay : ∀ s e s', Consistent s → Move s e s' → s.phil i = pc → e ≠ leave →
      s'.phil i = pc)
    {s s' : State N} {trace : List (Event N)} (hs : Consistent s)
    (hrun : (table N).Run s trace s') (hpc : s.phil i = pc)
    (hleave : leave ∉ trace) : s'.phil i = pc := by
  induction hrun with
  | refl => exact hpc
  | snoc hinit hstep ih =>
      simp only [List.mem_append, List.mem_singleton, not_or] at hleave
      exact hstay _ _ _ (hs.run hN hinit) (step_move hstep) (ih hleave.1)
        (Ne.symm hleave.2)

theorem startMeal_step (hN : 2 ≤ N) {s s' : State N} {i : Fin N}
    (hmove : Move s (startMeal i) s') :
    s.phil i = .takeSecond ∧ s'.phil i = .eating := by
  obtain ⟨next, htakes, hnext⟩ := attempt_takes hmove
  generalize hpc : s.phil i = pc at htakes
  generalize hf : (takeFork i).2 = f at htakes
  cases htakes with
  | first => exact absurd hf (takeFork_fst_lt_snd hN i).ne'
  | second => exact ⟨rfl, hnext rfl⟩

theorem eat_mem_between (hN : 2 ≤ N) {s s' : State N} {j : Fin N}
    {between : List (Event N)} (hs : Consistent s)
    (hrun : (table N).Run s (startMeal j :: (between ++ [startMeal j])) s') :
    .eat j ∈ between := by
  by_contra heat
  obtain ⟨first, hstart, hrest⟩ := hrun.cons_inv
  obtain ⟨last, hbetween, hend⟩ := hrest.snoc_inv
  have heating := (startMeal_step hN (step_move hstart)).2
  have hstill := stays_at hN (fun _ _ _ => eating_step) (hs.step hN hstart)
    hbetween heating heat
  rw [(startMeal_step hN (step_move hend)).1] at hstill
  cases hstill

/-- Two attempts on free forks take philosopher `i` through `takeFork`. -/
theorem startMeal_mem_of_two_attempts (hN : 2 ≤ N) {start middle finish : State N}
    {past before between after : List (Event N)} {first second : Event N}
    {i : Fin N} (hstart : (table N).Initial start)
    (hpast : (table N).Run start past middle)
    (hrun : (table N).Run middle
      (before ++ first :: (between ++ second :: after)) finish)
    (hfirst : PollsFreeFork i (past ++ before) first)
    (hsecond : PollsFreeFork i (past ++ (before ++ first :: between)) second) :
    startMeal i ∈ before ++ first :: (between ++ second :: after) := by
  obtain ⟨s₁, hbefore, hrest⟩ := hrun.append_inv
  obtain ⟨s₂, hstep₁, hrest⟩ := hrest.cons_inv
  obtain ⟨s₃, hbetween, hrest⟩ := hrest.append_inv
  obtain ⟨s₄, hstep₂, -⟩ := hrest.cons_inv
  have hrun₁ := hpast.trans hbefore
  have hrun₃ := hpast.trans (hbefore.trans (System.Run.cons hstep₁ hbetween))
  obtain ⟨f, next, rfl, htakes₁, hnext⟩ :=
    attempt_succeeds hN hstart hrun₁ hstep₁ hfirst
  obtain ⟨g, last, rfl, htakes₂, hlast⟩ :=
    attempt_succeeds hN hstart hrun₃ hstep₂ hsecond
  by_contra hmem
  simp only [List.mem_append, List.mem_cons, not_or] at hmem
  obtain ⟨-, hne₁, hnot, hne₂, -⟩ := hmem
  have hs₂ := reachable_consistent hN ⟨start, _, hstart, hrun₁.snoc hstep₁⟩
  generalize hpc₁ : s₁.phil i = pc₁ at htakes₁
  cases htakes₁ with
  | second => exact hne₁ rfl
  | first =>
      have hpc₃ := stays_at hN (fun _ _ _ => takeSecond_step) hs₂ hbetween
        hnext hnot
      rw [hpc₃] at htakes₂
      cases htakes₂
      exact hne₂ rfl

theorem exists_attempt_between (hN : 2 ≤ N) {middle finish : State N}
    {attempt : List (Event N) → Event N → Prop}
    {past before between after : List (Event N)} {j : Fin N}
    (hs : Consistent middle)
    (hrun : (table N).Run middle
      (before ++ startMeal j :: (between ++ startMeal j :: after)) finish)
    (hattempt : AttemptBetweenMeals attempt past
      (before ++ startMeal j :: (between ++ startMeal j :: after)) j)
    (hbetween : startMeal j ∉ between) :
    ∃ first e rest, between = first ++ e :: rest ∧
      attempt (past ++ (before ++ startMeal j :: first)) e := by
  obtain ⟨s₁, hbefore, hrest⟩ := hrun.append_inv
  have hmeals : (startMeal j :: (between ++ startMeal j :: after)) =
      (startMeal j :: (between ++ [startMeal j])) ++ after := by simp
  rw [hmeals] at hrest
  obtain ⟨s₂, hmiddle, -⟩ := hrest.append_inv
  have heat := eat_mem_between hN (hs.run hN hbefore) hmiddle
  obtain ⟨u, v, rfl⟩ := List.append_of_mem heat
  obtain ⟨first, e, rest, rfl, hgood⟩ :=
    hattempt (before ++ startMeal j :: u) v after (by simp) (by
      intro hmem
      exact hbetween (List.mem_append_right _ (List.mem_cons_of_mem _ hmem)))
  refine ⟨u ++ .eat j :: first, e, rest, by simp, ?_⟩
  simpa using hgood

theorem exists_split_of_count {e : Event N} {trace : List (Event N)}
    (hcount : 0 < trace.count e) :
    ∃ before after, trace = before ++ e :: after ∧ e ∉ before ∧
      trace.count e = after.count e + 1 := by
  obtain ⟨before, after, htrace, hnot⟩ :=
    List.eq_append_cons_of_mem (List.count_pos_iff.mp hcount)
  refine ⟨before, after, htrace, hnot, ?_⟩
  rw [htrace, List.count_append, List.count_cons_self,
    List.count_eq_zero_of_not_mem hnot]
  omega

/-- A philosopher that, between any two consecutive meals of each neighbour,
polls at a moment when nobody else has the fork it asks for lets no neighbour
start more than two meals before it leaves `takeFork`. -/
theorem bypass_le_two_of_free_polls (hN : 2 ≤ N) :
    BoundedBypass N 2 (PollsFreeFork (N := N)) := by
  intro start past middle trace finish i hstart hpast _ hrun hinside hbetween
    j hne hshares
  by_contra hmany
  have hattempt := hbetween j hne hshares
  have hs := reachable_consistent hN ⟨start, past, hstart, hpast⟩
  obtain ⟨a, rest, rfl, -, hcount⟩ :=
    exists_split_of_count (show 0 < trace.count (startMeal j) by omega)
  obtain ⟨b, rest, rfl, hb, hcount'⟩ :=
    exists_split_of_count (show 0 < rest.count (startMeal j) by omega)
  obtain ⟨c, d, rfl, hc, -⟩ :=
    exists_split_of_count (show 0 < rest.count (startMeal j) by omega)
  obtain ⟨b₁, first, b₂, hbsplit, hfirst⟩ :=
    exists_attempt_between hN hs hrun hattempt hb
  have hassoc : a ++ startMeal j :: (b ++ startMeal j :: (c ++ startMeal j :: d)) =
      (a ++ startMeal j :: b) ++ startMeal j :: (c ++ startMeal j :: d) := by
    simp
  rw [hassoc] at hrun hattempt
  obtain ⟨c₁, second, c₂, hcsplit, hsecond⟩ :=
    exists_attempt_between hN hs hrun hattempt hc
  subst hbsplit hcsplit
  have hrun' : (table N).Run middle
      ((a ++ startMeal j :: b₁) ++ first :: ((b₂ ++ startMeal j :: c₁) ++
        second :: (c₂ ++ startMeal j :: d))) finish := by
    simpa using hrun
  have hmem := startMeal_mem_of_two_attempts hN hstart hpast hrun' hfirst
    (by simpa using hsecond)
  exact hinside (by simpa using hmem)

theorem bypass_le_two_of_free_polls_five :
    BoundedBypass 5 2 (PollsFreeFork (N := 5)) :=
  bypass_le_two_of_free_polls (by decide)

/-! Attempts that meet the file do not help: the neighbour may take the fork again
before each of them. -/

section Overtaking

variable (hN : 2 ≤ N)

/-- Philosopher 0 and its left neighbour, the one with the reversed order. -/
def firstPhilosopher : Fin N := ⟨0, by omega⟩

def lastPhilosopher : Fin N := ⟨N - 1, by omega⟩

theorem takeFork_last :
    takeFork (lastPhilosopher hN) = (firstPhilosopher hN, lastPhilosopher hN) := by
  simp [takeFork, lastPhilosopher, firstPhilosopher]

theorem takeFork_first_fst :
    (takeFork (firstPhilosopher hN)).1 = firstPhilosopher hN := by
  have hne : (firstPhilosopher hN).val ≠ N - 1 := by
    simp only [firstPhilosopher]
    omega
  simp [takeFork, hne]

theorem first_ne_last : firstPhilosopher hN ≠ lastPhilosopher hN := by
  intro heq
  have := congrArg Fin.val heq
  simp only [firstPhilosopher, lastPhilosopher] at this
  omega

/-- One meal of the last philosopher, with an attempt of philosopher 0 on fork 0
while it is taken. -/
def overtake : List (Event N) :=
  [.think (lastPhilosopher hN),
    .openExcl (lastPhilosopher hN) (firstPhilosopher hN) true,
    .openExcl (firstPhilosopher hN) (firstPhilosopher hN) false,
    .openExcl (lastPhilosopher hN) (lastPhilosopher hN) true,
    .eat (lastPhilosopher hN),
    .unlink (lastPhilosopher hN) (firstPhilosopher hN),
    .unlink (lastPhilosopher hN) (lastPhilosopher hN)]

/-- Philosopher 0 polls for fork 0, the last philosopher thinks, and both forks of
the latter lie on the table. -/
structure Overtakable (s : State N) : Prop where
  polling : s.phil (firstPhilosopher hN) = .takeFirst
  thinking : s.phil (lastPhilosopher hN) = .thinking
  first_free : s.file (firstPhilosopher hN) = false
  last_free : s.file (lastPhilosopher hN) = false

theorem takes_last_first :
    Takes (lastPhilosopher hN) (firstPhilosopher hN) .takeFirst .takeSecond := by
  have htakes := Takes.first (i := lastPhilosopher hN)
  rwa [takeFork_last] at htakes

theorem takes_last_second :
    Takes (lastPhilosopher hN) (lastPhilosopher hN) .takeSecond .eating := by
  have htakes := Takes.second (i := lastPhilosopher hN)
  rwa [takeFork_last] at htakes

theorem puts_last_first :
    Puts (lastPhilosopher hN) (firstPhilosopher hN) .putFirst .putSecond := by
  have hputs := Puts.first (i := lastPhilosopher hN)
  rwa [takeFork_last] at hputs

theorem puts_last_second :
    Puts (lastPhilosopher hN) (lastPhilosopher hN) .putSecond .thinking := by
  have hputs := Puts.second (i := lastPhilosopher hN)
  rwa [takeFork_last] at hputs

theorem takes_first_first :
    Takes (firstPhilosopher hN) (firstPhilosopher hN) .takeFirst .takeSecond := by
  have htakes := Takes.first (i := firstPhilosopher hN)
  rwa [takeFork_first_fst] at htakes

theorem Overtakable.overtake {s : State N} (hs : Overtakable hN s) :
    ∃ s', (table N).Run s (overtake hN) s' ∧ Overtakable hN s' := by
  have hne := first_ne_last hN
  let asking := s.goto (lastPhilosopher hN) .takeFirst
  let holding : State N := { asking.goto (lastPhilosopher hN) .takeSecond with
    file := Function.update asking.file (firstPhilosopher hN) true }
  let dining : State N := { holding.goto (lastPhilosopher hN) .eating with
    file := Function.update holding.file (lastPhilosopher hN) true }
  let sated := dining.goto (lastPhilosopher hN) .putFirst
  let putting : State N := { sated.goto (lastPhilosopher hN) .putSecond with
    file := Function.update sated.file (firstPhilosopher hN) false }
  let resting : State N := { putting.goto (lastPhilosopher hN) .thinking with
    file := Function.update putting.file (lastPhilosopher hN) false }
  have hthink : Move s (.think (lastPhilosopher hN)) asking := .think hs.thinking
  have hfirst : Move asking
      (.openExcl (lastPhilosopher hN) (firstPhilosopher hN) true) holding := by
    refine .take ?_ hs.first_free
    rw [State.goto_phil_self]
    exact takes_last_first hN
  have hpoll : Move holding
      (.openExcl (firstPhilosopher hN) (firstPhilosopher hN) false) holding := by
    have hpc : holding.phil (firstPhilosopher hN) = .takeFirst := by
      simp [holding, asking, State.goto, hne, hs.polling]
    have hfile : holding.file (firstPhilosopher hN) = true := by
      simp [holding]
    have htakes : Takes (firstPhilosopher hN) (firstPhilosopher hN)
        (holding.phil (firstPhilosopher hN)) .takeSecond := by
      rw [hpc]
      exact takes_first_first hN
    exact .blocked htakes hfile
  have hsecond : Move holding
      (.openExcl (lastPhilosopher hN) (lastPhilosopher hN) true) dining := by
    have hpc : holding.phil (lastPhilosopher hN) = .takeSecond := by
      simp [holding, State.goto]
    refine .take ?_ ?_
    · rw [hpc]
      exact takes_last_second hN
    · simp [holding, asking, hne.symm, hs.last_free]
  have heat : Move dining (.eat (lastPhilosopher hN)) sated := by
    apply Move.eat
    simp [dining, State.goto]
  have hputFirst : Move sated
      (.unlink (lastPhilosopher hN) (firstPhilosopher hN)) putting := by
    apply Move.put
    simpa [sated, State.goto] using puts_last_first hN
  have hputSecond : Move putting
      (.unlink (lastPhilosopher hN) (lastPhilosopher hN)) resting := by
    apply Move.put
    simpa [putting, State.goto] using puts_last_second hN
  refine ⟨resting, ?_, ?_⟩
  · exact .cons (step_of_move hthink) <| .cons (step_of_move hfirst) <|
      .cons (step_of_move hpoll) <| .cons (step_of_move hsecond) <|
      .cons (step_of_move heat) <| .cons (step_of_move hputFirst) <|
      .single (step_of_move hputSecond)
  · constructor
    · simp [resting, putting, sated, dining, holding, asking, State.goto, hne,
        hs.polling]
    · simp [resting, State.goto]
    · simp [resting, putting, hne]
    · simp [resting]

theorem Overtakable.overtake_many {s : State N} (hs : Overtakable hN s)
    (meals : Nat) :
    ∃ s', (table N).Run s (List.replicate meals (Dining.overtake hN)).flatten s' := by
  induction meals generalizing s with
  | zero => exact ⟨s, System.Run.refl s⟩
  | succ meals ih =>
      obtain ⟨middle, hfirst, hmiddle⟩ := hs.overtake hN
      obtain ⟨s', hrest⟩ := ih hmiddle
      refine ⟨s', ?_⟩
      rw [List.replicate_succ, List.flatten_cons]
      exact hfirst.trans hrest

/-- Each meal of the last philosopher comes right after a failed attempt of
philosopher 0. -/
def AfterAttempt (e e' : Event N) : Prop :=
  e' = startMeal (lastPhilosopher hN) →
    e = .openExcl (firstPhilosopher hN) (firstPhilosopher hN) false

theorem isChain_overtake (meals : Nat) :
    List.IsChain (AfterAttempt hN)
      (List.replicate meals (Dining.overtake hN)).flatten := by
  induction meals with
  | zero => simp
  | succ meals ih =>
      rw [List.replicate_succ, List.flatten_cons, List.isChain_append]
      refine ⟨?_, ih, ?_⟩
      · simp [Dining.overtake, AfterAttempt, startMeal, takeFork_last,
          first_ne_last hN]
      · intro e _ e' he'
        have hhead : e' = .think (lastPhilosopher hN) := by
          cases meals with
          | zero => simp at he'
          | succ meals => simpa [Dining.overtake, List.replicate_succ] using he'.symm
        subst hhead
        intro heq
        simp [startMeal] at heq

theorem mem_overtake {meals : Nat} {e : Event N}
    (he : e ∈ (List.replicate meals (Dining.overtake hN)).flatten) :
    e ∈ Dining.overtake hN := by
  rw [List.mem_flatten] at he
  obtain ⟨round, hround, hmem⟩ := he
  rw [List.eq_of_mem_replicate hround] at hmem
  exact hmem

theorem startMeal_mem_overtake {i : Fin N}
    (hmem : startMeal i ∈ Dining.overtake hN) : i = lastPhilosopher hN := by
  simp only [Dining.overtake, startMeal, List.mem_cons, List.not_mem_nil, or_false] at hmem
  rcases hmem with h | h | h | h | h | h | h
  all_goals first
    | exact (Event.openExcl.inj h).1
    | exact absurd (Event.openExcl.inj h).2.2 (by decide)
    | cases h

theorem count_overtake (meals : Nat) :
    (List.replicate meals (Dining.overtake hN)).flatten.count
      (startMeal (lastPhilosopher hN)) = meals := by
  induction meals with
  | zero => simp
  | succ meals ih =>
      have hne := first_ne_last hN
      rw [List.replicate_succ, List.flatten_cons, List.count_append, ih]
      have hone : (Dining.overtake hN).count (startMeal (lastPhilosopher hN)) = 1 := by
        simp [Dining.overtake, startMeal, takeFork_last, hne, hne.symm]
      omega

theorem attempt_between_overtake (meals : Nat) (past : List (Event N)) :
    AttemptBetweenMeals (Polls (firstPhilosopher hN)) past
      (List.replicate meals (Dining.overtake hN)).flatten
      (lastPhilosopher hN) := by
  intro before between after htrace _
  have hchain := isChain_overtake hN meals
  rw [htrace] at hchain
  rcases List.eq_nil_or_concat between with rfl | ⟨first, e, rfl⟩
  · rw [List.nil_append, List.isChain_append_cons_cons] at hchain
    have hattempt := hchain.2.1 rfl
    cases hattempt
  · have hshape : before ++ Event.eat (lastPhilosopher hN) ::
        (first.concat e ++ startMeal (lastPhilosopher hN) :: after) =
        (before ++ Event.eat (lastPhilosopher hN) :: first) ++
          e :: startMeal (lastPhilosopher hN) :: after := by simp
    rw [hshape, List.isChain_append_cons_cons] at hchain
    exact ⟨first, e, [], by simp, _, _, hchain.2.1 rfl⟩

theorem exists_overtakable :
    ∃ (past : List (Event N)) (s : State N),
      (table N).Run (atStart fun _ => false) past s ∧ Overtakable hN s := by
  have hinit : Consistent (atStart fun _ : Fin N => false) :=
    ⟨_, Represents.initial (atStart_initial _)⟩
  obtain ⟨first, waiting, hfirst, hwaiting, hmain⟩ :=
    exists_run_to_wait hN hinit
  obtain ⟨second, resting, hsecond, hresting, hrest⟩ :=
    exists_run_to_rest hN hwaiting hmain
  have hfile := file_absent_at_rest hresting hrest
  have hthink : Move resting (.think (firstPhilosopher hN))
      (resting.goto (firstPhilosopher hN) .takeFirst) := .think (hrest _)
  refine ⟨_, _, (hfirst.trans hsecond).snoc (step_of_move hthink), ?_⟩
  constructor
  · exact State.goto_phil_self _ _ _
  · rw [State.goto_phil_other _ _ (first_ne_last hN).symm]
    exact hrest _
  · exact hfile _
  · exact hfile _

end Overtaking

/-- No number bounds the meals of a neighbour by attempts alone. -/
theorem not_boundedBypass_of_polls (hN : 2 ≤ N) (K : Nat) :
    ¬ BoundedBypass N K (Polls (N := N)) := by
  intro hbound
  obtain ⟨past, middle, hpast, hover⟩ := exists_overtakable hN
  obtain ⟨finish, hrun⟩ := hover.overtake_many hN (K + 1)
  have hinside : startMeal (firstPhilosopher hN) ∉
      (List.replicate (K + 1) (Dining.overtake hN)).flatten := by
    intro hmem
    exact first_ne_last hN (startMeal_mem_overtake hN (mem_overtake hN hmem))
  have hshares : SharesFork (firstPhilosopher hN) (lastPhilosopher hN) := by
    refine ⟨firstPhilosopher hN, Or.inl ?_, Or.inl ?_⟩
    · rw [takeFork_first_fst]
    · rw [takeFork_last]
  have hcount := hbound _ past middle _ finish (firstPhilosopher hN)
    (atStart_initial _) hpast (Or.inl hover.polling) hrun hinside ?_
    (lastPhilosopher hN) (first_ne_last hN).symm hshares
  · rw [count_overtake] at hcount
    omega
  · intro j _ _
    by_cases hj : j = lastPhilosopher hN
    · subst j
      exact attempt_between_overtake hN (K + 1) past
    · intro before between after htrace _
      have hmem : startMeal j ∈ (List.replicate (K + 1) (overtake hN)).flatten := by
        rw [htrace]
        simp
      exact absurd (startMeal_mem_overtake hN (mem_overtake hN hmem)) hj

theorem five_unbounded_bypass : ¬ ∃ K, BoundedBypass 5 K (Polls (N := 5)) := by
  rintro ⟨K, hbound⟩
  exact not_boundedBypass_of_polls (by decide) K hbound

end ApueCourse.Dining
