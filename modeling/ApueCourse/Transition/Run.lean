import Mathlib.Data.List.Induction

/-! Labelled transition systems, their finite runs and the induction rules used
for invariants, conditional runs and progress. -/

namespace ApueCourse.Transition

structure System (State : Type u) (Label : Type v) where
  Initial : State → Prop
  Step : State → Label → State → Prop

namespace System

variable {State : Type u} {Label : Type v} {M : System State Label}

/-- A finite run with the labels of its steps, oldest first. -/
inductive Run (M : System State Label) : State → List Label → State → Prop
  | refl (s : State) : Run M s [] s
  | snoc {s middle finish : State} {trace : List Label} {label : Label} :
      Run M s trace middle → M.Step middle label finish →
      Run M s (trace ++ [label]) finish

def Reachable (M : System State Label) (s : State) : Prop :=
  ∃ start trace, M.Initial start ∧ M.Run start trace s

/-- The runs of `M` all of whose steps meet a condition on the state before the
step and on its label. -/
def restrict (M : System State Label) (allowed : State → Label → Prop) :
    System State Label where
  Initial := M.Initial
  Step s label s' := M.Step s label s' ∧ allowed s label

/-- `M` with the history kept in the state. -/
def recorded (M : System State Label) : System (List Label × State) Label where
  Initial a := a.1 = [] ∧ M.Initial a.2
  Step a label b := b.1 = a.1 ++ [label] ∧ M.Step a.2 label b.2

theorem Run.single {s s' : State} {label : Label} (hstep : M.Step s label s') :
    M.Run s [label] s' := by
  have hrun : M.Run s ([] ++ [label]) s' := Run.snoc (Run.refl s) hstep
  exact hrun

theorem Run.trans {s middle finish : State} {first second : List Label}
    (hfirst : M.Run s first middle) (hsecond : M.Run middle second finish) :
    M.Run s (first ++ second) finish := by
  induction hsecond with
  | refl => simpa using hfirst
  | snoc _ hstep ih =>
      rw [← List.append_assoc]
      exact Run.snoc ih hstep

theorem Run.cons {s middle finish : State} {label : Label} {trace : List Label}
    (hstep : M.Step s label middle) (hrun : M.Run middle trace finish) :
    M.Run s (label :: trace) finish :=
  Run.trans (Run.single hstep) hrun

theorem Run.nil_inv {s finish : State} (hrun : M.Run s [] finish) : s = finish := by
  generalize htrace : ([] : List Label) = trace at hrun
  cases hrun with
  | refl => rfl
  | snoc => simp at htrace

theorem Run.snoc_inv {s finish : State} {trace : List Label} {label : Label}
    (hrun : M.Run s (trace ++ [label]) finish) :
    ∃ middle, M.Run s trace middle ∧ M.Step middle label finish := by
  generalize htrace : trace ++ [label] = whole at hrun
  cases hrun with
  | refl => simp at htrace
  | snoc hinit hstep =>
      obtain ⟨rfl, hlabel⟩ := List.append_inj' htrace rfl
      cases hlabel
      exact ⟨_, hinit, hstep⟩

theorem Run.append_inv {s finish : State} {first second : List Label}
    (hrun : M.Run s (first ++ second) finish) :
    ∃ middle, M.Run s first middle ∧ M.Run middle second finish := by
  induction second using List.reverseRecOn generalizing finish with
  | nil => exact ⟨finish, by simpa using hrun, Run.refl finish⟩
  | append_singleton second label ih =>
      rw [← List.append_assoc] at hrun
      obtain ⟨last, hinit, hstep⟩ := hrun.snoc_inv
      obtain ⟨middle, hfirst, hsecond⟩ := ih hinit
      exact ⟨middle, hfirst, hsecond.snoc hstep⟩

theorem Run.cons_inv {s finish : State} {label : Label} {trace : List Label}
    (hrun : M.Run s (label :: trace) finish) :
    ∃ middle, M.Step s label middle ∧ M.Run middle trace finish := by
  have hsplit : M.Run s ([label] ++ trace) finish := hrun
  obtain ⟨middle, hfirst, hrest⟩ := hsplit.append_inv
  have hsingle : M.Run s ([] ++ [label]) middle := hfirst
  obtain ⟨origin, horigin, hstep⟩ := hsingle.snoc_inv
  cases horigin.nil_inv
  exact ⟨middle, hstep, hrest⟩

/-- The invariant rule with the history as ghost state: what holds of every
initial state with the empty history and is kept by every step holds of every
run. -/
theorem Run.history_invariant {I : List Label → State → Prop}
    (hinit : ∀ s, M.Initial s → I [] s)
    (hstep : ∀ trace s label s', I trace s → M.Step s label s' →
      I (trace ++ [label]) s')
    {start s : State} {trace : List Label} (hstart : M.Initial start)
    (hrun : M.Run start trace s) : I trace s := by
  induction hrun with
  | refl => exact hinit _ hstart
  | snoc _ hlast ih => exact hstep _ _ _ _ ih hlast

namespace Reachable

theorem of_initial {s : State} (hs : M.Initial s) : M.Reachable s :=
  ⟨s, [], hs, Run.refl s⟩

theorem run {s s' : State} {trace : List Label} (hs : M.Reachable s)
    (hrun : M.Run s trace s') : M.Reachable s' := by
  obtain ⟨start, past, hstart, hpast⟩ := hs
  exact ⟨start, past ++ trace, hstart, hpast.trans hrun⟩

theorem step {s s' : State} {label : Label} (hs : M.Reachable s)
    (hstep : M.Step s label s') : M.Reachable s' :=
  hs.run (Run.single hstep)

theorem invariant {I : State → Prop} (hinit : ∀ s, M.Initial s → I s)
    (hstep : ∀ s label s', I s → M.Step s label s' → I s')
    {s : State} (hs : M.Reachable s) : I s := by
  obtain ⟨start, trace, hstart, hrun⟩ := hs
  exact Run.history_invariant (I := fun _ s => I s) hinit
    (fun _ s label s' => hstep s label s') hstart hrun

end Reachable

theorem restrict_run {allowed : State → Label → Prop} {s s' : State}
    {trace : List Label} (hrun : (M.restrict allowed).Run s trace s') :
    M.Run s trace s' := by
  induction hrun with
  | refl => exact Run.refl _
  | snoc _ hstep ih => exact Run.snoc ih hstep.1

theorem restrict_reachable {allowed : State → Label → Prop} {s : State}
    (hs : (M.restrict allowed).Reachable s) : M.Reachable s := by
  obtain ⟨start, trace, hstart, hrun⟩ := hs
  exact ⟨start, trace, hstart, restrict_run hrun⟩

theorem recorded_run {a b : List Label × State} {trace : List Label}
    (hrun : M.recorded.Run a trace b) : b.1 = a.1 ++ trace ∧ M.Run a.2 trace b.2 := by
  induction hrun with
  | refl => exact ⟨(List.append_nil _).symm, Run.refl _⟩
  | snoc _ hstep ih =>
      obtain ⟨hhistory, hrun⟩ := ih
      refine ⟨?_, hrun.snoc hstep.2⟩
      rw [hstep.1, hhistory, List.append_assoc]

/-- Forward simulation with stuttering: `action` says which step of the abstract
system, if any, a step of the concrete one performs. -/
theorem Run.simulation {State' : Type u'} {Label' : Type v'}
    {A : System State' Label'} {R : State → State' → Prop}
    (action : Label → Option Label')
    (hinit : ∀ s, M.Initial s → ∃ a, A.Initial a ∧ R s a)
    (hstutter : ∀ s label s' a, R s a → M.Step s label s' →
      action label = none → R s' a)
    (hstep : ∀ s label s' a label', R s a → M.Step s label s' →
      action label = some label' → ∃ a', A.Step a label' a' ∧ R s' a')
    {start s : State} {trace : List Label} (hstart : M.Initial start)
    (hrun : M.Run start trace s) :
    ∃ origin a, A.Initial origin ∧ A.Run origin (trace.filterMap action) a ∧
      R s a := by
  induction hrun with
  | refl =>
      obtain ⟨a, ha, hR⟩ := hinit _ hstart
      exact ⟨a, a, ha, Run.refl a, hR⟩
  | @snoc middle _ trace label _ hlast ih =>
      obtain ⟨origin, a, horigin, hrunA, hR⟩ := ih
      rw [List.filterMap_append]
      cases haction : action label with
      | none =>
          refine ⟨origin, a, horigin, ?_, hstutter _ _ _ a hR hlast haction⟩
          simpa [haction] using hrunA
      | some label' =>
          obtain ⟨a', hstepA, hR'⟩ := hstep _ _ _ a label' hR hlast haction
          refine ⟨origin, a', horigin, ?_, hR'⟩
          simpa [haction] using hrunA.snoc hstepA

/-- Progress by a decreasing measure: where every state of `I` outside `goal`
has a step that stays in `I` and lowers `measure`, some run reaches `goal`. -/
theorem exists_run_of_decreasing {I goal : State → Prop} (measure : State → Nat)
    (hstep : ∀ s, I s → ¬ goal s →
      ∃ label s', M.Step s label s' ∧ I s' ∧ measure s' < measure s)
    {s : State} (hs : I s) : ∃ trace s', M.Run s trace s' ∧ I s' ∧ goal s' := by
  induction hn : measure s using Nat.strongRecOn generalizing s with
  | ind n ih =>
      by_cases hgoal : goal s
      · exact ⟨[], s, Run.refl s, hs, hgoal⟩
      · obtain ⟨label, middle, hfirst, hmiddle, hlt⟩ := hstep s hs hgoal
        obtain ⟨trace, s', hrun, hs', hgoal'⟩ :=
          ih (measure middle) (by omega) hmiddle rfl
        exact ⟨label :: trace, s', Run.cons hfirst hrun, hs', hgoal'⟩

end System

/-- In the history `trace` the event `on` has occurred, and `off` has not
occurred after it. -/
def Since (trace : List Label) (on off : Label) : Prop :=
  ∃ before after, trace = before ++ on :: after ∧ off ∉ after

theorem not_since_nil (on off : Label) : ¬ Since [] on off := by
  rintro ⟨before, after, htrace, -⟩
  simp at htrace

theorem since_snoc {trace : List Label} {label on off : Label} :
    Since (trace ++ [label]) on off ↔
      label = on ∨ Since trace on off ∧ label ≠ off := by
  constructor
  · rintro ⟨before, after, htrace, hoff⟩
    rcases List.eq_nil_or_concat after with rfl | ⟨after, last, rfl⟩
    · obtain ⟨-, hlabel⟩ := List.append_inj' htrace rfl
      exact Or.inl (List.singleton_inj.mp hlabel)
    · rw [List.concat_eq_append] at htrace hoff
      rw [← List.cons_append, ← List.append_assoc] at htrace
      obtain ⟨hbefore, hlabel⟩ := List.append_inj' htrace rfl
      cases hlabel
      refine Or.inr ⟨⟨before, after, hbefore, ?_⟩, ?_⟩
      · exact fun hmem => hoff (List.mem_append_left _ hmem)
      · rintro rfl
        exact hoff (by simp)
  · rintro (rfl | ⟨⟨before, after, rfl, hoff⟩, hlabel⟩)
    · exact ⟨trace, [], rfl, List.not_mem_nil⟩
    · refine ⟨before, after ++ [label], by simp, ?_⟩
      simpa [hoff] using Ne.symm hlabel

end ApueCourse.Transition
