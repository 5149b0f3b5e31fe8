import Mathlib.Logic.Function.Basic
import ApueCourse.Transition.Run

/-! Exclusive locks as a partial map from resources to their owners. -/

namespace ApueCourse.Transition

/-- Who owns each resource.  A resource cannot have two owners. -/
abbrev LockTable (Process : Type u) (Resource : Type v) :=
  Resource → Option Process

inductive LockAction (Process : Type u) (Resource : Type v)
  | acquire (p : Process) (r : Resource)
  | release (p : Process) (r : Resource)

namespace LockTable

variable {Process : Type u} {Resource : Type v} [DecidableEq Resource]

def acquire (owner : LockTable Process Resource) (p : Process) (r : Resource) :
    LockTable Process Resource :=
  Function.update owner r (some p)

def release (owner : LockTable Process Resource) (r : Resource) :
    LockTable Process Resource :=
  Function.update owner r none

/-- A free resource goes to whoever asks; only its owner gives it back. -/
inductive Step : LockTable Process Resource → LockAction Process Resource →
    LockTable Process Resource → Prop
  | acquire {owner : LockTable Process Resource} {p : Process} {r : Resource}
      (hfree : owner r = none) :
      Step owner (.acquire p r) (owner.acquire p r)
  | release {owner : LockTable Process Resource} {p : Process} {r : Resource}
      (howned : owner r = some p) :
      Step owner (.release p r) (owner.release r)

def system (Process : Type u) (Resource : Type v) [DecidableEq Resource] :
    System (LockTable Process Resource) (LockAction Process Resource) where
  Initial owner := owner = fun _ => none
  Step := Step

theorem acquire_eq_some {owner : LockTable Process Resource} {p q : Process}
    {r r' : Resource} (hfree : owner r = none) :
    owner.acquire p r r' = some q ↔ (p = q ∧ r = r') ∨ owner r' = some q := by
  by_cases hr : r' = r
  · subst r'
    simp [acquire, hfree]
  · simp [acquire, hr, Ne.symm hr]

theorem release_eq_some {owner : LockTable Process Resource} {q : Process}
    {r r' : Resource} :
    owner.release r r' = some q ↔ owner r' = some q ∧ r' ≠ r := by
  by_cases hr : r' = r
  · subst r'
    simp [release]
  · simp [release, hr]

theorem isSome_acquire (owner : LockTable Process Resource) (p : Process)
    (r r' : Resource) :
    (owner.acquire p r r').isSome =
      Function.update (fun r => (owner r).isSome) r true r' := by
  by_cases hr : r' = r
  · subst r'
    simp [acquire]
  · simp [acquire, hr]

theorem isSome_release (owner : LockTable Process Resource) (r r' : Resource) :
    (owner.release r r').isSome =
      Function.update (fun r => (owner r).isSome) r false r' := by
  by_cases hr : r' = r
  · subst r'
    simp [release]
  · simp [release, hr]

/-- In every run the owner of a resource is the process that acquired it and has
not released it since. -/
theorem run_owner_iff {start owner : LockTable Process Resource}
    {trace : List (LockAction Process Resource)}
    (hstart : (system Process Resource).Initial start)
    (hrun : (system Process Resource).Run start trace owner)
    (p : Process) (r : Resource) :
    owner r = some p ↔ Since trace (.acquire p r) (.release p r) := by
  refine System.Run.history_invariant
    (I := fun trace owner => ∀ p r, owner r = some p ↔
      Since trace (LockAction.acquire p r) (LockAction.release p r))
    ?_ ?_ hstart hrun p r
  · rintro _ rfl p r
    simp [not_since_nil]
  · rintro trace owner _ _ ih hstep p r
    rw [since_snoc, ← ih p r]
    cases hstep with
    | acquire hfree => simp [acquire_eq_some hfree]
    | @release q r' howned =>
        rw [release_eq_some]
        constructor
        · rintro ⟨hp, hr⟩
          exact Or.inr ⟨hp, by simp [Ne.symm hr]⟩
        · rintro (hacquire | ⟨hp, hother⟩)
          · cases hacquire
          · refine ⟨hp, ?_⟩
            rintro rfl
            obtain rfl : q = p := Option.some.inj (howned.symm.trans hp)
            exact hother rfl

end LockTable

end ApueCourse.Transition
