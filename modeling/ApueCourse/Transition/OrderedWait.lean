import Mathlib.Data.Finset.Max

/-! Resources taken in increasing order leave no cycle of waiting processes. -/

namespace ApueCourse.Transition

variable {Process : Type u} {Resource : Type v} [LinearOrder Resource]

/-- Among finitely many processes that ask only for resources above all they
hold, and that are blocked only by one another, some process is not blocked:
the holder of the largest resource that is waited for. -/
theorem exists_not_blocked_of_increasing
    (active : Finset Process) (blocked : Process → Prop)
    (asks : Process → Resource) (holds : Process → Resource → Prop)
    (hactive : active.Nonempty)
    (hheld : ∀ p ∈ active, blocked p → ∃ q ∈ active, holds q (asks p))
    (hincreasing : ∀ p ∈ active, blocked p → ∀ r, holds p r → r < asks p) :
    ∃ p ∈ active, ¬ blocked p := by
  by_contra hnone
  have hall : ∀ p ∈ active, blocked p := by
    intro p hp
    by_contra hfree
    exact hnone ⟨p, hp, hfree⟩
  obtain ⟨p, hp, hmax⟩ := active.exists_max_image asks hactive
  obtain ⟨q, hq, hholds⟩ := hheld p hp (hall p hp)
  have hlt : asks p < asks q := hincreasing q hq (hall q hq) _ hholds
  exact absurd (hmax q hq) (not_le.mpr hlt)

end ApueCourse.Transition
