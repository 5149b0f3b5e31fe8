import ApueCourse.Semaph.Protocol
import Mathlib.Algebra.BigOperators.Ring.Finset

/-! The lock of `semaph.c`, the third member of the set. -/

namespace ApueCourse.Semaph

open Process Transition

variable {Pid : Type u}

/-- Which set each process has locked. -/
def State.locked (s : State Pid) (p : Pid) : Option Nat := (s.pc p).locked

variable {s s' : State Pid} {p q : Pid} {id : Nat} {set set' : SemSet Pid}

@[simp] theorem locked_setLive : (s.setLive id set).locked = s.locked := rfl

/-- One process at most has locked the set, and it owes the lock. -/
structure SetLocked [Fintype Pid] (set : SemSet Pid) (locked : Pid → Option Nat) : Prop where
  owed : ∀ p, set.semadj p 2 = if locked p = none then 0 else -1
  total : set.total 2 = 0
  le : set.semval 2 ≤ 1

structure Locked [Fintype Pid] (current : Option (Nat × SemSet Pid))
    (locked : Pid → Option Nat) : Prop where
  live : ∀ p id, locked p = some id → ∃ set, current = some (id, set)
  set : ∀ id set, current = some (id, set) → SetLocked set locked

section Owed

variable [Fintype Pid] {locked : Pid → Option Nat} (hset : SetLocked set locked)
include hset

theorem SetLocked.congr (hsemval : set'.semval 2 = set.semval 2)
    (hsemadj : ∀ p, set'.semadj p 2 = set.semadj p 2) : SetLocked set' locked where
  owed p := (hsemadj p).trans (hset.owed p)
  total := (SemSet.total_congr hsemval hsemadj).trans hset.total
  le := hsemval ▸ hset.le

theorem SetLocked.semval_eq : set.semval 2 = (Finset.univ.filter fun p => locked p ≠ none).card := by
  have hsum : ∑ p, set.semadj p 2 =
      -((Finset.univ.filter fun p => locked p ≠ none).card : Int) := by
    rw [Finset.sum_congr rfl fun p _ => hset.owed p, Finset.card_filter, Nat.cast_sum,
      ← Finset.sum_neg_distrib]
    refine Finset.sum_congr rfl fun p _ => ?_
    by_cases hnone : locked p = none
    · rw [if_pos hnone, if_neg (not_not.mpr hnone)]
      rfl
    · rw [if_neg hnone, if_pos hnone]
      rfl
  have htotal := hset.total
  rw [SemSet.total, hsum] at htotal
  omega

theorem SetLocked.nonneg : 0 ≤ set.semval 2 := by
  rw [hset.semval_eq]
  exact Int.natCast_nonneg _

theorem SetLocked.unique (hp : locked p ≠ none) (hq : locked q ≠ none) : p = q := by
  have hle := hset.le
  rw [hset.semval_eq] at hle
  exact Finset.card_le_one.mp (Int.ofNat_le.mp hle) p
    (Finset.mem_filter.mpr ⟨Finset.mem_univ p, hp⟩) q
    (Finset.mem_filter.mpr ⟨Finset.mem_univ q, hq⟩)

theorem SetLocked.semval_of_locked (hp : locked p ≠ none) : set.semval 2 = 1 := by
  have hpos : 0 < (Finset.univ.filter fun p => locked p ≠ none).card :=
    Finset.card_pos.mpr ⟨p, Finset.mem_filter.mpr ⟨Finset.mem_univ p, hp⟩⟩
  have hle := hset.le
  rw [hset.semval_eq] at hle ⊢
  omega

theorem SetLocked.locked_eq_none (hzero : set.semval 2 = 0) (p : Pid) : locked p = none := by
  by_contra hp
  have hone := hset.semval_of_locked hp
  omega

/-- What is in the lock with what a process owes is within its range. -/
theorem SetLocked.range_exit (p : Pid) :
    0 ≤ set.semval 2 + set.semadj p 2 ∧ set.semval 2 + set.semadj p 2 ≤ 1 := by
  have hnonneg := hset.nonneg
  have hle := hset.le
  rw [hset.owed p]
  split
  · omega
  · rename_i hp
    rw [hset.semval_of_locked hp]
    decide

theorem SetLocked.setval {num : Nat} (hne : 2 ≠ num) (value : Int) :
    SetLocked (set.setval num value) locked :=
  hset.congr (SemSet.semval_setval_of_ne hne) fun p => SemSet.semadj_setval_of_ne hne p

end Owed

theorem SetLocked.zero [Fintype Pid] : SetLocked (.zero : SemSet Pid) fun _ => none where
  owed _ := rfl
  total := SemSet.total_zero 2
  le := Int.le_of_lt Int.zero_lt_one

namespace Locked

variable [Fintype Pid] {locked : Pid → Option Nat}

theorem start : Locked (none : Option (Nat × SemSet Pid)) fun _ => none where
  live := nofun
  set := nofun

/-- The process goes on with the lock as it was, and the lock of the set is as it was. -/
theorem stay (h : Locked (some (id, set)) locked) (hset : SetLocked set' locked) :
    Locked (some (id, set')) locked where
  live p id' hp := by
    obtain ⟨set'', heq⟩ := h.live p id' hp
    cases heq
    exact ⟨set', rfl⟩
  set id' set'' heq := by
    cases heq
    exact hset

theorem locked_eq_none (h : Locked none locked) : locked = fun _ => none := by
  funext p
  cases hp : locked p with
  | none => rfl
  | some id => cases (h.live p id hp).choose_spec

/-- `semget` leaves the lock as it is. -/
theorem semget (h : Locked s.live s.locked) : Locked s.semget.2.live s.semget.2.locked := by
  obtain ⟨live, next, pc, handles⟩ := s
  cases live with
  | some live => exact h
  | none =>
      have hnone := h.locked_eq_none
      refine ⟨fun p id hp => ?_, ?_⟩
      · cases (congrFun hnone p).symm.trans hp
      · intro id set hlive
        cases hlive
        have hzero : SetLocked (.zero : SemSet Pid) fun _ => none := SetLocked.zero
        rwa [← hnone] at hzero

end Locked

variable [DecidableEq Pid]

/-! What the operations of `semaph.c` do when they do not sleep. -/

theorem semop_lock (hop : set.semop p op_lock = .done set') :
    set.semval 2 = 0 ∧ set' = set.add p ⟨2, 1, true⟩ := by
  obtain ⟨-, hzero, hrest⟩ | ⟨hne, -⟩ := SemSet.semop_cons_inv hop
  · obtain ⟨hne, -⟩ | ⟨-, -, -, hnil⟩ := SemSet.semop_cons_inv hrest
    · cases hne
    · cases hnil
      exact ⟨hzero, rfl⟩
  · exact absurd rfl hne

theorem semop_endcreate (hop : set.semop p op_endcreate = .done set') :
    1 ≤ set.semval 1 ∧ set' = (set.add p ⟨1, -1, true⟩).add p ⟨2, -1, true⟩ := by
  obtain ⟨hne, -⟩ | ⟨-, hpos, -, hrest⟩ := SemSet.semop_cons_inv hop
  · cases hne
  · obtain ⟨hne, -⟩ | ⟨-, -, -, hnil⟩ := SemSet.semop_cons_inv hrest
    · cases hne
    · have hpos' : 0 ≤ set.semval 1 + -1 := hpos
      cases hnil
      exact ⟨by omega, rfl⟩

theorem semop_open (hop : set.semop p op_open = .done set') :
    1 ≤ set.semval 1 ∧ set' = set.add p ⟨1, -1, true⟩ := by
  obtain ⟨hne, -⟩ | ⟨-, hpos, -, hnil⟩ := SemSet.semop_cons_inv hop
  · cases hne
  · have hpos' : 0 ≤ set.semval 1 + -1 := hpos
    cases hnil
    exact ⟨by omega, rfl⟩

theorem semop_close (hop : set.semop p op_close = .done set') :
    set.semval 2 = 0 ∧ set' = (set.add p ⟨2, 1, true⟩).add p ⟨1, 1, true⟩ := by
  obtain ⟨-, hzero, hrest⟩ | ⟨hne, -⟩ := SemSet.semop_cons_inv hop
  · obtain ⟨hne, -⟩ | ⟨-, -, -, hrest'⟩ := SemSet.semop_cons_inv hrest
    · cases hne
    · obtain ⟨hne, -⟩ | ⟨-, -, -, hnil⟩ := SemSet.semop_cons_inv hrest'
      · cases hne
      · cases hnil
        exact ⟨hzero, rfl⟩
  · exact absurd rfl hne

theorem semop_unlock (hop : set.semop p op_unlock = .done set') :
    set' = set.add p ⟨2, -1, true⟩ := by
  obtain ⟨hne, -⟩ | ⟨-, -, -, hnil⟩ := SemSet.semop_cons_inv hop
  · cases hne
  · cases hnil
    rfl

theorem semop_op {value : Int} (hvalue : value ≠ 0)
    (hop : set.semop p (op_op value) = .done set') :
    0 ≤ set.semval 0 + value ∧ set.semval 0 + value ≤ SEMVMX ∧
      set' = set.add p ⟨0, value, true⟩ := by
  obtain ⟨hzero, -⟩ | ⟨-, hnonneg, hle, hnil⟩ := SemSet.semop_cons_inv hop
  · exact absurd hzero hvalue
  · cases hnil
    exact ⟨hnonneg, hle, rfl⟩

@[simp] theorem locked_setPc (pc : Pc) :
    (s.setPc p pc).locked = Function.update s.locked p pc.locked :=
  Function.comp_update Pc.locked s.pc p pc

@[simp] theorem locked_setHandles (handles : List Nat) :
    (s.setHandles p handles).locked = s.locked := rfl

variable [Fintype Pid]

namespace SetLocked

variable {locked : Pid → Option Nat} (hset : SetLocked set locked)
include hset

theorem add_of_ne {b : Sembuf} (hne : 2 ≠ b.num) (p : Pid) : SetLocked (set.add p b) locked :=
  hset.congr (SemSet.semval_add_of_ne hne) fun q => SemSet.semadj_add_of_ne_num hne q

theorem enter (hzero : set.semval 2 = 0) (p : Pid) (id : Nat) :
    SetLocked (set.add p ⟨2, 1, true⟩) (Function.update locked p (some id)) where
  owed q := by
    rcases eq_or_ne q p with rfl | hne
    · rw [SemSet.semadj_add_self (b := ⟨2, 1, true⟩) rfl, hset.owed q,
        hset.locked_eq_none hzero q, Function.update_self]
      rfl
    · rw [SemSet.semadj_add_of_ne hne, hset.owed q, Function.update_of_ne hne]
  total := (SemSet.total_add (b := ⟨2, 1, true⟩) rfl 2).trans hset.total
  le := by
    rw [SemSet.semval_add_self (b := ⟨2, 1, true⟩), hzero]
    decide

theorem leave (hp : locked p ≠ none) :
    SetLocked (set.add p ⟨2, -1, true⟩) (Function.update locked p none) where
  owed q := by
    rcases eq_or_ne q p with rfl | hne
    · rw [SemSet.semadj_add_self (b := ⟨2, -1, true⟩) rfl, hset.owed q, if_neg hp,
        Function.update_self]
      rfl
    · rw [SemSet.semadj_add_of_ne hne, hset.owed q, Function.update_of_ne hne]
  total := (SemSet.total_add (b := ⟨2, -1, true⟩) rfl 2).trans hset.total
  le := by
    rw [SemSet.semval_add_self (b := ⟨2, -1, true⟩), hset.semval_of_locked hp]
    decide

theorem exit (p : Pid) : SetLocked (set.exit p) (Function.update locked p none) where
  owed q := by
    rcases eq_or_ne q p with rfl | hne
    · rw [SemSet.semadj_exit_self, Function.update_self, if_pos rfl]
    · rw [SemSet.semadj_exit_of_ne hne, hset.owed q, Function.update_of_ne hne]
  total := by
    obtain ⟨hnonneg, hle⟩ := hset.range_exit p
    exact (SemSet.total_exit hnonneg (hle.trans (by decide))).trans hset.total
  le := by
    obtain ⟨hnonneg, hle⟩ := hset.range_exit p
    rw [SemSet.semval_exit hnonneg (hle.trans (by decide))]
    exact hle

end SetLocked

namespace Locked

variable {current : Option (Nat × SemSet Pid)} {locked : Pid → Option Nat}

theorem enter (h : Locked (some (id, set)) locked)
    (hset : SetLocked set' (Function.update locked p (some id))) :
    Locked (some (id, set')) (Function.update locked p (some id)) where
  live q id' hq := by
    rcases eq_or_ne q p with rfl | hne
    · rw [Function.update_self] at hq
      cases hq
      exact ⟨set', rfl⟩
    · rw [Function.update_of_ne hne] at hq
      obtain ⟨set'', heq⟩ := h.live q id' hq
      cases heq
      exact ⟨set', rfl⟩
  set id' set'' heq := by
    cases heq
    exact hset

theorem leave (h : Locked (some (id, set)) locked)
    (hset : SetLocked set' (Function.update locked p none)) :
    Locked (some (id, set')) (Function.update locked p none) where
  live q id' hq := by
    rcases eq_or_ne q p with rfl | hne
    · rw [Function.update_self] at hq
      cases hq
    · rw [Function.update_of_ne hne] at hq
      obtain ⟨set'', heq⟩ := h.live q id' hq
      cases heq
      exact ⟨set', rfl⟩
  set id' set'' heq := by
    cases heq
    exact hset

/-- The set goes, and the one process with it that had locked it. -/
theorem remove (h : Locked (some (id, set)) locked) (hp : locked p ≠ none) :
    Locked none (Function.update locked p none) where
  live q id' hq := by
    rcases eq_or_ne q p with rfl | hne
    · rw [Function.update_self] at hq
      cases hq
    · rw [Function.update_of_ne hne] at hq
      have hq' : locked q ≠ none := by
        rw [hq]
        exact Option.some_ne_none id'
      exact absurd ((h.set id set rfl).unique hq' hp) hne
  set := nofun

theorem exit (h : Locked current locked) (p : Pid) :
    Locked (State.afterExit p current) (Function.update locked p none) := by
  cases current with
  | none =>
      rw [h.locked_eq_none, Function.update_eq_self]
      exact start
  | some live =>
      obtain ⟨id, set⟩ := live
      exact h.leave ((h.set id set rfl).exit p)

/-- A step of a process that has the same set locked afterwards. -/
theorem setPc (h : Locked s.live s.locked) {pc : Pc} (hpc : pc.locked = s.locked p) :
    Locked (s.setPc p pc).live (s.setPc p pc).locked := by
  rw [locked_setPc, hpc, Function.update_eq_self]
  exact h

end Locked

/-- Every step of every process keeps the lock. -/
theorem locked_step {event : Event Pid} (h : Locked s.live s.locked)
    (hstep : State.Step s event s') : Locked s'.live s'.locked := by
  have hidle : ∀ {p}, s.pc p = .idle → none = s.locked p := fun hpc =>
    (congrArg Pc.locked hpc).symm
  cases hstep with
  | @create p initval hpc =>
      have hlocked : s.semget.2.locked p = s.locked p := by
        unfold State.semget
        split <;> rfl
      exact h.semget.setPc ((hidle hpc).trans hlocked.symm)
  | @again p id initval hpc hgone =>
      have hlocked : s.semget.2.locked p = s.locked p := by
        unfold State.semget
        split <;> rfl
      exact h.semget.setPc ((congrArg Pc.locked hpc).symm.trans hlocked.symm)
  | sleep hpc hlive hop => exact h.setPc (congrArg Pc.locked hpc).symm
  | lock hpc hlive hop =>
      rw [hlive] at h
      obtain ⟨hzero, rfl⟩ := semop_lock hop
      rw [locked_setPc, locked_setLive]
      exact h.enter ((h.set _ _ rfl).enter hzero _ _)
  | getval hpc hlive =>
      refine h.setPc ?_
      rw [State.locked, hpc]
      split <;> rfl
  | @setval p id initval set hpc hlive hrange =>
      rw [hlive] at h
      have hset := (h.set _ _ rfl).setval (show 2 ≠ 0 by decide) initval
      exact Locked.setPc (s := s.setLive id _) (h.stay hset) (congrArg Pc.locked hpc).symm
  | @resetval p id set hpc hlive =>
      rw [hlive] at h
      have hset := (h.set _ _ rfl).setval (show 2 ≠ 1 by decide) BIGCOUNT
      exact Locked.setPc (s := s.setLive id _) (h.stay hset) (congrArg Pc.locked hpc).symm
  | @endcreate p id set set' hpc hlive hop =>
      rw [hlive] at h
      obtain ⟨-, rfl⟩ := semop_endcreate hop
      have hp : s.locked p ≠ none := by
        rw [State.locked, hpc]
        exact Option.some_ne_none id
      rw [locked_setHandles, locked_setPc, locked_setLive]
      exact h.leave (((h.set _ _ rfl).add_of_ne (by decide) p).leave hp)
  | «open» hpc hlive => exact h.setPc (hidle hpc)
  | @opened p id set set' hpc hlive hop =>
      rw [hlive] at h
      obtain ⟨-, rfl⟩ := semop_open hop
      have hset := (h.set _ _ rfl).add_of_ne (b := ⟨1, -1, true⟩) (by decide) p
      exact Locked.setPc (s := s.setLive id _) (h.stay hset) (congrArg Pc.locked hpc).symm
  | op hpc hid hlive hvalue hop =>
      rw [hlive] at h
      obtain ⟨-, -, rfl⟩ := semop_op hvalue hop
      exact h.stay ((h.set _ _ rfl).add_of_ne (show 2 ≠ 0 by decide) _)
  | close hpc hid hlive hop =>
      rw [hlive] at h
      obtain ⟨hzero, rfl⟩ := semop_close hop
      rw [locked_setHandles, locked_setPc, locked_setLive]
      exact h.enter (((h.set _ _ rfl).enter hzero _ _).add_of_ne (by decide) _)
  | getclose hpc hlive hle =>
      refine h.setPc ?_
      rw [State.locked, hpc]
      split <;> rfl
  | @remove p id set hpc hlive =>
      rw [hlive] at h
      have hp : s.locked p ≠ none := by
        rw [State.locked, hpc]
        exact Option.some_ne_none id
      rw [locked_setPc]
      exact h.remove hp
  | @unlock p id set set' hpc hlive hop =>
      rw [hlive] at h
      obtain rfl := semop_unlock hop
      have hp : s.locked p ≠ none := by
        rw [State.locked, hpc]
        exact Option.some_ne_none id
      rw [locked_setPc, locked_setLive]
      exact h.leave ((h.set _ _ rfl).leave hp)
  | exit hpc =>
      rw [locked_setHandles, locked_setPc]
      exact h.exit _

theorem locked_reachable (hs : (system Pid).Reachable s) : Locked s.live s.locked := by
  refine System.Reachable.invariant (I := fun s => Locked s.live s.locked) ?_
    (fun _ _ _ h hstep => locked_step h hstep) hs
  rintro s rfl
  exact Locked.start

/-- One process at a time is between the first and the last operation on the lock, whoever ends
and wherever, and the value of the lock says whether there is one. -/
theorem one_process_has_lock (hs : (system Pid).Reachable s) :
    (∀ p q, s.locked p ≠ none → s.locked q ≠ none → p = q) ∧
      ∀ id set, s.live = some (id, set) →
        set.semval 2 = (Finset.univ.filter fun p => s.locked p ≠ none).card := by
  have hlocked := locked_reachable hs
  refine ⟨fun p q hp hq => ?_, fun id set hlive => (hlocked.set id set hlive).semval_eq⟩
  obtain ⟨id, hid⟩ := Option.ne_none_iff_exists'.mp hp
  obtain ⟨set, hlive⟩ := hlocked.live p id hid
  exact (hlocked.set id set hlive).unique hp hq

theorem one_process_has_lock_creating : ∃ s : State (Fin 2), s.locked 0 = some 0 ∧
    (∀ p q, s.locked p ≠ none → s.locked q ≠ none → p = q) ∧
      ∀ id set, s.live = some (id, set) →
        set.semval 2 = (Finset.univ.filter fun p => s.locked p ≠ none).card := by
  have hs : (system (Fin 2)).Reachable _ := ⟨_, _, rfl, (System.Run.single
    (@State.Step.create _ _ ⟨none, 0, fun _ => .idle, fun _ => []⟩ 0 1 rfl)).snoc
    (@State.Step.lock _ _ _ 0 0 1 false _ _ rfl rfl rfl)⟩
  exact ⟨_, rfl, one_process_has_lock hs⟩

end ApueCourse.Semaph
