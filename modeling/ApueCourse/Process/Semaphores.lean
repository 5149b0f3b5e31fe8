import Mathlib.Algebra.BigOperators.Group.Finset.Basic
import Mathlib.Algebra.Order.BigOperators.Group.Finset
import Mathlib.Data.Fintype.Basic

/-! System V semaphore sets: `semop`, `SETVAL`, and what `SEM_UNDO` takes back when a process
ends. -/

namespace ApueCourse.Process

/-- One operation of `semop`. -/
structure Sembuf where
  num : Nat
  op : Int
  undo : Bool

/-- The greatest value of a semaphore and of what is taken back of it. -/
def SEMVMX : Int := 32767

/-- The values of a set, and for each process what goes to them when it ends. -/
structure SemSet (Pid : Type u) where
  semval : Nat → Int
  semadj : Pid → Nat → Int

inductive Semop (Pid : Type u)
  | done (set : SemSet Pid)
  | sleep
  | range

namespace SemSet

variable {Pid : Type u}

/-- A new set. -/
def zero : SemSet Pid where
  semval _ := 0
  semadj _ _ := 0

/-- `SETVAL`, after which nothing is taken back of the semaphore. -/
def setval (num : Nat) (value : Int) (set : SemSet Pid) : SemSet Pid where
  semval i := if i = num then value else set.semval i
  semadj p i := if i = num then 0 else set.semadj p i

/-- The value that a semaphore has once every process has ended, if no value is cut off. -/
def total [Fintype Pid] (set : SemSet Pid) (num : Nat) : Int :=
  set.semval num + ∑ p, set.semadj p num

variable {set : SemSet Pid} {num i : Nat} {value : Int}

@[simp] theorem semval_setval_self : (set.setval num value).semval num = value := if_pos rfl

@[simp] theorem semadj_setval_self (p : Pid) : (set.setval num value).semadj p num = 0 := if_pos rfl

theorem semval_setval_of_ne (hne : i ≠ num) : (set.setval num value).semval i = set.semval i :=
  if_neg hne

theorem semadj_setval_of_ne (hne : i ≠ num) (p : Pid) :
    (set.setval num value).semadj p i = set.semadj p i :=
  if_neg hne

section Total

variable [Fintype Pid]

theorem total_congr {set' : SemSet Pid} (hsemval : set'.semval i = set.semval i)
    (hsemadj : ∀ p, set'.semadj p i = set.semadj p i) : set'.total i = set.total i := by
  rw [total, total, hsemval, Finset.sum_congr rfl fun p _ => hsemadj p]

theorem total_zero (num : Nat) : (zero : SemSet Pid).total num = 0 := by
  have hsum : ∑ p, (zero : SemSet Pid).semadj p num = 0 := Finset.sum_const_zero
  rw [total, hsum]
  rfl

theorem total_setval_self : (set.setval num value).total num = value := by
  rw [total, semval_setval_self, Finset.sum_congr rfl fun p _ => semadj_setval_self p,
    Finset.sum_const_zero, Int.add_zero]

theorem total_setval_of_ne (hne : i ≠ num) : (set.setval num value).total i = set.total i :=
  total_congr (semval_setval_of_ne hne) fun p => semadj_setval_of_ne hne p

/-- With nobody owing less than nothing, a value and any one debt are within the total. -/
theorem semval_add_semadj_le (hnonneg : ∀ q, 0 ≤ set.semadj q num) (p : Pid) :
    set.semval num + set.semadj p num ≤ set.total num :=
  Int.add_le_add_left (Finset.single_le_sum (fun q _ => hnonneg q) (Finset.mem_univ p)) _

end Total

variable [DecidableEq Pid] {p q : Pid} {b : Sembuf}

def add (p : Pid) (b : Sembuf) (set : SemSet Pid) : SemSet Pid where
  semval i := if i = b.num then set.semval i + b.op else set.semval i
  semadj q i :=
    if b.undo = true ∧ q = p ∧ i = b.num then set.semadj q i - b.op else set.semadj q i

/-- The operations in their order, all of them or none. -/
def semop (p : Pid) : List Sembuf → SemSet Pid → Semop Pid
  | [], set => .done set
  | b :: ops, set =>
      if b.op = 0 then
        if set.semval b.num = 0 then semop p ops set else .sleep
      else if set.semval b.num + b.op < 0 then .sleep
      else if SEMVMX < set.semval b.num + b.op ∨ b.undo = true ∧
          (set.semadj p b.num - b.op < -SEMVMX - 1 ∨ SEMVMX < set.semadj p b.num - b.op) then
        .range
      else semop p ops (set.add p b)

/-- The end of a process. -/
def exit (p : Pid) (set : SemSet Pid) : SemSet Pid where
  semval i := min SEMVMX (max 0 (set.semval i + set.semadj p i))
  semadj q i := if q = p then 0 else set.semadj q i

/-- The first operation of those that have been done. -/
theorem semop_cons_inv {ops : List Sembuf} {set' : SemSet Pid}
    (hdone : set.semop p (b :: ops) = .done set') :
    b.op = 0 ∧ set.semval b.num = 0 ∧ set.semop p ops = .done set' ∨
      b.op ≠ 0 ∧ 0 ≤ set.semval b.num + b.op ∧ set.semval b.num + b.op ≤ SEMVMX ∧
        (set.add p b).semop p ops = .done set' := by
  rw [semop] at hdone
  split at hdone
  · rename_i hop
    split at hdone
    · exact .inl ⟨hop, ‹_›, hdone⟩
    · cases hdone
  · rename_i hop
    split at hdone
    · cases hdone
    · split at hdone
      · cases hdone
      · rename_i hsleep hrange
        rw [not_or] at hrange
        exact .inr ⟨hop, by omega, by omega, hdone⟩

theorem semop_cons {ops : List Sembuf} (hop : b.op ≠ 0) (hnonneg : 0 ≤ set.semval b.num + b.op)
    (hle : set.semval b.num + b.op ≤ SEMVMX) (hlow : -SEMVMX - 1 ≤ set.semadj p b.num - b.op)
    (hhigh : set.semadj p b.num - b.op ≤ SEMVMX) :
    set.semop p (b :: ops) = (set.add p b).semop p ops := by
  rw [semop, if_neg hop, if_neg (Int.not_lt.mpr hnonneg), if_neg]
  rintro (h | ⟨-, h | h⟩) <;> omega

theorem semval_add_self : (set.add p b).semval b.num = set.semval b.num + b.op := if_pos rfl

theorem semval_add_of_ne (hne : i ≠ b.num) : (set.add p b).semval i = set.semval i := if_neg hne

theorem semadj_add_self (hundo : b.undo = true) :
    (set.add p b).semadj p b.num = set.semadj p b.num - b.op :=
  if_pos ⟨hundo, rfl, rfl⟩

theorem semadj_add_of_ne_num (hne : i ≠ b.num) (q : Pid) :
    (set.add p b).semadj q i = set.semadj q i :=
  if_neg fun h => hne h.2.2

theorem semadj_add_of_ne (hne : q ≠ p) (i : Nat) : (set.add p b).semadj q i = set.semadj q i :=
  if_neg fun h => hne h.2.1

@[simp] theorem semadj_exit_self (i : Nat) : (set.exit p).semadj p i = 0 := if_pos rfl

theorem semadj_exit_of_ne (hne : q ≠ p) (i : Nat) : (set.exit p).semadj q i = set.semadj q i :=
  if_neg hne

/-- Nothing is cut off when what comes back leaves the value in its range. -/
theorem semval_exit (hnonneg : 0 ≤ set.semval i + set.semadj p i)
    (hle : set.semval i + set.semadj p i ≤ SEMVMX) :
    (set.exit p).semval i = set.semval i + set.semadj p i := by
  have hmax := max_eq_right hnonneg
  exact (congrArg (min SEMVMX) hmax).trans (min_eq_right hle)

variable [Fintype Pid]

/-- Only what `p` owes has changed. -/
theorem total_eq_of_ne {set' : SemSet Pid}
    (hne : ∀ q, q ≠ p → set'.semadj q i = set.semadj q i) :
    set'.total i = set.total i + (set'.semval i - set.semval i) +
      (set'.semadj p i - set.semadj p i) := by
  have hsum : ∀ s : SemSet Pid, ∑ q, s.semadj q i =
      s.semadj p i + ∑ q ∈ Finset.univ.erase p, s.semadj q i := fun s =>
    (Finset.add_sum_erase _ _ (Finset.mem_univ p)).symm
  rw [total, total, hsum, hsum, Finset.sum_congr rfl fun q hq => hne q (Finset.ne_of_mem_erase hq)]
  omega

/-- What is taken from the value is owed by the process. -/
theorem total_add (hundo : b.undo = true) (i : Nat) : (set.add p b).total i = set.total i := by
  rw [total_eq_of_ne (p := p) fun q hq => semadj_add_of_ne hq i]
  rcases eq_or_ne i b.num with rfl | hne
  · rw [semval_add_self, semadj_add_self hundo]
    omega
  · rw [semval_add_of_ne hne, semadj_add_of_ne_num hne]
    omega

theorem total_exit (hnonneg : 0 ≤ set.semval i + set.semadj p i)
    (hle : set.semval i + set.semadj p i ≤ SEMVMX) : (set.exit p).total i = set.total i := by
  rw [total_eq_of_ne (p := p) fun q hq => semadj_exit_of_ne hq i, semval_exit hnonneg hle,
    semadj_exit_self]
  omega

end SemSet

end ApueCourse.Process
