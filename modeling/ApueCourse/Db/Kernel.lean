import ApueCourse.Memory.File
import ApueCourse.Program.Prog

/-! The two files of a database, the record locks on them and the system calls of `db.c`. -/

namespace ApueCourse.Db

open Memory

inductive FileId
  | idx
  | dat
  deriving DecidableEq

inductive LockMode
  | read
  | write
  deriving DecidableEq

/-- The range of a lock.  With the length 0 it has no end. -/
structure Range where
  file : FileId
  start : Nat
  len : Nat
  deriving DecidableEq

namespace Range

def Has (range : Range) (file : FileId) (byte : Nat) : Prop :=
  file = range.file ∧ range.start ≤ byte ∧ (range.len = 0 ∨ byte < range.start + range.len)

instance (range : Range) (file : FileId) (byte : Nat) : Decidable (range.Has file byte) :=
  inferInstanceAs (Decidable (_ ∧ _ ∧ _))

end Range

/-- The locks that each process has, byte by byte. -/
abbrev Locks (Pid : Type) := Pid → FileId → Nat → Option LockMode

namespace Locks

variable {Pid : Type} [DecidableEq Pid]

/-- `fcntl` on a range: the process has the bytes in the new mode, or no longer. -/
def set (locks : Locks Pid) (p : Pid) (range : Range) (mode : Option LockMode) :
    Locks Pid :=
  fun q file byte => if q = p ∧ range.Has file byte then mode else locks q file byte

/-- No other process has a byte of the range in a mode that does not go with `mode`. -/
def Grants (locks : Locks Pid) (p : Pid) (range : Range) (mode : LockMode) : Prop :=
  ∀ q ≠ p, ∀ file byte, range.Has file byte → ∀ mode', locks q file byte = some mode' →
    mode = .read ∧ mode' = .read

/-- All locks of a process are gone when it ends. -/
def release (locks : Locks Pid) (p : Pid) : Locks Pid :=
  fun q file byte => if q = p then none else locks q file byte

/-- Two processes have a byte in common for reading only. -/
def Exclusive (locks : Locks Pid) : Prop :=
  ∀ p q file byte mode mode', p ≠ q → locks p file byte = some mode →
    locks q file byte = some mode' → mode = .read ∧ mode' = .read

theorem Exclusive.set_some {locks : Locks Pid} (hlocks : locks.Exclusive) {p : Pid}
    {range : Range} {mode : LockMode} (hgrants : locks.Grants p range mode) :
    (locks.set p range (some mode)).Exclusive := by
  intro q₁ q₂ file byte mode₁ mode₂ hne hq₁ hq₂
  simp only [set] at hq₁ hq₂
  split at hq₁ <;> split at hq₂
  · rename_i h₁ h₂
    exact absurd (h₁.1.trans h₂.1.symm) hne
  · rename_i h₁ h₂
    cases hq₁
    exact hgrants q₂ (h₁.1 ▸ hne.symm) file byte h₁.2 mode₂ hq₂
  · rename_i h₁ h₂
    cases hq₂
    exact (hgrants q₁ (h₂.1 ▸ hne) file byte h₂.2 mode₁ hq₁).symm
  · exact hlocks q₁ q₂ file byte mode₁ mode₂ hne hq₁ hq₂

theorem Exclusive.set_none {locks : Locks Pid} (hlocks : locks.Exclusive) (p : Pid)
    (range : Range) : (locks.set p range none).Exclusive := by
  intro q₁ q₂ file byte mode₁ mode₂ hne hq₁ hq₂
  simp only [set] at hq₁ hq₂
  split at hq₁ <;> split at hq₂
  · cases hq₁
  · cases hq₁
  · cases hq₂
  · exact hlocks q₁ q₂ file byte mode₁ mode₂ hne hq₁ hq₂

theorem Exclusive.release {locks : Locks Pid} (hlocks : locks.Exclusive) (p : Pid) :
    (locks.release p).Exclusive := by
  intro q₁ q₂ file byte mode₁ mode₂ hne hq₁ hq₂
  simp only [Locks.release] at hq₁ hq₂
  split at hq₁ <;> split at hq₂
  · cases hq₁
  · cases hq₁
  · cases hq₂
  · exact hlocks q₁ q₂ file byte mode₁ mode₂ hne hq₁ hq₂

theorem set_other {locks : Locks Pid} {p q : Pid} (hne : q ≠ p) (range : Range)
    (mode : Option LockMode) : locks.set p range mode q = locks q := by
  funext file byte
  exact if_neg fun h => hne h.1

end Locks

/-- The flags of `open`. -/
structure OFlags where
  readable : Bool
  writable : Bool
  creat : Bool
  excl : Bool
  trunc : Bool
  append : Bool
  deriving DecidableEq

/-- The system calls on the files.  A descriptor's offset is its process's own, so that
`read` and `write` have it as an argument; `append` is a `write` under `O_APPEND`. -/
inductive Op
  | open (file : FileId) (flags : OFlags)
  | lockw (mode : LockMode) (range : Range)
  | unlock (range : Range)
  | read (file : FileId) (pos n : Nat)
  | write (file : FileId) (pos : Nat) (bytes : List Byte)
  | append (file : FileId) (bytes : List Byte)
  | size (file : FileId)
  deriving DecidableEq

/-- `write` says whether it has written, and `append` gives the offset behind what it has
written. -/
def Op.Res : Op → Type
  | .open .. | .write .. => Bool
  | .lockw .. | .unlock _ => Unit
  | .read .. => List Byte
  | .append .. => Option Nat
  | .size _ => Nat

/-- The largest `off_t`. -/
def OFF_MAX : Nat := 2 ^ 63 - 1

structure World (Pid : Type) where
  present : FileId → Bool
  content : FileId → List Byte
  locks : Locks Pid

namespace World

variable {Pid : Type}

def setContent (w : World Pid) (file : FileId) (content : List Byte) : World Pid :=
  { w with content := Function.update w.content file content }

@[simp] theorem setContent_locks (w : World Pid) (file : FileId) (content : List Byte) :
    (w.setContent file content).locks = w.locks := rfl

@[simp] theorem setContent_content (w : World Pid) (file : FileId) (content : List Byte) :
    (w.setContent file content).content = Function.update w.content file content := rfl

variable [DecidableEq Pid]

/-- `open` where it succeeds. -/
def opened (w : World Pid) (file : FileId) (flags : OFlags) : World Pid where
  present := Function.update w.present file true
  content := Function.update w.content file
    (if w.present file ∧ ¬ flags.trunc then w.content file else [])
  locks := w.locks

def CanOpen (w : World Pid) (file : FileId) (flags : OFlags) : Prop :=
  if w.present file then ¬ (flags.creat ∧ flags.excl) else flags.creat

/-- One system call of the process `p`.  `lockw` waits as long as the lock is not
granted, and no file grows past `OFF_MAX`. -/
inductive Sys (p : Pid) : (op : Op) → World Pid → op.Res → World Pid → Prop
  | opened {w : World Pid} {file : FileId} {flags : OFlags} (hopen : w.CanOpen file flags) :
      Sys p (.open file flags) w true (w.opened file flags)
  | refused {w : World Pid} {file : FileId} {flags : OFlags} :
      Sys p (.open file flags) w false w
  | lockw {w : World Pid} {mode : LockMode} {range : Range}
      (hgrants : w.locks.Grants p range mode) :
      Sys p (.lockw mode range) w () { w with locks := w.locks.set p range (some mode) }
  | unlock {w : World Pid} {range : Range} :
      Sys p (.unlock range) w () { w with locks := w.locks.set p range none }
  | read {w : World Pid} {file : FileId} {pos n : Nat} :
      Sys p (.read file pos n) w (readAt (w.content file) pos n) w
  | write {w : World Pid} {file : FileId} {pos : Nat} {bytes : List Byte}
      (hfits : pos + bytes.length ≤ OFF_MAX) :
      Sys p (.write file pos bytes) w true
        (w.setContent file (writeAt (w.content file) pos bytes))
  | writeTooBig {w : World Pid} {file : FileId} {pos : Nat} {bytes : List Byte}
      (hbig : OFF_MAX < pos + bytes.length) : Sys p (.write file pos bytes) w false w
  | append {w : World Pid} {file : FileId} {bytes : List Byte}
      (hfits : (w.content file ++ bytes).length ≤ OFF_MAX) :
      Sys p (.append file bytes) w (some (w.content file ++ bytes).length)
        (w.setContent file (w.content file ++ bytes))
  | appendTooBig {w : World Pid} {file : FileId} {bytes : List Byte}
      (hbig : OFF_MAX < (w.content file ++ bytes).length) :
      Sys p (.append file bytes) w none w
  | size {w : World Pid} {file : FileId} :
      Sys p (.size file) w (w.content file).length w

theorem Sys.locks_other {p q : Pid} {op : Op} {w w' : World Pid} {r : op.Res}
    (hsys : Sys p op w r w') (hne : q ≠ p) : w'.locks q = w.locks q := by
  cases hsys with
  | lockw | unlock => exact Locks.set_other hne _ _
  | opened | refused | read | write | writeTooBig | append | appendTooBig | size => rfl

theorem Sys.exclusive {p : Pid} {op : Op} {w w' : World Pid} {r : op.Res}
    (hsys : Sys p op w r w') (hexclusive : w.locks.Exclusive) : w'.locks.Exclusive := by
  cases hsys with
  | lockw hgrants => exact hexclusive.set_some hgrants
  | unlock => exact hexclusive.set_none _ _
  | opened | refused | read | write | writeTooBig | append | appendTooBig | size =>
      exact hexclusive

end World

end ApueCourse.Db
