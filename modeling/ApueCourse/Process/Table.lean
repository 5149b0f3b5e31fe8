import Mathlib.Logic.Function.Basic

/-! Process tables: who runs under an id and whose child it is.  An id belongs to
one process until the process has been collected, and can be used again then. -/

namespace ApueCourse.Process

/-- One id.  `running` is a process that executes the program under study and
`command` one that has replaced it.  A process whose parent is gone, or was never
studied, has the parent `none`. -/
inductive Slot (Prog : Type u)
  | free
  | foreign
  | running (parent : Option Nat) (prog : Prog)
  | command (parent : Option Nat)
  | zombie (parent : Option Nat)

namespace Slot

variable {Prog : Type u}

def parent : Slot Prog → Option Nat
  | .free | .foreign => none
  | .running parent _ | .command parent | .zombie parent => parent

/-- The process `q` is gone. -/
def orphan (q : Nat) : Slot Prog → Slot Prog
  | .running parent prog => .running (if parent = some q then none else parent) prog
  | .command parent => .command (if parent = some q then none else parent)
  | .zombie parent => .zombie (if parent = some q then none else parent)
  | slot => slot

theorem parent_orphan (slot : Slot Prog) (q : Nat) :
    (slot.orphan q).parent = if slot.parent = some q then none else slot.parent := by
  cases slot with
  | free | foreign => simp [orphan, parent]
  | running | command | zombie => rfl

def prog : Slot Prog → Option Prog
  | .running _ prog => some prog
  | _ => none

@[simp] theorem prog_orphan (slot : Slot Prog) (q : Nat) :
    (slot.orphan q).prog = slot.prog := by
  cases slot <;> rfl

end Slot

abbrev Table (Prog : Type u) := Nat → Slot Prog

namespace Table

variable {Prog : Type u} {s : Table Prog} {p q r : Nat}

def put (s : Table Prog) (p : Nat) (prog : Prog) : Table Prog :=
  Function.update s p (.running (s p).parent prog)

/-- The process `p` goes on with `prog`, its new child `q` starts with `child`. -/
def fork (s : Table Prog) (p q : Nat) (prog child : Prog) : Table Prog :=
  Function.update (s.put p prog) q (.running (some p) child)

def exec (s : Table Prog) (p : Nat) : Table Prog :=
  Function.update s p (.command (s p).parent)

/-- `q` ends: its children are orphans now, and its parent has to collect it. -/
def die (s : Table Prog) (q : Nat) : Table Prog :=
  fun r => (if r = q then .zombie (s q).parent else s r).orphan q

def collect (s : Table Prog) (q : Nat) : Table Prog := Function.update s q .free

/-- `kill(q, SIGKILL)`; `permitted` says whether it may reach a foreign process. -/
def kill (s : Table Prog) (q : Nat) (permitted : Bool) : Table Prog :=
  match s q with
  | .running _ _ | .command _ => s.die q
  | .foreign => if permitted then Function.update s q .free else s
  | .free | .zombie _ => s

def mapProgs (s : Table Prog) (change : Nat → Prog → Prog) : Table Prog := fun r =>
  match s r with
  | .running parent prog => .running parent (change r prog)
  | slot => slot

/-! What the operations do to the programs and to the parents. -/

theorem prog_update (s : Table Prog) (p r : Nat) (slot : Slot Prog) :
    (Function.update s p slot r).prog = if r = p then slot.prog else (s r).prog := by
  rw [Function.update_apply, apply_ite Slot.prog]

theorem parent_update (s : Table Prog) (p r : Nat) (slot : Slot Prog) :
    (Function.update s p slot r).parent = if r = p then slot.parent else (s r).parent := by
  rw [Function.update_apply, apply_ite Slot.parent]

theorem parent_update_same {slot : Slot Prog} (hslot : slot.parent = (s p).parent) :
    (Function.update s p slot r).parent = (s r).parent := by
  rw [parent_update, hslot]
  split
  · rename_i hr
    rw [hr]
  · rfl

@[simp] theorem prog_put (s : Table Prog) (p r : Nat) (prog : Prog) :
    (s.put p prog r).prog = if r = p then some prog else (s r).prog :=
  s.prog_update p r _

@[simp] theorem parent_put (s : Table Prog) (p r : Nat) (prog : Prog) :
    (s.put p prog r).parent = (s r).parent :=
  parent_update_same rfl

@[simp] theorem prog_fork (s : Table Prog) (p q r : Nat) (prog child : Prog) :
    (s.fork p q prog child r).prog =
      if r = q then some child else if r = p then some prog else (s r).prog := by
  rw [fork, prog_update, prog_put]
  rfl

@[simp] theorem parent_fork (s : Table Prog) (p q r : Nat) (prog child : Prog) :
    (s.fork p q prog child r).parent = if r = q then some p else (s r).parent := by
  rw [fork, parent_update, parent_put]
  rfl

@[simp] theorem prog_exec (s : Table Prog) (p r : Nat) :
    (s.exec p r).prog = if r = p then none else (s r).prog :=
  s.prog_update p r _

@[simp] theorem parent_exec (s : Table Prog) (p r : Nat) :
    (s.exec p r).parent = (s r).parent :=
  parent_update_same rfl

@[simp] theorem prog_die (s : Table Prog) (q r : Nat) :
    (s.die q r).prog = if r = q then none else (s r).prog := by
  rw [die, Slot.prog_orphan, apply_ite Slot.prog]
  rfl

@[simp] theorem parent_die (s : Table Prog) (q r : Nat) :
    (s.die q r).parent =
      if (s r).parent = some q then none else (s r).parent := by
  rw [die, Slot.parent_orphan]
  split
  · rename_i hr
    rw [hr]
    rfl
  · rfl

@[simp] theorem prog_collect (s : Table Prog) (q r : Nat) :
    (s.collect q r).prog = if r = q then none else (s r).prog :=
  s.prog_update q r _

@[simp] theorem parent_collect (s : Table Prog) (q r : Nat) :
    (s.collect q r).parent = if r = q then none else (s r).parent :=
  s.parent_update q r _

/-! Programs that run after a process has gone ran before. -/

theorem prog_of_update {slot : Slot Prog} {prog : Prog} (hslot : slot.prog = none)
    (hr : (Function.update s p slot r).prog = some prog) : (s r).prog = some prog := by
  rw [prog_update, hslot] at hr
  exact (Option.ite_none_left_eq_some.mp hr).2

theorem prog_of_exec {prog : Prog} (hr : (s.exec p r).prog = some prog) :
    (s r).prog = some prog :=
  prog_of_update rfl hr

theorem prog_of_collect {prog : Prog} (hr : (s.collect q r).prog = some prog) :
    (s r).prog = some prog :=
  prog_of_update rfl hr

theorem prog_of_die {prog : Prog} (hr : (s.die q r).prog = some prog) :
    (s r).prog = some prog := by
  rw [prog_die] at hr
  exact (Option.ite_none_left_eq_some.mp hr).2

@[simp] theorem prog_mapProgs (s : Table Prog) (change : Nat → Prog → Prog) (r : Nat) :
    (s.mapProgs change r).prog = (s r).prog.map (change r) := by
  unfold mapProgs
  cases hr : s r <;> rfl

@[simp] theorem parent_mapProgs (s : Table Prog) (change : Nat → Prog → Prog) (r : Nat) :
    (s.mapProgs change r).parent = (s r).parent := by
  unfold mapProgs
  cases hr : s r <;> rfl

/-- `kill` changes nothing, frees the id of a foreign process or ends one that is
not collected yet. -/
theorem kill_cases (s : Table Prog) (q : Nat) (permitted : Bool) :
    s.kill q permitted = s ∨
      s q = .foreign ∧ s.kill q permitted = s.collect q ∨
      s.kill q permitted = s.die q := by
  unfold kill
  cases hq : s q with
  | free | zombie => exact .inl rfl
  | running | command => exact .inr (.inr rfl)
  | foreign =>
      cases permitted with
      | true => exact .inr (.inl ⟨rfl, rfl⟩)
      | false => exact .inl rfl

theorem prog_of_kill {permitted : Bool} {prog : Prog}
    (hr : (s.kill q permitted r).prog = some prog) : (s r).prog = some prog := by
  rcases s.kill_cases q permitted with hkill | ⟨-, hkill⟩ | hkill
  · rwa [hkill] at hr
  · rw [hkill] at hr
    exact prog_of_collect hr
  · rw [hkill] at hr
    exact prog_of_die hr

end Table

end ApueCourse.Process
