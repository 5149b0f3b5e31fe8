import ApueCourse.Db.Functions
import ApueCourse.Transition.Run
import Mathlib.Logic.Function.Basic

/-! Processes that call the library on one database, system call by system call. -/

namespace ApueCourse.Db

open Memory Program Transition

inductive Call
  | open (flags : OFlags)
  | fetch (key : List Byte)
  | store (key data : List Byte) (flag : Int)
  | delete (key : List Byte)
  | rewind
  | nextrec
  deriving DecidableEq

inductive Result
  | handle (given : Bool)
  | data (data : Option (List Byte))
  | code (rc : Int)
  | rewound
  | record (record : Option (List Byte × List Byte))
  deriving DecidableEq

/-- The program of a call with the handle that the process has.  Its result comes with
the handle that the process has then. -/
def Call.prog (fuel : Nat) : Call → Option DB → Option (P (Result × Option DB))
  | .open flags, db => some do
      let db' ← db_open flags
      return (.handle db'.isSome, db'.or db)
  | .fetch key, some db => some do
      let (data, db) ← db_fetch fuel db key
      return (.data data, some db)
  | .store key data flag, some db => some do
      let (rc, db) ← db_store fuel db key data flag
      return (.code rc, some db)
  | .delete key, some db => some do
      let (rc, db) ← db_delete fuel db key
      return (.code rc, some db)
  | .rewind, some db => some (.ret (.rewound, some (db_rewind db)))
  | .nextrec, some db => some do
      let (record, db) ← db_nextrec fuel db
      return (.record record, some db)
  | _, none => none

/-- `busy` is a process within a call, with the system calls it has made there. -/
inductive Proc
  | idle (db : Option DB)
  | busy (call : Call) (made : List Op) (prog : P (Result × Option DB))
  | dead (call : Call) (reason : Stop)

structure State (Pid : Type) where
  world : World Pid
  proc : Pid → Proc

/-- The beginning of a call, or a system call of one; `result` is there where the call
returns with it. -/
inductive Event (Pid : Type)
  | invoke (p : Pid) (call : Call) (result : Option Result)
  | sys (p : Pid) (call : Call) (op : Op) (result : Option Result)
  deriving DecidableEq

namespace Event

variable {Pid : Type}

def process : Event Pid → Pid
  | .invoke p _ _ | .sys p _ _ _ => p

def call : Event Pid → Call
  | .invoke _ call _ | .sys _ call _ _ => call

def result : Event Pid → Option Result
  | .invoke _ _ result | .sys _ _ _ result => result

end Event

def settle (call : Call) (made : List Op) : P (Result × Option DB) → Proc
  | .ret (_, db) => .idle db
  | .stop reason => .dead call reason
  | prog => .busy call made prog

def returned (prog : P (Result × Option DB)) : Option Result := prog.result?.map Prod.fst

/-- A process that ends gives its locks up; one that is caught in a loop keeps them. -/
def leave {Pid : Type} [DecidableEq Pid] (p : Pid) (world : World Pid) :
    P (Result × Option DB) → World Pid
  | .stop .spin => world
  | .stop _ => { world with locks := world.locks.release p }
  | _ => world

section Leave

variable {Pid : Type} [DecidableEq Pid]

theorem leave_locks_other {p q : Pid} (hne : q ≠ p)
    (world : World Pid) (prog : P (Result × Option DB)) :
    (leave p world prog).locks q = world.locks q := by
  cases prog with
  | ret | call => rfl
  | stop reason =>
      cases reason with
      | spin => rfl
      | err_dump | err_quit | fault =>
          funext file byte
          exact if_neg hne

theorem leave_content (p : Pid) (world : World Pid)
    (prog : P (Result × Option DB)) : (leave p world prog).content = world.content := by
  cases prog with
  | ret | call => rfl
  | stop reason =>
      cases reason with
      | spin | err_dump | err_quit | fault => rfl

theorem leave_present (p : Pid) (world : World Pid)
    (prog : P (Result × Option DB)) : (leave p world prog).present = world.present := by
  cases prog with
  | ret | call => rfl
  | stop reason =>
      cases reason with
      | spin | err_dump | err_quit | fault => rfl

theorem exclusive_leave {w : World Pid} (hexclusive : w.locks.Exclusive) (p : Pid)
    (prog : P (Result × Option DB)) : (leave p w prog).locks.Exclusive := by
  cases prog with
  | ret | call => exact hexclusive
  | stop reason =>
      cases reason with
      | spin => exact hexclusive
      | err_dump | err_quit | fault => exact hexclusive.release p

end Leave

namespace State

variable {Pid : Type} [DecidableEq Pid]

inductive Step (fuel : Nat) : State Pid → Event Pid → State Pid → Prop
  | invoke {s : State Pid} {p : Pid} {call : Call} {db : Option DB}
      {prog : P (Result × Option DB)} (hidle : s.proc p = .idle db)
      (hprog : call.prog fuel db = some prog) :
      Step fuel s (.invoke p call (returned prog))
        { world := leave p s.world prog
          proc := Function.update s.proc p (settle call [] prog) }
  | sys {s : State Pid} {p : Pid} {call : Call} {made : List Op} {op : Op}
      {next : op.Res → P (Result × Option DB)} {r : op.Res} {world : World Pid}
      (hbusy : s.proc p = .busy call made (.call op next))
      (hsys : World.Sys p op s.world r world) :
      Step fuel s (.sys p call op (returned (next r)))
        { world := leave p world (next r)
          proc := Function.update s.proc p (settle call (made ++ [op]) (next r)) }

/-- No process is within a call or has a lock. -/
def Quiet (s : State Pid) : Prop :=
  (∀ p, ∃ db, s.proc p = .idle db) ∧ ∀ p file byte, s.world.locks p file byte = none

variable (Pid) in
/-- All runs of the processes from any contents of the files and any handles. -/
def system (fuel : Nat) : System (State Pid) (Event Pid) where
  Initial := Quiet
  Step := Step fuel

end State

end ApueCourse.Db
