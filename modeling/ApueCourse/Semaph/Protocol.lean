import ApueCourse.Process.Semaphores
import ApueCourse.Transition.Run
import Mathlib.Data.List.Basic

/-! `semaph.c`: the calls of any processes on the semaphore of one key. -/

namespace ApueCourse.Semaph

open Process Transition

/-- The counter of a semaphore that nobody uses. -/
def BIGCOUNT : Int := 10000

def op_lock : List Sembuf := [⟨2, 0, false⟩, ⟨2, 1, true⟩]

def op_endcreate : List Sembuf := [⟨1, -1, true⟩, ⟨2, -1, true⟩]

def op_open : List Sembuf := [⟨1, -1, true⟩]

def op_close : List Sembuf := [⟨2, 0, false⟩, ⟨2, 1, true⟩, ⟨1, 1, true⟩]

def op_unlock : List Sembuf := [⟨2, -1, true⟩]

def op_op (value : Int) : List Sembuf := [⟨0, value, true⟩]

/-- A process by the system call that it makes next. -/
inductive Pc
  | idle
  /-- `sem_create`, with what it does between `semget` and the end. -/
  | locking (id : Nat) (initval : Int) (asleep : Bool)
  | counting (id : Nat) (initval : Int)
  | setting (id : Nat) (initval : Int)
  | resetting (id : Nat)
  | ending (id : Nat)
  /-- `sem_open` behind `semget`. -/
  | opening (id : Nat)
  /-- `sem_close` behind `op_close`. -/
  | reading (id : Nat)
  | removing (id : Nat)
  | unlocking (id : Nat)
  | gone

/-- The set that the process has locked. -/
def Pc.locked : Pc → Option Nat
  | .counting id _ | .setting id _ | .resetting id | .ending id | .reading id | .removing id
  | .unlocking id => some id
  | .idle | .locking .. | .opening _ | .gone => none

/-- `live` is the set of the key with its id, and `next` the id of the next set.  The handles
of a process are what `sem_create` and `sem_open` have returned to it, less those given to
`sem_close`. -/
structure State (Pid : Type u) where
  live : Option (Nat × SemSet Pid)
  next : Nat
  pc : Pid → Pc
  handles : Pid → List Nat

inductive Event (Pid : Type u)
  | create (p : Pid) (initval : Int)
  | again (p : Pid)
  | sleep (p : Pid)
  | lock (p : Pid)
  | getval (p : Pid)
  | setval (p : Pid) (initval : Int)
  | resetval (p : Pid)
  | endcreate (p : Pid)
  | open (p : Pid)
  | opened (p : Pid)
  | op (p : Pid) (id : Nat) (value : Int)
  | close (p : Pid) (id : Nat)
  | getclose (p : Pid)
  | remove (p : Pid)
  | unlock (p : Pid)
  | exit (p : Pid)
deriving DecidableEq

namespace State

variable {Pid : Type u}

/-- `semget` with `IPC_CREAT`. -/
def semget (s : State Pid) : Nat × State Pid :=
  match s.live with
  | some (id, _) => (id, s)
  | none => (s.next, { s with live := some (s.next, .zero), next := s.next + 1 })

variable [DecidableEq Pid]

def setPc (s : State Pid) (p : Pid) (pc : Pc) : State Pid :=
  { s with pc := Function.update s.pc p pc }

def setHandles (s : State Pid) (p : Pid) (handles : List Nat) : State Pid :=
  { s with handles := Function.update s.handles p handles }

def setLive (s : State Pid) (id : Nat) (set : SemSet Pid) : State Pid :=
  { s with live := some (id, set) }

@[simp] theorem pc_setPc_self (s : State Pid) (p : Pid) (pc : Pc) : (s.setPc p pc).pc p = pc :=
  Function.update_self ..

@[simp] theorem pc_setHandles (s : State Pid) (p : Pid) (handles : List Nat) :
    (s.setHandles p handles).pc = s.pc := rfl

/-- The set of the key when a process has ended. -/
def afterExit (p : Pid) : Option (Nat × SemSet Pid) → Option (Nat × SemSet Pid)
  | some (id, set) => some (id, set.exit p)
  | none => none

/-- A process may end at any time: of its own accord, by a signal, or through `err_sys` and
`err_dump` when a system call fails.  A call that sleeps when its set is removed fails with
`EIDRM`, and one on a set that is gone with `EINVAL`, which only `sem_create` looks for. -/
inductive Step : State Pid → Event Pid → State Pid → Prop
  | create {s : State Pid} {p : Pid} {initval : Int} (hpc : s.pc p = .idle) :
      Step s (.create p initval) (s.semget.2.setPc p (.locking s.semget.1 initval false))
  | again {s : State Pid} {p : Pid} {id : Nat} {initval : Int}
      (hpc : s.pc p = .locking id initval false) (hgone : ∀ set, s.live ≠ some (id, set)) :
      Step s (.again p) (s.semget.2.setPc p (.locking s.semget.1 initval false))
  | sleep {s : State Pid} {p : Pid} {id : Nat} {initval : Int} {set : SemSet Pid}
      (hpc : s.pc p = .locking id initval false) (hlive : s.live = some (id, set))
      (hop : set.semop p op_lock = .sleep) :
      Step s (.sleep p) (s.setPc p (.locking id initval true))
  | lock {s : State Pid} {p : Pid} {id : Nat} {initval : Int} {asleep : Bool}
      {set set' : SemSet Pid} (hpc : s.pc p = .locking id initval asleep)
      (hlive : s.live = some (id, set)) (hop : set.semop p op_lock = .done set') :
      Step s (.lock p) ((s.setLive id set').setPc p (.counting id initval))
  | getval {s : State Pid} {p : Pid} {id : Nat} {initval : Int} {set : SemSet Pid}
      (hpc : s.pc p = .counting id initval) (hlive : s.live = some (id, set)) :
      Step s (.getval p)
        (s.setPc p (if set.semval 1 = 0 then .setting id initval else .ending id))
  | setval {s : State Pid} {p : Pid} {id : Nat} {initval : Int} {set : SemSet Pid}
      (hpc : s.pc p = .setting id initval) (hlive : s.live = some (id, set))
      (hrange : 0 ≤ initval ∧ initval ≤ SEMVMX) :
      Step s (.setval p initval) ((s.setLive id (set.setval 0 initval)).setPc p (.resetting id))
  | resetval {s : State Pid} {p : Pid} {id : Nat} {set : SemSet Pid}
      (hpc : s.pc p = .resetting id) (hlive : s.live = some (id, set)) :
      Step s (.resetval p) ((s.setLive id (set.setval 1 BIGCOUNT)).setPc p (.ending id))
  | endcreate {s : State Pid} {p : Pid} {id : Nat} {set set' : SemSet Pid}
      (hpc : s.pc p = .ending id) (hlive : s.live = some (id, set))
      (hop : set.semop p op_endcreate = .done set') :
      Step s (.endcreate p)
        (((s.setLive id set').setPc p .idle).setHandles p (id :: s.handles p))
  | open {s : State Pid} {p : Pid} {id : Nat} {set : SemSet Pid} (hpc : s.pc p = .idle)
      (hlive : s.live = some (id, set)) : Step s (.open p) (s.setPc p (.opening id))
  | opened {s : State Pid} {p : Pid} {id : Nat} {set set' : SemSet Pid}
      (hpc : s.pc p = .opening id) (hlive : s.live = some (id, set))
      (hop : set.semop p op_open = .done set') :
      Step s (.opened p)
        (((s.setLive id set').setPc p .idle).setHandles p (id :: s.handles p))
  | op {s : State Pid} {p : Pid} {id : Nat} {value : Int} {set set' : SemSet Pid}
      (hpc : s.pc p = .idle) (hid : id ∈ s.handles p) (hlive : s.live = some (id, set))
      (hvalue : value ≠ 0) (hop : set.semop p (op_op value) = .done set') :
      Step s (.op p id value) (s.setLive id set')
  | close {s : State Pid} {p : Pid} {id : Nat} {set set' : SemSet Pid} (hpc : s.pc p = .idle)
      (hid : id ∈ s.handles p) (hlive : s.live = some (id, set))
      (hop : set.semop p op_close = .done set') :
      Step s (.close p id)
        (((s.setLive id set').setPc p (.reading id)).setHandles p ((s.handles p).erase id))
  | getclose {s : State Pid} {p : Pid} {id : Nat} {set : SemSet Pid}
      (hpc : s.pc p = .reading id) (hlive : s.live = some (id, set))
      (hle : set.semval 1 ≤ BIGCOUNT) :
      Step s (.getclose p)
        (s.setPc p (if set.semval 1 = BIGCOUNT then .removing id else .unlocking id))
  | remove {s : State Pid} {p : Pid} {id : Nat} {set : SemSet Pid}
      (hpc : s.pc p = .removing id) (hlive : s.live = some (id, set)) :
      Step s (.remove p) ({ s with live := none }.setPc p .idle)
  | unlock {s : State Pid} {p : Pid} {id : Nat} {set set' : SemSet Pid}
      (hpc : s.pc p = .unlocking id) (hlive : s.live = some (id, set))
      (hop : set.semop p op_unlock = .done set') :
      Step s (.unlock p) ((s.setLive id set').setPc p .idle)
  | exit {s : State Pid} {p : Pid} (hpc : s.pc p ≠ .gone) :
      Step s (.exit p)
        (({ s with live := afterExit p s.live }.setPc p .gone).setHandles
          p [])

end State

/-- No set yet, and no process in a call. -/
def system (Pid : Type u) [DecidableEq Pid] : System (State Pid) (Event Pid) where
  Initial s := s = ⟨none, 0, fun _ => .idle, fun _ => []⟩
  Step := State.Step

end ApueCourse.Semaph
