/-! `myshell.c` as one process executes it: `main`, `signal`, `sig_alrm` and
`sig_quit`, with the signal state that the kernel keeps for the process. -/

namespace ApueCourse.Shell

inductive Signal
  | SIGALRM
  | SIGQUIT
  deriving DecidableEq, Repr

/-- The signal that `signal` puts into `sa_mask`. -/
def Signal.other : Signal → Signal
  | .SIGALRM => .SIGQUIT
  | .SIGQUIT => .SIGALRM

/-- What `signal` installs: the handler of the signal, or `SIG_IGN`. -/
inductive Sigfunc
  | handler
  | SIG_IGN
  deriving DecidableEq, Repr

/-- Where a handler stands.  `cancel` is the `alarm(0)` of `sig_quit`. -/
inductive HandlerPc
  | test
  | kill
  | clear
  | print
  | cancel
  | sigpending
  | ignore
  | reinstall
  | siglongjmp
  deriving DecidableEq, Repr

/-- Where the process stands.  At `forked ret` and `waited ret` the call has
returned and `pid` is not assigned yet; `forkTest` and `waitTest` are the tests of
`pid` after the assignments. -/
inductive Pc
  | prompt
  | fgets
  | alarm
  | fork
  | forked (ret : Int)
  | forkTest
  | execlp
  | waitpid
  | waited (ret : Int)
  | waitTest
  | alarmOff
  | handler (sig : Signal) (pc : HandlerPc)
  | exit
  deriving DecidableEq, Repr

/-- `blocked` is the signal mask and `saved` the one in `jmpbuf`.  Of `SIGALRM` it
is also recorded which command line armed the timer, or had armed the timer that
expired; `line` counts the lines that `fgets` has read. -/
structure Machine where
  pc : Pc
  pid : Int
  blocked : Signal → Bool
  saved : Signal → Bool
  disposition : Signal → Sigfunc
  quit : Bool
  alrm : Option Nat
  timer : Option Nat
  line : Nat

namespace Machine

def goto (m : Machine) (pc : Pc) : Machine := { m with pc }

def pending (m : Machine) : Signal → Bool
  | .SIGALRM => m.alrm.isSome
  | .SIGQUIT => m.quit

def discard (m : Machine) : Signal → Machine
  | .SIGALRM => { m with alrm := none }
  | .SIGQUIT => { m with quit := false }

/-- `signal(signo, func)`: `SIG_IGN` discards a pending signal. -/
def signal (m : Machine) (signo : Signal) (func : Sigfunc) : Machine :=
  let m := { m with
    disposition := fun sig => if sig = signo then func else m.disposition sig }
  match func with
  | .SIG_IGN => m.discard signo
  | .handler => m

/-- The steps of a handler; `cancels` says whether it calls `alarm(0)`. -/
def handlerStep (sig : Signal) (cancels : Bool) (m : Machine) :
    HandlerPc → Option Machine
  | .test => some (m.goto (.handler sig (if 0 < m.pid then .kill else .print)))
  | .kill => none
  | .clear => some { m with pid := 0, pc := .handler sig .print }
  | .print => some (m.goto (.handler sig (if cancels then .cancel else .sigpending)))
  | .cancel => some { m with timer := none, pc := .handler sig .sigpending }
  | .sigpending =>
      some (m.goto (.handler sig
        (if m.pending sig.other then .ignore else .siglongjmp)))
  | .ignore => some ((m.signal sig.other .SIG_IGN).goto (.handler sig .reinstall))
  | .reinstall => some ((m.signal sig.other .handler).goto (.handler sig .siglongjmp))
  | .siglongjmp => some { m with blocked := m.saved, pc := .prompt }

def sig_alrm (m : Machine) (pc : HandlerPc) : Option Machine :=
  handlerStep .SIGALRM false m pc

def sig_quit (m : Machine) (pc : HandlerPc) : Option Machine :=
  handlerStep .SIGQUIT true m pc

/-- The steps that concern the process alone; `time` is what `main` has from its
arguments. -/
def code (time : Int) (m : Machine) : Option Machine :=
  match m.pc with
  | .prompt => some (m.goto .fgets)
  | .alarm =>
      some { m with timer := if time ≠ 0 then some m.line else m.timer, pc := .fork }
  | .forked ret => some { m with pid := ret, pc := .forkTest }
  | .forkTest =>
      some (m.goto (if m.pid < 0 then .exit else if m.pid = 0 then .execlp else .waitpid))
  | .waited ret => some { m with pid := ret, pc := .waitTest }
  | .waitTest => some (m.goto (if m.pid < 0 then .exit else .alarmOff))
  | .alarmOff =>
      some { m with timer := if time ≠ 0 then none else m.timer, pc := .prompt }
  | .handler .SIGALRM pc => m.sig_alrm pc
  | .handler .SIGQUIT pc => m.sig_quit pc
  | .fgets | .fork | .execlp | .waitpid | .exit => none

/-- `fgets` gives a line, or the end of the input. -/
def fgets (m : Machine) (line : Bool) : Machine :=
  if line then { m with line := m.line + 1, pc := .alarm } else m.goto .exit

/-- What `fork` copies: the child has no timer and no pending signals. -/
def child (m : Machine) : Machine :=
  { m with quit := false, alrm := none, timer := none, pc := .forked 0 }

/-- A signal comes; one that is ignored and not blocked is lost. -/
def generate (m : Machine) (sig : Signal) (line : Nat) : Machine :=
  if m.disposition sig = .SIG_IGN ∧ ¬ m.blocked sig then
    m
  else
    match sig with
    | .SIGALRM => { m with alrm := m.alrm <|> some line }
    | .SIGQUIT => { m with quit := true }

@[simp] theorem pc_generate (m : Machine) (sig : Signal) (line : Nat) :
    (m.generate sig line).pc = m.pc := by
  unfold generate
  split
  · rfl
  · cases sig <;> rfl

@[simp] theorem pid_generate (m : Machine) (sig : Signal) (line : Nat) :
    (m.generate sig line).pid = m.pid := by
  unfold generate
  split
  · rfl
  · cases sig <;> rfl

/-- The kernel lets the process enter a handler. -/
def deliver (m : Machine) (sig : Signal) : Machine :=
  match m.disposition sig with
  | .SIG_IGN => m.discard sig
  | .handler =>
      { m.discard sig with
        blocked := fun sig' => m.blocked sig' || sig' = sig || sig' = sig.other
        pc := .handler sig .test }

/-- No signal is there to be delivered before the next step. -/
def Quiet (m : Machine) : Prop := ∀ sig, m.pending sig → m.blocked sig

instance (m : Machine) : Decidable m.Quiet :=
  decidable_of_iff
    ((m.pending .SIGALRM → m.blocked .SIGALRM) ∧
      (m.pending .SIGQUIT → m.blocked .SIGQUIT))
    ⟨fun h sig => match sig with
      | .SIGALRM => h.1
      | .SIGQUIT => h.2, fun h => ⟨h .SIGALRM, h .SIGQUIT⟩⟩

/-- The first return of `sigsetjmp`: nothing blocked, pending or armed. -/
def start : Machine where
  pc := .prompt
  pid := 0
  blocked _ := false
  saved _ := false
  disposition _ := .handler
  quit := false
  alrm := none
  timer := none
  line := 0

end Machine

end ApueCourse.Shell
