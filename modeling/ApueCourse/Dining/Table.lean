import Mathlib.Logic.Function.Basic
import Mathlib.Order.Fin.Basic
import ApueCourse.Transition.Run

/-! `philosopher.c` over `lock.c`: `N` philosopher processes, the fork files as
locks, and the process `main` that prepares and starts them. -/

namespace ApueCourse.Dining

open Transition

/-- Where a philosopher process stands in `philosopher`.  At `takeFirst` and
`takeSecond` it is inside the loop of `lock`: an `open` that fails leaves it
there, for `sleep(1)` and the next attempt. -/
inductive PhilosopherPc
  | unforked
  | thinking
  | takeFirst
  | takeSecond
  | eating
  | putFirst
  | putSecond
  deriving DecidableEq, Repr

inductive Process (N : Nat)
  | main
  | philosopher (i : Fin N)
  deriving DecidableEq, Repr

/-- Where the process `main` stands: in its first loop before iteration `i`, in
its second loop before iteration `i`, or in `wait(NULL)`. -/
inductive MainPc
  | initlock (i : Nat)
  | fork (i : Nat)
  | wait
  deriving DecidableEq, Repr

/-- `file f` says whether the file `forks[f]` exists. -/
structure State (N : Nat) where
  main : MainPc
  phil : Fin N → PhilosopherPc
  file : Fin N → Bool

/-- One atomic step as it is seen from outside.  `openExcl i f created` is
philosopher `i`'s `open(forks[f], O_RDONLY | O_CREAT | O_EXCL)`. -/
inductive Event (N : Nat)
  | initlock (f : Fin N)
  | initlocked
  | fork (i : Fin N)
  | forked
  | think (i : Fin N)
  | openExcl (i f : Fin N) (created : Bool)
  | eat (i : Fin N)
  | unlink (i f : Fin N)
  deriving DecidableEq, Repr

/-- The arguments of the two calls of `lock` in `takeFork(i)`, in their order. -/
def takeFork (i : Fin N) : Fin N × Fin N :=
  if hlast : i.val = N - 1 then
    (⟨0, i.pos⟩, i)
  else
    (i, ⟨i.val + 1, by have := i.isLt; omega⟩)

/-- The arguments of the two calls of `unlock` in `putFork(i)`, in their order. -/
def putFork (i : Fin N) : Fin N × Fin N :=
  if hlast : i.val = N - 1 then
    (⟨0, i.pos⟩, i)
  else
    (i, ⟨i.val + 1, by have := i.isLt; omega⟩)

namespace State

def goto (s : State N) (i : Fin N) (pc : PhilosopherPc) : State N :=
  { s with phil := Function.update s.phil i pc }

/-- One attempt of `lock(forks[f])` by philosopher `i`, which is at `next` when
`lock` returns. -/
def lock (s : State N) (i f : Fin N) (next : PhilosopherPc) :
    Event N × State N :=
  if s.file f then
    (.openExcl i f false, s)
  else
    (.openExcl i f true,
      { s.goto i next with file := Function.update s.file f true })

/-- `unlock(forks[f])` by philosopher `i`: the file goes, whoever created it. -/
def unlock (s : State N) (i f : Fin N) (next : PhilosopherPc) :
    Event N × State N :=
  (.unlink i f,
    { s.goto i next with file := Function.update s.file f false })

def philosopher (s : State N) (i : Fin N) : Option (Event N × State N) :=
  match s.phil i with
  | .unforked => none
  | .thinking => some (.think i, s.goto i .takeFirst)
  | .takeFirst => some (s.lock i (takeFork i).1 .takeSecond)
  | .takeSecond => some (s.lock i (takeFork i).2 .eating)
  | .eating => some (.eat i, s.goto i .putFirst)
  | .putFirst => some (s.unlock i (putFork i).1 .putSecond)
  | .putSecond => some (s.unlock i (putFork i).2 .thinking)

/-- The process `main`.  `fork` succeeds, and `wait(NULL)` never returns since
no philosopher ends. -/
def mainStep (s : State N) : Option (Event N × State N) :=
  match s.main with
  | .initlock i =>
      if h : i < N then
        some (.initlock ⟨i, h⟩,
          { s with
            main := .initlock (i + 1)
            file := Function.update s.file ⟨i, h⟩ false })
      else
        some (.initlocked, { s with main := .fork 0 })
  | .fork i =>
      if h : i < N then
        some (.fork ⟨i, h⟩,
          { s.goto ⟨i, h⟩ .thinking with main := .fork (i + 1) })
      else
        some (.forked, { s with main := .wait })
  | .wait => none

def act (s : State N) : Process N → Option (Event N × State N)
  | .main => s.mainStep
  | .philosopher i => s.philosopher i

/-- Let the processes take one step each in the order of the schedule. -/
def schedule :
    State N → List (Process N) → Option (List (Event N) × State N)
  | s, [] => some ([], s)
  | s, p :: rest => do
      let (e, s') ← s.act p
      let (trace, finish) ← schedule s' rest
      return (e :: trace, finish)

/-- `main` is past its first loop: `initlock` has unlinked every fork file. -/
def Initlocked (s : State N) : Prop := ∀ i, s.main ≠ .initlock i

end State

/-- Any process may take the next step.  Fork files may be left over from an
earlier run of the program. -/
def table (N : Nat) : System (State N) (Event N) where
  Initial s := s.main = .initlock 0 ∧ ∀ i, s.phil i = .unforked
  Step s e s' := ∃ p, s.act p = some (e, s')

/-- The state at the start of `main`, with the fork files that are there. -/
def atStart (file : Fin N → Bool) : State N where
  main := .initlock 0
  phil _ := .unforked
  file := file

theorem atStart_initial (file : Fin N → Bool) :
    (table N).Initial (atStart file) :=
  ⟨rfl, fun _ => rfl⟩

theorem run_of_schedule {s s' : State N} (processes : List (Process N))
    {trace : List (Event N)} (hschedule : s.schedule processes = some (trace, s')) :
    (table N).Run s trace s' := by
  induction processes generalizing s trace with
  | nil =>
      cases hschedule
      exact System.Run.refl _
  | cons p rest ih =>
      simp only [State.schedule, Option.bind_eq_bind, Option.bind_eq_some_iff] at hschedule
      obtain ⟨⟨e, middle⟩, hact, ⟨tail, finish⟩, hrest, hpure⟩ := hschedule
      cases hpure
      exact System.Run.cons ⟨p, hact⟩ (ih hrest)

section Forks

variable {N : Nat}

@[simp] theorem putFork_eq_takeFork (i : Fin N) : putFork i = takeFork i := rfl

theorem takeFork_fst_lt_snd (hN : 2 ≤ N) (i : Fin N) :
    (takeFork i).1 < (takeFork i).2 := by
  unfold takeFork
  split
  · exact Fin.lt_def.mpr (by dsimp only; omega)
  · exact Fin.lt_def.mpr (Nat.lt_succ_self i.val)

def Uses (i f : Fin N) : Prop := f = (takeFork i).1 ∨ f = (takeFork i).2

def SharesFork (i j : Fin N) : Prop := ∃ f, Uses i f ∧ Uses j f

/-- The forks that philosopher `i` has in hand by its program counter. -/
def Holds (i f : Fin N) : PhilosopherPc → Prop
  | .unforked | .thinking | .takeFirst => False
  | .takeSecond => f = (takeFork i).1
  | .eating | .putFirst => Uses i f
  | .putSecond => f = (takeFork i).2

/-- At `pc`, philosopher `i` calls `lock(forks[f])` and goes on to `next`. -/
inductive Takes (i : Fin N) : Fin N → PhilosopherPc → PhilosopherPc → Prop
  | first : Takes i (takeFork i).1 .takeFirst .takeSecond
  | second : Takes i (takeFork i).2 .takeSecond .eating

/-- At `pc`, philosopher `i` calls `unlock(forks[f])` and goes on to `next`. -/
inductive Puts (i : Fin N) : Fin N → PhilosopherPc → PhilosopherPc → Prop
  | first : Puts i (takeFork i).1 .putFirst .putSecond
  | second : Puts i (takeFork i).2 .putSecond .thinking

theorem Takes.started {i f : Fin N} {pc next : PhilosopherPc}
    (htakes : Takes i f pc next) : pc ≠ .unforked ∧ next ≠ .unforked := by
  cases htakes <;> simp

theorem Puts.started {i f : Fin N} {pc next : PhilosopherPc}
    (hputs : Puts i f pc next) : pc ≠ .unforked ∧ next ≠ .unforked := by
  cases hputs <;> simp

theorem Takes.holds_iff {i f g : Fin N} {pc next : PhilosopherPc}
    (htakes : Takes i f pc next) :
    Holds i g next ↔ g = f ∨ Holds i g pc := by
  cases htakes with
  | first => simp [Holds]
  | second => simp [Holds, Uses, or_comm]

theorem Takes.not_holds (hN : 2 ≤ N) {i f : Fin N} {pc next : PhilosopherPc}
    (htakes : Takes i f pc next) : ¬ Holds i f pc := by
  cases htakes with
  | first => exact id
  | second => exact (takeFork_fst_lt_snd hN i).ne'

theorem Puts.holds {i f : Fin N} {pc next : PhilosopherPc}
    (hputs : Puts i f pc next) : Holds i f pc := by
  cases hputs with
  | first => exact Or.inl rfl
  | second => exact rfl

theorem Puts.holds_iff (hN : 2 ≤ N) {i f g : Fin N} {pc next : PhilosopherPc}
    (hputs : Puts i f pc next) :
    Holds i g next ↔ Holds i g pc ∧ g ≠ f := by
  have hne := (takeFork_fst_lt_snd hN i).ne
  cases hputs with
  | first =>
      constructor
      · rintro rfl
        exact ⟨Or.inr rfl, hne.symm⟩
      · rintro ⟨hfirst | hsecond, hother⟩
        · exact absurd hfirst hother
        · exact hsecond
  | second => exact ⟨False.elim, fun h => h.2 h.1⟩

end Forks

/-! The step of each program counter. -/

theorem State.lock_of_absent {s : State N} {i f : Fin N} {next : PhilosopherPc}
    (hfile : s.file f = false) :
    s.lock i f next = (.openExcl i f true,
      { s.goto i next with file := Function.update s.file f true }) := by
  simp [State.lock, hfile]

theorem State.lock_of_present {s : State N} {i f : Fin N} {next : PhilosopherPc}
    (hfile : s.file f = true) :
    s.lock i f next = (.openExcl i f false, s) := by
  simp [State.lock, hfile]

theorem philosopher_of_takes {s : State N} {i f : Fin N} {next : PhilosopherPc}
    (htakes : Takes i f (s.phil i) next) :
    s.philosopher i = some (s.lock i f next) := by
  generalize hpc : s.phil i = pc at htakes
  cases htakes <;> simp [State.philosopher, hpc]

theorem philosopher_of_puts {s : State N} {i f : Fin N} {next : PhilosopherPc}
    (hputs : Puts i f (s.phil i) next) :
    s.philosopher i = some (s.unlock i f next) := by
  generalize hpc : s.phil i = pc at hputs
  cases hputs <;> simp [State.philosopher, hpc]

theorem philosopher_of_thinking {s : State N} {i : Fin N}
    (hpc : s.phil i = .thinking) :
    s.philosopher i = some (.think i, s.goto i .takeFirst) := by
  simp [State.philosopher, hpc]

theorem philosopher_of_eating {s : State N} {i : Fin N}
    (hpc : s.phil i = .eating) :
    s.philosopher i = some (.eat i, s.goto i .putFirst) := by
  simp [State.philosopher, hpc]

/-- All that one step can do. -/
inductive Move (s : State N) : Event N → State N → Prop
  | initlock {i : Nat} (h : i < N) (hmain : s.main = .initlock i) :
      Move s (.initlock ⟨i, h⟩)
        { s with
          main := .initlock (i + 1)
          file := Function.update s.file ⟨i, h⟩ false }
  | initlocked {i : Nat} (h : N ≤ i) (hmain : s.main = .initlock i) :
      Move s .initlocked { s with main := .fork 0 }
  | fork {i : Nat} (h : i < N) (hmain : s.main = .fork i) :
      Move s (.fork ⟨i, h⟩)
        { s.goto ⟨i, h⟩ .thinking with main := .fork (i + 1) }
  | forked {i : Nat} (h : N ≤ i) (hmain : s.main = .fork i) :
      Move s .forked { s with main := .wait }
  | think {i : Fin N} (hpc : s.phil i = .thinking) :
      Move s (.think i) (s.goto i .takeFirst)
  | blocked {i f : Fin N} {next : PhilosopherPc}
      (htakes : Takes i f (s.phil i) next) (hfile : s.file f = true) :
      Move s (.openExcl i f false) s
  | take {i f : Fin N} {next : PhilosopherPc}
      (htakes : Takes i f (s.phil i) next) (hfile : s.file f = false) :
      Move s (.openExcl i f true)
        { s.goto i next with file := Function.update s.file f true }
  | eat {i : Fin N} (hpc : s.phil i = .eating) :
      Move s (.eat i) (s.goto i .putFirst)
  | put {i f : Fin N} {next : PhilosopherPc}
      (hputs : Puts i f (s.phil i) next) :
      Move s (.unlink i f)
        { s.goto i next with file := Function.update s.file f false }

theorem lock_move {s s' : State N} {i f : Fin N} {next : PhilosopherPc}
    {e : Event N} (htakes : Takes i f (s.phil i) next)
    (hlock : s.lock i f next = (e, s')) : Move s e s' := by
  unfold State.lock at hlock
  split at hlock
  · cases hlock
    exact .blocked htakes (by assumption)
  · cases hlock
    exact .take htakes (by simpa using ‹¬ s.file f = true›)

theorem philosopher_move {s s' : State N} {i : Fin N} {e : Event N}
    (hstep : s.philosopher i = some (e, s')) : Move s e s' := by
  unfold State.philosopher at hstep
  split at hstep
  · cases hstep
  · cases hstep
    exact .think (by assumption)
  · rename_i hpc
    exact lock_move (hpc ▸ .first) (Option.some.inj hstep)
  · rename_i hpc
    exact lock_move (hpc ▸ .second) (Option.some.inj hstep)
  · cases hstep
    exact .eat (by assumption)
  · rename_i hpc
    cases hstep
    exact .put (hpc ▸ .first)
  · rename_i hpc
    cases hstep
    exact .put (hpc ▸ .second)

theorem mainStep_move {s s' : State N} {e : Event N}
    (hstep : s.mainStep = some (e, s')) : Move s e s' := by
  unfold State.mainStep at hstep
  split at hstep
  · rename_i i hmain
    split at hstep
    · cases hstep
      exact .initlock _ hmain
    · cases hstep
      exact .initlocked (i := i) (by omega) hmain
  · rename_i i hmain
    split at hstep
    · cases hstep
      exact .fork _ hmain
    · cases hstep
      exact .forked (i := i) (by omega) hmain
  · cases hstep

theorem step_move {s s' : State N} {e : Event N}
    (hstep : (table N).Step s e s') : Move s e s' := by
  obtain ⟨p, hact⟩ := hstep
  cases p with
  | main => exact mainStep_move hact
  | philosopher i => exact philosopher_move hact

theorem step_of_move {s s' : State N} {e : Event N} (hmove : Move s e s') :
    (table N).Step s e s' := by
  cases hmove with
  | initlock h hmain => exact ⟨.main, by simp [State.act, State.mainStep, hmain, h]⟩
  | initlocked h hmain =>
      exact ⟨.main, by simp [State.act, State.mainStep, hmain, Nat.not_lt.mpr h]⟩
  | fork h hmain => exact ⟨.main, by simp [State.act, State.mainStep, hmain, h]⟩
  | forked h hmain =>
      exact ⟨.main, by simp [State.act, State.mainStep, hmain, Nat.not_lt.mpr h]⟩
  | @think i hpc => exact ⟨.philosopher i, philosopher_of_thinking hpc⟩
  | @blocked i _ _ htakes hfile =>
      refine ⟨.philosopher i, ?_⟩
      rw [State.act, philosopher_of_takes htakes, State.lock_of_present hfile]
  | @take i _ _ htakes hfile =>
      refine ⟨.philosopher i, ?_⟩
      rw [State.act, philosopher_of_takes htakes, State.lock_of_absent hfile]
  | @eat i hpc => exact ⟨.philosopher i, philosopher_of_eating hpc⟩
  | @put i _ _ hputs => exact ⟨.philosopher i, philosopher_of_puts hputs⟩

end ApueCourse.Dining
