import ApueCourse.Process.Table
import ApueCourse.Shell.Machine
import ApueCourse.Transition.Run

/-! The signal shell among other processes: every id of the process table may take
the next step. -/

namespace ApueCourse.Shell

open Process Transition

/-- One step of the system.  `code p` is a step of `p` that concerns `p` alone,
`fork p child` is `none` where `fork` fails, `quit receivers` the `SIGQUIT` that
some of the processes get at the same time. -/
inductive Event
  | code (p : Nat)
  | fgets (p : Nat) (line : Bool)
  | fork (p : Nat) (child : Option Nat)
  | execlp (p : Nat) (success : Bool)
  | waitpid (p : Nat)
  | kill (p : Nat) (permitted : Bool)
  | exit (p : Nat)
  | expire (p : Nat)
  | quit (receivers : Nat → Bool)
  | deliver (p : Nat) (sig : Signal)
  | terminate (q : Nat)
  | adopt (q : Nat)
  | appear (q : Nat)
  | vanish (q : Nat)

abbrev Processes := Table Machine

namespace Processes

/-- A process takes a step of its own program only when no signal is to be
delivered first. -/
def step (s : Processes) (p : Nat) (next : Machine → Option Processes) :
    Option Processes := do
  let m ← (s p).prog
  if m.Quiet then next m else none

/-- `waitpid(pid, &status, 0)` of `p`: it collects a child that has ended, blocks
while the child lives, and fails where there is no such child. -/
def waitpid (s : Processes) (p : Nat) (m : Machine) : Option Processes :=
  let child := s m.pid.toNat
  if child.parent = some p then
    match child with
    | .zombie _ => some ((s.collect m.pid.toNat).put p (m.goto (.waited m.pid)))
    | _ => none
  else
    some (s.put p (m.goto (.waited (-1))))

def act (time : Int) (s : Processes) : Event → Option Processes
  | .code p => s.step p fun m => (m.code time).map (s.put p)
  | .fgets p line => s.step p fun m =>
      if m.pc = .fgets then some (s.put p (m.fgets line)) else none
  | .fork p none => s.step p fun m =>
      if m.pc = .fork then some (s.put p (m.goto (.forked (-1)))) else none
  | .fork p (some q) => s.step p fun m =>
      match m.pc, s q with
      | .fork, .free =>
          if 0 < q then some (s.fork p q (m.goto (.forked q)) m.child) else none
      | _, _ => none
  | .execlp p success => s.step p fun m =>
      if m.pc = .execlp then
        some (if success then s.exec p else s.put p (m.goto .exit))
      else
        none
  | .waitpid p => s.step p fun m => if m.pc = .waitpid then s.waitpid p m else none
  | .kill p permitted => s.step p fun m =>
      match m.pc with
      | .handler sig .kill =>
          some ((s.put p (m.goto (.handler sig .clear))).kill m.pid.toNat permitted)
      | _ => none
  | .exit p => s.step p fun m => if m.pc = .exit then some (s.die p) else none
  | .expire p => do
      let m ← (s p).prog
      let line ← m.timer
      some (s.put p { m.generate .SIGALRM line with timer := none })
  | .quit receivers =>
      some (s.mapProgs fun p m => if receivers p then m.generate .SIGQUIT 0 else m)
  | .deliver p sig => do
      let m ← (s p).prog
      if m.pending sig ∧ ¬ m.blocked sig then some (s.put p (m.deliver sig)) else none
  | .terminate q =>
      match s q with
      | .command _ => some (s.die q)
      | _ => none
  | .adopt q =>
      match s q with
      | .zombie none => some (s.collect q)
      | _ => none
  | .appear q =>
      match s q with
      | .free => some (Function.update s q .foreign)
      | _ => none
  | .vanish q =>
      match s q with
      | .foreign => some (s.collect q)
      | _ => none

def schedule (time : Int) : Processes → List Event → Option Processes
  | s, [] => some s
  | s, e :: rest => do
      let s' ← s.act time e
      schedule time s' rest

end Processes

/-- The shell has the id `root`; all other processes are foreign. -/
def shell (time : Int) (root : Nat) : System Processes Event where
  Initial s := s root = .running none .start ∧
    ∀ p ≠ root, s p = .free ∨ s p = .foreign
  Step s e s' := s.act time e = some s'

/-! What a step can do, to one process and to the table. -/

/-- Steps of one process that concern no other one. -/
inductive Alone (time : Int) : Machine → Machine → Prop
  | code {m m' : Machine} (hquiet : m.Quiet) (hcode : m.code time = some m') :
      Alone time m m'
  | fgets {m : Machine} (hpc : m.pc = .fgets) (line : Bool) :
      Alone time m (m.fgets line)
  | forkFails {m : Machine} (hpc : m.pc = .fork) :
      Alone time m (m.goto (.forked (-1)))
  | execFails {m : Machine} (hpc : m.pc = .execlp) : Alone time m (m.goto .exit)
  | expire {m : Machine} {line : Nat} (htimer : m.timer = some line) :
      Alone time m { m.generate .SIGALRM line with timer := none }

inductive Change (time : Int) (s : Processes) : Event → Processes → Prop
  | alone {p : Nat} {m m' : Machine} {e : Event} (hp : (s p).prog = some m)
      (hmove : Alone time m m') : Change time s e (s.put p m')
  | deliver {p : Nat} {m : Machine} {sig : Signal} (hp : (s p).prog = some m)
      (hpending : m.pending sig) (hblocked : m.blocked sig = false) :
      Change time s (.deliver p sig) (s.put p (m.deliver sig))
  | quit (receivers : Nat → Bool) :
      Change time s (.quit receivers)
        (s.mapProgs fun p m => if receivers p then m.generate .SIGQUIT 0 else m)
  | fork {p q : Nat} {m : Machine} (hp : (s p).prog = some m) (hpc : m.pc = .fork)
      (hpos : 0 < q) (hfree : s q = .free) :
      Change time s (.fork p (some q)) (s.fork p q (m.goto (.forked q)) m.child)
  | exec {p : Nat} {m : Machine} (hp : (s p).prog = some m) (hpc : m.pc = .execlp) :
      Change time s (.execlp p true) (s.exec p)
  | waited {p : Nat} {m : Machine} {parent : Option Nat} (hp : (s p).prog = some m)
      (hpc : m.pc = .waitpid) (hzombie : s m.pid.toNat = .zombie parent)
      (hparent : parent = some p) :
      Change time s (.waitpid p)
        ((s.collect m.pid.toNat).put p (m.goto (.waited m.pid)))
  | waitFails {p : Nat} {m : Machine} (hp : (s p).prog = some m)
      (hpc : m.pc = .waitpid) (hchild : (s m.pid.toNat).parent ≠ some p) :
      Change time s (.waitpid p) (s.put p (m.goto (.waited (-1))))
  | kill {p : Nat} {m : Machine} {sig : Signal} (hp : (s p).prog = some m)
      (hpc : m.pc = .handler sig .kill) (permitted : Bool) :
      Change time s (.kill p permitted)
        ((s.put p (m.goto (.handler sig .clear))).kill m.pid.toNat permitted)
  | die {q : Nat} {e : Event} : Change time s e (s.die q)
  | collect {q : Nat} {e : Event} (hprog : (s q).prog = none)
      (hparent : (s q).parent = none) : Change time s e (s.collect q)
  | appear {q : Nat} (hfree : s q = .free) :
      Change time s (.appear q) (Function.update s q .foreign)

/-- The steps of one process, with what other processes do to it. -/
inductive Move (time : Int) : Machine → Machine → Prop
  | alone {m m' : Machine} (hmove : Alone time m m') : Move time m m'
  | deliver {m : Machine} {sig : Signal} (hpending : m.pending sig)
      (hblocked : m.blocked sig = false) : Move time m (m.deliver sig)
  | quit {m : Machine} : Move time m (m.generate .SIGQUIT 0)
  | forked {m : Machine} {q : Nat} (hpc : m.pc = .fork) (hpos : 0 < q) :
      Move time m (m.goto (.forked q))
  | waited {m : Machine} {ret : Int} (hpc : m.pc = .waitpid) :
      Move time m (m.goto (.waited ret))
  | killed {m : Machine} {sig : Signal} (hpc : m.pc = .handler sig .kill) :
      Move time m (m.goto (.handler sig .clear))

/-- Where a step of a process that concerns no other one leads, and what it leaves in
`pid`. -/
inductive Goes : Pc → Int → Pc → Int → Prop
  | stays {pc : Pc} {pid : Int} : Goes pc pid pc pid
  | prompt {pid : Int} : Goes .prompt pid .fgets pid
  | line {pid : Int} : Goes .fgets pid .alarm pid
  | eof {pid : Int} : Goes .fgets pid .exit pid
  | alarm {pid : Int} : Goes .alarm pid .fork pid
  | forkFails {pid : Int} : Goes .fork pid (.forked (-1)) pid
  | forked {ret pid : Int} : Goes (.forked ret) pid .forkTest ret
  | forkFailed {pid : Int} (hpid : pid < 0) : Goes .forkTest pid .exit pid
  | child : Goes .forkTest 0 .execlp 0
  | parent {pid : Int} (hpid : 0 < pid) : Goes .forkTest pid .waitpid pid
  | execFails {pid : Int} : Goes .execlp pid .exit pid
  | waited {ret pid : Int} : Goes (.waited ret) pid .waitTest ret
  | waitFailed {pid : Int} : Goes .waitTest pid .exit pid
  | collected {pid : Int} : Goes .waitTest pid .alarmOff pid
  | alarmOff {pid : Int} : Goes .alarmOff pid .prompt pid
  | test {sig : Signal} {pid : Int} (hpid : 0 < pid) :
      Goes (.handler sig .test) pid (.handler sig .kill) pid
  | handler {sig : Signal} {before after : HandlerPc} {pid pid' : Int}
      (htest : after ≠ .test) (hkill : after ≠ .kill) :
      Goes (.handler sig before) pid (.handler sig after) pid'
  | siglongjmp {sig : Signal} {before : HandlerPc} {pid : Int} :
      Goes (.handler sig before) pid .prompt pid

namespace Machine

theorem goes_handlerStep {m m' : Machine} {sig : Signal} {cancels : Bool}
    {pc : HandlerPc} (hpc : m.pc = .handler sig pc)
    (hstep : handlerStep sig cancels m pc = some m') :
    Goes m.pc m.pid m'.pc m'.pid := by
  rw [hpc]
  cases pc with
  | test =>
      simp only [handlerStep, Option.some.injEq] at hstep
      subst hstep
      by_cases hpos : 0 < m.pid
      · rw [if_pos hpos]
        exact .test hpos
      · rw [if_neg hpos]
        exact .handler (by simp) (by simp)
  | kill => cases hstep
  | print =>
      simp only [handlerStep, Option.some.injEq] at hstep
      subst hstep
      cases cancels <;> exact .handler (by simp) (by simp)
  | sigpending =>
      simp only [handlerStep, Option.some.injEq] at hstep
      subst hstep
      exact .handler (by split <;> simp) (by split <;> simp)
  | clear | cancel | ignore | reinstall =>
      simp only [handlerStep, Option.some.injEq] at hstep
      subst hstep
      exact .handler (by simp) (by simp)
  | siglongjmp =>
      simp only [handlerStep, Option.some.injEq] at hstep
      subst hstep
      exact .siglongjmp

theorem goes_code {time : Int} {m m' : Machine} (hcode : m.code time = some m') :
    Goes m.pc m.pid m'.pc m'.pid := by
  cases hpc : m.pc with
  | handler sig pc =>
      rw [← hpc]
      cases sig with
      | SIGALRM =>
          simp only [code, hpc] at hcode
          exact goes_handlerStep hpc hcode
      | SIGQUIT =>
          simp only [code, hpc] at hcode
          exact goes_handlerStep hpc hcode
  | forkTest =>
      simp only [code, hpc, Option.some.injEq] at hcode
      subst hcode
      rcases Int.lt_trichotomy m.pid 0 with hfailed | hchild | hparent
      · rw [if_pos hfailed]
        exact .forkFailed hfailed
      · simp only [goto, hchild]
        exact .child
      · rw [if_neg (by omega), if_neg (by omega)]
        exact .parent hparent
  | waitTest =>
      simp only [code, hpc, Option.some.injEq] at hcode
      subst hcode
      by_cases hfailed : m.pid < 0
      · rw [if_pos hfailed]
        exact .waitFailed
      · rw [if_neg hfailed]
        exact .collected
  | prompt | alarm | forked | waited | alarmOff =>
      simp only [code, hpc, Option.some.injEq] at hcode
      subst hcode
      constructor
  | fgets | fork | execlp | waitpid | exit => simp [code, hpc] at hcode

theorem goes_alone {time : Int} {m m' : Machine} (hmove : Alone time m m') :
    Goes m.pc m.pid m'.pc m'.pid := by
  cases hmove with
  | code hquiet hcode => exact goes_code hcode
  | fgets hpc line =>
      rw [hpc]
      cases line with
      | true => exact .line
      | false => exact .eof
  | forkFails hpc =>
      rw [hpc]
      exact .forkFails
  | execFails hpc =>
      rw [hpc]
      exact .execFails
  | expire htimer =>
      simp only [pc_generate, pid_generate]
      exact .stays

end Machine

namespace Processes

theorem step_eq_some {s s' : Processes} {p : Nat} {next : Machine → Option Processes}
    (hstep : s.step p next = some s') :
    ∃ m, (s p).prog = some m ∧ m.Quiet ∧ next m = some s' := by
  obtain ⟨m, hp, hnext⟩ := Option.bind_eq_some_iff.mp hstep
  split at hnext
  · exact ⟨m, hp, ‹_›, hnext⟩
  · cases hnext

theorem act_cases {time : Int} {s s' : Processes} {e : Event}
    (hact : s.act time e = some s') : Change time s e s' := by
  cases e with
  | code p =>
      obtain ⟨m, hp, hquiet, hnext⟩ := step_eq_some hact
      obtain ⟨m', hcode, rfl⟩ := Option.map_eq_some_iff.mp hnext
      exact .alone hp (.code hquiet hcode)
  | fgets p line =>
      obtain ⟨m, hp, -, hnext⟩ := step_eq_some hact
      obtain ⟨hpc, hnext⟩ := Option.ite_none_right_eq_some.mp hnext
      cases hnext
      exact .alone hp (.fgets hpc line)
  | fork p child =>
      cases child with
      | none =>
          obtain ⟨m, hp, -, hnext⟩ := step_eq_some hact
          obtain ⟨hpc, hnext⟩ := Option.ite_none_right_eq_some.mp hnext
          cases hnext
          exact .alone hp (.forkFails hpc)
      | some q =>
          obtain ⟨m, hp, -, hnext⟩ := step_eq_some hact
          split at hnext
          · rename_i hpc hfree
            obtain ⟨hpos, hnext⟩ := Option.ite_none_right_eq_some.mp hnext
            cases hnext
            exact .fork hp hpc hpos hfree
          · cases hnext
  | execlp p success =>
      obtain ⟨m, hp, -, hnext⟩ := step_eq_some hact
      obtain ⟨hpc, hnext⟩ := Option.ite_none_right_eq_some.mp hnext
      cases hnext
      cases success with
      | true => exact .exec hp hpc
      | false => exact .alone hp (.execFails hpc)
  | waitpid p =>
      obtain ⟨m, hp, -, hnext⟩ := step_eq_some hact
      obtain ⟨hpc, hnext⟩ := Option.ite_none_right_eq_some.mp hnext
      simp only [waitpid] at hnext
      split at hnext
      · rename_i hchild
        split at hnext
        · rename_i hzombie
          cases hnext
          rw [hzombie] at hchild
          exact .waited hp hpc hzombie hchild
        · cases hnext
      · rename_i hchild
        cases hnext
        exact .waitFails hp hpc hchild
  | kill p permitted =>
      obtain ⟨m, hp, -, hnext⟩ := step_eq_some hact
      split at hnext
      · rename_i hpc
        cases hnext
        exact .kill hp hpc permitted
      · cases hnext
  | exit p =>
      obtain ⟨m, hp, -, hnext⟩ := step_eq_some hact
      obtain ⟨hpc, hnext⟩ := Option.ite_none_right_eq_some.mp hnext
      cases hnext
      exact .die
  | expire p =>
      obtain ⟨m, hp, hnext⟩ := Option.bind_eq_some_iff.mp hact
      obtain ⟨line, htimer, hnext⟩ := Option.bind_eq_some_iff.mp hnext
      cases hnext
      exact .alone hp (.expire htimer)
  | quit receivers =>
      cases hact
      exact .quit receivers
  | deliver p sig =>
      obtain ⟨m, hp, hnext⟩ := Option.bind_eq_some_iff.mp hact
      obtain ⟨⟨hpending, hblocked⟩, hnext⟩ := Option.ite_none_right_eq_some.mp hnext
      cases hnext
      exact .deliver hp hpending (by simpa using hblocked)
  | terminate q =>
      simp only [act] at hact
      split at hact
      · cases hact
        exact .die
      · cases hact
  | adopt q =>
      simp only [act] at hact
      split at hact
      · rename_i hzombie
        cases hact
        exact .collect (by rw [hzombie]; rfl) (by rw [hzombie]; rfl)
      · cases hact
  | appear q =>
      simp only [act] at hact
      split at hact
      · rename_i hfree
        cases hact
        exact .appear hfree
      · cases hact
  | vanish q =>
      simp only [act] at hact
      split at hact
      · rename_i hforeign
        cases hact
        exact .collect (by rw [hforeign]; rfl) (by rw [hforeign]; rfl)
      · cases hact

theorem act_prog {time : Int} {s s' : Processes} {e : Event}
    (hact : s.act time e = some s') {p : Nat} {m' : Machine}
    (hp' : (s' p).prog = some m') :
    (s p).prog = some m' ∨
      (∃ m, (s p).prog = some m ∧ Move time m m') ∨
        ∃ q m, (s q).prog = some m ∧ m.pc = .fork ∧ m' = m.child := by
  have hput {q : Nat} {m m₁ : Machine} (hq : (s q).prog = some m)
      (hmove : Move time m m₁) (hput : (s.put q m₁ p).prog = some m') :
      (s p).prog = some m' ∨ ∃ m, (s p).prog = some m ∧ Move time m m' := by
    rw [Table.prog_put] at hput
    split at hput
    · rename_i hpq
      obtain rfl := Option.some.inj hput
      exact .inr ⟨m, hpq ▸ hq, hmove⟩
    · exact .inl hput
  cases act_cases hact with
  | alone hq hmove => exact (hput hq (.alone hmove) hp').imp_right .inl
  | deliver hq hpending hblocked =>
      exact (hput hq (.deliver hpending hblocked) hp').imp_right .inl
  | quit receivers =>
      rw [Table.prog_mapProgs] at hp'
      obtain ⟨m, hp, hm⟩ := Option.map_eq_some_iff.mp hp'
      split at hm
      · rw [← hm]
        exact .inr (.inl ⟨m, hp, .quit⟩)
      · rw [← hm]
        exact .inl hp
  | fork hq hpc hpos hfree =>
      rw [Table.prog_fork] at hp'
      split at hp'
      · exact .inr (.inr ⟨_, _, hq, hpc, (Option.some.inj hp').symm⟩)
      · rw [← Table.prog_put] at hp'
        exact (hput hq (.forked hpc hpos) hp').imp_right .inl
  | exec hq hpc => exact .inl (Table.prog_of_exec hp')
  | @waited q m _ hq hpc hzombie hparent =>
      rw [Table.prog_put] at hp'
      split at hp'
      · rename_i hpq
        obtain rfl := Option.some.inj hp'
        exact .inr (.inl ⟨m, hpq ▸ hq, .waited hpc⟩)
      · exact .inl (Table.prog_of_collect hp')
  | waitFails hq hpc hchild =>
      exact (hput hq (.waited hpc) hp').imp_right .inl
  | kill hq hpc permitted =>
      exact (hput hq (.killed hpc) (Table.prog_of_kill hp')).imp_right .inl
  | die => exact .inl (Table.prog_of_die hp')
  | collect hprog hparent => exact .inl (Table.prog_of_collect hp')
  | appear hfree => exact .inl (Table.prog_of_update rfl hp')

theorem initial_prog {time : Int} {root : Nat} {s : Processes}
    (hs : (shell time root).Initial s) {p : Nat} {m : Machine}
    (hp : (s p).prog = some m) : p = root ∧ m = .start := by
  by_cases hpr : p = root
  · rw [hpr, hs.1] at hp
    exact ⟨hpr, (Option.some.inj hp).symm⟩
  · rcases hs.2 p hpr with hfree | hforeign
    · rw [hfree] at hp
      cases hp
    · rw [hforeign] at hp
      cases hp

theorem initial_parent {time : Int} {root : Nat} {s : Processes}
    (hs : (shell time root).Initial s) (p : Nat) : (s p).parent = none := by
  by_cases hpr : p = root
  · rw [hpr, hs.1]
    rfl
  · rcases hs.2 p hpr with hfree | hforeign
    · rw [hfree]
      rfl
    · rw [hforeign]
      rfl

theorem reachable_prog {time : Int} {root : Nat} {I : Machine → Prop}
    (hstart : I .start) (hmove : ∀ m m', I m → Move time m m' → I m')
    (hchild : ∀ m, I m → m.pc = .fork → I m.child) {s : Processes}
    (hs : (shell time root).Reachable s) :
    ∀ p m, (s p).prog = some m → I m := by
  refine System.Reachable.invariant (I := fun s : Processes =>
    ∀ p m, (s p).prog = some m → I m) ?_ ?_ hs
  · intro s hinit p m hp
    rw [(initial_prog hinit hp).2]
    exact hstart
  · intro s e s' hall hact p m' hp'
    rcases act_prog hact hp' with hp | ⟨m, hp, hm⟩ | ⟨q, m, hq, hpc, rfl⟩
    · exact hall p m' hp
    · exact hmove m m' (hall p m hp) hm
    · exact hchild m (hall q m hq) hpc

theorem schedule_run {time : Int} {root : Nat} {s s' : Processes} {events : List Event}
    (hschedule : s.schedule time events = some s') :
    (shell time root).Run s events s' := by
  induction events generalizing s with
  | nil =>
      cases hschedule
      exact .refl _
  | cons e rest ih =>
      obtain ⟨middle, hstep, hrest⟩ := Option.bind_eq_some_iff.mp hschedule
      exact .cons hstep (ih hrest)

theorem schedule_restrict_run {time : Int} {root : Nat}
    {allowed : Processes → Event → Prop} {s s' : Processes} {events : List Event}
    (hallowed : ∀ e ∈ events, ∀ s, allowed s e)
    (hschedule : s.schedule time events = some s') :
    ((shell time root).restrict allowed).Run s events s' := by
  induction events generalizing s with
  | nil =>
      cases hschedule
      exact .refl _
  | cons e rest ih =>
      obtain ⟨middle, hstep, hrest⟩ := Option.bind_eq_some_iff.mp hschedule
      have hmore : ∀ e ∈ rest, ∀ s, allowed s e := fun e he =>
        hallowed e (List.mem_cons_of_mem _ he)
      exact .cons ⟨hstep, hallowed e List.mem_cons_self s⟩ (ih hmore hrest)

def onlyShell (root : Nat) : Processes :=
  Function.update (fun _ => .free) root (.running none .start)

theorem onlyShell_initial (time : Int) (root : Nat) :
    (shell time root).Initial (onlyShell root) := by
  refine ⟨Function.update_self .., ?_⟩
  intro p hp
  exact .inl (Function.update_of_ne hp ..)

theorem schedule_reachable {time : Int} {root : Nat} {s : Processes}
    {events : List Event} (hschedule : (onlyShell root).schedule time events = some s) :
    (shell time root).Reachable s :=
  (System.Reachable.of_initial (onlyShell_initial time root)).run
    (schedule_run hschedule)

end Processes

end ApueCourse.Shell
