import ApueCourse.Shell.Processes

/-! Who runs the command loop. -/

namespace ApueCourse.Shell

open Process Transition

/-- In the branch of `main` where `fork` has returned 0, in front of `execlp`. -/
def Machine.inChild (m : Machine) : Prop :=
  m.pc = .forked 0 ∨ (m.pc = .forkTest ∧ m.pid = 0) ∨ m.pc = .execlp

/-- In the loop of prompt, `fgets`, `fork` and `waitpid`, or in a handler that is
about to jump there. -/
def Machine.inLoop (m : Machine) : Prop := ¬ m.inChild ∧ m.pc ≠ .exit

/-- `SIGQUIT` is delivered to the original shell only: a forked child gets none before
its `execlp` succeeds or it exits. -/
def QuitsShellOnly (root : Nat) (_ : Processes) (e : Event) : Prop :=
  match e with
  | .deliver p .SIGQUIT => p = root
  | _ => True

namespace Machine

/-- A forked child on its way to `execlp` or `exit`, without a timer. -/
structure Branch (m : Machine) : Prop where
  branch : m.inChild ∨ m.pc = .exit
  timer : m.timer = none
  alrm : m.alrm = none

theorem Branch.alone {time : Int} {m m' : Machine} (hm : m.Branch)
    (hmove : Alone time m m') : m'.Branch := by
  obtain ⟨hbranch, htimer, halrm⟩ := hm
  cases hmove with
  | code hquiet hcode =>
      rcases hbranch with (hpc | ⟨hpc, hpid⟩ | hpc) | hpc
      · simp only [code, hpc, Option.some.injEq] at hcode
        subst hcode
        exact ⟨.inl (.inr (.inl ⟨rfl, rfl⟩)), htimer, halrm⟩
      · simp only [code, hpc, Option.some.injEq] at hcode
        subst hcode
        have hnext : m.goto (if m.pid < 0 then .exit else
            if m.pid = 0 then .execlp else .waitpid) = m.goto .execlp := by
          simp [hpid]
        rw [hnext]
        exact ⟨.inl (.inr (.inr rfl)), htimer, halrm⟩
      · simp [code, hpc] at hcode
      · simp [code, hpc] at hcode
  | fgets hpc line => simp [inChild, hpc] at hbranch
  | forkFails hpc => simp [inChild, hpc] at hbranch
  | execFails hpc => exact ⟨.inr rfl, htimer, halrm⟩
  | expire hline =>
      rw [htimer] at hline
      cases hline

theorem Branch.quit {m : Machine} (hm : m.Branch) :
    (m.generate .SIGQUIT 0).Branch := by
  unfold generate
  split
  · exact hm
  · exact ⟨hm.branch, hm.timer, hm.alrm⟩

theorem Branch.child (m : Machine) : m.child.Branch := ⟨.inl (.inl rfl), rfl, rfl⟩

theorem not_inChild_alone {time : Int} {m m' : Machine} (hm : ¬ m.inChild)
    (hmove : Alone time m m') : ¬ m'.inChild := by
  have hgoes := goes_alone hmove
  unfold inChild at hm ⊢
  generalize m.pc = pc, m.pid = pid, m'.pc = pc', m'.pid = pid' at hgoes hm ⊢
  cases hgoes with
  | stays => exact hm
  | forked => simpa using hm
  | child => simp at hm
  | _ => simp

theorem not_inChild_move (time : Int) {m m' : Machine} (hm : ¬ m.inChild)
    (hmove : Move time m m') : ¬ m'.inChild := by
  cases hmove with
  | alone hmove => exact not_inChild_alone hm hmove
  | @deliver sig hpending hblocked =>
      unfold deliver
      split
      · cases sig <;> exact hm
      · simp [inChild]
  | quit => simpa only [inChild, pc_generate, pid_generate] using hm
  | forked hpc hpos =>
      simp only [inChild, goto]
      simp
      omega
  | waited hpc => simp [inChild, goto]
  | killed hpc => simp [inChild, goto]

end Machine

namespace Processes

/-- Only `root` is not in the branch of a child. -/
def OneLoop (root : Nat) (s : Processes) : Prop :=
  ∀ p m, (s p).prog = some m → (p = root → ¬ m.inChild) ∧ (p ≠ root → m.Branch)

theorem OneLoop.put {root : Nat} {s : Processes} (hs : s.OneLoop root) {p : Nat}
    {m m' : Machine} (hp : (s p).prog = some m)
    (hroot : p = root → ¬ m.inChild → ¬ m'.inChild)
    (hother : p ≠ root → m.Branch → m'.Branch) : OneLoop root (s.put p m') := by
  intro r m₁ hr
  rw [Table.prog_put] at hr
  split at hr
  · rename_i hrp
    subst hrp
    obtain rfl := Option.some.inj hr
    obtain ⟨hm, hbranch⟩ := hs r m hp
    exact ⟨fun heq => hroot heq (hm heq), fun hne => hother hne (hbranch hne)⟩
  · exact hs r m₁ hr

theorem OneLoop.fewer {root : Nat} {s s' : Processes} (hs : s.OneLoop root)
    (hprog : ∀ p m, (s' p).prog = some m → (s p).prog = some m) :
    s'.OneLoop root := fun p m hp => hs p m (hprog p m hp)

theorem OneLoop.eq_root {root : Nat} {s : Processes} (hs : s.OneLoop root) {p : Nat}
    {m : Machine} (hp : (s p).prog = some m) (hloop : m.inLoop) : p = root := by
  apply Classical.byContradiction
  intro hne
  rcases ((hs p m hp).2 hne).branch with hchild | hexit
  · exact hloop.1 hchild
  · exact hloop.2 hexit

theorem OneLoop.put_loop {root : Nat} {s : Processes} (hs : s.OneLoop root)
    (time : Int) {p : Nat} {m m' : Machine} (hp : (s p).prog = some m) (hloop : m.inLoop)
    (hmove : Move time m m') : OneLoop root (s.put p m') :=
  hs.put hp (fun _ hm => Machine.not_inChild_move time hm hmove)
    (fun hne => absurd (hs.eq_root hp hloop) hne)

theorem OneLoop.collect {root : Nat} {s : Processes} (hs : s.OneLoop root) (q : Nat) :
    OneLoop root (s.collect q) := by
  apply hs.fewer
  intro p m hp
  exact Table.prog_of_collect hp

theorem OneLoop.change {time : Int} {root : Nat} {s s' : Processes} {e : Event}
    (hs : s.OneLoop root) (hallowed : QuitsShellOnly root s e)
    (hchange : Change time s e s') : s'.OneLoop root := by
  cases hchange with
  | alone hp hmove =>
      exact hs.put hp (fun _ hm => Machine.not_inChild_alone hm hmove)
        (fun _ hm => hm.alone hmove)
  | @deliver p m sig hp hpending hblocked =>
      refine hs.put hp
        (fun _ hm => Machine.not_inChild_move time hm (.deliver hpending hblocked)) ?_
      intro hne hm
      cases sig with
      | SIGALRM =>
          rw [Machine.pending, hm.alrm] at hpending
          cases hpending
      | SIGQUIT => exact absurd hallowed hne
  | quit receivers =>
      intro p m hp
      rw [Table.prog_mapProgs] at hp
      obtain ⟨m₀, hp₀, rfl⟩ := Option.map_eq_some_iff.mp hp
      obtain ⟨hroot, hother⟩ := hs p m₀ hp₀
      split
      · exact ⟨fun heq => Machine.not_inChild_move time (hroot heq) .quit,
          fun hne => (hother hne).quit⟩
      · exact ⟨hroot, hother⟩
  | @fork p q m hp hpc hpos hfree =>
      have hloop : m.inLoop := by
        simp [Machine.inLoop, Machine.inChild, hpc]
      have hnew : q ≠ root := by
        intro heq
        rw [← hs.eq_root hp hloop] at heq
        rw [← heq, hfree] at hp
        cases hp
      intro r m₁ hr
      rw [Table.prog_fork] at hr
      split at hr
      · rename_i hrq
        obtain rfl := Option.some.inj hr
        exact ⟨fun heq => absurd (hrq.symm.trans heq) hnew, fun _ => .child m⟩
      · rw [← Table.prog_put] at hr
        exact hs.put_loop time hp hloop (.forked hpc hpos) r m₁ hr
  | exec hp hpc =>
      apply hs.fewer
      intro p m hp
      exact Table.prog_of_exec hp
  | @waited p m parent hp hpc hzombie hparent =>
      have hloop : m.inLoop := by
        simp [Machine.inLoop, Machine.inChild, hpc]
      have hne : p ≠ m.pid.toNat := by
        intro heq
        rw [← heq] at hzombie
        rw [hzombie] at hp
        cases hp
      apply (hs.collect m.pid.toNat).put_loop time (m := m) _ hloop (.waited hpc)
      rw [Table.prog_collect, if_neg hne, hp]
  | waitFails hp hpc hchild =>
      apply hs.put_loop time hp _ (.waited hpc)
      simp [Machine.inLoop, Machine.inChild, hpc]
  | kill hp hpc permitted =>
      have hclear : OneLoop root (s.put _ _) :=
        hs.put_loop time hp (by simp [Machine.inLoop, Machine.inChild, hpc])
          (.killed hpc)
      exact hclear.fewer (fun p m => Table.prog_of_kill)
  | die =>
      apply hs.fewer
      intro p m hp
      exact Table.prog_of_die hp
  | collect hprog hparent => exact hs.collect _
  | appear hfree =>
      apply hs.fewer
      intro p m hp
      exact Table.prog_of_update rfl hp

theorem OneLoop.initial {time : Int} {root : Nat} {s : Processes}
    (hs : (shell time root).Initial s) : s.OneLoop root := by
  intro p m hp
  obtain ⟨hpr, rfl⟩ := initial_prog hs hp
  exact ⟨fun _ => by simp [Machine.inChild, Machine.start], fun hne => absurd hpr hne⟩

end Processes

/-- As long as no forked child gets a `SIGQUIT` in front of its `execlp`, the process
in the command loop is the original shell, which leaves it only to exit. -/
theorem one_command_loop {time : Int} {root : Nat} {s : Processes}
    (hs : ((shell time root).restrict (QuitsShellOnly root)).Reachable s) {p : Nat}
    {m : Machine} (hp : (s p).prog = some m) (hpc : m.pc ≠ .exit) :
    m.inLoop ↔ p = root := by
  have hloop : s.OneLoop root :=
    System.Reachable.invariant (M := (shell time root).restrict (QuitsShellOnly root))
      (I := Processes.OneLoop root)
      (fun _ hinitial => @Processes.OneLoop.initial time root _ hinitial)
      (fun _ _ _ hs hstep => hs.change hstep.2 (Processes.act_cases hstep.1)) hs
  constructor
  · intro hin
    exact hloop.eq_root hp hin
  · intro heq
    exact ⟨(hloop p m hp).1 heq, hpc⟩

/-- The child of the first line is about to replace itself. -/
theorem one_command_loop_first_child :
    ∃ s m, ((shell 0 1).restrict (QuitsShellOnly 1)).Reachable s ∧
      (s 2).prog = some m ∧ m.pc = .execlp ∧ (m.inLoop ↔ 2 = 1) := by
  obtain ⟨s, hschedule, m, hp, hpc⟩ :
      ∃ s,
        (Processes.onlyShell 1).schedule 0
            [.code 1, .fgets 1 true, .code 1, .fork 1 (some 2), .code 2, .code 2] =
          some s ∧ ∃ m, (s 2).prog = some m ∧ m.pc = .execlp :=
    ⟨_, rfl, _, rfl, rfl⟩
  have hs : ((shell 0 1).restrict (QuitsShellOnly 1)).Reachable s :=
    (System.Reachable.of_initial (M := (shell 0 1).restrict (QuitsShellOnly 1))
      (Processes.onlyShell_initial 0 1)).run
        (Processes.schedule_restrict_run (by simp [QuitsShellOnly]) hschedule)
  exact ⟨s, m, hs, hp, hpc, one_command_loop hs hp (by simp [hpc])⟩

/-- The terminal's `SIGQUIT` comes right after `fork`: shell and child both jump back
to the prompt and read lines. -/
theorem two_command_loops :
    ∃ s m₁ m₂, (shell 0 1).Reachable s ∧
      (s 1).prog = some m₁ ∧ m₁.pc = .fgets ∧ m₁.inLoop ∧
        (s 2).prog = some m₂ ∧ m₂.pc = .fgets ∧ m₂.inLoop := by
  obtain ⟨s, hschedule, ⟨m₁, hp₁, hpc₁⟩, m₂, hp₂, hpc₂⟩ :
      ∃ s,
        (Processes.onlyShell 1).schedule 0
            [.code 1, .fgets 1 true, .code 1, .fork 1 (some 2), .quit fun _ => true,
              .deliver 1 .SIGQUIT, .code 1, .code 1, .code 1, .code 1, .code 1, .code 1,
              .deliver 2 .SIGQUIT, .code 2, .code 2, .code 2, .code 2, .code 2, .code 2] =
          some s ∧
            (∃ m, (s 1).prog = some m ∧ m.pc = .fgets) ∧
              ∃ m, (s 2).prog = some m ∧ m.pc = .fgets :=
    ⟨_, rfl, ⟨_, rfl, rfl⟩, _, rfl, rfl⟩
  exact ⟨s, m₁, m₂, Processes.schedule_reachable hschedule, hp₁, hpc₁,
    by simp [Machine.inLoop, Machine.inChild, hpc₁], hp₂, hpc₂,
    by simp [Machine.inLoop, Machine.inChild, hpc₂]⟩

end ApueCourse.Shell
