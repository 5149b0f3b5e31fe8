import ApueCourse.Shell.Processes

/-! Who collects the children. -/

namespace ApueCourse.Shell

open Process Transition

/-- The child that a process has between `fork` and the return of `waitpid`. -/
def Machine.awaited (m : Machine) : Option Nat :=
  match m.pc with
  | .forked ret => if 0 < ret then some ret.toNat else none
  | .forkTest | .waitpid => if 0 < m.pid then some m.pid.toNat else none
  | _ => none

/-- No signal is delivered to a process between its `fork` and the return of its
`waitpid`. -/
def NotWhileAwaiting (s : Processes) (e : Event) : Prop :=
  match e with
  | .deliver p _ => ∀ m, (s p).prog = some m → m.awaited = none
  | _ => True

namespace Machine

theorem awaited_generate (m : Machine) (sig : Signal) (line : Nat) :
    (m.generate sig line).awaited = m.awaited := by
  simp only [awaited, pc_generate, pid_generate]

theorem awaited_alone {time : Int} {m m' : Machine} {q : Nat}
    (hmove : Alone time m m') (hawaited : m.awaited = some q) : m'.awaited = some q := by
  have hgoes := goes_alone hmove
  unfold awaited at hawaited ⊢
  generalize m.pc = pc, m.pid = pid, m'.pc = pc', m'.pid = pid' at hgoes hawaited ⊢
  cases hgoes with
  | stays | forked | parent => exact hawaited
  | forkFailed hpid =>
      rw [if_neg (by omega)] at hawaited
      cases hawaited
  | _ => cases hawaited

end Machine

namespace Processes

/-- Every child is the one that its parent awaits. -/
def Awaiting (s : Processes) : Prop :=
  ∀ p q, (s q).parent = some p → ∃ m, (s p).prog = some m ∧ m.awaited = some q

theorem Awaiting.put {s : Processes} (hs : s.Awaiting) {p : Nat} {m m' : Machine}
    (hp : (s p).prog = some m)
    (hmove : ∀ q, (s q).parent = some p → m.awaited = some q → m'.awaited = some q) :
    Awaiting (s.put p m') := by
  intro r q hparent
  rw [Table.parent_put] at hparent
  obtain ⟨m₁, hr, hawaited⟩ := hs r q hparent
  rw [Table.prog_put]
  by_cases hrp : r = p
  · subst hrp
    obtain rfl := Option.some.inj (hp.symm.trans hr)
    exact ⟨m', if_pos rfl, hmove q hparent hawaited⟩
  · exact ⟨m₁, by rw [if_neg hrp, hr], hawaited⟩

theorem Awaiting.childless {s : Processes} (hs : s.Awaiting) {p q : Nat} {m : Machine}
    (hp : (s p).prog = some m) (hnone : m.awaited = none) :
    (s q).parent ≠ some p := by
  intro hparent
  obtain ⟨m₁, hp₁, hawaited⟩ := hs p q hparent
  obtain rfl := Option.some.inj (hp.symm.trans hp₁)
  rw [hnone] at hawaited
  cases hawaited

theorem Awaiting.put_childless {s : Processes} (hs : s.Awaiting) {p : Nat}
    {m m' : Machine} (hp : (s p).prog = some m) (hnone : m.awaited = none) :
    Awaiting (s.put p m') := by
  apply hs.put hp
  intro q _ hawaited
  rw [hnone] at hawaited
  cases hawaited

theorem Awaiting.die {s : Processes} (hs : s.Awaiting) (q : Nat) :
    Awaiting (s.die q) := by
  intro p r hparent
  rw [Table.parent_die] at hparent
  obtain ⟨hnot, hparent⟩ := Option.ite_none_left_eq_some.mp hparent
  obtain ⟨m, hp, hawaited⟩ := hs p r hparent
  refine ⟨m, ?_, hawaited⟩
  rw [Table.prog_die, if_neg, hp]
  intro hpq
  exact hnot (hpq ▸ hparent)

theorem Awaiting.collect {s : Processes} (hs : s.Awaiting) {q : Nat}
    (hq : (s q).prog = none) : Awaiting (s.collect q) := by
  intro p r hparent
  rw [Table.parent_collect] at hparent
  obtain ⟨-, hparent⟩ := Option.ite_none_left_eq_some.mp hparent
  obtain ⟨m, hp, hawaited⟩ := hs p r hparent
  refine ⟨m, ?_, hawaited⟩
  rw [Table.prog_collect, if_neg, hp]
  intro hpq
  rw [hpq, hq] at hp
  cases hp

theorem Awaiting.kill {s : Processes} (hs : s.Awaiting) (q : Nat) (permitted : Bool) :
    Awaiting (s.kill q permitted) := by
  rcases s.kill_cases q permitted with hkill | ⟨hforeign, hkill⟩ | hkill
  · rw [hkill]
    exact hs
  · rw [hkill]
    exact hs.collect (by rw [hforeign]; rfl)
  · rw [hkill]
    exact hs.die q

theorem Awaiting.change {time : Int} {s s' : Processes} {e : Event} (hs : s.Awaiting)
    (hallowed : NotWhileAwaiting s e) (hchange : Change time s e s') :
    s'.Awaiting := by
  cases hchange with
  | alone hp hmove => exact hs.put hp (fun q _ => Machine.awaited_alone hmove)
  | deliver hp hpending hblocked => exact hs.put_childless hp (hallowed _ hp)
  | quit receivers =>
      intro p q hparent
      rw [Table.parent_mapProgs] at hparent
      obtain ⟨m, hp, hawaited⟩ := hs p q hparent
      refine ⟨_, by rw [Table.prog_mapProgs, hp]; rfl, ?_⟩
      split
      · rw [Machine.awaited_generate, hawaited]
      · exact hawaited
  | @fork p q m hp hpc hq hfree =>
      have hnone : m.awaited = none := by
        simp only [Machine.awaited, hpc]
      have hpq : p ≠ q := by
        intro heq
        rw [heq, hfree] at hp
        cases hp
      intro p₁ r hparent
      rw [Table.parent_fork] at hparent
      rw [Table.prog_fork]
      split at hparent
      · rename_i hrq
        obtain rfl := Option.some.inj hparent
        refine ⟨_, by rw [if_neg hpq, if_pos rfl], ?_⟩
        simp [Machine.awaited, Machine.goto, hq, hrq]
      · obtain ⟨m₁, hp₁, hawaited⟩ := hs p₁ r hparent
        have hother : p₁ ≠ p := by
          intro heq
          exact hs.childless hp hnone (heq ▸ hparent)
        have hnew : p₁ ≠ q := by
          intro heq
          rw [heq, hfree] at hp₁
          cases hp₁
        exact ⟨m₁, by rw [if_neg hnew, if_neg hother, hp₁], hawaited⟩
  | @exec p m hp hpc =>
      intro p₁ r hparent
      rw [Table.parent_exec] at hparent
      obtain ⟨m₁, hp₁, hawaited⟩ := hs p₁ r hparent
      refine ⟨m₁, ?_, hawaited⟩
      rw [Table.prog_exec, if_neg, hp₁]
      intro heq
      have hnone : m.awaited = none := by
        simp only [Machine.awaited, hpc]
      exact hs.childless hp hnone (heq ▸ hparent)
  | @waited p m parent hp hpc hzombie hparent =>
      have hprog : (s m.pid.toNat).prog = none := by
        rw [hzombie]
        rfl
      have hne : p ≠ m.pid.toNat := by
        intro heq
        rw [← heq, hp] at hprog
        cases hprog
      refine (hs.collect hprog).put (m := m) ?_ ?_
      · rw [Table.prog_collect, if_neg hne, hp]
      · intro q hchild hawaited
        rw [Table.parent_collect] at hchild
        simp only [Machine.awaited, hpc, Option.ite_none_right_eq_some] at hawaited
        rw [if_pos (Option.some.inj hawaited.2).symm] at hchild
        cases hchild
  | waitFails hp hpc hchild =>
      apply hs.put hp
      intro q hparent hawaited
      simp only [Machine.awaited, hpc, Option.ite_none_right_eq_some] at hawaited
      rw [← Option.some.inj hawaited.2] at hparent
      exact absurd hparent hchild
  | kill hp hpc permitted =>
      apply Awaiting.kill
      apply hs.put_childless hp
      simp only [Machine.awaited, hpc]
  | die => exact hs.die _
  | collect hprog hparent => exact hs.collect hprog
  | @appear q hfree =>
      intro p r hparent
      rw [Function.update_apply] at hparent
      split at hparent
      · cases hparent
      · obtain ⟨m, hp, hawaited⟩ := hs p r hparent
        refine ⟨m, ?_, hawaited⟩
        rw [Function.update_apply, if_neg, hp]
        intro heq
        rw [heq, hfree] at hp
        cases hp

theorem Awaiting.initial {time : Int} {root : Nat} {s : Processes}
    (hs : (shell time root).Initial s) : s.Awaiting := by
  intro p q hparent
  rw [initial_parent hs] at hparent
  cases hparent

end Processes

/-- As long as no signal is delivered between `fork` and the return of `waitpid`, a
process that is about to read a line has no child left, neither running nor ended,
and at any time it has one child at most. -/
theorem children_collected {time : Int} {root : Nat} {s : Processes}
    (hs : ((shell time root).restrict NotWhileAwaiting).Reachable s) {p : Nat}
    {m : Machine} (hp : (s p).prog = some m) :
    (m.pc = .fgets → ∀ q, (s q).parent ≠ some p) ∧
      ∀ q q', (s q).parent = some p → (s q').parent = some p → q = q' := by
  have hawaiting : s.Awaiting :=
    System.Reachable.invariant (M := (shell time root).restrict NotWhileAwaiting)
      (I := Processes.Awaiting)
      (fun _ hinitial => @Processes.Awaiting.initial time root _ hinitial)
      (fun _ _ _ hs hstep => hs.change hstep.2 (Processes.act_cases hstep.1)) hs
  constructor
  · intro hpc q
    exact hawaiting.childless hp (by simp only [Machine.awaited, hpc])
  · intro q q' hq hq'
    obtain ⟨m₁, hp₁, hawaited⟩ := hawaiting p q hq
    obtain ⟨m₂, hp₂, hawaited'⟩ := hawaiting p q' hq'
    obtain rfl := Option.some.inj (hp₁.symm.trans hp₂)
    exact Option.some.inj (hawaited.symm.trans hawaited')

/-- The first command has run and the shell reads its second line. -/
theorem children_collected_second_line :
    ∃ s m, ((shell 0 1).restrict NotWhileAwaiting).Reachable s ∧
      (s 1).prog = some m ∧ m.pc = .fgets ∧ m.line = 1 ∧
        (m.pc = .fgets → ∀ q, (s q).parent ≠ some 1) ∧
          ∀ q q', (s q).parent = some 1 → (s q').parent = some 1 → q = q' := by
  obtain ⟨s, hschedule, m, hp, hpc, hline⟩ :
      ∃ s,
        (Processes.onlyShell 1).schedule 0
            [.code 1, .fgets 1 true, .code 1, .fork 1 (some 2), .code 1, .code 1,
              .code 2, .code 2, .execlp 2 true, .terminate 2, .waitpid 1,
              .code 1, .code 1, .code 1, .code 1] = some s ∧
          ∃ m, (s 1).prog = some m ∧ m.pc = .fgets ∧ m.line = 1 :=
    ⟨_, rfl, _, rfl, rfl, rfl⟩
  have hs : ((shell 0 1).restrict NotWhileAwaiting).Reachable s :=
    (System.Reachable.of_initial (M := (shell 0 1).restrict NotWhileAwaiting)
      (Processes.onlyShell_initial 0 1)).run
        (Processes.schedule_restrict_run (by simp [NotWhileAwaiting]) hschedule)
  exact ⟨s, m, hs, hp, hpc, hline, children_collected hs hp⟩

/-- `SIGQUIT` while the first command runs: the shell reads its next line, and the
child that its handler has killed is never collected. -/
theorem killed_child_left :
    ∃ s m, (shell 0 1).Reachable s ∧ (s 1).prog = some m ∧ m.pc = .fgets ∧
      s 2 = .zombie (some 1) := by
  obtain ⟨s, hschedule, m, hp, hpc, hzombie⟩ :
      ∃ s,
        (Processes.onlyShell 1).schedule 0
            [.code 1, .fgets 1 true, .code 1, .fork 1 (some 2), .code 1, .code 1,
              .code 2, .code 2, .execlp 2 true, .quit fun _ => true,
              .deliver 1 .SIGQUIT, .code 1, .kill 1 true, .code 1, .code 1, .code 1,
              .code 1, .code 1, .code 1] = some s ∧
          ∃ m, (s 1).prog = some m ∧ m.pc = .fgets ∧ s 2 = .zombie (some 1) :=
    ⟨_, rfl, _, rfl, rfl, rfl⟩
  exact ⟨s, m, Processes.schedule_reachable hschedule, hp, hpc, hzombie⟩

end ApueCourse.Shell
