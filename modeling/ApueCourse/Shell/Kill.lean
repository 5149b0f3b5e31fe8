import ApueCourse.Shell.Processes

/-! Whom the handlers kill. -/

namespace ApueCourse.Shell

open Process Transition

/-- The child that the next steps of the program take to be there still. -/
def Machine.relies (m : Machine) : Option Int :=
  match m.pc with
  | .forked ret => some ret
  | .forkTest | .waitpid | .handler _ .test | .handler _ .kill => some m.pid
  | _ => none

/-- A signal is delivered where `pid` holds no id, or the one of the child that has
been forked and not been collected. -/
def PidIsCurrent (s : Processes) (e : Event) : Prop :=
  match e with
  | .deliver p _ =>
      ∀ m, (s p).prog = some m → m.pid ≤ 0 ∨ m.pc = .forkTest ∨ m.pc = .waitpid
  | _ => True

namespace Machine

theorem relies_generate (m : Machine) (sig : Signal) (line : Nat) :
    (m.generate sig line).relies = m.relies := by
  simp only [relies, pc_generate, pid_generate]

theorem relies_alone {time : Int} {m m' : Machine} {q : Int}
    (hmove : Alone time m m') (hrelies : m'.relies = some q) (hpos : 0 < q) :
    m.relies = some q := by
  have hgoes := goes_alone hmove
  unfold relies at hrelies ⊢
  generalize m.pc = pc, m.pid = pid, m'.pc = pc', m'.pid = pid' at hgoes hrelies ⊢
  cases hgoes with
  | stays | forked | parent | test => exact hrelies
  | forkFails =>
      obtain rfl := Option.some.inj hrelies
      omega
  | @handler sig before after pid pid' htest hkill =>
      cases after with
      | test => exact absurd rfl htest
      | kill => exact absurd rfl hkill
      | _ => cases hrelies
  | _ => cases hrelies

theorem relies_deliver {m : Machine} {sig : Signal} {q : Int}
    (hcurrent : m.pid ≤ 0 ∨ m.pc = .forkTest ∨ m.pc = .waitpid)
    (hrelies : (m.deliver sig).relies = some q) (hpos : 0 < q) :
    m.relies = some q := by
  unfold deliver at hrelies
  split at hrelies
  · cases sig <;> exact hrelies
  · have hpid : q = m.pid := by
      cases sig <;> exact (Option.some.inj hrelies).symm
    subst hpid
    rcases hcurrent with hnone | hpc | hpc
    · omega
    · simp only [relies, hpc]
    · simp only [relies, hpc]

end Machine

namespace Processes

/-- What a process relies on is a child of its own that it has not collected. -/
def Relying (s : Processes) : Prop :=
  ∀ p m q, (s p).prog = some m → m.relies = some q → 0 < q →
    (s q.toNat).parent = some p

theorem Relying.put {s : Processes} (hs : s.Relying) {p : Nat} {m m' : Machine}
    (hp : (s p).prog = some m)
    (hmove : ∀ q, m'.relies = some q → 0 < q → m.relies = some q) :
    Relying (s.put p m') := by
  intro r m₁ q hr hrelies hpos
  rw [Table.parent_put]
  rw [Table.prog_put] at hr
  split at hr
  · rename_i hrp
    subst hrp
    obtain rfl := Option.some.inj hr
    exact hs r m q hp (hmove q hrelies hpos) hpos
  · exact hs r m₁ q hr hrelies hpos

/-- Processes may end and be collected as long as the children of those that go on
stay where they are. -/
theorem Relying.fewer {s s' : Processes} (hs : s.Relying)
    (hprog : ∀ r m, (s' r).prog = some m → (s r).prog = some m)
    (hparent : ∀ r p m, (s r).parent = some p → (s' p).prog = some m →
      (s' r).parent = some p) : s'.Relying := by
  intro p m q hp hrelies hpos
  exact hparent _ p m (hs p m q (hprog p m hp) hrelies hpos) hp

theorem Relying.die {s : Processes} (hs : s.Relying) (q : Nat) : Relying (s.die q) := by
  apply hs.fewer
  · intro r m hr
    exact Table.prog_of_die hr
  · intro r p m hparent hp
    rw [Table.prog_die] at hp
    have hne := (Option.ite_none_left_eq_some.mp hp).1
    rw [Table.parent_die, hparent, if_neg]
    intro heq
    exact hne (Option.some.inj heq)

theorem Relying.collect {s : Processes} (hs : s.Relying) {q : Nat}
    (hq : (s q).parent = none) : Relying (s.collect q) := by
  apply hs.fewer
  · intro r m hr
    exact Table.prog_of_collect hr
  · intro r p m hparent hp
    rw [Table.parent_collect, if_neg, hparent]
    intro heq
    rw [heq, hq] at hparent
    cases hparent

theorem Relying.kill {s : Processes} (hs : s.Relying) (q : Nat) (permitted : Bool) :
    Relying (s.kill q permitted) := by
  rcases s.kill_cases q permitted with hkill | ⟨hforeign, hkill⟩ | hkill
  · rw [hkill]
    exact hs
  · rw [hkill]
    exact hs.collect (by rw [hforeign]; rfl)
  · rw [hkill]
    exact hs.die q

theorem Relying.change {time : Int} {s s' : Processes} {e : Event} (hs : s.Relying)
    (hcurrent : PidIsCurrent s e) (hchange : Change time s e s') : s'.Relying := by
  cases hchange with
  | alone hp hmove => exact hs.put hp (fun q => Machine.relies_alone hmove)
  | deliver hp hpending hblocked =>
      exact hs.put hp (fun q => Machine.relies_deliver (hcurrent _ hp))
  | quit receivers =>
      intro p m q hp hrelies hpos
      rw [Table.parent_mapProgs]
      rw [Table.prog_mapProgs] at hp
      obtain ⟨m₀, hp₀, rfl⟩ := Option.map_eq_some_iff.mp hp
      apply hs p m₀ q hp₀ _ hpos
      split at hrelies
      · rwa [Machine.relies_generate] at hrelies
      · exact hrelies
  | @fork p q m hp hpc hq hfree =>
      intro r m₁ q₁ hr hrelies hpos
      rw [Table.parent_fork]
      rw [Table.prog_fork] at hr
      split at hr
      · obtain rfl := Option.some.inj hr
        obtain rfl := Option.some.inj hrelies
        omega
      · split at hr
        · rename_i hrp
          obtain rfl := Option.some.inj hr
          obtain rfl := Option.some.inj hrelies
          rw [if_pos (Int.toNat_natCast q), hrp]
        · have hold := hs r m₁ q₁ hr hrelies hpos
          rw [if_neg, hold]
          intro heq
          rw [heq, hfree] at hold
          cases hold
  | exec hp hpc =>
      apply hs.fewer
      · intro r m hr
        exact Table.prog_of_exec hr
      · intro r p m hparent _
        rw [Table.parent_exec, hparent]
  | @waited p m parent hp hpc hzombie hparent =>
      intro r m₁ q hr hrelies hpos
      rw [Table.prog_put] at hr
      rw [Table.parent_put, Table.parent_collect]
      split at hr
      · obtain rfl := Option.some.inj hr
        cases hrelies
      · rename_i hrp
        have hold := hs r m₁ q (Table.prog_of_collect hr) hrelies hpos
        rw [if_neg, hold]
        intro heq
        rw [heq, hzombie] at hold
        exact hrp (Option.some.inj (hold.symm.trans hparent))
  | waitFails hp hpc hchild =>
      apply hs.put hp
      intro q hrelies
      cases hrelies
  | kill hp hpc permitted =>
      apply Relying.kill
      apply hs.put hp
      intro q hrelies
      cases hrelies
  | die => exact hs.die _
  | collect hprog hparent => exact hs.collect hparent
  | appear hfree =>
      apply hs.fewer
      · intro r m hr
        exact Table.prog_of_update rfl hr
      · intro r p m hparent _
        rw [Function.update_apply, if_neg, hparent]
        intro heq
        rw [heq, hfree] at hparent
        cases hparent

theorem Relying.initial {time : Int} {root : Nat} {s : Processes}
    (hs : (shell time root).Initial s) : s.Relying := by
  intro p m q hp hrelies _
  rw [(initial_prog hs hp).2] at hrelies
  cases hrelies

end Processes

namespace Machine

def KillsId (m : Machine) : Prop := ∀ sig, m.pc = .handler sig .kill → 0 < m.pid

theorem KillsId.alone {time : Int} {m m' : Machine} (hm : m.KillsId)
    (hmove : Alone time m m') : m'.KillsId := by
  have hgoes := goes_alone hmove
  unfold KillsId at hm ⊢
  generalize m.pc = pc, m.pid = pid, m'.pc = pc', m'.pid = pid' at hgoes hm ⊢
  intro sig hpc
  cases hgoes with
  | stays => exact hm sig hpc
  | test hpid => exact hpid
  | handler htest hkill =>
      cases hpc
      exact absurd rfl hkill
  | _ => cases hpc

theorem KillsId.generate {m : Machine} (hm : m.KillsId) (sig : Signal) (line : Nat) :
    (m.generate sig line).KillsId := by
  simpa only [KillsId, pc_generate, pid_generate] using hm

theorem KillsId.move {time : Int} {m m' : Machine} (hm : m.KillsId)
    (hmove : Move time m m') : m'.KillsId := by
  cases hmove with
  | alone hmove => exact hm.alone hmove
  | @deliver sig hpending hblocked =>
      unfold deliver
      split
      · cases sig <;> exact hm
      · intro sig' hkill
        cases hkill
  | quit => exact hm.generate .SIGQUIT 0
  | forked hpc hpos =>
      intro sig hkill
      cases hkill
  | waited hpc =>
      intro sig hkill
      cases hkill
  | killed hpc =>
      intro sig hkill
      cases hkill

end Machine

/-- As long as every signal is delivered where `pid` is current, a handler that comes
to its `kill` has a child of its own in `pid` that it has not collected. -/
theorem kill_own_child {time : Int} {root : Nat} {s : Processes}
    (hs : ((shell time root).restrict PidIsCurrent).Reachable s) {p : Nat}
    {m : Machine} {sig : Signal} (hp : (s p).prog = some m)
    (hpc : m.pc = .handler sig .kill) :
    0 < m.pid ∧ (s m.pid.toNat).parent = some p := by
  have hrelying : s.Relying :=
    System.Reachable.invariant (M := (shell time root).restrict PidIsCurrent)
      (I := Processes.Relying) (fun _ hinitial => @Processes.Relying.initial time root _ hinitial)
      (fun _ _ _ hs hstep => hs.change hstep.2 (Processes.act_cases hstep.1)) hs
  have hpos : 0 < m.pid := by
    refine Processes.reachable_prog (I := Machine.KillsId) ?_
      (fun _ _ hm hmove => hm.move hmove) ?_ (System.restrict_reachable hs) p m hp sig hpc
    · intro sig hkill
      cases hkill
    · intro m _ _ sig hkill
      cases hkill
  exact ⟨hpos, hrelying p m m.pid hp (by simp only [Machine.relies, hpc]) hpos⟩

/-- `SIGQUIT` while the shell waits for the command of its first line. -/
theorem kill_own_child_waiting :
    ∃ s m, ((shell 0 1).restrict PidIsCurrent).Reachable s ∧ (s 1).prog = some m ∧
      m.pc = .handler .SIGQUIT .kill ∧ 0 < m.pid ∧
        (s m.pid.toNat).parent = some 1 := by
  obtain ⟨s₁, s₂, s₃, hfirst, hdeliver, hlast, ⟨m₁, hwaiting, hpc₁⟩, m, hp, hpc⟩ :
      ∃ s₁ s₂ s₃,
        (Processes.onlyShell 1).schedule 0
            [.code 1, .fgets 1 true, .code 1, .fork 1 (some 2), .code 1, .code 1,
              .quit fun _ => true] = some s₁ ∧
          s₁.act 0 (.deliver 1 .SIGQUIT) = some s₂ ∧
          s₂.schedule 0 [.code 1] = some s₃ ∧
          (∃ m, (s₁ 1).prog = some m ∧ m.pc = .waitpid) ∧
          ∃ m, (s₃ 1).prog = some m ∧ m.pc = .handler .SIGQUIT .kill :=
    ⟨_, _, _, rfl, rfl, rfl, ⟨_, rfl, rfl⟩, _, rfl, rfl⟩
  have hcurrent : PidIsCurrent s₁ (.deliver 1 .SIGQUIT) := by
    intro m' hp'
    obtain rfl := Option.some.inj (hwaiting.symm.trans hp')
    exact .inr (.inr hpc₁)
  have hs : ((shell 0 1).restrict PidIsCurrent).Reachable s₃ :=
    ((System.Reachable.of_initial (M := (shell 0 1).restrict PidIsCurrent)
      (Processes.onlyShell_initial 0 1)).run
        (Processes.schedule_restrict_run (by simp [PidIsCurrent]) hfirst)).step
          ⟨hdeliver, hcurrent⟩ |>.run
            (Processes.schedule_restrict_run (by simp [PidIsCurrent]) hlast)
  exact ⟨s₃, m, hs, hp, hpc, kill_own_child hs hp hpc⟩

/-- A `SIGQUIT` at the prompt after the first command: its id belongs to a foreign
process now, and the handler is about to kill that. -/
theorem stale_pid_killed :
    ∃ s m, (shell 0 1).Reachable s ∧ (s 1).prog = some m ∧
      m.pc = .handler .SIGQUIT .kill ∧ m.pid = 2 ∧ s 2 = .foreign ∧
        ¬ (s m.pid.toNat).parent = some 1 := by
  obtain ⟨s, hschedule, m, hp, hpc, hpid, hforeign⟩ :
      ∃ s,
        (Processes.onlyShell 1).schedule 0
            [.code 1, .fgets 1 true, .code 1, .fork 1 (some 2), .code 1, .code 1,
              .code 2, .code 2, .execlp 2 true, .terminate 2, .waitpid 1, .appear 2,
              .code 1, .code 1, .code 1, .code 1, .quit fun _ => true,
              .deliver 1 .SIGQUIT, .code 1] = some s ∧
          ∃ m, (s 1).prog = some m ∧ m.pc = .handler .SIGQUIT .kill ∧ m.pid = 2 ∧
            s 2 = .foreign :=
    ⟨_, rfl, _, rfl, rfl, rfl, rfl⟩
  refine ⟨s, m, Processes.schedule_reachable hschedule, hp, hpc, hpid, hforeign, ?_⟩
  rw [hpid]
  intro hparent
  have hchild : (s 2).parent = some 1 := hparent
  rw [hforeign] at hchild
  cases hchild

end ApueCourse.Shell
