import ApueCourse.Semaph.Counting

/-! Whoever has locked the set comes to the end of its call without waiting. -/

namespace ApueCourse.Semaph

open Process Transition

/-- How many system calls are left with the set locked. -/
def Pc.left : Pc → Nat
  | .counting .. => 4
  | .setting .. => 3
  | .resetting _ | .reading _ => 2
  | .ending _ | .removing _ | .unlocking _ => 1
  | .idle | .locking .. | .opening _ | .gone => 0

/-- The value that `sem_create` is about to put into the semaphore is one that it can have. -/
def Pc.InRange : Pc → Prop
  | .counting _ initval | .setting _ initval => 0 ≤ initval ∧ initval ≤ SEMVMX
  | _ => True

variable {Pid : Type u}

def Event.pid : Event Pid → Pid
  | .create p _ | .again p | .sleep p | .lock p | .getval p | .setval p _ | .resetval p
  | .endcreate p | .open p | .opened p | .op p _ _ | .close p _ | .getclose p | .remove p
  | .unlock p | .exit p => p

variable [DecidableEq Pid] [Fintype Pid] {s s' : State Pid} {p : Pid} {set : SemSet Pid}

/-- The steps of one process, as long as it does not end. -/
def State.Alone (p : Pid) (s : State Pid) (event : Event Pid) : Prop :=
  s.Careful event ∧ event.pid = p ∧ event ≠ .exit p

theorem semop_unlock_done (hset : SetLocked set s.locked) (hp : s.locked p ≠ none) :
    set.semop p op_unlock = .done (set.add p ⟨2, -1, true⟩) := by
  have hmax : SEMVMX = 32767 := rfl
  have hval := hset.semval_of_locked hp
  have howed := hset.owed p
  rw [if_neg hp] at howed
  refine SemSet.semop_cons (b := ⟨2, -1, true⟩) (by decide) ?_ ?_ ?_ ?_
  all_goals
    dsimp only
    omega

theorem semop_endcreate_done (hset : SetLocked set s.locked) (hp : s.locked p ≠ none)
    (hpos : 1 ≤ set.semval 1) (hle : set.semval 1 + set.semadj p 1 ≤ BIGCOUNT)
    (hnonneg : 0 ≤ set.semadj p 1) : set.semop p op_endcreate =
      .done ((set.add p ⟨1, -1, true⟩).add p ⟨2, -1, true⟩) := by
  have hmax : SEMVMX = 32767 := rfl
  have hbig : BIGCOUNT = 10000 := rfl
  have hunlock := semop_unlock_done (hset.add_of_ne (b := ⟨1, -1, true⟩) (by decide) p) hp
  refine Eq.trans (SemSet.semop_cons (b := ⟨1, -1, true⟩) (by decide) ?_ ?_ ?_ ?_) hunlock
  all_goals
    dsimp only
    omega

/-- The next step of the process that has locked the set. -/
theorem alone_step (hlocked : Locked s.live s.locked) (hcounted : Counted s)
    (hholders : s.holders < BIGCOUNT) (hrange : (s.pc p).InRange) (hp : s.locked p ≠ none) :
    ∃ event s', (State.Step s event s' ∧ s.Alone p event) ∧
      (s'.locked p ≠ none → s'.holders < BIGCOUNT ∧ (s'.pc p).InRange) ∧
        (s'.pc p).left < (s.pc p).left := by
  obtain ⟨id, hid⟩ := Option.ne_none_iff_exists'.mp hp
  obtain ⟨set, hlive⟩ := hlocked.live p id hid
  have hset := hlocked.set id set hlive
  have hcount := hcounted.set id set hlive
  have hgone : ∀ {s' : State Pid}, s'.pc p = .idle → s'.locked p = none := fun hpc =>
    congrArg Pc.locked hpc
  rw [State.locked] at hid
  cases hpc : s.pc p with
  | idle | locking | opening | gone =>
      rw [hpc] at hid
      cases hid
  | counting id' initval =>
      rw [hpc] at hid hrange
      cases hid
      refine ⟨.getval p, _, ⟨.getval hpc hlive, hholders, rfl, by rintro ⟨⟩⟩,
        fun _ => ⟨hholders, ?_⟩, ?_⟩
      · rw [State.pc_setPc_self]
        split
        · exact hrange
        · exact trivial
      · rw [State.pc_setPc_self]
        split <;> simp [Pc.left]
  | setting id' initval =>
      rw [hpc] at hid hrange
      cases hid
      refine ⟨.setval p initval, _, ⟨.setval hpc hlive hrange, trivial, rfl, by rintro ⟨⟩⟩,
        fun _ => ⟨hholders, ?_⟩, ?_⟩
      · rw [State.pc_setPc_self]
        exact trivial
      · rw [State.pc_setPc_self]
        simp [Pc.left]
  | resetting id' =>
      rw [hpc] at hid
      cases hid
      refine ⟨.resetval p, _, ⟨.resetval hpc hlive, trivial, rfl, by rintro ⟨⟩⟩,
        fun _ => ⟨hholders, ?_⟩, ?_⟩
      · rw [State.pc_setPc_self]
        exact trivial
      · rw [State.pc_setPc_self]
        simp [Pc.left]
  | ending id' =>
      rw [hpc] at hid
      cases hid
      have htotal := hcount.ready p (by rw [hpc]; rfl)
      have howed := hcount.owed p
      have hsum := hcount.total_eq
      have hone : (s.handles p).length ≤ ∑ q, (s.handles q).length :=
        Finset.single_le_sum (f := fun q => (s.handles q).length) (fun _ _ => Nat.zero_le _)
          (Finset.mem_univ p)
      rw [State.holders] at hholders
      have hop := semop_endcreate_done hset hp (by omega) (by omega) (by omega)
      refine ⟨.endcreate p, _, ⟨.endcreate hpc hlive hop, trivial, rfl, by rintro ⟨⟩⟩,
        fun h => absurd (hgone (State.pc_setPc_self ..)) h, ?_⟩
      rw [State.pc_setHandles, State.pc_setPc_self]
      simp [Pc.left]
  | reading id' =>
      rw [hpc] at hid
      cases hid
      have htotal := hcount.ready p (by rw [hpc]; rfl)
      have hsum := hcount.total_eq
      refine ⟨.getclose p, _, ⟨.getclose hpc hlive (by omega), trivial, rfl, by rintro ⟨⟩⟩,
        fun _ => ⟨hholders, ?_⟩, ?_⟩
      · rw [State.pc_setPc_self]
        split <;> exact trivial
      · rw [State.pc_setPc_self]
        split <;> simp [Pc.left]
  | removing id' =>
      rw [hpc] at hid
      cases hid
      refine ⟨.remove p, _, ⟨.remove hpc hlive, trivial, rfl, by rintro ⟨⟩⟩,
        fun h => absurd (hgone (State.pc_setPc_self ..)) h, ?_⟩
      rw [State.pc_setPc_self]
      simp [Pc.left]
  | unlocking id' =>
      rw [hpc] at hid
      cases hid
      refine ⟨.unlock p, _, ⟨.unlock hpc hlive (semop_unlock_done hset hp), trivial, rfl,
        by rintro ⟨⟩⟩, fun h => absurd (hgone (State.pc_setPc_self ..)) h, ?_⟩
      rw [State.pc_setPc_self]
      simp [Pc.left]

/-- A process that has locked the set gives it back by its own steps alone, whoever waits for
it. -/
theorem lock_given_back (hs : ((system Pid).restrict State.Careful).Reachable s)
    (hholders : s.holders < BIGCOUNT) (hrange : (s.pc p).InRange) :
    ∃ trace s', ((system Pid).restrict (State.Alone p)).Run s trace s' ∧ s'.locked p = none := by
  obtain ⟨hlocked, hcounted⟩ := counted_reachable hs
  have hrun : ∃ trace s', ((system Pid).restrict (State.Alone p)).Run s trace s' ∧
      (Locked s'.live s'.locked ∧ Counted s' ∧
        (s'.locked p ≠ none → s'.holders < BIGCOUNT ∧ (s'.pc p).InRange)) ∧
      s'.locked p = none := by
    refine System.exists_run_of_decreasing (fun s => (s.pc p).left) ?_
      ⟨hlocked, hcounted, fun _ => ⟨hholders, hrange⟩⟩
    rintro s ⟨hlocked, hcounted, hkept⟩ hp
    obtain ⟨hholders, hrange⟩ := hkept hp
    obtain ⟨event, s', ⟨hstep, halone⟩, hkept', hlt⟩ :=
      alone_step hlocked hcounted hholders hrange hp
    exact ⟨event, s', ⟨hstep, halone⟩, ⟨locked_step hlocked hstep,
      counted_step hlocked hcounted halone.1 hstep, hkept'⟩, hlt⟩
  obtain ⟨trace, s', hrun, -, hgoal⟩ := hrun
  exact ⟨trace, s', hrun, hgoal⟩

theorem lock_given_back_created :
    ∃ s : State (Fin 2), ((system (Fin 2)).restrict State.Careful).Reachable s ∧
      s.locked 0 = some 0 ∧
      ∃ trace s', ((system (Fin 2)).restrict (State.Alone 0)).Run s trace s' ∧
        s'.locked 0 = none := by
  have hs := created_reachable.step
    ⟨@State.Step.close _ _ created 0 0 _ _ rfl List.mem_cons_self rfl rfl, trivial⟩
  exact ⟨_, hs, rfl, lock_given_back hs (by decide) trivial⟩

end ApueCourse.Semaph
