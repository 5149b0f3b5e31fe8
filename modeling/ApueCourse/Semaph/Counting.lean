import ApueCourse.Semaph.Locking

/-! The counter of `semaph.c`, the second member of the set: whoever has a handle has a set that
is there and has been initialised. -/

namespace ApueCourse.Semaph

open Process Transition

variable {Pid : Type u}

/-- Between the look at the counter and its initialisation. -/
def Pc.unset : Pc → Bool
  | .setting .. | .resetting _ => true
  | _ => false

/-- With a set locked that has been initialised. -/
def Pc.ready : Pc → Bool
  | .ending _ | .reading _ | .removing _ | .unlocking _ => true
  | _ => false

variable {s s' : State Pid} {p q : Pid} {id : Nat} {set set' : SemSet Pid} {pc : Pid → Pc}
  {handles : Pid → List Nat}

/-- A process that has not locked the set is at none of these points. -/
theorem apart_of_not_locked (hp : s.locked p = none) :
    (s.pc p).unset = false ∧ (s.pc p).ready = false ∧ ∀ id, s.pc p ≠ .removing id := by
  rw [State.locked] at hp
  cases hpc : s.pc p with
  | idle | locking | opening | gone => exact ⟨rfl, rfl, by rintro _ ⟨⟩⟩
  | counting | setting | resetting | ending | reading | removing | unlocking =>
      rw [hpc] at hp
      cases hp

variable [Fintype Pid]

/-- The number of handles that the processes have. -/
def State.holders (s : State Pid) : Nat := ∑ p, (s.handles p).length

structure SetCounted (set : SemSet Pid) (pc : Pid → Pc) (handles : Pid → List Nat) : Prop where
  owed : ∀ p, set.semadj p 1 = (handles p).length
  nonneg : 0 ≤ set.semval 1
  total : set.total 1 = 0 ∨ set.total 1 = BIGCOUNT
  unset : ∀ p, (pc p).unset = true → set.total 1 = 0
  ready : ∀ p, (pc p).ready = true → set.total 1 = BIGCOUNT
  removing : ∀ p id, pc p = .removing id → ∀ q, handles q = []

structure Counted (s : State Pid) : Prop where
  live : ∀ p, ∀ id ∈ s.handles p, ∃ set, s.live = some (id, set)
  set : ∀ id set, s.live = some (id, set) → SetCounted set s.pc s.handles

/-- Fewer processes than the counter can count have a handle when one looks whether the set has
been initialised, and no `sem_open` comes between the look of `sem_close` at the counter and the
removal of the set. -/
def State.Careful (s : State Pid) : Event Pid → Prop
  | .getval _ => s.holders < BIGCOUNT
  | .opened _ => ∀ p id, s.pc p ≠ .removing id
  | _ => True

namespace SetCounted

section Owed

variable (h : SetCounted set pc handles)
include h

/-- The counter with the handles. -/
theorem total_eq : set.total 1 = set.semval 1 + ((∑ p, (handles p).length : Nat) : Int) := by
  rw [SemSet.total, Finset.sum_congr rfl fun p _ => h.owed p, Nat.cast_sum]

theorem handles_eq_nil (hle : set.total 1 ≤ set.semval 1) (p : Pid) : handles p = [] := by
  rw [h.total_eq] at hle
  have hzero : ∑ p, (handles p).length = 0 := by omega
  exact List.eq_nil_of_length_eq_zero (Finset.sum_eq_zero_iff.mp hzero p (Finset.mem_univ p))

theorem total_of_mem (hid : id ∈ handles p) : set.total 1 = BIGCOUNT := by
  refine h.total.resolve_left fun hzero => ?_
  have hnonneg := h.nonneg
  rw [h.handles_eq_nil (by omega)] at hid
  cases hid

theorem length_le (p : Pid) : 0 ≤ set.semval 1 + set.semadj p 1 ∧
    set.semval 1 + set.semadj p 1 ≤ SEMVMX := by
  have hnonneg := h.nonneg
  have howed : ∀ q, 0 ≤ set.semadj q 1 := by
    intro q
    rw [h.owed q]
    exact Int.natCast_nonneg _
  have hle := SemSet.semval_add_semadj_le howed p
  have hp := h.owed p
  have hbig : BIGCOUNT ≤ SEMVMX := by decide
  have hzero : (0 : Int) ≤ SEMVMX := by decide
  rcases h.total with htotal | htotal <;> omega

theorem congr (hsemval : set'.semval 1 = set.semval 1)
    (hsemadj : ∀ p, set'.semadj p 1 = set.semadj p 1) : SetCounted set' pc handles := by
  have htotal := SemSet.total_congr hsemval hsemadj
  exact ⟨fun p => (hsemadj p).trans (h.owed p), hsemval ▸ h.nonneg, htotal ▸ h.total,
    htotal ▸ h.unset, htotal ▸ h.ready, h.removing⟩

end Owed

theorem zero (hhandles : ∀ p, handles p = []) (hunready : ∀ p, (pc p).ready = false) :
    SetCounted .zero pc handles where
  owed p := by
    rw [hhandles p]
    rfl
  nonneg := Int.le_refl 0
  total := .inl (SemSet.total_zero 1)
  unset _ _ := SemSet.total_zero 1
  ready p hp := by cases (hunready p).symm.trans hp
  removing _ _ _ := hhandles

end SetCounted

/-- While a process has locked the set, the others are outside. -/
theorem apart_of_ne (hlocked : Locked s.live s.locked) (hp : s.locked p ≠ none) (hne : q ≠ p) :
    (s.pc q).unset = false ∧ (s.pc q).ready = false ∧ ∀ id, s.pc q ≠ .removing id := by
  refine apart_of_not_locked ?_
  by_contra hq
  cases hid : s.locked p with
  | none => exact hp hid
  | some id =>
      obtain ⟨set, hlive⟩ := hlocked.live p id hid
      exact hne ((hlocked.set id set hlive).unique hq hp)

theorem Counted.start : Counted (⟨none, 0, fun _ => .idle, fun _ => []⟩ : State Pid) where
  live := nofun
  set := nofun

/-- `semget` gives a process the set of the others, or a new one when nobody has any. -/
theorem Counted.semget (hlocked : Locked s.live s.locked) (h : Counted s) :
    Counted s.semget.2 := by
  obtain ⟨live, next, pc, handles⟩ := s
  cases live with
  | some live => exact h
  | none =>
      have hnil : ∀ p, handles p = [] := by
        intro p
        refine List.eq_nil_iff_forall_not_mem.mpr fun id hid => ?_
        obtain ⟨set, hset⟩ := h.live p id hid
        cases hset
      refine ⟨fun p id hid => ?_, ?_⟩
      · rw [show (State.semget ⟨none, next, pc, handles⟩).2.handles p = [] from hnil p] at hid
        cases hid
      · intro id set hlive
        cases hlive
        exact SetCounted.zero hnil fun p =>
          (apart_of_not_locked (congrFun hlocked.locked_eq_none p)).2.1

/-- What the process and the set have become. -/
theorem Counted.of_set (h : Counted s) (hlive : s.live = some (id, set)) {pc' : Pid → Pc}
    {handles' : Pid → List Nat} (hset : SetCounted set' pc' handles')
    (hhandles : ∀ p, ∀ id' ∈ handles' p, id' ∈ s.handles p ∨ id' = id) (next : Nat) :
    Counted ⟨some (id, set'), next, pc', handles'⟩ where
  live p id' hid := by
    rcases hhandles p id' hid with hold | rfl
    · obtain ⟨set'', heq⟩ := h.live p id' hold
      cases hlive.symm.trans heq
      exact ⟨set', rfl⟩
    · exact ⟨set', rfl⟩
  set id' set'' heq := by
    cases heq
    exact hset

variable [DecidableEq Pid]

namespace SetCounted

theorem setPc (h : SetCounted set pc handles) (pc' : Pc)
    (hunset : pc'.unset = true → set.total 1 = 0)
    (hready : pc'.ready = true → set.total 1 = BIGCOUNT)
    (hremoving : ∀ id, pc' = .removing id → ∀ q, handles q = []) (p : Pid) :
    SetCounted set (Function.update pc p pc') handles where
  owed := h.owed
  nonneg := h.nonneg
  total := h.total
  unset q hq := by
    rcases eq_or_ne q p with rfl | hne
    · rw [Function.update_self] at hq
      exact hunset hq
    · rw [Function.update_of_ne hne] at hq
      exact h.unset q hq
  ready q hq := by
    rcases eq_or_ne q p with rfl | hne
    · rw [Function.update_self] at hq
      exact hready hq
    · rw [Function.update_of_ne hne] at hq
      exact h.ready q hq
  removing q id hq := by
    rcases eq_or_ne q p with rfl | hne
    · rw [Function.update_self] at hq
      exact hremoving id hq
    · rw [Function.update_of_ne hne] at hq
      exact h.removing q id hq

/-- The process goes on to a point outside these. -/
theorem setPcApart (h : SetCounted set pc handles) (pc' : Pc) (hunset : pc'.unset = false)
    (hready : pc'.ready = false) (hremoving : ∀ id, pc' ≠ .removing id) (p : Pid) :
    SetCounted set (Function.update pc p pc') handles := by
  refine h.setPc pc' (fun hp => ?_) (fun hp => ?_) (fun id hp => absurd hp (hremoving id)) p
  · cases hunset.symm.trans hp
  · cases hready.symm.trans hp

theorem add_of_ne (h : SetCounted set pc handles) {b : Sembuf} (hne : 1 ≠ b.num) (p : Pid) :
    SetCounted (set.add p b) pc handles :=
  h.congr (SemSet.semval_add_of_ne hne) fun q => SemSet.semadj_add_of_ne_num hne q

/-- The process takes one from the counter for a handle. -/
theorem take (h : SetCounted set pc handles) (hpos : 1 ≤ set.semval 1)
    (hremoving : ∀ p id, pc p ≠ .removing id) (p : Pid) (id : Nat) :
    SetCounted (set.add p ⟨1, -1, true⟩) pc (Function.update handles p (id :: handles p)) := by
  have htotal : (set.add p ⟨1, -1, true⟩).total 1 = set.total 1 := SemSet.total_add rfl 1
  refine ⟨fun q => ?_, ?_, htotal ▸ h.total, htotal ▸ h.unset, htotal ▸ h.ready,
    fun q id' hq => absurd hq (hremoving q id')⟩
  · rcases eq_or_ne q p with rfl | hne
    · rw [SemSet.semadj_add_self (b := ⟨1, -1, true⟩) rfl, h.owed q, Function.update_self,
        List.length_cons]
      dsimp only
      omega
    · rw [SemSet.semadj_add_of_ne hne, h.owed q, Function.update_of_ne hne]
  · rw [SemSet.semval_add_self (b := ⟨1, -1, true⟩)]
    dsimp only
    omega

/-- The process gives one back to the counter with a handle. -/
theorem giveBack (h : SetCounted set pc handles) (hid : id ∈ handles p)
    (hremoving : ∀ p id, pc p ≠ .removing id) :
    SetCounted (set.add p ⟨1, 1, true⟩) pc
      (Function.update handles p ((handles p).erase id)) := by
  have htotal : (set.add p ⟨1, 1, true⟩).total 1 = set.total 1 := SemSet.total_add rfl 1
  refine ⟨fun q => ?_, ?_, htotal ▸ h.total, htotal ▸ h.unset, htotal ▸ h.ready,
    fun q id' hq => absurd hq (hremoving q id')⟩
  · rcases eq_or_ne q p with rfl | hne
    · have hlength := List.length_pos_of_mem hid
      rw [SemSet.semadj_add_self (b := ⟨1, 1, true⟩) rfl, h.owed q, Function.update_self,
        List.length_erase_of_mem hid]
      dsimp only
      omega
    · rw [SemSet.semadj_add_of_ne hne, h.owed q, Function.update_of_ne hne]
  · have hnonneg := h.nonneg
    rw [SemSet.semval_add_self (b := ⟨1, 1, true⟩)]
    dsimp only
    omega

theorem exit (h : SetCounted set pc handles) (p : Pid) :
    SetCounted (set.exit p) pc (Function.update handles p []) := by
  obtain ⟨hnonneg, hle⟩ := h.length_le p
  have htotal := SemSet.total_exit hnonneg hle
  refine ⟨fun q => ?_, ?_, htotal ▸ h.total, htotal ▸ h.unset, htotal ▸ h.ready, ?_⟩
  · rcases eq_or_ne q p with rfl | hne
    · rw [SemSet.semadj_exit_self, Function.update_self]
      rfl
    · rw [SemSet.semadj_exit_of_ne hne, h.owed q, Function.update_of_ne hne]
  · rw [SemSet.semval_exit hnonneg hle]
    exact hnonneg
  · intro r id hr q
    rcases eq_or_ne q p with rfl | hne
    · exact Function.update_self ..
    · rw [Function.update_of_ne hne]
      exact h.removing r id hr q

/-- The first process initialises the counter. -/
theorem reset (h : SetCounted set pc handles) (hzero : set.total 1 = 0)
    (hunset : ∀ q, q ≠ p → (pc q).unset = false) (id : Nat) :
    SetCounted (set.setval 1 BIGCOUNT) (Function.update pc p (.ending id)) handles where
  owed q := by
    have hnonneg := h.nonneg
    rw [SemSet.semadj_setval_self, h.handles_eq_nil (by omega)]
    rfl
  nonneg := by
    rw [SemSet.semval_setval_self]
    decide
  total := .inr SemSet.total_setval_self
  unset q hq := by
    rcases eq_or_ne q p with rfl | hne
    · rw [Function.update_self] at hq
      cases hq
    · rw [Function.update_of_ne hne] at hq
      cases (hunset q hne).symm.trans hq
  ready _ _ := SemSet.total_setval_self
  removing q id hq := by
    rcases eq_or_ne q p with rfl | hne
    · rw [Function.update_self] at hq
      cases hq
    · rw [Function.update_of_ne hne] at hq
      exact h.removing q id hq

end SetCounted

theorem Counted.setPc (h : Counted s) (pc' : Pc) (hunset : pc'.unset = false)
    (hready : pc'.ready = false) (hremoving : ∀ id, pc' ≠ .removing id) (p : Pid) :
    Counted (s.setPc p pc') where
  live := h.live
  set id set hlive := (h.set id set hlive).setPcApart pc' hunset hready hremoving p

theorem counted_step {event : Event Pid} (hlocked : Locked s.live s.locked) (h : Counted s)
    (hcareful : s.Careful event) (hstep : State.Step s event s') : Counted s' := by
  have hp : ∀ {p id}, (s.pc p).locked = some id → s.locked p ≠ none := by
    intro p id hid
    rw [State.locked, hid]
    exact Option.some_ne_none id
  -- nobody comes to have a handle of another set
  have hsame : ∀ {id : Nat} p, ∀ id' ∈ s.handles p, id' ∈ s.handles p ∨ id' = id := by
    intro id p id' hid
    exact .inl hid
  have hcons : ∀ {p : Pid} {id : Nat} (q : Pid),
      ∀ id' ∈ Function.update s.handles p (id :: s.handles p) q,
        id' ∈ s.handles q ∨ id' = id := by
    intro p id q id' hid
    rcases eq_or_ne q p with rfl | hne
    · rw [Function.update_self] at hid
      exact (List.mem_cons.mp hid).symm
    · rw [Function.update_of_ne hne] at hid
      exact .inl hid
  cases hstep with
  | create hpc => exact (h.semget hlocked).setPc (.locking ..) rfl rfl (by rintro _ ⟨⟩) _
  | again hpc hgone => exact (h.semget hlocked).setPc (.locking ..) rfl rfl (by rintro _ ⟨⟩) _
  | sleep hpc hlive hop => exact h.setPc (.locking ..) rfl rfl (by rintro _ ⟨⟩) _
  | @lock p id initval asleep set set' hpc hlive hop =>
      obtain ⟨-, rfl⟩ := semop_lock hop
      have hset := (h.set id set hlive).add_of_ne (b := ⟨2, 1, true⟩) (by decide) p
      exact h.of_set hlive
        (hset.setPcApart (.counting id initval) rfl rfl (by rintro _ ⟨⟩) p) hsame _
  | @getval p id initval set hpc hlive =>
      have hset := h.set id set hlive
      have htotal := hset.total_eq
      have hnonneg := hset.nonneg
      have hholders : ((∑ p, (s.handles p).length : Nat) : Int) < BIGCOUNT := hcareful
      refine ⟨h.live, fun id' set' hlive' => ?_⟩
      cases hlive.symm.trans hlive'
      refine hset.setPc _ (fun hunset => ?_) (fun hready => ?_) (fun id'' hremoving => ?_) p
      · split at hunset
        · exact hset.total.resolve_right (by omega)
        · cases hunset
      · split at hready
        · cases hready
        · exact hset.total.resolve_left (by omega)
      · split at hremoving <;> cases hremoving
  | @setval p id initval set hpc hlive hrange =>
      have hset := h.set id set hlive
      have hne : 1 ≠ 0 := by decide
      have htotal : set.total 1 = 0 := hset.unset p (by rw [hpc]; rfl)
      have hset' : SetCounted (set.setval 0 initval) s.pc s.handles :=
        hset.congr (SemSet.semval_setval_of_ne hne) fun q => SemSet.semadj_setval_of_ne hne q
      refine h.of_set hlive (hset'.setPc (.resetting id) (fun _ => ?_) (by rintro ⟨⟩)
        (by rintro _ ⟨⟩) p) hsame _
      exact (SemSet.total_setval_of_ne hne).trans htotal
  | @resetval p id set hpc hlive =>
      have hset := h.set id set hlive
      have htotal : set.total 1 = 0 := hset.unset p (by rw [hpc]; rfl)
      have hlock : s.locked p ≠ none := hp (show (s.pc p).locked = some id by rw [hpc]; rfl)
      have hothers : ∀ q, q ≠ p → (s.pc q).unset = false := fun q hne =>
        (apart_of_ne hlocked hlock hne).1
      exact h.of_set hlive (hset.reset htotal hothers id) hsame _
  | @endcreate p id set set' hpc hlive hop =>
      obtain ⟨hpos, rfl⟩ := semop_endcreate hop
      have hlock : s.locked p ≠ none := hp (show (s.pc p).locked = some id by rw [hpc]; rfl)
      have hremoving : ∀ q id', Function.update s.pc p .idle q ≠ .removing id' := by
        intro q id' hq
        rcases eq_or_ne q p with rfl | hne
        · rw [Function.update_self] at hq
          cases hq
        · rw [Function.update_of_ne hne] at hq
          exact (apart_of_ne hlocked hlock hne).2.2 id' hq
      have hset := ((h.set id set hlive).setPcApart .idle rfl rfl (by rintro _ ⟨⟩) p).take hpos
        hremoving p id
      exact h.of_set hlive (hset.add_of_ne (b := ⟨2, -1, true⟩) (by decide) p) hcons _
  | «open» hpc hlive => exact h.setPc (.opening _) rfl rfl (by rintro _ ⟨⟩) _
  | @opened p id set set' hpc hlive hop =>
      obtain ⟨hpos, rfl⟩ := semop_open hop
      have hset := (h.set id set hlive).take hpos hcareful p id
      exact h.of_set hlive (hset.setPcApart .idle rfl rfl (by rintro _ ⟨⟩) p) hcons _
  | @op p id value set set' hpc hid hlive hvalue hop =>
      obtain ⟨-, -, rfl⟩ := semop_op hvalue hop
      exact h.of_set hlive ((h.set id set hlive).add_of_ne (show 1 ≠ 0 by decide) p) hsame _
  | @close p id set set' hpc hid hlive hop =>
      obtain ⟨hzero, rfl⟩ := semop_close hop
      have hset := h.set id set hlive
      have htotal := hset.total_of_mem hid
      have hremoving : ∀ q id', s.pc q ≠ .removing id' := fun q =>
        (apart_of_not_locked ((hlocked.set id set hlive).locked_eq_none hzero q)).2.2
      have hset' := (hset.add_of_ne (b := ⟨2, 1, true⟩) (by decide) p).giveBack hid hremoving
      have htotal' : ((set.add p ⟨2, 1, true⟩).add p ⟨1, 1, true⟩).total 1 = set.total 1 :=
        (SemSet.total_add rfl 1).trans (SemSet.total_add rfl 1)
      refine h.of_set hlive (hset'.setPc (.reading id) (by rintro ⟨⟩) (fun _ => ?_)
        (by rintro _ ⟨⟩) p) ?_ _
      · exact htotal'.trans htotal
      · intro q id' hq
        rcases eq_or_ne q p with rfl | hne
        · rw [Function.update_self] at hq
          exact .inl (List.mem_of_mem_erase hq)
        · rw [Function.update_of_ne hne] at hq
          exact .inl hq
  | @getclose p id set hpc hlive hle =>
      have hset := h.set id set hlive
      have htotal : set.total 1 = BIGCOUNT := hset.ready p (by rw [hpc]; rfl)
      refine ⟨h.live, fun id' set' hlive' => ?_⟩
      cases hlive.symm.trans hlive'
      refine hset.setPc _ (fun hunset => ?_) (fun _ => htotal) (fun id'' hremoving q => ?_) p
      · split at hunset <;> cases hunset
      · split at hremoving
        · rename_i hbig
          exact hset.handles_eq_nil (by omega) q
        · cases hremoving
  | @remove p id set hpc hlive =>
      have hnil := (h.set id set hlive).removing p id hpc
      refine ⟨fun q id' hid => ?_, by rintro _ _ ⟨⟩⟩
      have hid' : id' ∈ s.handles q := hid
      rw [hnil q] at hid'
      cases hid'
  | @unlock p id set set' hpc hlive hop =>
      obtain rfl := semop_unlock hop
      have hset := (h.set id set hlive).add_of_ne (b := ⟨2, -1, true⟩) (by decide) p
      exact h.of_set hlive (hset.setPcApart .idle rfl rfl (by rintro _ ⟨⟩) p) hsame _
  | @exit p hpc =>
      have hsub : ∀ q, ∀ id ∈ Function.update s.handles p [] q, id ∈ s.handles q := by
        intro q id hid
        rcases eq_or_ne q p with rfl | hne
        · rw [Function.update_self] at hid
          cases hid
        · rwa [Function.update_of_ne hne] at hid
      obtain ⟨live, next, pc, handles⟩ := s
      cases live with
      | none =>
          refine ⟨fun q id hid => ?_, by rintro _ _ ⟨⟩⟩
          obtain ⟨set, hset⟩ := h.live q id (hsub q id hid)
          cases hset
      | some live =>
          obtain ⟨id, set⟩ := live
          have hset := ((h.set id set rfl).setPcApart .gone rfl rfl (by rintro _ ⟨⟩) p).exit p
          exact h.of_set rfl hset (fun q id' hid => .inl (hsub q id' hid)) _

theorem counted_reachable (hs : ((system Pid).restrict State.Careful).Reachable s) :
    Locked s.live s.locked ∧ Counted s := by
  refine System.Reachable.invariant (I := fun s => Locked s.live s.locked ∧ Counted s) ?_ ?_ hs
  · rintro s rfl
    exact ⟨Locked.start, Counted.start⟩
  · rintro s event s' ⟨hlocked, hcounted⟩ ⟨hstep, hcareful⟩
    exact ⟨locked_step hlocked hstep, counted_step hlocked hcounted hcareful hstep⟩

/-- Whoever has been given a semaphore and has not closed it has the semaphore that is there, and
its counter is short of `BIGCOUNT` by the number of handles. -/
theorem handle_has_set (hs : ((system Pid).restrict State.Careful).Reachable s)
    (hid : id ∈ s.handles p) :
    ∃ set, s.live = some (id, set) ∧ set.semval 1 = BIGCOUNT - s.holders := by
  have hcounted := (counted_reachable hs).2
  obtain ⟨set, hlive⟩ := hcounted.live p id hid
  have hset := hcounted.set id set hlive
  have htotal := hset.total_of_mem hid
  rw [hset.total_eq] at htotal
  refine ⟨set, hlive, ?_⟩
  rw [State.holders]
  omega

/-- One of two processes makes a semaphore with the value 1. -/
def createTrace : List (Event (Fin 2)) :=
  [.create 0 1] ++ [.lock 0] ++ [.getval 0] ++ [.setval 0 1] ++ [.resetval 0] ++ [.endcreate 0]

def createdSet : SemSet (Fin 2) :=
  (((((SemSet.zero.add 0 ⟨2, 1, true⟩).setval 0 1).setval 1 BIGCOUNT).add 0 ⟨1, -1, true⟩).add 0
    ⟨2, -1, true⟩)

def created : State (Fin 2) :=
  let start : State (Fin 2) := ⟨none, 0, fun _ => .idle, fun _ => []⟩
  let s := ((start.semget.2.setPc 0 (.locking 0 1 false)).setPc 0 (.counting 0 1)).setPc 0
    (.setting 0 1)
  let s := ((s.setPc 0 (.resetting 0)).setPc 0 (.ending 0)).setPc 0 .idle
  (s.setLive 0 createdSet).setHandles 0 [0]

theorem created_run (allowed : State (Fin 2) → Event (Fin 2) → Prop)
    (hallowed : ∀ s, ∀ event ∈ createTrace, s.holders = 0 → allowed s event) :
    ((system (Fin 2)).restrict allowed).Run ⟨none, 0, fun _ => .idle, fun _ => []⟩ createTrace
      created := by
  have hrun := (((((System.Run.single (M := (system (Fin 2)).restrict allowed)
    ⟨@State.Step.create _ _ ⟨none, 0, fun _ => .idle, fun _ => []⟩ 0 1 rfl,
      hallowed _ _ (by decide) (by rfl)⟩).snoc
    ⟨@State.Step.lock _ _ _ 0 0 1 false _ _ rfl rfl rfl, hallowed _ _ (by decide) (by rfl)⟩).snoc
    ⟨@State.Step.getval _ _ _ 0 0 1 _ rfl rfl, hallowed _ _ (by decide) (by rfl)⟩).snoc
    ⟨@State.Step.setval _ _ _ 0 0 1 _ rfl rfl (by decide), hallowed _ _ (by decide) (by rfl)⟩).snoc
    ⟨@State.Step.resetval _ _ _ 0 0 _ rfl rfl, hallowed _ _ (by decide) (by rfl)⟩).snoc
    ⟨@State.Step.endcreate _ _ _ 0 0 _ _ rfl rfl rfl, hallowed _ _ (by decide) (by rfl)⟩
  exact hrun

theorem created_reachable : ((system (Fin 2)).restrict State.Careful).Reachable created := by
  refine ⟨_, createTrace, rfl, created_run _ fun s event hevent hholders => ?_⟩
  rcases event with _ | _ | _ | _ | _ | _ | _ | _ | _ | _ | _ | _ | _ | _ | _ | _
  case getval =>
      change (s.holders : Int) < BIGCOUNT
      rw [hholders]
      decide
  case opened => exact absurd hevent (by decide +revert)
  all_goals exact trivial

theorem handle_has_set_created :
    ∃ set, created.live = some (0, set) ∧ set.semval 1 = BIGCOUNT - created.holders :=
  handle_has_set (p := 0) created_reachable List.mem_cons_self

/-- A `sem_open` that comes between the look of `sem_close` at the counter and the removal is left
with a set that is gone. -/
theorem open_race : ∃ s : State (Fin 2),
    (system (Fin 2)).Reachable s ∧ 0 ∈ s.handles 1 ∧ s.live = none := by
  have hcreated := System.restrict_run (created_run (fun _ _ => True) fun _ _ _ _ => trivial)
  refine ⟨_, ⟨_, _, rfl, ((((hcreated.snoc
    (@State.Step.close _ _ _ 0 0 _ _ rfl List.mem_cons_self rfl rfl)).snoc
    (@State.Step.open _ _ _ 1 0 _ rfl rfl)).snoc
    (@State.Step.getclose _ _ _ 0 0 _ rfl rfl (by decide))).snoc
    (@State.Step.opened _ _ _ 1 0 _ _ rfl rfl rfl)).snoc
    (@State.Step.remove _ _ _ 0 0 _ rfl rfl)⟩, List.mem_cons_self, rfl⟩

/-- A process initialises or removes the semaphore. -/
def Event.renews : Event Pid → Prop
  | .setval .. | .resetval _ | .remove _ => True
  | _ => False

/-- The semaphore is initialised and removed only while nobody has a handle. -/
theorem renewed_without_handles (hs : ((system Pid).restrict State.Careful).Reachable s)
    {event : Event Pid} (hstep : State.Step s event s') (hrenews : event.renews) (p : Pid) :
    s.handles p = [] := by
  have hcounted := (counted_reachable hs).2
  cases hstep with
  | @setval q id initval set hpc hlive hrange =>
      have hset := hcounted.set id set hlive
      have htotal := hset.unset q (by rw [hpc]; rfl)
      have hnonneg := hset.nonneg
      exact hset.handles_eq_nil (by omega) p
  | @resetval q id set hpc hlive =>
      have hset := hcounted.set id set hlive
      have htotal := hset.unset q (by rw [hpc]; rfl)
      have hnonneg := hset.nonneg
      exact hset.handles_eq_nil (by omega) p
  | @remove q id set hpc hlive => exact (hcounted.set id set hlive).removing q id hpc p
  | create | again | sleep | lock | getval | endcreate | «open» | opened | op | close | getclose
  | unlock | exit => exact hrenews.elim

theorem renewed_without_handles_removed : ∃ s s' : State (Fin 2),
    ((system (Fin 2)).restrict State.Careful).Reachable s ∧ State.Step s (.remove 0) s' ∧
      s.handles 1 = [] := by
  have hs := (created_reachable.step
    ⟨@State.Step.close _ _ created 0 0 _ _ rfl List.mem_cons_self rfl rfl, trivial⟩).step
    ⟨@State.Step.getclose _ _ _ 0 0 _ rfl rfl (by decide), trivial⟩
  refine ⟨_, _, hs, @State.Step.remove _ _ _ 0 0 _ rfl rfl, ?_⟩
  exact renewed_without_handles hs (@State.Step.remove _ _ _ 0 0 _ rfl rfl) trivial 1

end ApueCourse.Semaph
