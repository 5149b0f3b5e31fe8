import ApueCourse.Semaph.Counting

/-! The semaphore itself, the first member of the set: what is left of its initial value is what
the processes have not taken, also when they end without giving it back. -/

namespace ApueCourse.Semaph

open Process Transition

variable {Pid : Type u}

/-- The argument of the last initialisation, after one more event. -/
def Event.initval (v : Int) : Event Pid → Int
  | .setval _ initval => initval
  | _ => v

/-- The set has been initialised, up to its counter perhaps. -/
def Initialised [Fintype Pid] (set : SemSet Pid) (pc : Pid → Pc) : Prop :=
  set.total 1 = BIGCOUNT ∨ ∃ p id, pc p = .resetting id

/-- What is owed of the semaphore, and its value. -/
structure SetValued [Fintype Pid] (set : SemSet Pid) : Prop where
  owed : ∀ p, 0 ≤ set.semadj p 0
  nonneg : 0 ≤ set.semval 0
  le : set.total 0 ≤ SEMVMX

/-- The value that the semaphore had at first is `v`, and each process has taken `f` of it. -/
structure Valued [Fintype Pid] (live : Option (Nat × SemSet Pid)) (pc : Pid → Pc) (v : Int)
    (f : Pid → Int) : Prop where
  set : ∀ id set, live = some (id, set) → SetValued set
  value : ∀ id set, live = some (id, set) → Initialised set pc →
    set.total 0 = v ∧ ∀ p, set.semadj p 0 = f p

section

variable [Fintype Pid] {s : State Pid} {id : Nat} {set set' : SemSet Pid}
  {live : Option (Nat × SemSet Pid)} {pc pc' : Pid → Pc} {v : Int} {f : Pid → Int}

theorem SetValued.congr (h : SetValued set) (hsemval : set'.semval 0 = set.semval 0)
    (hsemadj : ∀ p, set'.semadj p 0 = set.semadj p 0) : SetValued set' where
  owed p := (h.owed p).trans_eq (hsemadj p).symm
  nonneg := hsemval ▸ h.nonneg
  le := (SemSet.total_congr hsemval hsemadj) ▸ h.le

theorem SetValued.range_exit (h : SetValued set) (p : Pid) :
    0 ≤ set.semval 0 + set.semadj p 0 ∧ set.semval 0 + set.semadj p 0 ≤ SEMVMX :=
  ⟨Int.add_nonneg h.nonneg (h.owed p), (SemSet.semval_add_semadj_le h.owed p).trans h.le⟩

namespace Valued

theorem start : Valued (none : Option (Nat × SemSet Pid)) pc v f where
  set := nofun
  value := nofun

/-- The set has the semaphore as it was, and is initialised only if it was before. -/
theorem of_set (h : Valued (some (id, set)) pc v f) (hsemval : set'.semval 0 = set.semval 0)
    (hsemadj : ∀ p, set'.semadj p 0 = set.semadj p 0)
    (hinit : Initialised set' pc' → Initialised set pc) : Valued (some (id, set')) pc' v f where
  set id' set'' heq := by
    cases heq
    exact (h.set id set rfl).congr hsemval hsemadj
  value id' set'' heq hinit' := by
    cases heq
    obtain ⟨htotal, hf⟩ := h.value id set rfl (hinit hinit')
    exact ⟨(SemSet.total_congr hsemval hsemadj).trans htotal,
      fun p => (hsemadj p).trans (hf p)⟩

theorem setval {initval : Int} (hnonneg : 0 ≤ initval) (hle : initval ≤ SEMVMX) (id : Nat)
    (set : SemSet Pid) : Valued (some (id, set.setval 0 initval)) pc initval fun _ => 0 where
  set id' set'' heq := by
    cases heq
    refine ⟨fun p => (SemSet.semadj_setval_self p).symm.le, ?_, ?_⟩
    · rw [SemSet.semval_setval_self]
      exact hnonneg
    · rw [SemSet.total_setval_self]
      exact hle
  value id' set'' heq _ := by
    cases heq
    exact ⟨SemSet.total_setval_self, SemSet.semadj_setval_self⟩

/-- A new set is not initialised. -/
theorem semget (hlocked : Locked s.live s.locked) (h : Valued s.live s.pc v f) :
    Valued s.semget.2.live s.semget.2.pc v f := by
  obtain ⟨live, next, pc, handles⟩ := s
  cases live with
  | some live => exact h
  | none =>
      refine ⟨fun id set hlive => ?_, fun id set hlive hinit => ?_⟩
      · cases hlive
        exact ⟨fun _ => Int.le_refl 0, Int.le_refl 0, by rw [SemSet.total_zero]; decide⟩
      · cases hlive
        rcases hinit with hbig | ⟨p, id, hp⟩
        · rw [SemSet.total_zero] at hbig
          cases hbig
        · have hnone : (pc p).locked = none := congrFun hlocked.locked_eq_none p
          have hp' : pc p = .resetting id := hp
          rw [hp'] at hnone
          cases hnone

end Valued

end

variable [DecidableEq Pid]

/-- What each process has taken from the semaphore since the last initialisation and not given
back by its calls of `sem_op`, after one more event. -/
def Event.taken (f : Pid → Int) : Event Pid → Pid → Int
  | .setval .. => fun _ => 0
  | .op p _ value => Function.update f p (f p - value)
  | .exit p => Function.update f p 0
  | _ => f

/-- A process gives back no more than it has taken. -/
def State.Bracketed (s : State Pid) : Event Pid → Prop
  | .op p _ value => ∀ id set, s.live = some (id, set) → value ≤ set.semadj p 0
  | _ => True

variable [Fintype Pid] {s s' : State Pid} {p q : Pid} {id : Nat} {set set' : SemSet Pid}
  {live : Option (Nat × SemSet Pid)} {pc pc' : Pid → Pc} {v : Int} {f : Pid → Int}

theorem SetValued.exit (h : SetValued set) (p : Pid) : SetValued (set.exit p) := by
  obtain ⟨hnonneg, hle⟩ := h.range_exit p
  refine ⟨fun q => ?_, ?_, (SemSet.total_exit hnonneg hle) ▸ h.le⟩
  · rcases eq_or_ne q p with rfl | hne
    · rw [SemSet.semadj_exit_self]
    · rw [SemSet.semadj_exit_of_ne hne]
      exact h.owed q
  · rw [SemSet.semval_exit hnonneg hle]
    exact hnonneg

theorem SetValued.op (h : SetValued set) {value : Int} (hnonneg : 0 ≤ set.semval 0 + value)
    (hle : value ≤ set.semadj p 0) : SetValued (set.add p ⟨0, value, true⟩) where
  owed q := by
    rcases eq_or_ne q p with rfl | hne
    · rw [SemSet.semadj_add_self (b := ⟨0, value, true⟩) rfl]
      exact Int.sub_nonneg_of_le hle
    · rw [SemSet.semadj_add_of_ne hne]
      exact h.owed q
  nonneg := by
    rw [SemSet.semval_add_self (b := ⟨0, value, true⟩)]
    exact hnonneg
  le := by
    have htotal : (set.add p ⟨0, value, true⟩).total 0 = set.total 0 := SemSet.total_add rfl 0
    exact htotal ▸ h.le

/-- A process that goes on to another point than that behind the first `SETVAL`. -/
theorem Initialised.of_update {pc₀ : Pc} (hpc : ∀ id, pc₀ ≠ .resetting id)
    (h : Initialised set (Function.update pc p pc₀)) : Initialised set pc := by
  refine h.imp_right ?_
  rintro ⟨q, id, hq⟩
  rcases eq_or_ne q p with rfl | hne
  · rw [Function.update_self] at hq
    exact absurd hq (hpc id)
  · rw [Function.update_of_ne hne] at hq
    exact ⟨q, id, hq⟩

namespace Valued

theorem setPc (h : Valued live pc v f) (pc₀ : Pc) (hpc : ∀ id, pc₀ ≠ .resetting id) (p : Pid) :
    Valued live (Function.update pc p pc₀) v f where
  set := h.set
  value id set hlive hinit := h.value id set hlive (hinit.of_update hpc)

/-- An operation on another member. -/
theorem add (h : Valued (some (id, set)) pc v f) {b : Sembuf} (hne : 0 ≠ b.num)
    (hundo : b.undo = true) (p : Pid) : Valued (some (id, set.add p b)) pc v f := by
  refine h.of_set (SemSet.semval_add_of_ne hne) (fun q => SemSet.semadj_add_of_ne_num hne q) ?_
  exact Or.imp_left fun htotal => (SemSet.total_add hundo 1).symm.trans htotal

theorem op (h : Valued (some (id, set)) pc v f) {value : Int}
    (hnonneg : 0 ≤ set.semval 0 + value) (hle : value ≤ set.semadj p 0) :
    Valued (some (id, set.add p ⟨0, value, true⟩)) pc v (Function.update f p (f p - value)) where
  set id' set'' heq := by
    cases heq
    exact (h.set id set rfl).op hnonneg hle
  value id' set'' heq hinit := by
    cases heq
    have hone : (set.add p ⟨0, value, true⟩).total 1 = set.total 1 := SemSet.total_add rfl 1
    obtain ⟨htotal, hf⟩ := h.value id set rfl (hinit.imp_left hone.symm.trans)
    refine ⟨(SemSet.total_add rfl 0).trans htotal, fun q => ?_⟩
    rcases eq_or_ne q p with rfl | hne
    · rw [SemSet.semadj_add_self (b := ⟨0, value, true⟩) rfl, Function.update_self, hf q]
    · rw [SemSet.semadj_add_of_ne hne, Function.update_of_ne hne, hf q]

theorem exit {handles : Pid → List Nat} (h : Valued (some (id, set)) pc v f)
    (hcounted : SetCounted set pc handles) (p : Pid) :
    Valued (some (id, set.exit p)) (Function.update pc p .gone) v (Function.update f p 0) where
  set id' set'' heq := by
    cases heq
    exact (h.set id set rfl).exit p
  value id' set'' heq hinit := by
    cases heq
    have hone : (set.exit p).total 1 = set.total 1 :=
      SemSet.total_exit (hcounted.length_le p).1 (hcounted.length_le p).2
    have hinit' : Initialised (set.exit p) pc := hinit.of_update (by nofun)
    obtain ⟨htotal, hf⟩ := h.value id set rfl (hinit'.imp_left hone.symm.trans)
    have hrange := (h.set id set rfl).range_exit p
    refine ⟨(SemSet.total_exit hrange.1 hrange.2).trans htotal, fun q => ?_⟩
    rcases eq_or_ne q p with rfl | hne
    · rw [SemSet.semadj_exit_self, Function.update_self]
    · rw [SemSet.semadj_exit_of_ne hne, Function.update_of_ne hne, hf q]

end Valued

theorem valued_step {event : Event Pid} (hlocked : Locked s.live s.locked) (hcounted : Counted s)
    (h : Valued s.live s.pc v f) (hbracketed : s.Bracketed event)
    (hstep : State.Step s event s') :
    Valued s'.live s'.pc (event.initval v) (event.taken f) := by
  cases hstep with
  | create hpc => exact (h.semget hlocked).setPc (.locking ..) (by rintro _ ⟨⟩) _
  | again hpc hgone => exact (h.semget hlocked).setPc (.locking ..) (by rintro _ ⟨⟩) _
  | sleep hpc hlive hop => exact h.setPc (.locking ..) (by rintro _ ⟨⟩) _
  | @lock p id initval asleep set set' hpc hlive hop =>
      rw [hlive] at h
      obtain ⟨-, rfl⟩ := semop_lock hop
      exact (h.add (b := ⟨2, 1, true⟩) (by decide) rfl p).setPc (.counting ..) (by rintro _ ⟨⟩) p
  | @getval p id initval set hpc hlive =>
      refine h.setPc _ (fun id' hpc' => ?_) p
      split at hpc' <;> cases hpc'
  | @setval p id initval set hpc hlive hrange => exact Valued.setval hrange.1 hrange.2 id set
  | @resetval p id set hpc hlive =>
      rw [hlive] at h
      have hne : 0 ≠ 1 := by decide
      exact h.of_set (SemSet.semval_setval_of_ne hne) (SemSet.semadj_setval_of_ne hne)
        fun _ => .inr ⟨p, id, hpc⟩
  | @endcreate p id set set' hpc hlive hop =>
      rw [hlive] at h
      obtain ⟨-, rfl⟩ := semop_endcreate hop
      exact ((h.add (b := ⟨1, -1, true⟩) (by decide) rfl p).add (b := ⟨2, -1, true⟩) (by decide)
        rfl p).setPc .idle (by rintro _ ⟨⟩) p
  | «open» hpc hlive => exact h.setPc (.opening _) (by rintro _ ⟨⟩) _
  | @opened p id set set' hpc hlive hop =>
      rw [hlive] at h
      obtain ⟨-, rfl⟩ := semop_open hop
      exact (h.add (b := ⟨1, -1, true⟩) (by decide) rfl p).setPc .idle (by rintro _ ⟨⟩) p
  | @op p id value set set' hpc hid hlive hvalue hop =>
      have hle := hbracketed id set hlive
      rw [hlive] at h
      obtain ⟨hnonneg, -, rfl⟩ := semop_op hvalue hop
      exact h.op hnonneg hle
  | @close p id set set' hpc hid hlive hop =>
      rw [hlive] at h
      obtain ⟨-, rfl⟩ := semop_close hop
      exact ((h.add (b := ⟨2, 1, true⟩) (by decide) rfl p).add (b := ⟨1, 1, true⟩) (by decide)
        rfl p).setPc (.reading id) (by rintro _ ⟨⟩) p
  | @getclose p id set hpc hlive hle =>
      refine h.setPc _ (fun id' hpc' => ?_) p
      split at hpc' <;> cases hpc'
  | remove hpc hlive => exact Valued.start
  | @unlock p id set set' hpc hlive hop =>
      rw [hlive] at h
      obtain rfl := semop_unlock hop
      exact (h.add (b := ⟨2, -1, true⟩) (by decide) rfl p).setPc .idle (by rintro _ ⟨⟩) p
  | @exit p hpc =>
      obtain ⟨live, next, pc, handles⟩ := s
      cases live with
      | none => exact Valued.start
      | some live => exact h.exit (hcounted.set live.1 live.2 rfl) p

/-- The argument of the last initialisation in a run. -/
def initialValue (trace : List (Event Pid)) : Int := trace.foldl Event.initval 0

/-- What each process has taken since then and not given back. -/
def takenOf (trace : List (Event Pid)) : Pid → Int := trace.foldl Event.taken fun _ => 0

end ApueCourse.Semaph
