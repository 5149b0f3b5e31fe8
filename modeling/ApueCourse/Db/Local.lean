import ApueCourse.Db.Turns

/-! The system calls as one process sees them, in terms of what it knows from its locks. -/

namespace ApueCourse.Db

open Memory Function Program

def slotRange (i : Slot) : Range := ⟨.idx, i.off, 1⟩

theorem slotRange_has {i : Slot} {file : FileId} {byte : Nat} :
    (slotRange i).Has file byte ↔ file = .idx ∧ byte = i.off := by
  rw [Range.Has, slotRange]
  dsimp only
  constructor
  · rintro ⟨hfile, hle, h | hlt⟩
    · cases h
    · exact ⟨hfile, by omega⟩
  · rintro ⟨hfile, rfl⟩
    exact ⟨hfile, le_rfl, .inr (Nat.lt_succ_self _)⟩

theorem off_inj {i j : Slot} : j.off = i.off ↔ j = i := by
  rw [Slot.off, Slot.off, Fin.ext_iff, PTR_SZ]
  omega

theorem slotRange_has_off {i j : Slot} : (slotRange i).Has .idx j.off ↔ j = i := by
  rw [slotRange_has, off_inj]
  exact and_iff_right rfl

theorem chainLock_eq (key : List Byte) :
    chainLock ((_db_hash key : Int) * PTR_SZ + HASH_OFF) = slotRange (slotOf key) := by
  simp only [chainLock, slotRange, Slot.off, slotOf, HASH_OFF, PTR_SZ, Range.mk.injEq, true_and,
    and_true]
  omega

theorem slotOf_ne_free (key : List Byte) : slotOf key ≠ freeSlot :=
  fun h => absurd (congrArg Fin.val h) (Nat.succ_ne_zero _)

namespace View

def lockSlot (v : View) (i : Slot) (mode : LockMode) (head : Nat) (mem : Nat → Option Rec)
    (map : List Byte → Option (List Byte)) : View :=
  { v with
    lock := update v.lock i (some mode)
    head := update v.head i head
    mem := update v.mem i mem
    map := fun key => if slotOf key = i then map key else v.map key }

@[simp] theorem lockSlot_lock (v : View) (i : Slot) (mode : LockMode) (head : Nat)
    (mem : Nat → Option Rec) (map : List Byte → Option (List Byte)) :
    (v.lockSlot i mode head mem map).lock = update v.lock i (some mode) := rfl

@[simp] theorem lockSlot_head (v : View) (i : Slot) (mode : LockMode) (head : Nat)
    (mem : Nat → Option Rec) (map : List Byte → Option (List Byte)) :
    (v.lockSlot i mode head mem map).head = update v.head i head := rfl

@[simp] theorem lockSlot_mem (v : View) (i : Slot) (mode : LockMode) (head : Nat)
    (mem : Nat → Option Rec) (map : List Byte → Option (List Byte)) :
    (v.lockSlot i mode head mem map).mem = update v.mem i mem := rfl

def unlockSlot (v : View) (i : Slot) : View :=
  { v with
    lock := update v.lock i none
    head := update v.head i 0
    mem := update v.mem i fun _ => none
    map := fun key => if slotOf key = i then none else v.map key }

/-- The view behind a record that has gone from a list to the hand. -/
def take (v : View) (i : Slot) (o : Nat) (r : Rec) : View :=
  { v with
    mem := update v.mem i (update (v.mem i) o none)
    hand := update v.hand o (some r) }

/-- The view behind a record that has gone from the hand to a list. -/
def give (v : View) (i : Slot) (o : Nat) (r : Rec) : View :=
  { v with
    mem := update v.mem i (update (v.mem i) o (some r))
    hand := update v.hand o none }

/-- A record goes from a list to the hand of the process, or from there to a list. -/
inductive Relabel (v : View) : View → Prop
  | refl : Relabel v v
  | take {o : Nat} {i : Slot} {r : Rec} (hmem : v.mem i o = some r)
      (hlock : v.lock i = some .write) :
      Relabel v (v.take i o r)
  | give {o : Nat} {i : Slot} {r : Rec} (hhand : v.hand o = some r)
      (hlock : v.lock i = some .write)
      (hkey : if i = freeSlot then Blank r.key else slotOf r.key = i) :
      Relabel v (v.give i o r)

/-- The record is on a list that the process has for writing, or in its hand. -/
inductive Writes (v : View) (o : Nat) (r : Rec) : Prop
  | list {i : Slot} (hlock : v.lock i = some .write) (hmem : v.mem i o = some r)
  | hand (hhand : v.hand o = some r)

/-- The record where it is, with new contents. -/
inductive SetRec (v : View) (o : Nat) (r r' : Rec) : View → Prop
  | list {i : Slot} (hlock : v.lock i = some .write) (hmem : v.mem i o = some r) :
      SetRec v o r r' { v with mem := update v.mem i (update (v.mem i) o (some r')) }
  | hand (hhand : v.hand o = some r) :
      SetRec v o r r' { v with hand := update v.hand o (some r') }

end View

namespace Ghost

variable {Pid : Type} [DecidableEq Pid] {s : Ghost Pid} {p : Pid} {v u : View}

theorem view_head {i : Slot} (hlock : s.holds p i ≠ none) : (s.view p).head i = s.head i :=
  if_neg hlock

theorem view_mem {i : Slot} (hlock : s.holds p i ≠ none) :
    (s.view p).mem i = part s.recs s.own (.list i) :=
  if_neg hlock

theorem view_map {key : List Byte} (hlock : s.holds p (slotOf key) ≠ none) :
    (s.view p).map key = s.map key :=
  if_neg hlock

theorem view_mem_eq_some {i : Slot} {o : Nat} {r : Rec} (hlock : s.holds p i ≠ none) :
    (s.view p).mem i o = some r ↔ s.own o = .list i ∧ s.recs o = some r := by
  rw [view_mem hlock, part_eq_some]

theorem view_hand_eq_some {o : Nat} {r : Rec} :
    (s.view p).hand o = some r ↔ s.own o = .hand p ∧ s.recs o = some r :=
  part_eq_some

/-- Two states that differ in some of the process's records only. -/
theorem view_parts {t : Ghost Pid} {mem : Slot → Nat → Option Rec} {hand : Nat → Option Rec}
    (hlocks : t.world.locks = s.world.locks) (hhead : t.head = s.head)
    (hspare : t.spare p = s.spare p) (hmap : t.map = s.map)
    (hlength : ∀ file, (t.world.content file).length = (s.world.content file).length)
    (hmem : ∀ i, s.holds p i ≠ none → part t.recs t.own (.list i) = mem i)
    (hnone : ∀ i, s.holds p i = none → mem i = fun _ => none)
    (hhand : part t.recs t.own (.hand p) = hand) :
    t.view p = { s.view p with mem := mem, hand := hand } := by
  have hholds : t.holds p = s.holds p := by
    funext i
    rw [holds, holds, hlocks]
  rw [view, view, hholds, hlocks, hhead, hspare, hmap, hlength, hlength]
  congr 1
  funext i
  by_cases hi : s.holds p i = none
  · exact (if_pos hi).trans (hnone i hi).symm
  · exact (if_neg hi).trans (hmem i hi)

theorem exists_relabel (hview : s.view p = v) (hlabel : v.Relabel u) :
    ∃ t, Relabel p s t ∧ t.view p = u ∧ t.world = s.world ∧ t.map = s.map := by
  subst hview
  cases hlabel with
  | refl => exact ⟨s, .refl, rfl, rfl, rfl⟩
  | @take o i r hmem hlock =>
      have hlock' : s.holds p i = some .write := hlock
      have hne : s.holds p i ≠ none := hlock' ▸ Option.some_ne_none _
      obtain ⟨hown, hrec⟩ := (view_mem_eq_some hne).mp hmem
      refine ⟨_, .take hown hlock', ?_, rfl, rfl⟩
      refine @view_parts _ _ s p { s with own := update s.own o (.hand p) } _ _
        rfl rfl rfl rfl (fun _ => rfl) ?_ ?_ ?_
      · intro j hj
        rcases eq_or_ne j i with rfl | hji
        · rw [update_self, view_mem hj]
          exact part_take nofun
        · rw [update_of_ne hji, view_mem hj]
          apply part_update_own
          · rw [hown]
            exact fun h => hji (Owner.list.inj h).symm
          · exact nofun
      · intro j hj
        rcases eq_or_ne j i with rfl | hji
        · exact absurd hj hne
        · rw [update_of_ne hji]
          exact if_pos hj
      · rw [part_give, hrec]
        rfl
  | @give o i r hhand hlock hkey =>
      have hlock' : s.holds p i = some .write := hlock
      have hne : s.holds p i ≠ none := hlock' ▸ Option.some_ne_none _
      obtain ⟨hown, hrec⟩ := view_hand_eq_some.mp hhand
      refine ⟨_, .give hown hlock' hrec hkey, ?_, rfl, rfl⟩
      refine @view_parts _ _ s p { s with own := update s.own o (.list i) } _ _
        rfl rfl rfl rfl (fun _ => rfl) ?_ ?_ ?_
      · intro j hj
        rcases eq_or_ne j i with rfl | hji
        · rw [update_self, view_mem hj, part_give, hrec]
        · rw [update_of_ne hji, view_mem hj]
          apply part_update_own
          · rw [hown]
            exact nofun
          · exact fun h => hji (Owner.list.inj h).symm
      · intro j hj
        rcases eq_or_ne j i with rfl | hji
        · exact absurd hj hne
        · rw [update_of_ne hji]
          exact if_pos hj
      · exact part_take nofun

/-- A record of the process is given new contents. -/
theorem view_setRec {t : Ghost Pid} {o : Nat} {r r' : Rec} (hset : (s.view p).SetRec o r r' v)
    (hlocks : t.world.locks = s.world.locks) (hhead : t.head = s.head)
    (hspare : t.spare p = s.spare p) (hmap : t.map = s.map)
    (hlength : ∀ file, (t.world.content file).length = (s.world.content file).length)
    (hrecs : t.recs = update s.recs o (some r')) (hown : t.own = s.own) : t.view p = v := by
  cases hset with
  | @list i hlock hmem =>
      have hlock' : s.holds p i = some .write := hlock
      have hne : s.holds p i ≠ none := hlock' ▸ Option.some_ne_none _
      obtain ⟨howner, hrec⟩ := (view_mem_eq_some hne).mp hmem
      apply view_parts hlocks hhead hspare hmap hlength
      · intro j hj
        rw [hrecs, hown]
        rcases eq_or_ne j i with rfl | hji
        · rw [update_self, view_mem hj]
          exact part_update_rec_self howner _
        · rw [update_of_ne hji, view_mem hj]
          apply part_update_rec
          rw [howner]
          exact fun h => hji (Owner.list.inj h).symm
      · intro j hj
        rcases eq_or_ne j i with rfl | hji
        · exact absurd hj hne
        · rw [update_of_ne hji]
          exact if_pos hj
      · rw [hrecs, hown]
        apply part_update_rec
        rw [howner]
        exact nofun
  | hand hhand =>
      obtain ⟨howner, hrec⟩ := view_hand_eq_some.mp hhand
      apply view_parts hlocks hhead hspare hmap hlength
      · intro j hj
        rw [hrecs, hown, view_mem hj]
        apply part_update_rec
        rw [howner]
        exact nofun
      · intro j hj
        exact if_pos hj
      · rw [hrecs, hown]
        exact part_update_rec_self howner _

theorem setRec_own {o : Nat} {r r' : Rec} (hset : (s.view p).SetRec o r r' v) :
    s.recs o = some r ∧ s.Mine p (s.own o) := by
  cases hset with
  | @list i hlock hmem =>
      have hlock' : s.holds p i = some .write := hlock
      have hne : s.holds p i ≠ none := hlock' ▸ Option.some_ne_none _
      obtain ⟨howner, hrec⟩ := (view_mem_eq_some hne).mp hmem
      exact ⟨hrec, howner ▸ mine_list hlock'⟩
  | hand hhand =>
      obtain ⟨howner, hrec⟩ := view_hand_eq_some.mp hhand
      exact ⟨hrec, .inl howner⟩

theorem view_setHead {t : Ghost Pid} {i : Slot} {n : Nat} (hlock : s.holds p i ≠ none)
    (hlocks : t.world.locks = s.world.locks) (hhead : t.head = update s.head i n)
    (hspare : t.spare p = s.spare p) (hmap : t.map = s.map)
    (hlength : ∀ file, (t.world.content file).length = (s.world.content file).length)
    (hrecs : t.recs = s.recs) (hown : t.own = s.own) :
    t.view p = { s.view p with head := update (s.view p).head i n } := by
  have hholds : t.holds p = s.holds p := by
    funext j
    rw [holds, holds, hlocks]
  rw [view, view, hholds, hlocks, hhead, hspare, hmap, hlength, hlength, hrecs, hown]
  congr 1
  funext j
  rcases eq_or_ne j i with rfl | hji
  · rw [update_self, update_self, if_neg hlock]
  · rw [update_of_ne hji, update_of_ne hji]

theorem setLocks_locks (s : Ghost Pid) (p : Pid) (range : Range) (mode : Option LockMode)
    (file : FileId) (byte : Nat) :
    (s.setLocks p range mode).world.locks p file byte =
      if range.Has file byte then mode else s.world.locks p file byte := by
  simp only [setLocks, Locks.set, true_and]

theorem holds_slotRange (s : Ghost Pid) (p : Pid) (i : Slot) (mode : Option LockMode) :
    (s.setLocks p (slotRange i) mode).holds p = update (s.holds p) i mode := by
  funext j
  rw [holds, setLocks_locks]
  rcases eq_or_ne j i with rfl | hji
  · rw [update_self, if_pos (slotRange_has_off.mpr rfl)]
  · rw [update_of_ne hji, if_neg fun h => hji (slotRange_has_off.mp h), holds]

theorem tail_slotRange (s : Ghost Pid) (p : Pid) (i : Slot) (mode : Option LockMode) :
    (s.setLocks p (slotRange i) mode).world.locks p .idx START = s.world.locks p .idx START := by
  rw [setLocks_locks, if_neg]
  intro hhas
  have hoff := Layout.off_lt i
  have hstart := (slotRange_has.mp hhas).2
  rw [START] at hstart
  omega

theorem dat_slotRange (s : Ghost Pid) (p : Pid) (i : Slot) (mode : Option LockMode) :
    (s.setLocks p (slotRange i) mode).world.locks p .dat 0 = s.world.locks p .dat 0 := by
  rw [setLocks_locks, if_neg]
  exact fun hhas => nomatch (slotRange_has.mp hhas).1

theorem view_lockSlot (s : Ghost Pid) (p : Pid) (i : Slot) (mode : LockMode) :
    (s.setLocks p (slotRange i) (some mode)).view p =
      (s.view p).lockSlot i mode (s.head i) (part s.recs s.own (.list i)) s.map := by
  rw [view, view, View.lockSlot, holds_slotRange, tail_slotRange, dat_slotRange]
  congr 1
  · funext j
    rcases eq_or_ne j i with rfl | hji
    · rw [update_self, update_self, if_neg (Option.some_ne_none _)]
      rfl
    · rw [update_of_ne hji, update_of_ne hji]
      rfl
  · funext j
    rcases eq_or_ne j i with rfl | hji
    · rw [update_self, update_self, if_neg (Option.some_ne_none _)]
      rfl
    · rw [update_of_ne hji, update_of_ne hji]
      rfl
  · funext key
    rcases eq_or_ne (slotOf key) i with hkey | hkey
    · rw [hkey, update_self, if_neg (Option.some_ne_none _), if_pos rfl]
      rfl
    · rw [update_of_ne hkey, if_neg hkey]
      rfl

theorem view_unlockSlot (s : Ghost Pid) (p : Pid) (i : Slot)
    {map : List Byte → Option (List Byte)} (hmap : ∀ key, slotOf key ≠ i → map key = s.map key) :
    view p { s.setLocks p (slotRange i) none with map := map } = (s.view p).unlockSlot i := by
  have hholds : holds { s.setLocks p (slotRange i) none with map := map } p =
      update (s.holds p) i none := holds_slotRange s p i none
  rw [view, view, View.unlockSlot, hholds]
  dsimp only
  rw [tail_slotRange, dat_slotRange]
  congr 1
  · funext j
    rcases eq_or_ne j i with rfl | hji
    · rw [update_self, update_self, if_pos rfl]
    · rw [update_of_ne hji, update_of_ne hji]
      rfl
  · funext j
    rcases eq_or_ne j i with rfl | hji
    · rw [update_self, update_self, if_pos rfl]
    · rw [update_of_ne hji, update_of_ne hji]
      rfl
  · funext key
    rcases eq_or_ne (slotOf key) i with hkey | hkey
    · rw [hkey, update_self, if_pos rfl, if_pos rfl]
    · rw [update_of_ne hkey, if_neg hkey, hmap key hkey]

theorem tailLock_has {byte : Nat} : tailLock.Has .idx byte ↔ START ≤ byte := by
  simp only [Range.Has, tailLock, START, true_and, true_or, and_true]

theorem holds_tailLock (s : Ghost Pid) (p : Pid) (mode : Option LockMode) :
    (s.setLocks p tailLock mode).holds p = s.holds p := by
  funext i
  rw [holds, setLocks_locks, if_neg, holds]
  intro hhas
  have hoff := Layout.off_lt i
  have hstart := tailLock_has.mp hhas
  rw [START] at hstart
  omega

theorem not_datLock_has {byte : Nat} : ¬ datLock.Has .idx byte := by
  rintro ⟨hfile, -⟩
  cases hfile

theorem not_tailLock_has {byte : Nat} : ¬ tailLock.Has .dat byte := by
  rintro ⟨hfile, -⟩
  cases hfile

theorem holds_datLock (s : Ghost Pid) (p : Pid) (mode : Option LockMode) :
    (s.setLocks p datLock mode).holds p = s.holds p := by
  funext i
  rw [holds, setLocks_locks, if_neg not_datLock_has, holds]

theorem view_tailLock (s : Ghost Pid) (p : Pid) (mode : LockMode) :
    (s.setLocks p tailLock (some mode)).view p =
      { s.view p with tail := some mode, idxlen := (s.world.content .idx).length } := by
  rw [view, view, holds_tailLock, setLocks_locks, setLocks_locks, if_pos (tailLock_has.mpr le_rfl),
    if_neg not_tailLock_has]
  rfl

theorem view_tailUnlock (s : Ghost Pid) (p : Pid) :
    (s.setLocks p tailLock none).view p = { s.view p with tail := none, idxlen := 0 } := by
  rw [view, view, holds_tailLock, setLocks_locks, setLocks_locks, if_pos (tailLock_has.mpr le_rfl),
    if_neg not_tailLock_has]
  rfl

theorem view_datLock (s : Ghost Pid) (p : Pid) (mode : LockMode) :
    (s.setLocks p datLock (some mode)).view p =
      { s.view p with dat := some mode, datlen := (s.world.content .dat).length } := by
  rw [view, view, holds_datLock, setLocks_locks, setLocks_locks,
    if_neg not_datLock_has, if_pos ⟨rfl, le_rfl, .inl rfl⟩]
  rfl

theorem view_datUnlock (s : Ghost Pid) (p : Pid) :
    (s.setLocks p datLock none).view p = { s.view p with dat := none, datlen := 0 } := by
  rw [view, view, holds_datLock, setLocks_locks, setLocks_locks,
    if_neg not_datLock_has, if_pos ⟨rfl, le_rfl, .inl rfl⟩]
  rfl

end Ghost

end ApueCourse.Db
