import ApueCourse.Db.Bindings
import ApueCourse.Db.Layout
import ApueCourse.Program.Rely
import Mathlib.Order.Interval.Finset.Nat

/-! Who may touch what.  A record belongs to the list that it is on, or to the process that
has taken it off one.  A list is its lock's, and a process that has the lock may do with the
list what it likes, as long as it is a list again when the lock goes. -/

namespace ApueCourse.Db

open Memory Function Program

def Blank (key : List Byte) : Prop := ∀ c ∈ key, c = SPACE

inductive Owner (Pid : Type)
  | nobody
  | list (i : Slot)
  | hand (p : Pid)
  deriving DecidableEq

/-- The records that belong to an owner. -/
def part {Pid : Type} [DecidableEq Pid] (rec : Nat → Option Rec) (own : Nat → Owner Pid)
    (owner : Owner Pid) : Nat → Option Rec :=
  fun o => if own o = owner then rec o else none

section Part

variable {Pid : Type} [DecidableEq Pid] {rec : Nat → Option Rec} {own : Nat → Owner Pid}
  {owner owner' : Owner Pid} {o : Nat}

theorem part_eq_some {r : Rec} :
    part rec own owner o = some r ↔ own o = owner ∧ rec o = some r := by
  rw [part, Option.ite_none_right_eq_some]

theorem part_update_own (hold : own o ≠ owner) (hnew : owner' ≠ owner) :
    part rec (update own o owner') owner = part rec own owner := by
  funext o'
  rcases eq_or_ne o' o with rfl | hne
  · rw [part, part, update_self, if_neg hnew, if_neg hold]
  · rw [part, part, update_of_ne hne]

theorem part_give : part rec (update own o owner) owner = update (part rec own owner) o (rec o) := by
  funext o'
  rcases eq_or_ne o' o with rfl | hne
  · rw [part, update_self, update_self, if_pos rfl]
  · rw [part, update_of_ne hne, update_of_ne hne, part]

theorem part_take (hnew : owner' ≠ owner) :
    part rec (update own o owner') owner = update (part rec own owner) o none := by
  funext o'
  rcases eq_or_ne o' o with rfl | hne
  · rw [part, update_self, update_self, if_neg hnew]
  · rw [part, update_of_ne hne, update_of_ne hne, part]

theorem part_update_rec (hown : own o ≠ owner) (r : Option Rec) :
    part (update rec o r) own owner = part rec own owner := by
  funext o'
  rcases eq_or_ne o' o with rfl | hne
  · rw [part, part, if_neg hown, if_neg hown]
  · rw [part, part, update_of_ne hne]

theorem part_update_rec_self (hown : own o = owner) (r : Option Rec) :
    part (update rec o r) own owner = update (part rec own owner) o r := by
  funext o'
  rcases eq_or_ne o' o with rfl | hne
  · rw [part, update_self, update_self, if_pos hown]
  · rw [part, update_of_ne hne, update_of_ne hne, part]

theorem part_new_other (hnew : owner' ≠ owner) (hold : own o ≠ owner) (r : Option Rec) :
    part (update rec o r) (update own o owner') owner = part rec own owner := by
  have hown : update own o owner' o ≠ owner := by
    rwa [update_self]
  exact (part_update_rec hown r).trans (part_update_own hold hnew)

theorem part_new (r : Option Rec) :
    part (update rec o r) (update own o owner) owner = update (part rec own owner) o r := by
  have hown : update own o owner o = owner := update_self ..
  rw [part_update_rec_self hown, part_give, update_idem]

end Part

/-- A pointer leads from record to record and to 0 in the end. -/
def Path (mem : Nat → Option Rec) : Nat → List Nat → Prop
  | n, [] => n = 0
  | n, o :: rest => n = o ∧ o ≠ 0 ∧ ∃ r, mem o = some r ∧ Path mem r.ptr rest

theorem Path.suffix {mem : Nat → Option Rec} {front back : List Nat} {n o : Nat}
    (hpath : Path mem n (front ++ o :: back)) : Path mem o (o :: back) := by
  induction front generalizing n with
  | nil =>
      obtain ⟨rfl, hrest⟩ := hpath
      exact ⟨rfl, hrest⟩
  | cons o' front ih =>
      obtain ⟨-, -, r, -, hrest⟩ := hpath
      exact ih hrest

theorem Path.unique {mem : Nat → Option Rec} {offs offs' : List Nat} {n : Nat}
    (hpath : Path mem n offs) (hpath' : Path mem n offs') : offs = offs' := by
  induction offs generalizing n offs' with
  | nil =>
      cases offs' with
      | nil => rfl
      | cons o' rest' => exact absurd (hpath'.1.symm.trans hpath) hpath'.2.1
  | cons o rest ih =>
      obtain ⟨rfl, hne, r, hr, hrest⟩ := hpath
      cases offs' with
      | nil => exact absurd hpath' hne
      | cons o' rest' =>
          obtain ⟨rfl, -, r', hr', hrest'⟩ := hpath'
          cases hr.symm.trans hr'
          rw [ih hrest hrest']

/-- A path that ends has no circle. -/
theorem Path.nodup {mem : Nat → Option Rec} {offs : List Nat} {n : Nat}
    (hpath : Path mem n offs) : offs.Nodup := by
  induction offs generalizing n with
  | nil => exact List.nodup_nil
  | cons o rest ih =>
      have hwhole := hpath
      obtain ⟨rfl, -, r, -, hrest⟩ := hpath
      refine List.nodup_cons.mpr ⟨fun hmem => ?_, ih hrest⟩
      obtain ⟨front, back, rfl⟩ := List.append_of_mem hmem
      have heq := congrArg List.length (hwhole.unique hrest.suffix)
      rw [List.length_cons, List.length_cons, List.length_append, List.length_cons] at heq
      omega

theorem Path.le {mem : Nat → Option Rec} {offs : List Nat} {n : Nat} {N : Int}
    (hpath : Path mem n offs) (hn : (n : Int) ≤ N)
    (hmem : ∀ o r, mem o = some r → (r.ptr : Int) ≤ N) : ∀ o ∈ offs, (o : Int) ≤ N := by
  induction offs generalizing n with
  | nil => exact nofun
  | cons o rest ih =>
      obtain ⟨rfl, -, r, hr, hrest⟩ := hpath
      intro o ho
      rcases List.mem_cons.mp ho with rfl | ho'
      · exact hn
      · exact ih hrest (hmem _ r hr) o ho'

theorem Path.ne_zero {mem : Nat → Option Rec} {offs : List Nat} {n : Nat}
    (hpath : Path mem n offs) : ∀ o ∈ offs, o ≠ 0 := by
  induction offs generalizing n with
  | nil => exact nofun
  | cons o rest ih =>
      obtain ⟨rfl, hne, r, -, hrest⟩ := hpath
      intro o ho
      rcases List.mem_cons.mp ho with rfl | ho'
      · exact hne
      · exact ih hrest o ho'

/-- No record is further back than a pointer can reach, and there are no more of them than
that. -/
structure Reached (offs : List Nat) : Prop where
  length : (offs.length : Int) ≤ PTR_MAX
  le : ∀ o ∈ offs, (o : Int) ≤ PTR_MAX

/-- As a pointer has only so many digits, a path has only so many records. -/
theorem Path.reached {mem : Nat → Option Rec} {offs : List Nat} {n : Nat}
    (hpath : Path mem n offs) (hn : (n : Int) ≤ PTR_MAX)
    (hmem : ∀ o r, mem o = some r → (r.ptr : Int) ≤ PTR_MAX) : Reached offs := by
  refine ⟨?_, hpath.le hn hmem⟩
  have hsubset : offs.toFinset ⊆ Finset.Icc 1 999999 := by
    intro o ho
    have ho' := List.mem_toFinset.mp ho
    have hle := hpath.le hn hmem o ho'
    have hne := hpath.ne_zero o ho'
    simp only [PTR_MAX] at hle
    rw [Finset.mem_Icc]
    omega
  have hcard := Finset.card_le_card hsubset
  rw [List.toFinset_card_of_nodup hpath.nodup, Nat.card_Icc] at hcard
  simp only [PTR_MAX]
  omega

/-- A list as it is when nobody has its lock for writing: the free list has blank records,
and a chain one record for each of its keys that has data.  A key with a `SEP` can only be the
first of its chain, as no search comes past it. -/
structure Lists (i : Slot) (head : Nat) (mem : Nat → Option Rec)
    (map : List Byte → Option (List Byte)) (offs : List Nat) : Prop where
  path : Path mem head offs
  mem_iff : ∀ o, o ∈ offs ↔ mem o ≠ none
  blank : i = freeSlot → ∀ {o r}, mem o = some r → Blank r.key
  hash : i ≠ freeSlot → ∀ {o r}, mem o = some r → slotOf r.key = i
  distinct : i ≠ freeSlot → ∀ {o o' r r'}, mem o = some r → mem o' = some r' →
    r.key = r'.key → o = o'
  first : i ≠ freeSlot → ∀ {o r}, o ∈ offs.tail → mem o = some r → SEP ∉ r.key
  map : ∀ {key}, slotOf key = i → ∀ {d},
    map key = some d ↔ ∃ o r, mem o = some r ∧ r.key = key ∧ r.data = d

theorem Lists.congr_map {i : Slot} {head : Nat} {mem : Nat → Option Rec}
    {map map' : List Byte → Option (List Byte)} {offs : List Nat}
    (hlists : Lists i head mem map offs) (hmap : ∀ key, slotOf key = i → map' key = map key) :
    Lists i head mem map' offs where
  path := hlists.path
  mem_iff := hlists.mem_iff
  blank := hlists.blank
  hash := hlists.hash
  distinct := hlists.distinct
  first := hlists.first
  map {key} hkey {d} := by
    rw [hmap key hkey]
    exact hlists.map hkey

/-- The files with what is in them, who has what, and the data that each key is meant to
have. -/
structure Ghost (Pid : Type) where
  world : World Pid
  head : Slot → Nat
  recs : Nat → Option Rec
  own : Nat → Owner Pid
  spare : Pid → Option (Nat × List Byte)
  map : List Byte → Option (List Byte)

/-- What a process knows from its own locks. -/
structure View where
  lock : Slot → Option LockMode
  tail : Option LockMode
  dat : Option LockMode
  head : Slot → Nat
  mem : Slot → Nat → Option Rec
  hand : Nat → Option Rec
  spare : Option (Nat × List Byte)
  map : List Byte → Option (List Byte)
  idxlen : Nat
  datlen : Nat

namespace Ghost

variable {Pid : Type} [DecidableEq Pid]

def holds (s : Ghost Pid) (p : Pid) (i : Slot) : Option LockMode :=
  s.world.locks p .idx i.off

def setLocks (s : Ghost Pid) (p : Pid) (range : Range) (mode : Option LockMode) : Ghost Pid :=
  { s with world := { s.world with locks := s.world.locks.set p range mode } }

theorem holds_setLocks (s : Ghost Pid) (p q : Pid) (range : Range) (mode : Option LockMode)
    (i : Slot) :
    (s.setLocks p range mode).holds q i =
      if q = p ∧ range.Has .idx i.off then mode else s.holds q i := rfl

def view (p : Pid) (s : Ghost Pid) : View where
  lock := s.holds p
  tail := s.world.locks p .idx START
  dat := s.world.locks p .dat 0
  head i := if s.holds p i = none then 0 else s.head i
  mem i := if s.holds p i = none then fun _ => none else part s.recs s.own (.list i)
  hand := part s.recs s.own (.hand p)
  spare := s.spare p
  map key := if s.holds p (slotOf key) = none then none else s.map key
  idxlen := if s.world.locks p .idx START = none then 0 else (s.world.content .idx).length
  datlen := if s.world.locks p .dat 0 = none then 0 else (s.world.content .dat).length

structure Sound (s : Ghost Pid) : Prop where
  layout : Layout (s.world.content .idx) (s.world.content .dat) s.head s.recs s.spare
  exclusive : s.world.locks.Exclusive
  nobody : ∀ o, s.own o = .nobody ↔ s.recs o = none
  lists : ∀ i, (∀ p, s.holds p i ≠ some .write) →
    ∃ offs, Lists i (s.head i) (part s.recs s.own (.list i)) s.map offs

/-- What the process may write. -/
def Mine (s : Ghost Pid) (p : Pid) (owner : Owner Pid) : Prop :=
  owner = .hand p ∨ ∃ i, owner = .list i ∧ s.holds p i = some .write

/-- The process has the chain of the key for writing, and no record of its own there or in
its hand has the key. -/
def Lacks (s : Ghost Pid) (p : Pid) (key : List Byte) : Prop :=
  s.holds p (slotOf key) = some .write ∧ (¬ Blank key → ∀ o r,
    s.own o = .list (slotOf key) ∨ s.own o = .hand p → s.recs o = some r → r.key ≠ key)

/-- What the process has for writing are lists for `map`. -/
def Given (s : Ghost Pid) (p : Pid) (map : List Byte → Option (List Byte)) : Prop :=
  ∀ i, s.holds p i = some .write →
    ∃ offs, Lists i (s.head i) (part s.recs s.own (.list i)) map offs

/-- The record of the key has gone from its chain, and the new one is not there yet. -/
structure Rewriting (s : Ghost Pid) (p : Pid) (call : Call) : Prop where
  given : s.Given p (update s.map call.key none)
  lock : s.holds p (slotOf call.key) = some .write
  rewrites : call.Rewrites (s.map call.key)
  clear : ∀ key, slotOf key = slotOf call.key → s.map key ≠ none → SEP ∉ key

/-- Where a process may stop within a call. -/
def MayStop (s : Ghost Pid) (p : Pid) (call : Call) : Prop :=
  s.Given p s.map ∨ s.Rewriting p call

/-- A record goes from a list to the hand of the process, or from there to a list. -/
inductive Relabel (p : Pid) (s : Ghost Pid) : Ghost Pid → Prop
  | refl : Relabel p s s
  | take {o : Nat} {i : Slot} (hown : s.own o = .list i) (hlock : s.holds p i = some .write) :
      Relabel p s { s with own := update s.own o (.hand p) }
  | give {o : Nat} {i : Slot} {r : Rec} (hown : s.own o = .hand p)
      (hlock : s.holds p i = some .write) (hrec : s.recs o = some r)
      (hkey : if i = freeSlot then Blank r.key else slotOf r.key = i) :
      Relabel p s { s with own := update s.own o (.list i) }

end Ghost

/-- Why a data record is written in its place. -/
inductive DataKind {Pid : Type} [DecidableEq Pid] (s : Ghost Pid) (p : Pid) (o : Nat) (r : Rec)
    (d : List Byte) : Call → Prop
  | blank {call : Call} (hown : s.own o = .hand p) (hfree : s.holds p freeSlot = some .write)
      (hcall : call = .delete r.key ∨
        ∃ data flag, call = .store r.key data flag ∧ d.length ≠ data.length) :
      DataKind s p o r d call
  | reuse {key : List Byte} {flag : Int} (hown : s.own o = .hand p) (hblank : Blank r.key)
      (hlacks : s.Lacks p key) : DataKind s p o r d (.store key d flag)
  | replace {flag : Int} (hown : s.own o = .list (slotOf r.key))
      (hlock : s.holds p (slotOf r.key) = some .write) :
      DataKind s p o r d (.store r.key d flag)

/-- Why an index record is written in its place. -/
inductive RecKind {Pid : Type} [DecidableEq Pid] (s : Ghost Pid) (p : Pid) (r r' : Rec) :
    Call → Prop
  | blank {call : Call} (hfree : s.holds p freeSlot = some .write) (hblank : Blank r'.key)
      (hcall : call = .delete r.key ∨ ∃ data flag, call = .store r.key data flag) :
      RecKind s p r r' call
  | reuse {flag : Int} (hblank : Blank r.key) (hlacks : s.Lacks p r'.key) :
      RecKind s p r r' (.store r'.key r'.data flag)

namespace Ghost

variable {Pid : Type} [DecidableEq Pid]

/-- What a system call of a process does to the state in the course of a call. -/
inductive Effect (p : Pid) (call : Call) (s : Ghost Pid) :
    (op : Op) → op.Res → Ghost Pid → Prop
  | read {file : FileId} {pos n : Nat} {bytes : List Byte} :
      Effect p call s (.read file pos n) bytes s
  | size {file : FileId} {n : Nat} : Effect p call s (.size file) n s
  | tooBig {file : FileId} {pos : Nat} {bytes : List Byte} :
      Effect p call s (.write file pos bytes) false s
  | lock {mode : LockMode} {range : Range} (hgrants : s.world.locks.Grants p range mode)
      (hfresh : ∀ i : Slot, range.Has .idx i.off → s.holds p i = none) :
      Effect p call s (.lockw mode range) () (s.setLocks p range (some mode))
  | unlock {range : Range} {map : List Byte → Option (List Byte)}
      (hlists : ∀ i : Slot, range.Has .idx i.off → s.holds p i = some .write →
        ∃ offs, Lists i (s.head i) (part s.recs s.own (.list i)) map offs)
      (hmap : ∀ key, map key ≠ s.map key →
        range.Has .idx (slotOf key).off ∧ s.holds p (slotOf key) = some .write)
      (hhand : ∀ i : Slot, range.Has .idx i.off → s.holds p i = some .write →
        ∀ o r, s.own o = .hand p → s.recs o = some r → i = freeSlot ∧ Blank r.key) :
      Effect p call s (.unlock range) () { s.setLocks p range none with map := map }
  | head {i : Slot} {n : Nat} (hlock : s.holds p i = some .write) (hn : (n : Int) ≤ PTR_MAX) :
      Effect p call s (.write .idx i.off (sprintfWidth PTR_SZ n)) true
        { s with
          world := s.world.setContent .idx
            (writeAt (s.world.content .idx) i.off (sprintfWidth PTR_SZ n))
          head := update s.head i n }
  | pointer {o n : Nat} {r : Rec} (hrec : s.recs o = some r) (hmine : s.Mine p (s.own o))
      (hn : (n : Int) ≤ PTR_MAX) :
      Effect p call s (.write .idx o (sprintfWidth PTR_SZ n)) true
        { s with
          world := s.world.setContent .idx
            (writeAt (s.world.content .idx) o (sprintfWidth PTR_SZ n))
          recs := update s.recs o (some (r.setPtr n)) }
  | record {o : Nat} {r r' : Rec} (hrec : s.recs o = some r) (hown : s.own o = .hand p)
      (hshape : r.SameShape r') (hfits : r'.Fits) (hdata : r'.data = r.data)
      (hkind : RecKind s p r r' call) :
      Effect p call s (.write .idx o r'.bytes) true
        { s with
          world := s.world.setContent .idx (writeAt (s.world.content .idx) o r'.bytes)
          recs := update s.recs o (some r') }
  | data {o : Nat} {r : Rec} {d : List Byte} (hrec : s.recs o = some r)
      (hd : d.length = r.data.length) (hnul : 0 ∉ d) (hkind : DataKind s p o r d call) :
      Effect p call s (.write .dat r.datoff (d ++ [NEWLINE])) true
        { s with
          world := s.world.setContent .dat
            (writeAt (s.world.content .dat) r.datoff (d ++ [NEWLINE]))
          recs := update s.recs o (some (r.setData d)) }
  | appendData {key d : List Byte} {flag : Int} (hcall : call = .store key d flag)
      (hlock : s.world.locks p .dat 0 = some .write) (hspare : s.spare p = none)
      (hle : (s.world.content .dat).length + (d ++ [NEWLINE]).length ≤ OFF_MAX)
      (hlacks : s.Lacks p key) :
      Effect p call s (.write .dat (s.world.content .dat).length (d ++ [NEWLINE])) true
        { s with
          world := s.world.setContent .dat
            (writeAt (s.world.content .dat) (s.world.content .dat).length (d ++ [NEWLINE]))
          spare := update s.spare p (some ((s.world.content .dat).length, d)) }
  | appendRec {r : Rec} {flag : Int} (hcall : call = .store r.key r.data flag)
      (hlock : s.world.locks p .idx START = some .write)
      (hspare : s.spare p = some (r.datoff, r.data)) (hfits : r.Fits)
      (hle : (s.world.content .idx).length + r.bytes.length ≤ OFF_MAX)
      (hlacks : s.Lacks p r.key) :
      Effect p call s (.write .idx (s.world.content .idx).length r.bytes) true
        { s with
          world := s.world.setContent .idx
            (writeAt (s.world.content .idx) (s.world.content .idx).length r.bytes)
          recs := update s.recs (s.world.content .idx).length (some r)
          own := update s.own (s.world.content .idx).length (.hand p)
          spare := update s.spare p none }

/-- A system call with what it means for who owns what. -/
def Turn (p : Pid) (call : Call) (op : Op) (r : op.Res) (s t : Ghost Pid) : Prop :=
  ∃ u, Relabel p s u ∧ Effect p call u op r t

/-- What a process leaves as it is for the others where it changes no locks. -/
structure Keeps (p : Pid) (s t : Ghost Pid) : Prop where
  locks : t.world.locks = s.world.locks
  map : t.map = s.map
  head : ∀ i, s.holds p i ≠ some .write → t.head i = s.head i
  part : ∀ owner, owner ≠ .nobody → ¬ s.Mine p owner →
    part t.recs t.own owner = part s.recs s.own owner
  spare : ∀ q ≠ p, t.spare q = s.spare q
  idxlen : s.world.locks p .idx START ≠ some .write →
    (t.world.content .idx).length = (s.world.content .idx).length
  datlen : s.world.locks p .dat 0 ≠ some .write →
    (t.world.content .dat).length = (s.world.content .dat).length
  nobody : ∀ o, t.own o = .nobody ↔ t.recs o = none

theorem Sound.other_free {s : Ghost Pid} (hs : s.Sound) {p q : Pid} (hne : q ≠ p)
    {file : FileId} {byte : Nat} (hlock : s.world.locks p file byte = some .write) :
    s.world.locks q file byte = none := by
  cases hq : s.world.locks q file byte with
  | none => rfl
  | some mode => exact absurd (hs.exclusive p q file byte _ _ hne.symm hlock hq).1 (by decide)

omit [DecidableEq Pid] in
theorem not_mine_list {s : Ghost Pid} {p : Pid} {i : Slot} (hlock : s.holds p i ≠ some .write) :
    ¬ s.Mine p (.list i) := by
  rintro (h | ⟨j, hj, hlock'⟩)
  · cases h
  · cases hj
    exact hlock hlock'

omit [DecidableEq Pid] in
theorem not_mine_hand {s : Ghost Pid} {p q : Pid} (hne : q ≠ p) : ¬ s.Mine p (.hand q) := by
  rintro (h | ⟨j, hj, -⟩)
  · cases h
    exact hne rfl
  · cases hj

theorem Keeps.sound {s t : Ghost Pid} {p : Pid} (hkeeps : Keeps p s t) (hs : s.Sound)
    (hlayout : Layout (t.world.content .idx) (t.world.content .dat) t.head t.recs t.spare) :
    t.Sound where
  layout := hlayout
  exclusive := hkeeps.locks ▸ hs.exclusive
  nobody := hkeeps.nobody
  lists i hfree := by
    have hfree' : ∀ q, s.holds q i ≠ some .write := by
      intro q
      have hq := hfree q
      rwa [holds, hkeeps.locks] at hq
    rw [hkeeps.head i (hfree' p), hkeeps.map,
      hkeeps.part (.list i) nofun (not_mine_list (hfree' p))]
    exact hs.lists i hfree'

theorem Keeps.view {s t : Ghost Pid} {p q : Pid} (hkeeps : Keeps p s t) (hs : s.Sound)
    (hne : q ≠ p) : t.view q = s.view q := by
  have hholds : t.holds q = s.holds q := by
    funext i
    rw [holds, holds, hkeeps.locks]
  have hfree : ∀ {i}, s.holds q i ≠ none → s.holds p i ≠ some .write := by
    intro i hq hp
    exact hq (hs.other_free hne hp)
  have htail : s.world.locks q .idx START ≠ none →
      (t.world.content .idx).length = (s.world.content .idx).length := by
    intro hq
    exact hkeeps.idxlen fun hp => hq (hs.other_free hne hp)
  have hdat : s.world.locks q .dat 0 ≠ none →
      (t.world.content .dat).length = (s.world.content .dat).length := by
    intro hq
    exact hkeeps.datlen fun hp => hq (hs.other_free hne hp)
  rw [Ghost.view, Ghost.view, hholds, hkeeps.locks, hkeeps.spare q hne, hkeeps.map,
    hkeeps.part (.hand q) nofun (not_mine_hand hne)]
  congr 1
  · funext i
    split
    · rfl
    · rename_i hi
      exact hkeeps.head i (hfree hi)
  · funext i
    split
    · rfl
    · rename_i hi
      exact hkeeps.part (.list i) nofun (not_mine_list (hfree hi))
  · split
    · rfl
    · rename_i hi
      exact htail hi
  · split
    · rfl
    · rename_i hi
      exact hdat hi

theorem Keeps.refl {s : Ghost Pid} (hs : s.Sound) (p : Pid) : Keeps p s s where
  locks := rfl
  map := rfl
  head _ _ := rfl
  part _ _ _ := rfl
  spare _ _ := rfl
  idxlen _ := rfl
  datlen _ := rfl
  nobody := hs.nobody

omit [DecidableEq Pid] in
theorem mine_list {s : Ghost Pid} {p : Pid} {i : Slot} (hlock : s.holds p i = some .write) :
    s.Mine p (.list i) :=
  .inr ⟨i, rfl, hlock⟩

/-- A record goes from one owner to another, and both are the process's. -/
theorem keeps_own {s : Ghost Pid} (hs : s.Sound) {p : Pid} {o : Nat} {owner : Owner Pid}
    (hown : s.Mine p (s.own o)) (howner : s.Mine p owner) :
    Keeps p s { s with own := update s.own o owner } where
  locks := rfl
  map := rfl
  head _ _ := rfl
  part owner' _ hother := by
    apply part_update_own
    · rintro rfl
      exact hother hown
    · rintro rfl
      exact hother howner
  spare _ _ := rfl
  idxlen _ := rfl
  datlen _ := rfl
  nobody o' := by
    have hsome : ∀ {owner}, s.Mine p owner → owner ≠ .nobody := by
      rintro _ (rfl | ⟨i, rfl, -⟩)
      · exact nofun
      · exact nofun
    rcases eq_or_ne o' o with rfl | hne
    · dsimp only
      rw [update_self, ← hs.nobody o']
      exact iff_of_false (hsome howner) (hsome hown)
    · dsimp only
      rw [update_of_ne hne]
      exact hs.nobody o'

theorem Relabel.keeps {s t : Ghost Pid} {p : Pid} (hs : s.Sound) (hturn : Relabel p s t) :
    Keeps p s t := by
  cases hturn with
  | refl => exact .refl hs p
  | take hown hlock => exact keeps_own hs (hown ▸ mine_list hlock) (.inl rfl)
  | give hown hlock => exact keeps_own hs (.inl hown) (mine_list hlock)

theorem Relabel.sound {s t : Ghost Pid} {p : Pid} (hs : s.Sound) (hturn : Relabel p s t) :
    t.Sound := by
  apply (hturn.keeps hs).sound hs
  cases hturn with
  | refl | take | give => exact hs.layout

omit [DecidableEq Pid] in
theorem length_setContent {w : World Pid} {file : FileId} {content : List Byte}
    (hlength : content.length = (w.content file).length) (file' : FileId) :
    ((w.setContent file content).content file').length = (w.content file').length := by
  rw [World.setContent_content]
  rcases eq_or_ne file' file with rfl | hne
  · rw [update_self, hlength]
  · rw [update_of_ne hne]

/-- A record of the process is written in its place. -/
theorem keeps_recs {s : Ghost Pid} (hs : s.Sound) {p : Pid} {o : Nat} {r v : Rec}
    (hrec : s.recs o = some r) (hmine : s.Mine p (s.own o)) {file : FileId}
    {content : List Byte} (hlength : content.length = (s.world.content file).length) :
    Keeps p s { s with
      world := s.world.setContent file content
      recs := update s.recs o (some v) } where
  locks := rfl
  map := rfl
  head _ _ := rfl
  part owner _ hother := by
    apply part_update_rec
    rintro rfl
    exact hother hmine
  spare _ _ := rfl
  idxlen _ := length_setContent hlength .idx
  datlen _ := length_setContent hlength .dat
  nobody o' := by
    rcases eq_or_ne o' o with rfl | hne
    · dsimp only
      rw [update_self, hs.nobody o', hrec]
      exact iff_of_false nofun nofun
    · dsimp only
      rw [update_of_ne hne]
      exact hs.nobody o'

theorem keeps_head {s : Ghost Pid} (hs : s.Sound) {p : Pid} {i : Slot}
    (hlock : s.holds p i = some .write) (n : Nat) {content : List Byte}
    (hlength : content.length = (s.world.content .idx).length) :
    Keeps p s { s with
      world := s.world.setContent .idx content
      head := update s.head i n } where
  locks := rfl
  map := rfl
  head j hj := by
    apply update_of_ne
    rintro rfl
    exact hj hlock
  part _ _ _ := rfl
  spare _ _ := rfl
  idxlen _ := length_setContent hlength .idx
  datlen _ := length_setContent hlength .dat
  nobody := hs.nobody

/-- A list that nobody has for writing behind a change of locks was one before it, or the
process has given it back. -/
theorem Sound.lock {s : Ghost Pid} (hs : s.Sound) {p : Pid} {range : Range} {mode : LockMode}
    (hgrants : s.world.locks.Grants p range mode)
    (hfresh : ∀ i : Slot, range.Has .idx i.off → s.holds p i = none) :
    (s.setLocks p range (some mode)).Sound where
  layout := hs.layout
  exclusive := hs.exclusive.set_some hgrants
  nobody := hs.nobody
  lists i hfree := by
    apply hs.lists i
    intro q hq
    apply hfree q
    rw [holds_setLocks, if_neg, hq]
    rintro ⟨rfl, hhas⟩
    rw [hfresh i hhas] at hq
    cases hq

theorem Sound.unlock {s : Ghost Pid} (hs : s.Sound) {p : Pid} {range : Range}
    {map : List Byte → Option (List Byte)}
    (hlists : ∀ i : Slot, range.Has .idx i.off → s.holds p i = some .write →
      ∃ offs, Lists i (s.head i) (part s.recs s.own (.list i)) map offs)
    (hmap : ∀ key, map key ≠ s.map key →
      range.Has .idx (slotOf key).off ∧ s.holds p (slotOf key) = some .write) :
    Sound { s.setLocks p range none with map := map } where
  layout := hs.layout
  exclusive := hs.exclusive.set_none p range
  nobody := hs.nobody
  lists i hfree := by
    by_cases hi : range.Has .idx i.off ∧ s.holds p i = some .write
    · exact hlists i hi.1 hi.2
    · have hfree' : ∀ q, s.holds q i ≠ some .write := by
        intro q hq
        by_cases hqp : q = p ∧ range.Has .idx i.off
        · obtain ⟨rfl, hhas⟩ := hqp
          exact hi ⟨hhas, hq⟩
        · apply hfree q
          exact (holds_setLocks s p q range none i).trans ((if_neg hqp).trans hq)
      obtain ⟨offs, hoffs⟩ := hs.lists i hfree'
      refine ⟨offs, hoffs.congr_map ?_⟩
      rintro key rfl
      by_contra hne
      exact hi (hmap key hne)

/-- A change of one process's locks, and of the data of keys that it has for writing. -/
theorem view_locks {s : Ghost Pid} (hs : s.Sound) {p q : Pid} (hne : q ≠ p) {range : Range}
    {mode : Option LockMode} {map : List Byte → Option (List Byte)}
    (hmap : ∀ key, map key ≠ s.map key → s.holds p (slotOf key) = some .write) :
    view q { s.setLocks p range mode with map := map } = s.view q := by
  have hlocks : s.world.locks.set p range mode q = s.world.locks q := Locks.set_other hne _ _
  have hholds : holds { s.setLocks p range mode with map := map } q = s.holds q := by
    funext i
    exact congrFun (congrFun hlocks .idx) i.off
  rw [view, view, hholds]
  simp only [setLocks, hlocks]
  congr 1
  funext key
  split
  · rfl
  · rename_i hkey
    by_contra hchange
    exact hkey (hs.other_free hne (hmap key hchange))

theorem keeps_appendData {s : Ghost Pid} (hs : s.Sound) {p : Pid}
    (hlock : s.world.locks p .dat 0 = some .write) (content : List Byte)
    (extent : Option (Nat × List Byte)) :
    Keeps p s { s with
      world := s.world.setContent .dat content
      spare := update s.spare p extent } where
  locks := rfl
  map := rfl
  head _ _ := rfl
  part _ _ _ := rfl
  spare _ hq := update_of_ne hq _ _
  idxlen _ := rfl
  datlen hlock' := absurd hlock hlock'
  nobody := hs.nobody

/-- Behind the last index record there is none. -/
theorem Sound.recs_length {s : Ghost Pid} (hs : s.Sound) :
    s.recs (s.world.content .idx).length = none := by
  cases hrec : s.recs (s.world.content .idx).length with
  | none => rfl
  | some r =>
      have hend := hs.layout.end_le hrec
      rw [Rec.size, PTR_SZ] at hend
      omega

theorem keeps_appendRec {s : Ghost Pid} (hs : s.Sound) {p : Pid}
    (hlock : s.world.locks p .idx START = some .write) (content : List Byte) (r : Rec) :
    Keeps p s { s with
      world := s.world.setContent .idx content
      recs := update s.recs (s.world.content .idx).length (some r)
      own := update s.own (s.world.content .idx).length (.hand p)
      spare := update s.spare p none } where
  locks := rfl
  map := rfl
  head _ _ := rfl
  part owner hsome hother := by
    have hnobody := (hs.nobody _).mpr hs.recs_length
    apply part_new_other
    · rintro rfl
      exact hother (.inl rfl)
    · rw [hnobody]
      exact hsome.symm
  spare _ hq := update_of_ne hq _ _
  idxlen hlock' := absurd hlock hlock'
  datlen _ := rfl
  nobody o := by
    rcases eq_or_ne o (s.world.content .idx).length with rfl | hne
    · dsimp only
      rw [update_self, update_self]
      exact iff_of_false nofun nofun
    · dsimp only
      rw [update_of_ne hne, update_of_ne hne]
      exact hs.nobody o

theorem mine_of_kind {s : Ghost Pid} {p : Pid} {o : Nat} {r : Rec} {d : List Byte}
    {call : Call} (hkind : DataKind s p o r d call) : s.Mine p (s.own o) := by
  cases hkind with
  | blank hown | reuse hown => exact .inl hown
  | replace hown hlock => exact hown ▸ mine_list hlock

/-- Every system call keeps the state sound, and leaves alone what another process knows
from its locks. -/
theorem Effect.keeps {s t : Ghost Pid} {p : Pid} {call : Call} {op : Op} {r : op.Res}
    (hs : s.Sound) (heffect : Effect p call s op r t) :
    t.Sound ∧ ∀ q ≠ p, t.view q = s.view q := by
  have hlayout := hs.layout
  cases heffect with
  | read | size | tooBig => exact ⟨hs, fun _ _ => rfl⟩
  | lock hgrants hfresh =>
      exact ⟨hs.lock hgrants hfresh, fun q hq => view_locks hs hq fun _ h => absurd rfl h⟩
  | unlock hlists hmap hhand =>
      exact ⟨hs.unlock hlists hmap, fun q hq => view_locks hs hq fun key h => (hmap key h).2⟩
  | @head i n hlock hn =>
      have hle : i.off + (sprintfWidth PTR_SZ n).length ≤ (s.world.content .idx).length := by
        rw [Layout.length_sprintfWidth_ptr hn]
        exact (Layout.off_lt i).trans (Nat.le_of_lt hlayout.start_le)
      have hkeeps := keeps_head hs hlock n (length_writeAt_of_le hle)
      exact ⟨hkeeps.sound hs (hlayout.setHead i hn), fun q hq => hkeeps.view hs hq⟩
  | @pointer o n r₀ hrec hmine hn =>
      have hle : o + (sprintfWidth PTR_SZ n).length ≤ (s.world.content .idx).length := by
        rw [Layout.length_sprintfWidth_ptr hn]
        apply le_trans _ (hlayout.end_le hrec)
        rw [Rec.size]
        omega
      have hkeeps := keeps_recs (v := r₀.setPtr n) hs hrec hmine (length_writeAt_of_le hle)
      exact ⟨hkeeps.sound hs (hlayout.setPtr hrec hn), fun q hq => hkeeps.view hs hq⟩
  | @record o r₀ r₁ hrec hown hshape hfits hdata hkind =>
      have hle : o + r₁.bytes.length ≤ (s.world.content .idx).length := by
        rw [Rec.length_bytes hfits, ← hshape.size]
        exact hlayout.end_le hrec
      have hkeeps := keeps_recs (v := r₁) hs hrec (.inl hown) (length_writeAt_of_le hle)
      exact ⟨hkeeps.sound hs (hlayout.setRecord hrec hshape hfits hdata),
        fun q hq => hkeeps.view hs hq⟩
  | @data o r₀ d hrec hd hnul hkind =>
      have hle : r₀.datoff + (d ++ [NEWLINE]).length ≤ (s.world.content .dat).length := by
        rw [List.length_append, hd]
        exact hlayout.data_le hrec
      have hkeeps := keeps_recs (v := r₀.setData d) hs hrec (mine_of_kind hkind)
        (length_writeAt_of_le hle)
      exact ⟨hkeeps.sound hs (hlayout.setData hrec hd hnul), fun q hq => hkeeps.view hs hq⟩
  | @appendData key d flag hcall hlock hspare hle hlacks =>
      have hkeeps := keeps_appendData hs hlock
        (writeAt (s.world.content .dat) (s.world.content .dat).length (d ++ [NEWLINE]))
        (some ((s.world.content .dat).length, d))
      exact ⟨hkeeps.sound hs (hlayout.appendData hspare hle), fun q hq => hkeeps.view hs hq⟩
  | @appendRec r₀ flag hcall hlock hspare hfits hle hlacks =>
      have hkeeps := keeps_appendRec hs hlock
        (writeAt (s.world.content .idx) (s.world.content .idx).length r₀.bytes) r₀
      exact ⟨hkeeps.sound hs (hlayout.appendRec hspare hfits hle), fun q hq => hkeeps.view hs hq⟩

/-- The rules that processes keep on the database, with the data of the keys as what the
calls are about.  No process is caught in a loop, and where one stops it leaves lists. -/
def protocol (Pid : Type) [DecidableEq Pid] :
    Protocol Pid Call Op Op.Res Stop (World Pid) (Ghost Pid) (List Byte → Option (List Byte)) where
  sys p op w r w' := World.Sys p op w r w'
  world := Ghost.world
  abs := Ghost.map
  Inv := Sound
  Turn p call op r s t := Turn p call op r s t
  Rely p s t := t.view p = s.view p
  mayStop p call reason s := reason ≠ .spin ∧ s.MayStop p call
  turn_inv hs := by
    rintro ⟨u, hlabel, heffect⟩
    exact (heffect.keeps (hlabel.sound hs)).1
  turn_rely hs := by
    rintro ⟨u, hlabel, heffect⟩ hq
    exact ((heffect.keeps (hlabel.sound hs)).2 _ hq).trans ((hlabel.keeps hs).view hs hq)
  rely_trans hst htu := htu.trans hst

end Ghost

end ApueCourse.Db
