import ApueCourse.Db.Chain
import ApueCourse.Db.Search

/-! What the functions that write make of a chain and of the free list. -/

namespace ApueCourse.Db

open Memory Function Program

/-- What is so of anything that a process knows from its locks. -/
structure View.WellFormed (v : View) : Prop where
  head : ∀ {i}, v.lock i = none → v.head i = 0
  mem : ∀ {i}, v.lock i = none → v.mem i = fun _ => none
  idxlen : v.tail = none → v.idxlen = 0
  datlen : v.dat = none → v.datlen = 0
  apart : ∀ {i j o}, v.mem i o ≠ none → v.mem j o ≠ none → i = j
  hand : ∀ {i o}, v.mem i o ≠ none → v.hand o = none

variable {Pid : Type} [DecidableEq Pid] {p : Pid} {call : Call} {v u v' : View} {α : Type}

theorem Ghost.view_wellFormed (s : Ghost Pid) (p : Pid) : (s.view p).WellFormed := by
  have hmem : ∀ {i o}, (s.view p).mem i o ≠ none → s.own o = .list i := by
    intro i o hne
    by_cases hi : s.holds p i = none
    · exact absurd (congrFun (if_pos hi) o) hne
    · rw [view_mem hi, part] at hne
      by_contra hown
      exact hne (if_neg hown)
  constructor
  case head => exact fun hi => if_pos hi
  case mem => exact fun hi => if_pos hi
  case idxlen => exact fun h => if_pos h
  case datlen => exact fun h => if_pos h
  case apart =>
      intro i j o hi hj
      exact Owner.list.inj ((hmem hi).symm.trans (hmem hj))
  case hand =>
      intro i o hi
      refine if_neg ?_
      rw [hmem hi]
      intro h
      cases h

theorem Does.wellFormed {prog : P α} {post : α → View → Prop}
    (hprog : v.WellFormed → Does p call v prog post) : Does p call v prog post := by
  rintro s rfl
  exact hprog (s.view_wellFormed p) s rfl

/-- A handle with which a process can read, and write where it likes. -/
structure DB.Able (db : DB) : Prop where
  readable : db.readable = true
  writable : db.writable = true
  append : db.append = false

theorem DB.Able.same {db db' : DB} (hable : db.Able) (hsame : DB.Same db db') : db'.Able where
  readable := hsame.readable.trans hable.readable
  writable := hsame.writable.trans hable.writable
  append := hsame.append.trans hable.append

theorem DB.Able.mayStop {db : DB} (hable : db.Able) (hreadable : db.readable = false) :
    v.MayStop call :=
  nomatch hreadable.symm.trans hable.readable

theorem does_write {db : DB} (hable : db.Able) {file : FileId} {pos : Nat} {bytes : List Byte}
    {post : Bool → View → Prop} (hop : Makes p call v (.write file pos bytes) post) :
    Does p call v (db.write file pos bytes) fun a v' => post a.isSome v' := by
  rw [DB.write, if_neg (not_not_intro hable.writable), if_neg (by rw [hable.append]; decide)]
  apply Does.sys hop
  intro (done : Bool) v' hpost
  cases done with
  | true | false => exact .ret hpost

/-- A pointer in front of the records is written. -/
theorem does_writeHead {db : DB} (hable : db.Able) {i : Slot} {n : Nat}
    (hlabel : v.Relabel u) (hlock : u.lock i = some .write)
    (hstop : ¬ (n : Int) ≤ PTR_MAX → v.MayStop call) :
    Does p call v (_db_writeptr db (i.off : Nat) n) fun db' v' =>
      v' = { u with head := update u.head i n } ∧ ∃ pos, db' = { db with idxpos := pos } := by
  rw [_db_writeptr]
  split
  · exact .stop (by simp) (hstop (by omega))
  · rename_i hn
    have hle : (n : Int) ≤ PTR_MAX := by omega
    rw [if_neg (by omega), Int.toNat_natCast]
    apply (does_write hable (makes_head hlabel hlock hle)).bind
    rintro (_ | pos) v' ⟨hdone, hv'⟩
    · cases hdone
    · exact .ret ⟨hv', pos, rfl⟩

/-- The pointer of a record is written. -/
theorem does_writePtr {db : DB} (hable : db.Able) {o n : Nat} {r : Rec}
    (hlabel : v.Relabel u) (hset : u.SetRec o r (r.setPtr n) v') (hn : (n : Int) ≤ PTR_MAX) :
    Does p call v (_db_writeptr db (o : Nat) n) fun db' v₁ =>
      v₁ = v' ∧ ∃ pos, db' = { db with idxpos := pos } := by
  rw [_db_writeptr, if_neg (by omega), if_neg (by omega), Int.toNat_natCast]
  apply (does_write hable (makes_pointer hlabel hset hn)).bind
  rintro (_ | pos) v₁ ⟨hdone, hv₁⟩
  · cases hdone
  · exact .ret ⟨hv₁, pos, rfl⟩

/-- The data record of a record is written in its place. -/
theorem does_setData {db : DB} (hable : db.Able) {o : Nat} {r : Rec} {d : List Byte}
    (hlabel : v.Relabel u) (hset : u.SetRec o r (r.setData d) v')
    (hd : d.length = r.data.length) (hnul : 0 ∉ d) (hkind : u.DataKind o r d call) :
    Does p call v (_db_writedat db d r.datoff .set) fun db' v₁ =>
      v₁ = v' ∧ ∃ pos, db' = { db with datoff := r.datoff, datlen := r.datlen, datpos := pos } := by
  rw [_db_writedat, if_neg (by omega), Int.toNat_natCast, writeData]
  dsimp only
  apply (does_write ⟨hable.readable, hable.writable, hable.append⟩
    (makes_data hlabel hset hd hnul hkind)).bind
  rintro (_ | pos) v₁ ⟨hdone, hv₁⟩
  · cases hdone
  · refine .ret ⟨hv₁, pos, ?_⟩
    rw [Rec.datlen, hd]
    rfl

/-- A record of the same shape as one that fits. -/
theorem Rec.Fits.of_shape {r r' : Rec} (hfits : r.Fits) (hshape : r.SameShape r')
    (hptr : (r'.ptr : Int) ≤ PTR_MAX) (hnul : 0 ∉ r'.key) (hdatnul : 0 ∉ r'.data) : r'.Fits := by
  have hsize := hshape.size
  have hlength : r.text.length = r'.text.length := by
    rw [size, size] at hsize
    omega
  have hdatlen : r'.datlen = r.datlen := congrArg (· + 1) hshape.length.symm
  exact ⟨hptr, hnul, hlength ▸ hfits.low, hlength ▸ hfits.high, hdatlen ▸ hfits.datlen, hdatnul⟩

/-- An index record in the hand of the process is written in its place. -/
theorem does_setRecord {db : DB} (hable : db.Able) {o : Nat} {r r' : Rec}
    {key : List Byte} (hkey : r'.key = key) (hoff : db.datoff = r'.datoff)
    (hlen : db.datlen = r'.datlen) (hhand : v.hand o = some r) (hshape : r.SameShape r')
    (hfits : r'.Fits) (hdata : r'.data = r.data) (hkind : v.RecKind r r' call) :
    Does p call v (_db_writeidx db key o .set r'.ptr) fun db' v₁ =>
      v₁ = { v with hand := update v.hand o (some r') } ∧ ∃ pos,
        db' = { db with ptrval := r'.ptr, idxbuf := r'.text, idxoff := o, idxpos := pos } := by
  have htext : idxText key db.datoff db.datlen = r'.text := by
    rw [Rec.text, hkey, hoff, hlen]
  have hptr := hfits.ptr
  have hlow := hfits.low
  have hhigh := hfits.high
  rw [_db_writeidx]
  dsimp only
  rw [htext, if_neg (by omega), if_neg (by omega), if_neg (by omega), if_neg (by omega),
    Int.toNat_natCast, writeIndex]
  dsimp only
  apply (does_write ⟨hable.readable, hable.writable, hable.append⟩
    (makes_record hhand hshape hfits hdata hkind)).bind
  rintro (_ | pos) v₁ ⟨hdone, hv₁⟩
  · cases hdone
  · exact .ret ⟨hv₁, pos, rfl⟩

theorem ptrBehind_concat (ptroff : Int) (front : List Nat) (x : Nat) :
    ptrBehind ptroff (front ++ [x]) = x := by
  rw [ptrBehind, List.foldl_append, List.foldl_cons, List.foldl_nil]

/-- The pointer to a record that is taken out of its list is written. -/
theorem does_unlink {db : DB} (hable : db.Able) {i : Slot} {n o : Nat} {r : Rec}
    {mem : Nat → Option Rec} {front back : List Nat} (hpath : Path mem n (front ++ o :: back))
    (hlabel : v.Relabel u) (hlock : u.lock i = some .write)
    (hhead : u.head i = n) (hmem : u.mem i = update mem o none) (hptr : (r.ptr : Int) ≤ PTR_MAX) :
    Does p call v (_db_writeptr db (ptrBehind (i.off : Nat) front) r.ptr) fun db' v' =>
      ∃ head' mem', Unlinked n mem o r front head' mem' ∧
        v' = { u with head := update u.head i head', mem := update u.mem i mem' } ∧
        ∃ pos, db' = { db with idxpos := pos } := by
  rcases List.eq_nil_or_concat front with rfl | ⟨front, x, rfl⟩
  · apply (does_writeHead hable hlabel hlock (absurd hptr)).mono
    rintro db' v' ⟨rfl, hdb⟩
    refine ⟨r.ptr, _, .first, ?_, hdb⟩
    rw [← hmem, update_eq_self]
  · rw [List.concat_eq_append] at hpath ⊢
    have hx : ∃ rx, mem x = some rx ∧ x ≠ o := by
      rw [List.append_assoc] at hpath
      obtain ⟨-, -, rx, hrx, hrest⟩ := hpath.suffix
      have hnodup := (List.nodup_cons.mp hpath.suffix.nodup).1
      refine ⟨rx, hrx, ?_⟩
      rintro rfl
      exact hnodup List.mem_cons_self
    obtain ⟨rx, hrx, hne⟩ := hx
    have hmemx : u.mem i x = some rx := by
      rw [hmem, update_of_ne hne, hrx]
    rw [ptrBehind_concat]
    apply (does_writePtr hable hlabel (.list hlock hmemx) hptr).mono
    rintro db' v' ⟨rfl, hdb⟩
    refine ⟨n, _, .behind hrx hne, ?_, hdb⟩
    rw [hmem, ← hhead, update_eq_self]

theorem does_writew_lock {db : DB} (hable : db.Able) {range : Range} {message : String}
    {post : View → Prop} (hop : Makes p call v (.lockw .write range) fun _ v' => post v') :
    Does p call v (writew_lock db range message) fun _ v' => post v' := by
  rw [writew_lock, if_pos hable.writable]
  exact .sys hop fun _ _ h => .ret h

theorem does_un_lock {range : Range} {post : View → Prop}
    (hop : Makes p call v (.unlock range) fun _ v' => post v') :
    Does p call v (un_lock range) fun _ v' => post v' :=
  .sys hop fun _ _ h => .ret h

/-- The views agree on all but the lists and the hand. -/
structure View.Frame (v w : View) : Prop where
  lock : w.lock = v.lock
  tail : w.tail = v.tail
  dat : w.dat = v.dat
  spare : w.spare = v.spare
  map : w.map = v.map
  idxlen : w.idxlen = v.idxlen
  datlen : w.datlen = v.datlen

theorem View.Frame.refl (v : View) : v.Frame v := ⟨rfl, rfl, rfl, rfl, rfl, rfl, rfl⟩

theorem View.Frame.trans (h : v.Frame u) (h' : u.Frame v') : v.Frame v' :=
  ⟨h'.lock.trans h.lock, h'.tail.trans h.tail, h'.dat.trans h.dat, h'.spare.trans h.spare,
    h'.map.trans h.map, h'.idxlen.trans h.idxlen, h'.datlen.trans h.datlen⟩

/-- The free list is locked and given back, with other lists and the hand changed in
between. -/
theorem unlockFree_eq (hfree : v.lock freeSlot = none) {fhead : Nat} {fmem : Nat → Option Rec}
    {map : List Byte → Option (List Byte)} {w : View}
    (hframe : (v.lockSlot freeSlot .write fhead fmem map).Frame w) {head : Slot → Nat}
    {mem : Slot → Nat → Option Rec} (hhead : update w.head freeSlot 0 = head)
    (hmem : update w.mem freeSlot (fun _ => none) = mem) :
    w.unlockSlot freeSlot = { v with head := head, mem := mem, hand := w.hand } := by
  have hmap : (fun key => if slotOf key = freeSlot then none else w.map key) = v.map := by
    funext key
    rw [if_neg (slotOf_ne_free key), hframe.map]
    exact @if_neg _ _ (slotOf_ne_free key) _ (map key) _
  have hlock : update w.lock freeSlot none = v.lock := by
    rw [hframe.lock, View.lockSlot_lock, update_idem, ← hfree, update_eq_self]
  rw [View.unlockSlot, hlock, hframe.tail, hframe.dat, hhead, hmem, hframe.spare, hframe.idxlen,
    hframe.datlen, hmap]
  rfl

/-- The record that `_db_dodelete` leaves on the free list. -/
def Rec.wipe (r : Rec) (freeptr : Nat) : Rec where
  ptr := freeptr
  key := List.replicate r.key.length SPACE
  datoff := r.datoff
  data := List.replicate r.data.length SPACE

theorem Rec.blank_wipe (r : Rec) (freeptr : Nat) : Blank (r.wipe freeptr).key :=
  fun _ h => List.eq_of_mem_replicate h

theorem not_mem_spaces (n : Nat) {c : Byte} (hc : c ≠ SPACE) : c ∉ List.replicate n SPACE :=
  fun h => hc (List.eq_of_mem_replicate h)

theorem Rec.datlen_wipe (r : Rec) (freeptr : Nat) : (r.wipe freeptr).datlen = r.datlen :=
  congrArg (· + 1) List.length_replicate

theorem Rec.sameShape_wipe (r : Rec) (freeptr : Nat) :
    SameShape (r.setData (List.replicate r.data.length SPACE)) (r.wipe freeptr) := by
  refine ⟨?_, rfl, rfl⟩
  simp only [size, text, idxText, datlen, wipe, setData, List.length_append,
    List.length_replicate]

/-- What `_db_dodelete` starts from behind its first lines: the buffers are blank. -/
structure DB.Wiping (db : DB) (o : Nat) (r : Rec) (ptroff chainoff : Int) : Prop where
  able : db.Able
  idxbuf : db.idxbuf = List.replicate r.key.length SPACE
  datbuf : db.datbuf = List.replicate r.data.length SPACE
  idxoff : db.idxoff = o
  datoff : db.datoff = r.datoff
  ptrval : db.ptrval = r.ptr
  ptroff : db.ptroff = ptroff
  chainoff : db.chainoff = chainoff

/-- The record `r` at `o` of the chain `c` goes to the free list. -/
theorem does_dodelete {db : DB} (hable : db.Able) {c : Slot} (hc : c ≠ freeSlot)
    (hlock : v.lock c = some .write) (hfree : v.lock freeSlot = none)
    (hhand : v.hand = fun _ => none) {front back : List Nat} {o : Nat} {r : Rec}
    (hpath : Path (v.mem c) (v.head c) (front ++ o :: back)) (hmem : v.mem c o = some r)
    (hle : (o : Int) ≤ PTR_MAX) (hfits : r.Fits) (hon : db.OnRec o r)
    (hptroff : db.ptroff = ptrBehind (c.off : Nat) front)
    (hcall : call = .delete r.key ∨
      ∃ data flag, call = .store r.key data flag ∧ r.data.length ≠ data.length) :
    Does p call v (_db_dodelete db) fun db' v' =>
      ∃ head' mem', Unlinked (v.head c) (v.mem c) o r front head' mem' ∧
        v' = { v with head := update v.head c head', mem := update v.mem c mem' } ∧
        db'.Able ∧ db'.chainoff = db.chainoff := by
  have ho : o ≠ 0 := hpath.ne_zero o (List.mem_append_right _ List.mem_cons_self)
  have hblanks : (r.datlen : Int) - 1 = r.data.length := by
    rw [Rec.datlen]
    omega
  apply Does.wellFormed
  intro hwf
  rw [_db_dodelete]
  dsimp only
  generalize hdb₁ : ({ db with
    datbuf := List.replicate (db.datlen - 1).toNat SPACE
    idxbuf := List.replicate db.idxbuf.length SPACE } : DB) = db₁
  have hwiping : db₁.Wiping o r (ptrBehind (c.off : Nat) front) db.chainoff := by
    subst hdb₁
    rw [hon.datlen, hblanks, Int.toNat_natCast, hon.idxbuf]
    exact ⟨⟨hable.readable, hable.writable, hable.append⟩, rfl, rfl, hon.idxoff, hon.datoff,
      hon.ptrval, hptroff, rfl⟩
  rw [hon.datlen, hblanks, Int.toNat_natCast, hon.datoff]
  clear hdb₁
  apply (does_writew_lock hwiping.able (makes_lockSlot hfree .write)).bind
  rintro ⟨⟩ _ ⟨fhead, fmem, map, offs, hlists, -, rfl⟩
  apply Does.wellFormed
  intro hwf₁
  have hfmem : fmem o = none := by
    by_contra hne
    apply hc
    apply hwf₁.apart
    · rw [View.lockSlot_mem, update_of_ne hc, hmem]
      exact Option.some_ne_none r
    · rw [View.lockSlot_mem, update_self]
      exact hne
  obtain ⟨u, hu⟩ : ∃ u, u = (v.lockSlot freeSlot .write fhead fmem map).take c o r := ⟨_, rfl⟩
  have htake : (v.lockSlot freeSlot .write fhead fmem map).Relabel u := by
    rw [hu]
    apply View.Relabel.take
    · rwa [View.lockSlot_mem, update_of_ne hc]
    · rwa [View.lockSlot_lock, update_of_ne hc]
  have hu_hands : u.hand = update v.hand o (some r) := hu ▸ rfl
  have hu_hand : u.hand o = some r := by
    rw [hu_hands, update_self]
  have hu_lock : u.lock = update v.lock freeSlot (some .write) := hu ▸ rfl
  have hu_free : u.lock freeSlot = some .write := by
    rw [hu_lock, update_self]
  have hu_head : u.head = update v.head freeSlot fhead := hu ▸ rfl
  have hu_mem : u.mem = update (update v.mem freeSlot fmem) c (update (v.mem c) o none) := by
    rw [hu, View.take, View.lockSlot_mem, update_of_ne hc]
  have hu_frame : (v.lockSlot freeSlot .write fhead fmem map).Frame u :=
    hu ▸ ⟨rfl, rfl, rfl, rfl, rfl, rfl, rfl⟩
  clear hu
  refine Does.bind (does_setData hwiping.able htake (.hand hu_hand)
    List.length_replicate (not_mem_spaces _ (by decide))
    (.blank hu_hand hu_free (by rwa [List.length_replicate]))) ?_
  rintro db₂ v₂ ⟨hv₂, pos₂, hdb₂⟩
  have hv₂_hands : v₂.hand = update v.hand o
      (some (r.setData (List.replicate r.data.length SPACE))) := by
    rw [hv₂, hu_hands, update_idem]
  have hv₂_hand : v₂.hand o = some (r.setData (List.replicate r.data.length SPACE)) := by
    rw [hv₂_hands, update_self]
  have hable₂ : db₂.Able := by
    rw [hdb₂]
    exact ⟨hwiping.able.readable, hwiping.able.writable, hwiping.able.append⟩
  have hv₂_head : v₂.head freeSlot = fhead := by
    rw [hv₂, hu_head, update_self]
  have hv₂_free : v₂.lock freeSlot = some .write := by
    rw [hv₂]
    exact hu_free
  refine Does.bind (@does_readptr _ _ p call v₂ db₂ freeSlot ?_ hable₂.mayStop) ?_
  · rw [hv₂_free]
    exact Option.some_ne_none _
  rintro ⟨freeptr, db₃⟩ v₃ ⟨heq, -, hfhead, hv₃⟩
  obtain ⟨rfl, hdb₃⟩ := Prod.mk.inj heq
  rw [hv₂_head] at hfhead
  have hwiping₃ : db₃.Wiping o r (ptrBehind (c.off : Nat) front) db.chainoff := by
    rw [hdb₃, hdb₂]
    exact ⟨⟨hwiping.able.readable, hwiping.able.writable, hwiping.able.append⟩, hwiping.idxbuf,
      hwiping.datbuf, hwiping.idxoff, rfl, hwiping.ptrval, hwiping.ptroff, hwiping.chainoff⟩
  have hdatlen : db₃.datlen = (r.wipe fhead).datlen := by
    rw [Rec.datlen_wipe, hdb₃, hdb₂]
  dsimp only
  rw [hwiping₃.idxbuf, hwiping₃.idxoff, hwiping₃.ptrval, hv₂_head, hv₃]
  refine Does.bind (@does_setRecord _ _ p call v₂ db₃ hwiping₃.able o _ (r.wipe fhead) _ rfl
    hwiping₃.datoff hdatlen hv₂_hand (r.sameShape_wipe fhead) ?_ rfl ?_) ?_
  · exact Rec.Fits.of_shape (hfits.setData List.length_replicate (not_mem_spaces _ (by decide)))
      (r.sameShape_wipe fhead) hfhead (not_mem_spaces _ (by decide)) (not_mem_spaces _ (by decide))
  · refine .blank hv₂_free (r.blank_wipe fhead) ?_
    refine hcall.imp_right ?_
    rintro ⟨data, flag, hcall, -⟩
    exact ⟨data, flag, hcall⟩
  rintro db₄ v₄ ⟨hv₄, pos₄, hdb₄⟩
  have hdb₄_idxoff : db₄.idxoff = o := hdb₄ ▸ rfl
  rw [hdb₄_idxoff]
  refine Does.bind (@does_writeHead _ _ p call v₄ v₄ db₄ ?_ freeSlot o .refl ?_ (absurd hle)) ?_
  · rw [hdb₄]
    exact ⟨hwiping₃.able.readable, hwiping₃.able.writable, hwiping₃.able.append⟩
  · rw [hv₄]
    exact hv₂_free
  rintro db₅ v₅ ⟨hv₅, pos₅, hdb₅⟩
  have hable₅ : db₅.Able := by
    rw [hdb₅, hdb₄]
    exact ⟨hwiping₃.able.readable, hwiping₃.able.writable, hwiping₃.able.append⟩
  have hdb₅_ptroff : db₅.ptroff = ptrBehind (c.off : Nat) front := by
    rw [hdb₅, hdb₄]
    exact hwiping₃.ptroff
  have hv₅_frame : (v.lockSlot freeSlot .write fhead fmem map).Frame v₅ := by
    rw [hv₅, hv₄, hv₂]
    exact ⟨hu_frame.lock, hu_frame.tail, hu_frame.dat, hu_frame.spare, hu_frame.map,
      hu_frame.idxlen, hu_frame.datlen⟩
  have hv₅_lock : v₅.lock = update v.lock freeSlot (some .write) := hv₅_frame.lock
  have hv₅_hands : v₅.hand = update v.hand o (some (r.wipe fhead)) := by
    rw [hv₅, hv₄, hv₂_hands, update_idem]
  have hv₄_head : v₄.head = update v.head freeSlot fhead := by
    rw [hv₄, hv₂]
    exact hu_head
  have hv₅_head : v₅.head = update v.head freeSlot o := by
    rw [hv₅, hv₄_head]
    exact update_idem fhead o v.head
  have hv₅_mem : v₅.mem = update (update v.mem freeSlot fmem) c (update (v.mem c) o none) := by
    rw [hv₅, hv₄, hv₂]
    exact hu_mem
  have hgive : v₅.Relabel (v₅.give freeSlot o (r.wipe fhead)) := by
    apply View.Relabel.give
    · rw [hv₅_hands, update_self]
    · rw [hv₅_lock, update_self]
    · rw [if_pos rfl]
      exact r.blank_wipe fhead
  rw [hdb₅_ptroff]
  refine Does.bind (does_unlink hable₅ hpath hgive ?_ ?_ ?_ hfits.ptr) ?_
  · exact (congrFun hv₅_lock c).trans ((update_of_ne hc _ _).trans hlock)
  · exact (congrFun hv₅_head c).trans (update_of_ne hc _ _)
  · rw [View.give, hv₅_mem]
    exact (update_of_ne hc _ _).trans (update_self c _ _)
  rintro db₆ v₆ ⟨head', mem', hunlinked, hv₆, pos₆, hdb₆⟩
  have hv₆_frame : (v.lockSlot freeSlot .write fhead fmem map).Frame v₆ := by
    rw [hv₆]
    exact ⟨hv₅_frame.lock, hv₅_frame.tail, hv₅_frame.dat, hv₅_frame.spare, hv₅_frame.map,
      hv₅_frame.idxlen, hv₅_frame.datlen⟩
  have hv₆_head : v₆.head = update (update v.head freeSlot o) c head' := by
    rw [hv₆, ← hv₅_head]
    rfl
  have hv₆_mem : v₆.mem =
      update (update v.mem freeSlot (update fmem o (some (r.wipe fhead)))) c mem' := by
    rw [hv₆, View.give, hv₅_mem, update_of_ne hc.symm, update_self, update_comm hc, update_idem,
      update_idem]
  have hv₆_hand : v₆.hand = v.hand := by
    rw [hv₆, View.give, hv₅_hands, update_idem, hhand]
    exact update_eq_self o (fun _ => none)
  have hlists₆ : Lists freeSlot (v₆.head freeSlot) (v₆.mem freeSlot) v₆.map (o :: offs) := by
    rw [hv₆_head, hv₆_mem, update_of_ne hc.symm, update_of_ne hc.symm, update_self, update_self]
    exact hlists.cons hfmem ho rfl (fun _ => r.blank_wipe fhead) (absurd rfl) (absurd rfl)
      fun key hkey => absurd hkey (slotOf_ne_free key)
  refine Does.bind (does_un_lock (makes_unlockFree ?_ hlists₆ ?_)) ?_
  · rw [hv₆_frame.lock, View.lockSlot_lock, update_self]
  · rw [hv₆_hand, hhand]
    intro o' r' h
    cases h
  rintro ⟨⟩ v₇ hv₇
  refine .ret ⟨head', mem', hunlinked, ?_, ?_, ?_⟩
  · have hhead : update v₆.head freeSlot 0 = update v.head c head' := by
      rw [hv₆_head, update_comm hc, update_idem, ← hwf.head hfree, update_eq_self]
    have hmem : update v₆.mem freeSlot (fun _ => none) = update v.mem c mem' := by
      rw [hv₆_mem, update_comm hc, update_idem, ← hwf.mem hfree, update_eq_self]
    rw [hv₇, unlockFree_eq hfree hv₆_frame hhead hmem, hv₆_hand]
  · rw [hdb₆]
    exact ⟨hable₅.readable, hable₅.writable, hable₅.append⟩
  · rw [hdb₆, hdb₅, hdb₄]
    exact hwiping₃.chainoff

/-- A record of the free list with the lengths that are asked for goes to the hand of the
process, if there is one. -/
theorem does_findfree {db : DB} (hable : db.Able) {fuel : Nat}
    (hfuel : PTR_MAX < fuel) {keylen datlen : Int} (hfree : v.lock freeSlot = none)
    (hhand : v.hand = fun _ => none) (hgiven : v.Given v.map) :
    Does p call v (_db_findfree fuel db keylen datlen) fun a v' =>
      DB.Same db a.2 ∧ (a.1 = -1 ∧ v' = v ∨
        a.1 = 0 ∧ ∃ o r, v' = { v with hand := update v.hand o (some r) } ∧ o ≠ 0 ∧
          (o : Int) ≤ PTR_MAX ∧ a.2.OnRec o r ∧ r.Fits ∧ Blank r.key ∧ (r.key.length : Int) = keylen ∧
          (r.datlen : Int) = datlen) := by
  apply Does.wellFormed
  intro hwf
  rw [_db_findfree]
  refine Does.bind (does_writew_lock hable (makes_lockSlot hfree .write)) ?_
  rintro ⟨⟩ v₁ ⟨fhead, fmem, map, offs, hlists, hreached, hv₁⟩
  have hlength := hreached.length
  have hstop : v₁.MayStop call := .inl (hv₁ ▸ hgiven.lockSlot hlists)
  have hv₁_free : v₁.lock freeSlot = some .write := by
    rw [hv₁, View.lockSlot_lock, update_self]
  have hv₁_head : v₁.head = update v.head freeSlot fhead := hv₁ ▸ rfl
  have hv₁_mem : v₁.mem = update v.mem freeSlot fmem := hv₁ ▸ rfl
  have hv₁_mem_free : v₁.mem freeSlot = fmem := by
    rw [hv₁_mem, update_self]
  have hframe : (v.lockSlot freeSlot .write fhead fmem map).Frame v₁ := by
    rw [hv₁]
    exact .refl _
  have hlocked : v₁.lock freeSlot ≠ none := by
    rw [hv₁_free]
    exact Option.some_ne_none _
  refine Does.bind (@does_readptr _ _ p call v₁ db freeSlot hlocked hable.mayStop) ?_
  rintro ⟨offset, db₂⟩ v₂ ⟨heq, -, hfhead, hv₂⟩
  obtain ⟨rfl, hdb₂⟩ := Prod.mk.inj heq
  have hsame₂ : DB.Same db db₂ := hdb₂ ▸ ⟨rfl, rfl, rfl, rfl, rfl⟩
  dsimp only
  rw [hv₂, hv₁_head, update_self]
  have hpath : Path (v₁.mem freeSlot) fhead offs := by
    rw [hv₁_mem_free]
    exact hlists.path
  refine Does.bind (does_findfreeLoop hlocked hpath (by omega) hstop) ?_
  rintro ⟨offset, saveoffset, db₃⟩ v₃ ⟨hv₃, hsame₃, hresult⟩
  dsimp only at hsame₃ hresult ⊢
  have hsame : DB.Same db db₃ := hsame₂.trans hsame₃
  rw [hv₁_mem_free] at hresult
  rcases hresult with hzero | ⟨front, o, back, r, hfound, hoffset, ho, hkeylen, hdatlen, hon, hsave⟩
  · have hlists₁ : Lists freeSlot (v₁.head freeSlot) (v₁.mem freeSlot) v₁.map offs := by
      rw [hv₁_head, update_self, hv₁_mem_free]
      exact hlists.congr_map fun key hkey => absurd hkey (slotOf_ne_free key)
    have hv₁_hand : ∀ o r, v₁.hand o = some r → Blank r.key := by
      rw [hv₁]
      exact fun o r hr => nomatch (congrFun hhand o).symm.trans hr
    rw [if_pos hzero, hv₃]
    refine Does.bind (does_un_lock (makes_unlockFree hv₁_free hlists₁ hv₁_hand)) ?_
    rintro ⟨⟩ v₄ hv₄
    refine .ret ⟨hsame, .inl ⟨rfl, ?_⟩⟩
    have hhead : update v₁.head freeSlot 0 = v.head := by
      rw [hv₁_head, update_idem, ← hwf.head hfree, update_eq_self]
    have hmem : update v₁.mem freeSlot (fun _ => none) = v.mem := by
      rw [hv₁_mem, update_idem, ← hwf.mem hfree, update_eq_self]
    rw [hv₄, unlockFree_eq hfree hframe hhead hmem, hv₁]
    rfl
  · rw [if_neg (by omega), hon.ptrval, hsave, hv₃]
    have htake : v₁.Relabel (v₁.take freeSlot o r) :=
      .take (by rw [hv₁_mem_free, hfound.mem]) hv₁_free
    refine Does.bind (does_unlink (hable.same hsame) (hfound.offs ▸ hlists.path) htake hv₁_free
      ?_ ?_ hfound.fits.ptr) ?_
    · exact (congrFun hv₁_head freeSlot).trans (update_self ..)
    · rw [View.take, hv₁_mem_free]
      exact update_self freeSlot (update fmem o none) v₁.mem
    rintro db₄ v₄ ⟨head', mem', hunlinked, hv₄, pos₄, hdb₄⟩
    have hv₄_frame : (v.lockSlot freeSlot .write fhead fmem map).Frame v₄ := by
      rw [hv₄]
      exact ⟨hframe.lock, hframe.tail, hframe.dat, hframe.spare, hframe.map, hframe.idxlen,
        hframe.datlen⟩
    have hv₄_head : v₄.head = update v.head freeSlot head' := by
      rw [hv₄, View.take, hv₁_head, update_idem]
    have hv₄_mem : v₄.mem = update v.mem freeSlot mem' := by
      rw [hv₄, View.take, hv₁_mem, update_idem, update_idem]
    have hv₄_hand : v₄.hand = update v.hand o (some r) := by
      rw [hv₄, View.take, hv₁]
      rfl
    have hblank : Blank r.key := hlists.blank rfl hfound.mem
    have hlists₄ : Lists freeSlot (v₄.head freeSlot) (v₄.mem freeSlot) v₄.map (front ++ back) := by
      rw [hv₄_head, hv₄_mem, update_self, update_self]
      exact (hfound.offs ▸ hlists).unlink hfound.mem hunlinked
        fun key hkey => absurd hkey (slotOf_ne_free key)
    refine Does.bind (does_un_lock (makes_unlockFree ?_ hlists₄ ?_)) ?_
    · rw [hv₄_frame.lock, View.lockSlot_lock, update_self]
    · intro o' r' hr'
      rw [hv₄_hand, hhand] at hr'
      rcases eq_or_ne o' o with rfl | hne
      · rw [update_self] at hr'
        cases hr'
        exact hblank
      · rw [update_of_ne hne] at hr'
        cases hr'
    rintro ⟨⟩ v₅ hv₅
    have hsame₄ : DB.Same db₃ db₄ := hdb₄ ▸ ⟨rfl, rfl, rfl, rfl, rfl⟩
    have hle : (o : Int) ≤ PTR_MAX := by
      apply hreached.le
      rw [hfound.offs]
      exact List.mem_append_right _ List.mem_cons_self
    refine .ret ⟨hsame.trans hsame₄, .inr ⟨rfl, o, r, ?_, ho, hle, ?_, hfound.fits, hblank,
      hkeylen, hdatlen⟩⟩
    · have hhead : update v₄.head freeSlot 0 = v.head := by
        rw [hv₄_head, update_idem, ← hwf.head hfree, update_eq_self]
      have hmem : update v₄.mem freeSlot (fun _ => none) = v.mem := by
        rw [hv₄_mem, update_idem, ← hwf.mem hfree, update_eq_self]
      rw [hv₅, unlockFree_eq hfree hv₄_frame hhead hmem, hv₄_hand]
    · rw [hdb₄]
      exact ⟨hon.idxoff, hon.ptrval, hon.idxbuf, hon.datoff, hon.datlen⟩

end ApueCourse.Db
