import ApueCourse.Db.Rules

/-! What the functions that read find: pointers, records, and the record of a key. -/

namespace ApueCourse.Db

open Memory Function Program

theorem atolField_eq {field : List Byte} {n : Int} (hatol : atol (field ++ [0]) = some n) :
    atolField field = .ret n := by
  rw [atolField, hatol]

theorem atolField_width {n : Nat} (hn : (n : Int) ≤ LONG_MAX) (width : Nat) :
    atolField (sprintfWidth width n) = .ret n :=
  atolField_eq (atol_sprintfWidth hn width (by decide) [])

theorem atolField_long {n : Nat} (hn : (n : Int) ≤ LONG_MAX) :
    atolField (sprintfLong n) = .ret n :=
  atolField_eq (atol_decimal hn 0 (by decide) [])

theorem strchr_append {front : List Byte} (hfront : SEP ∉ front) (back : List Byte) :
    strchr (front ++ SEP :: back) = some (front, back) := by
  induction front with
  | nil => exact if_pos rfl
  | cons c front ih =>
      have hc := List.ne_of_not_mem_cons hfront
      rw [List.cons_append, strchr, if_neg hc.symm, ih (List.not_mem_of_not_mem_cons hfront),
        Option.map_some]

theorem not_mem_sprintfLong (n : Nat) {c : Byte} (hc : ¬ isDigit c) :
    c ∉ sprintfLong (n : Int) :=
  fun h => hc (isDigit_of_mem_decimal h)

theorem exists_strchr {back : List Byte} (hback : SEP ∈ back) (front : List Byte) :
    ∃ front' back', strchr (front ++ SEP :: back) = some (front', back') ∧ SEP ∈ back' := by
  by_cases hfront : SEP ∈ front
  · obtain ⟨as, bs, rfl, has⟩ := List.eq_append_cons_of_mem hfront
    refine ⟨as, bs ++ SEP :: back, ?_, List.mem_append_right _ List.mem_cons_self⟩
    rw [List.append_assoc, List.cons_append, strchr_append has]
  · exact ⟨front, back, strchr_append hfront back, hback⟩

/-- The fields of an index record behind its length, with what is between them. -/
def Rec.fields (r : Rec) : List Byte :=
  r.key ++ SEP :: (sprintfLong r.datoff ++ SEP :: sprintfLong r.datlen)

theorem Rec.text_eq (r : Rec) : r.text = r.fields ++ [NEWLINE] := by
  simp only [text, idxText, fields, List.append_assoc, List.cons_append, List.nil_append]

theorem Rec.takeWhile_text {r : Rec} (hnul : 0 ∉ r.key) :
    r.text.dropLast.takeWhile (· ≠ 0) = r.fields := by
  rw [text_eq, List.dropLast_concat, List.takeWhile_eq_self_iff]
  intro c hc
  rw [decide_eq_true_iff]
  rintro rfl
  simp only [fields, List.mem_append, List.mem_cons] at hc
  rcases hc with hkey | hsep | hdatoff | hsep | hdatlen
  · exact hnul hkey
  · cases hsep
  · exact not_mem_sprintfLong r.datoff (by decide) hdatoff
  · cases hsep
  · exact not_mem_sprintfLong r.datlen (by decide) hdatlen

/-- The text of an index record is read as what it was written for. -/
theorem parseIdx_text (db : DB) {r : Rec} (hfits : r.Fits) (hsep : SEP ∉ r.key)
    (hoff : (r.datoff : Int) ≤ LONG_MAX) :
    parseIdx db r.text =
      .ret { db with idxbuf := r.key, datoff := r.datoff, datlen := r.datlen } := by
  have hlen : (r.datlen : Int) ≤ LONG_MAX := hfits.datlen.trans (by decide)
  have hpos : ¬ ((r.datlen : Int) ≤ 0 ∨ (r.datlen : Int) > DATLEN_MAX) := by
    have hle := hfits.datlen
    rw [Rec.datlen] at hle ⊢
    omega
  rw [parseIdx, Rec.takeWhile_text hfits.nul, Rec.text_eq, List.getLast?_concat,
    if_neg (by simp), Rec.fields]
  dsimp only
  rw [strchr_append hsep]
  dsimp only
  rw [strchr_append (not_mem_sprintfLong r.datoff (by decide))]
  dsimp only
  rw [if_neg (not_mem_sprintfLong r.datlen (by decide)), atolField_long hoff]
  simp only [Prog.ret_bind]
  rw [if_neg (by omega), atolField_long hlen]
  simp only [Prog.ret_bind]
  rw [if_neg hpos]
  rfl

/-- A key with a `SEP` in it makes a field too many. -/
theorem parseIdx_sep (db : DB) {r : Rec} (hnul : 0 ∉ r.key) (hsep : SEP ∈ r.key) :
    parseIdx db r.text = .stop (.err_dump "_db_readidx: too many separators") := by
  obtain ⟨front, back, hkey, hfront⟩ := List.eq_append_cons_of_mem hsep
  obtain ⟨front', back', hstrchr, hback'⟩ := exists_strchr
    (List.mem_append_right (sprintfLong r.datoff) List.mem_cons_self) back
  rw [parseIdx, Rec.takeWhile_text hnul, Rec.text_eq, List.getLast?_concat, if_neg (by simp),
    Rec.fields, hkey, List.append_assoc, List.cons_append]
  dsimp only
  rw [strchr_append hfront]
  dsimp only
  rw [hstrchr]
  exact if_pos hback'

variable {Pid : Type} [DecidableEq Pid] {p : Pid} {call : Call} {v : View}

theorem does_read {db : DB} {file : FileId} {pos n : Nat} {post : List Byte → View → Prop}
    (hop : Makes p call v (.read file pos n) post) :
    Does p call v (db.read file pos n) fun a v' =>
      match a with
      | none => db.readable = false ∧ v' = v
      | some bytes => db.readable = true ∧ post bytes v' := by
  rw [DB.read]
  split
  · rename_i hreadable
    exact Does.sys hop fun bytes v' hpost => .ret ⟨hreadable, hpost⟩
  · rename_i hreadable
    exact .ret ⟨eq_false_of_ne_true hreadable, rfl⟩

theorem does_readptr {db : DB} {i : Slot} (hlock : v.lock i ≠ none)
    (hstop : db.readable = false → v.MayStop call) :
    Does p call v (_db_readptr db (i.off : Nat)) fun a v' =>
      a = ((v.head i : Int), { db with idxpos := i.off + PTR_SZ }) ∧ db.readable = true ∧
        (v.head i : Int) ≤ PTR_MAX ∧ v' = v := by
  rw [_db_readptr, if_neg (by omega)]
  apply (does_read (makes_readPtr hlock)).bind
  rintro (_ | asciiptr) v' ⟨hreadable, hread⟩
  · exact .stop nofun (hread ▸ hstop hreadable)
  · obtain ⟨rfl, hle, rfl⟩ := hread
    have hlong : (v'.head i : Int) ≤ LONG_MAX := hle.trans (by decide)
    dsimp only
    rw [if_neg (by rw [Layout.length_sprintfWidth_ptr hle]; exact fun h => h rfl),
      atolField_width hlong]
    exact .ret ⟨rfl, hreadable, hle, rfl⟩

/-- The fields that `_db_readidx` sets. -/
structure DB.OnRec (db : DB) (o : Nat) (r : Rec) : Prop where
  idxoff : db.idxoff = o
  ptrval : db.ptrval = r.ptr
  idxbuf : db.idxbuf = r.key
  datoff : db.datoff = r.datoff
  datlen : db.datlen = r.datlen

/-- The fields that it leaves alone. -/
structure DB.Same (db db' : DB) : Prop where
  readable : db'.readable = db.readable
  writable : db'.writable = db.writable
  append : db'.append = db.append
  chainoff : db'.chainoff = db.chainoff
  ptroff : db'.ptroff = db.ptroff

theorem DB.Same.trans {db db' db'' : DB} (h : DB.Same db db') (h' : DB.Same db' db'') :
    DB.Same db db'' :=
  ⟨h'.readable.trans h.readable, h'.writable.trans h.writable, h'.append.trans h.append,
    h'.chainoff.trans h.chainoff, h'.ptroff.trans h.ptroff⟩

/-- A record that is known. -/
theorem does_readidx {db : DB} {o : Nat} {r : Rec} (hknows : v.Knows o r) (ho : o ≠ 0)
    (hstop : ¬ (db.readable = true ∧ SEP ∉ r.key) → v.MayStop call) :
    Does p call v (_db_readidx db o) fun a v' =>
      a.1 = r.ptr ∧ a.2.OnRec o r ∧ DB.Same db a.2 ∧ r.Fits ∧ SEP ∉ r.key ∧ v' = v := by
  have hnoread : db.readable = false → v.MayStop call :=
    fun hreadable => hstop fun h => absurd (hreadable.symm.trans h.1) nofun
  rw [_db_readidx, if_neg (by omega)]
  simp only [Int.natCast_eq_zero, ho, if_false, Int.toNat_natCast]
  rw [readRecord]
  apply (does_read (makes_readHead hknows)).bind
  rintro (_ | head) v' ⟨hreadable, hread⟩
  · exact .stop nofun (hread ▸ hnoread hreadable)
  · obtain ⟨rfl, hfits, hoff, rfl⟩ := hread
    have hptr : (r.ptr : Int) ≤ LONG_MAX := hfits.ptr.trans (by decide)
    have hlen : (r.text.length : Int) ≤ LONG_MAX := hfits.high.trans (by decide)
    have hwidth := Layout.length_sprintfWidth_ptr hfits.ptr
    have htake : r.head.take PTR_SZ = sprintfWidth PTR_SZ r.ptr := List.take_left' hwidth
    have hdrop : r.head.drop PTR_SZ = sprintfWidth IDXLEN_SZ r.text.length :=
      List.drop_left' hwidth
    dsimp only
    rw [if_neg (by rw [Rec.length_head hfits]; exact fun h => h rfl), htake, hdrop,
      atolField_width hptr, atolField_width hlen]
    simp only [Prog.ret_bind]
    have hlow := hfits.low
    have hhigh := hfits.high
    rw [if_neg (by omega)]
    apply (does_read (makes_readText hknows)).bind
    rintro (_ | record) v'' ⟨hreadable', hread'⟩
    · exact .stop nofun (hread' ▸ hnoread hreadable')
    · obtain ⟨rfl, rfl⟩ := hread'
      dsimp only
      rw [if_neg (fun h => h rfl)]
      by_cases hsep : SEP ∈ r.key
      · rw [parseIdx_sep _ hfits.nul hsep]
        exact .stop nofun (hstop fun h => h.2 hsep)
      · rw [parseIdx_text _ hfits hsep hoff]
        exact .ret ⟨rfl, ⟨rfl, rfl, rfl, rfl, rfl⟩, ⟨rfl, rfl, rfl, rfl, rfl⟩, hfits, hsep, rfl⟩

theorem does_readdat {db : DB} {o : Nat} {r : Rec} (hknows : v.Knows o r) (hon : db.OnRec o r)
    (hnul : 0 ∉ r.data) (hstop : db.readable = false → v.MayStop call) :
    Does p call v (_db_readdat db) fun a v' =>
      a.1 = r.data ∧ DB.Same db a.2 ∧ v' = v := by
  rw [_db_readdat, hon.datoff, hon.datlen, if_neg (by omega), Int.toNat_natCast,
    Int.toNat_natCast]
  apply (does_read (makes_readData hknows)).bind
  rintro (_ | record) v' ⟨hreadable, hread⟩
  · exact .stop nofun (hread ▸ hstop hreadable)
  · obtain ⟨rfl, rfl⟩ := hread
    have hlength : ((r.data ++ [NEWLINE]).length : Int) = r.datlen := by
      rw [List.length_append, Rec.datlen]
      rfl
    have htext : (r.data ++ [NEWLINE]).dropLast.takeWhile (· ≠ 0) = r.data := by
      rw [List.dropLast_concat, List.takeWhile_eq_self_iff]
      intro c hc
      rw [decide_eq_true_iff]
      rintro rfl
      exact hnul hc
    dsimp only
    rw [if_neg (fun h => h hlength), List.getLast?_concat, if_neg (fun h => h rfl)]
    exact .ret ⟨htext, ⟨rfl, rfl, rfl, rfl, rfl⟩, rfl⟩

/-- Where the pointer behind the records of `front` is, when the first pointer is at
`ptroff`. -/
def ptrBehind (ptroff : Int) (front : List Nat) : Int :=
  front.foldl (fun _ (o : Nat) => (o : Int)) ptroff

/-- The record at `o` of a list, with the records in front of it and behind it. -/
structure Found (mem : Nat → Option Rec) (offs front : List Nat) (o : Nat) (back : List Nat)
    (r : Rec) : Prop where
  offs : offs = front ++ o :: back
  mem : mem o = some r
  fits : r.Fits

theorem Found.cons {mem : Nat → Option Rec} {offs front back : List Nat} {o o' : Nat} {r : Rec}
    (hfound : Found mem offs front o back r) :
    Found mem (o' :: offs) (o' :: front) o back r where
  offs := by rw [hfound.offs, List.cons_append]
  mem := hfound.mem
  fits := hfound.fits

theorem does_findLoop {key : List Byte} {i : Slot} (hlock : v.lock i ≠ none)
    {offs : List Nat} {fuel : Nat} {db : DB} {n : Nat} (hpath : Path (v.mem i) n offs)
    (hfuel : offs.length < fuel) (hstop : v.MayStop call) :
    Does p call v (findLoop key fuel db n) fun a v' =>
      v' = v ∧ DB.Same { db with ptroff := a.2.ptroff } a.2 ∧
        (∀ o r, offs.head? = some o → v.mem i o = some r → SEP ∉ r.key) ∧
        (a.1 = -1 ∧ (∀ o ∈ offs, ∀ r, v.mem i o = some r → r.key ≠ key) ∨
          a.1 = 0 ∧ ∃ front o back r, Found (v.mem i) offs front o back r ∧ r.key = key ∧
            a.2.OnRec o r ∧ a.2.ptroff = ptrBehind db.ptroff front) := by
  induction fuel generalizing db n offs with
  | zero => cases hfuel
  | succ fuel ih =>
      rw [findLoop]
      cases offs with
      | nil =>
          rw [if_pos (by exact_mod_cast hpath)]
          exact .ret ⟨rfl, ⟨rfl, rfl, rfl, rfl, rfl⟩, nofun, .inl ⟨rfl, nofun⟩⟩
      | cons o rest =>
          obtain ⟨rfl, hne, r, hr, hrest⟩ := hpath
          rw [if_neg (by omega)]
          apply (does_readidx (.inl ⟨i, hlock, hr⟩) hne fun _ => hstop).bind
          rintro ⟨nextoffset, db'⟩ v' ⟨hnext, hon, hsame, hfits, hsep, rfl⟩
          dsimp only at hnext hon hsame ⊢
          have hfirst : ∀ o r, (n :: rest).head? = some o → v'.mem i o = some r → SEP ∉ r.key := by
            intro o r' ho hr'
            cases ho
            cases hr.symm.trans hr'
            exact hsep
          rw [hon.idxbuf]
          by_cases hkey : r.key = key
          · rw [if_pos hkey]
            exact .ret ⟨rfl, ⟨hsame.readable, hsame.writable, hsame.append, hsame.chainoff, rfl⟩,
              hfirst, .inr ⟨rfl, [], n, rest, r, ⟨rfl, hr, hfits⟩, hkey, hon, hsame.ptroff⟩⟩
          · rw [if_neg hkey, hnext]
            rw [List.length_cons] at hfuel
            apply (ih hrest (by omega)).mono
            rintro a v'' ⟨rfl, hsame', -, hresult⟩
            refine ⟨rfl, ⟨hsame'.readable.trans hsame.readable,
              hsame'.writable.trans hsame.writable, hsame'.append.trans hsame.append,
              hsame'.chainoff.trans hsame.chainoff, rfl⟩, hfirst, ?_⟩
            rcases hresult with ⟨hrc, hnone⟩ | ⟨hrc, front, o, back, r', hfound, hkey', hon', hptr⟩
            · refine .inl ⟨hrc, fun o ho r' hr' => ?_⟩
              rcases List.mem_cons.mp ho with rfl | ho'
              · cases hr.symm.trans hr'
                exact hkey
              · exact hnone o ho' r' hr'
            · exact .inr ⟨hrc, n :: front, o, back, r', hfound.cons, hkey', hon', hptr⟩

theorem does_findfreeLoop {keylen datlen : Int} {i : Slot} (hlock : v.lock i ≠ none)
    {offs : List Nat} {fuel : Nat} {db : DB} {saveoffset : Int} {n : Nat}
    (hpath : Path (v.mem i) n offs) (hfuel : offs.length < fuel) (hstop : v.MayStop call) :
    Does p call v (findfreeLoop keylen datlen fuel db saveoffset n) fun a v' =>
      v' = v ∧ DB.Same db a.2.2 ∧
        (a.1 = 0 ∨ ∃ front o back r, Found (v.mem i) offs front o back r ∧ a.1 = o ∧ o ≠ 0 ∧
          (r.key.length : Int) = keylen ∧ (r.datlen : Int) = datlen ∧ a.2.2.OnRec o r ∧
          a.2.1 = ptrBehind saveoffset front) := by
  induction fuel generalizing db n offs saveoffset with
  | zero => cases hfuel
  | succ fuel ih =>
      rw [findfreeLoop]
      cases offs with
      | nil =>
          have hn : n = 0 := hpath
          rw [if_pos (by exact_mod_cast hn)]
          exact .ret ⟨rfl, ⟨rfl, rfl, rfl, rfl, rfl⟩, .inl (congrArg Nat.cast hn)⟩
      | cons o rest =>
          obtain ⟨rfl, hne, r, hr, hrest⟩ := hpath
          rw [if_neg (by omega)]
          apply (does_readidx (.inl ⟨i, hlock, hr⟩) hne fun _ => hstop).bind
          rintro ⟨nextoffset, db'⟩ v' ⟨hnext, hon, hsame, hfits, -, rfl⟩
          dsimp only at hnext hon hsame ⊢
          rw [hon.idxbuf, hon.datlen]
          by_cases hmatch : (r.key.length : Int) = keylen ∧ (r.datlen : Int) = datlen
          · rw [if_pos hmatch]
            exact .ret ⟨rfl, hsame, .inr ⟨[], n, rest, r, ⟨rfl, hr, hfits⟩, rfl, hne, hmatch.1,
              hmatch.2, hon, rfl⟩⟩
          · rw [if_neg hmatch, hnext]
            rw [List.length_cons] at hfuel
            apply (ih hrest (by omega)).mono
            rintro a v'' ⟨rfl, hsame', hresult⟩
            refine ⟨rfl, hsame.trans hsame', ?_⟩
            rcases hresult with hzero | ⟨front, o, back, r', hfound, hoff, hresult⟩
            · exact .inl hzero
            · exact .inr ⟨n :: front, o, back, r', hfound.cons, hoff, hresult⟩

theorem chainoff_eq (key : List Byte) :
    (_db_hash key : Int) * PTR_SZ + HASH_OFF = ((slotOf key).off : Nat) := by
  simp only [Slot.off, slotOf, HASH_OFF, PTR_SZ]
  omega

/-- What is known of the chain of a key behind `_db_find_and_lock`: the chain as it is, the
handle, and the record of the key or that there is none. -/
structure Searched (db : DB) (key : List Byte) (head : Nat) (mem : Nat → Option Rec)
    (map : List Byte → Option (List Byte)) (offs : List Nat) (rc : Int) (db' : DB) : Prop where
  lists : Lists (slotOf key) head mem map offs
  reached : Reached offs
  clear : ∀ {o r}, mem o = some r → SEP ∉ r.key
  readable : db'.readable = true
  writable : db'.writable = db.writable
  append : db'.append = db.append
  chainoff : db'.chainoff = ((slotOf key).off : Nat)
  result : rc = -1 ∧ (∀ o ∈ offs, ∀ r, mem o = some r → r.key ≠ key) ∨
    rc = 0 ∧ ∃ front o back r, Found mem offs front o back r ∧ r.key = key ∧
      db'.OnRec o r ∧ db'.ptroff = ptrBehind ((slotOf key).off : Nat) front

theorem does_search {db : DB} {key : List Byte} {fuel : Nat} (hfuel : PTR_MAX < fuel)
    {head : Nat} {mem : Nat → Option Rec} {map : List Byte → Option (List Byte)}
    {offs : List Nat} (hlists : Lists (slotOf key) head mem map offs)
    (hreached : Reached offs) (mode : LockMode) (hgiven : v.Given v.map)
    (hchainoff : db.chainoff = ((slotOf key).off : Nat))
    (hptroff : db.ptroff = ((slotOf key).off : Nat)) :
    Does p call (v.lockSlot (slotOf key) mode head mem map)
      (_db_readptr db db.ptroff >>= fun a => findLoop key fuel a.2 a.1) fun a v' =>
        Searched db key head mem map offs a.1 a.2 ∧
          v' = v.lockSlot (slotOf key) mode head mem map := by
  have hlocked : (v.lockSlot (slotOf key) mode head mem map).lock (slotOf key) ≠ none := by
    rw [View.lockSlot_lock, update_self]
    exact Option.some_ne_none _
  have hhead : (v.lockSlot (slotOf key) mode head mem map).head (slotOf key) = head :=
    update_self ..
  have hmem : (v.lockSlot (slotOf key) mode head mem map).mem (slotOf key) = mem :=
    update_self ..
  have hstop : (v.lockSlot (slotOf key) mode head mem map).MayStop call :=
    .inl (hgiven.lockSlot hlists)
  have hlength := hreached.length
  rw [hptroff]
  apply (does_readptr hlocked fun _ => hstop).bind
  rintro _ v' ⟨rfl, hreadable, -, rfl⟩
  dsimp only
  rw [hhead]
  refine (does_findLoop hlocked (hmem.symm ▸ hlists.path) (by omega) hstop).mono ?_
  rintro a v' ⟨rfl, hsame, hfirst, hresult⟩
  rw [hmem] at hfirst
  rw [hmem, hptroff] at hresult
  have hclear : ∀ {o r}, mem o = some r → SEP ∉ r.key := by
    intro o r hr
    have ho := (hlists.mem_iff o).mpr (hr ▸ Option.some_ne_none r)
    cases offs with
    | nil => cases ho
    | cons o' rest =>
        rcases List.mem_cons.mp ho with rfl | hrest
        · exact hfirst o r rfl hr
        · exact hlists.first (slotOf_ne_free key) hrest hr
  exact ⟨⟨hlists, hreached, hclear, hsame.readable.trans hreadable, hsame.writable, hsame.append,
    hsame.chainoff.trans hchainoff, hresult⟩, rfl⟩

theorem does_find_and_lock {db : DB} {key : List Byte} {fuel : Nat} (hfuel : PTR_MAX < fuel)
    (hnone : ∀ i, v.lock i = none) (writelock : Bool) :
    Does p call v (_db_find_and_lock fuel db key writelock) fun a v' =>
      (writelock → a.2.writable = true) ∧
      ∃ head mem map offs, Searched db key head mem map offs a.1 a.2 ∧
        v' = v.lockSlot (slotOf key) (if writelock then .write else .read) head mem map := by
  have hgiven : v.Given v.map := View.given_of_unlocked fun i => (hnone i).symm ▸ nofun
  have hsearch : ∀ (mode : LockMode) (v' : View),
      (∃ head mem map offs, Lists (slotOf key) head mem map offs ∧
        Reached offs ∧ v' = v.lockSlot (slotOf key) mode head mem map) →
      Does p call v' (_db_readptr { db with
          chainoff := ((slotOf key).off : Nat), ptroff := ((slotOf key).off : Nat) }
        ((slotOf key).off : Nat) >>= fun a => findLoop key fuel a.2 a.1) fun a v' =>
      ∃ head mem map offs, Searched db key head mem map offs a.1 a.2 ∧
        v' = v.lockSlot (slotOf key) mode head mem map := by
    rintro mode _ ⟨head, mem, map, offs, hlists, hreached, rfl⟩
    apply (@does_search _ _ p call v { db with
      chainoff := ((slotOf key).off : Nat), ptroff := ((slotOf key).off : Nat) }
      key fuel hfuel head mem map offs hlists hreached mode hgiven rfl rfl).mono
    rintro a v' ⟨hsearched, rfl⟩
    exact ⟨head, mem, map, offs, ⟨hsearched.lists, hsearched.reached, hsearched.clear,
      hsearched.readable, hsearched.writable, hsearched.append, hsearched.chainoff,
      hsearched.result⟩, rfl⟩
  rw [_db_find_and_lock]
  dsimp only
  rw [chainLock_eq, chainoff_eq]
  cases writelock with
  | true =>
      rw [if_pos rfl, writew_lock]
      split
      · rename_i hwritable
        refine (Does.sys (makes_lockSlot (hnone _) .write) fun _ _ h => .ret h).bind fun _ v' h =>
          (hsearch .write v' h).mono ?_
        rintro a v' ⟨head, mem, map, offs, hsearched, hv'⟩
        exact ⟨fun _ => hsearched.writable.trans hwritable, head, mem, map, offs, hsearched, hv'⟩
      · exact .stop nofun (.inl hgiven)
  | false =>
      rw [if_neg (by decide), readw_lock]
      split
      · exact (Does.sys (makes_lockSlot (hnone _) .read) fun _ _ h => .ret h).bind
          fun _ v' h => (hsearch .read v' h).mono fun _ _ h => ⟨nofun, h⟩
      · exact .stop nofun (.inl hgiven)

end ApueCourse.Db
