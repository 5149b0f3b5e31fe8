import ApueCourse.Db.Sequential

/-! What a process reads that is alone with the files. -/

namespace ApueCourse.Db

open Memory Function Program

/-- The files as a process finds them that is alone with them. -/
def World.alone {Pid : Type} (w : World Pid) : World Unit :=
  ⟨fun _ => true, w.content, fun _ _ _ => none⟩

/-- The handle behind a record that has been read. -/
def DB.onto (db : DB) (o : Nat) (r : Rec) : DB :=
  { db with
    idxoff := o
    ptrval := r.ptr
    idxlen := r.text.length
    idxpos := o + r.size
    idxbuf := r.key
    datoff := r.datoff
    datlen := r.datlen }

theorem DB.onRec_onto (db : DB) (o : Nat) (r : Rec) : (db.onto o r).OnRec o r :=
  ⟨rfl, rfl, rfl, rfl, rfl⟩

section Exec

variable {w : World Unit} {db : DB}

theorem exec_read (hreadable : db.readable = true) (file : FileId) (pos n : Nat) :
    exec (db.read file pos n) w = .ok (some (readAt (w.content file) pos n), w) := by
  rw [DB.read, if_pos hreadable]
  rfl

theorem exec_readw_lock (hreadable : db.readable = true) (range : Range) (message : String) :
    exec (readw_lock db range message) w =
      .ok ((), { w with locks := w.locks.set () range (some .read) }) := by
  rw [readw_lock, if_pos hreadable]
  rfl

/-- A lock is taken and given back. -/
theorem unlocked_eq (hlocks : ∀ file byte, w.locks () file byte = none) (range : Range)
    (mode : LockMode) :
    { w with locks := (w.locks.set () range (some mode)).set () range none } = w := by
  have hset : (w.locks.set () range (some mode)).set () range none = w.locks := by
    funext p file byte
    rw [Locks.set]
    split
    · exact (hlocks file byte).symm
    · rename_i hnot
      exact if_neg hnot
  rw [hset]

variable {Pid : Type} {head : Slot → Nat} {recs : Nat → Option Rec}
  {spare : Pid → Option (Nat × List Byte)} {o : Nat} {r : Rec}

theorem exec_readptr (hlayout : Layout (w.content .idx) (w.content .dat) head recs spare)
    (hreadable : db.readable = true) (i : Slot) :
    exec (_db_readptr db (i.off : Nat)) w =
      .ok (((head i : Int), { db with idxpos := i.off + PTR_SZ }), w) := by
  have hle := hlayout.ptr_le i
  have hlong : (head i : Int) ≤ LONG_MAX := hle.trans (by decide)
  rw [_db_readptr, if_neg (by omega), exec_bind, exec_read hreadable, ok_bind]
  dsimp only
  rw [Int.toNat_natCast, hlayout.readptr,
    if_neg (by rw [Layout.length_sprintfWidth_ptr hle]; exact fun h => h rfl),
    atolField_width hlong]
  rfl

/-- A record that stands in the file, whatever is around it. -/
theorem exec_readidx_at (hat : At (w.content .idx) o r.bytes) (hfits : r.Fits)
    (hoff : (r.datoff : Int) ≤ LONG_MAX) (hreadable : db.readable = true) {offset : Int}
    (hoffset : offset = o ∧ o ≠ 0 ∨ offset = 0 ∧ db.idxpos = o) :
    exec (_db_readidx db offset) w =
      if SEP ∈ r.key then .error (.err_dump "_db_readidx: too many separators")
      else .ok (((r.ptr : Int), db.onto o r), w) := by
  have hptr : (r.ptr : Int) ≤ LONG_MAX := hfits.ptr.trans (by decide)
  have hlen : (r.text.length : Int) ≤ LONG_MAX := hfits.high.trans (by decide)
  have hwidth := Layout.length_sprintfWidth_ptr hfits.ptr
  have htake : r.head.take PTR_SZ = sprintfWidth PTR_SZ r.ptr := List.take_left' hwidth
  have hdrop : r.head.drop PTR_SZ = sprintfWidth IDXLEN_SZ r.text.length := List.drop_left' hwidth
  have hlow := hfits.low
  have hhigh := hfits.high
  obtain ⟨hathead, hattext⟩ := at_append.mp hat
  have hreadhead := hathead.readAt
  have hreadtext := hattext.readAt
  rw [Rec.length_head hfits] at hreadhead hreadtext
  have hpos : (if offset = 0 then db.idxpos else offset.toNat) = o := by
    rcases hoffset with ⟨rfl, hne⟩ | ⟨rfl, hpos⟩
    · rw [if_neg (by omega), Int.toNat_natCast]
    · rw [if_pos rfl, hpos]
  rw [_db_readidx, if_neg (by omega)]
  dsimp only
  rw [hpos, readRecord, exec_bind, exec_read (by exact hreadable), ok_bind]
  dsimp only
  rw [hreadhead, if_neg (by rw [Rec.length_head hfits]; exact fun h => h rfl), htake,
    hdrop, atolField_width hptr, atolField_width hlen]
  simp only [Prog.ret_bind]
  rw [if_neg (by omega), exec_bind, exec_read (by exact hreadable), ok_bind]
  dsimp only
  rw [Int.toNat_natCast, hreadtext, if_neg (fun h => h rfl)]
  split
  · rename_i hsep
    rw [parseIdx_sep _ hfits.nul hsep]
    rfl
  · rename_i hsep
    have hsize : o + r.size = o + (PTR_SZ + IDXLEN_SZ) + r.text.length :=
      (Nat.add_assoc ..).symm
    rw [parseIdx_text _ hfits hsep hoff, DB.onto, hsize]
    rfl

/-- A record that is there. -/
theorem exec_readidx (hlayout : Layout (w.content .idx) (w.content .dat) head recs spare)
    (hreadable : db.readable = true) (hrec : recs o = some r) {offset : Int}
    (hoffset : offset = o ∧ o ≠ 0 ∨ offset = 0 ∧ db.idxpos = o) :
    exec (_db_readidx db offset) w =
      if SEP ∈ r.key then .error (.err_dump "_db_readidx: too many separators")
      else .ok (((r.ptr : Int), db.onto o r), w) := by
  have hoff : (r.datoff : Int) ≤ LONG_MAX := by
    have hle := (hlayout.data_le hrec).trans hlayout.dat_le
    simp only [OFF_MAX, LONG_MAX] at hle ⊢
    omega
  exact exec_readidx_at (hlayout.record hrec) (hlayout.fits hrec) hoff hreadable hoffset

/-- The end of the index file. -/
theorem exec_readidx_end (hreadable : db.readable = true)
    (hend : db.idxpos = (w.content .idx).length) :
    exec (_db_readidx db 0) w = .ok ((-1, { db with idxoff := db.idxpos }), w) := by
  have hread : readAt (w.content .idx) db.idxpos (PTR_SZ + IDXLEN_SZ) = [] := by
    rw [readAt, hend, List.drop_length, List.take_nil]
  rw [_db_readidx, if_neg (by decide)]
  dsimp only
  rw [if_pos rfl, readRecord, exec_bind, exec_read (by exact hreadable), ok_bind]
  dsimp only
  rw [hread]
  rfl

theorem exec_readdat (hlayout : Layout (w.content .idx) (w.content .dat) head recs spare)
    (hreadable : db.readable = true) (hrec : recs o = some r) (hon : db.OnRec o r) :
    ∃ db', exec (_db_readdat db) w = .ok ((r.data, db'), w) ∧ DB.Same db db' ∧
      db'.idxpos = db.idxpos := by
  have hlength : ((r.data ++ [NEWLINE]).length : Int) = r.datlen := by
    rw [List.length_append, Rec.datlen]
    rfl
  have htext : (r.data ++ [NEWLINE]).dropLast.takeWhile (· ≠ 0) = r.data := by
    rw [List.dropLast_concat, List.takeWhile_eq_self_iff]
    intro c hc
    rw [decide_eq_true_iff]
    rintro rfl
    exact (hlayout.fits hrec).datnul hc
  rw [_db_readdat, hon.datoff, hon.datlen, if_neg (by omega), exec_bind, exec_read hreadable,
    ok_bind]
  dsimp only
  rw [Int.toNat_natCast, Int.toNat_natCast, hlayout.readdata hrec, if_neg (fun h => h hlength),
    List.getLast?_concat, if_neg (fun h => h rfl), htext]
  exact ⟨_, rfl, ⟨rfl, rfl, rfl, rfl, rfl⟩, rfl⟩

/-- On a chain without a `SEP` the search comes to the record of the key or to the end. -/
theorem exec_findLoop (hlayout : Layout (w.content .idx) (w.content .dat) head recs spare)
    {key : List Byte} {mem : Nat → Option Rec} (hmem : ∀ {o r}, mem o = some r → recs o = some r)
    (hclear : ∀ {o r}, mem o = some r → SEP ∉ r.key) {offs : List Nat} {fuel n : Nat}
    (hpath : Path mem n offs) (hfuel : offs.length < fuel) (hreadable : db.readable = true) :
    ∃ rc db', exec (findLoop key fuel db n) w = .ok ((rc, db'), w) ∧ db'.readable = true ∧
      db'.chainoff = db.chainoff ∧
      (rc = -1 ∧ (∀ o ∈ offs, ∀ r, mem o = some r → r.key ≠ key) ∨
        rc = 0 ∧ ∃ o r, mem o = some r ∧ r.key = key ∧ db'.OnRec o r) := by
  induction fuel generalizing db n offs with
  | zero => cases hfuel
  | succ fuel ih =>
      rw [findLoop]
      cases offs with
      | nil =>
          rw [if_pos (by exact_mod_cast hpath)]
          exact ⟨-1, db, rfl, hreadable, rfl, .inl ⟨rfl, List.forall_mem_nil _⟩⟩
      | cons o rest =>
          obtain ⟨rfl, hne, r, hr, hrest⟩ := hpath
          rw [if_neg (by omega), exec_bind,
            exec_readidx hlayout hreadable (hmem hr) (.inl ⟨rfl, hne⟩), if_neg (hclear hr), ok_bind]
          dsimp only
          rw [(db.onRec_onto n r).idxbuf]
          by_cases hkey : r.key = key
          · rw [if_pos hkey]
            exact ⟨0, db.onto n r, rfl, hreadable, rfl,
              .inr ⟨rfl, n, r, hr, hkey, db.onRec_onto n r⟩⟩
          · rw [if_neg hkey]
            rw [List.length_cons] at hfuel
            obtain ⟨rc, db', hexec, hreadable', hchainoff, hresult⟩ :=
              @ih { db.onto n r with ptroff := n } rest r.ptr hrest (by omega) hreadable
            refine ⟨rc, db', hexec, hreadable', hchainoff, hresult.imp_left ?_⟩
            rintro ⟨hrc, hnone⟩
            refine ⟨hrc, fun o ho r' hr' => ?_⟩
            rcases List.mem_cons.mp ho with rfl | ho'
            · cases hr.symm.trans hr'
              exact hkey
            · exact hnone o ho' r' hr'

/-- The handle behind the first pointer of the chain of a key. -/
def DB.onChain (db : DB) (key : List Byte) : DB :=
  { db with
    chainoff := ((slotOf key).off : Nat)
    ptroff := ((slotOf key).off : Nat)
    idxpos := (slotOf key).off + PTR_SZ }

theorem exec_find_and_lock (hlayout : Layout (w.content .idx) (w.content .dat) head recs spare)
    (hreadable : db.readable = true) (fuel : Nat) (key : List Byte) :
    exec (_db_find_and_lock fuel db key false) w =
      exec (findLoop key fuel (db.onChain key) (head (slotOf key)))
        { w with locks := w.locks.set () (slotRange (slotOf key)) (some .read) } := by
  rw [_db_find_and_lock]
  dsimp only
  rw [if_neg (by decide), chainLock_eq, chainoff_eq, exec_bind,
    exec_readw_lock (by exact hreadable), ok_bind]
  dsimp only
  rw [exec_bind, exec_readptr (by exact hlayout) (by exact hreadable), ok_bind]
  rfl

theorem unlock_chain (hlocks : ∀ file byte, w.locks () file byte = none) {db : DB}
    {key : List Byte} (hchainoff : db.chainoff = ((slotOf key).off : Nat)) {α : Type} (a : α) :
    exec (un_lock (chainLock db.chainoff) >>= fun _ => .ret a)
        { w with locks := w.locks.set () (slotRange (slotOf key)) (some .read) } = .ok (a, w) := by
  rw [exec_bind, exec_un_lock, ok_bind, hchainoff, ← chainoff_eq, chainLock_eq,
    unlocked_eq hlocks]
  rfl

/-- `db_fetch` gives what the key has, if there is no `SEP` on its chain. -/
theorem exec_fetch (hlayout : Layout (w.content .idx) (w.content .dat) head recs spare)
    {fuel : Nat} (hfuel : PTR_MAX < fuel) {key : List Byte} {mem : Nat → Option Rec}
    (hmem : ∀ {o r}, mem o = some r → recs o = some r) {map : Bindings} {offs : List Nat}
    (hlists : Lists (slotOf key) (head (slotOf key)) mem map offs)
    (hclear : ∀ {o r}, mem o = some r → SEP ∉ r.key) (hreadable : db.readable = true)
    (hlocks : ∀ file byte, w.locks () file byte = none) :
    ∃ db', exec (db_fetch fuel db key) w = .ok ((map key, db'), w) := by
  have hreached := hlists.path.reached (hlayout.ptr_le _) fun o r hr =>
    (hlayout.fits (hmem hr)).ptr
  have hlength := hreached.length
  obtain ⟨rc, db₁, hexec, hreadable₁, hchainoff, hresult⟩ := @exec_findLoop
    { w with locks := w.locks.set () (slotRange (slotOf key)) (some .read) } (db.onChain key) _
    head recs spare (by exact hlayout) key mem hmem hclear offs fuel _ hlists.path (by omega)
    hreadable
  rw [db_fetch, exec_bind, exec_find_and_lock hlayout hreadable, hexec, ok_bind]
  dsimp only
  rcases hresult with ⟨rfl, hnone⟩ | ⟨rfl, o, r, hr, hkey, hon⟩
  · have hmap : map key = none := by
      cases hd : map key with
      | none => rfl
      | some d =>
          obtain ⟨o, r, hr, hkey, -⟩ := (hlists.map rfl).mp hd
          have ho := (hlists.mem_iff o).mpr (hr ▸ Option.some_ne_none r)
          exact absurd hkey (hnone o ho r hr)
    rw [if_pos (by decide), hmap]
    exact ⟨db₁, unlock_chain hlocks hchainoff _⟩
  · have hmap : map key = some r.data := (hlists.map rfl).mpr ⟨o, r, hr, hkey, rfl⟩
    obtain ⟨db₂, hexec₂, hsame, -⟩ := @exec_readdat
      { w with locks := w.locks.set () (slotRange (slotOf key)) (some .read) } db₁ _ head recs
      spare o r (by exact hlayout) hreadable₁ (hmem hr) hon
    rw [if_neg (by decide), exec_bind, hexec₂, ok_bind, hmap]
    exact ⟨db₂, unlock_chain hlocks (hsame.chainoff.trans hchainoff) _⟩

/-- No search comes past a key with a `SEP` in it. -/
theorem exec_fetch_sep (hlayout : Layout (w.content .idx) (w.content .dat) head recs spare)
    {fuel : Nat} (hfuel : 0 < fuel) {key : List Byte} {o : Nat} {r : Rec}
    (hhead : head (slotOf key) = o) (ho : o ≠ 0) (hrec : recs o = some r) (hsep : SEP ∈ r.key)
    (hreadable : db.readable = true) :
    exec (db_fetch fuel db key) w = .error (.err_dump "_db_readidx: too many separators") := by
  obtain ⟨fuel, rfl⟩ := Nat.exists_eq_succ_of_ne_zero hfuel.ne'
  rw [db_fetch, exec_bind, exec_find_and_lock hlayout hreadable, hhead, findLoop,
    if_neg (by omega), exec_bind, exec_readidx (by exact hlayout) (by exact hreadable) hrec
      (.inl ⟨rfl, ho⟩), if_pos hsep]
  rfl

end Exec

/-- `O_RDONLY`. -/
def readOnly : OFlags := ⟨true, false, false, false, false, false⟩

/-- What a process finds for a key that opens the database and is alone with it. -/
def fetched {Pid : Type} (fuel : Nat) (w : World Pid) (key : List Byte) :
    Except Stop (Option (List Byte)) :=
  match exec (db_open readOnly) w.alone with
  | .error reason => .error reason
  | .ok (none, _) => .ok none
  | .ok (some db, w') => (exec (db_fetch fuel db key) w').map fun a => a.1.1

section Fetched

variable {Pid : Type}

theorem opened_alone (w : World Pid) (file : FileId) :
    w.alone.opened file readOnly = w.alone := by
  rw [World.opened]
  congr 1
  · exact update_eq_self file fun _ => true
  · rw [if_pos ⟨rfl, Bool.false_ne_true⟩]
    exact update_eq_self file w.content

theorem fetched_eq (fuel : Nat) (w : World Pid) (key : List Byte) :
    fetched fuel w key =
      (exec (db_fetch fuel (db_rewind (newDB readOnly)) key) w.alone).map fun a => a.1.1 := by
  have hopen : exec (db_open readOnly) w.alone =
      .ok (some (db_rewind (newDB readOnly)), w.alone) := by
    have hcan : ∀ file, w.alone.CanOpen file readOnly := fun _ h => nomatch h.1
    rw [db_open, exec_bind, exec_openFile, if_pos (hcan .idx), ok_bind, opened_alone, exec_bind,
      exec_openFile, if_pos (hcan .dat), ok_bind, opened_alone]
    rfl
  rw [fetched, hopen]

variable [DecidableEq Pid] {g g' : Ghost Pid} {fuel : Nat} {key : List Byte}

/-- A chain that nobody has for writing. -/
theorem Ghost.Sound.chain (hs : g.Sound) (hfree : ∀ p i, g.holds p i ≠ some .write)
    (i : Slot) : ∃ mem offs, (∀ {o r}, mem o = some r → g.recs o = some r) ∧
      Lists i (g.head i) mem g.map offs := by
  obtain ⟨offs, hlists⟩ := hs.lists i fun p => hfree p i
  exact ⟨_, offs, fun hr => (part_eq_some.mp hr).2, hlists⟩

theorem Ghost.Sound.exec_fetch (hs : g.Sound) (hfree : ∀ p i, g.holds p i ≠ some .write)
    (hfuel : PTR_MAX < fuel)
    (hclear : ∀ k, slotOf k = slotOf key → g.map k ≠ none → SEP ∉ k) {db : DB}
    (hreadable : db.readable = true) :
    ∃ db', exec (db_fetch fuel db key) g.world.alone = .ok ((g.map key, db'), g.world.alone) := by
  obtain ⟨mem, offs, hmem, hlists⟩ := hs.chain hfree (slotOf key)
  refine Db.exec_fetch (by exact hs.layout) hfuel hmem hlists (fun {o r} hr => ?_) hreadable
    fun _ _ => rfl
  have hhash := hlists.hash (slotOf_ne_free key) hr
  have hmap : g.map r.key = some r.data := (hlists.map hhash).mpr ⟨o, r, hr, rfl, rfl⟩
  exact hclear r.key hhash (hmap ▸ Option.some_ne_none _)

theorem Ghost.Sound.fetched (hs : g.Sound) (hfree : ∀ p i, g.holds p i ≠ some .write)
    (hfuel : PTR_MAX < fuel)
    (hclear : ∀ k, slotOf k = slotOf key → g.map k ≠ none → SEP ∉ k) :
    fetched fuel g.world key = .ok (g.map key) := by
  have hreadable : (db_rewind (newDB readOnly)).readable = true := rfl
  obtain ⟨db', hexec⟩ := hs.exec_fetch hfree hfuel hclear hreadable
  rw [fetched_eq, hexec]
  rfl

/-- A key with a `SEP` is in front of all others on its chain. -/
theorem Ghost.Sound.fetched_sep (hs : g.Sound) (hfree : ∀ p i, g.holds p i ≠ some .write)
    (hfuel : PTR_MAX < fuel) {k : List Byte} (hslot : slotOf k = slotOf key)
    (hk : g.map k ≠ none) (hsep : SEP ∈ k) :
    Db.fetched fuel g.world key = .error (.err_dump "_db_readidx: too many separators") := by
  obtain ⟨mem, offs, hmem, hlists⟩ := hs.chain hfree (slotOf key)
  obtain ⟨d, hd⟩ := Option.ne_none_iff_exists'.mp hk
  obtain ⟨o, r, hr, rfl, -⟩ := (hlists.map hslot).mp hd
  have ho := (hlists.mem_iff o).mpr (hr ▸ Option.some_ne_none r)
  have hpath := hlists.path
  cases offs with
  | nil => cases ho
  | cons o' rest =>
      rcases List.mem_cons.mp ho with rfl | hrest
      · obtain ⟨hhead, hne, -⟩ := hpath
        have hpos : 0 < fuel := by
          simp only [PTR_MAX] at hfuel
          omega
        rw [fetched_eq, exec_fetch_sep (by exact hs.layout) hpos hhead hne (hmem hr) hsep rfl]
        rfl
      · exact absurd hsep (hlists.first (slotOf_ne_free key) hrest hr)

/-- What a process finds depends on the data of the keys only. -/
theorem fetched_congr (hs : g.Sound) (hs' : g'.Sound)
    (hfree : ∀ p i, g.holds p i ≠ some .write) (hfree' : ∀ p i, g'.holds p i ≠ some .write)
    (hfuel : PTR_MAX < fuel) (hmap : g'.map = g.map) (key : List Byte) :
    fetched fuel g'.world key = fetched fuel g.world key := by
  by_cases hsep : ∃ k, slotOf k = slotOf key ∧ g.map k ≠ none ∧ SEP ∈ k
  · obtain ⟨k, hslot, hk, hsep⟩ := hsep
    rw [hs.fetched_sep hfree hfuel hslot hk hsep,
      hs'.fetched_sep hfree' hfuel hslot (hmap ▸ hk) hsep]
  · have hclear : ∀ k, slotOf k = slotOf key → g.map k ≠ none → SEP ∉ k :=
      fun k hslot hk hin => hsep ⟨k, hslot, hk, hin⟩
    rw [hs.fetched hfree hfuel hclear, hs'.fetched hfree' hfuel (hmap ▸ hclear), hmap]

end Fetched

end ApueCourse.Db
