import ApueCourse.Db.Record
import ApueCourse.Db.Processes
import ApueCourse.Program.Always

/-! What the library writes into the two buffers of a handle. -/

namespace ApueCourse.Db

open Memory Program

inductive Buffer
  | idxbuf
  | datbuf

/-- The bytes that `_db_alloc` gets from `malloc`. -/
def Buffer.size : Buffer → Int
  | .idxbuf => IDXLEN_MAX + 2
  | .datbuf => DATLEN_MAX + 2

/-- The first `n` bytes of a buffer are written. -/
def touch (buffer : Buffer) (n : Nat) : P Unit :=
  if n ≤ buffer.size then .ret () else .stop .fault

/-! The functions that write into a buffer, with these writes, and the functions that call them.
`_db_writeidx` faults in the model already where its text does not fit. -/

namespace Buffered

def readRecord (db : DB) (offset : Int) : P (Int × DB) := do
  match ← db.read .idx db.idxpos (PTR_SZ + IDXLEN_SZ) with
  | none => .stop (.err_dump "_db_readidx: readv error of index record")
  | some head =>
      if head.length ≠ PTR_SZ + IDXLEN_SZ then
        if head = [] ∧ offset = 0 then
          return (-1, db)
        else
          .stop (.err_dump "_db_readidx: readv error of index record")
      else do
        let ptrval ← atolField (head.take PTR_SZ)
        let idxlen ← atolField (head.drop PTR_SZ)
        if idxlen < IDXLEN_MIN ∨ idxlen > IDXLEN_MAX then
          .stop (.err_dump "_db_readidx: invalid length")
        else do
          let pos := db.idxpos + (PTR_SZ + IDXLEN_SZ)
          -- the NULs over the newline and the separators are among these bytes
          touch .idxbuf idxlen.toNat
          match ← db.read .idx pos idxlen.toNat with
          | none => .stop (.err_dump "_db_readidx: read error of index record")
          | some record =>
              if (record.length : Int) ≠ idxlen then
                .stop (.err_dump "_db_readidx: read error of index record")
              else do
                let idxpos := pos + record.length
                let db ← parseIdx { db with ptrval, idxlen, idxpos } record
                return (db.ptrval, db)

def _db_readidx (db : DB) (offset : Int) : P (Int × DB) :=
  if offset < 0 then
    .stop (.err_dump "_db_readidx: lseek error")
  else
    let idxpos := if offset = 0 then db.idxpos else offset.toNat
    readRecord { db with idxpos, idxoff := idxpos } offset

/-- `read`, and the NUL over the newline. -/
def _db_readdat (db : DB) : P (List Byte × DB) := do
  touch .datbuf db.datlen.toNat
  Db._db_readdat db

/-- The blanks and the NUL behind them, and the blanks over the key. -/
def _db_dodelete (db : DB) : P DB := do
  touch .datbuf ((db.datlen - 1).toNat + 1)
  touch .idxbuf db.idxbuf.length
  Db._db_dodelete db

/-- The bound on the length has been checked in front of the read. -/
theorem readidx_eq (db : DB) (offset : Int) : _db_readidx db offset = Db._db_readidx db offset := by
  have hrecord (db : DB) : readRecord db offset = Db.readRecord db offset := by
    rw [readRecord, Db.readRecord]
    congr 1
    funext head
    cases head with
    | none => rfl
    | some head =>
        dsimp only
        split
        · rfl
        · congr 1
          funext ptrval
          congr 1
          funext idxlen
          split
          · rfl
          · rename_i hidxlen
            have hfits : (idxlen.toNat : Int) ≤ Buffer.size .idxbuf := by
              have hmax : 0 ≤ IDXLEN_MAX := by decide
              rw [Buffer.size]
              omega
            rw [touch, if_pos hfits]
            rfl
  rw [_db_readidx, Db._db_readidx]
  split
  · rfl
  · exact hrecord _

def db_fetch (fuel : Nat) (db : DB) (key : List Byte) : P (Option (List Byte) × DB) := do
  let (rc, db) ← _db_find_and_lock fuel db key false
  if rc < 0 then
    un_lock (chainLock db.chainoff)
    return (none, db)
  else
    let (data, db) ← _db_readdat db
    un_lock (chainLock db.chainoff)
    return (some data, db)

def db_delete (fuel : Nat) (db : DB) (key : List Byte) : P (Int × DB) := do
  let (rc, db) ← _db_find_and_lock fuel db key true
  if rc = 0 then
    let db ← _db_dodelete db
    un_lock (chainLock db.chainoff)
    return (0, db)
  else
    un_lock (chainLock db.chainoff)
    return (-1, db)

def storeOld (db : DB) (key data : List Byte) (flag : Int) : P (Int × DB) := do
  if flag = DB_INSERT then
    return (1, db)
  else if (data.length : Int) + 1 ≠ db.datlen then
    let db ← _db_dodelete db
    let (ptrval, db) ← _db_readptr db db.chainoff
    let db ← storeAppend db key data ptrval
    return (0, db)
  else
    let db ← _db_writedat db data db.datoff .set
    return (0, db)

def db_store (fuel : Nat) (db : DB) (key data : List Byte) (flag : Int) : P (Int × DB) := do
  if flag ≠ DB_INSERT ∧ flag ≠ DB_REPLACE ∧ flag ≠ DB_STORE then
    return (-1, db)
  else
    let datlen : Int := data.length + 1
    if datlen < DATLEN_MIN ∨ datlen > DATLEN_MAX then
      .stop (.err_dump "db_store: invalid data length")
    else
      let (rc, db) ← _db_find_and_lock fuel db key true
      let (rc, db) ← if rc < 0 then storeNew fuel db key data flag
        else storeOld db key data flag
      un_lock (chainLock db.chainoff)
      return (rc, db)

def db_nextrec (fuel : Nat) (db : DB) : P (Option (List Byte × List Byte) × DB) := do
  readw_lock db freeLock "db_nextrec: readw_lock error"
  let (found, db) ← nextrecLoop fuel db
  if found then
    let key := db.idxbuf
    let (data, db) ← _db_readdat db
    un_lock freeLock
    return (some (key, data), db)
  else
    un_lock freeLock
    return (none, db)

def prog (fuel : Nat) : Call → Option DB → Option (P (Result × Option DB))
  | .open flags, db => some do
      let db' ← db_open flags
      return (.handle db'.isSome, db'.or db)
  | .fetch key, some db => some do
      let (data, db) ← db_fetch fuel db key
      return (.data data, some db)
  | .store key data flag, some db => some do
      let (rc, db) ← db_store fuel db key data flag
      return (.code rc, some db)
  | .delete key, some db => some do
      let (rc, db) ← db_delete fuel db key
      return (.code rc, some db)
  | .rewind, some db => some (.ret (.rewound, some (db_rewind db)))
  | .nextrec, some db => some do
      let (record, db) ← db_nextrec fuel db
      return (.record record, some db)
  | _, none => none

end Buffered

/-! What is read in from an index file, whatever it holds. -/

/-- The record that `_db_readidx` has taken apart: its text fits where it came from, but for a
digit in place of an empty offset. -/
structure DB.Loaded (db : DB) : Prop where
  datlen_pos : 1 ≤ db.datlen
  datlen_le : db.datlen ≤ DATLEN_MAX
  text : ((idxText db.idxbuf db.datoff db.datlen).length : Int) ≤ IDXLEN_MAX + 1

theorem DB.Loaded.datbuf {db : DB} (hloaded : db.Loaded) :
    (db.datlen.toNat : Int) ≤ Buffer.size .datbuf := by
  have hle := hloaded.datlen_le
  have hmax : 0 ≤ DATLEN_MAX := by decide
  rw [Buffer.size]
  omega

theorem DB.Loaded.blanks {db : DB} (hloaded : db.Loaded) :
    (((db.datlen - 1).toNat + 1 : Nat) : Int) ≤ Buffer.size .datbuf := by
  have hpos := hloaded.datlen_pos
  have hle := hloaded.datlen_le
  rw [Buffer.size]
  omega

theorem DB.Loaded.idxbuf {db : DB} (hloaded : db.Loaded) :
    (db.idxbuf.length : Int) ≤ Buffer.size .idxbuf := by
  have htext := hloaded.text
  rw [length_idxText] at htext
  rw [Buffer.size]
  omega

theorem eq_of_strchr {text front back : List Byte} (hstrchr : strchr text = some (front, back)) :
    text = front ++ SEP :: back := by
  induction text generalizing front with
  | nil => cases hstrchr
  | cons c text ih =>
      rw [strchr] at hstrchr
      split at hstrchr
      · rename_i hc
        cases hstrchr
        rw [hc]
        rfl
      · obtain ⟨⟨front', back'⟩, hrest, heq⟩ := Option.map_eq_some_iff.mp hstrchr
        cases heq
        rw [ih hrest]
        rfl

/-- The offset of the data record that `db_store` is about to append leaves room in `idxbuf` for
the text of its index record. -/
def Room : Call → (op : Op) → op.Res → Prop
  | .store key data _, .size .dat, (datoff : Nat) =>
      ((idxText key datoff (data.length + 1)).length : Int) ≤ IDXLEN_MAX + 1
  | _, _, _ => True

/-- Where there is room for what is appended, the program writes nothing outside the buffers. -/
def Stays {α : Type} (call : Call) (post : α → Prop) (prog : P α) : Prop :=
  prog.Always (Room call) (· ≠ .fault) post

section Stays

variable {call : Call} {α β : Type} {post : α → Prop}

theorem Stays.bind {post : β → Prop} {middle : α → Prop} {prog : P α} {f : α → P β}
    (hprog : Stays call middle prog) (hf : ∀ a, middle a → Stays call post (f a)) :
    Stays call post (prog >>= f) :=
  Prog.Always.bind hprog hf

theorem Stays.mono {middle : α → Prop} {prog : P α} (hprog : Stays call middle prog)
    (hpost : ∀ a, middle a → post a) : Stays call post prog :=
  Prog.Always.mono hprog hpost

theorem Stays.ret {a : α} (ha : post a) : Stays call post (.ret a) := ha

theorem stays_err_dump (message : String) : Stays call post (.stop (.err_dump message)) := by
  intro hfault
  cases hfault

theorem stays_err_quit (message : String) : Stays call post (.stop (.err_quit message)) := by
  intro hfault
  cases hfault

theorem stays_spin : Stays call post (.stop .spin) := by
  intro hfault
  cases hfault

theorem stays_atolField (field : List Byte) :
    Stays call (fun n => (0 ≤ n → (sprintfLong n).length ≤ max 1 field.length) ∧
      (field = [] → n = 0)) (atolField field) := by
  obtain ⟨n, hatol, hnumber⟩ := exists_atol field
  rw [atolField, hatol]
  exact hnumber

theorem stays_touch (buffer : Buffer) (n : Nat) (hn : n ≤ buffer.size) :
    Stays call (fun _ => True) (touch buffer n) := by
  rw [touch, if_pos hn]
  trivial

-- `apply` is not to work the bound out
attribute [local irreducible] touch

theorem stays_read (db : DB) (file : FileId) (pos n : Nat) :
    Stays call (fun _ => True) (db.read file pos n) := by
  rw [DB.read]
  split
  · exact fun _ _ => trivial
  · exact .ret trivial

theorem stays_write (db : DB) (file : FileId) (pos : Nat) (bytes : List Byte) :
    Stays call (fun _ => True) (db.write file pos bytes) := by
  rw [DB.write]
  split
  · exact .ret trivial
  · split
    · exact fun _ _ => trivial
    · exact fun _ _ => trivial

theorem stays_readw_lock (db : DB) (range : Range) (message : String) :
    Stays call (fun _ => True) (readw_lock db range message) := by
  rw [readw_lock]
  split
  · exact fun _ _ => trivial
  · exact stays_err_dump _

theorem stays_writew_lock (db : DB) (range : Range) (message : String) :
    Stays call (fun _ => True) (writew_lock db range message) := by
  rw [writew_lock]
  split
  · exact fun _ _ => trivial
  · exact stays_err_dump _

theorem stays_un_lock (range : Range) : Stays call (fun _ => True) (un_lock range) :=
  fun _ _ => trivial

theorem stays_fileSize (file : FileId) :
    Stays call (fun (n : Nat) => Room call (.size file) n) (fileSize file) :=
  fun _ hn => hn

theorem stays_openFile (file : FileId) (flags : OFlags) :
    Stays call (fun _ => True) (openFile file flags) :=
  fun _ _ => trivial

theorem stays_readptr (db : DB) (offset : Int) :
    Stays call (fun a => a.2 = { db with idxpos := offset.toNat + PTR_SZ })
      (_db_readptr db offset) := by
  rw [_db_readptr]
  split
  · exact stays_err_dump _
  · apply (stays_read db .idx _ _).bind
    intro asciiptr _
    cases asciiptr with
    | none => exact stays_err_dump _
    | some asciiptr =>
        dsimp only
        split
        · exact stays_err_dump _
        · apply (stays_atolField asciiptr).bind
          intro ptr _
          exact .ret rfl

theorem stays_parseIdx {db : DB} {record : List Byte} (hlength : record.length ≤ IDXLEN_MAX) :
    Stays call DB.Loaded (parseIdx db record) := by
  rw [parseIdx]
  split
  · exact stays_err_dump _
  rename_i hnewline
  have hne : record ≠ [] := by
    rintro rfl
    exact hnewline (Option.some_ne_none NEWLINE).symm
  have hpos := List.length_pos_of_ne_nil hne
  have htext := (record.dropLast.takeWhile_sublist (· ≠ 0)).length_le
  rw [List.length_dropLast] at htext
  dsimp only
  split
  · exact stays_err_dump _
  rename_i key rest hfirst
  split
  · exact stays_err_dump _
  rename_i datoff datlen hsecond
  rw [eq_of_strchr hfirst, eq_of_strchr hsecond, List.length_append, List.length_cons,
    List.length_append, List.length_cons] at htext
  split
  · exact stays_err_dump _
  apply (stays_atolField datoff).bind
  intro off hoff
  split
  · exact stays_err_dump _
  rename_i hnonneg
  apply (stays_atolField datlen).bind
  intro len hlen
  split
  · exact stays_err_dump _
  rename_i hvalid
  have hoff' := hoff.1 (by omega)
  have hlen' := hlen.1 (by omega)
  refine .ret ⟨?_, ?_, ?_⟩
  · change 1 ≤ len
    omega
  · change len ≤ DATLEN_MAX
    omega
  · change ((idxText key off len).length : Int) ≤ IDXLEN_MAX + 1
    -- a length of 0 is refused, so that its field is not empty
    have hfield : 0 < datlen.length := by
      apply List.length_pos_of_ne_nil
      intro hnil
      have hzero := hlen.2 hnil
      omega
    rw [length_idxText]
    omega

theorem stays_readidx (db : DB) (offset : Int) :
    Stays call (fun a => 0 ≤ a.1 ∨ offset ≠ 0 → a.2.Loaded) (_db_readidx db offset) := by
  have hrecord (db : DB) :
      Stays call (fun a => 0 ≤ a.1 ∨ offset ≠ 0 → a.2.Loaded) (readRecord db offset) := by
    rw [readRecord]
    apply (stays_read _ _ _ _).bind
    intro head _
    cases head with
    | none => exact stays_err_dump _
    | some head =>
        dsimp only
        split
        · split
          · rename_i hend
            refine .ret fun hload : 0 ≤ (-1 : Int) ∨ offset ≠ 0 => ?_
            rcases hload with hptr | hoffset
            · exact absurd hptr (by decide)
            · exact absurd hend.2 hoffset
          · exact stays_err_dump _
        · apply (stays_atolField _).bind
          intro ptrval _
          apply (stays_atolField _).bind
          intro idxlen _
          split
          · exact stays_err_dump _
          rename_i hidxlen
          apply (stays_read _ _ _ _).bind
          intro record _
          cases record with
          | none => exact stays_err_dump _
          | some record =>
              dsimp only
              split
              · exact stays_err_dump _
              · apply (stays_parseIdx (by omega)).bind
                intro db' hloaded
                exact .ret fun _ => hloaded
  rw [_db_readidx]
  split
  · exact stays_err_dump _
  · exact hrecord _

theorem stays_findLoop (key : List Byte) (fuel : Nat) (db : DB) (offset : Int) :
    Stays call (fun a => ¬ a.1 < 0 → a.2.Loaded) (findLoop key fuel db offset) := by
  induction fuel generalizing db offset with
  | zero => exact stays_spin
  | succ fuel ih =>
      rw [findLoop]
      split
      · exact .ret fun hrc : ¬ (-1 : Int) < 0 => absurd (by decide) hrc
      · rename_i hoffset
        apply (stays_readidx db offset).bind
        intro a hloaded
        dsimp only
        split
        · exact .ret fun _ => hloaded (.inr hoffset)
        · exact ih _ _

theorem stays_find_and_lock (fuel : Nat) (db : DB) (key : List Byte) (writelock : Bool) :
    Stays call (fun a => ¬ a.1 < 0 → a.2.Loaded) (_db_find_and_lock fuel db key writelock) := by
  have hsearch (db : DB) : Stays call (fun a => ¬ a.1 < 0 → a.2.Loaded)
      (_db_readptr db db.ptroff >>= fun a => findLoop key fuel a.2 a.1) := by
    apply (stays_readptr db db.ptroff).bind
    intro a _
    exact stays_findLoop key fuel a.2 a.1
  rw [_db_find_and_lock]
  dsimp only
  split
  · apply (stays_writew_lock _ _ _).bind
    intro _ _
    exact hsearch _
  · apply (stays_readw_lock _ _ _).bind
    intro _ _
    exact hsearch _

theorem stays_writeData (db : DB) (data : List Byte) (pos : Nat) :
    Stays call
      (fun db' : DB => db'.idxbuf = db.idxbuf ∧ db'.datoff = pos ∧ db'.datlen = data.length + 1)
      (writeData db data pos) := by
  rw [writeData]
  apply (stays_write _ _ _ _).bind
  intro datpos _
  cases datpos with
  | none => exact stays_err_dump _
  | some datpos => exact .ret ⟨rfl, rfl, rfl⟩

theorem stays_writedat_set (db : DB) (data : List Byte) (offset : Int) :
    Stays call
      (fun db' : DB => db'.idxbuf = db.idxbuf ∧ db'.datoff = offset ∧ db'.datlen = data.length + 1)
      (_db_writedat db data offset .set) := by
  rw [_db_writedat]
  split
  · exact stays_err_dump _
  · rename_i hoffset
    have hnat : ((offset.toNat : Nat) : Int) = offset := Int.toNat_of_nonneg (by omega)
    have hwrite := @stays_writeData call db data offset.toNat
    rwa [hnat] at hwrite

/-- The offset is the size that the file had. -/
theorem stays_writedat_end (db : DB) (data : List Byte) (offset : Int) :
    Stays call
      (fun db' : DB => ∃ datoff : Nat, Room call (.size .dat) datoff ∧ db'.datoff = datoff ∧
        db'.datlen = data.length + 1)
      (_db_writedat db data offset .end) := by
  rw [_db_writedat]
  apply (stays_writew_lock _ _ _).bind
  intro _ _
  apply (stays_fileSize .dat).bind
  intro size hroom
  apply (stays_writeData db data size).bind
  intro db' hdb'
  apply (stays_un_lock _).bind
  intro _ _
  exact .ret ⟨size, hroom, hdb'.2⟩

theorem stays_writeIndex (db : DB) (pos : Nat) :
    Stays call (fun _ => True) (writeIndex db pos) := by
  rw [writeIndex]
  apply (stays_write _ _ _ _).bind
  intro idxpos _
  cases idxpos with
  | none => exact stays_err_dump _
  | some idxpos => exact .ret trivial

/-- `sprintf` and its NUL stay within `idxbuf`. -/
theorem stays_writeidx {db : DB} {key : List Byte}
    (hfits : ((idxText key db.datoff db.datlen).length : Int) ≤ IDXLEN_MAX + 1) (offset : Int)
    (whence : Whence) (ptrval : Int) :
    Stays call (fun _ => True) (_db_writeidx db key offset whence ptrval) := by
  rw [_db_writeidx]
  dsimp only
  split
  · exact stays_err_quit _
  rw [if_neg (by omega)]
  split
  · exact stays_err_dump _
  cases whence with
  | set =>
      dsimp only
      split
      · exact stays_err_dump _
      · exact stays_writeIndex _ _
  | «end» =>
      apply (stays_writew_lock _ _ _).bind
      intro _ _
      apply (stays_fileSize .idx).bind
      intro size _
      apply (stays_writeIndex _ _).bind
      intro db' _
      apply (stays_un_lock _).bind
      intro _ _
      exact .ret trivial

theorem stays_writeptr (db : DB) (offset ptrval : Int) :
    Stays call (fun db' => ∃ idxpos, db' = { db with idxpos }) (_db_writeptr db offset ptrval) := by
  rw [_db_writeptr]
  split
  · exact stays_err_quit _
  split
  · exact stays_err_dump _
  · apply (stays_write _ _ _ _).bind
    intro idxpos _
    cases idxpos with
    | none => exact stays_err_dump _
    | some idxpos => exact .ret ⟨idxpos, rfl⟩

/-- A record is deleted in the bytes that it has been read from. -/
theorem stays_dodelete {db : DB} (hloaded : db.Loaded) :
    Stays call (fun _ => True) (Buffered._db_dodelete db) := by
  have hpos := hloaded.datlen_pos
  rw [Buffered._db_dodelete]
  apply (stays_touch .datbuf _ hloaded.blanks).bind
  intro _ _
  apply (stays_touch .idxbuf _ hloaded.idxbuf).bind
  intro _ _
  rw [_db_dodelete]
  apply (stays_writew_lock _ _ _).bind
  intro _ _
  apply (stays_writedat_set _ _ _).bind
  intro db₁ hdb₁
  obtain ⟨hidxbuf, hdatoff, hdatlen⟩ := hdb₁
  apply (stays_readptr _ _).bind
  intro a ha
  have hfits : ((idxText a.2.idxbuf a.2.datoff a.2.datlen).length : Int) ≤ IDXLEN_MAX + 1 := by
    have hdatlen' : db₁.datlen = db.datlen := by
      rw [hdatlen]
      dsimp only
      rw [List.length_replicate]
      omega
    rw [ha]
    dsimp only
    have hblank : (List.replicate db.idxbuf.length SPACE).length = db.idxbuf.length :=
      List.length_replicate
    rw [hidxbuf, hdatoff, hdatlen']
    dsimp only
    rw [length_idxText_congr hblank]
    exact hloaded.text
  apply (stays_writeidx hfits _ _ _).bind
  intro db₂ _
  apply (stays_writeptr _ _ _).bind
  intro db₃ _
  apply (stays_writeptr _ _ _).bind
  intro db₄ _
  apply (stays_un_lock _).bind
  intro _ _
  exact .ret trivial

theorem stays_readdat {db : DB} (hloaded : db.Loaded) :
    Stays call (fun _ => True) (Buffered._db_readdat db) := by
  rw [Buffered._db_readdat]
  apply (stays_touch .datbuf _ hloaded.datbuf).bind
  intro _ _
  rw [_db_readdat]
  split
  · exact stays_err_dump _
  apply (stays_read _ _ _ _).bind
  intro record _
  cases record with
  | none => exact stays_err_dump _
  | some record =>
      dsimp only
      split
      · exact stays_err_dump _
      split
      · exact stays_err_dump _
      · exact .ret trivial

theorem stays_fetch (fuel : Nat) (db : DB) (key : List Byte) :
    Stays call (fun _ => True) (Buffered.db_fetch fuel db key) := by
  rw [Buffered.db_fetch]
  apply (stays_find_and_lock fuel db key false).bind
  intro a hloaded
  dsimp only
  split
  · apply (stays_un_lock _).bind
    intro _ _
    exact .ret trivial
  · rename_i hrc
    apply (stays_readdat (hloaded hrc)).bind
    intro b _
    apply (stays_un_lock _).bind
    intro _ _
    exact .ret trivial

theorem stays_delete (fuel : Nat) (db : DB) (key : List Byte) :
    Stays call (fun _ => True) (Buffered.db_delete fuel db key) := by
  rw [Buffered.db_delete]
  apply (stays_find_and_lock fuel db key true).bind
  intro a hloaded
  dsimp only
  split
  · rename_i hrc
    apply (stays_dodelete (hloaded (by omega))).bind
    intro db' _
    apply (stays_un_lock _).bind
    intro _ _
    exact .ret trivial
  · apply (stays_un_lock _).bind
    intro _ _
    exact .ret trivial

theorem stays_storeAppend {db : DB} {key data : List Byte} {flag : Int} (ptrval : Int) :
    Stays (.store key data flag) (fun _ => True) (storeAppend db key data ptrval) := by
  rw [storeAppend]
  apply (stays_writedat_end db data 0).bind
  intro db₁ hdb₁
  obtain ⟨datoff, hroom, hdatoff, hdatlen⟩ := hdb₁
  have hfits : ((idxText key db₁.datoff db₁.datlen).length : Int) ≤ IDXLEN_MAX + 1 := by
    rw [hdatoff, hdatlen]
    exact hroom
  apply (stays_writeidx hfits _ _ _).bind
  intro db₂ _
  exact (stays_writeptr _ _ _).mono fun _ _ => trivial

/-- The record of a free place, read with a key of this length and data of this length. -/
theorem stays_storeReuse {db : DB} {key data : List Byte} (hloaded : db.Loaded)
    (hkey : key.length = db.idxbuf.length) (hdatlen : (data.length : Int) + 1 = db.datlen)
    (ptrval : Int) : Stays call (fun _ => True) (storeReuse db key data ptrval) := by
  rw [storeReuse]
  apply (stays_writedat_set db data db.datoff).bind
  intro db₁ hdb₁
  obtain ⟨-, hdatoff, hdatlen₁⟩ := hdb₁
  have hfits : ((idxText key db₁.datoff db₁.datlen).length : Int) ≤ IDXLEN_MAX + 1 := by
    rw [hdatoff, hdatlen₁, hdatlen, length_idxText_congr hkey]
    exact hloaded.text
  apply (stays_writeidx hfits _ _ _).bind
  intro db₂ _
  exact (stays_writeptr _ _ _).mono fun _ _ => trivial

theorem stays_findfreeLoop (keylen datlen : Int) (fuel : Nat) (db : DB)
    (saveoffset offset : Int) :
    Stays call (fun a => a.1 ≠ 0 → a.2.2.Loaded ∧ (a.2.2.idxbuf.length : Int) = keylen ∧
      a.2.2.datlen = datlen) (findfreeLoop keylen datlen fuel db saveoffset offset) := by
  induction fuel generalizing db saveoffset offset with
  | zero => exact stays_spin
  | succ fuel ih =>
      rw [findfreeLoop]
      split
      · rename_i hoffset
        exact .ret fun hne => absurd hoffset hne
      · rename_i hoffset
        apply (stays_readidx db offset).bind
        intro a hloaded
        dsimp only
        split
        · rename_i hfound
          exact .ret fun _ => ⟨hloaded (.inr hoffset), hfound⟩
        · exact ih _ _ _

theorem stays_findfree (fuel : Nat) (db : DB) (keylen datlen : Int) :
    Stays call (fun a => ¬ a.1 < 0 → a.2.Loaded ∧ (a.2.idxbuf.length : Int) = keylen ∧
      a.2.datlen = datlen) (_db_findfree fuel db keylen datlen) := by
  rw [_db_findfree]
  apply (stays_writew_lock _ _ _).bind
  intro _ _
  apply (stays_readptr _ _).bind
  intro a _
  apply (stays_findfreeLoop keylen datlen fuel a.2 FREE_OFF a.1).bind
  intro b hfound
  dsimp only
  split
  · apply (stays_un_lock _).bind
    intro _ _
    exact .ret fun hrc : ¬ (-1 : Int) < 0 => absurd (by decide) hrc
  · rename_i hoffset
    obtain ⟨⟨hpos, hle, htext⟩, hkey, hdatlen⟩ := hfound hoffset
    apply (stays_writeptr _ _ _).bind
    intro db' hdb'
    obtain ⟨idxpos, rfl⟩ := hdb'
    apply (stays_un_lock _).bind
    intro _ _
    exact .ret fun _ => ⟨⟨hpos, hle, htext⟩, hkey, hdatlen⟩

theorem stays_storeNew (fuel : Nat) (db : DB) (key data : List Byte) (flag : Int) :
    Stays (.store key data flag) (fun _ => True) (storeNew fuel db key data flag) := by
  rw [storeNew]
  split
  · exact .ret trivial
  · apply (stays_readptr _ _).bind
    intro a _
    apply (stays_findfree fuel a.2 key.length (data.length + 1)).bind
    intro b hfound
    dsimp only
    split
    · apply (stays_storeAppend _).bind
      intro db' _
      exact .ret trivial
    · rename_i hrc
      obtain ⟨hloaded, hkey, hdatlen⟩ := hfound hrc
      apply (stays_storeReuse hloaded (by omega) hdatlen.symm _).bind
      intro db' _
      exact .ret trivial

theorem stays_storeOld {db : DB} (hloaded : db.Loaded) (key data : List Byte) (flag : Int) :
    Stays (.store key data flag) (fun _ => True) (Buffered.storeOld db key data flag) := by
  rw [Buffered.storeOld]
  split
  · exact .ret trivial
  split
  · apply (stays_dodelete hloaded).bind
    intro db₁ _
    apply (stays_readptr _ _).bind
    intro a _
    apply (stays_storeAppend _).bind
    intro db₂ _
    exact .ret trivial
  · apply (stays_writedat_set _ _ _).bind
    intro db₁ _
    exact .ret trivial

theorem stays_store (fuel : Nat) (db : DB) (key data : List Byte) (flag : Int) :
    Stays (.store key data flag) (fun _ => True) (Buffered.db_store fuel db key data flag) := by
  rw [Buffered.db_store]
  split
  · exact .ret trivial
  dsimp only
  split
  · exact stays_err_dump _
  apply (stays_find_and_lock fuel db key true).bind
  intro a hloaded
  have hend (b : Int × DB) : Stays (.store key data flag) (fun _ => True)
      (un_lock (chainLock b.2.chainoff) >>= fun _ => Prog.ret (b.1, b.2) : P (Int × DB)) := by
    apply (stays_un_lock _).bind
    intro _ _
    exact .ret trivial
  split
  · exact (stays_storeNew fuel a.2 key data flag).bind fun b _ => hend b
  · rename_i hrc
    exact (stays_storeOld (hloaded hrc) key data flag).bind fun b _ => hend b

theorem stays_nextrecLoop (fuel : Nat) (db : DB) :
    Stays call (fun a => a.1 = true → a.2.Loaded) (nextrecLoop fuel db) := by
  induction fuel generalizing db with
  | zero => exact stays_spin
  | succ fuel ih =>
      rw [nextrecLoop]
      apply (stays_readidx db 0).bind
      intro a hloaded
      dsimp only
      split
      · exact .ret fun hfound : false = true => absurd hfound Bool.false_ne_true
      · rename_i hptr
        split
        · exact ih _
        · exact .ret fun _ => hloaded (.inl (by omega))

theorem stays_nextrec (fuel : Nat) (db : DB) :
    Stays call (fun _ => True) (Buffered.db_nextrec fuel db) := by
  rw [Buffered.db_nextrec]
  apply (stays_readw_lock _ _ _).bind
  intro _ _
  apply (stays_nextrecLoop fuel db).bind
  intro a hloaded
  dsimp only
  split
  · rename_i hfound
    apply (stays_readdat (hloaded hfound)).bind
    intro b _
    apply (stays_un_lock _).bind
    intro _ _
    exact .ret trivial
  · apply (stays_un_lock _).bind
    intro _ _
    exact .ret trivial

theorem stays_open (flags : OFlags) : Stays call (fun _ => True) (db_open flags) := by
  rw [db_open]
  apply (stays_openFile _ _).bind
  intro idx _
  apply (stays_openFile _ _).bind
  intro dat _
  split
  · exact .ret trivial
  dsimp only
  split
  · have hunlock : Stays call (fun _ => True)
        (un_lock idxLock >>= fun _ => Prog.ret (some (db_rewind (newDB flags))) : P _) := by
      apply (stays_un_lock _).bind
      intro _ _
      exact .ret trivial
    apply (stays_writew_lock _ _ _).bind
    intro _ _
    apply (stays_fileSize .idx).bind
    intro size _
    split
    · apply (stays_write _ _ _ _).bind
      intro pos _
      cases pos with
      | none => exact stays_err_dump _
      | some pos => exact hunlock
    · exact hunlock
  · exact .ret trivial

/-- A call stays within the buffers of whatever handle it is given, whatever the files hold and
whatever other processes do. -/
theorem stays_prog {fuel : Nat} {db : Option DB} {prog : P (Result × Option DB)}
    (hprog : Buffered.prog fuel call db = some prog) : Stays call (fun _ => True) prog := by
  have hend {α : Type} {body : P α} (hbody : Stays call (fun _ => True) body)
      (f : α → Result × Option DB) :
      Stays call (fun _ => True) (body >>= fun a => Prog.ret (f a)) := by
    apply hbody.bind
    intro _ _
    exact .ret trivial
  cases call with
  | «open» flags =>
      cases hprog
      exact hend (stays_open flags) _
  | fetch key =>
      cases db with
      | none => cases hprog
      | some db =>
          cases hprog
          exact hend (stays_fetch fuel db key) _
  | store key data flag =>
      cases db with
      | none => cases hprog
      | some db =>
          cases hprog
          exact hend (stays_store fuel db key data flag) _
  | delete key =>
      cases db with
      | none => cases hprog
      | some db =>
          cases hprog
          exact hend (stays_delete fuel db key) _
  | rewind =>
      cases db with
      | none => cases hprog
      | some db =>
          cases hprog
          exact .ret trivial
  | nextrec =>
      cases db with
      | none => cases hprog
      | some db =>
          cases hprog
          exact hend (stays_nextrec fuel db) _

end Stays

end ApueCourse.Db
