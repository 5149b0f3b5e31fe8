import ApueCourse.Db.Kernel
import ApueCourse.Memory.Decimal

/-! The database library `db.c`. -/

namespace ApueCourse.Db

open Memory Program

def IDXLEN_SZ : Nat := 4

def SEP : Byte := 58

def SPACE : Byte := 32

def NEWLINE : Byte := 10

def PTR_SZ : Nat := 6

def PTR_MAX : Int := 999999

def NHASH_DEF : Nat := 137

def FREE_OFF : Nat := 0

def HASH_OFF : Nat := PTR_SZ

def DB_INSERT : Int := 1

def DB_REPLACE : Int := 2

def DB_STORE : Int := 3

def IDXLEN_MIN : Int := 6

def IDXLEN_MAX : Int := 1024

def DATLEN_MIN : Int := 2

def DATLEN_MAX : Int := 1024

/-- How a process ends in the middle of a call.  `fault` is an access outside a buffer,
and `spin` a loop that has made as many turns as it is given. -/
inductive Stop
  | err_dump (message : String)
  | err_quit (message : String)
  | fault
  | spin

abbrev P := Prog Op Op.Res Stop

/-- The descriptors' access modes and file offsets, and what `DB` holds; `idxbuf` and
`datbuf` are the strings at the front of the buffers. -/
structure DB where
  readable : Bool
  writable : Bool
  append : Bool
  idxpos : Nat
  datpos : Nat
  idxbuf : List Byte
  datbuf : List Byte
  idxoff : Int
  idxlen : Int
  datoff : Int
  datlen : Int
  ptrval : Int
  ptroff : Int
  chainoff : Int
  deriving DecidableEq

inductive Whence
  | set
  | end
  deriving DecidableEq

/-! System calls on a descriptor.  `none` is the result -1. -/

def DB.read (db : DB) (file : FileId) (pos n : Nat) : P (Option (List Byte)) :=
  if db.readable then .call (.read file pos n) fun bytes => .ret (some bytes)
  else .ret none

/-- The file offset behind a complete write. -/
def DB.write (db : DB) (file : FileId) (pos : Nat) (bytes : List Byte) : P (Option Nat) :=
  if ¬ db.writable then .ret none
  else if db.append then .call (.append file bytes) fun (pos : Option Nat) => .ret pos
  else .call (.write file pos bytes) fun (done : Bool) =>
    .ret (if done then some (pos + bytes.length) else none)

def readw_lock (db : DB) (range : Range) (message : String) : P Unit :=
  if db.readable then .call (.lockw .read range) .ret else .stop (.err_dump message)

def writew_lock (db : DB) (range : Range) (message : String) : P Unit :=
  if db.writable then .call (.lockw .write range) .ret else .stop (.err_dump message)

def un_lock (range : Range) : P Unit := .call (.unlock range) .ret

/-- The size of a file, by `lseek` to its end or by `fstat`. -/
def fileSize (file : FileId) : P Nat := .call (.size file) .ret

def openFile (file : FileId) (flags : OFlags) : P Bool := .call (.open file flags) .ret

def freeLock : Range := ⟨.idx, FREE_OFF, 1⟩

def chainLock (chainoff : Int) : Range := ⟨.idx, chainoff.toNat, 1⟩

def datLock : Range := ⟨.dat, 0, 0⟩

def tailLock : Range := ⟨.idx, (NHASH_DEF + 1) * PTR_SZ + 1, 0⟩

def idxLock : Range := ⟨.idx, 0, 0⟩

/-- The number of a NUL-terminated field. -/
def atolField (field : List Byte) : P Int :=
  match atol (field ++ [0]) with
  | some n => .ret n
  | none => .stop .fault

/-- What is in front of the first `SEP` and behind it. -/
def strchr : List Byte → Option (List Byte × List Byte)
  | [] => none
  | c :: rest =>
      if c = SEP then some ([], rest)
      else (strchr rest).map fun (front, back) => (c :: front, back)

/-- `c * i`, the `char` being signed, in 32 bits. -/
def hashTerm (c : Byte) (i : Nat) : Int :=
  Int.bmod ((if c < 128 then (c.toNat : Int) else c.toNat - 256) * i) (2 ^ 32)

def hashFrom : Nat → Nat → List Byte → Nat
  | hval, _, [] => hval
  | hval, i, c :: rest =>
      hashFrom ((((hval : Int) + hashTerm c i) % 2 ^ 64).toNat) (i + 1) rest

def _db_hash (key : List Byte) : Nat := hashFrom 0 1 key % NHASH_DEF

def _db_readptr (db : DB) (offset : Int) : P (Int × DB) := do
  if offset < 0 then
    .stop (.err_dump "_db_readptr: lseek error to ptr field")
  else
    match ← db.read .idx offset.toNat PTR_SZ with
    | none => .stop (.err_dump "_db_readptr: read error of ptr field")
    | some asciiptr =>
        if asciiptr.length ≠ PTR_SZ then
          .stop (.err_dump "_db_readptr: read error of ptr field")
        else do
          let ptr ← atolField asciiptr
          return (ptr, { db with idxpos := offset.toNat + PTR_SZ })

/-- The part of `_db_readidx` behind the reads: the index record without its length,
with the newline at its end. -/
def parseIdx (db : DB) (record : List Byte) : P DB := do
  if record.getLast? ≠ some NEWLINE then
    .stop (.err_dump "_db_readidx: missing newline")
  else
    let text := record.dropLast.takeWhile (· ≠ 0)
    match strchr text with
    | none => .stop (.err_dump "_db_readidx: missing first separator")
    | some (key, rest) =>
        match strchr rest with
        | none => .stop (.err_dump "_db_readidx: missing second separator")
        | some (datoff, datlen) =>
            if SEP ∈ datlen then
              .stop (.err_dump "_db_readidx: too many separators")
            else do
              let datoff ← atolField datoff
              if datoff < 0 then
                .stop (.err_dump "_db_readidx: starting offset < 0")
              else
                let datlen ← atolField datlen
                if datlen ≤ 0 ∨ datlen > DATLEN_MAX then
                  .stop (.err_dump "_db_readidx: invalid length")
                else
                  return { db with idxbuf := key, datoff, datlen }

/-- Behind the `lseek`. -/
def readRecord (db : DB) (offset : Int) : P (Int × DB) := do
  match ← db.read .idx db.idxpos (PTR_SZ + IDXLEN_SZ) with
  | none => .stop (.err_dump "_db_readidx: readv error of index record")
  | some head =>
      if head.length ≠ PTR_SZ + IDXLEN_SZ then
        if head = [] ∧ offset = 0 then
          return (-1, db)
        else
          .stop (.err_dump "_db_readidx: readv error of index record")
      else do
        let ptrval ← atolField (head.take PTR_SZ)
        let idxlen ← atolField (head.drop PTR_SZ)
        if idxlen < IDXLEN_MIN ∨ idxlen > IDXLEN_MAX then
          .stop (.err_dump "_db_readidx: invalid length")
        else do
          let pos := db.idxpos + (PTR_SZ + IDXLEN_SZ)
          match ← db.read .idx pos idxlen.toNat with
          | none => .stop (.err_dump "_db_readidx: read error of index record")
          | some record =>
              if (record.length : Int) ≠ idxlen then
                .stop (.err_dump "_db_readidx: read error of index record")
              else do
                let idxpos := pos + record.length
                let db ← parseIdx { db with ptrval, idxlen, idxpos } record
                return (db.ptrval, db)

def _db_readidx (db : DB) (offset : Int) : P (Int × DB) :=
  if offset < 0 then
    .stop (.err_dump "_db_readidx: lseek error")
  else
    let idxpos := if offset = 0 then db.idxpos else offset.toNat
    readRecord { db with idxpos, idxoff := idxpos } offset

def _db_readdat (db : DB) : P (List Byte × DB) := do
  if db.datoff < 0 then
    .stop (.err_dump "_db_readdat: lseek error")
  else
    match ← db.read .dat db.datoff.toNat db.datlen.toNat with
    | none => .stop (.err_dump "_db_readdat: read error")
    | some record =>
        if (record.length : Int) ≠ db.datlen then
          .stop (.err_dump "_db_readdat: read error")
        else if record.getLast? ≠ some NEWLINE then
          .stop (.err_dump "_db_readdat: missing newline")
        else
          let datbuf := record.dropLast.takeWhile (· ≠ 0)
          return (datbuf, { db with datbuf, datpos := db.datoff.toNat + record.length })

/-- `lseek` and `writev` of `_db_writedat`. -/
def writeData (db : DB) (data : List Byte) (pos : Nat) : P DB := do
  let db := { db with datoff := pos, datlen := data.length + 1 }
  match ← db.write .dat pos (data ++ [NEWLINE]) with
  | none => .stop (.err_dump "_db_writedat: writev error of data record")
  | some datpos => return { db with datpos }

def _db_writedat (db : DB) (data : List Byte) (offset : Int) : Whence → P DB
  | .set =>
      if offset < 0 then .stop (.err_dump "_db_writedat: lseek error")
      else writeData db data offset.toNat
  | .end => do
      writew_lock db datLock "_db_writedat: writew_lock error"
      let size ← fileSize .dat
      let db ← writeData db data size
      un_lock datLock
      return db

/-- The text that `sprintf` leaves in `idxbuf`. -/
def idxText (key : List Byte) (datoff datlen : Int) : List Byte :=
  key ++ [SEP] ++ sprintfLong datoff ++ [SEP] ++ sprintfLong datlen ++ [NEWLINE]

/-- `lseek` and `writev` of `_db_writeidx`. -/
def writeIndex (db : DB) (pos : Nat) : P DB := do
  let db := { db with idxoff := pos }
  let asciiptrlen :=
    sprintfWidth PTR_SZ db.ptrval ++ sprintfWidth IDXLEN_SZ db.idxbuf.length
  match ← db.write .idx pos (asciiptrlen ++ db.idxbuf) with
  | none => .stop (.err_dump "_db_writeidx: writev error of index record")
  | some idxpos => return { db with idxpos }

/-- `key` may be the string in `idxbuf` itself. -/
def _db_writeidx (db : DB) (key : List Byte) (offset : Int) (whence : Whence)
    (ptrval : Int) : P DB := do
  let db := { db with ptrval }
  if ptrval < 0 ∨ ptrval > PTR_MAX then
    .stop (.err_quit "_db_writeidx: invalid ptr: %d")
  else
    let text := idxText key db.datoff db.datlen
    if (text.length : Int) + 1 > IDXLEN_MAX + 2 then
      .stop .fault
    else
      let db := { db with idxbuf := text }
      if (text.length : Int) < IDXLEN_MIN ∨ (text.length : Int) > IDXLEN_MAX then
        .stop (.err_dump "_db_writeidx: invalid length")
      else
        match whence with
        | .set =>
            if offset < 0 then .stop (.err_dump "_db_writeidx: lseek error")
            else writeIndex db offset.toNat
        | .end => do
            writew_lock db tailLock "_db_writeidx: writew_lock error"
            let size ← fileSize .idx
            let db ← writeIndex db size
            un_lock tailLock
            return db

def _db_writeptr (db : DB) (offset ptrval : Int) : P DB := do
  if ptrval < 0 ∨ ptrval > PTR_MAX then
    .stop (.err_quit "_db_writeptr: invalid ptr: %d")
  else if offset < 0 then
    .stop (.err_dump "_db_writeptr: lseek error to ptr field")
  else
    match ← db.write .idx offset.toNat (sprintfWidth PTR_SZ ptrval) with
    | none => .stop (.err_dump "_db_writeptr: write error of ptr field")
    | some idxpos => return { db with idxpos }

/-- The loop of `_db_find_and_lock`. -/
def findLoop (key : List Byte) : Nat → DB → Int → P (Int × DB)
  | 0, _, _ => .stop .spin
  | fuel + 1, db, offset => do
      if offset = 0 then
        return (-1, db)
      else
        let (nextoffset, db) ← _db_readidx db offset
        if db.idxbuf = key then return (0, db)
        else findLoop key fuel { db with ptroff := offset } nextoffset

def _db_find_and_lock (fuel : Nat) (db : DB) (key : List Byte) (writelock : Bool) :
    P (Int × DB) := do
  let chainoff : Int := _db_hash key * PTR_SZ + HASH_OFF
  let db := { db with chainoff, ptroff := chainoff }
  if writelock then
    writew_lock db (chainLock chainoff) "_db_find_and_lock: writew_lock error"
  else
    readw_lock db (chainLock chainoff) "_db_find_and_lock: readw_lock error"
  let (offset, db) ← _db_readptr db db.ptroff
  findLoop key fuel db offset

def db_fetch (fuel : Nat) (db : DB) (key : List Byte) : P (Option (List Byte) × DB) := do
  let (rc, db) ← _db_find_and_lock fuel db key false
  if rc < 0 then
    un_lock (chainLock db.chainoff)
    return (none, db)
  else
    let (data, db) ← _db_readdat db
    un_lock (chainLock db.chainoff)
    return (some data, db)

def _db_dodelete (db : DB) : P DB := do
  let db := { db with
    datbuf := List.replicate (db.datlen - 1).toNat SPACE
    idxbuf := List.replicate db.idxbuf.length SPACE }
  writew_lock db freeLock "_db_dodelete: writew_lock error"
  let db ← _db_writedat db db.datbuf db.datoff .set
  let (freeptr, db) ← _db_readptr db FREE_OFF
  let saveptr := db.ptrval
  let db ← _db_writeidx db db.idxbuf db.idxoff .set freeptr
  let db ← _db_writeptr db FREE_OFF db.idxoff
  let db ← _db_writeptr db db.ptroff saveptr
  un_lock freeLock
  return db

def db_delete (fuel : Nat) (db : DB) (key : List Byte) : P (Int × DB) := do
  let (rc, db) ← _db_find_and_lock fuel db key true
  if rc = 0 then
    let db ← _db_dodelete db
    un_lock (chainLock db.chainoff)
    return (0, db)
  else
    un_lock (chainLock db.chainoff)
    return (-1, db)

/-- The loop of `_db_findfree`, with `saveoffset` behind it. -/
def findfreeLoop (keylen datlen : Int) : Nat → DB → Int → Int → P (Int × Int × DB)
  | 0, _, _, _ => .stop .spin
  | fuel + 1, db, saveoffset, offset => do
      if offset = 0 then
        return (offset, saveoffset, db)
      else
        let (nextoffset, db) ← _db_readidx db offset
        if (db.idxbuf.length : Int) = keylen ∧ db.datlen = datlen then
          return (offset, saveoffset, db)
        else
          findfreeLoop keylen datlen fuel db offset nextoffset

def _db_findfree (fuel : Nat) (db : DB) (keylen datlen : Int) : P (Int × DB) := do
  writew_lock db freeLock "_db_findfree: writew_lock error"
  let (offset, db) ← _db_readptr db FREE_OFF
  let (offset, saveoffset, db) ← findfreeLoop keylen datlen fuel db FREE_OFF offset
  if offset = 0 then
    un_lock freeLock
    return (-1, db)
  else
    let db ← _db_writeptr db saveoffset db.ptrval
    un_lock freeLock
    return (0, db)

/-- The record is appended to both files and goes to the front of its chain. -/
def storeAppend (db : DB) (key data : List Byte) (ptrval : Int) : P DB := do
  let db ← _db_writedat db data 0 .end
  let db ← _db_writeidx db key 0 .end ptrval
  _db_writeptr db db.chainoff db.idxoff

/-- The record takes the place that `_db_findfree` has found. -/
def storeReuse (db : DB) (key data : List Byte) (ptrval : Int) : P DB := do
  let db ← _db_writedat db data db.datoff .set
  let db ← _db_writeidx db key db.idxoff .set ptrval
  _db_writeptr db db.chainoff db.idxoff

/-- `db_store` behind `_db_find_and_lock`, where no record has been found. -/
def storeNew (fuel : Nat) (db : DB) (key data : List Byte) (flag : Int) : P (Int × DB) := do
  if flag = DB_REPLACE then
    return (-1, db)
  else
    let (ptrval, db) ← _db_readptr db db.chainoff
    let (rc, db) ← _db_findfree fuel db key.length (data.length + 1)
    if rc < 0 then
      let db ← storeAppend db key data ptrval
      return (0, db)
    else
      let db ← storeReuse db key data ptrval
      return (0, db)

/-- `db_store` behind `_db_find_and_lock`, where the record has been found. -/
def storeOld (db : DB) (key data : List Byte) (flag : Int) : P (Int × DB) := do
  if flag = DB_INSERT then
    return (1, db)
  else if (data.length : Int) + 1 ≠ db.datlen then
    let db ← _db_dodelete db
    let (ptrval, db) ← _db_readptr db db.chainoff
    let db ← storeAppend db key data ptrval
    return (0, db)
  else
    let db ← _db_writedat db data db.datoff .set
    return (0, db)

def db_store (fuel : Nat) (db : DB) (key data : List Byte) (flag : Int) : P (Int × DB) := do
  if flag ≠ DB_INSERT ∧ flag ≠ DB_REPLACE ∧ flag ≠ DB_STORE then
    return (-1, db)
  else
    let datlen : Int := data.length + 1
    if datlen < DATLEN_MIN ∨ datlen > DATLEN_MAX then
      .stop (.err_dump "db_store: invalid data length")
    else
      let (rc, db) ← _db_find_and_lock fuel db key true
      let (rc, db) ← if rc < 0 then storeNew fuel db key data flag
        else storeOld db key data flag
      un_lock (chainLock db.chainoff)
      return (rc, db)

def db_rewind (db : DB) : DB :=
  let offset := (NHASH_DEF + 1) * PTR_SZ + 1
  { db with idxpos := offset, idxoff := offset }

/-- The loop of `db_nextrec`, up to a record that is not blank or the end of the file. -/
def nextrecLoop : Nat → DB → P (Bool × DB)
  | 0, _ => .stop .spin
  | fuel + 1, db => do
      let (ptr, db) ← _db_readidx db 0
      if ptr < 0 then
        return (false, db)
      else if db.idxbuf.all (· = SPACE) then
        nextrecLoop fuel db
      else
        return (true, db)

def db_nextrec (fuel : Nat) (db : DB) : P (Option (List Byte × List Byte) × DB) := do
  readw_lock db freeLock "db_nextrec: readw_lock error"
  let (found, db) ← nextrecLoop fuel db
  if found then
    let key := db.idxbuf
    let (data, db) ← _db_readdat db
    un_lock freeLock
    return (some (key, data), db)
  else
    un_lock freeLock
    return (none, db)

/-- The free list pointer and the hash table, all of them 0, and a newline. -/
def emptyTable : List Byte :=
  (List.replicate (NHASH_DEF + 1) (sprintfWidth PTR_SZ 0)).flatten ++ [NEWLINE]

/-- `calloc` and `open`. -/
def newDB (flags : OFlags) : DB where
  readable := flags.readable
  writable := flags.writable
  append := flags.append
  idxpos := 0
  datpos := 0
  idxbuf := []
  datbuf := []
  idxoff := 0
  idxlen := 0
  datoff := 0
  datlen := 0
  ptrval := 0
  ptroff := 0
  chainoff := 0

def db_open (flags : OFlags) : P (Option DB) := do
  let idx ← openFile .idx flags
  let dat ← openFile .dat flags
  if idx = false ∨ dat = false then
    return none
  else
    let db := newDB flags
    if flags.creat ∧ flags.trunc then
      writew_lock db idxLock "db_open: writew_lock error"
      let size ← fileSize .idx
      if size = 0 then
        match ← db.write .idx 0 emptyTable with
        | none => .stop (.err_dump "db_open: index file init write error")
        | some _ => pure ()
      un_lock idxLock
    return some (db_rewind db)

end ApueCourse.Db
