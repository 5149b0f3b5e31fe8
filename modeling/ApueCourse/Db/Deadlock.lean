import ApueCourse.Db.Processes
import Mathlib.Logic.Relation

/-! The order in which the calls of `db.c` take their locks, and that no processes wait for
each other in a circle. -/

namespace ApueCourse.Db

open Memory Program Transition

/-- The lock of one hash chain. -/
def Range.IsChain (range : Range) : Prop :=
  range.file = .idx ∧ range.len = 1 ∧ PTR_SZ ≤ range.start ∧
    range.start < (NHASH_DEF + 1) * PTR_SZ

/-- The locks that are taken while a chain is locked. -/
def Range.IsInner (range : Range) : Prop :=
  range = freeLock ∨ range = tailLock ∨ range = datLock

instance (range : Range) : Decidable range.IsChain := inferInstanceAs (Decidable (_ ∧ _))

instance (range : Range) : Decidable range.IsInner := inferInstanceAs (Decidable (_ ∨ _))

/-- The ranges that a process has locked, the last one at the front. -/
abbrev Held := List (Range × LockMode)

namespace Held

/-- There is one lock at a time, or one inner lock while a chain is locked. -/
def Nested : Held → Prop
  | [] | [_] => True
  | [(inner, _), (outer, _)] => inner.IsInner ∧ outer.IsChain
  | _ => False

instance : DecidablePred Nested
  | [] | [_] => isTrue trivial
  | [(inner, _), (outer, _)] => inferInstanceAs (Decidable (inner.IsInner ∧ outer.IsChain))
  | _ :: _ :: _ :: _ => isFalse id

def table : Held → FileId → Nat → Option LockMode
  | [], _, _ => none
  | (range, mode) :: rest, file, byte =>
      if range.Has file byte then some mode else table rest file byte

/-- What a system call makes of the locks; `none` where it does not belong there. -/
def step (held : Held) : Op → Option Held
  | .lockw mode range => if Nested ((range, mode) :: held) then some ((range, mode) :: held)
      else none
  | .unlock range =>
      match held with
      | (last, _) :: rest => if last = range then some rest else none
      | [] => none
  | _ => some held

end Held

theorem Held.nested_single (range : Range) (mode : LockMode) : Nested [(range, mode)] :=
  trivial

theorem Range.not_has_of_isInner {inner outer : Range} (hinner : inner.IsInner)
    (houter : outer.IsChain) {file : FileId} {byte : Nat} (hbyte : outer.Has file byte) :
    ¬ inner.Has file byte := by
  obtain ⟨hfile, hlen, hlow, hhigh⟩ := houter
  obtain ⟨hidx, hstart, hend⟩ := hbyte
  rintro ⟨hfile', hstart', hend'⟩
  simp only [PTR_SZ, NHASH_DEF] at hlow hhigh
  rcases hinner with rfl | rfl | rfl
  · simp only [freeLock, FREE_OFF] at hend'
    omega
  · simp only [tailLock, NHASH_DEF, PTR_SZ] at hstart'
    omega
  · simp only [datLock] at hfile'
    rw [hidx, hfile] at hfile'
    cases hfile'

/-- The program starts with the locks `held`, and where it comes to its end it has the
locks `held'` and a result that is `good`. -/
def Leads {α : Type} (held held' : Held) (good : α → Prop) (prog : P α) : Prop :=
  prog.Follows Held.step (fun a locks => locks = held' ∧ good a) held

namespace Leads

variable {α β : Type} {held middle held' : Held} {good : α → Prop} {good' : β → Prop}

theorem ret {a : α} (ha : good a) : Leads held held good (.ret a) := ⟨rfl, ha⟩

theorem bind {prog : P α} {f : α → P β} (hprog : Leads held middle good prog)
    (hf : ∀ a, good a → Leads middle held' good' (f a)) :
    Leads held held' good' (prog >>= f) := by
  apply Prog.Follows.bind hprog
  rintro a _ ⟨rfl, ha⟩
  exact hf a ha

end Leads

/-- An inner lock goes with a chain that is locked and with no lock at all. -/
def Held.Outer (held : Held) : Prop :=
  ∀ (inner : Range) (mode : LockMode), inner.IsInner → Held.Nested ((inner, mode) :: held)

abbrev Anything {α : Type} (_ : α) : Prop := True

theorem leads_read (db : DB) (file : FileId) (pos n : Nat) (held : Held) :
    Leads held held Anything (db.read file pos n) := by
  rw [DB.read]
  split
  · exact ⟨held, rfl, fun _ => ⟨rfl, trivial⟩⟩
  · exact .ret trivial

theorem leads_write (db : DB) (file : FileId) (pos : Nat) (bytes : List Byte)
    (held : Held) : Leads held held Anything (db.write file pos bytes) := by
  rw [DB.write]
  split
  · exact .ret trivial
  · split
    · exact ⟨held, rfl, fun _ => ⟨rfl, trivial⟩⟩
    · exact ⟨held, rfl, fun _ => ⟨rfl, trivial⟩⟩

theorem leads_fileSize (file : FileId) (held : Held) :
    Leads held held Anything (fileSize file) :=
  ⟨held, rfl, fun _ => ⟨rfl, trivial⟩⟩

theorem leads_atolField (field : List Byte) (held : Held) :
    Leads held held Anything (atolField field) := by
  rw [atolField]
  split
  · exact .ret trivial
  · trivial

theorem leads_readw_lock (db : DB) (range : Range) (message : String) {held : Held}
    (hnested : Held.Nested ((range, .read) :: held)) :
    Leads held ((range, .read) :: held) Anything (readw_lock db range message) := by
  rw [readw_lock]
  split
  · exact ⟨_, if_pos hnested, fun _ => ⟨rfl, trivial⟩⟩
  · trivial

theorem leads_writew_lock (db : DB) (range : Range) (message : String) {held : Held}
    (hnested : Held.Nested ((range, .write) :: held)) :
    Leads held ((range, .write) :: held) Anything (writew_lock db range message) := by
  rw [writew_lock]
  split
  · exact ⟨_, if_pos hnested, fun _ => ⟨rfl, trivial⟩⟩
  · trivial

theorem leads_un_lock (range : Range) (mode : LockMode) (held : Held) :
    Leads ((range, mode) :: held) held Anything (un_lock range) :=
  ⟨held, if_pos rfl, fun _ => ⟨rfl, trivial⟩⟩

section Functions

variable {held : Held} {chainoff : Int}

theorem leads_readptr {db : DB} (offset : Int) (hdb : db.chainoff = chainoff) :
    Leads held held (fun a => a.2.chainoff = chainoff) (_db_readptr db offset) := by
  rw [_db_readptr]
  split
  · trivial
  · apply (leads_read db .idx _ _ held).bind
    rintro (_ | asciiptr) -
    · trivial
    · dsimp only
      split
      · trivial
      · apply (leads_atolField asciiptr _).bind
        intro ptr _
        exact .ret hdb

theorem leads_parseIdx {db : DB} (record : List Byte) (hdb : db.chainoff = chainoff) :
    Leads held held (fun db => db.chainoff = chainoff) (parseIdx db record) := by
  rw [parseIdx]
  split
  · trivial
  · dsimp only
    split
    · trivial
    · split
      · trivial
      · split
        · trivial
        · apply (leads_atolField _ _).bind
          intro datoff _
          split
          · trivial
          · apply (leads_atolField _ _).bind
            intro datlen _
            split
            · trivial
            · exact .ret hdb

theorem leads_readRecord {db : DB} (offset : Int) (hdb : db.chainoff = chainoff) :
    Leads held held (fun a => a.2.chainoff = chainoff) (readRecord db offset) := by
  rw [readRecord]
  apply (leads_read db .idx _ _ held).bind
  rintro (_ | head) -
  · trivial
  · dsimp only
    split
    · split
      · exact .ret hdb
      · trivial
    · apply (leads_atolField _ _).bind
      intro ptrval _
      apply (leads_atolField _ _).bind
      intro idxlen _
      split
      · trivial
      · apply (leads_read db .idx _ _ held).bind
        rintro (_ | record) -
        · trivial
        · dsimp only
          split
          · trivial
          · refine (@leads_parseIdx _ chainoff _ record ?_).bind ?_
            · exact hdb
            · intro db' hdb'
              exact .ret hdb'

theorem leads_readidx {db : DB} (offset : Int) (hdb : db.chainoff = chainoff) :
    Leads held held (fun a => a.2.chainoff = chainoff) (_db_readidx db offset) := by
  rw [_db_readidx]
  split
  · trivial
  · apply leads_readRecord
    exact hdb

theorem leads_readdat {db : DB} (hdb : db.chainoff = chainoff) :
    Leads held held (fun a => a.2.chainoff = chainoff) (_db_readdat db) := by
  rw [_db_readdat]
  split
  · trivial
  · apply (leads_read db .dat _ _ held).bind
    rintro (_ | record) -
    · trivial
    · dsimp only
      split
      · trivial
      · split
        · trivial
        · exact .ret hdb

theorem leads_writeData {db : DB} (data : List Byte) (pos : Nat)
    (hdb : db.chainoff = chainoff) :
    Leads held held (fun db => db.chainoff = chainoff) (writeData db data pos) := by
  rw [writeData]
  apply (leads_write _ .dat pos _ held).bind
  rintro (_ | datpos) -
  · trivial
  · exact .ret hdb

theorem leads_writeIndex {db : DB} (pos : Nat) (hdb : db.chainoff = chainoff) :
    Leads held held (fun db => db.chainoff = chainoff) (writeIndex db pos) := by
  rw [writeIndex]
  apply (leads_write _ .idx pos _ held).bind
  rintro (_ | idxpos) -
  · trivial
  · exact .ret hdb

theorem leads_writeptr {db : DB} (offset ptrval : Int) (hdb : db.chainoff = chainoff) :
    Leads held held (fun db => db.chainoff = chainoff) (_db_writeptr db offset ptrval) := by
  rw [_db_writeptr]
  split
  · trivial
  · split
    · trivial
    · apply (leads_write db .idx _ _ held).bind
      rintro (_ | idxpos) -
      · trivial
      · exact .ret hdb

theorem leads_writedat {db : DB} (data : List Byte) (offset : Int) (whence : Whence)
    (houter : whence = .end → held.Outer) (hdb : db.chainoff = chainoff) :
    Leads held held (fun db => db.chainoff = chainoff)
      (_db_writedat db data offset whence) := by
  cases whence with
  | set =>
      rw [_db_writedat]
      split
      · trivial
      · exact leads_writeData data _ hdb
  | «end» =>
      rw [_db_writedat]
      have hnested := houter rfl datLock .write (.inr (.inr rfl))
      apply (leads_writew_lock db datLock _ hnested).bind
      intro _ _
      apply (leads_fileSize .dat _).bind
      intro size _
      apply (leads_writeData data size hdb).bind
      intro db' hdb'
      apply (leads_un_lock datLock .write held).bind
      intro _ _
      exact .ret hdb'

theorem leads_writeidx {db : DB} (key : List Byte) (offset : Int) (whence : Whence)
    (ptrval : Int) (houter : whence = .end → held.Outer) (hdb : db.chainoff = chainoff) :
    Leads held held (fun db => db.chainoff = chainoff)
      (_db_writeidx db key offset whence ptrval) := by
  rw [_db_writeidx]
  dsimp only
  split
  · trivial
  · split
    · trivial
    · split
      · trivial
      · cases whence with
        | set =>
            dsimp only
            split
            · trivial
            · apply leads_writeIndex
              exact hdb
        | «end» =>
            have hnested := houter rfl tailLock .write (.inr (.inl rfl))
            apply (leads_writew_lock _ tailLock _ hnested).bind
            intro _ _
            apply (leads_fileSize .idx _).bind
            intro size _
            refine (@leads_writeIndex _ chainoff _ size ?_).bind ?_
            · exact hdb
            · intro db' hdb'
              apply (leads_un_lock tailLock .write held).bind
              intro _ _
              exact .ret hdb'

theorem leads_findLoop (key : List Byte) (fuel : Nat) {db : DB} (offset : Int)
    (hdb : db.chainoff = chainoff) :
    Leads held held (fun a => a.2.chainoff = chainoff) (findLoop key fuel db offset) := by
  induction fuel generalizing db offset with
  | zero => trivial
  | succ fuel ih =>
      rw [findLoop]
      split
      · exact .ret hdb
      · apply (leads_readidx offset hdb).bind
        rintro ⟨nextoffset, db'⟩ hdb'
        dsimp only
        split
        · exact .ret hdb'
        · apply ih
          exact hdb'

theorem leads_findfreeLoop (keylen datlen : Int) (fuel : Nat) {db : DB}
    (saveoffset offset : Int) (hdb : db.chainoff = chainoff) :
    Leads held held (fun a => a.2.2.chainoff = chainoff)
      (findfreeLoop keylen datlen fuel db saveoffset offset) := by
  induction fuel generalizing db saveoffset offset with
  | zero => trivial
  | succ fuel ih =>
      rw [findfreeLoop]
      split
      · exact .ret hdb
      · apply (leads_readidx offset hdb).bind
        rintro ⟨nextoffset, db'⟩ hdb'
        dsimp only
        split
        · exact .ret hdb'
        · apply ih
          exact hdb'

theorem leads_nextrecLoop (fuel : Nat) {db : DB} (hdb : db.chainoff = chainoff) :
    Leads held held (fun a => a.2.chainoff = chainoff) (nextrecLoop fuel db) := by
  induction fuel generalizing db with
  | zero => trivial
  | succ fuel ih =>
      rw [nextrecLoop]
      apply (leads_readidx 0 hdb).bind
      rintro ⟨ptr, db'⟩ hdb'
      dsimp only
      split
      · exact .ret hdb'
      · split
        · exact ih hdb'
        · exact .ret hdb'

theorem leads_dodelete {db : DB} (houter : held.Outer) (hdb : db.chainoff = chainoff) :
    Leads held held (fun db => db.chainoff = chainoff) (_db_dodelete db) := by
  have hset : Whence.set = .end → Held.Outer ((freeLock, .write) :: held) := nofun
  rw [_db_dodelete]
  dsimp only
  apply (leads_writew_lock _ freeLock _ (houter freeLock .write (.inl rfl))).bind
  intro _ _
  refine (@leads_writedat _ chainoff _ _ _ .set hset ?_).bind ?_
  · exact hdb
  intro db₁ h₁
  apply (leads_readptr FREE_OFF h₁).bind
  rintro ⟨freeptr, db₂⟩ h₂
  apply (leads_writeidx db₂.idxbuf db₂.idxoff .set freeptr hset h₂).bind
  intro db₃ h₃
  apply (leads_writeptr FREE_OFF db₃.idxoff h₃).bind
  intro db₄ h₄
  apply (leads_writeptr db₄.ptroff db₂.ptrval h₄).bind
  intro db₅ h₅
  apply (leads_un_lock freeLock .write held).bind
  intro _ _
  exact .ret h₅

theorem leads_findfree (fuel : Nat) {db : DB} (keylen datlen : Int) (houter : held.Outer)
    (hdb : db.chainoff = chainoff) :
    Leads held held (fun a => a.2.chainoff = chainoff)
      (_db_findfree fuel db keylen datlen) := by
  rw [_db_findfree]
  apply (leads_writew_lock _ freeLock _ (houter freeLock .write (.inl rfl))).bind
  intro _ _
  apply (leads_readptr FREE_OFF hdb).bind
  rintro ⟨offset, db₁⟩ h₁
  apply (leads_findfreeLoop keylen datlen fuel FREE_OFF offset h₁).bind
  rintro ⟨offset', saveoffset, db₂⟩ h₂
  dsimp only
  split
  · apply (leads_un_lock freeLock .write held).bind
    intro _ _
    exact .ret h₂
  · apply (leads_writeptr saveoffset db₂.ptrval h₂).bind
    intro db₃ h₃
    apply (leads_un_lock freeLock .write held).bind
    intro _ _
    exact .ret h₃

theorem leads_storeAppend {db : DB} (key data : List Byte) (ptrval : Int)
    (houter : held.Outer) (hdb : db.chainoff = chainoff) :
    Leads held held (fun db => db.chainoff = chainoff) (storeAppend db key data ptrval) := by
  rw [storeAppend]
  apply (leads_writedat data 0 .end (fun _ => houter) hdb).bind
  intro db₁ h₁
  apply (leads_writeidx key 0 .end ptrval (fun _ => houter) h₁).bind
  intro db₂ h₂
  exact leads_writeptr _ _ h₂

theorem leads_storeReuse {db : DB} (key data : List Byte) (ptrval : Int)
    (hdb : db.chainoff = chainoff) :
    Leads held held (fun db => db.chainoff = chainoff) (storeReuse db key data ptrval) := by
  rw [storeReuse]
  apply (leads_writedat data _ .set nofun hdb).bind
  intro db₁ h₁
  apply (leads_writeidx key _ .set ptrval nofun h₁).bind
  intro db₂ h₂
  exact leads_writeptr _ _ h₂

theorem leads_storeNew (fuel : Nat) {db : DB} (key data : List Byte) (flag : Int)
    (houter : held.Outer) (hdb : db.chainoff = chainoff) :
    Leads held held (fun a => a.2.chainoff = chainoff) (storeNew fuel db key data flag) := by
  rw [storeNew]
  split
  · exact .ret hdb
  · apply (leads_readptr db.chainoff hdb).bind
    rintro ⟨ptrval, db₁⟩ h₁
    apply (leads_findfree fuel key.length (data.length + 1) houter h₁).bind
    rintro ⟨rc, db₂⟩ h₂
    dsimp only
    split
    · apply (leads_storeAppend key data ptrval houter h₂).bind
      intro db₃ h₃
      exact .ret h₃
    · apply (leads_storeReuse key data ptrval h₂).bind
      intro db₃ h₃
      exact .ret h₃

theorem leads_storeOld {db : DB} (key data : List Byte) (flag : Int)
    (houter : held.Outer) (hdb : db.chainoff = chainoff) :
    Leads held held (fun a => a.2.chainoff = chainoff) (storeOld db key data flag) := by
  rw [storeOld]
  split
  · exact .ret hdb
  · split
    · apply (leads_dodelete houter hdb).bind
      intro db₁ h₁
      apply (leads_readptr db₁.chainoff h₁).bind
      rintro ⟨ptrval, db₂⟩ h₂
      apply (leads_storeAppend key data ptrval houter h₂).bind
      intro db₃ h₃
      exact .ret h₃
    · apply (leads_writedat data db.datoff .set nofun hdb).bind
      intro db₁ h₁
      exact .ret h₁

end Functions

theorem isChain_chainLock (key : List Byte) :
    (chainLock ((_db_hash key : Int) * PTR_SZ + HASH_OFF)).IsChain := by
  have hhash : _db_hash key < NHASH_DEF := Nat.mod_lt _ (by decide)
  refine ⟨rfl, rfl, ?_⟩
  simp only [chainLock, NHASH_DEF, PTR_SZ, HASH_OFF] at hhash ⊢
  omega

theorem Held.outer_chain {range : Range} (hrange : range.IsChain) (mode : LockMode) :
    Held.Outer [(range, mode)] :=
  fun _ _ hinner => ⟨hinner, hrange⟩

def lockMode (writelock : Bool) : LockMode := if writelock then .write else .read

theorem leads_find_and_lock (fuel : Nat) (db : DB) (key : List Byte) (writelock : Bool) :
    Leads [] [(chainLock ((_db_hash key : Int) * PTR_SZ + HASH_OFF), lockMode writelock)]
      (fun a => a.2.chainoff = (_db_hash key : Int) * PTR_SZ + HASH_OFF)
      (_db_find_and_lock fuel db key writelock) := by
  rw [_db_find_and_lock]
  generalize (_db_hash key : Int) * PTR_SZ + HASH_OFF = chainoff
  dsimp only
  cases writelock with
  | true =>
      rw [if_pos rfl]
      apply (leads_writew_lock _ _ _ (Held.nested_single _ _)).bind
      intro _ _
      refine (@leads_readptr _ chainoff _ _ ?_).bind ?_
      · rfl
      · rintro ⟨offset, db'⟩ h'
        exact leads_findLoop key fuel offset h'
  | false =>
      rw [if_neg (by decide)]
      apply (leads_readw_lock _ _ _ (Held.nested_single _ _)).bind
      intro _ _
      refine (@leads_readptr _ chainoff _ _ ?_).bind ?_
      · rfl
      · rintro ⟨offset, db'⟩ h'
        exact leads_findLoop key fuel offset h'

theorem leads_fetch (fuel : Nat) (db : DB) (key : List Byte) :
    Leads [] [] Anything (db_fetch fuel db key) := by
  rw [db_fetch]
  apply (leads_find_and_lock fuel db key false).bind
  rintro ⟨rc, db₁⟩ h₁
  dsimp only at h₁ ⊢
  split
  · rw [h₁]
    apply (leads_un_lock _ .read []).bind
    intro _ _
    exact .ret trivial
  · apply (leads_readdat h₁).bind
    rintro ⟨data, db₂⟩ h₂
    dsimp only at h₂ ⊢
    rw [h₂]
    apply (leads_un_lock _ .read []).bind
    intro _ _
    exact .ret trivial

theorem leads_delete (fuel : Nat) (db : DB) (key : List Byte) :
    Leads [] [] Anything (db_delete fuel db key) := by
  rw [db_delete]
  apply (leads_find_and_lock fuel db key true).bind
  rintro ⟨rc, db₁⟩ h₁
  dsimp only at h₁ ⊢
  split
  · apply (leads_dodelete (Held.outer_chain (isChain_chainLock key) .write) h₁).bind
    intro db₂ h₂
    rw [h₂]
    apply (leads_un_lock _ .write []).bind
    intro _ _
    exact .ret trivial
  · rw [h₁]
    apply (leads_un_lock _ .write []).bind
    intro _ _
    exact .ret trivial

theorem leads_store (fuel : Nat) (db : DB) (key data : List Byte) (flag : Int) :
    Leads [] [] Anything (db_store fuel db key data flag) := by
  have houter := Held.outer_chain (isChain_chainLock key) .write
  rw [db_store]
  split
  · exact .ret trivial
  · dsimp only
    split
    · trivial
    · apply (leads_find_and_lock fuel db key true).bind
      rintro ⟨rc, db₁⟩ h₁
      dsimp only at h₁ ⊢
      have hunlock : ∀ a : Int × DB, a.2.chainoff = (_db_hash key : Int) * PTR_SZ + HASH_OFF →
          Leads [(chainLock ((_db_hash key : Int) * PTR_SZ + HASH_OFF), .write)] []
            Anything (un_lock (chainLock a.2.chainoff) >>= fun _ => .ret (a.1, a.2)) := by
        intro a ha
        rw [ha]
        apply (leads_un_lock _ .write []).bind
        intro _ _
        exact .ret trivial
      split
      · exact (leads_storeNew fuel key data flag houter h₁).bind hunlock
      · exact (leads_storeOld key data flag houter h₁).bind hunlock

theorem leads_nextrec (fuel : Nat) (db : DB) :
    Leads [] [] Anything (db_nextrec fuel db) := by
  rw [db_nextrec]
  apply (leads_readw_lock db freeLock _ (Held.nested_single _ _)).bind
  intro _ _
  apply (leads_nextrecLoop fuel rfl).bind
  rintro ⟨found, db₁⟩ h₁
  dsimp only
  split
  · apply (leads_readdat h₁).bind
    rintro ⟨data, db₂⟩ h₂
    apply (leads_un_lock freeLock .read []).bind
    intro _ _
    exact .ret trivial
  · apply (leads_un_lock freeLock .read []).bind
    intro _ _
    exact .ret trivial

theorem leads_open (flags : OFlags) : Leads [] [] Anything (db_open flags) := by
  have hopen : ∀ file, Leads [] [] Anything (openFile file flags) :=
    fun file => ⟨[], rfl, fun _ => ⟨rfl, trivial⟩⟩
  rw [db_open]
  apply (hopen .idx).bind
  intro idx _
  apply (hopen .dat).bind
  intro dat _
  split
  · exact .ret trivial
  · dsimp only
    split
    · apply (leads_writew_lock _ idxLock _ (Held.nested_single _ _)).bind
      intro _ _
      apply (leads_fileSize .idx _).bind
      intro size _
      have hunlock : Leads [(idxLock, .write)] [] Anything
          (un_lock idxLock >>= fun _ => Prog.ret (some (db_rewind (newDB flags))) : P _) := by
        apply (leads_un_lock idxLock .write []).bind
        intro _ _
        exact .ret trivial
      split
      · apply (leads_write _ .idx 0 emptyTable _).bind
        rintro (_ | pos) -
        · trivial
        · exact hunlock
      · exact hunlock
    · exact .ret trivial

/-- Every call begins and returns without a lock. -/
theorem leads_call {fuel : Nat} {call : Call} {db : Option DB}
    {prog : P (Result × Option DB)} (hprog : call.prog fuel db = some prog) :
    Leads [] [] Anything prog := by
  have hend : ∀ {α : Type} {body : P α} (f : α → Result × Option DB),
      Leads [] [] Anything body →
      Leads [] [] Anything (body >>= fun a => Prog.ret (f a)) := by
    intro α body f hbody
    apply hbody.bind
    intro _ _
    exact .ret trivial
  cases call with
  | «open» flags =>
      cases hprog
      exact hend _ (leads_open flags)
  | fetch key =>
      cases db with
      | none => cases hprog
      | some db =>
          cases hprog
          exact hend _ (leads_fetch fuel db key)
  | store key data flag =>
      cases db with
      | none => cases hprog
      | some db =>
          cases hprog
          exact hend _ (leads_store fuel db key data flag)
  | delete key =>
      cases db with
      | none => cases hprog
      | some db =>
          cases hprog
          exact hend _ (leads_delete fuel db key)
  | rewind =>
      cases db with
      | none => cases hprog
      | some db =>
          cases hprog
          exact .ret trivial
  | nextrec =>
      cases db with
      | none => cases hprog
      | some db =>
          cases hprog
          exact hend _ (leads_nextrec fuel db)

section Locks

variable {Pid : Type}

/-- A system call that belongs there makes of a process's locks what `Held.step` says. -/
theorem Held.table_step [DecidableEq Pid] {held held' : Held} {p : Pid} {op : Op} {w w' : World Pid}
    {r : op.Res} (hnested : Nested held) (htable : w.locks p = table held)
    (hstep : step held op = some held') (hsys : World.Sys p op w r w') :
    Nested held' ∧ w'.locks p = table held' := by
  cases hsys with
  | @lockw _ mode range hgrants =>
      rw [step, Option.ite_none_right_eq_some] at hstep
      obtain ⟨hnested', hheld'⟩ := hstep
      cases hheld'
      refine ⟨hnested', ?_⟩
      funext file byte
      simp only [Locks.set, table, htable, true_and]
  | @unlock _ range =>
      cases held with
      | nil => cases hstep
      | cons last rest =>
          obtain ⟨last, mode⟩ := last
          simp only [step, Option.ite_none_right_eq_some, Option.some.injEq] at hstep
          obtain ⟨rfl, rfl⟩ := hstep
          cases rest with
          | nil =>
              refine ⟨trivial, ?_⟩
              funext file byte
              simp only [Locks.set, table, htable, true_and]
              split
              · rfl
              · rfl
          | cons outer rest =>
              obtain ⟨outer, mode'⟩ := outer
              obtain rfl : rest = [] := by
                cases rest with
                | nil => rfl
                | cons => exact hnested.elim
              obtain ⟨hinner, houter⟩ := hnested
              refine ⟨trivial, ?_⟩
              funext file byte
              simp only [Locks.set, table, htable, true_and]
              split
              · rename_i hbyte
                refine (if_neg fun hbyte' => ?_).symm
                exact Range.not_has_of_isInner hinner houter hbyte' hbyte
              · rfl
  | opened | refused | read | write | writeTooBig | append | appendTooBig | size =>
      cases hstep
      exact ⟨hnested, htable⟩

/-- What the locks of a process are at its point of the program. -/
def Proc.Keeps : Proc → (FileId → Nat → Option LockMode) → Prop
  | .idle _, locks => locks = Held.table []
  | .busy _ _ prog, locks =>
      ∃ held, Held.Nested held ∧ locks = Held.table held ∧ Leads held [] Anything prog
  | .dead .., _ => True

theorem keeps_settle [DecidableEq Pid] {p : Pid} {call : Call} {made : List Op} {world : World Pid}
    {prog : P (Result × Option DB)} {held : Held} (hnested : held.Nested)
    (htable : world.locks p = Held.table held) (hprog : Leads held [] Anything prog) :
    (settle call made prog).Keeps ((leave p world prog).locks p) := by
  cases prog with
  | ret a =>
      obtain ⟨rfl, -⟩ := hprog
      exact htable
  | stop reason => trivial
  | call op next => exact ⟨held, hnested, htable, hprog⟩

namespace State

def Ordered (s : State Pid) : Prop := ∀ p, (s.proc p).Keeps (s.world.locks p)

theorem Ordered.step [DecidableEq Pid] {fuel : Nat} {s s' : State Pid} {event : Event Pid}
    (hs : s.Ordered) (hstep : Step fuel s event s') : s'.Ordered := by
  cases hstep with
  | @invoke p call db prog hidle hprog =>
      intro q
      by_cases hq : q = p
      · subst hq
        have hlocks := hs q
        rw [hidle] at hlocks
        simp only [Function.update_self]
        have hnested : Held.Nested [] := trivial
        exact keeps_settle hnested hlocks (leads_call hprog)
      · simp only [Function.update_of_ne hq, leave_locks_other hq]
        exact hs q
  | @sys p call made op next r world hbusy hsys =>
      intro q
      by_cases hq : q = p
      · subst hq
        have hlocks := hs q
        rw [hbusy] at hlocks
        obtain ⟨held, hnested, htable, held', hheld', hnext⟩ := hlocks
        obtain ⟨hnested', htable'⟩ := Held.table_step hnested htable hheld' hsys
        simp only [Function.update_self]
        exact keeps_settle hnested' htable' (hnext r)
      · simp only [Function.update_of_ne hq, leave_locks_other hq, hsys.locks_other hq]
        exact hs q

theorem ordered_of_reachable [DecidableEq Pid] {fuel : Nat} {s : State Pid}
    (hs : (system Pid fuel).Reachable s) : s.Ordered := by
  apply System.Reachable.invariant (M := system Pid fuel) _ _ hs
  · rintro s ⟨hidle, hlocks⟩ p
    obtain ⟨db, hdb⟩ := hidle p
    rw [hdb]
    funext file byte
    exact hlocks p file byte
  · intro s event s' hordered hstep
    exact hordered.step hstep

/-- `p` is in `F_SETLKW` for a range of which `q` has a byte that is in its way. -/
def WaitsFor (s : State Pid) (p q : Pid) : Prop :=
  ∃ call made mode range next, s.proc p = .busy call made (.call (.lockw mode range) next) ∧
    q ≠ p ∧ ∃ file byte mode', range.Has file byte ∧
      s.world.locks q file byte = some mode' ∧ ¬ (mode = .read ∧ mode' = .read)

/-- The range that a process waits for goes on top of the ones it has. -/
theorem WaitsFor.held {s : State Pid} (hs : s.Ordered) {p q : Pid}
    (hwaits : s.WaitsFor p q) :
    ∃ held range mode, Held.Nested ((range, mode) :: held) ∧
      s.world.locks p = Held.table held ∧
      ∃ file byte, range.Has file byte ∧ s.world.locks q file byte ≠ none := by
  obtain ⟨call, made, mode, range, next, hproc, -, file, byte, mode', hbyte, hlock, -⟩ := hwaits
  have hkeeps := hs p
  rw [hproc] at hkeeps
  obtain ⟨held, -, htable, held', hstep, -⟩ := hkeeps
  simp only [Held.step, Option.ite_none_right_eq_some] at hstep
  refine ⟨held, range, mode, hstep.1, htable, file, byte, hbyte, ?_⟩
  rw [hlock]
  exact Option.some_ne_none mode'

/-- A process that waits has at most its chain locked. -/
theorem WaitsFor.chain_of_lock {s : State Pid} (hs : s.Ordered) {p q : Pid}
    (hwaits : s.WaitsFor p q) {file : FileId} {byte : Nat}
    (hlock : s.world.locks p file byte ≠ none) :
    ∃ inner outer : Range, inner.IsInner ∧ outer.IsChain ∧ outer.Has file byte ∧
      ∃ file byte, inner.Has file byte ∧ s.world.locks q file byte ≠ none := by
  obtain ⟨held, inner, mode, hnested, htable, hq⟩ := hwaits.held hs
  rw [htable] at hlock
  match held, hnested, hlock with
  | [], _, hlock => exact absurd rfl hlock
  | [(outer, mode')], ⟨hinner, houter⟩, hlock =>
      refine ⟨inner, outer, hinner, houter, ?_, hq⟩
      by_contra hbyte
      exact hlock (if_neg hbyte)

/-- No process that has a byte waits for one that waits as well. -/
theorem WaitsFor.lock_eq_none {s : State Pid} (hs : s.Ordered) {p q r : Pid}
    (hpq : s.WaitsFor p q) (hqr : s.WaitsFor q r) (file : FileId) (byte : Nat) :
    s.world.locks p file byte = none := by
  by_contra hlock
  obtain ⟨inner, -, hinner, -, -, file', byte', hbyte', hlock'⟩ := hpq.chain_of_lock hs hlock
  obtain ⟨-, outer, -, houter, hbyte, -⟩ := hqr.chain_of_lock hs hlock'
  exact Range.not_has_of_isInner hinner houter hbyte hbyte'

/-- Processes never wait for each other in a circle, and a process that is in no call has
no byte of the files locked. -/
theorem locking_cannot_deadlock [DecidableEq Pid] {fuel : Nat} {s : State Pid}
    (hs : (system Pid fuel).Reachable s) :
    (∀ p, ¬ Relation.TransGen s.WaitsFor p p) ∧
      ∀ p db, s.proc p = .idle db → ∀ file byte, s.world.locks p file byte = none := by
  have hordered := ordered_of_reachable hs
  constructor
  · intro p hcircle
    obtain ⟨q, hpq, hqp⟩ := Relation.TransGen.head'_iff.mp hcircle
    obtain ⟨o, hpo, hop⟩ := Relation.TransGen.tail'_iff.mp hcircle
    obtain ⟨r, hqr⟩ : ∃ r, s.WaitsFor q r := by
      rcases hqp.cases_head with rfl | ⟨r, hqr, -⟩
      · exact ⟨q, hpq⟩
      · exact ⟨r, hqr⟩
    have hnone := hpq.lock_eq_none hordered hqr
    obtain ⟨-, -, -, -, -, -, -, file, byte, mode, -, hlock, -⟩ := hop
    rw [hnone file byte] at hlock
    cases hlock
  · intro p db hidle file byte
    have hkeeps := hordered p
    rw [hidle] at hkeeps
    exact congrFun (congrFun hkeeps file) byte

/-- Of two processes that delete the same key one waits for the other. -/
theorem locking_cannot_deadlock_delete :
    ∃ s : State Bool, (system Bool 0).Reachable s ∧ s.WaitsFor false true ∧
      ∀ p, ¬ Relation.TransGen s.WaitsFor p p := by
  let handle := db_rewind (newDB ⟨true, true, false, false, false, false⟩)
  let start : State Bool :=
    { world := { present := fun _ => true, content := fun _ => [],
                 locks := fun _ _ _ => none }
      proc := fun _ => .idle (some handle) }
  have hstart : (system Bool 0).Reachable start :=
    System.Reachable.of_initial ⟨fun _ => ⟨some handle, rfl⟩, fun _ _ _ => rfl⟩
  have hinvoke := hstart.step (@Step.invoke Bool _ 0 _ true (.delete [97]) _ _ rfl rfl)
  have hlock := hinvoke.step (Step.sys (p := true) rfl (.lockw (by
    rintro q - file byte - mode hmode
    cases hmode)))
  have hwaiting := hlock.step (@Step.invoke Bool _ 0 _ false (.delete [97]) _ _ rfl rfl)
  refine ⟨_, hwaiting, ?_, (locking_cannot_deadlock hwaiting).1⟩
  refine ⟨_, _, _, _, _, rfl, nofun, .idx, 588, .write, ?_, ?_, nofun⟩
  · decide
  · decide

end State

end Locks

end ApueCourse.Db
