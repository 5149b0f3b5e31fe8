import ApueCourse.Db.Reading

/-! An index record from `_db_writeidx` through `_db_writeptr` to `_db_readidx`. -/

namespace ApueCourse.Db

open Memory Function Program

/-- The two parts that `writev` gets from `_db_writeidx`. -/
def recordBytes (ptrval : Int) (key : List Byte) (datoff datlen : Int) : List Byte :=
  sprintfWidth PTR_SZ ptrval ++ sprintfWidth IDXLEN_SZ (idxText key datoff datlen).length ++
    idxText key datoff datlen

/-- The record is in the index file. -/
def RecordAt (w : World Unit) (pos : Nat) (ptrval : Int) (key : List Byte) (datoff datlen : Int) :
    Prop :=
  At (w.content .idx) pos (recordBytes ptrval key datoff datlen)

/-- `_db_readidx` at the offset `pos`, by whatever handle, and also where it finds the offset of
the descriptor there. -/
def ReadsBack (w : World Unit) (pos : Nat) (ptrval : Int) (key : List Byte)
    (datoff datlen : Int) : Prop :=
  ∀ (reader : DB) (offset : Int), reader.readable = true →
    (offset = pos ∧ pos ≠ 0 ∨ offset = 0 ∧ reader.idxpos = pos) →
    exec (_db_readidx reader offset) w =
      .ok ((ptrval, { reader with
        idxoff := pos
        ptrval := ptrval
        idxlen := (idxText key datoff datlen).length
        idxpos := pos + (recordBytes ptrval key datoff datlen).length
        idxbuf := key
        datoff := datoff
        datlen := datlen }), w)

/-- The numbers and the length are such that `_db_writeidx` writes the record. -/
structure Writable (ptrval : Int) (key : List Byte) (datoff datlen : Int) : Prop where
  ptr_nonneg : 0 ≤ ptrval
  ptr_le : ptrval ≤ PTR_MAX
  low : IDXLEN_MIN ≤ (idxText key datoff datlen).length
  high : ((idxText key datoff datlen).length : Int) ≤ IDXLEN_MAX

section Text

variable {ptrval datoff datlen : Int} {key key' : List Byte}

theorem length_idxText (key : List Byte) (datoff datlen : Int) :
    (idxText key datoff datlen).length =
      key.length + (sprintfLong datoff).length + (sprintfLong datlen).length + 3 := by
  simp only [idxText, List.length_append, List.length_singleton]
  omega

theorem length_idxText_congr (hkey : key'.length = key.length) :
    (idxText key' datoff datlen).length = (idxText key datoff datlen).length := by
  rw [length_idxText, length_idxText, hkey]

theorem Writable.length_ptr (hwritable : Writable ptrval key datoff datlen) :
    (sprintfWidth PTR_SZ ptrval).length = PTR_SZ := by
  obtain ⟨n, rfl⟩ := Int.eq_ofNat_of_zero_le hwritable.ptr_nonneg
  exact Layout.length_sprintfWidth_ptr hwritable.ptr_le

theorem Writable.length_bytes (hwritable : Writable ptrval key datoff datlen) :
    (recordBytes ptrval key datoff datlen).length =
      PTR_SZ + IDXLEN_SZ + (idxText key datoff datlen).length := by
  have hhigh := hwritable.high
  rw [IDXLEN_MAX] at hhigh
  rw [recordBytes, List.length_append, List.length_append, hwritable.length_ptr,
    length_sprintfWidth (by decide) (by rw [IDXLEN_SZ]; omega)]

theorem Writable.congr (hwritable : Writable ptrval key datoff datlen)
    (hkey : key'.length = key.length) {ptrval' : Int} (hnonneg : 0 ≤ ptrval')
    (hle : ptrval' ≤ PTR_MAX) : Writable ptrval' key' datoff datlen := by
  have hlength : (idxText key' datoff datlen).length = (idxText key datoff datlen).length :=
    length_idxText_congr hkey
  exact ⟨hnonneg, hle, hlength ▸ hwritable.low, hlength ▸ hwritable.high⟩

end Text

/-! What is written anywhere in a file is there, also behind its end. -/

theorem at_writeAt_any (file : List Byte) (pos : Nat) (bytes : List Byte) :
    At (writeAt file pos bytes) pos bytes := by
  intro i hi
  have hfront : (file.take pos ++ List.replicate (pos - file.length) 0).length = pos := by
    rw [List.length_append, List.length_take, List.length_replicate]
    omega
  rw [writeAt, List.append_assoc, List.getElem?_append_right (by omega), hfront,
    Nat.add_sub_cancel_left, List.getElem?_append_left hi]

section Exec

variable {w w' : World Unit} {db db' : DB} {key : List Byte} {ptrval datoff datlen : Int}
  {pos : Nat}

theorem exec_write_ok {file : FileId} {bytes : List Byte} {offset : Option Nat}
    (happend : db.append = false) (hsome : offset ≠ none)
    (hwrite : exec (db.write file pos bytes) w = .ok (offset, w')) :
    pos + bytes.length ≤ OFF_MAX ∧ db.writable = true ∧ offset = some (pos + bytes.length) ∧
      w' = w.setContent file (writeAt (w.content file) pos bytes) := by
  by_cases hwritable : db.writable = true
  · by_cases hfits : pos + bytes.length ≤ OFF_MAX
    · rw [exec_write hwritable happend hfits] at hwrite
      cases hwrite
      exact ⟨hfits, hwritable, rfl, rfl⟩
    · rw [DB.write, if_neg (not_not_intro hwritable),
        if_neg (by rw [happend]; exact Bool.false_ne_true)] at hwrite
      have hact : World.act (.write file pos bytes) w = (false, w) := if_neg hfits
      rw [exec, Prog.run.eq_def] at hwrite
      dsimp only at hwrite
      rw [hact] at hwrite
      cases hwrite
      exact absurd rfl hsome
  · rw [DB.write, if_pos hwritable] at hwrite
    cases hwrite
    exact absurd rfl hsome

/-- What is left of the handle and the files behind `writev`. -/
theorem exec_writeIndex_ok (happend : db.append = false)
    (hwrite : exec (writeIndex db pos) w = .ok (db', w')) :
    pos + (sprintfWidth PTR_SZ db.ptrval ++ sprintfWidth IDXLEN_SZ db.idxbuf.length ++
        db.idxbuf).length ≤ OFF_MAX ∧
      db'.idxoff = pos ∧
      w'.content = update w.content .idx (writeAt (w.content .idx) pos
        (sprintfWidth PTR_SZ db.ptrval ++ sprintfWidth IDXLEN_SZ db.idxbuf.length ++
          db.idxbuf)) := by
  rw [writeIndex, exec_bind] at hwrite
  dsimp only at hwrite
  generalize hdb₁ : ({ db with idxoff := pos } : DB) = db₁ at hwrite
  have happend₁ : db₁.append = false := hdb₁ ▸ happend
  generalize hbytes : sprintfWidth PTR_SZ db.ptrval ++
    sprintfWidth IDXLEN_SZ db.idxbuf.length ++ db.idxbuf = bytes at hwrite ⊢
  cases hexec : exec (db₁.write .idx pos bytes) w with
  | error reason =>
      rw [hexec] at hwrite
      cases hwrite
  | ok result =>
      obtain ⟨offset, w₁⟩ := result
      rw [hexec, ok_bind] at hwrite
      cases offset with
      | none => cases hwrite
      | some idxpos =>
          obtain ⟨hfits, -, -, rfl⟩ := exec_write_ok happend₁ (Option.some_ne_none _) hexec
          cases hwrite
          subst hdb₁
          exact ⟨hfits, rfl, rfl⟩

/-- What `_db_writeidx` has done where it has not ended the process. -/
theorem exec_writeidx_ok {offset : Int} {whence : Whence} (happend : db.append = false)
    (hwrite : exec (_db_writeidx db key offset whence ptrval) w = .ok (db', w')) :
    Writable ptrval key db.datoff db.datlen ∧ ∃ pos : Nat,
      (whence = .set → offset = pos) ∧ (whence = .end → pos = (w.content .idx).length) ∧
      pos + (recordBytes ptrval key db.datoff db.datlen).length ≤ OFF_MAX ∧ db'.idxoff = pos ∧
      w'.content = update w.content .idx
        (writeAt (w.content .idx) pos (recordBytes ptrval key db.datoff db.datlen)) := by
  rw [_db_writeidx] at hwrite
  dsimp only at hwrite
  split at hwrite
  · cases hwrite
  rename_i hptr
  split at hwrite
  · cases hwrite
  split at hwrite
  · cases hwrite
  rename_i hlen
  have hwritable : Writable ptrval key db.datoff db.datlen :=
    ⟨by omega, by omega, by omega, by omega⟩
  refine ⟨hwritable, ?_⟩
  cases whence with
  | set =>
      dsimp only at hwrite
      split at hwrite
      · cases hwrite
      rename_i hoffset
      obtain ⟨hfits, hidxoff, hcontent⟩ := exec_writeIndex_ok (by exact happend) hwrite
      exact ⟨offset.toNat, fun _ => (Int.toNat_of_nonneg (by omega)).symm, fun h => (by cases h),
        hfits, hidxoff, hcontent⟩
  | «end» =>
      dsimp only at hwrite
      rw [exec_bind, exec_writew_lock] at hwrite
      split at hwrite
      · rw [ok_bind, exec_bind, exec_fileSize, ok_bind, exec_bind] at hwrite
        dsimp only at hwrite
        generalize hlocked : ({ w with locks := _ } : World Unit) = locked at hwrite
        have hcontent₁ : locked.content = w.content := by rw [← hlocked]
        cases hexec : exec (writeIndex { db with
            ptrval := ptrval
            idxbuf := idxText key db.datoff db.datlen } (w.content .idx).length) locked with
        | error reason =>
            rw [hexec] at hwrite
            cases hwrite
        | ok result =>
            obtain ⟨db₂, w₂⟩ := result
            rw [hexec, ok_bind, exec_bind, exec_un_lock, ok_bind] at hwrite
            obtain ⟨hfits, hidxoff, hcontent⟩ := exec_writeIndex_ok (by exact happend) hexec
            cases hwrite
            exact ⟨(w.content .idx).length, fun h => (by cases h), fun _ => rfl, hfits, hidxoff,
              by rw [hcontent, hcontent₁]; rfl⟩
      · cases hwrite

theorem exec_writeidx_set (hwritable : Writable ptrval key db.datoff db.datlen)
    (happend : db.append = false) (hwrites : db.writable = true)
    (hfits : pos + (recordBytes ptrval key db.datoff db.datlen).length ≤ OFF_MAX) :
    ∃ db', exec (_db_writeidx db key pos .set ptrval) w = .ok (db',
        w.setContent .idx
          (writeAt (w.content .idx) pos (recordBytes ptrval key db.datoff db.datlen))) ∧
      db'.idxoff = pos := by
  have hnonneg := hwritable.ptr_nonneg
  have hle := hwritable.ptr_le
  have hlow := hwritable.low
  have hhigh := hwritable.high
  rw [_db_writeidx]
  dsimp only
  rw [if_neg (by omega), if_neg (by omega), if_neg (by omega), if_neg (by omega),
    Int.toNat_natCast, writeIndex, exec_bind]
  dsimp only
  rw [exec_write (by exact hwrites) (by exact happend) (by exact hfits), ok_bind]
  exact ⟨_, rfl, rfl⟩

theorem exec_writeptr (hnonneg : 0 ≤ ptrval) (hle : ptrval ≤ PTR_MAX)
    (happend : db.append = false) (hwrites : db.writable = true)
    (hfits : pos + (sprintfWidth PTR_SZ ptrval).length ≤ OFF_MAX) :
    ∃ db', exec (_db_writeptr db pos ptrval) w = .ok (db',
      w.setContent .idx (writeAt (w.content .idx) pos (sprintfWidth PTR_SZ ptrval))) := by
  rw [_db_writeptr, if_neg (by omega), if_neg (by omega), exec_bind, Int.toNat_natCast,
    exec_write hwrites happend hfits, ok_bind]
  exact ⟨_, rfl⟩

/-- A record that stands in the file is read as what it was written for. -/
theorem RecordAt.readsBack (hrecord : RecordAt w pos ptrval key datoff datlen)
    (hwritable : Writable ptrval key datoff datlen) (hsep : SEP ∉ key) (hnul : 0 ∉ key)
    (hoff : 0 ≤ datoff) (hlong : datoff ≤ LONG_MAX) (hlen : 1 ≤ datlen)
    (hmax : datlen ≤ DATLEN_MAX) : ReadsBack w pos ptrval key datoff datlen := by
  obtain ⟨ptr, rfl⟩ := Int.eq_ofNat_of_zero_le hwritable.ptr_nonneg
  obtain ⟨off, rfl⟩ := Int.eq_ofNat_of_zero_le hoff
  obtain ⟨k, hk⟩ := Int.eq_ofNat_of_zero_le (a := datlen - 1) (by omega)
  obtain rfl : datlen = (k : Int) + 1 := by omega
  have hdatlen : ((List.replicate k SPACE).length + 1 : Int) = (k : Int) + 1 := by
    rw [List.length_replicate]
  let r : Rec := ⟨ptr, key, off, List.replicate k SPACE⟩
  have hrdatlen : (r.datlen : Int) = (k : Int) + 1 := by
    rw [Rec.datlen, Nat.cast_add, List.length_replicate]
    rfl
  have htext : r.text = idxText key off ((k : Int) + 1) := by
    rw [Rec.text, hrdatlen]
  have hbytes : r.bytes = recordBytes ptr key off ((k : Int) + 1) := by
    rw [Rec.bytes, Rec.head, htext]
    rfl
  have hfits : r.Fits := by
    refine ⟨hwritable.ptr_le, hnul, htext ▸ hwritable.low, htext ▸ hwritable.high, ?_, ?_⟩
    · rw [hrdatlen]
      exact hmax
    · intro hzero
      cases List.eq_of_mem_replicate hzero
  intro reader offset hreadable hoffset
  rw [exec_readidx_at (r := r) (by rw [hbytes]; exact hrecord) hfits hlong hreadable hoffset,
    if_neg hsep, DB.onto, htext, hrdatlen]
  have hsize : pos + r.size = pos + (recordBytes ptr key off ((k : Int) + 1)).length := by
    rw [← hbytes, Rec.length_bytes hfits]
  rw [hsize]

theorem RecordAt.end_le (hrecord : RecordAt w pos ptrval key datoff datlen)
    (hwritable : Writable ptrval key datoff datlen) :
    pos + (recordBytes ptrval key datoff datlen).length ≤ (w.content .idx).length := by
  have hne : recordBytes ptrval key datoff datlen ≠ [] := by
    intro hnil
    have hlength := hwritable.length_bytes
    rw [hnil, PTR_SZ, List.length_nil] at hlength
    omega
  exact At.le hrecord hne

/-- Another pointer in front of the record. -/
theorem RecordAt.patch (hrecord : RecordAt w pos ptrval key datoff datlen)
    (hwritable : Writable ptrval key datoff datlen) {n : Int}
    (hwritable' : Writable n key datoff datlen) :
    RecordAt (w.setContent .idx (writeAt (w.content .idx) pos (sprintfWidth PTR_SZ n))) pos n key
        datoff datlen ∧
      Frame (w.content .idx) (writeAt (w.content .idx) pos (sprintfWidth PTR_SZ n)) pos PTR_SZ := by
  have hlength := hwritable.length_ptr
  have hlength' := hwritable'.length_ptr
  have hend := hrecord.end_le hwritable
  rw [hwritable.length_bytes] at hend
  have hle : pos + PTR_SZ ≤ (w.content .idx).length := by omega
  refine ⟨?_, frame_writeAt hlength' hle⟩
  rw [RecordAt, recordBytes, List.append_assoc] at hrecord ⊢
  rw [World.setContent_content, update_self]
  obtain ⟨-, hrest⟩ := at_append.mp hrecord
  refine at_append.mpr ⟨at_writeAt_any _ _ _, ?_⟩
  rw [hlength] at hrest
  rw [hlength']
  exact (frame_writeAt hlength' hle).other hrest (.inr (Nat.le_refl _))

end Exec

/-- An index record is read as it was written; another pointer in front of it changes the pointer
that is read and no other byte; another key of the same length takes the same bytes. -/
theorem index_record_read_back {db db' : DB} {key : List Byte} {offset : Int} {whence : Whence}
    {ptrval : Int} {w w' : World Unit} (hsep : SEP ∉ key) (hnul : 0 ∉ key)
    (hoff : 0 ≤ db.datoff) (hlong : db.datoff ≤ LONG_MAX) (hlen : 1 ≤ db.datlen)
    (hmax : db.datlen ≤ DATLEN_MAX) (happend : db.append = false)
    (hwrite : exec (_db_writeidx db key offset whence ptrval) w = .ok (db', w')) :
    ∃ pos : Nat, db'.idxoff = pos ∧
      (whence = .set → offset = pos) ∧ (whence = .end → pos = (w.content .idx).length) ∧
      RecordAt w' pos ptrval key db.datoff db.datlen ∧
      ∀ w₁, RecordAt w₁ pos ptrval key db.datoff db.datlen →
        ReadsBack w₁ pos ptrval key db.datoff db.datlen ∧
        (∀ (patcher : DB) (n : Int), patcher.writable = true → patcher.append = false →
          0 ≤ n → n ≤ PTR_MAX →
          ∃ patcher' w₂, exec (_db_writeptr patcher pos n) w₁ = .ok (patcher', w₂) ∧
            ReadsBack w₂ pos n key db.datoff db.datlen ∧
            Frame (w₁.content .idx) (w₂.content .idx) pos PTR_SZ ∧
            w₂.content .dat = w₁.content .dat) ∧
        (∀ (rewriter : DB) (key' : List Byte) (n : Int), rewriter.writable = true →
          rewriter.append = false → rewriter.datoff = db.datoff → rewriter.datlen = db.datlen →
          0 ∉ key' → key'.length = key.length → 0 ≤ n → n ≤ PTR_MAX →
          ∃ rewriter' w₂, exec (_db_writeidx rewriter key' pos .set n) w₁ = .ok (rewriter', w₂) ∧
            rewriter'.idxoff = pos ∧ RecordAt w₂ pos n key' db.datoff db.datlen ∧
            (recordBytes n key' db.datoff db.datlen).length =
              (recordBytes ptrval key db.datoff db.datlen).length ∧
            Frame (w₁.content .idx) (w₂.content .idx) pos
              (recordBytes ptrval key db.datoff db.datlen).length ∧
            w₂.content .dat = w₁.content .dat ∧
            (SEP ∉ key' → ReadsBack w₂ pos n key' db.datoff db.datlen)) := by
  obtain ⟨hwritable, pos, hset, hend, hfits, hidxoff, hcontent⟩ := exec_writeidx_ok happend hwrite
  have hrecord : RecordAt w' pos ptrval key db.datoff db.datlen := by
    rw [RecordAt, hcontent, update_self]
    exact at_writeAt_any _ _ _
  refine ⟨pos, hidxoff, hset, hend, hrecord, fun w₁ hrecord₁ => ⟨?_, ?_, ?_⟩⟩
  · exact hrecord₁.readsBack hwritable hsep hnul hoff hlong hlen hmax
  · intro patcher n hwrites happends hnonneg hle
    have hwritable' : Writable n key db.datoff db.datlen := hwritable.congr rfl hnonneg hle
    have hroom : pos + (sprintfWidth PTR_SZ n).length ≤ OFF_MAX := by
      rw [hwritable.length_bytes] at hfits
      rw [hwritable'.length_ptr]
      omega
    obtain ⟨patcher', hexec⟩ := exec_writeptr (w := w₁) hnonneg hle happends hwrites hroom
    obtain ⟨hrecord₂, hframe⟩ := hrecord₁.patch hwritable hwritable'
    exact ⟨patcher', _, hexec,
      hrecord₂.readsBack hwritable' hsep hnul hoff hlong hlen hmax, hframe, rfl⟩
  · intro rewriter key' n hwrites happends hdatoff hdatlen hnul' hkey hnonneg hle
    have hwritable' := hwritable.congr hkey hnonneg hle
    have hlength : (recordBytes n key' db.datoff db.datlen).length =
        (recordBytes ptrval key db.datoff db.datlen).length := by
      rw [hwritable'.length_bytes, hwritable.length_bytes, length_idxText_congr hkey]
    rw [← hdatoff, ← hdatlen] at hwritable' hlength
    obtain ⟨rewriter', hexec, hidxoff'⟩ := exec_writeidx_set (w := w₁) hwritable' happends hwrites
      (by rw [hlength, hdatoff, hdatlen]; exact hfits)
    rw [hdatoff, hdatlen] at hwritable' hlength hexec
    have hrecord₂ : RecordAt (w₁.setContent .idx (writeAt (w₁.content .idx) pos
        (recordBytes n key' db.datoff db.datlen))) pos n key' db.datoff db.datlen := by
      rw [RecordAt, World.setContent_content, update_self]
      exact at_writeAt_any _ _ _
    exact ⟨rewriter', _, hexec, hidxoff', hrecord₂, hlength,
      frame_writeAt hlength (hrecord₁.end_le hwritable), rfl,
      fun hsep' => hrecord₂.readsBack hwritable' hsep' hnul' hoff hlong hlen hmax⟩

/-- A handle that is about to write the record of two bytes at the front of the data file. -/
def aboutToWrite : DB := { newDB ⟨true, true, true, false, true, false⟩ with datoff := 0, datlen := 2 }

def newlineOnly : World Unit := ⟨fun _ => true, fun _ => [NEWLINE], fun _ _ _ => none⟩

/-- The key `k` behind a newline. -/
theorem index_record_read_back_k :
    ∃ db' w', exec (_db_writeidx aboutToWrite [107] 0 .end 9) newlineOnly = .ok (db', w') ∧
      db'.idxoff = 1 ∧ ReadsBack w' 1 9 [107] 0 2 := by
  have hwrite : exec (_db_writeidx aboutToWrite [107] 0 .end 9) newlineOnly = .ok (_, _) := rfl
  obtain ⟨pos, hidxoff, -, hend, hrecord, hrest⟩ := index_record_read_back (by decide) (by decide)
    (by decide) (by decide) (by decide) (by decide) rfl hwrite
  obtain rfl : pos = 1 := hend rfl
  exact ⟨_, _, hwrite, hidxoff, (hrest _ hrecord).1⟩

end ApueCourse.Db
