import ApueCourse.Db.Reading
import ApueCourse.Program.Leaves

/-! What the functions that write do to the lengths of the files and of the records in them,
where a process is alone. -/

namespace ApueCourse.Db

open Memory Function Program

/-- The place of the data between the two lengths. -/
def Rec.shape (r : Rec) : Nat × Nat × Nat := (r.key.length, r.datoff, r.data.length)

theorem sameShape_of_shape {r r' : Rec} (hshape : r'.shape = r.shape) : r.SameShape r' := by
  simp only [Rec.shape, Prod.mk.injEq] at hshape
  obtain ⟨hkey, hdatoff, hdata⟩ := hshape
  refine ⟨?_, hdatoff.symm, hdata.symm⟩
  simp only [Rec.size, Rec.text, idxText, Rec.datlen, List.length_append, hkey, hdatoff, hdata]

/-- The records by their places and lengths, and the lengths of the two files. -/
structure Plan where
  shape : Nat → Option (Nat × Nat × Nat)
  idx : Nat
  dat : Nat

def planOf (recs : Nat → Option Rec) (w : World Unit) : Plan :=
  ⟨fun o => (recs o).map Rec.shape, (w.content .idx).length, (w.content .dat).length⟩

def Plan.Of (plan : Plan) (w : World Unit) : Prop :=
  ∃ head recs, Layout (w.content .idx) (w.content .dat) head recs (fun _ : Unit => none) ∧
    planOf recs w = plan

/-- A record has been appended to both files. -/
def Plan.append (plan : Plan) (key data : List Byte) : Plan where
  shape := update plan.shape plan.idx (some (key.length, plan.dat, data.length))
  idx := plan.idx + (PTR_SZ + IDXLEN_SZ + (idxText key plan.dat (data.length + 1)).length)
  dat := plan.dat + (data.length + 1)

/-- The places of pointers: in front of the records, and at the front of each. -/
inductive Plan.Pointer (plan : Plan) : Nat → Prop
  | head (i : Slot) : Pointer plan i.off
  | record {o : Nat} {shape : Nat × Nat × Nat} (hshape : plan.shape o = some shape) :
      Pointer plan o

theorem map_shape_update {recs : Nat → Option Rec} {o : Nat} {r r' : Rec}
    (hrec : recs o = some r) (hshape : r'.shape = r.shape) :
    (fun o' => (update recs o (some r') o').map Rec.shape) =
      fun o' => (recs o').map Rec.shape := by
  funext o'
  rcases eq_or_ne o' o with rfl | hne
  · rw [update_self, hrec, Option.map_some, Option.map_some, hshape]
  · rw [update_of_ne hne]

theorem planOf_update {recs : Nat → Option Rec} {w w' : World Unit} {o : Nat} {r r' : Rec}
    (hrec : recs o = some r) (hshape : r'.shape = r.shape)
    (hidx : (w'.content .idx).length = (w.content .idx).length)
    (hdat : (w'.content .dat).length = (w.content .dat).length) :
    planOf (update recs o (some r')) w' = planOf recs w := by
  rw [planOf, planOf, map_shape_update hrec hshape, hidx, hdat]

namespace Plan.Of

variable {plan : Plan} {w : World Unit}

theorem congr {w' : World Unit} (hplan : plan.Of w) (hcontent : w'.content = w.content) :
    plan.Of w' := by
  obtain ⟨head, recs, hlayout, rfl⟩ := hplan
  refine ⟨head, recs, ?_, ?_⟩
  · rw [hcontent]
    exact hlayout
  · rw [planOf, planOf, hcontent]

theorem writePointer (hplan : plan.Of w) {off n : Nat} (hoff : plan.Pointer off)
    (hn : (n : Int) ≤ PTR_MAX) :
    plan.Of (w.setContent .idx (writeAt (w.content .idx) off (sprintfWidth PTR_SZ n))) := by
  obtain ⟨head, recs, hlayout, rfl⟩ := hplan
  have hlength := Layout.length_sprintfWidth_ptr hn
  cases hoff with
  | head i =>
      have hend := Layout.off_lt i
      have hstart := hlayout.start_le
      rw [START] at hstart
      refine ⟨update head i n, recs, hlayout.setHead i hn, ?_⟩
      rw [planOf, planOf]
      congr 1
      exact length_writeAt_of_le (by omega)
  | record hshape =>
      obtain ⟨r, hrec, -⟩ := Option.map_eq_some_iff.mp hshape
      have hend := hlayout.end_le hrec
      rw [Rec.size] at hend
      refine ⟨head, _, hlayout.setPtr hrec hn, planOf_update hrec rfl ?_ rfl⟩
      exact length_writeAt_of_le (by omega)

theorem writeRecord (hplan : plan.Of w) {o : Nat} {key : List Byte} {ptr datoff datlen : Nat}
    (hshape : plan.shape o = some (key.length, datoff, datlen))
    (hptr : (ptr : Int) ≤ PTR_MAX) (hnul : 0 ∉ key) :
    plan.Of (w.setContent .idx (writeAt (w.content .idx) o
      (Rec.mk ptr key datoff (List.replicate datlen SPACE)).bytes)) := by
  obtain ⟨head, recs, hlayout, rfl⟩ := hplan
  obtain ⟨r, hrec, hr⟩ := Option.map_eq_some_iff.mp hshape
  obtain ⟨hkey, hdatoff, hdatlen⟩ : r.key.length = key.length ∧ r.datoff = datoff ∧
      r.data.length = datlen := by simpa [Rec.shape] using hr
  subst hdatoff hdatlen
  have hr' : (Rec.mk ptr key r.datoff r.data).shape = r.shape := by
    rw [Rec.shape, Rec.shape, hkey]
  have hsame := sameShape_of_shape hr'
  have hfits := (hlayout.fits hrec).of_shape hsame hptr hnul (hlayout.fits hrec).datnul
  have hbytes : (Rec.mk ptr key r.datoff (List.replicate r.data.length SPACE)).bytes =
      (Rec.mk ptr key r.datoff r.data).bytes := by
    simp only [Rec.bytes, Rec.head, Rec.text, Rec.datlen, List.length_replicate]
  have hend := hlayout.end_le hrec
  rw [hbytes]
  refine ⟨head, _, hlayout.setRecord hrec hsame hfits rfl, planOf_update hrec hr' ?_ rfl⟩
  apply length_writeAt_of_le
  rw [Rec.length_bytes hfits, ← hsame.size]
  exact hend

theorem writeData (hplan : plan.Of w) {o keylen datoff : Nat} {data : List Byte}
    (hshape : plan.shape o = some (keylen, datoff, data.length)) (hnul : 0 ∉ data) :
    plan.Of (w.setContent .dat (writeAt (w.content .dat) datoff (data ++ [NEWLINE]))) := by
  obtain ⟨head, recs, hlayout, rfl⟩ := hplan
  obtain ⟨r, hrec, hr⟩ := Option.map_eq_some_iff.mp hshape
  obtain ⟨-, rfl, hdatlen⟩ : r.key.length = keylen ∧ r.datoff = datoff ∧
      r.data.length = data.length := by simpa [Rec.shape] using hr
  have hend := hlayout.data_le hrec
  refine ⟨head, _, hlayout.setData hrec hdatlen.symm hnul, planOf_update hrec ?_ rfl ?_⟩
  · rw [Rec.shape, Rec.shape, hdatlen]
    rfl
  · apply length_writeAt_of_le
    rw [List.length_append, ← hdatlen]
    exact hend

end Plan.Of

/-- The handle has read the record at `o`. -/
structure DB.At (db : DB) (o keylen datoff datlen : Nat) : Prop where
  idxoff : db.idxoff = o
  idxbuf : db.idxbuf.length = keylen
  datoff : db.datoff = datoff
  datlen : db.datlen = datlen + 1

abbrev Leaves {α : Type} (prog : P α) (w : World Unit) (post : α → World Unit → Prop) : Prop :=
  Prog.Leaves World.act prog w post

section Functions

variable {plan : Plan} {w : World Unit} {db : DB}

theorem leaves_writew_lock (range : Range) (message : String) :
    Leaves (writew_lock db range message) w fun _ w' => w'.content = w.content := by
  rw [writew_lock]
  split
  · exact .call (.ret rfl)
  · exact .stop _ _

theorem leaves_readw_lock (range : Range) (message : String) :
    Leaves (readw_lock db range message) w fun _ w' => w'.content = w.content := by
  rw [readw_lock]
  split
  · exact .call (.ret rfl)
  · exact .stop _ _

theorem leaves_un_lock (range : Range) :
    Leaves (un_lock range) w fun _ w' => w'.content = w.content :=
  .call (.ret rfl)

theorem leaves_fileSize (file : FileId) :
    Leaves (fileSize file) w fun size w' => size = (w.content file).length ∧ w' = w :=
  .call (.ret ⟨rfl, rfl⟩)

theorem leaves_read (file : FileId) (pos n : Nat) :
    Leaves (db.read file pos n) w fun _ w' => w' = w := by
  rw [DB.read]
  split
  · exact .call (.ret rfl)
  · exact .ret rfl

theorem leaves_write (happend : db.append = false) (file : FileId) (pos : Nat)
    (bytes : List Byte) :
    Leaves (db.write file pos bytes) w fun a w' => ∀ pos', a = some pos' →
      pos + bytes.length ≤ OFF_MAX ∧
        w' = w.setContent file (writeAt (w.content file) pos bytes) := by
  rw [DB.write]
  split
  · refine .ret fun pos' hpos => ?_
    cases hpos
  · rw [if_neg (happend ▸ Bool.false_ne_true)]
    refine .call ?_
    rw [World.act]
    split
    · exact .ret fun _ _ => ⟨‹_›, rfl⟩
    · refine .ret fun pos' hpos => ?_
      cases hpos

theorem leaves_atolField (field : List Byte) :
    Leaves (atolField field) w fun _ w' => w' = w := by
  rw [atolField]
  split
  · exact .ret rfl
  · exact .stop _ _

theorem leaves_readptr (offset : Int) :
    Leaves (_db_readptr db offset) w fun a w' =>
      w' = w ∧ ∃ pos, a.2 = { db with idxpos := pos } := by
  rw [_db_readptr]
  split
  · exact .stop _ _
  · refine Prog.Leaves.bind (leaves_read _ _ _) ?_
    rintro (_ | asciiptr) w' rfl
    · exact .stop _ _
    · dsimp only
      split
      · exact .stop _ _
      · refine Prog.Leaves.bind (leaves_atolField asciiptr) ?_
        rintro ptr w' rfl
        exact .ret ⟨rfl, _, rfl⟩

theorem leaves_readdat (w : World Unit) : Leaves (_db_readdat db) w fun _ w' => w' = w := by
  rw [_db_readdat]
  split
  · exact .stop _ _
  · refine Prog.Leaves.bind (leaves_read _ _ _) ?_
    rintro (_ | record) w' rfl
    · exact .stop _ _
    · dsimp only
      split
      · exact .stop _ _
      · split
        · exact .stop _ _
        · exact .ret rfl

theorem leaves_writeptr (happend : db.append = false) (hplan : plan.Of w) {off : Nat}
    (hoff : plan.Pointer off) (ptrval : Int) :
    Leaves (_db_writeptr db off ptrval) w fun db' w' =>
      plan.Of w' ∧ ∃ pos, db' = { db with idxpos := pos } := by
  rw [_db_writeptr]
  split
  · exact .stop _ _
  · rename_i hptr
    obtain ⟨n, rfl⟩ := Int.eq_ofNat_of_zero_le (Int.not_lt.mp fun h => hptr (.inl h))
    rw [if_neg (by omega)]
    refine Prog.Leaves.bind (leaves_write happend .idx _ _) ?_
    rintro (_ | pos) w' hwrite
    · exact .stop _ _
    · obtain ⟨-, rfl⟩ := hwrite pos rfl
      rw [Int.toNat_natCast]
      exact .ret ⟨hplan.writePointer hoff (by omega), pos, rfl⟩

theorem leaves_writeData (happend : db.append = false) (data : List Byte) (pos : Nat) :
    Leaves (writeData db data pos) w fun db' w' =>
      pos + (data ++ [NEWLINE]).length ≤ OFF_MAX ∧
        w' = w.setContent .dat (writeAt (w.content .dat) pos (data ++ [NEWLINE])) ∧
        ∃ datpos, db' = { db with datoff := pos, datlen := data.length + 1, datpos } := by
  rw [writeData]
  refine Prog.Leaves.bind (leaves_write (by exact happend) .dat pos (data ++ [NEWLINE])) ?_
  rintro (_ | datpos) w' hwrite
  · exact .stop _ _
  · obtain ⟨hle, rfl⟩ := hwrite datpos rfl
    exact .ret ⟨hle, rfl, datpos, rfl⟩

theorem leaves_writeIndex (happend : db.append = false) (pos : Nat) :
    Leaves (writeIndex db pos) w fun db' w' =>
      pos + (sprintfWidth PTR_SZ db.ptrval ++ sprintfWidth IDXLEN_SZ db.idxbuf.length ++
        db.idxbuf).length ≤ OFF_MAX ∧
        w' = w.setContent .idx (writeAt (w.content .idx) pos
          (sprintfWidth PTR_SZ db.ptrval ++ sprintfWidth IDXLEN_SZ db.idxbuf.length ++
            db.idxbuf)) ∧
        ∃ idxpos, db' = { db with idxoff := pos, idxpos } := by
  rw [writeIndex]
  refine Prog.Leaves.bind (leaves_write (by exact happend) .idx pos _) ?_
  rintro (_ | idxpos) w' hwrite
  · exact .stop _ _
  · obtain ⟨hle, rfl⟩ := hwrite idxpos rfl
    exact .ret ⟨hle, rfl, idxpos, rfl⟩

/-- A data record in its place. -/
theorem leaves_writedat (happend : db.append = false) (hplan : plan.Of w) {data : List Byte}
    {o keylen datoff : Nat} (hshape : plan.shape o = some (keylen, datoff, data.length))
    (hnul : 0 ∉ data) :
    Leaves (_db_writedat db data datoff .set) w fun db' w' =>
      plan.Of w' ∧ ∃ datpos, db' = { db with datoff, datlen := data.length + 1, datpos } := by
  rw [_db_writedat, if_neg (by omega), Int.toNat_natCast]
  refine (leaves_writeData happend data datoff).mono ?_
  rintro db' w' ⟨-, rfl, hdb'⟩
  exact ⟨hplan.writeData hshape hnul, hdb'⟩

/-- An index record in its place. -/
theorem leaves_writeidx (happend : db.append = false) (hplan : plan.Of w) {key : List Byte}
    {o datoff datlen : Nat} (hshape : plan.shape o = some (key.length, datoff, datlen))
    (hdatoff : db.datoff = datoff) (hdatlen : db.datlen = datlen + 1) (hnul : 0 ∉ key)
    (ptrval : Int) :
    Leaves (_db_writeidx db key o .set ptrval) w fun db' w' =>
      plan.Of w' ∧ ∃ idxbuf idxpos, db' = { db with ptrval, idxbuf, idxoff := o, idxpos } := by
  rw [_db_writeidx]
  dsimp only
  split
  · exact .stop _ _
  · rename_i hptr
    obtain ⟨n, rfl⟩ := Int.eq_ofNat_of_zero_le (Int.not_lt.mp fun h => hptr (.inl h))
    split
    · exact .stop _ _
    · split
      · exact .stop _ _
      · rw [if_neg (by omega), Int.toNat_natCast]
        refine (leaves_writeIndex (by exact happend) o).mono ?_
        rintro db' w' ⟨-, rfl, idxpos, hdb'⟩
        refine ⟨?_, _, idxpos, hdb'⟩
        have hwrite := hplan.writeRecord hshape (by omega : (n : Int) ≤ PTR_MAX) hnul
        rw [Rec.bytes, Rec.head, Rec.text, Rec.datlen, List.length_replicate] at hwrite
        rw [hdatoff, hdatlen]
        exact hwrite

theorem nul_not_mem_spaces (n : Nat) : (0 : Byte) ∉ List.replicate n SPACE :=
  not_mem_spaces n (by decide)

/-- `_db_dodelete` leaves all lengths as they are. -/
theorem leaves_dodelete (happend : db.append = false) (hplan : plan.Of w)
    {o keylen datoff datlen ptroff : Nat} (hat : db.At o keylen datoff datlen)
    (hshape : plan.shape o = some (keylen, datoff, datlen)) (hptroff : db.ptroff = ptroff)
    (hpointer : plan.Pointer ptroff) :
    Leaves (_db_dodelete db) w fun db' w' =>
      plan.Of w' ∧ db'.append = false ∧ db'.chainoff = db.chainoff := by
  rw [_db_dodelete]
  dsimp only
  refine Prog.Leaves.bind (leaves_writew_lock _ _) ?_
  rintro ⟨⟩ w₁ hw₁
  rw [hat.datoff, hat.datlen, hat.idxbuf]
  have hblanks : ((datlen : Int) + 1 - 1).toNat = datlen := by omega
  rw [hblanks]
  refine Prog.Leaves.bind (leaves_writedat (by exact happend) (hplan.congr hw₁)
    (by rw [List.length_replicate]; exact hshape) (nul_not_mem_spaces datlen)) ?_
  rintro db₂ w₂ ⟨hplan₂, datpos, hdb₂⟩
  rw [List.length_replicate] at hdb₂
  refine Prog.Leaves.bind (leaves_readptr _) ?_
  rintro ⟨freeptr, db₃⟩ w₃ ⟨rfl, idxpos, hdb₃⟩
  dsimp only at hdb₃ ⊢
  subst hdb₃ hdb₂
  dsimp only
  rw [hat.idxoff]
  refine Prog.Leaves.bind (leaves_writeidx (by exact happend) hplan₂
    (by rw [List.length_replicate]; exact hshape) rfl rfl (nul_not_mem_spaces keylen) freeptr) ?_
  rintro db₄ w₄ ⟨hplan₄, idxbuf, idxpos, rfl⟩
  refine Prog.Leaves.bind (leaves_writeptr (by exact happend) hplan₄ (.head freeSlot) _) ?_
  rintro db₅ w₅ ⟨hplan₅, idxpos, rfl⟩
  dsimp only
  rw [hptroff]
  refine Prog.Leaves.bind (leaves_writeptr (by exact happend) hplan₅ hpointer _) ?_
  rintro db₆ w₆ ⟨hplan₆, idxpos, rfl⟩
  refine Prog.Leaves.bind (leaves_un_lock _) ?_
  rintro ⟨⟩ w₇ hw₇
  exact .ret ⟨hplan₆.congr hw₇, happend, rfl⟩

/-- A data record at the end of its file, which has no index record yet. -/
theorem leaves_appendData (happend : db.append = false) (hplan : plan.Of w) (data : List Byte)
    (offset : Int) :
    Leaves (_db_writedat db data offset .end) w fun db' w' =>
      (∃ head recs, Layout (w'.content .idx) (w'.content .dat) head recs
          (fun _ : Unit => some (plan.dat, data)) ∧
        planOf recs w' = { plan with dat := plan.dat + (data.length + 1) }) ∧
        ∃ datpos, db' = { db with datoff := plan.dat, datlen := data.length + 1, datpos } := by
  obtain ⟨head, recs, hlayout, rfl⟩ := hplan
  rw [_db_writedat]
  refine Prog.Leaves.bind (leaves_writew_lock _ _) ?_
  rintro ⟨⟩ w₁ hw₁
  refine Prog.Leaves.bind (leaves_fileSize _) ?_
  rintro size w₂ ⟨hsize, rfl⟩
  rw [hw₁] at hsize
  subst hsize
  refine Prog.Leaves.bind (leaves_writeData happend data _) ?_
  rintro db₃ w₃ ⟨hle, rfl, hdb₃⟩
  refine Prog.Leaves.bind (leaves_un_lock _) ?_
  rintro ⟨⟩ w₄ hw₄
  refine .ret ⟨⟨head, recs, ?_, ?_⟩, hdb₃⟩
  · have happended := hlayout.appendData (p := ()) rfl (d := data) hle
    have hspare : update (fun _ : Unit => none) () (some ((w.content .dat).length, data)) =
        fun _ => some ((planOf recs w).dat, data) := funext fun _ => update_self ..
    rw [hspare] at happended
    rw [hw₄, World.setContent_content, hw₁]
    exact happended
  · rw [planOf, hw₄, World.setContent_content, hw₁]
    congr 1
    exact (length_writeAt le_rfl _).trans (by simp [planOf])

/-- The index record for it. -/
theorem leaves_appendRec (happend : db.append = false) {key data : List Byte} {datoff : Nat}
    {recs : Nat → Option Rec} (hlayout : ∃ head, Layout (w.content .idx) (w.content .dat) head recs
      (fun _ : Unit => some (datoff, data)))
    (hnul : 0 ∉ key) (hdatnul : 0 ∉ data) (hdatlen : ((data.length + 1 : Nat) : Int) ≤ DATLEN_MAX)
    (hoff : db.datoff = datoff) (hlen : db.datlen = data.length + 1) (offset ptrval : Int) :
    Leaves (_db_writeidx db key offset .end ptrval) w fun db' w' =>
      (∃ head recs', Layout (w'.content .idx) (w'.content .dat) head recs' (fun _ : Unit => none) ∧
        planOf recs' w' =
          { planOf recs w with
            shape := update (planOf recs w).shape (planOf recs w).idx
              (some (key.length, datoff, data.length))
            idx := (planOf recs w).idx +
              (PTR_SZ + IDXLEN_SZ + (idxText key datoff (data.length + 1)).length) }) ∧
        ∃ ptrval idxbuf idxpos,
          db' = { db with ptrval, idxbuf, idxoff := ((planOf recs w).idx : Nat), idxpos } := by
  obtain ⟨head, hlayout⟩ := hlayout
  rw [_db_writeidx]
  dsimp only
  rw [hoff, hlen]
  split
  · exact .stop _ _
  · rename_i hptr
    obtain ⟨n, rfl⟩ := Int.eq_ofNat_of_zero_le (Int.not_lt.mp fun h => hptr (.inl h))
    split
    · exact .stop _ _
    · split
      · exact .stop _ _
      · rename_i hlength
        obtain ⟨r, hr⟩ : ∃ r : Rec, r = ⟨n, key, datoff, data⟩ := ⟨_, rfl⟩
        have htext : idxText key datoff (data.length + 1) = r.text := by
          rw [hr, Rec.text, Rec.datlen]
          rfl
        have hbytes : sprintfWidth PTR_SZ n ++ sprintfWidth IDXLEN_SZ r.text.length ++ r.text =
            r.bytes := by
          rw [Rec.bytes, Rec.head, hr]
        rw [htext] at hlength ⊢
        have hfits : r.Fits := by
          subst hr
          exact ⟨by dsimp only; omega, hnul, by omega, by omega, hdatlen, hdatnul⟩
        refine Prog.Leaves.bind (leaves_writew_lock _ _) ?_
        rintro ⟨⟩ w₁ hw₁
        refine Prog.Leaves.bind (leaves_fileSize _) ?_
        rintro size w₂ ⟨hsize, rfl⟩
        rw [hw₁] at hsize
        subst hsize
        refine Prog.Leaves.bind (leaves_writeIndex (by exact happend) _) ?_
        rintro db₃ w₃ ⟨hle, rfl, idxpos, rfl⟩
        dsimp only at hle ⊢
        rw [hbytes] at hle ⊢
        refine Prog.Leaves.bind (leaves_un_lock _) ?_
        rintro ⟨⟩ w₄ hw₄
        refine .ret ⟨⟨head, update recs (planOf recs w).idx (some r), ?_, ?_⟩, _, _, idxpos, rfl⟩
        · have happended := hlayout.appendRec (p := ()) (r := r) (by rw [hr]) hfits hle
          have hspare : update (fun _ : Unit => some (datoff, data)) () none = fun _ => none :=
            funext fun _ => update_self ..
          rw [hspare] at happended
          rw [hw₄, World.setContent_content, hw₁]
          exact happended
        · rw [planOf, hw₄, World.setContent_content, hw₁]
          congr 1
          · funext o
            rw [update_apply, update_apply]
            split
            · rw [Option.map_some, Rec.shape, hr]
            · rfl
          · refine (length_writeAt le_rfl _).trans ?_
            rw [Rec.length_bytes hfits, Rec.size]
            simp [planOf]

theorem leaves_storeAppend (happend : db.append = false) (hplan : plan.Of w)
    {key data : List Byte} (hnul : 0 ∉ key) (hdatnul : 0 ∉ data)
    (hdatlen : ((data.length + 1 : Nat) : Int) ≤ DATLEN_MAX) {i : Slot}
    (hchainoff : db.chainoff = (i.off : Nat)) (ptrval : Int) :
    Leaves (storeAppend db key data ptrval) w fun db' w' =>
      (plan.append key data).Of w' ∧ db'.append = false ∧ db'.chainoff = db.chainoff := by
  rw [storeAppend]
  refine Prog.Leaves.bind (leaves_appendData happend hplan data 0) ?_
  rintro db₁ w₁ ⟨⟨head, recs, hlayout, hplan₁⟩, datpos, rfl⟩
  refine Prog.Leaves.bind (leaves_appendRec (by exact happend) ⟨head, hlayout⟩ hnul hdatnul
    hdatlen rfl rfl 0 ptrval) ?_
  rintro db₂ w₂ ⟨hplan₂, ptrval, idxbuf, idxpos, rfl⟩
  rw [hplan₁] at hplan₂
  dsimp only
  rw [hchainoff]
  refine (leaves_writeptr (by exact happend) hplan₂ (.head i) _).mono ?_
  rintro db₃ w₃ ⟨hplan₃, idxpos, rfl⟩
  exact ⟨hplan₃, happend, rfl⟩

variable {Pid : Type} {head : Slot → Nat} {recs : Nat → Option Rec}
  {spare : Pid → Option (Nat × List Byte)}

theorem leaves_readhead (hlayout : Layout (w.content .idx) (w.content .dat) head recs spare)
    (i : Slot) :
    Leaves (_db_readptr db (i.off : Nat)) w fun a w' =>
      w' = w ∧ a = ((head i : Int), { db with idxpos := i.off + PTR_SZ }) := by
  by_cases hreadable : db.readable = true
  · intro a w' hrun
    have hexec := exec_readptr hlayout hreadable i
    cases hexec.symm.trans hrun
    exact ⟨rfl, rfl⟩
  · rw [_db_readptr, if_neg (by omega), DB.read, if_neg hreadable]
    exact .stop _ _

theorem leaves_readidx (hlayout : Layout (w.content .idx) (w.content .dat) head recs spare)
    {o : Nat} {r : Rec} (hrec : recs o = some r) (ho : o ≠ 0) :
    Leaves (_db_readidx db o) w fun a w' => w' = w ∧ a = ((r.ptr : Int), db.onto o r) := by
  by_cases hreadable : db.readable = true
  · intro a w' hrun
    have hexec := exec_readidx hlayout hreadable hrec (.inl ⟨rfl, ho⟩)
    split at hexec
    · cases hexec.symm.trans hrun
    · cases hexec.symm.trans hrun
      exact ⟨rfl, rfl⟩
  · rw [_db_readidx, if_neg (by omega)]
    dsimp only
    rw [readRecord, DB.read, if_neg (by exact hreadable)]
    exact .stop _ _

theorem DB.at_onto (db : DB) (o : Nat) (r : Rec) :
    (db.onto o r).At o r.key.length r.datoff r.data.length :=
  ⟨rfl, rfl, rfl, rfl⟩

/-- The handle is on the record at `o`, and in front of it is `db.ptroff`. -/
structure DB.Behind (db : DB) (recs : Nat → Option Rec) (o : Nat) (r : Rec) : Prop where
  record : recs o = some r
  at_rec : db.At o r.key.length r.datoff r.data.length
  ptroff : (∃ i : Slot, db.ptroff = (i.off : Nat)) ∨ ∃ o', recs o' ≠ none ∧ db.ptroff = (o' : Nat)

theorem leaves_findLoop (hlayout : Layout (w.content .idx) (w.content .dat) head recs spare)
    {key : List Byte} {offs : List Nat} {fuel n : Nat} (hpath : Path recs n offs)
    (hptroff : (∃ i : Slot, db.ptroff = (i.off : Nat)) ∨
      ∃ o', recs o' ≠ none ∧ db.ptroff = (o' : Nat)) :
    Leaves (findLoop key fuel db n) w fun a w' =>
      w' = w ∧ a.2.append = db.append ∧ a.2.chainoff = db.chainoff ∧
        (a.1 = -1 ∧ (∀ o ∈ offs, ∀ r, recs o = some r → r.key ≠ key) ∨
          a.1 = 0 ∧ ∃ o ∈ offs, ∃ r, r.key = key ∧ a.2.Behind recs o r) := by
  induction fuel generalizing db n offs with
  | zero => exact .stop _ _
  | succ fuel ih =>
      rw [findLoop]
      cases offs with
      | nil =>
          rw [if_pos (by exact_mod_cast hpath)]
          exact .ret ⟨rfl, rfl, rfl, .inl ⟨rfl, List.forall_mem_nil _⟩⟩
      | cons o rest =>
          obtain ⟨rfl, hne, r, hr, hrest⟩ := hpath
          rw [if_neg (by omega)]
          refine Prog.Leaves.bind (leaves_readidx hlayout hr hne) ?_
          rintro ⟨nextoffset, db'⟩ w' ⟨rfl, heq⟩
          obtain ⟨rfl, rfl⟩ := Prod.mk.inj heq
          dsimp only
          by_cases hkey : r.key = key
          · rw [if_pos (by exact hkey)]
            exact .ret ⟨rfl, rfl, rfl,
              .inr ⟨rfl, n, List.mem_cons_self, r, hkey, hr, db.at_onto n r, hptroff⟩⟩
          · rw [if_neg (by exact hkey)]
            refine (@ih { db.onto n r with ptroff := n } rest r.ptr hrest
              (.inr ⟨n, hr ▸ Option.some_ne_none r, rfl⟩)).mono ?_
            rintro a w'' ⟨rfl, happend, hchainoff, hresult⟩
            refine ⟨rfl, happend, hchainoff, ?_⟩
            rcases hresult with ⟨hrc, hnone⟩ | ⟨hrc, o, ho, hfound⟩
            · refine .inl ⟨hrc, fun o ho r' hr' => ?_⟩
              rcases List.mem_cons.mp ho with rfl | ho'
              · cases hr.symm.trans hr'
                exact hkey
              · exact hnone o ho' r' hr'
            · exact .inr ⟨hrc, o, List.mem_cons_of_mem n ho, hfound⟩

theorem leaves_find_and_lock
    (hlayout : Layout (w.content .idx) (w.content .dat) head recs spare) {key : List Byte}
    {offs : List Nat} {fuel : Nat} (hpath : Path recs (head (slotOf key)) offs) (writelock : Bool) :
    Leaves (_db_find_and_lock fuel db key writelock) w fun a w' =>
      w'.content = w.content ∧ a.2.append = db.append ∧
        a.2.chainoff = ((slotOf key).off : Nat) ∧
        (a.1 = -1 ∧ (∀ o ∈ offs, ∀ r, recs o = some r → r.key ≠ key) ∨
          a.1 = 0 ∧ ∃ o ∈ offs, ∃ r, r.key = key ∧ a.2.Behind recs o r) := by
  have hsearch : ∀ w₁ : World Unit, w₁.content = w.content →
      Leaves (_db_readptr { db with chainoff := ((slotOf key).off : Nat), ptroff := ((slotOf key).off : Nat) } ((slotOf key).off : Nat) >>= fun a =>
          findLoop key fuel a.2 a.1) w₁ fun a w' =>
        w'.content = w.content ∧ a.2.append = db.append ∧
          a.2.chainoff = ((slotOf key).off : Nat) ∧
          (a.1 = -1 ∧ (∀ o ∈ offs, ∀ r, recs o = some r → r.key ≠ key) ∨
            a.1 = 0 ∧ ∃ o ∈ offs, ∃ r, r.key = key ∧ a.2.Behind recs o r) := by
    intro w₁ hw₁
    rw [← hw₁] at hlayout
    refine Prog.Leaves.bind (leaves_readhead hlayout (slotOf key)) ?_
    rintro ⟨offset, db₂⟩ w₂ ⟨rfl, heq⟩
    obtain ⟨rfl, rfl⟩ := Prod.mk.inj heq
    refine (leaves_findLoop hlayout hpath (.inl ⟨slotOf key, rfl⟩)).mono ?_
    rintro a w₃ ⟨rfl, happend, hchainoff, hresult⟩
    exact ⟨hw₁, happend, hchainoff, hresult⟩
  rw [_db_find_and_lock]
  dsimp only
  rw [chainoff_eq]
  split
  · refine Prog.Leaves.bind (leaves_writew_lock _ _) ?_
    rintro ⟨⟩ w₁ hw₁
    exact hsearch w₁ hw₁
  · refine Prog.Leaves.bind (leaves_readw_lock _ _) ?_
    rintro ⟨⟩ w₁ hw₁
    exact hsearch w₁ hw₁

theorem leaves_findfreeLoop (hlayout : Layout (w.content .idx) (w.content .dat) head recs spare)
    {keylen datlen : Nat} {offs : List Nat} {fuel n saveoffset : Nat} (hpath : Path recs n offs)
    (hsave : (planOf recs w).Pointer saveoffset) :
    Leaves (findfreeLoop keylen (datlen + 1) fuel db saveoffset n) w fun a w' =>
      w' = w ∧ a.2.2.append = db.append ∧ a.2.2.chainoff = db.chainoff ∧
        (a.1 = 0 ∧ (∀ o ∈ offs, ∀ r, recs o = some r →
            ¬ (r.key.length = keylen ∧ r.data.length = datlen)) ∨
          a.1 ≠ 0 ∧ ∃ o ∈ offs, ∃ r, recs o = some r ∧ r.key.length = keylen ∧
            r.data.length = datlen ∧ a.2.2.At o keylen r.datoff datlen ∧
            ∃ pointer : Nat, a.2.1 = pointer ∧ (planOf recs w).Pointer pointer) := by
  induction fuel generalizing db n offs saveoffset with
  | zero => exact .stop _ _
  | succ fuel ih =>
      rw [findfreeLoop]
      cases offs with
      | nil =>
          have hn : (n : Int) = 0 := congrArg Nat.cast hpath
          rw [if_pos hn]
          exact .ret ⟨rfl, rfl, rfl, .inl ⟨hn, List.forall_mem_nil _⟩⟩
      | cons o rest =>
          obtain ⟨rfl, hne, r, hr, hrest⟩ := hpath
          rw [if_neg (by omega)]
          refine Prog.Leaves.bind (leaves_readidx hlayout hr hne) ?_
          rintro ⟨nextoffset, db'⟩ w' ⟨rfl, heq⟩
          obtain ⟨rfl, rfl⟩ := Prod.mk.inj heq
          dsimp only
          have hshape : (planOf recs w').shape n = some r.shape :=
            congrArg (Option.map Rec.shape) hr
          split
          · rename_i hmatch
            obtain ⟨hkeylen, hdatlen⟩ : r.key.length = keylen ∧ r.data.length = datlen := by
              have hon := db.at_onto n r
              rw [hon.idxbuf, hon.datlen] at hmatch
              omega
            subst hkeylen hdatlen
            exact .ret ⟨rfl, rfl, rfl, .inr ⟨by omega, n, List.mem_cons_self, r, hr, rfl, rfl,
              db.at_onto n r, saveoffset, rfl, hsave⟩⟩
          · rename_i hmatch
            refine (@ih (db.onto n r) rest r.ptr n hrest (.record hshape)).mono ?_
            rintro a w'' ⟨rfl, happend, hchainoff, hresult⟩
            refine ⟨rfl, happend, hchainoff, ?_⟩
            rcases hresult with ⟨hzero, hnone⟩ | ⟨hoffset, o, ho, hfound⟩
            · refine .inl ⟨hzero, fun o ho r' hr' => ?_⟩
              rcases List.mem_cons.mp ho with rfl | ho'
              · cases hr.symm.trans hr'
                have hon := db.at_onto o r
                rw [hon.idxbuf, hon.datlen] at hmatch
                omega
              · exact hnone o ho' r' hr'
            · exact .inr ⟨hoffset, o, List.mem_cons_of_mem n ho, hfound⟩

/-- There is a record at one of the offsets that has the lengths. -/
def Fitting (recs : Nat → Option Rec) (offs : List Nat) (keylen datlen : Nat) : Prop :=
  ∃ o ∈ offs, ∃ r, recs o = some r ∧ r.key.length = keylen ∧ r.data.length = datlen

/-- `_db_findfree` finds a record of the free list exactly when one has the lengths. -/
theorem leaves_findfree (happend : db.append = false)
    (hlayout : Layout (w.content .idx) (w.content .dat) head recs (fun _ : Unit => none))
    {keylen datlen : Nat} {offs : List Nat} {fuel : Nat} (hpath : Path recs (head freeSlot) offs) :
    Leaves (_db_findfree fuel db keylen (datlen + 1)) w fun a w' =>
      (planOf recs w).Of w' ∧ a.2.append = false ∧ a.2.chainoff = db.chainoff ∧
        (a.1 = -1 ∧ ¬ Fitting recs offs keylen datlen ∨
          a.1 = 0 ∧ Fitting recs offs keylen datlen ∧ ∃ o datoff,
            (planOf recs w).shape o = some (keylen, datoff, datlen) ∧
              a.2.At o keylen datoff datlen) := by
  rw [_db_findfree]
  refine Prog.Leaves.bind (leaves_writew_lock _ _) ?_
  rintro ⟨⟩ w₁ hw₁
  have hlayout₁ := hlayout
  rw [← hw₁] at hlayout₁
  have hplan₁ : planOf recs w₁ = planOf recs w := by
    rw [planOf, planOf, hw₁]
  have hof : (planOf recs w).Of w₁ := ⟨head, recs, hlayout₁, hplan₁⟩
  refine Prog.Leaves.bind (leaves_readhead hlayout₁ freeSlot) ?_
  rintro ⟨offset, db₂⟩ w₂ ⟨rfl, heq⟩
  obtain ⟨rfl, rfl⟩ := Prod.mk.inj heq
  have hfront : (planOf recs w₂).Pointer FREE_OFF := .head freeSlot
  refine Prog.Leaves.bind (leaves_findfreeLoop hlayout₁ hpath hfront) ?_
  rintro ⟨offset, saveoffset, db₃⟩ w₃ ⟨rfl, happend₃, hchainoff₃, hresult⟩
  dsimp only at happend₃ hchainoff₃ hresult ⊢
  rcases hresult with ⟨hzero, hnone⟩ | ⟨hoffset, o, ho, r, hr, hkeylen, hdatlen, hat, pointer,
    rfl, hpointer⟩
  · rw [if_pos hzero]
    refine Prog.Leaves.bind (leaves_un_lock _) ?_
    rintro ⟨⟩ w₄ hw₄
    refine .ret ⟨hof.congr hw₄, happend₃.trans happend, hchainoff₃, .inl ⟨rfl, ?_⟩⟩
    rintro ⟨o, ho, r, hr, hlengths⟩
    exact hnone o ho r hr hlengths
  · rw [if_neg hoffset]
    rw [hplan₁] at hpointer
    refine Prog.Leaves.bind (leaves_writeptr (happend₃.trans happend) hof hpointer _) ?_
    rintro db₄ w₄ ⟨hplan₄, idxpos, rfl⟩
    refine Prog.Leaves.bind (leaves_un_lock _) ?_
    rintro ⟨⟩ w₅ hw₅
    refine .ret ⟨hplan₄.congr hw₅, happend₃.trans happend, hchainoff₃, .inr ⟨rfl,
      ⟨o, ho, r, hr, hkeylen, hdatlen⟩, o, r.datoff, ?_, hat.idxoff, hat.idxbuf, hat.datoff,
      hat.datlen⟩⟩
    subst hkeylen hdatlen
    exact congrArg (Option.map Rec.shape) hr

theorem leaves_storeReuse (happend : db.append = false) (hplan : plan.Of w)
    {key data : List Byte} (hnul : 0 ∉ key) (hdatnul : 0 ∉ data) {o datoff : Nat}
    (hshape : plan.shape o = some (key.length, datoff, data.length))
    (hat : db.At o key.length datoff data.length) {i : Slot}
    (hchainoff : db.chainoff = (i.off : Nat)) (ptrval : Int) :
    Leaves (storeReuse db key data ptrval) w fun db' w' =>
      plan.Of w' ∧ db'.append = false ∧ db'.chainoff = db.chainoff := by
  rw [storeReuse, hat.datoff]
  refine Prog.Leaves.bind (leaves_writedat happend hplan hshape hdatnul) ?_
  rintro db₁ w₁ ⟨hplan₁, datpos, rfl⟩
  dsimp only
  rw [hat.idxoff]
  refine Prog.Leaves.bind (leaves_writeidx (by exact happend) hplan₁ hshape rfl rfl hnul ptrval) ?_
  rintro db₂ w₂ ⟨hplan₂, idxbuf, idxpos, rfl⟩
  dsimp only
  rw [hchainoff]
  refine (leaves_writeptr (by exact happend) hplan₂ (.head i) _).mono ?_
  rintro db₃ w₃ ⟨hplan₃, idxpos, rfl⟩
  exact ⟨hplan₃, happend, rfl⟩

end Functions

end ApueCourse.Db
