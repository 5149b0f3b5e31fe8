import ApueCourse.Db.Functions
import Mathlib.Logic.Function.Basic

/-! What is where in the two files: pointers, index records and data records. -/

namespace ApueCourse.Db

open Memory Function

/-- An index record with the data record that it names, without its newline. -/
structure Rec where
  ptr : Nat
  key : List Byte
  datoff : Nat
  data : List Byte

namespace Rec

def datlen (r : Rec) : Nat := r.data.length + 1

def text (r : Rec) : List Byte := idxText r.key r.datoff r.datlen

def head (r : Rec) : List Byte :=
  sprintfWidth PTR_SZ r.ptr ++ sprintfWidth IDXLEN_SZ r.text.length

def bytes (r : Rec) : List Byte := r.head ++ r.text

def size (r : Rec) : Nat := PTR_SZ + IDXLEN_SZ + r.text.length

structure Fits (r : Rec) : Prop where
  ptr : (r.ptr : Int) ≤ PTR_MAX
  nul : 0 ∉ r.key
  low : IDXLEN_MIN ≤ r.text.length
  high : r.text.length ≤ IDXLEN_MAX
  datlen : r.datlen ≤ DATLEN_MAX
  datnul : 0 ∉ r.data

/-- The records take the same place in both files. -/
structure SameShape (r r' : Rec) : Prop where
  size : r.size = r'.size
  datoff : r.datoff = r'.datoff
  length : r.data.length = r'.data.length

theorem SameShape.refl (r : Rec) : SameShape r r := ⟨rfl, rfl, rfl⟩

theorem SameShape.trans {r r' r'' : Rec} (h : SameShape r r') (h' : SameShape r' r'') :
    SameShape r r'' :=
  ⟨h.size.trans h'.size, h.datoff.trans h'.datoff, h.length.trans h'.length⟩

def setPtr (r : Rec) (n : Nat) : Rec := { r with ptr := n }

def setData (r : Rec) (d : List Byte) : Rec := { r with data := d }

theorem sameShape_setPtr (r : Rec) (n : Nat) : SameShape r (r.setPtr n) := ⟨rfl, rfl, rfl⟩

theorem Fits.setPtr {r : Rec} (hr : r.Fits) {n : Nat} (hn : (n : Int) ≤ PTR_MAX) :
    (r.setPtr n).Fits :=
  ⟨hn, hr.nul, hr.low, hr.high, hr.datlen, hr.datnul⟩

theorem text_setData {r : Rec} {d : List Byte} (hd : d.length = r.data.length) :
    (r.setData d).text = r.text := by
  simp only [text, datlen, setData, hd]

theorem sameShape_setData {r : Rec} {d : List Byte} (hd : d.length = r.data.length) :
    SameShape r (r.setData d) := by
  refine ⟨?_, rfl, hd.symm⟩
  rw [size, size, text_setData hd]

theorem bytes_setData {r : Rec} {d : List Byte} (hd : d.length = r.data.length) :
    (r.setData d).bytes = r.bytes := by
  rw [bytes, bytes, head, head, text_setData hd]
  rfl

theorem Fits.setData {r : Rec} (hr : r.Fits) {d : List Byte} (hd : d.length = r.data.length)
    (hnul : 0 ∉ d) : (r.setData d).Fits := by
  have htext := text_setData hd
  have hdatlen : (r.setData d).datlen = r.datlen := congrArg (· + 1) hd
  exact ⟨hr.ptr, hr.nul, htext ▸ hr.low, htext ▸ hr.high, hdatlen ▸ hr.datlen, hnul⟩

theorem length_head {r : Rec} (hr : r.Fits) : r.head.length = PTR_SZ + IDXLEN_SZ := by
  have hptr := hr.ptr
  have htext := hr.high
  simp only [PTR_MAX, IDXLEN_MAX] at hptr htext
  rw [head, List.length_append, length_sprintfWidth (by decide), length_sprintfWidth (by decide)]
  · simp only [IDXLEN_SZ]
    omega
  · simp only [PTR_SZ]
    omega

theorem length_bytes {r : Rec} (hr : r.Fits) : r.bytes.length = r.size := by
  rw [bytes, List.length_append, length_head hr, size]

end Rec

/-- The pointers in front of the records: the free list's and those of the chains. -/
abbrev Slot := Fin (NHASH_DEF + 1)

def Slot.off (i : Slot) : Nat := PTR_SZ * i

def freeSlot : Slot := 0

def slotOf (key : List Byte) : Slot :=
  ⟨_db_hash key + 1, Nat.succ_lt_succ (Nat.mod_lt _ (by decide))⟩

/-- Where the index records begin. -/
def START : Nat := (NHASH_DEF + 1) * PTR_SZ + 1

/-- The data records: those of the index records, and those that have none yet. -/
def extent {Pid : Type} (rec : Nat → Option Rec) (spare : Pid → Option (Nat × List Byte)) :
    Nat ⊕ Pid → Option (Nat × List Byte)
  | .inl o => (rec o).map fun r => (r.datoff, r.data)
  | .inr p => spare p

structure Layout {Pid : Type} (idx dat : List Byte) (head : Slot → Nat)
    (rec : Nat → Option Rec) (spare : Pid → Option (Nat × List Byte)) : Prop where
  idx_le : idx.length ≤ OFF_MAX
  dat_le : dat.length ≤ OFF_MAX
  newline : At idx ((NHASH_DEF + 1) * PTR_SZ) [NEWLINE]
  ptr : ∀ i : Slot, At idx i.off (sprintfWidth PTR_SZ (head i))
  ptr_le : ∀ i : Slot, (head i : Int) ≤ PTR_MAX
  fits : ∀ {o r}, rec o = some r → r.Fits
  start : ∀ {o r}, rec o = some r → START ≤ o
  record : ∀ {o r}, rec o = some r → At idx o r.bytes
  apart : ∀ {o o' r r'}, rec o = some r → rec o' = some r' → o < o' → o + r.size ≤ o'
  first : idx.length = START ∨ rec START ≠ none
  next : ∀ {o r}, rec o = some r → o + r.size = idx.length ∨ rec (o + r.size) ≠ none
  data : ∀ {tag pos d}, extent rec spare tag = some (pos, d) → At dat pos (d ++ [NEWLINE])
  data_apart : ∀ {tag tag' pos pos' d d'}, tag ≠ tag' → extent rec spare tag = some (pos, d) →
    extent rec spare tag' = some (pos', d') →
    pos + d.length + 1 ≤ pos' ∨ pos' + d'.length + 1 ≤ pos

/-- Outside the `n` bytes at `pos` the file is as it was. -/
structure Frame (file file' : List Byte) (pos n : Nat) : Prop where
  length : file'.length = file.length
  other : ∀ {pos' bytes}, At file pos' bytes → pos' + bytes.length ≤ pos ∨ pos + n ≤ pos' →
    At file' pos' bytes

theorem frame_writeAt {file bytes : List Byte} {pos n : Nat} (hlength : bytes.length = n)
    (hle : pos + n ≤ file.length) : Frame file (writeAt file pos bytes) pos n := by
  subst hlength
  have hpos : pos ≤ file.length := by omega
  constructor
  · rw [length_writeAt hpos]
    omega
  · intro pos' bytes' hat hapart
    exact hat.writeAt hpos hapart

theorem length_writeAt_of_le {file bytes : List Byte} {pos : Nat}
    (hle : pos + bytes.length ≤ file.length) : (writeAt file pos bytes).length = file.length :=
  (frame_writeAt rfl hle).length

theorem Frame.mono {file file' : List Byte} {pos n pos' n' : Nat}
    (hframe : Frame file file' pos n) (hpos : pos' ≤ pos) (hn : pos + n ≤ pos' + n') :
    Frame file file' pos' n' where
  length := hframe.length
  other hat hapart := hframe.other hat (by omega)

namespace Layout

variable {Pid : Type} {idx dat : List Byte} {head : Slot → Nat} {rec : Nat → Option Rec}
  {spare : Pid → Option (Nat × List Byte)}

theorem length_ptr (hlayout : Layout idx dat head rec spare) (i : Slot) :
    (sprintfWidth PTR_SZ (head i)).length = PTR_SZ := by
  have hle := hlayout.ptr_le i
  simp only [PTR_MAX] at hle
  exact length_sprintfWidth (by decide) (by simp only [PTR_SZ]; omega)

theorem readptr (hlayout : Layout idx dat head rec spare) (i : Slot) :
    readAt idx i.off PTR_SZ = sprintfWidth PTR_SZ (head i) := by
  have hread := (hlayout.ptr i).readAt
  rwa [hlayout.length_ptr] at hread

theorem readhead (hlayout : Layout idx dat head rec spare) {o : Nat} {r : Rec}
    (ho : rec o = some r) : readAt idx o (PTR_SZ + IDXLEN_SZ) = r.head := by
  have hread := (at_append.mp (hlayout.record ho)).1.readAt
  rwa [Rec.length_head (hlayout.fits ho)] at hread

theorem readtext (hlayout : Layout idx dat head rec spare) {o : Nat} {r : Rec}
    (ho : rec o = some r) :
    readAt idx (o + (PTR_SZ + IDXLEN_SZ)) r.text.length = r.text := by
  have hread := (at_append.mp (hlayout.record ho)).2.readAt
  rwa [Rec.length_head (hlayout.fits ho)] at hread

theorem readdata (hlayout : Layout idx dat head rec spare) {o : Nat} {r : Rec}
    (ho : rec o = some r) : readAt dat r.datoff r.datlen = r.data ++ [NEWLINE] := by
  have hextent : extent rec spare (.inl o) = some (r.datoff, r.data) := by
    rw [extent, ho, Option.map_some]
  have hread := (hlayout.data hextent).readAt
  rwa [List.length_append] at hread

theorem end_le (hlayout : Layout idx dat head rec spare) {o : Nat} {r : Rec}
    (ho : rec o = some r) : o + r.size ≤ idx.length := by
  have hne : r.bytes ≠ [] := by
    intro hnil
    have hlength := Rec.length_bytes (hlayout.fits ho)
    rw [hnil, Rec.size, PTR_SZ, List.length_nil] at hlength
    omega
  have hle := (hlayout.record ho).le hne
  rwa [Rec.length_bytes (hlayout.fits ho)] at hle

theorem length_sprintfWidth_ptr {n : Nat} (hn : (n : Int) ≤ PTR_MAX) :
    (sprintfWidth PTR_SZ n).length = PTR_SZ := by
  simp only [PTR_MAX] at hn
  exact length_sprintfWidth (by decide) (by simp only [PTR_SZ]; omega)

theorem start_le (hlayout : Layout idx dat head rec spare) : START ≤ idx.length :=
  hlayout.newline.le (List.cons_ne_nil _ _)

theorem off_lt (i : Slot) : i.off + PTR_SZ ≤ (NHASH_DEF + 1) * PTR_SZ := by
  have hi := i.isLt
  simp only [Slot.off, NHASH_DEF, PTR_SZ] at hi ⊢
  omega

theorem off_apart {i j : Slot} (hne : j ≠ i) :
    j.off + PTR_SZ ≤ i.off ∨ i.off + PTR_SZ ≤ j.off := by
  have hval : (j : Nat) ≠ i := fun h => hne (Fin.ext h)
  simp only [Slot.off, PTR_SZ]
  omega

/-- A pointer in front of the records is written. -/
theorem setHead (hlayout : Layout idx dat head rec spare) (i : Slot) {n : Nat}
    (hn : (n : Int) ≤ PTR_MAX) :
    Layout (writeAt idx i.off (sprintfWidth PTR_SZ n)) dat (update head i n) rec spare := by
  have hlength := length_sprintfWidth_ptr hn
  have hend := off_lt i
  have hstart := hlayout.start_le
  have hlt : (NHASH_DEF + 1) * PTR_SZ < START := Nat.lt_succ_self _
  have hframe : Frame idx (writeAt idx i.off (sprintfWidth PTR_SZ n)) i.off PTR_SZ :=
    frame_writeAt hlength (by omega)
  constructor
  case idx_le => exact hframe.length ▸ hlayout.idx_le
  case dat_le => exact hlayout.dat_le
  case newline => exact hframe.other hlayout.newline (.inr hend)
  case ptr =>
      intro j
      rcases eq_or_ne j i with rfl | hne
      · rw [update_self]
        exact at_writeAt (by omega) _
      · rw [update_of_ne hne]
        apply hframe.other (hlayout.ptr j)
        rw [hlayout.length_ptr]
        exact off_apart hne
  case ptr_le =>
      intro j
      rcases eq_or_ne j i with rfl | hne
      · rwa [update_self]
      · rw [update_of_ne hne]
        exact hlayout.ptr_le j
  case fits => exact hlayout.fits
  case start => exact hlayout.start
  case record =>
      intro o r ho
      have ho' := hlayout.start ho
      exact hframe.other (hlayout.record ho) (.inr (by omega))
  case apart => exact hlayout.apart
  case first => exact hframe.length ▸ hlayout.first
  case next => exact hframe.length ▸ hlayout.next
  case data => exact hlayout.data
  case data_apart => exact hlayout.data_apart

/-- An index record is written, with the same data record in its place. -/
theorem setRec (hlayout : Layout idx dat head rec spare) {idx' : List Byte} {o : Nat}
    {r r' : Rec} (ho : rec o = some r) (hshape : r.SameShape r') (hfits : r'.Fits)
    (hdata : r'.data = r.data) (hframe : Frame idx idx' o r.size)
    (hat : At idx' o r'.bytes) : Layout idx' dat head (update rec o (some r')) spare := by
  have hstart := hlayout.start ho
  have hlt : (NHASH_DEF + 1) * PTR_SZ < START := Nat.lt_succ_self _
  have hextent : extent (update rec o (some r')) spare = extent rec spare := by
    funext tag
    cases tag with
    | inl o' =>
        rcases eq_or_ne o' o with rfl | hne
        · rw [extent, extent, update_self, ho, Option.map_some, Option.map_some, hdata,
            hshape.datoff]
        · rw [extent, extent, update_of_ne hne]
    | inr p => rfl
  have hsome : ∀ {o' r₁}, update rec o (some r') o' = some r₁ →
      ∃ r₀, rec o' = some r₀ ∧ r₀.size = r₁.size := by
    intro o' r₁ ho'
    rcases eq_or_ne o' o with rfl | hne
    · rw [update_self] at ho'
      cases ho'
      exact ⟨r, ho, hshape.size⟩
    · rw [update_of_ne hne] at ho'
      exact ⟨r₁, ho', rfl⟩
  have hnone : ∀ {o'}, rec o' ≠ none → update rec o (some r') o' ≠ none := by
    intro o' ho'
    rcases eq_or_ne o' o with rfl | hne
    · rw [update_self]
      exact Option.some_ne_none r'
    · rwa [update_of_ne hne]
  constructor
  case idx_le => exact hframe.length ▸ hlayout.idx_le
  case dat_le => exact hlayout.dat_le
  case newline => exact hframe.other hlayout.newline (.inl (hlt.trans_le hstart))
  case ptr =>
      intro i
      have hoff := off_lt i
      apply hframe.other (hlayout.ptr i) (.inl _)
      rw [hlayout.length_ptr]
      omega
  case ptr_le => exact hlayout.ptr_le
  case fits =>
      intro o' r₁ ho'
      rcases eq_or_ne o' o with rfl | hne
      · rw [update_self] at ho'
        cases ho'
        exact hfits
      · rw [update_of_ne hne] at ho'
        exact hlayout.fits ho'
  case start =>
      intro o' r₁ ho'
      obtain ⟨r₀, ho₀, -⟩ := hsome ho'
      exact hlayout.start ho₀
  case record =>
      intro o' r₁ ho'
      rcases eq_or_ne o' o with rfl | hne
      · rw [update_self] at ho'
        cases ho'
        exact hat
      · rw [update_of_ne hne] at ho'
        apply hframe.other (hlayout.record ho')
        rw [Rec.length_bytes (hlayout.fits ho')]
        rcases Nat.lt_or_gt_of_ne hne with hlt | hgt
        · exact .inl (hlayout.apart ho' ho hlt)
        · exact .inr (hlayout.apart ho ho' hgt)
  case apart =>
      intro o₁ o₂ r₁ r₂ h₁ h₂ hlt
      obtain ⟨r₁', h₁', hsize⟩ := hsome h₁
      obtain ⟨r₂', h₂', -⟩ := hsome h₂
      rw [← hsize]
      exact hlayout.apart h₁' h₂' hlt
  case first =>
      rw [hframe.length]
      exact hlayout.first.imp_right hnone
  case next =>
      intro o' r₁ ho'
      obtain ⟨r₀, ho₀, hsize⟩ := hsome ho'
      rw [hframe.length, ← hsize]
      exact (hlayout.next ho₀).imp_right hnone
  case data =>
      rw [hextent]
      exact hlayout.data
  case data_apart =>
      rw [hextent]
      exact hlayout.data_apart

theorem setRecord (hlayout : Layout idx dat head rec spare) {o : Nat} {r r' : Rec}
    (ho : rec o = some r) (hshape : r.SameShape r') (hfits : r'.Fits)
    (hdata : r'.data = r.data) :
    Layout (writeAt idx o r'.bytes) dat head (update rec o (some r')) spare := by
  have hend := hlayout.end_le ho
  have hlength : r'.bytes.length = r.size := by
    rw [Rec.length_bytes hfits, hshape.size]
  apply hlayout.setRec ho hshape hfits hdata
  · exact frame_writeAt hlength (by omega)
  · exact at_writeAt (by omega) _

theorem setPtr (hlayout : Layout idx dat head rec spare) {o : Nat} {r : Rec}
    (ho : rec o = some r) {n : Nat} (hn : (n : Int) ≤ PTR_MAX) :
    Layout (writeAt idx o (sprintfWidth PTR_SZ n)) dat head
      (update rec o (some (r.setPtr n))) spare := by
  have hend := hlayout.end_le ho
  have hfits := hlayout.fits ho
  have hlength := length_sprintfWidth_ptr hn
  have hsize : PTR_SZ ≤ r.size := by
    rw [Rec.size]
    omega
  have hframe : Frame idx (writeAt idx o (sprintfWidth PTR_SZ n)) o PTR_SZ :=
    frame_writeAt hlength (by omega)
  have hat : At (writeAt idx o (sprintfWidth PTR_SZ n)) o (r.setPtr n).bytes := by
    have hrest := hlayout.record ho
    rw [Rec.bytes, Rec.head, List.append_assoc] at hrest ⊢
    refine at_append.mpr ⟨at_writeAt (by omega) _, ?_⟩
    have hold := (at_append.mp hrest).2
    rw [length_sprintfWidth_ptr hfits.ptr] at hold
    rw [show (sprintfWidth PTR_SZ ((r.setPtr n).ptr : Int)).length = PTR_SZ from hlength]
    exact hframe.other hold (.inr le_rfl)
  exact hlayout.setRec ho (r.sameShape_setPtr n) (hfits.setPtr hn) rfl
    (hframe.mono le_rfl (by omega)) hat

theorem data_le (hlayout : Layout idx dat head rec spare) {o : Nat} {r : Rec}
    (ho : rec o = some r) : r.datoff + r.datlen ≤ dat.length := by
  have hextent : extent rec spare (.inl o) = some (r.datoff, r.data) := by
    rw [extent, ho, Option.map_some]
  have hend := (hlayout.data hextent).le (List.append_ne_nil_of_right_ne_nil _ (by simp))
  rwa [List.length_append] at hend

/-- A data record is written in its place. -/
theorem setData (hlayout : Layout idx dat head rec spare) {o : Nat} {r : Rec}
    (ho : rec o = some r) {d : List Byte} (hd : d.length = r.data.length) (hnul : 0 ∉ d) :
    Layout idx (writeAt dat r.datoff (d ++ [NEWLINE])) head
      (update rec o (some (r.setData d))) spare := by
  have hextent : extent rec spare (.inl o) = some (r.datoff, r.data) := by
    rw [extent, ho, Option.map_some]
  have hend := hlayout.data_le ho
  have hlength : (d ++ [NEWLINE]).length = r.datlen := by
    rw [List.length_append, List.length_singleton, hd, Rec.datlen]
  have hframe : Frame dat (writeAt dat r.datoff (d ++ [NEWLINE])) r.datoff r.datlen :=
    frame_writeAt hlength hend
  -- An extent is the one that is written, or one that is apart from it.
  have hcases : ∀ {tag pos d'}, extent (update rec o (some (r.setData d))) spare tag =
      some (pos, d') → tag = .inl o ∧ pos = r.datoff ∧ d' = d ∨
        tag ≠ .inl o ∧ extent rec spare tag = some (pos, d') := by
    intro tag pos d' htag
    cases tag with
    | inl o' =>
        rcases eq_or_ne o' o with rfl | hne
        · rw [extent, update_self, Option.map_some] at htag
          cases htag
          exact .inl ⟨rfl, rfl, rfl⟩
        · rw [extent, update_of_ne hne] at htag
          exact .inr ⟨fun h => hne (Sum.inl.inj h), htag⟩
    | inr p => exact .inr ⟨nofun, htag⟩
  -- The index file says the same as before.
  have hsome : ∀ {o' r₁}, update rec o (some (r.setData d)) o' = some r₁ →
      ∃ r₀, rec o' = some r₀ ∧ r₁.Fits ∧ r₀.bytes = r₁.bytes ∧ r₀.size = r₁.size := by
    intro o' r₁ ho'
    rcases eq_or_ne o' o with rfl | hne
    · rw [update_self] at ho'
      cases ho'
      exact ⟨r, ho, (hlayout.fits ho).setData hd hnul, (Rec.bytes_setData hd).symm,
        (Rec.sameShape_setData hd).size⟩
    · rw [update_of_ne hne] at ho'
      exact ⟨r₁, ho', hlayout.fits ho', rfl, rfl⟩
  have hnone : ∀ {o'}, rec o' ≠ none → update rec o (some (r.setData d)) o' ≠ none := by
    intro o' ho'
    rcases eq_or_ne o' o with rfl | hne
    · rw [update_self]
      exact Option.some_ne_none _
    · rwa [update_of_ne hne]
  constructor
  case idx_le => exact hlayout.idx_le
  case dat_le => exact hframe.length ▸ hlayout.dat_le
  case newline => exact hlayout.newline
  case ptr => exact hlayout.ptr
  case ptr_le => exact hlayout.ptr_le
  case fits =>
      intro o' r₁ ho'
      obtain ⟨-, -, hfits, -⟩ := hsome ho'
      exact hfits
  case start =>
      intro o' r₁ ho'
      obtain ⟨r₀, ho₀, -⟩ := hsome ho'
      exact hlayout.start ho₀
  case record =>
      intro o' r₁ ho'
      obtain ⟨r₀, ho₀, -, hbytes, -⟩ := hsome ho'
      exact hbytes ▸ hlayout.record ho₀
  case apart =>
      intro o₁ o₂ r₁ r₂ h₁ h₂ hlt
      obtain ⟨r₁', h₁', -, -, hsize⟩ := hsome h₁
      obtain ⟨r₂', h₂', -⟩ := hsome h₂
      exact hsize ▸ hlayout.apart h₁' h₂' hlt
  case first => exact hlayout.first.imp_right hnone
  case next =>
      intro o' r₁ ho'
      obtain ⟨r₀, ho₀, -, -, hsize⟩ := hsome ho'
      exact hsize ▸ (hlayout.next ho₀).imp_right hnone
  case data =>
      intro tag pos d' htag
      rcases hcases htag with ⟨-, rfl, rfl⟩ | ⟨hne, htag'⟩
      · exact at_writeAt (by omega) _
      · apply hframe.other (hlayout.data htag')
        rw [List.length_append, List.length_singleton, Rec.datlen, ← Nat.add_assoc]
        exact hlayout.data_apart hne htag' hextent
  case data_apart =>
      intro tag tag' pos pos' d₁ d₂ hne htag htag'
      rcases hcases htag with ⟨rfl, rfl, rfl⟩ | ⟨-, htag₁⟩
      · rcases hcases htag' with ⟨rfl, -⟩ | ⟨-, htag₂⟩
        · exact absurd rfl hne
        · exact hd ▸ hlayout.data_apart hne hextent htag₂
      · rcases hcases htag' with ⟨rfl, rfl, rfl⟩ | ⟨-, htag₂⟩
        · exact hd ▸ hlayout.data_apart hne htag₁ hextent
        · exact hlayout.data_apart hne htag₁ htag₂

/-- A data record is written behind the last one. -/
theorem appendData [DecidableEq Pid] (hlayout : Layout idx dat head rec spare) {p : Pid}
    (hspare : spare p = none) {d : List Byte}
    (hle : dat.length + (d ++ [NEWLINE]).length ≤ OFF_MAX) :
    Layout idx (writeAt dat dat.length (d ++ [NEWLINE])) head rec
      (update spare p (some (dat.length, d))) := by
  have hkeep : ∀ {pos bytes}, bytes ≠ [] → At dat pos bytes →
      At (writeAt dat dat.length (d ++ [NEWLINE])) pos bytes := by
    intro pos bytes hne hat
    exact hat.writeAt le_rfl (.inl (hat.le hne))
  have hcases : ∀ {tag pos d'},
      extent rec (update spare p (some (dat.length, d))) tag = some (pos, d') →
      tag = .inr p ∧ pos = dat.length ∧ d' = d ∨
        tag ≠ .inr p ∧ extent rec spare tag = some (pos, d') := by
    intro tag pos d' htag
    cases tag with
    | inl o => exact .inr ⟨nofun, htag⟩
    | inr q =>
        rcases eq_or_ne q p with rfl | hne
        · rw [extent, update_self] at htag
          cases htag
          exact .inl ⟨rfl, rfl, rfl⟩
        · rw [extent, update_of_ne hne] at htag
          exact .inr ⟨fun h => hne (Sum.inr.inj h), htag⟩
  have hend : ∀ {tag pos d'}, extent rec spare tag = some (pos, d') →
      pos + d'.length + 1 ≤ dat.length := by
    intro tag pos d' htag
    have hle := (hlayout.data htag).le (List.append_ne_nil_of_right_ne_nil _ (by simp))
    rwa [List.length_append, List.length_singleton, ← Nat.add_assoc] at hle
  constructor
  case idx_le => exact hlayout.idx_le
  case dat_le =>
      rw [length_writeAt le_rfl]
      omega
  case newline => exact hlayout.newline
  case ptr => exact hlayout.ptr
  case ptr_le => exact hlayout.ptr_le
  case fits => exact hlayout.fits
  case start => exact hlayout.start
  case record => exact hlayout.record
  case apart => exact hlayout.apart
  case first => exact hlayout.first
  case next => exact hlayout.next
  case data =>
      intro tag pos d' htag
      rcases hcases htag with ⟨-, rfl, rfl⟩ | ⟨-, htag'⟩
      · exact at_writeAt le_rfl _
      · exact hkeep (List.append_ne_nil_of_right_ne_nil _ (by simp)) (hlayout.data htag')
  case data_apart =>
      intro tag tag' pos pos' d₁ d₂ hne htag htag'
      rcases hcases htag with ⟨rfl, rfl, rfl⟩ | ⟨-, htag₁⟩
      · rcases hcases htag' with ⟨rfl, -⟩ | ⟨-, htag₂⟩
        · exact absurd rfl hne
        · exact .inr (hend htag₂)
      · rcases hcases htag' with ⟨rfl, rfl, rfl⟩ | ⟨-, htag₂⟩
        · exact .inl (hend htag₁)
        · exact hlayout.data_apart hne htag₁ htag₂

/-- An index record is written behind the last one, for a data record that has none. -/
theorem appendRec [DecidableEq Pid] (hlayout : Layout idx dat head rec spare) {p : Pid}
    {r : Rec} (hspare : spare p = some (r.datoff, r.data)) (hfits : r.Fits)
    (hle : idx.length + r.bytes.length ≤ OFF_MAX) :
    Layout (writeAt idx idx.length r.bytes) dat head (update rec idx.length (some r))
      (update spare p none) := by
  have hlength : (writeAt idx idx.length r.bytes).length = idx.length + r.size := by
    rw [length_writeAt le_rfl, Rec.length_bytes hfits]
    omega
  have hkeep : ∀ {pos bytes}, bytes ≠ [] → At idx pos bytes →
      At (writeAt idx idx.length r.bytes) pos bytes := by
    intro pos bytes hne hat
    exact hat.writeAt le_rfl (.inl (hat.le hne))
  have hbytes : ∀ {r' : Rec}, r'.bytes ≠ [] := by
    intro r'
    exact List.append_ne_nil_of_right_ne_nil _ (List.append_ne_nil_of_right_ne_nil _ (by simp))
  have hold : ∀ {o r'}, rec o = some r' → o + r'.size ≤ idx.length ∧ o ≠ idx.length := by
    intro o r' ho
    have hend := hlayout.end_le ho
    have hsize : 0 < r'.size := by
      rw [Rec.size, PTR_SZ]
      omega
    exact ⟨hend, by omega⟩
  have hcases : ∀ {o r'}, update rec idx.length (some r) o = some r' →
      o = idx.length ∧ r' = r ∨ o ≠ idx.length ∧ rec o = some r' := by
    intro o r' ho
    rcases eq_or_ne o idx.length with rfl | hne
    · rw [update_self] at ho
      cases ho
      exact .inl ⟨rfl, rfl⟩
    · rw [update_of_ne hne] at ho
      exact .inr ⟨hne, ho⟩
  have hnone : ∀ {o}, rec o ≠ none → update rec idx.length (some r) o ≠ none := by
    intro o ho
    rcases eq_or_ne o idx.length with rfl | hne
    · rw [update_self]
      exact Option.some_ne_none r
    · rwa [update_of_ne hne]
  -- The data record goes from the process to the index record.
  have hextent : ∀ {tag pos d},
      extent (update rec idx.length (some r)) (update spare p none) tag = some (pos, d) →
      ∃ tag', extent rec spare tag' = some (pos, d) ∧
        (tag = .inl idx.length ∧ tag' = .inr p ∨
          tag ≠ .inl idx.length ∧ tag' ≠ .inr p ∧ tag' = tag) := by
    intro tag pos d htag
    cases tag with
    | inl o =>
        rcases eq_or_ne o idx.length with rfl | hne
        · rw [extent, update_self, Option.map_some] at htag
          exact ⟨.inr p, hspare.trans htag, .inl ⟨rfl, rfl⟩⟩
        · rw [extent, update_of_ne hne] at htag
          exact ⟨.inl o, htag, .inr ⟨fun h => hne (Sum.inl.inj h), nofun, rfl⟩⟩
    | inr q =>
        rcases eq_or_ne q p with rfl | hne
        · rw [extent, update_self] at htag
          cases htag
        · rw [extent, update_of_ne hne] at htag
          exact ⟨.inr q, htag, .inr ⟨nofun, fun h => hne (Sum.inr.inj h), rfl⟩⟩
  constructor
  case idx_le =>
      rw [hlength, ← Rec.length_bytes hfits]
      exact hle
  case dat_le => exact hlayout.dat_le
  case newline => exact hkeep (List.cons_ne_nil _ _) hlayout.newline
  case ptr =>
      intro i
      apply hkeep _ (hlayout.ptr i)
      intro hnil
      have hptr := hlayout.length_ptr i
      rw [hnil] at hptr
      cases hptr
  case ptr_le => exact hlayout.ptr_le
  case fits =>
      intro o r' ho
      rcases hcases ho with ⟨-, rfl⟩ | ⟨-, ho'⟩
      · exact hfits
      · exact hlayout.fits ho'
  case start =>
      intro o r' ho
      rcases hcases ho with ⟨rfl, -⟩ | ⟨-, ho'⟩
      · exact hlayout.start_le
      · exact hlayout.start ho'
  case record =>
      intro o r' ho
      rcases hcases ho with ⟨rfl, rfl⟩ | ⟨-, ho'⟩
      · exact at_writeAt le_rfl _
      · exact hkeep hbytes (hlayout.record ho')
  case apart =>
      intro o₁ o₂ r₁ r₂ h₁ h₂ hlt
      rcases hcases h₁ with ⟨rfl, rfl⟩ | ⟨-, h₁'⟩
      · rcases hcases h₂ with ⟨rfl, -⟩ | ⟨-, h₂'⟩
        · exact absurd hlt (Nat.lt_irrefl _)
        · have hend := (hold h₂').1
          omega
      · rcases hcases h₂ with ⟨rfl, -⟩ | ⟨-, h₂'⟩
        · exact (hold h₁').1
        · exact hlayout.apart h₁' h₂' hlt
  case first =>
      right
      rcases hlayout.first with hfirst | hfirst
      · rw [hfirst, update_self]
        exact Option.some_ne_none r
      · exact hnone hfirst
  case next =>
      intro o r' ho
      rcases hcases ho with ⟨rfl, rfl⟩ | ⟨-, ho'⟩
      · exact .inl hlength.symm
      · right
        rcases hlayout.next ho' with hnext | hnext
        · rw [hnext, update_self]
          exact Option.some_ne_none r
        · exact hnone hnext
  case data =>
      intro tag pos d htag
      obtain ⟨tag', htag', -⟩ := hextent htag
      exact hlayout.data htag'
  case data_apart =>
      intro tag₁ tag₂ pos₁ pos₂ d₁ d₂ hne h₁ h₂
      obtain ⟨tag₁', h₁', hcases₁⟩ := hextent h₁
      obtain ⟨tag₂', h₂', hcases₂⟩ := hextent h₂
      apply hlayout.data_apart _ h₁' h₂'
      rcases hcases₁ with ⟨rfl, rfl⟩ | ⟨-, hne₁, rfl⟩
      · rcases hcases₂ with ⟨rfl, -⟩ | ⟨-, hne₂, -⟩
        · exact absurd rfl hne
        · exact hne₂.symm
      · rcases hcases₂ with ⟨-, rfl⟩ | ⟨-, -, rfl⟩
        · exact hne₁
        · exact hne

end Layout

end ApueCourse.Db
