import ApueCourse.Memory.CString
import Mathlib.Data.List.Basic

/-! Reads and writes at a position of a file, and what is at a position. -/

namespace ApueCourse.Memory

def readAt (file : List Byte) (pos n : Nat) : List Byte := (file.drop pos).take n

/-- Between the end of a file and what is written behind it there are NULs. -/
def writeAt (file : List Byte) (pos : Nat) (bytes : List Byte) : List Byte :=
  file.take pos ++ List.replicate (pos - file.length) 0 ++ bytes ++
    file.drop (pos + bytes.length)

def At (file : List Byte) (pos : Nat) (bytes : List Byte) : Prop :=
  ∀ i < bytes.length, file[pos + i]? = bytes[i]?

variable {file bytes bytes' : List Byte} {pos pos' : Nat}

theorem At.readAt (hat : At file pos bytes) : readAt file pos bytes.length = bytes := by
  apply List.ext_getElem?
  intro i
  rw [Memory.readAt, List.getElem?_take, List.getElem?_drop]
  split
  · rename_i hi
    exact hat i hi
  · rename_i hi
    exact (List.getElem?_eq_none (Nat.le_of_not_lt hi)).symm

theorem At.le (hat : At file pos bytes) (hbytes : bytes ≠ []) :
    pos + bytes.length ≤ file.length := by
  have hlength := List.length_pos_iff.mpr hbytes
  have hlast := (hat (bytes.length - 1) (by omega)).trans
    (List.getElem?_eq_getElem (by omega))
  obtain ⟨hlt, -⟩ := List.getElem?_eq_some_iff.mp hlast
  omega

theorem at_append : At file pos (bytes ++ bytes') ↔
    At file pos bytes ∧ At file (pos + bytes.length) bytes' := by
  constructor
  · intro hat
    constructor
    · intro i hi
      rw [hat i (by rw [List.length_append]; omega), List.getElem?_append_left hi]
    · intro i hi
      rw [Nat.add_assoc, hat (bytes.length + i) (by rw [List.length_append]; omega),
        List.getElem?_append_right (Nat.le_add_right _ _), Nat.add_sub_cancel_left]
  · rintro ⟨hleft, hright⟩ i hi
    rw [List.length_append] at hi
    rcases Nat.lt_or_ge i bytes.length with hlt | hge
    · rw [hleft i hlt, List.getElem?_append_left hlt]
    · obtain ⟨k, rfl⟩ := Nat.exists_eq_add_of_le hge
      rw [← Nat.add_assoc, hright k (by omega), List.getElem?_append_right hge,
        Nat.add_sub_cancel_left]

theorem length_writeAt (hpos : pos ≤ file.length) (bytes : List Byte) :
    (writeAt file pos bytes).length = max file.length (pos + bytes.length) := by
  simp only [writeAt, List.length_append, List.length_take, List.length_replicate,
    List.length_drop]
  omega

theorem getElem?_writeAt (hpos : pos ≤ file.length) (bytes : List Byte) (i : Nat) :
    (writeAt file pos bytes)[i]? =
      if pos ≤ i ∧ i < pos + bytes.length then bytes[i - pos]? else file[i]? := by
  have htake : (file.take pos).length = pos := List.length_take_of_le hpos
  rw [writeAt, Nat.sub_eq_zero_of_le hpos, List.replicate_zero, List.append_nil,
    List.append_assoc]
  rcases Nat.lt_or_ge i pos with hlt | hge
  · rw [if_neg (by omega), List.getElem?_append_left (by omega), List.getElem?_take,
      if_pos hlt]
  · rw [List.getElem?_append_right (by omega), htake]
    rcases Nat.lt_or_ge i (pos + bytes.length) with hlt | hge'
    · rw [if_pos ⟨hge, hlt⟩, List.getElem?_append_left (by omega)]
    · rw [if_neg (by omega), List.getElem?_append_right (by omega), List.getElem?_drop]
      congr 1
      omega

theorem at_writeAt (hpos : pos ≤ file.length) (bytes : List Byte) :
    At (writeAt file pos bytes) pos bytes := by
  intro i hi
  rw [getElem?_writeAt hpos, if_pos ⟨Nat.le_add_right _ _, by omega⟩,
    Nat.add_sub_cancel_left]

/-- A write leaves alone what it does not overlap. -/
theorem At.writeAt (hat : At file pos bytes) (hpos' : pos' ≤ file.length)
    (hapart : pos + bytes.length ≤ pos' ∨ pos' + bytes'.length ≤ pos) :
    At (writeAt file pos' bytes') pos bytes := by
  intro i hi
  rw [getElem?_writeAt hpos', if_neg (by omega), hat i hi]

end ApueCourse.Memory
