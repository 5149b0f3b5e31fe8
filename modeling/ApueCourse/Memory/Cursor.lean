import ApueCourse.Memory.CString
import Mathlib.Data.List.Basic

/-! A pointer into a block that moves behind what is written through it. -/

namespace ApueCourse.Memory

structure Cursor where
  block : Block
  pos : Nat

namespace Cursor

/-- `*cp++ = c`. -/
def put (c : Byte) (cp : Cursor) : Option Cursor :=
  (store cp.block cp.pos c).map fun block => ⟨block, cp.pos + 1⟩

/-- `strcpy(cp, s); cp += strlen(s)`. -/
def puts (s : List Byte) (cp : Cursor) : Option Cursor :=
  (strcpy cp.block cp.pos s).map fun block => ⟨block, cp.pos + s.length⟩

/-- Behind whatever stands in front of the pointer, `f` leaves `bytes` there and the pointer
behind them. It writes `reach` bytes from the pointer on and needs room for as many. -/
def Emits (f : Cursor → Option Cursor) (bytes : List Byte) (reach : Nat) : Prop :=
  ∀ front rest : List Byte,
    if reach ≤ rest.length then
      ∃ rest', bytes.length + rest'.length = rest.length ∧
        f ⟨front ++ rest, front.length⟩ =
          some ⟨front ++ (bytes ++ rest'), front.length + bytes.length⟩
    else f ⟨front ++ rest, front.length⟩ = none

variable {f g : Cursor → Option Cursor} {bytes bytes' : List Byte} {reach reach' : Nat}

theorem Emits.some (hf : Emits f bytes reach) (front : List Byte) {rest : List Byte}
    (hroom : reach ≤ rest.length) :
    ∃ rest', bytes.length + rest'.length = rest.length ∧
      f ⟨front ++ rest, front.length⟩ =
        .some ⟨front ++ (bytes ++ rest'), front.length + bytes.length⟩ := by
  have hspec := hf front rest
  rwa [if_pos hroom] at hspec

theorem Emits.none (hf : Emits f bytes reach) {front rest : List Byte}
    (hroom : rest.length < reach) : f ⟨front ++ rest, front.length⟩ = .none := by
  have hspec := hf front rest
  rwa [if_neg (Nat.not_le_of_lt hroom)] at hspec

theorem emits_put (c : Byte) : Emits (put c) [c] 1 := by
  intro front rest
  cases rest with
  | nil =>
      rw [if_neg (by simp), put, store, if_neg (by simp)]
      rfl
  | cons old rest =>
      rw [if_pos (by simp)]
      refine ⟨rest, Nat.add_comm .., ?_⟩
      rw [put, store_append]
      rfl

theorem emits_puts (s : List Byte) : Emits (puts s) s (s.length + 1) := by
  intro front rest
  have hlength : (front ++ rest).length = front.length + rest.length := List.length_append
  have hnul : (s ++ [0]).length = s.length + 1 := List.length_append
  split
  · rename_i hroom
    refine ⟨0 :: rest.drop (s.length + 1), ?_, ?_⟩
    · rw [List.length_cons, List.length_drop]
      omega
    · rw [puts, strcpy, blit_append (by simp) (by rw [hnul, hlength]; omega), hnul]
      simp
  · rename_i hroom
    rw [puts]
    dsimp only
    rw [strcpy, blit, if_neg (by rw [hnul, hlength]; omega)]
    rfl

/-- One piece of code after the other. -/
theorem Emits.bind (hf : Emits f bytes reach) (hg : Emits g bytes' reach') {reach'' : Nat}
    (hreach : reach'' = max reach (bytes.length + reach')) :
    Emits (fun cp => f cp >>= g) (bytes ++ bytes') reach'' := by
  intro front rest
  subst hreach
  dsimp only
  rcases Nat.lt_or_ge rest.length reach with hshort | hroom
  · rw [if_neg (by omega), hf.none hshort]
    rfl
  · obtain ⟨rest', hlength, hfirst⟩ := hf.some front hroom
    have hfront : front.length + bytes.length = (front ++ bytes).length :=
      List.length_append.symm
    rw [hfirst, ← List.append_assoc, hfront]
    change if _ then (∃ _, _ ∧ g _ = _) else g _ = _
    rcases Nat.lt_or_ge rest'.length reach' with hshort' | hroom'
    · rw [if_neg (by omega), hg.none hshort']
    · obtain ⟨rest'', hlength', hsecond⟩ := hg.some (front ++ bytes) hroom'
      rw [if_pos (by omega), hsecond]
      refine ⟨rest'', ?_, ?_⟩
      · rw [List.length_append]
        omega
      · simp only [List.append_assoc, List.length_append, Nat.add_assoc]

/-- Where neither piece writes more than it leaves, their whole does not. -/
theorem Emits.append (hf : Emits f bytes bytes.length) (hg : Emits g bytes' bytes'.length) :
    Emits (fun cp => f cp >>= g) (bytes ++ bytes') (bytes ++ bytes').length := by
  apply hf.bind hg
  rw [List.length_append]
  exact (Nat.max_eq_right (Nat.le_add_right _ _)).symm

end Cursor

end ApueCourse.Memory
