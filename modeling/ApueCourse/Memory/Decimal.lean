import ApueCourse.Memory.CString
import Mathlib.Data.List.Basic

/-! Numbers as decimal text: `%ld`, `%*ld` and `atol`. -/

namespace ApueCourse.Memory

def isSpace (c : Byte) : Bool := c = 32 ∨ (9 ≤ c ∧ c ≤ 13)

def isDigit (c : Byte) : Bool := 48 ≤ c ∧ c ≤ 57

def digitValue (c : Byte) : Nat := c.toNat - 48

/-- The digits of a number, the first one at the front. -/
def decimal (n : Nat) : List Byte :=
  (Nat.toDigits 10 n).map fun c => UInt8.ofNat c.toNat

/-- `%ld`. -/
def sprintfLong : Int → List Byte
  | .ofNat n => decimal n
  | .negSucc n => 45 :: decimal (n + 1)

/-- `%*ld` with the width `width`. -/
def sprintfWidth (width : Nat) (n : Int) : List Byte :=
  List.replicate (width - (sprintfLong n).length) 32 ++ sprintfLong n

/-- The number at the front of a block, up to the first byte that is no digit. -/
def readDigits (acc : Nat) : Block → Option Nat
  | [] => none
  | c :: rest => if isDigit c then readDigits (10 * acc + digitValue c) rest else some acc

def LONG_MAX : Int := 2 ^ 63 - 1

def LONG_MIN : Int := -2 ^ 63

/-- Out of range the result is the nearest `long`, as `strtol` has it. -/
def atol (block : Block) : Option Int :=
  match block.dropWhile isSpace with
  | [] => none
  | c :: rest =>
      if c = 45 then (readDigits 0 rest).map fun n : Nat => max (-(n : Int)) LONG_MIN
      else if c = 43 then (readDigits 0 rest).map fun n : Nat => min (n : Int) LONG_MAX
      else (readDigits 0 (c :: rest)).map fun n : Nat => min (n : Int) LONG_MAX

theorem toNat_ofNat_digit {c : Char} (hc : c.isDigit) :
    (UInt8.ofNat c.toNat).toNat = c.toNat ∧ 48 ≤ c.toNat ∧ c.toNat ≤ 57 := by
  simp only [Char.isDigit, Bool.and_eq_true, decide_eq_true_eq] at hc
  have hlow : 48 ≤ c.toNat := hc.1
  have hhigh : c.toNat ≤ 57 := hc.2
  refine ⟨?_, hlow, hhigh⟩
  rw [UInt8.toNat_ofNat']
  omega

theorem isDigit_of_mem_decimal {n : Nat} {b : Byte} (hb : b ∈ decimal n) :
    isDigit b := by
  obtain ⟨c, hc, rfl⟩ := List.mem_map.mp hb
  obtain ⟨heq, hlow, hhigh⟩ := toNat_ofNat_digit
    (Nat.isDigit_of_mem_toDigits (by decide) (by decide) hc)
  simp only [isDigit, Bool.decide_and, Bool.and_eq_true, decide_eq_true_eq,
    UInt8.le_iff_toNat_le, heq]
  exact ⟨hlow, hhigh⟩

theorem decimal_ne_nil (n : Nat) : decimal n ≠ [] := by
  rw [decimal, Ne, List.map_eq_nil_iff]
  exact Nat.toDigits_ne_nil

theorem length_decimal_le_iff {n k : Nat} (hk : 0 < k) :
    (decimal n).length ≤ k ↔ n < 10 ^ k := by
  rw [decimal, List.length_map]
  exact Nat.length_toDigits_le_iff (by decide) hk

theorem readDigits_append {digits : List Byte} (hdigits : ∀ c ∈ digits, isDigit c)
    {c : Byte} (hc : ¬ isDigit c) (acc : Nat) (rest : Block) :
    readDigits acc (digits ++ c :: rest) =
      some (digits.foldl (fun acc c => 10 * acc + digitValue c) acc) := by
  induction digits generalizing acc with
  | nil => rw [List.nil_append, readDigits, if_neg hc, List.foldl_nil]
  | cons d digits ih =>
      rw [List.cons_append, readDigits, if_pos (hdigits d List.mem_cons_self),
        ih fun c hc => hdigits c (List.mem_cons_of_mem _ hc)]
      rfl

theorem foldl_decimal (n : Nat) :
    (decimal n).foldl (fun acc c => 10 * acc + digitValue c) 0 = n := by
  rw [decimal, List.foldl_map]
  refine Eq.trans ?_ (Nat.ofDigitChars_ten_toDigits (n := n))
  rw [Nat.ofDigitChars_eq_foldl]
  apply List.foldl_ext
  intro acc c hc
  obtain ⟨heq, -⟩ := toNat_ofNat_digit
    (Nat.isDigit_of_mem_toDigits (by decide) (by decide) hc)
  rw [digitValue, heq]
  rfl

theorem readDigits_decimal (n : Nat) {c : Byte} (hc : ¬ isDigit c) (rest : Block) :
    readDigits 0 (decimal n ++ c :: rest) = some n := by
  rw [readDigits_append (fun _ => isDigit_of_mem_decimal) hc, foldl_decimal]

theorem not_isSpace_of_isDigit {c : Byte} (hc : isDigit c) : ¬ isSpace c := by
  simp only [isDigit, isSpace, Bool.decide_and, Bool.and_eq_true, decide_eq_true_eq,
    Bool.decide_or, Bool.or_eq_true, UInt8.le_iff_toNat_le, ← UInt8.toNat_inj] at hc ⊢
  have h48 : (48 : Byte).toNat = 48 := rfl
  have h32 : (32 : Byte).toNat = 32 := rfl
  have h13 : (13 : Byte).toNat = 13 := rfl
  omega

/-- What `%*ld` writes is read back. -/
theorem atol_decimal {n : Nat} (hn : (n : Int) ≤ LONG_MAX) (k : Nat) {c : Byte}
    (hc : ¬ isDigit c) (rest : Block) :
    atol (List.replicate k 32 ++ decimal n ++ c :: rest) = some (n : Int) := by
  obtain ⟨d, digits, hdecimal⟩ := List.exists_cons_of_ne_nil (decimal_ne_nil n)
  have hd : isDigit d := isDigit_of_mem_decimal (n := n) (by rw [hdecimal]; simp)
  have hread := readDigits_decimal n hc rest
  rw [hdecimal, List.cons_append] at hread
  have hspaces : ∀ b ∈ List.replicate k (32 : Byte), isSpace b := by
    intro b hb
    rw [List.eq_of_mem_replicate hb]
    rfl
  have hdrop : (List.replicate k 32 ++ decimal n ++ c :: rest).dropWhile isSpace =
      d :: (digits ++ c :: rest) := by
    rw [List.append_assoc, List.dropWhile_append_of_pos hspaces, hdecimal, List.cons_append,
      List.dropWhile_cons_of_neg (not_isSpace_of_isDigit hd)]
  have hsign : d ≠ 45 ∧ d ≠ 43 := by
    constructor
    · rintro rfl
      cases hd
    · rintro rfl
      cases hd
  simp only [atol, hdrop, if_neg hsign.1, if_neg hsign.2, hread, Option.map_some,
    Int.min_eq_left hn]

theorem atol_sprintfWidth {n : Nat} (hn : (n : Int) ≤ LONG_MAX) (width : Nat) {c : Byte}
    (hc : ¬ isDigit c) (rest : Block) :
    atol (sprintfWidth width n ++ c :: rest) = some (n : Int) :=
  atol_decimal hn _ hc rest

theorem length_sprintfWidth {n width : Nat} (hwidth : 0 < width) (hn : n < 10 ^ width) :
    (sprintfWidth width n).length = width := by
  have hlength := (length_decimal_le_iff hwidth).mpr hn
  rw [sprintfWidth, List.length_append, List.length_replicate]
  change width - (decimal n).length + (decimal n).length = width
  omega

theorem decimal_injective {m n : Nat} (hdecimal : decimal m = decimal n) : m = n := by
  have hread := readDigits_decimal m (by decide : ¬ isDigit 0) []
  rw [hdecimal, readDigits_decimal n (by decide : ¬ isDigit 0) []] at hread
  exact (Option.some.inj hread).symm

/-! How long a number is that has been read. -/

theorem digitValue_le {c : Byte} (hc : isDigit c) : digitValue c ≤ 9 := by
  simp only [isDigit, Bool.decide_and, Bool.and_eq_true, decide_eq_true_eq,
    UInt8.le_iff_toNat_le] at hc
  have h57 : (57 : Byte).toNat = 57 := rfl
  rw [digitValue]
  omega

theorem exists_readDigits (acc : Nat) (field : List Byte) :
    ∃ n, readDigits acc (field ++ [0]) = some n ∧ n < (acc + 1) * 10 ^ field.length := by
  induction field generalizing acc with
  | nil => exact ⟨acc, rfl, by simp⟩
  | cons c field ih =>
      rw [List.cons_append, readDigits, List.length_cons]
      split
      · rename_i hc
        obtain ⟨n, hread, hlt⟩ := ih (10 * acc + digitValue c)
        refine ⟨n, hread, Nat.lt_of_lt_of_le hlt ?_⟩
        rw [Nat.pow_succ', ← Nat.mul_assoc]
        apply Nat.mul_le_mul_right
        have hdigit := digitValue_le hc
        omega
      · refine ⟨acc, rfl, ?_⟩
        exact Nat.lt_of_lt_of_le (Nat.lt_succ_self acc)
          (Nat.le_mul_of_pos_right _ (Nat.pow_pos (by decide)))

theorem length_decimal_of_lt {n k : Nat} (hn : n < 10 ^ k) : (decimal n).length ≤ max 1 k := by
  cases k with
  | zero =>
      have hlength := (length_decimal_le_iff (n := n) (k := 1) (by decide)).mpr (by omega)
      omega
  | succ k =>
      have hlength := (length_decimal_le_iff (Nat.succ_pos k)).mpr hn
      omega

theorem length_sprintfLong_of_le {n : Int} {m k : Nat} (hnonneg : 0 ≤ n) (hle : n ≤ m)
    (hm : m < 10 ^ k) : (sprintfLong n).length ≤ max 1 k := by
  obtain ⟨n, rfl⟩ := Int.eq_ofNat_of_zero_le hnonneg
  exact length_decimal_of_lt (by omega)

theorem atol_cons_isSpace {c : Byte} (hc : isSpace c) (block : Block) :
    atol (c :: block) = atol block := by
  rw [atol, atol, List.dropWhile_cons_of_pos hc]

/-- Every field holds a number. One that is not negative is no longer than the field, but for the
digit that an empty field stands for. -/
theorem exists_atol (field : List Byte) :
    ∃ n, atol (field ++ [0]) = some n ∧
      (0 ≤ n → (sprintfLong n).length ≤ max 1 field.length) ∧ (field = [] → n = 0) := by
  induction field with
  | nil => exact ⟨0, rfl, fun _ => by decide, fun _ => rfl⟩
  | cons c field ih =>
      by_cases hspace : isSpace c
      · obtain ⟨n, hatol, hlength, -⟩ := ih
        refine ⟨n, (atol_cons_isSpace hspace _).trans hatol, fun hn => (hlength hn).trans ?_,
          fun hnil => absurd hnil (List.cons_ne_nil _ _)⟩
        rw [List.length_cons]
        omega
      · rw [atol, List.cons_append, List.dropWhile_cons_of_neg hspace]
        dsimp only
        obtain ⟨m, hread, hlt⟩ := exists_readDigits 0 field
        rw [Nat.zero_add, Nat.one_mul] at hlt
        split
        · rw [hread]
          have hmin : LONG_MIN ≤ 0 := by decide
          have hle : max (-(m : Int)) LONG_MIN ≤ (0 : Nat) := by omega
          refine ⟨_, rfl, fun hn => ?_, fun hnil => absurd hnil (List.cons_ne_nil _ _)⟩
          refine (length_sprintfLong_of_le hn hle (Nat.pow_pos (by decide) : 0 < 10 ^ 0)).trans ?_
          omega
        · split
          · rw [hread]
            refine ⟨_, rfl, fun hn => ?_, fun hnil => absurd hnil (List.cons_ne_nil _ _)⟩
            refine (length_sprintfLong_of_le hn (Int.min_le_left _ _) hlt).trans ?_
            rw [List.length_cons]
            omega
          · obtain ⟨m', hread', hlt'⟩ := exists_readDigits 0 (c :: field)
            rw [Nat.zero_add, Nat.one_mul] at hlt'
            rw [List.cons_append] at hread'
            rw [hread']
            exact ⟨_, rfl, fun hn => length_sprintfLong_of_le hn (Int.min_le_left _ _) hlt',
              fun hnil => absurd hnil (List.cons_ne_nil _ _)⟩

end ApueCourse.Memory
