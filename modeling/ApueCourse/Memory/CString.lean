import Mathlib.Algebra.Order.Ring.Int
import Mathlib.Data.List.TakeWhile

/-! Bytes in fixed-size blocks of C memory and the string functions on them.
`none` is an access outside a block. -/

namespace ApueCourse.Memory

abbrev Byte := UInt8

/-- The bytes of one object, from its first to its last. -/
abbrev Block := List Byte

def store (block : Block) (i : Nat) (value : Byte) : Option Block :=
  if i < block.length then some (block.set i value) else none

def blit (block : Block) (i : Nat) (bytes : List Byte) : Option Block :=
  if i + bytes.length ≤ block.length then
    some (block.take i ++ bytes ++ block.drop (i + bytes.length))
  else
    none

/-- The string that starts at the first byte: all bytes before the first NUL. -/
def cstring : Block → Option (List Byte)
  | [] => none
  | c :: rest => if c = 0 then some [] else (cstring rest).map (c :: ·)

def strcpy (block : Block) (i : Nat) (src : List Byte) : Option Block :=
  blit block i (src ++ [0])

def strcat (block : Block) (src : List Byte) : Option Block := do
  let s ← cstring block
  strcpy block s.length src

/-- The `n` bytes that `strncpy` writes: no more than `n` of the source, and NULs
behind a shorter source. -/
def strncpyBytes (src : List Byte) (n : Nat) : List Byte :=
  src.take n ++ List.replicate (n - src.length) 0

def strcmp : Block → Block → Option Int
  | a :: as, b :: bs =>
      if a ≠ b then
        some ((a.toNat : Int) - b.toNat)
      else if a = 0 then
        some 0
      else
        strcmp as bs
  | _, _ => none

theorem store_append (front rest : Block) (old value : Byte) :
    store (front ++ old :: rest) front.length value =
      some (front ++ value :: rest) := by
  simp [store]

theorem blit_append {block front : Block} {bytes : List Byte}
    (hfront : block.take front.length = front)
    (hfits : front.length + bytes.length ≤ block.length) :
    blit block front.length bytes =
      some (front ++ bytes ++ block.drop (front.length + bytes.length)) := by
  simp [blit, hfits, hfront]

theorem length_blit {block block' : Block} {i : Nat} {bytes : List Byte}
    (hblit : blit block i bytes = some block') :
    block'.length = block.length := by
  unfold blit at hblit
  split at hblit
  · cases hblit
    simp only [List.length_append, List.length_take, List.length_drop]
    omega
  · cases hblit

theorem blit_whole {block bytes : Block} (hlength : bytes.length = block.length) :
    blit block 0 bytes = some bytes := by
  simp [blit, hlength]

theorem cstring_append {s : List Byte} (hs : 0 ∉ s) (rest : Block) :
    cstring (s ++ 0 :: rest) = some s := by
  induction s with
  | nil => simp [cstring]
  | cons c s ih =>
      simp only [List.mem_cons, not_or] at hs
      simp [cstring, Ne.symm hs.1, ih hs.2]

theorem cstring_eq_some_iff {block : Block} {s : List Byte} :
    cstring block = some s ↔ 0 ∈ block ∧ s = block.takeWhile (· ≠ 0) := by
  induction block generalizing s with
  | nil => simp [cstring]
  | cons c block ih =>
      by_cases hc : c = 0
      · simp [cstring, hc, eq_comm]
      · have hcons : (c :: block).takeWhile (· ≠ 0) = c :: block.takeWhile (· ≠ 0) :=
          List.takeWhile_cons_of_pos (decide_eq_true hc)
        rw [hcons, cstring, if_neg hc, Option.map_eq_some_iff]
        simp only [ih, List.mem_cons, Ne.symm hc, false_or]
        constructor
        · rintro ⟨tail, ⟨hmem, rfl⟩, rfl⟩
          exact ⟨hmem, rfl⟩
        · rintro ⟨hmem, rfl⟩
          exact ⟨_, ⟨hmem, rfl⟩, rfl⟩

theorem cstring_eq_some {block : Block} {s : List Byte} (hs : cstring block = some s) :
    0 ∉ s ∧ ∃ rest, block = s ++ 0 :: rest := by
  induction block generalizing s with
  | nil => cases hs
  | cons c block ih =>
      rw [cstring] at hs
      split at hs
      · rename_i hc
        obtain rfl := Option.some.inj hs
        exact ⟨List.not_mem_nil, block, by rw [hc, List.nil_append]⟩
      · rename_i hc
        obtain ⟨s, hs', rfl⟩ := Option.map_eq_some_iff.mp hs
        obtain ⟨hnul, rest, rfl⟩ := ih hs'
        exact ⟨List.not_mem_cons_of_ne_of_not_mem (Ne.symm hc) hnul, rest, rfl⟩

theorem strcat_eq_some_iff {s src : List Byte} {rest block : Block} (hs : 0 ∉ s) :
    strcat (s ++ 0 :: rest) src = some block ↔
      (s ++ src).length < (s ++ 0 :: rest).length ∧
        block = s ++ src ++ 0 :: rest.drop src.length := by
  have hdrop : (s ++ 0 :: rest).drop (s.length + (src ++ [0]).length) =
      rest.drop src.length := by
    rw [List.drop_append, List.drop_eq_nil_of_le (by omega)]
    simp
  simp only [strcat, cstring_append hs, Option.bind_eq_bind, Option.bind_some, strcpy,
    blit, List.take_left, hdrop]
  rw [ite_eq_iff]
  simp only [List.length_append, List.length_cons, List.length_nil]
  constructor
  · rintro (⟨hfits, hblock⟩ | ⟨-, hblock⟩)
    · exact ⟨by omega, by simpa using (Option.some.inj hblock).symm⟩
    · cases hblock
  · rintro ⟨hfits, rfl⟩
    exact .inl ⟨by omega, by simp⟩

theorem length_strncpyBytes (src : List Byte) (n : Nat) :
    (strncpyBytes src n).length = n := by
  simp only [strncpyBytes, List.length_append, List.length_take,
    List.length_replicate]
  omega

theorem strncpyBytes_of_lt {src : List Byte} {n : Nat} (hlt : src.length < n) :
    strncpyBytes src n = src ++ 0 :: List.replicate (n - src.length - 1) 0 := by
  have hpad : n - src.length = (n - src.length - 1) + 1 := by omega
  rw [strncpyBytes, List.take_of_length_le hlt.le, hpad, List.replicate_succ]
  simp

theorem strncpyBytes_of_le {src : List Byte} {n : Nat} (hle : n ≤ src.length) :
    strncpyBytes src n = src.take n := by
  simp [strncpyBytes, Nat.sub_eq_zero_of_le hle]

/-! `strcmp` byte by byte. -/

theorem toNat_sub_eq_zero {a b : Byte} : (a.toNat : Int) - b.toNat = 0 ↔ a = b := by
  rw [← UInt8.toNat_inj]
  omega

theorem strcmp_cons_of_ne {x y : Byte} (hne : x ≠ y) (a b : Block) :
    strcmp (x :: a) (y :: b) = some ((x.toNat : Int) - y.toNat) := by
  simp [strcmp, hne]

theorem strcmp_cons_self {x : Byte} (hx : x ≠ 0) (a b : Block) :
    strcmp (x :: a) (x :: b) = strcmp a b := by
  simp [strcmp, hx]

theorem strcmp_nul (a b : Block) : strcmp (0 :: a) (0 :: b) = some 0 := by
  simp [strcmp]

/-- A terminated string differs from whatever does not begin with it and its NUL. -/
theorem strcmp_string_iff {s : List Byte} {block : Block} (hs : 0 ∉ s)
    (hlength : s.length < block.length) (v : Block) :
    ∃ d, strcmp block (s ++ 0 :: v) = some d ∧ (d = 0 ↔ (s ++ [0]) <+: block) := by
  induction s generalizing block with
  | nil =>
      cases block with
      | nil => simp at hlength
      | cons b block =>
          by_cases hb : b = 0
          · subst b
            exact ⟨0, strcmp_nul _ _, by simp⟩
          · refine ⟨_, strcmp_cons_of_ne hb _ _, ?_⟩
            rw [toNat_sub_eq_zero]
            simp [eq_comm]
  | cons c s ih =>
      simp only [List.mem_cons, not_or] at hs
      cases block with
      | nil => simp at hlength
      | cons b block =>
          by_cases hb : b = c
          · subst b
            obtain ⟨d, hd, hiff⟩ := ih hs.2 (by simpa using hlength)
            refine ⟨d, ?_, by simp [hiff]⟩
            rw [List.cons_append, strcmp_cons_self (Ne.symm hs.1), hd]
          · refine ⟨_, strcmp_cons_of_ne hb _ _, ?_⟩
            rw [toNat_sub_eq_zero]
            simp [hb, Ne.symm hb]

theorem strcmp_strings_iff {s t : List Byte} (hs : 0 ∉ s) (ht : 0 ∉ t)
    (u v : Block) :
    ∃ d, strcmp (s ++ 0 :: u) (t ++ 0 :: v) = some d ∧ (d = 0 ↔ s = t) := by
  induction s generalizing t with
  | nil =>
      cases t with
      | nil => exact ⟨0, strcmp_nul _ _, by simp⟩
      | cons c t =>
          simp only [List.mem_cons, not_or] at ht
          refine ⟨_, strcmp_cons_of_ne ht.1 _ _, ?_⟩
          rw [toNat_sub_eq_zero]
          simp [ht.1]
  | cons b s ih =>
      simp only [List.mem_cons, not_or] at hs
      cases t with
      | nil =>
          refine ⟨_, strcmp_cons_of_ne (Ne.symm hs.1) _ _, ?_⟩
          rw [toNat_sub_eq_zero]
          simp [Ne.symm hs.1]
      | cons c t =>
          simp only [List.mem_cons, not_or] at ht
          by_cases hb : b = c
          · subst b
            obtain ⟨d, hd, hiff⟩ := ih hs.2 ht.2
            refine ⟨d, ?_, by simp [hiff]⟩
            rw [List.cons_append, List.cons_append,
              strcmp_cons_self (Ne.symm hs.1), hd]
          · refine ⟨_, strcmp_cons_of_ne hb _ _, ?_⟩
            rw [toNat_sub_eq_zero]
            simp [hb]

/-! `strcmp` on two blocks of one size, terminated or not. -/

theorem strcmp_eq_none_iff {a b : Block} (hlength : a.length = b.length) :
    strcmp a b = none ↔ a = b ∧ 0 ∉ a := by
  induction a generalizing b with
  | nil =>
      cases b with
      | nil => simp [strcmp]
      | cons => cases hlength
  | cons x a ih =>
      cases b with
      | nil => cases hlength
      | cons y b =>
          have hrest : a.length = b.length := by simpa using hlength
          by_cases hxy : x = y
          · subst x
            by_cases hy : y = 0
            · simp [strcmp, hy]
            · rw [strcmp_cons_self hy, ih hrest]
              simp [Ne.symm hy]
          · simp [strcmp_cons_of_ne hxy, hxy]

theorem strcmp_eq_some_zero_iff {a b : Block} (hlength : a.length = b.length) :
    strcmp a b = some 0 ↔
      0 ∈ a ∧ a.takeWhile (· ≠ 0) = b.takeWhile (· ≠ 0) := by
  induction a generalizing b with
  | nil =>
      cases b with
      | nil => simp [strcmp]
      | cons => cases hlength
  | cons x a ih =>
      cases b with
      | nil => cases hlength
      | cons y b =>
          have hrest : a.length = b.length := by simpa using hlength
          by_cases hxy : x = y
          · subst x
            by_cases hy : y = 0
            · simp [strcmp, hy]
            · rw [strcmp_cons_self hy, ih hrest]
              simp [hy, Ne.symm hy]
          · rw [strcmp_cons_of_ne hxy]
            simp only [Option.some.injEq, toNat_sub_eq_zero, hxy, false_iff,
              not_and]
            intro _ heq
            by_cases hx : x = 0
            · subst x
              simp [Ne.symm hxy] at heq
            · by_cases hy : y = 0
              · simp [hx, hy] at heq
              · simp [hx, hy, hxy] at heq

/-! The buffer that `strncpy` fills, against a string shorter than it. -/

theorem starts_strncpyBytes_iff {s src : List Byte} {n : Nat} (hs : 0 ∉ s)
    (hsrc : 0 ∉ src) (hlength : s.length < n) :
    (s ++ [0]) <+: strncpyBytes src n ↔ s = src := by
  rcases Nat.lt_or_ge src.length n with hlt | hle
  · rw [strncpyBytes_of_lt hlt]
    constructor
    · rintro ⟨rest, hrest⟩
      have hcut := congrArg cstring hrest
      rw [List.append_assoc, List.singleton_append, cstring_append hs,
        cstring_append hsrc] at hcut
      exact Option.some.inj hcut
    · rintro rfl
      exact ⟨_, by rw [List.append_assoc, List.singleton_append]⟩
  · rw [strncpyBytes_of_le hle]
    constructor
    · intro hfront
      have hmem : (0 : Byte) ∈ src.take n := hfront.subset (by simp)
      exact absurd (List.mem_of_mem_take hmem) hsrc
    · rintro rfl
      omega

end ApueCourse.Memory
