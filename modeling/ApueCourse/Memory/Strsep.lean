import ApueCourse.Memory.CString

/-! `strsep`, which cuts a string where it stands. -/

namespace ApueCourse.Memory

/-- The bytes in front of the first NUL or delimiter. -/
def tokenLength (delim : Byte) : Block → Option Nat
  | [] => none
  | c :: rest =>
      if c = 0 ∨ c = delim then some 0 else (tokenLength delim rest).map (· + 1)

/-- The token, the pointer behind it and the block that has been cut. -/
def strsep (delim : Byte) (block : Block) :
    Option Nat → Option (Option Nat × Option Nat × Block)
  | none => some (none, none, block)
  | some p => do
      let n ← tokenLength delim (block.drop p)
      let c ← block[p + n]?
      if c = 0 then
        return (some p, none, block)
      else
        let block ← store block (p + n) 0
        return (some p, some (p + n + 1), block)

/-- The string `s` at the offset `p` of a block. -/
def StringAt (block : Block) (p : Nat) (s : List Byte) : Prop :=
  ∃ front rest, block = front ++ s ++ 0 :: rest ∧ front.length = p ∧ 0 ∉ s

theorem StringAt.cstring {block : Block} {p : Nat} {s : List Byte}
    (hs : StringAt block p s) : cstring (block.drop p) = some s := by
  obtain ⟨front, rest, rfl, rfl, hnul⟩ := hs
  rw [List.append_assoc, List.drop_left, cstring_append hnul]

/-- What is written behind a string does not change it. -/
theorem StringAt.append {block : Block} {p : Nat} {s : List Byte}
    (hs : StringAt block p s) (rest : Block) : StringAt (block ++ rest) p s := by
  obtain ⟨front, tail, rfl, hp, hnul⟩ := hs
  exact ⟨front, tail ++ rest, by simp, hp, hnul⟩

theorem tokenLength_append {delim : Byte} {token : List Byte} {c : Byte}
    (hnul : 0 ∉ token) (hdelim : delim ∉ token) (hc : c = 0 ∨ c = delim) (rest : Block) :
    tokenLength delim (token ++ c :: rest) = some token.length := by
  induction token with
  | nil => simp [tokenLength, hc]
  | cons b token ih =>
      simp only [List.mem_cons, not_or] at hnul hdelim
      simp [tokenLength, Ne.symm hnul.1, Ne.symm hdelim.1, ih hnul.2 hdelim.2]

theorem strsep_eq {delim : Byte} {token : List Byte} {c : Byte} (hnul : 0 ∉ token)
    (hdelim : delim ∉ token) (hc : c = 0 ∨ c = delim) (front rest : Block) :
    strsep delim (front ++ token ++ c :: rest) (some front.length) =
      if c = 0 then some (some front.length, none, front ++ token ++ 0 :: rest)
      else some (some front.length, some (front ++ token ++ [0]).length,
        front ++ token ++ [0] ++ rest) := by
  have hlength : (front ++ token).length = front.length + token.length :=
    List.length_append
  have hget : (front ++ token ++ c :: rest)[(front ++ token).length]? = some c := by
    rw [List.getElem?_append_right (Nat.le_refl _), Nat.sub_self, List.getElem?_cons_zero]
  have hstore := store_append (front ++ token) rest c 0
  have htoken : tokenLength delim ((front ++ token ++ c :: rest).drop front.length) =
      some token.length := by
    rw [List.append_assoc, List.drop_left]
    exact tokenLength_append hnul hdelim hc rest
  simp only [strsep, htoken, Option.bind_eq_bind, Option.bind_some]
  rw [← hlength, hget, Option.bind_some, hstore, Option.bind_some]
  split
  · rename_i h
    rw [h]
    rfl
  · simp [Nat.add_assoc]

theorem strsep_delim {delim : Byte} {token : List Byte} (hnul : 0 ∉ token)
    (hdelim : delim ∉ token) (hne : delim ≠ 0) (front rest : Block) :
    strsep delim (front ++ token ++ delim :: rest) (some front.length) =
      some (some front.length, some (front ++ token ++ [0]).length,
        front ++ token ++ [0] ++ rest) := by
  rw [strsep_eq hnul hdelim (Or.inr rfl), if_neg hne]

theorem strsep_last {delim : Byte} {token : List Byte} (hnul : 0 ∉ token)
    (hdelim : delim ∉ token) (front rest : Block) :
    strsep delim (front ++ token ++ 0 :: rest) (some front.length) =
      some (some front.length, none, front ++ token ++ 0 :: rest) := by
  rw [strsep_eq hnul hdelim (Or.inl rfl), if_pos rfl]

/-- A string is taken apart token by token. -/
theorem token_induction (delim : Byte) {motive : List Byte → Prop}
    (last : ∀ token, delim ∉ token → motive token)
    (cut : ∀ token rest, delim ∉ token → motive rest → motive (token ++ delim :: rest))
    (s : List Byte) : motive s := by
  induction hn : s.length using Nat.strongRecOn generalizing s with
  | ind n ih =>
      by_cases hdelim : delim ∈ s
      · obtain ⟨token, rest, rfl, htoken⟩ := List.eq_append_cons_of_mem hdelim
        refine cut token rest htoken (ih rest.length ?_ rest rfl)
        rw [← hn, List.length_append, List.length_cons]
        omega
      · exact last s hdelim

end ApueCourse.Memory
