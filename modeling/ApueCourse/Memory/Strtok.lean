import ApueCourse.Memory.Strsep

/-! `strtok`, with the pointer that it keeps between its calls. -/

namespace ApueCourse.Memory

def strspn (delim : List Byte) : Block → Option Nat
  | [] => none
  | c :: rest => if c ∈ delim then (strspn delim rest).map (· + 1) else some 0

def strcspn (delim : List Byte) : Block → Option Nat
  | [] => none
  | c :: rest => if c = 0 ∨ c ∈ delim then some 0 else (strcspn delim rest).map (· + 1)

/-- The token from the kept pointer `p` on, the pointer that is kept and the block that has
been cut. -/
def strtok (delim : List Byte) (block : Block) (p : Nat) : Option (Option Nat × Nat × Block) := do
  let n ← strspn delim (block.drop p)
  let c ← block[p + n]?
  if c = 0 then
    return (none, p + n, block)
  else
    let m ← strcspn delim (block.drop (p + n))
    let d ← block[p + n + m]?
    if d = 0 then
      return (some (p + n), p + n + m, block)
    else
      let block ← store block (p + n + m) 0
      return (some (p + n), p + n + m + 1, block)

/-- The longest pieces of `s` without a delimiter. -/
def tokens (delim s : List Byte) : List (List Byte) :=
  (s.splitOnP (· ∈ delim)).filter (· ≠ [])

variable {delim gap token s : List Byte} {d : Byte}

theorem strspn_append (hgap : ∀ c ∈ gap, c ∈ delim) (hd : d ∉ delim) (rest : Block) :
    strspn delim (gap ++ d :: rest) = some gap.length := by
  induction gap with
  | nil => exact if_neg hd
  | cons c gap ih =>
      rw [List.cons_append, strspn, if_pos (hgap c List.mem_cons_self),
        ih fun c hc => hgap c (List.mem_cons_of_mem _ hc)]
      rfl

theorem strcspn_append (hnul : 0 ∉ token) (htoken : ∀ c ∈ token, c ∉ delim)
    (hd : d = 0 ∨ d ∈ delim) (rest : Block) :
    strcspn delim (token ++ d :: rest) = some token.length := by
  induction token with
  | nil => exact if_pos hd
  | cons c token ih =>
      rw [List.mem_cons, not_or] at hnul
      have hc : ¬ (c = 0 ∨ c ∈ delim) := by
        rintro (rfl | hc)
        · exact hnul.1 rfl
        · exact htoken c List.mem_cons_self hc
      rw [List.cons_append, strcspn, if_neg hc,
        ih hnul.2 fun c hc => htoken c (List.mem_cons_of_mem _ hc)]
      rfl

theorem getElem?_length_append (front rest : Block) (c : Byte) :
    (front ++ c :: rest)[front.length]? = some c := by
  rw [List.getElem?_append_right (Nat.le_refl _), Nat.sub_self, List.getElem?_cons_zero]

theorem strtok_blank (hdelim : 0 ∉ delim) (hgap : ∀ c ∈ gap, c ∈ delim) (front rest : Block) :
    strtok delim (front ++ gap ++ 0 :: rest) front.length =
      some (none, (front ++ gap).length, front ++ gap ++ 0 :: rest) := by
  have hspn : strspn delim ((front ++ gap ++ 0 :: rest).drop front.length) =
      some gap.length := by
    rw [List.append_assoc, List.drop_left]
    exact strspn_append hgap hdelim rest
  simp only [strtok, hspn, Option.bind_eq_bind, Option.bind_some, ← List.length_append,
    getElem?_length_append]
  rfl

theorem strtok_end (hdelim : 0 ∉ delim) (front rest : Block) :
    strtok delim (front ++ 0 :: rest) front.length =
      some (none, front.length, front ++ 0 :: rest) := by
  have hblank := @strtok_blank delim [] hdelim nofun front rest
  rwa [List.append_nil] at hblank

theorem strtok_eq (hgap : ∀ c ∈ gap, c ∈ delim) (hne : token ≠ []) (hnul : 0 ∉ token)
    (htoken : ∀ c ∈ token, c ∉ delim) (hd : d = 0 ∨ d ∈ delim) (front rest : Block) :
    strtok delim (front ++ gap ++ token ++ d :: rest) front.length =
      if d = 0 then
        some (some (front ++ gap).length, (front ++ gap ++ token).length,
          front ++ gap ++ token ++ d :: rest)
      else
        some (some (front ++ gap).length, (front ++ gap ++ token ++ [0]).length,
          front ++ gap ++ token ++ 0 :: rest) := by
  obtain ⟨c, token', rfl⟩ := List.exists_cons_of_ne_nil hne
  have hc : c ≠ 0 := fun h => hnul (h ▸ List.mem_cons_self)
  have hspn : strspn delim ((front ++ gap ++ (c :: token') ++ d :: rest).drop front.length) =
      some gap.length := by
    rw [List.append_assoc, List.append_assoc, List.drop_left]
    exact strspn_append hgap (htoken c List.mem_cons_self) _
  have hfirst : (front ++ gap ++ (c :: token') ++ d :: rest)[(front ++ gap).length]? =
      some c := by
    rw [List.append_assoc (front ++ gap), List.cons_append]
    exact getElem?_length_append _ _ _
  have hcspn : strcspn delim
      ((front ++ gap ++ (c :: token') ++ d :: rest).drop (front ++ gap).length) =
      some (c :: token').length := by
    rw [List.append_assoc (front ++ gap), List.drop_left]
    exact strcspn_append hnul htoken hd rest
  simp only [strtok, hspn, Option.bind_eq_bind, Option.bind_some, ← List.length_append, hfirst,
    if_neg hc, hcspn, getElem?_length_append, store_append]
  simp [Nat.add_assoc]

theorem strtok_last (hgap : ∀ c ∈ gap, c ∈ delim) (hne : token ≠ []) (hnul : 0 ∉ token)
    (htoken : ∀ c ∈ token, c ∉ delim) (front rest : Block) :
    strtok delim (front ++ gap ++ token ++ 0 :: rest) front.length =
      some (some (front ++ gap).length, (front ++ gap ++ token).length,
        front ++ gap ++ token ++ 0 :: rest) := by
  rw [strtok_eq hgap hne hnul htoken (.inl rfl), if_pos rfl]

theorem strtok_cut (hdelim : 0 ∉ delim) (hgap : ∀ c ∈ gap, c ∈ delim) (hne : token ≠ [])
    (hnul : 0 ∉ token) (htoken : ∀ c ∈ token, c ∉ delim) (hd : d ∈ delim)
    (front rest : Block) :
    strtok delim (front ++ gap ++ token ++ d :: rest) front.length =
      some (some (front ++ gap).length, (front ++ gap ++ token ++ [0]).length,
        front ++ gap ++ token ++ [0] ++ rest) := by
  have hne' : d ≠ 0 := fun h => hdelim (h ▸ hd)
  rw [strtok_eq hgap hne hnul htoken (.inr hd), if_neg hne', List.append_assoc _ [0]]
  rfl

theorem tokens_cons_delim (hd : d ∈ delim) (s : List Byte) :
    tokens delim (d :: s) = tokens delim s := by
  rw [tokens, List.splitOnP_cons_eq_if_modifyHead, if_pos (decide_eq_true hd)]
  rfl

theorem tokens_gap (hgap : ∀ c ∈ gap, c ∈ delim) (s : List Byte) :
    tokens delim (gap ++ s) = tokens delim s := by
  induction gap with
  | nil => rfl
  | cons c gap ih =>
      rw [List.cons_append, tokens_cons_delim (hgap c List.mem_cons_self)]
      exact ih fun c hc => hgap c (List.mem_cons_of_mem _ hc)

theorem tokens_blank (hgap : ∀ c ∈ gap, c ∈ delim) : tokens delim gap = [] := by
  rw [← List.append_nil gap, tokens_gap hgap]
  rfl

theorem tokens_token (hne : token ≠ []) (htoken : ∀ c ∈ token, c ∉ delim) :
    tokens delim token = [token] := by
  have hsplit : token.splitOnP (· ∈ delim) = [token] :=
    List.splitOnP_eq_singleton fun c hc => decide_eq_false (htoken c hc)
  rw [tokens, hsplit, List.filter_cons_of_pos (by simpa using hne), List.filter_nil]

theorem tokens_cut (hne : token ≠ []) (htoken : ∀ c ∈ token, c ∉ delim) (hd : d ∈ delim)
    (s : List Byte) : tokens delim (token ++ d :: s) = token :: tokens delim s := by
  have hsplit := List.splitOnP_append_cons_of_forall_mem (p := (· ∈ delim))
    (fun c hc => decide_eq_false (htoken c hc)) d (decide_eq_true hd) s
  rw [tokens, hsplit, List.filter_cons_of_pos (by simpa using hne)]
  rfl

theorem tokens_append (hd : d ∈ delim) (s t : List Byte) :
    tokens delim (s ++ d :: t) = tokens delim s ++ tokens delim t := by
  have hsplit := List.splitOnP_append_cons (p := (· ∈ delim)) s t (decide_eq_true hd)
  rw [tokens, hsplit, List.filter_append]
  rfl

/-- The longest front of bytes with a property, and what stands behind it. -/
theorem exists_front (p : Byte → Prop) (s : List Byte) :
    ∃ front rest, s = front ++ rest ∧ (∀ c ∈ front, p c) ∧ ∀ d ∈ rest.head?, ¬ p d := by
  induction s with
  | nil => exact ⟨[], [], rfl, nofun, nofun⟩
  | cons c s ih =>
      by_cases hc : p c
      · obtain ⟨front, rest, rfl, hfront, hrest⟩ := ih
        exact ⟨c :: front, rest, rfl, List.forall_mem_cons.mpr ⟨hc, hfront⟩, hrest⟩
      · refine ⟨[], c :: s, rfl, nofun, ?_⟩
        rintro d ⟨⟩
        exact hc

/-- A string is taken apart by its gaps and tokens. -/
theorem tokens_induction (delim : List Byte) {motive : List Byte → Prop}
    (blank : ∀ gap, (∀ c ∈ gap, c ∈ delim) → motive gap)
    (last : ∀ gap token, (∀ c ∈ gap, c ∈ delim) → token ≠ [] → (∀ c ∈ token, c ∉ delim) →
      motive (gap ++ token))
    (cut : ∀ gap token d s, (∀ c ∈ gap, c ∈ delim) → token ≠ [] → (∀ c ∈ token, c ∉ delim) →
      d ∈ delim → motive s → motive (gap ++ token ++ d :: s))
    (s : List Byte) : motive s := by
  induction hn : s.length using Nat.strongRecOn generalizing s with
  | ind n ih =>
      obtain ⟨gap, rest, rfl, hgap, hrest⟩ := exists_front (· ∈ delim) s
      obtain ⟨token, tail, rfl, htoken, htail⟩ := exists_front (· ∉ delim) rest
      cases tail with
      | nil =>
          rw [List.append_nil] at hrest ⊢
          rcases eq_or_ne token [] with rfl | hne
          · rw [List.append_nil]
            exact blank gap hgap
          · exact last gap token hgap hne htoken
      | cons d tail =>
          have hd : d ∈ delim := not_not.mp (htail d rfl)
          have hne : token ≠ [] := by
            rintro rfl
            exact hrest d rfl hd
          rw [← List.append_assoc]
          refine cut gap token d tail hgap hne htoken hd (ih tail.length ?_ tail rfl)
          rw [← hn, List.length_append, List.length_append, List.length_cons]
          omega

theorem infix_of_mem_tokens (htoken : token ∈ tokens delim s) : token <:+: s := by
  induction s using tokens_induction delim with
  | blank gap hgap =>
      rw [tokens_blank hgap] at htoken
      cases htoken
  | last gap word hgap hne hword =>
      rw [tokens_gap hgap, tokens_token hne hword, List.mem_singleton] at htoken
      subst htoken
      exact (List.suffix_append gap token).isInfix
  | cut gap word d s hgap hne hword hd ih =>
      rw [List.append_assoc, tokens_gap hgap, tokens_cut hne hword hd, List.mem_cons] at htoken
      rcases htoken with rfl | htoken
      · exact ⟨gap, d :: s, rfl⟩
      · exact (ih htoken).trans ((List.suffix_cons d s).trans (List.suffix_append _ _)).isInfix

end ApueCourse.Memory
