import ApueCourse.Shell.Arguments

/-! The read loops of the two shells: what `fgets` makes of the lines of the input. -/

namespace ApueCourse.Shell.Arguments

open Memory

/-! A line in the buffer. -/

theorem length_nextLine_le (n : Nat) (input : List Byte) : (nextLine n input).length ≤ n := by
  induction n generalizing input with
  | zero => exact Nat.le_refl 0
  | succ n ih =>
      cases input with
      | nil => exact Nat.zero_le _
      | cons c rest =>
          rw [nextLine]
          split
          · exact Nat.succ_le_succ (Nat.zero_le n)
          · exact Nat.succ_le_succ (ih rest)

theorem nextLine_ne_nil {n : Nat} {input : List Byte} (hn : 0 < n) (hinput : input ≠ []) :
    nextLine n input ≠ [] := by
  cases n with
  | zero => exact absurd hn (Nat.lt_irrefl 0)
  | succ n =>
      cases input with
      | nil => exact absurd rfl hinput
      | cons c rest =>
          rw [nextLine]
          split
          · exact List.cons_ne_nil _ _
          · exact List.cons_ne_nil _ _

theorem nextLine_front (n : Nat) (input : List Byte) : nextLine n input <+: input := by
  induction n generalizing input with
  | zero => exact List.nil_prefix
  | succ n ih =>
      cases input with
      | nil => exact List.nil_prefix
      | cons c rest =>
          rw [nextLine]
          split
          · exact List.prefix_append [c] rest
          · exact (List.prefix_cons_inj c).mpr (ih rest)

theorem fgets_eq {buf : Block} {input : List Byte} (hbuf : buf ≠ []) (hinput : input ≠ []) :
    ∃ rest, fgets buf input = some (nextLine (buf.length - 1) input ++ 0 :: rest,
        input.drop (nextLine (buf.length - 1) input).length) ∧
      (nextLine (buf.length - 1) input ++ 0 :: rest).length = buf.length := by
  have hpos := List.length_pos_of_ne_nil hbuf
  have hline := length_nextLine_le (buf.length - 1) input
  have hroom : ([] : Block).length + (nextLine (buf.length - 1) input ++ [0]).length ≤
      buf.length := by
    simp only [List.length_append, List.length_singleton, List.length_nil]
    omega
  have hblit : blit buf 0 (nextLine (buf.length - 1) input ++ [0]) = _ := blit_append rfl hroom
  have hlength := length_blit hblit
  rw [fgets, if_neg hinput]
  dsimp only
  rw [hblit]
  refine ⟨buf.drop (nextLine (buf.length - 1) input ++ [0]).length, ?_, ?_⟩
  · simp
  · simpa using hlength

/-- The line without the newline at its end. -/
def chomp (text : List Byte) : List Byte :=
  if text.getLast? = some newline then text.dropLast else text

theorem chop_text {buf : Block} {text : List Byte} (hbuf : cstring buf = some text)
    (htext : text ≠ []) : ∃ buf', chop buf = some buf' ∧ cstring buf' = some (chomp text) ∧
      buf'.length = buf.length := by
  obtain ⟨hnul, rest, rfl⟩ := cstring_eq_some hbuf
  rcases List.eq_nil_or_concat' text with rfl | ⟨front, last, rfl⟩
  · exact absurd rfl htext
  · have hchop := chop_concat hnul rest
    have hfront : 0 ∉ front := fun hmem => hnul (List.mem_append_left _ hmem)
    rw [chomp, List.getLast?_concat, List.append_assoc, List.singleton_append]
    by_cases hlast : last = newline
    · rw [if_pos hlast] at hchop
      rw [if_pos (congrArg some hlast), List.dropLast_concat]
      refine ⟨front ++ 0 :: 0 :: rest, hchop, cstring_append hfront _, ?_⟩
      simp only [List.length_append, List.length_cons]
    · rw [if_neg hlast] at hchop
      rw [if_neg fun h => hlast (Option.some.inj h)]
      refine ⟨front ++ last :: 0 :: rest, hchop, ?_, rfl⟩
      simpa using cstring_append hnul rest

theorem chop_nil {buf : Block} (hbuf : cstring buf = some []) : chop buf = none := by
  rw [chop, hbuf]
  rfl

/-! The lines of the input. -/

/-- The lines with their newlines; the last may have none. -/
def lines : List Byte → List (List Byte)
  | [] => []
  | c :: rest =>
      if c = newline then [c] :: lines rest
      else
        match lines rest with
        | [] => [[c]]
        | line :: more => (c :: line) :: more

theorem lines_cons (input : List Byte) (hinput : input ≠ []) :
    ∃ line more, lines input = line :: more := by
  cases input with
  | nil => exact absurd rfl hinput
  | cons c rest =>
      rw [lines]
      split
      · exact ⟨_, _, rfl⟩
      · split
        · exact ⟨_, _, rfl⟩
        · exact ⟨_, _, rfl⟩

theorem flatten_lines (input : List Byte) : (lines input).flatten = input := by
  induction input with
  | nil => rfl
  | cons c rest ih =>
      rw [lines]
      split
      · rw [List.flatten_cons, ih, List.singleton_append]
      · split
        · rename_i hrest
          rw [hrest] at ih
          rw [← ih]
          rfl
        · rename_i line more hrest
          rw [hrest] at ih
          rw [← ih]
          rfl

theorem newline_not_mem_dropLast {input line : List Byte} (hline : line ∈ lines input) :
    newline ∉ line.dropLast := by
  induction input generalizing line with
  | nil => cases hline
  | cons c rest ih =>
      rw [lines] at hline
      split at hline
      · rcases List.mem_cons.mp hline with hfirst | hrest
        · rw [hfirst]
          exact List.not_mem_nil
        · exact ih hrest
      · rename_i hc
        split at hline
        · rw [List.mem_singleton.mp hline]
          exact List.not_mem_nil
        · rename_i line' more hrest
          rcases List.mem_cons.mp hline with hfirst | hmore
          · have hdrop := ih (hrest ▸ List.mem_cons_self)
            subst hfirst
            cases line' with
            | nil => exact List.not_mem_nil
            | cons d line' =>
                rw [List.dropLast_cons_cons]
                exact List.not_mem_cons_of_ne_of_not_mem (Ne.symm hc) hdrop
          · exact ih (hrest ▸ List.mem_cons_of_mem _ hmore)

theorem lines_concat_newline {line : List Byte} (hline : newline ∉ line) :
    lines (line ++ [newline]) = [line ++ [newline]] := by
  induction line with
  | nil => rfl
  | cons c line ih =>
      obtain ⟨hc, hrest⟩ := not_or.mp (List.mem_cons.not.mp hline)
      rw [List.cons_append, lines, if_neg (Ne.symm hc), ih hrest]

theorem nextLine_eq_take {input line : List Byte} {more : List (List Byte)}
    (hlines : lines input = line :: more) (n : Nat) : nextLine n input = line.take n := by
  induction input generalizing n line with
  | nil => cases hlines
  | cons c rest ih =>
      cases n with
      | zero => rw [nextLine, List.take_zero]
      | succ n =>
          rw [lines] at hlines
          rw [nextLine]
          split at hlines
          · rename_i hc
            obtain ⟨rfl, -⟩ := List.cons.inj hlines
            rw [if_pos hc, List.take_succ_cons, List.take_nil]
          · rename_i hc
            rw [if_neg hc]
            split at hlines
            · rename_i hrest
              obtain ⟨rfl, -⟩ := List.cons.inj hlines
              have hnil : rest = [] := by
                by_contra hne
                obtain ⟨line, more, hcons⟩ := lines_cons rest hne
                cases hrest.symm.trans hcons
              subst hnil
              rw [List.take_succ_cons, List.take_nil]
              cases n with
              | zero => rfl
              | succ n => rfl
            · rename_i line' more' hrest
              obtain ⟨rfl, rfl⟩ := List.cons.inj hlines
              rw [List.take_succ_cons, ih hrest]

theorem lines_drop {input line : List Byte} {more : List (List Byte)}
    (hlines : lines input = line :: more) {k : Nat} (hk : k ≤ line.length) :
    lines (input.drop k) = if k = line.length then more else line.drop k :: more := by
  induction input generalizing k line with
  | nil => cases hlines
  | cons c rest ih =>
      cases k with
      | zero =>
          rw [List.drop_zero, List.drop_zero, hlines, if_neg]
          rintro hnil
          rw [lines] at hlines
          have hline : line = [] := List.eq_nil_of_length_eq_zero hnil.symm
          rw [hline] at hlines
          split at hlines
          · cases hlines
          · split at hlines <;> cases hlines
      | succ k =>
          rw [List.drop_succ_cons]
          rw [lines] at hlines
          split at hlines
          · obtain ⟨rfl, rfl⟩ := List.cons.inj hlines
            obtain rfl : k = 0 := by simpa using hk
            rw [List.drop_zero]
            exact (if_pos rfl).symm
          · split at hlines
            · rename_i hrest
              obtain ⟨rfl, rfl⟩ := List.cons.inj hlines
              obtain rfl : k = 0 := by simpa using hk
              rw [List.drop_zero, hrest]
              exact (if_pos rfl).symm
            · rename_i line' more' hrest
              obtain ⟨rfl, rfl⟩ := List.cons.inj hlines
              rw [List.length_cons, ih hrest (Nat.le_of_succ_le_succ hk), List.drop_succ_cons]
              simp only [Nat.add_right_cancel_iff]

/-! The loops. -/

/-- The strings that a loop gives to its children, one for each turn; `amend` is what it does
to the buffer behind `fgets`. -/
def readLoop (amend : Block → Option Block) :
    Nat → Block → List Byte → Option (List (List Byte))
  | 0, _, _ => none
  | fuel + 1, buf, input =>
      match fgets buf input with
      | none => some []
      | some (buf, input) => do
          let buf ← amend buf
          let string ← cstring buf
          let strings ← readLoop amend fuel buf input
          return string :: strings

/-- The test and store of the shell with signals at `buf[MAXLINE - 1]`. -/
def cutLast (buf : Block) : Option Block := do
  let c ← buf[MAXLINE - 1]?
  if c ≠ newline then store buf (MAXLINE - 1) 0 else return buf

/-- A child of the shell with arguments is given the string of its turn, and the environment
that the shell has. -/
theorem main_children {succeeds : List Byte → Bool} {path : Block} {fuel : Nat}
    {parent : Parent} {input : List Byte} {outcomes : List Child}
    (hmain : main succeeds path fuel parent input = some outcomes) :
    ∃ strings, readLoop chop fuel parent.buf input = some strings ∧
      List.Forall₂ (fun string outcome => ∃ buf, cstring buf = some string ∧
        child succeeds path buf (string ++ [0]) parent.environ = some outcome)
        strings outcomes := by
  induction fuel generalizing parent input outcomes with
  | zero => cases hmain
  | succ fuel ih =>
      rw [main] at hmain
      rw [readLoop]
      cases hread : fgets parent.buf input with
      | none =>
          rw [hread] at hmain
          cases hmain
          exact ⟨[], rfl, .nil⟩
      | some read =>
          obtain ⟨buf, input'⟩ := read
          rw [hread] at hmain
          obtain ⟨buf', hchop, hmain⟩ := Option.bind_eq_some_iff.mp hmain
          obtain ⟨string, hstring, hmain⟩ := Option.bind_eq_some_iff.mp hmain
          obtain ⟨outcome, hchild, hmain⟩ := Option.bind_eq_some_iff.mp hmain
          obtain ⟨rest, hrest, hmain⟩ := Option.bind_eq_some_iff.mp hmain
          cases hmain
          obtain ⟨strings, hstrings, hall⟩ := ih hrest
          refine ⟨string :: strings, ?_, .cons ⟨buf', hstring, hchild⟩ hall⟩
          simp only [hchop, hstring, Option.bind_eq_bind, Option.bind_some]
          rw [hstrings]
          rfl

/-- What `amend` does to a line. -/
def Shows (amend : Block → Option Block) (shown : List Byte → List Byte) : Prop :=
  ∀ {buf : Block} {text : List Byte}, buf.length = MAXLINE → cstring buf = some text → text ≠ [] →
    ∃ buf', amend buf = some buf' ∧ cstring buf' = some (shown text) ∧ buf'.length = buf.length

theorem chop_shows : Shows chop chomp := fun _ hbuf htext => chop_text hbuf htext

theorem cutLast_shows : Shows cutLast id := by
  intro buf text hlength hbuf htext
  obtain ⟨hnul, rest, rfl⟩ := cstring_eq_some hbuf
  have hlast : MAXLINE - 1 < (text ++ 0 :: rest).length := by
    rw [hlength]
    decide
  obtain ⟨k, hk⟩ : ∃ k, MAXLINE - 1 = text.length + k := by
    rw [List.length_append, List.length_cons] at hlength
    exact Nat.exists_eq_add_of_le (by omega)
  rw [cutLast, List.getElem?_eq_getElem hlast, Option.bind_eq_bind, Option.bind_some]
  split
  · refine ⟨_, if_pos hlast, ?_, List.length_set⟩
    rw [hk, List.set_append_right _ _ (Nat.le_add_right _ _), Nat.add_sub_cancel_left]
    -- the NUL of the string is not behind the last byte
    cases k with
    | zero => exact hbuf
    | succ k => exact cstring_append hnul _
  · exact ⟨_, rfl, hbuf, rfl⟩

section Loop

variable {amend : Block → Option Block} {shown : List Byte → List Byte}

/-- The loop makes at least one string of each line, and more of one that `buf` has no room
for. -/
theorem readLoop_pieces (hamend : Shows amend shown) {fuel : Nat} {buf : Block}
    {input : List Byte} (hfuel : input.length < fuel) (hbuf : buf.length = MAXLINE)
    (hnul : 0 ∉ input) :
    ∃ pieces, readLoop amend fuel buf input = some (pieces.map shown) ∧
      (lines input).length ≤ pieces.length ∧
      ((∀ line ∈ lines input, line.length < MAXLINE) → pieces = lines input) ∧
      (pieces.length = (lines input).length → ∀ line ∈ lines input, line.length < MAXLINE) := by
  induction fuel generalizing buf input with
  | zero => exact absurd hfuel (Nat.not_lt_zero _)
  | succ fuel ih =>
      by_cases hinput : input = []
      · subst hinput
        refine ⟨[], ?_, Nat.le_refl 0, fun _ => rfl, fun _ line hline => nomatch hline⟩
        rw [readLoop, fgets, if_pos rfl]
        rfl
      · have hne : buf ≠ [] := by
          rintro rfl
          cases hbuf
        obtain ⟨line, more, hlines⟩ := lines_cons input hinput
        obtain ⟨rest, hfgets, hlength⟩ := fgets_eq hne hinput
        have htext : nextLine (buf.length - 1) input ≠ [] :=
          nextLine_ne_nil (by rw [hbuf]; decide) hinput
        have htextNul : 0 ∉ nextLine (buf.length - 1) input := fun hmem =>
          hnul ((nextLine_front _ input).subset hmem)
        have hpos := List.length_pos_of_ne_nil htext
        obtain ⟨buf', hbuf', hstring, hlength'⟩ :=
          hamend (hlength.trans hbuf) (cstring_append htextNul rest) htext
        have hrest : 0 ∉ input.drop (nextLine (buf.length - 1) input).length := fun hmem =>
          hnul (List.mem_of_mem_drop hmem)
        have hshort : (input.drop (nextLine (buf.length - 1) input).length).length < fuel := by
          rw [List.length_drop]
          have := List.length_pos_of_ne_nil hinput
          omega
        obtain ⟨pieces, hpieces, hle, hall, hsame⟩ :=
          ih hshort (hlength'.trans (hlength.trans hbuf)) hrest
        have hread : readLoop amend (fuel + 1) buf input =
            some ((nextLine (buf.length - 1) input :: pieces).map shown) := by
          simp only [readLoop, hfgets, hbuf', hstring, hpieces, Option.bind_eq_bind,
            Option.bind_some]
          rfl
        rw [nextLine_eq_take hlines, hbuf] at hread hle hall hsame
        refine ⟨_, hread, ?_⟩
        rw [hlines, List.length_cons, List.length_cons, List.forall_mem_cons]
        rcases Nat.lt_or_ge (MAXLINE - 1) line.length with hlong | hfits
        · -- the rest of the line is a line of its own for the next turn
          rw [List.length_take_of_le hlong.le, lines_drop hlines hlong.le, if_neg hlong.ne,
            List.length_cons] at hle
          refine ⟨by omega, fun h => absurd h.1 (by omega), fun h => by omega⟩
        · rw [List.take_of_length_le hfits, lines_drop hlines le_rfl, if_pos rfl]
            at hle hall hsame
          rw [List.take_of_length_le hfits]
          have hline : line.length < MAXLINE := Nat.lt_of_le_pred (by decide) hfits
          refine ⟨Nat.succ_le_succ hle, fun h => ?_, fun h => ?_⟩
          · rw [hall h.2]
          · exact ⟨hline, hsame (Nat.succ.inj h)⟩

/-- From some number of turns on, the loop gives its children the lines of the input. -/
def OneByOne (amend : Block → Option Block) (shown : List Byte → List Byte) (buf : Block)
    (input : List Byte) : Prop :=
  ∃ enough, ∀ fuel ≥ enough, readLoop amend fuel buf input = some ((lines input).map shown)

theorem oneByOne_iff (hamend : Shows amend shown) {buf : Block} {input : List Byte}
    (hbuf : buf.length = MAXLINE) (hnul : 0 ∉ input) :
    OneByOne amend shown buf input ↔ ∀ line ∈ lines input, line.length < MAXLINE := by
  constructor
  · intro hone
    obtain ⟨enough, hone⟩ := hone
    obtain ⟨pieces, hpieces, -, -, hsame⟩ := readLoop_pieces hamend
      (show input.length < max enough (input.length + 1) by omega) hbuf hnul
    apply hsame
    rw [hone _ (Nat.le_max_left _ _)] at hpieces
    have hlength := congrArg List.length (Option.some.inj hpieces)
    rwa [List.length_map, List.length_map, eq_comm] at hlength
  · intro hshort
    refine ⟨input.length + 1, fun fuel hfuel => ?_⟩
    obtain ⟨pieces, hpieces, -, hall, -⟩ := readLoop_pieces hamend hfuel hbuf hnul
    rw [hpieces, hall hshort]

end Loop

end ApueCourse.Shell.Arguments
