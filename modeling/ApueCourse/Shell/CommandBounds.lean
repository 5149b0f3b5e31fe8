import ApueCourse.Shell.Lines

/-! Which lines `main` takes without an access outside of its arrays, and to the string at
the null pointer. -/

namespace ApueCourse.Shell.Arguments

open Memory

/-- The body of the loop of `main`, with the line that `fgets` has left in `buf`. -/
def turn (succeeds : List Byte → Bool) (path : Block) (environ : List Block) (buf : Block) :
    Option (Block × Child) := do
  let buf ← chop buf
  let string ← cstring buf
  let outcome ← child succeeds path buf (string ++ [0]) environ
  return (buf, outcome)

theorem main_turn (succeeds : List Byte → Bool) (path : Block) (fuel : Nat) (parent : Parent)
    (input : List Byte) :
    main succeeds path (fuel + 1) parent input =
      match fgets parent.buf input with
      | none => some []
      | some (buf, input) => (turn succeeds path parent.environ buf).bind fun turned =>
          (main succeeds path fuel { parent with buf := turned.1 } input).map (turned.2 :: ·) := by
  rw [main]
  cases fgets parent.buf input with
  | none => rfl
  | some read =>
      simp only [turn, Option.bind_eq_bind, Option.bind_assoc, Option.map_eq_bind]
      rfl

/-! `argv`. -/

theorem split_outside {argv : Slots} {i : Nat} (hi : argv.length ≤ i) (fuel : Nat)
    (bufptr : Option Nat) (line : Block) : split fuel i argv bufptr line = none := by
  cases fuel with
  | zero => rfl
  | succ fuel =>
      rw [split]
      cases strsep space line bufptr with
      | none => rfl
      | some cut =>
          simp only [setSlot, if_neg (Nat.not_lt.mpr hi), Option.bind_eq_bind, Option.bind_some,
            Option.bind_none]

/-- The words do not leave a slot to the null pointer. -/
theorem split_eq_none {fuel i : Nat} {argv : Slots} {front tail : Block} {s : List Byte}
    (hnul : 0 ∉ s) (hlength : argv.length = MAX_ARG) (hcount : MAX_ARG ≤ i + (words s).length) :
    split fuel i argv (some front.length) (front ++ s ++ 0 :: tail) = none := by
  induction s using token_induction space generalizing fuel i argv front with
  | last token hdelim =>
      cases fuel with
      | zero => rfl
      | succ fuel =>
          rcases Nat.lt_or_ge i argv.length with hi | hi
          · have htoken : StringAt (front ++ token ++ 0 :: tail) front.length token :=
              ⟨front, tail, rfl, rfl, hnul⟩
            rw [split_step fuel (strsep_last hnul hdelim front tail) hi (by omega) htoken]
            rw [words_last hdelim] at hcount
            split at hcount
            · rw [List.length_nil] at hcount
              omega
            · rename_i hnil
              rw [if_neg hnil]
              rw [List.length_singleton] at hcount
              apply split_outside
              rw [List.length_set]
              omega
          · exact split_outside hi _ _ _
  | cut token s hdelim ih =>
      cases fuel with
      | zero => rfl
      | succ fuel =>
          rcases Nat.lt_or_ge i argv.length with hi | hi
          · have htokenNul : 0 ∉ token := fun h => hnul (List.mem_append_left _ h)
            have hrestNul : 0 ∉ s := fun h =>
              hnul (List.mem_append_right _ (List.mem_cons_of_mem _ h))
            have hcut := strsep_delim htokenNul hdelim (by decide) front (s ++ 0 :: tail)
            have htoken : StringAt (front ++ token ++ [0] ++ (s ++ 0 :: tail)) front.length token :=
              ⟨front, s ++ 0 :: tail, by simp, rfl, htokenNul⟩
            have hwhole : front ++ (token ++ space :: s) ++ 0 :: tail =
                front ++ token ++ space :: (s ++ 0 :: tail) := by simp
            rw [hwhole, split_step fuel hcut hi (by omega) htoken, ← List.append_assoc]
            apply ih hrestNul
            · rw [List.length_set, hlength]
            · rw [words_cut hdelim] at hcount
              split at hcount
              · rename_i hnil
                rwa [if_pos hnil]
              · rename_i hnil
                rw [if_neg hnil]
                rw [List.length_cons] at hcount
                omega
          · exact split_outside hi _ _ _

/-! `path`. -/

theorem join_eq_none {path : Block} {component command : List Byte} (hcomponent : 0 ∉ component)
    (hlong : path.length ≤ (component ++ [slash] ++ command).length) :
    join path component command = none := by
  rw [← Option.not_isSome_iff_eq_none]
  intro hjoin
  obtain ⟨joined, hjoin⟩ := Option.isSome_iff_exists.mp hjoin
  obtain ⟨first, hfirst, hjoin⟩ := Option.bind_eq_some_iff.mp hjoin
  obtain ⟨second, hsecond, hthird⟩ := Option.bind_eq_some_iff.mp hjoin
  have hlength := length_blit hfirst
  have hroom : ([] : Block).length + (component ++ [0]).length ≤ path.length := by
    rw [strcpy, blit] at hfirst
    split at hfirst
    · assumption
    · cases hfirst
  have hcopy : strcpy path 0 component = _ := blit_append rfl hroom
  rw [hcopy] at hfirst
  have hfirst' : first = component ++ 0 :: path.drop (component.length + 1) := by
    simpa using (Option.some.inj hfirst).symm
  rw [hfirst'] at hsecond hlength
  obtain ⟨hmiddle, rfl⟩ := (strcat_eq_some_iff hcomponent).mp hsecond
  have hslash : 0 ∉ component ++ [slash] := by
    rw [List.mem_append, not_or]
    exact ⟨hcomponent, by decide⟩
  obtain ⟨hfits, -⟩ := (strcat_eq_some_iff hslash).mp hthird
  simp only [List.length_append, List.length_cons, List.length_nil, List.length_drop]
    at hmiddle hfits hlong hroom
  omega

theorem search_overflow (succeeds : List Byte → Bool) (fuel : Nat) {line : Block} {argv : Slots}
    {command component : List Byte} {k p : Nat} {environ : List Block}
    {path string string' : Block} {pathev pathev' : Option Nat}
    (hcommand : argument line argv 0 = some command) (hstring : environ[k]? = some string)
    (hsep : strsep colon string pathev = some (some p, pathev', string'))
    (hcomponent : StringAt string' p component)
    (hlong : path.length ≤ (component ++ [slash] ++ command).length) :
    search succeeds line argv k (fuel + 1) environ path pathev = none := by
  have hnul : 0 ∉ component := by
    obtain ⟨-, -, -, -, hnul⟩ := hcomponent
    exact hnul
  simp only [search, hstring, hsep, hcomponent.cstring, hcommand, join_eq_none hnul hlong,
    Option.bind_eq_bind, Option.bind_some, Option.bind_none]

theorem search_eq_none {succeeds : List Byte → Bool} {line : Block} {argv : Slots}
    {args : List (List Byte)} {command value : List Byte} {k fuel : Nat}
    {environ : List Block} {path front tail : Block}
    (hargs : strings line argv = some args) (hcommand : argument line argv 0 = some command)
    (hcommandNul : 0 ∉ command) (hvalue : 0 ∉ value)
    (hstring : environ[k]? = some (front ++ value ++ 0 :: tail))
    (henviron : ∀ s ∈ environ, 0 ∈ s)
    (hlong : ∃ file ∈ attempts succeeds ((value.splitOn colon).map (· ++ [slash] ++ command)),
      path.length ≤ file.length) :
    search succeeds line argv k fuel environ path (some front.length) = none := by
  induction value using token_induction colon generalizing fuel environ path front with
  | last token hdelim =>
      rw [List.splitOn_eq_singleton hdelim, List.map_singleton] at hlong
      obtain ⟨file, hfile, hlong⟩ := hlong
      rw [List.mem_singleton.mp (attempts_subset succeeds _ hfile)] at hlong
      cases fuel with
      | zero => rfl
      | succ fuel =>
          exact search_overflow succeeds fuel hcommand hstring (strsep_last hvalue hdelim front tail)
            ⟨front, tail, rfl, rfl, hvalue⟩ hlong
  | cut token value hdelim ih =>
      cases fuel with
      | zero => rfl
      | succ fuel =>
          have htokenNul : 0 ∉ token := fun h => hvalue (List.mem_append_left _ h)
          have hrestNul : 0 ∉ value := fun h =>
            hvalue (List.mem_append_right _ (List.mem_cons_of_mem _ h))
          have hwhole : front ++ (token ++ colon :: value) ++ 0 :: tail =
              front ++ token ++ colon :: (value ++ 0 :: tail) := by simp
          rw [hwhole] at hstring
          have hsep := strsep_delim htokenNul hdelim (by decide) front (value ++ 0 :: tail)
          have htoken : StringAt (front ++ token ++ [0] ++ (value ++ 0 :: tail)) front.length
              token := ⟨front, value ++ 0 :: tail, by simp, rfl, htokenNul⟩
          rcases Nat.lt_or_ge (token ++ [slash] ++ command).length path.length with hfits | hfirst
          · obtain ⟨call, path', -, -, hlength, hstep⟩ := search_step succeeds fuel hargs hcommand
              hcommandNul hstring hsep htoken henviron hfits
            have hk : k < environ.length := (List.getElem?_eq_some_iff.mp hstring).1
            rw [List.splitOn_append_cons_self_of_not_mem hdelim, List.map_cons, attempts] at hlong
            obtain ⟨file, hfile, hlong⟩ := hlong
            split at hfile
            · rw [List.mem_singleton.mp hfile] at hlong
              omega
            · rename_i hfails
              rw [hstep, if_neg hfails, Option.map_eq_none_iff]
              apply ih hrestNul
              · rw [List.getElem?_set_self hk]
                simp
              · intro s hs
                rcases List.mem_or_eq_of_mem_set hs with hs | rfl
                · exact henviron s hs
                · simp
              · rcases List.mem_cons.mp hfile with rfl | hfile
                · omega
                · exact ⟨file, hfile, hlength ▸ hlong⟩
          · exact search_overflow succeeds fuel hcommand hstring hsep htoken hfirst

/-! A line. -/

theorem getenv_eq_some {environ : List Block} {k p : Nat} (henviron : ∀ s ∈ environ, 0 ∈ s)
    (hgetenv : getenv PATH environ = some (k, p)) :
    ∃ value tail, p = (PATH ++ [61]).length ∧
      environ[k]? = some (PATH ++ [61] ++ value ++ 0 :: tail) ∧ 0 ∉ value ∧
      pathValue environ = some value := by
  obtain ⟨index, hindex, hpair⟩ := Option.map_eq_some_iff.mp hgetenv
  obtain ⟨hk, hprefix, -⟩ := List.findIdx?_eq_some_iff_getElem.mp hindex
  obtain ⟨rfl, rfl⟩ := Prod.mk.inj hpair
  obtain ⟨rest, hrest⟩ := List.isPrefixOf_iff_prefix.mp hprefix
  have hmem : 0 ∈ rest := by
    have hstring := henviron _ (List.getElem_mem hk)
    rw [← hrest, List.mem_append] at hstring
    exact hstring.resolve_left (by decide)
  obtain ⟨hnul, tail, htail⟩ := cstring_eq_some (cstring_eq_some_iff.mpr ⟨hmem, rfl⟩)
  have hget : environ[index]? = some (PATH ++ [61] ++ rest) := by
    rw [List.getElem?_eq_getElem hk, hrest]
  refine ⟨rest.takeWhile (· ≠ 0), tail, rfl, ?_, hnul, ?_⟩
  · rw [hget, List.append_assoc _ _ (0 :: tail), ← htail]
  · have hdrop : (PATH ++ [61] ++ rest).drop (PATH.length + 1) = rest :=
      List.drop_left' rfl
    rw [pathValue, hgetenv, Option.bind_eq_bind, Option.bind_some]
    simp only [hget, hdrop, Option.bind_eq_bind, Option.bind_some]
    exact cstring_eq_some_iff.mpr ⟨hmem, rfl⟩

/-- The command comes with 30 arguments at most, and `path` has room for the names that are
tried. -/
def Fits (succeeds : List Byte → Bool) (line value : List Byte) : Prop :=
  ∃ command args, words line = command :: args ∧ args.length < MAX_ARG - 1 ∧
    (slash ∉ command → ∀ file ∈ attempts succeeds (candidates command value), file.length < 100)

/-- `argv` behind the loop that fills it. -/
theorem split_line {line : List Byte} (hline : 0 ∉ line) :
    if (words line).length < MAX_ARG then
      ∃ (pointers : List Nat) (rest : Slots) (block : Block),
        split ((line ++ [0]).length + 1) 0 (List.replicate MAX_ARG none) (some 0) (line ++ [0]) =
          some (pointers.map (fun p => some (some p)) ++ some none :: rest, block) ∧
        List.Forall₂ (StringAt block) pointers (words line)
    else
      split ((line ++ [0]).length + 1) 0 (List.replicate MAX_ARG none) (some 0) (line ++ [0]) =
        none := by
  split
  · obtain ⟨pointers, s', rest, hsplit, hpointers⟩ :=
      @split_eq ((line ++ [0]).length + 1) 0 (List.replicate MAX_ARG none) [] [] line hline
        (by simp) List.length_replicate (by omega)
    exact ⟨pointers, rest, [] ++ s' ++ [0], hsplit, hpointers⟩
  · exact @split_eq_none ((line ++ [0]).length + 1) 0 (List.replicate MAX_ARG none) [] [] line
      hline List.length_replicate (by omega)

theorem fits_cons_iff {succeeds : List Byte → Bool} {line value command : List Byte}
    {args : List (List Byte)} (hwords : words line = command :: args)
    (hcount : (words line).length < MAX_ARG) :
    Fits succeeds line value ↔ (slash ∉ command →
      ∀ file ∈ attempts succeeds (candidates command value), file.length < 100) := by
  constructor
  · intro hfits
    obtain ⟨command', args', hwords', -, hall⟩ := hfits
    cases hwords.symm.trans hwords'
    exact hall
  · intro hall
    rw [hwords, List.length_cons] at hcount
    exact ⟨command, args, hwords, by omega, hall⟩

theorem child_isSome_iff {succeeds : List Byte → Bool} {path buf : Block} {line : List Byte}
    {environ : List Block} (hbuf : cstring buf = some line) (hpath : path.length = 100)
    (henviron : ∀ s ∈ environ, 0 ∈ s) :
    (child succeeds path buf (line ++ [0]) environ).isSome ↔
      ∀ value, pathValue environ = some value → Fits succeeds line value := by
  obtain ⟨hline, -⟩ := cstring_eq_some hbuf
  cases hgetenv : getenv PATH environ with
  | none =>
      have hvalue : pathValue environ = none := by
        rw [pathValue, hgetenv]
        rfl
      rw [child, hbuf, hgetenv, hvalue]
      refine iff_of_true rfl fun value h => ?_
      cases h
  | some found =>
      obtain ⟨k, p⟩ := found
      obtain ⟨value, tail, rfl, hstring, hvalueNul, hvalue⟩ := getenv_eq_some henviron hgetenv
      have honly : (∀ v, pathValue environ = some v → Fits succeeds line v) ↔
          Fits succeeds line value := by
        rw [hvalue]
        exact ⟨fun h => h value rfl, fun h v hv => Option.some.inj hv ▸ h⟩
      have hsplit := split_line hline
      simp only [honly, child, hbuf, hgetenv, hstring, Option.bind_eq_bind, Option.bind_some]
      split at hsplit
      · rename_i hcount
        obtain ⟨pointers, rest, block, hsplit, hpointers⟩ := hsplit
        have hargs := strings_eq hpointers rest
        simp only [hsplit, Option.bind_some]
        cases hwords : words line with
        | nil =>
            rw [hwords] at hpointers
            cases hpointers
            refine iff_of_false Bool.false_ne_true fun hfits => ?_
            obtain ⟨command, args, hcommand, -⟩ := hfits
            cases hwords.symm.trans hcommand
        | cons command args =>
            rw [hwords] at hpointers hargs
            have hcommand : argument block
                (pointers.map (fun p => some (some p)) ++ some none :: rest) 0 =
                  some command := by
              cases hpointers with
              | cons hfirst _ => exact argument_eq hfirst _
            have hcommandNul : 0 ∉ command := fun hmem =>
              hline (mem_of_mem_words (hwords ▸ List.mem_cons_self) hmem)
            rw [fits_cons_iff hwords hcount, hcommand, Option.bind_some]
            by_cases hslash : slash ∈ command
            · obtain ⟨call, hcall, -, -⟩ := execve_eq hargs henviron command
              rw [if_pos hslash, hcall]
              exact iff_of_true rfl fun h => absurd hslash h
            · have hcandidates : candidates command value =
                  (value.splitOn colon).map (· ++ [slash] ++ command) := if_neg hslash
              rw [if_neg hslash, hcandidates, ← hpath, forall_prop_of_true hslash]
              by_cases hfits : ∀ file ∈ attempts succeeds
                  ((value.splitOn colon).map (· ++ [slash] ++ command)), file.length < path.length
              · obtain ⟨calls, hcalls, -⟩ := search_eq hargs hcommand hcommandNul hvalueNul hstring
                  henviron (show value.length + 1 < (PATH ++ [61] ++ value ++ 0 :: tail).length + 1
                    by simp; omega) hfits
                rw [hcalls]
                exact iff_of_true rfl hfits
              · have hlong : ∃ file ∈ attempts succeeds
                    ((value.splitOn colon).map (· ++ [slash] ++ command)),
                    path.length ≤ file.length := by
                  by_contra hnone
                  exact hfits fun file hfile =>
                    Nat.lt_of_not_le fun hle => hnone ⟨file, hfile, hle⟩
                rw [search_eq_none hargs hcommand hcommandNul hvalueNul hstring henviron hlong]
                exact iff_of_false Bool.false_ne_true hfits
      · rename_i hcount
        simp only [hsplit, Option.bind_none]
        refine iff_of_false Bool.false_ne_true fun hfits => ?_
        obtain ⟨command, args, hwords, hargs, -⟩ := hfits
        rw [hwords, List.length_cons] at hcount
        omega

theorem turn_isSome_iff {succeeds : List Byte → Bool} {path buf : Block} {text : List Byte}
    {environ : List Block} (hbuf : cstring buf = some text) (hpath : path.length = 100)
    (henviron : ∀ s ∈ environ, 0 ∈ s) :
    (turn succeeds path environ buf).isSome ↔ text ≠ [] ∧
      ∀ value, pathValue environ = some value → Fits succeeds (chomp text) value := by
  by_cases htext : text = []
  · subst htext
    rw [turn, chop_nil hbuf]
    exact iff_of_false Bool.false_ne_true fun h => h.1 rfl
  · obtain ⟨buf', hchop, hbuf', -⟩ := chop_text hbuf htext
    rw [← child_isSome_iff hbuf' hpath henviron, and_iff_right htext, turn, hchop]
    simp only [hbuf', Option.bind_eq_bind, Option.bind_some]
    cases child succeeds path buf' (chomp text ++ [0]) environ with
    | none => rfl
    | some outcome => rfl

/-- What `fgets` has left of the input in `buf`: the bytes in front of the first NUL. -/
def readText (input : List Byte) : List Byte :=
  (nextLine (MAXLINE - 1) input).takeWhile (· ≠ 0)

theorem cstring_first_nul (text rest : Block) :
    cstring (text ++ 0 :: rest) = some (text.takeWhile (· ≠ 0)) := by
  induction text with
  | nil => rfl
  | cons c text ih =>
      rw [List.cons_append, cstring]
      split
      · rename_i hc
        rw [List.takeWhile_cons_of_neg (by simp [hc])]
      · rename_i hc
        have hcons : (c :: text).takeWhile (· ≠ 0) = c :: text.takeWhile (· ≠ 0) :=
          List.takeWhile_cons_of_pos (decide_eq_true hc)
        rw [ih, hcons]
        rfl

theorem fgets_text {buf : Block} {input : List Byte} (hbuf : buf.length = MAXLINE)
    (hinput : input ≠ []) :
    ∃ buf' rest, fgets buf input = some (buf', rest) ∧ cstring buf' = some (readText input) := by
  have hne : buf ≠ [] := by
    rintro rfl
    cases hbuf
  obtain ⟨rest, hfgets, -⟩ := fgets_eq hne hinput
  rw [hbuf] at hfgets
  exact ⟨_, _, hfgets, cstring_first_nul _ rest⟩

/-- No access of `main` and of its child is outside of `buf`, `argv` and `path`, and there is a
command to look into, exactly if the line does not begin with a NUL and, with a `PATH`, has 1
to 31 words and leads to names of less than 100 bytes only. -/
theorem line_in_bounds_iff {succeeds : List Byte → Bool} {path : Block} {parent : Parent}
    {input : List Byte} (hbuf : parent.buf.length = MAXLINE) (hinput : input ≠ [])
    (hpath : path.length = 100) (henviron : ∀ s ∈ parent.environ, 0 ∈ s) :
    ∃ buf rest, fgets parent.buf input = some (buf, rest) ∧
      ((turn succeeds path parent.environ buf).isSome ↔
        readText input ≠ [] ∧ ∀ value, pathValue parent.environ = some value →
          Fits succeeds (chomp (readText input)) value) := by
  obtain ⟨buf, rest, hfgets, htext⟩ := fgets_text hbuf hinput
  exact ⟨buf, rest, hfgets, turn_isSome_iff htext hpath henviron⟩

/-- `ls -l` with `/b` in `PATH`. -/
theorem line_in_bounds_ls :
    ∃ buf rest, fgets (List.replicate MAXLINE 0) [108, 115, 32, 45, 108, 10] = some (buf, rest) ∧
      (turn (fun _ => false) (List.replicate 100 0) [PATH ++ [61, 47, 98, 0]] buf).isSome := by
  obtain ⟨buf, rest, hfgets, hbounds⟩ := @line_in_bounds_iff (fun _ => false) (List.replicate 100 0)
    { buf := List.replicate MAXLINE 0, environ := [PATH ++ [61, 47, 98, 0]] }
    [108, 115, 32, 45, 108, 10] List.length_replicate (List.cons_ne_nil _ _)
    List.length_replicate (by decide)
  refine ⟨buf, rest, hfgets, hbounds.mpr ⟨by decide, fun value hvalue => ?_⟩⟩
  obtain rfl : [47, 98] = value := Option.some.inj hvalue
  exact ⟨[108, 115], [[45, 108]], by decide, by decide, by decide⟩

def thirtyTwoWords : List Byte := (List.replicate 32 [97, 32]).flatten ++ [newline]

/-- 32 words, a blank line, a line that begins with a NUL, and `ls` with a component of 98
bytes in `PATH`. -/
theorem lines_out_of_bounds :
    (∀ input ∈ [thirtyTwoWords, [newline], [0, newline]],
      (fgets (List.replicate MAXLINE 0) input).map (fun read =>
        turn (fun _ => false) (List.replicate 100 0) [PATH ++ [61, 47, 98, 0]] read.1) =
          some none) ∧
      (fgets (List.replicate MAXLINE 0) [108, 115, 10]).map (fun read =>
        turn (fun _ => false) (List.replicate 100 0)
          [PATH ++ [61] ++ List.replicate 98 97 ++ [0]] read.1) = some none := by
  decide +kernel

end ApueCourse.Shell.Arguments
