import ApueCourse.Shell.CommandBounds

/-! What a new program finds in its environment: the string that `getenv` has found is cut
where it stands. -/

namespace ApueCourse.Shell.Arguments

open Memory

theorem mapM_cstring_iff {environ : List Block} {envp : List (List Byte)} :
    environ.mapM cstring = some envp ↔ environ.map cstring = envp.map some := by
  induction environ generalizing envp with
  | nil =>
      cases envp with
      | nil => exact iff_of_true rfl rfl
      | cons s envp => exact iff_of_false (fun h => nomatch h) (fun h => nomatch h)
  | cons string environ ih =>
      rw [List.mapM_cons, Option.bind_eq_bind, Option.bind_eq_some_iff, List.map_cons]
      constructor
      · intro hsome
        obtain ⟨s, hs, htail⟩ := hsome
        obtain ⟨rest, hrest, henvp⟩ := Option.bind_eq_some_iff.mp htail
        cases henvp
        rw [hs, ih.mp hrest, List.map_cons]
      · intro hmap
        cases envp with
        | nil => cases hmap
        | cons s envp =>
            obtain ⟨hs, hrest⟩ := List.cons.inj hmap
            refine ⟨s, hs, ?_⟩
            rw [ih.mpr hrest]
            rfl

theorem execve_envp {file : List Byte} {line : Block} {argv : Slots} {environ : List Block}
    {call : Execve} (hcall : execve file line argv environ = some call) :
    environ.map cstring = call.envp.map some := by
  obtain ⟨args, -, hcall⟩ := Option.bind_eq_some_iff.mp hcall
  obtain ⟨envp, henvp, hcall⟩ := Option.bind_eq_some_iff.mp hcall
  cases hcall
  exact mapM_cstring_iff.mp henvp

theorem map_cstring_set {environ : List Block} {k : Nat} {string string' : Block}
    (hstring : environ[k]? = some string) (hsame : cstring string' = cstring string) :
    (environ.set k string').map cstring = environ.map cstring := by
  have hk : (environ.map cstring)[k]? = some (cstring string) := by
    rw [List.getElem?_map, hstring]
    rfl
  obtain ⟨hlt, hget⟩ := List.getElem?_eq_some_iff.mp hk
  rw [List.map_set, hsame, ← hget, List.set_getElem_self]

/-- A string of which a NUL is in front of `p` does not change behind `p`. -/
theorem cstring_of_take {block block' : Block} {p : Nat} (hnul : 0 ∈ block.take p)
    (htake : block'.take p = block.take p) : cstring block' = cstring block := by
  obtain ⟨s, hs⟩ : ∃ s, cstring (block.take p) = some s :=
    ⟨_, cstring_eq_some_iff.mpr ⟨hnul, rfl⟩⟩
  obtain ⟨hsNul, rest, hrest⟩ := cstring_eq_some hs
  rw [← List.take_append_drop p block', ← List.take_append_drop p block, htake, hrest,
    List.append_assoc, List.append_assoc, List.cons_append, List.cons_append,
    cstring_append hsNul, cstring_append hsNul]

/-- What `strsep` leaves, and where it goes on. -/
theorem strsep_take {delim : Byte} {block block' : Block} {p : Nat}
    {token next : Option Nat} (hsep : strsep delim block (some p) = some (token, next, block')) :
    token = some p ∧ block'.take p = block.take p ∧ ∀ q ∈ next, 0 ∈ block'.take q := by
  obtain ⟨n, -, hsep⟩ := Option.bind_eq_some_iff.mp hsep
  obtain ⟨c, -, hsep⟩ := Option.bind_eq_some_iff.mp hsep
  split at hsep
  · cases hsep
    exact ⟨rfl, rfl, fun q hq => nomatch hq⟩
  · obtain ⟨cut, hcut, hsep⟩ := Option.bind_eq_some_iff.mp hsep
    cases hsep
    rw [store] at hcut
    split at hcut
    · rename_i hlt
      cases hcut
      refine ⟨rfl, List.take_set_of_le (Nat.le_add_right p n), fun q hq => ?_⟩
      cases hq
      rw [List.mem_take_iff_getElem]
      exact ⟨p + n, by rw [List.length_set]; omega, List.getElem_set_self _⟩
    · cases hcut

/-- The calls of a turn and of those behind it. -/
theorem search_calls {succeeds : List Byte → Bool} {line : Block} {argv : Slots} {k fuel p : Nat}
    {environ : List Block} {path string string' : Block} {pathev pathev' : Option Nat}
    {calls : List Execve} {found : Bool} (hstring : environ[k]? = some string)
    (hsep : strsep colon string pathev = some (some p, pathev', string'))
    (hsearch : search succeeds line argv k (fuel + 1) environ path pathev = some (calls, found)) :
    ∃ call, (environ.set k string').map cstring = call.envp.map some ∧
      (calls = [call] ∨ ∃ path' calls' found', calls = call :: calls' ∧
        search succeeds line argv k fuel (environ.set k string') path' pathev' =
          some (calls', found')) := by
  simp only [search, hstring, hsep, Option.bind_eq_bind, Option.bind_some] at hsearch
  obtain ⟨component, -, hsearch⟩ := Option.bind_eq_some_iff.mp hsearch
  obtain ⟨command, -, hsearch⟩ := Option.bind_eq_some_iff.mp hsearch
  obtain ⟨path', -, hsearch⟩ := Option.bind_eq_some_iff.mp hsearch
  obtain ⟨file, -, hsearch⟩ := Option.bind_eq_some_iff.mp hsearch
  obtain ⟨call, hcall, hsearch⟩ := Option.bind_eq_some_iff.mp hsearch
  refine ⟨call, execve_envp hcall, ?_⟩
  split at hsearch
  · cases hsearch
    exact .inl rfl
  · obtain ⟨⟨calls', found'⟩, hrest, hsearch⟩ := Option.bind_eq_some_iff.mp hsearch
    cases hsearch
    exact .inr ⟨path', calls', _, rfl, hrest⟩

/-- Behind a first cut the environment shows the same strings to all calls. -/
theorem search_envp {succeeds : List Byte → Bool} {line : Block} {argv : Slots} {k fuel : Nat}
    {environ : List Block} {path string : Block} {pathev : Option Nat} {calls : List Execve}
    {found : Bool} (hstring : environ[k]? = some string) (hcut : ∀ p ∈ pathev, 0 ∈ string.take p)
    (hsearch : search succeeds line argv k fuel environ path pathev = some (calls, found)) :
    ∀ call ∈ calls, environ.map cstring = call.envp.map some := by
  induction fuel generalizing environ path string pathev calls found with
  | zero => cases hsearch
  | succ fuel ih =>
      cases pathev with
      | none =>
          rw [search_end hstring] at hsearch
          cases hsearch
          exact fun call hcall => nomatch hcall
      | some p =>
          cases hsep : strsep colon string (some p) with
          | none =>
              simp only [search, hstring, hsep, Option.bind_eq_bind, Option.bind_some,
                Option.bind_none] at hsearch
              cases hsearch
          | some cut =>
              obtain ⟨token, next, string'⟩ := cut
              obtain ⟨rfl, htake, hnext⟩ := strsep_take hsep
              have hsame := map_cstring_set hstring (cstring_of_take (hcut p rfl) htake)
              have hk : k < environ.length := (List.getElem?_eq_some_iff.mp hstring).1
              obtain ⟨call, hcall, hcalls⟩ := search_calls hstring hsep hsearch
              rw [hsame] at hcall
              rcases hcalls with hcalls | ⟨path', calls', found', hcalls, hrest⟩
              · rw [hcalls, List.forall_mem_singleton]
                exact hcall
              · rw [hcalls, List.forall_mem_cons]
                refine ⟨hcall, ?_⟩
                rw [← hsame]
                exact ih (List.getElem?_set_self hk) hnext hrest

/-- The whole search: the calls are shown the environment as it is, unless a first component of
`PATH` is cut off. -/
theorem search_environ {succeeds : List Byte → Bool} {line : Block} {argv : Slots} {k fuel : Nat}
    {environ : List Block} {path front tail : Block} {value : List Byte} {calls : List Execve}
    {found : Bool} (hfront : 0 ∉ front) (hvalue : 0 ∉ value)
    (hstring : environ[k]? = some (front ++ value ++ 0 :: tail))
    (hsearch : search succeeds line argv k fuel environ path (some front.length) =
      some (calls, found)) :
    ∀ call ∈ calls, environ.map cstring = call.envp.map some ↔ colon ∉ value := by
  have hk : k < environ.length := (List.getElem?_eq_some_iff.mp hstring).1
  obtain ⟨fuel, rfl⟩ : ∃ n, fuel = n + 1 := by
    cases fuel with
    | zero => cases hsearch
    | succ fuel => exact ⟨fuel, rfl⟩
  by_cases hcolon : colon ∈ value
  · obtain ⟨token, rest, rfl, htoken⟩ := List.eq_append_cons_of_mem hcolon
    have htokenNul : 0 ∉ token := fun h => hvalue (List.mem_append_left _ h)
    have hwhole : front ++ (token ++ colon :: rest) ++ 0 :: tail =
        front ++ token ++ colon :: (rest ++ 0 :: tail) := by simp
    have hsep := strsep_delim htokenNul htoken (by decide) front (rest ++ 0 :: tail)
    rw [← hwhole] at hsep
    have hcutNul : 0 ∉ front ++ token := by
      rw [List.mem_append, not_or]
      exact ⟨hfront, htokenNul⟩
    -- the string of the environment ends where the first component does
    have hcut : ((environ.set k (front ++ token ++ [0] ++ (rest ++ 0 :: tail))).map cstring) ≠
        environ.map cstring := by
      intro hsame
      have hentry := congrArg (·[k]?) hsame
      rw [List.getElem?_map, List.getElem?_map, List.getElem?_set_self hk, hstring, Option.map_some,
        Option.map_some, Option.some_inj, cstring_append (by simp [hfront, hvalue]),
        List.append_assoc (front ++ token), List.singleton_append, cstring_append hcutNul] at hentry
      have hlength := congrArg List.length (Option.some.inj hentry)
      simp only [List.length_append, List.length_cons] at hlength
      omega
    have hshown : ∀ call ∈ calls,
        (environ.set k (front ++ token ++ [0] ++ (rest ++ 0 :: tail))).map cstring =
          call.envp.map some := by
      obtain ⟨call, hcall, hcalls⟩ := search_calls hstring hsep hsearch
      rcases hcalls with hcalls | ⟨path', calls', found', hcalls, hrest⟩
      · rw [hcalls, List.forall_mem_singleton]
        exact hcall
      · rw [hcalls, List.forall_mem_cons]
        refine ⟨hcall, search_envp (List.getElem?_set_self hk) (fun p hp => ?_) hrest⟩
        cases hp
        rw [List.take_left]
        exact List.mem_append_right _ (List.mem_singleton_self _)
    intro call hcall
    refine iff_of_false (fun heq => hcut ?_) (not_not_intro hcolon)
    rw [hshown call hcall, heq]
  · have hsep := strsep_last hvalue hcolon front tail
    obtain ⟨call, hcall, hcalls⟩ := search_calls hstring hsep hsearch
    have hset := map_cstring_set hstring rfl
    rw [hset] at hcall
    have hshown : ∀ call ∈ calls, environ.map cstring = call.envp.map some := by
      rcases hcalls with hcalls | ⟨path', calls', found', hcalls, hrest⟩
      · rw [hcalls, List.forall_mem_singleton]
        exact hcall
      · rw [hcalls, List.forall_mem_cons, ← hset]
        refine ⟨hset.trans hcall, search_envp (List.getElem?_set_self hk) ?_ hrest⟩
        exact fun p hp => nomatch hp
    exact fun call hmem => iff_of_true (hshown call hmem) hcolon

theorem exists_attempt {succeeds : List Byte → Bool} {files : List (List Byte)} {file : List Byte}
    (hfile : file ∈ files) (hsucceeds : succeeds file) :
    ∃ file' ∈ attempts succeeds files, succeeds file' := by
  induction files with
  | nil => cases hfile
  | cons first rest ih =>
      rw [attempts]
      split
      · rename_i hfirst
        exact ⟨first, List.mem_singleton_self _, hfirst⟩
      · rename_i hfirst
        rcases List.mem_cons.mp hfile with rfl | hrest
        · exact absurd hsucceeds hfirst
        · obtain ⟨file', hmem, hfile'⟩ := ih hrest
          exact ⟨file', List.mem_cons_of_mem _ hmem, hfile'⟩

/-- The calls of a child. -/
theorem child_environ {succeeds : List Byte → Bool} {path buf : Block} {line value : List Byte}
    {command : List Byte} {args : List (List Byte)} {environ : List Block} {outcome : Child}
    (hbuf : cstring buf = some line) (hwords : words line = command :: args)
    (hpath : path.length = 100) (henviron : ∀ s ∈ environ, 0 ∈ s)
    (hvalue : pathValue environ = some value)
    (hchild : child succeeds path buf (line ++ [0]) environ = some outcome) :
    outcome.calls.map Execve.file = attempts succeeds (candidates command value) ∧
      ∀ call ∈ outcome.calls, environ.map cstring = call.envp.map some ↔
        slash ∈ command ∨ colon ∉ value := by
  obtain ⟨hline, -⟩ := cstring_eq_some hbuf
  have hsome : (child succeeds path buf (line ++ [0]) environ).isSome := by
    rw [hchild]
    rfl
  obtain ⟨command', args', hwords', hcount, hroom⟩ :=
    (child_isSome_iff hbuf hpath henviron).mp hsome value hvalue
  cases hwords.symm.trans hwords'
  rw [← hpath] at hroom
  obtain ⟨calls, hcalls, hfiles, -⟩ := child_eq succeeds hbuf hwords hcount henviron hvalue hroom
  refine ⟨by rw [Option.some.inj (hchild.symm.trans hcalls), hfiles], ?_⟩
  obtain ⟨⟨k, p⟩, hgetenv, -⟩ := Option.bind_eq_some_iff.mp hvalue
  obtain ⟨value', tail, rfl, hstring, hvalueNul, hvalue'⟩ := getenv_eq_some henviron hgetenv
  cases hvalue.symm.trans hvalue'
  have hsplit := split_line hline
  rw [if_pos (by rw [hwords, List.length_cons]; omega), hwords] at hsplit
  obtain ⟨pointers, rest, block, hsplit, hpointers⟩ := hsplit
  have hcommand : argument block (pointers.map (fun p => some (some p)) ++ some none :: rest) 0 =
      some command := by
    cases hpointers with
    | cons hfirst _ => exact argument_eq hfirst _
  simp only [child, hbuf, hgetenv, hstring, hsplit, hcommand, Option.bind_eq_bind,
    Option.bind_some] at hchild
  split at hchild
  · rename_i hslash
    obtain ⟨call, hcall, hchild⟩ := Option.bind_eq_some_iff.mp hchild
    cases hchild
    rw [List.forall_mem_singleton]
    exact iff_of_true (execve_envp hcall) (.inl hslash)
  · rename_i hslash
    obtain ⟨⟨calls', found⟩, hsearch, hchild⟩ := Option.bind_eq_some_iff.mp hchild
    cases hchild
    intro call hmem
    rw [search_environ (by decide) hvalueNul hstring hsearch call hmem]
    exact (or_iff_right hslash).symm

/-- A program that a command starts is given the environment of the shell string for string
exactly if the command has a slash or `PATH` has one component only. -/
theorem environment_passed_on_iff {succeeds : List Byte → Bool} {path buf buf' : Block}
    {text value command : List Byte} {args : List (List Byte)} {environ : List Block}
    {outcome : Child} (hbuf : cstring buf = some text)
    (hwords : words (chomp text) = command :: args) (hpath : path.length = 100)
    (henviron : ∀ s ∈ environ, 0 ∈ s) (hvalue : pathValue environ = some value)
    (hturn : turn succeeds path environ buf = some (buf', outcome)) :
    (∀ call ∈ outcome.calls, succeeds call.file → environ.mapM cstring = some call.envp) ↔
      slash ∈ command ∨ colon ∉ value ∨ ∀ file ∈ candidates command value, ¬ succeeds file := by
  have htext : text ≠ [] := by
    rintro rfl
    cases hwords
  obtain ⟨buf'', hchop, hbuf'', -⟩ := chop_text hbuf htext
  obtain ⟨outcome', hchild⟩ : ∃ outcome', child succeeds path buf'' (chomp text ++ [0]) environ =
      some outcome' ∧ outcome' = outcome := by
    simp only [turn, hchop, hbuf'', Option.bind_eq_bind, Option.bind_some] at hturn
    obtain ⟨outcome', hchild, hturn⟩ := Option.bind_eq_some_iff.mp hturn
    cases hturn
    exact ⟨outcome, hchild, rfl⟩
  obtain ⟨hchild, rfl⟩ := hchild
  obtain ⟨hfiles, henvp⟩ := child_environ hbuf'' hwords hpath henviron hvalue hchild
  simp only [mapM_cstring_iff]
  constructor
  · intro hall
    by_cases hwhole : slash ∈ command ∨ colon ∉ value
    · exact hwhole.elim .inl fun h => .inr (.inl h)
    · refine .inr (.inr fun file hfile hsucceeds => hwhole ?_)
      obtain ⟨file', hattempt, hsucceeds'⟩ := exists_attempt hfile hsucceeds
      rw [← hfiles] at hattempt
      obtain ⟨call, hcall, rfl⟩ := List.mem_map.mp hattempt
      exact (henvp call hcall).mp (hall call hcall hsucceeds')
  · intro hcondition call hcall hsucceeds
    rcases hcondition with hslash | hcolon | hnone
    · exact (henvp call hcall).mpr (.inl hslash)
    · exact (henvp call hcall).mpr (.inr hcolon)
    · have hattempt : call.file ∈ attempts succeeds (candidates command value) :=
        hfiles ▸ List.mem_map_of_mem hcall
      exact absurd hsucceeds (hnone _ (attempts_subset succeeds _ hattempt))

/-- `ls` with `/b` as the whole of `PATH`. -/
theorem environment_passed_on_ls :
    ∃ (buf' : Block) (outcome : Child),
      turn (· == [47, 98, 47, 108, 115]) (List.replicate 100 0) [PATH ++ [61, 47, 98, 0]]
        [108, 115, 10, 0] = some (buf', outcome) ∧
      ∀ call ∈ outcome.calls, (call.file == [47, 98, 47, 108, 115]) = true →
        [PATH ++ [61, 47, 98, 0]].mapM cstring = some call.envp := by
  have hturn : (turn (· == [47, 98, 47, 108, 115]) (List.replicate 100 0)
      [PATH ++ [61, 47, 98, 0]] [108, 115, 10, 0]).isSome := by decide
  obtain ⟨⟨buf', outcome⟩, hturn⟩ := Option.isSome_iff_exists.mp hturn
  have hiff := @environment_passed_on_iff (· == [47, 98, 47, 108, 115]) (List.replicate 100 0)
    [108, 115, 10, 0] buf' [108, 115, 10] [47, 98] [108, 115] [] [PATH ++ [61, 47, 98, 0]]
    outcome (by decide) (by decide) List.length_replicate (by decide) (by decide) hturn
  exact ⟨buf', outcome, hturn, hiff.mpr (.inr (.inl (by decide)))⟩

/-- `ls`, found in the second of two components: the program has `PATH=/u` where the shell has
`PATH=/u:/b`. -/
theorem path_is_cut :
    (main (· == [47, 98, 47, 108, 115]) (List.replicate 100 0) 2
        { buf := List.replicate MAXLINE 0
          environ := [[72, 61, 97, 0], PATH ++ [61, 47, 117, 58, 47, 98, 0]] }
        [108, 115, 10]).map (·.map fun outcome => (outcome.calls.map Execve.envp, outcome.ended)) =
      some [([[[72, 61, 97], PATH ++ [61, 47, 117]], [[72, 61, 97], PATH ++ [61, 47, 117]]],
        .executed)] ∧
    [[72, 61, 97, 0], PATH ++ [61, 47, 117, 58, 47, 98, 0]].mapM cstring =
      some [[72, 61, 97], PATH ++ [61, 47, 117, 58, 47, 98]] := by
  decide +kernel

end ApueCourse.Shell.Arguments
