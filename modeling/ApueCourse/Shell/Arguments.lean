import ApueCourse.Memory.Strsep
import Mathlib.Data.List.Forall2

/-! `myshell.c` with arguments: one command line from `fgets` to the end of its child. -/

namespace ApueCourse.Shell.Arguments

open Memory

def newline : Byte := 10

def space : Byte := 32

def slash : Byte := 47

def colon : Byte := 58

def MAXLINE : Nat := 4096

def MAX_ARG : Nat := 32

/-- `"PATH"`. -/
def PATH : List Byte := [80, 65, 84, 72]

/-! The read loop. -/

/-- What `fgets` takes when it has room for `n` bytes. -/
def nextLine : Nat → List Byte → List Byte
  | 0, _ => []
  | _ + 1, [] => []
  | n + 1, c :: rest => if c = newline then [c] else c :: nextLine n rest

/-- The buffer and the rest of the input, or `none` at its end. -/
def fgets (buf : Block) (input : List Byte) : Option (Block × List Byte) :=
  if input = [] then none
  else
    let line := nextLine (buf.length - 1) input
    (blit buf 0 (line ++ [0])).map fun buf => (buf, input.drop line.length)

/-- The test and store at `buf[strlen(buf) - 1]`, which is outside `buf` for the empty
string. -/
def chop (buf : Block) : Option Block := do
  let s ← cstring buf
  if s = [] then none
  else
    let c ← buf[s.length - 1]?
    if c = newline then store buf (s.length - 1) 0 else return buf

/-! The child. -/

/-- `argv` in memory: `none` is a slot that has not been set, `some none` the null
pointer. -/
abbrev Slots := List (Option (Option Nat))

def setSlot (argv : Slots) (i : Nat) (pointer : Option Nat) : Option Slots :=
  if i < argv.length then some (argv.set i (some pointer)) else none

/-- The loop that fills `argv`. -/
def split : Nat → Nat → Slots → Option Nat → Block → Option (Slots × Block)
  | 0, _, _, _, _ => none
  | fuel + 1, i, argv, bufptr, line => do
      let (token, bufptr, line) ← strsep space line bufptr
      let argv ← setSlot argv i token
      match token with
      | none => return (argv, line)
      | some p =>
          if i < MAX_ARG then
            let d ← strcmp (line.drop p) [0]
            split fuel (if d ≠ 0 then i + 1 else i) argv bufptr line
          else
            return (argv, line)

/-- A call of `execve` with the strings that its arguments lead to. -/
structure Execve where
  file : List Byte
  argv : List (List Byte)
  envp : List (List Byte)
  deriving DecidableEq

/-- How a child ends: in the new program, in `err_sys` for want of a `PATH`, or behind
`err_ret`, which shows the string. -/
inductive Ended
  | executed
  | noPath
  | execFail (shown : List Byte)
  deriving DecidableEq

def Ended.status : Ended → Option Nat
  | .executed => none
  | .noPath => some 1
  | .execFail _ => some 127

structure Child where
  calls : List Execve
  ended : Ended
  deriving DecidableEq

/-- The strings in front of the null pointer. -/
def strings (line : Block) : Slots → Option (List (List Byte))
  | [] => none
  | none :: _ => none
  | some none :: _ => some []
  | some (some p) :: rest => do
      let s ← cstring (line.drop p)
      let ss ← strings line rest
      return s :: ss

def execve (file : List Byte) (line : Block) (argv : Slots) (environ : List Block) :
    Option Execve := do
  let argv ← strings line argv
  let envp ← environ.mapM cstring
  return { file, argv, envp }

/-- The string of the environment and the offset at which the value of `name` starts. -/
def getenv (name : List Byte) (environ : List Block) : Option (Nat × Nat) :=
  (environ.findIdx? fun string => (name ++ [61]).isPrefixOf string).map
    fun k => (k, name.length + 1)

/-- The string that a slot of `argv` leads to. -/
def argument (line : Block) (argv : Slots) (i : Nat) : Option (List Byte) := do
  let slot ← argv[i]?
  let pointer ← slot
  let p ← pointer
  cstring (line.drop p)

/-- `path` with the name of a command in the directory `component`. -/
def join (path : Block) (component command : List Byte) : Option Block := do
  let path ← strcpy path 0 component
  let path ← strcat path [slash]
  strcat path command

/-- The loop over the components of `PATH`, which are cut in the environment itself.
The result says whether a call has succeeded. -/
def search (succeeds : List Byte → Bool) (line : Block) (argv : Slots) (k : Nat) :
    Nat → List Block → Block → Option Nat → Option (List Execve × Bool)
  | 0, _, _, _ => none
  | fuel + 1, environ, path, pathev => do
      let string ← environ[k]?
      let (pathptr, pathev, string) ← strsep colon string pathev
      let environ := environ.set k string
      match pathptr with
      | none => return ([], false)
      | some p => do
          let component ← cstring (string.drop p)
          let command ← argument line argv 0
          let path ← join path component command
          let file ← cstring path
          let call ← execve file line argv environ
          if succeeds file then
            return ([call], true)
          else
            let (calls, found) ← search succeeds line argv k fuel environ path pathev
            return (call :: calls, found)

/-- The child with its copies of the string at `bufptr` and of the environment; `path`
is what its buffer for file names holds at first.  Every turn of a loop takes at least a
byte, so that a length bounds the number of its turns. -/
def child (succeeds : List Byte → Bool) (path buf bufptr : Block) (environ : List Block) :
    Option Child := do
  let shown ← cstring buf
  match getenv PATH environ with
  | none => return { calls := [], ended := .noPath }
  | some (k, pathev) => do
      let string ← environ[k]?
      let (argv, line) ←
        split (bufptr.length + 1) 0 (List.replicate MAX_ARG none) (some 0) bufptr
      let command ← argument line argv 0
      if slash ∈ command then
        let call ← execve command line argv environ
        let ended := if succeeds command then .executed else .execFail shown
        return { calls := [call], ended }
      else
        let (calls, found) ←
          search succeeds line argv k (string.length + 1) environ path (some pathev)
        return { calls, ended := if found then .executed else .execFail shown }

structure Parent where
  buf : Block
  environ : List Block

/-- The loop of `main`, for at most `fuel` lines.  What a child does to its memory does
not reach that of the shell. -/
def main (succeeds : List Byte → Bool) (path : Block) :
    Nat → Parent → List Byte → Option (List Child)
  | 0, _, _ => none
  | fuel + 1, parent, input =>
      match fgets parent.buf input with
      | none => some []
      | some (buf, input) => do
          let buf ← chop buf
          let string ← cstring buf
          let outcome ← child succeeds path buf (string ++ [0]) parent.environ
          let rest ← main succeeds path fuel { parent with buf } input
          return outcome :: rest

/-! What the shell is to do with a line. -/

def words (line : List Byte) : List (List Byte) := (line.splitOn space).filter (· ≠ [])

/-- The value of `PATH`. -/
def pathValue (environ : List Block) : Option (List Byte) := do
  let (k, p) ← getenv PATH environ
  let string ← environ[k]?
  cstring (string.drop p)

/-- The files that a command may be. -/
def candidates (command value : List Byte) : List (List Byte) :=
  if slash ∈ command then [command]
  else (value.splitOn colon).map (· ++ [slash] ++ command)

/-- The files up to the first that can be executed. -/
def attempts (succeeds : List Byte → Bool) : List (List Byte) → List (List Byte)
  | [] => []
  | file :: rest => if succeeds file then [file] else file :: attempts succeeds rest

theorem attempts_subset (succeeds : List Byte → Bool) (files : List (List Byte)) :
    attempts succeeds files ⊆ files := by
  induction files with
  | nil => exact List.Subset.refl []
  | cons file rest ih =>
      rw [attempts]
      split
      · exact List.cons_subset_cons file (List.nil_subset rest)
      · exact List.cons_subset_cons file ih

theorem mem_attempts_cons (succeeds : List Byte → Bool) (file : List Byte)
    (rest : List (List Byte)) : file ∈ attempts succeeds (file :: rest) := by
  rw [attempts]
  split
  · exact List.mem_singleton_self _
  · exact List.mem_cons_self

theorem words_last {token : List Byte} (htoken : space ∉ token) :
    words token = if token = [] then [] else [token] := by
  rw [words, List.splitOn_eq_singleton htoken]
  split <;> simp_all

theorem words_cut {token : List Byte} (htoken : space ∉ token) (rest : List Byte) :
    words (token ++ space :: rest) =
      if token = [] then words rest else token :: words rest := by
  rw [words, List.splitOn_append_cons_self_of_not_mem htoken]
  split <;> simp_all [words]

/-! The loops. -/

theorem strcmp_nil_iff {block : Block} {p : Nat} {token : List Byte}
    (htoken : StringAt block p token) :
    ∃ d, strcmp (block.drop p) [0] = some d ∧ (d = 0 ↔ token = []) := by
  obtain ⟨front, rest, rfl, rfl, hnul⟩ := htoken
  rw [List.append_assoc, List.drop_left]
  exact strcmp_strings_iff hnul List.not_mem_nil rest []

theorem split_step (fuel : Nat) {i p : Nat} {argv : Slots} {bufptr bufptr' : Option Nat}
    {line line' : Block} {token : List Byte}
    (hsep : strsep space line bufptr = some (some p, bufptr', line'))
    (hi : i < argv.length) (hmax : i < MAX_ARG) (htoken : StringAt line' p token) :
    split (fuel + 1) i argv bufptr line =
      split fuel (if token = [] then i else i + 1) (argv.set i (some (some p))) bufptr'
        line' := by
  obtain ⟨d, hd, hiff⟩ := strcmp_nil_iff htoken
  simp only [split, hsep, setSlot, if_pos hi, if_pos hmax, hd, Option.bind_eq_bind,
    Option.bind_some]
  by_cases hnil : token = []
  · rw [if_pos hnil, if_neg (not_not.mpr (hiff.mpr hnil))]
  · rw [if_neg hnil, if_pos (fun h => hnil (hiff.mp h))]

theorem split_end {fuel i : Nat} {argv : Slots} {line : Block} (hi : i < argv.length) :
    split (fuel + 1) i argv none line = some (argv.set i (some none), line) := by
  simp [split, strsep, setSlot, hi]

theorem take_succ_set {argv : Slots} {i : Nat} (hi : i < argv.length)
    (slot : Option (Option Nat)) : (argv.set i slot).take (i + 1) = argv.take i ++ [slot] := by
  have hlength : (argv.take i).length = i := List.length_take_of_le hi.le
  rw [List.set_eq_take_append_cons_drop, if_pos hi, List.take_append, hlength,
    Nat.add_sub_cancel_left, List.take_of_length_le (by omega)]
  rfl

/-- From `bufptr` on the line is `s`.  The slots from `i` on get its words, and behind
them the null pointer. -/
theorem split_eq {fuel i : Nat} {argv : Slots} {front tail : Block} {s : List Byte}
    (hnul : 0 ∉ s) (hfuel : s.length + 1 < fuel) (hlength : argv.length = MAX_ARG)
    (hcount : i + (words s).length < MAX_ARG) :
    ∃ pointers s' rest, split fuel i argv (some front.length) (front ++ s ++ 0 :: tail) =
        some (argv.take i ++ pointers.map (fun p => some (some p)) ++ some none :: rest,
          front ++ s' ++ 0 :: tail) ∧
      List.Forall₂ (StringAt (front ++ s' ++ 0 :: tail)) pointers (words s) := by
  induction s using token_induction space generalizing fuel i argv front with
  | last token hdelim =>
      obtain ⟨fuel, rfl⟩ : ∃ n, fuel = n + 1 + 1 := ⟨fuel - 2, by omega⟩
      have htoken : StringAt (front ++ token ++ 0 :: tail) front.length token :=
        ⟨front, tail, rfl, rfl, hnul⟩
      have hstep := split_step (fuel + 1) (strsep_last hnul hdelim front tail)
        (by omega : i < argv.length) (by omega) htoken
      rw [words_last hdelim] at hcount ⊢
      split at hstep
      · rename_i hnil
        refine ⟨[], token, argv.drop (i + 1), ?_, ?_⟩
        · rw [hstep, split_end (by rw [List.length_set]; omega), List.set_set,
            List.set_eq_take_append_cons_drop, if_pos (by omega)]
          simp
        · rw [if_pos hnil]
          exact .nil
      · rename_i hnil
        rw [if_neg hnil] at hcount ⊢
        rw [List.length_singleton] at hcount
        have hi : i + 1 < (argv.set i (some (some front.length))).length := by
          rw [List.length_set]
          omega
        refine ⟨[front.length], token, (argv.set i (some (some front.length))).drop (i + 2),
          ?_, .cons htoken .nil⟩
        rw [hstep, split_end hi, List.set_eq_take_append_cons_drop, if_pos hi,
          take_succ_set (by omega)]
        rfl
  | cut token s hdelim ih =>
      obtain ⟨fuel, rfl⟩ : ∃ n, fuel = n + 1 := ⟨fuel - 1, by omega⟩
      have htokenNul : 0 ∉ token := fun h => hnul (List.mem_append_left _ h)
      have hrestNul : 0 ∉ s := fun h =>
        hnul (List.mem_append_right _ (List.mem_cons_of_mem _ h))
      have hcut := strsep_delim htokenNul hdelim (by decide) front (s ++ 0 :: tail)
      have htoken : ∀ s', StringAt (front ++ token ++ [0] ++ s') front.length token := by
        intro s'
        exact ⟨front, s', by simp, rfl, htokenNul⟩
      have hstep := split_step fuel hcut (by omega : i < argv.length) (by omega)
        (htoken _)
      rw [List.length_append, List.length_cons] at hfuel
      have hwhole : front ++ (token ++ space :: s) ++ 0 :: tail =
          front ++ token ++ space :: (s ++ 0 :: tail) := by simp
      rw [words_cut hdelim] at hcount ⊢
      rw [hwhole, hstep, ← List.append_assoc (front ++ token ++ [0])]
      split
      · rename_i hnil
        rw [if_pos hnil] at hcount
        obtain ⟨pointers, s', rest, hsplit, hwords⟩ := @ih fuel i
          (argv.set i (some (some front.length))) (front ++ token ++ [0]) hrestNul
          (by omega) (by rwa [List.length_set]) hcount
        refine ⟨pointers, token ++ [0] ++ s', rest, ?_, ?_⟩
        · rw [hsplit, List.take_set_of_le (Nat.le_refl i)]
          simp
        · simpa using hwords
      · rename_i hnil
        rw [if_neg hnil] at hcount
        rw [List.length_cons] at hcount
        obtain ⟨pointers, s', rest, hsplit, hwords⟩ := @ih fuel (i + 1)
          (argv.set i (some (some front.length))) (front ++ token ++ [0]) hrestNul
          (by omega) (by rwa [List.length_set]) (by omega)
        refine ⟨front.length :: pointers, token ++ [0] ++ s', rest, ?_, ?_⟩
        · rw [hsplit, take_succ_set (by omega)]
          simp
        · have htoken' := htoken (s' ++ 0 :: tail)
          refine .cons ?_ ?_
          · simpa using htoken'
          · simpa using hwords

theorem strings_eq {line : Block} {pointers : List Nat} {args : List (List Byte)}
    (hargs : List.Forall₂ (StringAt line) pointers args) (rest : Slots) :
    strings line (pointers.map (fun p => some (some p)) ++ some none :: rest) =
      some args := by
  induction hargs with
  | nil => rfl
  | cons harg _ ih =>
      simp only [List.map_cons, List.cons_append, strings, harg.cstring, ih,
        Option.bind_eq_bind, Option.bind_some]
      rfl

theorem argument_eq {line : Block} {p : Nat} {arg : List Byte} (harg : StringAt line p arg)
    (rest : Slots) : argument line (some (some p) :: rest) 0 = some arg := by
  simp [argument, harg.cstring]

theorem execve_eq {line : Block} {argv : Slots} {args : List (List Byte)}
    {environ : List Block} (hargs : strings line argv = some args)
    (henviron : ∀ string ∈ environ, 0 ∈ string) (file : List Byte) :
    ∃ call, execve file line argv environ = some call ∧ call.file = file ∧
      call.argv = args := by
  obtain ⟨envp, henvp⟩ : ∃ envp, environ.mapM cstring = some envp := by
    induction environ with
    | nil => exact ⟨[], rfl⟩
    | cons string environ ih =>
        obtain ⟨envp, henvp⟩ := ih fun s hs => henviron s (List.mem_cons_of_mem _ hs)
        have hstring := cstring_eq_some_iff.mpr ⟨henviron string List.mem_cons_self, rfl⟩
        refine ⟨string.takeWhile (· ≠ 0) :: envp, ?_⟩
        rw [List.mapM_cons, hstring, henvp]
        rfl
  refine ⟨{ file, argv := args, envp }, ?_, rfl, rfl⟩
  rw [execve, hargs, henvp]
  rfl

theorem join_eq {path : Block} {component command : List Byte} (hcomponent : 0 ∉ component)
    (hfits : (component ++ [slash] ++ command).length < path.length) :
    ∃ rest, join path component command =
        some (component ++ [slash] ++ command ++ 0 :: rest) ∧
      (component ++ [slash] ++ command ++ 0 :: rest).length = path.length := by
  simp only [List.length_append, List.length_singleton] at hfits
  have hcopy : strcpy path 0 component =
      some (component ++ 0 :: path.drop (component.length + 1)) := by
    have hroom : ([] : Block).length + (component ++ [0]).length ≤ path.length := by
      simp only [List.length_append, List.length_singleton, List.length_nil]
      omega
    simpa [strcpy] using blit_append rfl hroom
  have hslash : 0 ∉ component ++ [slash] := by
    rw [List.mem_append, not_or]
    exact ⟨hcomponent, by decide⟩
  refine ⟨((path.drop (component.length + 1)).drop 1).drop command.length, ?_, ?_⟩
  · rw [join, hcopy, Option.bind_eq_bind, Option.bind_some,
      (strcat_eq_some_iff hcomponent).mpr ⟨?_, rfl⟩, Option.bind_some,
      (strcat_eq_some_iff hslash).mpr ⟨?_, rfl⟩]
    · rfl
    · simp only [List.length_append, List.length_cons, List.length_drop, List.length_nil]
      omega
    · simp only [List.length_append, List.length_cons, List.length_drop, List.length_nil]
      omega
  · simp only [List.length_append, List.length_cons, List.length_drop, List.length_nil]
    omega

/-- The calls go through the files in order up to the first that succeeds. -/
def Tries (succeeds : List Byte → Bool) (args : List (List Byte)) (files : List (List Byte))
    (result : Option (List Execve × Bool)) : Prop :=
  ∃ calls, result = some (calls, files.any succeeds) ∧
    calls.map Execve.file = attempts succeeds files ∧ ∀ call ∈ calls, call.argv = args

theorem Tries.cons {succeeds : List Byte → Bool} {args : List (List Byte)} {call : Execve}
    {files : List (List Byte)} {result : Option (List Execve × Bool)}
    (hargv : call.argv = args)
    (hresult : ¬ succeeds call.file → Tries succeeds args files result) :
    Tries succeeds args (call.file :: files)
      (if succeeds call.file then some ([call], true)
        else result.map fun (calls, found) => (call :: calls, found)) := by
  unfold Tries
  rw [attempts, List.any_cons]
  split
  · rename_i hcall
    rw [hcall]
    exact ⟨[call], rfl, rfl, fun c hc => List.mem_singleton.mp hc ▸ hargv⟩
  · rename_i hcall
    obtain ⟨calls, rfl, hfiles, hargs⟩ := hresult hcall
    rw [(Bool.not_eq_true _).mp hcall]
    refine ⟨call :: calls, rfl, by rw [List.map_cons, hfiles], ?_⟩
    intro c hc
    rcases List.mem_cons.mp hc with rfl | hc
    · exact hargv
    · exact hargs c hc

theorem search_end {succeeds : List Byte → Bool} {line : Block} {argv : Slots}
    {k fuel : Nat} {environ : List Block} {path string : Block}
    (hstring : environ[k]? = some string) :
    search succeeds line argv k (fuel + 1) environ path none = some ([], false) := by
  simp [search, hstring, strsep]

/-- One turn of the loop over `PATH`. -/
theorem search_step (succeeds : List Byte → Bool) (fuel : Nat) {line : Block} {argv : Slots}
    {args : List (List Byte)} {command component : List Byte} {k p : Nat}
    {environ : List Block} {path string string' : Block} {pathev pathev' : Option Nat}
    (hargs : strings line argv = some args) (hcommand : argument line argv 0 = some command)
    (hcommandNul : 0 ∉ command) (hstring : environ[k]? = some string)
    (hsep : strsep colon string pathev = some (some p, pathev', string'))
    (hcomponent : StringAt string' p component) (henviron : ∀ s ∈ environ, 0 ∈ s)
    (hfits : (component ++ [slash] ++ command).length < path.length) :
    ∃ call path', call.file = component ++ [slash] ++ command ∧ call.argv = args ∧
      path'.length = path.length ∧
      search succeeds line argv k (fuel + 1) environ path pathev =
        if succeeds (component ++ [slash] ++ command) then some ([call], true)
        else (search succeeds line argv k fuel (environ.set k string') path' pathev').map
          fun (calls, found) => (call :: calls, found) := by
  obtain ⟨front, tail, rfl, rfl, hcomponentNul⟩ := hcomponent
  obtain ⟨rest, hjoin, hlength⟩ := join_eq hcomponentNul hfits
  have henviron' : ∀ s ∈ environ.set k (front ++ component ++ 0 :: tail), 0 ∈ s := by
    intro s hs
    rcases List.mem_or_eq_of_mem_set hs with hs | rfl
    · exact henviron s hs
    · simp
  obtain ⟨call, hcall, hfile, hargv⟩ :=
    execve_eq hargs henviron' (component ++ [slash] ++ command)
  have hname : cstring (component ++ [slash] ++ command ++ 0 :: rest) =
      some (component ++ [slash] ++ command) := by
    apply cstring_append
    simp only [List.mem_append, not_or]
    exact ⟨⟨hcomponentNul, by decide⟩, hcommandNul⟩
  have htoken : cstring ((front ++ component ++ 0 :: tail).drop front.length) =
      some component := by
    rw [List.append_assoc, List.drop_left, cstring_append hcomponentNul]
  refine ⟨call, _, hfile, hargv, hlength, ?_⟩
  simp only [search, hstring, hsep, htoken, hcommand, hjoin, hname, hcall,
    Option.bind_eq_bind, Option.bind_some]
  split
  · rfl
  · rw [Option.map_eq_bind]
    rfl

/-- From `pathev` on the value of `PATH` is `value`. -/
theorem search_eq {succeeds : List Byte → Bool} {line : Block} {argv : Slots}
    {args : List (List Byte)} {command value : List Byte} {k fuel : Nat}
    {environ : List Block} {path front tail : Block}
    (hargs : strings line argv = some args) (hcommand : argument line argv 0 = some command)
    (hcommandNul : 0 ∉ command) (hvalue : 0 ∉ value)
    (hstring : environ[k]? = some (front ++ value ++ 0 :: tail))
    (henviron : ∀ s ∈ environ, 0 ∈ s) (hfuel : value.length + 1 < fuel)
    (hfits : ∀ file ∈ attempts succeeds ((value.splitOn colon).map (· ++ [slash] ++ command)),
      file.length < path.length) :
    Tries succeeds args ((value.splitOn colon).map (· ++ [slash] ++ command))
      (search succeeds line argv k fuel environ path (some front.length)) := by
  induction value using token_induction colon generalizing fuel environ path front with
  | last token hdelim =>
      obtain ⟨fuel, rfl⟩ : ∃ n, fuel = n + 1 + 1 := ⟨fuel - 2, by omega⟩
      rw [List.splitOn_eq_singleton hdelim] at hfits ⊢
      have htoken : StringAt (front ++ token ++ 0 :: tail) front.length token :=
        ⟨front, tail, rfl, rfl, hvalue⟩
      obtain ⟨call, path', hfile, hargv, -, hstep⟩ :=
        search_step succeeds (fuel + 1) hargs hcommand hcommandNul hstring
          (strsep_last hvalue hdelim front tail) htoken henviron
          (hfits _ (mem_attempts_cons succeeds _ []))
      have hk : k < environ.length := (List.getElem?_eq_some_iff.mp hstring).1
      rw [hstep, search_end (List.getElem?_set_self hk), List.map_singleton, ← hfile]
      exact Tries.cons hargv fun _ => ⟨[], rfl, rfl, nofun⟩
  | cut token value hdelim ih =>
      obtain ⟨fuel, rfl⟩ : ∃ n, fuel = n + 1 := ⟨fuel - 1, by omega⟩
      rw [List.length_append, List.length_cons] at hfuel
      rw [List.splitOn_append_cons_self_of_not_mem hdelim] at hfits ⊢
      rw [List.map_cons] at hfits
      have htokenNul : 0 ∉ token := fun h => hvalue (List.mem_append_left _ h)
      have hrestNul : 0 ∉ value := fun h =>
        hvalue (List.mem_append_right _ (List.mem_cons_of_mem _ h))
      have hwhole : front ++ (token ++ colon :: value) ++ 0 :: tail =
          front ++ token ++ colon :: (value ++ 0 :: tail) := by simp
      rw [hwhole] at hstring
      have htoken : StringAt (front ++ token ++ [0] ++ (value ++ 0 :: tail)) front.length
          token := ⟨front, value ++ 0 :: tail, by simp, rfl, htokenNul⟩
      obtain ⟨call, path', hfile, hargv, hlength, hstep⟩ :=
        search_step succeeds fuel hargs hcommand hcommandNul hstring
          (strsep_delim htokenNul hdelim (by decide) front (value ++ 0 :: tail)) htoken
          henviron (hfits _ (mem_attempts_cons succeeds _ _))
      have hk : k < environ.length := (List.getElem?_eq_some_iff.mp hstring).1
      rw [hstep, List.map_cons, ← hfile]
      refine Tries.cons hargv fun hfails => ih hrestNul ?_ ?_ (by omega) ?_
      · rw [List.getElem?_set_self hk]
        simp
      · intro s hs
        rcases List.mem_or_eq_of_mem_set hs with hs | rfl
        · exact henviron s hs
        · simp
      · intro file hrest
        rw [hlength]
        apply hfits
        rw [attempts, if_neg (hfile ▸ hfails)]
        exact List.mem_cons_of_mem _ hrest

/-! A line. -/

theorem mem_of_mem_words {line word : List Byte} (hword : word ∈ words line) {c : Byte}
    (hc : c ∈ word) : c ∈ line := by
  induction line using token_induction space with
  | last token hdelim =>
      rw [words_last hdelim] at hword
      split at hword
      · cases hword
      · rwa [List.mem_singleton.mp hword] at hc
  | cut token rest hdelim ih =>
      rw [words_cut hdelim] at hword
      split at hword
      · exact List.mem_append_right _ (List.mem_cons_of_mem _ (ih hword))
      · rcases List.mem_cons.mp hword with rfl | hword
        · exact List.mem_append_left _ hc
        · exact List.mem_append_right _ (List.mem_cons_of_mem _ (ih hword))

theorem pathValue_eq_some {environ : List Block} {value : List Byte}
    (hvalue : pathValue environ = some value) :
    ∃ k front tail, getenv PATH environ = some (k, front.length) ∧
      environ[k]? = some (front ++ value ++ 0 :: tail) ∧ 0 ∉ value := by
  obtain ⟨⟨k, p⟩, hgetenv, hvalue⟩ := Option.bind_eq_some_iff.mp hvalue
  obtain ⟨string, hstring, hvalue⟩ := Option.bind_eq_some_iff.mp hvalue
  obtain ⟨hnul, tail, hdrop⟩ := cstring_eq_some hvalue
  have hp : p ≤ string.length := by
    by_contra hlt
    rw [List.drop_eq_nil_of_le (by omega)] at hdrop
    simp at hdrop
  refine ⟨k, string.take p, tail, ?_, ?_, hnul⟩
  · rw [List.length_take_of_le hp]
    exact hgetenv
  · rw [List.append_assoc, ← hdrop, List.take_append_drop]
    exact hstring

theorem child_eq (succeeds : List Byte → Bool) {path buf : Block} {line value : List Byte}
    {command : List Byte} {args : List (List Byte)} {environ : List Block}
    (hbuf : cstring buf = some line) (hwords : words line = command :: args)
    (hcount : args.length < MAX_ARG - 1) (henviron : ∀ s ∈ environ, 0 ∈ s)
    (hvalue : pathValue environ = some value)
    (hfits : slash ∉ command →
      ∀ file ∈ attempts succeeds (candidates command value), file.length < path.length) :
    ∃ calls, child succeeds path buf (line ++ [0]) environ =
        some { calls, ended := if (candidates command value).any succeeds then .executed
          else .execFail line } ∧
      calls.map Execve.file = attempts succeeds (candidates command value) ∧
        ∀ call ∈ calls, call.argv = command :: args := by
  obtain ⟨hline, -⟩ := cstring_eq_some hbuf
  obtain ⟨k, front, tail, hgetenv, hstring, hvalueNul⟩ := pathValue_eq_some hvalue
  obtain ⟨pointers, s', rest, hsplit, hpointers⟩ :=
    @split_eq ((line ++ [0]).length + 1) 0 (List.replicate MAX_ARG none) [] [] line hline
      (by simp) List.length_replicate (by rw [hwords, List.length_cons]; omega)
  rw [hwords] at hpointers
  replace hsplit : split ((line ++ [0]).length + 1) 0 (List.replicate MAX_ARG none) (some 0)
      (line ++ [0]) = some (pointers.map (fun p => some (some p)) ++ some none :: rest,
        [] ++ s' ++ [0]) := hsplit
  have hargs := strings_eq hpointers rest
  have hcommand : argument ([] ++ s' ++ [0])
      (pointers.map (fun p => some (some p)) ++ some none :: rest) 0 = some command := by
    cases hpointers with
    | cons hfirst _ => exact argument_eq hfirst _
  have hcommandNul : 0 ∉ command := by
    intro hmem
    exact hline (mem_of_mem_words (hwords ▸ List.mem_cons_self) hmem)
  simp only [child, hbuf, hgetenv, hstring, hsplit, hcommand, Option.bind_eq_bind,
    Option.bind_some]
  by_cases hslash : slash ∈ command
  · obtain ⟨call, hcall, hfile, hargv⟩ := execve_eq hargs henviron command
    rw [if_pos hslash, hcall, candidates, if_pos hslash]
    refine ⟨[call], ?_, ?_, ?_⟩
    · simp [List.any_cons]
    · simp [attempts, hfile]
    · intro c hc
      rw [List.mem_singleton.mp hc, hargv]
  · have hcandidates : candidates command value =
        (value.splitOn colon).map (· ++ [slash] ++ command) := if_neg hslash
    rw [hcandidates] at hfits ⊢
    obtain ⟨calls, hcalls, hfiles, hargv⟩ :=
      @search_eq succeeds _ _ _ command value k ((front ++ value ++ 0 :: tail).length + 1)
        environ path front tail hargs hcommand hcommandNul hvalueNul hstring henviron
        (by simp; omega) (hfits hslash)
    rw [if_neg hslash, hcalls]
    exact ⟨calls, rfl, hfiles, hargv⟩

theorem chop_concat {front : List Byte} {last : Byte} (hnul : 0 ∉ front ++ [last])
    (rest : Block) :
    chop (front ++ last :: 0 :: rest) =
      some (if last = newline then front ++ 0 :: 0 :: rest
        else front ++ last :: 0 :: rest) := by
  have hstring : cstring (front ++ last :: 0 :: rest) = some (front ++ [last]) := by
    simpa using cstring_append hnul rest
  have hlength : (front ++ [last]).length - 1 = front.length := by simp
  have hget : (front ++ last :: 0 :: rest)[front.length]? = some last := by
    rw [List.getElem?_append_right (Nat.le_refl _), Nat.sub_self, List.getElem?_cons_zero]
  simp only [chop, hstring, hlength, hget, List.concat_ne_nil, store_append,
    Option.bind_eq_bind, Option.bind_some, if_false]
  split <;> rfl

theorem chop_eq {buf : Block} {line ending : List Byte}
    (hbuf : cstring buf = some (line ++ ending)) (hline : line ≠ [])
    (hnewline : newline ∉ line) (hending : ending = [] ∨ ending = [newline]) :
    ∃ buf', chop buf = some buf' ∧ cstring buf' = some line ∧
      buf'.length = buf.length := by
  obtain ⟨hnul, rest, rfl⟩ := cstring_eq_some hbuf
  rcases hending with rfl | rfl
  · rw [List.append_nil] at hbuf hnul
    rcases List.eq_nil_or_concat' line with rfl | ⟨front, last, rfl⟩
    · exact absurd rfl hline
    · have hlast : last ≠ newline := by
        rintro rfl
        exact hnewline (List.mem_append_right _ (List.mem_singleton_self _))
      have hchop := chop_concat hnul rest
      rw [if_neg hlast] at hchop
      refine ⟨front ++ last :: 0 :: rest, ?_, ?_, ?_⟩
      · simpa using hchop
      · simpa using cstring_append hnul rest
      · simp
  · have hlineNul : 0 ∉ line := fun h => hnul (List.mem_append_left _ h)
    have hchop := chop_concat hnul rest
    rw [if_pos rfl] at hchop
    refine ⟨line ++ 0 :: 0 :: rest, ?_, cstring_append hlineNul _, ?_⟩
    · simpa using hchop
    · simp

end ApueCourse.Shell.Arguments
