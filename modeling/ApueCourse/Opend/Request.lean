import ApueCourse.Memory.Decimal
import ApueCourse.Memory.Strtok

/-! What the open server of `opend.fe` makes of a request, and what `csopen` asks it for. -/

namespace ApueCourse.Opend

open Memory

def MAXLINE : Nat := 4096

/-- Slots of `argv`. -/
def MAXARGC : Nat := 50

/-- `" \t\n"`. -/
def WHITE : List Byte := [32, 9, 10]

/-- `"open"`. -/
def CL_OPEN : List Byte := [111, 112, 101, 110]

/-- `"usage: <pathname> <oflag>\n"`. -/
def usage : List Byte :=
  [117, 115, 97, 103, 101, 58, 32, 60, 112, 97, 116, 104, 110, 97, 109, 101, 62, 32, 60, 111,
    102, 108, 97, 103, 62, 10]

/-- `"can't open %s: %s\n"`. -/
def cantOpen (pathname error : List Byte) : List Byte :=
  [99, 97, 110, 39, 116, 32, 111, 112, 101, 110, 32] ++ pathname ++ [58, 32] ++ error ++ [10]

/-- `"request not null terminated: %*.*s\n"` with `nread` for width and precision. -/
def notTerminated (buf : Block) (nread : Nat) : List Byte :=
  let s := (buf.take nread).takeWhile (· ≠ 0)
  [114, 101, 113, 117, 101, 115, 116, 32, 110, 111, 116, 32, 110, 117, 108, 108, 32, 116, 101,
    114, 109, 105, 110, 97, 116, 101, 100, 58, 32] ++
    List.replicate (nread - s.length) 32 ++ s ++ [10]

/-- `strtol` cut to an `int`. -/
def atoi (block : Block) : Option Int := (atol block).map fun n => Int.bmod n (2 ^ 32)

/-- The loop of `buf_args`: `room` more slots can be filled, in front of the last one. -/
def argLoop : Nat → List Nat → Nat → Block → Option (Option (List Nat) × Block)
  | 0, argv, save, buf => do
      let (ptr, _, buf) ← strtok WHITE buf save
      return (if ptr = none then some argv else none, buf)
  | room + 1, argv, save, buf => do
      let (ptr, save, buf) ← strtok WHITE buf save
      match ptr with
      | none => return (some argv, buf)
      | some ptr => argLoop room (argv ++ [ptr]) save buf

/-- `none` within is the result -1 of `buf_args` itself. -/
def buf_args {α : Type} (optfunc : Block → List Nat → Option α) (buf : Block) :
    Option (Option α) := do
  let (ptr, save, buf) ← strtok WHITE buf 0
  if ptr = none then
    return none
  else
    let (argv, buf) ← argLoop (MAXARGC - 2) [0] save buf
    match argv with
    | none => return none
    | some argv => (optfunc buf argv).map some

/-- The path and the flags to open, or the message. -/
def cli_args (buf : Block) : List Nat → Option (Except (List Byte) (List Byte × Int))
  | [arg0, arg1, arg2] => do
      let d ← strcmp (buf.drop arg0) (CL_OPEN ++ [0])
      if d ≠ 0 then
        return .error usage
      else
        let pathname ← cstring (buf.drop arg1)
        let oflag ← atoi (buf.drop arg2)
        return .ok (pathname, oflag)
  | _ => some (.error usage)

/-- The bytes of `send_fd`, each with the descriptor that comes with it. -/
def send_fd (fd : Int) : List (Byte × Option Nat) :=
  if fd < 0 then
    let status : Byte := UInt8.ofInt (-fd)
    [(0, none), (if status = 0 then 1 else status, none)]
  else [(0, some fd.toNat), (0, none)]

/-- What `open` returns: a descriptor, or the text of the error. -/
abbrev Opened := Except (List Byte) Nat

/-- The error message that the server keeps, with what it writes of it, and what it hands to
`send_fd` in the end. -/
structure Reply where
  errmsg : List Byte
  text : List Byte
  fd : Int

/-- `send_err` with the message. -/
def send_err (errcode : Int) (msg : List Byte) : Reply :=
  ⟨msg, msg, if 0 ≤ errcode then -1 else errcode⟩

/-- `sprintf` into `errmsg`, and `send_err`. -/
def sendErrmsg (msg : List Byte) : Option Reply :=
  if msg.length < MAXLINE then some (send_err (-1) msg) else none

/-- `open` is called with a path and flags only where the request asks for it. -/
def request (openFile : List Byte → Int → Opened) (errmsg : List Byte) (buf : Block)
    (nread : Nat) : Option Reply := do
  let last ← buf[nread - 1]?
  if last ≠ 0 then
    sendErrmsg (notTerminated buf nread)
  else
    match ← buf_args cli_args buf with
    | none => return send_err (-1) errmsg
    | some (.error msg) => return send_err (-1) msg
    | some (.ok (pathname, oflag)) =>
        match openFile pathname oflag with
        | .error error => sendErrmsg (cantOpen pathname error)
        | .ok newfd => return ⟨errmsg, [], newfd⟩

/-- What `csopen` writes; `none` is a flag that is too long for its buffer of ten bytes. -/
def csopenRequest (name : List Byte) (oflag : Int) : Option (List Byte) :=
  if (sprintfLong oflag).length + 2 ≤ 10 then
    some (CL_OPEN ++ [32] ++ name ++ [32] ++ sprintfLong oflag ++ [0])
  else none

/-! What a request is to do. -/

/-- The words behind the first one, if that is the command. -/
def asked (first : List Byte) :
    List (List Byte) → Option (Except (List Byte) (List Byte × Int))
  | [pathname, flag] =>
      if first = CL_OPEN then (atoi (flag ++ [0])).map fun oflag => .ok (pathname, oflag)
      else some (.error usage)
  | _ => some (.error usage)

def opens (openFile : List Byte → Int → Opened) (errmsg : List Byte) :
    Except (List Byte) (List Byte × Int) → Option Reply
  | .error msg => some (send_err (-1) msg)
  | .ok (pathname, oflag) =>
      match openFile pathname oflag with
      | .error error => sendErrmsg (cantOpen pathname error)
      | .ok newfd => some ⟨errmsg, [], newfd⟩

/-- The reply to the request `s`. -/
def answer (openFile : List Byte → Int → Opened) (errmsg s : List Byte) : Option Reply :=
  match tokens WHITE s with
  | [] => some (send_err (-1) errmsg)
  | _ :: args =>
      if args.length < MAXARGC - 1 then
        (asked (s.takeWhile (· ∉ WHITE)) args).bind (opens openFile errmsg)
      else some (send_err (-1) errmsg)

/-! The arguments of a request. -/

theorem nul_not_mem_white : (0 : Byte) ∉ WHITE := by decide

theorem argLoop_none {room : Nat} {argv : List Nat} {save save' : Nat} {buf buf' : Block}
    (htok : strtok WHITE buf save = some (none, save', buf')) :
    argLoop room argv save buf = some (some argv, buf') := by
  cases room with
  | zero => simp [argLoop, htok]
  | succ room => simp [argLoop, htok]

theorem argLoop_full {argv : List Nat} {save save' ptr : Nat} {buf buf' : Block}
    (htok : strtok WHITE buf save = some (some ptr, save', buf')) :
    argLoop 0 argv save buf = some (none, buf') := by
  simp [argLoop, htok]

theorem argLoop_succ {room : Nat} {argv : List Nat} {save save' ptr : Nat} {buf buf' : Block}
    (htok : strtok WHITE buf save = some (some ptr, save', buf')) :
    argLoop (room + 1) argv save buf = argLoop room (argv ++ [ptr]) save' buf' := by
  simp [argLoop, htok]

/-- From `save` on the buffer is `s`. The words of `s` are cut out of it, up to one more than
there is room for. -/
theorem argLoop_eq {room : Nat} {argv : List Nat} {s : List Byte} (hnul : 0 ∉ s)
    (front tail : Block) : ∃ pointers s', s'.length = s.length ∧
      argLoop room argv front.length (front ++ s ++ 0 :: tail) =
        some (if (tokens WHITE s).length ≤ room then some (argv ++ pointers) else none,
          front ++ s' ++ 0 :: tail) ∧
      ((tokens WHITE s).length ≤ room →
        List.Forall₂ (StringAt (front ++ s' ++ 0 :: tail)) pointers (tokens WHITE s)) := by
  induction s using tokens_induction WHITE generalizing room argv front with
  | blank gap hgap =>
      have htok := strtok_blank nul_not_mem_white hgap front tail
      refine ⟨[], gap, rfl, ?_, fun _ => ?_⟩
      · have hle : ([] : List (List Byte)).length ≤ room := Nat.zero_le _
        rw [argLoop_none htok, tokens_blank hgap, if_pos hle, List.append_nil]
      · rw [tokens_blank hgap]
        exact .nil
  | last gap token hgap hne htoken =>
      have hnul' : 0 ∉ token := fun h => hnul (List.mem_append_right _ h)
      have htok := strtok_last hgap hne hnul' htoken front tail
      have hend := strtok_end nul_not_mem_white (front ++ gap ++ token) tail
      have htokens : tokens WHITE (gap ++ token) = [token] := by
        rw [tokens_gap hgap, tokens_token hne htoken]
      rw [htokens, ← List.append_assoc front]
      cases room with
      | zero =>
          have hlt : ¬ [token].length ≤ 0 := Nat.not_succ_le_zero 0
          refine ⟨[], gap ++ token, rfl, ?_, fun h => absurd h hlt⟩
          rw [argLoop_full htok, if_neg hlt, ← List.append_assoc front]
      | succ room =>
          have hle : [token].length ≤ room + 1 := Nat.succ_le_succ (Nat.zero_le room)
          refine ⟨[(front ++ gap).length], gap ++ token, rfl, ?_, fun _ => ?_⟩
          · rw [argLoop_succ htok, argLoop_none hend, if_pos hle, ← List.append_assoc front]
          · rw [← List.append_assoc front]
            exact .cons ⟨front ++ gap, tail, rfl, rfl, hnul'⟩ .nil
  | cut gap token d s hgap hne htoken hd ih =>
      have hnul' : 0 ∉ token := fun h =>
        hnul (List.mem_append_left _ (List.mem_append_right _ h))
      have hnul'' : 0 ∉ s := fun h =>
        hnul (List.mem_append_right _ (List.mem_cons_of_mem _ h))
      have htok := strtok_cut nul_not_mem_white hgap hne hnul' htoken hd front (s ++ 0 :: tail)
      have htokens : tokens WHITE (gap ++ token ++ d :: s) = token :: tokens WHITE s := by
        rw [List.append_assoc, tokens_gap hgap, tokens_cut hne htoken hd]
      have hwhole : front ++ (gap ++ token ++ d :: s) ++ 0 :: tail =
          front ++ gap ++ token ++ d :: (s ++ 0 :: tail) := by simp
      rw [htokens, hwhole]
      cases room with
      | zero =>
          have hlt : ¬ (token :: tokens WHITE s).length ≤ 0 := Nat.not_succ_le_zero _
          refine ⟨[], gap ++ token ++ 0 :: s, by simp, ?_, fun h => absurd h hlt⟩
          rw [argLoop_full htok, if_neg hlt]
          simp
      | succ room =>
          obtain ⟨pointers, s', hlength, hloop, hwords⟩ :=
            @ih room (argv ++ [(front ++ gap).length]) hnul'' (front ++ gap ++ token ++ [0])
          have hwhole' : front ++ (gap ++ token ++ 0 :: s') ++ 0 :: tail =
              front ++ gap ++ token ++ [0] ++ s' ++ 0 :: tail := by simp
          refine ⟨(front ++ gap).length :: pointers, gap ++ token ++ 0 :: s', by simp [hlength],
            ?_, fun hle => ?_⟩
          · rw [argLoop_succ htok, ← List.append_assoc, hloop, hwhole', List.append_assoc argv]
            simp only [List.length_cons, Nat.add_le_add_iff_right]
            rfl
          · rw [hwhole']
            refine .cons ⟨front ++ gap, s' ++ 0 :: tail, by simp, rfl, hnul'⟩ ?_
            exact hwords (Nat.le_of_succ_le_succ hle)

/-- A request without a word. -/
theorem buf_args_blank {α : Type} (optfunc : Block → List Nat → Option α) {s : List Byte}
    (hs : ∀ c ∈ s, c ∈ WHITE) (tail : Block) :
    buf_args optfunc (s ++ 0 :: tail) = some none := by
  have htok := strtok_blank nul_not_mem_white hs [] tail
  rw [List.nil_append] at htok
  simp only [buf_args, List.length_nil] at htok ⊢
  rw [htok]
  rfl

/-- The first argument begins where the request does, the others are its words. -/
theorem buf_args_eq {α : Type} (optfunc : Block → List Nat → Option α) {gap token : List Byte}
    {s : List Byte} (hgap : ∀ c ∈ gap, c ∈ WHITE) (hne : token ≠ [])
    (htoken : ∀ c ∈ token, c ∉ WHITE) (hnul : 0 ∉ token) (hnul' : 0 ∉ s)
    (hs : ∀ c ∈ s.head?, c ∈ WHITE) (tail : Block) : ∃ pointers buf,
      buf_args optfunc (gap ++ token ++ s ++ 0 :: tail) =
        (if (tokens WHITE s).length < MAXARGC - 1 then (optfunc buf (0 :: pointers)).map some
        else some none) ∧
      ((tokens WHITE s).length < MAXARGC - 1 → StringAt buf 0 (gap ++ token) ∧
        List.Forall₂ (StringAt buf) pointers (tokens WHITE s)) := by
  have hgapNul : 0 ∉ gap := fun h => nul_not_mem_white (hgap 0 h)
  have hfirst : 0 ∉ gap ++ token := by
    rw [List.mem_append, not_or]
    exact ⟨hgapNul, hnul⟩
  cases s with
  | nil =>
      have htok := strtok_last hgap hne hnul htoken [] tail
      have hend := strtok_end nul_not_mem_white (gap ++ token) tail
      refine ⟨[], gap ++ token ++ 0 :: tail, ?_, fun _ => ⟨⟨[], tail, rfl, rfl, hfirst⟩, .nil⟩⟩
      rw [List.append_nil, buf_args]
      simp only [List.nil_append, List.length_nil] at htok
      simp only [htok, Option.bind_eq_bind, Option.bind_some, argLoop_none hend]
      rfl
  | cons d s =>
      have hd : d ∈ WHITE := hs d rfl
      have hnul'' : 0 ∉ s := fun h => hnul' (List.mem_cons_of_mem _ h)
      have htok := strtok_cut nul_not_mem_white hgap hne hnul htoken hd [] (s ++ 0 :: tail)
      obtain ⟨pointers, s', -, hloop, hwords⟩ := @argLoop_eq (MAXARGC - 2) [0] s
        hnul'' (gap ++ token ++ [0]) tail
      have hlt : (tokens WHITE s).length ≤ MAXARGC - 2 ↔
          (tokens WHITE s).length < MAXARGC - 1 := Nat.lt_succ_iff.symm
      rw [tokens_cons_delim hd]
      refine ⟨pointers, gap ++ token ++ [0] ++ s' ++ 0 :: tail, ?_, fun hle =>
        ⟨⟨[], s' ++ 0 :: tail, by simp, rfl, hfirst⟩, hwords (hlt.mpr hle)⟩⟩
      have hwhole : gap ++ token ++ (d :: s) ++ 0 :: tail =
          gap ++ token ++ d :: (s ++ 0 :: tail) := by simp
      simp only [List.nil_append, List.length_nil] at htok
      rw [hwhole, buf_args]
      simp only [htok, Option.bind_eq_bind, Option.bind_some, reduceCtorEq, if_false]
      rw [← List.append_assoc _ s, hloop]
      simp only [Option.bind_some, hlt]
      by_cases hroom : (tokens WHITE s).length < MAXARGC - 1
      · rw [if_pos hroom, if_pos hroom]
        rfl
      · rw [if_neg hroom, if_neg hroom]
        rfl

/-- Only a request that begins with the command itself has it for its first argument. -/
theorem first_word_iff {gap token s : List Byte} (hgap : ∀ c ∈ gap, c ∈ WHITE)
    (htoken : ∀ c ∈ token, c ∉ WHITE) (hs : ∀ c ∈ s.head?, c ∈ WHITE) :
    gap ++ token = CL_OPEN ↔ (gap ++ token ++ s).takeWhile (· ∉ WHITE) = CL_OPEN := by
  cases gap with
  | nil =>
      have htail : s.takeWhile (· ∉ WHITE) = [] := by
        cases s with
        | nil => rfl
        | cons d s =>
            exact List.takeWhile_cons_of_neg (by simpa using hs d rfl)
      rw [List.nil_append, List.takeWhile_append_of_pos (by simpa using htoken), htail,
        List.append_nil]
  | cons c gap =>
      have hc : c ∈ WHITE := hgap c List.mem_cons_self
      rw [List.cons_append, List.cons_append, List.takeWhile_cons_of_neg (by simpa using hc)]
      refine ⟨fun heq => ?_, nofun⟩
      have hhead : c = 111 := (List.cons.inj heq).1
      rw [hhead] at hc
      exact absurd hc (by decide)

/-! The answer to a request. -/

theorem dropWhile_isSpace_nul (field rest : List Byte) :
    (field ++ 0 :: rest).dropWhile isSpace = field.dropWhile isSpace ++ 0 :: rest := by
  induction field with
  | nil => exact List.dropWhile_cons_of_neg (by decide)
  | cons c field ih =>
      rw [List.cons_append, List.dropWhile_cons, List.dropWhile_cons]
      split
      · exact ih
      · rfl

theorem readDigits_nul (acc : Nat) (field rest : List Byte) :
    readDigits acc (field ++ 0 :: rest) = readDigits acc (field ++ [0]) := by
  induction field generalizing acc with
  | nil => rfl
  | cons c field ih =>
      rw [List.cons_append, List.cons_append, readDigits, readDigits]
      split
      · exact ih _
      · rfl

/-- A number ends with its string. -/
theorem atol_nul (field rest : List Byte) : atol (field ++ 0 :: rest) = atol (field ++ [0]) := by
  rw [atol, atol, dropWhile_isSpace_nul, dropWhile_isSpace_nul]
  cases field.dropWhile isSpace with
  | nil => rfl
  | cons c field =>
      have hwhole := readDigits_nul 0 (c :: field) rest
      rw [List.cons_append, List.cons_append] at hwhole
      simp only [List.cons_append, readDigits_nul _ field rest, hwhole]

theorem atoi_string {buf : Block} {p : Nat} {flag : List Byte} (hflag : StringAt buf p flag) :
    atoi (buf.drop p) = atoi (flag ++ [0]) := by
  obtain ⟨front, rest, rfl, rfl, -⟩ := hflag
  rw [List.append_assoc, List.drop_left, atoi, atoi, atol_nul]

theorem cli_args_eq {buf : Block} {pointers : List Nat} {first : List Byte}
    {args : List (List Byte)} (hfirst : StringAt buf 0 first)
    (hargs : List.Forall₂ (StringAt buf) pointers args) :
    cli_args buf (0 :: pointers) = asked first args := by
  cases hargs with
  | nil => rfl
  | cons hpath hrest =>
      cases hrest with
      | nil => rfl
      | cons hflag hrest =>
          cases hrest with
          | cons _ _ => rfl
          | nil =>
              obtain ⟨front, rest, hbuf, hfront, hnul⟩ := hfirst
              rw [List.eq_nil_of_length_eq_zero hfront, List.nil_append] at hbuf
              obtain ⟨d, hd, hiff⟩ := strcmp_strings_iff hnul (by decide : 0 ∉ CL_OPEN) rest []
              rw [← hbuf] at hd
              simp only [cli_args, List.drop_zero, hd, Option.bind_eq_bind, Option.bind_some,
                hpath.cstring, atoi_string hflag]
              by_cases hopen : first = CL_OPEN
              · rw [if_neg (not_not.mpr (hiff.mpr hopen)), asked, if_pos hopen]
                cases atoi _ <;> rfl
              · rw [if_pos (fun h => hopen (hiff.mp h)), asked, if_neg hopen]
                rfl

theorem asked_congr {first first' : List Byte} (hiff : first = CL_OPEN ↔ first' = CL_OPEN)
    (args : List (List Byte)) : asked first args = asked first' args := by
  unfold asked
  split
  · simp only [hiff]
  · rfl

theorem tokens_first {gap token s : List Byte} (hgap : ∀ c ∈ gap, c ∈ WHITE) (hne : token ≠ [])
    (htoken : ∀ c ∈ token, c ∉ WHITE) (hs : ∀ c ∈ s.head?, c ∈ WHITE) :
    tokens WHITE (gap ++ token ++ s) = token :: tokens WHITE s := by
  rw [List.append_assoc, tokens_gap hgap]
  cases s with
  | nil =>
      rw [List.append_nil, tokens_token hne htoken]
      rfl
  | cons d s => rw [tokens_cut hne htoken (hs d rfl), tokens_cons_delim (hs d rfl)]

/-- The server answers the string at the front of the buffer, whatever the client has sent behind
it and whatever was in the buffer before. -/
theorem request_eq (openFile : List Byte → Int → Opened) (errmsg : List Byte) {s : List Byte}
    {tail : Block} {nread : Nat} (hnul : 0 ∉ s)
    (hlast : (s ++ 0 :: tail)[nread - 1]? = some 0) :
    request openFile errmsg (s ++ 0 :: tail) nread = answer openFile errmsg s := by
  obtain ⟨gap, rest, rfl, hgap, hrest⟩ := exists_front (· ∈ WHITE) s
  obtain ⟨token, s, rfl, htoken, hs⟩ := exists_front (· ∉ WHITE) rest
  have hs' : ∀ c ∈ s.head?, c ∈ WHITE := fun c hc => not_not.mp (hs c hc)
  rw [List.mem_append, List.mem_append, not_or, not_or] at hnul
  rw [request, hlast]
  simp only [Option.bind_eq_bind, Option.bind_some, ne_eq, not_true_eq_false, if_false]
  rcases eq_or_ne token [] with rfl | hne
  · have hnil : s = [] := by
      cases s with
      | nil => rfl
      | cons d s => exact absurd (hs' d rfl) (hrest d rfl)
    rw [hnil, List.append_nil, List.append_nil, buf_args_blank cli_args hgap, answer,
      tokens_blank hgap]
    rfl
  · obtain ⟨pointers, buf, hargs, hstrings⟩ :=
      buf_args_eq cli_args hgap hne htoken hnul.2.1 hnul.2.2 hs' tail
    rw [← List.append_assoc gap, hargs, answer, tokens_first hgap hne htoken hs']
    dsimp only
    split
    · rename_i hroom
      obtain ⟨hfirst, hwords⟩ := hstrings hroom
      rw [cli_args_eq hfirst hwords, asked_congr (first_word_iff hgap htoken hs')]
      cases asked _ (tokens WHITE s) with
      | none => rfl
      | some result =>
          cases result with
          | error msg => rfl
          | ok target => rfl
    · rfl

theorem asked_ok {first pathname : List Byte} {args : List (List Byte)} {oflag : Int}
    (hasked : asked first args = some (.ok (pathname, oflag))) :
    ∃ flag, first = CL_OPEN ∧ args = [pathname, flag] ∧ atoi (flag ++ [0]) = some oflag := by
  rw [asked.eq_def] at hasked
  split at hasked
  · split at hasked
    · rename_i flag hopen
      obtain ⟨n, hflag, hpair⟩ := Option.map_eq_some_iff.mp hasked
      cases hpair
      exact ⟨flag, hopen, rfl, hflag⟩
    · cases hasked
  · cases hasked

theorem send_err_fd (msg : List Byte) : (send_err (-1) msg).fd = -1 := rfl

theorem opens_fd {openFile : List Byte → Int → Opened} {errmsg : List Byte}
    {result : Except (List Byte) (List Byte × Int)} {reply : Reply} {newfd : Nat}
    (hopens : opens openFile errmsg result = some reply) (hfd : reply.fd = newfd) :
    ∃ pathname oflag, result = .ok (pathname, oflag) ∧ openFile pathname oflag = .ok newfd := by
  cases result with
  | error msg =>
      cases hopens
      rw [send_err_fd] at hfd
      omega
  | ok target =>
      obtain ⟨pathname, oflag⟩ := target
      refine ⟨pathname, oflag, rfl, ?_⟩
      rw [opens] at hopens
      split at hopens
      · rw [sendErrmsg] at hopens
        split at hopens
        · cases hopens
          rw [send_err_fd] at hfd
          omega
        · cases hopens
      · rename_i fd hfile
        cases hopens
        rw [hfile, Int.ofNat_inj.mp hfd]

/-- A descriptor comes of a request only by `open` of its second word, when the first begins the
request and is the command, and the third is the last. -/
theorem request_opens_iff (openFile : List Byte → Int → Opened) (errmsg : List Byte)
    {s : List Byte} {tail : Block} {nread : Nat} (hnul : 0 ∉ s)
    (hlast : (s ++ 0 :: tail)[nread - 1]? = some 0) (newfd : Nat) :
    (∃ reply, request openFile errmsg (s ++ 0 :: tail) nread = some reply ∧ reply.fd = newfd) ↔
      ∃ pathname flag oflag, s.takeWhile (· ∉ WHITE) = CL_OPEN ∧
        (tokens WHITE s).tail = [pathname, flag] ∧ atoi (flag ++ [0]) = some oflag ∧
        openFile pathname oflag = .ok newfd := by
  rw [request_eq openFile errmsg hnul hlast, answer]
  constructor
  · rintro ⟨reply, hreply, hfd⟩
    split at hreply
    · cases hreply
      rw [send_err_fd] at hfd
      omega
    · rename_i word args hwords
      split at hreply
      · obtain ⟨result, hasked, hopens⟩ := Option.bind_eq_some_iff.mp hreply
        obtain ⟨pathname, oflag, rfl, hfile⟩ := opens_fd hopens hfd
        obtain ⟨flag, hopen, rfl, hflag⟩ := asked_ok hasked
        exact ⟨pathname, flag, oflag, hopen, congrArg List.tail hwords, hflag, hfile⟩
      · cases hreply
        rw [send_err_fd] at hfd
        omega
  · rintro ⟨pathname, flag, oflag, hopen, hwords, hflag, hfile⟩
    cases htokens : tokens WHITE s with
    | nil =>
        rw [htokens] at hwords
        cases hwords
    | cons word args =>
        rw [htokens] at hwords
        obtain rfl : args = [pathname, flag] := hwords
        have hroom : [pathname, flag].length < MAXARGC - 1 := show 2 < 50 - 1 by decide
        dsimp only
        rw [if_pos hroom, asked, if_pos hopen, hflag]
        exact ⟨⟨errmsg, [], newfd⟩, by simp [opens, hfile], rfl⟩

/-- A request of two words, with a NUL and the old bytes of the buffer behind it. -/
theorem request_opens_iff_read :
    (∃ reply, request (fun _ _ => .ok 5) [] ([111, 112, 101, 110, 32, 102, 32, 48] ++ 0 :: [9]) 9 =
        some reply ∧ reply.fd = (5 : Nat)) ↔
      ∃ pathname flag oflag,
        [111, 112, 101, 110, 32, 102, 32, 48].takeWhile (· ∉ WHITE) = CL_OPEN ∧
        (tokens WHITE [111, 112, 101, 110, 32, 102, 32, 48]).tail = [pathname, flag] ∧
        atoi (flag ++ [0]) = some oflag ∧
        (fun _ _ => .ok 5 : List Byte → Int → Opened) pathname oflag = .ok 5 :=
  request_opens_iff (fun _ _ => .ok 5) [] (by decide) (by rfl) 5

/-! The requests of `csopen`. -/

/-- What `csopen` is told of a name: the words of the name are to be the path alone. -/
def openAnswer (openFile : List Byte → Int → Opened) (errmsg name : List Byte) (oflag : Int) :
    Option Reply :=
  match tokens WHITE name with
  | [pathname] => opens openFile errmsg (.ok (pathname, oflag))
  | words =>
      if words.length + 1 < MAXARGC - 1 then some (send_err (-1) usage)
      else some (send_err (-1) errmsg)

theorem isDigit_range {c : Byte} (hc : isDigit c) : 48 ≤ c.toNat ∧ c.toNat ≤ 57 := by
  simp only [isDigit, Bool.decide_and, Bool.and_eq_true, decide_eq_true_eq,
    UInt8.le_iff_toNat_le] at hc
  exact hc

/-- The text of a number is digits, with a sign in front perhaps. -/
theorem mem_sprintfLong {n : Int} {c : Byte} (hc : c ∈ sprintfLong n) :
    c = 45 ∨ isDigit c := by
  cases n with
  | ofNat n => exact .inr (isDigit_of_mem_decimal hc)
  | negSucc n => exact (List.mem_cons.mp hc).imp_right isDigit_of_mem_decimal

theorem not_mem_sprintfLong {n : Int} {c : Byte} (hne : c ≠ 45) (hc : ¬ isDigit c) :
    c ∉ sprintfLong n := by
  intro hmem
  rcases mem_sprintfLong hmem with rfl | hdigit
  · exact hne rfl
  · exact hc hdigit

theorem sprintfLong_not_white {n : Int} {c : Byte} (hc : c ∈ sprintfLong n) : c ∉ WHITE := by
  intro hwhite
  rcases mem_sprintfLong hc with rfl | hdigit
  · exact absurd hwhite (by decide)
  · have hall : WHITE.all (fun c => !isDigit c) = true := rfl
    have hnot := List.all_eq_true.mp hall c hwhite
    rw [hdigit] at hnot
    cases hnot

theorem sprintfLong_ne_nil (n : Int) : sprintfLong n ≠ [] := by
  cases n with
  | ofNat n => exact decimal_ne_nil n
  | negSucc n => exact List.cons_ne_nil _ _

/-- A flag that fits into the buffer of `csopen` comes to the server as it is. -/
theorem atoi_sprintfLong {oflag : Int} (hfits : (sprintfLong oflag).length + 2 ≤ 10) :
    atoi (sprintfLong oflag ++ [0]) = some oflag := by
  have hzero : ¬ isDigit 0 := by decide
  have hmax : LONG_MAX = 2 ^ 63 - 1 := rfl
  have hmin : LONG_MIN = -2 ^ 63 := rfl
  cases oflag with
  | ofNat n =>
      have hlt : n < 10 ^ 8 := by
        rw [← length_decimal_le_iff (by decide)]
        have hlength : (decimal n).length + 2 ≤ 10 := hfits
        omega
      have hatol := atol_decimal (n := n) (by omega) 0 hzero []
      rw [List.replicate_zero, List.nil_append] at hatol
      rw [atoi, sprintfLong, hatol, Option.map_some]
      refine congrArg some (Int.bmod_eq_of_le ?_ ?_) <;> omega
  | negSucc n =>
      have hlt : n + 1 < 10 ^ 7 := by
        rw [← length_decimal_le_iff (by decide)]
        have hlength : (decimal (n + 1)).length + 1 + 2 ≤ 10 := hfits
        omega
      have hread := readDigits_decimal (n + 1) hzero []
      have hdrop : (45 :: decimal (n + 1) ++ [0]).dropWhile isSpace =
          45 :: (decimal (n + 1) ++ [0]) := rfl
      rw [atoi, sprintfLong, atol, hdrop]
      simp only [if_pos, hread, Option.map_some]
      refine congrArg some ?_
      rw [Int.max_eq_left (by omega), Int.negSucc_eq, Int.bmod_eq_of_le] <;> omega

/-- The words of a request of `csopen`. -/
theorem tokens_request (name : List Byte) (oflag : Int) :
    tokens WHITE (CL_OPEN ++ [32] ++ name ++ [32] ++ sprintfLong oflag) =
      CL_OPEN :: (tokens WHITE name ++ [sprintfLong oflag]) := by
  have hspace : (32 : Byte) ∈ WHITE := by decide
  have hflag : tokens WHITE (sprintfLong oflag) = [sprintfLong oflag] :=
    tokens_token (sprintfLong_ne_nil oflag) fun c hc => sprintfLong_not_white hc
  rw [List.append_assoc, List.append_assoc, List.append_assoc, List.singleton_append,
    tokens_append hspace, List.singleton_append, tokens_append hspace, hflag]
  rfl

theorem first_request (rest : List Byte) :
    (CL_OPEN ++ [32] ++ rest).takeWhile (· ∉ WHITE) = CL_OPEN := rfl

theorem answer_request (openFile : List Byte → Int → Opened) (errmsg name : List Byte)
    {oflag : Int} (hfits : (sprintfLong oflag).length + 2 ≤ 10) :
    answer openFile errmsg (CL_OPEN ++ [32] ++ name ++ [32] ++ sprintfLong oflag) =
      openAnswer openFile errmsg name oflag := by
  have hfirst : (CL_OPEN ++ [32] ++ name ++ [32] ++ sprintfLong oflag).takeWhile (· ∉ WHITE) =
      CL_OPEN := by
    rw [List.append_assoc _ name, List.append_assoc]
    exact first_request _
  rw [answer, tokens_request, openAnswer, hfirst]
  dsimp only
  rw [List.length_append, List.length_singleton]
  cases hwords : tokens WHITE name with
  | nil => rfl
  | cons pathname words =>
      cases words with
      | nil =>
          have hroom : [pathname].length + 1 < MAXARGC - 1 :=
            show 1 + 1 < 50 - 1 by decide
          rw [if_pos hroom, List.cons_append, List.nil_append, asked, if_pos rfl,
            atoi_sprintfLong hfits]
          rfl
      | cons word words =>
          have hasked : asked CL_OPEN (pathname :: word :: words ++ [sprintfLong oflag]) =
              some (.error usage) := by
            cases words <;> rfl
          rw [hasked]
          rfl

/-- The server makes of a request of `csopen` what its name says, if it reads it whole. -/
theorem request_csopen (openFile : List Byte → Int → Opened) (errmsg : List Byte)
    {name bytes : List Byte} {oflag : Int} (hnul : 0 ∉ name)
    (hbytes : csopenRequest name oflag = some bytes) (rest : Block) :
    request openFile errmsg (bytes ++ rest) bytes.length =
      openAnswer openFile errmsg name oflag := by
  rw [csopenRequest] at hbytes
  split at hbytes
  · rename_i hfits
    cases hbytes
    have hnul' : 0 ∉ CL_OPEN ++ [32] ++ name ++ [32] ++ sprintfLong oflag := by
      simp only [List.mem_append, not_or]
      exact ⟨⟨⟨by decide, hnul⟩, by decide⟩, not_mem_sprintfLong (by decide) (by decide)⟩
    rw [List.append_assoc _ [0], List.singleton_append, request_eq openFile errmsg hnul',
      answer_request openFile errmsg name hfits]
    rw [List.length_append, List.length_singleton, Nat.add_sub_cancel]
    exact getElem?_length_append _ _ _
  · cases hbytes

end ApueCourse.Opend
