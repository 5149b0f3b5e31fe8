import ApueCourse.Print.Acknowledge

/-! `print.c`: how the client sends a file, and what the daemon spools of it. -/

namespace ApueCourse.Print

open Memory Program

namespace Transfer

/-- The calls that read a file and write to a socket, with `writen` and `writev` as `write`. -/
inductive Op
  | read (nbytes : Nat)
  | write (bytes : List Byte)

abbrev Op.Res : Op → Type
  | .read _ => Except Client.Errno (List Byte)
  | .write _ => Except Client.Errno Nat

inductive Stop
  | exit
  | defer
  | bounds
  | spin
  deriving DecidableEq

abbrev P := Prog Op Op.Res Stop

/-- What is left to read of the file, and what has been written. -/
structure World where
  file : List Byte
  sent : List Byte

inductive Sys : (op : Op) → World → op.Res → World → Prop
  | data {w : World} {nbytes : Nat} {bytes rest : List Byte} (hne : bytes ≠ [])
      (hle : bytes.length ≤ nbytes) (hfile : w.file = bytes ++ rest) :
      Sys (.read nbytes) w (.ok bytes) { w with file := rest }
  | eof {w : World} {nbytes : Nat} (hfile : w.file = []) : Sys (.read nbytes) w (.ok []) w
  | noRead {w : World} {nbytes : Nat} {errno : Client.Errno} :
      Sys (.read nbytes) w (.error errno) w
  | write {w : World} {bytes : List Byte} {n : Nat} (hn : n ≤ bytes.length) :
      Sys (.write bytes) w (.ok n) { w with sent := w.sent ++ bytes.take n }
  | noWrite {w : World} {bytes : List Byte} {errno : Client.Errno} :
      Sys (.write bytes) w (.error errno) w

def read (nbytes : Nat) : P (Except Client.Errno (List Byte)) := .call (.read nbytes) .ret

def write (bytes : List Byte) : P (Except Client.Errno Nat) := .call (.write bytes) .ret

/-- `if ((nw = write(..)) != nr)`. -/
def sendAll (failed : Stop) (bytes : List Byte) : P Unit := do
  let nw ← write bytes
  if nw.toOption ≠ some bytes.length then .stop failed else return ()

/-- The loop that copies the file, with what a failing `read` and a failing `write` end in. -/
def sendFile (noRead noWrite : Stop) : Nat → P Unit
  | 0 => .stop .spin
  | turns + 1 => do
      match ← read Client.IOBUFSZ with
      | .error _ => .stop noRead
      | .ok bytes =>
          if bytes = [] then return ()
          else do
            sendAll noWrite bytes
            sendFile noRead noWrite turns

abbrev Event := Prog.Made Op Op.Res

variable {w w' : World} {made : List Event}

theorem runs_read {α : Type} {nbytes : Nat} {f : Except Client.Errno (List Byte) → P α}
    {outcome : Except Stop α} (hrun : (read nbytes >>= f).Runs Sys w made outcome w') :
    ∃ answer middle rest, Sys (.read nbytes) w answer middle ∧
      (f answer).Runs Sys middle rest outcome w' := by
  obtain ⟨answer, middle, rest, -, hsys, hrun⟩ := hrun.of_call
  exact ⟨answer, middle, rest, hsys, hrun⟩

theorem runs_write {α : Type} {bytes : List Byte} {f : Except Client.Errno Nat → P α}
    {outcome : Except Stop α} (hrun : (write bytes >>= f).Runs Sys w made outcome w') :
    ∃ answer middle rest, Sys (.write bytes) w answer middle ∧
      (f answer).Runs Sys middle rest outcome w' := by
  obtain ⟨answer, middle, rest, -, hsys, hrun⟩ := hrun.of_call
  exact ⟨answer, middle, rest, hsys, hrun⟩

theorem runs_sendAll {failed : Stop} {bytes : List Byte}
    (hrun : (sendAll failed bytes).Runs Sys w made (.ok ()) w') :
    w'.file = w.file ∧ w'.sent = w.sent ++ bytes := by
  obtain ⟨nw, middle, rest, hsys, hrun⟩ := runs_write hrun
  split at hrun
  · obtain ⟨-, houtcome, -⟩ := hrun.of_stop
    cases houtcome
  · rename_i hall
    obtain ⟨-, -, rfl⟩ := hrun.of_ret
    cases hsys with
    | noWrite => exact absurd nofun hall
    | write hn =>
        have hn := Option.some.inj (not_not.mp hall)
        exact ⟨rfl, congrArg (w.sent ++ ·) (List.take_of_length_le hn.ge)⟩

theorem runs_sendFile {noRead noWrite : Stop} {turns : Nat}
    (hrun : (sendFile noRead noWrite turns).Runs Sys w made (.ok ()) w') :
    w'.sent = w.sent ++ w.file := by
  induction turns generalizing w made with
  | zero =>
      obtain ⟨-, houtcome, -⟩ := hrun.of_stop
      cases houtcome
  | succ turns ih =>
      obtain ⟨answer, middle, rest, hsys, hrun⟩ := runs_read hrun
      cases hsys with
      | noRead =>
          obtain ⟨-, houtcome, -⟩ := hrun.of_stop
          cases houtcome
      | eof hfile =>
          dsimp only at hrun
          rw [if_pos rfl] at hrun
          obtain ⟨-, -, rfl⟩ := hrun.of_ret
          rw [hfile, List.append_nil]
      | data hne hle hfile =>
          dsimp only at hrun
          rw [if_neg hne] at hrun
          obtain ⟨_, last, first, second, -, hfirst, hsecond⟩ := hrun.of_bind_ok
          obtain ⟨hfile', hsent⟩ := runs_sendAll hfirst
          rw [ih hsecond, hsent, hfile', hfile, List.append_assoc]

end Transfer

/-- As the bytes of a number change places. -/
def htonl (n : Nat) : Nat := Client.ntohl (Client.long n)

/-- `strcpy` to the front of a field of the request. -/
def PrintReq.setUsernm (req : PrintReq) (usernm : List Byte) : Option PrintReq :=
  match husernm : strcpy req.usernm 0 usernm with
  | none => none
  | some block => some { req with
      usernm := block, usernm_length := (length_blit husernm).trans req.usernm_length }

/-- A name that is too long keeps its end. -/
def nameJob (jobnm : Block) (fname : List Byte) : Option Block :=
  if fname.length ≥ JOBNM_MAX then do
    let jobnm ← strcpy jobnm 0 (ascii "... ")
    strcat jobnm ((fname.drop (fname.length - JOBNM_MAX + 5)).take (JOBNM_MAX - 5))
  else strcpy jobnm 0 fname

theorem length_strcat {block block' : Block} {src : List Byte}
    (hstrcat : strcat block src = some block') : block'.length = block.length := by
  obtain ⟨s, -, hcopy⟩ := Option.bind_eq_some_iff.mp hstrcat
  exact length_blit hcopy

theorem length_nameJob {jobnm block : Block} {fname : List Byte}
    (hname : nameJob jobnm fname = some block) : block.length = jobnm.length := by
  rw [nameJob] at hname
  split at hname
  · obtain ⟨middle, hcopy, hcat⟩ := Option.bind_eq_some_iff.mp hname
    exact (length_strcat hcat).trans (length_blit hcopy)
  · exact length_blit hname

def PrintReq.setJobnm (req : PrintReq) (fname : List Byte) : Option PrintReq :=
  match hjobnm : nameJob req.jobnm fname with
  | none => none
  | some block => some { req with
      jobnm := block, jobnm_length := (length_nameJob hjobnm).trans req.jobnm_length }

/-- The request, with the numbers as they go out and `junk` where the stack is left as it was. -/
def buildReq (junk : PrintReq) (pw_name : Option (List Byte)) (fname : List Byte) (nbytes : Nat)
    (text : Bool) : Option PrintReq := do
  let req ← junk.setUsernm (pw_name.getD (ascii "unknown"))
  let req := { req with size := htonl nbytes }
  let req := { req with flags := if text then htonl PR_TEXT else 0 }
  req.setJobnm fname

/-- `submit_file` up to the response. -/
def submit_file (turns : Nat) (junk : PrintReq) (pw_name : Option (List Byte))
    (fname : List Byte) (nbytes : Nat) (text : Bool) : Transfer.P Unit :=
  match buildReq junk pw_name fname nbytes text with
  | none => .stop .bounds
  | some req => do
      Transfer.sendAll .exit req.bytes
      Transfer.sendFile .bounds .exit turns

/-- The name of the job. -/
def shownName (fname : List Byte) : List Byte :=
  if fname.length ≥ JOBNM_MAX then ascii "... " ++ fname.drop (fname.length - (JOBNM_MAX - 5))
  else fname

variable {junk req : PrintReq} {pw_name : Option (List Byte)} {fname : List Byte} {nbytes : Nat}
  {text : Bool}

theorem strcpy_front {block block' : Block} {s : List Byte} (hs : 0 ∉ s)
    (hcopy : strcpy block 0 s = some block') : cstring block' = some s := by
  rw [strcpy, blit] at hcopy
  split at hcopy
  · cases hcopy
    rw [List.take_zero, List.nil_append, List.append_assoc]
    exact cstring_append hs _
  · cases hcopy

theorem strcat_front {block block' : Block} {s src : List Byte} (hs : cstring block = some s)
    (hsrc : 0 ∉ src) (hcat : strcat block src = some block') :
    cstring block' = some (s ++ src) := by
  obtain ⟨hnul, rest, rfl⟩ := cstring_eq_some hs
  obtain ⟨-, rfl⟩ := (strcat_eq_some_iff hnul).mp hcat
  refine cstring_append ?_ _
  rw [List.mem_append, not_or]
  exact ⟨hnul, hsrc⟩

theorem cstring_nameJob {jobnm block : Block} (hfname : 0 ∉ fname)
    (hname : nameJob jobnm fname = some block) : cstring block = some (shownName fname) := by
  rw [nameJob] at hname
  rw [shownName]
  split at hname
  · rename_i hlong
    have hlong' : 256 ≤ fname.length := hlong
    obtain ⟨middle, hcopy, hcat⟩ := Option.bind_eq_some_iff.mp hname
    have hdrop : (fname.drop (fname.length - JOBNM_MAX + 5)).take (JOBNM_MAX - 5) =
        fname.drop (fname.length - (JOBNM_MAX - 5)) := by
      have hstart : fname.length - JOBNM_MAX + 5 = fname.length - (JOBNM_MAX - 5) := by
        rw [JOBNM_MAX]
        omega
      rw [hstart, List.take_of_length_le]
      rw [List.length_drop]
      omega
    rw [if_pos hlong]
    rw [hdrop] at hcat
    refine strcat_front (strcpy_front (by decide) hcopy) ?_ hcat
    exact fun h => hfname (List.mem_of_mem_drop h)
  · rename_i hshort
    rw [if_neg hshort]
    exact strcpy_front hfname hname

theorem cstring_setUsernm {usernm : List Byte} (husernm : 0 ∉ usernm)
    (hset : junk.setUsernm usernm = some req) : cstring req.usernm = some usernm := by
  rw [PrintReq.setUsernm] at hset
  split at hset
  · cases hset
  · rename_i hcopy
    cases hset
    exact strcpy_front husernm hcopy

theorem setJobnm_spec (hfname : 0 ∉ fname) (hset : junk.setJobnm fname = some req) :
    cstring req.jobnm = some (shownName fname) ∧ req.usernm = junk.usernm ∧
      req.size = junk.size ∧ req.flags = junk.flags := by
  rw [PrintReq.setJobnm] at hset
  split at hset
  · cases hset
  · rename_i hname
    cases hset
    exact ⟨cstring_nameJob hfname hname, rfl, rfl, rfl⟩

/-- What the client has put into the request. -/
theorem buildReq_spec (husernm : ∀ usernm ∈ pw_name, 0 ∉ usernm) (hfname : 0 ∉ fname)
    (hbuild : buildReq junk pw_name fname nbytes text = some req) :
    cstring req.usernm = some (pw_name.getD (ascii "unknown")) ∧
      cstring req.jobnm = some (shownName fname) ∧ req.size = htonl nbytes ∧
      req.flags = if text then htonl PR_TEXT else 0 := by
  obtain ⟨named, hset, hjobnm⟩ := Option.bind_eq_some_iff.mp hbuild
  obtain ⟨hjobnm, husernm', hsize, hflags⟩ := setJobnm_spec hfname hjobnm
  refine ⟨?_, hjobnm, hsize, hflags⟩
  rw [husernm']
  refine @cstring_setUsernm junk named _ ?_ hset
  cases pw_name with
  | none => decide
  | some usernm => exact husernm usernm rfl

/-- Everything that a client has sent when it waits for the response. -/
theorem submit_file_sent {turns : Nat} {w w' : Transfer.World} {made : List Transfer.Event}
    (hrun : (submit_file turns junk pw_name fname nbytes text).Runs Transfer.Sys w made (.ok ())
      w') :
    ∃ req, buildReq junk pw_name fname nbytes text = some req ∧
      w'.sent = w.sent ++ req.bytes ++ w.file := by
  rw [submit_file] at hrun
  split at hrun
  · obtain ⟨-, houtcome, -⟩ := hrun.of_stop
    cases houtcome
  · rename_i req hbuild
    obtain ⟨_, middle, first, second, -, hfirst, hsecond⟩ := hrun.of_bind_ok
    obtain ⟨hfile, hsent⟩ := Transfer.runs_sendAll hfirst
    refine ⟨req, hbuild, ?_⟩
    rw [Transfer.runs_sendFile hsecond, hsent, hfile]

/-! The request at the other end. -/

theorem ntohl_long (n : Nat) (rest : List Byte) :
    Client.ntohl (Client.long n ++ rest) =
      n % 256 * 16777216 + n / 256 % 256 * 65536 + n / 65536 % 256 * 256 + n / 16777216 % 256 := by
  simp only [Client.ntohl, Client.long, List.range, List.range.loop, List.map_cons, List.map_nil,
    List.cons_append, List.take_succ_cons, List.take_zero, List.foldl_cons, List.foldl_nil,
    UInt8.toNat_ofNat', Nat.reducePow, Nat.div_one]
  omega

/-- The bytes of a number in the order of the other end. -/
theorem digits_reversed {b0 b1 b2 b3 : Nat} (h0 : b0 < 256) (h1 : b1 < 256) (h2 : b2 < 256)
    (h3 : b3 < 256) :
    let m := b0 * 16777216 + b1 * 65536 + b2 * 256 + b3
    m % 256 = b3 ∧ m / 256 % 256 = b2 ∧ m / 65536 % 256 = b1 ∧ m / 16777216 % 256 = b0 := by
  dsimp only
  omega

theorem ntohl_htonl (n : Nat) (rest : List Byte) :
    Client.ntohl (Client.long (htonl n) ++ rest) = n % 2 ^ 32 := by
  have hhtonl := ntohl_long n []
  rw [List.append_nil] at hhtonl
  have hbyte : ∀ m : Nat, m % 256 < 256 := fun m => Nat.mod_lt m (by decide)
  obtain ⟨hd0, hd1, hd2, hd3⟩ := digits_reversed (hbyte n) (hbyte (n / 256)) (hbyte (n / 65536))
    (hbyte (n / 16777216))
  have htwo : n / 65536 = n / 256 / 256 := (Nat.div_div_eq_div_mul n 256 256).symm
  have hthree : n / 16777216 = n / 256 / 256 / 256 := by
    rw [Nat.div_div_eq_div_mul, Nat.div_div_eq_div_mul]
  rw [ntohl_long, htonl, hhtonl, hd0, hd1, hd2, hd3, htwo, hthree]
  omega

theorem length_long (n : Nat) : (Client.long n).length = 8 := rfl

section Bytes

variable (req : PrintReq)

theorem bytes_eq : req.bytes =
    Client.long req.size ++ (Client.long req.flags ++ (req.usernm ++ req.jobnm)) := by
  simp only [PrintReq.bytes, List.append_assoc]

theorem drop_bytes_flags :
    req.bytes.drop 8 = Client.long req.flags ++ (req.usernm ++ req.jobnm) := by
  rw [bytes_eq]
  exact List.drop_left' (length_long _)

theorem drop_bytes_usernm : req.bytes.drop 16 = req.usernm ++ req.jobnm := by
  rw [← List.drop_drop (i := 8) (j := 8), drop_bytes_flags]
  exact List.drop_left' (length_long _)

theorem bytes_usernm : (req.bytes.drop 16).take USERNM_MAX = req.usernm := by
  rw [drop_bytes_usernm]
  exact List.take_left' req.usernm_length

theorem bytes_jobnm : req.bytes.drop (16 + USERNM_MAX) = req.jobnm := by
  rw [← List.drop_drop, drop_bytes_usernm]
  exact List.drop_left' req.usernm_length

theorem ntohl_append (n : Nat) (rest : List Byte) :
    Client.ntohl (Client.long n ++ rest) = Client.ntohl (Client.long n) := by
  rw [Client.ntohl, List.take_append_of_le_length (by rw [length_long]; decide)]
  rfl

end Bytes

/-- The daemon has the names as they were sent, and the numbers with their bytes turned. -/
theorem ofBytes_bytes (req : PrintReq) {bytes : List Byte} (hbytes : bytes.length = Client.REQSZ)
    (heq : bytes = req.bytes) :
    PrintReq.ofBytes bytes hbytes =
      { req with
        size := Client.ntohl (Client.long req.size)
        flags := Client.ntohl (Client.long req.flags) } := by
  subst heq
  have hsize : Client.ntohl req.bytes = Client.ntohl (Client.long req.size) := by
    rw [bytes_eq, ntohl_append]
  have hflags : Client.ntohl (req.bytes.drop 8) = Client.ntohl (Client.long req.flags) := by
    rw [drop_bytes_flags, ntohl_append]
  have husernm := bytes_usernm req
  have hjobnm := bytes_jobnm req
  rw [PrintReq.ofBytes]
  congr

end ApueCourse.Print
