import ApueCourse.Print.Client

/-! `printer_status` of `printd.c`: what the daemon makes of the printer's response. -/

namespace ApueCourse.Print.Reply

open Memory Program

/-- The only call that waits for the printer; the socket is always the same. -/
inductive Op
  | tread (nbytes timout : Nat)

/-- `tread` gives no bytes when the printer has closed the connection. -/
abbrev Op.Res : Op → Type
  | .tread .. => Except Client.Errno (List Byte)

/-- A byte outside the allocated buffer, a byte that has not been received, or a loop that has made
all of its turns. -/
inductive Stop
  | bounds
  | unreceived
  | spin
  deriving DecidableEq

abbrev P := Prog Op Op.Res Stop

def tread (nbytes timout : Nat) : P (Except Client.Errno (List Byte)) :=
  .call (.tread nbytes timout) .ret

/-- The buffer behind `bp`: the size that it has been allocated with, and the bytes of the response
at hand that are in it. What else it holds is left from earlier. -/
structure Buf where
  bytes : List Byte
  size : Nat

/-- `bp[i]` in a place where its value decides. -/
def Buf.get (bp : Buf) (i : Nat) : P Byte :=
  if i < bp.size then
    match bp.bytes[i]? with
    | some c => return c
    | none => .stop .unreceived
  else .stop .bounds

/-- The bytes at `i`, one after the other. -/
def Buf.read (bp : Buf) : Nat → Nat → P (List Byte)
  | 0, _ => return []
  | n + 1, i => do
      let c ← bp.get i
      let rest ← bp.read n (i + 1)
      return c :: rest

def Buf.put (bp : Buf) (i : Nat) (c : Byte) : P Buf :=
  if i < bp.size then return { bp with bytes := bp.bytes.set i c } else .stop .bounds

/-- `tread` stores from `off` on. -/
def Buf.store (bp : Buf) (off : Nat) (chunk : List Byte) : Buf :=
  { bp with bytes := bp.bytes.take off ++ chunk ++ bp.bytes.drop (off + chunk.length) }

/-- `while (p(*cp)) cp++;` -/
def scan (p : Byte → Bool) : Nat → Buf → Nat → P Nat
  | 0, _, _ => .stop .spin
  | turns + 1, bp, cp => do
      let c ← bp.get cp
      if p c then scan p turns bp (cp + 1) else return cp

/-- The logging functions read their text up to its end. -/
def log_msg (turns : Nat) (bp : Buf) (text : Nat) : P Unit := do
  let _ ← scan (fun c => c ≠ 0) turns bp text

/-- `(int)strtol(nptr, NULL, 10)`. -/
def atoi (bp : Buf) (nptr : Nat) : P Int :=
  match atol (bp.bytes.drop nptr) with
  | some n => return n.bmod (2 ^ 32)
  | none => .stop .unreceived

def tolower (c : Byte) : Byte := if 65 ≤ c ∧ c ≤ 90 then c + 32 else c

/-- The bytes under `cp` are compared with those of a text until two are not the same. -/
def agrees (same : Byte → Byte → Bool) : List Byte → Buf → Nat → P Bool
  | [], _, _ => return true
  | c :: text, bp, cp => do
      let d ← bp.get cp
      if same d c then agrees same text bp (cp + 1) else return false

/-- `strncasecmp(cp, text, strlen(text)) == 0`. -/
def strncasecmp : List Byte → Buf → Nat → P Bool := agrees fun d c => tolower d = tolower c

/-- `"Content-Length:"`. -/
def CONTENT_LENGTH : List Byte :=
  [67, 111, 110, 116, 101, 110, 116, 45, 76, 101, 110, 103, 116, 104, 58]

def HTTP_INFO (x : Int) : Prop := x ≥ 100 ∧ x ≤ 199

def HTTP_SUCCESS (x : Int) : Prop := x ≥ 200 ∧ x ≤ 299

def STATCLASS_OK (x : Nat) : Prop := x ≥ 0x0000 ∧ x ≤ 0x00ff

instance (x : Int) : Decidable (HTTP_INFO x) := inferInstanceAs (Decidable (_ ∧ _))

instance (x : Int) : Decidable (HTTP_SUCCESS x) := inferInstanceAs (Decidable (_ ∧ _))

instance (x : Nat) : Decidable (STATCLASS_OK x) := inferInstanceAs (Decidable (_ ∧ _))

/-- The buffer with the end of its data, or nothing in place of the -1. -/
def readmore (bp : Buf) (off : Nat) : P (Option (Buf × Nat)) := do
  let bp := if off ≥ bp.size then { bp with size := bp.size + Client.IOBUFSZ } else bp
  match ← tread (bp.size - off) 1 with
  | .ok chunk => if chunk = [] then return none else return some (bp.store off chunk, off + chunk.length)
  | .error _ => return none

/-- `if (i >= nr && (nr = readmore(..)) < 0)`. -/
def getMore (bp : Buf) (nr i : Nat) : P (Option (Buf × Nat)) :=
  if i ≥ nr then readmore bp i else return some (bp, nr)

def ntohs (field : List Byte) : Nat :=
  (field.take 2).foldl (fun n c => 256 * n + c.toNat) 0

/-- The verdict by the `struct ipp_hdr` at `cp`. -/
def ippStatus (jobid : Int) (bp : Buf) (cp : Nat) : P Bool := do
  let status ← bp.read 2 (cp + 2)
  let request_id ← bp.read 4 (cp + 4)
  if (Client.ntohl request_id : Int) ≠ jobid then return false
  else return STATCLASS_OK (ntohs status)

/-- Behind the end of the HTTP header, at `i`. -/
def ippHeader (jobid len : Int) (bp : Buf) (nr i : Nat) : P Bool := do
  let more ← if (nr : Int) - i < len then readmore bp i else pure (some (bp, nr))
  match more with
  | none => return false
  | some (bp, _) => ippStatus jobid bp i

/-- `"\n\r\n"`. -/
def BLANK : List Byte := [10, 13, 10]

/-- `while (i < nr - 2)`, with `found`. -/
def findEnd : Nat → Buf → Nat → Nat → Nat → P (Bool × Nat × Nat)
  | 0, _, _, _, _ => .stop .spin
  | turns + 1, bp, nr, cp, i =>
      if i + 2 < nr then do
        if ← agrees (fun d c => d = c) BLANK bp cp then return (true, cp + 3, i + 3)
        else findEnd turns bp nr (cp + 1) (i + 1)
      else return (false, cp, i)

/-- `while (!found)`. -/
def endOfHeader (jobid len : Int) (turns : Nat) : Nat → Buf → Nat → Nat → Nat → P Bool
  | 0, _, _, _, _ => .stop .spin
  | rounds + 1, bp, nr, cp, i => do
      let (found, _, i) ← findEnd turns bp nr cp i
      match ← getMore bp nr i with
      | none => return false
      | some (bp, nr) =>
          if found then ippHeader jobid len bp nr i
          else endOfHeader jobid len turns rounds bp nr i i

/-- `while (*cp != 'C' && *cp != 'c' && i < nr)`: at the end of what has been received the byte
under `cp` does not matter. -/
def seek : Nat → Buf → Nat → Nat → Nat → P (Nat × Nat)
  | 0, _, _, _, _ => .stop .spin
  | turns + 1, bp, nr, cp, i =>
      if i < nr then do
        let c ← bp.get cp
        if c ≠ 67 ∧ c ≠ 99 then seek turns bp nr (cp + 1) (i + 1) else return (cp, i)
      else if cp < bp.size then return (cp, i)
      else .stop .bounds

/-- `"Content-Length:"` is at `cp`. -/
def lengthValue (jobid : Int) (turns : Nat) (bp : Buf) (nr cp : Nat) : P Bool := do
  let contentlen ← scan isSpace turns bp (cp + 15)
  let cp ← scan isDigit turns bp contentlen
  let bp ← bp.put cp 0
  let i := cp + 1
  let len ← atoi bp contentlen
  match ← getMore bp nr i with
  | none => return false
  | some (bp, nr) => endOfHeader jobid len turns turns bp nr i i

/-- The loop that looks for the length. -/
def contentLength (jobid : Int) (turns : Nat) : Nat → Buf → Nat → Nat → Nat → P Bool
  | 0, _, _, _, _ => .stop .spin
  | rounds + 1, bp, nr, cp, i => do
      let (_, i) ← seek turns bp nr cp i
      match ← getMore bp nr i with
      | none => return false
      | some (bp, nr) =>
          let cp := i
          if ← strncasecmp CONTENT_LENGTH bp cp then lengthValue jobid turns bp nr cp
          else contentLength jobid turns rounds bp nr (cp + 1) (i + 1)

/-- `*cp != '\r' && *cp != '\n'`. -/
def isText (c : Byte) : Bool := c ≠ 13 ∧ c ≠ 10

/-- With a status code from `statcode` to `cp`; `next` is the next turn of the loop. -/
def statusLine (jobid : Int) (turns : Nat) (bp : Buf) (nr statcode cp : Nat) (next : P Bool) :
    P Bool := do
  let bp ← bp.put cp 0
  let reason := cp + 1
  let cp ← scan isText turns bp reason
  let bp ← bp.put cp 0
  let code ← atoi bp statcode
  if HTTP_INFO code then next
  else if ¬ HTTP_SUCCESS code then
    let bp ← bp.put nr 0
    log_msg turns bp reason
    return false
  else contentLength jobid turns turns bp nr cp cp

/-- What is done with a result of `tread`, which is at the start of the buffer. -/
def response (jobid : Int) (turns : Nat) (chunk : List Byte) (next : P Bool) : P Bool := do
  let bp : Buf := ⟨chunk, Client.IOBUFSZ⟩
  let nr := chunk.length
  let statcode ← scan isSpace turns bp 8
  let cp ← scan isDigit turns bp statcode
  if cp = statcode then
    log_msg turns bp 0
    next
  else statusLine jobid turns bp nr statcode cp next

/-- `while ((nr = tread(..)) > 0)`. -/
def responses (jobid : Int) (turns : Nat) : Nat → P Bool
  | 0 => .stop .spin
  | rounds + 1 => do
      match ← tread Client.IOBUFSZ 5 with
      | .error _ => return false
      | .ok chunk =>
          if chunk = [] then return false
          else response jobid turns chunk (responses jobid turns rounds)

def printer_status (jobid : Int) (turns : Nat) : P Bool := responses jobid turns turns

/-! What the printer sends: the results of `tread` up to the end of the connection, or to the
silence behind which it is given up. -/

inductive Sys : (op : Op) → List (List Byte) → op.Res → List (List Byte) → Prop
  | data {nbytes timout : Nat} {chunk : List Byte} {rest : List (List Byte)} (hne : chunk ≠ [])
      (hle : chunk.length ≤ nbytes) : Sys (.tread nbytes timout) (chunk :: rest) (.ok chunk) rest
  | eof {nbytes timout : Nat} : Sys (.tread nbytes timout) [] (.ok []) []
  | noData {nbytes timout : Nat} {errno : Client.Errno} :
      Sys (.tread nbytes timout) [] (.error errno) []

end ApueCourse.Print.Reply
