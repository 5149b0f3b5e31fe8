import ApueCourse.Print.Attributes
import ApueCourse.Print.Jobno
import ApueCourse.Program.Runs

/-! A client thread of `printd.c`: how it takes a job in and answers for it. -/

namespace ApueCourse.Print.Client

open Memory Program Function

/-- `sizeof(struct printreq)`. -/
def REQSZ : Nat := 8 + 8 + USERNM_MAX + JOBNM_MAX

def IOBUFSZ : Nat := 8192

/-- `ntohl` of a `long` that `htonl` has filled at the other end: its low four bytes, which stand
in front, with the high one first. -/
def ntohl (field : List Byte) : Nat :=
  (field.take 4).foldl (fun n c => 256 * n + c.toNat) 0

/-- The eight bytes of a `long`, the low one first. -/
def long (n : Nat) : List Byte := (List.range 8).map fun i => UInt8.ofNat (n / 256 ^ i)

end ApueCourse.Print.Client

namespace ApueCourse.Print

open Memory Client

/-- The request with its numbers turned to the order of the host. -/
def PrintReq.ofBytes (bytes : List Byte) (hbytes : bytes.length = REQSZ) : PrintReq where
  size := ntohl bytes
  flags := ntohl (bytes.drop 8)
  usernm := (bytes.drop 16).take USERNM_MAX
  jobnm := bytes.drop (16 + USERNM_MAX)
  usernm_length := by
    rw [List.length_take, List.length_drop, hbytes]
    rfl
  jobnm_length := by
    rw [List.length_drop, hbytes]
    rfl

def PrintReq.bytes (req : PrintReq) : List Byte :=
  long req.size ++ long req.flags ++ req.usernm ++ req.jobnm

theorem PrintReq.length_bytes (req : PrintReq) : req.bytes.length = REQSZ := by
  simp only [bytes, long, List.length_append, List.length_map, List.length_range,
    req.usernm_length, req.jobnm_length]
  rfl

end ApueCourse.Print

namespace ApueCourse.Print.Client

open Memory Program Function

/-- The directories of the spool. -/
inductive Dir
  | data
  | reqs
  deriving DecidableEq

/-- What `errno` holds behind a call that has failed. -/
abbrev Errno := { n : Nat // n ≠ 0 }

def EIO : Errno := ⟨5, by decide⟩

/-- `strerror` gets the code as it goes to the client. -/
inductive Msg
  | strerror (retcode : Nat)
  | requestId (jobid : Int)
  deriving DecidableEq

/-- `struct printresp`; the number is missing where the code sets none. -/
structure PrintResp where
  retcode : Nat
  jobid : Option Int
  msg : Msg

/-- The calls of the thread on what it shares with others.  A file is named by its directory and
the number of the job. -/
inductive Op
  | tread (nbytes timout : Nat)
  | get_newjobno
  | creat (dir : Dir) (jobid : Int)
  | write (dir : Dir) (jobid : Int) (bytes : List Byte)
  | close
  | unlink (dir : Dir) (jobid : Int)
  | writen (res : PrintResp)
  | add_job (req : PrintReq) (jobid : Int)

/-- `tread` gives no bytes at the end of the stream. -/
abbrev Op.Answer : Op → Type
  | .tread .. => Except Errno (List Byte)
  | .get_newjobno => Int
  | .creat .. | .unlink .. => Bool
  | .write .. => Except Errno Nat
  | .close | .writen _ | .add_job .. => Unit

/-- `none` where `kill_workers` has cancelled the thread and the call is where it ends. -/
def Op.Res (op : Op) : Type := Option op.Answer

inductive Stop
  | exit
  | cancelled
  | spin
  deriving DecidableEq

abbrev P := Prog Op Op.Res Stop

def ask (op : Op) : P op.Answer :=
  .call op fun (answer : Option op.Answer) =>
    match answer with
    | some a => .ret a
    | none => .stop .cancelled

/-- The loop of `treadn` with the bytes that it has read. -/
def treadn (timout : Nat) : Nat → Nat → List Byte → P (Except Errno (List Byte))
  | 0, _, bytes => return .ok bytes
  | turns + 1, nleft, bytes => do
      if nleft = 0 then
        return .ok bytes
      else
        match ← ask (.tread nleft timout) with
        | .error errno =>
            if bytes = [] then return .error errno else return .ok bytes
        | .ok more =>
            if more = [] then return .ok bytes
            else treadn timout turns (nleft - more.length) (bytes ++ more)

/-- An answer that says what has gone wrong. -/
def refusal (errno : Errno) (jobid : Option Int) : PrintResp where
  retcode := errno.1
  jobid := jobid
  msg := .strerror errno.1

/-- What `nw < 0 ? errno : EIO` makes of the result of a `write`. -/
def writeError : Except Errno Nat → Errno
  | .error errno => errno
  | .ok _ => EIO

/-- `"%!PS"`. -/
def PSMAGIC : List Byte := [37, 33, 80, 83]

/-- The loop that stores the data, with `first` and the flags. -/
def receive (jobid : Int) : Nat → Block → Bool → Nat → P Nat
  | 0, _, _, _ => .stop .spin
  | turns + 1, buf, first, flags => do
      match ← ask (.tread IOBUFSZ 20) with
      -- a time-out, an error and the end of the stream all end the loop
      | .error _ => return flags
      | .ok bytes =>
          if bytes = [] then return flags
          else
            let buf := bytes ++ buf.drop bytes.length
            let flags := if first ∧ buf.take 4 ≠ PSMAGIC then flags ||| PR_TEXT else flags
            let nw ← ask (.write .data jobid bytes)
            if nw.toOption ≠ some bytes.length then
              ask .close
              ask (.writen (refusal (writeError nw) none))
              let _ ← ask (.unlink .data jobid)
              .stop .exit
            else
              receive jobid turns buf false flags

/-- Behind the loop: the control file, the answer and the queue. -/
def accept (req : PrintReq) (jobid : Int) : P Unit := do
  ask .close
  let created ← ask (.creat .reqs jobid)
  if created = false then
    ask (.writen (refusal EIO (some 0)))
    let _ ← ask (.unlink .data jobid)
    .stop .exit
  else
    let nw ← ask (.write .reqs jobid req.bytes)
    if nw.toOption ≠ some REQSZ then
      ask .close
      ask (.writen (refusal (writeError nw) (some 0)))
      let _ ← ask (.unlink .reqs jobid)
      let _ ← ask (.unlink .data jobid)
      .stop .exit
    else
      ask .close
      ask (.writen ⟨0, some jobid, .requestId jobid⟩)
      ask (.add_job req jobid)

/-- Behind the creation of the data file; `buf` is the buffer as the stack has it. -/
def store (turns : Nat) (buf : Block) (req : PrintReq) (jobid : Int) : P Unit := do
  let flags ← receive jobid turns buf true req.flags
  accept { req with flags } jobid

def client_thread (turns : Nat) (buf : Block) : P Unit := do
  match ← treadn 10 REQSZ REQSZ [] with
  | .error errno => do
      ask (.writen (refusal errno (some 0)))
      .stop .exit
  | .ok bytes =>
      if hbytes : bytes.length = REQSZ then do
        let req := PrintReq.ofBytes bytes hbytes
        let jobid ← ask .get_newjobno
        let created ← ask (.creat .data jobid)
        if created = false then
          ask (.writen (refusal EIO (some 0)))
          .stop .exit
        else
          store turns buf req jobid
      else do
        ask (.writen (refusal EIO (some 0)))
        .stop .exit

/-! What the calls do. -/

/-- The bytes that the client will still send before it closes the connection or falls silent, the
files, the counter and the queue. -/
structure World where
  stream : List Byte
  file : Dir → Int → Option (List Byte)
  nextjob : Int
  queue : List Int

def World.setFile (w : World) (dir : Dir) (jobid : Int) (content : Option (List Byte)) : World :=
  { w with file := update w.file dir (update (w.file dir) jobid content) }

/-- A thread that is cancelled goes on to the next of these calls. -/
def Op.CancellationPoint : Op → Prop
  | .tread .. | .creat .. | .write .. | .close | .writen _ => True
  | .get_newjobno | .unlink .. | .add_job .. => False

inductive Sys : (op : Op) → World → op.Res → World → Prop
  | cancelled {op : Op} {w : World} (hpoint : op.CancellationPoint) :
      Sys op w none w
  | data {w : World} {nbytes timout : Nat} {bytes rest : List Byte} (hne : bytes ≠ [])
      (hle : bytes.length ≤ nbytes) (hstream : w.stream = bytes ++ rest) :
      Sys (.tread nbytes timout) w (some (.ok bytes)) { w with stream := rest }
  | eof {w : World} {nbytes timout : Nat} (hstream : w.stream = []) :
      Sys (.tread nbytes timout) w (some (.ok [])) w
  | noData {w : World} {nbytes timout : Nat} {errno : Errno} :
      Sys (.tread nbytes timout) w (some (.error errno)) w
  | get_newjobno {w : World} :
      Sys .get_newjobno w (some (Print.get_newjobno w.nextjob).1)
        { w with nextjob := (Print.get_newjobno w.nextjob).2 }
  | creat {w : World} {dir : Dir} {jobid : Int} :
      Sys (.creat dir jobid) w (some true) (w.setFile dir jobid (some []))
  | noCreat {w : World} {dir : Dir} {jobid : Int} : Sys (.creat dir jobid) w (some false) w
  | write {w : World} {dir : Dir} {jobid : Int} {bytes content : List Byte} {n : Nat}
      (hfile : w.file dir jobid = some content) (hn : n ≤ bytes.length) :
      Sys (.write dir jobid bytes) w (some (.ok n))
        (w.setFile dir jobid (some (content ++ bytes.take n)))
  | noWrite {w : World} {dir : Dir} {jobid : Int} {bytes : List Byte} {errno : Errno} :
      Sys (.write dir jobid bytes) w (some (.error errno)) w
  | close {w : World} : Sys .close w (some ()) w
  | unlink {w : World} {dir : Dir} {jobid : Int} (hfile : w.file dir jobid ≠ none) :
      Sys (.unlink dir jobid) w (some true) (w.setFile dir jobid none)
  | noUnlink {w : World} {dir : Dir} {jobid : Int} : Sys (.unlink dir jobid) w (some false) w
  | writen {w : World} {res : PrintResp} : Sys (.writen res) w (some ()) w
  | add_job {w : World} {req : PrintReq} {jobid : Int} :
      Sys (.add_job req jobid) w (some ()) { w with queue := w.queue ++ [jobid] }

end ApueCourse.Print.Client
