import ApueCourse.Print.Message
import ApueCourse.Print.Spooling

/-! A job from the client to the printer, by way of the spool. -/

namespace ApueCourse.Print

open Memory Program Client

/-- The eight bytes of a `long`. -/
def host (field : List Byte) : Nat :=
  (field.take 8).foldr (fun c n => c.toNat + 256 * n) 0

/-- A request as `read` puts it back into the structure. -/
def PrintReq.ofHost (bytes : List Byte) (hbytes : bytes.length = REQSZ) : PrintReq where
  size := host bytes
  flags := host (bytes.drop 8)
  usernm := (bytes.drop 16).take USERNM_MAX
  jobnm := bytes.drop (16 + USERNM_MAX)
  usernm_length := (PrintReq.ofBytes bytes hbytes).usernm_length
  jobnm_length := (PrintReq.ofBytes bytes hbytes).jobnm_length

/-- What `build_qonstart` makes of a control file. -/
def readReq (content : List Byte) : Option PrintReq :=
  if hlength : (content.take REQSZ).length = REQSZ then
    some (PrintReq.ofHost (content.take REQSZ) hlength)
  else none

/-- All that `printer_thread` can send for a request with this file is the job as it is given
here. -/
def PrintsAs (req : PrintReq) (printer_name usernm jobnm content : List Byte) (flags : Nat) :
    Prop :=
  ∀ (turns jobid : Nat) (hbuf ibuf : Block) (made : List Transfer.Event)
    (printed : Transfer.World), ibuf.length = IBUFSZ →
    (sendJob turns hbuf ibuf jobid printer_name req content.length).Runs Transfer.Sys
      ⟨content, []⟩ made (.ok ()) printed →
    ∃ head body, readRequest printed.sent = some (head, body) ∧
      readPrintJob body =
        some ⟨jobid % 2 ^ 32, jobAttributes printer_name usernm jobnm flags, content⟩

theorem host_long {n : Nat} (hn : n < 2 ^ 64) (rest : List Byte) :
    host (long n ++ rest) = n := by
  simp only [host, long, List.range, List.range.loop, List.map_cons, List.map_nil,
    List.cons_append, List.take_succ_cons, List.take_zero, List.foldr_cons, List.foldr_nil,
    UInt8.toNat_ofNat', Nat.pow_succ, Nat.pow_zero, Nat.one_mul, Nat.div_one, Nat.reduceMul]
  omega

theorem ofHost_bytes {req : PrintReq} (hsize : req.size < 2 ^ 64) (hflags : req.flags < 2 ^ 64) :
    PrintReq.ofHost req.bytes req.length_bytes = req := by
  have hsize' : host req.bytes = req.size := by
    rw [bytes_eq, host_long hsize]
  have hflags' : host (req.bytes.drop 8) = req.flags := by
    rw [drop_bytes_flags, host_long hflags]
  have husernm := bytes_usernm req
  have hjobnm := bytes_jobnm req
  rw [PrintReq.ofHost]
  congr

/-- A control file is read back as it was written. -/
theorem readReq_bytes {req : PrintReq} (hsize : req.size < 2 ^ 64) (hflags : req.flags < 2 ^ 64) :
    readReq req.bytes = some req := by
  have hwhole : req.bytes.take REQSZ = req.bytes :=
    List.take_of_length_le (Nat.le_of_eq req.length_bytes)
  rw [readReq, dif_pos (by rw [hwhole]; exact req.length_bytes)]
  simp only [hwhole]
  rw [ofHost_bytes hsize hflags]

theorem spoolFlags_lt {buf : Block} {opening : List Byte} {flags : Nat} (hflags : flags < 2 ^ 32) :
    spoolFlags buf opening flags < 2 ^ 32 := by
  rw [spoolFlags]
  split
  · exact Nat.or_lt_two_pow hflags (by decide)
  · exact hflags

variable {junk : PrintReq} {pw_name : Option (List Byte)} {fname content printer_name : List Byte}
  {nbytes turns turns' : Nat} {text : Bool} {buf : Block} {sender : Transfer.World}
  {made : List Transfer.Event} {made' : List Client.Event} {w w' : Client.World}

/-- A file that is read at once, and a socket that takes all. -/
def Transfer.answer : (op : Transfer.Op) → Transfer.World → op.Res × Transfer.World
  | .read nbytes, w =>
      if w.file.take nbytes ≠ [] then
        (.ok (w.file.take nbytes), { w with file := w.file.drop nbytes })
      else if w.file = [] then (.ok [], w)
      else (.error EIO, w)
  | .write bytes, w => (.ok bytes.length, { w with sent := w.sent ++ bytes })

theorem Transfer.answer_sys (op : Transfer.Op) (w : Transfer.World) :
    Transfer.Sys op w (answer op w).1 (answer op w).2 := by
  cases op with
  | read nbytes =>
      rw [answer]
      split
      · rename_i hne
        exact .data hne (List.length_take_le ..) (List.take_append_drop ..).symm
      · split
        · rename_i hfile
          exact .eof hfile
        · exact .noRead
  | write bytes =>
      have hsys := @Transfer.Sys.write w bytes _ (Nat.le_refl _)
      rw [List.take_length] at hsys
      exact hsys

/-- The user `u` submits the text `%` as `j`. -/
def submitted : List Transfer.Event × Except Transfer.Stop Unit × Transfer.World :=
  (submit_file 2 (oneByteReq 0 [] []) (some [117]) [106] 1 true).follow Transfer.answer ⟨[37], []⟩

/-- An empty spool in front of it. -/
def arrival : Client.World where
  stream := submitted.2.2.sent
  file := fun _ _ => none
  nextjob := 1
  queue := []

def accepted : List (Prog.Made Client.Op Client.Op.Res) × Except Client.Stop Unit × Client.World :=
  (client_thread 338 []).follow Client.answer arrival

end ApueCourse.Print
