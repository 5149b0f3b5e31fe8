import ApueCourse.Print.Submit

/-! What `printer_thread` sends to the printer, and how it is read there. -/

namespace ApueCourse.Print

open Memory Program

def HBUFSZ : Nat := 512

def CRLF : List Byte := [13, 10]

/-- The part of `printer_thread` that sets up the HTTP header in `hbuf`. -/
def setUpHttp (hbuf : Block) (printer_name : List Byte) (st_size ilen : Nat) : Option Cursor := do
  let hcp ← Cursor.puts (ascii "POST /" ++ printer_name ++ ascii "/ipp HTTP/1.1" ++ CRLF) ⟨hbuf, 0⟩
  let hcp ← hcp.puts (ascii "Content-Length: " ++ sprintfLong (st_size + ilen : Nat) ++ CRLF)
  let hcp ← hcp.puts (ascii "Content-Type: application/ipp" ++ CRLF)
  let hcp ← hcp.puts
    (ascii "Host: " ++ printer_name ++ ascii ":" ++ sprintfLong IPP_PORT ++ CRLF)
  let hcp ← hcp.put 13
  hcp.put 10

/-- From the two headers to the last byte of the file. -/
def sendJob (turns : Nat) (hbuf ibuf : Block) (jobid : Nat) (printer_name : List Byte)
    (req : PrintReq) (st_size : Nat) : Transfer.P Unit :=
  match setUpHeader ibuf jobid printer_name req with
  | none => .stop .bounds
  | some icp =>
      match setUpHttp hbuf printer_name st_size icp.pos with
      | none => .stop .bounds
      | some hcp => do
          Transfer.sendAll .defer (hcp.block.take hcp.pos ++ icp.block.take icp.pos)
          Transfer.sendFile .defer .defer turns

/-! The specification: an HTTP request as it is read by its lines and its length, with a print
job for its body. -/

/-- A line and what stands behind its end. -/
def readLine : List Byte → Option (List Byte × List Byte)
  | [] => none
  | c :: rest =>
      if c = 13 ∧ rest.head? = some 10 then some ([], rest.tail)
      else (readLine rest).map fun (line, rest) => (c :: line, rest)

/-- The lines in front of the empty one. -/
def readHead : Nat → List Byte → Option (List (List Byte) × List Byte)
  | 0, _ => none
  | fuel + 1, bytes => do
      let (line, rest) ← readLine bytes
      if line = [] then return ([], rest)
      else
        let (lines, rest) ← readHead fuel rest
        return (line :: lines, rest)

def contentLength (fields : List (List Byte)) : Option Int := do
  let field ← fields.find? fun field => (ascii "Content-Length: ").isPrefixOf field
  atol (field.drop (ascii "Content-Length: ").length ++ [0])

/-- The lines and the body, if the message is as long as it says. -/
def readRequest (bytes : List Byte) : Option (List (List Byte) × List Byte) := do
  let (head, body) ← readHead bytes.length bytes
  let n ← contentLength head
  if n = body.length then return (head, body) else none

/-- The attributes up to the end tag, and the document. -/
def readGroup : Nat → List Byte → Option (List Attribute × List Byte)
  | 0, _ => none
  | _ + 1, [] => none
  | fuel + 1, tag :: rest =>
      if tag = TAG_END_OF_ATTR then some ([], rest)
      else do
        let name ← readField rest
        let value ← readField name.2
        let (attrs, document) ← readGroup fuel value.2
        return (⟨tag, name.1, value.1⟩ :: attrs, document)

structure PrintJob where
  request_id : Nat
  attributes : List Attribute
  document : List Byte

/-- The version 1.1 of the request and the operation stand in front. -/
def readPrintJob (body : List Byte) : Option PrintJob := do
  if body.take 4 = [1, 1, (htons OP_PRINT_JOB).1, (htons OP_PRINT_JOB).2] ∧
      body[8]? = some TAG_OPERATION_ATTR then
    let (attributes, document) ← readGroup body.length (body.drop 9)
    return ⟨Client.ntohl (body.drop 4), attributes, document⟩
  else none

theorem readLine_append {line : List Byte} (hline : 13 ∉ line) (rest : List Byte) :
    readLine (line ++ CRLF ++ rest) = some (line, rest) := by
  induction line with
  | nil => rfl
  | cons c line ih =>
      rw [List.mem_cons, not_or] at hline
      rw [List.cons_append, List.cons_append, readLine, if_neg (fun h => hline.1 h.1.symm),
        ih hline.2]
      rfl

theorem readHead_append {lines : List (List Byte)} (hlines : ∀ line ∈ lines, 13 ∉ line ∧ line ≠ [])
    {fuel : Nat} (hfuel : lines.length < fuel) (body : List Byte) :
    readHead fuel (lines.flatMap (· ++ CRLF) ++ CRLF ++ body) = some (lines, body) := by
  induction lines generalizing fuel with
  | nil =>
      obtain ⟨fuel, rfl⟩ := Nat.exists_eq_succ_of_ne_zero (Nat.ne_of_gt hfuel)
      rw [readHead]
      simp only [List.flatMap_nil]
      rw [readLine_append List.not_mem_nil]
      rfl
  | cons line lines ih =>
      obtain ⟨fuel, rfl⟩ := Nat.exists_eq_succ_of_ne_zero (Nat.ne_of_gt (Nat.zero_lt_of_lt hfuel))
      obtain ⟨hcr, hne⟩ := hlines line List.mem_cons_self
      have hrest := @ih (fun line hline => hlines line (List.mem_cons_of_mem _ hline)) fuel
        (Nat.lt_of_succ_lt_succ hfuel)
      rw [readHead, List.flatMap_cons, List.append_assoc, List.append_assoc (line ++ CRLF),
        readLine_append hcr]
      simp only [Option.bind_eq_bind, Option.bind_some, if_neg hne]
      rw [← List.append_assoc, hrest]
      rfl

theorem length_le_flatMap (lines : List (List Byte)) :
    lines.length ≤ (lines.flatMap (· ++ CRLF)).length := by
  induction lines with
  | nil => exact Nat.le_refl 0
  | cons line lines ih =>
      rw [List.flatMap_cons, List.length_append, List.length_append, List.length_cons]
      have hcrlf : CRLF.length = 2 := rfl
      omega

/-- A message of the lines and a body, where the length is the one of the body. -/
theorem readRequest_append {lines : List (List Byte)} {body : List Byte}
    (hlines : ∀ line ∈ lines, 13 ∉ line ∧ line ≠ [])
    (hlength : contentLength lines = some (body.length : Int)) :
    readRequest (lines.flatMap (· ++ CRLF) ++ CRLF ++ body) = some (lines, body) := by
  have hfuel : lines.length < (lines.flatMap (· ++ CRLF) ++ CRLF ++ body).length := by
    have hle := length_le_flatMap lines
    have hcrlf : CRLF.length = 2 := rfl
    rw [List.length_append, List.length_append]
    omega
  rw [readRequest, readHead_append hlines hfuel]
  simp [hlength]

theorem readGroup_encode {attrs : List Attribute} (hattrs : ∀ attr ∈ attrs, attr.Readable)
    {fuel : Nat} (hfuel : attrs.length < fuel) (document : List Byte) :
    readGroup fuel (encodeAttributes attrs ++ document) = some (attrs, document) := by
  induction attrs generalizing fuel with
  | nil =>
      obtain ⟨fuel, rfl⟩ := Nat.exists_eq_succ_of_ne_zero (Nat.ne_of_gt hfuel)
      rw [encodeAttributes, List.singleton_append, readGroup, if_pos rfl]
  | cons attr rest ih =>
      obtain ⟨fuel, rfl⟩ := Nat.exists_eq_succ_of_ne_zero (Nat.ne_of_gt (Nat.zero_lt_of_lt hfuel))
      obtain ⟨htag, hname, hvalue⟩ := hattrs attr List.mem_cons_self
      have hrest := @ih (fun attr hattr => hattrs attr (List.mem_cons_of_mem _ hattr)) fuel
        (Nat.lt_of_succ_lt_succ hfuel)
      rw [encodeAttributes, Attribute.encode, List.cons_append, List.cons_append, List.append_assoc,
        List.append_assoc, readGroup, if_neg htag, readField_encodeField hname]
      simp only [Option.bind_eq_bind, Option.bind_some, readField_encodeField hvalue, hrest]
      rfl

/-! The message is read back. -/

theorem take_of_emits {f : Cursor → Option Cursor} {bytes : List Byte} {reach : Nat}
    (hf : Cursor.Emits f bytes reach) {block : Block} {cp : Cursor}
    (hcp : f ⟨block, 0⟩ = some cp) : cp.block.take cp.pos = bytes ∧ cp.pos = bytes.length := by
  have hspec := hf [] block
  simp only [List.nil_append, List.length_nil, Nat.zero_add] at hspec
  split at hspec
  · obtain ⟨rest, -, hsome⟩ := hspec
    rw [hsome] at hcp
    cases hcp
    exact ⟨List.take_left, rfl⟩
  · rw [hspec] at hcp
    cases hcp

/-- The lines of the HTTP header. -/
def httpLines (printer_name : List Byte) (length : Nat) : List (List Byte) :=
  [ascii "POST /" ++ printer_name ++ ascii "/ipp HTTP/1.1",
    ascii "Content-Length: " ++ decimal length,
    ascii "Content-Type: application/ipp",
    ascii "Host: " ++ printer_name ++ ascii ":" ++ decimal 631]

theorem take_puts {post length type host block : List Byte} {hcp : Cursor}
    (hset : (do
      let hcp ← Cursor.puts post ⟨block, 0⟩
      let hcp ← hcp.puts length
      let hcp ← hcp.puts type
      let hcp ← hcp.puts host
      let hcp ← hcp.put 13
      hcp.put 10) = some hcp) :
    hcp.block.take hcp.pos = post ++ (length ++ (type ++ (host ++ CRLF))) := by
  have hend := (Cursor.emits_put 13).append (Cursor.emits_put 10)
  have hhost := (Cursor.emits_puts host).bind hend rfl
  have htype := (Cursor.emits_puts type).bind hhost rfl
  have hlength := (Cursor.emits_puts length).bind htype rfl
  have hpost := (Cursor.emits_puts post).bind hlength rfl
  exact (take_of_emits hpost hset).1

theorem setUpHttp_eq {hbuf : Block} {printer_name : List Byte} {st_size ilen : Nat} {hcp : Cursor}
    (hset : setUpHttp hbuf printer_name st_size ilen = some hcp) :
    hcp.block.take hcp.pos =
      (httpLines printer_name (st_size + ilen)).flatMap (· ++ CRLF) ++ CRLF := by
  rw [setUpHttp] at hset
  rw [take_puts hset]
  simp only [httpLines, List.flatMap_cons, List.flatMap_nil, List.append_assoc, List.nil_append]
  rfl

theorem setUpHeader_eq {ibuf : Block} {jobid : Nat} {printer_name usernm jobnm : List Byte}
    {req : PrintReq} {icp : Cursor} (husernm : cstring req.usernm = some usernm)
    (hjobnm : cstring req.jobnm = some jobnm)
    (hset : setUpHeader ibuf jobid printer_name req = some icp) :
    (printerUri printer_name).length < STRSZ ∧
      icp.block.take icp.pos = encodeRequest jobid printer_name usernm jobnm req.flags ∧
      icp.pos = (encodeRequest jobid printer_name usernm jobnm req.flags).length ∧
      icp.pos ≤ ibuf.length := by
  have huri : (printerUri printer_name).length < STRSZ := by
    rw [setUpHeader] at hset
    split at hset
    · cases hset
    · rename_i huri
      exact Nat.le_of_not_lt huri
  have hspec := @setUpHeader_spec ibuf jobid printer_name usernm jobnm req huri husernm hjobnm
  dsimp only at hspec
  rw [hset] at hspec
  split at hspec
  · rename_i hroom
    obtain ⟨rest, -, hicp⟩ := hspec
    cases hicp
    exact ⟨huri, List.take_left, rfl, hroom⟩
  · cases hspec

theorem cr_not_mem_decimal (n : Nat) : 13 ∉ decimal n := fun hmem =>
  absurd (isDigit_of_mem_decimal hmem) (by decide)

theorem httpLines_clean {printer_name : List Byte} (hname : 13 ∉ printer_name) (length : Nat) :
    ∀ line ∈ httpLines printer_name length, 13 ∉ line ∧ line ≠ [] := by
  simp only [httpLines, List.forall_mem_cons, List.mem_append, not_or]
  refine ⟨⟨⟨⟨by decide, hname⟩, by decide⟩, List.cons_ne_nil _ _⟩,
    ⟨⟨by decide, cr_not_mem_decimal _⟩, List.cons_ne_nil _ _⟩,
    ⟨by decide, List.cons_ne_nil _ _⟩,
    ⟨⟨⟨⟨by decide, hname⟩, by decide⟩, cr_not_mem_decimal _⟩, List.cons_ne_nil _ _⟩, nofun⟩

theorem contentLength_httpLines (printer_name : List Byte) {length : Nat}
    (hlength : (length : Int) ≤ LONG_MAX) :
    contentLength (httpLines printer_name length) = some (length : Int) := by
  have hpost : ¬ (ascii "Content-Length: ").isPrefixOf
      (ascii "POST /" ++ printer_name ++ ascii "/ipp HTTP/1.1") = true := Bool.false_ne_true
  have hfield : (ascii "Content-Length: ").isPrefixOf
      (ascii "Content-Length: " ++ decimal length) = true :=
    List.isPrefixOf_iff_prefix.mpr (List.prefix_append _ _)
  rw [contentLength, httpLines, List.find?_cons_of_neg hpost, List.find?_cons_of_pos hfield]
  simp only [Option.bind_eq_bind, Option.bind_some, List.drop_left]
  exact atol_decimal hlength 0 (by decide) []

theorem ntohl_request_id (jobid : Nat) (rest : List Byte) :
    Client.ntohl ((htons (jobid / 65536)).1 :: (htons (jobid / 65536)).2 :: (htons jobid).1 ::
      (htons jobid).2 :: rest) = jobid % 2 ^ 32 := by
  have htwo : jobid / 65536 = jobid / 256 / 256 := (Nat.div_div_eq_div_mul jobid 256 256).symm
  simp only [Client.ntohl, htons, List.take_succ_cons, List.take_zero, List.foldl_cons,
    List.foldl_nil, UInt8.toNat_ofNat', Nat.reducePow, htwo]
  omega

theorem readPrintJob_encode {printer_name usernm jobnm : List Byte} {jobid flags : Nat}
    (hreadable : ∀ attr ∈ jobAttributes printer_name usernm jobnm flags, attr.Readable)
    (document : List Byte) :
    readPrintJob (encodeRequest jobid printer_name usernm jobnm flags ++ document) =
      some ⟨jobid % 2 ^ 32, jobAttributes printer_name usernm jobnm flags, document⟩ := by
  have hdrop : (encodeRequest jobid printer_name usernm jobnm flags ++ document).drop 9 =
      encodeAttributes (jobAttributes printer_name usernm jobnm flags) ++ document := rfl
  have hfuel : (jobAttributes printer_name usernm jobnm flags).length <
      (encodeRequest jobid printer_name usernm jobnm flags ++ document).length := by
    rw [List.length_append, length_encodeRequest]
    change 6 < _
    omega
  have hid : Client.ntohl
      ((encodeRequest jobid printer_name usernm jobnm flags ++ document).drop 4) = jobid % 2 ^ 32 :=
    ntohl_request_id jobid _
  rw [readPrintJob, if_pos ⟨rfl, rfl⟩, hdrop, readGroup_encode hreadable hfuel, hid]
  rfl

variable {turns : Nat} {hbuf ibuf : Block} {jobid : Nat}
  {printer_name usernm jobnm content : List Byte} {req : PrintReq} {w' : Transfer.World}
  {made : List Transfer.Event}

/-- The message that the printer gets is as long as it says, and is the job with all of its
file. -/
theorem sendJob_sent (hname : 13 ∉ printer_name) (husernm : cstring req.usernm = some usernm)
    (hjobnm : cstring req.jobnm = some jobnm)
    (hsize : ((content.length + IBUFSZ : Nat) : Int) ≤ LONG_MAX) (hibuf : ibuf.length = IBUFSZ)
    (hrun : (sendJob turns hbuf ibuf jobid printer_name req content.length).Runs Transfer.Sys
      ⟨content, []⟩ made (.ok ()) w') :
    ∃ head body, readRequest w'.sent = some (head, body) ∧
      readPrintJob body =
        some ⟨jobid % 2 ^ 32, jobAttributes printer_name usernm jobnm req.flags, content⟩ := by
  rw [sendJob] at hrun
  split at hrun
  · obtain ⟨-, houtcome, -⟩ := hrun.of_stop
    cases houtcome
  rename_i icp hicp
  split at hrun
  · obtain ⟨-, houtcome, -⟩ := hrun.of_stop
    cases houtcome
  rename_i hcp hhcp
  obtain ⟨_, middle, first, second, -, hfirst, hsecond⟩ := hrun.of_bind_ok
  obtain ⟨hfile, hsent⟩ := Transfer.runs_sendAll hfirst
  have hsent' := Transfer.runs_sendFile hsecond
  obtain ⟨huri, hipp, hpos, hroom⟩ := setUpHeader_eq husernm hjobnm hicp
  have hmessage : w'.sent =
      (httpLines printer_name (content.length + icp.pos)).flatMap (· ++ CRLF) ++ CRLF ++
        (encodeRequest jobid printer_name usernm jobnm req.flags ++ content) := by
    rw [hsent', hfile, hsent, setUpHttp_eq hhcp, hipp]
    simp only [List.nil_append, List.append_assoc]
  have hlength : contentLength (httpLines printer_name (content.length + icp.pos)) =
      some ((encodeRequest jobid printer_name usernm jobnm req.flags ++ content).length : Int) := by
    have hle : content.length + icp.pos ≤ content.length + IBUFSZ := by omega
    rw [contentLength_httpLines printer_name ((Int.ofNat_le.mpr hle).trans hsize),
      List.length_append, hpos, Nat.add_comm]
  have hreadable := readable_jobAttributes huri (req.usernm_length ▸ length_of_cstring husernm)
    (req.jobnm_length ▸ length_of_cstring hjobnm) req.flags
  refine ⟨httpLines printer_name (content.length + icp.pos), _, ?_,
    readPrintJob_encode hreadable content⟩
  rw [hmessage]
  exact readRequest_append (httpLines_clean hname _) hlength

end ApueCourse.Print
