import ApueCourse.Memory.Cursor
import ApueCourse.Memory.Decimal

/-! The IPP header that the printer thread sends in front of a job. -/

namespace ApueCourse.Print

open Memory

def USERNM_MAX : Nat := 64

def JOBNM_MAX : Nat := 256

def IBUFSZ : Nat := 512

/-- The size of `str`. -/
def STRSZ : Nat := 64

def IPP_PORT : Int := 631

def PR_TEXT : Nat := 1

def OP_PRINT_JOB : Nat := 2

def TAG_OPERATION_ATTR : Byte := 0x01

def TAG_END_OF_ATTR : Byte := 0x03

def TAG_NAMEWOLANG : Byte := 0x42

def TAG_URI : Byte := 0x45

def TAG_CHARSET : Byte := 0x47

def TAG_NATULANG : Byte := 0x48

def TAG_MIMETYPE : Byte := 0x49

/-- The bytes of a string constant. -/
def ascii (s : String) : List Byte := s.toList.map fun c => UInt8.ofNat c.toNat

/-- `struct printreq`, with its numbers in the order of the host. -/
structure PrintReq where
  size : Nat
  flags : Nat
  usernm : Block
  jobnm : Block
  usernm_length : usernm.length = USERNM_MAX
  jobnm_length : jobnm.length = JOBNM_MAX

/-- The two bytes of the `int16_t`. -/
def htons (n : Nat) : Byte × Byte := (UInt8.ofNat (n / 256), UInt8.ofNat n)

def add_option (tag : Byte) (optname optval : List Byte) (cp : Cursor) : Option Cursor := do
  let cp ← cp.put tag
  let u := htons optname.length
  let cp ← cp.put u.1
  let cp ← cp.put u.2
  let cp ← cp.puts optname
  let u := htons optval.length
  let cp ← cp.put u.1
  let cp ← cp.put u.2
  cp.puts optval

/-- `struct ipp_hdr` up to its attribute group; `htonl` gives the high bytes first. -/
def putHeader (jobid : Nat) (hp : Cursor) : Option Cursor := do
  let hp ← hp.put 1
  let hp ← hp.put 1
  let hp ← hp.put (htons OP_PRINT_JOB).1
  let hp ← hp.put (htons OP_PRINT_JOB).2
  let hp ← hp.put (htons (jobid / 65536)).1
  let hp ← hp.put (htons (jobid / 65536)).2
  let hp ← hp.put (htons jobid).1
  hp.put (htons jobid).2

/-- `"http://%s:%d"`. -/
def printerUri (printer_name : List Byte) : List Byte :=
  ascii "http://" ++ printer_name ++ ascii ":" ++ sprintfLong IPP_PORT

def documentFormat (flags : Nat) : List Byte :=
  if flags &&& PR_TEXT ≠ 0 then ascii "text/plain" else ascii "application/postscript"

/-- The part of `printer_thread` that sets up the IPP header in `ibuf`; the result is `icp`
at its end. -/
def setUpHeader (ibuf : Block) (jobid : Nat) (printer_name : List Byte) (req : PrintReq) :
    Option Cursor := do
  let str := printerUri printer_name
  if str.length + 1 > STRSZ then none
  else
    let usernm ← cstring req.usernm
    let jobnm ← cstring req.jobnm
    let icp ← putHeader jobid ⟨ibuf, 0⟩
    let icp ← icp.put TAG_OPERATION_ATTR
    let icp ← add_option TAG_CHARSET (ascii "attributes-charset") (ascii "utf-8") icp
    let icp ← add_option TAG_NATULANG (ascii "attributes-natural-language") (ascii "en-us") icp
    let icp ← add_option TAG_URI (ascii "printer-uri") str icp
    let icp ← add_option TAG_NAMEWOLANG (ascii "requesting-user-name") usernm icp
    let icp ← add_option TAG_NAMEWOLANG (ascii "job-name") jobnm icp
    let icp ← add_option TAG_MIMETYPE (ascii "document-format") (documentFormat req.flags) icp
    icp.put TAG_END_OF_ATTR

/-! The specification: attributes as they are read back. -/

structure Attribute where
  tag : Byte
  name : List Byte
  value : List Byte
  deriving DecidableEq

/-- The tag, the lengths of the name and of the value, and these themselves. -/
def Attribute.size (attr : Attribute) : Nat := 1 + 2 + attr.name.length + 2 + attr.value.length

/-- A length of two bytes and as many bytes behind it. -/
def readField : List Byte → Option (List Byte × List Byte)
  | high :: low :: rest =>
      let n := high.toNat * 256 + low.toNat
      if n ≤ rest.length then some (rest.take n, rest.drop n) else none
  | _ => none

/-- The attributes up to the end tag, behind which there is nothing more. -/
def readAttributes : Nat → List Byte → Option (List Attribute)
  | 0, _ => none
  | _ + 1, [] => none
  | fuel + 1, tag :: rest =>
      if tag = TAG_END_OF_ATTR then
        if rest = [] then some [] else none
      else do
        let name ← readField rest
        let value ← readField name.2
        let attrs ← readAttributes fuel value.2
        return ⟨tag, name.1, value.1⟩ :: attrs

/-- The attributes of a job. -/
def jobAttributes (printer_name usernm jobnm : List Byte) (flags : Nat) : List Attribute :=
  [⟨TAG_CHARSET, ascii "attributes-charset", ascii "utf-8"⟩,
    ⟨TAG_NATULANG, ascii "attributes-natural-language", ascii "en-us"⟩,
    ⟨TAG_URI, ascii "printer-uri", printerUri printer_name⟩,
    ⟨TAG_NAMEWOLANG, ascii "requesting-user-name", usernm⟩,
    ⟨TAG_NAMEWOLANG, ascii "job-name", jobnm⟩,
    ⟨TAG_MIMETYPE, ascii "document-format", documentFormat flags⟩]

/-! What the code writes. -/

def encodeField (field : List Byte) : List Byte :=
  (htons field.length).1 :: (htons field.length).2 :: field

def Attribute.encode (attr : Attribute) : List Byte :=
  attr.tag :: (encodeField attr.name ++ encodeField attr.value)

def encodeAttributes : List Attribute → List Byte
  | [] => [TAG_END_OF_ATTR]
  | attr :: rest => attr.encode ++ encodeAttributes rest

def encodeHeader (jobid : Nat) : List Byte :=
  [1, 1, (htons OP_PRINT_JOB).1, (htons OP_PRINT_JOB).2, (htons (jobid / 65536)).1,
    (htons (jobid / 65536)).2, (htons jobid).1, (htons jobid).2]

theorem length_encode (attr : Attribute) :
    attr.encode.length = attr.name.length + attr.value.length + 5 := by
  simp only [Attribute.encode, encodeField, List.length_cons, List.length_append]
  omega

theorem emits_add_option (attr : Attribute) :
    Cursor.Emits (add_option attr.tag attr.name attr.value) attr.encode
      (attr.encode.length + 1) := by
  have hvalue := (Cursor.emits_put (htons attr.value.length).1).bind
    ((Cursor.emits_put (htons attr.value.length).2).bind (Cursor.emits_puts attr.value) rfl) rfl
  have hname := (Cursor.emits_put (htons attr.name.length).1).bind
    ((Cursor.emits_put (htons attr.name.length).2).bind
      ((Cursor.emits_puts attr.name).bind hvalue rfl) rfl) rfl
  apply (Cursor.emits_put attr.tag).bind hname
  rw [length_encode]
  simp only [List.length_cons, List.length_nil]
  omega

theorem emits_putHeader (jobid : Nat) :
    Cursor.Emits (putHeader jobid) (encodeHeader jobid) (encodeHeader jobid).length := by
  have hrequest := (Cursor.emits_put (htons (jobid / 65536)).1).append
    ((Cursor.emits_put (htons (jobid / 65536)).2).append
      ((Cursor.emits_put (htons jobid).1).append (Cursor.emits_put (htons jobid).2)))
  exact (Cursor.emits_put 1).append ((Cursor.emits_put 1).append
    ((Cursor.emits_put (htons OP_PRINT_JOB).1).append
      ((Cursor.emits_put (htons OP_PRINT_JOB).2).append hrequest)))

/-- The NUL behind an attribute is gone when the next byte is written. -/
theorem emits_add_option_bind (attr : Attribute) {g : Cursor → Option Cursor}
    {bytes : List Byte} (hg : Cursor.Emits g bytes bytes.length) (hbytes : bytes ≠ []) :
    Cursor.Emits (fun icp => add_option attr.tag attr.name attr.value icp >>= g)
      (attr.encode ++ bytes) (attr.encode ++ bytes).length := by
  have hpos := List.length_pos_of_ne_nil hbytes
  apply (emits_add_option attr).bind hg
  rw [List.length_append]
  omega

/-- The whole IPP header. -/
def encodeRequest (jobid : Nat) (printer_name usernm jobnm : List Byte) (flags : Nat) :
    List Byte :=
  encodeHeader jobid ++ [TAG_OPERATION_ATTR] ++
    encodeAttributes (jobAttributes printer_name usernm jobnm flags)

theorem encodeAttributes_ne_nil (attrs : List Attribute) : encodeAttributes attrs ≠ [] := by
  cases attrs with
  | nil => exact List.cons_ne_nil _ _
  | cons attr rest => exact List.cons_ne_nil _ _

/-- Where the strings end inside their buffers, `ibuf` gets the header if it has room for it. -/
theorem setUpHeader_spec {ibuf : Block} {jobid : Nat} {printer_name usernm jobnm : List Byte}
    {req : PrintReq} (huri : (printerUri printer_name).length < STRSZ)
    (husernm : cstring req.usernm = some usernm) (hjobnm : cstring req.jobnm = some jobnm) :
    let bytes := encodeRequest jobid printer_name usernm jobnm req.flags
    if bytes.length ≤ ibuf.length then
      ∃ rest, bytes.length + rest.length = ibuf.length ∧
        setUpHeader ibuf jobid printer_name req = some ⟨bytes ++ rest, bytes.length⟩
    else setUpHeader ibuf jobid printer_name req = none := by
  have hformat := emits_add_option_bind
    ⟨TAG_MIMETYPE, ascii "document-format", documentFormat req.flags⟩
    (Cursor.emits_put TAG_END_OF_ATTR) (List.cons_ne_nil _ _)
  have hjob := emits_add_option_bind ⟨TAG_NAMEWOLANG, ascii "job-name", jobnm⟩ hformat
    (List.cons_ne_nil _ _)
  have huser := emits_add_option_bind ⟨TAG_NAMEWOLANG, ascii "requesting-user-name", usernm⟩ hjob
    (List.cons_ne_nil _ _)
  have hprinter := emits_add_option_bind
    ⟨TAG_URI, ascii "printer-uri", printerUri printer_name⟩ huser (List.cons_ne_nil _ _)
  have hlanguage := emits_add_option_bind
    ⟨TAG_NATULANG, ascii "attributes-natural-language", ascii "en-us"⟩ hprinter
    (List.cons_ne_nil _ _)
  have hcharset := emits_add_option_bind
    ⟨TAG_CHARSET, ascii "attributes-charset", ascii "utf-8"⟩ hlanguage (List.cons_ne_nil _ _)
  have hibuf := (emits_putHeader jobid).append
    ((Cursor.emits_put TAG_OPERATION_ATTR).append hcharset) [] ibuf
  simp only [List.nil_append, List.length_nil, Nat.zero_add] at hibuf
  rw [setUpHeader, if_neg (Nat.not_lt_of_le huri), husernm, hjobnm, encodeRequest,
    List.append_assoc]
  exact hibuf

/-! What is read back. -/

theorem readField_encodeField {field : List Byte} (hlength : field.length < 65536)
    (rest : List Byte) : readField (encodeField field ++ rest) = some (field, rest) := by
  have hhigh : (UInt8.ofNat (field.length / 256)).toNat = field.length / 256 := by
    rw [UInt8.toNat_ofNat']
    omega
  have hlow : (UInt8.ofNat field.length).toNat = field.length % 256 := UInt8.toNat_ofNat'
  have hn : field.length / 256 * 256 + field.length % 256 = field.length :=
    Nat.div_add_mod' _ _
  rw [encodeField, htons, List.cons_append, List.cons_append, readField]
  dsimp only
  rw [hhigh, hlow, hn, if_pos (by rw [List.length_append]; exact Nat.le_add_right _ _),
    List.take_left, List.drop_left]

/-- An attribute that can be read back. -/
structure Attribute.Readable (attr : Attribute) : Prop where
  tag : attr.tag ≠ TAG_END_OF_ATTR
  name : attr.name.length < 65536
  value : attr.value.length < 65536

theorem readAttributes_encode {attrs : List Attribute} (hattrs : ∀ attr ∈ attrs, attr.Readable)
    {fuel : Nat} (hfuel : attrs.length < fuel) :
    readAttributes fuel (encodeAttributes attrs) = some attrs := by
  induction attrs generalizing fuel with
  | nil =>
      obtain ⟨fuel, rfl⟩ := Nat.exists_eq_add_of_lt hfuel
      rw [encodeAttributes, readAttributes, if_pos rfl, if_pos rfl]
  | cons attr rest ih =>
      obtain ⟨fuel, rfl⟩ := Nat.exists_eq_succ_of_ne_zero (Nat.ne_of_gt (Nat.zero_lt_of_lt hfuel))
      obtain ⟨htag, hname, hvalue⟩ := hattrs attr List.mem_cons_self
      have hrest := @ih (fun attr hattr => hattrs attr (List.mem_cons_of_mem _ hattr)) fuel
        (Nat.lt_of_succ_lt_succ hfuel)
      rw [encodeAttributes, Attribute.encode, List.cons_append, List.append_assoc,
        readAttributes, if_neg htag, readField_encodeField hname]
      simp only [Option.bind_eq_bind, Option.bind_some, readField_encodeField hvalue, hrest]
      rfl

/-! The whole header. -/

theorem length_of_cstring {block : Block} {text : List Byte} (hcstring : cstring block = some text) :
    text.length < block.length := by
  obtain ⟨-, rest, rfl⟩ := cstring_eq_some hcstring
  rw [List.length_append, List.length_cons]
  omega

theorem readable_jobAttributes {printer_name usernm jobnm : List Byte}
    (huri : (printerUri printer_name).length < STRSZ) (husernm : usernm.length < USERNM_MAX)
    (hjobnm : jobnm.length < JOBNM_MAX) (flags : Nat) :
    ∀ attr ∈ jobAttributes printer_name usernm jobnm flags, attr.Readable := by
  rw [STRSZ] at huri
  rw [USERNM_MAX] at husernm
  rw [JOBNM_MAX] at hjobnm
  have hformat : (documentFormat flags).length < 65536 := by
    unfold documentFormat
    split <;> decide
  have hreadable {tag : Byte} {name value : List Byte} (htag : tag ≠ TAG_END_OF_ATTR)
      (hname : name.length < 65536) (hvalue : value.length < 65536) :
      Attribute.Readable ⟨tag, name, value⟩ := ⟨htag, hname, hvalue⟩
  intro attr hattr
  simp only [jobAttributes, List.mem_cons, List.not_mem_nil, or_false] at hattr
  rcases hattr with rfl | rfl | rfl | rfl | rfl | rfl
  · exact hreadable (by decide) (by decide) (by decide)
  · exact hreadable (by decide) (by decide) (by decide)
  · exact hreadable (by decide) (by decide) (by omega)
  · exact hreadable (by decide) (by decide) (by omega)
  · exact hreadable (by decide) (by decide) (by omega)
  · exact hreadable (by decide) (by decide) hformat

theorem length_encodeAttributes (attrs : List Attribute) :
    (encodeAttributes attrs).length = (attrs.map Attribute.size).sum + 1 := by
  induction attrs with
  | nil => rfl
  | cons attr rest ih =>
      rw [encodeAttributes, List.length_append, ih, length_encode, List.map_cons, List.sum_cons,
        Attribute.size]
      omega

theorem length_encodeRequest (jobid : Nat) (printer_name usernm jobnm : List Byte) (flags : Nat) :
    (encodeRequest jobid printer_name usernm jobnm flags).length =
      9 + ((jobAttributes printer_name usernm jobnm flags).map Attribute.size).sum + 1 := by
  rw [encodeRequest, List.length_append, length_encodeAttributes]
  rfl

theorem sum_jobAttributes (printer_name usernm jobnm : List Byte) (flags : Nat) :
    ((jobAttributes printer_name usernm jobnm flags).map Attribute.size).sum =
      139 + ((printerUri printer_name).length + usernm.length + jobnm.length +
        (documentFormat flags).length) := by
  have hcharset : (ascii "attributes-charset").length = 18 := by decide
  have hutf : (ascii "utf-8").length = 5 := by decide
  have hlanguage : (ascii "attributes-natural-language").length = 27 := by decide
  have henus : (ascii "en-us").length = 5 := by decide
  have hprinter : (ascii "printer-uri").length = 11 := by decide
  have huser : (ascii "requesting-user-name").length = 20 := by decide
  have hjob : (ascii "job-name").length = 8 := by decide
  have hformat : (ascii "document-format").length = 15 := by decide
  simp only [jobAttributes, Attribute.size, List.map_cons, List.map_nil, List.sum_cons,
    List.sum_nil, hcharset, hutf, hlanguage, henus, hprinter, huser, hjob, hformat]
  omega

theorem setUpHeader_none {ibuf : Block} (hibuf : ibuf.length = IBUFSZ) {jobid : Nat}
    {printer_name usernm jobnm : List Byte} {req : PrintReq}
    (huri : (printerUri printer_name).length < STRSZ)
    (husernm : cstring req.usernm = some usernm) (hjobnm : cstring req.jobnm = some jobnm)
    (hlong : 363 < (printerUri printer_name).length + usernm.length + jobnm.length +
      (documentFormat req.flags).length) :
    setUpHeader ibuf jobid printer_name req = none := by
  have hspec := @setUpHeader_spec ibuf jobid printer_name usernm jobnm req huri husernm hjobnm
  dsimp only at hspec
  rwa [length_encodeRequest, sum_jobAttributes, hibuf, IBUFSZ, if_neg (by omega)] at hspec

/-- The header stays within `ibuf`, and is read back as the attributes that were added, exactly if
the four texts that vary come to no more than 363 bytes. -/
theorem header_fits_and_decodes_iff {ibuf : Block} (hibuf : ibuf.length = IBUFSZ) (jobid : Nat)
    {printer_name usernm jobnm : List Byte} {req : PrintReq}
    (huri : (printerUri printer_name).length < STRSZ)
    (husernm : cstring req.usernm = some usernm) (hjobnm : cstring req.jobnm = some jobnm) :
    (∃ icp, setUpHeader ibuf jobid printer_name req = some icp ∧ icp.block.length = IBUFSZ ∧
        icp.block[8]? = some TAG_OPERATION_ATTR ∧
        readAttributes icp.pos ((icp.block.take icp.pos).drop 9) =
          some (jobAttributes printer_name usernm jobnm req.flags) ∧
        icp.pos =
          9 + ((jobAttributes printer_name usernm jobnm req.flags).map Attribute.size).sum + 1) ↔
      (printerUri printer_name).length + usernm.length + jobnm.length +
        (documentFormat req.flags).length ≤ 363 := by
  have hspec := @setUpHeader_spec ibuf jobid printer_name usernm jobnm req huri husernm hjobnm
  dsimp only at hspec
  have hlength := length_encodeRequest jobid printer_name usernm jobnm req.flags
  have hsum := sum_jobAttributes printer_name usernm jobnm req.flags
  have hreadable := readable_jobAttributes huri (req.usernm_length ▸ length_of_cstring husernm)
    (req.jobnm_length ▸ length_of_cstring hjobnm) req.flags
  rw [hibuf, IBUFSZ] at hspec
  constructor
  · intro hdecodes
    obtain ⟨icp, hsome, -⟩ := hdecodes
    apply Nat.le_of_not_lt
    intro hlong
    rw [setUpHeader_none hibuf huri husernm hjobnm hlong] at hsome
    cases hsome
  · intro hroom
    rw [if_pos (by omega)] at hspec
    obtain ⟨rest, hrest, hsome⟩ := hspec
    refine ⟨_, hsome, ?_, ?_, ?_, hlength⟩
    · rw [List.length_append, hrest, IBUFSZ]
    · rfl
    · dsimp only
      rw [List.take_left]
      have hattrs : (encodeRequest jobid printer_name usernm jobnm req.flags).drop 9 =
          encodeAttributes (jobAttributes printer_name usernm jobnm req.flags) := rfl
      rw [hattrs]
      apply readAttributes_encode hreadable
      rw [hlength]
      change 6 < _
      omega

/-- A request of one byte, with NULs behind the names. -/
def oneByteReq (flags : Nat) (usernm jobnm : List Byte) : PrintReq where
  size := 1
  flags := flags
  usernm := strncpyBytes usernm USERNM_MAX
  jobnm := strncpyBytes jobnm JOBNM_MAX
  usernm_length := length_strncpyBytes _ _
  jobnm_length := length_strncpyBytes _ _

theorem cstring_strncpyBytes {s : List Byte} {n : Nat} (hs : 0 ∉ s) (hlt : s.length < n) :
    cstring (strncpyBytes s n) = some s := by
  rw [strncpyBytes_of_lt hlt]
  exact cstring_append hs _

/-- The user `u` prints the text file `j` on the printer `p`. -/
theorem header_fits_and_decodes_iff_small :
    (∃ icp, setUpHeader (List.replicate IBUFSZ 0) 1 [112] (oneByteReq PR_TEXT [117] [106]) =
          some icp ∧
        icp.block.length = IBUFSZ ∧ icp.block[8]? = some TAG_OPERATION_ATTR ∧
        readAttributes icp.pos ((icp.block.take icp.pos).drop 9) =
          some (jobAttributes [112] [117] [106] PR_TEXT) ∧
        icp.pos = 9 + ((jobAttributes [112] [117] [106] PR_TEXT).map Attribute.size).sum + 1) ↔
      (printerUri [112]).length + [(117 : Byte)].length + [(106 : Byte)].length +
        (documentFormat PR_TEXT).length ≤ 363 :=
  header_fits_and_decodes_iff List.length_replicate 1 (by decide)
    (cstring_strncpyBytes (by decide) (by decide))
    (cstring_strncpyBytes (by decide) (by decide))

/-- Names as long as their buffers let them be, for no text file: the header of 552 bytes goes
past the end of `ibuf`. -/
theorem long_names_overflow :
    let printer_name := List.replicate 52 112
    let usernm := List.replicate 63 117
    let jobnm := List.replicate 255 106
    (printerUri printer_name).length < STRSZ ∧
      cstring (oneByteReq 0 usernm jobnm).usernm = some usernm ∧
      cstring (oneByteReq 0 usernm jobnm).jobnm = some jobnm ∧
      setUpHeader (List.replicate IBUFSZ 0) 1 printer_name (oneByteReq 0 usernm jobnm) = none := by
  intro printer_name usernm jobnm
  have huri : (printerUri printer_name).length < STRSZ := by decide
  have hnul {n : Nat} {c : Byte} (hc : 0 ≠ c) : 0 ∉ List.replicate n c :=
    fun hmem => hc (List.eq_of_mem_replicate hmem)
  have husernm : cstring (oneByteReq 0 usernm jobnm).usernm = some usernm :=
    cstring_strncpyBytes (hnul (by decide)) (by rw [List.length_replicate]; decide)
  have hjobnm : cstring (oneByteReq 0 usernm jobnm).jobnm = some jobnm :=
    cstring_strncpyBytes (hnul (by decide)) (by rw [List.length_replicate]; decide)
  have huri' : (printerUri printer_name).length = 63 := by decide
  have hformat : (documentFormat 0).length = 22 := by decide
  have hsum : (printerUri printer_name).length + usernm.length + jobnm.length +
      (documentFormat 0).length = 403 := by
    rw [huri', hformat, List.length_replicate, List.length_replicate]
  exact ⟨huri, husernm, hjobnm, setUpHeader_none List.length_replicate huri husernm hjobnm
    (hsum ▸ by decide)⟩

end ApueCourse.Print
