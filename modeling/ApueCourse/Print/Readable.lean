import ApueCourse.Print.Verdict

/-! From which results of `tread` the printer's response can be read. -/

namespace ApueCourse.Print.Reply

open Memory Program

/-- The chunk begins with eight bytes, spaces and digits, and there is a byte behind them. -/
def StatusLine (chunk digits reason : List Byte) : Prop :=
  ∃ version spaces c, version.length = 8 ∧ (∀ b ∈ spaces, isSpace b) ∧
    (∀ b ∈ digits, isDigit b) ∧ ¬ isDigit c ∧ (digits = [] → ¬ isSpace c) ∧
    chunk = version ++ spaces ++ digits ++ c :: reason

/-- The body as it is when the header of the IPP response is looked at: with what has come of it,
or with one more result over it where that is less than has been announced. -/
inductive BodyReadable (len : Int) : List Byte → List (List Byte) → Prop
  | whole {body : List Byte} {chunks : List (List Byte)} (hlen : len ≤ body.length)
      (hbody : 8 ≤ body.length) : BodyReadable len body chunks
  | covered {body chunk : List Byte} {rest : List (List Byte)} (hlen : body.length < len)
      (hbody : 8 ≤ (chunk ++ body.drop chunk.length).length) : BodyReadable len body (chunk :: rest)
  | closed {body : List Byte} (hlen : body.length < len) : BodyReadable len body []

/-- A part of the response is in what is left of this result, or in the next one when nothing is
left, or the printer has closed the connection. -/
inductive Next (part : List Byte → List (List Byte) → Prop) :
    List Byte → List (List Byte) → Prop
  | here {text : List Byte} {chunks : List (List Byte)} (hne : text ≠ [])
      (hpart : part text chunks) : Next part text chunks
  | more {chunk : List Byte} {rest : List (List Byte)} (hpart : part chunk rest) :
      Next part [] (chunk :: rest)
  | closed : Next part [] []

/-- The rest of the header is there up to the blank line. -/
inductive EndReadable (len : Int) : List Byte → List (List Byte) → Prop
  | blank {text body : List Byte} {chunks : List (List Byte)} (hblank : blankLine text = some body)
      (hbody : Next (BodyReadable len) body chunks) : EndReadable len text chunks

/-- The length is there with the byte behind it. -/
inductive ValueReadable : List Byte → List (List Byte) → Prop
  | digits {spaces digits behind : List Byte} {c : Byte} {chunks : List (List Byte)}
      (hspaces : ∀ b ∈ spaces, isSpace b) (hdigits : ∀ b ∈ digits, isDigit b)
      (hc : ¬ isDigit c) (hnone : digits = [] → ¬ isSpace c)
      (hend : Next (EndReadable (number digits)) behind chunks) :
      ValueReadable (spaces ++ digits ++ c :: behind) chunks

/-- The header behind the status line: the name of the length is in one result together with its
value, and no result in front of it ends inside of such a name or fills the buffer. -/
inductive HeaderReadable : Nat → List Byte → List (List Byte) → Prop
  | length {nr : Nat} {text value : List Byte} {chunks : List (List Byte)}
      (hsearch : search text = .behind value) (hvalue : ValueReadable value chunks) :
      HeaderReadable nr text chunks
  | more {nr : Nat} {text chunk : List Byte} {rest : List (List Byte)}
      (hsearch : search text = .absent) (hroom : nr < Client.IOBUFSZ)
      (hrest : HeaderReadable (nr + chunk.length) chunk rest) :
      HeaderReadable nr text (chunk :: rest)
  | closed {nr : Nat} {text : List Byte} (hsearch : search text = .absent)
      (hroom : nr < Client.IOBUFSZ) : HeaderReadable nr text []

inductive Readable : List (List Byte) → Prop
  | closed : Readable []
  | malformed {chunk reason : List Byte} {rest : List (List Byte)}
      (hstatus : StatusLine chunk [] reason) (hzero : 0 ∈ chunk) (hrest : Readable rest) :
      Readable (chunk :: rest)
  | info {chunk digits text header : List Byte} {c : Byte} {rest : List (List Byte)}
      (hstatus : StatusLine chunk digits (text ++ c :: header)) (hdigits : digits ≠ [])
      (htext : ∀ b ∈ text, isText b) (hc : ¬ isText c) (hcode : HTTP_INFO (number digits))
      (hrest : Readable rest) : Readable (chunk :: rest)
  | refused {chunk digits text header : List Byte} {c : Byte} {rest : List (List Byte)}
      (hstatus : StatusLine chunk digits (text ++ c :: header)) (hdigits : digits ≠ [])
      (htext : ∀ b ∈ text, isText b) (hc : ¬ isText c) (hcode : ¬ HTTP_INFO (number digits))
      (hcode' : ¬ HTTP_SUCCESS (number digits)) (hroom : chunk.length < Client.IOBUFSZ) :
      Readable (chunk :: rest)
  | success {chunk digits text header : List Byte} {c : Byte} {rest : List (List Byte)}
      (hstatus : StatusLine chunk digits (text ++ c :: header)) (hdigits : digits ≠ [])
      (htext : ∀ b ∈ text, isText b) (hc : ¬ isText c) (hcode : HTTP_SUCCESS (number digits))
      (hheader : HeaderReadable chunk.length (0 :: header) rest) : Readable (chunk :: rest)

/-! Texts taken apart at the first byte that is not of a kind. -/

theorem dropWhile_split {p : Byte → Bool} {front rest : List Byte} {c : Byte}
    (hfront : ∀ b ∈ front, p b) (hc : ¬ p c) :
    (front ++ c :: rest).dropWhile p = c :: rest ∧ (front ++ c :: rest).takeWhile p = front := by
  rw [List.dropWhile_append_of_pos hfront, List.takeWhile_append_of_pos hfront,
    List.dropWhile_cons_of_neg hc, List.takeWhile_cons_of_neg hc, List.append_nil]
  exact ⟨rfl, rfl⟩

/-- Spaces, digits and what is behind them. -/
theorem number_split {spaces digits rest : List Byte} {c : Byte} (hspaces : ∀ b ∈ spaces, isSpace b)
    (hdigits : ∀ b ∈ digits, isDigit b) (hnone : digits = [] → ¬ isSpace c) :
    (spaces ++ digits ++ c :: rest).dropWhile isSpace = digits ++ c :: rest := by
  rw [List.append_assoc]
  cases digits with
  | nil => exact (dropWhile_split hspaces (hnone rfl)).1
  | cons d digits =>
      exact (dropWhile_split hspaces (not_isSpace_of_isDigit (hdigits d List.mem_cons_self))).1

theorem exists_number_split {text rest : List Byte} {c : Byte}
    (hrest : (text.dropWhile isSpace).dropWhile isDigit = c :: rest) :
    ∃ spaces, text = spaces ++ (text.dropWhile isSpace).takeWhile isDigit ++ c :: rest ∧
      (∀ b ∈ spaces, isSpace b) ∧ ¬ isDigit c ∧
      ((text.dropWhile isSpace).takeWhile isDigit = [] → ¬ isSpace c) := by
  obtain ⟨hdigits, -, hc⟩ := exists_split hrest
  refine ⟨text.takeWhile isSpace, ?_, fun b hb => List.mem_takeWhile_imp hb, hc, fun hnone => ?_⟩
  · rw [List.append_assoc, ← hdigits, List.takeWhile_append_dropWhile]
  · rw [hnone, List.nil_append] at hdigits
    exact (exists_split hdigits).2.2

theorem statusCode_iff {chunk digits reason : List Byte} :
    statusCode chunk = some (digits, reason) ↔ StatusLine chunk digits reason := by
  rw [statusCode]
  constructor
  · intro hstatus
    split at hstatus
    · cases hstatus
    · rename_i c rest hrest
      obtain ⟨spaces, hsplit, hspaces, hc, hnone⟩ := exists_number_split hrest
      cases hstatus
      refine ⟨chunk.take 8, spaces, c, ?_, hspaces, fun b hb => List.mem_takeWhile_imp hb, hc,
        hnone, ?_⟩
      · have hlength := congrArg List.length hsplit
        simp only [List.length_drop, List.length_append, List.length_cons] at hlength
        rw [List.length_take]
        omega
      · rw [List.append_assoc, List.append_assoc, ← List.append_assoc spaces, ← hsplit,
          List.take_append_drop]
  · rintro ⟨version, spaces, c, hversion, hspaces, hdigits, hc, hnone, rfl⟩
    rw [List.append_assoc, List.append_assoc, List.drop_left' hversion, ← List.append_assoc,
      number_split hspaces hdigits hnone, (dropWhile_split hdigits hc).1,
      (dropWhile_split hdigits hc).2]

section

variable {jobid len : Int} {nr : Nat} {text : List Byte} {chunks : List (List Byte)}

theorem ipp_isSome {body : List Byte} : (ipp jobid body).isSome ↔ 8 ≤ body.length := by
  rw [ipp]
  split
  · rename_i hbody
    exact ⟨fun _ => hbody, fun _ => rfl⟩
  · rename_i hbody
    exact ⟨fun hnone => absurd hnone Bool.false_ne_true, fun h => absurd h hbody⟩

theorem atBody_isSome {body : List Byte} :
    (atBody jobid len body chunks).isSome ↔ BodyReadable len body chunks := by
  unfold atBody
  split
  · rename_i hlen
    cases chunks with
    | nil => exact ⟨fun _ => .closed hlen, fun _ => rfl⟩
    | cons chunk rest =>
        refine ipp_isSome.trans ⟨fun hbody => .covered hlen hbody, fun hbody => ?_⟩
        cases hbody with
        | whole hlen' => omega
        | covered _ hbody => exact hbody
  · rename_i hlen
    refine ipp_isSome.trans ⟨fun hbody => .whole (Int.not_lt.mp hlen) hbody, fun hbody => ?_⟩
    cases hbody with
    | whole _ hbody => exact hbody
    | covered hlen' | closed hlen' => omega

theorem more_isSome {f : List Byte → List (List Byte) → Option Bool}
    {part : List Byte → List (List Byte) → Prop}
    (hpart : ∀ text chunks, (f text chunks).isSome ↔ part text chunks) :
    (more f text chunks).isSome ↔ Next part text chunks := by
  unfold more
  split
  · rename_i hnil
    subst hnil
    cases chunks with
    | nil => exact ⟨fun _ => .closed, fun _ => rfl⟩
    | cons chunk rest =>
        refine (hpart chunk rest).trans ⟨.more, fun hnext => ?_⟩
        cases hnext with
        | here hne => exact absurd rfl hne
        | more hpart => exact hpart
  · rename_i hne
    refine (hpart text chunks).trans ⟨.here hne, fun hnext => ?_⟩
    cases hnext with
    | here _ hpart => exact hpart
    | more | closed => exact absurd rfl hne

theorem atEnd_isSome : (atEnd jobid len text chunks).isSome ↔ EndReadable len text chunks := by
  unfold atEnd
  split
  · rename_i hnone
    refine ⟨fun h => absurd h Bool.false_ne_true, fun hend => ?_⟩
    cases hend with
    | blank hblank =>
        rw [hnone] at hblank
        cases hblank
  · rename_i body hblank
    refine (more_isSome fun _ _ => atBody_isSome).trans ⟨.blank hblank, fun hend => ?_⟩
    cases hend with
    | blank hblank' hbody =>
        rw [hblank] at hblank'
        cases hblank'
        exact hbody

theorem atValue_isSome : (atValue jobid text chunks).isSome ↔ ValueReadable text chunks := by
  unfold atValue
  constructor
  · intro hsome
    split at hsome
    · exact absurd hsome Bool.false_ne_true
    · rename_i c behind hrest
      obtain ⟨spaces, hsplit, hspaces, hc, hnone⟩ := exists_number_split hrest
      rw [hsplit]
      exact .digits hspaces (fun b hb => List.mem_takeWhile_imp hb) hc hnone
        ((more_isSome fun _ _ => atEnd_isSome).mp hsome)
  · intro hvalue
    cases hvalue with
    | digits hspaces hdigits hc hnone hend =>
        rw [number_split hspaces hdigits hnone, (dropWhile_split hdigits hc).1,
          (dropWhile_split hdigits hc).2]
        exact (more_isSome fun _ _ => atEnd_isSome).mpr hend

theorem atHeader_isSome : (atHeader jobid nr text chunks).isSome ↔ HeaderReadable nr text chunks := by
  constructor
  · intro hsome
    induction chunks generalizing nr text with
    | nil =>
        unfold atHeader at hsome
        cases hsearch : search text <;> rw [hsearch] at hsome
        case behind value => exact .length hsearch (atValue_isSome.mp hsome)
        case cut => cases hsome
        case absent =>
          dsimp only at hsome
          split at hsome
          · rename_i hroom
            exact .closed hsearch hroom
          · cases hsome
    | cons chunk rest ih =>
        unfold atHeader at hsome
        cases hsearch : search text <;> rw [hsearch] at hsome
        case behind value => exact .length hsearch (atValue_isSome.mp hsome)
        case cut => cases hsome
        case absent =>
          dsimp only at hsome
          split at hsome
          · rename_i hroom
            exact .more hsearch hroom (ih hsome)
          · cases hsome
  · intro hheader
    induction hheader with
    | length hsearch hvalue =>
        unfold atHeader
        rw [hsearch]
        exact atValue_isSome.mpr hvalue
    | more hsearch hroom _ ih =>
        unfold atHeader
        rw [hsearch]
        exact (congrArg _ (if_pos hroom)).trans ih
    | closed hsearch hroom =>
        unfold atHeader
        rw [hsearch]
        exact congrArg _ (if_pos hroom)

theorem isSome_of_verdict (hsome : (verdict jobid chunks).isSome) : Readable chunks := by
  induction chunks with
  | nil => exact .closed
  | cons chunk rest ih =>
      unfold verdict at hsome
      split at hsome
      · cases hsome
      · rename_i reason hstatus
        split at hsome
        · rename_i hzero
          exact .malformed (statusCode_iff.mp hstatus) hzero (ih hsome)
        · cases hsome
      · rename_i digits reason hdigits hstatus
        have hne : digits ≠ [] := fun hnil => hdigits hnil
        split at hsome
        · cases hsome
        · rename_i c header hheader
          obtain ⟨hsplit, htext, hc⟩ := exists_split hheader
          have hline := statusCode_iff.mp hstatus
          rw [hsplit] at hline
          split at hsome
          · rename_i hcode
            exact .info hline hne htext hc hcode (ih hsome)
          · rename_i hcode
            split at hsome
            · rename_i hcode'
              exact .success hline hne htext hc hcode' (atHeader_isSome.mp hsome)
            · rename_i hcode'
              split at hsome
              · rename_i hroom
                exact .refused hline hne htext hc hcode hcode' hroom
              · cases hsome

theorem not_info {code : Int} (hcode : HTTP_SUCCESS code) : ¬ HTTP_INFO code := by
  rintro ⟨-, hle⟩
  have hge := hcode.1
  omega

theorem verdict_eq {chunk digits text header : List Byte} {c : Byte}
    (hstatus : StatusLine chunk digits (text ++ c :: header)) (hdigits : digits ≠ [])
    (htext : ∀ b ∈ text, isText b) (hc : ¬ isText c) :
    verdict jobid (chunk :: chunks) =
      if HTTP_INFO (number digits) then verdict jobid chunks
      else if HTTP_SUCCESS (number digits) then
        atHeader jobid chunk.length (0 :: header) chunks
      else if chunk.length < Client.IOBUFSZ then some false
      else none := by
  obtain ⟨d, digits, rfl⟩ := List.exists_cons_of_ne_nil hdigits
  rw [verdict, statusCode_iff.mpr hstatus]
  dsimp only
  rw [(dropWhile_split htext hc).1]

theorem verdict_isSome : (verdict jobid chunks).isSome ↔ Readable chunks := by
  refine ⟨isSome_of_verdict, fun hreadable => ?_⟩
  induction hreadable with
  | closed => rfl
  | malformed hstatus hzero hrest ih =>
      rw [verdict, statusCode_iff.mpr hstatus]
      exact (congrArg _ (if_pos hzero)).trans ih
  | info hstatus hdigits htext hc hcode hrest ih =>
      rw [verdict_eq hstatus hdigits htext hc, if_pos hcode]
      exact ih
  | refused hstatus hdigits htext hc hcode hcode' hroom =>
      rw [verdict_eq hstatus hdigits htext hc, if_neg hcode, if_neg hcode', if_pos hroom]
      rfl
  | success hstatus hdigits htext hc hcode hheader =>
      have hinfo := not_info hcode
      rw [verdict_eq hstatus hdigits htext hc, if_neg hinfo, if_pos hcode]
      exact atHeader_isSome.mpr hheader

end

theorem length_le_flatten {chunks : List (List Byte)} (hne : ∀ chunk ∈ chunks, chunk ≠ []) :
    chunks.length ≤ chunks.flatten.length := by
  induction chunks with
  | nil => exact Nat.le_refl _
  | cons chunk rest ih =>
      have hpos := List.length_pos_iff.mpr (hne chunk List.mem_cons_self)
      have hrest := ih fun chunk hchunk => hne chunk (List.mem_cons_of_mem _ hchunk)
      rw [List.flatten_cons, List.length_append, List.length_cons]
      omega

/-- A run of the loop from a result of `tread` on. -/
theorem runs_data {jobid : Int} {turns rounds : Nat} {chunk : List Byte} {prog : P Bool}
    {rest chunks' : List (List Byte)} {made : List (Prog.Made Op Op.Res)}
    {outcome : Except Stop Bool} (hne : chunk ≠ []) (hle : chunk.length ≤ Client.IOBUFSZ)
    (hprog : response jobid turns chunk (responses jobid turns rounds) = prog)
    (hend : prog.Runs Sys rest made outcome chunks') :
    (responses jobid turns (rounds + 1)).Runs Sys (chunk :: rest)
      (⟨.tread Client.IOBUFSZ 5, .ok chunk⟩ :: made) outcome chunks' := by
  refine .call (.data hne hle) ?_
  change (if chunk = [] then .ret false else response jobid turns chunk
    (responses jobid turns rounds) : P Bool).Runs ..
  rw [if_neg hne, hprog]
  exact hend

/-- A response whose header has not yet come to its end. -/
def headerInPart : List Byte := ascii "HTTP/1.1 200 OK\r\nContent-Length: 9\r\nServer: x\r\n"

def wholeResponse : List Byte :=
  ascii "HTTP/1.1 200 OK\r\nContent-Length: 8\r\n\r\n" ++ [1, 1, 0, 0, 0, 0, 0, 1]

end ApueCourse.Print.Reply
