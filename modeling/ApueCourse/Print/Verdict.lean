import ApueCourse.Print.Reply

/-! What `printer_status` comes to, by the text of the results of `tread`. -/

namespace ApueCourse.Print.Reply

open Memory Program

/-- The comparison of a name with a text that may end too early. -/
def compare (same : Byte → Byte → Bool) : List Byte → List Byte → Option Bool
  | [], _ => some true
  | _ :: _, [] => none
  | c :: name, d :: text => if same d c then compare same name text else some false

inductive Search
  | absent
  | cut
  | behind (text : List Byte)

def search : List Byte → Search
  | [] => .absent
  | d :: text =>
      match compare (fun d c => tolower d = tolower c) CONTENT_LENGTH (d :: text) with
      | some true => .behind (text.drop 14)
      | some false => search text
      | none => .cut

/-- The text behind the first blank line. -/
def blankLine : List Byte → Option (List Byte)
  | [] => none
  | c :: text => if c = 10 ∧ text.take 2 = [13, 10] then some (text.drop 2) else blankLine text

/-- `atoi` of a string of digits. -/
def number (digits : List Byte) : Int :=
  (min ((digits.foldl (fun acc c => 10 * acc + digitValue c) 0 : Nat) : Int) LONG_MAX).bmod (2 ^ 32)

def ipp (jobid : Int) (body : List Byte) : Option Bool :=
  if 8 ≤ body.length then
    some (decide ((Client.ntohl (body.drop 4) : Int) = jobid ∧ STATCLASS_OK (ntohs (body.drop 2))))
  else none

def atBody (jobid len : Int) (body : List Byte) (chunks : List (List Byte)) : Option Bool :=
  if (body.length : Int) < len then
    match chunks with
    | [] => some false
    | chunk :: _ => ipp jobid (chunk ++ body.drop chunk.length)
  else ipp jobid body

/-- The next result where nothing is left of this one. -/
def more (f : List Byte → List (List Byte) → Option Bool) (text : List Byte)
    (chunks : List (List Byte)) : Option Bool :=
  if text = [] then
    match chunks with
    | [] => some false
    | chunk :: rest => f chunk rest
  else f text chunks

def atEnd (jobid len : Int) (text : List Byte) (chunks : List (List Byte)) : Option Bool :=
  match blankLine text with
  | none => none
  | some body => more (atBody jobid len) body chunks

def atValue (jobid : Int) (text : List Byte) (chunks : List (List Byte)) : Option Bool :=
  match (text.dropWhile isSpace).dropWhile isDigit with
  | [] => none
  | _ :: behind =>
      more (atEnd jobid (number ((text.dropWhile isSpace).takeWhile isDigit))) behind chunks

/-- `nr` bytes have been received when the search comes to `text`. -/
def atHeader (jobid : Int) (nr : Nat) (text : List Byte) (chunks : List (List Byte)) :
    Option Bool :=
  match search text with
  | .behind value => atValue jobid value chunks
  | .cut => none
  | .absent =>
      if nr < Client.IOBUFSZ then
        match chunks with
        | [] => some false
        | chunk :: rest => atHeader jobid (nr + chunk.length) chunk rest
      else none

/-- The status code in front of a response, and what is behind the byte that ends it. -/
def statusCode (chunk : List Byte) : Option (List Byte × List Byte) :=
  match ((chunk.drop 8).dropWhile isSpace).dropWhile isDigit with
  | [] => none
  | _ :: reason => some (((chunk.drop 8).dropWhile isSpace).takeWhile isDigit, reason)

def verdict (jobid : Int) : List (List Byte) → Option Bool
  | [] => some false
  | chunk :: rest =>
      match statusCode chunk with
      | none => none
      | some ([], _) => if 0 ∈ chunk then verdict jobid rest else none
      | some (digits, reason) =>
          match reason.dropWhile isText with
          | [] => none
          | _ :: header =>
              if HTTP_INFO (number digits) then verdict jobid rest
              else if HTTP_SUCCESS (number digits) then
                atHeader jobid chunk.length (0 :: header) rest
              else if chunk.length < Client.IOBUFSZ then some false
              else none

theorem atol_digits {digits : List Byte} (hdigits : ∀ c ∈ digits, isDigit c) (rest : List Byte) :
    (atol (digits ++ 0 :: rest)).map (·.bmod (2 ^ 32)) = some (number digits) := by
  have hread := readDigits_append hdigits (by decide : ¬ isDigit 0) 0 rest
  cases digits with
  | nil => rfl
  | cons d digits =>
      have hd : isDigit d := hdigits d List.mem_cons_self
      have hsign : d ≠ 45 ∧ d ≠ 43 := by
        constructor
        · rintro rfl
          cases hd
        · rintro rfl
          cases hd
      rw [List.cons_append] at hread ⊢
      rw [atol, List.dropWhile_cons_of_neg (not_isSpace_of_isDigit hd)]
      dsimp only
      rw [if_neg hsign.1, if_neg hsign.2, hread]
      rfl

/-! The reads of the buffer. -/

section Buffer

variable {bp : Buf} {i : Nat}

/-- What has been received is in the buffer. -/
def Buf.Valid (bp : Buf) : Prop := bp.bytes.length ≤ bp.size

theorem get_ret {c : Byte} {rest : List Byte} (hvalid : bp.Valid)
    (htext : bp.bytes.drop i = c :: rest) : bp.get i = .ret c := by
  have hi : i < bp.bytes.length := by
    have hlength := congrArg List.length htext
    rw [List.length_drop, List.length_cons] at hlength
    omega
  have hget : bp.bytes[i]? = some c := by
    have hhead := congrArg (·[0]?) htext
    rwa [List.getElem?_drop] at hhead
  rw [Buf.get, if_pos (Nat.lt_of_lt_of_le hi hvalid), hget]
  rfl

theorem get_stop (htext : bp.bytes.drop i = []) : ∃ reason, bp.get i = .stop reason := by
  have hget : bp.bytes[i]? = none := List.getElem?_eq_none (List.drop_eq_nil_iff.mp htext)
  rw [Buf.get, hget]
  split
  · exact ⟨_, rfl⟩
  · exact ⟨_, rfl⟩

theorem drop_tail {c : Byte} {bytes text : List Byte} (htext : bytes.drop i = c :: text) :
    bytes.drop (i + 1) = text := by
  rw [← List.tail_drop, htext]
  rfl

/-- A loop stops in front of the first byte that ends it. -/
theorem scan_ret {p : Byte → Bool} {turns : Nat} {front rest : List Byte} {c : Byte}
    (hvalid : bp.Valid) (hfront : ∀ d ∈ front, p d) (hc : ¬ p c)
    (htext : bp.bytes.drop i = front ++ c :: rest) (hturns : front.length < turns) :
    scan p turns bp i = .ret (i + front.length) := by
  induction front generalizing i turns with
  | nil =>
      obtain ⟨turns, rfl⟩ := Nat.exists_eq_succ_of_ne_zero (Nat.ne_of_gt hturns)
      rw [scan, get_ret hvalid htext, Prog.ret_bind, if_neg hc]
      rfl
  | cons d front ih =>
      obtain ⟨turns, rfl⟩ := Nat.exists_eq_succ_of_ne_zero (Nat.ne_of_gt (Nat.lt_of_le_of_lt
        (Nat.zero_le _) hturns))
      rw [scan, get_ret hvalid htext, Prog.ret_bind, if_pos (hfront d List.mem_cons_self),
        ih (fun d hd => hfront d (List.mem_cons_of_mem _ hd)) (drop_tail htext)
          (Nat.lt_of_succ_lt_succ hturns), List.length_cons]
      congr 1
      omega

/-- A loop that meets no such byte runs behind what has been received. -/
theorem scan_stop {p : Byte → Bool} {turns : Nat} {front : List Byte} (hvalid : bp.Valid)
    (hfront : ∀ d ∈ front, p d) (htext : bp.bytes.drop i = front) :
    ∃ reason, scan p turns bp i = .stop reason := by
  induction turns generalizing i front with
  | zero => exact ⟨.spin, rfl⟩
  | succ turns ih =>
      cases front with
      | nil =>
          obtain ⟨reason, hstop⟩ := get_stop htext
          exact ⟨reason, by rw [scan, hstop, Prog.stop_bind]⟩
      | cons d front =>
          rw [scan, get_ret hvalid htext, Prog.ret_bind, if_pos (hfront d List.mem_cons_self)]
          exact ih (fun d hd => hfront d (List.mem_cons_of_mem _ hd)) (drop_tail htext)

/-- A text taken apart at the first byte that is not of a kind. -/
theorem exists_split {p : Byte → Bool} {text rest : List Byte} {c : Byte}
    (hrest : text.dropWhile p = c :: rest) :
    text = text.takeWhile p ++ c :: rest ∧ (∀ b ∈ text.takeWhile p, p b) ∧ ¬ p c := by
  refine ⟨?_, fun b hb => List.mem_takeWhile_imp hb, ?_⟩
  · rw [← hrest, List.takeWhile_append_dropWhile]
  · have hhead := List.head_dropWhile_not p (l := text)
      (by rw [hrest]; exact List.cons_ne_nil _ _)
    simp only [hrest, List.head_cons] at hhead
    exact ne_true_of_eq_false hhead

/-- A loop stops in front of the rest of the text. -/
theorem scan_cons {p : Byte → Bool} {turns : Nat} {text rest : List Byte} {c : Byte}
    (hvalid : bp.Valid) (htext : bp.bytes.drop i = text) (hrest : text.dropWhile p = c :: rest)
    (hturns : text.length < turns) :
    scan p turns bp i = .ret (i + (text.takeWhile p).length) ∧
      bp.bytes.drop (i + (text.takeWhile p).length) = c :: rest := by
  obtain ⟨hsplit, hfront, hc⟩ := exists_split hrest
  have hlength := congrArg List.length hsplit
  rw [List.length_append, List.length_cons] at hlength
  refine ⟨scan_ret hvalid hfront hc (htext.trans hsplit) (by omega), ?_⟩
  rw [← List.drop_drop, htext]
  exact (congrArg _ hsplit).trans (List.drop_left ..)

theorem scan_nil {p : Byte → Bool} {turns : Nat} {text : List Byte} (hvalid : bp.Valid)
    (htext : bp.bytes.drop i = text) (hrest : text.dropWhile p = []) :
    ∃ reason, scan p turns bp i = .stop reason :=
  scan_stop hvalid (List.dropWhile_eq_nil_iff.mp hrest) htext

theorem read_ret {n : Nat} (hvalid : bp.Valid) (hn : n ≤ (bp.bytes.drop i).length) :
    bp.read n i = .ret ((bp.bytes.drop i).take n) := by
  induction n generalizing i with
  | zero => rfl
  | succ n ih =>
      obtain ⟨c, rest, htext⟩ := List.exists_cons_of_length_pos (Nat.lt_of_lt_of_le n.succ_pos hn)
      have hrest := drop_tail htext
      rw [htext, List.length_cons, Nat.succ_le_succ_iff, ← hrest] at hn
      rw [Buf.read, get_ret hvalid htext, Prog.ret_bind, ih hn, htext, hrest]
      rfl

theorem read_stop {n : Nat} (hvalid : bp.Valid) (hn : (bp.bytes.drop i).length < n) :
    ∃ reason, bp.read n i = .stop reason := by
  induction n generalizing i with
  | zero => cases hn
  | succ n ih =>
      cases htext : bp.bytes.drop i with
      | nil =>
          obtain ⟨reason, hstop⟩ := get_stop htext
          exact ⟨reason, by rw [Buf.read, hstop, Prog.stop_bind]⟩
      | cons c rest =>
          have hrest := drop_tail htext
          rw [htext, List.length_cons, ← hrest] at hn
          obtain ⟨reason, hstop⟩ := ih (Nat.lt_of_succ_lt_succ hn)
          exact ⟨reason, by rw [Buf.read, get_ret hvalid htext, Prog.ret_bind, hstop,
            Prog.stop_bind]⟩

theorem put_ret {c : Byte} (hi : i < bp.size) :
    bp.put i c = .ret { bp with bytes := bp.bytes.set i c } := if_pos hi

/-- The byte behind a front of the text is overwritten. -/
theorem drop_set {bytes front rest : List Byte} {t c : Byte}
    (htext : bytes.drop i = front ++ t :: rest) :
    (bytes.set (i + front.length) c).drop i = front ++ c :: rest := by
  rw [List.drop_set, if_neg (by omega), htext, Nat.add_sub_cancel_left,
    List.set_append_right _ _ (Nat.le_refl _), Nat.sub_self, List.set_cons_zero]

theorem put_stop {c : Byte} (hi : bp.size ≤ i) : ∃ reason, bp.put i c = .stop reason :=
  ⟨.bounds, if_neg (Nat.not_lt.mpr hi)⟩

theorem agrees_ret {same : Byte → Byte → Bool} {name text : List Byte} {found : Bool}
    (hvalid : bp.Valid) (htext : bp.bytes.drop i = text)
    (hfound : compare same name text = some found) : agrees same name bp i = .ret found := by
  induction name generalizing i text with
  | nil =>
      cases hfound
      rfl
  | cons c name ih =>
      cases text with
      | nil => cases hfound
      | cons d text =>
          rw [agrees, get_ret hvalid htext, Prog.ret_bind]
          rw [compare] at hfound
          split
          · rename_i hsame
            rw [if_pos hsame] at hfound
            exact ih (drop_tail htext) hfound
          · rename_i hsame
            rw [if_neg hsame] at hfound
            cases hfound
            rfl

theorem agrees_stop {same : Byte → Byte → Bool} {name text : List Byte} (hvalid : bp.Valid)
    (htext : bp.bytes.drop i = text) (hcut : compare same name text = none) :
    ∃ reason, agrees same name bp i = .stop reason := by
  induction name generalizing i text with
  | nil => cases hcut
  | cons c name ih =>
      cases text with
      | nil =>
          obtain ⟨reason, hstop⟩ := get_stop htext
          exact ⟨reason, by rw [agrees, hstop, Prog.stop_bind]⟩
      | cons d text =>
          rw [agrees, get_ret hvalid htext, Prog.ret_bind]
          rw [compare] at hcut
          split
          · rename_i hsame
            rw [if_pos hsame] at hcut
            exact ih (drop_tail htext) hcut
          · rename_i hsame
            rw [if_neg hsame] at hcut
            cases hcut

end Buffer

section Runs

variable {α : Type} {bp : Buf} {i nr turns : Nat} {jobid len : Int} {text : List Byte}
variable {chunks chunks' : List (List Byte)} {made : List (Prog.Made Op Op.Res)}
variable {outcome : Except Stop Bool}

theorem wrong {prog : P α} {f : α → P Bool} (hstop : ∃ reason, prog = .stop reason)
    (hrun : (prog >>= f).Runs Sys chunks made outcome chunks') : outcome.toOption = none := by
  obtain ⟨reason, rfl⟩ := hstop
  obtain ⟨-, rfl, -⟩ := hrun.of_stop
  rfl

theorem runs_ippStatus (hvalid : bp.Valid) (htext : bp.bytes.drop i = text)
    (hrun : (ippStatus jobid bp i).Runs Sys chunks made outcome chunks') :
    outcome.toOption = ipp jobid text := by
  have hdrop : ∀ n, bp.bytes.drop (i + n) = text.drop n := fun n => by
    rw [← htext, List.drop_drop]
  rw [ippStatus] at hrun
  by_cases hlength : 8 ≤ text.length
  · have hstatus : 2 ≤ (bp.bytes.drop (i + 2)).length := by
      rw [hdrop, List.length_drop]
      omega
    have hid : 4 ≤ (bp.bytes.drop (i + 4)).length := by
      rw [hdrop, List.length_drop]
      omega
    rw [read_ret hvalid hstatus, Prog.ret_bind, read_ret hvalid hid, Prog.ret_bind, hdrop,
      hdrop] at hrun
    have hntohl : Client.ntohl ((text.drop 4).take 4) = Client.ntohl (text.drop 4) := by
      rw [Client.ntohl, List.take_take]
      rfl
    have hntohs : ntohs ((text.drop 2).take 2) = ntohs (text.drop 2) := by
      rw [ntohs, List.take_take]
      rfl
    rw [hntohl, hntohs] at hrun
    rw [ipp, if_pos hlength]
    split at hrun
    · rename_i hother
      obtain ⟨-, rfl, -⟩ := hrun.of_ret
      simp [Except.toOption, hother]
    · rename_i hsame
      obtain ⟨-, rfl, -⟩ := hrun.of_ret
      simp [Except.toOption, not_not.mp hsame]
  · rw [ipp, if_neg hlength]
    by_cases hstatus : 2 ≤ (bp.bytes.drop (i + 2)).length
    · rw [read_ret hvalid hstatus, Prog.ret_bind] at hrun
      refine wrong (read_stop hvalid ?_) hrun
      rw [hdrop, List.length_drop]
      omega
    · exact wrong (read_stop hvalid (Nat.not_le.mp hstatus)) hrun

/-- A refill brings the next result, or the end. -/
theorem runs_readmore {f : Option (Buf × Nat) → P Bool} (hvalid : bp.Valid)
    (hi : i ≤ bp.bytes.length) (hrun : (readmore bp i >>= f).Runs Sys chunks made outcome chunks') :
    (chunks = [] ∧ ∃ made', (f none).Runs Sys [] made' outcome chunks') ∨
      ∃ chunk rest bp' made', chunks = chunk :: rest ∧ chunk ≠ [] ∧ bp'.Valid ∧
        (i < bp.size → bp'.size = bp.size) ∧
        bp'.bytes = bp.bytes.take i ++ chunk ++ bp.bytes.drop (i + chunk.length) ∧
        (f (some (bp', i + chunk.length))).Runs Sys rest made' outcome chunks' := by
  rw [readmore] at hrun
  generalize hgrown : (if i ≥ bp.size then { bp with size := bp.size + Client.IOBUFSZ } else bp) =
    grown at hrun
  have hbytes : grown.bytes = bp.bytes := by
    rw [← hgrown]
    split <;> rfl
  have hsize : bp.size ≤ grown.size := by
    rw [← hgrown]
    split
    · exact Nat.le_add_right ..
    · exact Nat.le_refl _
  obtain ⟨r, rest, made', -, hsys, hnext⟩ := hrun.of_call
  cases hsys with
  | eof => exact .inl ⟨rfl, _, hnext⟩
  | noData => exact .inl ⟨rfl, _, hnext⟩
  | @data _ _ chunk _ hne hle =>
      refine .inr ⟨chunk, rest, grown.store i chunk, made', rfl, hne, ?_, fun hlt => ?_, ?_, ?_⟩
      · have hpos := List.length_pos_iff.mpr hne
        have hlength := hvalid
        simp only [Buf.Valid, Buf.store, hbytes, List.length_append, List.length_take,
          List.length_drop] at hlength ⊢
        omega
      · rw [← hgrown, if_neg (Nat.not_le.mpr hlt)]
        rfl
      · rw [Buf.store, hbytes]
      · change ((if chunk = [] then .ret none
          else .ret (some (grown.store i chunk, i + chunk.length)) : P (Option (Buf × Nat))) >>=
          f).Runs .. at hnext
        rw [if_neg hne] at hnext
        exact hnext

/-- The test in front of a refill leads to a place with something to read, or to the end. -/
theorem runs_getMore {f : Option (Buf × Nat) → P Bool} (hvalid : bp.Valid)
    (htext : bp.bytes.drop i = text) (hi : i ≤ bp.bytes.length)
    (hrun : (getMore bp bp.bytes.length i >>= f).Runs Sys chunks made outcome chunks') :
    (text = [] ∧ chunks = [] ∧ ∃ made', (f none).Runs Sys [] made' outcome chunks') ∨
      ∃ bp' text' rest made', bp'.Valid ∧ (i < bp.size → bp'.size = bp.size) ∧
        bp'.bytes.drop i = text' ∧ text' ≠ [] ∧
        (∀ g, more g text chunks = g text' rest) ∧
        bp'.bytes.length + rest.flatten.length = bp.bytes.length + chunks.flatten.length ∧
        (f (some (bp', bp'.bytes.length))).Runs Sys rest made' outcome chunks' := by
  rw [getMore] at hrun
  split at hrun
  · rename_i hge
    have hnil : text = [] := by
      rw [← htext]
      exact List.drop_eq_nil_of_le hge
    rcases runs_readmore hvalid hi hrun with
      ⟨hchunks, hend⟩ | ⟨chunk, rest, bp', made', rfl, hne, hvalid', hsize, hbytes, hnext⟩
    · exact .inl ⟨hnil, hchunks, hend⟩
    · have hbytes' : bp'.bytes = bp.bytes ++ chunk := by
        rw [hbytes, List.take_of_length_le hge, List.drop_eq_nil_of_le, List.append_nil]
        exact Nat.le_add_right_of_le hge
      have hlength : bp'.bytes.length = i + chunk.length := by
        rw [hbytes', List.length_append]
        omega
      refine .inr ⟨bp', chunk, rest, made', hvalid', hsize, ?_, hne, fun g => ?_, ?_,
        hlength ▸ hnext⟩
      · rw [hbytes', List.drop_append_of_le_length hi, htext, hnil, List.nil_append]
      · rw [more, if_pos hnil]
      · rw [hbytes', List.flatten_cons, List.length_append, List.length_append]
        omega
  · rename_i hlt
    have hne : text ≠ [] := by
      rw [← htext]
      exact fun hnil => hlt (List.drop_eq_nil_iff.mp hnil)
    exact .inr ⟨bp, text, chunks, made, hvalid, fun _ => rfl, htext, hne, fun g => if_neg hne, rfl, hrun⟩

theorem runs_ippHeader (hvalid : bp.Valid) (htext : bp.bytes.drop i = text)
    (hi : i < bp.bytes.length)
    (hrun : (ippHeader jobid len bp bp.bytes.length i).Runs Sys chunks made outcome chunks') :
    outcome.toOption = atBody jobid len text chunks := by
  have hlength : ((bp.bytes.length : Nat) : Int) - i = (text.length : Nat) := by
    rw [← htext, List.length_drop]
    omega
  rw [ippHeader, hlength] at hrun
  unfold atBody
  split at hrun
  · rename_i hshort
    rw [if_pos hshort]
    rcases runs_readmore hvalid (Nat.le_of_lt hi) hrun with
      ⟨rfl, made', hend⟩ | ⟨chunk, rest, bp', made', rfl, hne, hvalid', -, hbytes, hnext⟩
    · obtain ⟨-, rfl, -⟩ := hend.of_ret
      rfl
    · refine runs_ippStatus hvalid' ?_ hnext
      rw [hbytes, List.append_assoc, List.drop_left', ← htext, List.drop_drop]
      exact List.length_take_of_le (Nat.le_of_lt hi)
  · rename_i hlong
    rw [if_neg hlong]
    exact runs_ippStatus hvalid htext hrun

theorem blankLine_short {text : List Byte} (hshort : text.length ≤ 2) : blankLine text = none := by
  match text, hshort with
  | [], _ => rfl
  | [c], _ => simp [blankLine]
  | [c, d], _ => simp [blankLine]

/-- One turn of the loop that looks for the blank line. -/
theorem findEnd_succ {c0 c1 c2 : Byte} {rest : List Byte} (hvalid : bp.Valid)
    (htext : bp.bytes.drop i = c0 :: c1 :: c2 :: rest) :
    findEnd (turns + 1) bp bp.bytes.length i i =
      if c0 = 10 ∧ [c1, c2] = [13, 10] then .ret (true, i + 3, i + 3)
      else findEnd turns bp bp.bytes.length (i + 1) (i + 1) := by
  have hlength := congrArg List.length htext
  rw [List.length_drop, List.length_cons, List.length_cons, List.length_cons] at hlength
  have hfound : compare (fun d c => d = c) BLANK (c0 :: c1 :: c2 :: rest) =
      some (decide (c0 = 10 ∧ [c1, c2] = [13, 10])) := by
    by_cases h0 : c0 = 10 <;> by_cases h1 : c1 = 13 <;> by_cases h2 : c2 = 10 <;>
      simp [compare, BLANK, h0, h1, h2]
  rw [findEnd, if_pos (by omega), agrees_ret hvalid htext hfound, Prog.ret_bind]
  by_cases hend : c0 = 10 ∧ [c1, c2] = [13, 10]
  · rw [decide_eq_true hend, if_pos rfl, if_pos hend]
    rfl
  · rw [decide_eq_false hend, if_neg Bool.false_ne_true, if_neg hend]

theorem exists_three {text : List Byte} (hlong : ¬ text.length ≤ 2) :
    ∃ c0 c1 c2 rest, text = c0 :: c1 :: c2 :: rest := by
  match text, hlong with
  | [], hlong => exact absurd (Nat.zero_le _) hlong
  | [_], hlong => exact absurd (Nat.le_succ 1) hlong
  | [_, _], hlong => exact absurd (Nat.le_refl 2) hlong
  | c0 :: c1 :: c2 :: rest, _ => exact ⟨c0, c1, c2, rest, rfl⟩

/-- The loop finds the blank line that has been received. -/
theorem findEnd_true {body : List Byte} (hvalid : bp.Valid) (htext : bp.bytes.drop i = text)
    (hturns : text.length < turns) (hbody : blankLine text = some body) :
    ∃ j, findEnd turns bp bp.bytes.length i i = .ret (true, j, j) ∧ bp.bytes.drop j = body ∧
      j ≤ bp.bytes.length := by
  induction turns generalizing i text with
  | zero => cases hturns
  | succ turns ih =>
      by_cases hshort : text.length ≤ 2
      · rw [blankLine_short hshort] at hbody
        cases hbody
      · obtain ⟨c0, c1, c2, rest, rfl⟩ := exists_three hshort
        have htail := drop_tail htext
        rw [findEnd_succ hvalid htext]
        change (if c0 = 10 ∧ [c1, c2] = [13, 10] then some rest
          else blankLine (c1 :: c2 :: rest)) = some body at hbody
        split
        · rename_i hend
          rw [if_pos hend] at hbody
          obtain rfl := Option.some.inj hbody
          refine ⟨i + 3, rfl, drop_tail (drop_tail htail), ?_⟩
          have hlength := congrArg List.length htext
          simp only [List.length_drop, List.length_cons] at hlength
          omega
        · rename_i hend
          rw [if_neg hend] at hbody
          exact ih htail (Nat.lt_of_succ_lt_succ hturns) hbody

/-- Where no blank line has been received, the loop leaves one or two bytes unread. -/
theorem findEnd_false (hvalid : bp.Valid) (htext : bp.bytes.drop i = text) (hne : text ≠ [])
    (hturns : text.length < turns) (hnone : blankLine text = none) :
    ∃ j, findEnd turns bp bp.bytes.length i i = .ret (false, j, j) ∧
      bp.bytes.drop j ≠ [] ∧ blankLine (bp.bytes.drop j) = none := by
  induction turns generalizing i text with
  | zero => cases hturns
  | succ turns ih =>
      by_cases hshort : text.length ≤ 2
      · have hlength := congrArg List.length htext
        rw [List.length_drop] at hlength
        refine ⟨i, ?_, htext ▸ hne, htext ▸ hnone⟩
        rw [findEnd, if_neg (by omega)]
        rfl
      · obtain ⟨c0, c1, c2, rest, rfl⟩ := exists_three hshort
        have htail := drop_tail htext
        rw [findEnd_succ hvalid htext]
        change (if c0 = 10 ∧ [c1, c2] = [13, 10] then some rest
          else blankLine (c1 :: c2 :: rest)) = none at hnone
        split
        · rename_i hend
          rw [if_pos hend] at hnone
          cases hnone
        · rename_i hend
          rw [if_neg hend] at hnone
          exact ih htail (List.cons_ne_nil _ _) (Nat.lt_of_succ_lt_succ hturns) hnone

/-- Without a blank line in what has been received the loop never ends. -/
theorem runs_endOfHeader_none {rounds : Nat} (hvalid : bp.Valid)
    (htext : bp.bytes.drop i = text) (hne : text ≠ [])
    (hturns : bp.bytes.length < turns) (hnone : blankLine text = none)
    (hrun : (endOfHeader jobid len turns rounds bp bp.bytes.length i i).Runs Sys chunks made
      outcome chunks') : outcome.toOption = none := by
  induction rounds generalizing i text made with
  | zero =>
      obtain ⟨-, rfl, -⟩ := hrun.of_stop
      rfl
  | succ rounds ih =>
      have hlength := congrArg List.length htext
      rw [List.length_drop] at hlength
      obtain ⟨j, hloop, hne', hnone'⟩ := findEnd_false hvalid htext hne
        (by omega : text.length < turns) hnone
      rw [endOfHeader, hloop, Prog.ret_bind] at hrun
      have hj : ¬ j ≥ bp.bytes.length := fun hge => hne' (List.drop_eq_nil_of_le hge)
      simp only [getMore, if_neg hj] at hrun
      exact ih rfl hne' hnone' hrun

theorem runs_endOfHeader {rounds : Nat} (hvalid : bp.Valid)
    (htext : bp.bytes.drop i = text) (hne : text ≠ []) (hturns : bp.bytes.length < turns)
    (hrounds : 0 < rounds)
    (hrun : (endOfHeader jobid len turns rounds bp bp.bytes.length i i).Runs Sys chunks made
      outcome chunks') : outcome.toOption = atEnd jobid len text chunks := by
  unfold atEnd
  split
  · rename_i hnone
    exact runs_endOfHeader_none hvalid htext hne hturns hnone hrun
  · rename_i body hbody
    have hlength := congrArg List.length htext
    rw [List.length_drop] at hlength
    obtain ⟨j, hloop, hbody', hj⟩ := findEnd_true hvalid htext
      (by omega : text.length < turns) hbody
    obtain ⟨rounds, rfl⟩ := Nat.exists_eq_succ_of_ne_zero (Nat.ne_of_gt hrounds)
    rw [endOfHeader, hloop, Prog.ret_bind] at hrun
    rcases runs_getMore hvalid hbody' hj hrun with
      ⟨rfl, rfl, made', hend⟩ |
        ⟨bp', text', rest, made', hvalid', -, htext', hne', hmore, -, hnext⟩
    · obtain ⟨-, rfl, -⟩ := hend.of_ret
      rfl
    · rw [hmore]
      refine runs_ippHeader hvalid' htext' ?_ hnext
      by_contra hge
      exact hne' (htext' ▸ List.drop_eq_nil_of_le (Nat.not_lt.mp hge))

theorem runs_lengthValue (hvalid : bp.Valid) (htext : bp.bytes.drop (i + 15) = text)
    (hturns : bp.bytes.length + chunks.flatten.length < turns)
    (hrun : (lengthValue jobid turns bp bp.bytes.length i).Runs Sys chunks made outcome chunks') :
    outcome.toOption = atValue jobid text chunks := by
  have hlength := congrArg List.length htext
  rw [List.length_drop] at hlength
  rw [lengthValue] at hrun
  unfold atValue
  cases hline : text.dropWhile isSpace with
  | nil => exact wrong (scan_nil hvalid htext hline) hrun
  | cons d line =>
      obtain ⟨hscan, hdrop⟩ := scan_cons hvalid htext hline (by omega : text.length < turns)
      rw [hscan, Prog.ret_bind] at hrun
      cases hbehind : (d :: line).dropWhile isDigit with
      | nil => exact wrong (scan_nil hvalid hdrop hbehind) hrun
      | cons t behind =>
          have hshort : (d :: line).length ≤ text.length := by
            rw [← hline]
            exact (List.dropWhile_suffix _).length_le
          obtain ⟨hscan', hdrop'⟩ := scan_cons hvalid hdrop hbehind
            (by omega : (d :: line).length < turns)
          generalize i + 15 + (text.takeWhile isSpace).length = value at *
          have hline' : bp.bytes.drop value = (d :: line).takeWhile isDigit ++ t :: behind := by
            rw [hdrop, ← hbehind, List.takeWhile_append_dropWhile]
          have hend := congrArg List.length hdrop'
          rw [List.length_drop, List.length_cons] at hend
          rw [hscan', Prog.ret_bind, put_ret (Nat.lt_of_lt_of_le (by omega) hvalid),
            Prog.ret_bind] at hrun
          have hset := drop_set (c := 0) hline'
          have hnr : (bp.bytes.set (value + ((d :: line).takeWhile isDigit).length) 0).length =
              bp.bytes.length := List.length_set
          have hbehind' : (bp.bytes.set (value + ((d :: line).takeWhile isDigit).length) 0).drop
              (value + ((d :: line).takeWhile isDigit).length + 1) = behind := by
            rw [List.drop_set_of_lt (Nat.lt_succ_self _)]
            exact drop_tail hdrop'
          generalize bp.bytes.set (value + ((d :: line).takeWhile isDigit).length) 0 = cells at *
          generalize value + ((d :: line).takeWhile isDigit).length = cp at *
          obtain ⟨n, hatol, hnumber⟩ := Option.map_eq_some_iff.mp
            (atol_digits (fun _ hd => List.mem_takeWhile_imp hd) behind)
          rw [atoi, hset, hatol] at hrun
          change ((getMore _ _ _) >>= _).Runs .. at hrun
          rw [← hnr] at hrun hturns
          rw [hnumber] at hrun
          have hvalid' : Buf.Valid ⟨cells, bp.size⟩ := hnr.trans_le hvalid
          rcases runs_getMore hvalid' hbehind' (by dsimp only; omega) hrun with
            ⟨rfl, rfl, made', hend⟩ |
              ⟨bp', text', rest, made', hvalid', -, htext', hne', hmore, hsame, hnext⟩
          · obtain ⟨-, rfl, -⟩ := hend.of_ret
            rfl
          · dsimp only
            rw [hmore]
            dsimp only at hsame
            exact runs_endOfHeader hvalid' htext' hne' (by omega) (by omega) hnext

/-- The bytes over which the search for the name goes at once. -/
def isOther (c : Byte) : Bool := c ≠ 67 ∧ c ≠ 99

theorem seek_ret (hvalid : bp.Valid) (htext : bp.bytes.drop i = text) (hi : i ≤ bp.bytes.length)
    (hturns : text.length < turns) {c : Byte} {rest : List Byte}
    (hrest : text.dropWhile isOther = c :: rest) :
    ∃ j, seek turns bp bp.bytes.length i i = .ret (j, j) ∧ bp.bytes.drop j = c :: rest := by
  induction turns generalizing i text with
  | zero => cases hturns
  | succ turns ih =>
      cases text with
      | nil => cases hrest
      | cons d text =>
          have hlength := congrArg List.length htext
          rw [List.length_drop, List.length_cons] at hlength
          rw [seek, if_pos (by omega), get_ret hvalid htext, Prog.ret_bind]
          split
          · rename_i hother
            rw [List.dropWhile_cons_of_pos (p := isOther) (decide_eq_true hother)] at hrest
            exact ih (drop_tail htext) (by omega) (Nat.lt_of_succ_lt_succ hturns) hrest
          · rename_i hother
            rw [List.dropWhile_cons_of_neg (p := isOther) (by simpa [isOther] using hother)] at hrest
            exact ⟨i, rfl, htext.trans hrest⟩

theorem seek_end (hvalid : bp.Valid) (htext : bp.bytes.drop i = text) (hi : i ≤ bp.bytes.length)
    (hturns : text.length < turns) (hrest : text.dropWhile isOther = []) :
    seek turns bp bp.bytes.length i i =
      if bp.bytes.length < bp.size then .ret (bp.bytes.length, bp.bytes.length)
      else .stop .bounds := by
  induction turns generalizing i text with
  | zero => cases hturns
  | succ turns ih =>
      have hlength := congrArg List.length htext
      rw [List.length_drop] at hlength
      cases text with
      | nil =>
          obtain rfl : i = bp.bytes.length := by
            rw [List.length_nil] at hlength
            omega
          rw [seek, if_neg (Nat.lt_irrefl _)]
          rfl
      | cons d text =>
          rw [List.length_cons] at hlength
          rw [seek, if_pos (by omega), get_ret hvalid htext, Prog.ret_bind]
          have hother : d ≠ 67 ∧ d ≠ 99 := by
            simpa [isOther] using List.dropWhile_eq_nil_iff.mp hrest d List.mem_cons_self
          rw [if_pos hother]
          rw [List.dropWhile_cons_of_pos (p := isOther) (decide_eq_true hother)] at hrest
          exact ih (drop_tail htext) (by omega) (Nat.lt_of_succ_lt_succ hturns) hrest

theorem search_of_other {d : Byte} (hd : isOther d) (text : List Byte) :
    search (d :: text) = search text := by
  have hdiff : ¬ tolower d = tolower 67 := by
    simp only [isOther, ne_eq, Bool.decide_and, Bool.and_eq_true, decide_not, Bool.not_eq_true', decide_eq_false_iff_not] at hd
    have hC : tolower 67 = 67 + 32 := rfl
    rw [tolower, hC]
    split
    · exact fun hsame => hd.1 ((UInt8.add_left_inj 32).mp hsame)
    · exact hd.2
  have hcompare : compare (fun d c => tolower d = tolower c) CONTENT_LENGTH (d :: text) =
      some false := if_neg (by simpa using hdiff)
  rw [search, hcompare]

/-- The search goes on behind the bytes that cannot begin the name. -/
theorem search_dropWhile (text : List Byte) : search (text.dropWhile isOther) = search text := by
  induction text with
  | nil => rfl
  | cons d text ih =>
      cases hd : isOther d with
      | true => rw [List.dropWhile_cons_of_pos hd, ih, search_of_other hd]
      | false => rw [List.dropWhile_cons_of_neg (ne_true_of_eq_false hd)]

theorem atHeader_congr {text' : List Byte} (hsearch : search text = search text') :
    atHeader jobid nr text chunks = atHeader jobid nr text' chunks := by
  unfold atHeader
  rw [hsearch]

theorem runs_contentLength {rounds : Nat} (hvalid : bp.Valid) (hsize : bp.size = Client.IOBUFSZ)
    (htext : bp.bytes.drop i = text) (hi : i ≤ bp.bytes.length)
    (hturns : bp.bytes.length + chunks.flatten.length < turns)
    (hrounds : text.length + chunks.flatten.length < rounds)
    (hrun : (contentLength jobid turns rounds bp bp.bytes.length i i).Runs Sys chunks made outcome
      chunks') : outcome.toOption = atHeader jobid bp.bytes.length text chunks := by
  induction rounds generalizing bp i text chunks made with
  | zero => cases hrounds
  | succ rounds ih =>
      -- at a byte that has been received the name is there, or not, or breaks off
      have hname : ∀ {bp : Buf} {i : Nat} {d : Byte} {text : List Byte}
          {chunks : List (List Byte)} {made : List (Prog.Made Op Op.Res)}, bp.Valid →
          bp.size = Client.IOBUFSZ → bp.bytes.drop i = d :: text →
          bp.bytes.length + chunks.flatten.length < turns →
          text.length + chunks.flatten.length < rounds →
          (strncasecmp CONTENT_LENGTH bp i >>= fun found =>
            if found then lengthValue jobid turns bp bp.bytes.length i
            else contentLength jobid turns rounds bp bp.bytes.length (i + 1) (i + 1)).Runs Sys
              chunks made outcome chunks' →
          outcome.toOption = atHeader jobid bp.bytes.length (d :: text) chunks := by
        intro bp i d text chunks made hvalid hsize htext hturns hrounds hrun
        have hlength := congrArg List.length htext
        rw [List.length_drop, List.length_cons] at hlength
        unfold atHeader search
        cases hcompare : compare (fun d c => tolower d = tolower c) CONTENT_LENGTH (d :: text) with
        | none => exact wrong (agrees_stop hvalid htext hcompare) hrun
        | some found =>
            rw [strncasecmp, agrees_ret hvalid htext hcompare, Prog.ret_bind] at hrun
            cases found with
            | true =>
                rw [if_pos rfl] at hrun
                refine runs_lengthValue hvalid ?_ hturns hrun
                rw [← List.drop_drop, htext]
                rfl
            | false =>
                rw [if_neg Bool.false_ne_true] at hrun
                have hend := ih hvalid hsize (drop_tail htext) (by omega) hturns hrounds hrun
                unfold atHeader at hend
                exact hend
      have hlength := congrArg List.length htext
      rw [List.length_drop] at hlength
      rw [contentLength] at hrun
      cases hrest : text.dropWhile isOther with
      | nil =>
          have habsent : search text = .absent := by
            rw [← search_dropWhile, hrest]
            rfl
          rw [seek_end hvalid htext hi (by omega) hrest] at hrun
          split at hrun
          · rename_i hroom
            rw [Prog.ret_bind] at hrun
            simp only [getMore, if_pos (Nat.le_refl bp.bytes.length)] at hrun
            rcases runs_readmore hvalid (Nat.le_refl _) hrun with
              ⟨rfl, made', hend⟩ |
                ⟨chunk, left, bp', made', rfl, hne, hvalid', hsize', hbytes, hnext⟩
            · obtain ⟨-, rfl, -⟩ := hend.of_ret
              unfold atHeader
              rw [habsent]
              exact (if_pos (hsize ▸ hroom)).symm
            · obtain ⟨d, chunk, rfl⟩ := List.exists_cons_of_ne_nil hne
              rw [List.take_length, List.drop_eq_nil_of_le (Nat.le_add_right ..),
                List.append_nil] at hbytes
              have hdrop : bp'.bytes.drop bp.bytes.length = d :: chunk := by
                rw [hbytes, List.drop_left]
              have hnr : bp'.bytes.length = bp.bytes.length + (d :: chunk).length := by
                rw [hbytes, List.length_append]
              rw [List.flatten_cons, List.length_append] at hturns hrounds
              rw [← hnr] at hnext
              rw [List.length_cons] at hrounds
              have hend := hname hvalid' ((hsize' hroom).trans hsize) hdrop (by omega) (by omega)
                hnext
              rw [hend, hnr]
              conv_rhs => unfold atHeader
              rw [habsent]
              exact (if_pos (hsize ▸ hroom)).symm
          · rename_i hfull
            obtain ⟨-, rfl, -⟩ := hrun.of_stop
            unfold atHeader
            rw [habsent]
            exact (if_neg (hsize ▸ hfull)).symm
      | cons d rest =>
          have hsearch : search text = search (d :: rest) := by
            rw [← search_dropWhile, hrest]
          obtain ⟨j, hseek, hdrop⟩ := seek_ret hvalid htext hi (by omega : text.length < turns) hrest
          have hj := congrArg List.length hdrop
          rw [List.length_drop, List.length_cons] at hj
          have hshort : (d :: rest).length ≤ text.length := by
            rw [← hrest]
            exact (List.dropWhile_suffix _).length_le
          rw [hseek, Prog.ret_bind] at hrun
          simp only [getMore, if_neg (by omega : ¬ j ≥ bp.bytes.length)] at hrun
          rw [atHeader_congr hsearch]
          rw [List.length_cons] at hshort
          exact hname hvalid hsize hdrop hturns (by omega) hrun

theorem log_msg_ret (hvalid : bp.Valid) (htext : bp.bytes.drop i = text) (hend : 0 ∈ text)
    (hturns : text.length < turns) : log_msg turns bp i = .ret () := by
  cases hrest : text.dropWhile fun c => c ≠ 0 with
  | nil =>
      have hzero := List.dropWhile_eq_nil_iff.mp hrest 0 hend
      exact absurd hzero (by decide)
  | cons c rest =>
      rw [log_msg, (scan_cons hvalid htext hrest hturns).1]
      rfl

theorem log_msg_stop (hvalid : bp.Valid) (htext : bp.bytes.drop i = text) (hend : 0 ∉ text) :
    ∃ reason, log_msg turns bp i = .stop reason := by
  have hrest : text.dropWhile (fun c => c ≠ 0) = [] := by
    refine List.dropWhile_eq_nil_iff.mpr fun c hc => decide_eq_true ?_
    rintro rfl
    exact hend hc
  obtain ⟨reason, hstop⟩ := scan_nil hvalid htext hrest
  exact ⟨reason, by rw [log_msg, hstop, Prog.stop_bind]⟩

/-- Behind a status code with digits. -/
theorem runs_code {chunk digits reason : List Byte} {t : Byte} {statcode : Nat} {next : P Bool}
    (hle : chunk.length ≤ Client.IOBUFSZ)
    (hturns : chunk.length + chunks.flatten.length < turns)
    (hnext : ∀ made, next.Runs Sys chunks made outcome chunks' →
      outcome.toOption = verdict jobid chunks)
    (hdigits : ∀ c ∈ digits, isDigit c) (hcode : chunk.drop statcode = digits ++ t :: reason)
    (hrun : (statusLine jobid turns ⟨chunk, Client.IOBUFSZ⟩ chunk.length statcode
      (statcode + digits.length) next).Runs Sys chunks made outcome chunks') :
    outcome.toOption = match reason.dropWhile isText with
      | [] => none
      | _ :: header =>
          if HTTP_INFO (number digits) then verdict jobid chunks
          else if HTTP_SUCCESS (number digits) then
            atHeader jobid chunk.length (0 :: header) chunks
          else if chunk.length < Client.IOBUFSZ then some false
          else none := by
  rw [statusLine] at hrun
  have hlength := congrArg List.length hcode
  rw [List.length_drop, List.length_append, List.length_cons] at hlength
  -- the end of the status code is overwritten
  rw [put_ret (by dsimp only; omega), Prog.ret_bind] at hrun
  have hcode1 := drop_set (c := 0) hcode
  have hlength1 : (chunk.set (statcode + digits.length) 0).length = chunk.length :=
    List.length_set
  dsimp only at hrun
  generalize chunk.set (statcode + digits.length) 0 = bytes1 at *
  have hvalid1 : Buf.Valid ⟨bytes1, Client.IOBUFSZ⟩ := hlength1.trans_le hle
  have hreason1 : bytes1.drop (statcode + digits.length + 1) = reason := by
    refine drop_tail (c := 0) ?_
    rw [← List.drop_drop, hcode1, List.drop_left]
  cases hheader : reason.dropWhile isText with
  | nil => exact wrong (scan_nil hvalid1 hreason1 hheader) hrun
  | cons e header =>
      obtain ⟨hscan, hq⟩ := scan_cons hvalid1 hreason1 hheader
        (by omega : reason.length < turns)
      rw [hscan, Prog.ret_bind] at hrun
      have hreason' : reason = reason.takeWhile isText ++ e :: header := by
        rw [← hheader, List.takeWhile_append_dropWhile]
      generalize reason.takeWhile isText = text at *
      dsimp only at hq hrun
      have hq' := congrArg List.length hq
      rw [List.length_drop, List.length_cons] at hq'
      -- and so is the end of the status line
      rw [put_ret (by dsimp only; omega), Prog.ret_bind] at hrun
      have hheader2 := drop_set (c := 0) (hq.trans (List.nil_append _).symm)
      have hreason2 := drop_set (c := 0) (hreason1.trans hreason')
      have hcode2 : (bytes1.set (statcode + digits.length + 1 + text.length) 0).drop statcode =
          digits ++ 0 :: (text ++ 0 :: header) := by
        have hfront : bytes1.drop statcode = (digits ++ 0 :: text) ++ e :: header := by
          rw [hcode1, hreason', List.append_assoc, List.cons_append]
        have hset := drop_set (c := 0) hfront
        rw [List.length_append, List.length_cons, List.append_assoc, List.cons_append] at hset
        rw [← hset]
        congr 2
        omega
      have hlength2 : (bytes1.set (statcode + digits.length + 1 + text.length) 0).length =
          bytes1.length := List.length_set
      dsimp only [List.length_nil, Nat.add_zero, List.nil_append] at hheader2 hrun
      generalize bytes1.set (statcode + digits.length + 1 + text.length) 0 = bytes2 at *
      generalize statcode + digits.length + 1 + text.length = q at *
      have hvalid2 : Buf.Valid ⟨bytes2, Client.IOBUFSZ⟩ := hlength2.trans_le hvalid1
      obtain ⟨n, hatol, hnumber⟩ := Option.map_eq_some_iff.mp
        (atol_digits hdigits (text ++ 0 :: header))
      rw [atoi, hcode2, hatol] at hrun
      dsimp only at hrun ⊢
      rw [Prog.pure_eq, Prog.ret_bind, hnumber] at hrun
      split at hrun
      · rename_i hinfo
        rw [if_pos hinfo]
        exact hnext _ hrun
      · rename_i hinfo
        rw [if_neg hinfo]
        split at hrun
        · rename_i hrefused
          rw [if_neg hrefused]
          split
          · rename_i hroom
            rw [put_ret hroom, Prog.ret_bind] at hrun
            dsimp only at hrun
            rw [List.set_eq_of_length_le (by omega)] at hrun
            have hend : 0 ∈ text ++ 0 :: header := List.mem_append_right _ List.mem_cons_self
            have hlong := congrArg List.length hreason2
            rw [List.length_drop] at hlong
            rw [log_msg_ret hvalid2 hreason2 hend (by omega), Prog.ret_bind] at hrun
            obtain ⟨-, rfl, -⟩ := hrun.of_ret
            rfl
          · rename_i hfull
            exact wrong (put_stop (Nat.not_lt.mp hfull)) hrun
        · rename_i hsuccess
          rw [if_pos (not_not.mp hsuccess)]
          have hlong := congrArg List.length hheader2
          rw [List.length_drop] at hlong
          have hnr : chunk.length = bytes2.length := (hlength2.trans hlength1).symm
          rw [hnr] at hrun ⊢
          exact runs_contentLength hvalid2 rfl hheader2 (by dsimp only; omega)
            (by dsimp only; omega) (by omega) hrun

theorem runs_response {chunk : List Byte} {next : P Bool} (hle : chunk.length ≤ Client.IOBUFSZ)
    (hturns : chunk.length + chunks.flatten.length < turns)
    (hnext : ∀ made, next.Runs Sys chunks made outcome chunks' →
      outcome.toOption = verdict jobid chunks)
    (hrun : (response jobid turns chunk next).Runs Sys chunks made outcome chunks') :
    outcome.toOption = verdict jobid (chunk :: chunks) := by
  have hvalid : Buf.Valid ⟨chunk, Client.IOBUFSZ⟩ := hle
  have hdrop : (chunk.drop 8).length ≤ chunk.length := by
    rw [List.length_drop]
    exact Nat.sub_le ..
  rw [response] at hrun
  unfold verdict statusCode
  cases hline : (chunk.drop 8).dropWhile isSpace with
  | nil => exact wrong (scan_nil hvalid rfl hline) hrun
  | cons d line =>
      obtain ⟨hscan, hstatcode⟩ := scan_cons hvalid rfl hline
        (by omega : (chunk.drop 8).length < turns)
      rw [hscan, Prog.ret_bind] at hrun
      dsimp only at hstatcode hrun
      generalize 8 + ((chunk.drop 8).takeWhile isSpace).length = statcode at *
      cases hreason : (d :: line).dropWhile isDigit with
      | nil => exact wrong (scan_nil hvalid hstatcode hreason) hrun
      | cons t reason =>
          have hshort := congrArg List.length hstatcode
          rw [List.length_drop] at hshort
          obtain ⟨hscan', hcp⟩ := scan_cons hvalid hstatcode hreason
            (by omega : (d :: line).length < turns)
          rw [hscan', Prog.ret_bind] at hrun
          have hdigit : ∀ c ∈ (d :: line).takeWhile isDigit, isDigit c :=
            fun _ hc => List.mem_takeWhile_imp hc
          have hcode : chunk.drop statcode = (d :: line).takeWhile isDigit ++ t :: reason := by
            rw [hstatcode, ← hreason, List.takeWhile_append_dropWhile]
          generalize (d :: line).takeWhile isDigit = digits at *
          dsimp only at hcp ⊢
          cases digits with
          | nil =>
              rw [List.length_nil, Nat.add_zero, if_pos rfl] at hrun
              dsimp only
              have hwhole : (Buf.mk chunk Client.IOBUFSZ).bytes.drop 0 = chunk := rfl
              split
              · rename_i hzero
                rw [log_msg_ret hvalid hwhole hzero (by omega), Prog.ret_bind] at hrun
                exact hnext _ hrun
              · rename_i hzero
                exact wrong (log_msg_stop hvalid hwhole hzero) hrun
          | cons n digits =>
              rw [if_neg (by rw [List.length_cons]; omega)] at hrun
              exact runs_code hle hturns hnext hdigit hcode hrun

theorem runs_responses {rounds : Nat} (hturns : chunks.flatten.length < turns)
    (hrounds : chunks.length < rounds)
    (hrun : (responses jobid turns rounds).Runs Sys chunks made outcome chunks') :
    outcome.toOption = verdict jobid chunks := by
  induction rounds generalizing chunks made with
  | zero => cases hrounds
  | succ rounds ih =>
      obtain ⟨r, rest, made', -, hsys, hnext⟩ := hrun.of_call
      cases hsys with
      | eof =>
          obtain ⟨-, rfl, -⟩ := hnext.of_ret
          rfl
      | noData =>
          obtain ⟨-, rfl, -⟩ := hnext.of_ret
          rfl
      | @data _ _ chunk _ hne hle =>
          change (if chunk = [] then .ret false
            else response jobid turns chunk (responses jobid turns rounds) : P Bool).Runs .. at hnext
          rw [if_neg hne] at hnext
          rw [List.flatten_cons, List.length_append] at hturns
          rw [List.length_cons] at hrounds
          exact runs_response hle hturns
            (fun _ hrun => ih (by omega) (Nat.lt_of_succ_lt_succ hrounds) hrun) hnext

end Runs

end ApueCourse.Print.Reply
