import ApueCourse.Print.Readable

/-! The printer's replies, and the divisions of them that `printer_status` takes in. -/

namespace ApueCourse.Print.Reply

open Memory Program

def isBlank (c : Byte) : Bool := c = 32 ∨ c = 9

/-- A status line without its `"\r\n"`. -/
structure Status where
  version : List Byte
  code : Nat
  reason : List Byte
  version_length : version.length = 8
  code_range : 100 ≤ code ∧ code ≤ 999
  reason_text : ∀ b ∈ reason, isText b

def Status.bytes (s : Status) : List Byte :=
  s.version ++ 32 :: (decimal s.code ++ 32 :: s.reason)

/-- A line of a header without its `"\r\n"`. -/
structure Field where
  bytes : List Byte
  ne_nil : bytes ≠ []
  text : ∀ b ∈ bytes, isText b

def fields (fs : List Field) : List Byte := (fs.map fun field => field.bytes ++ [13, 10]).flatten

/-- A 1xx response. -/
structure Info where
  status : Status
  header : List Field
  code_le : status.code ≤ 199

def Info.bytes (r : Info) : List Byte := r.status.bytes ++ [13, 10] ++ fields r.header ++ [13, 10]

/-- Letters in either case are the same. -/
def fold (text : List Byte) : List Byte := text.map tolower

/-- The final response: the header has a line for the length of the body. -/
structure Final where
  status : Status
  before : List Field
  name : List Byte
  spaces : List Byte
  padding : List Byte
  after : List Field
  body : List Byte
  code_ge : 200 ≤ status.code
  name_eq : fold name = fold CONTENT_LENGTH
  spaces_blank : ∀ b ∈ spaces, isBlank b
  padding_blank : ∀ b ∈ padding, isBlank b
  body_length : 8 ≤ body.length

namespace Final

/-- Up to the line with the length. -/
def front (r : Final) : List Byte := r.status.bytes ++ [13, 10] ++ fields r.before

/-- The number with the byte that ends it. -/
def value (r : Final) : List Byte :=
  r.spaces ++ decimal r.body.length ++ (r.padding ++ [13]).take 1

/-- What is left of the header behind the number. -/
def rest (r : Final) : List Byte :=
  (r.padding ++ [13]).drop 1 ++ 10 :: (fields r.after ++ [13, 10])

def bytes (r : Final) : List Byte := r.front ++ r.name ++ r.value ++ r.rest ++ r.body

/-- What the job comes to. -/
def success (r : Final) (jobid : Int) : Bool :=
  HTTP_SUCCESS r.status.code ∧ (Client.ntohl (r.body.drop 4) : Int) = jobid ∧
    STATCLASS_OK (ntohs (r.body.drop 2))

end Final

theorem isText_iff {c : Byte} : isText c ↔ c ≠ 13 ∧ c ≠ 10 := decide_eq_true_iff

theorem isBlank_iff {c : Byte} : isBlank c ↔ c = 32 ∨ c = 9 := decide_eq_true_iff

theorem blankLine_append {text rest : List Byte} (htext : ∀ b ∈ text, b ≠ 10) :
    blankLine (text ++ rest) = blankLine rest := by
  induction text with
  | nil => rfl
  | cons c text ih =>
      rw [List.cons_append, blankLine, if_neg fun h => htext c List.mem_cons_self h.1,
        ih fun b hb => htext b (List.mem_cons_of_mem _ hb)]

/-- The first blank line is the one behind the fields. -/
theorem blankLine_fields (fs : List Field) (body : List Byte) :
    blankLine (10 :: (fields fs ++ [13, 10] ++ body)) = some body := by
  induction fs with
  | nil => rfl
  | cons field fs ih =>
      obtain ⟨c, line, hline⟩ := List.exists_cons_of_ne_nil field.ne_nil
      have htext : ∀ b ∈ field.bytes ++ [13], b ≠ 10 := by
        intro b hb
        rcases List.mem_append.mp hb with hb | hb
        · exact (isText_iff.mp (field.text b hb)).2
        · rw [List.mem_singleton.mp hb]
          decide
      have hc : c ≠ 13 := by
        have hmem : c ∈ field.bytes := by
          rw [hline]
          exact List.mem_cons_self
        exact (isText_iff.mp (field.text c hmem)).1
      have hsplit : fields (field :: fs) ++ [13, 10] ++ body =
          (field.bytes ++ [13]) ++ 10 :: (fields fs ++ [13, 10] ++ body) := by
        simp only [fields, List.map_cons, List.flatten_cons, List.append_assoc,
          List.cons_append, List.nil_append]
      rw [hsplit, blankLine, if_neg, blankLine_append htext, ih]
      rintro ⟨-, htake⟩
      rw [hline] at htake
      exact hc (List.head_eq_of_cons_eq htake)

/-! The numbers. -/

theorem number_decimal (n : Nat) :
    number (decimal n) = (min (n : Int) LONG_MAX).bmod (2 ^ 32) := by
  rw [number, foldl_decimal]

theorem number_status {n : Nat} (hn : n ≤ 999) : number (decimal n) = n := by
  have hmin : min (n : Int) LONG_MAX = n := by
    rw [LONG_MAX]
    omega
  rw [number_decimal, hmin, Int.bmod_eq_of_le]
  · omega
  · omega

/-- The length that has been read is never more than the length that has been sent. -/
theorem number_le (n : Nat) : number (decimal n) ≤ n := by
  rw [number_decimal]
  have hmin : min (n : Int) LONG_MAX ≤ n := Int.min_le_left _ _
  have hnonneg : 0 ≤ min (n : Int) LONG_MAX := by
    rw [LONG_MAX]
    omega
  have hpow : ((2 ^ 32 : Nat) : Int) = 4294967296 := rfl
  rw [Int.bmod_def, hpow]
  split <;> omega

/-! The search for the name. -/

theorem fold_append (first second : List Byte) : fold (first ++ second) = fold first ++ fold second :=
  List.map_append

theorem compare_eq_some {name text : List Byte} :
    compare (fun d c => tolower d = tolower c) name text = some true ↔ fold name <+: fold text := by
  induction name generalizing text with
  | nil => exact ⟨fun _ => List.nil_prefix, fun _ => rfl⟩
  | cons c name ih =>
      cases text with
      | nil => simp [compare, fold]
      | cons d text =>
          rw [compare, fold, fold, List.map_cons, List.map_cons, List.cons_prefix_cons]
          split
          · rename_i hsame
            rw [ih, eq_comm.mp (of_decide_eq_true hsame)]
            simp [fold]
          · rename_i hdiff
            have hne : ¬ tolower c = tolower d := fun h => hdiff (decide_eq_true h.symm)
            simp [hne]

theorem compare_eq_none {name text : List Byte}
    (hcut : compare (fun d c => tolower d = tolower c) name text = none) :
    fold text <+: fold name ∧ text.length < name.length := by
  induction name generalizing text with
  | nil => cases hcut
  | cons c name ih =>
      cases text with
      | nil => exact ⟨List.nil_prefix, Nat.succ_pos _⟩
      | cons d text =>
          rw [compare] at hcut
          split at hcut
          · rename_i hsame
            obtain ⟨hstart, hlength⟩ := ih hcut
            rw [fold, fold, List.map_cons, List.map_cons, List.cons_prefix_cons]
            exact ⟨⟨of_decide_eq_true hsame, hstart⟩, Nat.succ_lt_succ hlength⟩
          · cases hcut

theorem search_absent {text : List Byte}
    (hname : ∀ b, b ≠ [] → b <:+ text → ¬ fold CONTENT_LENGTH <+: fold b ∧
      ¬ fold b <+: fold CONTENT_LENGTH) : search text = .absent := by
  induction text with
  | nil => rfl
  | cons d text ih =>
      have hrest := ih fun b hb hsuffix => hname b hb (hsuffix.trans (List.suffix_cons _ _))
      obtain ⟨hwhole, hpart⟩ := hname (d :: text) (List.cons_ne_nil _ _) List.suffix_rfl
      rw [search]
      cases hcompare : compare (fun d c => tolower d = tolower c) CONTENT_LENGTH (d :: text) with
      | none => exact absurd (compare_eq_none hcompare).1 hpart
      | some found =>
          cases found with
          | true => exact absurd (compare_eq_some.mp hcompare) hwhole
          | false => exact hrest

theorem search_behind {front name rest : List Byte} (hname : fold name = fold CONTENT_LENGTH)
    (hfront : ∀ b, b ≠ [] → b <:+ front → ¬ fold CONTENT_LENGTH <+: fold (b ++ name ++ rest)) :
    search (front ++ name ++ rest) = .behind rest := by
  have hlength : name.length = 15 := by
    have hlength := congrArg List.length hname
    rwa [fold, fold, List.length_map, List.length_map] at hlength
  induction front with
  | nil =>
      obtain ⟨d, name, rfl⟩ := List.exists_cons_of_length_eq_add_one hlength
      have hstart : fold CONTENT_LENGTH <+: fold ((d :: name) ++ rest) := by
        rw [← hname, fold_append]
        exact List.prefix_append _ _
      rw [List.nil_append, List.cons_append, search]
      rw [List.cons_append] at hstart
      rw [compare_eq_some.mpr hstart]
      dsimp only
      rw [List.drop_left' (Nat.succ_inj.mp hlength)]
  | cons d front ih =>
      have hrest := ih fun b hb hsuffix => hfront b hb (hsuffix.trans (List.suffix_cons _ _))
      have hhere := hfront (d :: front) (List.cons_ne_nil _ _) List.suffix_rfl
      rw [List.cons_append, List.cons_append] at hhere ⊢
      rw [search]
      cases hcompare : compare (fun d c => tolower d = tolower c) CONTENT_LENGTH
          (d :: (front ++ name ++ rest)) with
      | none =>
          have hshort := (compare_eq_none hcompare).2
          simp only [List.length_cons, List.length_append, hlength] at hshort
          have hfifteen : CONTENT_LENGTH.length = 15 := rfl
          omega
      | some found =>
          cases found with
          | true => exact absurd (compare_eq_some.mp hcompare) hhere
          | false => exact hrest

theorem suffix_append_cases {b first second : List Byte} (hsuffix : b <:+ first ++ second) :
    b <:+ second ∨ ∃ x, b = x ++ second ∧ x <:+ first := by
  obtain ⟨a, ha⟩ := hsuffix
  rcases List.append_eq_append_iff.mp ha with ⟨c, rfl, hb⟩ | ⟨c, rfl, hb⟩
  · exact .inr ⟨c, hb, List.suffix_append _ _⟩
  · exact .inl (hb ▸ List.suffix_append _ _)

/-- What ends a line, or has been put over its end. -/
def isBreak (c : Byte) : Bool := c = 0 ∨ c = 10 ∨ c = 13

/-- A piece of the header from some place on begins within one line. -/
theorem suffix_fields {fs : List Field} {b : List Byte} (hne : b ≠ [])
    (hsuffix : b <:+ 0 :: 10 :: fields fs) :
    ∃ x s y, b = x ++ s :: y ∧ isBreak s ∧ (x = [] ∨ ∃ field ∈ fs, x <:+ field.bytes) := by
  rcases List.suffix_cons_iff.mp hsuffix with rfl | hsuffix
  · exact ⟨[], 0, _, rfl, rfl, .inl rfl⟩
  rcases List.suffix_cons_iff.mp hsuffix with rfl | hsuffix
  · exact ⟨[], 10, _, rfl, rfl, .inl rfl⟩
  induction fs with
  | nil => exact absurd (List.suffix_nil.mp hsuffix) hne
  | cons field fs ih =>
      have hfields : fields (field :: fs) = field.bytes ++ 13 :: 10 :: fields fs := by
        simp only [fields, List.map_cons, List.flatten_cons, List.append_assoc,
          List.cons_append, List.nil_append]
      rw [hfields] at hsuffix
      rcases suffix_append_cases hsuffix with hsuffix | ⟨x, rfl, hx⟩
      · rcases List.suffix_cons_iff.mp hsuffix with rfl | hsuffix
        · exact ⟨[], 13, _, rfl, rfl, .inl rfl⟩
        rcases List.suffix_cons_iff.mp hsuffix with rfl | hsuffix
        · exact ⟨[], 10, _, rfl, rfl, .inl rfl⟩
        obtain ⟨x, s, y, hb, hs, hx⟩ := ih (hsuffix.trans ⟨[0, 10], rfl⟩)
          (hsuffix.trans ⟨[10], rfl⟩) hsuffix
        refine ⟨x, s, y, hb, hs, hx.imp_right ?_⟩
        rintro ⟨field', hmem, hx⟩
        exact ⟨field', List.mem_cons_of_mem _ hmem, hx⟩
      · exact ⟨x, 13, _, rfl, rfl, .inr ⟨field, List.mem_cons_self, hx⟩⟩

theorem not_isBreak_of_mem {c : Byte} (hc : c ∈ fold CONTENT_LENGTH) : ¬ isBreak c := by
  revert c
  decide +kernel

/-- A header whose lines do not hold the name holds it nowhere. -/
theorem not_prefix_of_fields {fs : List Field} {b : List Byte} (rest : List Byte)
    (hfree : ∀ field ∈ fs, ¬ fold CONTENT_LENGTH <:+: fold field.bytes) (hne : b ≠ [])
    (hsuffix : b <:+ 0 :: 10 :: fields fs) : ¬ fold CONTENT_LENGTH <+: fold (b ++ rest) := by
  intro hstart
  obtain ⟨x, s, y, rfl, hs, hx⟩ := suffix_fields hne hsuffix
  have hsame : tolower s = s := by
    rcases of_decide_eq_true hs with rfl | rfl | rfl <;> rfl
  have hsplit : fold (x ++ s :: y ++ rest) = fold x ++ s :: fold (y ++ rest) := by
    simp only [fold, List.map_append, List.map_cons, List.append_assoc, List.cons_append, hsame]
  rw [hsplit] at hstart
  by_cases hlength : (fold CONTENT_LENGTH).length ≤ (fold x).length
  · have hinside := List.prefix_of_prefix_length_le hstart (List.prefix_append _ _) hlength
    rcases hx with rfl | ⟨field, hmem, hx⟩
    · exact absurd (List.prefix_nil.mp hinside) (by decide)
    · exact hfree field hmem (hinside.isInfix.trans (hx.map tolower).isInfix)
  · have hover : fold x ++ [s] <+: fold CONTENT_LENGTH := by
      refine List.prefix_of_prefix_length_le ?_ hstart ?_
      · exact ⟨fold (y ++ rest), by rw [List.append_assoc]; rfl⟩
      · rw [List.length_append, List.length_singleton]
        omega
    have hmem := hover.subset (List.mem_append_right _ (List.mem_singleton_self s))
    exact not_isBreak_of_mem hmem hs

namespace Final

variable {r : Final} {jobid : Int} {chunks : List (List Byte)}

/-- What `printer_status` may have received of the final response when it asks for more: the status
line and more, without an end in which the name of the length may begin; or all up to the byte
behind the length, or the whole header. -/
inductive MayEnd (r : Final) : List Byte → Prop
  | fields {received : List Byte} (hstatus : r.status.bytes ++ [13] <+: received)
      (hfront : received <+: r.front) (hroom : received.length < Client.IOBUFSZ)
      (hname : ∀ b, b ≠ [] → b <:+ received → ¬ fold b <+: fold CONTENT_LENGTH) :
      MayEnd r received
  | value : MayEnd r (r.front ++ r.name ++ r.value)
  | header : MayEnd r (r.front ++ r.name ++ r.value ++ r.rest)

theorem atBody_body (r : Final) (jobid : Int) (hsuccess : HTTP_SUCCESS r.status.code)
    (chunks : List (List Byte)) :
    atBody jobid (number (decimal r.body.length)) r.body chunks = some (r.success jobid) := by
  have hle := number_le r.body.length
  unfold atBody
  rw [if_neg (by omega), ipp, if_pos r.body_length, success]
  simp [hsuccess]

theorem body_ne_nil (r : Final) : r.body ≠ [] := by
  intro hnil
  have hlength := r.body_length
  rw [hnil] at hlength
  cases hlength

/-- The byte behind the length, and the rest of its line. -/
theorem exists_lineEnd (r : Final) : ∃ e line, r.padding ++ [13] = e :: line ∧ ¬ isDigit e ∧
    ∀ b ∈ line, b ≠ 10 := by
  have hbyte : ∀ b ∈ r.padding ++ [13], ¬ isDigit b ∧ b ≠ 10 := by
    intro b hb
    rcases List.mem_append.mp hb with hb | hb
    · rcases isBlank_iff.mp (r.padding_blank b hb) with rfl | rfl <;> decide
    · rw [List.mem_singleton.mp hb]
      decide
  obtain ⟨e, line, hsplit⟩ := List.exists_cons_of_ne_nil
    (List.append_ne_nil_of_right_ne_nil r.padding (List.cons_ne_nil 13 []))
  rw [hsplit] at hbyte
  exact ⟨e, line, hsplit, (hbyte e List.mem_cons_self).1,
    fun b hb => (hbyte b (List.mem_cons_of_mem _ hb)).2⟩

theorem blankLine_rest (r : Final) (body : List Byte) : blankLine (r.rest ++ body) = some body := by
  obtain ⟨e, line, hsplit, -, hline⟩ := r.exists_lineEnd
  rw [rest, hsplit, List.drop_one, List.tail_cons, List.append_assoc, blankLine_append hline,
    List.cons_append]
  exact blankLine_fields r.after body

theorem rest_ne_nil (r : Final) : r.rest ≠ [] := by
  rw [rest]
  exact List.append_ne_nil_of_right_ne_nil _ (List.cons_ne_nil _ _)

theorem atEnd_whole (r : Final) (jobid : Int) (hsuccess : HTTP_SUCCESS r.status.code) :
    atEnd jobid (number (decimal r.body.length)) (r.rest ++ r.body) [] =
      some (r.success jobid) := by
  unfold atEnd
  rw [r.blankLine_rest]
  dsimp only
  rw [more, if_neg r.body_ne_nil, r.atBody_body jobid hsuccess]

theorem atEnd_header (r : Final) (jobid : Int) (hsuccess : HTTP_SUCCESS r.status.code) :
    atEnd jobid (number (decimal r.body.length)) r.rest [r.body] = some (r.success jobid) := by
  have hblank := r.blankLine_rest []
  rw [List.append_nil] at hblank
  unfold atEnd
  rw [hblank]
  exact r.atBody_body jobid hsuccess []

theorem atValue_value (r : Final) (jobid : Int) (behind : List Byte) (chunks : List (List Byte)) :
    atValue jobid (r.value ++ behind) chunks =
      more (atEnd jobid (number (decimal r.body.length))) behind chunks := by
  obtain ⟨e, line, hsplit, he, -⟩ := r.exists_lineEnd
  have hdigits : ∀ b ∈ decimal r.body.length, isDigit b := fun _ => isDigit_of_mem_decimal
  have hspaces : ∀ b ∈ r.spaces, isSpace b := by
    intro b hb
    rcases isBlank_iff.mp (r.spaces_blank b hb) with rfl | rfl <;> rfl
  have hvalue : r.value ++ behind = r.spaces ++ decimal r.body.length ++ e :: behind := by
    rw [value, hsplit, List.append_assoc]
    rfl
  have hnone : decimal r.body.length = [] → ¬ isSpace e :=
    fun hnil => absurd hnil (decimal_ne_nil _)
  unfold atValue
  rw [hvalue, number_split hspaces hdigits hnone, (dropWhile_split hdigits he).1,
    (dropWhile_split hdigits he).2]

/-- Behind the number only the end of the header is a place for a cut. -/
theorem MayEnd.eq_header {c : List Byte} (hc : c ≠ [])
    (hend : r.MayEnd (r.front ++ r.name ++ r.value ++ c)) : c = r.rest := by
  have hpos := List.length_pos_iff.mpr hc
  generalize hreceived : r.front ++ r.name ++ r.value ++ c = received at hend
  have hlength := congrArg List.length hreceived
  simp only [List.length_append] at hlength
  cases hend with
  | fields _ hfront =>
      have hle := hfront.length_le
      omega
  | value =>
      simp only [List.length_append] at hlength
      omega
  | header => exact List.append_cancel_left hreceived

theorem not_mayEnd {c : List Byte} (hc : c ≠ []) :
    ¬ r.MayEnd (r.front ++ r.name ++ r.value ++ r.rest ++ c) := by
  intro hend
  rw [List.append_assoc] at hend
  have hsame := MayEnd.eq_header (List.append_ne_nil_of_right_ne_nil _ hc) hend
  exact hc (List.append_right_eq_self.mp hsame)

/-- The body comes in one piece behind the header. -/
theorem eq_body {c : List Byte} {rest : List (List Byte)} (hne : ∀ chunk ∈ c :: rest, chunk ≠ [])
    (hbytes : (c :: rest).flatten = r.body)
    (hcuts : ∀ front more, c :: rest = front ++ more → more ≠ [] →
      r.MayEnd (r.front ++ r.name ++ r.value ++ r.rest ++ front.flatten)) :
    rest = [] ∧ c = r.body := by
  cases rest with
  | nil => exact ⟨rfl, by simpa using hbytes⟩
  | cons c' rest =>
      have hend := hcuts [c] (c' :: rest) rfl (List.cons_ne_nil _ _)
      rw [List.flatten_singleton] at hend
      exact absurd hend (not_mayEnd (hne c List.mem_cons_self))

/-- The search finds the line with the length. -/
theorem search_front {pre : List Byte}
    (hfree : ∀ field ∈ r.before, ¬ fold CONTENT_LENGTH <:+: fold field.bytes)
    (hpre : pre <:+ 0 :: 10 :: fields r.before) (rest : List Byte) :
    search (pre ++ r.name ++ rest) = .behind rest := by
  refine search_behind r.name_eq fun b hb hb' => ?_
  rw [List.append_assoc]
  exact not_prefix_of_fields _ hfree hb (hb'.trans hpre)

theorem atHeader_of_cuts {received text pre : List Byte} (hsuccess : HTTP_SUCCESS r.status.code)
    (hfree : ∀ field ∈ r.before, ¬ fold CONTENT_LENGTH <:+: fold field.bytes)
    (hne : ∀ chunk ∈ chunks, chunk ≠ [])
    (hbytes : received ++ chunks.flatten = r.bytes)
    (hpre : pre <:+ 0 :: 10 :: fields r.before)
    (htext : text ++ chunks.flatten = pre ++ r.name ++ (r.value ++ (r.rest ++ r.body)))
    (hsuffix : ∀ b, b ≠ [] → b <:+ text → b <:+ received ∨ ∃ b', b = 0 :: b')
    (hcuts : ∀ front more, chunks = front ++ more → more ≠ [] →
      r.MayEnd (received ++ front.flatten)) :
    atHeader jobid received.length text chunks = some (r.success jobid) := by
  induction chunks generalizing received text pre with
  | nil =>
      rw [List.flatten_nil, List.append_nil] at htext
      unfold atHeader
      rw [htext, search_front hfree hpre]
      dsimp only
      rw [atValue_value, more, if_neg (List.append_ne_nil_of_right_ne_nil _ r.body_ne_nil)]
      exact r.atEnd_whole jobid hsuccess
  | cons c rest ih =>
      have hend := hcuts [] (c :: rest) rfl (List.cons_ne_nil _ _)
      rw [List.flatten_nil, List.append_nil] at hend
      cases hend with
      | fields hstatus hfront hroom hname =>
          have hlength := congrArg List.length htext
          have hlength' := congrArg List.length hbytes
          have hle := hfront.length_le
          simp only [bytes, List.length_append] at hlength hlength'
          have hstart : text <+: pre := by
            refine List.prefix_of_prefix_length_le (List.prefix_append text (c :: rest).flatten) ?_
              (by omega)
            rw [htext, List.append_assoc]
            exact List.prefix_append _ _
          obtain ⟨pre', rfl⟩ := hstart
          have habsent : search text = .absent := by
            refine search_absent fun b hb hb' => ⟨fun hwhole => ?_, fun hpart => ?_⟩
            · have hlong : b ++ pre' <:+ 0 :: 10 :: fields r.before := by
                obtain ⟨a, rfl⟩ := hb'
                refine List.IsSuffix.trans ?_ hpre
                rw [List.append_assoc]
                exact List.suffix_append _ _
              have hnot := not_prefix_of_fields [] hfree
                (List.append_ne_nil_of_left_ne_nil hb _) hlong
              rw [List.append_nil, fold_append] at hnot
              exact hnot (hwhole.trans (List.prefix_append _ _))
            · rcases hsuffix b hb hb' with hreceived | ⟨b', rfl⟩
              · exact hname b hb hreceived hpart
              · exact absurd (List.cons_prefix_cons.mp hpart).1 (by decide)
          unfold atHeader
          rw [habsent]
          dsimp only
          rw [if_pos hroom, ← List.length_append]
          rw [List.flatten_cons] at htext hbytes
          have hpre' : pre' <:+ 0 :: 10 :: fields r.before :=
            (List.suffix_append _ _).trans hpre
          have htext' : c ++ rest.flatten =
              pre' ++ r.name ++ (r.value ++ (r.rest ++ r.body)) := by
            rw [List.append_assoc text, List.append_assoc text] at htext
            exact List.append_cancel_left htext
          refine ih (fun chunk hchunk => hne chunk (List.mem_cons_of_mem _ hchunk)) ?_ hpre' htext'
            (fun b _ hb' => .inl (hb'.trans (List.suffix_append _ _))) ?_
          · rw [List.append_assoc, hbytes]
          · intro front more hfront hmore
            have hend := hcuts (c :: front) more (congrArg _ hfront) hmore
            rwa [List.flatten_cons, ← List.append_assoc] at hend
      | value =>
          have hflatten : (c :: rest).flatten = r.rest ++ r.body := by
            rw [bytes, List.append_assoc _ r.rest] at hbytes
            exact List.append_cancel_left hbytes
          have hvalue : text = pre ++ r.name ++ r.value := by
            rw [hflatten, ← List.append_assoc _ r.value] at htext
            exact List.append_cancel_right htext
          have hsearch : search text = .behind r.value := by
            rw [hvalue, search_front hfree hpre]
          have hatValue := r.atValue_value jobid [] (c :: rest)
          rw [List.append_nil, more, if_pos rfl] at hatValue
          unfold atHeader
          rw [hsearch]
          refine hatValue.trans ?_
          cases rest with
          | nil =>
              rw [List.flatten_singleton] at hflatten
              rw [hflatten]
              exact r.atEnd_whole jobid hsuccess
          | cons c' rest =>
              have hend := hcuts [c] (c' :: rest) rfl (List.cons_ne_nil _ _)
              rw [List.flatten_singleton] at hend
              obtain rfl := hend.eq_header (hne c List.mem_cons_self)
              rw [List.flatten_cons] at hflatten
              obtain ⟨rfl, rfl⟩ := eq_body (fun chunk hchunk => hne chunk (List.mem_cons_of_mem _ hchunk))
                (List.append_cancel_left hflatten) fun front more hfront hmore => by
                  have hend := hcuts (r.rest :: front) more (congrArg _ hfront) hmore
                  rwa [List.flatten_cons, ← List.append_assoc] at hend
              exact r.atEnd_header jobid hsuccess
      | header =>
          have hflatten : (c :: rest).flatten = r.body := List.append_cancel_left hbytes
          have hvalue : text = pre ++ r.name ++ (r.value ++ r.rest) := by
            rw [hflatten, ← List.append_assoc r.value, ← List.append_assoc _ (r.value ++ r.rest)]
              at htext
            exact List.append_cancel_right htext
          obtain ⟨rfl, rfl⟩ := eq_body hne hflatten hcuts
          have hsearch : search text = .behind (r.value ++ r.rest) := by
            rw [hvalue, search_front hfree hpre]
          have hatValue := r.atValue_value jobid r.rest [r.body]
          rw [more, if_neg r.rest_ne_nil] at hatValue
          unfold atHeader
          rw [hsearch]
          exact hatValue.trans (r.atEnd_header jobid hsuccess)

theorem bytes_eq (r : Final) : r.bytes = r.status.bytes ++ [13] ++
    (10 :: Reply.fields r.before ++ (r.name ++ r.value ++ (r.rest ++ r.body))) := by
  simp only [bytes, front, List.append_assoc, List.cons_append, List.nil_append]

theorem status_prefix (r : Final) : r.status.bytes ++ [13] <+: r.front :=
  ⟨10 :: Reply.fields r.before, by
    simp only [front, List.append_assoc, List.cons_append, List.nil_append]⟩

theorem MayEnd.status_prefix {received : List Byte} (hend : r.MayEnd received) :
    r.status.bytes ++ [13] <+: received := by
  cases hend with
  | fields hstatus => exact hstatus
  | value =>
      rw [List.append_assoc]
      exact r.status_prefix.trans (List.prefix_append _ _)
  | header =>
      rw [List.append_assoc, List.append_assoc]
      exact r.status_prefix.trans (List.prefix_append _ _)

/-- The results in which the final response is taken in: without success the first one holds the
status line and leaves room in the buffer; otherwise there is no other text of the name in front of
the line with the length, and every result but the last ends where it may. -/
structure Careful (r : Final) (chunks : List (List Byte)) : Prop where
  refused : ¬ HTTP_SUCCESS r.status.code → ∃ c rest, chunks = c :: rest ∧
    r.status.bytes ++ [13] <+: c ∧ c.length < Client.IOBUFSZ
  fields : HTTP_SUCCESS r.status.code →
    ∀ field ∈ r.before, ¬ fold CONTENT_LENGTH <:+: fold field.bytes
  ends : HTTP_SUCCESS r.status.code → ∀ front more, chunks = front ++ more → front ≠ [] →
    more ≠ [] → r.MayEnd front.flatten

end Final

/-- A status line with what is behind it in the same result. -/
theorem Status.statusLine (s : Status) (tail : List Byte) :
    StatusLine (s.bytes ++ [13] ++ tail) (decimal s.code) (s.reason ++ 13 :: tail) := by
  refine ⟨s.version, [32], 32, s.version_length, ?_, fun _ => isDigit_of_mem_decimal, by decide,
    fun hnil => absurd hnil (decimal_ne_nil _), ?_⟩
  · intro b hb
    rw [List.mem_singleton.mp hb]
    rfl
  · simp only [Status.bytes, List.append_assoc, List.cons_append, List.nil_append]

section Replies

variable {jobid : Int} {chunks : List (List Byte)}

theorem verdict_status (s : Status) (tail : List Byte) :
    verdict jobid ((s.bytes ++ [13] ++ tail) :: chunks) =
      if HTTP_INFO s.code then verdict jobid chunks
      else if HTTP_SUCCESS s.code then
        atHeader jobid (s.bytes ++ [13] ++ tail).length (0 :: tail) chunks
      else if (s.bytes ++ [13] ++ tail).length < Client.IOBUFSZ then some false
      else none := by
  rw [verdict_eq (s.statusLine tail) (decimal_ne_nil _) s.reason_text (by decide),
    number_status s.code_range.2]

/-- What is in a result behind a 1xx response goes with it. -/
theorem verdict_infos {group : List Info} (hne : group ≠ []) :
    verdict jobid ((group.map Info.bytes).flatten :: chunks) = verdict jobid chunks := by
  obtain ⟨r, group, rfl⟩ := List.exists_cons_of_ne_nil hne
  have hsplit : (((r :: group).map Info.bytes).flatten) = r.status.bytes ++ [13] ++
      (10 :: (fields r.header ++ [13, 10] ++ (group.map Info.bytes).flatten)) := by
    simp only [List.map_cons, List.flatten_cons, Info.bytes, List.append_assoc, List.cons_append,
      List.nil_append]
  have hinfo : HTTP_INFO r.status.code := by
    have hge := r.status.code_range.1
    have hle := r.code_le
    exact ⟨by omega, by omega⟩
  rw [hsplit, verdict_status, if_pos hinfo]

theorem Final.verdict_eq {r : Final} (hne : ∀ chunk ∈ chunks, chunk ≠ [])
    (hbytes : chunks.flatten = r.bytes) (hcareful : r.Careful chunks) :
    verdict jobid chunks = some (r.success jobid) := by
  have hinfo : ¬ HTTP_INFO r.status.code := by
    rintro ⟨-, hle⟩
    have hge := r.code_ge
    omega
  by_cases hsuccess : HTTP_SUCCESS r.status.code
  · obtain ⟨c, rest, rfl, tail, rfl⟩ : ∃ c rest, chunks = c :: rest ∧
        r.status.bytes ++ [13] <+: c := by
      cases chunks with
      | nil =>
          have hnil := hbytes.symm
          rw [Final.bytes, List.flatten_nil] at hnil
          exact absurd (List.append_eq_nil_iff.mp hnil).2 r.body_ne_nil
      | cons c rest =>
          refine ⟨c, rest, rfl, ?_⟩
          cases rest with
          | nil =>
              rw [List.flatten_singleton] at hbytes
              rw [hbytes, Final.bytes, List.append_assoc, List.append_assoc, List.append_assoc]
              exact r.status_prefix.trans (List.prefix_append _ _)
          | cons c' rest =>
              have hend := hcareful.ends hsuccess [c] (c' :: rest) rfl (List.cons_ne_nil _ _)
                (List.cons_ne_nil _ _)
              rw [List.flatten_singleton] at hend
              exact hend.status_prefix
    rw [verdict_status, if_neg hinfo, if_pos hsuccess]
    refine Final.atHeader_of_cuts hsuccess (hcareful.fields hsuccess)
      (fun chunk hchunk => hne chunk (List.mem_cons_of_mem _ hchunk)) hbytes List.suffix_rfl
      ?_ ?_ ?_
    · rw [List.flatten_cons, List.append_assoc] at hbytes
      have hcancel := List.append_cancel_left (hbytes.trans r.bytes_eq)
      rw [List.cons_append, hcancel, List.append_assoc r.name, List.append_assoc _ r.name]
      rfl
    · intro b _ hsuffix
      rcases List.suffix_cons_iff.mp hsuffix with rfl | hsuffix
      · exact .inr ⟨tail, rfl⟩
      · exact .inl (hsuffix.trans (List.suffix_append _ _))
    · intro front more hfront hmore
      have hend := hcareful.ends hsuccess ((r.status.bytes ++ [13] ++ tail) :: front) more
        (congrArg _ hfront) (List.cons_ne_nil _ _) hmore
      rwa [List.flatten_cons] at hend
  · obtain ⟨c, rest, rfl, ⟨tail, rfl⟩, hroom⟩ := hcareful.refused hsuccess
    rw [verdict_status, if_neg hinfo, if_neg hsuccess, if_pos hroom, Final.success]
    simp [hsuccess]

theorem verdict_groups {groups : List (List Info)} (hgroups : ∀ group ∈ groups, group ≠ []) :
    verdict jobid (groups.map (fun group => (group.map Info.bytes).flatten) ++ chunks) =
      verdict jobid chunks := by
  induction groups with
  | nil => rfl
  | cons group groups ih =>
      rw [List.map_cons, List.cons_append, verdict_infos (hgroups group List.mem_cons_self)]
      exact ih fun group hgroup => hgroups group (List.mem_cons_of_mem _ hgroup)

theorem flatten_groups (groups : List (List Info)) :
    (groups.map fun group => (group.map Info.bytes).flatten).flatten =
      (groups.flatten.map Info.bytes).flatten := by
  induction groups with
  | nil => rfl
  | cons group groups ih =>
      rw [List.map_cons, List.flatten_cons, List.flatten_cons, List.map_append,
        List.flatten_append, ih]

end Replies

end ApueCourse.Print.Reply
