import ApueCourse.Print.Packets

/-! Which divisions of a reply `printer_status` takes in. -/

namespace ApueCourse.Print.Reply

open Memory Program

/-! Texts that are broken off. -/

theorem blankLine_mono {text body : List Byte} (hblank : blankLine text = some body)
    (rest : List Byte) : blankLine (text ++ rest) = some (body ++ rest) := by
  induction text with
  | nil => cases hblank
  | cons c text ih =>
      rw [blankLine] at hblank
      rw [List.cons_append, blankLine]
      split at hblank
      · rename_i hend
        obtain rfl := Option.some.inj hblank
        have htake := congrArg List.length hend.2
        have hlength : 2 ≤ text.length := by
          rw [List.length_take] at htake
          have htwo : ([13, 10] : List Byte).length = 2 := rfl
          omega
        rw [List.take_append_of_le_length hlength, if_pos hend,
          List.drop_append_of_le_length hlength]
      · rename_i hother
        rw [if_neg, ih hblank]
        rintro ⟨hc, htake⟩
        refine hother ⟨hc, ?_⟩
        cases text with
        | nil => cases hblank
        | cons d text =>
            cases text with
            | nil => simp [blankLine] at hblank
            | cons e text => exact htake

theorem compare_isSome_of_not {name text : List Byte}
    (hcompare : compare (fun d c => tolower d = tolower c) name text = some false) :
    ¬ fold text <+: fold name := by
  induction name generalizing text with
  | nil => cases hcompare
  | cons c name ih =>
      cases text with
      | nil => cases hcompare
      | cons d text =>
          rw [compare] at hcompare
          rw [fold, fold, List.map_cons, List.map_cons, List.cons_prefix_cons]
          split at hcompare
          · exact fun hstart => ih hcompare hstart.2
          · rename_i hdiff
            exact fun hstart => hdiff (decide_eq_true hstart.1)

theorem not_prefix_of_absent {text b : List Byte} (hsearch : search text = .absent) (hne : b ≠ [])
    (hsuffix : b <:+ text) : ¬ fold b <+: fold CONTENT_LENGTH := by
  induction text with
  | nil => exact absurd (List.suffix_nil.mp hsuffix) hne
  | cons d text ih =>
      rw [search] at hsearch
      split at hsearch
      · cases hsearch
      · rename_i hcompare
        rcases List.suffix_cons_iff.mp hsuffix with rfl | hsuffix
        · exact compare_isSome_of_not hcompare
        · exact ih hsearch hsuffix
      · cases hsearch

/-- What has been found is in the text. -/
theorem exists_of_behind {text rest : List Byte} (hsearch : search text = .behind rest) :
    ∃ b, b ≠ [] ∧ b <:+ text ∧ fold CONTENT_LENGTH <+: fold b := by
  induction text with
  | nil => cases hsearch
  | cons d text ih =>
      rw [search] at hsearch
      split at hsearch
      · rename_i hcompare
        exact ⟨d :: text, List.cons_ne_nil _ _, List.suffix_rfl, compare_eq_some.mp hcompare⟩
      · obtain ⟨b, hne, hsuffix, hb⟩ := ih hsearch
        exact ⟨b, hne, hsuffix.trans (List.suffix_cons _ _), hb⟩
      · cases hsearch

theorem prefix_append_cases {w first second : List Byte} (hstart : w <+: first ++ second) :
    w <+: first ∨ ∃ x, x ≠ [] ∧ w = first ++ x ∧ x <+: second := by
  obtain ⟨a, ha⟩ := hstart
  rcases List.append_eq_append_iff.mp ha with ⟨c, rfl, hb⟩ | ⟨c, rfl, hb⟩
  · exact .inl (List.prefix_append _ _)
  · by_cases hc : c = []
    · rw [hc, List.append_nil]
      exact .inl List.prefix_rfl
    · exact .inr ⟨c, hc, rfl, hb ▸ List.prefix_append _ _⟩

/-- A number that is broken off has no byte behind it. -/
theorem number_short {spaces digits w : List Byte} (hspaces : ∀ b ∈ spaces, isSpace b)
    (hdigits : ∀ b ∈ digits, isDigit b) (hw : w <+: spaces ++ digits) :
    (w.dropWhile isSpace).dropWhile isDigit = [] := by
  rcases prefix_append_cases hw with hw | ⟨x, hne, rfl, hx⟩
  · have hall : w.dropWhile isSpace = [] :=
      List.dropWhile_eq_nil_iff.mpr fun b hb => hspaces b (hw.subset hb)
    rw [hall, List.dropWhile_nil]
  · obtain ⟨d, x, rfl⟩ := List.exists_cons_of_ne_nil hne
    have hall : ∀ b ∈ d :: x, isDigit b := fun b hb => hdigits b (hx.subset hb)
    rw [(dropWhile_split hspaces (not_isSpace_of_isDigit (hall d List.mem_cons_self))).1]
    exact List.dropWhile_eq_nil_iff.mpr hall

namespace Final

variable {r : Final} {jobid : Int} {chunks : List (List Byte)}

theorem atValue_short {w : List Byte} (hw : w <+: r.value) (hlength : w.length < r.value.length) :
    atValue jobid w chunks = none := by
  obtain ⟨e, line, hsplit, -, -⟩ := r.exists_lineEnd
  have hspaces : ∀ b ∈ r.spaces, isSpace b := by
    intro b hb
    rcases isBlank_iff.mp (r.spaces_blank b hb) with rfl | rfl <;> rfl
  have hvalue : r.value = r.spaces ++ decimal r.body.length ++ [e] := by
    rw [value, hsplit]
    rfl
  rw [hvalue] at hw hlength
  have hshort : w <+: r.spaces ++ decimal r.body.length := by
    refine List.prefix_of_prefix_length_le hw (List.prefix_append _ _) ?_
    rw [List.length_append, List.length_singleton] at hlength
    omega
  unfold atValue
  rw [number_short hspaces (fun _ => isDigit_of_mem_decimal) hshort]

theorem blankLine_short {y : List Byte} (hy : y <+: r.rest) (hlength : y.length < r.rest.length) :
    blankLine y = none := by
  cases hblank : blankLine y with
  | none => rfl
  | some body =>
      obtain ⟨z, hz⟩ := hy
      have hwhole := blankLine_mono hblank z
      have hrest := r.blankLine_rest []
      rw [List.append_nil] at hrest
      rw [hz, hrest] at hwhole
      obtain ⟨-, rfl⟩ := List.append_eq_nil_iff.mp (Option.some.inj hwhole).symm
      rw [← hz, List.append_nil] at hlength
      exact absurd hlength (Nat.lt_irrefl _)

theorem atEnd_short {len : Int} {y : List Byte} (hy : y <+: r.rest)
    (hlength : y.length < r.rest.length) : atEnd jobid len y chunks = none := by
  unfold atEnd
  rw [blankLine_short hy hlength]

/-- A result that ends inside of the line with the length is not taken in. -/
theorem atHeader_short {nr : Nat} {pre z : List Byte}
    (hfree : ∀ field ∈ r.before, ¬ fold CONTENT_LENGTH <:+: fold field.bytes)
    (hpre : pre <:+ 0 :: 10 :: fields r.before) (hne : z ≠ []) (hz : z <+: r.name ++ r.value)
    (hlength : z.length < (r.name ++ r.value).length) :
    atHeader jobid nr (pre ++ z) chunks = none := by
  have hname : (fold r.name).length = (fold CONTENT_LENGTH).length := congrArg _ r.name_eq
  unfold atHeader
  rcases prefix_append_cases hz with hz | ⟨w, -, rfl, hw⟩
  · by_cases hall : z.length = r.name.length
    · obtain rfl := hz.eq_of_length hall
      have hsearch := search_front hfree hpre []
      rw [List.append_nil] at hsearch
      rw [hsearch]
      refine atValue_short (r := r) List.nil_prefix ?_
      rw [List.length_append] at hlength
      rw [List.length_nil]
      omega
    · have hshort : (fold z).length < (fold CONTENT_LENGTH).length := by
        have hle := hz.length_le
        rw [← hname, fold, fold, List.length_map, List.length_map]
        omega
      cases hsearch : search (pre ++ z) with
      | cut => rfl
      | absent =>
          have hpart := not_prefix_of_absent hsearch hne (List.suffix_append _ _)
          rw [← r.name_eq] at hpart
          exact absurd (hz.map tolower) hpart
      | behind rest =>
          obtain ⟨b, -, hsuffix, hb⟩ := exists_of_behind hsearch
          have hle := hb.length_le
          rcases suffix_append_cases hsuffix with hsuffix | ⟨x, rfl, hx⟩
          · have hle' := (hsuffix.map tolower).length_le
            exact absurd (Nat.lt_of_le_of_lt (hle.trans hle') hshort) (Nat.lt_irrefl _)
          · by_cases hnil : x = []
            · rw [hnil, List.nil_append] at hle
              exact absurd (Nat.lt_of_le_of_lt hle hshort) (Nat.lt_irrefl _)
            · exact absurd hb (not_prefix_of_fields z hfree hnil (hx.trans hpre))
  · rw [← List.append_assoc, search_front hfree hpre]
    rw [List.length_append, List.length_append] at hlength
    exact atValue_short hw (by omega)

theorem eq_rest {len : Int} {y : List Byte} (hy : y <+: r.rest)
    (hsome : (atEnd jobid len y chunks).isSome) : y = r.rest := by
  refine hy.eq_of_length (Nat.le_antisymm hy.length_le (Nat.le_of_not_lt fun hlt => ?_))
  rw [atEnd_short hy hlt] at hsome
  cases hsome

/-- Behind the number: the rest of the header comes with it or in the next result. -/
theorem ends_of_value {len : Int} {y : List Byte} (hy : y <+: r.rest)
    (hbytes : y ++ chunks.flatten = r.rest ++ r.body)
    (hbody : ∀ front more, chunks = front ++ more → more ≠ [] →
      (y ++ front.flatten).length ≤ r.rest.length)
    (hsome : (more (atEnd jobid len) y chunks).isSome) :
    ∀ front more, chunks = front ++ more → more ≠ [] →
      r.MayEnd (r.front ++ r.name ++ r.value ++ y ++ front.flatten) := by
  intro front left hfront hleft
  have hle := hbody front left hfront hleft
  rw [List.length_append] at hle
  by_cases hnil : y = []
  · subst hnil
    rw [List.append_nil]
    cases front with
    | nil =>
        rw [List.flatten_nil, List.append_nil]
        exact .value
    | cons c front =>
        subst hfront
        rw [List.flatten_cons, List.length_append] at hle
        rw [List.nil_append, List.cons_append, List.flatten_cons] at hbytes
        have hc : c <+: r.rest := by
          refine List.prefix_of_prefix_length_le (List.prefix_append c (front ++ left).flatten) ?_
            (by omega)
          rw [hbytes]
          exact List.prefix_append _ _
        obtain rfl := eq_rest hc hsome
        have hflatten : front.flatten = [] := List.length_eq_zero_iff.mp (by omega)
        rw [List.flatten_cons, hflatten, List.append_nil]
        exact .header
  · unfold more at hsome
    rw [if_neg hnil] at hsome
    obtain rfl := eq_rest hy hsome
    have hflatten : front.flatten = [] := List.length_eq_zero_iff.mp (by omega)
    rw [hflatten, List.append_nil]
    exact .header

theorem ends_of_atHeader {old t text pre : List Byte}
    (hfree : ∀ field ∈ r.before, ¬ fold CONTENT_LENGTH <:+: fold field.bytes)
    (hne : ∀ chunk ∈ chunks, chunk ≠ [])
    (hstatus : r.status.bytes ++ [13] <+: old ++ t)
    (hbytes : old ++ t ++ chunks.flatten = r.bytes)
    (hpre : pre <:+ 0 :: 10 :: fields r.before)
    (htext : text ++ chunks.flatten = pre ++ (r.name ++ r.value ++ (r.rest ++ r.body)))
    (hsuffix : t <:+ text)
    (hold : ∀ b, b ≠ [] → b <:+ old → ¬ fold b <+: fold CONTENT_LENGTH)
    (hbody : ∀ front more, chunks = front ++ more → more ≠ [] →
      (old ++ t ++ front.flatten).length ≤ (r.front ++ r.name ++ r.value ++ r.rest).length)
    (hsome : (atHeader jobid (old ++ t).length text chunks).isSome) :
    ∀ front more, chunks = front ++ more → more ≠ [] → r.MayEnd (old ++ t ++ front.flatten) := by
  induction chunks generalizing old t text pre with
  | nil =>
      intro front more hfront hmore
      exact absurd (List.append_eq_nil_iff.mp hfront.symm).2 hmore
  | cons c rest ih =>
      have hlength := congrArg List.length htext
      have hlength' := congrArg List.length hbytes
      simp only [bytes, List.length_append] at hlength hlength'
      have hreceived : old ++ t <+: r.front ++ r.name ++ r.value ++ r.rest := by
        have hle := hbody [] (c :: rest) rfl (List.cons_ne_nil _ _)
        rw [List.flatten_nil, List.append_nil] at hle
        refine List.prefix_of_prefix_length_le (List.prefix_append _ (c :: rest).flatten) ?_ hle
        rw [hbytes]
        exact List.prefix_append _ _
      by_cases hheader : (old ++ t).length ≤ r.front.length
      · have hfront : old ++ t <+: r.front := by
          refine List.prefix_of_prefix_length_le hreceived ?_ hheader
          rw [List.append_assoc, List.append_assoc]
          exact List.prefix_append _ _
        rw [List.length_append] at hheader
        have hstart : text <+: pre := by
          refine List.prefix_of_prefix_length_le (List.prefix_append text (c :: rest).flatten) ?_
            (by omega)
          rw [htext]
          exact List.prefix_append _ _
        obtain ⟨pre', rfl⟩ := hstart
        cases hsearch : search text with
        | cut =>
            unfold atHeader at hsome
            rw [hsearch] at hsome
            cases hsome
        | behind value =>
            obtain ⟨b, hb, hb', hwhole⟩ := exists_of_behind hsearch
            have hlong : b ++ pre' <:+ 0 :: 10 :: fields r.before := by
              obtain ⟨a, rfl⟩ := hb'
              refine List.IsSuffix.trans ?_ hpre
              rw [List.append_assoc]
              exact List.suffix_append _ _
            have hnot := not_prefix_of_fields [] hfree
              (List.append_ne_nil_of_left_ne_nil hb _) hlong
            rw [List.append_nil, fold_append] at hnot
            exact absurd (hwhole.trans (List.prefix_append _ _)) hnot
        | absent =>
            have hname : ∀ b, b ≠ [] → b <:+ old ++ t → ¬ fold b <+: fold CONTENT_LENGTH := by
              intro b hb hb' hpart
              rcases suffix_append_cases hb' with hb' | ⟨x, rfl, hx⟩
              · exact not_prefix_of_absent hsearch hb (hb'.trans hsuffix) hpart
              · by_cases hnil : x = []
                · rw [hnil, List.nil_append] at hb hpart
                  exact not_prefix_of_absent hsearch hb hsuffix hpart
                · rw [fold_append] at hpart
                  exact hold x hnil hx ((List.prefix_append _ _).trans hpart)
            unfold atHeader at hsome
            rw [hsearch] at hsome
            dsimp only at hsome
            split at hsome
            · rename_i hroom
              intro front left hsplit hleft
              cases front with
              | nil =>
                  rw [List.flatten_nil, List.append_nil]
                  exact .fields hstatus hfront hroom hname
              | cons c' front =>
                  obtain ⟨rfl, hrest⟩ := List.cons_eq_cons.mp hsplit
                  rw [List.flatten_cons] at htext hbytes
                  have htext' := List.append_cancel_left
                    (htext.trans (List.append_assoc text pre' _))
                  rw [← List.length_append] at hsome
                  rw [List.flatten_cons, ← List.append_assoc]
                  refine ih (fun chunk hchunk => hne chunk (List.mem_cons_of_mem _ hchunk))
                    (hstatus.trans (List.prefix_append _ _)) ?_
                    ((List.suffix_append _ _).trans hpre) htext'
                    List.suffix_rfl hname ?_ hsome front left hrest hleft
                  · rw [List.append_assoc, hbytes]
                  · intro front left hfront hleft
                    have hle := hbody (c :: front) left (congrArg _ hfront) hleft
                    rwa [List.flatten_cons, ← List.append_assoc] at hle
            · cases hsome
      · rw [List.length_append] at hheader
        have hpretext : pre <+: text := by
          refine List.prefix_of_prefix_length_le (List.prefix_append pre
            (r.name ++ r.value ++ (r.rest ++ r.body))) ?_ (by omega)
          rw [← htext]
          exact List.prefix_append _ _
        obtain ⟨z, rfl⟩ := hpretext
        rw [List.append_assoc] at htext
        have hz := List.append_cancel_left htext
        rw [List.length_append] at hlength
        by_cases hvalue : z.length < (r.name ++ r.value).length
        · have hstart : z <+: r.name ++ r.value := by
            refine List.prefix_of_prefix_length_le (List.prefix_append z (c :: rest).flatten) ?_
              (Nat.le_of_lt hvalue)
            rw [hz]
            exact List.prefix_append _ _
          have hne' : z ≠ [] := by
            rintro rfl
            rw [List.length_nil] at hlength
            omega
          rw [atHeader_short hfree hpre hne' hstart hvalue] at hsome
          cases hsome
        · have hstart : r.name ++ r.value <+: z := by
            refine List.prefix_of_prefix_length_le (List.prefix_append (r.name ++ r.value)
              (r.rest ++ r.body)) ?_ (Nat.not_lt.mp hvalue)
            rw [← hz]
            exact List.prefix_append _ _
          obtain ⟨y, rfl⟩ := hstart
          rw [List.append_assoc] at hz
          have hy := List.append_cancel_left hz
          have hsplit : old ++ t = r.front ++ r.name ++ r.value ++ y := by
            have hwhole : old ++ t ++ (c :: rest).flatten =
                r.front ++ r.name ++ r.value ++ y ++ (c :: rest).flatten := by
              rw [hbytes, List.append_assoc _ y, hy]
              simp only [bytes, List.append_assoc]
            exact List.append_cancel_right hwhole
          rw [hsplit] at hbody hreceived ⊢
          rw [← List.append_assoc pre, ← List.append_assoc pre, List.append_assoc _ r.value] at hsome
          unfold atHeader at hsome
          rw [search_front hfree hpre] at hsome
          dsimp only at hsome
          rw [atValue_value] at hsome
          refine ends_of_value ((List.prefix_append_right_inj _).mp hreceived) hy ?_ hsome
          intro front left hfront hleft
          have hle := hbody front left hfront hleft
          simp only [List.length_append] at hle ⊢
          omega

end Final

/-- A status line that is broken off is not taken in. -/
theorem verdict_short {jobid : Int} {s : Status} {c : List Byte} {rest : List (List Byte)}
    (hc : c <+: s.bytes) : verdict jobid (c :: rest) = none := by
  have hdrop : s.bytes.drop 8 = [32] ++ decimal s.code ++ 32 :: s.reason := by
    rw [Status.bytes, List.drop_left' s.version_length]
    rfl
  have hdigits : ∀ b ∈ decimal s.code, isDigit b := fun _ => isDigit_of_mem_decimal
  have hspaces : ∀ b ∈ ([32] : List Byte), isSpace b := by
    intro b hb
    rw [List.mem_singleton.mp hb]
    rfl
  have hline : c.drop 8 <+: s.bytes.drop 8 := by
    obtain ⟨z, hz⟩ := hc
    rw [← hz, List.drop_append]
    exact List.prefix_append _ _
  rw [hdrop] at hline
  unfold verdict statusCode
  rcases prefix_append_cases hline with hline | ⟨x, hne, hx, hreason⟩
  · rw [number_short hspaces hdigits hline]
  · obtain ⟨d, y, rfl⟩ := List.exists_cons_of_ne_nil hne
    obtain ⟨rfl, hy⟩ := List.cons_prefix_cons.mp hreason
    have hnil : y.dropWhile isText = [] :=
      List.dropWhile_eq_nil_iff.mpr fun b hb => s.reason_text b (hy.subset hb)
    have hnone : decimal s.code = [] → ¬ isSpace 32 := fun hnil => absurd hnil (decimal_ne_nil _)
    rw [hx, number_split hspaces hdigits hnone, (dropWhile_split hdigits (by decide)).1,
      (dropWhile_split hdigits (by decide)).2]
    obtain ⟨n, digits, hdecimal⟩ := List.exists_cons_of_ne_nil (decimal_ne_nil s.code)
    rw [hdecimal]
    dsimp only
    rw [hnil]

section

variable {jobid : Int} {chunks : List (List Byte)}

theorem Status.bytes_suffix {s : Status} {b : List Byte} (hne : b ≠ [])
    (hsuffix : b <:+ s.bytes ++ [13]) : ¬ fold b <+: fold CONTENT_LENGTH := by
  intro hpart
  have hmem : 13 ∈ b := by
    obtain ⟨a, ha⟩ := hsuffix
    have hlast := congrArg List.getLast? ha
    rw [List.getLast?_append_of_ne_nil _ hne, List.getLast?_concat] at hlast
    exact List.mem_of_getLast? hlast
  exact not_isBreak_of_mem (hpart.subset (List.mem_map_of_mem hmem)) rfl

/-- A final response with its body in one piece is read only as `Careful` has it. -/
theorem Final.careful_of_verdict {r : Final} (hne : ∀ chunk ∈ chunks, chunk ≠ [])
    (hbytes : chunks.flatten = r.bytes)
    (hfree : ∀ field ∈ r.before, ¬ fold CONTENT_LENGTH <:+: fold field.bytes)
    (hbody : ∀ front more, chunks = front ++ more → more ≠ [] →
      front.flatten.length ≤ (r.front ++ r.name ++ r.value ++ r.rest).length)
    (hsome : (verdict jobid chunks).isSome) : r.Careful chunks := by
  have hinfo : ¬ HTTP_INFO r.status.code := by
    rintro ⟨-, hle⟩
    have hge := r.code_ge
    omega
  obtain ⟨c, rest, rfl⟩ : ∃ c rest, chunks = c :: rest := by
    refine List.exists_cons_of_ne_nil ?_
    rintro rfl
    rw [Final.bytes, List.flatten_nil] at hbytes
    exact r.body_ne_nil (List.append_eq_nil_iff.mp hbytes.symm).2
  have hstatus : r.status.bytes ++ [13] <+: c := by
    have hc : c <+: r.bytes := by
      rw [← hbytes]
      exact List.prefix_append _ _
    have hline : r.status.bytes ++ [13] <+: r.bytes := by
      rw [Final.bytes, List.append_assoc, List.append_assoc, List.append_assoc]
      exact r.status_prefix.trans (List.prefix_append _ _)
    by_cases hlength : (r.status.bytes ++ [13]).length ≤ c.length
    · exact List.prefix_of_prefix_length_le hline hc hlength
    · have hshort : c <+: r.status.bytes := by
        refine List.prefix_of_prefix_length_le hc ((List.prefix_append _ _).trans hline) ?_
        rw [List.length_append, List.length_singleton] at hlength
        omega
      rw [verdict_short hshort] at hsome
      cases hsome
  obtain ⟨tail, rfl⟩ := hstatus
  rw [verdict_status, if_neg hinfo] at hsome
  by_cases hsuccess : HTTP_SUCCESS r.status.code
  · rw [if_pos hsuccess] at hsome
    refine ⟨fun hrefused => absurd hsuccess hrefused, fun _ => hfree, ?_⟩
    intro _ front more hfront hne' hmore
    obtain ⟨c, front, rfl⟩ := List.exists_cons_of_ne_nil hne'
    obtain ⟨rfl, hrest⟩ := List.cons_eq_cons.mp hfront
    rw [List.flatten_cons] at hbytes ⊢
    refine Final.ends_of_atHeader hfree
      (fun chunk hchunk => hne chunk (List.mem_cons_of_mem _ hchunk)) (List.prefix_append _ _)
      hbytes List.suffix_rfl ?_ (List.suffix_cons _ _) (fun _ => Status.bytes_suffix) ?_ hsome
      front more hrest hmore
    · rw [List.append_assoc] at hbytes
      rw [List.cons_append, List.append_cancel_left (hbytes.trans r.bytes_eq)]
      rfl
    · intro front' more' hfront hmore'
      have hle := hbody (_ :: front') more' (congrArg _ hfront) hmore'
      rwa [List.flatten_cons] at hle
  · rw [if_neg hsuccess] at hsome
    split at hsome
    · rename_i hroom
      exact ⟨fun _ => ⟨_, rest, rfl, List.prefix_append _ _, hroom⟩,
        fun h => absurd h hsuccess, fun h => absurd h hsuccess⟩
    · cases hsome

/-- Every 1xx response is in one result, if need be with others; the final response is in the
results `back`. -/
def Apart (infos : List Info) (chunks back : List (List Byte)) : Prop :=
  ∃ groups : List (List Info), (∀ group ∈ groups, group ≠ []) ∧ groups.flatten = infos ∧
    chunks = groups.map (fun group => (group.map Info.bytes).flatten) ++ back

/-- The body is in one result, with the end of the header if need be. -/
def Final.BodyWhole (r : Final) (back : List (List Byte)) : Prop :=
  ∀ front more, back = front ++ more → more ≠ [] →
    front.flatten.length ≤ (r.front ++ r.name ++ r.value ++ r.rest).length

theorem verdict_of_apart {infos : List Info} {r : Final} {back : List (List Byte)}
    (hbytes : chunks.flatten = (infos.map Info.bytes).flatten ++ r.bytes)
    (hapart : Apart infos chunks back) :
    back.flatten = r.bytes ∧ verdict jobid chunks = verdict jobid back := by
  obtain ⟨groups, hgroups, rfl, rfl⟩ := hapart
  rw [List.flatten_append, flatten_groups] at hbytes
  exact ⟨List.append_cancel_left hbytes, verdict_groups hgroups⟩

end

/-- The status line of a response that comes in front of the final one. -/
def proceed : Info where
  status :=
    { version := ascii "HTTP/1.1"
      code := 100
      reason := ascii "Continue"
      version_length := rfl
      code_range := ⟨Nat.le_refl _, Nat.le_add_left ..⟩
      reason_text := by decide +kernel }
  header := []
  code_le := Nat.le_add_left ..

/-- The job with the number 1 is accepted. -/
def accepted : Final where
  status :=
    { version := ascii "HTTP/1.1"
      code := 200
      reason := ascii "OK"
      version_length := rfl
      code_range := ⟨Nat.le_add_left .., Nat.le_add_left ..⟩
      reason_text := by decide +kernel }
  before := []
  name := CONTENT_LENGTH
  spaces := [32]
  padding := []
  after := []
  body := [1, 1, 0, 0, 0, 0, 0, 1]
  code_ge := Nat.le_refl _
  name_eq := rfl
  spaces_blank := fun b hb => by
    rw [List.mem_singleton.mp hb]
    rfl
  padding_blank := fun _ hb => absurd hb List.not_mem_nil
  body_length := Nat.le_refl _

set_option maxRecDepth 8000 in
/-- Both responses come in one result. -/
theorem response_both (next : P Bool) :
    response 1 101 (proceed.bytes ++ accepted.bytes) next = next := rfl

set_option maxRecDepth 8000 in
theorem response_proceed (next : P Bool) : response 1 101 proceed.bytes next = next := rfl

end ApueCourse.Print.Reply
