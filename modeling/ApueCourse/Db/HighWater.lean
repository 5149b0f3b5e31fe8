import ApueCourse.Db.Accounts

/-! A database that is never given data of another length for a key has no more records than
have been in use at one time. -/

namespace ApueCourse.Db

open Memory Function Program

section Keys

variable {map : Bindings} {key data : List Byte} {keylen datlen : Nat}

theorem keysOf_finite (hmap : {key | map key ≠ none}.Finite) :
    (keysOf map keylen datlen).Finite := by
  apply hmap.subset
  rintro key ⟨-, d, hd, -⟩ hnone
  cases hd.symm.trans hnone

theorem ncard_keysOf_le (hmap : {key | map key ≠ none}.Finite) {new : Option (List Byte)}
    (hnew : ∀ d, new = some d → key.length = keylen → d.length = datlen →
      key ∈ keysOf map keylen datlen) :
    (keysOf (update map key new) keylen datlen).ncard ≤ (keysOf map keylen datlen).ncard := by
  refine Set.ncard_le_ncard ?_ (keysOf_finite hmap)
  rintro k ⟨hkeylen, d, hd, hdatlen⟩
  rcases eq_or_ne k key with rfl | hne
  · rw [update_self] at hd
    exact hnew d hd hkeylen hdatlen
  · rw [update_of_ne hne] at hd
    exact ⟨hkeylen, d, hd, hdatlen⟩

theorem ncard_keysOf_new (hmap : {key | map key ≠ none}.Finite) (hnone : map key = none) :
    (keysOf (update map key (some data)) key.length data.length).ncard =
      (keysOf map key.length data.length).ncard + 1 := by
  have hnot : key ∉ keysOf map key.length data.length := by
    rintro ⟨-, d, hd, -⟩
    cases hd.symm.trans hnone
  rw [← Set.ncard_insert_of_notMem hnot (keysOf_finite hmap)]
  congr 1
  ext k
  rw [Set.mem_insert_iff]
  constructor
  · rintro ⟨hkeylen, d, hd, hdatlen⟩
    rcases eq_or_ne k key with rfl | hne
    · exact .inl rfl
    · rw [update_of_ne hne] at hd
      exact .inr ⟨hkeylen, d, hd, hdatlen⟩
  · rintro (rfl | ⟨hkeylen, d, hd, hdatlen⟩)
    · exact ⟨rfl, data, update_self .., rfl⟩
    · refine ⟨hkeylen, d, ?_, hdatlen⟩
      rw [update_of_ne, hd]
      rintro rfl
      cases hd.symm.trans hnone

end Keys

namespace Space

variable {s : Space} {call : Call}

/-- Where a call appends a record, the key of the call has had none. -/
theorem none_of_appends (hkeeps : ¬ call.Rewrites (s.map call.key))
    (happends : call.Appends s.Free (s.map call.key)) :
    ∃ key data flag, call = .store key data flag ∧ s.map key = none ∧
      (call.apply s.map).2 = update s.map key (some data) ∧ ¬ s.Free key.length data.length := by
  cases call with
  | store key data flag =>
      refine ⟨key, data, flag, rfl, ?_⟩
      cases hold : s.map key with
      | none =>
          have hact : (Call.store key data flag).act (s.map key) = (.code 0, some data) := by
            have hcond := happends
            rw [Call.key, hold] at hcond
            rcases hcond.1 with rfl | rfl
            · rw [hold]
              rfl
            · rw [hold]
              rfl
          rw [Call.key, hold] at happends
          refine ⟨rfl, ?_, happends.2⟩
          rw [Call.apply, Call.key, hact]
      | some old =>
          rw [Call.key, hold] at happends hkeeps
          refine absurd ⟨?_, happends.2.symm⟩ hkeeps
          rcases happends.1 with rfl | rfl
          · decide
          · decide
  | «open» | fetch | delete | rewind | nextrec => cases happends

/-- A call that appends nothing needs no more records than there are. -/
theorem ncard_le_of_not_appends (hmap : {key | s.map key ≠ none}.Finite)
    (happends : ¬ call.Appends s.Free (s.map call.key)) {keylen datlen : Nat}
    (hle : (keysOf s.map keylen datlen).ncard ≤ s.records keylen datlen) :
    (keysOf (call.apply s.map).2 keylen datlen).ncard ≤ s.records keylen datlen := by
  have hsame : ∀ {key new}, new = s.map key →
      (keysOf (update s.map key new) keylen datlen).ncard ≤ s.records keylen datlen := by
    rintro key new rfl
    rwa [update_eq_self]
  cases call with
  | «open» | fetch | rewind | nextrec => exact hsame rfl
  | delete key =>
      show (keysOf (update s.map key none) keylen datlen).ncard ≤ s.records keylen datlen
      refine (ncard_keysOf_le hmap fun d hd => ?_).trans hle
      cases hd
  | store key data flag =>
      rw [Call.apply]
      dsimp only [Call.key] at happends ⊢
      cases hold : s.map key with
      | none =>
          rw [Call.act, if_pos rfl]
          split
          · exact hsame hold.symm
          · rename_i hflag
            split
            · exact hsame hold.symm
            · rename_i hreplace
              -- a free record with the lengths is taken
              have hfree : s.Free key.length data.length := by
                by_contra hnot
                rw [hold] at happends
                refine happends ⟨?_, hnot⟩
                by_contra hnone
                exact hflag ⟨fun h => hnone (.inl h), hreplace, fun h => hnone (.inr h)⟩
              by_cases hlengths : key.length = keylen ∧ data.length = datlen
              · obtain ⟨rfl, rfl⟩ := hlengths
                rw [ncard_keysOf_new hmap hold]
                exact hfree
              · refine (ncard_keysOf_le hmap fun d hd hkeylen hdatlen => ?_).trans hle
                cases hd
                exact absurd ⟨hkeylen, hdatlen⟩ hlengths
      | some old =>
          rw [Call.act, if_neg (Option.some_ne_none old)]
          split
          · exact hsame hold.symm
          · rename_i hflag
            split
            · exact hsame hold.symm
            · rename_i hinsert
              -- the data takes the place of data of the same length
              refine (ncard_keysOf_le hmap fun d hd hkeylen hdatlen => ?_).trans hle
              cases hd
              refine ⟨hkeylen, old, hold, ?_⟩
              by_contra hne
              rw [hold] at happends
              refine happends ⟨?_, fun h => hne (h.symm.trans hdatlen)⟩
              by_contra hnone
              exact hflag ⟨hinsert, fun h => hnone (.inl h), fun h => hnone (.inr h)⟩

/-- The numbers of keys that have needed records of these lengths at one time. -/
def Needed (calls : List Call) (keylen datlen : Nat) : Set Nat :=
  {n | ∃ before, before <+: calls ∧
    (keysOf (replay (fun _ => none) before).2 keylen datlen).ncard = n}

/-- The pool of a database without records. -/
def fresh : Space := ⟨fun _ => none, fun _ _ => 0, START, 0⟩

/-- No call gives a key data of another length than it has. -/
def KeepsLengths (calls : List Call) : Prop :=
  ∀ before call after, calls = before ++ call :: after →
    ¬ call.Rewrites ((replay (fun _ => none) before).2 call.key)

theorem finite_none : {key : List Byte | (fun _ => none : Bindings) key ≠ none}.Finite := by
  simp

theorem isGreatest_records {calls : List Call} (hkeeps : KeepsLengths calls)
    (keylen datlen : Nat) :
    IsGreatest (Needed calls keylen datlen) ((calls.foldl apply fresh).records keylen datlen) := by
  induction calls using List.reverseRecOn with
  | nil =>
      have hnone : keysOf (replay (fun _ => none) []).2 keylen datlen = ∅ := by
        ext key
        constructor
        · rintro ⟨-, d, hd, -⟩
          cases hd
        · exact fun h => h.elim
      refine ⟨⟨[], List.prefix_rfl, ?_⟩, ?_⟩
      · rw [hnone, Set.ncard_empty]
        rfl
      · rintro n ⟨before, hbefore, rfl⟩
        rw [List.prefix_nil.mp hbefore, hnone, Set.ncard_empty]
        exact Nat.zero_le _
  | append_singleton calls call ih =>
      have hkeeps' : KeepsLengths calls := by
        intro before call' after heq
        apply hkeeps before call' (after ++ [call])
        rw [heq, List.append_assoc, List.cons_append]
      obtain ⟨⟨before, hbefore, hneeded⟩, hupper⟩ := ih hkeeps'
      have hmap : (calls.foldl apply fresh).map = (replay (fun _ => none) calls).2 :=
        map_foldl fresh calls
      have hfinite : {key | (calls.foldl apply fresh).map key ≠ none}.Finite := by
        rw [hmap]
        exact replay_finite finite_none calls
      have hle := hupper ⟨calls, List.prefix_rfl, rfl⟩
      have hnot := hkeeps calls call [] rfl
      rw [← hmap] at hle hnot
      have hmap' : (replay (fun _ => none) (calls ++ [call])).2 =
          (call.apply (calls.foldl apply fresh).map).2 := by
        rw [replay_append, hmap]
        rfl
      rw [List.foldl_append, List.foldl_cons, List.foldl_nil]
      generalize calls.foldl apply fresh = s at *
      have hmem : ∀ n, n ∈ Needed (calls ++ [call]) keylen datlen ↔
          n ∈ Needed calls keylen datlen ∨
            (keysOf (call.apply s.map).2 keylen datlen).ncard = n := by
        intro n
        constructor
        · rintro ⟨before', hbefore', rfl⟩
          rcases List.prefix_concat_iff.mp hbefore' with rfl | hprefix
          · exact .inr (by rw [hmap'])
          · exact .inl ⟨before', hprefix, rfl⟩
        · rintro (⟨before', hbefore', rfl⟩ | rfl)
          · exact ⟨before', hbefore'.trans (List.prefix_append ..), rfl⟩
          · exact ⟨calls ++ [call], List.prefix_rfl, by rw [hmap']⟩
      have hbelow : (keysOf (call.apply s.map).2 keylen datlen).ncard ≤ s.records keylen datlen →
          IsGreatest (Needed (calls ++ [call]) keylen datlen) (s.records keylen datlen) := by
        intro hle'
        refine ⟨(hmem _).mpr (.inl ⟨before, hbefore, hneeded⟩), fun n hn => ?_⟩
        rcases (hmem n).mp hn with hold | rfl
        · exact hupper hold
        · exact hle'
      rw [apply]
      by_cases happends : call.Appends s.Free (s.map call.key)
      · obtain ⟨key, data, flag, rfl, hnone, happly, hfull⟩ := none_of_appends hnot happends
        rw [if_pos happends]
        dsimp only [Call.key, Call.data]
        rw [append_records]
        rw [happly] at hmem hbelow
        split
        · rename_i hlengths
          obtain ⟨rfl, rfl⟩ := hlengths
          have hused : (keysOf s.map key.length data.length).ncard =
              s.records key.length data.length := le_antisymm hle (Nat.le_of_not_lt hfull)
          rw [ncard_keysOf_new hfinite hnone, hused] at hmem
          refine ⟨(hmem _).mpr (.inr rfl), fun n hn => ?_⟩
          rcases (hmem n).mp hn with hold | rfl
          · exact (hupper hold).trans (Nat.le_succ _)
          · exact le_rfl
        · rename_i hlengths
          refine hbelow ((ncard_keysOf_le hfinite fun d hd hkeylen hdatlen => ?_).trans hle)
          cases hd
          exact absurd ⟨hkeylen.symm, hdatlen.symm⟩ hlengths
      · rw [if_neg happends]
        exact hbelow (ncard_le_of_not_appends hfinite happends hle)

end Space

theorem Space.fresh_of {w : World Unit} (hidx : w.content .idx = emptyTable)
    (hdat : w.content .dat = []) : Space.fresh.Of w := by
  have himage : ∃ image : Image (w.content .idx) (w.content .dat), image.Binds fun _ => none := by
    rw [hidx, hdat]
    exact ⟨Image.empty, Image.empty_binds⟩
  obtain ⟨image, hbinds⟩ := himage
  have hlength : (w.content .idx).length = START := by
    rw [hidx, length_emptyTable]
  refine ⟨image, hbinds, fun keylen datlen => ?_, hlength, congrArg List.length hdat⟩
  have hempty : image.plan.places keylen datlen = ∅ := by
    ext o
    refine iff_of_false (fun ho => ?_) fun h => h.elim
    obtain ⟨r, hr, -⟩ := image.mem_places.mp ho
    have hstart := image.layout.start hr
    have hend := image.layout.end_le hr
    rw [Rec.size, PTR_SZ, hlength] at hend
    omega
  rw [hempty, Set.ncard_empty]
  rfl

/-- Behind the calls of one process on a new database, in which no key is given data of another
length than it has, there are as many records of each pair of lengths as the keys have needed at
one time. -/
theorem records_as_needed {fuel : Nat} (hfuel : PTR_MAX < fuel) {flags : OFlags}
    (hcreat : flags.creat) (htrunc : flags.trunc) (happend : flags.append = false)
    {w w' w'' : World Unit} (hlocks : ∀ file byte, w.locks () file byte = none) {db : DB}
    (hopen : exec (db_open flags) w = .ok (some db, w')) {calls : List Call}
    (hcalls : ∀ call ∈ calls, call.OnText) (hkeeps : Space.KeepsLengths calls)
    {results : List Result} {db' : Option DB}
    (hsession : session fuel (some db) calls w' = .ok (results, db', w'')) :
    ∃ image : Image (w''.content .idx) (w''.content .dat),
      image.Binds (replay (fun _ => none) calls).2 ∧ ∀ keylen datlen,
        IsGreatest (Space.Needed calls keylen datlen)
          {o | ∃ r, image.recs o = some r ∧ r.key.length = keylen ∧
            r.data.length = datlen}.ncard := by
  obtain ⟨happend', hidx, hdat, -⟩ := exec_open hcreat htrunc happend hlocks hopen
  obtain ⟨-, g, hsound, rfl, hmap, hview⟩ :=
    exists_ghost_open hcreat htrunc happend hlocks hopen
  obtain ⟨image, hbinds, hrecords, -⟩ := (Space.fresh_of hidx hdat).session hfuel hcalls happend'
    hsound hview hmap hsession
  rw [Space.map_foldl] at hbinds
  refine ⟨image, hbinds, fun keylen datlen => ?_⟩
  have hgreatest := Space.isGreatest_records hkeeps keylen datlen
  rw [← hrecords] at hgreatest
  have hplaces : image.plan.places keylen datlen = {o | ∃ r, image.recs o = some r ∧
      r.key.length = keylen ∧ r.data.length = datlen} := Set.ext fun o => image.mem_places
  rwa [hplaces] at hgreatest

instance (call : Call) (old : Option (List Byte)) : Decidable (call.Rewrites old) :=
  match call, old with
  | .store _ data flag, some old =>
      inferInstanceAs (Decidable (flag ≠ DB_INSERT ∧ old.length ≠ data.length))
  | .store _ _ _, none => inferInstanceAs (Decidable False)
  | .open _, _ | .fetch _, _ | .delete _, _ | .rewind, _ | .nextrec, _ =>
      inferInstanceAs (Decidable False)

theorem Space.keepsLengths_of_getElem {calls : List Call}
    (hkeeps : ∀ i (hi : i < calls.length),
      ¬ calls[i].Rewrites ((replay (fun _ => none) (calls.take i)).2 calls[i].key)) :
    KeepsLengths calls := by
  rintro before call after rfl
  have hlt : before.length < (before ++ call :: after).length := by simp
  have hcall : (before ++ call :: after)[before.length] = call := by simp
  have hnot := hkeeps before.length hlt
  rwa [hcall, List.take_left' rfl] at hnot

theorem records_as_needed_reuse :
    ∃ (db : DB) (w w' : World Unit) (results : List Result) (db' : Option DB),
      exec (db_open created) noFiles = .ok (some db, w) ∧
      session 1000000 (some db) reuse w = .ok (results, db', w') ∧
      ∃ image : Image (w'.content .idx) (w'.content .dat),
        image.Binds (replay (fun _ => none) reuse).2 ∧ ∀ keylen datlen,
          IsGreatest (Space.Needed reuse keylen datlen)
            {o | ∃ r, image.recs o = some r ∧ r.key.length = keylen ∧
              r.data.length = datlen}.ncard := by
  obtain ⟨db, w, results, ⟨db', w'⟩, hopen, hsession⟩ := exists_session_reuse
  exact ⟨db, w, w', results, db', hopen, hsession, records_as_needed (by decide) rfl rfl rfl
    (fun _ _ => rfl) hopen (by decide) (Space.keepsLengths_of_getElem (by decide)) hsession⟩

end ApueCourse.Db
