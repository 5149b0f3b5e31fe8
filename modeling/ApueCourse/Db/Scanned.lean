import ApueCourse.Db.Accepted

/-! A scan and `db_fetch` agree. -/

namespace ApueCourse.Db

open Memory Function Program Transition State

variable {recs : Nat → Option Rec} {offs : List Nat} {n finish : Nat}

theorem Tiles.nodup (htiles : Tiles recs n offs finish) : offs.Nodup ∧ ∀ o ∈ offs, n ≤ o := by
  induction offs generalizing n with
  | nil => exact ⟨List.nodup_nil, List.forall_mem_nil _⟩
  | cons o rest ih =>
      obtain ⟨rfl, r, -, hrest⟩ := htiles
      obtain ⟨hnodup, hle⟩ := ih hrest
      have hpos : 0 < r.size := by
        rw [Rec.size, PTR_SZ]
        omega
      refine ⟨List.nodup_cons.mpr ⟨fun hmem => ?_, hnodup⟩, List.forall_mem_cons.mpr
        ⟨Nat.le_refl n, fun o ho => ?_⟩⟩
      · have hlt := hle n hmem
        omega
      · have hlt := hle o ho
        omega

theorem exists_of_mem_shown {pair : List Byte × List Byte} (hpair : pair ∈ shown recs offs) :
    ∃ o ∈ offs, ∃ r, recs o = some r ∧ ¬ Blank r.key ∧ pair = (r.key, r.data) := by
  induction offs with
  | nil => cases hpair
  | cons o rest ih =>
      have hlater : pair ∈ shown recs rest →
          ∃ o' ∈ o :: rest, ∃ r, recs o' = some r ∧ ¬ Blank r.key ∧ pair = (r.key, r.data) := by
        intro hrest
        obtain ⟨o', ho', hshown⟩ := ih hrest
        exact ⟨o', List.mem_cons_of_mem _ ho', hshown⟩
      rw [shown] at hpair
      split at hpair
      · exact hlater hpair
      · rename_i r hr
        split at hpair
        · exact hlater hpair
        · rename_i hkey
          rcases List.mem_cons.mp hpair with rfl | hrest
          · exact ⟨o, List.mem_cons_self, r, hr, hkey, rfl⟩
          · exact hlater hrest

/-- Where no key is there twice, none is shown twice. -/
theorem nodup_shown (hnodup : offs.Nodup)
    (hdistinct : ∀ o o' r r', recs o = some r → recs o' = some r' → ¬ Blank r.key →
      r.key = r'.key → o = o') :
    ((shown recs offs).map Prod.fst).Nodup := by
  induction offs with
  | nil => exact List.nodup_nil
  | cons o rest ih =>
      obtain ⟨ho, hrest⟩ := List.nodup_cons.mp hnodup
      rw [shown]
      split
      · exact ih hrest
      · rename_i r hr
        split
        · exact ih hrest
        · rename_i hkey
          refine List.nodup_cons.mpr ⟨fun hmem => ?_, ih hrest⟩
          obtain ⟨pair, hpair, hfst⟩ := List.mem_map.mp hmem
          obtain ⟨o', ho', r', hr', -, rfl⟩ := exists_of_mem_shown hpair
          exact ho (hdistinct o o' r r' hr hr' hkey hfst.symm ▸ ho')

/-- A scan of the files of a database shows each key that is not blank once, with its data. -/
theorem Image.exec_scan {w : World Unit} {map : Bindings} {fuel : Nat} {db : DB}
    (image : Image (w.content .idx) (w.content .dat)) (hbinds : image.Binds map)
    (hclear : ∀ o r, image.recs o = some r → SEP ∉ r.key)
    (hlocks : ∀ file byte, w.locks () file byte = none)
    (hfuel : (w.content .idx).length < fuel) (hreadable : db.readable = true) :
    ∃ pairs, exec (scan fuel db) w = .ok (pairs, w) ∧ (pairs.map Prod.fst).Nodup ∧
      ∀ key data, (key, data) ∈ pairs ↔ map key = some data ∧ ¬ Blank key := by
  obtain ⟨offs, htiles, hmem⟩ := image.exists_tiles
  have hlength := htiles.length_le
  have hshown := length_shown image.recs offs
  have hlive : ∀ {o r}, image.recs o = some r → ¬ Blank r.key → image.slot o ≠ freeSlot :=
    fun hr hkey hfree => hkey (image.blank hr hfree)
  refine ⟨shown image.recs offs, ?_, nodup_shown htiles.nodup.1 ?_, fun key data => ⟨?_, ?_⟩⟩
  · exact exec_nextrecs image.layout hclear hlocks htiles hfuel (by omega) hreadable rfl
  · intro o o' r r' hr hr' hkey heq
    exact image.distinct hr (hlive hr hkey) hr' (hlive hr' (heq ▸ hkey)) heq
  · intro hpair
    obtain ⟨o, -, r, hr, hkey, heq⟩ := exists_of_mem_shown hpair
    cases heq
    exact ⟨(hbinds _ _).mpr ⟨o, r, hr, hlive hr hkey, rfl, rfl⟩, hkey⟩
  · rintro ⟨hdata, hkey⟩
    obtain ⟨o, r, hr, -, rfl, rfl⟩ := (hbinds key data).mp hdata
    exact mem_shown ((hmem o).mpr (hr ▸ Option.some_ne_none r)) hr hkey

variable {Pid : Type} [DecidableEq Pid]

/-- Whatever calls have run side by side and have all returned: `db_rewind` and `db_nextrec`, up
to the end, return exactly the pairs that `db_fetch` finds, each once, but none with a blank
key. -/
theorem scan_agrees_with_fetch {fuel : Nat} (hfuel : PTR_MAX < fuel) {s t : State Pid}
    (hs : s.New) {events : List (Event Pid)} (hrun : (system Pid fuel).Run s events t)
    (hcalls : ∀ event ∈ events, event.call.OnText) (hplain : ∀ event ∈ events, event.call.Plain)
    (hidle : ∀ p, ∃ db, t.proc p = .idle db) {reader : DB} (hreader : reader.readable = true)
    {rounds : Nat} (hrounds : (t.world.content .idx).length < rounds) :
    ∃ pairs, exec (scan rounds reader) t.world.alone = .ok (pairs, t.world.alone) ∧
      (pairs.map Prod.fst).Nodup ∧
      ∀ key data, (key, data) ∈ pairs ↔
        fetched fuel t.world key = .ok (some data) ∧ ¬ Blank key := by
  obtain ⟨g, hsound, hworld, hstands, hclean⟩ := hs.exists_ghost_run hfuel hrun hcalls
  have hview : ∀ p, g.view p = View.idle := by
    intro p
    obtain ⟨db, hproc⟩ := hidle p
    have hp := hstands p
    rw [hproc] at hp
    exact hp.1
  have hfree : ∀ p i, g.holds p i ≠ some .write := by
    intro p i
    have hholds : g.holds p i = none := congrFun (congrArg View.lock (hview p)) i
    rw [hholds]
    exact nofun
  rw [← hworld] at hrounds ⊢
  obtain ⟨image, hbinds⟩ := g.exists_image hsound hview
  have hclear : ∀ o r, image.recs o = some r → SEP ∉ r.key := by
    intro o r hr hsep
    by_cases hslot : image.slot o = freeSlot
    · exact absurd (image.blank hr hslot SEP hsep) (by decide)
    · have hdata := (hbinds r.key r.data).mpr ⟨o, r, hr, hslot, rfl, rfl⟩
      exact hsound.clear (hclean hplain) hfree (hdata ▸ Option.some_ne_none _) hsep
  obtain ⟨pairs, hscan, hnodup, hpairs⟩ := @Image.exec_scan g.world.alone g.map rounds reader
    image hbinds hclear (fun _ _ => rfl) hrounds hreader
  refine ⟨pairs, hscan, hnodup, fun key data => ?_⟩
  rw [hpairs, hsound.fetched hfree hfuel fun k _ hne => hsound.clear (hclean hplain) hfree hne]
  simp

/-- A session with the new database that leaves a short index file. -/
def short (calls : List Call) : Bool :=
  match session 1000000 (some (db_rewind (newDB created))) calls fresh.world with
  | .ok (_, some _, w) => (w.content .idx).length < 1000
  | _ => false

theorem exists_short {calls : List Call} (hshort : short calls) : ∃ results db w,
    session 1000000 (some (db_rewind (newDB created))) calls fresh.world =
      .ok (results, some db, w) ∧ (w.content .idx).length < 1000 := by
  rw [short] at hshort
  split at hshort
  · rename_i results db w hsession
    exact ⟨results, db, w, hsession, of_decide_eq_true hshort⟩
  · cases hshort

/-- A database with one key. -/
theorem scan_agrees_with_fetch_ab :
    ∃ (w : World Unit) (pairs : List (List Byte × List Byte)),
      exec (scan 1000 (db_rewind (newDB readOnly))) w.alone = .ok (pairs, w.alone) ∧
        (pairs.map Prod.fst).Nodup ∧
        ∀ key data, (key, data) ∈ pairs ↔
          fetched 1000000 w key = .ok (some data) ∧ ¬ Blank key := by
  have hshort : short [.store [97, 98] [120] DB_INSERT] := by decide +kernel
  obtain ⟨results, db, w, hsession, hrounds⟩ := exists_short hshort
  obtain ⟨events, hrun, hevents⟩ := exists_run_session hsession
  have hcall : ∀ event ∈ events, event.call.OnText ∧ event.call.Plain := by
    intro event hevent
    rw [List.mem_singleton.mp (hevents event hevent)]
    exact ⟨⟨by decide, by decide⟩, by decide⟩
  exact ⟨w, scan_agrees_with_fetch (by decide) fresh_new hrun (fun e he => (hcall e he).1)
    (fun e he => (hcall e he).2) (fun _ => ⟨_, rfl⟩) rfl hrounds⟩

end ApueCourse.Db
