import ApueCourse.Db.Scan

/-! What `db_store` has taken can be read. -/

namespace ApueCourse.Db

open Memory Function Program Transition State

theorem Call.act_store_zero {key data : List Byte} {flag : Int} {old : Option (List Byte)}
    (hzero : ((Call.store key data flag).act old).1 = .code 0) :
    ((Call.store key data flag).act old).2 = some data := by
  rw [Call.act] at hzero ⊢
  split
  · rename_i hflag
    rw [if_pos hflag] at hzero
    cases hzero
  · rename_i hflag
    rw [if_neg hflag] at hzero
    split
    · rename_i hold
      rw [if_pos hold] at hzero
      split
      · rename_i hreplace
        rw [if_pos hreplace] at hzero
        cases hzero
      · rfl
    · rename_i hold
      rw [if_neg hold] at hzero
      split
      · rename_i hinsert
        rw [if_pos hinsert] at hzero
        cases hzero
      · rfl

variable {Pid : Type} [DecidableEq Pid]

theorem Ghost.Sound.clear {g : Ghost Pid} (hs : g.Sound) (hplain : g.Plain)
    (hfree : ∀ p i, g.holds p i ≠ some .write) {key : List Byte} (hkey : g.map key ≠ none) :
    SEP ∉ key := by
  obtain ⟨mem, _, hin, hlists⟩ := hs.chain hfree (slotOf key)
  obtain ⟨data, hdata⟩ := Option.ne_none_iff_exists'.mp hkey
  obtain ⟨o, r, hr, rfl, -⟩ := (hlists.map rfl).mp hdata
  exact hplain o r (hin hr)

/-- What is behind a `db_store` that returns 0: the key has the data, the others have what they
had. -/
theorem exists_ghost_stored {fuel : Nat} (hfuel : PTR_MAX < fuel) {g : Ghost Pid}
    (hsound : g.Sound) (hfree : ∀ q i, g.holds q i ≠ some .write) {p : Pid}
    (hview : g.view p = View.idle) {db db' : DB} (happend : db.append = false)
    {key data : List Byte} (hkey : 0 ∉ key) (hdata : 0 ∉ data) {flag : Int}
    {made : List (Prog.Made Op Op.Res)} {w : World Pid}
    (hstore : (db_store fuel db key data flag).Runs (World.Sys p) g.world made (.ok (0, db')) w) :
    ∃ g' : Ghost Pid, g'.Sound ∧ g'.world = w ∧ (∀ q i, g'.holds q i ≠ some .write) ∧
      g'.map = update g.map key (some data) ∧ db'.readable = true ∧
      (SEP ∉ key → g.Plain → g'.Plain) := by
  obtain ⟨g', hsound', hclean, hothers, hworld, hdone⟩ :=
    (plays_store hfuel happend hkey hdata hview).runs_keeps (fun _ _ => rfl)
      (fun u => (Call.store key data flag).Plain → g.Plain → u.Plain)
      (fun _ _ _ _ _ hu hturn hcall hg => Ghost.Turn.plain hcall hturn (hu hcall hg)) hsound
      (fun _ hg => hg) (hstore.bind (.ret _ _))
  obtain ⟨db'', hdb, -, hreadable⟩ := hdone.handle
  cases hdb
  refine ⟨g', hsound', hworld, fun q i => ?_, ?_, hreadable nofun, hclean⟩
  · rcases eq_or_ne q p with rfl | hne
    · have hholds : g'.holds q i = none := congrFun (congrArg View.lock hdone.view) i
      rw [hholds]
      exact nofun
    · have hholds : g'.holds q = g.holds q := congrArg View.lock (hothers q hne)
      rw [hholds]
      exact hfree q i
  · rw [hdone.map, Call.apply]
    exact congrArg (update g.map key) (Call.act_store_zero hdone.result.symm)

/-- With the handle that a `db_store` has left, and any other that reads, the data are found
and shown, and every other key is found as before. -/
structure ReadBack (fuel : Nat) (before after : World Pid) (db : DB) (key data : List Byte) :
    Prop where
  readable : db.readable = true
  fetch : ∀ reader : DB, reader.readable = true →
    ∃ reader', exec (db_fetch fuel reader key) after.alone = .ok ((some data, reader'), after.alone)
  shows : ∀ (reader : DB) (rounds : Nat), reader.readable = true →
    (after.content .idx).length < rounds →
    ∃ pairs, exec (scan rounds reader) after.alone = .ok (pairs, after.alone) ∧
      (key, data) ∈ pairs
  others : ∀ k ≠ key, ∃ old, fetched fuel before k = .ok old ∧ fetched fuel after k = .ok old

/-- After calls that store no key with a `SEP` in it, what `db_store` has taken is read back if
its key has no `SEP` either and is not blank, and else it is not. -/
theorem accepted_key_is_read_back_iff {fuel : Nat} (hfuel : PTR_MAX < fuel) {s t : State Pid}
    (hs : s.New) {events : List (Event Pid)} (hrun : (system Pid fuel).Run s events t)
    (hcalls : ∀ event ∈ events, event.call.OnText) (hplain : ∀ event ∈ events, event.call.Plain)
    (hrest : t.Resting) {p : Pid} {db db' : DB} (hidle : t.proc p = .idle (some db))
    {key data : List Byte} (hkey : 0 ∉ key) (hdata : 0 ∉ data) {flag : Int}
    {made : List (Prog.Made Op Op.Res)} {w : World Pid}
    (hstore : (db_store fuel db key data flag).Runs (World.Sys p) t.world made (.ok (0, db')) w) :
    ReadBack fuel t.world w db' key data ↔ SEP ∉ key ∧ ¬ Blank key := by
  obtain ⟨g, hsound, hworld, hstands, hclean⟩ := hs.exists_ghost_run hfuel hrun hcalls
  have hfree := hs.free hrun hrest hworld hstands
  have hp := hstands p
  rw [hidle] at hp
  obtain ⟨hview, _, hdb, happend⟩ := hp
  cases hdb
  rw [← hworld] at hstore ⊢
  obtain ⟨g', hsound', rfl, hfree', hmap, hreadable, hclean'⟩ :=
    exists_ghost_stored hfuel hsound hfree hview happend hkey hdata hstore
  have hstored : g'.map key = some data := by
    rw [hmap, update_self]
  constructor
  · intro hread
    have hsep : SEP ∉ key := by
      intro hin
      obtain ⟨reader, hfetch⟩ := hread.fetch (db_rewind (newDB readOnly)) rfl
      have hstop := hsound'.fetched_sep hfree' hfuel rfl (hstored ▸ Option.some_ne_none data) hin
      rw [fetched_eq, hfetch] at hstop
      cases hstop
    refine ⟨hsep, ?_⟩
    have hreader : (db_rewind (newDB readOnly)).readable = true := rfl
    obtain ⟨pairs, hscan, hin⟩ := hread.shows _ _ hreader (Nat.lt_succ_self _)
    obtain ⟨pairs', hscan', -, hblank⟩ := hsound'.exec_scan (hclean' hsep (hclean hplain)) hfree'
      (Nat.lt_succ_self _) hreader
    cases hscan.symm.trans hscan'
    exact hblank _ hin
  · rintro ⟨hsep, hblank⟩
    have hclear := hclean' hsep (hclean hplain)
    refine ⟨hreadable, fun reader hreader => ?_, fun reader rounds hreader hrounds => ?_,
      fun k hk => ⟨g.map k, ?_, ?_⟩⟩
    · rw [← hstored]
      exact hsound'.exec_fetch hfree' hfuel (fun k _ hne => hsound'.clear hclear hfree' hne)
        hreader
    · obtain ⟨pairs, hscan, hshown, -⟩ := hsound'.exec_scan hclear hfree' hrounds hreader
      exact ⟨pairs, hscan, hshown key data hstored hblank⟩
    · exact hsound.fetched hfree hfuel fun k' _ hne => hsound.clear (hclean hplain) hfree hne
    · have hsame : g'.map k = g.map k := by
        rw [hmap, update_of_ne hk]
      rw [← hsame]
      exact hsound'.fetched hfree' hfuel fun k' _ hne => hsound'.clear hclear hfree' hne

section Fresh

/-- Whether a `db_store` returns 0 on a new database, and what is asked then is so. -/
def storesThen (fuel : Nat) (key data : List Byte) (ask : DB → World Unit → Bool) : Bool :=
  match exec (db_store fuel (db_rewind (newDB created)) key data DB_INSERT) fresh.world with
  | .ok ((rc, db), w) => rc = 0 && ask db w
  | .error _ => false

theorem exists_stored {fuel : Nat} {key data : List Byte} {ask : DB → World Unit → Bool}
    (hstores : storesThen fuel key data ask) :
    ∃ (db : DB) (made : List (Prog.Made Op Op.Res)) (w : World Unit),
      (db_store fuel (db_rewind (newDB created)) key data DB_INSERT).Runs (World.Sys ())
        fresh.world made (.ok (0, db)) w ∧ ask db w = true := by
  rw [storesThen] at hstores
  split at hstores
  · rename_i rc db w hexec
    obtain ⟨hzero, hask⟩ := Bool.and_eq_true_iff.mp hstores
    obtain rfl := of_decide_eq_true hzero
    obtain ⟨made, hruns⟩ := Prog.runs_of_ok World.sys_act hexec
    exact ⟨db, made, w, hruns, hask⟩
  · cases hstores

def stopsWith (message : String) {α : Type} : Except Stop α → Bool
  | .error (.err_dump message') => message' = message
  | _ => false

theorem eq_of_stopsWith {message : String} {α : Type} {outcome : Except Stop α}
    (h : stopsWith message outcome) : outcome = .error (.err_dump message) := by
  rw [stopsWith.eq_def] at h
  split at h
  · rw [of_decide_eq_true h]
  · cases h

theorem storesThen_separator : storesThen 1000000 [97, SEP, 98] [120] fun db w =>
    stopsWith "_db_readidx: too many separators"
      (exec (db_fetch 1000000 db [97, SEP, 98]) w.alone) := by
  decide +kernel

/-- The key is taken, and no `db_fetch` of it comes back. -/
theorem separator_key_is_not_read_back :
    ∃ (db db' : DB) (made : List (Prog.Made Op Op.Res)) (w : World Unit),
      fresh.New ∧ (system Unit 1000000).Run fresh [] fresh ∧ fresh.Resting ∧
        fresh.proc () = .idle (some db) ∧
        (db_store 1000000 db [97, SEP, 98] [120] DB_INSERT).Runs (World.Sys ()) fresh.world made
          (.ok (0, db')) w ∧
        exec (db_fetch 1000000 db' [97, SEP, 98]) w.alone =
          .error (.err_dump "_db_readidx: too many separators") := by
  obtain ⟨db', made, w, hruns, hask⟩ := exists_stored storesThen_separator
  exact ⟨_, db', made, w, fresh_new, .refl _, fun _ _ _ _ => nofun, rfl, hruns,
    eq_of_stopsWith hask⟩

theorem storesThen_ab : storesThen 1000000 [97, 98] [120] fun _ _ => true := by
  decide +kernel

theorem accepted_key_is_read_back_ab :
    ∃ (db : DB) (made : List (Prog.Made Op Op.Res)) (w : World Unit),
      (db_store 1000000 (db_rewind (newDB created)) [97, 98] [120] DB_INSERT).Runs
          (World.Sys ()) fresh.world made (.ok (0, db)) w ∧
        ReadBack 1000000 fresh.world w db [97, 98] [120] := by
  obtain ⟨db, made, w, hruns, -⟩ := exists_stored storesThen_ab
  have hread := accepted_key_is_read_back_iff (by decide) fresh_new (.refl fresh)
    (List.forall_mem_nil _) (List.forall_mem_nil _) (fun _ _ _ _ => nofun) rfl (by decide)
    (by decide) hruns
  exact ⟨db, made, w, hruns, hread.mpr ⟨by decide, by decide⟩⟩

end Fresh

end ApueCourse.Db
