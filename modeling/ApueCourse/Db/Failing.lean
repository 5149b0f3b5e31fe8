import ApueCourse.Db.Abort

/-! What a `db_store` leaves that ends its process. -/

namespace ApueCourse.Db

open Memory Function Program Transition State

variable {Pid : Type} [DecidableEq Pid]

/-- Data of a length that is not allowed ends the process before it has looked at the files. -/
theorem store_invalid_length {fuel : Nat} {db : DB} {key data : List Byte} {flag : Int} {p : Pid}
    {w w' : World Pid} {made : List (Prog.Made Op Op.Res)} {reason : Stop}
    (hlength : (data.length : Int) + 1 < DATLEN_MIN ∨ (data.length : Int) + 1 > DATLEN_MAX)
    (hstore : (db_store fuel db key data flag).Runs (World.Sys p) w made (.error reason) w') :
    w' = w := by
  rw [db_store] at hstore
  split at hstore
  · obtain ⟨-, houtcome, -⟩ := hstore.of_ret
    cases houtcome
  · dsimp only at hstore
    rw [if_pos hlength] at hstore
    exact hstore.of_stop.2.2

/-- A `db_store` that ends its process changes nothing about what is found for any key when the
database is opened again, unless it is to replace data by data of another length. -/
theorem failing_store_keeps_bindings {fuel : Nat} (hfuel : PTR_MAX < fuel) {s t : State Pid}
    (hs : s.New) {events : List (Event Pid)} (hrun : (system Pid fuel).Run s events t)
    (hcalls : ∀ event ∈ events, event.call.OnText) (hrest : t.Resting) {p : Pid} {db : DB}
    (hidle : t.proc p = .idle (some db)) {key data : List Byte} (hkey : 0 ∉ key)
    (hdata : 0 ∉ data) {flag : Int} {made : List (Prog.Made Op Op.Res)} {reason : Stop}
    {w : World Pid}
    (hstore : (db_store fuel db key data flag).Runs (World.Sys p) t.world made (.error reason) w)
    (hsafe : flag = DB_INSERT ∨
      ((data.length : Int) + 1 < DATLEN_MIN ∨ (data.length : Int) + 1 > DATLEN_MAX) ∨
      ∀ old, fetched fuel t.world key = .ok (some old) → old.length = data.length)
    (k : List Byte) : fetched fuel w k = fetched fuel t.world k := by
  by_cases hlength : (data.length : Int) + 1 < DATLEN_MIN ∨ (data.length : Int) + 1 > DATLEN_MAX
  · rw [store_invalid_length hlength hstore]
  · obtain ⟨g, hsound, hworld, hstands, -⟩ := hs.exists_ghost_run hfuel hrun hcalls
    have hfree := hs.free hrun hrest hworld hstands
    have hp := hstands p
    rw [hidle] at hp
    obtain ⟨hview, db', hdb', happend⟩ := hp
    cases hdb'
    rw [← hworld] at hstore hsafe ⊢
    obtain ⟨g₁, hsound₁, hothers, hworld₁, hmap₁, -, hstop⟩ :=
      (plays_store hfuel happend hkey hdata hview).runs (fun _ _ => rfl) hsound
        (hstore.bind_error _)
    obtain ⟨map, hsound₂, -, hcase⟩ := hsound₁.exists_release hstop
    rcases hcase with rfl | hrewriting
    · have hfree₂ : ∀ q i, (g₁.release p g₁.map).holds q i ≠ some .write := by
        intro q i
        rw [Ghost.holds_release]
        split
        · exact nofun
        · rename_i hne
          have hholds : g₁.holds q = g.holds q := congrArg View.lock (hothers q hne)
          rw [hholds]
          exact hfree q i
      have hsame := fetched_congr hsound hsound₂ hfree hfree₂ hfuel hmap₁ k
      rw [← hworld₁, ← hsame]
      rfl
    · have hmap : g₁.map = g.map := hmap₁
      have hclear := hrewriting.clear
      have hrewrites := hrewriting.rewrites
      rw [hmap] at hclear hrewrites
      have hfetched : fetched fuel g.world key = .ok (g.map key) :=
        hsound.fetched hfree hfuel hclear
      rw [hfetched] at hsafe
      cases hold : g.map key with
      | none =>
          rw [Call.key, hold] at hrewrites
          exact hrewrites.elim
      | some old =>
          rw [Call.key, hold] at hrewrites
          rcases hsafe with hinsert | hbad | hsafe
          · exact absurd hinsert hrewrites.1
          · exact absurd hbad hlength
          · exact absurd (hsafe old (congrArg Except.ok hold)) hrewrites.2


section Fresh

/-- Whether this is the outcome of a look for a key. -/
def isFound (data : Option (List Byte)) : Except Stop (Option (List Byte)) → Bool
  | .ok data' => data' = data
  | .error _ => false

theorem eq_of_isFound {data : Option (List Byte)} {outcome : Except Stop (Option (List Byte))}
    (h : isFound data outcome) : outcome = .ok data := by
  cases outcome with
  | error => cases h
  | ok data' => exact congrArg Except.ok (of_decide_eq_true h)

/-- Whether behind these calls on a new database the key has the data `before`, and a `db_store`
for it ends with the message and leaves it `after`. -/
def failsWith (fuel : Nat) (calls : List Call) (key data : List Byte) (flag : Int)
    (message : String) (before after : Option (List Byte)) : Bool :=
  match session fuel (some (db_rewind (newDB created))) calls fresh.world with
  | .ok (_, some db, w) =>
      isFound before (fetched fuel w key) &&
        match (db_store fuel db key data flag).follow World.act w with
        | (_, .error (.err_dump message'), w') =>
            message' = message && isFound after (fetched fuel w' key)
        | _ => false
  | _ => false

variable {fuel : Nat} {calls : List Call} {key data : List Byte} {flag : Int} {message : String}
  {before after : Option (List Byte)}

theorem exists_failing (hcalls : ∀ call ∈ calls, call.OnText)
    (hfails : failsWith fuel calls key data flag message before after) :
    ∃ (events : List (Event Unit)) (t : State Unit) (db : DB) (made : List (Prog.Made Op Op.Res))
      (w : World Unit),
      (system Unit fuel).Run fresh events t ∧ (∀ event ∈ events, event.call.OnText) ∧
        t.Resting ∧ t.proc () = .idle (some db) ∧
        (db_store fuel db key data flag).Runs (World.Sys ()) t.world made
          (.error (.err_dump message)) w ∧
        fetched fuel t.world key = .ok before ∧ fetched fuel w key = .ok after := by
  rw [failsWith] at hfails
  split at hfails
  · rename_i results db w hsession
    obtain ⟨hbefore, hfails⟩ := Bool.and_eq_true_iff.mp hfails
    split at hfails
    · rename_i made message' w' hfollow
      obtain ⟨hmessage, hafter⟩ := Bool.and_eq_true_iff.mp hfails
      obtain rfl := of_decide_eq_true hmessage
      obtain ⟨events, hrun, hevents⟩ := exists_run_session hsession
      have hruns := Prog.follow_runs World.sys_act (db_store fuel db key data flag) w
      rw [hfollow] at hruns
      have hrest : State.Resting ⟨w, fun _ : Unit => .idle (some db)⟩ := by
        intro p call made prog h
        cases h
      exact ⟨events, _, db, made, w', hrun, fun event he => hcalls _ (hevents event he),
        hrest, rfl, hruns, eq_of_isFound hbefore, eq_of_isFound hafter⟩
    · cases hfails
  · cases hfails

/-- A key so long that only with short data its record is one that is written. -/
def longKey : List Byte := List.replicate 1019 97

theorem longKey_text : 0 ∉ longKey :=
  fun h => absurd (List.eq_of_mem_replicate h) (by decide)

theorem failsWith_longKey : failsWith 1000000 [.store longKey [120] DB_INSERT] longKey
    (List.replicate 9 121) DB_REPLACE "_db_writeidx: invalid length" (some [120]) none := by
  decide +kernel

/-- The record of the key is gone before the one that is to replace it is refused. -/
theorem replacing_store_forgets :
    ∃ (events : List (Event Unit)) (t : State Unit) (db : DB) (made : List (Prog.Made Op Op.Res))
      (w : World Unit),
      fresh.New ∧ (system Unit 1000000).Run fresh events t ∧
        (∀ event ∈ events, event.call.OnText) ∧ t.Resting ∧ t.proc () = .idle (some db) ∧
        (db_store 1000000 db longKey (List.replicate 9 121) DB_REPLACE).Runs (World.Sys ()) t.world
          made (.error (.err_dump "_db_writeidx: invalid length")) w ∧
        fetched 1000000 t.world longKey = .ok (some [120]) ∧
        fetched 1000000 w longKey = .ok none := by
  have hcalls : ∀ call ∈ [Call.store longKey [120] DB_INSERT], call.OnText := by
    intro call hcall
    rw [List.mem_singleton.mp hcall]
    exact ⟨longKey_text, by decide⟩
  obtain ⟨events, t, db, made, w, h⟩ := exists_failing hcalls failsWith_longKey
  exact ⟨events, t, db, made, w, fresh_new, h⟩

theorem failsWith_insert : failsWith 1000000 [.store [97] [120, 121] DB_INSERT]
    (List.replicate 1020 97) [120] DB_INSERT "_db_writeidx: invalid length" none none := by
  decide +kernel

theorem failing_store_keeps_bindings_insert :
    ∃ (t : State Unit) (db : DB) (made : List (Prog.Made Op Op.Res)) (w : World Unit),
      (db_store 1000000 db (List.replicate 1020 97) [120] DB_INSERT).Runs (World.Sys ()) t.world
          made (.error (.err_dump "_db_writeidx: invalid length")) w ∧
        fetched 1000000 w [97] = fetched 1000000 t.world [97] := by
  obtain ⟨events, t, db, made, w, hrun, hcalls, hrest, hidle, hstore, -, -⟩ :=
    exists_failing (by decide) failsWith_insert
  exact ⟨t, db, made, w, hstore, failing_store_keeps_bindings (by decide) fresh_new hrun hcalls
    hrest hidle (fun h => absurd (List.eq_of_mem_replicate h) (by decide)) (by decide) hstore
    (.inl rfl) [97]⟩

end Fresh

end ApueCourse.Db
