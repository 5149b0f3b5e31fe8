import ApueCourse.Db.Image

/-! One process on a database of its own: the calls one after another. -/

namespace ApueCourse.Db

open Memory Function Program

namespace World

instance (w : World Unit) (file : FileId) (flags : OFlags) : Decidable (w.CanOpen file flags) :=
  inferInstanceAs
    (Decidable (if w.present file then ¬ (flags.creat ∧ flags.excl) else (flags.creat : Prop)))

/-- A system call where there is one process only. -/
def act (op : Op) (w : World Unit) : op.Res × World Unit :=
  match op with
  | .open file flags =>
      if w.CanOpen file flags then (true, w.opened file flags) else (false, w)
  | .lockw mode range => ((), { w with locks := w.locks.set () range (some mode) })
  | .unlock range => ((), { w with locks := w.locks.set () range none })
  | .read file pos n => (readAt (w.content file) pos n, w)
  | .write file pos bytes =>
      if pos + bytes.length ≤ OFF_MAX then
        (true, w.setContent file (writeAt (w.content file) pos bytes))
      else (false, w)
  | .append file bytes =>
      if (w.content file ++ bytes).length ≤ OFF_MAX then
        (some (w.content file ++ bytes).length, w.setContent file (w.content file ++ bytes))
      else (none, w)
  | .size file => ((w.content file).length, w)

theorem sys_act (op : Op) (w : World Unit) : Sys () op w (act op w).1 (act op w).2 := by
  cases op with
  | «open» file flags =>
      rw [act]
      split
      · exact .opened ‹_›
      · exact .refused
  | lockw mode range => exact .lockw fun q hq => absurd rfl hq
  | unlock range => exact .unlock
  | read file pos n => exact .read
  | write file pos bytes =>
      rw [act]
      split
      · exact .write ‹_›
      · exact .writeTooBig (Nat.lt_of_not_le ‹_›)
  | append file bytes =>
      rw [act]
      split
      · exact .append ‹_›
      · exact .appendTooBig (Nat.lt_of_not_le ‹_›)
  | size file => exact .size

end World

/-- The program run to its end. -/
abbrev exec {α : Type} (prog : P α) (w : World Unit) : Except Stop (α × World Unit) :=
  prog.run World.act w

/-- A sequence of calls with the results of all of them, with the handle and the files behind
the last one. -/
def session (fuel : Nat) :
    Option DB → List Call → World Unit → Except Stop (List Result × Option DB × World Unit)
  | db, [], w => .ok ([], db, w)
  | db, call :: calls, w =>
      match call.prog fuel db with
      | none => .ok ([], db, w)
      | some prog =>
          match exec prog w with
          | .error reason => .error reason
          | .ok ((result, db), w) =>
              match session fuel db calls w with
              | .error reason => .error reason
              | .ok (results, rest) => .ok (result :: results, rest)

/-- One call on a key, from files in which the keys have the data of `map`. -/
theorem exec_call {fuel : Nat} (hfuel : PTR_MAX < fuel) {call : Call} (hcall : call.OnText)
    {db : DB} (happend : db.append = false) {prog : P (Result × Option DB)}
    (hprog : call.prog fuel (some db) = some prog) {g : Ghost Unit} (hsound : g.Sound)
    (hview : g.view () = View.idle) :
    (∀ result db' w, exec prog g.world = .ok ((result, db'), w) →
      ∃ g' : Ghost Unit, g'.Sound ∧ g'.world = w ∧ g'.view () = View.idle ∧
        call.apply g.map = (result, g'.map) ∧ ∃ db, db' = some db ∧ db.append = false) ∧
      exec prog g.world ≠ .error .spin := by
  have hplays := plays_call (p := ()) hfuel hcall happend hprog hview
  constructor
  · intro result db' w hexec
    obtain ⟨made, hrun⟩ := Prog.runs_of_ok World.sys_act hexec
    obtain ⟨g', hsound', -, hworld', hdone⟩ := hplays.runs (fun _ _ => rfl) hsound hrun
    obtain ⟨db'', hdb'', happend', -⟩ := hdone.handle
    exact ⟨g', hsound', hworld', hdone.view, Prod.ext hdone.result.symm hdone.map.symm, db'',
      hdb'', happend'⟩
  · intro hexec
    obtain ⟨made, w, hrun⟩ := Prog.runs_of_error World.sys_act hexec
    obtain ⟨g', -, -, -, -, hspin, -⟩ := hplays.runs (fun _ _ => rfl) hsound hrun
    exact hspin rfl

theorem Call.exists_prog (fuel : Nat) (call : Call) (db : DB) :
    ∃ prog, call.prog fuel (some db) = some prog := by
  cases call with
  | «open» | fetch | store | delete | rewind | nextrec => exact ⟨_, rfl⟩

theorem session_calls {fuel : Nat} (hfuel : PTR_MAX < fuel) {calls : List Call}
    (hcalls : ∀ call ∈ calls, call.OnText) {db : DB} (happend : db.append = false)
    {g : Ghost Unit} (hsound : g.Sound) (hview : g.view () = View.idle) :
    (∀ results db' w, session fuel (some db) calls g.world = .ok (results, db', w) →
      ∃ g' : Ghost Unit, g'.Sound ∧ g'.world = w ∧ g'.view () = View.idle ∧
        replay g.map calls = (results, g'.map)) ∧
      session fuel (some db) calls g.world ≠ .error .spin := by
  induction calls generalizing db g with
  | nil =>
      refine ⟨fun results db' w hsession => ?_, nofun⟩
      cases hsession
      exact ⟨g, hsound, rfl, hview, rfl⟩
  | cons call calls ih =>
      obtain ⟨prog, hprog⟩ := call.exists_prog fuel db
      have hcall := hcalls call List.mem_cons_self
      have hrest : ∀ call ∈ calls, call.OnText := fun c hc => hcalls c (List.mem_cons_of_mem _ hc)
      obtain ⟨hdone, hspin⟩ := exec_call hfuel hcall happend hprog hsound hview
      rw [session, hprog]
      dsimp only
      cases hexec : exec prog g.world with
      | error reason =>
          constructor
          · intro results db' w h
            cases h
          · intro h
            cases h
            exact hspin hexec
      | ok a =>
          obtain ⟨⟨result, db₁⟩, w₁⟩ := a
          obtain ⟨g₁, hsound₁, rfl, hview₁, happly, db₁, rfl, happend₁⟩ :=
            hdone result db₁ w₁ hexec
          obtain ⟨hresults, hnospin⟩ := ih hrest happend₁ hsound₁ hview₁
          dsimp only
          cases hsession : session fuel (some db₁) calls g₁.world with
          | error reason =>
              constructor
              · intro results db' w h
                cases h
              · intro h
                cases h
                exact hnospin hsession
          | ok b =>
              obtain ⟨results₁, db₂, w₂⟩ := b
              obtain ⟨g₂, hsound₂, rfl, hview₂, hreplay⟩ := hresults results₁ db₂ w₂ hsession
              constructor
              · intro results db' w h
                cases h
                refine ⟨g₂, hsound₂, rfl, hview₂, ?_⟩
                rw [replay, happly, hreplay]
              · intro h
                cases h

section Exec

variable {α β : Type} {w : World Unit} {db : DB}

theorem ok_bind {ε : Type} (a : α) (f : α → Except ε β) : (Except.ok a).bind f = f a := rfl

theorem exec_bind (prog : P α) (f : α → P β) (w : World Unit) :
    exec (prog >>= f) w = (exec prog w).bind fun a => exec (f a.1) a.2 :=
  Prog.run_bind _ prog f w

theorem exec_ret (a : α) (w : World Unit) : exec (.ret a) w = .ok (a, w) := rfl

theorem exec_openFile (file : FileId) (flags : OFlags) (w : World Unit) :
    exec (openFile file flags) w =
      .ok (if w.CanOpen file flags then (true, w.opened file flags) else (false, w)) := rfl

theorem exec_fileSize (file : FileId) (w : World Unit) :
    exec (fileSize file) w = .ok ((w.content file).length, w) := rfl

theorem exec_un_lock (range : Range) (w : World Unit) :
    exec (un_lock range) w = .ok ((), { w with locks := w.locks.set () range none }) := rfl

theorem exec_writew_lock (range : Range) (message : String) (w : World Unit) :
    exec (writew_lock db range message) w =
      if db.writable then .ok ((), { w with locks := w.locks.set () range (some .write) })
      else .error (.err_dump message) := by
  rw [writew_lock]
  split <;> rfl

theorem exec_write (hwritable : db.writable) (happend : db.append = false) {file : FileId}
    {pos : Nat} {bytes : List Byte} (hfits : pos + bytes.length ≤ OFF_MAX) (w : World Unit) :
    exec (db.write file pos bytes) w = .ok (some (pos + bytes.length),
      w.setContent file (writeAt (w.content file) pos bytes)) := by
  rw [DB.write, if_neg (not_not_intro hwritable), if_neg (by rw [happend]; exact Bool.false_ne_true)]
  have hact : World.act (.write file pos bytes) w =
      (true, w.setContent file (writeAt (w.content file) pos bytes)) := if_pos hfits
  rw [exec, Prog.run.eq_def]
  dsimp only
  rw [hact]
  rfl

end Exec

theorem writeAt_emptyTable : writeAt [] 0 emptyTable = emptyTable := by
  rw [writeAt, List.take_nil, List.length_nil, List.replicate_zero, List.drop_nil,
    List.nil_append, List.nil_append, List.append_nil]

theorem opened_content {flags : OFlags} (htrunc : flags.trunc) (w : World Unit)
    (file file' : FileId) :
    (w.opened file flags).content file' = if file' = file then [] else w.content file' := by
  have hempty : (if w.present file ∧ ¬ flags.trunc then w.content file else []) = [] :=
    if_neg fun h => h.2 htrunc
  rw [World.opened, hempty]
  exact update_apply ..

/-- A database that is created, or emptied. -/
theorem exec_open {flags : OFlags} (hcreat : flags.creat) (htrunc : flags.trunc)
    (happend : flags.append = false) {w w' : World Unit}
    (hlocks : ∀ file byte, w.locks () file byte = none) {db : DB}
    (hopen : exec (db_open flags) w = .ok (some db, w')) :
    db.append = false ∧ w'.content .idx = emptyTable ∧ w'.content .dat = [] ∧
      ∀ p file byte, w'.locks p file byte = none := by
  have hfits : 0 + emptyTable.length ≤ OFF_MAX := by
    rw [length_emptyTable]
    decide
  rw [db_open, exec_bind, exec_openFile, ok_bind, exec_bind, exec_openFile, ok_bind] at hopen
  by_cases hidx : w.CanOpen .idx flags
  · rw [if_pos hidx] at hopen
    dsimp only at hopen
    by_cases hdat : (w.opened .idx flags).CanOpen .dat flags
    · rw [if_pos hdat] at hopen
      dsimp only at hopen
      have hcontent : ∀ file, ((w.opened .idx flags).opened .dat flags).content file = [] := by
        intro file
        rw [opened_content htrunc, opened_content htrunc]
        cases file <;> rfl
      have hlocks' : ((w.opened .idx flags).opened .dat flags).locks = w.locks := rfl
      generalize (w.opened .idx flags).opened .dat flags = w₁ at hopen hcontent hlocks'
      rw [if_neg (by simp), if_pos ⟨hcreat, htrunc⟩, exec_bind, exec_writew_lock] at hopen
      split at hopen
      · rename_i hwritable
        rw [ok_bind, exec_bind, exec_fileSize, ok_bind] at hopen
        dsimp only at hopen
        rw [hcontent, if_pos List.length_nil, exec_bind,
          exec_write hwritable happend hfits, ok_bind] at hopen
        dsimp only at hopen
        rw [exec_bind, exec_un_lock, ok_bind] at hopen
        cases hopen
        refine ⟨happend, ?_, ?_, fun p file byte => ?_⟩
        · dsimp only [World.setContent_content]
          rw [update_self, hcontent, writeAt_emptyTable]
        · dsimp only [World.setContent_content]
          rw [update_of_ne (by decide), hcontent]
        · dsimp only [World.setContent_locks]
          rw [Locks.set]
          split
          · rfl
          · rename_i hnot
            exact (if_neg hnot).trans ((congrFun (congrFun (congrFun hlocks' p) file) byte).trans
              (hlocks file byte))
      · cases hopen
    · rw [if_neg hdat] at hopen
      cases hopen
  · rw [if_neg hidx] at hopen
    cases hopen

/-- The state behind `db_open` on files that are created or emptied. -/
theorem exists_ghost_open {flags : OFlags} (hcreat : flags.creat) (htrunc : flags.trunc)
    (happend : flags.append = false) {w w' : World Unit}
    (hlocks : ∀ file byte, w.locks () file byte = none) {db : DB}
    (hopen : exec (db_open flags) w = .ok (some db, w')) :
    db.append = false ∧ ∃ g : Ghost Unit, g.Sound ∧ g.world = w' ∧ g.map = (fun _ => none) ∧
      g.view () = View.idle := by
  obtain ⟨happend', hidx, hdat, hlocks'⟩ := exec_open hcreat htrunc happend hlocks hopen
  have himage : ∃ image : Image (w'.content .idx) (w'.content .dat), image.Binds fun _ => none := by
    rw [hidx, hdat]
    exact ⟨Image.empty, Image.empty_binds⟩
  obtain ⟨image, hbinds⟩ := himage
  obtain ⟨g, hsound, hworld, hmap, hview⟩ := image.exists_ghost hbinds hlocks'
  exact ⟨happend', g, hsound, hworld, hmap, hview ()⟩

/-- The calls of one process on a new database give what the same calls on a finite map give,
and none of them is caught in a loop. -/
theorem session_refines_map {fuel : Nat} (hfuel : PTR_MAX < fuel) {flags : OFlags}
    (hcreat : flags.creat) (htrunc : flags.trunc) (happend : flags.append = false)
    {w w' : World Unit} (hlocks : ∀ file byte, w.locks () file byte = none) {db : DB}
    (hopen : exec (db_open flags) w = .ok (some db, w')) {calls : List Call}
    (hcalls : ∀ call ∈ calls, call.OnKey) :
    (∀ results rest, session fuel (some db) calls w' = .ok (results, rest) →
      results = (replay (fun _ => none) calls).1) ∧
      session fuel (some db) calls w' ≠ .error .spin := by
  obtain ⟨happend', g, hsound, rfl, hmap, hview⟩ :=
    exists_ghost_open hcreat htrunc happend hlocks hopen
  obtain ⟨hdone, hspin⟩ := session_calls hfuel (fun call hc => (hcalls call hc).onText) happend' hsound hview
  refine ⟨fun results rest hsession => ?_, hspin⟩
  obtain ⟨g', -, -, -, hreplay⟩ := hdone results rest.1 rest.2 hsession
  rw [← hmap, hreplay]

def created : OFlags := ⟨true, true, true, false, true, false⟩

def noFiles : World Unit := ⟨fun _ => false, fun _ => [], fun _ _ _ => none⟩

/-- Whether a process gets a handle and comes through the calls. -/
def succeeds (fuel : Nat) (calls : List Call) : Except Stop (Option DB × World Unit) → Bool
  | .ok (some db, w) => (session fuel (some db) calls w).toBool
  | .ok (none, _) | .error _ => false

theorem exists_session {fuel : Nat} {calls : List Call}
    {opened : Except Stop (Option DB × World Unit)} (hsucceeds : succeeds fuel calls opened) :
    ∃ db w results rest, opened = .ok (some db, w) ∧
      session fuel (some db) calls w = .ok (results, rest) := by
  cases opened with
  | error reason => cases hsucceeds
  | ok a =>
      obtain ⟨_ | db, w⟩ := a
      · cases hsucceeds
      · cases hsession : session fuel (some db) calls w with
        | error reason =>
            rw [succeeds, hsession] at hsucceeds
            cases hsucceeds
        | ok b => exact ⟨db, w, b.1, b.2, rfl, hsession⟩

/-- The second `db_store` takes the place of the deleted record. -/
def reuse : List Call :=
  [.store [97] [120, 121] 1, .fetch [97], .delete [97], .store [98] [120, 122] 3, .fetch [98],
    .fetch [97]]

theorem exists_session_reuse : ∃ db w results rest,
    exec (db_open created) noFiles = .ok (some db, w) ∧
      session 1000000 (some db) reuse w = .ok (results, rest) :=
  exists_session (by decide +kernel)

theorem session_refines_map_reuse :
    ∃ db w results rest, exec (db_open created) noFiles = .ok (some db, w) ∧
      session 1000000 (some db) reuse w = .ok (results, rest) ∧
      results = [.code 0, .data (some [120, 121]), .code 0, .code 0, .data (some [120, 122]),
        .data none] := by
  obtain ⟨db, w, results, rest, hopen, hsession⟩ := exists_session_reuse
  have hresults := (session_refines_map (by decide) rfl rfl rfl (fun _ _ => rfl)
    hopen (by decide)).1 results rest hsession
  exact ⟨db, w, results, rest, hopen, hsession, hresults⟩

/-- Behind the calls of one process on a new database the index records follow one another up
to the end of their file; the free list and the chains come to their end, and each record is on
one of them, with a blank key on the free list and else on the chain of its key; no key is there
twice outside of the free list; and no two records share any of the data file. -/
theorem session_keeps_image {fuel : Nat} (hfuel : PTR_MAX < fuel) {flags : OFlags}
    (hcreat : flags.creat) (htrunc : flags.trunc) (happend : flags.append = false)
    {w w' : World Unit} (hlocks : ∀ file byte, w.locks () file byte = none) {db : DB}
    (hopen : exec (db_open flags) w = .ok (some db, w')) {calls : List Call}
    (hcalls : ∀ call ∈ calls, call.OnKey) :
    (∀ results db' w'', session fuel (some db) calls w' = .ok (results, db', w'') →
      ∃ image : Image (w''.content .idx) (w''.content .dat),
        (∃ offs, Tiles image.recs START offs (w''.content .idx).length ∧
          ∀ o, o ∈ offs ↔ image.recs o ≠ none) ∧
        (∀ i, Path image.recs (image.head i) (image.chain i) ∧ (image.chain i).Nodup) ∧
        (∀ o, image.recs o ≠ none → ∃! i, o ∈ image.chain i) ∧
        (∀ i o r, o ∈ image.chain i → image.recs o = some r →
          if i = freeSlot then Blank r.key else slotOf r.key = i) ∧
        (∀ i j o o' r r', i ≠ freeSlot → j ≠ freeSlot → o ∈ image.chain i → o' ∈ image.chain j →
          image.recs o = some r → image.recs o' = some r' → r.key = r'.key → o = o') ∧
        (∀ o r, image.recs o = some r → r.datoff + r.datlen ≤ (w''.content .dat).length) ∧
        ∀ o o' r r', o ≠ o' → image.recs o = some r → image.recs o' = some r' →
          r.datoff + r.datlen ≤ r'.datoff ∨ r'.datoff + r'.datlen ≤ r.datoff) ∧
      session fuel (some db) calls w' ≠ .error .spin := by
  obtain ⟨happend', g, hsound, rfl, hmap, hview⟩ :=
    exists_ghost_open hcreat htrunc happend hlocks hopen
  obtain ⟨hdone, hspin⟩ := session_calls hfuel (fun call hc => (hcalls call hc).onText) happend' hsound hview
  refine ⟨fun results db' w'' hsession => ?_, hspin⟩
  obtain ⟨g', hsound', rfl, hview', -⟩ := hdone results db' w'' hsession
  obtain ⟨image, -⟩ := Ghost.exists_image hsound' fun _ => hview'
  refine ⟨image, image.exists_tiles, fun i => ⟨image.path i, (image.path i).nodup⟩,
    fun o hne => image.existsUnique_chain hne, ?_, ?_, fun o r hr => image.layout.data_le hr,
    fun o o' r r' hne hr hr' => image.datoff_apart hne hr hr'⟩
  · intro i o r ho hr
    obtain ⟨-, rfl⟩ := image.mem_chain.mp ho
    split
    · exact image.blank hr ‹_›
    · exact image.hash hr ‹_›
  · intro i j o o' r r' hi hj ho ho' hr hr' hkey
    obtain ⟨-, rfl⟩ := image.mem_chain.mp ho
    obtain ⟨-, rfl⟩ := image.mem_chain.mp ho'
    exact image.distinct hr hi hr' hj hkey

theorem session_keeps_image_reuse :
    ∃ (db db' : Option DB) (w w' : World Unit) (results : List Result),
      exec (db_open created) noFiles = .ok (db, w) ∧
      session 1000000 db reuse w = .ok (results, db', w') ∧
      ∃ image : Image (w'.content .idx) (w'.content .dat),
        (∀ i, Path image.recs (image.head i) (image.chain i) ∧ (image.chain i).Nodup) ∧
        ∀ o, image.recs o ≠ none → ∃! i, o ∈ image.chain i := by
  obtain ⟨db, w, results, ⟨db', w'⟩, hopen, hsession⟩ := exists_session_reuse
  obtain ⟨image, -, hpath, hchain, -⟩ := (session_keeps_image (by decide) rfl rfl rfl
    (fun _ _ => rfl) hopen (by decide)).1 results db' w' hsession
  exact ⟨some db, db', w, w', results, hopen, hsession, image, hpath, hchain⟩

end ApueCourse.Db
