import ApueCourse.Db.Abort

/-! `db_open` by any number of processes at a time. -/

namespace ApueCourse.Db

open Memory Function Program Transition

/-- The free list pointer, the pointers of the hash table, and the newline. -/
structure Header (idx : List Byte) : Prop where
  ptr : ∀ i : Slot, ∃ n : Nat, (n : Int) ≤ PTR_MAX ∧ At idx i.off (sprintfWidth PTR_SZ n)
  newline : At idx ((NHASH_DEF + 1) * PTR_SZ) [NEWLINE]

/-- Two files with the records of keys without a `SEP`. -/
def Complete (idx dat : List Byte) : Prop :=
  ∃ (image : Image idx dat) (map : Bindings), image.Binds map ∧ ∀ key, map key ≠ none → SEP ∉ key

theorem Complete.header {idx dat : List Byte} (h : Complete idx dat) : Header idx := by
  obtain ⟨image, -⟩ := h
  exact ⟨fun i => ⟨image.head i, image.layout.ptr_le i, image.layout.ptr i⟩, image.layout.newline⟩

theorem Complete.idx_ne_nil {idx dat : List Byte} (h : Complete idx dat) : idx ≠ [] := by
  rintro rfl
  have hle := h.header.newline.le
  exact absurd hle (by decide)

theorem complete_emptyTable : Complete emptyTable [] :=
  ⟨Image.empty, fun _ => none, Image.empty_binds, fun _ hne => absurd rfl hne⟩

theorem Complete.exec_fetch {w : World Unit} (h : Complete (w.content .idx) (w.content .dat))
    (hlocks : ∀ file byte, w.locks () file byte = none) {fuel : Nat} (hfuel : PTR_MAX < fuel)
    {db : DB} (hreadable : db.readable = true) (key : List Byte) :
    ∃ data db', exec (db_fetch fuel db key) w = .ok ((data, db'), w) := by
  obtain ⟨image, map, hbinds, hclear⟩ := h
  have hlists : Lists (slotOf key) (image.head (slotOf key))
      (part image.recs (image.own Unit) (.list (slotOf key))) map (image.chain (slotOf key)) :=
    image.lists hbinds (slotOf key)
  have hclear' : ∀ {o r}, part image.recs (image.own Unit) (.list (slotOf key)) o = some r →
      SEP ∉ r.key := by
    intro o r hr
    have hhash := hlists.hash (slotOf_ne_free key) hr
    have hmap : map r.key = some r.data := (hlists.map hhash).mpr ⟨o, r, hr, rfl, rfl⟩
    exact hclear r.key (hmap ▸ Option.some_ne_none _)
  obtain ⟨db', hexec⟩ := Db.exec_fetch image.layout hfuel (fun hr => (image.part_own.mp hr).1)
    hlists hclear' hreadable hlocks
  exact ⟨map key, db', hexec⟩

/-- `O_CREAT` with `O_TRUNC`, for which `db_open` makes the header. -/
def OFlags.Creates (flags : OFlags) : Prop := flags.creat ∧ flags.trunc

instance (flags : OFlags) : Decidable flags.Creates := inferInstanceAs (Decidable (_ ∧ _))

section Programs

variable (flags : OFlags) (db : Option DB)

/-- What a process has that has got `db'` from `db_open`, and had `db` before. -/
def given (db' : Option DB) : P (Result × Option DB) := .ret (.handle db'.isSome, db'.or db)

/-- `db_open` behind its header. -/
def closing : P (Result × Option DB) :=
  .call (.unlock idxLock) fun _ => given db (some (db_rewind (newDB flags)))

/-- `db_open` behind the size of the index file. -/
def sized (size : Nat) : P (Result × Option DB) :=
  if size = 0 then
    if flags.append then
      .call (.append .idx emptyTable) fun (pos : Option Nat) =>
        if pos.isSome then closing flags db
        else .stop (.err_dump "db_open: index file init write error")
    else
      .call (.write .idx 0 emptyTable) fun (done : Bool) =>
        if done then closing flags db
        else .stop (.err_dump "db_open: index file init write error")
  else closing flags db

/-- `db_open` behind the two `open`. -/
def opened (idx dat : Bool) : P (Result × Option DB) :=
  if idx = false ∨ dat = false then given db none
  else if flags.Creates then
    if flags.writable then
      .call (.lockw .write idxLock) fun _ => .call (.size .idx) (sized flags db)
    else .stop (.err_dump "db_open: writew_lock error")
  else given db (some (db_rewind (newDB flags)))

theorem open_prog (fuel : Nat) : (Call.open flags).prog fuel db =
    some (.call (.open .idx flags) fun idx => .call (.open .dat flags) (opened flags db idx)) := by
  refine congrArg some (congrArg (Prog.call _) (funext fun idx => congrArg (Prog.call _)
    (funext fun dat => ?_)))
  cases idx with
  | false => rfl
  | true =>
      cases dat with
      | false => rfl
      | true =>
          -- what is left depends on the flags of creation, and on those of writing behind them
          obtain ⟨readable, writable, creat, excl, trunc, append⟩ := flags
          cases creat with
          | false => rfl
          | true =>
              cases trunc with
              | false => rfl
              | true =>
                  cases writable with
                  | false => rfl
                  | true =>
                      refine congrArg (Prog.call _) (funext fun _ => congrArg (Prog.call _)
                        (funext fun size => ?_))
                      cases size with
                      | succ n => rfl
                      | zero =>
                          cases append with
                          | true =>
                              refine congrArg (Prog.call _) (funext fun pos => ?_)
                              cases pos with
                              | none | some => rfl
                          | false =>
                              refine congrArg (Prog.call _) (funext fun done => ?_)
                              cases done with
                              | false | true => rfl

end Programs

variable {Pid : Type}

/-- Both files are there, with a complete database in them. -/
structure Headed (w : World Pid) : Prop where
  idx : w.present .idx = true
  dat : w.present .dat = true
  complete : Complete (w.content .idx) (w.content .dat)

/-- Both files are there, with nothing in the data file. -/
structure Emptied (w : World Pid) : Prop where
  idx : w.present .idx = true
  dat : w.present .dat = true
  empty : w.content .dat = []

def Locked (w : World Pid) (p : Pid) : Prop := w.locks p .idx 0 = some .write

/-- How far a process has come in `db_open`, with what it needs there of the files. -/
inductive Opening (w : World Pid) (p : Pid) (flags : OFlags) (db : Option DB) :
    List Op → P (Result × Option DB) → Prop
  | idx : Opening w p flags db []
      (.call (.open .idx flags) fun idx => .call (.open .dat flags) (opened flags db idx))
  | dat {idx : Bool}
      (hidx : idx = true → if flags.Creates then w.present .idx = true else Headed w) :
      Opening w p flags db [.open .idx flags] (.call (.open .dat flags) (opened flags db idx))
  | lock (hcreates : flags.Creates) (hempty : Emptied w) :
      Opening w p flags db [.open .idx flags, .open .dat flags]
        (.call (.lockw .write idxLock) fun _ => .call (.size .idx) (sized flags db))
  | size (hcreates : flags.Creates) (hempty : Emptied w) (hlock : Locked w p) :
      Opening w p flags db [.open .idx flags, .open .dat flags, .lockw .write idxLock]
        (.call (.size .idx) (sized flags db))
  | write {made : List Op} {op : Op} {next : op.Res → P (Result × Option DB)}
      (hprog : sized flags db 0 = .call op next) (hmade : .size .idx ∈ made)
      (hcreates : flags.Creates) (hempty : Emptied w) (hlock : Locked w p)
      (hidx : w.content .idx = []) : Opening w p flags db made (.call op next)
  | close {made : List Op} (hmade : .size .idx ∈ made) (hcreates : flags.Creates)
      (hheaded : Headed w) : Opening w p flags db made (closing flags db)

/-- A process in `db_open` that goes on with the header it has found or made. -/
def Proc.Relies : Proc → Prop
  | .busy (.open flags) made _ => if flags.Creates then .size .idx ∈ made else made ≠ []
  | _ => False

/-- What a system call of `db_open` does to the files; `free` is that no process relies on
the header. -/
structure Effect (free : Prop) (p : Pid) (w w' : World Pid) : Prop where
  files : w'.content .idx = [] ∨ Headed w'
  headed : free ∨ (Headed w → w'.content = w.content)
  dat : w.content .dat = [] → w'.content .dat = []
  present : ∀ {file}, w.present file = true → w'.present file = true
  idx : w.content .idx = [] → w'.content .idx = [] ∨ Locked w p

theorem Headed.idx_ne_nil {w : World Pid} (hheaded : Headed w) : w.content .idx ≠ [] :=
  hheaded.complete.idx_ne_nil

section Opening

variable {w w' : World Pid} {p q : Pid} {flags : OFlags} {db : Option DB} {made : List Op}
  {free : Prop}

theorem Headed.of_content (hheaded : Headed w) (hcontent : w'.content = w.content)
    (hpresent : ∀ {file}, w.present file = true → w'.present file = true) : Headed w' := by
  refine ⟨hpresent hheaded.idx, hpresent hheaded.dat, ?_⟩
  rw [hcontent]
  exact hheaded.complete

theorem Emptied.effect (hempty : Emptied w) (heffect : Effect free p w w') : Emptied w' :=
  ⟨heffect.present hempty.idx, heffect.present hempty.dat, heffect.dat hempty.empty⟩

theorem Effect.same (hfiles : w.content .idx = [] ∨ Headed w)
    (hcontent : w'.content = w.content)
    (hpresent : ∀ {file}, w.present file = true → w'.present file = true) :
    Effect free p w w' where
  files := by
    rw [hcontent]
    exact hfiles.imp_right fun hheaded => hheaded.of_content hcontent hpresent
  headed := .inr fun _ => hcontent
  dat hdat := by
    rw [hcontent]
    exact hdat
  present := hpresent
  idx hidx := by
    rw [hcontent]
    exact .inl hidx

/-- The files as they are behind the end of a process, which has no more locks. -/
theorem Effect.leave [DecidableEq Pid] (heffect : Effect free p w w')
    (prog : P (Result × Option DB)) : Effect free p w (leave q w' prog) := by
  have hcontent : (Db.leave q w' prog).content = w'.content := leave_content q w' prog
  have hpresent : (Db.leave q w' prog).present = w'.present := leave_present q w' prog
  obtain ⟨hfiles, hheaded, hdat, hpres, hidx⟩ := heffect
  refine ⟨?_, ?_, ?_, ?_, ?_⟩
  · rw [hcontent]
    refine hfiles.imp_right fun h => h.of_content hcontent fun h => ?_
    rw [hpresent]
    exact h
  · rw [hcontent]
    exact hheaded
  · rw [hcontent]
    exact hdat
  · rw [hpresent]
    exact hpres
  · rw [hcontent]
    exact hidx

theorem Opening.other {prog : P (Result × Option DB)} (hopening : Opening w q flags db made prog)
    (heffect : Effect free p w w') (hlocks : w'.locks q = w.locks q)
    (hexclusive : w.locks.Exclusive) (hne : q ≠ p)
    (hfree : free → ¬ (Proc.busy (.open flags) made prog).Relies) :
    Opening w' q flags db made prog := by
  have hlocked : Locked w q → Locked w' q := by
    intro h
    rw [Locked, hlocks]
    exact h
  cases hopening with
  | idx => exact .idx
  | dat hidx =>
      refine .dat fun h => ?_
      have hneeds := hidx h
      split
      · rename_i hcreates
        rw [if_pos hcreates] at hneeds
        exact heffect.present hneeds
      · rename_i hcreates
        rw [if_neg hcreates] at hneeds
        rcases heffect.headed with h | hcontent
        · refine absurd ?_ (hfree h)
          rw [Proc.Relies, if_neg hcreates]
          exact List.cons_ne_nil _ _
        · exact hneeds.of_content (hcontent hneeds) heffect.present
  | lock hcreates hempty => exact .lock hcreates (hempty.effect heffect)
  | size hcreates hempty hlock => exact .size hcreates (hempty.effect heffect) (hlocked hlock)
  | write hprog hmade hcreates hempty hlock hidx =>
      refine .write hprog hmade hcreates (hempty.effect heffect) (hlocked hlock) ?_
      rcases heffect.idx hidx with h | hlock'
      · exact h
      · cases (hexclusive q p .idx 0 _ _ hne hlock hlock').1
  | close hmade hcreates hheaded =>
      refine .close hmade hcreates ?_
      rcases heffect.headed with h | hcontent
      · refine absurd ?_ (hfree h)
        rw [Proc.Relies, if_pos hcreates]
        exact hmade
      · exact hheaded.of_content (hcontent hheaded) heffect.present

/-- What has become of a process by a system call of `db_open`. -/
inductive After (w : World Pid) (p : Pid) (flags : OFlags) (db : Option DB) (made : List Op) :
    P (Result × Option DB) → Prop
  | opening {op : Op} {next : op.Res → P (Result × Option DB)}
      (hopening : Opening w p flags db made (.call op next)) :
      After w p flags db made (.call op next)
  | result {given : Bool} {db' : Option DB} (hgiven : given = true → Headed w) :
      After w p flags db made (.ret (.handle given, db'))
  | dead (reason : Stop) : After w p flags db made (.stop reason)

theorem opened_same {file : FileId} (hpresent : w.present file = true)
    (htrunc : ¬ flags.trunc = true) : (w.opened file flags).content = w.content := by
  have hboth : w.present file = true ∧ ¬ flags.trunc = true := ⟨hpresent, htrunc⟩
  show update w.content file (if w.present file ∧ ¬ flags.trunc then w.content file else []) =
    w.content
  rw [if_pos hboth, update_eq_self]

theorem opened_empty {file : FileId} (hnew : ¬ (w.present file = true ∧ ¬ flags.trunc = true)) :
    (w.opened file flags).content = update w.content file [] := by
  show update w.content file (if w.present file ∧ ¬ flags.trunc then w.content file else []) = _
  rw [if_neg hnew]

theorem opened_present_self (w : World Pid) (file : FileId) (flags : OFlags) :
    (w.opened file flags).present file = true :=
  update_self ..

theorem opened_present {file file' : FileId} (hpresent : w.present file' = true) :
    (w.opened file flags).present file' = true := by
  show update w.present file true file' = true
  rcases eq_or_ne file' file with rfl | hne
  · exact update_self ..
  · rw [update_of_ne hne]
    exact hpresent

/-- With the flags of the call the open of the index file leaves a header, or the file is empty
and will get one, which nobody has seen yet. -/
def IdxCareful (free : Prop) (w : World Pid) (flags : OFlags) : Prop :=
  w.CanOpen .idx flags →
    if w.present .idx ∧ ¬ flags.trunc then w.content .idx ≠ []
    else flags.Creates ∧ (w.content .idx = [] ∨ free)

/-- No data of records are truncated away. -/
def DatCareful (w : World Pid) (flags : OFlags) : Prop :=
  w.CanOpen .dat flags → flags.trunc → w.content .idx = [] ∨ w.content .dat = []

/-- The open of the data file keeps the files of a database as they are. -/
theorem opened_dat (hcareful : DatCareful w flags) (hopen : w.CanOpen .dat flags)
    (hheaded : Headed w) : (w.opened .dat flags).content = w.content := by
  by_cases htrunc : flags.trunc = true
  · have hdat := (hcareful hopen htrunc).resolve_left hheaded.idx_ne_nil
    rw [opened_empty fun hold => hold.2 htrunc, ← hdat, update_eq_self]
  · exact opened_same hheaded.dat htrunc

theorem effect_dat (hfiles : w.content .idx = [] ∨ Headed w) (hcareful : DatCareful w flags)
    (hopen : w.CanOpen .dat flags) : Effect free p w (w.opened .dat flags) := by
  have hsame : Headed w → (w.opened .dat flags).content = w.content :=
    opened_dat hcareful hopen
  have hidx : (w.opened .dat flags).content .idx = w.content .idx := by
    dsimp only [World.opened]
    rw [update_of_ne (by decide)]
  refine ⟨?_, .inr hsame, fun hdat => ?_, opened_present, fun h => .inl (hidx.trans h)⟩
  · rw [hidx]
    exact hfiles.imp_right fun hheaded => hheaded.of_content (hsame hheaded) opened_present
  · by_cases hold : w.present .dat = true ∧ ¬ flags.trunc = true
    · rw [opened_same hold.1 hold.2]
      exact hdat
    · rw [opened_empty hold, update_self]

section Steps

variable [DecidableEq Pid]

theorem after_idx {r : Bool} (hfiles : w.content .idx = [] ∨ Headed w)
    (hcareful : IdxCareful free w flags) (hsys : World.Sys p (.open .idx flags) w r w') :
    Effect free p w w' ∧ After w' p flags db [.open .idx flags]
      (.call (.open .dat flags) (opened flags db r)) := by
  cases hsys with
  | refused =>
      exact ⟨.same hfiles rfl id, .opening (.dat fun h => by cases h)⟩
  | opened hopen =>
      have hcareful := hcareful hopen
      split at hcareful
      · rename_i hold
        have hcontent := opened_same hold.1 hold.2
        have heffect : Effect free p w (w.opened .idx flags) :=
          .same hfiles hcontent opened_present
        have hheaded : Headed (w.opened .idx flags) := by
          refine heffect.files.resolve_left fun hnil => hcareful ?_
          rwa [hcontent] at hnil
        refine ⟨heffect, .opening (.dat fun _ => ?_)⟩
        rw [if_neg fun hcreates => hold.2 hcreates.2]
        exact hheaded
      · rename_i hnew
        obtain ⟨hcreates, hfree⟩ := hcareful
        have hcontent : (w.opened .idx flags).content = update w.content .idx [] := opened_empty hnew
        have hidx : (w.opened .idx flags).content .idx = [] := by
          rw [hcontent, update_self]
        refine ⟨⟨.inl hidx, ?_, fun hdat => ?_, opened_present, fun _ => .inl hidx⟩,
          .opening (.dat fun _ => ?_)⟩
        · rcases hfree with hnil | hfree
          · exact .inr fun hheaded => absurd hnil hheaded.idx_ne_nil
          · exact .inl hfree
        · rw [hcontent, update_of_ne (by decide)]
          exact hdat
        · rw [if_pos hcreates]
          exact opened_present_self w .idx flags

theorem after_dat {idx r : Bool} (hfiles : w.content .idx = [] ∨ Headed w)
    (hcareful : DatCareful w flags)
    (hidx : idx = true → if flags.Creates then w.present .idx = true else Headed w)
    (hsys : World.Sys p (.open .dat flags) w r w') :
    Effect free p w w' ∧ After w' p flags db [.open .idx flags, .open .dat flags]
      (opened flags db idx r) := by
  cases hsys with
  | refused =>
      refine ⟨.same hfiles rfl id, ?_⟩
      rw [opened, if_pos (.inr rfl)]
      exact .result fun h => by cases h
  | opened hopen =>
      have heffect : Effect free p w (w.opened .dat flags) := effect_dat hfiles hcareful hopen
      refine ⟨heffect, ?_⟩
      rw [opened]
      cases idx with
      | false =>
          rw [if_pos (.inl rfl)]
          exact .result fun h => by cases h
      | true =>
          rw [if_neg (by decide)]
          have hneeds := hidx rfl
          by_cases hcreates : flags.Creates
          · rw [if_pos hcreates] at hneeds ⊢
            have hempty : Emptied (w.opened .dat flags) := by
              refine ⟨heffect.present hneeds, opened_present_self w .dat flags, ?_⟩
              rw [opened_empty fun hold => hold.2 hcreates.2, update_self]
            by_cases hwritable : flags.writable = true
            · rw [if_pos hwritable]
              exact .opening (.lock hcreates hempty)
            · rw [if_neg hwritable]
              exact .dead _
          · rw [if_neg hcreates] at hneeds ⊢
            exact .result fun _ =>
              hneeds.of_content (opened_dat hcareful hopen hneeds) opened_present

theorem writeAt_nil (bytes : List Byte) : writeAt [] 0 bytes = bytes := by
  simp [writeAt]

theorem sized_zero (flags : OFlags) (db : Option DB) : sized flags db 0 =
    if flags.append then
      .call (.append .idx emptyTable) fun (pos : Option Nat) =>
        if pos.isSome then closing flags db
        else .stop (.err_dump "db_open: index file init write error")
    else
      .call (.write .idx 0 emptyTable) fun (done : Bool) =>
        if done then closing flags db
        else .stop (.err_dump "db_open: index file init write error") :=
  if_pos rfl

theorem sized_zero_call (flags : OFlags) (db : Option DB) :
    ∃ op next, sized flags db 0 = .call op next := by
  rw [sized_zero]
  split
  · exact ⟨_, _, rfl⟩
  · exact ⟨_, _, rfl⟩

/-- The header is written to the empty file. -/
theorem after_write {op : Op} {next : op.Res → P (Result × Option DB)} {r : op.Res}
    (hfiles : w.content .idx = [] ∨ Headed w) (hprog : sized flags db 0 = .call op next)
    (hmade : .size .idx ∈ made) (hcreates : flags.Creates) (hempty : Emptied w)
    (hlock : Locked w p) (hidx : w.content .idx = []) (hsys : World.Sys p op w r w') :
    Effect free p w w' ∧ After w' p flags db (made ++ [op]) (next r) := by
  have hheaded : ∀ w' : World Pid, w'.present = w.present →
      w'.content = update w.content .idx emptyTable → Headed w' := by
    intro w' hpresent hcontent
    refine ⟨?_, ?_, ?_⟩
    · rw [hpresent]
      exact hempty.idx
    · rw [hpresent]
      exact hempty.dat
    · rw [hcontent, update_self, update_of_ne (by decide), hempty.empty]
      exact complete_emptyTable
  have heffect : ∀ w' : World Pid, w'.present = w.present →
      w'.content = update w.content .idx emptyTable → Effect free p w w' := by
    intro w' hpresent hcontent
    refine ⟨.inr (hheaded w' hpresent hcontent), .inr fun h => absurd hidx h.idx_ne_nil, ?_, ?_,
      fun _ => .inr hlock⟩
    · rw [hcontent, update_of_ne (by decide)]
      exact id
    · rw [hpresent]
      exact id
  have hclosing : ∀ w' : World Pid, Headed w' → After w' p flags db (made ++ [op])
      (closing flags db) := by
    intro w' h
    exact .opening (.close (List.mem_append_left _ hmade) hcreates h)
  rw [sized_zero] at hprog
  split at hprog
  · cases hprog
    cases hsys with
    | append hfits =>
        have hcontent : (w.setContent .idx (w.content .idx ++ emptyTable)).content =
            update w.content .idx emptyTable := by
          rw [World.setContent_content, hidx, List.nil_append]
        exact ⟨heffect _ rfl hcontent, hclosing _ (hheaded _ rfl hcontent)⟩
    | appendTooBig hbig => exact ⟨.same hfiles rfl id, .dead _⟩
  · cases hprog
    cases hsys with
    | write hfits =>
        have hcontent : (w.setContent .idx (writeAt (w.content .idx) 0 emptyTable)).content =
            update w.content .idx emptyTable := by
          rw [World.setContent_content, hidx, writeAt_nil]
        exact ⟨heffect _ rfl hcontent, hclosing _ (hheaded _ rfl hcontent)⟩
    | writeTooBig hbig => exact ⟨.same hfiles rfl id, .dead _⟩

/-- One system call of `db_open`. -/
theorem Opening.step {op : Op} {next : op.Res → P (Result × Option DB)} {r : op.Res}
    (hopening : Opening w p flags db made (.call op next))
    (hfiles : w.content .idx = [] ∨ Headed w)
    (hidx : op = .open .idx flags → IdxCareful free w flags)
    (hdat : op = .open .dat flags → DatCareful w flags) (hsys : World.Sys p op w r w') :
    Effect free p w w' ∧ After w' p flags db (made ++ [op]) (next r) := by
  cases hopening with
  | idx => exact after_idx hfiles (hidx rfl) hsys
  | dat hneeds => exact after_dat hfiles (hdat rfl) hneeds hsys
  | lock hcreates hempty =>
      cases hsys with
      | lockw hgrants =>
          refine ⟨.same hfiles rfl id, .opening (.size hcreates ⟨hempty.1, hempty.2, hempty.3⟩ ?_)⟩
          exact if_pos ⟨rfl, by decide⟩
  | size hcreates hempty hlock =>
      cases hsys with
      | size =>
          refine ⟨.same hfiles rfl id, ?_⟩
          by_cases hlength : (w.content .idx).length = 0
          · rw [hlength]
            obtain ⟨op, next, hprog⟩ := sized_zero_call flags db
            rw [hprog]
            exact .opening (.write hprog (List.mem_append_right _ List.mem_cons_self) hcreates
              hempty hlock (List.eq_nil_of_length_eq_zero hlength))
          · rw [sized, if_neg hlength]
            refine .opening (.close (List.mem_append_right _ List.mem_cons_self) hcreates ?_)
            exact hfiles.resolve_left fun hnil => hlength (congrArg List.length hnil)
  | write hprog hmade hcreates hempty hlock hnil =>
      exact after_write hfiles hprog hmade hcreates hempty hlock hnil hsys
  | close hmade hcreates hheaded =>
      cases hsys with
      | unlock => exact ⟨.same hfiles rfl id, .result fun _ => hheaded.of_content rfl id⟩

end Steps

end Opening

end ApueCourse.Db
