import ApueCourse.Db.Reading
import ApueCourse.Db.Serial

/-! Runs in which processes may end in the midst of a call. -/

namespace ApueCourse.Db

open Memory Function Program Transition

variable {Pid : Type} [DecidableEq Pid]

namespace Ghost

/-- The state behind the end of a process, with `map` as the data of the keys. -/
def release (s : Ghost Pid) (p : Pid) (map : Bindings) : Ghost Pid :=
  { s with
    world := { s.world with locks := s.world.locks.release p }
    map := map }

variable {s t : Ghost Pid} {p q : Pid} {call : Call} {map : Bindings}

theorem holds_release (s : Ghost Pid) (p q : Pid) (map : Bindings) (i : Slot) :
    (s.release p map).holds q i = if q = p then none else s.holds q i := rfl

theorem Sound.release (hs : s.Sound) (hgiven : s.Given p map)
    (hmap : ∀ key, map key ≠ s.map key → s.holds p (slotOf key) = some .write) :
    (s.release p map).Sound where
  layout := hs.layout
  exclusive := hs.exclusive.release p
  nobody := hs.nobody
  lists i hfree := by
    by_cases hi : s.holds p i = some .write
    · exact hgiven i hi
    · have hfree' : ∀ q, s.holds q i ≠ some .write := by
        intro q hq
        rcases eq_or_ne q p with rfl | hne
        · exact hi hq
        · apply hfree q
          rw [holds_release, if_neg hne, hq]
      obtain ⟨offs, hoffs⟩ := hs.lists i hfree'
      refine ⟨offs, hoffs.congr_map ?_⟩
      rintro key rfl
      by_contra hne
      exact hi (hmap key hne)

theorem view_release (hs : s.Sound) (hne : q ≠ p)
    (hmap : ∀ key, map key ≠ s.map key → s.holds p (slotOf key) = some .write) :
    (s.release p map).view q = s.view q := by
  have hlocks : s.world.locks.release p q = s.world.locks q := by
    funext file byte
    exact if_neg hne
  have hholds : (s.release p map).holds q = s.holds q := by
    funext i
    exact congrFun (congrFun hlocks .idx) i.off
  rw [view, view, hholds]
  simp only [release, hlocks]
  congr 1
  funext key
  split
  · rfl
  · rename_i hkey
    by_contra hchange
    exact hkey (hs.other_free hne (hmap key hchange))

/-- What a process leaves that stops: the keys have their data, or the key of its `db_store`
has lost it. -/
theorem Sound.exists_release (hs : s.Sound) (hstop : s.MayStop p call) :
    ∃ map, (s.release p map).Sound ∧ (∀ q ≠ p, (s.release p map).view q = s.view q) ∧
      (map = s.map ∨ s.Rewriting p call) := by
  rcases hstop with hgiven | hrewriting
  · have hmap : ∀ key, s.map key ≠ s.map key → s.holds p (slotOf key) = some .write :=
      fun key h => absurd rfl h
    exact ⟨s.map, hs.release hgiven hmap, fun q hq => view_release hs hq hmap, .inl rfl⟩
  · have hmap : ∀ key, update s.map call.key none key ≠ s.map key →
        s.holds p (slotOf key) = some .write := by
      intro key hkey
      rcases eq_or_ne key call.key with rfl | hne
      · exact hrewriting.lock
      · exact absurd (update_of_ne hne _ _) hkey
    exact ⟨_, hs.release hrewriting.given hmap, fun q hq => view_release hs hq hmap,
      .inr hrewriting⟩

/-- No record has a key with a `SEP` in it. -/
def Plain (s : Ghost Pid) : Prop := ∀ o r, s.recs o = some r → SEP ∉ r.key

theorem plain_update {recs : Nat → Option Rec} (hrecs : ∀ o r, recs o = some r → SEP ∉ r.key)
    {o₀ : Nat} {r₀ : Rec} (hr₀ : SEP ∉ r₀.key) {o : Nat} {r : Rec}
    (hr : update recs o₀ (some r₀) o = some r) : SEP ∉ r.key := by
  rcases eq_or_ne o o₀ with rfl | hne
  · rw [update_self] at hr
    cases hr
    exact hr₀
  · rw [update_of_ne hne] at hr
    exact hrecs o r hr

end Ghost

/-- A `db_store` for a key without a `SEP`, or another call. -/
def Call.Plain : Call → Prop
  | .store key _ _ => SEP ∉ key
  | .open _ | .fetch _ | .delete _ | .rewind | .nextrec => True

instance : DecidablePred Call.Plain
  | .store key _ _ => inferInstanceAs (Decidable (SEP ∉ key))
  | .open _ | .fetch _ | .delete _ | .rewind | .nextrec => inferInstanceAs (Decidable True)

theorem Blank.sep {key : List Byte} (hblank : Blank key) : SEP ∉ key :=
  fun h => absurd (hblank SEP h) (by decide)

namespace Ghost

variable {s t : Ghost Pid} {p : Pid} {call : Call}

theorem Turn.plain (hcall : call.Plain) {op : Op} {r : op.Res} (hturn : Turn p call op r s t)
    (hs : s.Plain) : t.Plain := by
  obtain ⟨u, hlabel, heffect⟩ := hturn
  have hu : u.Plain := by
    cases hlabel with
    | refl | take | give => exact hs
  cases heffect with
  | read | size | tooBig | lock | unlock | head | appendData => exact hu
  | pointer hrec | data hrec =>
      intro o r hr
      have hkey := hu _ _ hrec
      refine plain_update hu ?_ hr
      exact hkey
  | record hrec hown hshape hfits hdata hkind =>
      intro o r hr
      refine plain_update hu ?_ hr
      cases hkind with
      | blank _ hblank => exact hblank.sep
      | reuse => exact hcall
  | appendRec happend =>
      intro o r hr
      subst happend
      exact plain_update hu hcall hr

end Ghost

/-- The process is where the rules have it, or it has stopped. -/
def Stands (s : Ghost Pid) (p : Pid) : Proc → Prop
  | .dead _ reason => reason ≠ .spin
  | proc => Tracks s p proc

section Stands

variable {g : Ghost Pid} {s t : State Pid} {p q : Pid} {fuel : Nat} {event : Event Pid}

theorem Stands.rely {g' : Ghost Pid} {proc : Proc} (hstands : Stands g q proc)
    (hrely : g'.view q = g.view q) : Stands g' q proc := by
  cases proc with
  | dead => exact hstands
  | idle db => exact @Tracks.rely _ _ g g' q (.idle db) hstands hrely
  | busy call made prog => exact @Tracks.rely _ _ g g' q (.busy call made prog) hstands hrely

/-- A process behind its next system call, or at the beginning of a call. -/
theorem exists_settle {call : Call} {prog : P (Result × Option DB)} {x : Bindings}
    (hsound : g.Sound) (hplays : (Ghost.protocol Pid).Plays p call (Done p call) prog x g)
    (made : List Op) :
    ∃ g' : Ghost Pid, g'.Sound ∧ g'.world = leave p g.world prog ∧
      Stands g' p (settle call made prog) ∧ (∀ q ≠ p, g'.view q = g.view q) ∧ g'.recs = g.recs := by
  cases prog with
  | ret a =>
      obtain ⟨result, db⟩ := a
      obtain ⟨-, -, hview, db', hdb, happend, -⟩ := hplays
      exact ⟨g, hsound, rfl, ⟨hview, db', hdb, happend⟩, fun _ _ => rfl, rfl⟩
  | stop reason =>
      obtain ⟨-, hspin, hstop⟩ := hplays
      obtain ⟨map, hsound', hview, -⟩ := hsound.exists_release hstop
      refine ⟨g.release p map, hsound', ?_, hspin, hview, rfl⟩
      cases reason with
      | spin => exact absurd rfl hspin
      | err_dump | err_quit | fault => rfl
  | call op next =>
      have hmap : g.map = x := hplays.1
      exact ⟨g, hsound, rfl, ⟨op, next, rfl, hmap ▸ hplays⟩, fun _ _ => rfl, rfl⟩

theorem stands_step (hfuel : PTR_MAX < fuel) (hsound : g.Sound) (hworld : g.world = s.world)
    (hstands : ∀ p, Stands g p (s.proc p)) (hstep : State.Step fuel s event t)
    (hcall : event.call.OnText) :
    ∃ g' : Ghost Pid, g'.Sound ∧ g'.world = t.world ∧ (∀ p, Stands g' p (t.proc p)) ∧
      (event.call.Plain → g.Plain → g'.Plain) := by
  cases hstep with
  | @invoke p call db prog hidle hprog =>
      have hp := hstands p
      rw [hidle] at hp
      obtain ⟨hview, db, rfl, happend⟩ := hp
      obtain ⟨g', hsound', hworld', hp', hothers, hrecs⟩ :=
        exists_settle hsound (plays_call hfuel hcall happend hprog hview) []
      refine ⟨g', hsound', ?_, fun q => ?_, fun _ hplain o r hr => hplain o r (hrecs ▸ hr)⟩
      · rw [hworld', hworld]
      · rcases eq_or_ne q p with rfl | hne
        · dsimp only
          rw [update_self]
          exact hp'
        · dsimp only
          rw [update_of_ne hne]
          exact (hstands q).rely (hothers q hne)
  | @sys p call made op next r world hbusy hsys =>
      have hp := hstands p
      rw [hbusy] at hp
      obtain ⟨op', next', hprog, hplays⟩ := hp
      cases hprog
      rw [← hworld] at hsys
      obtain ⟨g₁, hworld₁, hsound₁, hturn, hrely, hnext⟩ := hplays.call rfl hsound hsys
      obtain ⟨g', hsound', hworld', hp', hothers, hrecs⟩ :=
        exists_settle hsound₁ hnext (made ++ [op])
      refine ⟨g', hsound', ?_, fun q => ?_, fun hcall hplain o r hr => ?_⟩
      · rw [hworld', show g₁.world = world from hworld₁]
      · rcases eq_or_ne q p with rfl | hne
        · dsimp only
          rw [update_self]
          exact hp'
        · dsimp only
          rw [update_of_ne hne]
          exact (hstands q).rely ((hothers q hne).trans (hrely q hne))
      · exact hturn.plain hcall hplain o r (hrecs ▸ hr)

end Stands

namespace State

variable {s t : State Pid} {fuel : Nat} {events : List (Event Pid)} {p : Pid}

/-- A new database that every process has a handle for, none that appends. -/
structure New (s : State Pid) : Prop where
  handle : ∀ p, ∃ db, s.proc p = .idle (some db) ∧ db.append = false
  locks : ∀ p file byte, s.world.locks p file byte = none
  idx : s.world.content .idx = emptyTable
  dat : s.world.content .dat = []

/-- One process with a new database and a handle for it. -/
def fresh : State Unit where
  world := ⟨fun _ => true, fun | .idx => emptyTable | .dat => [], fun _ _ _ => none⟩
  proc _ := .idle (some (db_rewind (newDB created)))

theorem fresh_new : fresh.New :=
  ⟨fun _ => ⟨_, rfl, rfl⟩, fun _ _ _ => rfl, rfl, rfl⟩

theorem New.exists_ghost (hs : s.New) :
    ∃ g : Ghost Pid, g.Sound ∧ g.world = s.world ∧ (∀ p, Stands g p (s.proc p)) ∧ g.Plain := by
  have himage : ∃ image : Image (s.world.content .idx) (s.world.content .dat),
      image.Binds fun _ => none := by
    rw [hs.idx, hs.dat]
    exact ⟨Image.empty, Image.empty_binds⟩
  obtain ⟨image, hbinds⟩ := himage
  obtain ⟨g, hsound, hworld, -, hview⟩ := image.exists_ghost hbinds hs.locks
  refine ⟨g, hsound, hworld, fun p => ?_, fun o r hr => ?_⟩
  · obtain ⟨db, hidle, happend⟩ := hs.handle p
    rw [hidle]
    exact ⟨hview p, db, rfl, happend⟩
  · have hstart := hsound.layout.start hr
    have hend := hsound.layout.end_le hr
    rw [hworld, hs.idx, length_emptyTable, Rec.size, PTR_SZ] at hend
    omega

/-- What is behind a run of a new database, whether processes have stopped in it or not. -/
theorem New.exists_ghost_run (hfuel : PTR_MAX < fuel) (hs : s.New)
    (hrun : (system Pid fuel).Run s events t) (hcalls : ∀ event ∈ events, event.call.OnText) :
    ∃ g : Ghost Pid, g.Sound ∧ g.world = t.world ∧ (∀ p, Stands g p (t.proc p)) ∧
      ((∀ event ∈ events, event.call.Plain) → g.Plain) := by
  induction hrun with
  | refl =>
      obtain ⟨g, hsound, hworld, hstands, hplain⟩ := hs.exists_ghost
      exact ⟨g, hsound, hworld, hstands, fun _ => hplain⟩
  | @snoc middle t trace event hrun hstep ih =>
      obtain ⟨g, hsound, hworld, hstands, hplain⟩ :=
        ih fun e he => hcalls e (List.mem_append_left _ he)
      have hlast : event ∈ trace ++ [event] :=
        List.mem_append_right _ (List.mem_singleton_self _)
      obtain ⟨g', hsound', hworld', hstands', hplain'⟩ :=
        stands_step hfuel hsound hworld hstands hstep (hcalls event hlast)
      refine ⟨g', hsound', hworld', hstands', fun hall => ?_⟩
      exact hplain' (hall event hlast) (hplain fun e he => hall e (List.mem_append_left _ he))

/-- A process that has ended has no lock. -/
theorem locks_dead (hs : s.New) (hrun : (system Pid fuel).Run s events t) {call : Call}
    {reason : Stop} (hdead : t.proc p = .dead call reason) (hspin : reason ≠ .spin)
    (file : FileId) (byte : Nat) : t.world.locks p file byte = none := by
  have hleave : ∀ {w : World Pid} {made : List Op} {prog : P (Result × Option DB)} {call' : Call},
      settle call' made prog = .dead call reason → (leave p w prog).locks p file byte = none := by
    intro w made prog call' hsettle
    cases prog with
    | ret | call => cases hsettle
    | stop reason' =>
        cases hsettle
        cases reason with
        | spin => exact absurd rfl hspin
        | err_dump | err_quit | fault => exact if_pos rfl
  induction hrun with
  | refl =>
      obtain ⟨db, hidle, -⟩ := hs.handle p
      cases hidle.symm.trans hdead
  | @snoc middle t trace event hrun hstep ih =>
      cases hstep with
      | @invoke q call' db prog hidle hprog =>
          rcases eq_or_ne p q with rfl | hne
          · exact hleave ((update_self ..).symm.trans hdead)
          · have hold := ih ((update_of_ne hne _ _).symm.trans hdead)
            exact (congrFun (congrFun (leave_locks_other hne _ _) file) byte).trans hold
      | @sys q call' made op next r world hbusy hsys =>
          rcases eq_or_ne p q with rfl | hne
          · exact hleave ((update_self ..).symm.trans hdead)
          · have hold := ih ((update_of_ne hne _ _).symm.trans hdead)
            rw [← hsys.locks_other hne] at hold
            exact (congrFun (congrFun (leave_locks_other hne _ _) file) byte).trans hold

/-- No process is within a call. -/
def Resting (s : State Pid) : Prop := ∀ p call made prog, s.proc p ≠ .busy call made prog

/-- Between the calls the process has no lock. -/
theorem New.holds_none (hs : s.New) (hrun : (system Pid fuel).Run s events t) (hrest : t.Resting)
    {g : Ghost Pid} (hworld : g.world = t.world) (hstands : ∀ p, Stands g p (t.proc p)) (p : Pid)
    (i : Slot) : g.holds p i = none := by
  have hp := hstands p
  cases hproc : t.proc p with
  | busy call made prog => exact absurd hproc (hrest p call made prog)
  | idle db =>
      rw [hproc] at hp
      exact congrFun (congrArg View.lock hp.1) i
  | dead call reason =>
      rw [hproc] at hp
      rw [Ghost.holds, hworld]
      exact locks_dead hs hrun hproc hp .idx i.off

theorem New.free (hs : s.New) (hrun : (system Pid fuel).Run s events t) (hrest : t.Resting)
    {g : Ghost Pid} (hworld : g.world = t.world) (hstands : ∀ p, Stands g p (t.proc p)) (p : Pid)
    (i : Slot) : g.holds p i ≠ some .write := by
  rw [hs.holds_none hrun hrest hworld hstands p i]
  exact nofun

/-- The system calls of a program that comes to its end, while the others wait. -/
theorem exists_run_prog {call : Call} {base : Pid → Proc} {prog : P (Result × Option DB)}
    {w w' : World Pid} {made : List (Prog.Made Op Op.Res)} {result : Result} {db' : Option DB}
    (hruns : prog.Runs (World.Sys p) w made (.ok (result, db')) w') (ops : List Op) :
    ∃ events, (system Pid fuel).Run ⟨w, update base p (settle call ops prog)⟩ events
      ⟨w', update base p (.idle db')⟩ ∧ ∀ event ∈ events, event.call = call := by
  induction prog generalizing w made ops with
  | ret a =>
      obtain ⟨rfl, ha, rfl⟩ := hruns.of_ret
      cases ha
      exact ⟨[], .refl _, List.forall_mem_nil _⟩
  | stop reason =>
      obtain ⟨-, houtcome, -⟩ := hruns.of_stop
      cases houtcome
  | call op next ih =>
      obtain ⟨r, middle, rest, rfl, hsys, hnext⟩ := hruns.of_call
      obtain ⟨events, hrun, hcalls⟩ := ih r hnext (ops ++ [op])
      have hleave : leave p middle (next r) = middle := by
        cases hprog : next r with
        | ret | call => rfl
        | stop reason =>
            rw [hprog] at hnext
            obtain ⟨-, houtcome, -⟩ := hnext.of_stop
            cases houtcome
      have hstep := @Step.sys Pid _ fuel ⟨w, update base p (.busy call ops (.call op next))⟩ p call
        ops op next r middle (update_self ..) hsys
      rw [hleave, update_idem] at hstep
      refine ⟨_, .cons hstep hrun, fun event hevent => ?_⟩
      rcases List.mem_cons.mp hevent with rfl | hevent'
      · rfl
      · exact hcalls event hevent'

theorem exists_run_call {call : Call} {db db' : Option DB} {prog : P (Result × Option DB)}
    {w' : World Pid} {made : List (Prog.Made Op Op.Res)} {result : Result}
    (hidle : s.proc p = .idle db) (hprog : call.prog fuel db = some prog)
    (hruns : prog.Runs (World.Sys p) s.world made (.ok (result, db')) w') :
    ∃ events, (system Pid fuel).Run s events ⟨w', update s.proc p (.idle db')⟩ ∧
      ∀ event ∈ events, event.call = call := by
  have hruns' : ∃ events, (system Pid fuel).Run
      ⟨s.world, update s.proc p (settle call [] prog)⟩ events
      ⟨w', update s.proc p (.idle db')⟩ ∧ ∀ event ∈ events, event.call = call :=
    exists_run_prog hruns []
  obtain ⟨events, hrun, hcalls⟩ := hruns'
  have hleave : leave p s.world prog = s.world := by
    cases prog with
    | ret | call => rfl
    | stop reason =>
        obtain ⟨-, houtcome, -⟩ := hruns.of_stop
        cases houtcome
  have hstep := @Step.invoke Pid _ fuel s p call db prog hidle hprog
  rw [hleave] at hstep
  refine ⟨_, .cons hstep hrun, fun event hevent => ?_⟩
  rcases List.mem_cons.mp hevent with rfl | hevent'
  · rfl
  · exact hcalls event hevent'

/-- The calls of one process as a run. -/
theorem exists_run_session {calls : List Call} {db db' : Option DB} {w w' : World Unit}
    {results : List Result} (hsession : session fuel db calls w = .ok (results, db', w')) :
    ∃ events, (system Unit fuel).Run ⟨w, fun _ => .idle db⟩ events ⟨w', fun _ => .idle db'⟩ ∧
      ∀ event ∈ events, event.call ∈ calls := by
  induction calls generalizing db w results with
  | nil =>
      cases hsession
      exact ⟨[], .refl _, List.forall_mem_nil _⟩
  | cons call calls ih =>
      rw [session] at hsession
      cases hprog : call.prog fuel db with
      | none =>
          rw [hprog] at hsession
          cases hsession
          exact ⟨[], .refl _, List.forall_mem_nil _⟩
      | some prog =>
          rw [hprog] at hsession
          dsimp only at hsession
          cases hexec : exec prog w with
          | error reason =>
              rw [hexec] at hsession
              cases hsession
          | ok a =>
              obtain ⟨⟨result, db₁⟩, w₁⟩ := a
              rw [hexec] at hsession
              dsimp only at hsession
              cases hrest : session fuel db₁ calls w₁ with
              | error reason =>
                  rw [hrest] at hsession
                  cases hsession
              | ok b =>
                  obtain ⟨results₁, db₂, w₂⟩ := b
                  rw [hrest] at hsession
                  cases hsession
                  obtain ⟨made, hruns⟩ := Prog.runs_of_ok World.sys_act hexec
                  obtain ⟨first, hfirst, hcall⟩ := @exists_run_call Unit _
                    ⟨w, fun _ => .idle db⟩ fuel () call db db₁ prog w₁ made result rfl hprog hruns
                  obtain ⟨second, hsecond, hcalls⟩ := ih hrest
                  have hproc : update (fun _ : Unit => Proc.idle db) () (.idle db₁) =
                      fun _ => .idle db₁ := funext fun _ => update_self ..
                  rw [hproc] at hfirst
                  refine ⟨first ++ second, hfirst.trans hsecond, fun event hevent => ?_⟩
                  rcases List.mem_append.mp hevent with hevent' | hevent'
                  · exact hcall event hevent' ▸ List.mem_cons_self
                  · exact List.mem_cons_of_mem call (hcalls event hevent')

end State

end ApueCourse.Db
