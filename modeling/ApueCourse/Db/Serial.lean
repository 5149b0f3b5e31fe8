import ApueCourse.Db.Image

/-! Calls that run side by side have the results and the effect of the same calls one after
another, in the order of their ends. -/

namespace ApueCourse.Db

open Memory Function Program Transition

variable {Pid : Type}

/-- A call with its result, and the places of its first and its last event in a history. -/
structure Completed (Pid : Type) where
  process : Pid
  call : Call
  result : Result
  invoked : Nat
  returned : Nat

/-- The history has the call from its beginning to its end. -/
structure Completed.In (c : Completed Pid) (events : List (Event Pid)) : Prop where
  invoked : ∃ result, events[c.invoked]? = some (.invoke c.process c.call result)
  returned : ∃ event, events[c.returned]? = some event ∧ event.process = c.process ∧
    event.call = c.call ∧ event.result = some c.result
  le : c.invoked ≤ c.returned
  alone : ∀ k, c.invoked < k → k ≤ c.returned → ∀ call result,
    events[k]? ≠ some (.invoke c.process call result)

/-- All processes are between two calls, each with a handle of its own that does not append,
and the files are those of a database in which the keys have the data of `map`. -/
structure State.Ready (s : State Pid) (map : Bindings) : Prop where
  handle : ∀ p, ∃ db, s.proc p = .idle (some db) ∧ db.append = false
  locks : ∀ p file byte, s.world.locks p file byte = none
  image : ∃ image : Image (s.world.content .idx) (s.world.content .dat), image.Binds map

section Tracks

variable [DecidableEq Pid]

/-- The process is where the rules have it. -/
def Tracks (s : Ghost Pid) (p : Pid) : Proc → Prop
  | .idle db => s.view p = View.idle ∧ ∃ db', db = some db' ∧ db'.append = false
  | .busy call _ prog => ∃ op next, prog = .call op next ∧
      (Ghost.protocol Pid).Plays p call (Done p call) (.call op next) s.map s
  | .dead _ _ => False

/-- What an event makes of the data of the keys. -/
def Amounts (call : Call) (x y : Bindings) : Option Result → Prop
  | none => y = x
  | some result => call.apply x = (result, y)

theorem Tracks.rely {s t : Ghost Pid} {p : Pid} {proc : Proc} (htracks : Tracks s p proc)
    (hrely : t.view p = s.view p) : Tracks t p proc := by
  cases proc with
  | idle db => exact ⟨hrely.trans htracks.1, htracks.2⟩
  | dead => exact htracks
  | busy call made prog =>
      obtain ⟨op, next, hprog, hplays⟩ := htracks
      exact ⟨op, next, hprog, hplays.rely hrely⟩

/-- A process behind its next system call, or at the beginning of a call. -/
theorem tracks_settle {s : Ghost Pid} {p : Pid} {call : Call} {prog : P (Result × Option DB)}
    {x : Bindings} (hplays : (Ghost.protocol Pid).Plays p call (Done p call) prog x s)
    (made : List Op) (habort : ∀ reason, settle call made prog = .dead call reason →
      reason = .spin) :
    Tracks s p (settle call made prog) ∧ Amounts call x s.map (returned prog) ∧
      ∀ w, leave p w prog = w := by
  cases prog with
  | ret a =>
      obtain ⟨result, db⟩ := a
      obtain ⟨hresult, hmap, hview, db', hdb, happend, -⟩ := hplays
      refine ⟨⟨hview, db', hdb, happend⟩, ?_, fun _ => rfl⟩
      exact Prod.ext hresult.symm hmap.symm
  | stop reason =>
      have hne : reason ≠ .spin := hplays.2.1
      exact absurd (habort reason rfl) hne
  | call op next =>
      have hmap : s.map = x := hplays.1
      refine ⟨⟨op, next, rfl, ?_⟩, hmap, fun _ => rfl⟩
      rw [hmap]
      exact hplays

theorem tracks_step {fuel : Nat} (hfuel : PTR_MAX < fuel) {s t : State Pid} {event : Event Pid}
    {g : Ghost Pid} (hsound : g.Sound) (hworld : g.world = s.world)
    (htracks : ∀ p, Tracks g p (s.proc p)) (hstep : State.Step fuel s event t)
    (hcall : event.call.OnKey)
    (habort : ∀ p call reason, t.proc p = .dead call reason → reason = .spin) :
    ∃ g' : Ghost Pid, g'.Sound ∧ g'.world = t.world ∧ (∀ p, Tracks g' p (t.proc p)) ∧
      Amounts event.call g.map g'.map event.result := by
  cases hstep with
  | @invoke p call db prog hidle hprog =>
      have hp := htracks p
      rw [hidle] at hp
      obtain ⟨hview, db, rfl, happend⟩ := hp
      have hplays := plays_call hfuel hcall.onText happend hprog hview
      have hsettle := tracks_settle hplays [] fun reason hdead =>
        habort p call reason ((update_self ..).trans hdead)
      refine ⟨g, hsound, hworld.trans (hsettle.2.2 _).symm, fun q => ?_, hsettle.2.1⟩
      rcases eq_or_ne q p with rfl | hne
      · dsimp only
        rw [update_self]
        exact hsettle.1
      · dsimp only
        rw [update_of_ne hne]
        exact htracks q
  | @sys p call made op next r world hbusy hsys =>
      have hp := htracks p
      rw [hbusy] at hp
      obtain ⟨op', next', hprog, hplays⟩ := hp
      cases hprog
      rw [← hworld] at hsys
      obtain ⟨g', hworld', hsound', -, hrely, hnext⟩ := hplays.call rfl hsound hsys
      have hsettle := tracks_settle hnext (made ++ [op]) fun reason hdead =>
        habort p call reason ((update_self ..).trans hdead)
      refine ⟨g', hsound', hworld'.trans (hsettle.2.2 _).symm, fun q => ?_, hsettle.2.1⟩
      rcases eq_or_ne q p with rfl | hne
      · dsimp only
        rw [update_self]
        exact hsettle.1
      · dsimp only
        rw [update_of_ne hne]
        exact (htracks q).rely (hrely q hne)

theorem State.Step.dead {fuel : Nat} {s t : State Pid} {event : Event Pid}
    (hstep : State.Step fuel s event t) {p : Pid} {call : Call} {reason : Stop}
    (hdead : s.proc p = .dead call reason) : t.proc p = .dead call reason := by
  cases hstep with
  | @invoke q call db prog hidle hprog =>
      refine (update_of_ne ?_ _ _).trans hdead
      rintro rfl
      cases hidle.symm.trans hdead
  | @sys q call made op next r world hbusy hsys =>
      refine (update_of_ne ?_ _ _).trans hdead
      rintro rfl
      cases hbusy.symm.trans hdead

end Tracks

section History

variable {c : Completed Pid} {events : List (Event Pid)} {event : Event Pid}

theorem Completed.In.returned_lt (hc : c.In events) : c.returned < events.length := by
  obtain ⟨event, hevent, -⟩ := hc.returned
  exact (List.getElem?_eq_some_iff.mp hevent).1

theorem Completed.In.concat (hc : c.In events) (event : Event Pid) : c.In (events ++ [event]) := by
  have hlt := hc.returned_lt
  have hle := hc.le
  constructor
  case invoked =>
      rw [List.getElem?_append_left (by omega)]
      exact hc.invoked
  case returned =>
      rw [List.getElem?_append_left hlt]
      exact hc.returned
  case le => exact hle
  case alone =>
      intro k hk hk' call result
      rw [List.getElem?_append_left (by omega)]
      exact hc.alone k hk hk' call result

theorem Completed.In.of_concat (hc : c.In (events ++ [event])) (hlt : c.returned < events.length) :
    c.In events := by
  have hle := hc.le
  constructor
  case invoked =>
      have hinvoked := hc.invoked
      rwa [List.getElem?_append_left (by omega)] at hinvoked
  case returned =>
      have hreturned := hc.returned
      rwa [List.getElem?_append_left hlt] at hreturned
  case le => exact hle
  case alone =>
      intro k hk hk' call result
      have halone := hc.alone k hk hk' call result
      rwa [List.getElem?_append_left (by omega)] at halone

/-- Where the call that the process is in has begun. -/
structure Pending (events : List (Event Pid)) (p : Pid) (call : Call) (i : Nat) : Prop where
  invoked : ∃ result, events[i]? = some (.invoke p call result)
  last : ∀ k, i < k → ∀ call' result, events[k]? ≠ some (.invoke p call' result)

/-- What is known of a history and of an order of its calls. -/
structure Ordered (map : Bindings) (events : List (Event Pid)) (s : State Pid) (x : Bindings)
    (order : List (Completed Pid)) : Prop where
  mem : ∀ c, c ∈ order ↔ c.In events
  sorted : order.Pairwise fun a b => a.returned < b.returned
  replay : replay map (order.map (·.call)) = (order.map (·.result), x)
  pending : ∀ p call made prog, s.proc p = .busy call made prog → ∃ i, Pending events p call i

theorem Pending.lt {p : Pid} {call : Call} {i : Nat} (hpending : Pending events p call i) :
    i < events.length := by
  obtain ⟨result, hinvoked⟩ := hpending.invoked
  exact (List.getElem?_eq_some_iff.mp hinvoked).1

theorem Pending.concat {p : Pid} {call : Call} {i : Nat} (hpending : Pending events p call i)
    (hevent : ∀ call' result, event ≠ .invoke p call' result) :
    Pending (events ++ [event]) p call i where
  invoked := by
    rw [List.getElem?_append_left hpending.lt]
    exact hpending.invoked
  last k hk call' result := by
    rcases Nat.lt_or_ge k events.length with hlt | hge
    · rw [List.getElem?_append_left hlt]
      exact hpending.last k hk call' result
    · rw [List.getElem?_append_right hge, List.getElem?_singleton]
      split
      · exact fun h => hevent call' result (Option.some.inj h)
      · exact nofun

theorem getElem?_concat_length : (events ++ [event])[events.length]? = some event := by
  rw [List.getElem?_append_right le_rfl, Nat.sub_self]
  rfl

/-- A history that has the event at its end. -/
theorem Completed.in_concat {i : Nat} (hpending : Pending (events ++ [event]) event.process
    event.call i) :
    c.In (events ++ [event]) ↔ c.In events ∨ ∃ result, event.result = some result ∧
      c = ⟨event.process, event.call, result, i, events.length⟩ := by
  have hlt := hpending.lt
  rw [List.length_append, List.length_singleton] at hlt
  constructor
  · intro hc
    have hreturned := hc.returned_lt
    rw [List.length_append, List.length_singleton] at hreturned
    rcases Nat.lt_or_eq_of_le (Nat.le_of_lt_succ hreturned) with hlt' | heq
    · exact .inl (hc.of_concat hlt')
    · right
      obtain ⟨event', hevent', hprocess, hcall, hresult⟩ := hc.returned
      rw [heq, getElem?_concat_length] at hevent'
      cases hevent'
      refine ⟨c.result, hresult, ?_⟩
      have hinvoked : c.invoked = i := by
        rcases Nat.lt_trichotomy c.invoked i with hbefore | heq' | hbehind
        · obtain ⟨result, hi⟩ := hpending.invoked
          rw [hprocess] at hi
          exact absurd hi (hc.alone i hbefore (by omega) event.call result)
        · exact heq'
        · obtain ⟨result, hi⟩ := hc.invoked
          rw [← hprocess] at hi
          exact absurd hi (hpending.last c.invoked hbehind c.call result)
      rw [hprocess, hcall, ← hinvoked, ← heq]
  · rintro (hc | ⟨result, hresult, rfl⟩)
    · exact hc.concat event
    · refine ⟨hpending.invoked, ⟨event, getElem?_concat_length, rfl, rfl, hresult⟩, ?_, ?_⟩
      · exact Nat.le_of_lt_succ hlt
      · exact fun k hk _ => hpending.last k hk

section Step

variable [DecidableEq Pid] {fuel : Nat} {s t : State Pid} {map x y : Bindings}
  {order : List (Completed Pid)}

/-- The call that the event belongs to. -/
theorem Ordered.exists_pending (hordered : Ordered map events s x order)
    (hstep : State.Step fuel s event t) :
    ∃ i, Pending (events ++ [event]) event.process event.call i := by
  cases hstep with
  | @invoke p call db prog hidle hprog =>
      refine ⟨events.length, ⟨_, getElem?_concat_length⟩, fun k hk call' result => ?_⟩
      rw [List.getElem?_eq_none]
      · exact nofun
      · rw [List.length_append, List.length_singleton]
        omega
  | @sys p call made op next r world hbusy hsys =>
      obtain ⟨i, hpending⟩ := hordered.pending p call made _ hbusy
      exact ⟨i, hpending.concat nofun⟩

/-- The others are where they were. -/
theorem State.Step.proc_other (hstep : State.Step fuel s event t) {q : Pid}
    (hne : q ≠ event.process) : t.proc q = s.proc q := by
  cases hstep with
  | invoke => exact update_of_ne hne _ _
  | sys => exact update_of_ne hne _ _

theorem State.Step.call_eq (hstep : State.Step fuel s event t) {call : Call} {made : List Op}
    {prog : P (Result × Option DB)} (hbusy : t.proc event.process = .busy call made prog) :
    call = event.call := by
  have hsettle : ∀ {call' made' prog'}, settle call' made' prog' = .busy call made prog →
      call = call' := by
    intro call' made' prog' heq
    cases prog' with
    | ret | stop => cases heq
    | call =>
        cases heq
        rfl
  cases hstep with
  | invoke => exact hsettle ((update_self ..).symm.trans hbusy)
  | sys => exact hsettle ((update_self ..).symm.trans hbusy)

theorem Ordered.pending_step (hordered : Ordered map events s x order)
    (hstep : State.Step fuel s event t) (q : Pid) (call : Call) (made : List Op)
    (prog : P (Result × Option DB)) (hbusy : t.proc q = .busy call made prog) :
    ∃ i, Pending (events ++ [event]) q call i := by
  by_cases hq : q = event.process
  · subst hq
    rw [hstep.call_eq hbusy]
    exact hordered.exists_pending hstep
  · rw [hstep.proc_other hq] at hbusy
    obtain ⟨i, hpending⟩ := hordered.pending q call made prog hbusy
    refine ⟨i, hpending.concat ?_⟩
    rintro call' result rfl
    exact hq rfl

theorem Ordered.step (hordered : Ordered map events s x order)
    (hstep : State.Step fuel s event t) (hamounts : Amounts event.call x y event.result) :
    ∃ order', Ordered map (events ++ [event]) t y order' := by
  obtain ⟨i, hpending⟩ := hordered.exists_pending hstep
  have hmem := fun c => @Completed.in_concat _ c events event i hpending
  cases hresult : event.result with
  | none =>
      rw [hresult] at hamounts hmem
      refine ⟨order, fun c => ?_, hordered.sorted, ?_, hordered.pending_step hstep⟩
      · rw [hmem, hordered.mem]
        exact (or_iff_left fun ⟨_, h, _⟩ => nomatch h).symm
      · rw [hordered.replay, show y = x from hamounts]
  | some result =>
      rw [hresult] at hamounts hmem
      refine ⟨order ++ [⟨event.process, event.call, result, i, events.length⟩], fun c => ?_, ?_,
        ?_, hordered.pending_step hstep⟩
      · rw [hmem, List.mem_append, hordered.mem, List.mem_singleton]
        apply or_congr_right
        constructor
        · exact fun hc => ⟨result, rfl, hc⟩
        · rintro ⟨result', hresult', hc⟩
          cases hresult'
          exact hc
      · rw [List.pairwise_append]
        refine ⟨hordered.sorted, List.pairwise_singleton _ _, ?_⟩
        intro a ha b hb
        rw [List.mem_singleton] at hb
        subst hb
        exact ((hordered.mem a).mp ha).returned_lt
      · have happly : event.call.apply x = (result, y) := hamounts
        rw [List.map_append, List.map_append, replay_append, hordered.replay]
        simp only [List.map_cons, List.map_nil, Db.replay, happly]

end Step

end History

namespace State

variable [DecidableEq Pid] {fuel : Nat} {map : Bindings} {s t : State Pid}
  {events : List (Event Pid)}

theorem Ready.exists_ghost (hs : s.Ready map) :
    ∃ g : Ghost Pid, g.Sound ∧ g.world = s.world ∧ (∀ p, Tracks g p (s.proc p)) ∧
      Db.Ordered map [] s g.map [] := by
  obtain ⟨image, hbinds⟩ := hs.image
  obtain ⟨g, hsound, hworld, hmap, hview⟩ := image.exists_ghost hbinds hs.locks
  refine ⟨g, hsound, hworld, fun p => ?_, ?_, .nil, ?_, ?_⟩
  · obtain ⟨db, hidle, happend⟩ := hs.handle p
    rw [hidle]
    exact ⟨hview p, db, rfl, happend⟩
  · intro c
    refine iff_of_false List.not_mem_nil fun hc => ?_
    cases hc.returned_lt
  · rw [hmap]
    rfl
  · intro p call made prog hbusy
    obtain ⟨db, hidle, -⟩ := hs.handle p
    cases hidle.symm.trans hbusy

/-- A run without aborts keeps the rules, and has an order of its calls. -/
theorem exists_order (hfuel : PTR_MAX < fuel) (hs : s.Ready map)
    (hrun : (system Pid fuel).Run s events t) (hcalls : ∀ event ∈ events, event.call.OnKey)
    (habort : ∀ p call reason, t.proc p = .dead call reason → reason = .spin) :
    ∃ (g : Ghost Pid) (order : List (Completed Pid)), g.Sound ∧ g.world = t.world ∧
      (∀ p, Tracks g p (t.proc p)) ∧ Db.Ordered map events t g.map order := by
  induction hrun with
  | refl =>
      obtain ⟨g, hg⟩ := hs.exists_ghost
      exact ⟨g, [], hg⟩
  | @snoc middle t trace event hrun hstep ih =>
      have habort' : ∀ p call reason, middle.proc p = .dead call reason → reason = .spin :=
        fun p call reason hdead => habort p call reason (Step.dead hstep hdead)
      obtain ⟨g, order, hsound, hworld, htracks, hordered⟩ := ih
        (fun e he => hcalls e (List.mem_append_left _ he)) habort'
      have hcall : event.call.OnKey :=
        hcalls event (List.mem_append_right _ (List.mem_singleton_self _))
      obtain ⟨g', hsound', hworld', htracks', hamounts⟩ :=
        tracks_step hfuel hsound hworld htracks hstep hcall habort
      obtain ⟨order', hordered'⟩ := hordered.step hstep hamounts
      exact ⟨g', order', hsound', hworld', htracks', hordered'⟩

/-- The calls of a run without aborts have the results of the same calls one after another, in
an order in which no call is in front of one that had ended before it began.  In the end the
keys have the data that they have behind these calls. -/
theorem serialisable (hfuel : PTR_MAX < fuel) (hs : s.Ready map)
    (hrun : (system Pid fuel).Run s events t) (hcalls : ∀ event ∈ events, event.call.OnKey)
    (habort : ∀ p call reason, t.proc p = .dead call reason → reason = .spin) :
    ∃ order : List (Completed Pid), order.Nodup ∧ (∀ c, c ∈ order ↔ c.In events) ∧
      order.Pairwise (fun a b => ¬ b.returned < a.invoked) ∧
      (replay map (order.map (·.call))).1 = order.map (·.result) ∧
      (∀ p call reason, t.proc p ≠ .dead call reason) ∧
      ((∀ p, ∃ db, t.proc p = .idle db) →
        ∃ image : Image (t.world.content .idx) (t.world.content .dat),
          image.Binds (replay map (order.map (·.call))).2) := by
  obtain ⟨g, order, hsound, hworld, htracks, hordered⟩ := exists_order hfuel hs hrun hcalls habort
  refine ⟨order, ?_, hordered.mem, ?_, ?_, ?_, ?_⟩
  · exact hordered.sorted.imp fun hlt heq => absurd (heq ▸ hlt) (Nat.lt_irrefl _)
  · apply hordered.sorted.imp_of_mem
    intro a b ha hb hlt
    have hle := ((hordered.mem a).mp ha).le
    omega
  · rw [hordered.replay]
  · intro p call reason hdead
    have hp := htracks p
    rw [hdead] at hp
    exact hp
  · intro hidle
    have hview : ∀ p, g.view p = View.idle := by
      intro p
      obtain ⟨db, hdb⟩ := hidle p
      have hp := htracks p
      rw [hdb] at hp
      exact hp.1
    rw [← hworld, hordered.replay]
    exact Ghost.exists_image hsound hview

/-- Two processes that have opened a new database. -/
def opened : State Bool where
  world := ⟨fun _ => true, fun | .idx => emptyTable | .dat => [], fun _ _ _ => none⟩
  proc _ := .idle (some (db_rewind (newDB ⟨true, true, false, false, false, false⟩)))

theorem opened_ready : opened.Ready fun _ => none where
  handle _ := ⟨_, rfl, rfl⟩
  locks _ _ _ := rfl
  image := ⟨Image.empty, Image.empty_binds⟩

/-- A `db_store` with a wrong flag, while a `db_fetch` has got its lock. -/
def overlap : List (Event Bool) :=
  [.invoke true (.fetch [97]) none,
    .sys true (.fetch [97]) (.lockw .read (slotRange (slotOf [97]))) none,
    .invoke false (.store [97] [120] 0) (some (.code (-1)))]

theorem overlap_run : ∃ t, (system Bool 1000000).Run opened overlap t ∧
    ∀ p call reason, t.proc p ≠ .dead call reason := by
  have hfetch := @Step.invoke Bool _ 1000000 opened true (.fetch [97]) _ _ rfl rfl
  have hfetched := System.Run.single (M := system Bool 1000000) hfetch
  have hlocked := hfetched.snoc (@Step.sys Bool _ 1000000 _ true (.fetch [97]) []
    (.lockw .read (slotRange (slotOf [97]))) _ () _ (by exact rfl)
    (by exact .lockw fun q _ file byte _ mode hmode => nomatch hmode))
  have hstored := hlocked.snoc (@Step.invoke Bool _ 1000000 _ false (.store [97] [120] 0) _ _
    (by exact rfl) (by exact rfl))
  refine ⟨_, hstored, fun p call reason hdead => ?_⟩
  cases p <;> cases hdead

theorem serialisable_overlap :
    ∃ (t : State Bool) (order : List (Completed Bool)),
      (system Bool 1000000).Run opened overlap t ∧ (∀ c, c ∈ order ↔ c.In overlap) ∧
      (replay (fun _ => none) (order.map (·.call))).1 = order.map (·.result) := by
  obtain ⟨t, hrun, halive⟩ := overlap_run
  obtain ⟨order, -, hmem, -, hreplay, -, -⟩ := serialisable (by decide) opened_ready hrun (by decide)
    fun p call reason hdead => absurd hdead (halive p call reason)
  exact ⟨t, order, hrun, hmem, hreplay⟩

end State

end ApueCourse.Db
