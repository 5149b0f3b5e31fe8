import ApueCourse.Db.Open

/-! What `db_open` has returned can be used while other processes open the database. -/

namespace ApueCourse.Db

open Memory Function Program Transition

/-- The system calls that leave the files as they are. -/
def Op.looks : Unit → Op → Option Unit
  | _, .lockw .. | _, .unlock _ | _, .read .. => some ()
  | _, _ => none

def Looks {α : Type} (prog : P α) : Prop := prog.Follows Op.looks (fun _ _ => True) ()

section Looks

variable {α β : Type}

theorem Looks.bind {prog : P α} {f : α → P β} (hprog : Looks prog) (hf : ∀ a, Looks (f a)) :
    Looks (prog >>= f) :=
  Prog.Follows.bind hprog fun a _ _ => hf a

theorem looks_read (db : DB) (file : FileId) (pos n : Nat) : Looks (db.read file pos n) := by
  rw [DB.read]
  split
  · exact ⟨(), rfl, fun _ => trivial⟩
  · trivial

theorem looks_readw_lock (db : DB) (range : Range) (message : String) :
    Looks (readw_lock db range message) := by
  rw [readw_lock]
  split
  · exact ⟨(), rfl, fun _ => trivial⟩
  · trivial

theorem looks_un_lock (range : Range) : Looks (un_lock range) := ⟨(), rfl, fun _ => trivial⟩

theorem looks_atolField (field : List Byte) : Looks (atolField field) := by
  rw [atolField]
  split
  · trivial
  · trivial

theorem looks_readptr (db : DB) (offset : Int) : Looks (_db_readptr db offset) := by
  rw [_db_readptr]
  split
  · trivial
  · apply (looks_read db .idx _ _).bind
    rintro (_ | asciiptr)
    · trivial
    · dsimp only
      split
      · trivial
      · exact (looks_atolField asciiptr).bind fun _ => trivial

theorem looks_parseIdx (db : DB) (record : List Byte) : Looks (parseIdx db record) := by
  rw [parseIdx]
  split
  · trivial
  · dsimp only
    split
    · trivial
    · split
      · trivial
      · split
        · trivial
        · apply (looks_atolField _).bind
          intro datoff
          split
          · trivial
          · apply (looks_atolField _).bind
            intro datlen
            split
            · trivial
            · trivial

theorem looks_readidx (db : DB) (offset : Int) : Looks (_db_readidx db offset) := by
  rw [_db_readidx]
  split
  · trivial
  · dsimp only
    rw [readRecord]
    apply (looks_read _ .idx _ _).bind
    rintro (_ | head)
    · trivial
    · dsimp only
      split
      · split
        · trivial
        · trivial
      · apply (looks_atolField _).bind
        intro ptrval
        apply (looks_atolField _).bind
        intro idxlen
        split
        · trivial
        · apply (looks_read _ .idx _ _).bind
          rintro (_ | record)
          · trivial
          · dsimp only
            split
            · trivial
            · exact (looks_parseIdx _ record).bind fun _ => trivial

theorem looks_readdat (db : DB) : Looks (_db_readdat db) := by
  rw [_db_readdat]
  split
  · trivial
  · apply (looks_read db .dat _ _).bind
    rintro (_ | record)
    · trivial
    · dsimp only
      split
      · trivial
      · split
        · trivial
        · trivial

theorem looks_findLoop (key : List Byte) (fuel : Nat) (db : DB) (offset : Int) :
    Looks (findLoop key fuel db offset) := by
  induction fuel generalizing db offset with
  | zero => trivial
  | succ fuel ih =>
      rw [findLoop]
      split
      · trivial
      · apply (looks_readidx db offset).bind
        rintro ⟨nextoffset, db'⟩
        dsimp only
        split
        · trivial
        · exact ih _ nextoffset

theorem looks_fetch (fuel : Nat) (db : DB) (key : List Byte) : Looks (db_fetch fuel db key) := by
  have hfind : Looks (_db_find_and_lock fuel db key false) := by
    rw [_db_find_and_lock]
    dsimp only
    rw [if_neg (by decide)]
    apply (looks_readw_lock _ _ _).bind
    intro _
    apply (looks_readptr _ _).bind
    intro a
    exact looks_findLoop key fuel a.2 a.1
  rw [db_fetch]
  apply hfind.bind
  rintro ⟨rc, db'⟩
  dsimp only
  split
  · exact (looks_un_lock _).bind fun _ => trivial
  · apply (looks_readdat db').bind
    intro a
    exact (looks_un_lock _).bind fun _ => trivial

end Looks

variable {Pid : Type}

/-- The files as a process finds them that is alone with them and has some locks. -/
def World.frozen (w : World Pid) (locks : Locks Unit) : World Unit :=
  ⟨fun _ => true, w.content, locks⟩

/-- A process within `db_fetch` that will come to its end if the files stay as they are. -/
def Fetching (w : World Pid) (prog : P (Result × Option DB)) : Prop :=
  Looks prog ∧ ∃ locks a u, exec prog (w.frozen locks) = .ok (a, u)

section Fetching

variable {w w' : World Pid} {prog : P (Result × Option DB)}

theorem Fetching.of_content (hfetching : Fetching w prog) (hcontent : w'.content = w.content) :
    Fetching w' prog := by
  obtain ⟨hlooks, locks, hexec⟩ := hfetching
  refine ⟨hlooks, locks, ?_⟩
  rw [World.frozen, hcontent]
  exact hexec

theorem Fetching.not_stop {reason : Stop} : ¬ Fetching w (.stop reason) := by
  rintro ⟨-, locks, a, u, hexec⟩
  cases hexec

theorem Fetching.step [DecidableEq Pid] {p : Pid} {op : Op}
    {next : op.Res → P (Result × Option DB)} {r : op.Res}
    (hfetching : Fetching w (.call op next)) (hsys : World.Sys p op w r w') :
    w'.content = w.content ∧ w'.present = w.present ∧ Fetching w' (next r) := by
  obtain ⟨⟨_, hlook, hlooks⟩, locks, hexec⟩ := hfetching
  cases hsys with
  | @lockw _ mode range hgrants =>
      exact ⟨rfl, rfl, hlooks (), locks.set () range (some mode), hexec⟩
  | @unlock _ range => exact ⟨rfl, rfl, hlooks (), locks.set () range none, hexec⟩
  | read => exact ⟨rfl, rfl, hlooks _, locks, hexec⟩
  | opened | refused | write | writeTooBig | append | appendTooBig | size => cases hlook

end Fetching

/-- `db_open` has returned a handle. -/
def Handed (events : List (Event Pid)) : Prop :=
  ∃ event ∈ events, event.result = some (.handle true)

theorem Complete.fetching {w : World Pid} {fuel : Nat} (hfuel : PTR_MAX < fuel)
    (hcomplete : Complete (w.content .idx) (w.content .dat)) {db : DB}
    (hreadable : db.readable = true) {key : List Byte} {prog : P (Result × Option DB)}
    (hprog : (Call.fetch key).prog fuel (some db) = some prog) : Fetching w prog := by
  cases hprog
  refine ⟨(looks_fetch fuel db key).bind fun _ => trivial, fun _ _ _ => none, ?_⟩
  have hcomplete' : Complete ((w.frozen fun _ _ _ => none).content .idx)
      ((w.frozen fun _ _ _ => none).content .dat) := hcomplete
  obtain ⟨data, db', hexec⟩ := hcomplete'.exec_fetch (fun _ _ => rfl) hfuel hreadable key
  refine ⟨(.data data, some db'), w.frozen fun _ _ _ => none, ?_⟩
  rw [exec_bind, hexec]
  rfl

/-- The header is there, and a `db_fetch` of any key returns. -/
structure Usable (fuel : Nat) (w : World Pid) : Prop where
  header : Header (w.content .idx)
  fetch : ∀ db key, db.readable = true →
    ∃ data db', exec (db_fetch fuel db key) w.alone = .ok ((data, db'), w.alone)

theorem Headed.usable {w : World Pid} {fuel : Nat} (hfuel : PTR_MAX < fuel) (hheaded : Headed w) :
    Usable fuel w where
  header := hheaded.complete.header
  fetch _ key hreadable := by
    have hcomplete : Complete (w.alone.content .idx) (w.alone.content .dat) := hheaded.complete
    exact hcomplete.exec_fetch (fun _ _ => rfl) hfuel hreadable key

section Handed

variable {events : List (Event Pid)}

theorem handed_append {event : Event Pid} (hhanded : Handed (events ++ [event])) :
    Handed events ∨ event.result = some (.handle true) := by
  obtain ⟨e, he, hresult⟩ := hhanded
  rcases List.mem_append.mp he with he' | he'
  · exact .inl ⟨e, he', hresult⟩
  · rw [List.mem_singleton.mp he'] at hresult
    exact .inr hresult

theorem Handed.append (hhanded : Handed events) (event : Event Pid) :
    Handed (events ++ [event]) := by
  obtain ⟨e, he, hresult⟩ := hhanded
  exact ⟨e, List.mem_append_left _ he, hresult⟩

end Handed

/-- How far a process has come in a run of `db_open` and `db_fetch`. -/
def Proc.Fine (handed : Prop) (w : World Pid) (p : Pid) : Proc → Prop
  | .idle _ | .dead (.open _) _ => True
  | .busy (.open flags) made prog => ∃ db, Opening w p flags db made prog
  | .busy (.fetch _) _ prog => handed ∧ Fetching w prog
  | _ => False

theorem Proc.Fine.other {handed handed' free : Prop} {w w' : World Pid} {p q : Pid} {proc : Proc}
    (hfine : proc.Fine handed w q) (heffect : Effect free p w w')
    (hlocks : w'.locks q = w.locks q) (hexclusive : w.locks.Exclusive) (hne : q ≠ p)
    (hfree : free → ¬ handed ∧ ¬ proc.Relies) (hheaded : handed → Headed w)
    (hmono : handed → handed') : proc.Fine handed' w' q := by
  cases proc with
  | idle db => trivial
  | dead call reason =>
      cases call with
      | «open» => trivial
      | fetch | store | delete | rewind | nextrec => exact hfine.elim
  | busy call made prog =>
      cases call with
      | «open» flags =>
          obtain ⟨db, hopening⟩ := hfine
          exact ⟨db, hopening.other heffect hlocks hexclusive hne fun h => (hfree h).2⟩
      | fetch key =>
          obtain ⟨hhanded, hfetching⟩ := hfine
          refine ⟨hmono hhanded, hfetching.of_content ?_⟩
          rcases heffect.headed with h | hcontent
          · exact absurd hhanded (hfree h).1
          · exact hcontent (hheaded hhanded)
      | store | delete | rewind | nextrec => exact hfine.elim

section Runs

variable [DecidableEq Pid]

/-- No handle has been returned, and no process that is about to return one has passed the point
at which it finds the header. -/
def Free (events : List (Event Pid)) (s : State Pid) : Prop :=
  ¬ Handed events ∧ ∀ p, ¬ (s.proc p).Relies

/-- The calls are `db_open` and, once it has returned a handle, `db_fetch` with a handle for
reading; no open of a file takes a header away or is content without one. -/
def Careful (a : List (Event Pid) × State Pid) : Event Pid → Prop
  | .invoke _ (.open _) _ => True
  | .invoke p (.fetch _) _ =>
      Handed a.1 ∧ ∃ db, a.2.proc p = .idle (some db) ∧ db.readable = true
  | .sys _ (.open flags) (.open .idx _) _ => IdxCareful (Free a.1 a.2) a.2.world flags
  | .sys _ (.open flags) (.open .dat _) _ => DatCareful a.2.world flags
  | .sys _ (.open _) _ _ | .sys _ (.fetch _) _ _ => True
  | _ => False

structure Kept (a : List (Event Pid) × State Pid) : Prop where
  files : a.2.world.content .idx = [] ∨ Headed a.2.world
  exclusive : a.2.world.locks.Exclusive
  procs : ∀ p, (a.2.proc p).Fine (Handed a.1) a.2.world p
  handed : Handed a.1 → Headed a.2.world

variable {events : List (Event Pid)} {s : State Pid} {w : World Pid} {p : Pid}

/-- A step of one process, which the others do not notice. -/
theorem Kept.next (hkept : Kept (events, s)) (heffect : Effect (Free events s) p s.world w)
    (hlocks : ∀ q ≠ p, w.locks q = s.world.locks q) (hexclusive : w.locks.Exclusive)
    {event : Event Pid} {call : Call} {made : List Op} {prog : P (Result × Option DB)}
    (hfine : (settle call made prog).Fine (Handed (events ++ [event])) (leave p w prog) p)
    (hresult : event.result = some (.handle true) → Headed w) :
    Kept (events ++ [event],
      { world := leave p w prog, proc := update s.proc p (settle call made prog) }) := by
  have heffect' : Effect (Free events s) p s.world (leave p w prog) := heffect.leave prog
  refine ⟨heffect'.files, exclusive_leave hexclusive p prog, fun q => ?_, fun hhanded => ?_⟩
  · rcases eq_or_ne q p with rfl | hne
    · dsimp only
      rw [update_self]
      exact hfine
    · dsimp only
      rw [update_of_ne hne]
      refine (hkept.procs q).other heffect' ?_ hkept.exclusive hne ?_ hkept.handed
        fun h => h.append event
      · rw [leave_locks_other hne, hlocks q hne]
      · exact fun h => ⟨h.1, h.2 q⟩
  · rcases handed_append hhanded with hold | hnew
    · have hheaded := hkept.handed hold
      rcases heffect'.headed with hfree | hcontent
      · exact absurd hold hfree.1
      · exact hheaded.of_content (hcontent hheaded) heffect'.present
    · refine (hresult hnew).of_content (leave_content p w prog) fun h => ?_
      rw [leave_present]
      exact h

theorem After.fine {flags : OFlags} {db : Option DB} {made : List Op} {handed : Prop}
    {prog : P (Result × Option DB)} (hafter : After w p flags db made prog) :
    (settle (.open flags) made prog).Fine handed (leave p w prog) p ∧
      (returned prog = some (.handle true) → Headed w) := by
  cases hafter with
  | opening hopening => exact ⟨⟨db, hopening⟩, fun h => by cases h⟩
  | @result given db' hgiven =>
      refine ⟨trivial, fun h => hgiven ?_⟩
      cases h
      rfl
  | dead reason => exact ⟨trivial, fun h => by cases h⟩

theorem Fetching.fine {key : List Byte} {made : List Op} {handed : Prop}
    {prog : P (Result × Option DB)} (hfetching : Fetching w prog) (hhanded : handed) :
    (settle (.fetch key) made prog).Fine handed (leave p w prog) p := by
  cases prog with
  | ret a => trivial
  | stop reason => exact (hfetching.not_stop).elim
  | call op next => exact ⟨hhanded, hfetching⟩

/-- Every step of a careful run keeps the header, once a handle has been returned. -/
theorem Kept.step {fuel : Nat} (hfuel : PTR_MAX < fuel) {a b : List (Event Pid) × State Pid}
    {event : Event Pid} (hkept : Kept a)
    (hstep : ((State.system Pid fuel).recorded.restrict Careful).Step a event b) : Kept b := by
  obtain ⟨⟨hevents, hstep⟩, hcareful⟩ := hstep
  obtain ⟨events, s⟩ := a
  obtain ⟨events', s'⟩ := b
  dsimp only at hevents hstep
  subst hevents
  cases hstep with
  | @invoke p call db prog hidle hprog =>
      have hsame : Effect (Free events s) p s.world s.world := .same hkept.files rfl id
      cases call with
      | «open» flags =>
          rw [open_prog] at hprog
          cases hprog
          exact hkept.next hsame (fun _ _ => rfl) hkept.exclusive ⟨db, .idx⟩ fun h => by cases h
      | fetch key =>
          obtain ⟨hhanded, db', hdb', hreadable⟩ := hcareful
          cases hidle.symm.trans hdb'
          have hheaded := hkept.handed hhanded
          have hfetching := hheaded.complete.fetching hfuel hreadable hprog
          exact hkept.next hsame (fun _ _ => rfl) hkept.exclusive
            (hfetching.fine (hhanded.append _)) fun _ => hheaded
      | store | delete | rewind | nextrec => exact hcareful.elim
  | @sys p call made op next r w hbusy hsys =>
      have hfine := hkept.procs p
      dsimp only at hfine
      rw [hbusy] at hfine
      have hexclusive := hsys.exclusive hkept.exclusive
      have hlocks : ∀ q ≠ p, w.locks q = s.world.locks q := fun q hne => hsys.locks_other hne
      cases call with
      | «open» flags =>
          obtain ⟨db, hopening⟩ := hfine
          have hidx : op = .open .idx flags → IdxCareful (Free events s) s.world flags := by
            rintro rfl
            exact hcareful
          have hdat : op = .open .dat flags → DatCareful s.world flags := by
            rintro rfl
            exact hcareful
          obtain ⟨heffect, hafter⟩ := hopening.step hkept.files hidx hdat hsys
          obtain ⟨hproc, hresult⟩ := hafter.fine
          exact hkept.next heffect hlocks hexclusive hproc hresult
      | fetch key =>
          obtain ⟨hhanded, hfetching⟩ := hfine
          obtain ⟨hcontent, hpresent, hfetching'⟩ := hfetching.step hsys
          have hpresent' : ∀ {file}, s.world.present file = true → w.present file = true := by
            intro file h
            rw [hpresent]
            exact h
          exact hkept.next (.same hkept.files hcontent hpresent') hlocks hexclusive
            (hfetching'.fine (hhanded.append _))
            fun _ => (hkept.handed hhanded).of_content hcontent hpresent'
      | store | delete | rewind | nextrec => exact hfine.elim

/-- From files without anything in the index, or with a database, the header is there as soon as
a handle has been returned, and no `db_fetch` ends its process. -/
theorem handles_usable {fuel : Nat} (hfuel : PTR_MAX < fuel) {start s : State Pid}
    {events trace : List (Event Pid)} (hquiet : start.Quiet)
    (hfiles : start.world.content .idx = [] ∨ Headed start.world)
    (hrun : ((State.system Pid fuel).recorded.restrict Careful).Run ([], start) trace (events, s)) :
    (Handed events → Usable fuel s.world) ∧
      ∀ p key reason, s.proc p ≠ .dead (.fetch key) reason := by
  have hkept : ∀ {a b : List (Event Pid) × State Pid} {trace : List (Event Pid)},
      ((State.system Pid fuel).recorded.restrict Careful).Run a trace b → Kept a → Kept b := by
    intro a b trace hrun hstart
    induction hrun with
    | refl => exact hstart
    | snoc _ hstep ih => exact ih.step hfuel hstep
  have hstart : Kept ([], start) := by
    refine ⟨hfiles, fun p q file byte mode mode' _ hlock => ?_, fun p => ?_, fun hhanded => ?_⟩
    · cases (hquiet.2 p file byte).symm.trans hlock
    · obtain ⟨db, hidle⟩ := hquiet.1 p
      dsimp only
      rw [hidle]
      trivial
    · obtain ⟨event, hevent, -⟩ := hhanded
      cases hevent
  have hend := hkept hrun hstart
  refine ⟨fun hhanded => (hend.handed hhanded).usable hfuel, fun p key reason hdead => ?_⟩
  have hfine := hend.procs p
  rw [hdead] at hfine
  exact hfine

end Runs

/-- No files, and one process without a handle. -/
def absent : State Unit where
  world := ⟨fun _ => false, fun _ => [], fun _ _ _ => none⟩
  proc _ := .idle none

theorem absent_quiet : absent.Quiet := ⟨fun _ => ⟨none, rfl⟩, fun _ _ _ => rfl⟩

section Alone

variable {fuel : Nat} {allowed : List (Event Unit) × State Unit → Event Unit → Prop}
  {Q : List (Event Unit) × State Unit → Prop} {flags : OFlags}

/-- The process begins with `db_open`. -/
theorem exists_recorded_open (hallowed : allowed ([], absent) (.invoke () (.open flags) none))
    (hrest : ∃ trace b, ((State.system Unit fuel).recorded.restrict allowed).Run
      ([.invoke () (.open flags) none], ⟨absent.world, fun _ => .busy (.open flags) []
        (.call (.open .idx flags) fun idx => .call (.open .dat flags) (opened flags none idx))⟩)
      trace b ∧ Q b) :
    ∃ trace b, ((State.system Unit fuel).recorded.restrict allowed).Run ([], absent) trace b ∧
      Q b := by
  obtain ⟨trace, b, hrun, hb⟩ := hrest
  let called : P (Result × Option DB) :=
    .call (.open .idx flags) fun idx => .call (.open .dat flags) (opened flags none idx)
  have hproc : update absent.proc () (settle (.open flags) [] called) =
      fun _ => .busy (.open flags) [] called := funext fun _ => update_self ..
  have hstep := @State.Step.invoke Unit _ fuel absent () (.open flags) none called rfl
    (open_prog flags none fuel)
  rw [hproc] at hstep
  have hfirst : ((State.system Unit fuel).recorded.restrict allowed).Step ([], absent) _
      ([.invoke () (.open flags) none],
        ⟨absent.world, fun _ => .busy (.open flags) [] called⟩) := ⟨⟨rfl, hstep⟩, hallowed⟩
  exact ⟨_, b, .cons hfirst hrun, hb⟩

/-- The process, which is alone, makes one more system call. -/
theorem exists_recorded_sys {events : List (Event Unit)} {made : List Op} {op : Op}
    {next : op.Res → P (Result × Option DB)} {r : op.Res} {w w' : World Unit}
    (hsys : World.Sys () op w r w')
    (hallowed : allowed (events, ⟨w, fun _ => .busy (.open flags) made (.call op next)⟩)
      (.sys () (.open flags) op (returned (next r))))
    (hrest : ∃ trace b, ((State.system Unit fuel).recorded.restrict allowed).Run
      (events ++ [.sys () (.open flags) op (returned (next r))],
        ⟨leave () w' (next r), fun _ => settle (.open flags) (made ++ [op]) (next r)⟩) trace b ∧
      Q b) :
    ∃ trace b, ((State.system Unit fuel).recorded.restrict allowed).Run
      (events, ⟨w, fun _ => .busy (.open flags) made (.call op next)⟩) trace b ∧ Q b := by
  obtain ⟨trace, b, hrun, hb⟩ := hrest
  have hproc : update (fun _ : Unit => Proc.busy (.open flags) made (.call op next)) ()
      (settle (.open flags) (made ++ [op]) (next r)) =
        fun _ => settle (.open flags) (made ++ [op]) (next r) := funext fun _ => update_self ..
  have hstep := @State.Step.sys Unit _ fuel
    ⟨w, fun _ => .busy (.open flags) made (.call op next)⟩ () (.open flags) made op next r w' rfl
    hsys
  dsimp only at hstep
  rw [hproc] at hstep
  have hfirst : ((State.system Unit fuel).recorded.restrict allowed).Step
      (events, ⟨w, fun _ => .busy (.open flags) made (.call op next)⟩) _
      (events ++ [.sys () (.open flags) op (returned (next r))],
        ⟨leave () w' (next r), fun _ => settle (.open flags) (made ++ [op]) (next r)⟩) :=
    ⟨⟨rfl, hstep⟩, hallowed⟩
  exact ⟨_, b, .cons hfirst hrun, hb⟩

end Alone

/-- The process creates the files, and has a header behind it. -/
theorem handles_usable_created : ∃ (events : List (Event Unit)) (s : State Unit),
    (State.system Unit 1000000).Run absent events s ∧ Handed events ∧ Usable 1000000 s.world := by
  have hrun : ∃ trace a, ((State.system Unit 1000000).recorded.restrict Careful).Run
      ([], absent) trace a ∧ Handed a.1 := by
    refine @exists_recorded_open _ Careful _ created trivial ?_
    refine exists_recorded_sys (.opened rfl) (fun _ => ⟨⟨rfl, rfl⟩, .inl rfl⟩) ?_
    refine exists_recorded_sys (.opened rfl) (fun _ _ => .inl rfl) ?_
    refine exists_recorded_sys (.lockw fun q hq => absurd rfl hq) trivial ?_
    refine exists_recorded_sys .size trivial ?_
    refine exists_recorded_sys (.write (by decide +kernel)) trivial ?_
    refine exists_recorded_sys .unlock trivial ?_
    exact ⟨[], _, .refl _, _, List.mem_append_right _ List.mem_cons_self, rfl⟩
  obtain ⟨trace, ⟨events, s⟩, hrun, hhanded⟩ := hrun
  obtain ⟨hevents, hplain⟩ := System.recorded_run (System.restrict_run hrun)
  obtain ⟨husable, -⟩ := handles_usable (by decide) absent_quiet (.inl rfl) hrun
  rw [List.nil_append] at hevents
  subst hevents
  exact ⟨events, s, hplain, hhanded, husable hhanded⟩

/-- `O_RDWR | O_CREAT`, without `O_TRUNC`. -/
def notTruncated : OFlags := ⟨true, true, true, false, false, false⟩

/-- Without `O_TRUNC` the files are created and a handle is returned, but there is no header. -/
theorem not_handles_usable : ¬ ∀ (fuel : Nat) (start s : State Unit) (events : List (Event Unit)),
    PTR_MAX < fuel → start.Quiet →
    (∀ file, start.world.present file = false ∧ start.world.content file = []) ∨
      Headed start.world →
    (∀ event ∈ events, ∃ flags, event.call = .open flags) →
    (State.system Unit fuel).Run start events s → Handed events → Usable fuel s.world := by
  intro h
  have hrun : ∃ trace a, ((State.system Unit 1000000).recorded.restrict fun _ _ => True).Run
      ([], absent) trace a ∧ Handed a.1 ∧ (∀ event ∈ a.1, ∃ flags, event.call = .open flags) ∧
      a.2.world.content .idx = [] := by
    refine @exists_recorded_open _ _ _ notTruncated trivial ?_
    refine exists_recorded_sys (.opened rfl) trivial ?_
    refine exists_recorded_sys (.opened rfl) trivial ?_
    refine ⟨[], _, .refl _, ⟨_, List.mem_append_right _ List.mem_cons_self, rfl⟩, ?_, rfl⟩
    simp [Event.call]
  obtain ⟨trace, ⟨events, s⟩, hrun, hhanded, hopens, hidx⟩ := hrun
  obtain ⟨hevents, hplain⟩ := System.recorded_run (System.restrict_run hrun)
  rw [List.nil_append] at hevents
  subst hevents
  have husable := h 1000000 absent s events (by decide) absent_quiet (.inl fun _ => ⟨rfl, rfl⟩)
    hopens hplain hhanded
  have hle := husable.header.newline.le
  dsimp only at hidx
  rw [hidx] at hle
  exact absurd hle (by decide)

end ApueCourse.Db
