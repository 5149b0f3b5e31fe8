import ApueCourse.Db.Extents
import ApueCourse.Db.Abort

/-! The processes with the buffers of their handles, and that nothing is written outside them
where there is room for the text of every record that is appended. -/

namespace ApueCourse.Db

open Memory Program Transition State

namespace Buffered

/-! The checks of what is read keep the writes within the buffers, so that the programs are those
without them. -/

theorem bind_congr {α β : Type} {middle : α → Prop} {prog : P α} {f g : α → P β}
    (hprog : Stays .rewind middle prog) (hfg : ∀ a, middle a → f a = g a) :
    prog >>= f = prog >>= g :=
  Prog.Always.bind_congr hprog hfg

theorem touch_eq {buffer : Buffer} {n : Nat} (hn : n ≤ buffer.size) : touch buffer n = .ret () :=
  if_pos hn

theorem readdat_eq {db : DB} (hloaded : db.Loaded) : _db_readdat db = Db._db_readdat db := by
  rw [_db_readdat, touch_eq hloaded.datbuf]
  rfl

theorem dodelete_eq {db : DB} (hloaded : db.Loaded) : _db_dodelete db = Db._db_dodelete db := by
  rw [_db_dodelete, touch_eq hloaded.blanks, touch_eq hloaded.idxbuf]
  rfl

theorem fetch_eq (fuel : Nat) (db : DB) (key : List Byte) :
    db_fetch fuel db key = Db.db_fetch fuel db key := by
  rw [db_fetch, Db.db_fetch]
  apply bind_congr (stays_find_and_lock fuel db key false)
  intro a hloaded
  dsimp only
  split
  · rfl
  · rename_i hrc
    rw [readdat_eq (hloaded hrc)]

theorem delete_eq (fuel : Nat) (db : DB) (key : List Byte) :
    db_delete fuel db key = Db.db_delete fuel db key := by
  rw [db_delete, Db.db_delete]
  apply bind_congr (stays_find_and_lock fuel db key true)
  intro a hloaded
  dsimp only
  split
  · rename_i hrc
    rw [dodelete_eq (hloaded (by omega))]
  · rfl

theorem storeOld_eq {db : DB} (hloaded : db.Loaded) (key data : List Byte) (flag : Int) :
    storeOld db key data flag = Db.storeOld db key data flag := by
  rw [storeOld, Db.storeOld, dodelete_eq hloaded]

theorem store_eq (fuel : Nat) (db : DB) (key data : List Byte) (flag : Int) :
    db_store fuel db key data flag = Db.db_store fuel db key data flag := by
  rw [db_store, Db.db_store]
  split
  · rfl
  dsimp only
  split
  · rfl
  apply bind_congr (stays_find_and_lock fuel db key true)
  intro a hloaded
  split
  · rfl
  · rename_i hrc
    rw [storeOld_eq (hloaded hrc)]

theorem nextrec_eq (fuel : Nat) (db : DB) : db_nextrec fuel db = Db.db_nextrec fuel db := by
  rw [db_nextrec, Db.db_nextrec]
  congr 1
  funext _
  apply bind_congr (stays_nextrecLoop fuel db)
  intro a hloaded
  dsimp only
  split
  · rename_i hfound
    rw [readdat_eq (hloaded hfound)]
  · rfl

theorem prog_eq (fuel : Nat) (call : Call) (db : Option DB) :
    prog fuel call db = call.prog fuel db := by
  cases call with
  | «open» flags => rfl
  | fetch key =>
      cases db with
      | none => rfl
      | some db => rw [prog, Call.prog, fetch_eq]
  | store key data flag =>
      cases db with
      | none => rfl
      | some db => rw [prog, Call.prog, store_eq]
  | delete key =>
      cases db with
      | none => rfl
      | some db => rw [prog, Call.prog, delete_eq]
  | rewind =>
      cases db with
      | none => rfl
      | some db => rfl
  | nextrec =>
      cases db with
      | none => rfl
      | some db => rw [prog, Call.prog, nextrec_eq]

/-! The processes. -/

variable {Pid : Type} [DecidableEq Pid]

inductive Step (fuel : Nat) : State Pid → Event Pid → State Pid → Prop
  | invoke {s : State Pid} {p : Pid} {call : Call} {db : Option DB}
      {prog : P (Result × Option DB)} (hidle : s.proc p = .idle db)
      (hprog : Buffered.prog fuel call db = some prog) :
      Step fuel s (.invoke p call (returned prog))
        { world := leave p s.world prog
          proc := Function.update s.proc p (settle call [] prog) }
  | sys {s : State Pid} {p : Pid} {call : Call} {made : List Op} {op : Op}
      {next : op.Res → P (Result × Option DB)} {r : op.Res} {world : World Pid}
      (hbusy : s.proc p = .busy call made (.call op next))
      (hsys : World.Sys p op s.world r world) :
      Step fuel s (.sys p call op (returned (next r)))
        { world := leave p world (next r)
          proc := Function.update s.proc p (settle call (made ++ [op]) (next r)) }

variable (Pid) in
def system (fuel : Nat) : System (State Pid) (Event Pid) where
  Initial := Quiet
  Step := Step fuel

/-- The steps are those of the system without the buffers. -/
theorem step_iff {fuel : Nat} {s t : State Pid} {event : Event Pid} :
    Step fuel s event t ↔ State.Step fuel s event t := by
  constructor
  · intro hstep
    cases hstep with
    | invoke hidle hprog =>
        rw [prog_eq] at hprog
        exact .invoke hidle hprog
    | sys hbusy hsys => exact .sys hbusy hsys
  · intro hstep
    cases hstep with
    | invoke hidle hprog =>
        rw [← prog_eq] at hprog
        exact .invoke hidle hprog
    | sys hbusy hsys => exact .sys hbusy hsys

/-- The text of the index record that a `db_store` is about to append fits `idxbuf`: `db_store` has
just asked for the size of the data file. -/
def RoomForText (s : State Pid) : Event Pid → Prop
  | .sys _ (.store key data _) (.size .dat) _ =>
      ((idxText key (s.world.content .dat).length (data.length + 1)).length : Int) ≤ IDXLEN_MAX + 1
  | _ => True

/-- A process stays within its buffers from where it is. -/
def Inside : Proc → Prop
  | .idle _ => True
  | .busy call _ prog => Stays call (fun _ => True) prog
  | .dead _ reason => reason ≠ .fault

theorem inside_settle {call : Call} {made : List Op} {prog : P (Result × Option DB)}
    (hprog : Stays call (fun _ => True) prog) : Inside (settle call made prog) := by
  cases prog with
  | ret a => exact trivial
  | stop reason => exact hprog
  | call op next => exact hprog

/-- The answer to a system call is one that leaves room. -/
theorem room_of_sys {s : State Pid} {p : Pid} {call : Call} {op : Op} {r : op.Res}
    {world : World Pid} {result : Option Result} (hsys : World.Sys p op s.world r world)
    (hroom : RoomForText s (.sys p call op result)) : Room call op r := by
  cases call with
  | store key data flag =>
      cases hsys with
      | @size _ file =>
          cases file with
          | idx => exact trivial
          | dat => exact hroom
      | opened | refused | lockw | unlock | read | write | writeTooBig | append | appendTooBig =>
          exact trivial
  | «open» | fetch | delete | rewind | nextrec => exact trivial

theorem inside_step {fuel : Nat} {s t : State Pid} {event : Event Pid}
    (hs : ∀ p, Inside (s.proc p)) (hstep : Step fuel s event t) (hroom : RoomForText s event) :
    ∀ p, Inside (t.proc p) := by
  have hupdate {p : Pid} {proc : Proc} (hproc : Inside proc) (q : Pid) :
      Inside (Function.update s.proc p proc q) := by
    rw [Function.update_apply]
    split
    · exact hproc
    · exact hs q
  cases hstep with
  | invoke hidle hprog => exact hupdate (inside_settle (stays_prog hprog))
  | @sys p call made op next r world hbusy hsys =>
      have hprog := hs p
      rw [hbusy] at hprog
      exact hupdate (inside_settle (hprog r (room_of_sys hsys hroom)))

/-- A process that is about to make the first step of a call. -/
def rewinding : State Unit where
  world := noFiles
  proc _ := .idle (some (newDB created))

/-- A call whose program stops when it is run from where the files are brings its process to
that. -/
theorem exists_run_dead (fuel : Nat) {p : Pid} {call : Call} {reason : Stop}
    {prog : P (Result × Option DB)} {w finish : World Pid} {made : List (Prog.Made Op Op.Res)}
    (hruns : prog.Runs (World.Sys p) w made (.error reason) finish) (s : State Pid)
    (before : List Op) (hproc : s.proc p = settle call before prog)
    (hworld : s.world = leave p w prog) :
    ∃ events t, (system Pid fuel).Run s events t ∧ t.proc p = .dead call reason := by
  induction prog generalizing w made s before with
  | ret a =>
      obtain ⟨-, houtcome, -⟩ := hruns.of_ret
      cases houtcome
  | stop reason' =>
      obtain ⟨-, houtcome, -⟩ := hruns.of_stop
      cases houtcome
      exact ⟨[], s, .refl s, hproc⟩
  | call op next ih =>
      obtain ⟨r, middle, rest, -, hsys, hnext⟩ := hruns.of_call
      have hsys' : World.Sys p op s.world r middle := hworld ▸ hsys
      let s' : State Pid :=
        { world := leave p middle (next r)
          proc := Function.update s.proc p (settle call (before ++ [op]) (next r)) }
      have hstep : Step fuel s (.sys p call op (returned (next r))) s' := .sys hproc hsys'
      obtain ⟨events, t, hrun, hdead⟩ :=
        ih r hnext s' (before ++ [op]) (Function.update_self ..) rfl
      exact ⟨_, t, .cons hstep hrun, hdead⟩

/-- Whether a `db_store` of one byte in a new database faults. -/
def storeFaults (key : List Byte) : Bool :=
  match exec (db_store 1 (db_rewind (newDB created)) key [120] DB_INSERT) fresh.world with
  | .error .fault => true
  | _ => false

theorem exists_run_of_storeFaults {key : List Byte} (hfaults : storeFaults key) :
    ∃ events t, (system Unit 1).Run fresh events t ∧
      t.proc () = .dead (.store key [120] DB_INSERT) .fault := by
  have hexec : exec (db_store 1 (db_rewind (newDB created)) key [120] DB_INSERT) fresh.world =
      .error .fault := by
    rw [storeFaults] at hfaults
    split at hfaults
    · assumption
    · cases hfaults
  obtain ⟨made, finish, hruns⟩ := Prog.runs_of_error World.sys_act hexec
  let called : P (Result × Option DB) :=
    db_store 1 (db_rewind (newDB created)) key [120] DB_INSERT >>= fun a =>
      Prog.ret (.code a.1, some a.2)
  let begun : State Unit :=
    { world := leave () fresh.world called
      proc := Function.update fresh.proc () (settle (.store key [120] DB_INSERT) [] called) }
  have hprog : prog 1 (.store key [120] DB_INSERT) (some (db_rewind (newDB created))) =
      some called := rfl
  have hstep : Step 1 fresh (.invoke () (.store key [120] DB_INSERT) (returned called)) begun :=
    .invoke rfl hprog
  have hcalled : called.Runs (World.Sys ()) fresh.world made (.error .fault) finish :=
    hruns.bind_error _
  obtain ⟨events, t, hrun, hdead⟩ := exists_run_dead 1 hcalled begun [] rfl rfl
  exact ⟨_, t, .cons hstep hrun, hdead⟩

theorem storeFaults_long : storeFaults (List.replicate 1021 107) := by
  decide +kernel

end Buffered

end ApueCourse.Db
