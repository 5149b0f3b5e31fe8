import ApueCourse.Print.Client

/-! Which jobs the daemon answers for. -/

namespace ApueCourse.Print.Client

open Memory Program Function

abbrev Event := Prog.Made Op Op.Res

/-! What a run of the thread has done. -/

inductive Mark
  | created
  | controlled
  | answered
  | queued
  | removed
  | kept
  deriving DecidableEq

/-- The data file has been created, the control file written whole, the client told that its job
is accepted, the job queued, a file removed, or not removed. -/
def mark : Event → Option Mark
  | ⟨.creat .data _, some true⟩ => some .created
  | ⟨.write .reqs _ _, some (.ok n)⟩ => if n = REQSZ then some .controlled else none
  | ⟨.writen res, _⟩ => if res.retcode = 0 then some .answered else none
  | ⟨.add_job _ _, _⟩ => some .queued
  | ⟨.unlink _ _, some true⟩ => some .removed
  | ⟨.unlink _ _, _⟩ => some .kept
  | _ => none

def marks (made : List Event) : List Mark := made.filterMap mark

/-- The bytes that an event has brought from the client. -/
def chunk : Event → List Byte
  | ⟨.tread _ _, some (.ok bytes)⟩ => bytes
  | _ => []

def received (made : List Event) : List Byte := (made.map chunk).flatten

theorem marks_append (first second : List Event) :
    marks (first ++ second) = marks first ++ marks second :=
  List.filterMap_append

theorem received_append (first second : List Event) :
    received (first ++ second) = received first ++ received second := by
  rw [received, received, received, List.map_append, List.flatten_append]

section Runs

variable {α β : Type} {op : Op} {f : op.Answer → P β} {w w' : World} {made : List Event}

/-- A call that comes back, or is where the thread ends. -/
theorem runs_ask {outcome : Except Stop β} (hrun : (ask op >>= f).Runs Sys w made outcome w') :
    (made = [⟨op, none⟩] ∧ op.CancellationPoint ∧ outcome = .error .cancelled ∧ w' = w) ∨
      ∃ a middle rest, made = ⟨op, some a⟩ :: rest ∧ Sys op w (some a) middle ∧
        (f a).Runs Sys middle rest outcome w' := by
  obtain ⟨r, middle, rest, rfl, hsys, hnext⟩ := hrun.of_call
  have hcases : ∀ answer : Option op.Answer, r = answer →
      (⟨op, r⟩ :: rest = [(⟨op, none⟩ : Event)] ∧ op.CancellationPoint ∧
        outcome = .error .cancelled ∧ w' = w) ∨
      ∃ a middle' rest', (⟨op, r⟩ : Event) :: rest = ⟨op, some a⟩ :: rest' ∧
        Sys op w (some a) middle' ∧ (f a).Runs Sys middle' rest' outcome w' := by
    intro answer hr
    subst hr
    cases r with
    | none =>
        obtain ⟨rfl, rfl, rfl⟩ := hnext.of_stop
        cases hsys with
        | cancelled hpoint => exact .inl ⟨rfl, hpoint, rfl, rfl⟩
    | some a => exact .inr ⟨a, middle, rest, rfl, hsys, hnext⟩
  exact hcases r rfl

theorem sys_stream {r : op.Res} (hsys : Sys op w r w') : w.stream = chunk ⟨op, r⟩ ++ w'.stream := by
  cases hsys with
  | data hne hle hstream => exact hstream
  | cancelled => cases op <;> rfl
  | eof | noData | get_newjobno | creat | noCreat | write | noWrite | close | unlink | noUnlink
    | writen | add_job => rfl

/-- The bytes come off the front of the stream. -/
theorem runs_stream {prog : P α} {outcome : Except Stop α}
    (hrun : prog.Runs Sys w made outcome w') : w.stream = received made ++ w'.stream := by
  induction hrun with
  | ret | stop => rfl
  | call hsys _ ih =>
      rw [sys_stream hsys, ih, ← List.append_assoc]
      rfl

/-- The header is read without another effect. -/
theorem runs_treadn {timout turns nleft : Nat} {bytes : List Byte}
    {outcome : Except Stop (Except Errno (List Byte))}
    (hrun : (treadn timout turns nleft bytes).Runs Sys w made outcome w') :
    marks made = [] ∧ w'.file = w.file ∧ w'.nextjob = w.nextjob ∧
      (outcome = .error .cancelled ∨ ∃ result, outcome = .ok result ∧
        ∀ all, result = .ok all → all = bytes ++ received made) := by
  induction turns generalizing nleft bytes w made with
  | zero =>
      obtain ⟨rfl, rfl, rfl⟩ := hrun.of_ret
      refine ⟨rfl, rfl, rfl, .inr ⟨_, rfl, fun all hall => ?_⟩⟩
      cases hall
      exact (List.append_nil _).symm
  | succ turns ih =>
      rw [treadn] at hrun
      split at hrun
      · obtain ⟨rfl, rfl, rfl⟩ := hrun.of_ret
        refine ⟨rfl, rfl, rfl, .inr ⟨_, rfl, fun all hall => ?_⟩⟩
        cases hall
        exact (List.append_nil _).symm
      rcases runs_ask hrun with ⟨rfl, -, rfl, rfl⟩ | ⟨answer, middle, rest, rfl, hsys, hnext⟩
      · exact ⟨rfl, rfl, rfl, .inl rfl⟩
      · cases hsys with
        | data hne hle hstream =>
            dsimp only at hnext
            rw [if_neg hne] at hnext
            obtain ⟨hmarks, hfile, hnextjob, hend⟩ := ih hnext
            refine ⟨hmarks, hfile, hnextjob, hend.imp_right ?_⟩
            rintro ⟨result, rfl, hall⟩
            refine ⟨result, rfl, fun all h => ?_⟩
            rw [hall all h, List.append_assoc]
            rfl
        | eof hstream =>
            dsimp only at hnext
            rw [if_pos rfl] at hnext
            obtain ⟨rfl, rfl, rfl⟩ := hnext.of_ret
            refine ⟨rfl, rfl, rfl, .inr ⟨_, rfl, fun all hall => ?_⟩⟩
            cases hall
            exact (List.append_nil _).symm
        | noData =>
            dsimp only at hnext
            split at hnext
            · obtain ⟨rfl, rfl, rfl⟩ := hnext.of_ret
              exact ⟨rfl, rfl, rfl, .inr ⟨_, rfl, fun all hall => by cases hall⟩⟩
            · obtain ⟨rfl, rfl, rfl⟩ := hnext.of_ret
              refine ⟨rfl, rfl, rfl, .inr ⟨_, rfl, fun all hall => ?_⟩⟩
              cases hall
              exact (List.append_nil _).symm

/-- A call that neither a file nor the counter sees. -/
theorem runs_quiet {outcome : Except Stop β} (hmark : ∀ r, mark ⟨op, r⟩ = none)
    (hchunk : ∀ r, chunk ⟨op, r⟩ = []) (hsame : ∀ r w'', Sys op w r w'' → w'' = w)
    (hrun : (ask op >>= f).Runs Sys w made outcome w') :
    (outcome = .error .cancelled ∧ marks made = [] ∧ w' = w) ∨
      ∃ a rest, marks made = marks rest ∧ received made = received rest ∧
        (f a).Runs Sys w rest outcome w' := by
  rcases runs_ask hrun with ⟨rfl, -, houtcome, hw⟩ | ⟨a, middle, rest, rfl, hsys, hnext⟩
  · exact .inl ⟨houtcome, List.filterMap_cons_none (hmark none), hw⟩
  · obtain rfl := hsame _ _ hsys
    refine .inr ⟨a, rest, List.filterMap_cons_none (hmark (some a)), ?_, hnext⟩
    have hnone : chunk ⟨op, some a⟩ = [] := hchunk (some a)
    show chunk ⟨op, some a⟩ ++ received rest = received rest
    exact congrArg (· ++ received rest) hnone

theorem runs_close {f : Unit → P β} {outcome : Except Stop β}
    (hrun : (ask .close >>= f).Runs Sys w made outcome w') :
    (outcome = .error .cancelled ∧ marks made = [] ∧ w' = w) ∨
      ∃ rest, marks made = marks rest ∧ received made = received rest ∧
        (f ()).Runs Sys w rest outcome w' := by
  refine (runs_quiet (fun _ => rfl) (fun _ => rfl) ?_ hrun).imp_right fun ⟨_, hrest⟩ => hrest
  intro r w'' hsys
  cases hsys with
  | cancelled | close => rfl

/-- A refusal is no acceptance. -/
theorem runs_refusal {errno : Errno} {jobid : Option Int} {f : Unit → P β}
    {outcome : Except Stop β}
    (hrun : (ask (.writen (refusal errno jobid)) >>= f).Runs Sys w made outcome w') :
    (outcome = .error .cancelled ∧ marks made = [] ∧ w' = w) ∨
      ∃ rest, marks made = marks rest ∧ received made = received rest ∧
        (f ()).Runs Sys w rest outcome w' := by
  have hmark : ∀ r, mark ⟨.writen (refusal errno jobid), r⟩ = none := fun r => if_neg errno.2
  refine (runs_quiet hmark (fun _ => rfl) ?_ hrun).imp_right fun ⟨_, hrest⟩ => hrest
  intro r w'' hsys
  cases hsys with
  | cancelled | writen => rfl

/-- A file that is there is removed, or kept with the failure in the marks. -/
theorem runs_unlink {dir : Dir} {jobid : Int} {f : Bool → P β} {outcome : Except Stop β}
    (hrun : (ask (.unlink dir jobid) >>= f).Runs Sys w made outcome w') :
    ∃ removed rest, marks made = (if removed then .removed else .kept) :: marks rest ∧
      (f removed).Runs Sys (if removed then w.setFile dir jobid none else w) rest outcome w' := by
  rcases runs_ask hrun with ⟨-, hpoint, -⟩ | ⟨a, middle, rest, rfl, hsys, hnext⟩
  · exact hpoint.elim
  · cases hsys with
    | unlink => exact ⟨true, rest, rfl, hnext⟩
    | noUnlink => exact ⟨false, rest, rfl, hnext⟩

end Runs

/-- What a thread leaves that has created the data file and does not queue the job. -/
inductive Dropped {α : Type} (jobid : Int) (w : World) (ms : List Mark) : Except Stop α → Prop
  | exit (hqueued : .queued ∉ ms) (hanswered : .answered ∉ ms) (hcontrolled : .controlled ∉ ms)
      (hkept : .kept ∉ ms ↔ ∀ dir, w.file dir jobid = none) :
      Dropped jobid w ms (.error .exit)
  | cancelled (hqueued : .queued ∉ ms) (hfile : w.file .data jobid ≠ none) :
      Dropped jobid w ms (.error .cancelled)

namespace Dropped

variable {α β : Type} {jobid : Int} {w : World} {ms : List Mark}

theorem created {outcome : Except Stop α} (h : Dropped jobid w ms outcome) :
    Dropped jobid w (.created :: ms) outcome := by
  cases h with
  | exit hqueued hanswered hcontrolled hkept =>
      refine .exit ?_ ?_ ?_ ?_ <;> simpa
  | cancelled hqueued hfile => exact .cancelled (by simpa) hfile

theorem bind {reason : Stop} (h : Dropped (α := α) jobid w ms (.error reason)) :
    Dropped (α := β) jobid w ms (.error reason) := by
  cases h with
  | exit hqueued hanswered hcontrolled hkept => exact .exit hqueued hanswered hcontrolled hkept
  | cancelled hqueued hfile => exact .cancelled hqueued hfile

end Dropped

theorem World.setFile_same (w : World) (dir : Dir) (jobid : Int)
    (content : Option (List Byte)) : (w.setFile dir jobid content).file dir jobid = content := by
  show update w.file dir (update (w.file dir) jobid content) dir jobid = content
  rw [update_self, update_self]

theorem World.setFile_ne (w : World) {dir dir' : Dir} (hne : dir' ≠ dir) (jobid : Int)
    (content : Option (List Byte)) :
    (w.setFile dir jobid content).file dir' = w.file dir' :=
  update_of_ne hne _ _

section Jobs

variable {α : Type} {w w' : World} {made : List Event} {jobid : Int}

/-- The end of the error exits that have no file to remove. -/
theorem runs_refuse {errno : Errno} {number : Option Int} {outcome : Except Stop α}
    (hrun : (do ask (.writen (refusal errno number))
                .stop .exit : P α).Runs Sys w made outcome w') :
    marks made = [] ∧ w' = w := by
  rcases runs_refusal hrun with ⟨-, hmarks, hw⟩ | ⟨rest, hmarks, -, hrun⟩
  · exact ⟨hmarks, hw⟩
  · obtain ⟨rfl, -, hw⟩ := hrun.of_stop
    exact ⟨hmarks, hw⟩

/-- The end of the error exits that have only the data file to remove. -/
theorem runs_discard {errno : Errno} {number : Option Int} {outcome : Except Stop α}
    (hdata : w.file .data jobid ≠ none) (hreqs : w.file .reqs jobid = none)
    (hrun : (do ask (.writen (refusal errno number))
                let _ ← ask (.unlink .data jobid)
                .stop .exit : P α).Runs Sys w made outcome w') :
    Dropped jobid w' (marks made) outcome := by
  rcases runs_refusal hrun with ⟨rfl, hmarks, rfl⟩ | ⟨rest, hmarks, -, hrun⟩ <;> rw [hmarks]
  · exact .cancelled (List.not_mem_nil) hdata
  · obtain ⟨removed, last, hmarks, hrun⟩ := runs_unlink hrun
    obtain ⟨rfl, rfl, rfl⟩ := hrun.of_stop
    rw [hmarks]
    cases removed with
    | false =>
        refine .exit (by decide) (by decide) (by decide) ⟨fun h => ?_, fun h => ?_⟩
        · exact absurd (List.mem_singleton_self _) h
        · exact absurd (h .data) hdata
    | true =>
        refine .exit (by decide) (by decide) (by decide) ⟨fun _ dir => ?_, fun _ => by decide⟩
        cases dir with
        | data => exact w.setFile_same ..
        | reqs => exact (congrFun (w.setFile_ne (by decide) ..) _).trans hreqs

/-- A `write` adds what it says to the file, and the other files stay. -/
theorem runs_write {dir : Dir} {bytes content : List Byte} {f : Except Errno Nat → P α}
    {outcome : Except Stop α} (hfile : w.file dir jobid = some content)
    (hrun : (ask (.write dir jobid bytes) >>= f).Runs Sys w made outcome w') :
    (outcome = .error .cancelled ∧ marks made = [] ∧ w' = w) ∨
      ∃ nw middle rest, made = ⟨.write dir jobid bytes, some nw⟩ :: rest ∧
        middle.stream = w.stream ∧ (∀ dir', dir' ≠ dir → middle.file dir' = w.file dir') ∧
        middle.file dir jobid ≠ none ∧
        (nw.toOption = some bytes.length → middle.file dir jobid = some (content ++ bytes)) ∧
        (f nw).Runs Sys middle rest outcome w' := by
  rcases runs_ask hrun with ⟨rfl, -, rfl, rfl⟩ | ⟨nw, middle, rest, rfl, hsys, hnext⟩
  · exact .inl ⟨rfl, by cases dir <;> rfl, rfl⟩
  refine .inr ⟨nw, middle, rest, rfl, ?_⟩
  cases hsys with
  | @write _ _ _ _ content' n hfile' hn =>
      obtain rfl : content = content' := Option.some.inj (hfile.symm.trans hfile')
      refine ⟨rfl, fun dir' hne => w.setFile_ne hne .., ?_, fun hall => ?_, hnext⟩
      · rw [World.setFile_same]
        exact Option.some_ne_none _
      · obtain rfl : n = bytes.length := Option.some.inj hall
        rw [World.setFile_same, List.take_length]
  | noWrite =>
      refine ⟨rfl, fun _ _ => rfl, ?_, fun hall => ?_, hnext⟩
      · rw [hfile]
        exact Option.some_ne_none _
      · cases hall

/-- The loop stores what it reads, or the job is dropped. -/
theorem runs_receive {turns : Nat} {buf : Block} {first : Bool} {flags : Nat}
    {content : List Byte} {outcome : Except Stop Nat} (hdata : w.file .data jobid = some content)
    (hreqs : w.file .reqs jobid = none) (hturns : w.stream.length < turns)
    (hrun : (receive jobid turns buf first flags).Runs Sys w made outcome w') :
    (∃ flags', outcome = .ok flags' ∧ marks made = [] ∧ w'.file .reqs jobid = none ∧
      w'.file .data jobid = some (content ++ received made)) ∨
    Dropped jobid w' (marks made) outcome := by
  induction turns generalizing w made buf first flags content with
  | zero => cases hturns
  | succ turns ih =>
      rw [receive] at hrun
      rcases runs_ask hrun with ⟨rfl, -, rfl, rfl⟩ | ⟨answer, middle, rest, rfl, hsys, hnext⟩
      · exact .inr (.cancelled List.not_mem_nil (by simp [hdata]))
      cases hsys with
      | noData =>
          obtain ⟨rfl, rfl, rfl⟩ := hnext.of_ret
          exact .inl ⟨flags, rfl, rfl, hreqs, hdata.trans (by simp [received, chunk])⟩
      | eof =>
          obtain ⟨rfl, rfl, rfl⟩ := hnext.of_ret
          exact .inl ⟨flags, rfl, rfl, hreqs, hdata.trans (by simp [received, chunk])⟩
      | @data _ _ _ bytes left hne hle hstream =>
          dsimp only at hnext
          rw [if_neg hne] at hnext
          have hdata' : ({ w with stream := left } : World).file .data jobid = some content := hdata
          rcases runs_write hdata' hnext with
            ⟨rfl, hmarks, rfl⟩ | ⟨nw, middle, rest, rfl, hstream', hsame, hthere, hall, hnext⟩
          · refine .inr (.cancelled ?_ (by simp [hdata]))
            exact hmarks ▸ List.not_mem_nil
          have hmarks : marks (⟨.tread IOBUFSZ 20, some (.ok bytes)⟩ ::
              ⟨.write .data jobid bytes, some nw⟩ :: rest) = marks rest := rfl
          have hreqs' : middle.file .reqs jobid = none :=
            (congrFun (hsame .reqs (by decide)) jobid).trans hreqs
          rw [hmarks]
          split at hnext
          · rcases runs_close hnext with ⟨rfl, hmarks, rfl⟩ | ⟨last, hmarks, -, hnext⟩
            · exact .inr (.cancelled (hmarks ▸ List.not_mem_nil) hthere)
            · exact .inr (hmarks ▸ runs_discard hthere hreqs' hnext)
          case isFalse hwhole =>
            have hshort : middle.stream.length < turns := by
              have hlen := congrArg List.length hstream
              have hpos := List.length_pos_iff.mpr hne
              rw [List.length_append] at hlen
              rw [hstream']
              show left.length < turns
              omega
            rcases ih (hall (not_not.mp hwhole)) hreqs' hshort hnext with
              ⟨flags', rfl, hmarks, hreqs'', hdata'⟩ | hdropped
            · refine .inl ⟨flags', rfl, hmarks, hreqs'', hdata'.trans ?_⟩
              rw [List.append_assoc]
              rfl
            · exact .inr hdropped

/-- The end of the error exit that has both files to remove. -/
theorem runs_discard_both {errno : Errno} {number : Option Int} {outcome : Except Stop α}
    (hdata : w.file .data jobid ≠ none) (hreqs : w.file .reqs jobid ≠ none)
    (hrun : (do ask (.writen (refusal errno number))
                let _ ← ask (.unlink .reqs jobid)
                let _ ← ask (.unlink .data jobid)
                .stop .exit : P α).Runs Sys w made outcome w') :
    Dropped jobid w' (marks made) outcome := by
  rcases runs_refusal hrun with ⟨rfl, hmarks, rfl⟩ | ⟨rest, hmarks, -, hrun⟩ <;> rw [hmarks]
  · exact .cancelled (List.not_mem_nil) hdata
  obtain ⟨removed, rest, hmarks, hrun⟩ := runs_unlink hrun
  obtain ⟨removed', last, hmarks', hrun⟩ := runs_unlink hrun
  obtain ⟨rfl, rfl, rfl⟩ := hrun.of_stop
  rw [hmarks, hmarks']
  have hother : ∀ content, (w.setFile .reqs jobid content).file .data jobid = w.file .data jobid :=
    fun content => congrFun (w.setFile_ne (by decide) ..) _
  have hother' : ∀ w' : World, (w'.setFile .data jobid none).file .reqs jobid = w'.file .reqs jobid :=
    fun w' => congrFun (w'.setFile_ne (by decide) ..) _
  cases removed <;> cases removed'
  case true.true =>
    refine .exit (by decide) (by decide) (by decide) ⟨fun _ dir => ?_, fun _ => by decide⟩
    cases dir with
    | data => exact World.setFile_same ..
    | reqs => exact (hother' _).trans (World.setFile_same ..)
  case true.false =>
    refine .exit (by decide) (by decide) (by decide) ⟨fun h => absurd h (by decide), fun h => ?_⟩
    exact absurd ((hother none).symm.trans (h .data)) hdata
  case false.true =>
    refine .exit (by decide) (by decide) (by decide) ⟨fun h => absurd h (by decide), fun h => ?_⟩
    exact absurd ((hother' w).symm.trans (h .reqs)) hreqs
  case false.false =>
    refine .exit (by decide) (by decide) (by decide) ⟨fun h => absurd h (by decide), fun h => ?_⟩
    exact absurd (h .data) hdata

theorem mark_control {bytes : List Byte} {nw : Except Errno Nat} :
    mark ⟨.write .reqs jobid bytes, some nw⟩ =
      if nw.toOption = some REQSZ then some .controlled else none := by
  cases nw with
  | error => rfl
  | ok n => simp [mark, Except.toOption]

theorem runs_accept {req : PrintReq} {content : List Byte} {outcome : Except Stop Unit}
    (hdata : w.file .data jobid = some content) (hreqs : w.file .reqs jobid = none)
    (hrun : (accept req jobid).Runs Sys w made outcome w') :
    (outcome = .ok () ∧ marks made = [.controlled, .answered, .queued] ∧ received made = [] ∧
      w'.file .data jobid = some content) ∨
    Dropped jobid w' (marks made) outcome := by
  have hthere : w.file .data jobid ≠ none := by simp [hdata]
  rw [accept] at hrun
  rcases runs_close hrun with ⟨rfl, hmarks, rfl⟩ | ⟨rest, hmarks, hreceived, hrun⟩ <;> rw [hmarks]
  · exact .inr (.cancelled List.not_mem_nil hthere)
  rw [hreceived]
  rcases runs_ask hrun with ⟨rfl, -, rfl, rfl⟩ | ⟨created, middle, rest, rfl, hsys, hrun⟩
  · exact .inr (.cancelled List.not_mem_nil hthere)
  cases hsys with
  | noCreat =>
      rw [if_pos rfl] at hrun
      have hmarks : marks (⟨.creat .reqs jobid, some false⟩ :: rest) = marks rest := rfl
      rw [hmarks]
      exact .inr (runs_discard hthere hreqs hrun)
  | creat =>
      have hdata' : (w.setFile .reqs jobid (some [])).file .data jobid = some content :=
        (congrFun (w.setFile_ne (by decide) ..) _).trans hdata
      rw [if_neg Bool.noConfusion] at hrun
      rcases runs_write (w.setFile_same ..) hrun with
        ⟨rfl, hmarks, rfl⟩ | ⟨nw, middle, rest, rfl, -, hsame, hthere', -, hrun⟩
      · refine .inr (.cancelled ?_ (by simp [hdata']))
        exact hmarks ▸ List.not_mem_nil
      have hdata'' : middle.file .data jobid = some content :=
        (congrFun (hsame .data (by decide)) jobid).trans hdata'
      split at hrun
      case isTrue hpart =>
        have hnone : marks (⟨.creat .reqs jobid, some true⟩ ::
            ⟨.write .reqs jobid req.bytes, some nw⟩ :: rest) = marks rest := by
          refine (List.filterMap_cons_none ?_).trans (List.filterMap_cons_none ?_)
          · rfl
          · exact mark_control.trans (if_neg hpart)
        rw [hnone]
        have hthere'' : middle.file .data jobid ≠ none := by simp [hdata'']
        rcases runs_close hrun with ⟨rfl, hmarks, rfl⟩ | ⟨last, hmarks, -, hrun⟩
        · exact .inr (.cancelled (hmarks ▸ List.not_mem_nil) hthere'')
        · exact .inr (hmarks ▸ runs_discard_both hthere'' hthere' hrun)
      case isFalse hwhole =>
        have hcontrol : marks (⟨.creat .reqs jobid, some true⟩ ::
            ⟨.write .reqs jobid req.bytes, some nw⟩ :: rest) = .controlled :: marks rest := by
          refine (List.filterMap_cons_none rfl).trans (List.filterMap_cons_some ?_)
          exact mark_control.trans (if_pos (not_not.mp hwhole))
        have hreceived : received (⟨.creat .reqs jobid, some true⟩ ::
            ⟨.write .reqs jobid req.bytes, some nw⟩ :: rest) = received rest := rfl
        have hthere'' : middle.file .data jobid ≠ none := by simp [hdata'']
        rw [hcontrol, hreceived]
        rcases runs_close hrun with ⟨rfl, hmarks, rfl⟩ | ⟨rest, hmarks, hreceived, hrun⟩ <;>
          rw [hmarks]
        · exact .inr (.cancelled (by decide) hthere'')
        rw [hreceived]
        rcases runs_ask hrun with ⟨rfl, -, rfl, rfl⟩ | ⟨_, _, rest, rfl, hsys, hrun⟩
        · have hmarks : marks [⟨.writen ⟨0, some jobid, .requestId jobid⟩, none⟩] = [.answered] :=
            rfl
          rw [hmarks]
          exact .inr (.cancelled (by decide) hthere'')
        cases hsys with
        | writen =>
            obtain ⟨r, _, rest, rfl, hsys, hrun⟩ := hrun.of_call
            cases hsys with
            | cancelled hpoint => exact hpoint.elim
            | add_job =>
                obtain ⟨rfl, rfl, rfl⟩ := hrun.of_ret
                exact .inl ⟨rfl, rfl, rfl, hdata''⟩

theorem runs_store {turns : Nat} {buf : Block} {req : PrintReq} {outcome : Except Stop Unit}
    (hdata : w.file .data jobid = some []) (hreqs : w.file .reqs jobid = none)
    (hturns : w.stream.length < turns)
    (hrun : (store turns buf req jobid).Runs Sys w made outcome w') :
    (outcome = .ok () ∧ marks made = [.controlled, .answered, .queued] ∧
      w'.file .data jobid = some (received made)) ∨
    Dropped jobid w' (marks made) outcome := by
  rcases hrun.of_bind with ⟨flags, middle, first, second, rfl, hfirst, hsecond⟩ | ⟨reason, rfl, hstop⟩
  · rcases runs_receive hdata hreqs hturns hfirst with
      ⟨_, -, hmarks, hreqs', hdata'⟩ | hdropped
    · rw [marks_append, received_append, hmarks, List.nil_append]
      rcases runs_accept hdata' hreqs' hsecond with ⟨rfl, hmarks, hreceived, hdata''⟩ | hdropped
      · refine .inl ⟨rfl, hmarks, ?_⟩
        rw [hdata'', hreceived, List.append_nil, List.nil_append]
      · exact .inr hdropped
    · cases hdropped
  · rcases runs_receive hdata hreqs hturns hstop with ⟨_, houtcome, -⟩ | hdropped
    · cases houtcome
    · exact .inr hdropped.bind

end Jobs

/-- The number that the job of a thread gets. -/
def number (w : World) : Int := (Print.get_newjobno w.nextjob).1

/-- The ways in which a thread can end: without a file, with the job dropped, or with the job
accepted and all that has been received behind the header in its data file. -/
theorem client_thread_ends {turns : Nat} {buf : Block} {w w' : World} {made : List Event}
    {outcome : Except Stop Unit} (hfresh : ∀ dir, w.file dir (number w) = none)
    (hturns : w.stream.length < turns)
    (hrun : (client_thread turns buf).Runs Sys w made outcome w') :
    (marks made = [] ∧ ∀ dir, w'.file dir (number w) = none) ∨
    (outcome = .ok () ∧ marks made = [.created, .controlled, .answered, .queued] ∧
      REQSZ ≤ (received made).length ∧
      w'.file .data (number w) = some ((received made).drop REQSZ)) ∨
    ∃ ms, marks made = .created :: ms ∧ Dropped (number w) w' ms outcome := by
  rw [client_thread] at hrun
  rcases hrun.of_bind with ⟨result, middle, first, second, rfl, hfirst, hrun⟩ | ⟨reason, rfl, hstop⟩
  case inr =>
    obtain ⟨hmarks, hfile, -⟩ := runs_treadn hstop
    exact .inl ⟨hmarks, fun dir => hfile ▸ hfresh dir⟩
  obtain ⟨hmarks, hfile, hnextjob, hend⟩ := runs_treadn hfirst
  have hall : ∀ all, result = .ok all → all = received first := by
    rcases hend with houtcome | ⟨_, houtcome, hall⟩
    · cases houtcome
    · cases houtcome
      exact hall
  have hfresh' : ∀ dir, middle.file dir (number w) = none := fun dir => hfile ▸ hfresh dir
  rw [marks_append, received_append, hmarks, List.nil_append]
  cases result with
  | error errno =>
      obtain ⟨hmarks, rfl⟩ := runs_refuse hrun
      exact .inl ⟨hmarks, hfresh'⟩
  | ok bytes =>
      obtain rfl := hall bytes rfl
      dsimp only at hrun
      split at hrun
      case isFalse =>
        obtain ⟨hmarks, rfl⟩ := runs_refuse hrun
        exact .inl ⟨hmarks, hfresh'⟩
      case isTrue hbytes =>
        rcases runs_ask hrun with ⟨-, hpoint, -⟩ | ⟨_, counted, rest, rfl, hsys, hrun⟩
        · exact hpoint.elim
        cases hsys with
        | get_newjobno =>
            have hnumber : (Print.get_newjobno middle.nextjob).1 = number w := by
              rw [hnextjob]
              rfl
            rw [hnumber] at hrun
            rcases runs_ask hrun with ⟨rfl, -, -, rfl⟩ | ⟨_, _, rest, rfl, hsys, hrun⟩
            · exact .inl ⟨rfl, hfresh'⟩
            cases hsys with
            | noCreat =>
                rw [if_pos rfl] at hrun
                obtain ⟨hmarks, rfl⟩ := runs_refuse hrun
                exact .inl ⟨hmarks, hfresh'⟩
            | creat =>
                rw [if_neg Bool.noConfusion] at hrun
                have hshort : middle.stream.length < turns := by
                  have hstream := congrArg List.length (runs_stream hfirst)
                  rw [List.length_append] at hstream
                  omega
                have hne : Dir.reqs ≠ .data := by decide
                have hreqs := congrFun (World.setFile_ne { middle with
                  nextjob := (Print.get_newjobno middle.nextjob).2 } hne (number w) (some []))
                  (number w)
                rcases runs_store (World.setFile_same ..) (hreqs.trans (hfresh' .reqs)) hshort
                  hrun with ⟨rfl, hmarks, hdata⟩ | hdropped
                · refine .inr (.inl ⟨rfl, congrArg (Mark.created :: ·) hmarks, ?_, ?_⟩)
                  · rw [List.length_append, hbytes]
                    exact Nat.le_add_right ..
                  · rw [List.drop_left' hbytes, hdata]
                    rfl
                · exact .inr (.inr ⟨_, rfl, hdropped⟩)

/-- A job is answered for and queued only with all of its bytes in the data file, and nothing is
left of a job that is not queued. -/
def Lawful (w w' : World) (made : List Event) : Prop :=
  (.answered ∈ marks made ∨ .queued ∈ marks made →
    .answered ∈ marks made ∧ .queued ∈ marks made ∧
    REQSZ + ntohl w.stream ≤ w.stream.length ∧
    w'.file .data (number w) = some ((w.stream.drop REQSZ).take (ntohl w.stream))) ∧
  (.queued ∉ marks made → ∀ dir, w'.file dir (number w) = none)

/-- No `unlink` fails, the thread is not cancelled with its data file created, and when the control
file is written the client has sent as many bytes as the header says. -/
def Careful (w : World) (made : List Event) (outcome : Except Stop Unit) : Prop :=
  .kept ∉ marks made ∧ (.created ∈ marks made → outcome ≠ .error .cancelled) ∧
    (.controlled ∈ marks made → (received made).length = REQSZ + ntohl w.stream)

/-- The accepted bytes are the announced ones when there are as many. -/
theorem length_received_iff {stream got rest : List Byte} {size : Nat}
    (hstream : stream = got ++ rest) (hgot : REQSZ ≤ got.length) :
    got.length = REQSZ + size ↔
      REQSZ + size ≤ stream.length ∧ got.drop REQSZ = (stream.drop REQSZ).take size := by
  have hdrop : stream.drop REQSZ = got.drop REQSZ ++ rest := by
    rw [hstream, List.drop_append_of_le_length hgot]
  have hlen : stream.length = got.length + rest.length := by
    rw [hstream, List.length_append]
  constructor
  · intro hsize
    refine ⟨by omega, ?_⟩
    rw [hdrop, List.take_left']
    rw [List.length_drop]
    omega
  · rintro ⟨hle, heq⟩
    have hlen' := congrArg List.length heq
    rw [List.length_take, List.length_drop, List.length_drop] at hlen'
    omega

theorem acknowledges_complete_jobs_iff {turns : Nat} {buf : Block} {w w' : World}
    {made : List Event} {outcome : Except Stop Unit}
    (hfresh : ∀ dir, w.file dir (number w) = none) (hturns : w.stream.length < turns)
    (hrun : (client_thread turns buf).Runs Sys w made outcome w') :
    Lawful w w' made ↔ Careful w made outcome := by
  rcases client_thread_ends hfresh hturns hrun with
    ⟨hmarks, hnone⟩ | ⟨rfl, hmarks, hgot, hdata⟩ | ⟨ms, hmarks, hdropped⟩
  case inl =>
    simp [Lawful, Careful, hmarks, hnone]
  case inr.inl =>
    rw [Careful, Lawful, hmarks, length_received_iff (runs_stream hrun) hgot, hdata]
    simp
  case inr.inr =>
    cases hdropped with
    | cancelled hqueued hfile =>
        have hthere : ¬ ∀ dir, w'.file dir (number w) = none := fun h => hfile (h .data)
        simp [Lawful, Careful, hmarks, hqueued, hthere]
    | exit hqueued hanswered hcontrolled hkept =>
        simp [Lawful, Careful, hmarks, hqueued, hanswered, hcontrolled, hkept]

/-- A client that sends all it has at once, and a spool in which nothing fails. -/
def answer : (op : Op) → World → op.Res × World
  | .tread nbytes _, w =>
      if w.stream.take nbytes = [] then (some (.error EIO), w)
      else (some (.ok (w.stream.take nbytes)), { w with stream := w.stream.drop nbytes })
  | .get_newjobno, w =>
      (some (Print.get_newjobno w.nextjob).1, { w with nextjob := (Print.get_newjobno w.nextjob).2 })
  | .creat dir jobid, w => (some true, w.setFile dir jobid (some []))
  | .write dir jobid bytes, w =>
      match w.file dir jobid with
      | none => (some (.error EIO), w)
      | some content => (some (.ok bytes.length), w.setFile dir jobid (some (content ++ bytes)))
  | .close, w => (some (), w)
  | .unlink .., w => (some false, w)
  | .writen _, w => (some (), w)
  | .add_job _ jobid, w => (some (), { w with queue := w.queue ++ [jobid] })

theorem answer_sys (op : Op) (w : World) : Sys op w (answer op w).1 (answer op w).2 := by
  cases op with
  | tread nbytes timout =>
      rw [answer]
      split
      · exact .noData
      · rename_i hne
        exact .data hne (List.length_take_le ..) (List.take_append_drop ..).symm
  | write dir jobid bytes =>
      rw [answer]
      split
      · exact .noWrite
      · rename_i content hfile
        have hsys := Sys.write hfile (Nat.le_refl bytes.length)
        rw [List.take_length] at hsys
        exact hsys
  | get_newjobno => exact .get_newjobno
  | creat => exact .creat
  | close => exact .close
  | unlink => exact .noUnlink
  | writen => exact .writen
  | add_job => exact .add_job

/-- An empty spool and a client that announces `size` bytes and sends `bytes`. -/
def spool (size : Byte) (bytes : List Byte) : World where
  stream := [0, 0, 0, size] ++ List.replicate 332 0 ++ bytes
  file := fun _ _ => none
  nextjob := 1
  queue := []

/-- The client announces five bytes and falls silent behind the first one. -/
theorem not_acknowledges_complete_jobs :
    ¬ ∀ (turns : Nat) (buf : Block) (w w' : World) (made : List Event)
      (outcome : Except Stop Unit), (∀ dir, w.file dir (number w) = none) →
      w.stream.length < turns → (client_thread turns buf).Runs Sys w made outcome w' →
      Lawful w w' made := by
  intro h
  have hruns := Prog.follow_runs answer_sys (client_thread 338 []) (spool 5 [37])
  have hlawful := h 338 [] _ _ _ _ (fun _ => rfl) (by decide +kernel) hruns
  have hqueued : .queued ∈ marks ((client_thread 338 []).follow answer (spool 5 [37])).1 := by
    decide +kernel
  have hle := (hlawful.1 (.inr hqueued)).2.2.1
  revert hle
  decide +kernel

/-- A client that sends the one byte that it announces. -/
theorem acknowledges_complete_jobs_one :
    .queued ∈ marks ((client_thread 338 []).follow answer (spool 1 [37])).1 ∧
      Lawful (spool 1 [37]) ((client_thread 338 []).follow answer (spool 1 [37])).2.2
        ((client_thread 338 []).follow answer (spool 1 [37])).1 := by
  refine ⟨by decide +kernel, ?_⟩
  have hruns := Prog.follow_runs answer_sys (client_thread 338 []) (spool 1 [37])
  refine (acknowledges_complete_jobs_iff (fun _ => rfl) (by decide +kernel) hruns).mpr ⟨?_, ?_, ?_⟩
  · decide +kernel
  · have hok : ((client_thread 338 []).follow answer (spool 1 [37])).2.1 = .ok () := by
      decide +kernel
    rw [hok]
    intro _ hcancelled
    cases hcancelled
  · decide +kernel

end ApueCourse.Print.Client
