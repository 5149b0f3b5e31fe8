import ApueCourse.Print.Submit

/-! The two files that `client_thread` leaves of a job that it accepts. -/

namespace ApueCourse.Print.Client

open Memory Program Function

/-- The flags that a job gets, by what the first `tread` behind the header has brought. -/
def spoolFlags (buf : Block) (opening : List Byte) (flags : Nat) : Nat :=
  if opening ≠ [] ∧ (opening ++ buf.drop opening.length).take 4 ≠ PSMAGIC then flags ||| PR_TEXT
  else flags

section Runs

variable {α β : Type} {op : Op} {f : op.Answer → P β} {b : β} {w w' : World} {made : List Event}
  {jobid : Int} {buf : Block}

theorem runs_ask_ok (hrun : (ask op >>= f).Runs Sys w made (.ok b) w') :
    ∃ a middle rest, made = ⟨op, some a⟩ :: rest ∧ Sys op w (some a) middle ∧
      (f a).Runs Sys middle rest (.ok b) w' := by
  rcases runs_ask hrun with ⟨-, -, houtcome, -⟩ | hnext
  · cases houtcome
  · exact hnext

theorem runs_close_ok {f : Unit → P β} (hrun : (ask .close >>= f).Runs Sys w made (.ok b) w') :
    ∃ rest, received made = received rest ∧ (f ()).Runs Sys w rest (.ok b) w' := by
  rcases runs_close hrun with ⟨houtcome, -⟩ | ⟨rest, -, hreceived, hrun⟩
  · cases houtcome
  · exact ⟨rest, hreceived, hrun⟩

theorem runs_writen_ok {res : PrintResp} {f : Unit → P β}
    (hrun : (ask (.writen res) >>= f).Runs Sys w made (.ok b) w') :
    ∃ rest, received made = received rest ∧ (f ()).Runs Sys w rest (.ok b) w' := by
  obtain ⟨_, _, rest, rfl, hsys, hrun⟩ := runs_ask_ok hrun
  cases hsys with
  | writen => exact ⟨rest, rfl, hrun⟩

theorem runs_unlink_stop {dir : Dir} :
    ¬ (do let _ ← ask (.unlink dir jobid)
          .stop .exit : P β).Runs Sys w made (.ok b) w' := by
  intro hrun
  obtain ⟨_, _, _, -, -, hrun⟩ := runs_ask_ok hrun
  obtain ⟨-, houtcome, -⟩ := hrun.of_stop
  cases houtcome

/-- A `write` of all of its bytes. -/
theorem runs_write_ok {dir : Dir} {bytes content : List Byte} {f : Except Errno Nat → P β}
    (hfile : w.file dir jobid = some content)
    (hrun : (ask (.write dir jobid bytes) >>= f).Runs Sys w made (.ok b) w') :
    ∃ nw middle rest, received made = received rest ∧
      (∀ dir', dir' ≠ dir → middle.file dir' = w.file dir') ∧
      (nw.toOption = some bytes.length → middle.file dir jobid = some (content ++ bytes)) ∧
      (f nw).Runs Sys middle rest (.ok b) w' := by
  rcases runs_write hfile hrun with ⟨houtcome, -⟩ | ⟨nw, middle, rest, rfl, -, hsame, -, hall, hrun⟩
  · cases houtcome
  · exact ⟨nw, middle, rest, rfl, hsame, hall, hrun⟩

theorem runs_receive_ok {turns flags flags' : Nat} {first : Bool} {content : List Byte}
    (hdata : w.file .data jobid = some content)
    (hrun : (receive jobid turns buf first flags).Runs Sys w made (.ok flags') w') :
    w'.file .data jobid = some (content ++ received made) ∧ w'.file .reqs = w.file .reqs ∧
      ∃ opening, opening <+: received made ∧ (opening = [] → received made = []) ∧
        flags' = if first then spoolFlags buf opening flags else flags := by
  induction turns generalizing w made buf first flags content with
  | zero =>
      obtain ⟨-, houtcome, -⟩ := hrun.of_stop
      cases houtcome
  | succ turns ih =>
      have hnone : w.file .data jobid = some (content ++ []) ∧ w.file .reqs = w.file .reqs ∧
          ∃ opening, opening <+: ([] : List Byte) ∧ (opening = [] → ([] : List Byte) = []) ∧
            flags = if first then spoolFlags buf opening flags else flags := by
        have hspool : spoolFlags buf [] flags = flags := if_neg fun h => h.1 rfl
        refine ⟨by rw [hdata, List.append_nil], rfl, [], List.nil_prefix, fun _ => rfl, ?_⟩
        rw [hspool, ite_self]
      rw [receive] at hrun
      obtain ⟨answer, middle, rest, rfl, hsys, hrun⟩ := runs_ask_ok hrun
      cases hsys with
      | noData =>
          obtain ⟨rfl, houtcome, rfl⟩ := hrun.of_ret
          cases houtcome
          exact hnone
      | eof =>
          obtain ⟨rfl, houtcome, rfl⟩ := hrun.of_ret
          cases houtcome
          exact hnone
      | @data _ _ _ bytes left hne hle hstream =>
          dsimp only at hrun
          rw [if_neg hne] at hrun
          have hdata' : ({ w with stream := left } : World).file .data jobid = some content := hdata
          obtain ⟨nw, middle, last, hreceived, hsame, hall, hrun⟩ := runs_write_ok hdata' hrun
          split at hrun
          · obtain ⟨_, -, hrun⟩ := runs_close_ok hrun
            obtain ⟨_, -, hrun⟩ := runs_writen_ok hrun
            exact absurd hrun runs_unlink_stop
          · rename_i hwhole
            obtain ⟨hdata'', hreqs, _, _, _, hflags⟩ := ih (hall (not_not.mp hwhole)) hrun
            have hmade : received (⟨.tread IOBUFSZ 20, some (.ok bytes)⟩ :: rest) =
                bytes ++ received last := congrArg (bytes ++ ·) hreceived
            rw [hmade, ← List.append_assoc]
            refine ⟨hdata'', hreqs.trans (hsame .reqs (by decide)), bytes,
              List.prefix_append _ _, fun h => absurd h hne, ?_⟩
            rw [hflags, if_neg Bool.noConfusion, spoolFlags]
            cases first <;> simp [hne]

theorem runs_accept_ok {req : PrintReq} {content : List Byte}
    (hdata : w.file .data jobid = some content)
    (hrun : (accept req jobid).Runs Sys w made (.ok ()) w') :
    w'.file .data jobid = some content ∧ w'.file .reqs jobid = some req.bytes ∧
      received made = [] := by
  rw [accept] at hrun
  obtain ⟨rest, hreceived, hrun⟩ := runs_close_ok hrun
  obtain ⟨created, middle, rest, rfl, hsys, hrun⟩ := runs_ask_ok hrun
  rw [hreceived]
  cases hsys with
  | noCreat =>
      rw [if_pos rfl] at hrun
      obtain ⟨_, -, hrun⟩ := runs_writen_ok hrun
      exact absurd hrun runs_unlink_stop
  | creat =>
      rw [if_neg Bool.noConfusion] at hrun
      obtain ⟨nw, middle, last, hreceived, hsame, hall, hrun⟩ :=
        runs_write_ok (w.setFile_same ..) hrun
      have hdata' : middle.file .data jobid = some content :=
        (congrFun (hsame .data (by decide)) jobid).trans
          ((congrFun (w.setFile_ne (by decide) ..) _).trans hdata)
      split at hrun
      · obtain ⟨_, -, hrun⟩ := runs_close_ok hrun
        obtain ⟨_, -, hrun⟩ := runs_writen_ok hrun
        obtain ⟨_, _, _, -, -, hrun⟩ := runs_ask_ok hrun
        exact absurd hrun runs_unlink_stop
      · rename_i hwhole
        have hcontrol := hall ((not_not.mp hwhole).trans (congrArg some req.length_bytes.symm))
        rw [List.nil_append] at hcontrol
        obtain ⟨_, hclose, hrun⟩ := runs_close_ok hrun
        obtain ⟨_, hwriten, hrun⟩ := runs_writen_ok hrun
        have hmade : received (⟨.creat .reqs jobid, some true⟩ :: rest) = received rest := rfl
        obtain ⟨r, _, rest, rfl, hsys, hrun⟩ := hrun.of_call
        cases hsys with
        | cancelled hpoint => exact hpoint.elim
        | add_job =>
            obtain ⟨rfl, -, rfl⟩ := hrun.of_ret
            refine ⟨hdata', hcontrol, ?_⟩
            rw [hmade, hreceived, hclose, hwriten]
            rfl

end Runs

/-- The data file of an accepted job holds what has come behind the header, and the control file
the header, with the text flag for what does not look like PostScript. -/
theorem client_thread_ok {turns : Nat} {buf : Block} {w w' : World} {made : List Event}
    (hrun : (client_thread turns buf).Runs Sys w made (.ok ()) w') :
    ∃ header content opening, ∃ hheader : header.length = REQSZ,
      received made = header ++ content ∧ opening <+: content ∧ (opening = [] → content = []) ∧
      w'.file .data (number w) = some content ∧
      w'.file .reqs (number w) = some { PrintReq.ofBytes header hheader with
        flags := spoolFlags buf opening (PrintReq.ofBytes header hheader).flags }.bytes := by
  rw [client_thread] at hrun
  obtain ⟨result, middle, first, second, rfl, hfirst, hrun⟩ := hrun.of_bind_ok
  obtain ⟨-, -, hnextjob, hend⟩ := runs_treadn hfirst
  rw [received_append]
  cases result with
  | error errno =>
      obtain ⟨_, -, hrun⟩ := runs_writen_ok hrun
      obtain ⟨-, houtcome, -⟩ := hrun.of_stop
      cases houtcome
  | ok bytes =>
      obtain rfl : bytes = received first := by
        rcases hend with houtcome | ⟨_, houtcome, hall⟩
        · cases houtcome
        · cases houtcome
          exact hall bytes rfl
      dsimp only at hrun
      split at hrun
      case isFalse =>
        obtain ⟨_, -, hrun⟩ := runs_writen_ok hrun
        obtain ⟨-, houtcome, -⟩ := hrun.of_stop
        cases houtcome
      case isTrue hheader =>
        obtain ⟨_, counted, rest, rfl, hsys, hrun⟩ := runs_ask_ok hrun
        cases hsys with
        | get_newjobno =>
            have hnumber : (Print.get_newjobno middle.nextjob).1 = number w := by
              rw [hnextjob]
              rfl
            rw [hnumber] at hrun
            obtain ⟨_, _, rest, rfl, hsys, hrun⟩ := runs_ask_ok hrun
            cases hsys with
            | noCreat =>
                rw [if_pos rfl] at hrun
                obtain ⟨_, -, hrun⟩ := runs_writen_ok hrun
                obtain ⟨-, houtcome, -⟩ := hrun.of_stop
                cases houtcome
            | creat =>
                rw [if_neg Bool.noConfusion] at hrun
                obtain ⟨flags, _, third, fourth, rfl, hthird, hfourth⟩ := hrun.of_bind_ok
                obtain ⟨hdata, -, opening, hopening, hnil, hflags⟩ :=
                  runs_receive_ok (World.setFile_same ..) hthird
                obtain ⟨hdata', hreqs, hreceived⟩ := runs_accept_ok hdata hfourth
                rw [if_pos rfl] at hflags
                refine ⟨received first, received third, opening, hheader, ?_, hopening, hnil, hdata',
                  by rw [hreqs, hflags]⟩
                have hmade : received (third ++ fourth) = received third := by
                  rw [received_append, hreceived, List.append_nil]
                rw [← hmade]
                rfl

end ApueCourse.Print.Client
