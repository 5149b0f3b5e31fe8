import ApueCourse.Print.Jobno

/-! What becomes of an accepted job: its files stay until it has been printed, and one thread
at a time has it. -/

namespace ApueCourse.Print

open Memory Transition

/-- Both files of the job are there, with the whole request. -/
def Spool.Accepted (spool : Spool) (name : List Byte) : Prop :=
  spool.reqs name = some true ∧ spool.data name = true

def SpoolerPc.job : SpoolerPc → Option Int
  | .idle => none
  | .picked jobid | .formatted jobid _ | .printing jobid | .printed jobid => some jobid

/-- The job whose data file the client thread has made, and not given up. -/
def ClientPc.stored : ClientPc → Option Int
  | .storing jobid | .requesting jobid | .accepted jobid => some jobid
  | .idle | .numbered _ | .undoReq _ | .undoData _ => none

theorem ClientPc.job_of_stored {pc : ClientPc} {j : Int} (hstored : pc.stored = some j) :
    pc.job = some j := by
  cases pc with
  | storing | requesting | accepted => exact hstored
  | idle | numbered | undoReq | undoData => cases hstored

/-- The job that the printer thread has, and those in the queue. -/
def Lifetime.owned (life : Lifetime) : List Int := life.printer.job.toList ++ life.queue

/-- `build_qonstart` will not be given the name any more. -/
def ScanPc.Past : ScanPc → List Byte → Prop
  | .scanning seen, name | .dropping seen _, name => name ∈ seen
  | .done, _ => True

/-- Who has which job within a lifetime. -/
structure Held (spool : Spool) (nextjob : Int) (client : Nat → ClientPc) (scan : ScanPc)
    (owned : List Int) : Prop where
  nodup : owned.Nodup
  requested : ∀ j ∈ owned, spool.reqs (jobName j) = some true
  bounds : ∀ j ∈ owned, 0 < j ∧ j < nextjob
  past : ∀ j ∈ owned, scan.Past (jobName j)
  apart : ∀ t j, (client t).job = some j → j ∉ owned
  accepted : ∀ t j, client t = .accepted j → spool.reqs (jobName j) = some true
  stored : ∀ t j, (client t).stored = some j → spool.data (jobName j) = true
  unaccepted : ∀ t j, (client t).job = some j → client t ≠ .accepted j →
    spool.reqs (jobName j) ≠ some true
  idle : scan ≠ .done → ∀ t, client t = .idle
  dropping : ∀ seen name, scan = .dropping seen name → spool.reqs name = none

namespace Held

variable {spool spool' : Spool} {nextjob : Int} {client : Nat → ClientPc} {scan : ScanPc}
  {owned owned' : List Int} {printer : SpoolerPc}

/-- A job goes that one of them has had. -/
theorem sublist (hheld : Held spool nextjob client scan owned) (howned : owned'.Sublist owned) :
    Held spool nextjob client scan owned' where
  nodup := hheld.nodup.sublist howned
  requested j hj := hheld.requested j (howned.subset hj)
  bounds j hj := hheld.bounds j (howned.subset hj)
  past j hj := hheld.past j (howned.subset hj)
  apart t j hjob hj := hheld.apart t j hjob (howned.subset hj)
  accepted := hheld.accepted
  stored := hheld.stored
  unaccepted := hheld.unaccepted
  idle := hheld.idle
  dropping := hheld.dropping

/-- A job comes to the end of the queue. -/
theorem concat (hheld : Held spool nextjob client scan owned) {jobid : Int}
    (hnew : jobid ∉ owned) (hreq : spool.reqs (jobName jobid) = some true) (hpos : 0 < jobid)
    (hlt : jobid < nextjob) (hpast : scan.Past (jobName jobid))
    (hclient : ∀ t, (client t).job ≠ some jobid) :
    Held spool nextjob client scan (owned ++ [jobid]) := by
  have hmem : ∀ j ∈ owned ++ [jobid], j ∈ owned ∨ j = jobid := by
    intro j hj
    exact (List.mem_append.mp hj).imp_right List.mem_singleton.mp
  constructor
  case nodup =>
      refine List.nodup_append.mpr ⟨hheld.nodup, List.pairwise_singleton _ _, ?_⟩
      intro j hj j' hj' heq
      exact hnew (List.mem_singleton.mp hj' ▸ heq ▸ hj)
  case requested =>
      intro j hj
      rcases hmem j hj with hold | rfl
      · exact hheld.requested j hold
      · exact hreq
  case bounds =>
      intro j hj
      rcases hmem j hj with hold | rfl
      · exact hheld.bounds j hold
      · exact ⟨hpos, hlt⟩
  case past =>
      intro j hj
      rcases hmem j hj with hold | rfl
      · exact hheld.past j hold
      · exact hpast
  case apart =>
      intro t j hjob hj
      rcases hmem j hj with hold | rfl
      · exact hheld.apart t j hjob hold
      · exact hclient t hjob
  case accepted => exact hheld.accepted
  case stored => exact hheld.stored
  case unaccepted => exact hheld.unaccepted
  case idle => exact hheld.idle
  case dropping => exact hheld.dropping

/-- A client thread goes on, which touches the files of its own job only. -/
theorem setClient (hheld : Held spool nextjob client scan owned)
    (hup : Up spool nextjob client printer) (hdone : scan = .done) {t : Nat} {pc : ClientPc}
    (hjob : ∀ j, pc.job = some j → (client t).job = some j)
    (hother : ∀ name, (∀ j, (client t).job = some j → name ≠ jobName j) →
      spool'.reqs name = spool.reqs name ∧ spool'.data name = spool.data name)
    (haccepted : ∀ j, pc = .accepted j → spool'.reqs (jobName j) = some true)
    (hstored : ∀ j, pc.stored = some j → spool'.data (jobName j) = true)
    (hunaccepted : ∀ j, pc.job = some j → pc ≠ .accepted j →
      spool'.reqs (jobName j) ≠ some true) :
    Held spool' nextjob (Function.update client t pc) scan owned := by
  have hname : ∀ {j}, 0 < j → (client t).job ≠ some j →
      ∀ j', (client t).job = some j' → jobName j ≠ jobName j' := by
    intro j hpos hne j' hj' heq
    exact hne (jobName_injective hpos (hup.held t j' hj').1 heq ▸ hj')
  have howned : ∀ j ∈ owned, spool'.reqs (jobName j) = spool.reqs (jobName j) := by
    intro j hj
    exact (hother _ (hname (hheld.bounds j hj).1 fun h => hheld.apart t j h hj)).1
  have hclient : ∀ {t' j}, t' ≠ t → (client t').job = some j →
      spool'.reqs (jobName j) = spool.reqs (jobName j) ∧
        spool'.data (jobName j) = spool.data (jobName j) := by
    intro t' j hne hj
    exact hother _ (hname (hup.held t' j hj).1 fun h => hne (hup.distinct t' t j hj h))
  constructor
  case nodup => exact hheld.nodup
  case requested => exact fun j hj => (howned j hj).trans (hheld.requested j hj)
  case bounds => exact hheld.bounds
  case past => exact hheld.past
  case apart =>
      intro t' j hj
      rcases eq_or_ne t' t with rfl | hne
      · rw [Function.update_self] at hj
        exact hheld.apart t' j (hjob j hj)
      · rw [Function.update_of_ne hne] at hj
        exact hheld.apart t' j hj
  case accepted =>
      intro t' j hpc
      rcases eq_or_ne t' t with rfl | hne
      · rw [Function.update_self] at hpc
        exact haccepted j hpc
      · rw [Function.update_of_ne hne] at hpc
        have hj : (client t').job = some j := by
          rw [hpc]
          rfl
        exact (hclient hne hj).1.trans (hheld.accepted t' j hpc)
  case stored =>
      intro t' j hj
      rcases eq_or_ne t' t with rfl | hne
      · rw [Function.update_self] at hj
        exact hstored j hj
      · rw [Function.update_of_ne hne] at hj
        exact (hclient hne (ClientPc.job_of_stored hj)).2.trans (hheld.stored t' j hj)
  case unaccepted =>
      intro t' j hj hpc
      rcases eq_or_ne t' t with rfl | hne
      · rw [Function.update_self] at hj hpc
        exact hunaccepted j hj hpc
      · rw [Function.update_of_ne hne] at hj hpc
        rw [(hclient hne hj).1]
        exact hheld.unaccepted t' j hj hpc
  case idle => exact fun h => absurd hdone h
  case dropping =>
      intro seen name hscan
      cases hdone.symm.trans hscan

/-- The counter goes on. -/
theorem mono (hheld : Held spool nextjob client scan owned) {nextjob' : Int}
    (hle : nextjob ≤ nextjob') : Held spool nextjob' client scan owned where
  nodup := hheld.nodup
  requested := hheld.requested
  bounds j hj := ⟨(hheld.bounds j hj).1, Int.lt_of_lt_of_le (hheld.bounds j hj).2 hle⟩
  past := hheld.past
  apart := hheld.apart
  accepted := hheld.accepted
  stored := hheld.stored
  unaccepted := hheld.unaccepted
  idle := hheld.idle
  dropping := hheld.dropping

/-- A client thread gets a number. -/
theorem newjob (hheld : Held spool nextjob client scan owned) (hdone : scan = .done)
    {nextjob' : Int} (hle : nextjob ≤ nextjob') (hfresh : ¬ spool.Has (jobName nextjob)) (t : Nat) :
    Held spool nextjob' (Function.update client t (.numbered nextjob)) scan owned := by
  have hmono := hheld.mono hle
  refine ⟨hmono.nodup, hmono.requested, hmono.bounds, hmono.past, fun t' j hj hmem => ?_,
    fun t' j hj => ?_, fun t' j hj => ?_, fun t' j hj hne => ?_, fun h => absurd hdone h,
    hmono.dropping⟩
  · rcases eq_or_ne t' t with rfl | ht
    · rw [Function.update_self] at hj
      cases hj
      exact absurd (hheld.bounds _ hmem).2 (Int.lt_irrefl _)
    · rw [Function.update_of_ne ht] at hj
      exact hheld.apart t' j hj hmem
  · rcases eq_or_ne t' t with rfl | ht
    · rw [Function.update_self] at hj
      cases hj
    · rw [Function.update_of_ne ht] at hj
      exact hheld.accepted t' j hj
  · rcases eq_or_ne t' t with rfl | ht
    · rw [Function.update_self] at hj
      cases hj
    · rw [Function.update_of_ne ht] at hj
      exact hheld.stored t' j hj
  · rcases eq_or_ne t' t with rfl | ht
    · rw [Function.update_self] at hj
      cases hj
      intro hreq
      exact hfresh (.inr (hreq ▸ Option.some_ne_none true))
    · rw [Function.update_of_ne ht] at hj hne
      exact hheld.unaccepted t' j hj hne

/-- `build_qonstart` or the printer thread takes files away of which no thread has the job. -/
theorem remove (hheld : Held spool nextjob client scan owned) {name : List Byte} {scan' : ScanPc}
    (howned : ∀ j ∈ owned, jobName j ≠ name)
    (hclient : ∀ t j, (client t).job = some j → jobName j ≠ name)
    (hreqs : ∀ name', spool'.reqs name' = if name' = name then none else spool.reqs name')
    (hdata : ∀ name', name' ≠ name → spool'.data name' = spool.data name')
    (hpast : ∀ name', scan.Past name' → scan'.Past name') (hdone : scan = .done → scan' = .done)
    (hdropping : ∀ seen name', scan' = .dropping seen name' →
      name' = name ∨ ∃ seen, scan = .dropping seen name') :
    Held spool' nextjob client scan' owned where
  nodup := hheld.nodup
  requested j hj := by
    rw [hreqs, if_neg (howned j hj)]
    exact hheld.requested j hj
  bounds := hheld.bounds
  past j hj := hpast _ (hheld.past j hj)
  apart := hheld.apart
  accepted t j hpc := by
    have hj : (client t).job = some j := by
      rw [hpc]
      rfl
    rw [hreqs, if_neg (hclient t j hj)]
    exact hheld.accepted t j hpc
  stored t j hj :=
    (hdata _ (hclient t j (ClientPc.job_of_stored hj))).trans (hheld.stored t j hj)
  unaccepted t j hj hpc := by
    rw [hreqs]
    split
    · exact nofun
    · exact hheld.unaccepted t j hj hpc
  idle hscan := hheld.idle fun h => hscan (hdone h)
  dropping seen name' hscan := by
    rw [hreqs]
    split
    · rfl
    · rename_i hne
      obtain ⟨seen', hold⟩ := (hdropping seen name' hscan).resolve_left hne
      exact hheld.dropping seen' name' hold

/-- The data of a job go of which no client thread has the number. -/
theorem removeData (hheld : Held spool nextjob client scan owned) {name : List Byte}
    (hclient : ∀ t j, (client t).job = some j → jobName j ≠ name) :
    Held (spool.setData name false) nextjob client scan owned where
  nodup := hheld.nodup
  requested := hheld.requested
  bounds := hheld.bounds
  past := hheld.past
  apart := hheld.apart
  accepted := hheld.accepted
  stored t j hj :=
    (Function.update_of_ne (hclient t j (ClientPc.job_of_stored hj)) _ _).trans
      (hheld.stored t j hj)
  unaccepted := hheld.unaccepted
  idle := hheld.idle
  dropping := hheld.dropping

/-- No client thread has a file of a job in the queue. -/
theorem name_ne (hheld : Held spool nextjob client scan owned)
    (hup : Up spool nextjob client printer) {j : Int} (hj : j ∈ owned) (t : Nat) (j' : Int)
    (hjob : (client t).job = some j') : jobName j' ≠ jobName j := by
  intro heq
  obtain rfl := jobName_injective (hup.held t j' hjob).1 (hheld.bounds j hj).1 heq
  exact hheld.apart t j' hjob hj

end Held

theorem Numbered.job {bound : Int} {name : List Byte} (hname : Numbered bound name)
    (hbound : bound ≤ LONG_MAX) {jobid : Int} (hjobid : atol (name ++ [0]) = some jobid) :
    name = jobName jobid ∧ 0 < jobid ∧ jobid < bound := by
  obtain ⟨n, hpos, hlt, rfl⟩ := hname
  have hread : atol (decimal n ++ [0]) = some (n : Int) :=
    atol_decimal (by omega) 0 (by decide) []
  cases hread.symm.trans hjobid
  exact ⟨rfl, by omega, hlt⟩

/-- The job that the printer thread has printed has no data file any more. -/
structure Kept (spool : Spool) (life : Lifetime) : Prop where
  held : Held spool life.nextjob life.client life.scan life.owned
  printed : ∀ j, life.printer = .printed j → spool.data (jobName j) = false

namespace Spooler

variable {spool spool' : Spool} {life life' : Lifetime}

theorem owned_of_job {j : Int} (hjob : life.printer.job = some j) :
    life.owned = j :: life.queue := by
  rw [Lifetime.owned, hjob]
  rfl

theorem stored_of_fails {pc pc' : ClientPc} (hfails : Fails pc pc') :
    ∃ jobid, pc.job = some jobid ∧ (∀ j, pc ≠ .accepted j) ∧ pc'.stored = none ∧
      ∀ j, pc' ≠ .accepted j := by
  cases hfails with
  | creatData jobid | writeData jobid | creatReq jobid | writeReq jobid =>
      exact ⟨jobid, rfl, nofun, rfl, nofun⟩

theorem kept_step {event : SpoolEvent} (hup : Up spool life.nextjob life.client life.printer)
    (hkept : Kept spool life) (hup' : Up spool' life'.nextjob life'.client life'.printer)
    (hstep : Step ⟨spool, some life⟩ event ⟨spool', some life'⟩) : Kept spool' life' := by
  obtain ⟨hheld, hprinted⟩ := hkept
  have hidle : life.scan ≠ .done → ∀ t j, (life.client t).job ≠ some j := by
    intro hscan t j hj
    rw [hheld.idle hscan t] at hj
    cases hj
  have hdone : ∀ t j, (life.client t).job = some j → life.scan = .done := by
    intro t j hj
    by_contra hscan
    exact hidle hscan t j hj
  have howned : ∀ {j}, life.printer.job = some j → life.owned = j :: life.queue := owned_of_job
  have hmem : ∀ {j}, life.printer = .printed j → j ∈ life.owned := by
    intro j hj
    rw [howned (by rw [hj]; rfl)]
    exact List.mem_cons_self
  cases hstep with
  | @scan _ _ seen name jobid hscan hseen hreq hjobid =>
      have hbusy : life.scan ≠ .done := fun h => by cases hscan.symm.trans h
      have hhas : spool.Has name := .inr (hreq ▸ Option.some_ne_none true)
      obtain ⟨rfl, hpos, hlt⟩ := (hup.named name hhas).job hup.bounded hjobid
      refine ⟨?_, hprinted⟩
      have hmoved : Held spool life.nextjob life.client (.scanning (jobName jobid :: seen))
          life.owned := by
        refine ⟨hheld.nodup, hheld.requested, hheld.bounds, fun j hj => ?_, hheld.apart,
          hheld.accepted, hheld.stored, hheld.unaccepted, fun _ => hheld.idle hbusy, nofun⟩
        have hpast := hheld.past j hj
        rw [hscan] at hpast
        exact List.mem_cons_of_mem _ hpast
      have hnew : jobid ∉ life.owned := by
        intro hj
        have hpast := hheld.past jobid hj
        rw [hscan] at hpast
        exact hseen hpast
      have hconcat := hmoved.concat hnew hreq hpos hlt List.mem_cons_self
        fun t => hidle hbusy t jobid
      rw [Lifetime.owned, List.append_assoc] at hconcat
      exact hconcat
  | @skip _ _ seen name hscan hseen hreq =>
      have hbusy : life.scan ≠ .done := fun h => by cases hscan.symm.trans h
      refine ⟨?_, hprinted⟩
      refine hheld.remove ?_ (fun t j hj => absurd hj (hidle hbusy t j))
        (fun name' => Function.update_apply ..) (fun _ _ => rfl) ?_ (fun h => absurd h hbusy) ?_
      · rintro j hj rfl
        cases (hheld.requested j hj).symm.trans hreq
      · intro name' hpast
        rw [hscan] at hpast
        exact List.mem_cons_of_mem _ hpast
      · intro seen' name' h
        cases h
        exact .inl rfl
  | @drop _ _ seen name hscan =>
      have hbusy : life.scan ≠ .done := fun h => by cases hscan.symm.trans h
      have hnone := hheld.dropping seen name hscan
      refine ⟨?_, fun j hj => ?_⟩
      · refine hheld.remove ?_ (fun t j hj => absurd hj (hidle hbusy t j)) (fun name' => ?_)
          (fun name' hne => Function.update_of_ne hne _ _) ?_ (fun h => absurd h hbusy) nofun
        · rintro j hj rfl
          cases (hheld.requested j hj).symm.trans hnone
        · split
          · rename_i heq
            rw [heq]
            exact hnone
          · rfl
        · intro name' hpast
          rw [hscan] at hpast
          exact hpast
      · rcases eq_or_ne (jobName j) name with heq | hne
        · exact heq ▸ Function.update_self ..
        · exact (Function.update_of_ne hne _ _).trans (hprinted j hj)
  | @scanned _ _ seen hscan =>
      have hbusy : life.scan ≠ .done := fun h => by cases hscan.symm.trans h
      exact ⟨⟨hheld.nodup, hheld.requested, hheld.bounds, fun _ _ => trivial, hheld.apart,
        hheld.accepted, hheld.stored, hheld.unaccepted, fun _ => hheld.idle hbusy, nofun⟩, hprinted⟩
  | @newjob _ _ t hscan hpc =>
      have hself : Function.update life.client t (.numbered life.nextjob) t =
          .numbered life.nextjob := Function.update_self ..
      have hjob : (Function.update life.client t (.numbered life.nextjob) t).job =
          some life.nextjob := congrArg ClientPc.job hself
      have hlt := (hup'.held t life.nextjob hjob).2
      exact ⟨hheld.newjob hscan (Int.le_of_lt hlt) (hup'.fresh t life.nextjob hself) t, hprinted⟩
  | @creatData _ _ t jobid hpc =>
      have hjob : (life.client t).job = some jobid := by
        rw [hpc]
        rfl
      have hnone := hheld.unaccepted t jobid hjob (by rw [hpc]; nofun)
      refine ⟨?_, fun j hj => ?_⟩
      · refine hheld.setClient hup (hdone t jobid hjob) (fun j hj => ?_)
          (fun name hname => ⟨rfl, Function.update_of_ne (hname jobid hjob) _ _⟩) nofun
          (fun j hj => ?_) fun j hj _ => ?_
        · cases hj
          exact hjob
        · cases hj
          exact Function.update_self ..
        · cases hj
          exact hnone
      · have hne := hheld.name_ne hup (hmem hj) t jobid hjob
        exact (Function.update_of_ne hne.symm _ _).trans (hprinted j hj)
  | @creatReq _ _ t jobid hpc =>
      have hjob : (life.client t).job = some jobid := by
        rw [hpc]
        rfl
      refine ⟨?_, hprinted⟩
      refine hheld.setClient hup (hdone t jobid hjob) (fun j hj => ?_)
        (fun name hname => ⟨Function.update_of_ne (hname jobid hjob) _ _, rfl⟩) nofun
        (fun j hj => ?_) fun j hj _ hreq => ?_
      · cases hj
        exact hjob
      · cases hj
        exact hheld.stored t jobid (by rw [hpc]; rfl)
      · cases hj
        cases (Function.update_self ..).symm.trans hreq
  | @writeReq _ _ t jobid hpc =>
      have hjob : (life.client t).job = some jobid := by
        rw [hpc]
        rfl
      refine ⟨?_, hprinted⟩
      refine hheld.setClient hup (hdone t jobid hjob) (fun j hj => ?_)
        (fun name hname => ⟨Function.update_of_ne (hname jobid hjob) _ _, rfl⟩) (fun j hj => ?_)
        (fun j hj => ?_) fun j hj hne => ?_
      · cases hj
        exact hjob
      · cases hj
        exact Function.update_self ..
      · cases hj
        exact hheld.stored t jobid (by rw [hpc]; rfl)
      · cases hj
        exact absurd rfl hne
  | @addJob _ _ t jobid hpc =>
      have hjob : (life.client t).job = some jobid := by
        rw [hpc]
        rfl
      have hpos := hup.held t jobid hjob
      have hidled : Held spool life.nextjob (Function.update life.client t .idle) life.scan
          life.owned :=
        hheld.setClient hup (hdone t jobid hjob) nofun (fun _ _ => ⟨rfl, rfl⟩) nofun nofun nofun
      refine ⟨?_, hprinted⟩
      have hconcat := hidled.concat (hheld.apart t jobid hjob) (hheld.accepted t jobid hpc)
        hpos.1 hpos.2 (by rw [hdone t jobid hjob]; trivial) ?_
      · rw [Lifetime.owned, List.append_assoc] at hconcat
        exact hconcat
      · intro t' hj
        rcases eq_or_ne t' t with rfl | ht
        · rw [Function.update_self] at hj
          cases hj
        · rw [Function.update_of_ne ht] at hj
          exact ht (hup.distinct t' t jobid hj hjob)
  | @fail _ _ t pc hfails =>
      obtain ⟨jobid, hjob, hne, hstored, hnew⟩ := stored_of_fails hfails
      refine ⟨?_, hprinted⟩
      refine hheld.setClient hup (hdone t jobid hjob) (fun j hj => job_of_fails hfails hj)
        (fun _ _ => ⟨rfl, rfl⟩) (fun j hj => absurd hj (hnew j)) (fun j hj => ?_)
        fun j hj _ => hheld.unaccepted t j (job_of_fails hfails hj) (hne j)
      cases hstored.symm.trans hj
  | @unlinkReq _ _ t jobid hpc =>
      have hjob : (life.client t).job = some jobid := by
        rw [hpc]
        rfl
      refine ⟨?_, hprinted⟩
      refine hheld.setClient hup (hdone t jobid hjob) (fun j hj => ?_)
        (fun name hname => ⟨Function.update_of_ne (hname jobid hjob) _ _, rfl⟩) nofun nofun
        fun j hj _ hreq => ?_
      · cases hj
        exact hjob
      · cases hj
        cases (Function.update_self ..).symm.trans hreq
  | @unlinkData _ _ t jobid hpc =>
      have hjob : (life.client t).job = some jobid := by
        rw [hpc]
        rfl
      refine ⟨?_, fun j hj => ?_⟩
      · exact hheld.setClient hup (hdone t jobid hjob) nofun
          (fun name hname => ⟨rfl, Function.update_of_ne (hname jobid hjob) _ _⟩) nofun nofun nofun
      · have hne := hheld.name_ne hup (hmem hj) t jobid hjob
        exact (Function.update_of_ne hne.symm _ _).trans (hprinted j hj)
  | @pickup _ _ jobid rest hpc hqueue =>
      refine ⟨?_, nofun⟩
      have howned : life.owned = jobid :: rest := by
        rw [Lifetime.owned, hpc, hqueue]
        rfl
      rw [howned] at hheld
      exact hheld
  | format hpc | defer hpc =>
      refine ⟨?_, nofun⟩
      rw [howned (by rw [hpc]; rfl)] at hheld
      exact hheld
  | update hpc =>
      refine ⟨?_, nofun⟩
      rw [howned (by rw [hpc]; rfl)] at hheld
      exact ⟨hheld.nodup, hheld.requested, hheld.bounds, hheld.past, hheld.apart,
        hheld.accepted, hheld.stored, hheld.unaccepted, hheld.idle, hheld.dropping⟩
  | cancel hpc =>
      refine ⟨?_, nofun⟩
      rw [howned (by rw [hpc]; rfl)] at hheld
      exact hheld.sublist (List.sublist_cons_self _ _)
  | @removeData _ _ jobid hpc =>
      have howned' := howned (j := jobid) (by rw [hpc]; rfl)
      have hclient := hheld.name_ne hup (howned' ▸ List.mem_cons_self : jobid ∈ life.owned)
      rw [howned'] at hheld
      refine ⟨hheld.removeData hclient, ?_⟩
      rintro j hj
      cases hj
      exact Function.update_self ..
  | @removeReq _ _ jobid hpc =>
      have howned' := howned (j := jobid) (by rw [hpc]; rfl)
      have hclient := hheld.name_ne hup (howned' ▸ List.mem_cons_self : jobid ∈ life.owned)
      rw [howned'] at hheld
      refine ⟨?_, nofun⟩
      refine (hheld.sublist (List.sublist_cons_self _ _)).remove ?_ hclient
        (fun name' => Function.update_apply ..) (fun _ _ => rfl) (fun _ => id) id
        (fun seen name' h => .inr ⟨seen, h⟩)
      intro j hj heq
      obtain rfl := jobName_injective (hheld.bounds j (List.mem_cons_of_mem _ hj)).1
        (hheld.bounds jobid List.mem_cons_self).1 heq
      exact (List.nodup_cons.mp hheld.nodup).1 hj

/-- `Kept` while the daemon is up, with what is known of the spool directory. -/
def Keeps (s : Spooler) : Prop := s.Sound ∧ ∀ life, s.life = some life → Kept s.spool life

theorem keeps_step {s s' : Spooler} {event : SpoolEvent} (hs : s.Keeps) (hstep : Step s event s')
    (hcareful : s.Careful event) : s'.Keeps := by
  have hsound := sound_step hs.1 hstep hcareful
  refine ⟨hsound, fun life' hlife' => ?_⟩
  obtain ⟨spool, life⟩ := s
  obtain ⟨spool', life''⟩ := s'
  dsimp only at hlife'
  subst hlife'
  cases life with
  | some life => exact kept_step hs.1 (hs.2 life rfl) hsound hstep
  | none =>
      cases hstep with
      | start =>
          refine ⟨⟨List.nodup_nil, nofun, nofun, nofun, nofun, nofun, nofun, nofun,
            fun _ _ => rfl, nofun⟩, nofun⟩

theorem keeps_reachable {s : Spooler} (hs : (system.restrict Careful).Reachable s) : s.Keeps := by
  refine hs.invariant ?_ ?_
  · rintro _ rfl
    exact ⟨sound_start, nofun⟩
  · rintro s event s' hs ⟨hstep, hcareful⟩
    exact keeps_step hs hstep hcareful

/-- The printer thread is about to take the data of the job away, which it has printed. -/
def Prints (s : Spooler) (name : List Byte) : Prop :=
  ∃ life j, s.life = some life ∧ life.printer = .printing j ∧ name = jobName j

/-- Only the printer thread takes the files of an accepted job, and only its own job's. -/
theorem accepted_step {s s' : Spooler} {event : SpoolEvent} {name : List Byte} (hs : s.Keeps)
    (hstep : Step s event s') (haccepted : s.spool.Accepted name) :
    s'.spool.Accepted name ∨ event = .removeData ∧ s.Prints name := by
  obtain ⟨hreq, hdata⟩ := haccepted
  have hother : ∀ {req name'}, name ≠ name' →
      (s.spool.setReq name' req).Accepted name := fun hne =>
    ⟨(Function.update_of_ne hne _ _).trans hreq, hdata⟩
  have hother' : ∀ {name'}, name ≠ name' → (s.spool.setData name' false).Accepted name :=
    fun hne => ⟨hreq, (Function.update_of_ne hne _ _).trans hdata⟩
  -- a client thread that has not written its request yet has another job
  have hclient : ∀ {life t j}, s.life = some life → (life.client t).job = some j →
      life.client t ≠ .accepted j → name ≠ jobName j := by
    rintro life t j hlife hj hne rfl
    exact (hs.2 life hlife).held.unaccepted t j hj hne hreq
  cases hstep with
  | start | crash | scan | scanned | newjob | addJob | fail | pickup | format | update | cancel
  | defer => exact .inl ⟨hreq, hdata⟩
  | skip hscan hseen hreq' =>
      refine .inl (hother ?_)
      rintro rfl
      cases hreq.symm.trans hreq'
  | @drop _ life seen name' hscan =>
      refine .inl (hother' ?_)
      rintro rfl
      cases hreq.symm.trans ((hs.2 life rfl).held.dropping seen name hscan)
  | @creatData _ life t jobid hpc =>
      refine .inl ⟨hreq, ?_⟩
      rcases eq_or_ne name (jobName jobid) with rfl | hne
      · exact Function.update_self ..
      · exact (Function.update_of_ne hne _ _).trans hdata
  | @creatReq _ life t jobid hpc =>
      exact .inl (hother (hclient (t := t) rfl (by rw [hpc]; rfl) (by rw [hpc]; nofun)))
  | @writeReq _ life t jobid hpc =>
      exact .inl (hother (hclient (t := t) rfl (by rw [hpc]; rfl) (by rw [hpc]; nofun)))
  | @unlinkReq _ life t jobid hpc =>
      exact .inl (hother (hclient (t := t) rfl (by rw [hpc]; rfl) (by rw [hpc]; nofun)))
  | @unlinkData _ life t jobid hpc =>
      exact .inl (hother' (hclient (t := t) rfl (by rw [hpc]; rfl) (by rw [hpc]; nofun)))
  | @removeData _ life jobid hpc =>
      rcases eq_or_ne name (jobName jobid) with rfl | hne
      · exact .inr ⟨rfl, life, jobid, rfl, hpc, rfl⟩
      · exact .inl (hother' hne)
  | @removeReq _ life jobid hpc =>
      refine .inl (hother ?_)
      rintro rfl
      cases hdata.symm.trans ((hs.2 life rfl).printed jobid hpc)

theorem accepted_run {s s' : Spooler} {trace : List SpoolEvent} {name : List Byte}
    (hs : (system.restrict Careful).Reachable s) (haccepted : s.spool.Accepted name)
    (hrun : (system.restrict Careful).Run s trace s') :
    s'.spool.Accepted name ∨ ∃ before after middle, trace = before ++ .removeData :: after ∧
      (system.restrict Careful).Run s before middle ∧ middle.Prints name := by
  induction hrun with
  | refl => exact .inl haccepted
  | @snoc middle finish trace event hrun hstep ih =>
      rcases ih with hmiddle | ⟨before, after, m, rfl, hbefore, hprints⟩
      · have hkeeps := keeps_reachable (hs.run hrun)
        rcases accepted_step hkeeps hstep.1 hmiddle with hfinish | ⟨rfl, hprints⟩
        · exact .inl hfinish
        · exact .inr ⟨trace, [], middle, rfl, hrun, hprints⟩
      · refine .inr ⟨before, after ++ [event], m, ?_, hbefore, hprints⟩
        rw [List.append_assoc, List.cons_append]

/-- Both files of a job that a client thread has accepted are in the spool directory, through
crashes and restarts, until the printer thread has printed that job. -/
theorem accepted_job_kept {s middle s' : Spooler} {t : Nat} {trace : List SpoolEvent}
    (hs : (system.restrict Careful).Reachable s)
    (haccept : (system.restrict Careful).Step s (.writeReq t) middle)
    (hrun : (system.restrict Careful).Run middle trace s') :
    ∃ life j, s.life = some life ∧ life.client t = .requesting j ∧
      (s'.spool.Accepted (jobName j) ∨ ∃ before after m,
        trace = before ++ .removeData :: after ∧ (system.restrict Careful).Run middle before m ∧
          m.Prints (jobName j)) := by
  have hkeeps := keeps_reachable hs
  obtain ⟨hstep, hcareful⟩ := haccept
  have hmiddle := hs.step ⟨hstep, hcareful⟩
  cases hstep with
  | @writeReq spool life t jobid hpc =>
      refine ⟨life, jobid, rfl, hpc, accepted_run hmiddle ⟨Function.update_self .., ?_⟩ hrun⟩
      exact (hkeeps.2 life rfl).held.stored t jobid (by rw [hpc]; rfl)

/-- The spool directory and the daemon with a first job, whose client thread is about to write
the request. -/
def requestingSpool : Spool := (start.spool.setData (jobName 1) true).setReq (jobName 1) (some false)

def requestingLife : Lifetime :=
  setClient (setClient (setClient ⟨2, .done, [], fun _ => .idle, .idle⟩ 1 (.numbered 1)) 1
    (.storing 1)) 1 (.requesting 1)

theorem requesting_reachable :
    (system.restrict Careful).Reachable ⟨requestingSpool, some requestingLife⟩ := by
  refine ⟨start, [.start] ++ [.scanned] ++ [.newjob 1 1] ++ [.creatData 1 1] ++ [.creatReq 1 1],
    rfl, ?_⟩
  exact ((((System.Run.single (M := system.restrict Careful)
    ⟨@Step.start _ (List.replicate 39 0) 1 rfl rfl, trivial⟩).snoc
    ⟨@Step.scanned _ _ [] rfl, trivial⟩).snoc
    ⟨@Step.newjob _ _ 1 rfl rfl, (by decide : (1 : Int) < LONG_MAX)⟩).snoc
    ⟨@Step.creatData _ _ 1 1 rfl, trivial⟩).snoc
    ⟨@Step.creatReq _ _ 1 1 rfl, trivial⟩

theorem accepted_job_kept_first : ∃ s middle s', (system.restrict Careful).Reachable s ∧
    Step s (.writeReq 1) middle ∧ Step middle (.addJob 1) s' ∧ ∃ life j, s.life = some life ∧
      life.client 1 = .requesting j ∧ (s'.spool.Accepted (jobName j) ∨ ∃ before after m,
        [.addJob 1] = before ++ .removeData :: after ∧
          (system.restrict Careful).Run middle before m ∧ m.Prints (jobName j)) := by
  have hwrite := @Step.writeReq requestingSpool requestingLife 1 1 rfl
  have hadd := @Step.addJob (requestingSpool.setReq (jobName 1) (some true))
    (setClient requestingLife 1 (.accepted 1)) 1 1 rfl
  exact ⟨_, _, _, requesting_reachable, hwrite, hadd,
    accepted_job_kept requesting_reachable ⟨hwrite, trivial⟩ (.single ⟨hadd, trivial⟩)⟩

/-- A job is with one thread: the printer thread or the queue has it once and with its request
in the spool directory, or a client thread has it and nobody else. -/
theorem job_held_once {s : Spooler} (hs : (system.restrict Careful).Reachable s) {life : Lifetime}
    (hlife : s.life = some life) :
    life.owned.Nodup ∧ (∀ j ∈ life.owned, s.spool.reqs (jobName j) = some true) ∧
      (∀ t j, (life.client t).job = some j → j ∉ life.owned) ∧
      ∀ t t' j, (life.client t).job = some j → (life.client t').job = some j → t = t' := by
  obtain ⟨hsound, hkept⟩ := keeps_reachable hs
  have hheld := (hkept life hlife).held
  obtain ⟨spool, life'⟩ := s
  cases hlife
  exact ⟨hheld.nodup, hheld.requested, hheld.apart, Up.distinct hsound⟩

theorem job_held_once_requesting :
    requestingLife.owned.Nodup ∧ (∀ j ∈ requestingLife.owned,
      requestingSpool.reqs (jobName j) = some true) ∧
      (∀ t j, (requestingLife.client t).job = some j → j ∉ requestingLife.owned) ∧
      ∀ t t' j, (requestingLife.client t).job = some j → (requestingLife.client t').job = some j →
        t = t' :=
  job_held_once requesting_reachable rfl

/-- The job has been printed and its files are gone. -/
structure Finished (spool : Spool) (life : Lifetime) (j : Int) : Prop where
  positive : 0 < j
  lt : j < life.nextjob
  unowned : j ∉ life.owned
  client : ∀ t, (life.client t).job ≠ some j
  request : spool.reqs (jobName j) = none

/-- What a step does to the jobs that somebody has and to the requests, as far as a finished job
is concerned. -/
theorem finished_step {event : SpoolEvent} {j : Int}
    (hup : Up spool life.nextjob life.client life.printer)
    (hup' : Up spool' life'.nextjob life'.client life'.printer) (hfinished : Finished spool life j)
    (hstep : Step ⟨spool, some life⟩ event ⟨spool', some life'⟩) : Finished spool' life' j := by
  obtain ⟨hpos, hlt, hunowned, hclient, hreq⟩ := hfinished
  have hnot : ∀ {j'}, life.printer.job = some j' → j ≠ j' ∧ j ∉ life.queue := by
    intro j' hj'
    rw [owned_of_job hj', List.mem_cons, not_or] at hunowned
    exact hunowned
  have hqueue : j ∉ life.queue := fun h => hunowned (List.mem_append_right _ h)
  have hprinter : j ∉ life.printer.job.toList := fun h => hunowned (List.mem_append_left _ h)
  -- a client thread that goes on with its job, or without one
  have hupdate : ∀ {t pc}, (∀ j, pc.job = some j → (life.client t).job = some j) →
      ∀ t', (Function.update life.client t pc t').job ≠ some j := by
    intro t pc hpc t' hj
    rcases eq_or_ne t' t with rfl | hne
    · rw [Function.update_self] at hj
      exact hclient t' (hpc j hj)
    · rw [Function.update_of_ne hne] at hj
      exact hclient t' hj
  have hname : ∀ {t j'}, (life.client t).job = some j' → jobName j ≠ jobName j' := by
    intro t j' hj' heq
    obtain rfl := jobName_injective hpos (hup.held t j' hj').1 heq
    exact hclient t hj'
  cases hstep with
  | @scan _ _ seen name jobid hscan hseen hreq' hjobid =>
      have hhas : spool.Has name := .inr (hreq' ▸ Option.some_ne_none true)
      obtain ⟨rfl, -, -⟩ := (hup.named name hhas).job hup.bounded hjobid
      have hne : j ≠ jobid := by
        rintro rfl
        cases hreq.symm.trans hreq'
      refine ⟨hpos, hlt, fun h => ?_, hclient, hreq⟩
      rw [Lifetime.owned, ← List.append_assoc] at h
      rcases List.mem_append.mp h with hold | hnew
      · exact hunowned hold
      · exact hne (List.mem_singleton.mp hnew)
  | @skip _ _ seen name hscan hseen hreq' =>
      refine ⟨hpos, hlt, hunowned, hclient, ?_⟩
      rcases eq_or_ne (jobName j) name with rfl | hne
      · exact Function.update_self ..
      · exact (Function.update_of_ne hne _ _).trans hreq
  | drop | scanned => exact ⟨hpos, hlt, hunowned, hclient, hreq⟩
  | @newjob _ _ t hscan hpc =>
      have hself : (Function.update life.client t (.numbered life.nextjob) t).job =
          some life.nextjob := by
        rw [Function.update_self]
        rfl
      have hnext := (hup'.held t life.nextjob hself).2
      refine ⟨hpos, Int.lt_trans hlt hnext, hunowned, fun t' hj => ?_, hreq⟩
      have hj' : (Function.update life.client t (.numbered life.nextjob) t').job = some j := hj
      rcases eq_or_ne t' t with rfl | hne
      · rw [Function.update_self] at hj'
        cases hj'
        exact Int.lt_irrefl _ hlt
      · rw [Function.update_of_ne hne] at hj'
        exact hclient t' hj'
  | @creatData _ _ t jobid hpc =>
      refine ⟨hpos, hlt, hunowned, hupdate fun j hj => ?_, hreq⟩
      cases hj
      rw [hpc]
      rfl
  | @creatReq _ _ t jobid hpc =>
      have hjob : (life.client t).job = some jobid := by
        rw [hpc]
        rfl
      refine ⟨hpos, hlt, hunowned, hupdate fun j hj => ?_,
        (Function.update_of_ne (hname hjob) _ _).trans hreq⟩
      cases hj
      exact hjob
  | @writeReq _ _ t jobid hpc =>
      have hjob : (life.client t).job = some jobid := by
        rw [hpc]
        rfl
      refine ⟨hpos, hlt, hunowned, hupdate fun j hj => ?_,
        (Function.update_of_ne (hname hjob) _ _).trans hreq⟩
      cases hj
      exact hjob
  | @addJob _ _ t jobid hpc =>
      refine ⟨hpos, hlt, fun h => ?_, hupdate nofun, hreq⟩
      rw [Lifetime.owned, ← List.append_assoc] at h
      rcases List.mem_append.mp h with hold | hnew
      · exact hunowned hold
      · refine hclient t ?_
        rw [hpc, List.mem_singleton.mp hnew]
        rfl
  | fail hfails => exact ⟨hpos, hlt, hunowned, hupdate fun j => job_of_fails hfails, hreq⟩
  | @unlinkReq _ _ t jobid hpc =>
      have hjob : (life.client t).job = some jobid := by
        rw [hpc]
        rfl
      refine ⟨hpos, hlt, hunowned, hupdate fun j hj => ?_,
        (Function.update_of_ne (hname hjob) _ _).trans hreq⟩
      cases hj
      exact hjob
  | unlinkData => exact ⟨hpos, hlt, hunowned, hupdate nofun, hreq⟩
  | @pickup _ _ jobid rest hpc hrest =>
      rw [hrest] at hqueue
      exact ⟨hpos, hlt, hqueue, hclient, hreq⟩
  | format hpc | update hpc | defer hpc =>
      obtain ⟨hne, hrest⟩ := hnot (by rw [hpc]; rfl)
      exact ⟨hpos, hlt, List.not_mem_cons_of_ne_of_not_mem hne hrest, hclient, hreq⟩
  | cancel hpc => exact ⟨hpos, hlt, (hnot (by rw [hpc]; rfl)).2, hclient, hreq⟩
  | removeData hpc =>
      obtain ⟨hne, hrest⟩ := hnot (by rw [hpc]; rfl)
      exact ⟨hpos, hlt, List.not_mem_cons_of_ne_of_not_mem hne hrest, hclient, hreq⟩
  | @removeReq _ _ jobid hpc =>
      refine ⟨hpos, hlt, (hnot (by rw [hpc]; rfl)).2, hclient, ?_⟩
      rcases eq_or_ne (jobName j) (jobName jobid) with heq | hne
      · rw [heq]
        exact Function.update_self ..
      · exact (Function.update_of_ne hne _ _).trans hreq

theorem finished_run {s s' : Spooler} {trace : List SpoolEvent} {j : Int}
    (hs : (system.restrict Careful).Reachable s)
    (hfinished : ∃ life, s.life = some life ∧ Finished s.spool life j)
    (hrun : (system.restrict Careful).Run s trace s') (halive : .crash ∉ trace) :
    ∃ life, s'.life = some life ∧ Finished s'.spool life j := by
  induction hrun with
  | refl => exact hfinished
  | @snoc middle finish trace event hrun hstep ih =>
      rw [List.mem_append, not_or] at halive
      obtain ⟨life, hlife, hmiddle⟩ := ih halive.1
      have hkeeps := keeps_reachable (hs.run hrun)
      have hkeeps' := keeps_reachable ((hs.run hrun).step hstep)
      obtain ⟨spool, life₀⟩ := middle
      obtain ⟨spool', life'⟩ := finish
      dsimp only at hlife
      subst hlife
      cases life' with
      | some life' => exact ⟨life', rfl, finished_step hkeeps.1 hkeeps'.1 hmiddle hstep.1⟩
      | none =>
          cases hstep.1 with
          | crash => exact absurd (List.mem_singleton_self _) halive.2

/-- The first job once its data file is gone. -/
def printedSpool : Spool :=
  let spool := requestingSpool.setReq (jobName 1) (some true)
  { spool with jobno := update_jobno spool.jobno (sprintfLong 2) }.setData (jobName 1) false

def printedLife : Lifetime :=
  { setClient (setClient requestingLife 1 (.accepted 1)) 1 .idle with
    queue := [], printer := .printed 1 }

theorem printed_reachable :
    (system.restrict Careful).Reachable ⟨printedSpool, some printedLife⟩ := by
  obtain ⟨s, trace, hs, hrun⟩ := requesting_reachable
  refine ⟨s, trace ++ [.writeReq 1] ++ [.addJob 1] ++ [.pickup] ++ [.format] ++ [.update] ++
    [.removeData], hs, ?_⟩
  exact (((((hrun.snoc ⟨@Step.writeReq _ _ 1 1 rfl, trivial⟩).snoc
    ⟨@Step.addJob _ (setClient requestingLife 1 (.accepted 1)) 1 1 rfl, trivial⟩).snoc
    ⟨@Step.pickup _ _ 1 [] rfl rfl, trivial⟩).snoc ⟨@Step.format _ _ 1 rfl, trivial⟩).snoc
    ⟨@Step.update _ _ 1 _ rfl, trivial⟩).snoc ⟨@Step.removeData _ _ 1 rfl, trivial⟩

end Spooler

end ApueCourse.Print
