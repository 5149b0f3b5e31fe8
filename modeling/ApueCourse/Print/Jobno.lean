import ApueCourse.Memory.Decimal
import ApueCourse.Transition.Run

/-! The job counter of `printd.c` over any number of lifetimes of the daemon. -/

namespace ApueCourse.Print

open Memory Transition

def FILENMSZ : Nat := 64

/-- `"/var/spool/printer/jobno"`. -/
def JOBPATH : List Byte :=
  [47, 118, 97, 114, 47, 115, 112, 111, 111, 108, 47, 112, 114, 105, 110, 116, 101, 114, 47,
    106, 111, 98, 110, 111]

/-- What is on disk: the job number file and the files of the data and the request
directory by their names.  `some true` is a request file that holds its whole request. -/
structure Spool where
  jobno : List Byte
  data : List Byte → Bool
  reqs : List Byte → Option Bool

/-- The name of a job's files. -/
def jobName (jobid : Int) : List Byte := sprintfLong jobid

/-- The job has a file in the spool directory. -/
def Spool.Has (spool : Spool) (name : List Byte) : Prop :=
  spool.data name = true ∨ spool.reqs name ≠ none

/-- `name` is the buffer with the path of the job number file.  The bytes read go over
it, and nothing is put behind them. -/
def init_request (jobno : List Byte) (name : Block) : Option Int :=
  let bytes := jobno.take FILENMSZ
  if bytes = [] then some 1 else atol (bytes ++ name.drop bytes.length)

/-- The file is not truncated. -/
def update_jobno (jobno text : List Byte) : List Byte := text ++ jobno.drop text.length

/-- The number and the counter behind it. -/
def get_newjobno (nextjob : Int) : Int × Int :=
  let next := Int.bmod (nextjob + 1) (2 ^ 64)
  (nextjob, if next ≤ 0 then 1 else next)

/-- A client thread by what it does next with the job it has a number for: creat of the
data file, writing it and creat of the request file, writing that one, `add_job`, or an
unlink on its way out. -/
inductive ClientPc
  | idle
  | numbered (jobid : Int)
  | storing (jobid : Int)
  | requesting (jobid : Int)
  | accepted (jobid : Int)
  | undoReq (jobid : Int)
  | undoData (jobid : Int)

def ClientPc.job : ClientPc → Option Int
  | .idle => none
  | .numbered jobid | .storing jobid | .requesting jobid | .accepted jobid
  | .undoReq jobid | .undoData jobid => some jobid

/-- The printer thread; `formatted` is between `sprintf` and `write` of `update_jobno`. -/
inductive SpoolerPc
  | idle
  | picked (jobid : Int)
  | formatted (jobid : Int) (text : List Byte)
  | printing (jobid : Int)
  | printed (jobid : Int)

/-- `build_qonstart` with the entries it has been given, in front of the unlink of a data
file, or behind its end. -/
inductive ScanPc
  | scanning (seen : List (List Byte))
  | dropping (seen : List (List Byte)) (name : List Byte)
  | done

structure Lifetime where
  nextjob : Int
  scan : ScanPc
  queue : List Int
  client : Nat → ClientPc
  printer : SpoolerPc

structure Spooler where
  spool : Spool
  life : Option Lifetime

inductive SpoolEvent
  | start
  | crash
  | scan (name : List Byte)
  | skip (name : List Byte)
  | drop
  | scanned
  | newjob (t : Nat) (jobid : Int)
  | creatData (t : Nat) (jobid : Int)
  | creatReq (t : Nat) (jobid : Int)
  | writeReq (t : Nat)
  | addJob (t : Nat)
  | fail (t : Nat)
  | unlinkReq (t : Nat)
  | unlinkData (t : Nat)
  | pickup
  | format
  | update
  | cancel
  | defer
  | removeData
  | removeReq

namespace Spool

def setData (spool : Spool) (name : List Byte) (present : Bool) : Spool :=
  { spool with data := Function.update spool.data name present }

def setReq (spool : Spool) (name : List Byte) (req : Option Bool) : Spool :=
  { spool with reqs := Function.update spool.reqs name req }

end Spool

namespace Spooler

def setClient (life : Lifetime) (t : Nat) (pc : ClientPc) : Lifetime :=
  { life with client := Function.update life.client t pc }

/-- The way out of a client thread whose system call has failed. -/
inductive Fails : ClientPc → ClientPc → Prop
  | creatData (jobid : Int) : Fails (.numbered jobid) .idle
  | writeData (jobid : Int) : Fails (.storing jobid) (.undoData jobid)
  | creatReq (jobid : Int) : Fails (.storing jobid) (.undoData jobid)
  | writeReq (jobid : Int) : Fails (.requesting jobid) (.undoReq jobid)

/-- Clients are served behind `build_qonstart`; the printer thread runs from the start.
A crash, an exit and the `exit` behind SIGTERM leave the spool directory as it is. -/
inductive Step : Spooler → SpoolEvent → Spooler → Prop
  | start {spool : Spool} {junk : Block} {nextjob : Int}
      (hjunk : junk.length + 1 + JOBPATH.length = FILENMSZ)
      (hnext : init_request spool.jobno (JOBPATH ++ 0 :: junk) = some nextjob) :
      Step ⟨spool, none⟩ .start
        ⟨spool, some ⟨nextjob, .scanning [], [], fun _ => .idle, .idle⟩⟩
  | crash {spool : Spool} {life : Lifetime} : Step ⟨spool, some life⟩ .crash ⟨spool, none⟩
  | scan {spool : Spool} {life : Lifetime} {seen : List (List Byte)} {name : List Byte}
      {jobid : Int} (hscan : life.scan = .scanning seen) (hseen : name ∉ seen)
      (hreq : spool.reqs name = some true) (hjobid : atol (name ++ [0]) = some jobid) :
      Step ⟨spool, some life⟩ (.scan name)
        ⟨spool, some { life with
          scan := .scanning (name :: seen), queue := life.queue ++ [jobid] }⟩
  | skip {spool : Spool} {life : Lifetime} {seen : List (List Byte)} {name : List Byte}
      (hscan : life.scan = .scanning seen) (hseen : name ∉ seen)
      (hreq : spool.reqs name = some false) :
      Step ⟨spool, some life⟩ (.skip name)
        ⟨spool.setReq name none, some { life with scan := .dropping (name :: seen) name }⟩
  | drop {spool : Spool} {life : Lifetime} {seen : List (List Byte)} {name : List Byte}
      (hscan : life.scan = .dropping seen name) :
      Step ⟨spool, some life⟩ .drop
        ⟨spool.setData name false, some { life with scan := .scanning seen }⟩
  | scanned {spool : Spool} {life : Lifetime} {seen : List (List Byte)}
      (hscan : life.scan = .scanning seen) :
      Step ⟨spool, some life⟩ .scanned ⟨spool, some { life with scan := .done }⟩
  | newjob {spool : Spool} {life : Lifetime} {t : Nat} (hscan : life.scan = .done)
      (hpc : life.client t = .idle) :
      Step ⟨spool, some life⟩ (.newjob t (get_newjobno life.nextjob).1)
        ⟨spool, some { setClient life t (.numbered (get_newjobno life.nextjob).1) with
          nextjob := (get_newjobno life.nextjob).2 }⟩
  | creatData {spool : Spool} {life : Lifetime} {t : Nat} {jobid : Int}
      (hpc : life.client t = .numbered jobid) :
      Step ⟨spool, some life⟩ (.creatData t jobid)
        ⟨spool.setData (jobName jobid) true, some (setClient life t (.storing jobid))⟩
  | creatReq {spool : Spool} {life : Lifetime} {t : Nat} {jobid : Int}
      (hpc : life.client t = .storing jobid) :
      Step ⟨spool, some life⟩ (.creatReq t jobid)
        ⟨spool.setReq (jobName jobid) (some false),
          some (setClient life t (.requesting jobid))⟩
  | writeReq {spool : Spool} {life : Lifetime} {t : Nat} {jobid : Int}
      (hpc : life.client t = .requesting jobid) :
      Step ⟨spool, some life⟩ (.writeReq t)
        ⟨spool.setReq (jobName jobid) (some true), some (setClient life t (.accepted jobid))⟩
  | addJob {spool : Spool} {life : Lifetime} {t : Nat} {jobid : Int}
      (hpc : life.client t = .accepted jobid) :
      Step ⟨spool, some life⟩ (.addJob t)
        ⟨spool, some { setClient life t .idle with queue := life.queue ++ [jobid] }⟩
  | fail {spool : Spool} {life : Lifetime} {t : Nat} {pc : ClientPc}
      (hfails : Fails (life.client t) pc) :
      Step ⟨spool, some life⟩ (.fail t) ⟨spool, some (setClient life t pc)⟩
  | unlinkReq {spool : Spool} {life : Lifetime} {t : Nat} {jobid : Int}
      (hpc : life.client t = .undoReq jobid) :
      Step ⟨spool, some life⟩ (.unlinkReq t)
        ⟨spool.setReq (jobName jobid) none, some (setClient life t (.undoData jobid))⟩
  | unlinkData {spool : Spool} {life : Lifetime} {t : Nat} {jobid : Int}
      (hpc : life.client t = .undoData jobid) :
      Step ⟨spool, some life⟩ (.unlinkData t)
        ⟨spool.setData (jobName jobid) false, some (setClient life t .idle)⟩
  | pickup {spool : Spool} {life : Lifetime} {jobid : Int} {rest : List Int}
      (hpc : life.printer = .idle) (hqueue : life.queue = jobid :: rest) :
      Step ⟨spool, some life⟩ .pickup
        ⟨spool, some { life with queue := rest, printer := .picked jobid }⟩
  | format {spool : Spool} {life : Lifetime} {jobid : Int}
      (hpc : life.printer = .picked jobid) :
      Step ⟨spool, some life⟩ .format
        ⟨spool, some { life with printer := .formatted jobid (sprintfLong life.nextjob) }⟩
  | update {spool : Spool} {life : Lifetime} {jobid : Int} {text : List Byte}
      (hpc : life.printer = .formatted jobid text) :
      Step ⟨spool, some life⟩ .update
        ⟨{ spool with jobno := update_jobno spool.jobno text },
          some { life with printer := .printing jobid }⟩
  | cancel {spool : Spool} {life : Lifetime} {jobid : Int}
      (hpc : life.printer = .printing jobid) :
      Step ⟨spool, some life⟩ .cancel ⟨spool, some { life with printer := .idle }⟩
  | defer {spool : Spool} {life : Lifetime} {jobid : Int}
      (hpc : life.printer = .printing jobid) :
      Step ⟨spool, some life⟩ .defer
        ⟨spool, some { life with queue := jobid :: life.queue, printer := .idle }⟩
  | removeData {spool : Spool} {life : Lifetime} {jobid : Int}
      (hpc : life.printer = .printing jobid) :
      Step ⟨spool, some life⟩ .removeData
        ⟨spool.setData (jobName jobid) false, some { life with printer := .printed jobid }⟩
  | removeReq {spool : Spool} {life : Lifetime} {jobid : Int}
      (hpc : life.printer = .printed jobid) :
      Step ⟨spool, some life⟩ .removeReq
        ⟨spool.setReq (jobName jobid) none, some { life with printer := .idle }⟩

/-- A new installation. -/
def start : Spooler where
  spool := { jobno := [], data := fun _ => false, reqs := fun _ => none }
  life := none

def system : System Spooler SpoolEvent where
  Initial s := s = start
  Step := Step

end Spooler

/-- The number that a start would read from the job number file is greater than that of
every job with a file in the spool directory. -/
def Spool.Ahead (spool : Spool) : Prop :=
  ∀ junk next, init_request spool.jobno (JOBPATH ++ 0 :: junk) = some next →
    ∀ name jobid, spool.Has name → atol (name ++ [0]) = some jobid → jobid < next

/-- The file is empty or has a number up to `bound`. -/
def Recorded (jobno : List Byte) (bound : Int) : Prop :=
  jobno = [] ∨ ∃ k : Nat, 0 < k ∧ (k : Int) ≤ bound ∧ jobno = decimal k

/-- The name is that of a job with a number below `bound`. -/
def Numbered (bound : Int) (name : List Byte) : Prop :=
  ∃ n : Nat, 0 < n ∧ (n : Int) < bound ∧ name = decimal n

theorem jobName_natCast (n : Nat) : jobName n = decimal n := rfl

theorem jobName_injective {i j : Int} (hi : 0 < i) (hj : 0 < j)
    (hname : jobName i = jobName j) : i = j := by
  obtain ⟨m, rfl⟩ := Int.eq_ofNat_of_zero_le (Int.le_of_lt hi)
  obtain ⟨n, rfl⟩ := Int.eq_ofNat_of_zero_le (Int.le_of_lt hj)
  rw [jobName_natCast, jobName_natCast] at hname
  rw [decimal_injective hname]

theorem Numbered.mono {bound bound' : Int} {name : List Byte} (hname : Numbered bound name)
    (hle : bound ≤ bound') : Numbered bound' name := by
  obtain ⟨n, hpos, hlt, rfl⟩ := hname
  exact ⟨n, hpos, by omega, rfl⟩

theorem Recorded.mono {jobno : List Byte} {bound bound' : Int} (hjobno : Recorded jobno bound)
    (hle : bound ≤ bound') : Recorded jobno bound' := by
  rcases hjobno with rfl | ⟨k, hpos, hk, rfl⟩
  · exact .inl rfl
  · exact .inr ⟨k, hpos, by omega, rfl⟩

theorem length_decimal_mono {k m : Nat} (hle : k ≤ m) :
    (decimal k).length ≤ (decimal m).length := by
  have hpos := List.length_pos_of_ne_nil (decimal_ne_nil m)
  rw [length_decimal_le_iff hpos]
  exact hle.trans_lt ((length_decimal_le_iff hpos).mp (Nat.le_refl _))

/-- A number that is not below the one in the file covers it. -/
theorem update_jobno_eq {jobno : List Byte} {m : Nat} (hjobno : Recorded jobno m) :
    update_jobno jobno (decimal m) = decimal m := by
  have hlength : jobno.length ≤ (decimal m).length := by
    rcases hjobno with rfl | ⟨k, -, hk, rfl⟩
    · exact Nat.zero_le _
    · exact length_decimal_mono (by omega)
  rw [update_jobno, List.drop_eq_nil_of_le hlength, List.append_nil]

theorem init_request_decimal {k : Nat} (hk : (k : Int) ≤ LONG_MAX) (junk : Block) :
    init_request (decimal k) (JOBPATH ++ 0 :: junk) = some (k : Int) := by
  have hlength : (decimal k).length ≤ 19 := by
    rw [length_decimal_le_iff (by decide)]
    unfold LONG_MAX at hk
    omega
  have htake : (decimal k).take FILENMSZ = decimal k := by
    apply List.take_of_length_le
    unfold FILENMSZ
    omega
  have hpath : (decimal k).length < JOBPATH.length := hlength.trans_lt (by decide)
  have hdigit : ¬ isDigit JOBPATH[(decimal k).length] := by
    have hall : ∀ c ∈ JOBPATH, ¬ isDigit c := by decide +kernel
    exact hall _ (List.getElem_mem hpath)
  rw [init_request, htake, if_neg (decimal_ne_nil k),
    List.drop_append_of_le_length hpath.le, List.drop_eq_getElem_cons hpath]
  exact atol_decimal hk 0 hdigit _

theorem get_newjobno_eq {nextjob : Int} (hpos : 0 < nextjob) (hlt : nextjob < LONG_MAX) :
    get_newjobno nextjob = (nextjob, nextjob + 1) := by
  unfold LONG_MAX at hlt
  have hmod : Int.bmod (nextjob + 1) (2 ^ 64) = nextjob + 1 := by
    apply Int.bmod_eq_of_le <;> omega
  rw [get_newjobno, hmod, if_neg (by omega)]

/-- What holds within a lifetime. -/
structure Up (spool : Spool) (nextjob : Int) (client : Nat → ClientPc)
    (printer : SpoolerPc) : Prop where
  positive : 0 < nextjob
  bounded : nextjob ≤ LONG_MAX
  recorded : Recorded spool.jobno nextjob
  formatted : ∀ jobid text, printer = .formatted jobid text →
    ∃ m : Nat, 0 < m ∧ (m : Int) ≤ nextjob ∧ text = decimal m ∧ Recorded spool.jobno m
  named : ∀ name, spool.Has name → Numbered nextjob name
  held : ∀ t jobid, (client t).job = some jobid → 0 < jobid ∧ jobid < nextjob
  distinct : ∀ t t' jobid, (client t).job = some jobid → (client t').job = some jobid →
    t = t'
  fresh : ∀ t jobid, client t = .numbered jobid → ¬ spool.Has (jobName jobid)
  unrequested : ∀ t jobid, client t = .storing jobid → spool.reqs (jobName jobid) = none

/-- What holds between two lifetimes. -/
structure Down (spool : Spool) : Prop where
  recorded : Recorded spool.jobno LONG_MAX
  named : ∀ name, spool.Has name → Numbered (LONG_MAX + 1) name
  ahead : spool.Ahead

namespace Up

variable {spool spool' : Spool} {nextjob : Int} {client : Nat → ClientPc}
  {printer printer' : SpoolerPc}

/-- Files that go do no harm. -/
theorem shrink (hup : Up spool nextjob client printer)
    (hprinter : ∀ jobid text, printer' = .formatted jobid text → printer = printer')
    (hjobno : spool'.jobno = spool.jobno)
    (hdata : ∀ name, spool'.data name = true → spool.data name = true)
    (hreqs : ∀ name, spool'.reqs name ≠ none → spool.reqs name ≠ none) :
    Up spool' nextjob client printer' where
  positive := hup.positive
  bounded := hup.bounded
  recorded := hjobno ▸ hup.recorded
  formatted jobid text hpc := by
    rw [hjobno]
    exact hup.formatted jobid text ((hprinter jobid text hpc).trans hpc)
  named name hname := hup.named name (hname.imp (hdata name) (hreqs name))
  held := hup.held
  distinct := hup.distinct
  fresh t jobid hpc hhas := hup.fresh t jobid hpc (hhas.imp (hdata _) (hreqs _))
  unrequested t jobid hpc := by
    by_contra hreq
    exact hreqs _ hreq (hup.unrequested t jobid hpc)

/-- A client that keeps or gives up its number and touches the files of that number
only. -/
theorem setClient (hup : Up spool nextjob client printer) {t : Nat} {pc : ClientPc}
    (hjob : ∀ jobid, pc.job = some jobid → (client t).job = some jobid)
    (hjobno : spool'.jobno = spool.jobno)
    (hdata : ∀ name, spool'.data name = true → spool.data name = true ∨
      ∃ jobid, (client t).job = some jobid ∧ name = jobName jobid)
    (hreqs : ∀ name, spool'.reqs name ≠ none → spool.reqs name ≠ none ∨
      ∃ jobid, (client t).job = some jobid ∧ name = jobName jobid)
    (hnumbered : ∀ jobid, pc ≠ .numbered jobid)
    (hstoring : ∀ jobid, pc = .storing jobid → spool'.reqs (jobName jobid) = none) :
    Up spool' nextjob (Function.update client t pc) printer := by
  have hjob' : ∀ t' jobid, (Function.update client t pc t').job = some jobid →
      (client t').job = some jobid := by
    intro t' jobid hpc
    rw [Function.update_apply] at hpc
    split at hpc
    · rename_i ht
      rw [ht]
      exact hjob jobid hpc
    · exact hpc
  have hother : ∀ {t' jobid jobid'}, (client t').job = some jobid → t' ≠ t →
      (client t).job = some jobid' → jobName jobid ≠ jobName jobid' := by
    intro t' jobid jobid' hpc ht hpc' hname
    obtain rfl := jobName_injective (hup.held _ _ hpc).1 (hup.held _ _ hpc').1 hname
    exact ht (hup.distinct _ _ _ hpc hpc')
  constructor
  case positive => exact hup.positive
  case bounded => exact hup.bounded
  case recorded => exact hjobno ▸ hup.recorded
  case formatted =>
      intro jobid text hpc
      rw [hjobno]
      exact hup.formatted jobid text hpc
  case named =>
      intro name hname
      have hold : spool.Has name ∨ ∃ jobid, (client t).job = some jobid ∧
          name = jobName jobid := by
        rcases hname with hname | hname
        · exact (hdata name hname).imp_left Or.inl
        · exact (hreqs name hname).imp_left Or.inr
      rcases hold with hold | ⟨jobid, hpc, rfl⟩
      · exact hup.named name hold
      · obtain ⟨hpos, hlt⟩ := hup.held t jobid hpc
        obtain ⟨n, rfl⟩ := Int.eq_ofNat_of_zero_le (Int.le_of_lt hpos)
        exact ⟨n, by omega, hlt, rfl⟩
  case held => exact fun t' jobid hpc => hup.held t' jobid (hjob' t' jobid hpc)
  case distinct =>
      intro t₁ t₂ jobid hpc₁ hpc₂
      exact hup.distinct t₁ t₂ jobid (hjob' _ _ hpc₁) (hjob' _ _ hpc₂)
  case fresh =>
      intro t' jobid hpc hhas
      rw [Function.update_apply] at hpc
      split at hpc
      · exact hnumbered jobid hpc
      · rename_i ht
        have hheld : (client t').job = some jobid := by
          rw [hpc]
          rfl
        rcases hhas with hhas | hhas
        · rcases hdata _ hhas with hold | ⟨jobid', hpc', hname⟩
          · exact hup.fresh t' jobid hpc (.inl hold)
          · exact hother hheld ht hpc' hname
        · rcases hreqs _ hhas with hold | ⟨jobid', hpc', hname⟩
          · exact hup.fresh t' jobid hpc (.inr hold)
          · exact hother hheld ht hpc' hname
  case unrequested =>
      intro t' jobid hpc
      rw [Function.update_apply] at hpc
      split at hpc
      · exact hstoring jobid hpc
      · rename_i ht
        have hheld : (client t').job = some jobid := by
          rw [hpc]
          rfl
        by_contra hhas
        rcases hreqs _ hhas with hold | ⟨jobid', hpc', hname⟩
        · exact hold (hup.unrequested t' jobid hpc)
        · exact hother hheld ht hpc' hname

theorem newjob (hup : Up spool nextjob client printer) (t : Nat) (hlt : nextjob < LONG_MAX) :
    Up spool (nextjob + 1) (Function.update client t (.numbered nextjob)) printer := by
  have hjob : ∀ t' jobid, (Function.update client t (.numbered nextjob) t').job = some jobid →
      t' = t ∧ jobid = nextjob ∨ t' ≠ t ∧ (client t').job = some jobid := by
    intro t' jobid hjob
    rw [Function.update_apply] at hjob
    split at hjob
    · rename_i ht
      exact .inl ⟨ht, (Option.some.inj hjob).symm⟩
    · rename_i ht
      exact .inr ⟨ht, hjob⟩
  have hpos := hup.positive
  constructor
  case positive => omega
  case bounded => omega
  case recorded => exact hup.recorded.mono (by omega)
  case formatted =>
      intro jobid text hprinter
      obtain ⟨m, hm, hle, htext, hrecorded⟩ := hup.formatted jobid text hprinter
      exact ⟨m, hm, by omega, htext, hrecorded⟩
  case named => exact fun name hname => (hup.named name hname).mono (by omega)
  case held =>
      intro t' jobid hheld
      rcases hjob t' jobid hheld with ⟨-, rfl⟩ | ⟨-, hheld⟩
      · omega
      · have hbounds := hup.held t' jobid hheld
        omega
  case distinct =>
      intro t₁ t₂ jobid hheld₁ hheld₂
      rcases hjob t₁ jobid hheld₁ with ⟨ht₁, hnext₁⟩ | ⟨-, hold₁⟩ <;>
        rcases hjob t₂ jobid hheld₂ with ⟨ht₂, hnext₂⟩ | ⟨-, hold₂⟩
      · rw [ht₁, ht₂]
      · have hlt' := (hup.held t₂ jobid hold₂).2
        omega
      · have hlt' := (hup.held t₁ jobid hold₁).2
        omega
      · exact hup.distinct t₁ t₂ jobid hold₁ hold₂
  case fresh =>
      intro t' jobid hnumbered
      rw [Function.update_apply] at hnumbered
      split at hnumbered
      · cases hnumbered
        intro hhas
        obtain ⟨n, hn, hbound, hname⟩ := hup.named _ hhas
        have heq := jobName_injective hpos (by omega : (0 : Int) < n) hname
        omega
      · exact hup.fresh t' jobid hnumbered
  case unrequested =>
      intro t' jobid hstoring
      rw [Function.update_apply] at hstoring
      split at hstoring
      · cases hstoring
      · exact hup.unrequested t' jobid hstoring

theorem format (hup : Up spool nextjob client printer) (jobid : Int) :
    Up spool nextjob client (.formatted jobid (sprintfLong nextjob)) where
  positive := hup.positive
  bounded := hup.bounded
  recorded := hup.recorded
  formatted := by
    intro jobid' text hpc
    cases hpc
    have hpos := hup.positive
    obtain ⟨m, rfl⟩ := Int.eq_ofNat_of_zero_le (Int.le_of_lt hpos)
    exact ⟨m, by omega, Int.le_refl _, rfl, hup.recorded⟩
  named := hup.named
  held := hup.held
  distinct := hup.distinct
  fresh := hup.fresh
  unrequested := hup.unrequested

theorem update (hup : Up spool nextjob client printer) {jobid : Int} {text : List Byte}
    (hpc : printer = .formatted jobid text) :
    Up { spool with jobno := update_jobno spool.jobno text } nextjob client
      (.printing jobid) where
  positive := hup.positive
  bounded := hup.bounded
  recorded := by
    obtain ⟨m, hpos, hle, rfl, hrecorded⟩ := hup.formatted jobid text hpc
    exact .inr ⟨m, hpos, hle, update_jobno_eq hrecorded⟩
  formatted := nofun
  named := hup.named
  held := hup.held
  distinct := hup.distinct
  fresh := hup.fresh
  unrequested := hup.unrequested

end Up

theorem Down.start {spool : Spool} {junk : Block} {nextjob : Int} (hdown : Down spool)
    (hnext : init_request spool.jobno (JOBPATH ++ 0 :: junk) = some nextjob) :
    Up spool nextjob (fun _ => .idle) .idle := by
  have hnamed : ∀ name, spool.Has name → Numbered nextjob name := by
    intro name hname
    obtain ⟨n, hpos, hlt, rfl⟩ := hdown.named name hname
    have hread : atol (decimal n ++ [0]) = some (n : Int) :=
      atol_decimal (by omega) 0 (by decide) []
    exact ⟨n, hpos, hdown.ahead junk nextjob hnext _ n hname hread, rfl⟩
  obtain ⟨hpos, hbounded, hrecorded⟩ : 0 < nextjob ∧ nextjob ≤ LONG_MAX ∧
      Recorded spool.jobno nextjob := by
    rcases hdown.recorded with hempty | ⟨k, hpos, hk, hjobno⟩
    · rw [hempty] at hnext
      cases hnext
      exact ⟨by decide, by decide, .inl hempty⟩
    · rw [hjobno, init_request_decimal hk] at hnext
      cases hnext
      exact ⟨by omega, hk, .inr ⟨k, hpos, Int.le_refl _, hjobno⟩⟩
  exact ⟨hpos, hbounded, hrecorded, nofun, hnamed, nofun, nofun, nofun, nofun⟩

theorem Up.crash {spool : Spool} {nextjob : Int} {client : Nat → ClientPc}
    {printer : SpoolerPc} (hup : Up spool nextjob client printer) (hahead : spool.Ahead) :
    Down spool where
  recorded := hup.recorded.mono hup.bounded
  named name hname := (hup.named name hname).mono (by
    have hbounded := hup.bounded
    omega)
  ahead := hahead

namespace Spooler

def Sound (s : Spooler) : Prop :=
  match s.life with
  | none => Down s.spool
  | some life => Up s.spool life.nextjob life.client life.printer

/-- The daemon goes down only when the job number file is ahead of the spool directory,
and its counter does not come to its end. -/
def Careful (s : Spooler) : SpoolEvent → Prop
  | .crash => s.spool.Ahead
  | .newjob _ jobid => jobid < LONG_MAX
  | _ => True

theorem update_eq_true {files : List Byte → Bool} {name name' : List Byte} {b : Bool}
    (hfile : Function.update files name b name' = true) :
    files name' = true ∨ b = true ∧ name' = name := by
  rw [Function.update_apply] at hfile
  split at hfile
  · rename_i hname
    exact .inr ⟨hfile, hname⟩
  · exact .inl hfile

theorem update_ne_none {files : List Byte → Option Bool} {name name' : List Byte}
    {b : Option Bool} (hfile : Function.update files name b name' ≠ none) :
    files name' ≠ none ∨ b ≠ none ∧ name' = name := by
  rw [Function.update_apply] at hfile
  split at hfile
  · rename_i hname
    exact .inr ⟨hfile, hname⟩
  · exact .inl hfile

theorem job_of_fails {pc pc' : ClientPc} (hfails : Fails pc pc') {jobid : Int}
    (hjob : pc'.job = some jobid) : pc.job = some jobid := by
  cases hfails with
  | creatData => cases hjob
  | writeData | creatReq | writeReq => exact hjob

theorem ne_of_fails {pc pc' : ClientPc} (hfails : Fails pc pc') (jobid : Int) :
    pc' ≠ .numbered jobid ∧ pc' ≠ .storing jobid := by
  cases hfails <;> exact ⟨nofun, nofun⟩

theorem sound_step {s s' : Spooler} {event : SpoolEvent} (hs : s.Sound)
    (hstep : Step s event s') (hcareful : s.Careful event) : s'.Sound := by
  cases hstep with
  | start _ hnext => exact Down.start hs hnext
  | crash => exact Up.crash hs hcareful
  | scan | scanned => exact hs
  | skip =>
      refine Up.shrink hs (fun _ _ _ => rfl) rfl (fun _ => id) ?_
      intro name hreq
      rcases update_ne_none hreq with hreq | ⟨hreq, -⟩
      · exact hreq
      · exact absurd rfl hreq
  | drop =>
      refine Up.shrink hs (fun _ _ _ => rfl) rfl ?_ (fun _ => id)
      intro name hdata
      rcases update_eq_true hdata with hdata | ⟨hdata, -⟩
      · exact hdata
      · cases hdata
  | @newjob spool life t hscan hpc =>
      have hnext := get_newjobno_eq (Up.positive hs) hcareful
      rw [hnext]
      exact Up.newjob hs t hcareful
  | creatData hpc =>
      refine Up.setClient hs ?_ rfl ?_ (fun _ hreq => .inl hreq) nofun ?_
      · rintro _ ⟨⟩
        rw [hpc]
        rfl
      · intro name hdata
        refine (update_eq_true hdata).imp_right ?_
        rintro ⟨-, rfl⟩
        exact ⟨_, by rw [hpc]; rfl, rfl⟩
      · rintro _ ⟨⟩
        have hfresh := Up.fresh hs _ _ hpc
        by_contra hreq
        exact hfresh (.inr hreq)
  | creatReq hpc | writeReq hpc =>
      refine Up.setClient hs ?_ rfl (fun _ hdata => .inl hdata) ?_ nofun nofun
      · rintro _ ⟨⟩
        rw [hpc]
        rfl
      · intro name hreq
        refine (update_ne_none hreq).imp_right ?_
        rintro ⟨-, rfl⟩
        exact ⟨_, by rw [hpc]; rfl, rfl⟩
  | addJob =>
      exact Up.setClient hs nofun rfl (fun _ => Or.inl) (fun _ => Or.inl) nofun nofun
  | fail hfails =>
      refine Up.setClient hs (fun _ => job_of_fails hfails) rfl (fun _ => Or.inl)
        (fun _ => Or.inl) (fun jobid => (ne_of_fails hfails jobid).1) ?_
      intro jobid hstoring
      exact absurd hstoring (ne_of_fails hfails jobid).2
  | unlinkReq hpc =>
      refine Up.setClient hs ?_ rfl (fun _ => Or.inl) ?_ nofun nofun
      · rintro _ ⟨⟩
        rw [hpc]
        rfl
      · intro name hreq
        rcases update_ne_none hreq with hreq | ⟨hreq, -⟩
        · exact .inl hreq
        · exact absurd rfl hreq
  | unlinkData hpc =>
      refine Up.setClient hs nofun rfl ?_ (fun _ => Or.inl) nofun nofun
      intro name hdata
      rcases update_eq_true hdata with hdata | ⟨hdata, -⟩
      · exact .inl hdata
      · cases hdata
  | pickup | cancel | defer => exact Up.shrink hs nofun rfl (fun _ => id) (fun _ => id)
  | format => exact Up.format hs _
  | update hpc => exact Up.update hs hpc
  | removeData =>
      refine Up.shrink hs nofun rfl ?_ (fun _ => id)
      intro name hdata
      rcases update_eq_true hdata with hdata | ⟨hdata, -⟩
      · exact hdata
      · cases hdata
  | removeReq =>
      refine Up.shrink hs nofun rfl (fun _ => id) ?_
      intro name hreq
      rcases update_ne_none hreq with hreq | ⟨hreq, -⟩
      · exact hreq
      · exact absurd rfl hreq

theorem sound_start : start.Sound where
  recorded := .inl rfl
  named := by
    rintro name (hdata | hreq)
    · cases hdata
    · exact absurd rfl hreq
  ahead := by
    rintro junk next - name jobid (hdata | hreq)
    · cases hdata
    · exact absurd rfl hreq

end Spooler

end ApueCourse.Print
