import ApueCourse.Memory.Links
import ApueCourse.Transition.Run

/-! The job queue of `printd.c` with the threads that call `add_job` and the printer
thread. -/

namespace ApueCourse.Print

open Memory Transition

/-- `struct job` without its links. -/
structure Job (Req : Type) where
  jobid : Int
  req : Req

structure Queue (Req : Type) where
  nodes : Nodes (Job Req)
  jobhead : Option Addr
  jobtail : Option Addr

namespace Queue

variable {Req : Type}

/-- The section of `add_job` under `joblock`. -/
def add_job (q : Queue Req) (jp : Addr) : Option (Queue Req) := do
  let nodes ← q.nodes.setPrev jp q.jobtail
  match q.jobtail with
  | none => return { nodes, jobhead := some jp, jobtail := some jp }
  | some tail => do
      let nodes ← nodes.setNext tail (some jp)
      return { q with nodes, jobtail := some jp }

def replace_job (q : Queue Req) (jp : Addr) : Option (Queue Req) := do
  let nodes ← q.nodes.setPrev jp none
  let nodes ← nodes.setNext jp q.jobhead
  match q.jobhead with
  | none => return { nodes, jobhead := some jp, jobtail := some jp }
  | some head => do
      let nodes ← nodes.setPrev head (some jp)
      return { q with nodes, jobhead := some jp }

def remove_job (q : Queue Req) (target : Addr) : Option (Queue Req) := do
  let node ← q.nodes target
  let q ← match node.next with
    | some next => do
        let nodes ← q.nodes.setPrev next node.prev
        pure { q with nodes }
    | none => pure { q with jobtail := node.prev }
  let node ← q.nodes target
  match node.prev with
  | some prev => do
      let nodes ← q.nodes.setNext prev node.next
      return { q with nodes }
  | none => return { q with jobhead := node.next }

def free (q : Queue Req) (jp : Addr) : Queue Req :=
  { q with nodes := Function.update q.nodes jp none }

def Holds (q : Queue Req) (addrs : List Addr) : Prop :=
  q.nodes.Linked q.jobhead q.jobtail addrs

theorem add_job_eq (q : Queue Req) (jp : Addr) :
    q.add_job jp = do
      let nodes ← q.nodes.setPrev jp q.jobtail
      let nodes ← nodes.linkNext q.jobtail (some jp)
      return { nodes, jobhead := if q.jobtail = none then some jp else q.jobhead,
               jobtail := some jp } := by
  unfold add_job
  cases q.jobtail <;> rfl

theorem replace_job_eq (q : Queue Req) (jp : Addr) :
    q.replace_job jp = do
      let nodes ← q.nodes.setPrev jp none
      let nodes ← nodes.setNext jp q.jobhead
      let nodes ← nodes.linkPrev q.jobhead (some jp)
      return { nodes, jobhead := some jp,
               jobtail := if q.jobhead = none then some jp else q.jobtail } := by
  unfold replace_job
  cases q.jobhead <;> rfl

theorem remove_job_eq {q : Queue Req} {target : Addr} {node : Node (Job Req)}
    {nodes₁ nodes₂ : Nodes (Job Req)} (hnode : q.nodes target = some node)
    (hset₁ : q.nodes.linkPrev node.next node.prev = some nodes₁)
    (hnode₁ : nodes₁ target = some node)
    (hset₂ : nodes₁.linkNext node.prev node.next = some nodes₂) :
    q.remove_job target = some
      { nodes := nodes₂, jobhead := if node.prev = none then node.next else q.jobhead,
        jobtail := if node.next = none then node.prev else q.jobtail } := by
  obtain ⟨next, prev, job⟩ := node
  cases next with
  | none =>
      obtain rfl := Option.some.inj hset₁
      cases prev with
      | none =>
          obtain rfl := Option.some.inj hset₂
          simp [remove_job, hnode]
      | some prev =>
          simp only [Nodes.linkNext] at hset₂
          simp [remove_job, hnode, hset₂]
  | some next =>
      simp only [Nodes.linkPrev] at hset₁
      cases prev with
      | none =>
          obtain rfl := Option.some.inj hset₂
          simp [remove_job, hnode, hset₁, hnode₁]
      | some prev =>
          simp only [Nodes.linkNext] at hset₂
          simp [remove_job, hnode, hset₁, hnode₁, hset₂]

theorem add_job_holds {q : Queue Req} {addrs : List Addr} {jp : Addr}
    {node : Node (Job Req)} (hq : q.Holds addrs) (hjp : jp ∉ addrs)
    (hnode : q.nodes jp = some node) (hnext : node.next = none) :
    ∃ q', q.add_job jp = some q' ∧ q'.Holds (addrs ++ [jp]) ∧
      q'.nodes.vals = q.nodes.vals ∧
        ∀ a, a ≠ jp → a ∉ addrs → q'.nodes a = q.nodes a := by
  have hset : q.nodes.setPrev jp q.jobtail =
      some (Function.update q.nodes jp (some { node with prev := q.jobtail })) := by
    rw [Nodes.setPrev, hnode]
    rfl
  have hlinked : Nodes.Linked
      (Function.update q.nodes jp (some { node with prev := q.jobtail }))
      q.jobhead q.jobtail addrs := ⟨hq.segment.update hjp, hq.nodup⟩
  obtain ⟨nodes, hlink, hback⟩ :=
    hlinked.pushBack hjp (Function.update_self ..) hnext rfl
  refine ⟨⟨nodes, if q.jobtail = none then some jp else q.jobhead, some jp⟩,
    ?_, hback, ?_, ?_⟩
  · simp [add_job_eq, hset, hlink]
  · exact (Nodes.linkNext_vals hlink).trans (Nodes.setPrev_vals hset)
  · intro a ha hmem
    exact (Nodes.linkNext_other hlink (hq.tail_mem hmem)).trans (Function.update_of_ne ha ..)

theorem replace_job_holds {q : Queue Req} {addrs : List Addr} {jp : Addr}
    {node : Node (Job Req)} (hq : q.Holds addrs) (hjp : jp ∉ addrs)
    (hnode : q.nodes jp = some node) :
    ∃ q', q.replace_job jp = some q' ∧ q'.Holds (jp :: addrs) ∧
      q'.nodes.vals = q.nodes.vals ∧
        ∀ a, a ≠ jp → a ∉ addrs → q'.nodes a = q.nodes a := by
  obtain ⟨nodes₁, hset₁⟩ : ∃ nodes₁, q.nodes.setPrev jp none = some nodes₁ := by
    rw [Nodes.setPrev, hnode]
    exact ⟨_, rfl⟩
  obtain ⟨node', hnode', rfl⟩ := Nodes.setPrev_eq_some hset₁
  obtain ⟨nodes₂, hset₂⟩ : ∃ nodes₂, Nodes.setNext
      (Function.update q.nodes jp (some { node' with prev := none })) jp q.jobhead =
        some nodes₂ := by
    rw [Nodes.setNext, Function.update_self]
    exact ⟨_, rfl⟩
  obtain ⟨node₂, hnode₂, rfl⟩ := Nodes.setNext_eq_some hset₂
  rw [Function.update_self] at hnode₂
  obtain rfl := Option.some.inj hnode₂
  have hlinked : Nodes.Linked (Function.update (Function.update q.nodes jp
      (some { node' with prev := none })) jp
        (some { node' with prev := none, next := q.jobhead }))
      q.jobhead q.jobtail addrs := ⟨(hq.segment.update hjp).update hjp, hq.nodup⟩
  obtain ⟨nodes, hlink, hfront⟩ :=
    hlinked.pushFront hjp (Function.update_self ..) rfl rfl
  refine ⟨⟨nodes, some jp, if q.jobhead = none then some jp else q.jobtail⟩,
    ?_, hfront, ?_, ?_⟩
  · simp only [replace_job_eq, hset₁, Option.bind_eq_bind, Option.bind_some]
    rw [hset₂, Option.bind_some]
    exact congrArg (Option.bind · _) hlink
  · exact (Nodes.linkPrev_vals hlink).trans
      ((Nodes.setNext_vals hset₂).trans (Nodes.setPrev_vals hset₁))
  · intro a ha hmem
    refine (Nodes.linkPrev_other hlink (hq.head_mem hmem)).trans ?_
    rw [Function.update_of_ne ha, Function.update_of_ne ha]

theorem remove_job_holds {q : Queue Req} {front back : List Addr} {target : Addr}
    (hq : q.Holds (front ++ target :: back)) :
    ∃ q', q.remove_job target = some q' ∧ q'.Holds (front ++ back) ∧
      q'.nodes.vals = q.nodes.vals ∧
        ∀ a, a ∉ front → a ∉ back → q'.nodes a = q.nodes a := by
  obtain ⟨node, nodes₁, nodes₂, hnode, hset₁, hnode₁, hset₂, hother, hlinked⟩ := hq.remove
  refine ⟨_, remove_job_eq hnode hset₁ hnode₁ hset₂, hlinked, ?_, hother⟩
  exact (Nodes.linkNext_vals hset₂).trans (Nodes.linkPrev_vals hset₁)

end Queue

/-- A thread in `add_job`: `filled` between `malloc` and the lock, `linked` when it has
released the lock and is about to call `pthread_cond_signal`. -/
inductive AdderPc (Req : Type)
  | idle
  | filled (jp : Addr) (job : Job Req)
  | linked

/-- `top` is in front of the lock, or behind it at the test of `jobhead`; `waiting` is
blocked on `jobwait`. -/
inductive PrinterPc
  | top
  | waiting
  | holding (jp : Addr)

structure Printd (Req : Type) where
  queue : Queue Req
  adder : Nat → AdderPc Req
  printer : PrinterPc

/-- `prev` is what `malloc` leaves in the link that `add_job` sets under the lock only;
`spurious` is a return of `pthread_cond_wait` without a signal. -/
inductive Event (Req : Type)
  | malloc (t : Nat) (jp : Addr) (prev : Option Addr) (job : Job Req)
  | link (t : Nat) (jp : Addr) (job : Job Req)
  | signal (t : Nat)
  | wait
  | spurious
  | pickup (jp : Addr)
  | free (jp : Addr)
  | replace (jp : Addr)

namespace Printd

variable {Req : Type}

/-- The steps that are the threads' turn.  The results of `add_job`, `replace_job` and
`remove_job` must be there for a step: a thread without them has touched memory that
is not allocated. -/
inductive Step : Printd Req → Event Req → Printd Req → Prop
  | malloc {s : Printd Req} {t : Nat} {jp : Addr} {prev : Option Addr} {job : Job Req}
      (hpc : s.adder t = .idle) (hfresh : s.queue.nodes jp = none) :
      Step s (.malloc t jp prev job)
        { s with
          queue := { s.queue with
            nodes := Function.update s.queue.nodes jp
              (some { next := none, prev, val := job }) }
          adder := Function.update s.adder t (.filled jp job) }
  | link {s : Printd Req} {t : Nat} {jp : Addr} {job : Job Req} {queue : Queue Req}
      (hpc : s.adder t = .filled jp job) (hqueue : s.queue.add_job jp = some queue) :
      Step s (.link t jp job)
        { s with queue, adder := Function.update s.adder t .linked }
  | signal {s : Printd Req} {t : Nat} (hpc : s.adder t = .linked) :
      Step s (.signal t)
        { s with
          adder := Function.update s.adder t .idle
          printer := match s.printer with
            | .waiting => .top
            | pc => pc }
  | wait {s : Printd Req} (hpc : s.printer = .top) (hhead : s.queue.jobhead = none) :
      Step s .wait { s with printer := .waiting }
  | spurious {s : Printd Req} (hpc : s.printer = .waiting) :
      Step s .spurious { s with printer := .top }
  | pickup {s : Printd Req} {jp : Addr} {queue : Queue Req} (hpc : s.printer = .top)
      (hhead : s.queue.jobhead = some jp) (hqueue : s.queue.remove_job jp = some queue) :
      Step s (.pickup jp) { s with queue, printer := .holding jp }
  | free {s : Printd Req} {jp : Addr} (hpc : s.printer = .holding jp) :
      Step s (.free jp) { s with queue := s.queue.free jp, printer := .top }
  | replace {s : Printd Req} {jp : Addr} {queue : Queue Req}
      (hpc : s.printer = .holding jp) (hqueue : s.queue.replace_job jp = some queue) :
      Step s (.replace jp) { s with queue, printer := .top }

def start : Printd Req where
  queue := { nodes := fun _ => none, jobhead := none, jobtail := none }
  adder _ := .idle
  printer := .top

end Printd

def printd (Req : Type) : System (Printd Req) (Event Req) where
  Initial s := s = .start
  Step := Printd.Step

/-! What becomes of the jobs. -/

/-- A job that has been added, the one with this number. -/
structure Entry (Req : Type) where
  number : Nat
  jp : Addr
  job : Job Req

structure Ledger (Req : Type) where
  waiting : List (Entry Req)
  inHand : Option (Entry Req)
  finished : List (Entry Req)
  added : List (Entry Req)

namespace Ledger

variable {Req : Type}

/-- A job is added at the end, taken from the front and put back to the front. -/
def record (l : Ledger Req) : Event Req → Ledger Req
  | .link _ jp job =>
      let entry := { number := l.added.length, jp, job }
      { l with waiting := l.waiting ++ [entry], added := l.added ++ [entry] }
  | .pickup _ =>
      match l.waiting with
      | [] => l
      | entry :: rest => { l with waiting := rest, inHand := some entry }
  | .free _ =>
      { l with inHand := none, finished := l.finished ++ l.inHand.toList }
  | .replace _ =>
      { l with waiting := l.inHand.toList ++ l.waiting, inHand := none }
  | .malloc .. | .signal _ | .wait | .spurious => l

def empty : Ledger Req := { waiting := [], inHand := none, finished := [], added := [] }

/-- The jobs that are still in memory. -/
def kept (l : Ledger Req) : List (Entry Req) := l.waiting ++ l.inHand.toList

/-- Every job that has been added is in one place, and there only once. -/
structure Conserved (l : Ledger Req) : Prop where
  placed : (l.kept ++ l.finished).Perm l.added
  numbered : l.added.map Entry.number = List.range l.added.length

end Ledger

def ledger {Req : Type} (trace : List (Event Req)) : Ledger Req :=
  trace.foldl Ledger.record .empty

theorem ledger_snoc {Req : Type} (trace : List (Event Req)) (event : Event Req) :
    ledger (trace ++ [event]) = (ledger trace).record event := by
  rw [ledger, List.foldl_append]
  rfl

namespace Ledger

variable {Req : Type} {l : Ledger Req}

theorem not_mem_waiting {jp : Addr} (hjp : jp ∉ l.kept.map Entry.jp) :
    jp ∉ l.waiting.map Entry.jp := by
  intro hmem
  apply hjp
  rw [kept, List.map_append]
  exact List.mem_append_left _ hmem

theorem Conserved.empty : Conserved (empty : Ledger Req) := ⟨List.Perm.refl _, rfl⟩

theorem Conserved.link (hl : l.Conserved) (t : Nat) (jp : Addr) (job : Job Req) :
    (l.record (.link t jp job)).Conserved := by
  constructor
  · simp only [record, kept, List.append_assoc]
    refine (List.perm_middle.trans (List.Perm.cons _ ?_)).trans
      (List.perm_append_singleton _ _).symm
    simpa [kept] using hl.placed
  · simp [record, hl.numbered, List.range_succ]

theorem record_pickup {entry : Entry Req} {rest : List (Entry Req)}
    (hwaiting : l.waiting = entry :: rest) (jp : Addr) :
    l.record (.pickup jp) = { l with waiting := rest, inHand := some entry } := by
  simp only [record, hwaiting]

theorem Conserved.pickup {entry : Entry Req} {rest : List (Entry Req)}
    (hl : l.Conserved) (hwaiting : l.waiting = entry :: rest) (hhand : l.inHand = none)
    (jp : Addr) : (l.record (.pickup jp)).Conserved := by
  rw [record_pickup hwaiting]
  refine ⟨?_, hl.numbered⟩
  have hplaced := hl.placed
  simp only [kept, hwaiting, hhand, Option.toList_none, List.append_nil,
    Option.toList_some] at hplaced ⊢
  exact ((List.perm_append_singleton _ _).append_right _).trans hplaced

theorem Conserved.free (hl : l.Conserved) (jp : Addr) :
    (l.record (.free jp)).Conserved := by
  refine ⟨?_, hl.numbered⟩
  have hplaced := hl.placed
  simp only [record, kept, Option.toList_none, List.append_nil, List.append_assoc] at hplaced ⊢
  exact (List.Perm.append_left _ List.perm_append_comm).trans hplaced

theorem Conserved.replace (hl : l.Conserved) (jp : Addr) :
    (l.record (.replace jp)).Conserved := by
  refine ⟨?_, hl.numbered⟩
  have hplaced := hl.placed
  simp only [record, kept, Option.toList_none, List.append_nil] at hplaced ⊢
  exact (List.perm_append_comm.append_right _).trans hplaced

end Ledger

def PrinterPc.hand : PrinterPc → Option Addr
  | .holding jp => some jp
  | .top | .waiting => none

namespace Printd

variable {Req : Type}

/-- The daemon's memory is that of a ledger. -/
structure Represents (s : Printd Req) (l : Ledger Req) : Prop where
  linked : s.queue.Holds (l.waiting.map Entry.jp)
  hand : s.printer.hand = l.inHand.map Entry.jp
  apart : (l.kept.map Entry.jp).Nodup
  stored : ∀ entry ∈ l.kept, s.queue.nodes.vals entry.jp = some entry.job
  filled : ∀ t jp job, s.adder t = .filled jp job → jp ∉ l.kept.map Entry.jp ∧
    ∃ prev, s.queue.nodes jp = some { next := none, prev, val := job }
  distinct : ∀ t t' jp job job', s.adder t = .filled jp job →
    s.adder t' = .filled jp job' → t = t'
  woken : s.printer = .waiting → l.waiting ≠ [] → ∃ t, s.adder t = .linked

theorem Represents.start : Represents (start : Printd Req) .empty where
  linked := Nodes.Linked.nil _
  hand := rfl
  apart := List.nodup_nil
  stored _ hentry := nomatch hentry
  filled _ _ _ hpc := nomatch hpc
  distinct _ _ _ _ _ hpc := nomatch hpc
  woken hpc := nomatch hpc

variable {s : Printd Req} {l : Ledger Req}

theorem Represents.fresh (hs : Represents s l) {jp : Addr}
    (hfresh : s.queue.nodes jp = none) : jp ∉ l.kept.map Entry.jp := by
  intro hmem
  obtain ⟨entry, hentry, rfl⟩ := List.mem_map.mp hmem
  have hstored := hs.stored entry hentry
  rw [Nodes.vals, hfresh] at hstored
  cases hstored

theorem Represents.malloc (hs : Represents s l) {t : Nat} {jp : Addr}
    {prev : Option Addr} {job : Job Req} (hpc : s.adder t = .idle)
    (hfresh : s.queue.nodes jp = none) :
    Represents
      { s with
        queue := { s.queue with
          nodes := Function.update s.queue.nodes jp (some { next := none, prev, val := job }) }
        adder := Function.update s.adder t (.filled jp job) }
      (l.record (.malloc t jp prev job)) where
  linked := by
    refine ⟨hs.linked.segment.update ?_, hs.linked.nodup⟩
    exact Ledger.not_mem_waiting (hs.fresh hfresh)
  hand := hs.hand
  apart := hs.apart
  stored := by
    intro entry hentry
    have hne : entry.jp ≠ jp := by
      rintro rfl
      exact hs.fresh hfresh (List.mem_map_of_mem hentry)
    refine Eq.trans ?_ (hs.stored entry hentry)
    exact congrArg (Option.map Node.val) (Function.update_of_ne hne ..)
  filled := by
    intro t' jp' job' hpc'
    simp only [Function.update_apply] at hpc'
    split at hpc'
    · cases hpc'
      exact ⟨hs.fresh hfresh, prev, Function.update_self ..⟩
    · obtain ⟨hkept, prev', hnode⟩ := hs.filled t' jp' job' hpc'
      have hne : jp' ≠ jp := by
        rintro rfl
        rw [hfresh] at hnode
        cases hnode
      exact ⟨hkept, prev', (Function.update_of_ne hne ..).trans hnode⟩
  distinct := by
    have hother : ∀ t' job', s.adder t' ≠ .filled jp job' := by
      intro t' job' hpc'
      obtain ⟨-, prev', hnode⟩ := hs.filled t' jp job' hpc'
      rw [hfresh] at hnode
      cases hnode
    intro t₁ t₂ jp' job₁ job₂ hpc₁ hpc₂
    simp only [Function.update_apply] at hpc₁ hpc₂
    split at hpc₁ <;> split at hpc₂
    · simp_all
    · cases hpc₁
      exact absurd hpc₂ (hother _ _)
    · cases hpc₂
      exact absurd hpc₁ (hother _ _)
    · exact hs.distinct _ _ _ _ _ hpc₁ hpc₂
  woken := by
    intro hprinter hwaiting
    obtain ⟨t', hpc'⟩ := hs.woken hprinter hwaiting
    have hne : t' ≠ t := by
      rintro rfl
      rw [hpc] at hpc'
      cases hpc'
    exact ⟨t', (Function.update_of_ne hne ..).trans hpc'⟩

theorem Represents.link (hs : Represents s l) {t : Nat} {jp : Addr} {job : Job Req}
    {queue : Queue Req} (hpc : s.adder t = .filled jp job)
    (hqueue : s.queue.add_job jp = some queue) :
    Represents { s with queue, adder := Function.update s.adder t .linked }
      (l.record (.link t jp job)) := by
  obtain ⟨hfresh, prev, hnode⟩ := hs.filled t jp job hpc
  obtain ⟨queue', hqueue', hholds, hvals, hother⟩ :=
    Queue.add_job_holds hs.linked (Ledger.not_mem_waiting hfresh) hnode rfl
  obtain rfl := Option.some.inj (hqueue.symm.trans hqueue')
  have hkept : (l.record (.link t jp job)).kept.Perm
      ({ number := l.added.length, jp, job } :: l.kept) := by
    simp only [Ledger.record, Ledger.kept, List.append_assoc]
    exact List.perm_middle
  constructor
  case linked =>
      simp only [Ledger.record, List.map_append]
      exact hholds
  case hand => exact hs.hand
  case apart =>
      rw [(hkept.map _).nodup_iff]
      exact List.nodup_cons.mpr ⟨hfresh, hs.apart⟩
  case stored =>
      intro entry hentry
      dsimp only
      rw [hvals]
      rcases List.mem_cons.mp (hkept.mem_iff.mp hentry) with rfl | hentry
      · rw [Nodes.vals, hnode]
        rfl
      · exact hs.stored entry hentry
  case filled =>
      intro t' jp' job' hpc'
      simp only [Function.update_apply] at hpc'
      split at hpc'
      · cases hpc'
      · rename_i ht
        obtain ⟨hfresh', prev', hnode'⟩ := hs.filled t' jp' job' hpc'
        have hne : jp' ≠ jp := by
          rintro rfl
          exact ht (hs.distinct _ _ _ _ _ hpc' hpc)
        refine ⟨?_, prev', (hother jp' hne (Ledger.not_mem_waiting hfresh')).trans hnode'⟩
        rw [(hkept.map _).mem_iff]
        exact List.not_mem_cons_of_ne_of_not_mem hne hfresh'
  case distinct =>
      intro t₁ t₂ jp' job₁ job₂ hpc₁ hpc₂
      simp only [Function.update_apply] at hpc₁ hpc₂
      split at hpc₁ <;> split at hpc₂
      · cases hpc₁
      · cases hpc₁
      · cases hpc₂
      · exact hs.distinct _ _ _ _ _ hpc₁ hpc₂
  case woken =>
      intro _ _
      exact ⟨t, Function.update_self ..⟩

theorem Represents.signal (hs : Represents s l) (t : Nat) :
    Represents
      { s with
        adder := Function.update s.adder t .idle
        printer := match s.printer with
          | .waiting => .top
          | pc => pc }
      (l.record (.signal t)) := by
  have hfilled : ∀ {t' : Nat} {jp : Addr} {job : Job Req},
      Function.update s.adder t .idle t' = .filled jp job → s.adder t' = .filled jp job := by
    intro t' jp job hpc'
    rw [Function.update_apply] at hpc'
    split at hpc'
    · cases hpc'
    · exact hpc'
  constructor
  case linked => exact hs.linked
  case hand =>
      refine Eq.trans ?_ hs.hand
      cases s.printer <;> rfl
  case apart => exact hs.apart
  case stored => exact hs.stored
  case filled =>
      intro t' jp job hpc'
      exact hs.filled t' jp job (hfilled hpc')
  case distinct =>
      intro t₁ t₂ jp job₁ job₂ hpc₁ hpc₂
      exact hs.distinct t₁ t₂ jp job₁ job₂ (hfilled hpc₁) (hfilled hpc₂)
  case woken =>
      intro hprinter
      dsimp only at hprinter
      split at hprinter
      · cases hprinter
      · contradiction

/-- A step of the printer thread that leaves memory alone. -/
theorem Represents.printer (hs : Represents s l) {pc : PrinterPc}
    (hhand : pc.hand = s.printer.hand)
    (hwoken : pc = .waiting → l.waiting = []) : Represents { s with printer := pc } l where
  linked := hs.linked
  hand := hhand.trans hs.hand
  apart := hs.apart
  stored := hs.stored
  filled := hs.filled
  distinct := hs.distinct
  woken hpc hwaiting := absurd (hwoken hpc) hwaiting

theorem Represents.jobhead_eq_none_iff (hs : Represents s l) :
    s.queue.jobhead = none ↔ l.waiting = [] := by
  rw [hs.linked.head_eq_none_iff, List.map_eq_nil_iff]

theorem Represents.jobtail_eq_none_iff (hs : Represents s l) :
    s.queue.jobtail = none ↔ l.waiting = [] := by
  rw [hs.linked.tail_eq_none_iff, List.map_eq_nil_iff]

theorem Represents.inHand_eq_none (hs : Represents s l) (hpc : s.printer = .top) :
    l.inHand = none := by
  have hhand := hs.hand
  rw [hpc] at hhand
  exact Option.map_eq_none_iff.mp hhand.symm

theorem Represents.inHand_eq_some (hs : Represents s l) {jp : Addr}
    (hpc : s.printer = .holding jp) : ∃ entry, l.inHand = some entry ∧ entry.jp = jp := by
  have hhand := hs.hand
  rw [hpc] at hhand
  exact Option.map_eq_some_iff.mp hhand.symm

theorem Represents.head (hs : Represents s l) {jp : Addr}
    (hhead : s.queue.jobhead = some jp) :
    ∃ entry rest, l.waiting = entry :: rest ∧ entry.jp = jp := by
  have hmap := hs.linked.head_eq
  rw [hhead] at hmap
  cases hwaiting : l.waiting with
  | nil =>
      rw [hwaiting] at hmap
      cases hmap
  | cons entry rest =>
      rw [hwaiting] at hmap
      exact ⟨entry, rest, rfl, (Option.some.inj hmap).symm⟩

theorem Represents.pickup (hs : Represents s l) {entry : Entry Req}
    {rest : List (Entry Req)} {queue : Queue Req} (hpc : s.printer = .top)
    (hwaiting : l.waiting = entry :: rest)
    (hqueue : s.queue.remove_job entry.jp = some queue) :
    Represents { s with queue, printer := .holding entry.jp }
      (l.record (.pickup entry.jp)) := by
  have hlinked : s.queue.Holds ([] ++ entry.jp :: rest.map Entry.jp) := by
    have hlinked := hs.linked
    rw [hwaiting] at hlinked
    exact hlinked
  obtain ⟨queue', hqueue', hholds, hvals, hother⟩ := Queue.remove_job_holds hlinked
  obtain rfl := Option.some.inj (hqueue.symm.trans hqueue')
  have hkept : (l.record (.pickup entry.jp)).kept.Perm l.kept := by
    rw [Ledger.record_pickup hwaiting, Ledger.kept, Ledger.kept, hwaiting,
      hs.inHand_eq_none hpc, Option.toList_none, List.append_nil]
    exact List.perm_append_singleton ..
  constructor
  case linked =>
      rw [Ledger.record_pickup hwaiting]
      exact hholds
  case hand =>
      rw [Ledger.record_pickup hwaiting]
      rfl
  case apart =>
      rw [(hkept.map _).nodup_iff]
      exact hs.apart
  case stored =>
      intro entry' hentry
      dsimp only
      rw [hvals]
      exact hs.stored entry' (hkept.mem_iff.mp hentry)
  case filled =>
      intro t jp job hpc'
      obtain ⟨hfresh, prev, hnode⟩ := hs.filled t jp job hpc'
      refine ⟨(hkept.map _).mem_iff.not.mpr hfresh, prev, ?_⟩
      refine (hother jp List.not_mem_nil ?_).trans hnode
      intro hmem
      apply Ledger.not_mem_waiting hfresh
      rw [hwaiting]
      exact List.mem_cons_of_mem _ hmem
  case distinct => exact hs.distinct
  case woken =>
      intro hprinter
      cases hprinter

theorem Represents.free (hs : Represents s l) {entry : Entry Req}
    (hhand : l.inHand = some entry) :
    Represents { s with queue := s.queue.free entry.jp, printer := .top }
      (l.record (.free entry.jp)) := by
  have hkept : l.kept = (l.record (.free entry.jp)).kept ++ [entry] := by
    simp [Ledger.kept, Ledger.record, hhand]
  have hapart := hs.apart
  rw [hkept, List.map_append, List.nodup_append_comm] at hapart
  obtain ⟨hentry, hapart⟩ : entry.jp ∉ (l.record (.free entry.jp)).kept.map Entry.jp ∧
      ((l.record (.free entry.jp)).kept.map Entry.jp).Nodup := List.nodup_cons.mp hapart
  constructor
  case linked =>
      refine ⟨hs.linked.segment.update ?_, hs.linked.nodup⟩
      exact Ledger.not_mem_waiting (l := l.record (.free entry.jp)) hentry
  case hand => rfl
  case apart => exact hapart
  case stored =>
      intro entry' hmem
      have hne : entry'.jp ≠ entry.jp := by
        intro heq
        exact hentry (heq ▸ List.mem_map_of_mem hmem)
      refine Eq.trans ?_ (hs.stored entry' (hkept ▸ List.mem_append_left _ hmem))
      exact congrArg (Option.map Node.val) (Function.update_of_ne hne ..)
  case filled =>
      intro t jp job hpc
      obtain ⟨hfresh, prev, hnode⟩ := hs.filled t jp job hpc
      rw [hkept, List.map_append, List.mem_append, not_or] at hfresh
      have hne : jp ≠ entry.jp := fun heq => hfresh.2 (List.mem_singleton.mpr heq)
      exact ⟨hfresh.1, prev, (Function.update_of_ne hne ..).trans hnode⟩
  case distinct => exact hs.distinct
  case woken =>
      intro hprinter
      cases hprinter

theorem Represents.replace (hs : Represents s l) {entry : Entry Req} {queue : Queue Req}
    (hhand : l.inHand = some entry)
    (hqueue : s.queue.replace_job entry.jp = some queue) :
    Represents { s with queue, printer := .top } (l.record (.replace entry.jp)) := by
  have hkept : (l.record (.replace entry.jp)).kept.Perm l.kept := by
    simp only [Ledger.record, Ledger.kept, Option.toList_none, List.append_nil]
    exact List.perm_append_comm
  have hentry : entry ∈ l.kept := by
    rw [Ledger.kept, hhand]
    exact List.mem_append_right _ (List.mem_singleton_self _)
  have hapart := hs.apart
  rw [← (hkept.map _).nodup_iff] at hapart
  simp only [Ledger.kept, Ledger.record, hhand, Option.toList_some, Option.toList_none,
    List.append_nil, List.singleton_append, List.map_cons] at hapart
  obtain ⟨hjp, -⟩ := List.nodup_cons.mp hapart
  obtain ⟨node, hnode, -⟩ := Option.map_eq_some_iff.mp (hs.stored entry hentry)
  obtain ⟨queue', hqueue', hholds, hvals, hother⟩ :=
    Queue.replace_job_holds hs.linked hjp hnode
  obtain rfl := Option.some.inj (hqueue.symm.trans hqueue')
  constructor
  case linked =>
      simp only [Ledger.record, hhand, Option.toList_some, List.singleton_append]
      exact hholds
  case hand => rfl
  case apart =>
      rw [(hkept.map _).nodup_iff]
      exact hs.apart
  case stored =>
      intro entry' hmem
      dsimp only
      rw [hvals]
      exact hs.stored entry' (hkept.mem_iff.mp hmem)
  case filled =>
      intro t jp job hpc
      obtain ⟨hfresh, prev, hnode⟩ := hs.filled t jp job hpc
      refine ⟨(hkept.map _).mem_iff.not.mpr hfresh, prev, ?_⟩
      refine (hother jp ?_ (Ledger.not_mem_waiting hfresh)).trans hnode
      rintro rfl
      exact hfresh (List.mem_map_of_mem hentry)
  case distinct => exact hs.distinct
  case woken =>
      intro hprinter
      cases hprinter

theorem Represents.step {s' : Printd Req} {event : Event Req} (hs : Represents s l)
    (hl : l.Conserved) (hstep : Step s event s') :
    Represents s' (l.record event) ∧ (l.record event).Conserved := by
  cases hstep with
  | malloc hpc hfresh => exact ⟨hs.malloc hpc hfresh, hl⟩
  | link hpc hqueue => exact ⟨hs.link hpc hqueue, hl.link ..⟩
  | signal => exact ⟨hs.signal _, hl⟩
  | wait hpc hhead =>
      refine ⟨hs.printer ?_ (fun _ => hs.jobhead_eq_none_iff.mp hhead), hl⟩
      rw [hpc]
      rfl
  | spurious hpc =>
      refine ⟨hs.printer ?_ nofun, hl⟩
      rw [hpc]
      rfl
  | pickup hpc hhead hqueue =>
      obtain ⟨entry, rest, hwaiting, rfl⟩ := hs.head hhead
      exact ⟨hs.pickup hpc hwaiting hqueue, hl.pickup hwaiting (hs.inHand_eq_none hpc) _⟩
  | free hpc =>
      obtain ⟨entry, hhand, rfl⟩ := hs.inHand_eq_some hpc
      exact ⟨hs.free hhand, hl.free _⟩
  | replace hpc hqueue =>
      obtain ⟨entry, hhand, rfl⟩ := hs.inHand_eq_some hpc
      exact ⟨hs.replace hhand hqueue, hl.replace _⟩

theorem represents_of_run {start s : Printd Req} {trace : List (Event Req)}
    (hstart : (printd Req).Initial start) (hrun : (printd Req).Run start trace s) :
    Represents s (ledger trace) ∧ (ledger trace).Conserved := by
  refine System.Run.history_invariant
    (I := fun trace s => Represents s (ledger trace) ∧ (ledger trace).Conserved)
    ?_ ?_ hstart hrun
  · rintro _ rfl
    exact ⟨Represents.start, Ledger.Conserved.empty⟩
  · rintro trace s event s' ⟨hs, hl⟩ hstep
    rw [ledger_snoc]
    exact hs.step hl hstep

/-- No thread is about to touch memory that is not allocated. -/
structure Safe (s : Printd Req) : Prop where
  add : ∀ t jp job, s.adder t = .filled jp job → (s.queue.add_job jp).isSome
  remove : ∀ jp, s.queue.jobhead = some jp → (s.queue.remove_job jp).isSome
  replace : ∀ jp, s.printer = .holding jp → (s.queue.replace_job jp).isSome

theorem Represents.safe (hs : Represents s l) : s.Safe where
  add := by
    intro t jp job hpc
    obtain ⟨hfresh, prev, hnode⟩ := hs.filled t jp job hpc
    obtain ⟨queue, hqueue, -⟩ :=
      Queue.add_job_holds hs.linked (Ledger.not_mem_waiting hfresh) hnode rfl
    exact Option.isSome_of_eq_some hqueue
  remove := by
    intro jp hhead
    obtain ⟨entry, rest, hwaiting, rfl⟩ := hs.head hhead
    have hlinked : s.queue.Holds ([] ++ entry.jp :: rest.map Entry.jp) := by
      have hlinked := hs.linked
      rw [hwaiting] at hlinked
      exact hlinked
    obtain ⟨queue, hqueue, -⟩ := Queue.remove_job_holds hlinked
    exact Option.isSome_of_eq_some hqueue
  replace := by
    intro jp hpc
    obtain ⟨entry, hhand, rfl⟩ := hs.inHand_eq_some hpc
    have hapart := hs.apart
    rw [Ledger.kept, hhand, List.map_append, List.nodup_append_comm] at hapart
    obtain ⟨hjp, -⟩ := List.nodup_cons.mp hapart
    have hentry : entry ∈ l.kept := by
      rw [Ledger.kept, hhand]
      exact List.mem_append_right _ (List.mem_singleton_self _)
    obtain ⟨node, hnode, -⟩ := Option.map_eq_some_iff.mp (hs.stored entry hentry)
    obtain ⟨queue, hqueue, -⟩ := Queue.replace_job_holds hs.linked hjp hnode
    exact Option.isSome_of_eq_some hqueue

/-- The queue in memory is the ledger's, no job is lost or there twice, and the printer
does not sleep on a job unless a signal is still to come. -/
theorem queue_conserves_jobs {start s : Printd Req} {trace : List (Event Req)}
    (hstart : (printd Req).Initial start) (hrun : (printd Req).Run start trace s) :
    s.queue.Holds ((ledger trace).waiting.map Entry.jp) ∧
    (s.queue.jobhead = none ↔ (ledger trace).waiting = []) ∧
    (s.queue.jobtail = none ↔ (ledger trace).waiting = []) ∧
    s.printer.hand = (ledger trace).inHand.map Entry.jp ∧
    (∀ entry ∈ (ledger trace).kept, s.queue.nodes.vals entry.jp = some entry.job) ∧
    (ledger trace).Conserved ∧ s.Safe ∧
    (s.printer = .waiting → s.queue.jobhead ≠ none → ∃ t, s.adder t = .linked) := by
  obtain ⟨hs, hl⟩ := represents_of_run hstart hrun
  refine ⟨hs.linked, hs.jobhead_eq_none_iff, hs.jobtail_eq_none_iff, hs.hand, hs.stored,
    hl, hs.safe, ?_⟩
  intro hpc hhead
  exact hs.woken hpc (fun hwaiting => hhead (hs.jobhead_eq_none_iff.mpr hwaiting))

/-- The printer falls asleep, a job is added and waits for its signal. -/
theorem queue_conserves_jobs_asleep :
    ∃ s : Printd Unit, s.printer = .waiting ∧ s.queue.jobhead = some 8 ∧
      ∃ t, s.adder t = .linked := by
  have hwait : (printd Unit).Step .start .wait { start with printer := .waiting } :=
    .wait rfl rfl
  have hrun := ((System.Run.single hwait).snoc
    (@Step.malloc Unit _ 3 8 none ⟨1, ()⟩ rfl rfl)).snoc
      (Step.link (Function.update_self ..) rfl)
  exact ⟨_, rfl, rfl, (queue_conserves_jobs rfl hrun).2.2.2.2.2.2.2 rfl nofun⟩

end Printd

end ApueCourse.Print
