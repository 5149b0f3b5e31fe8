import ApueCourse.Memory.Links
import ApueCourse.Transition.Run

/-! The list of worker threads of `printd.c`. -/

namespace ApueCourse.Print

open Memory Transition

/-- `struct worker_thread` without its links. -/
structure Worker where
  tid : Nat
  sockfd : Int
  deriving DecidableEq

structure WorkerList where
  nodes : Nodes Worker
  workers : Option Addr

namespace WorkerList

/-- The section of `add_worker` under `workerlock`.  With a list that is not empty,
`workers` stays as it is. -/
def add_worker (list : WorkerList) (wtp : Addr) : Option WorkerList := do
  let nodes ← list.nodes.setPrev wtp none
  let nodes ← nodes.setNext wtp list.workers
  match list.workers with
  | none => return { nodes, workers := some wtp }
  | some first => do
      let nodes ← nodes.setPrev first (some wtp)
      return { list with nodes }

/-- The threads that the loop cancels, `wtp` being where it is.  Without a result it
reads memory that is not allocated, or runs for longer than `fuel`. -/
def kill_workers (nodes : Nodes Worker) : Nat → Option Addr → Option (List Nat)
  | _, none => some []
  | 0, some _ => none
  | fuel + 1, some wtp => do
      let node ← nodes wtp
      let tids ← kill_workers nodes fuel node.next
      return node.val.tid :: tids

/-- The loop of `client_cleanup`, up to its `break`. -/
def find (nodes : Nodes Worker) (tid : Nat) : Nat → Option Addr → Option (Option Addr)
  | _, none => some none
  | 0, some _ => none
  | fuel + 1, some wtp => do
      let node ← nodes wtp
      if node.val.tid = tid then return some wtp
      else find nodes tid fuel node.next

def unlink (list : WorkerList) (wtp : Addr) : Option WorkerList := do
  let node ← list.nodes wtp
  let nodes ← list.nodes.linkPrev node.next node.prev
  let node ← nodes wtp
  match node.prev with
  | some prev => do
      let nodes ← nodes.setNext prev node.next
      return { list with nodes }
  | none => return { nodes, workers := node.next }

/-- The section of `client_cleanup` under `workerlock`, with the value of `wtp` behind
it. -/
def client_cleanup (list : WorkerList) (tid fuel : Nat) :
    Option (Option Addr × WorkerList) := do
  match ← find list.nodes tid fuel list.workers with
  | none => return (none, list)
  | some wtp => do
      let list ← list.unlink wtp
      return (some wtp, list)

def free (list : WorkerList) (wtp : Addr) : WorkerList :=
  { list with nodes := Function.update list.nodes wtp none }

end WorkerList

/-- `filled` is a thread between `malloc` and the lock in `add_worker`, `leaving` one
that has left the section of `client_cleanup` with `wtp`. -/
inductive WorkerPc
  | connected
  | filled (wtp : Addr)
  | live
  | leaving (wtp : Option Addr)
  deriving DecidableEq

structure WorkerThread where
  sockfd : Int
  pc : WorkerPc

/-- `none` in place of a thread is an identifier without one. -/
structure Daemon where
  list : WorkerList
  thread : Nat → Option WorkerThread

inductive WorkerEvent
  | connect (tid : Nat) (sockfd : Int)
  | malloc (tid : Nat) (wtp : Addr) (next prev : Option Addr)
  | add (tid : Nat) (sockfd : Int)
  | cleanup (tid : Nat)
  | close (tid : Nat) (sockfd : Int)
  | leave (tid : Nat)

namespace Daemon

/-- A thread that gets no memory in `add_worker` exits, and with it `client_cleanup`
runs. -/
inductive Step : Daemon → WorkerEvent → Daemon → Prop
  | connect {s : Daemon} {tid : Nat} {sockfd : Int} (hthread : s.thread tid = none) :
      Step s (.connect tid sockfd)
        { s with thread := Function.update s.thread tid (some ⟨sockfd, .connected⟩) }
  | malloc {s : Daemon} {tid : Nat} {sockfd : Int} {wtp : Addr} {next prev : Option Addr}
      (hthread : s.thread tid = some ⟨sockfd, .connected⟩)
      (hfresh : s.list.nodes wtp = none) :
      Step s (.malloc tid wtp next prev)
        { list := { s.list with
            nodes := Function.update s.list.nodes wtp
              (some { next, prev, val := { tid, sockfd } }) }
          thread := Function.update s.thread tid (some ⟨sockfd, .filled wtp⟩) }
  | add {s : Daemon} {tid : Nat} {sockfd : Int} {wtp : Addr} {list : WorkerList}
      (hthread : s.thread tid = some ⟨sockfd, .filled wtp⟩)
      (hlist : s.list.add_worker wtp = some list) :
      Step s (.add tid sockfd)
        { list, thread := Function.update s.thread tid (some ⟨sockfd, .live⟩) }
  | cleanup {s : Daemon} {tid fuel : Nat} {sockfd : Int} {pc : WorkerPc}
      {wtp : Option Addr} {list : WorkerList}
      (hthread : s.thread tid = some ⟨sockfd, pc⟩) (hpc : pc = .connected ∨ pc = .live)
      (hlist : s.list.client_cleanup tid fuel = some (wtp, list)) :
      Step s (.cleanup tid)
        { list, thread := Function.update s.thread tid (some ⟨sockfd, .leaving wtp⟩) }
  | close {s : Daemon} {tid : Nat} {sockfd : Int} {wtp : Addr} {node : Node Worker}
      (hthread : s.thread tid = some ⟨sockfd, .leaving (some wtp)⟩)
      (hnode : s.list.nodes wtp = some node) :
      Step s (.close tid node.val.sockfd)
        { list := s.list.free wtp, thread := Function.update s.thread tid none }
  | leave {s : Daemon} {tid : Nat} {sockfd : Int}
      (hthread : s.thread tid = some ⟨sockfd, .leaving none⟩) :
      Step s (.leave tid) { s with thread := Function.update s.thread tid none }

def start : Daemon where
  list := { nodes := fun _ => none, workers := none }
  thread _ := none

def system : System Daemon WorkerEvent where
  Initial s := s = start
  Step := Step

/-- Between its `add_worker` and its `client_cleanup`. -/
def Live (s : Daemon) (worker : Worker) : Prop :=
  s.thread worker.tid = some ⟨worker.sockfd, .live⟩

end Daemon

structure WorkerEntry where
  wtp : Addr
  worker : Worker

/-- The list from `workers` on is doubly linked, without freed memory, and has exactly
the live threads, each once. -/
structure Tracks (s : Daemon) (entries : List WorkerEntry) : Prop where
  linked : ∃ tail, s.list.nodes.Linked s.list.workers tail (entries.map WorkerEntry.wtp)
  stored : ∀ entry ∈ entries, s.list.nodes.vals entry.wtp = some entry.worker
  once : (entries.map fun entry => entry.worker.tid).Nodup
  live : ∀ worker, worker ∈ entries.map WorkerEntry.worker ↔ s.Live worker

def Tracked (s : Daemon) : Prop := ∃ entries, Tracks s entries

/-- The sockets of `tid` that its threads have put into the list. -/
def added (tid : Nat) (trace : List WorkerEvent) : List Int :=
  trace.filterMap fun event => match event with
    | .add t sockfd => if t = tid then some sockfd else none
    | _ => none

def closed (tid : Nat) (trace : List WorkerEvent) : List Int :=
  trace.filterMap fun event => match event with
    | .close t sockfd => if t = tid then some sockfd else none
    | _ => none

/-- What a thread has put into the list and not closed yet. -/
def unclosed : Option WorkerThread → List Int
  | some ⟨sockfd, .live⟩ => [sockfd]
  | some ⟨sockfd, .leaving (some _)⟩ => [sockfd]
  | _ => []

namespace WorkerList

theorem find_eq {nodes : Nodes Worker} {entries : List WorkerEntry} {tid fuel : Nat}
    {prev first last wtp : Option Addr}
    (hseg : nodes.Segment prev first (entries.map WorkerEntry.wtp) last none)
    (hstored : ∀ entry ∈ entries, nodes.vals entry.wtp = some entry.worker)
    (hfind : find nodes tid fuel first = some wtp) :
    wtp = (entries.find? (·.worker.tid = tid)).map WorkerEntry.wtp := by
  induction entries generalizing prev first fuel with
  | nil =>
      obtain ⟨rfl, -⟩ := hseg
      simpa [find] using hfind.symm
  | cons entry rest ih =>
      obtain ⟨rfl, node, hnode, -, hrest⟩ := hseg
      have hval : node.val = entry.worker := by
        have hentry := hstored entry List.mem_cons_self
        rw [Nodes.vals, hnode] at hentry
        exact Option.some.inj hentry
      cases fuel with
      | zero => cases hfind
      | succ fuel =>
          simp only [find, hnode, Option.bind_eq_bind, Option.bind_some, hval] at hfind
          split at hfind
          · rename_i htid
            rw [List.find?_cons_of_pos (by simpa using htid)]
            exact (Option.some.inj hfind).symm
          · rename_i htid
            rw [List.find?_cons_of_neg (by simpa using htid)]
            exact ih hrest (fun e he => hstored e (List.mem_cons_of_mem _ he)) hfind

theorem find_isSome {nodes : Nodes Worker} {addrs : List Addr} {tid fuel : Nat}
    {prev first last : Option Addr} (hseg : nodes.Segment prev first addrs last none)
    (hfuel : addrs.length ≤ fuel) : (find nodes tid fuel first).isSome := by
  induction addrs generalizing prev first fuel with
  | nil =>
      obtain ⟨rfl, -⟩ := hseg
      simp [find]
  | cons a rest ih =>
      obtain ⟨rfl, node, hnode, -, hrest⟩ := hseg
      cases fuel with
      | zero => simp at hfuel
      | succ fuel =>
          simp only [find, hnode, Option.bind_eq_bind, Option.bind_some]
          split
          · rfl
          · exact ih hrest (Nat.le_of_succ_le_succ hfuel)

theorem kill_workers_eq {nodes : Nodes Worker} {entries : List WorkerEntry} {fuel : Nat}
    {prev first last : Option Addr}
    (hseg : nodes.Segment prev first (entries.map WorkerEntry.wtp) last none)
    (hstored : ∀ entry ∈ entries, nodes.vals entry.wtp = some entry.worker)
    (hfuel : entries.length ≤ fuel) :
    kill_workers nodes fuel first = some (entries.map (·.worker.tid)) := by
  induction entries generalizing prev first fuel with
  | nil =>
      obtain ⟨rfl, -⟩ := hseg
      simp [kill_workers]
  | cons entry rest ih =>
      obtain ⟨rfl, node, hnode, -, hrest⟩ := hseg
      have hval : node.val = entry.worker := by
        have hentry := hstored entry List.mem_cons_self
        rw [Nodes.vals, hnode] at hentry
        exact Option.some.inj hentry
      cases fuel with
      | zero => simp at hfuel
      | succ fuel =>
          have htids := ih hrest (fun e he => hstored e (List.mem_cons_of_mem _ he))
            (Nat.le_of_succ_le_succ hfuel)
          simp [kill_workers, hnode, htids, hval]

theorem unlink_linked {list : WorkerList} {tail : Option Addr} {front back : List Addr}
    {wtp : Addr} (hlinked : list.nodes.Linked list.workers tail (front ++ wtp :: back)) :
    ∃ list' tail', list.unlink wtp = some list' ∧
      list'.nodes.Linked list'.workers tail' (front ++ back) ∧
        list'.nodes.vals = list.nodes.vals := by
  obtain ⟨node, nodes₁, nodes₂, hnode, hset₁, hnode₁, hset₂, -, hlinked'⟩ := hlinked.remove
  refine ⟨⟨nodes₂, if node.prev = none then node.next else list.workers⟩, _, ?_, hlinked',
    (Nodes.linkNext_vals hset₂).trans (Nodes.linkPrev_vals hset₁)⟩
  obtain ⟨next, prev, worker⟩ := node
  simp only [unlink, hnode, Option.bind_eq_bind, Option.bind_some, hset₁, hnode₁]
  cases prev with
  | none =>
      obtain rfl := Option.some.inj hset₂
      rfl
  | some prev =>
      simp only [Nodes.linkNext] at hset₂
      simp [hset₂]

theorem client_cleanup_eq_some {list list' : WorkerList} {tid fuel : Nat}
    {wtp : Option Addr} (hlist : list.client_cleanup tid fuel = some (wtp, list')) :
    find list.nodes tid fuel list.workers = some wtp ∧
      match wtp with
      | none => list' = list
      | some wtp => list.unlink wtp = some list' := by
  unfold client_cleanup at hlist
  obtain ⟨found, hfind, hlist⟩ := Option.bind_eq_some_iff.mp hlist
  cases found with
  | none =>
      cases hlist
      exact ⟨hfind, rfl⟩
  | some a =>
      obtain ⟨unlinked, hunlink, hlist⟩ := Option.bind_eq_some_iff.mp hlist
      cases hlist
      exact ⟨hfind, hunlink⟩

theorem add_worker_eq_some {list list' : WorkerList} {wtp : Addr}
    (hlist : list.add_worker wtp = some list') :
    list'.workers = list.workers.or (some wtp) ∧
      ∃ node, list.nodes wtp = some node ∧
        match list.workers with
        | none =>
            list'.nodes = Function.update list.nodes wtp
              (some { node with next := none, prev := none })
        | some first => ∃ node', list'.nodes first = some node' ∧ node'.prev = some wtp := by
  unfold add_worker at hlist
  obtain ⟨nodes₁, hset₁, hlist⟩ := Option.bind_eq_some_iff.mp hlist
  obtain ⟨nodes₂, hset₂, hlist⟩ := Option.bind_eq_some_iff.mp hlist
  obtain ⟨node, hnode, rfl⟩ := Nodes.setPrev_eq_some hset₁
  obtain ⟨node₂, hnode₂, rfl⟩ := Nodes.setNext_eq_some hset₂
  rw [Function.update_self] at hnode₂
  cases hnode₂
  cases hworkers : list.workers with
  | none =>
      rw [hworkers] at hlist
      cases hlist
      exact ⟨rfl, node, hnode, Function.update_idem ..⟩
  | some first =>
      rw [hworkers] at hlist
      obtain ⟨nodes₃, hset₃, hlist⟩ := Option.bind_eq_some_iff.mp hlist
      cases hlist
      obtain ⟨node₃, -, rfl⟩ := Nodes.setPrev_eq_some hset₃
      exact ⟨rfl, node, hnode, _, Function.update_self .., rfl⟩

theorem add_worker_vals {list list' : WorkerList} {wtp : Addr}
    (hlist : list.add_worker wtp = some list') : list'.nodes.vals = list.nodes.vals := by
  unfold add_worker at hlist
  obtain ⟨nodes₁, hset₁, hlist⟩ := Option.bind_eq_some_iff.mp hlist
  obtain ⟨nodes₂, hset₂, hlist⟩ := Option.bind_eq_some_iff.mp hlist
  have hvals := (Nodes.setNext_vals hset₂).trans (Nodes.setPrev_vals hset₁)
  cases hworkers : list.workers with
  | none =>
      rw [hworkers] at hlist
      cases hlist
      exact hvals
  | some first =>
      rw [hworkers] at hlist
      obtain ⟨nodes₃, hset₃, hlist⟩ := Option.bind_eq_some_iff.mp hlist
      cases hlist
      exact (Nodes.setPrev_vals hset₃).trans hvals

end WorkerList

namespace Daemon

/-- A node that is not in the list is its thread's. -/
def Owned (s : Daemon) : Prop :=
  ∀ tid thread wtp, s.thread tid = some thread →
    thread.pc = .filled wtp ∨ thread.pc = .leaving (some wtp) →
    s.list.nodes.vals wtp = some { tid, sockfd := thread.sockfd }

variable {s s' : Daemon} {entries : List WorkerEntry}

theorem live_update {list : WorkerList} {tid : Nat} {thread : Option WorkerThread}
    {worker : Worker} :
    Live { list, thread := Function.update s.thread tid thread } worker ↔
      if worker.tid = tid then thread = some ⟨worker.sockfd, .live⟩ else s.Live worker := by
  simp only [Live, Function.update_apply]
  split <;> rfl

/-- A thread that stays out of the list. -/
theorem tracks_of_not_live (hs : Tracks s entries) {list : WorkerList} {tid : Nat}
    {thread : Option WorkerThread} (hbefore : ∀ worker, worker.tid = tid → ¬ s.Live worker)
    (hafter : ∀ sockfd, thread ≠ some ⟨sockfd, .live⟩)
    (hworkers : list.workers = s.list.workers)
    (hnodes : ∀ entry ∈ entries, list.nodes entry.wtp = s.list.nodes entry.wtp) :
    Tracks { list, thread := Function.update s.thread tid thread } entries where
  linked := by
    obtain ⟨tail, hlinked⟩ := hs.linked
    refine ⟨tail, ?_, hlinked.nodup⟩
    dsimp only
    rw [hworkers]
    refine hlinked.segment.congr ?_
    intro a ha
    obtain ⟨entry, hentry, rfl⟩ := List.mem_map.mp ha
    exact hnodes entry hentry
  stored := by
    intro entry hentry
    rw [← hs.stored entry hentry]
    exact congrArg (Option.map Node.val) (hnodes entry hentry)
  once := hs.once
  live := by
    intro worker
    rw [hs.live, live_update]
    split
    · rename_i htid
      constructor
      · intro hlive
        exact absurd hlive (hbefore worker htid)
      · intro hlive
        exact absurd hlive (hafter _)
    · rfl

theorem not_live_of_thread {tid : Nat} {thread : Option WorkerThread}
    (hthread : s.thread tid = thread) (hpc : ∀ sockfd, thread ≠ some ⟨sockfd, .live⟩)
    (worker : Worker) (htid : worker.tid = tid) : ¬ s.Live worker := by
  intro hlive
  apply hpc worker.sockfd
  rw [← hthread, ← htid]
  exact hlive

theorem tracks_malloc (hs : Tracks s entries) {tid : Nat} {sockfd : Int} {wtp : Addr}
    {node : Node Worker} (hthread : s.thread tid = some ⟨sockfd, .connected⟩)
    (hfresh : s.list.nodes wtp = none) :
    Tracks
      { list := { s.list with nodes := Function.update s.list.nodes wtp (some node) }
        thread := Function.update s.thread tid (some ⟨sockfd, .filled wtp⟩) } entries := by
  refine tracks_of_not_live hs (not_live_of_thread hthread nofun) nofun rfl ?_
  intro entry hentry
  apply Function.update_of_ne
  rintro rfl
  have hstored := hs.stored entry hentry
  rw [Nodes.vals, hfresh] at hstored
  cases hstored

theorem tracks_add (hs : Tracks s entries) (howned : s.Owned) {tid : Nat} {sockfd : Int}
    {wtp : Addr} {list : WorkerList} (hthread : s.thread tid = some ⟨sockfd, .filled wtp⟩)
    (hlist : s.list.add_worker wtp = some list) (hworkers : s.list.workers = none) :
    Tracks { list, thread := Function.update s.thread tid (some ⟨sockfd, .live⟩) }
      [{ wtp, worker := { tid, sockfd } }] := by
  obtain ⟨hworkers', node, hnode, hnodes⟩ := WorkerList.add_worker_eq_some hlist
  rw [hworkers] at hworkers' hnodes
  have hempty : entries = [] := by
    obtain ⟨tail, hlinked⟩ := hs.linked
    exact List.map_eq_nil_iff.mp (hlinked.head_eq_none_iff.mp hworkers)
  subst hempty
  have hval : node.val = { tid, sockfd } := by
    have hval := howned tid _ wtp hthread (Or.inl rfl)
    rw [Nodes.vals, hnode] at hval
    exact Option.some.inj hval
  constructor
  case linked =>
      refine ⟨some wtp, ?_, List.nodup_singleton _⟩
      refine Nodes.Segment.singleton_iff.mpr ⟨hworkers', rfl,
        { node with next := none, prev := none }, ?_, rfl, rfl⟩
      dsimp only
      rw [hnodes, Function.update_self]
  case stored =>
      intro entry hentry
      obtain rfl := List.mem_singleton.mp hentry
      dsimp only
      rw [hnodes, Nodes.vals, Function.update_self, Option.map_some, hval]
  case once => exact List.nodup_singleton _
  case live =>
      intro worker
      rw [live_update, List.map_singleton, List.mem_singleton]
      split
      · rename_i htid
        constructor
        · rintro rfl
          rfl
        · intro hlive
          cases hlive
          cases htid
          rfl
      · rename_i htid
        constructor
        · rintro rfl
          exact absurd rfl htid
        · intro hlive
          cases (hs.live worker).mpr hlive

theorem find_live (hs : Tracks s entries) {entry : WorkerEntry} (hentry : entry ∈ entries)
    {fuel : Nat} {wtp : Option Addr}
    (hfind : WorkerList.find s.list.nodes entry.worker.tid fuel s.list.workers = some wtp) :
    wtp = some entry.wtp := by
  obtain ⟨tail, hlinked⟩ := hs.linked
  rw [WorkerList.find_eq hlinked.segment hs.stored hfind]
  cases hfound : entries.find? (·.worker.tid = entry.worker.tid) with
  | none =>
      have hnone := List.find?_eq_none.mp hfound entry hentry
      exact absurd (decide_eq_true rfl) hnone
  | some found =>
      have htid : found.worker.tid = entry.worker.tid := by
        simpa using List.find?_some hfound
      have heq := List.inj_on_of_nodup_map hs.once (List.mem_of_find?_eq_some hfound)
        hentry htid
      rw [heq]
      rfl

theorem find_not_live (hs : Tracks s entries) {tid fuel : Nat} {wtp : Option Addr}
    (htid : ∀ worker, worker.tid = tid → ¬ s.Live worker)
    (hfind : WorkerList.find s.list.nodes tid fuel s.list.workers = some wtp) :
    wtp = none := by
  obtain ⟨tail, hlinked⟩ := hs.linked
  rw [WorkerList.find_eq hlinked.segment hs.stored hfind, Option.map_eq_none_iff,
    List.find?_eq_none]
  intro entry hentry heq
  refine htid entry.worker (of_decide_eq_true heq) ?_
  exact (hs.live _).mp (List.mem_map_of_mem hentry)

theorem tracks_cleanup (hs : Tracks s entries) {tid : Nat} {sockfd : Int} {entry : WorkerEntry}
    {front back : List WorkerEntry} (hentries : entries = front ++ entry :: back)
    (hworker : entry.worker = { tid, sockfd }) {list : WorkerList}
    (hlist : s.list.unlink entry.wtp = some list) :
    Tracks
      { list
        thread := Function.update s.thread tid
          (some ⟨sockfd, .leaving (some entry.wtp)⟩) } (front ++ back) ∧
      list.nodes.vals = s.list.nodes.vals := by
  subst hentries
  obtain ⟨tail, hlinked⟩ := hs.linked
  rw [List.map_append, List.map_cons] at hlinked
  obtain ⟨list', tail', hlist', hlinked', hvals⟩ := WorkerList.unlink_linked hlinked
  obtain rfl := Option.some.inj (hlist.symm.trans hlist')
  have honce := hs.once
  rw [List.map_append, List.map_cons, List.nodup_middle, ← List.map_append] at honce
  obtain ⟨htid, honce⟩ := List.nodup_cons.mp honce
  refine ⟨⟨⟨tail', ?_⟩, ?_, honce, ?_⟩, hvals⟩
  · rw [List.map_append]
    exact hlinked'
  · intro e he
    dsimp only
    rw [hvals]
    apply hs.stored
    exact List.mem_append.mpr ((List.mem_append.mp he).imp_right (List.mem_cons_of_mem _))
  · intro worker
    have hlive := hs.live worker
    rw [List.map_append, List.map_cons, List.mem_append, List.mem_cons, or_left_comm,
      ← List.mem_append, ← List.map_append] at hlive
    rw [live_update]
    split
    · rename_i hsame
      refine iff_of_false ?_ nofun
      intro hmem
      apply htid
      obtain ⟨e, he, rfl⟩ := List.mem_map.mp hmem
      rw [hworker, ← hsame]
      exact List.mem_map_of_mem (f := fun entry => entry.worker.tid) he
    · rename_i hother
      rw [← hlive, or_iff_right]
      rintro rfl
      rw [hworker] at hother
      exact hother rfl

theorem tracks_close (hs : Tracks s entries) (howned : s.Owned) {tid : Nat} {sockfd : Int}
    {wtp : Addr} (hthread : s.thread tid = some ⟨sockfd, .leaving (some wtp)⟩) :
    Tracks { list := s.list.free wtp, thread := Function.update s.thread tid none }
      entries := by
  have hbefore := not_live_of_thread hthread nofun
  refine tracks_of_not_live hs hbefore nofun rfl ?_
  intro entry hentry
  apply Function.update_of_ne
  rintro rfl
  have hval := howned tid _ entry.wtp hthread (Or.inr rfl)
  rw [hs.stored entry hentry] at hval
  refine hbefore entry.worker ?_ ((hs.live _).mp (List.mem_map_of_mem hentry))
  rw [Option.some.inj hval]

theorem owned_update (howned : s.Owned) {list : WorkerList} {tid : Nat}
    {thread : Option WorkerThread}
    (hself : ∀ th wtp, thread = some th → th.pc = .filled wtp ∨ th.pc = .leaving (some wtp) →
      list.nodes.vals wtp = some { tid, sockfd := th.sockfd })
    (hother : ∀ worker wtp, worker.tid ≠ tid → s.list.nodes.vals wtp = some worker →
      list.nodes.vals wtp = some worker) :
    Owned { list, thread := Function.update s.thread tid thread } := by
  intro t th wtp hthread hpc
  simp only [Function.update_apply] at hthread
  split at hthread
  · rename_i htid
    subst htid
    exact hself th wtp hthread hpc
  · rename_i htid
    exact hother _ wtp htid (howned t th wtp hthread hpc)

/-- Under `workerlock` a worker is added to an empty list only. -/
def AddsFirst (s : Daemon) : WorkerEvent → Prop
  | .add .. => s.list.workers = none
  | _ => True

theorem tracked_step (hs : Tracked s) (howned : s.Owned) {event : WorkerEvent}
    (hstep : Step s event s') (hfirst : s.AddsFirst event) :
    Tracked s' ∧ s'.Owned := by
  obtain ⟨entries, hs⟩ := hs
  cases hstep with
  | connect hthread =>
      refine ⟨⟨entries, ?_⟩, owned_update howned ?_ fun _ _ _ hval => hval⟩
      · exact tracks_of_not_live hs (not_live_of_thread hthread nofun) nofun rfl
          fun _ _ => rfl
      · rintro th wtp hth (hpc | hpc) <;> cases hth <;> cases hpc
  | @malloc tid sockfd wtp _ _ hthread hfresh =>
      refine ⟨⟨entries, tracks_malloc hs hthread hfresh⟩, owned_update howned ?_ ?_⟩
      · rintro th wtp hth (hpc | hpc) <;> cases hth <;> cases hpc
        simp [Nodes.vals]
      · intro worker wtp' _ hval
        refine Eq.trans (congrArg (Option.map Node.val) (Function.update_of_ne ?_ ..)) hval
        rintro rfl
        rw [Nodes.vals, hfresh] at hval
        cases hval
  | add hthread hlist =>
      refine ⟨⟨_, tracks_add hs howned hthread hlist hfirst⟩, owned_update howned ?_ ?_⟩
      · rintro th wtp hth (hpc | hpc) <;> cases hth <;> cases hpc
      · intro worker wtp _ hval
        rw [WorkerList.add_worker_vals hlist]
        exact hval
  | @cleanup tid fuel sockfd pc wtp list hthread hpc hlist =>
      obtain ⟨hfind, hlist⟩ := WorkerList.client_cleanup_eq_some hlist
      rcases hpc with rfl | rfl
      · have hbefore := not_live_of_thread hthread nofun
        have hwtp := find_not_live hs hbefore hfind
        subst hwtp
        cases hlist
        refine ⟨⟨entries, ?_⟩, owned_update howned ?_ fun _ _ _ hval => hval⟩
        · exact tracks_of_not_live hs hbefore nofun rfl fun _ _ => rfl
        · rintro th wtp hth (hpc | hpc) <;> cases hth <;> cases hpc
      · obtain ⟨entry, hentry, hworker⟩ := List.mem_map.mp ((hs.live ⟨tid, sockfd⟩).mpr hthread)
        have htid : entry.worker.tid = tid := by
          rw [hworker]
        obtain rfl := find_live hs hentry (htid ▸ hfind)
        obtain ⟨front, back, hentries⟩ := List.append_of_mem hentry
        obtain ⟨htracks, hvals⟩ := tracks_cleanup hs hentries hworker hlist
        refine ⟨⟨_, htracks⟩, owned_update howned ?_ ?_⟩
        · rintro th wtp hth (hpc | hpc) <;> cases hth <;> cases hpc
          rw [hvals, hs.stored entry hentry, hworker]
        · intro worker wtp _ hval
          rw [hvals]
          exact hval
  | @close tid sockfd wtp node hthread hnode =>
      refine ⟨⟨entries, tracks_close hs howned hthread⟩, owned_update howned nofun ?_⟩
      intro worker wtp' htid hval
      refine Eq.trans (congrArg (Option.map Node.val) (Function.update_of_ne ?_ ..)) hval
      rintro rfl
      rw [howned tid _ wtp' hthread (Or.inr rfl)] at hval
      exact htid (Option.some.inj hval ▸ rfl)
  | leave hthread =>
      refine ⟨⟨entries, ?_⟩, owned_update howned nofun fun _ _ _ hval => hval⟩
      exact tracks_of_not_live hs (not_live_of_thread hthread nofun) nofun rfl fun _ _ => rfl

/-- A second worker makes the list wrong: its node is in front of the one that
`workers` leads to. -/
theorem addsFirst_of_tracked {event : WorkerEvent} (hstep : Step s event s')
    (hs' : Tracked s') : s.AddsFirst event := by
  cases hstep with
  | add hthread hlist =>
      unfold AddsFirst
      obtain ⟨entries, hs'⟩ := hs'
      obtain ⟨tail, hlinked⟩ := hs'.linked
      obtain ⟨hworkers', node, -, hnodes⟩ := WorkerList.add_worker_eq_some hlist
      cases hworkers : s.list.workers with
      | none => rfl
      | some first =>
          rw [hworkers] at hworkers' hnodes
          obtain ⟨node', hnode', hprev⟩ := hnodes
          dsimp only at hlinked
          cases entries with
          | nil =>
              rw [hlinked.head_eq] at hworkers'
              cases hworkers'
          | cons entry rest =>
              obtain ⟨hfirst, node'', hnode'', hprev'', -⟩ := hlinked.segment
              rw [hworkers'] at hfirst
              cases hfirst
              rw [hnode'] at hnode''
              cases hnode''
              rw [hprev] at hprev''
              cases hprev''
  | _ => trivial

theorem kill_workers_of_tracks (hs : Tracks s entries) :
    (entries.map (·.worker.tid)).Nodup ∧
    (∀ tid, tid ∈ entries.map (·.worker.tid) ↔ ∃ sockfd, s.Live { tid, sockfd }) ∧
      ∀ fuel ≥ entries.length, WorkerList.kill_workers s.list.nodes fuel s.list.workers =
        some (entries.map (·.worker.tid)) := by
  refine ⟨hs.once, ?_, ?_⟩
  · intro tid
    constructor
    · intro hmem
      obtain ⟨entry, hentry, rfl⟩ := List.mem_map.mp hmem
      exact ⟨entry.worker.sockfd, (hs.live entry.worker).mp (List.mem_map_of_mem hentry)⟩
    · rintro ⟨sockfd, hlive⟩
      obtain ⟨entry, hentry, hworker⟩ := List.mem_map.mp ((hs.live _).mpr hlive)
      refine List.mem_map.mpr ⟨entry, hentry, ?_⟩
      rw [hworker]
  · intro fuel hfuel
    obtain ⟨tail, hlinked⟩ := hs.linked
    exact WorkerList.kill_workers_eq hlinked.segment hs.stored hfuel

theorem client_cleanup_of_live (hs : Tracks s entries) {worker : Worker}
    (hlive : s.Live worker) :
    ∃ wtp list, s.list.nodes.vals wtp = some worker ∧
      ∀ fuel ≥ entries.length,
        s.list.client_cleanup worker.tid fuel = some (some wtp, list) := by
  obtain ⟨entry, hentry, rfl⟩ := List.mem_map.mp ((hs.live _).mpr hlive)
  obtain ⟨front, back, hentries⟩ := List.append_of_mem hentry
  obtain ⟨tail, hlinked⟩ := hs.linked
  have hseg := hlinked.segment
  rw [hentries, List.map_append, List.map_cons] at hlinked
  obtain ⟨list, -, hlist, -⟩ := WorkerList.unlink_linked hlinked
  refine ⟨entry.wtp, list, hs.stored entry hentry, ?_⟩
  intro fuel hfuel
  have hlength : (entries.map WorkerEntry.wtp).length ≤ fuel := by
    rw [List.length_map]
    exact hfuel
  obtain ⟨wtp, hfind⟩ := Option.isSome_iff_exists.mp (WorkerList.find_isSome hseg hlength)
  obtain rfl := find_live hs hentry hfind
  simp [WorkerList.client_cleanup, hfind, hlist]

theorem added_eq_closed_append (hs : Tracked s) (howned : s.Owned) {trace : List WorkerEvent}
    (hadded : ∀ tid, added tid trace = closed tid trace ++ unclosed (s.thread tid))
    {event : WorkerEvent} (hstep : Step s event s') (tid : Nat) :
    added tid (trace ++ [event]) =
      closed tid (trace ++ [event]) ++ unclosed (s'.thread tid) := by
  obtain ⟨entries, hs⟩ := hs
  have hbefore := hadded tid
  rw [added, closed, List.filterMap_append, List.filterMap_append, ← added, ← closed, hbefore]
  cases hstep with
  | @cleanup t fuel sockfd pc wtp list hthread hpc hlist =>
      obtain ⟨hfind, -⟩ := WorkerList.client_cleanup_eq_some hlist
      simp only [Function.update_apply]
      split
      · rename_i htid
        subst htid
        rw [hthread]
        rcases hpc with rfl | rfl
        · rw [find_not_live hs (not_live_of_thread hthread nofun) hfind]
          rfl
        · obtain ⟨entry, hentry, hworker⟩ :=
            List.mem_map.mp ((hs.live ⟨tid, sockfd⟩).mpr hthread)
          have htid : entry.worker.tid = tid := by
            rw [hworker]
          have hwtp : wtp = some entry.wtp := find_live hs hentry (htid ▸ hfind)
          rw [hwtp]
          simp [unclosed]
      · simp
  | @close t sockfd wtp node hthread hnode =>
      have hval := howned t _ wtp hthread (Or.inr rfl)
      rw [Nodes.vals, hnode] at hval
      have hsockfd : node.val.sockfd = sockfd := congrArg Worker.sockfd (Option.some.inj hval)
      simp only [Function.update_apply]
      split
      · rename_i htid
        subst htid
        simp [hthread, unclosed, hsockfd]
      · rename_i htid
        simp [Ne.symm htid]
  | connect hthread | malloc hthread _ | leave hthread | add hthread _ =>
      simp only [Function.update_apply]
      split
      · rename_i htid
        subst htid
        simp [hthread, unclosed]
      · rename_i htid
        simp [Ne.symm htid]

theorem tracked_of_run {start s : Daemon} {trace : List WorkerEvent}
    (hstart : system.Initial start)
    (hrun : (system.restrict AddsFirst).Run start trace s) :
    Tracked s ∧ s.Owned ∧
      ∀ tid, added tid trace = closed tid trace ++ unclosed (s.thread tid) := by
  refine System.Run.history_invariant (M := system.restrict AddsFirst)
    (I := fun trace s => Tracked s ∧ s.Owned ∧
      ∀ tid, added tid trace = closed tid trace ++ unclosed (s.thread tid)) ?_ ?_ hstart hrun
  · rintro _ rfl
    refine ⟨⟨[], ⟨none, Nodes.Linked.nil _⟩, nofun, List.nodup_nil, ?_⟩, nofun, fun _ => rfl⟩
    exact fun worker => iff_of_false List.not_mem_nil nofun
  · rintro trace s event s' ⟨hs, howned, hadded⟩ ⟨hstep, hfirst⟩
    obtain ⟨hs', howned'⟩ := tracked_step hs howned hstep hfirst
    exact ⟨hs', howned', added_eq_closed_append hs howned hadded hstep⟩

/-- In every run that adds workers to an empty list only, the list has exactly the live
workers, `kill_workers` cancels them and each of them finds its own entry and closes its
own socket once.  A step that adds one to another list ends that. -/
theorem worker_list_of_adds_first {start s : Daemon} {trace : List WorkerEvent}
    (hstart : system.Initial start)
    (hrun : (system.restrict AddsFirst).Run start trace s) :
    (∃ entries, Tracks s entries ∧ ∀ fuel ≥ entries.length,
      WorkerList.kill_workers s.list.nodes fuel s.list.workers =
        some (entries.map (·.worker.tid)) ∧
      (∀ tid, tid ∈ entries.map (·.worker.tid) ↔ ∃ sockfd, s.Live { tid, sockfd }) ∧
      ∀ worker, s.Live worker → ∃ wtp list, s.list.nodes.vals wtp = some worker ∧
        s.list.client_cleanup worker.tid fuel = some (some wtp, list)) ∧
    s.Owned ∧ (∀ tid, added tid trace = closed tid trace ++ unclosed (s.thread tid)) ∧
    ∀ event s', Step s event s' → (Tracked s' ↔ s.AddsFirst event) := by
  obtain ⟨⟨entries, hs⟩, howned, hadded⟩ := tracked_of_run hstart hrun
  obtain ⟨-, htids, hkill⟩ := kill_workers_of_tracks hs
  refine ⟨⟨entries, hs, ?_⟩, howned, hadded, ?_⟩
  · intro fuel hfuel
    refine ⟨hkill fuel hfuel, htids, ?_⟩
    intro worker hlive
    obtain ⟨wtp, list, hval, hcleanup⟩ := client_cleanup_of_live hs hlive
    exact ⟨wtp, list, hval, hcleanup fuel hfuel⟩
  · intro event s' hstep
    constructor
    · exact addsFirst_of_tracked hstep
    · intro hfirst
      exact (tracked_step ⟨entries, hs⟩ howned hstep hfirst).1

/-- One worker is added. -/
theorem worker_list_of_adds_first_alone :
    ∃ s : Daemon, s.Live { tid := 1, sockfd := 5 } ∧ Tracked s := by
  have hrun : (system.restrict AddsFirst).Run start
      ([.connect 1 5] ++ [.malloc 1 16 none none] ++ [.add 1 5]) _ :=
    ((System.Run.single (M := system.restrict AddsFirst)
      ⟨Step.connect rfl, trivial⟩).snoc
        ⟨@Step.malloc _ 1 5 16 none none rfl rfl, trivial⟩).snoc
          ⟨@Step.add _ 1 5 16 _ rfl rfl, rfl⟩
  obtain ⟨⟨entries, hs, -⟩, -⟩ := worker_list_of_adds_first rfl hrun
  refine ⟨_, ?_, entries, hs⟩
  rfl

/-- Two workers are added.  The second one is not reached from `workers`, and the first
one's node has it in front. -/
theorem worker_list_misses_second :
    ∃ s, system.Reachable s ∧ s.Live { tid := 2, sockfd := 6 } ∧
      WorkerList.kill_workers s.list.nodes 2 s.list.workers = some [1] ∧ ¬ Tracked s := by
  have hrun : system.Run start
      ([.connect 1 5] ++ [.malloc 1 16 none none] ++ [.add 1 5] ++ [.connect 2 6] ++
        [.malloc 2 32 none none] ++ [.add 2 6]) _ :=
    (((((System.Run.single (M := system) (Step.connect rfl)).snoc
      (@Step.malloc _ 1 5 16 none none rfl rfl)).snoc
      (@Step.add _ 1 5 16 _ rfl rfl)).snoc
      (Step.connect rfl)).snoc
      (@Step.malloc _ 2 6 32 none none rfl rfl)).snoc
      (@Step.add _ 2 6 32 _ rfl rfl)
  refine ⟨_, ⟨_, _, rfl, hrun⟩, rfl, rfl, ?_⟩
  rintro ⟨entries, hs⟩
  obtain ⟨tail, hlinked⟩ := hs.linked
  cases entries with
  | nil => cases hlinked.head_eq
  | cons entry rest =>
      obtain ⟨wtp, worker⟩ := entry
      obtain ⟨hfirst, node, hnode, hprev, -⟩ := hlinked.segment
      cases hfirst
      cases hnode
      cases hprev

end Daemon

end ApueCourse.Print
