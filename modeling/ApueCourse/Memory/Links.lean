import Mathlib.Data.List.Nodup
import Mathlib.Logic.Function.Basic

/-! Doubly linked lists in memory.  `none` in place of a node is memory that is not
allocated, and an access to it has no result. -/

namespace ApueCourse.Memory

abbrev Addr := Nat

structure Node (α : Type u) where
  next : Option Addr
  prev : Option Addr
  val : α

abbrev Nodes (α : Type u) := Addr → Option (Node α)

namespace Nodes

variable {α : Type u}

def setNext (nodes : Nodes α) (p : Addr) (next : Option Addr) : Option (Nodes α) :=
  (nodes p).map fun node => Function.update nodes p (some { node with next })

def setPrev (nodes : Nodes α) (p : Addr) (prev : Option Addr) : Option (Nodes α) :=
  (nodes p).map fun node => Function.update nodes p (some { node with prev })

/-- `if (p != NULL) p->next = next`. -/
def linkNext (nodes : Nodes α) (p next : Option Addr) : Option (Nodes α) :=
  match p with
  | none => some nodes
  | some p => nodes.setNext p next

/-- `if (p != NULL) p->prev = prev`. -/
def linkPrev (nodes : Nodes α) (p prev : Option Addr) : Option (Nodes α) :=
  match p with
  | none => some nodes
  | some p => nodes.setPrev p prev

/-- The nodes `addrs` in their order.  `prev` and `next` are what the list holds in
front of them and behind them, `first` and `last` the pointers into the segment. -/
def Segment (nodes : Nodes α) :
    Option Addr → Option Addr → List Addr → Option Addr → Option Addr → Prop
  | prev, first, [], last, next => first = next ∧ last = prev
  | prev, first, a :: rest, last, next =>
      first = some a ∧ ∃ node, nodes a = some node ∧ node.prev = prev ∧
        Segment nodes (some a) node.next rest last next

/-- A whole list. -/
structure Linked (nodes : Nodes α) (head tail : Option Addr) (addrs : List Addr) :
    Prop where
  segment : Segment nodes none head addrs tail none
  nodup : addrs.Nodup

theorem Segment.congr {nodes nodes' : Nodes α} {addrs : List Addr}
    {prev first last next : Option Addr} (hsame : ∀ a ∈ addrs, nodes' a = nodes a)
    (hseg : Segment nodes prev first addrs last next) :
    Segment nodes' prev first addrs last next := by
  induction addrs generalizing prev first with
  | nil => exact hseg
  | cons a rest ih =>
      obtain ⟨hfirst, node, hnode, hprev, hrest⟩ := hseg
      have hsame' : ∀ b ∈ rest, nodes' b = nodes b := fun b hb =>
        hsame b (List.mem_cons_of_mem _ hb)
      refine ⟨hfirst, node, ?_, hprev, ih hsame' hrest⟩
      rw [hsame a List.mem_cons_self, hnode]

theorem Segment.update {nodes : Nodes α} {addrs : List Addr}
    {prev first last next : Option Addr} {a : Addr} {node : Option (Node α)}
    (ha : a ∉ addrs) (hseg : Segment nodes prev first addrs last next) :
    Segment (Function.update nodes a node) prev first addrs last next := by
  apply hseg.congr
  intro b hb
  apply Function.update_of_ne
  intro heq
  exact ha (heq ▸ hb)

theorem Segment.append_iff {nodes : Nodes α} {front back : List Addr}
    {prev first last next : Option Addr} :
    Segment nodes prev first (front ++ back) last next ↔
      ∃ middle start, Segment nodes prev first front middle start ∧
        Segment nodes middle start back last next := by
  induction front generalizing prev first with
  | nil =>
      constructor
      · intro hback
        exact ⟨prev, first, ⟨rfl, rfl⟩, hback⟩
      · rintro ⟨middle, start, ⟨rfl, rfl⟩, hback⟩
        exact hback
  | cons a rest ih =>
      simp only [List.cons_append, Segment, ih]
      constructor
      · rintro ⟨hfirst, node, hnode, hprev, middle, start, hrest, hback⟩
        exact ⟨middle, start, ⟨hfirst, node, hnode, hprev, hrest⟩, hback⟩
      · rintro ⟨middle, start, ⟨hfirst, node, hnode, hprev, hrest⟩, hback⟩
        exact ⟨hfirst, node, hnode, hprev, middle, start, hrest, hback⟩

theorem Segment.allocated {nodes : Nodes α} {addrs : List Addr}
    {prev first last next : Option Addr}
    (hseg : Segment nodes prev first addrs last next) {a : Addr} (ha : a ∈ addrs) :
    ∃ node, nodes a = some node := by
  induction addrs generalizing prev first with
  | nil => cases ha
  | cons b rest ih =>
      obtain ⟨-, node, hnode, -, hrest⟩ := hseg
      cases ha with
      | head => exact ⟨node, hnode⟩
      | tail _ ha => exact ih hrest ha

theorem Segment.first_eq {nodes : Nodes α} {addrs : List Addr}
    {prev first last next : Option Addr}
    (hseg : Segment nodes prev first addrs last next) :
    first = addrs.head?.or next := by
  cases addrs with
  | nil => exact hseg.1
  | cons a rest => exact hseg.1

theorem Segment.last_eq {nodes : Nodes α} {addrs : List Addr}
    {prev first last next : Option Addr}
    (hseg : Segment nodes prev first addrs last next) :
    last = addrs.getLast?.or prev := by
  induction addrs generalizing prev first with
  | nil => exact hseg.2
  | cons a rest ih =>
      obtain ⟨-, node, -, -, hrest⟩ := hseg
      rw [ih hrest, List.getLast?_cons]
      cases rest.getLast? <;> rfl

theorem Segment.singleton_iff {nodes : Nodes α} {a : Addr}
    {prev first last next : Option Addr} :
    Segment nodes prev first [a] last next ↔
      first = some a ∧ last = some a ∧
        ∃ node, nodes a = some node ∧ node.prev = prev ∧ node.next = next := by
  simp only [Segment]
  constructor
  · rintro ⟨hfirst, node, hnode, hprev, hnext, hlast⟩
    exact ⟨hfirst, hlast, node, hnode, hprev, hnext⟩
  · rintro ⟨hfirst, hlast, node, hnode, hprev, hnext⟩
    exact ⟨hfirst, node, hnode, hprev, hnext, hlast⟩

theorem setNext_eq_some {nodes nodes' : Nodes α} {p : Addr} {next : Option Addr}
    (hset : nodes.setNext p next = some nodes') :
    ∃ node, nodes p = some node ∧
      nodes' = Function.update nodes p (some { node with next }) := by
  obtain ⟨node, hnode, rfl⟩ := Option.map_eq_some_iff.mp hset
  exact ⟨node, hnode, rfl⟩

theorem setPrev_eq_some {nodes nodes' : Nodes α} {p : Addr} {prev : Option Addr}
    (hset : nodes.setPrev p prev = some nodes') :
    ∃ node, nodes p = some node ∧
      nodes' = Function.update nodes p (some { node with prev }) := by
  obtain ⟨node, hnode, rfl⟩ := Option.map_eq_some_iff.mp hset
  exact ⟨node, hnode, rfl⟩

/-- The values in memory. -/
def vals (nodes : Nodes α) (a : Addr) : Option α := (nodes a).map Node.val

theorem vals_update {nodes : Nodes α} {p : Addr} {node node' : Node α}
    (hnode : nodes p = some node) (hval : node'.val = node.val) :
    vals (Function.update nodes p (some node')) = nodes.vals := by
  funext a
  unfold vals
  rw [Function.update_apply]
  split
  · rename_i ha
    rw [ha, hnode, Option.map_some, Option.map_some, hval]
  · rfl

@[simp] theorem setNext_vals {nodes nodes' : Nodes α} {p : Addr} {next : Option Addr}
    (hset : nodes.setNext p next = some nodes') : nodes'.vals = nodes.vals := by
  obtain ⟨node, hnode, rfl⟩ := setNext_eq_some hset
  exact vals_update hnode rfl

@[simp] theorem setPrev_vals {nodes nodes' : Nodes α} {p : Addr} {prev : Option Addr}
    (hset : nodes.setPrev p prev = some nodes') : nodes'.vals = nodes.vals := by
  obtain ⟨node, hnode, rfl⟩ := setPrev_eq_some hset
  exact vals_update hnode rfl

theorem setNext_other {nodes nodes' : Nodes α} {p a : Addr} {next : Option Addr}
    (hset : nodes.setNext p next = some nodes') (ha : a ≠ p) : nodes' a = nodes a := by
  obtain ⟨node, -, rfl⟩ := setNext_eq_some hset
  exact Function.update_of_ne ha ..

theorem setPrev_other {nodes nodes' : Nodes α} {p a : Addr} {prev : Option Addr}
    (hset : nodes.setPrev p prev = some nodes') (ha : a ≠ p) : nodes' a = nodes a := by
  obtain ⟨node, -, rfl⟩ := setPrev_eq_some hset
  exact Function.update_of_ne ha ..

/-- A segment may be entered from elsewhere once its first node says so. -/
theorem Segment.setPrev {nodes : Nodes α} {a : Addr} {rest : List Addr}
    {prev first last next : Option Addr} (prev' : Option Addr) (ha : a ∉ rest)
    (hseg : Segment nodes prev first (a :: rest) last next) :
    ∃ nodes', nodes.setPrev a prev' = some nodes' ∧
      Segment nodes' prev' first (a :: rest) last next := by
  obtain ⟨hfirst, node, hnode, -, hrest⟩ := hseg
  refine ⟨Function.update nodes a (some { node with prev := prev' }), ?_, ?_⟩
  · rw [Nodes.setPrev, hnode]
    rfl
  · exact ⟨hfirst, _, Function.update_self .., rfl, hrest.update ha⟩

/-- A segment may lead elsewhere once its last node says so. -/
theorem Segment.setNext {nodes : Nodes α} {a : Addr} {front : List Addr}
    {prev first last next : Option Addr} (next' : Option Addr) (ha : a ∉ front)
    (hseg : Segment nodes prev first (front ++ [a]) last next) :
    ∃ nodes', nodes.setNext a next' = some nodes' ∧
      Segment nodes' prev first (front ++ [a]) last next' := by
  obtain ⟨middle, start, hfront, hback⟩ := Segment.append_iff.mp hseg
  obtain ⟨hstart, hlast, node, hnode, hprev, hnext⟩ := Segment.singleton_iff.mp hback
  refine ⟨Function.update nodes a (some { node with next := next' }), ?_, ?_⟩
  · rw [Nodes.setNext, hnode]
    rfl
  refine Segment.append_iff.mpr ⟨middle, start, hfront.update ha, ?_⟩
  exact Segment.singleton_iff.mpr
    ⟨hstart, hlast, _, Function.update_self .., hprev, rfl⟩

theorem linkNext_vals {nodes nodes' : Nodes α} {p next : Option Addr}
    (hset : nodes.linkNext p next = some nodes') : nodes'.vals = nodes.vals := by
  cases p with
  | none =>
      cases hset
      rfl
  | some p => exact setNext_vals hset

theorem linkPrev_vals {nodes nodes' : Nodes α} {p prev : Option Addr}
    (hset : nodes.linkPrev p prev = some nodes') : nodes'.vals = nodes.vals := by
  cases p with
  | none =>
      cases hset
      rfl
  | some p => exact setPrev_vals hset

theorem linkNext_other {nodes nodes' : Nodes α} {p next : Option Addr} {a : Addr}
    (hset : nodes.linkNext p next = some nodes') (ha : p ≠ some a) :
    nodes' a = nodes a := by
  cases p with
  | none =>
      cases hset
      rfl
  | some p => exact setNext_other hset (fun heq => ha (congrArg some heq.symm))

theorem linkPrev_other {nodes nodes' : Nodes α} {p prev : Option Addr} {a : Addr}
    (hset : nodes.linkPrev p prev = some nodes') (ha : p ≠ some a) :
    nodes' a = nodes a := by
  cases p with
  | none =>
      cases hset
      rfl
  | some p => exact setPrev_other hset (fun heq => ha (congrArg some heq.symm))

theorem Segment.linkPrev {nodes : Nodes α} {addrs : List Addr}
    {prev first last : Option Addr} (prev' : Option Addr) (hnodup : addrs.Nodup)
    (hseg : Segment nodes prev first addrs last none) :
    ∃ nodes', nodes.linkPrev first prev' = some nodes' ∧
      Segment nodes' prev' first addrs (if first = none then prev' else last) none := by
  cases addrs with
  | nil =>
      obtain ⟨rfl, -⟩ := hseg
      exact ⟨nodes, rfl, rfl, rfl⟩
  | cons a rest =>
      obtain ⟨nodes', hset, hseg'⟩ := hseg.setPrev prev' (List.nodup_cons.mp hnodup).1
      obtain ⟨rfl, -⟩ := hseg
      exact ⟨nodes', hset, hseg'⟩

theorem Segment.linkNext {nodes : Nodes α} {addrs : List Addr}
    {first last next : Option Addr} (next' : Option Addr) (hnodup : addrs.Nodup)
    (hseg : Segment nodes none first addrs last next) :
    ∃ nodes', nodes.linkNext last next' = some nodes' ∧
      Segment nodes' none (if last = none then next' else first) addrs last next' := by
  rcases List.eq_nil_or_concat' addrs with rfl | ⟨front, a, rfl⟩
  · obtain ⟨-, rfl⟩ := hseg
    exact ⟨nodes, rfl, rfl, rfl⟩
  · have ha : a ∉ front := by
      intro hmem
      exact List.disjoint_of_nodup_append hnodup hmem (List.mem_singleton_self a)
    obtain ⟨nodes', hset, hseg'⟩ := hseg.setNext next' ha
    obtain rfl : last = some a := by
      rw [hseg.last_eq, List.getLast?_concat]
      rfl
    exact ⟨nodes', hset, hseg'⟩

namespace Linked

variable {nodes : Nodes α} {head tail : Option Addr} {addrs : List Addr}

theorem nil (nodes : Nodes α) : Linked nodes none none [] := ⟨⟨rfl, rfl⟩, List.nodup_nil⟩

theorem head_eq (hlinked : Linked nodes head tail addrs) : head = addrs.head? := by
  rw [hlinked.segment.first_eq, Option.or_none]

theorem tail_eq (hlinked : Linked nodes head tail addrs) : tail = addrs.getLast? := by
  rw [hlinked.segment.last_eq, Option.or_none]

theorem head_eq_none_iff (hlinked : Linked nodes head tail addrs) :
    head = none ↔ addrs = [] := by
  rw [hlinked.head_eq, List.head?_eq_none_iff]

theorem tail_eq_none_iff (hlinked : Linked nodes head tail addrs) :
    tail = none ↔ addrs = [] := by
  rw [hlinked.tail_eq, List.getLast?_eq_none_iff]

theorem head_mem (hlinked : Linked nodes head tail addrs) {a : Addr} (ha : a ∉ addrs) :
    head ≠ some a := by
  rw [hlinked.head_eq]
  intro heq
  exact ha (List.mem_of_head? heq)

theorem tail_mem (hlinked : Linked nodes head tail addrs) {a : Addr} (ha : a ∉ addrs) :
    tail ≠ some a := by
  rw [hlinked.tail_eq]
  intro heq
  exact ha (List.mem_of_getLast? heq)

theorem pushBack {a : Addr} {node : Node α} (hlinked : Linked nodes head tail addrs)
    (ha : a ∉ addrs) (hnode : nodes a = some node) (hnext : node.next = none)
    (hprev : node.prev = tail) :
    ∃ nodes', nodes.linkNext tail (some a) = some nodes' ∧
      Linked nodes' (if tail = none then some a else head) (some a) (addrs ++ [a]) := by
  obtain ⟨nodes', hset, hseg⟩ := hlinked.segment.linkNext (some a) hlinked.nodup
  refine ⟨nodes', hset, ?_, ?_⟩
  · refine Segment.append_iff.mpr ⟨tail, some a, hseg, ?_⟩
    refine Segment.singleton_iff.mpr ⟨rfl, rfl, node, ?_, hprev, hnext⟩
    rw [linkNext_other hset (hlinked.tail_mem ha), hnode]
  · rw [List.nodup_append_comm]
    exact List.nodup_cons.mpr ⟨ha, hlinked.nodup⟩

theorem pushFront {a : Addr} {node : Node α} (hlinked : Linked nodes head tail addrs)
    (ha : a ∉ addrs) (hnode : nodes a = some node) (hnext : node.next = head)
    (hprev : node.prev = none) :
    ∃ nodes', nodes.linkPrev head (some a) = some nodes' ∧
      Linked nodes' (some a) (if head = none then some a else tail) (a :: addrs) := by
  obtain ⟨nodes', hset, hseg⟩ := hlinked.segment.linkPrev (some a) hlinked.nodup
  refine ⟨nodes', hset, ?_, List.nodup_cons.mpr ⟨ha, hlinked.nodup⟩⟩
  refine ⟨rfl, node, ?_, hprev, ?_⟩
  · rw [linkPrev_other hset (hlinked.head_mem ha), hnode]
  · rw [hnext]
    exact hseg

/-- The neighbours of `a` are linked to each other; every other node, `a` with its own
links too, stays as it is. -/
theorem remove {front back : List Addr} {a : Addr}
    (hlinked : Linked nodes head tail (front ++ a :: back)) :
    ∃ node nodes₁ nodes₂, nodes a = some node ∧
      nodes.linkPrev node.next node.prev = some nodes₁ ∧ nodes₁ a = some node ∧
        nodes₁.linkNext node.prev node.next = some nodes₂ ∧
          (∀ b, b ∉ front → b ∉ back → nodes₂ b = nodes b) ∧
          Linked nodes₂ (if node.prev = none then node.next else head)
            (if node.next = none then node.prev else tail) (front ++ back) := by
  obtain ⟨hfrontNodup, hrestNodup, hdisjoint⟩ := List.nodup_append'.mp hlinked.nodup
  obtain ⟨haback, hbackNodup⟩ := List.nodup_cons.mp hrestNodup
  obtain ⟨middle, start, hfront, rfl, node, hnode, rfl, hback⟩ :=
    Segment.append_iff.mp hlinked.segment
  obtain ⟨nodes₁, hset₁, hback₁⟩ := hback.linkPrev node.prev hbackNodup
  have hnext {b : Addr} (hb : b ∉ back) : node.next ≠ some b := by
    rw [hback.first_eq, Option.or_none]
    intro heq
    exact hb (List.mem_of_head? heq)
  have hprev {b : Addr} (hb : b ∉ front) : node.prev ≠ some b := by
    rw [hfront.last_eq, Option.or_none]
    intro heq
    exact hb (List.mem_of_getLast? heq)
  have hfront₁ : Segment nodes₁ none head front node.prev (some a) := by
    apply hfront.congr
    intro b hb
    exact linkPrev_other hset₁ (hnext fun hmem => hdisjoint hb (List.mem_cons_of_mem _ hmem))
  obtain ⟨nodes₂, hset₂, hfront₂⟩ := hfront₁.linkNext node.next hfrontNodup
  have hback₂ : Segment nodes₂ node.prev node.next back
      (if node.next = none then node.prev else tail) none := by
    apply hback₁.congr
    intro b hb
    exact linkNext_other hset₂ (hprev fun hmem => hdisjoint hmem (List.mem_cons_of_mem _ hb))
  have hnode₁ : nodes₁ a = some node := by
    rw [linkPrev_other hset₁ (hnext haback), hnode]
  refine ⟨node, nodes₁, nodes₂, hnode, hset₁, hnode₁, hset₂, ?_, ?_, ?_⟩
  · intro b hbfront hbback
    rw [linkNext_other hset₂ (hprev hbfront), linkPrev_other hset₁ (hnext hbback)]
  · exact Segment.append_iff.mpr ⟨_, _, hfront₂, hback₂⟩
  · exact (List.nodup_middle.mp hlinked.nodup).of_cons

end Linked

end Nodes

end ApueCourse.Memory
