import ApueCourse.Find.Walk

/-! The calls of a whole walk: one for every object, each object under a pathname
of its own. -/

namespace ApueCourse.Find

open Memory Control

variable {σ : Type}

/-! Where the objects of a tree lie. -/

/-- The pathnames at or below the entry `name` of a directory. -/
def Below (base : Path) (name : Name) (path : Path) : Prop :=
  ∃ tail, path = base ++ name.bytes ++ tail ∧
    (tail = [] ∨ tail.head? = some slash)

theorem takeWhile_name (name : Name) {tail : Path}
    (htail : tail = [] ∨ tail.head? = some slash) :
    (name.bytes ++ tail).takeWhile (· ≠ slash) = name.bytes := by
  have hbytes : ∀ c ∈ name.bytes, decide (c ≠ slash) = true := by
    intro c hc
    have hne : c ≠ slash := fun heq => name.no_slash (heq ▸ hc)
    exact decide_eq_true hne
  rw [List.takeWhile_append_of_pos hbytes]
  cases tail with
  | nil => simp
  | cons c tail => simp_all

theorem Below.name_eq {base path : Path} {first second : Name}
    (hfirst : Below base first path) (hsecond : Below base second path) :
    first = second := by
  obtain ⟨tail, rfl, htail⟩ := hfirst
  obtain ⟨tail', heq, htail'⟩ := hsecond
  rw [List.append_assoc, List.append_assoc, List.append_cancel_left_eq] at heq
  have hbytes : first.bytes = second.bytes := by
    rw [← takeWhile_name first htail, heq, takeWhile_name second htail']
  cases first
  cases second
  simpa using hbytes

theorem Below.length_lt {base path : Path} {name : Name}
    (hbelow : Below base name path) : base.length < path.length := by
  obtain ⟨tail, rfl, -⟩ := hbelow
  have hpos := List.length_pos_iff.mpr name.ne_nil
  simp only [List.length_append]
  omega

mutual
theorem Tree.path_of_mem_objects (tree : Tree) {path : Path}
    {object : Path × Tree} (hobject : object ∈ tree.objects path) :
    object.1 = path ∨ ∃ name, Below (slashed path) name object.1 := by
  cases tree with
  | file | nostat | unreadable =>
      simp only [Tree.objects, List.mem_singleton] at hobject
      exact .inl (by rw [hobject])
  | dir stat entries =>
      rcases List.mem_cons.mp hobject with hself | hentry
      · exact .inl (by rw [hself])
      · obtain ⟨name, -, hbelow⟩ := entries.path_of_mem_objects hentry
        exact .inr ⟨name, hbelow⟩

theorem Entries.path_of_mem_objects (entries : Entries) {base : Path}
    {object : Path × Tree} (hobject : object ∈ entries.objects base) :
    ∃ name ∈ entries.names, Below base name object.1 := by
  cases entries with
  | nil => cases hobject
  | cons name tree rest =>
      rcases List.mem_append.mp hobject with htree | hrest
      · refine ⟨name, List.mem_cons_self, ?_⟩
        rcases tree.path_of_mem_objects htree with hself | ⟨name', tail, hbelow, -⟩
        · exact ⟨[], by simpa using hself, .inl rfl⟩
        · refine ⟨slash :: (name'.bytes ++ tail), ?_, .inr rfl⟩
          rw [hbelow, slashed_entry]
          simp
      · obtain ⟨name', hname', hbelow⟩ := rest.path_of_mem_objects hrest
        exact ⟨name', List.mem_cons_of_mem _ hname', hbelow⟩
end

mutual
theorem Tree.nodup_paths {fs : FileSystem} (tree : Tree) {path : Path}
    (hshows : tree.Shows fs path) : ((tree.objects path).map Prod.fst).Nodup := by
  cases tree with
  | file | nostat | unreadable => simp [Tree.objects]
  | dir stat entries =>
      obtain ⟨-, -, -, hnames, hentries⟩ := hshows
      refine List.nodup_cons.mpr ⟨?_, entries.nodup_paths hnames hentries⟩
      intro hself
      obtain ⟨object, hobject, hpath⟩ := List.mem_map.mp hself
      obtain ⟨name, -, hbelow⟩ := entries.path_of_mem_objects hobject
      have hlonger := hbelow.length_lt
      rw [hpath] at hlonger
      exact absurd (length_le_slashed path) (Nat.not_le.mpr hlonger)

theorem Entries.nodup_paths {fs : FileSystem} (entries : Entries) {base : Path}
    (hnames : entries.names.Nodup) (hshows : entries.Shows fs base) :
    ((entries.objects base).map Prod.fst).Nodup := by
  cases entries with
  | nil => exact List.nodup_nil
  | cons name tree rest =>
      obtain ⟨htree, hrest⟩ := hshows
      obtain ⟨hname, hnames⟩ := List.nodup_cons.mp hnames
      rw [Entries.objects, List.map_append]
      refine List.nodup_append.mpr ⟨tree.nodup_paths htree,
        rest.nodup_paths hnames hrest, ?_⟩
      intro path hfirst path' hsecond hsame
      obtain ⟨first, hin₁, rfl⟩ := List.mem_map.mp hfirst
      obtain ⟨second, hin₂, rfl⟩ := List.mem_map.mp hsecond
      have hin : first ∈ (Entries.cons name tree .nil).objects base :=
        List.mem_append_left _ hin₁
      obtain ⟨name₁, hname₁, hbelow₁⟩ := Entries.path_of_mem_objects _ hin
      obtain ⟨name₂, hname₂, hbelow₂⟩ := rest.path_of_mem_objects hin₂
      rw [← hsame] at hbelow₂
      simp only [Entries.names, List.mem_singleton] at hname₁
      apply hname
      rw [← hname₁, hbelow₁.name_eq hbelow₂]
      exact hname₂
end

/-! The whole walk. -/

theorem initial_fullpath {size : Nat} {start : Path} (hsize : start.length < size) :
    ∃ fullpath, store (strncpyBytes start size) (size - 1) 0 = some fullpath ∧
      fullpath.length = size ∧ ∃ rest, fullpath = start ++ 0 :: rest := by
  have hlength := length_strncpyBytes start size
  have hstore : store (strncpyBytes start size) (size - 1) 0 =
      some ((strncpyBytes start size).set (size - 1) 0) :=
    if_pos (by omega)
  refine ⟨_, hstore, by rw [List.length_set, hlength],
    List.replicate (size - start.length - 1) 0, ?_⟩
  have hlast : (strncpyBytes start size)[size - 1] = 0 := by
    simp only [strncpyBytes_of_lt hsize, ← List.replicate_succ]
    rw [List.getElem_append_right (by omega), List.getElem_replicate]
  rw [← strncpyBytes_of_lt hsize]
  conv_lhs => rw [← hlast]
  exact List.set_getElem_self _

/-- What a walk returned and the state in which it left the callback. -/
def outcome (walk : Except Stop (Int × World σ)) : Except Stop (Int × σ) :=
  walk.map fun (ret, w) => (ret, w.state)

theorem outcome_eq_ok {walk : Except Stop (Int × World σ)} {ret : Int} {state : σ}
    (hwalk : outcome walk = .ok (ret, state)) :
    ∃ w, walk = .ok (ret, w) ∧ w.state = state := by
  cases walk with
  | error stop => cases hwalk
  | ok result =>
      obtain ⟨ret', w⟩ := result
      obtain ⟨rfl, hstate⟩ := Prod.mk.inj (Except.ok.inj hwalk)
      exact ⟨w, rfl, hstate⟩

theorem myFTW_steps {fs : FileSystem} {size fuel : Nat} {start : Path} {tree : Tree}
    (func : FindFunc σ) (state : σ) (hstart : start ≠ []) (hnul : 0 ∉ start)
    (hsize : start.length < size) (hshows : tree.Shows fs start)
    (hfuel : tree.depth < fuel) :
    outcome (myFTW fs fuel size start func state) =
      callAll (Step.run func size) (steps (tree.objects start)) state := by
  obtain ⟨fullpath, hstore, hlength, rest, hbuffer⟩ := initial_fullpath hsize
  have hwalk := tree.doPath_follows func
    (w := { fullpath, state }) hshows hstart hnul hbuffer hfuel
  simp only [hlength] at hwalk
  simp only [myFTW, hstore, orUndefined_some, ok_bind]
  cases hcalls : callAll (Step.run func size) (steps (tree.objects start)) state with
  | error stop =>
      rw [hcalls] at hwalk
      have hstop : doPath fs func fuel { fullpath, state } = .error stop := hwalk
      rw [hstop]
      rfl
  | ok result =>
      rw [hcalls] at hwalk
      obtain ⟨fullpath', -, -, hdone⟩ := hwalk
      rw [hdone]
      rfl

/-- The walk does to the callback what calling it on the objects in turn does. -/
theorem myFTW_outcome {fs : FileSystem} {size fuel : Nat} {start : Path}
    {tree : Tree} (func : FindFunc σ) (state : σ) (hstart : start ≠ [])
    (hnul : 0 ∉ start) (hshows : tree.Shows fs start) (hfits : tree.Fits size start)
    (hfuel : tree.depth < fuel) :
    outcome (myFTW fs fuel size start func state) =
      callAll func (visits (tree.objects start)) state := by
  have hsize : start.length < size :=
    (length_le_walked start tree).trans_lt (hfits _ (mem_objects_self start tree))
  rw [myFTW_steps func state hstart hnul hsize hshows hfuel, callAll_steps hfits]

/-! The contract of `myFTW`.  A directory that `opendir` refuses gets `FTW_DNR`
with its slashed pathname; a start path that ends in '/' is slashed already. -/

theorem myFTW_preorder {fs : FileSystem} {size : Nat} {start : Path} {tree : Tree}
    (func : FindFunc σ) (state : σ) (hstart : start ≠ []) (hnul : 0 ∉ start)
    (hshows : tree.Shows fs start) (hfits : tree.Fits size start) :
    ((tree.objects start).map Prod.fst).Nodup ∧
      ∃ enough, ∀ fuel ≥ enough,
        outcome (myFTW fs fuel size start func state) =
            callAll func (visits (tree.objects start)) state ∧
          ∀ ret state',
            callAll func (visits (tree.objects start)) state = .ok (ret, state') →
            ∃ made,
              outcome (myFTW fs fuel size start (logged func) ([], state)) =
                  .ok (ret, (made, state')) ∧
                EarlyExit (visits (tree.objects start)) made ret := by
  refine ⟨tree.nodup_paths hshows, tree.depth + 1, ?_⟩
  intro fuel hfuel
  refine ⟨myFTW_outcome func state hstart hnul hshows hfits hfuel, ?_⟩
  intro ret state' hcalls
  obtain ⟨made, hmade, hexit⟩ := (callAll_logged func _ [] state).2 ret state' hcalls
  refine ⟨made, ?_, hexit⟩
  rw [myFTW_outcome (logged func) ([], state) hstart hnul hshows hfits hfuel, hmade,
    List.nil_append]

/-- `d` with the regular file `a`, the closed directory `b` and an entry `c` that
`lstat` refuses. -/
def smallDisk : FileSystem where
  lstat path :=
    if path = [100] then some ⟨.dir, 4096⟩
    else if path = [100, 47, 97] then some ⟨.reg, 5⟩
    else if path = [100, 47, 98] then some ⟨.dir, 4096⟩
    else none
  opendir path :=
    if path = [100, 47] then
      some [⟨[46], by decide, by decide, by decide⟩,
        ⟨[97], by decide, by decide, by decide⟩,
        ⟨[98], by decide, by decide, by decide⟩,
        ⟨[99], by decide, by decide, by decide⟩]
    else none

def smallTree : Tree :=
  .dir ⟨.dir, 4096⟩
    (.cons ⟨[97], by decide, by decide, by decide⟩ (.file ⟨.reg, 5⟩)
      (.cons ⟨[98], by decide, by decide, by decide⟩ (.unreadable ⟨.dir, 4096⟩)
        (.cons ⟨[99], by decide, by decide, by decide⟩ .nostat .nil)))

/-- A callback that returns 7 at its third call. -/
def stopAtThird : FindFunc Nat := fun _ calls =>
  .ok (if calls = 2 then 7 else 0, calls + 1)

theorem myFTW_preorder_smallDisk :
    ((smallTree.objects [100]).map Prod.fst).Nodup ∧
      ∃ enough, ∀ fuel ≥ enough,
        outcome (myFTW smallDisk fuel 8 [100] stopAtThird 0) =
            callAll stopAtThird (visits (smallTree.objects [100])) 0 ∧
          ∀ ret calls,
            callAll stopAtThird (visits (smallTree.objects [100])) 0 =
              .ok (ret, calls) →
            ∃ made,
              outcome (myFTW smallDisk fuel 8 [100] (logged stopAtThird) ([], 0)) =
                  .ok (ret, (made, calls)) ∧
                EarlyExit (visits (smallTree.objects [100])) made ret := by
  have hshows : smallTree.Shows smallDisk [100] := by
    simp [smallTree, smallDisk, Tree.Shows, Entries.Shows, Entries.names, slashed,
      slash, Name.isDot]
  have hfits : smallTree.Fits 8 [100] := by
    unfold Tree.Fits
    decide
  exact myFTW_preorder stopAtThird 0 (by decide) (by decide) hshows hfits

/-- On `d/` that `opendir` refuses, `FTW_DNR` comes with the start path as it is. -/
theorem closed_start_keeps_its_slash :
    ¬ ∀ (fs : FileSystem) (size : Nat) (start : Path) (stat : Stat),
      start ≠ [] → 0 ∉ start → (Tree.unreadable stat).Shows fs start →
      (Tree.unreadable stat).Fits size start →
      ∃ fuel, outcome (myFTW fs fuel size start
          (logged fun _ state => .ok (0, state)) ([], ())) =
        .ok (0, ([(⟨start, some stat, .D⟩, 0),
          (⟨start ++ [slash], some stat, .DNR⟩, 0)], ())) := by
  intro hclaim
  obtain ⟨fuel, hcalls⟩ := hclaim
    { lstat := fun _ => some ⟨.dir, 4096⟩, opendir := fun _ => none } 4 [100, 47]
    ⟨.dir, 4096⟩ (by decide) (by decide) ⟨rfl, rfl, rfl⟩
    (by unfold Tree.Fits; decide)
  cases fuel with
  | zero =>
      revert hcalls
      decide
  | succ fuel =>
      have hwalk : outcome (myFTW
          { lstat := fun _ => some ⟨.dir, 4096⟩, opendir := fun _ => none }
          (fuel + 1) 4 [100, 47] (logged fun _ state => .ok (0, state)) ([], ())) =
        .ok (0, ([(⟨[100, 47], some ⟨.dir, 4096⟩, .D⟩, 0),
          (⟨[100, 47], some ⟨.dir, 4096⟩, .DNR⟩, 0)], ())) := rfl
      rw [hwalk] at hcalls
      revert hcalls
      decide

end ApueCourse.Find
