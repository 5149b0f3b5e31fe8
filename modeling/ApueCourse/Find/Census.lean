import ApueCourse.Find.Buffers

/-! The statistics count every object once, in whatever order `readdir` lists them. -/

namespace ApueCourse.Find

open Memory Control

/-! Objects with and without a directory's mode. -/

/-- The mode that `lstat` tells belongs to what the object is. -/
def Tree.ModeOk : Tree → Prop
  | .file stat => stat.st_mode ≠ .dir
  | .nostat => True
  | .unreadable stat | .dir stat _ => stat.st_mode = .dir

mutual
theorem Tree.modeOk_of_mem {fs : FileSystem} (tree : Tree) {path : Path}
    (hshows : tree.Shows fs path) {object : Path × Tree}
    (hobject : object ∈ tree.objects path) : object.2.ModeOk := by
  cases tree with
  | file stat =>
      rw [List.mem_singleton.mp hobject]
      exact hshows.2
  | nostat =>
      rw [List.mem_singleton.mp hobject]
      trivial
  | unreadable stat =>
      rw [List.mem_singleton.mp hobject]
      exact hshows.2.1
  | dir stat entries =>
      obtain ⟨-, hmode, -, -, hentries⟩ := hshows
      rcases List.mem_cons.mp hobject with rfl | hobject
      · exact hmode
      · exact entries.modeOk_of_mem hentries hobject

theorem Entries.modeOk_of_mem {fs : FileSystem} (entries : Entries) {base : Path}
    (hshows : entries.Shows fs base) {object : Path × Tree}
    (hobject : object ∈ entries.objects base) : object.2.ModeOk := by
  cases entries with
  | nil => cases hobject
  | cons name tree rest =>
      rcases List.mem_append.mp hobject with hobject | hobject
      · exact tree.modeOk_of_mem hshows.1 hobject
      · exact rest.modeOk_of_mem hshows.2 hobject
end

/-! The counters after the walk. -/

def Statistics.add (s t : Statistics) : Statistics where
  nreg := s.nreg + t.nreg
  nsreg := s.nsreg + t.nsreg
  ndir := s.ndir + t.ndir
  nblk := s.nblk + t.nblk
  nslink := s.nslink + t.nslink
  nchr := s.nchr + t.nchr
  nfifo := s.nfifo + t.nfifo
  nsock := s.nsock + t.nsock

theorem Statistics.add_zero (s : Statistics) : s.add .zero = s := rfl

theorem Statistics.zero_add (s : Statistics) : Statistics.zero.add s = s := by
  simp [Statistics.add, Statistics.zero]

theorem Statistics.add_assoc (s t u : Statistics) : (s.add t).add u = s.add (t.add u) := by
  simp only [Statistics.add, Nat.add_assoc]

theorem census_cons (object : Path × Tree) (rest : List (Path × Tree)) :
    census (object :: rest) = (census [object]).add (census rest) := by
  simp only [census, Statistics.add, List.countP_cons, List.countP_nil, Nat.zero_add,
    Nat.add_comm]

/-- The calls of one object count it once. -/
theorem tally_calls {path : Path} {tree : Tree} (hmode : tree.ModeOk)
    (hsize : ∀ stat ∈ tree.stat, stat.st_mode = .reg → 0 ≤ stat.st_size) (s : Statistics) :
    (tree.calls path).foldl Statistics.count s = s.add (census [(path, tree)]) := by
  cases tree with
  | nostat => rfl
  | file stat =>
      have hdir : stat.st_mode ≠ .dir := hmode
      have hstat : (Tree.file stat).stat = some stat := rfl
      cases htype : stat.st_mode with
      | dir => exact absurd htype hdir
      | reg =>
          have hpos := hsize stat rfl htype
          by_cases hsmall : stat.st_size ≤ 4096 <;>
            simp [Tree.calls, Statistics.count, census, Statistics.add, Tree.is, Tree.small,
              hstat, htype, hpos, hsmall]
      | _ =>
          simp [Tree.calls, Statistics.count, census, Statistics.add, Tree.is, Tree.small,
            hstat, htype]
  | unreadable stat | dir stat entries =>
      have hdir : stat.st_mode = .dir := hmode
      simp [Tree.calls, Statistics.count, census, Statistics.add, Tree.is, Tree.small,
        Tree.stat, hdir]

theorem tally_visits {objects : List (Path × Tree)} (hmode : ∀ object ∈ objects, object.2.ModeOk)
    (hsize : ∀ object ∈ objects, ∀ stat ∈ object.2.stat, stat.st_mode = .reg → 0 ≤ stat.st_size)
    (s : Statistics) :
    (visits objects).foldl Statistics.count s = s.add (census objects) := by
  induction objects generalizing s with
  | nil => exact s.add_zero.symm
  | cons object rest ih =>
      have hself := @tally_calls object.1 object.2 (hmode object List.mem_cons_self)
        (hsize object List.mem_cons_self) s
      have hrest := ih (fun object hobject => hmode object (List.mem_cons_of_mem _ hobject))
        (fun object hobject => hsize object (List.mem_cons_of_mem _ hobject))
        (s.add (census [object]))
      rw [census_cons, ← Statistics.add_assoc, ← hrest]
      simp only [visits, List.flatMap_cons, List.foldl_append, hself]

/-! Other orders of the entries. -/

/-- The same file system, where `readdir` gives the entries in another order. -/
structure Reordered (fs fs' : FileSystem) : Prop where
  lstat : fs'.lstat = fs.lstat
  opendir : ∀ path, Option.Rel List.Perm (fs.opendir path) (fs'.opendir path)

/-- An object without what is below it. -/
def Tree.bare : Tree → Tree
  | .file stat => .file stat
  | .nostat => .nostat
  | .unreadable stat => .unreadable stat
  | .dir stat _ => .dir stat .nil

def bareObjects (objects : List (Path × Tree)) : List (Path × Tree) :=
  objects.map fun object => (object.1, object.2.bare)

theorem Tree.stat_bare (tree : Tree) : tree.bare.stat = tree.stat := by
  cases tree <;> rfl

theorem Tree.walked_bare (path : Path) (tree : Tree) :
    tree.bare.walked path = tree.walked path := by
  cases tree <;> rfl

theorem census_bare (objects : List (Path × Tree)) :
    census (bareObjects objects) = census objects := by
  simp only [census, bareObjects, List.countP_map, Function.comp_def, Tree.is, Tree.small,
    Tree.stat_bare]

theorem census_perm {objects objects' : List (Path × Tree)} (hperm : objects.Perm objects') :
    census objects = census objects' := by
  simp only [census, hperm.countP_eq]

/-- The entries of a directory in the order of `names`. -/
theorem Entries.permute {fs : FileSystem} {entries : Entries} {base : Path}
    (hshows : entries.Shows fs base) {names : List Name} (hperm : entries.names.Perm names) :
    ∃ entries' : Entries, entries'.names = names ∧ entries'.Shows fs base ∧
      (entries'.objects base).Perm (entries.objects base) ∧
      entries'.depth = entries.depth := by
  generalize hnames : entries.names = from_ at hperm
  induction hperm generalizing entries with
  | nil => exact ⟨entries, hnames, hshows, .refl _, rfl⟩
  | cons name _ ih =>
      cases entries with
      | nil => cases hnames
      | cons name' tree rest =>
          obtain ⟨rfl, hrest⟩ := List.cons.inj hnames
          obtain ⟨rest', hnames', hshows', hobjects, hdepth⟩ := ih hshows.2 hrest
          refine ⟨.cons name' tree rest', ?_, ⟨hshows.1, hshows'⟩, ?_, ?_⟩
          · rw [Entries.names, hnames']
          · exact hobjects.append_left _
          · simp only [Entries.depth, hdepth]
  | swap first second rest =>
      cases entries with
      | nil => cases hnames
      | cons name tree entries =>
          cases entries with
          | nil => cases hnames
          | cons name' tree' entries =>
              simp only [Entries.names, List.cons.injEq] at hnames
              obtain ⟨rfl, rfl, rfl⟩ := hnames
              obtain ⟨htree, htree', hentries⟩ := hshows
              refine ⟨.cons name' tree' (.cons name tree entries), rfl,
                ⟨htree', htree, hentries⟩, ?_, ?_⟩
              · simp only [Entries.objects, ← List.append_assoc]
                exact List.perm_append_comm.append_right _
              · simp only [Entries.depth]
                omega
  | trans _ _ ih₁ ih₂ =>
      obtain ⟨entries₁, hnames₁, hshows₁, hobjects₁, hdepth₁⟩ := ih₁ hshows hnames
      obtain ⟨entries₂, hnames₂, hshows₂, hobjects₂, hdepth₂⟩ := ih₂ hshows₁ hnames₁
      exact ⟨entries₂, hnames₂, hshows₂, hobjects₂.trans hobjects₁, hdepth₂.trans hdepth₁⟩

mutual
theorem Tree.reordered {fs fs' : FileSystem} (hfs : Reordered fs fs') (tree : Tree)
    {path : Path} (hshows : tree.Shows fs path) :
    ∃ tree' : Tree, tree'.Shows fs' path ∧ tree'.depth = tree.depth ∧
      (bareObjects (tree'.objects path)).Perm (bareObjects (tree.objects path)) := by
  cases tree with
  | file stat => exact ⟨.file stat, ⟨hfs.lstat ▸ hshows.1, hshows.2⟩, rfl, .refl _⟩
  | nostat =>
      have hlstat : fs.lstat path = none := hshows
      exact ⟨.nostat, (congrFun hfs.lstat path).trans hlstat, rfl, .refl _⟩
  | unreadable stat =>
      obtain ⟨hlstat, hmode, hopendir⟩ := hshows
      have hrel := hfs.opendir (slashed path)
      rw [hopendir] at hrel
      refine ⟨.unreadable stat, ⟨hfs.lstat ▸ hlstat, hmode, ?_⟩, rfl, .refl _⟩
      cases hother : fs'.opendir (slashed path) with
      | none => rfl
      | some names =>
          rw [hother] at hrel
          cases hrel
  | dir stat entries =>
      obtain ⟨hlstat, hmode, ⟨names, hopendir, hnames⟩, hnodup, hentries⟩ := hshows
      have hrel := hfs.opendir (slashed path)
      rw [hopendir] at hrel
      cases hother : fs'.opendir (slashed path) with
      | none =>
          rw [hother] at hrel
          cases hrel
      | some names' =>
          rw [hother] at hrel
          have hperm : names.Perm names' := by
            cases hrel with
            | some hperm => exact hperm
          obtain ⟨entries₁, hnames₁, hshows₁, hdepth₁, hobjects₁⟩ :=
            entries.reordered hfs hentries
          have hfilter : entries₁.names.Perm (names'.filter fun name => !name.isDot) := by
            rw [hnames₁, ← hnames]
            exact hperm.filter _
          obtain ⟨entries₂, hnames₂, hshows₂, hobjects₂, hdepth₂⟩ :=
            Entries.permute hshows₁ hfilter
          refine ⟨.dir stat entries₂, ⟨hfs.lstat ▸ hlstat, hmode,
            ⟨names', hother, hnames₂.symm⟩, ?_, hshows₂⟩, ?_, ?_⟩
          · rw [hnames₂]
            exact hfilter.nodup (hnames₁ ▸ hnodup)
          · simp only [Tree.depth, hdepth₂, hdepth₁]
          · exact ((hobjects₂.map _).trans hobjects₁).cons _

theorem Entries.reordered {fs fs' : FileSystem} (hfs : Reordered fs fs') (entries : Entries)
    {base : Path} (hshows : entries.Shows fs base) :
    ∃ entries' : Entries, entries'.names = entries.names ∧ entries'.Shows fs' base ∧
      entries'.depth = entries.depth ∧
      (bareObjects (entries'.objects base)).Perm (bareObjects (entries.objects base)) := by
  cases entries with
  | nil => exact ⟨.nil, rfl, trivial, rfl, .refl _⟩
  | cons name tree rest =>
      obtain ⟨tree', htree, hdepth, hobjects⟩ := tree.reordered hfs hshows.1
      obtain ⟨rest', hnames, hrest, hdepth', hobjects'⟩ := rest.reordered hfs hshows.2
      refine ⟨.cons name tree' rest', ?_, ⟨htree, hrest⟩, ?_, ?_⟩
      · rw [Entries.names, Entries.names, hnames]
      · simp only [Entries.depth, hdepth, hdepth']
      · simp only [Entries.objects, bareObjects, List.map_append] at hobjects hobjects' ⊢
        exact hobjects.append hobjects'
end

/-- What holds of every object without what is below it survives another order. -/
theorem forall_objects_perm {p : Path → Tree → Prop} (hbare : ∀ path tree, p path tree.bare ↔ p path tree)
    {objects objects' : List (Path × Tree)}
    (hperm : (bareObjects objects').Perm (bareObjects objects))
    (hall : ∀ object ∈ objects, p object.1 object.2) : ∀ object ∈ objects', p object.1 object.2 := by
  intro object hobject
  have hmem : (object.1, object.2.bare) ∈ bareObjects objects' :=
    List.mem_map_of_mem hobject
  obtain ⟨other, hother, heq⟩ := List.mem_map.mp (hperm.subset hmem)
  obtain ⟨hpath, htree⟩ := Prod.mk.inj heq
  rw [← hbare, ← htree, ← hpath, hbare]
  exact hall other hother

theorem walk_counts {fs : FileSystem} {size fuel : Nat} {start : Path} {tree : Tree}
    (hstart : start ≠ []) (hnul : 0 ∉ start) (hshows : tree.Shows fs start)
    (hfits : tree.Fits size start) (hfuel : tree.depth < fuel)
    (hsizes : ∀ object ∈ tree.objects start, ∀ stat ∈ object.2.stat, 0 ≤ stat.st_size) :
    outcome (myFTW fs fuel size start findStat .zero) =
      .ok (0, census (tree.objects start)) := by
  rw [myFTW_outcome findStat .zero hstart hnul hshows hfits hfuel]
  obtain ⟨s, hcalls, rfl⟩ := @callAll_simulation _ _ _ _ findStat
    (visits (tree.objects start)) Eq (fun call s => s.count call)
    (fun call _ s t hst => ⟨s.count call, rfl, by rw [hst]⟩) .zero .zero rfl
  rw [hcalls, tally_visits (fun object hobject => tree.modeOk_of_mem hshows hobject)
    (fun object hobject stat hstat _ => hsizes object hobject stat hstat), Statistics.zero_add]

/-- The statistics are the numbers of the objects, in whatever order the entries come, exactly
if the pathnames of the tree fit the buffer of the walk. -/
theorem statistics_count_once_iff {limits : Limits} {size n : Nat}
    (hsize : path_alloc limits = some size) (hmax : limits.path_max = some n)
    {fs : FileSystem} (haccepts : Accepts fs n) {arg : Path} {statbuf : Stat} (hnul : 0 ∉ arg)
    (hstat : fs.lstat arg = some statbuf) {tree : Tree}
    (hshows : tree.Shows fs (startPath statbuf arg)) {fuel : Nat} (hfuel : tree.depth < fuel)
    (hsizes : ∀ object ∈ tree.objects (startPath statbuf arg), ∀ stat ∈ object.2.stat,
      0 ≤ stat.st_size) :
    (outcome (myFTW fs fuel size (startPath statbuf arg) findStat .zero) =
        .ok (0, census (tree.objects (startPath statbuf arg))) ∧
      (census (tree.objects (startPath statbuf arg))).total =
        (tree.objects (startPath statbuf arg)).countP (fun object => object.2.stat.isSome) ∧
      ∀ fs', Reordered fs fs' →
        outcome (myFTW fs' fuel size (startPath statbuf arg) findStat .zero) =
          outcome (myFTW fs fuel size (startPath statbuf arg) findStat .zero)) ↔
      tree.Fits size (startPath statbuf arg) := by
  obtain ⟨hne, hlength⟩ := haccepts.start hstat
  have hroom := Nat.lt_of_lt_of_le hlength (path_max_le hsize hmax)
  have hstart : 0 ∉ startPath statbuf arg := startPath_no_nul hnul
  generalize startPath statbuf arg = start at *
  constructor
  · intro hcounts
    rw [← callAll_run_fits_iff findStat_zero,
      ← myFTW_steps findStat .zero hne hstart hroom hshows hfuel, hcounts.1]
    intro hundefined
    cases hundefined
  · intro hfits
    have hcounts := walk_counts hne hstart hshows hfits hfuel hsizes
    refine ⟨hcounts, total_census _, ?_⟩
    intro fs' hfs
    obtain ⟨tree', hshows', hdepth, hperm⟩ := tree.reordered hfs hshows
    have hfits' : tree'.Fits size start :=
      @forall_objects_perm (fun path tree => (tree.walked path).length < size)
        (fun path tree => by rw [Tree.walked_bare]) _ _ hperm hfits
    have hsizes' : ∀ object ∈ tree'.objects start, ∀ stat ∈ object.2.stat, 0 ≤ stat.st_size :=
      @forall_objects_perm (fun _ tree => ∀ stat ∈ tree.stat, 0 ≤ stat.st_size)
        (fun path tree => by rw [Tree.stat_bare]) _ _ hperm hsizes
    rw [hcounts, walk_counts hne hstart hshows' hfits' (by omega) hsizes',
      ← census_bare (tree'.objects start), census_perm hperm, census_bare]

theorem smallDisk_accepts : Accepts smallDisk 4096 where
  empty := rfl
  long path hlong := by
    have hne (short : Path) (hshort : short.length < 4096) : path ≠ short := by
      rintro rfl
      omega
    simp [smallDisk, hne [100] (by decide), hne [100, 47, 97] (by decide),
      hne [100, 47, 98] (by decide)]

/-- One regular file and two directories. -/
theorem statistics_count_once_iff_smallDisk :
    (outcome (myFTW smallDisk 2 4096 [100] findStat .zero) =
        .ok (0, census (smallTree.objects [100])) ∧
      (census (smallTree.objects [100])).total =
        (smallTree.objects [100]).countP (fun object => object.2.stat.isSome) ∧
      ∀ fs', Reordered smallDisk fs' →
        outcome (myFTW fs' 2 4096 [100] findStat .zero) =
          outcome (myFTW smallDisk 2 4096 [100] findStat .zero)) ↔
      smallTree.Fits 4096 [100] := by
  have hshows : smallTree.Shows smallDisk [100] := by
    simp [smallTree, smallDisk, Tree.Shows, Entries.Shows, Entries.names, slashed,
      slash, Name.isDot]
  exact @statistics_count_once_iff linux 4096 4096 rfl rfl smallDisk smallDisk_accepts [100]
    ⟨.dir, 4096⟩ (by decide) rfl smallTree hshows 2 (by decide) (by decide)

/-- `myfind .` with the entry of 4097 bytes comes to no statistics. -/
theorem deep_tree_not_counted :
    (deepTree 16).Shows deepDisk [46] ∧
      outcome (myFTW deepDisk 17 4096 [46] findStat .zero) ≠
        .ok (0, census ((deepTree 16).objects [46])) := by
  refine ⟨deepTree_shows (by decide) (by decide) (by decide), ?_⟩
  rw [deepDisk_undefined]
  intro hcounts
  cases hcounts

end ApueCourse.Find
