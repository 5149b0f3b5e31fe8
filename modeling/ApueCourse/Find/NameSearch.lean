import ApueCourse.Find.Report

/-! `myfind <pathname> -name <str>...`. -/

namespace ApueCourse.Find

open Memory Control

def findName (in_filename : Block) : FindFunc Found := fun call found =>
  match call.type with
  | .F => do
      let pos := getFilenamePos call.pathname
      let cmp ← orUndefined (strcmp in_filename (call.pathname.drop pos ++ [0]))
      if cmp = 0 then
        return (0, found.report call.pathname)
      else
        return (0, found)
  | _ => return (0, found)

/-- The loop of `main` over `argv[i]`, with `i` counted from 1. -/
def nameLoop (fs : FileSystem) (fuel size : Nat) (in_path : Path) (total : Nat) :
    Nat → List Path → Int → List Line → Except Stop (Int × List Line)
  | _, [], ret, printed => return (ret, printed)
  | i, arg :: rest, ret, printed =>
      let pos := getFilenamePos arg
      if pos ≠ 0 ∨ arg.head? = some slash then
        nameLoop fs fuel size in_path total (i + 1) rest ret
          (printed ++ [.expectedName arg])
      else do
        let in_filename := strncpyBytes arg size
        let found : Found :=
          { found_count := 0, printed := printed ++ [.matchingName arg i total] }
        let (ret, w) ← myFTW fs fuel size in_path (findName in_filename) found
        nameLoop fs fuel size in_path total (i + 1) rest ret
          (w.state.printed ++ [closing w.state.found_count])

/-- `main` takes the current directory where `argv[1]` is no directory. -/
def startPath (statbuf : Stat) (pathname : Path) : Path :=
  if statbuf.st_mode = .dir then pathname else [46]

/-- `main` with `-name`: `in_path` is the buffer as `path_alloc` gives it. -/
def mainName (os : Os) (fuel size : Nat) (cwd : WorkDir) (in_path : Block)
    (pathname : Path) (names : List Path) : Except Stop (Int × List Line) := do
  let statbuf ← orExit ((os.view cwd).lstat pathname)
  let (in_path, cwd) ← getAbsPath os size cwd (startPath statbuf pathname) in_path
  let in_path ← orUndefined (cstring in_path)
  nameLoop (os.view cwd) fuel size in_path names.length 1 names 1
    [.filenames names.length]

/-! The specification. -/

/-- What stands behind the last slash. -/
def lastComponent (path : Path) : Path :=
  (path.reverse.takeWhile (· ≠ slash)).reverse

/-- The lines for the arguments from number `i` on: an argument with a slash is
rejected; for any other one, every non-directory object of that name once, and
their number. -/
inductive NamesExact (objects : List (Path × Tree)) (total : Nat) :
    Nat → List Path → List Line → Prop
  | nil : NamesExact objects total i [] []
  | rejected (hslash : slash ∈ arg)
      (hrest : NamesExact objects total (i + 1) rest lines) :
      NamesExact objects total i (arg :: rest) (.expectedName arg :: lines)
  | accepted {paths : List Path} (hslash : slash ∉ arg) (hnodup : paths.Nodup)
      (hpaths : ∀ path, path ∈ paths ↔
        ∃ stat, (path, .file stat) ∈ objects ∧ lastComponent path = arg)
      (hrest : NamesExact objects total (i + 1) rest lines) :
      NamesExact objects total i (arg :: rest)
        (.matchingName arg i total :: (paths.map .found ++ closing paths.length :: lines))

/-! Pathnames of the objects of a tree. -/

mutual
theorem Tree.entry_of_mem_objects (tree : Tree) {path : Path} (hpath : 0 ∉ path)
    {object : Path × Tree} (hobject : object ∈ tree.objects path) :
    object = (path, tree) ∨
      ∃ dir name, 0 ∉ dir ∧ object.1 = slashed dir ++ Name.bytes name := by
  cases tree with
  | file | nostat | unreadable => exact .inl (List.mem_singleton.mp hobject)
  | dir stat entries =>
      cases hobject with
      | head => exact .inl rfl
      | tail _ hentry => exact .inr (entries.entry_of_mem_objects hpath hentry)

theorem Entries.entry_of_mem_objects (entries : Entries) {path : Path}
    (hpath : 0 ∉ path) {object : Path × Tree}
    (hobject : object ∈ entries.objects (slashed path)) :
    ∃ dir name, 0 ∉ dir ∧ object.1 = slashed dir ++ Name.bytes name := by
  cases entries with
  | nil => cases hobject
  | cons name tree rest =>
      have hname : 0 ∉ slashed path ++ name.bytes := by
        simp [nul_not_mem_slashed hpath, name.no_nul]
      rcases List.mem_append.mp hobject with htree | hrest
      · rcases tree.entry_of_mem_objects hname htree with rfl | hentry
        · exact ⟨path, name, hpath, rfl⟩
        · exact hentry
      · exact rest.entry_of_mem_objects hpath hrest
end

theorem Tree.nul_not_mem_objects (tree : Tree) {path : Path} (hpath : 0 ∉ path)
    {object : Path × Tree} (hobject : object ∈ tree.objects path) : 0 ∉ object.1 := by
  rcases tree.entry_of_mem_objects hpath hobject with heq | ⟨dir, name, hdir, heq⟩
  · rw [heq]
    exact hpath
  · rw [heq]
    simp [nul_not_mem_slashed hdir, name.no_nul]

theorem lastComponent_entry (dir : Path) (name : Name) :
    lastComponent (slashed dir ++ name.bytes) = name.bytes := by
  have hbytes : ∀ c ∈ name.bytes.reverse, decide (c ≠ slash) = true := by
    intro c hc
    have hne : c ≠ slash := by
      intro heq
      exact name.no_slash (heq ▸ List.mem_reverse.mp hc)
    exact decide_eq_true hne
  rw [lastComponent, slashed_eq_dropLast_append, List.reverse_append,
    List.takeWhile_append_of_pos hbytes]
  simp

theorem getFilenamePos_entry (dir : Path) (name : Name) :
    (slashed dir ++ name.bytes).drop (getFilenamePos (slashed dir ++ name.bytes)) =
      if slashed dir = [slash] then slash :: name.bytes else name.bytes := by
  have hpos := getFilenamePos_append (slashed dir).dropLast name.no_slash
  have hpath : (slashed dir).dropLast ++ slash :: name.bytes =
      slashed dir ++ name.bytes := by
    rw [List.append_cons, ← slashed_eq_dropLast_append]
  rw [hpath] at hpos
  rw [hpos]
  cases hfront : (slashed dir).dropLast with
  | nil =>
      have hroot : slashed dir = [slash] := by
        rw [slashed_eq_dropLast_append, hfront, List.nil_append]
      simp [hroot]
  | cons c front =>
      have hlonger : slashed dir = c :: (front ++ [slash]) := by
        rw [slashed_eq_dropLast_append, hfront, List.cons_append]
      have hroot : slashed dir ≠ [slash] := by
        simp [hlonger]
      rw [if_neg (List.cons_ne_nil c front), if_neg hroot]
      have hlength : (c :: front).length + 1 = (slashed dir).length := by
        simp [hlonger]
      rw [hlength, List.drop_left]

/-! One search. -/

def nameHit (arg : Path) (call : Call) : Bool :=
  call.type = .F ∧ call.pathname.drop (getFilenamePos call.pathname) = arg

theorem nameHit_file {arg : Path} {call : Call} (hhit : nameHit arg call) :
    call.type = .F := by
  simp only [nameHit, decide_eq_true_eq] at hhit
  exact hhit.1

theorem findName_call {arg : Path} {size : Nat} {call : Call} (harg : 0 ∉ arg)
    (hpath : 0 ∉ call.pathname) (hfits : call.pathname.length < size)
    (found : Found) :
    findName (strncpyBytes arg size) call found =
      .ok (0, if nameHit arg call then found.report call.pathname else found) := by
  cases htype : call.type with
  | F =>
      have hnul : 0 ∉ call.pathname.drop (getFilenamePos call.pathname) := by
        intro hmem
        exact hpath (List.mem_of_mem_drop hmem)
      have hlength : (call.pathname.drop (getFilenamePos call.pathname)).length < size := by
        rw [List.length_drop]
        omega
      have hroom : (call.pathname.drop (getFilenamePos call.pathname)).length <
          (strncpyBytes arg size).length := by
        rwa [length_strncpyBytes]
      obtain ⟨cmp, hcmp, hzero⟩ := strcmp_string_iff hnul hroom []
      rw [starts_strncpyBytes_iff hnul harg hlength] at hzero
      simp only [findName, htype, hcmp, orUndefined_some, ok_bind, nameHit, hzero]
      split <;> simp_all <;> rfl
  | D | DNR | NS =>
      simp only [findName, htype, nameHit]
      rfl

theorem myFTW_findName {fs : FileSystem} {size fuel : Nat} {start arg : Path}
    {tree : Tree} (harg : 0 ∉ arg) (hstart : start ≠ []) (hnul : 0 ∉ start)
    (hshows : tree.Shows fs start) (hfits : tree.Fits size start)
    (hfuel : tree.depth < fuel) (found : Found) :
    ∃ w, myFTW fs fuel size start (findName (strncpyBytes arg size)) found =
        .ok (0, w) ∧
      w.state =
        { found_count := found.found_count +
            (hits (nameHit arg) (visits (tree.objects start))).length,
          printed := found.printed ++
            (hits (nameHit arg) (visits (tree.objects start))).map .found } := by
  have hcalls : ∀ call ∈ visits (tree.objects start), ∀ s t : Found, s = t →
      ∃ s', findName (strncpyBytes arg size) call s = .ok (0, s') ∧
        s' = if nameHit arg call then t.report call.pathname else t := by
    intro call hcall s t hst
    subst t
    cases htype : call.type with
    | F =>
        obtain ⟨stat, -, hobject⟩ := (mem_visits_file htype).mp hcall
        have hsize : call.pathname.length < size := hfits _ hobject
        have hpath : 0 ∉ call.pathname := tree.nul_not_mem_objects hnul hobject
        exact ⟨_, findName_call harg hpath hsize s, rfl⟩
    | D | DNR | NS =>
        refine ⟨s, ?_, ?_⟩
        · simp only [findName, htype]
          rfl
        · simp only [nameHit, htype]
          rfl
  obtain ⟨s, hall, hstate⟩ := callAll_simulation hcalls (rfl : found = found)
  have hwalk := myFTW_outcome (findName (strncpyBytes arg size)) found hstart hnul
    hshows hfits hfuel
  rw [hall] at hwalk
  obtain ⟨w, hresult, hw⟩ := outcome_eq_ok hwalk
  exact ⟨w, hresult, by rw [hw, hstate, foldl_report]⟩

/-! All searches. -/

/-- The lines that the loop prints for the arguments from number `i` on. -/
def nameLines (objects : List (Path × Tree)) (total : Nat) : Nat → List Path → List Line
  | _, [] => []
  | i, arg :: rest =>
      if slash ∈ arg then
        .expectedName arg :: nameLines objects total (i + 1) rest
      else
        .matchingName arg i total ::
          ((hits (nameHit arg) (visits objects)).map .found ++
            closing (hits (nameHit arg) (visits objects)).length ::
              nameLines objects total (i + 1) rest)

theorem nameLoop_prints {fs : FileSystem} {size fuel : Nat} {start : Path}
    {tree : Tree} (hstart : start ≠ []) (hnul : 0 ∉ start)
    (hshows : tree.Shows fs start) (hfits : tree.Fits size start)
    (hfuel : tree.depth < fuel) {names : List Path} (hnames : ∀ arg ∈ names, 0 ∉ arg)
    (total i : Nat) (ret : Int) (printed : List Line) :
    ∃ ret', nameLoop fs fuel size start total i names ret printed =
      .ok (ret', printed ++ nameLines (tree.objects start) total i names) := by
  induction names generalizing i ret printed with
  | nil =>
      refine ⟨ret, ?_⟩
      rw [nameLoop, nameLines, List.append_nil]
      rfl
  | cons arg rest ih =>
      have hrest : ∀ arg ∈ rest, 0 ∉ arg := fun arg harg =>
        hnames arg (List.mem_cons_of_mem _ harg)
      simp only [nameLoop, nameLines, names_directory_iff]
      by_cases hslash : slash ∈ arg
      · obtain ⟨ret', hloop⟩ := ih hrest (i + 1) ret (printed ++ [.expectedName arg])
        refine ⟨ret', ?_⟩
        rw [if_pos hslash, if_pos hslash, hloop, List.append_assoc,
          List.singleton_append]
      · obtain ⟨w, hwalk, hstate⟩ := myFTW_findName
          (hnames arg List.mem_cons_self) hstart hnul hshows hfits hfuel
          { found_count := 0, printed := printed ++ [.matchingName arg i total] }
        obtain ⟨ret', hloop⟩ := ih hrest (i + 1) 0
          (w.state.printed ++ [closing w.state.found_count])
        refine ⟨ret', ?_⟩
        rw [if_neg hslash, if_neg hslash, hwalk, ok_bind, hloop, hstate]
        simp

theorem mainName_prints {os : Os} {size fuel : Nat} {cwd start : WorkDir}
    {pathname : Path} {statbuf : Stat} {tree : Tree} {names : List Path}
    {in_path : Block} (hstat : (os.view cwd).lstat pathname = some statbuf)
    (henters : Enters os size cwd (startPath statbuf pathname) start)
    (hbuffer : in_path.length = size)
    (hshows : tree.Shows (os.view cwd) (slashed start.path))
    (hfits : tree.Fits size (slashed start.path)) (hfuel : tree.depth < fuel)
    (hnames : ∀ arg ∈ names, 0 ∉ arg) :
    ∃ ret, mainName os fuel size cwd in_path pathname names =
      .ok (ret, .filenames names.length ::
        nameLines (tree.objects (slashed start.path)) names.length 1 names) := by
  have hnul : 0 ∉ slashed start.path := nul_not_mem_slashed start.no_nul
  obtain ⟨rest, habsPath, -⟩ := getAbsPath_enters henters hbuffer
  obtain ⟨ret, hloop⟩ := nameLoop_prints (slashed_ne_nil start.path) hnul hshows
    hfits hfuel hnames names.length 1 1 [.filenames names.length]
  refine ⟨ret, ?_⟩
  simp only [mainName, hstat, orExit_some, ok_bind, habsPath, cstring_append hnul,
    orUndefined_some, hloop]
  rfl

/-! Exactness: the entries directly in the root directory are the ones missed. -/

theorem nameHit_iff {arg path : Path} {stat : Stat} {tree : Tree} {start : Path}
    (harg : slash ∉ arg) (hnul : 0 ∉ start) (hroot : ∀ stat, tree ≠ .file stat)
    (hobject : (path, .file stat) ∈ tree.objects start) :
    nameHit arg ⟨path, some stat, .F⟩ ↔
      lastComponent path = arg ∧ path ≠ slash :: arg := by
  rcases tree.entry_of_mem_objects hnul hobject with heq | ⟨dir, name, -, heq⟩
  · exact absurd (congrArg Prod.snd heq).symm (hroot stat)
  · simp only at heq
    subst path
    simp only [nameHit, lastComponent_entry, getFilenamePos_entry, decide_eq_true_eq,
      true_and]
    by_cases hdir : slashed dir = [slash]
    · rw [if_pos hdir, hdir]
      constructor
      · intro hname
        exact absurd (hname ▸ List.mem_cons_self) harg
      · intro hname
        exact absurd (congrArg (slash :: ·) hname.1) hname.2
    · rw [if_neg hdir]
      constructor
      · intro hname
        refine ⟨hname, ?_⟩
        intro hpath
        rw [← hname, ← List.singleton_append, List.append_cancel_right_eq] at hpath
        exact hdir hpath
      · intro hname
        exact hname.1

theorem mem_nameHits {arg start : Path} {tree : Tree} (harg : slash ∉ arg)
    (hnul : 0 ∉ start) (hroot : ∀ stat, tree ≠ .file stat) {path : Path} :
    path ∈ hits (nameHit arg) (visits (tree.objects start)) ↔
      (∃ stat, (path, .file stat) ∈ tree.objects start ∧ lastComponent path = arg) ∧
        path ≠ slash :: arg := by
  rw [mem_hits (fun call hhit => nameHit_file hhit)]
  constructor
  · intro hpath
    obtain ⟨stat, hobject, hhit⟩ := hpath
    obtain ⟨hlast, hne⟩ := (nameHit_iff harg hnul hroot hobject).mp hhit
    exact ⟨⟨stat, hobject, hlast⟩, hne⟩
  · intro hpath
    obtain ⟨⟨stat, hobject, hlast⟩, hne⟩ := hpath
    exact ⟨stat, hobject, (nameHit_iff harg hnul hroot hobject).mpr ⟨hlast, hne⟩⟩

theorem closing_ne_found (found_count : Nat) (path : Path) :
    closing found_count ≠ .found path := by
  unfold closing
  split <;> exact Line.noConfusion

/-- The line that closes a search tells where its list of paths ends. -/
theorem found_append_inj {paths paths' : List Path} {count count' : Nat}
    {lines lines' : List Line}
    (hlines : paths.map Line.found ++ closing count :: lines =
      paths'.map .found ++ closing count' :: lines') :
    paths = paths' ∧ lines = lines' := by
  induction paths generalizing paths' with
  | nil =>
      cases paths' with
      | nil => exact ⟨rfl, (List.cons.inj hlines).2⟩
      | cons path paths' =>
          exact absurd (List.cons.inj hlines).1 (closing_ne_found count path)
  | cons path paths ih =>
      cases paths' with
      | nil =>
          exact absurd (List.cons.inj hlines).1.symm (closing_ne_found count' path)
      | cons path' paths' =>
          obtain ⟨hpath, hrest⟩ := List.cons.inj hlines
          obtain ⟨hpaths, hlines⟩ := ih hrest
          exact ⟨by rw [Line.found.inj hpath, hpaths], hlines⟩

theorem lastComponent_root {arg : Path} (harg : slash ∉ arg) :
    lastComponent (slash :: arg) = arg := by
  have hbytes : ∀ c ∈ arg.reverse, decide (c ≠ slash) = true := by
    intro c hc
    have hne : c ≠ slash := fun heq => harg (heq ▸ List.mem_reverse.mp hc)
    exact decide_eq_true hne
  rw [lastComponent, List.reverse_cons, List.takeWhile_append_of_pos hbytes]
  simp

theorem nameLines_exact_iff {fs : FileSystem} {start : Path} {tree : Tree}
    (hnul : 0 ∉ start) (hshows : tree.Shows fs start)
    (hroot : ∀ stat, tree ≠ .file stat) (names : List Path) (total i : Nat) :
    NamesExact (tree.objects start) total i names
        (nameLines (tree.objects start) total i names) ↔
      ∀ arg ∈ names, slash ∉ arg →
        ∀ stat, (slash :: arg, .file stat) ∉ tree.objects start := by
  induction names generalizing i with
  | nil =>
      constructor
      · intro _ arg harg
        cases harg
      · intro _
        exact .nil
  | cons arg rest ih =>
      rw [List.forall_mem_cons, ← ih (i + 1)]
      by_cases hslash : slash ∈ arg
      · rw [nameLines, if_pos hslash]
        constructor
        · intro hexact
          cases hexact with
          | rejected _ hrest => exact ⟨fun harg => absurd hslash harg, hrest⟩
        · intro hexact
          exact .rejected hslash hexact.2
      · rw [nameLines, if_neg hslash]
        constructor
        · intro hexact
          generalize hlines : (hits (nameHit arg) (visits (tree.objects start))).map
            Line.found ++ _ = lines at hexact
          cases hexact with
          | accepted _ hnodup hpaths hrest =>
              obtain ⟨hfound, hlines⟩ := found_append_inj hlines
              subst hlines
              refine ⟨?_, hrest⟩
              intro _ stat hobject
              have hpath := (hpaths (slash :: arg)).mpr
                ⟨stat, hobject, lastComponent_root hslash⟩
              rw [← hfound, mem_nameHits hslash hnul hroot] at hpath
              exact hpath.2 rfl
        · intro hexact
          obtain ⟨hrootEntry, hrest⟩ := hexact
          refine .accepted hslash (nodup_hits (fun call hhit => nameHit_file hhit) hshows)
            ?_ hrest
          intro path
          rw [mem_nameHits hslash hnul hroot]
          constructor
          · intro hpath
            exact hpath.1
          · intro hpath
            refine ⟨hpath, ?_⟩
            intro heq
            obtain ⟨stat, hobject, -⟩ := hpath
            exact hrootEntry hslash stat (heq ▸ hobject)

/-- The whole output is exact. -/
def NameSearchExact (objects : List (Path × Tree)) (names : List Path)
    (output : List Line) : Prop :=
  ∃ lines, output = .filenames names.length :: lines ∧
    NamesExact objects names.length 1 names lines

/-- The root directory with one file, `x`. -/
def rootOs : Os where
  view _ :=
    { lstat := fun path =>
        if path = [47] then some ⟨.dir, 4096⟩
        else if path = [47, 120] then some ⟨.reg, 3⟩
        else none
      opendir := fun path =>
        if path = [47] then some [⟨[120], by decide, by decide, by decide⟩] else none }
  chdir _ path := if path = [47] then some ⟨[47], rfl, by decide⟩ else none
  content _ path := if path = [47, 120] then some [98, 99, 100] else none
  chdir_back := by
    intro here dir there hchdir
    split at hchdir
    · rename_i hpath
      obtain rfl := Option.some.inj hchdir
      exact WorkDir.eq_of_path hpath.symm
    · cases hchdir

def rootTree : Tree :=
  .dir ⟨.dir, 4096⟩
    (.cons ⟨[120], by decide, by decide, by decide⟩ (.file ⟨.reg, 3⟩) .nil)

end ApueCourse.Find
