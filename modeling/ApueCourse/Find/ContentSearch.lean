import ApueCourse.Find.NameSearch

/-! `myfind <pathname> -comp <filename>`. -/

namespace ApueCourse.Find

open Memory Control

structure Comparing where
  compbuf : Block
  found : Found

def findComp (os : Os) (cwd : WorkDir) (src_filesize : Int)
    (filebuf in_filepath : Block) : FindFunc Comparing := fun call s =>
  match call with
  | ⟨pathname, some statptr, .F⟩ =>
      if statptr.st_mode = .reg ∧ statptr.st_size = src_filesize then
        match os.content cwd pathname with
        | none => return (0, s)
        | some content => do
            let bytes := content.take src_filesize.toNat
            let compbuf ← orUndefined (blit s.compbuf 0 bytes)
            if (bytes.length : Int) ≠ src_filesize then
              .error (.exit 1)
            else do
              let cmp ← orUndefined (strcmp filebuf compbuf)
              if cmp = 0 then
                -- the source itself is not reported
                let cmp ← orUndefined (strcmp in_filepath (pathname ++ [0]))
                if cmp ≠ 0 then
                  return (0, { compbuf, found := s.found.report pathname })
                else
                  return (0, { s with compbuf })
              else
                return (0, { s with compbuf })
      else
        return (0, s)
  | _ => return (0, s)

/-- What `malloc` leaves in the buffers of the search; `compbuf` is allocated with
the size of the source. -/
structure Heap (size : Nat) where
  in_path : Block
  in_dir : Block
  in_filepath : Block
  compbuf : Nat → Block
  length_in_path : in_path.length = size
  length_in_dir : in_dir.length = size
  length_in_filepath : in_filepath.length = size
  length_compbuf : ∀ n, (compbuf n).length = n

/-- `strncpy` of `pos` bytes of a longer string writes no NUL. -/
def copyDir (in_dir : Block) (filename : Path) : Option Block :=
  let pos := getFilenamePos filename
  if pos = 0 then
    strcpy in_dir 0 [46]
  else
    blit in_dir 0 (strncpyBytes filename pos)

def Comparing.start (compbuf : Block) (filename : Path) : Comparing :=
  { compbuf, found := { found_count := 0, printed := [.matchingContent filename] } }

/-- `main` with `-comp`. -/
def mainComp (os : Os) (fuel size : Nat) (cwd : WorkDir) (heap : Heap size)
    (pathname filename : Path) : Except Stop (Int × List Line) := do
  let statbuf ← orExit ((os.view cwd).lstat pathname)
  let source ← orExit ((os.view cwd).lstat filename)
  if source.st_mode ≠ .reg then
    .error (.exit 1)
  else do
    let src_filesize := source.st_size
    let content ← orExit (os.content cwd filename)
    let filebuf := content.take src_filesize.toNat
    if (filebuf.length : Int) ≠ src_filesize then
      .error (.exit 1)
    else do
      let (in_path, cwd) ←
        getAbsPath os size cwd (startPath statbuf pathname) heap.in_path
      let in_dir ← orUndefined (copyDir heap.in_dir filename)
      let dir ← orUndefined (cstring in_dir)
      let (in_filepath, cwd) ← getAbsPath os size cwd dir heap.in_filepath
      let in_filepath ← orUndefined
        (strcat in_filepath (filename.drop (getFilenamePos filename)))
      let in_path ← orUndefined (cstring in_path)
      let (ret, w) ← myFTW (os.view cwd) fuel size in_path
        (findComp os cwd src_filesize filebuf in_filepath)
        (Comparing.start (heap.compbuf src_filesize.toNat) filename)
      return (ret, w.state.found.printed ++ [closing w.state.found.found_count])

/-! The specification. -/

/-- The directory part of a pathname, `.` if there is none. -/
def dirPart (filename : Path) : Path :=
  if slash ∈ filename then
    filename.take (filename.length - (lastComponent filename).length)
  else
    [46]

def sourcePath (os : Os) (cwd : WorkDir) (filename : Path) : Option Path :=
  (os.chdir cwd (dirPart filename)).map fun home =>
    slashed home.path ++ lastComponent filename

/-- Every regular file with the content of the source is reported, the source
itself excepted, and nothing else. -/
def ContentSearchExact (os : Os) (cwd : WorkDir) (objects : List (Path × Tree))
    (filename : Path) (source : List Byte) (output : List Line) : Prop :=
  ∃ paths : List Path,
    output = .matchingContent filename ::
        (paths.map .found ++ [closing paths.length]) ∧
      paths.Nodup ∧
      ∀ path, path ∈ paths ↔ some path ≠ sourcePath os cwd filename ∧
        ∃ stat, (path, .file stat) ∈ objects ∧ stat.st_mode = .reg ∧
          os.content cwd path = some source

/-- Two contents that `strcmp` cannot tell apart. -/
def Alike (content source : List Byte) : Prop :=
  content.length = source.length ∧
    content.takeWhile (· ≠ 0) = source.takeWhile (· ≠ 0)

instance (content source : List Byte) : Decidable (Alike content source) :=
  inferInstanceAs (Decidable (_ ∧ _))

/-- What the code needs of a regular file whose content is like the source's. -/
structure ToldApart (source : List Byte) (excluded : Path) (sourcePath : Option Path)
    (path : Path) (content : List Byte) : Prop where
  terminated : 0 ∈ source
  equal : path ≠ excluded → content = source
  source_excluded : content = source → (path = excluded ↔ some path = sourcePath)

/-- The pathname that the search passes over when `main` looks for the source in
`dir`. -/
def excludedPath (dir : WorkDir) (filename : Path) : Path :=
  slashed dir.path ++ filename.drop (getFilenamePos filename)

/-- The directory of the source as the search takes it: a directory part is read on
into what the fresh buffer `in_dir` holds behind it, up to the first NUL there. -/
def dirName (in_dir : Block) (filename : Path) : Path :=
  if getFilenamePos filename = 0 then
    [46]
  else
    filename.take (getFilenamePos filename) ++
      (in_dir.drop (getFilenamePos filename)).takeWhile (· ≠ 0)

structure LooksIn (os : Os) (size : Nat) (cwd : WorkDir) (heap : Heap size)
    (filename : Path) (dir : WorkDir) : Prop where
  ends : getFilenamePos filename ≠ 0 → 0 ∈ heap.in_dir.drop (getFilenamePos filename)
  enters : Enters os size cwd (dirName heap.in_dir filename) dir
  fits : (excludedPath dir filename).length < size

theorem copyDir_eq_some_iff {in_dir : Block} {filename path : Path}
    (hfilename : 0 ∉ filename) (hroom : 2 ≤ in_dir.length) :
    (copyDir in_dir filename).bind cstring = some path ↔
      path = dirName in_dir filename ∧
        (getFilenamePos filename ≠ 0 → 0 ∈ in_dir.drop (getFilenamePos filename)) := by
  unfold copyDir dirName
  by_cases hpos : getFilenamePos filename = 0
  · have hdot : strcpy in_dir 0 [46] = some ([46] ++ 0 :: in_dir.drop 2) := by
      simp [strcpy, blit, hroom]
    simp only [hpos, if_true, hdot, Option.bind_some,
      cstring_append (show (0 : Byte) ∉ [46] by decide)]
    simp [eq_comm]
  · have hfront : 0 ∉ filename.take (getFilenamePos filename) := fun hmem =>
      hfilename (List.mem_of_mem_take hmem)
    have hbytes : strncpyBytes filename (getFilenamePos filename) =
        filename.take (getFilenamePos filename) :=
      strncpyBytes_of_le (getFilenamePos_le filename)
    have hlength : (filename.take (getFilenamePos filename)).length =
        getFilenamePos filename :=
      List.length_take_of_le (getFilenamePos_le filename)
    have hwhole : (filename.take (getFilenamePos filename) ++
          in_dir.drop (getFilenamePos filename)).takeWhile (· ≠ 0) =
        filename.take (getFilenamePos filename) ++
          (in_dir.drop (getFilenamePos filename)).takeWhile (· ≠ 0) := by
      apply List.takeWhile_append_of_pos
      intro c hc
      exact decide_eq_true fun heq => hfront (heq ▸ hc)
    simp only [if_neg hpos, hbytes, blit, hlength, Nat.zero_add, List.take_zero,
      List.nil_append]
    by_cases hfits : getFilenamePos filename ≤ in_dir.length
    · rw [if_pos hfits, Option.bind_some, cstring_eq_some_iff, hwhole, List.mem_append]
      simp only [hfront, false_or, hpos, ne_eq, not_false_eq_true, forall_const]
      exact and_comm
    · rw [if_neg hfits, List.drop_eq_nil_of_le (Nat.le_of_not_le hfits)]
      simp [hpos]

/-! One comparison. -/

theorem strcmp_alike_iff {source content : List Byte}
    (hlength : content.length = source.length)
    (hnul : Alike content source → 0 ∈ source) :
    ∃ cmp, strcmp source content = some cmp ∧ (cmp = 0 ↔ Alike content source) := by
  cases hcmp : strcmp source content with
  | none =>
      obtain ⟨hsame, hunterminated⟩ := (strcmp_eq_none_iff hlength.symm).mp hcmp
      exact absurd (hnul ⟨hlength, by rw [hsame]⟩) hunterminated
  | some cmp =>
      refine ⟨cmp, rfl, ?_⟩
      have hzero := strcmp_eq_some_zero_iff hlength.symm
      rw [hcmp, Option.some.injEq] at hzero
      rw [hzero]
      constructor
      · intro hsame
        exact ⟨hlength, hsame.2.symm⟩
      · intro halike
        exact ⟨hnul halike, halike.2.symm⟩

theorem strcmp_unterminated {source content : List Byte} (halike : Alike content source)
    (hnul : 0 ∉ source) : strcmp source content = none := by
  rw [strcmp_eq_none_iff halike.1.symm]
  refine ⟨?_, hnul⟩
  have hwhole : source.takeWhile (· ≠ 0) = source := by
    rw [List.takeWhile_eq_self_iff]
    intro c hc
    have hne : c ≠ 0 := fun heq => hnul (heq ▸ hc)
    exact decide_eq_true hne
  have hcut : content.takeWhile (· ≠ 0) <+: content := List.takeWhile_prefix _
  rw [halike.2, hwhole] at hcut
  exact hcut.eq_of_length halike.1.symm

theorem findComp_reads {os : Os} {cwd : WorkDir} {source excluded path : Path}
    {rest : Block} {stat : Stat} {content : List Byte} {s : Comparing}
    (hexcluded : 0 ∉ excluded) (hpath : 0 ∉ path) (hmode : stat.st_mode = .reg)
    (hsize : stat.st_size = content.length) (hread : os.content cwd path = some content)
    (hlength : content.length = source.length)
    (hbuffer : s.compbuf.length = source.length) :
    findComp os cwd source.length source (excluded ++ 0 :: rest)
        ⟨path, some stat, .F⟩ s =
      match strcmp source content with
      | none => .error .undefined
      | some cmp => .ok (0,
          { compbuf := content,
            found := if cmp = 0 ∧ path ≠ excluded then s.found.report path
              else s.found }) := by
  have hblit : blit s.compbuf 0 content = some content :=
    blit_whole (hlength.trans hbuffer.symm)
  have htake : content.take source.length = content :=
    List.take_of_length_le hlength.le
  obtain ⟨same, hsame, hzero⟩ := strcmp_strings_iff hexcluded hpath rest []
  simp only [findComp, hmode, hsize, hlength, hread, Int.toNat_natCast, htake, hblit,
    orUndefined_some, ok_bind, and_self, if_true, ne_eq, not_true_eq_false, if_false]
  cases strcmp source content with
  | none => rfl
  | some cmp =>
      simp only [orUndefined_some, ok_bind, hsame, hzero]
      by_cases hcmp : cmp = 0
      · by_cases hself : excluded = path
        · simp only [hcmp, hself, not_true_eq_false, if_true, if_false, and_false]
          rfl
        · simp only [hcmp, hself, Ne.symm hself, not_false_eq_true, if_true, and_self]
          rfl
      · simp only [hcmp, if_false, false_and]
        rfl

/-! The search. -/

/-- The files can be read and have the sizes that `lstat` tells. -/
def Readable (os : Os) (cwd : WorkDir) (objects : List (Path × Tree)) : Prop :=
  ∀ (path : Path) (stat : Stat), (path, .file stat) ∈ objects → stat.st_mode = .reg →
    ∃ content : List Byte,
      os.content cwd path = some content ∧ stat.st_size = content.length

/-- A regular file among the objects that `strcmp` cannot tell from the source. -/
def Candidate (os : Os) (cwd : WorkDir) (objects : List (Path × Tree))
    (source : List Byte) (path : Path) (content : List Byte) : Prop :=
  (∃ stat, (path, .file stat) ∈ objects ∧ stat.st_mode = .reg) ∧
    os.content cwd path = some content ∧ Alike content source

def compHit (os : Os) (cwd : WorkDir) (source excluded : Path) (call : Call) : Bool :=
  match call with
  | ⟨path, some stat, .F⟩ =>
      stat.st_mode = .reg ∧ path ≠ excluded ∧
        ∃ content ∈ os.content cwd path, Alike content source
  | _ => false

theorem compHit_file {os : Os} {cwd : WorkDir} {source excluded : Path} {call : Call}
    (hhit : compHit os cwd source excluded call) : call.type = .F := by
  unfold compHit at hhit
  split at hhit
  · rfl
  · cases hhit

variable {os : Os} {cwd : WorkDir} {source excluded : Path} {rest : Block}

theorem findComp_skips {call : Call} {s : Comparing} {filebuf in_filepath : Block}
    (hother : ∀ stat, call.statptr = some stat → call.type = .F →
      stat.st_mode = .reg → stat.st_size ≠ source.length) :
    findComp os cwd source.length filebuf in_filepath call s = .ok (0, s) := by
  unfold findComp
  split
  · rename_i path stat
    rw [if_neg]
    · rfl
    · intro hboth
      exact hother stat rfl rfl hboth.1 hboth.2
  · rfl

/-- A call returns 0 or stops the program, and `compbuf` keeps its size. -/
theorem findComp_returns_zero {size : Int} {filebuf in_filepath : Block} {call : Call}
    {s s' : Comparing} {ret : Int}
    (hcall : findComp os cwd size filebuf in_filepath call s = .ok (ret, s')) :
    ret = 0 ∧ s'.compbuf.length = s.compbuf.length := by
  unfold findComp at hcall
  split at hcall
  · split at hcall
    · split at hcall
      · cases hcall
        exact ⟨rfl, rfl⟩
      · obtain ⟨compbuf, hblit, hcall⟩ := orUndefined_bind_ok hcall
        have hlength := length_blit hblit
        split at hcall
        · cases hcall
        · obtain ⟨cmp, -, hcall⟩ := orUndefined_bind_ok hcall
          split at hcall
          · obtain ⟨cmp, -, hcall⟩ := orUndefined_bind_ok hcall
            split at hcall
            · cases hcall
              exact ⟨rfl, hlength⟩
            · cases hcall
              exact ⟨rfl, hlength⟩
          · cases hcall
            exact ⟨rfl, hlength⟩
    · cases hcall
      exact ⟨rfl, rfl⟩
  · cases hcall
    exact ⟨rfl, rfl⟩

section Search

variable {objects : List (Path × Tree)} (hreadable : Readable os cwd objects)
  (hpaths : ∀ object ∈ objects, 0 ∉ object.1) (hexcluded : 0 ∉ excluded)
include hreadable hpaths hexcluded

/-- With a NUL in the source the search reports what `compHit` picks. -/
theorem findComp_follows (hnul : ∀ path content,
      Candidate os cwd objects source path content → 0 ∈ source)
    {call : Call} (hcall : call ∈ visits objects) {s : Comparing} {found : Found}
    (hs : s.compbuf.length = source.length ∧ s.found = found) :
    ∃ s', findComp os cwd source.length source (excluded ++ 0 :: rest) call s =
        .ok (0, s') ∧
      s'.compbuf.length = source.length ∧
      s'.found = if compHit os cwd source excluded call then
        found.report call.pathname else found := by
  obtain ⟨hbuffer, rfl⟩ := hs
  have hskip (hother : ∀ stat, call.statptr = some stat → call.type = .F →
        stat.st_mode = .reg → stat.st_size ≠ source.length)
      (hmiss : compHit os cwd source excluded call = false) :
      ∃ s', findComp os cwd source.length source (excluded ++ 0 :: rest) call s =
          .ok (0, s') ∧
        s'.compbuf.length = source.length ∧
        s'.found = if compHit os cwd source excluded call then
          s.found.report call.pathname else s.found :=
    ⟨s, findComp_skips hother, hbuffer, by rw [hmiss]; rfl⟩
  by_cases htype : call.type = .F
  · obtain ⟨stat, hcallEq, hobject⟩ := (mem_visits_file htype).mp hcall
    rw [hcallEq] at hskip ⊢
    by_cases hmode : stat.st_mode = .reg
    · obtain ⟨content, hread, hsize⟩ := hreadable _ stat hobject hmode
      by_cases hlength : content.length = source.length
      · obtain ⟨cmp, hcmp, hzero⟩ := strcmp_alike_iff hlength
          (fun halike => hnul _ content ⟨⟨stat, hobject, hmode⟩, hread, halike⟩)
        refine ⟨_, by rw [findComp_reads hexcluded (hpaths _ hobject) hmode hsize hread
          hlength hbuffer, hcmp], hlength, ?_⟩
        simp [compHit, hmode, hread, hzero, and_comm]
      · apply hskip
        · intro stat' hstat' _ _
          obtain rfl := Option.some.inj hstat'
          rw [hsize]
          exact_mod_cast hlength
        · simp [compHit, hread, Alike, hlength]
    · apply hskip
      · intro stat' hstat' _ hmode'
        obtain rfl := Option.some.inj hstat'
        exact absurd hmode' hmode
      · simp [compHit, hmode]
  · apply hskip
    · intro stat _ htype'
      exact absurd htype' htype
    · cases hhit : compHit os cwd source excluded call with
      | false => rfl
      | true => exact absurd (compHit_file hhit) htype

/-- A search that comes to its end has found a NUL in the source, or had nothing to
compare it with. -/
theorem candidate_terminated {s : Comparing} {result : Int × Comparing}
    (hs : s.compbuf.length = source.length)
    (hcalls : callAll (findComp os cwd source.length source (excluded ++ 0 :: rest))
      (visits objects) s = .ok result)
    {path : Path} {content : List Byte}
    (hcandidate : Candidate os cwd objects source path content) : 0 ∈ source := by
  obtain ⟨⟨stat, hobject, hmode⟩, hread, halike⟩ := hcandidate
  obtain ⟨content', hread', hsize⟩ := hreadable path stat hobject hmode
  obtain rfl := Option.some.inj (hread.symm.trans hread')
  have hcall : (⟨path, some stat, .F⟩ : Call) ∈ visits objects :=
    (mem_visits_file rfl).mpr ⟨stat, rfl, hobject⟩
  obtain ⟨s₁, ret, s₂, hbuffer, hdone⟩ := callAll_all_called
    (I := fun s : Comparing => s.compbuf.length = source.length)
    (fun call s ret s' hlength hok =>
      let ⟨hret, hkeep⟩ := findComp_returns_zero hok
      ⟨hret, hkeep.trans hlength⟩) hs hcalls _ hcall
  rw [findComp_reads hexcluded (hpaths _ hobject) hmode hsize hread halike.1 hbuffer]
    at hdone
  apply Classical.byContradiction
  intro hnul
  rw [strcmp_unterminated halike hnul] at hdone
  cases hdone

end Search

theorem mem_compHits {objects : List (Path × Tree)} {path : Path} :
    path ∈ hits (compHit os cwd source excluded) (visits objects) ↔
      path ≠ excluded ∧ ∃ content, Candidate os cwd objects source path content := by
  rw [mem_hits (fun call hhit => compHit_file hhit)]
  constructor
  · intro hpath
    obtain ⟨stat, hobject, hhit⟩ := hpath
    simp only [compHit, decide_eq_true_eq] at hhit
    obtain ⟨hmode, hne, content, hread, halike⟩ := hhit
    exact ⟨hne, content, ⟨stat, hobject, hmode⟩, hread, halike⟩
  · intro hpath
    obtain ⟨hne, content, ⟨stat, hobject, hmode⟩, hread, halike⟩ := hpath
    refine ⟨stat, hobject, ?_⟩
    simp only [compHit, decide_eq_true_eq]
    exact ⟨hmode, hne, content, hread, halike⟩

theorem compHits_exact_iff {objects : List (Path × Tree)} {self : Option Path}
    (hnul : ∀ path content, Candidate os cwd objects source path content → 0 ∈ source) :
    (∀ path, path ∈ hits (compHit os cwd source excluded) (visits objects) ↔
        some path ≠ self ∧ ∃ stat, (path, .file stat) ∈ objects ∧ stat.st_mode = .reg ∧
          os.content cwd path = some source) ↔
      ∀ path content, Candidate os cwd objects source path content →
        ToldApart source excluded self path content := by
  constructor
  · intro hpaths path content hcandidate
    have hfound : path ≠ excluded ↔ some path ≠ self ∧ content = source := by
      have hhit := hpaths path
      rw [mem_compHits] at hhit
      obtain ⟨⟨stat, hobject, hmode⟩, hcontent, halike⟩ := hcandidate
      constructor
      · intro hne
        obtain ⟨hother, -, -, -, hsource⟩ := hhit.mp
          ⟨hne, content, ⟨stat, hobject, hmode⟩, hcontent, halike⟩
        exact ⟨hother, Option.some.inj (hcontent.symm.trans hsource)⟩
      · intro hboth
        obtain ⟨hother, rfl⟩ := hboth
        exact (hhit.mpr ⟨hother, stat, hobject, hmode, hcontent⟩).1
    refine ⟨hnul path content hcandidate, fun hne => (hfound.mp hne).2, ?_⟩
    intro hequal
    rw [← not_iff_not, ← ne_eq, ← ne_eq, hfound, and_iff_left hequal]
  · intro htold path
    rw [mem_compHits]
    constructor
    · intro hhit
      obtain ⟨hne, content, hcandidate⟩ := hhit
      have htoldPath := htold path content hcandidate
      have hequal := htoldPath.equal hne
      obtain ⟨⟨stat, hobject, hmode⟩, hcontent, -⟩ := hcandidate
      refine ⟨?_, stat, hobject, hmode, hequal ▸ hcontent⟩
      intro hself
      exact hne ((htoldPath.source_excluded hequal).mpr hself)
    · intro hfile
      obtain ⟨hother, stat, hobject, hmode, hcontent⟩ := hfile
      have hcandidate : Candidate os cwd objects source path source :=
        ⟨⟨stat, hobject, hmode⟩, hcontent, rfl, rfl⟩
      refine ⟨?_, source, hcandidate⟩
      intro hself
      exact hother (((htold path source hcandidate).source_excluded rfl).mp hself)

/-! The pathname of the source. -/

/-- What `main` does between the two calls of `getAbsPath` and the search. -/
def inFilepath (os : Os) (size : Nat) (cwd : WorkDir) (in_dir in_filepath : Block)
    (filename : Path) : Except Stop (Block × WorkDir) := do
  let in_dir ← orUndefined (copyDir in_dir filename)
  let dir ← orUndefined (cstring in_dir)
  let (in_filepath, cwd) ← getAbsPath os size cwd dir in_filepath
  let in_filepath ← orUndefined
    (strcat in_filepath (filename.drop (getFilenamePos filename)))
  return (in_filepath, cwd)

section Command

variable {size fuel : Nat} {start dir : WorkDir} {heap : Heap size}
  {pathname filename : Path} {statbuf : Stat}

theorem inFilepath_looksIn (hfilename : 0 ∉ filename) (hroom : 2 ≤ size)
    (hlooks : LooksIn os size cwd heap filename dir) :
    ∃ rest, inFilepath os size cwd heap.in_dir heap.in_filepath filename =
      .ok (excludedPath dir filename ++ 0 :: rest, cwd) := by
  obtain ⟨hends, hentersDir, hfits⟩ := hlooks
  obtain ⟨in_dir, hcopy, hcstring⟩ := Option.bind_eq_some_iff.mp
    ((copyDir_eq_some_iff hfilename (by rwa [heap.length_in_dir])).mpr ⟨rfl, hends⟩)
  obtain ⟨rest, habsDir, hlength⟩ := getAbsPath_enters hentersDir heap.length_in_filepath
  have hcat : strcat (slashed dir.path ++ 0 :: rest)
      (filename.drop (getFilenamePos filename)) = some _ :=
    (strcat_eq_some_iff (nul_not_mem_slashed dir.no_nul)).mpr
      ⟨by rw [hlength]; exact hfits, rfl⟩
  refine ⟨rest.drop (filename.drop (getFilenamePos filename)).length, ?_⟩
  simp only [inFilepath, hcopy, orUndefined_some, ok_bind, hcstring, habsDir, hcat]
  rfl

theorem looksIn_of_inFilepath (hfilename : 0 ∉ filename) (hroom : 2 ≤ size)
    {result : Block × WorkDir}
    (hrun : inFilepath os size cwd heap.in_dir heap.in_filepath filename = .ok result) :
    ∃ dir, LooksIn os size cwd heap filename dir := by
  obtain ⟨in_dir, hcopy, hrun⟩ := orUndefined_bind_ok hrun
  obtain ⟨path, hcstring, hrun⟩ := orUndefined_bind_ok hrun
  obtain ⟨⟨in_filepath, back⟩, habsDir, hrun⟩ := bind_ok hrun
  obtain ⟨filepath, hcat, -⟩ := orUndefined_bind_ok hrun
  obtain ⟨dir, hentersDir⟩ := getAbsPath_ok heap.length_in_filepath habsDir
  obtain ⟨rest, habs, hlength⟩ := getAbsPath_enters hentersDir heap.length_in_filepath
  obtain ⟨rfl, rfl⟩ := Prod.mk.inj (Except.ok.inj (habs.symm.trans habsDir))
  obtain ⟨hfits, -⟩ := (strcat_eq_some_iff (nul_not_mem_slashed dir.no_nul)).mp hcat
  rw [hlength] at hfits
  obtain ⟨rfl, hends⟩ := (copyDir_eq_some_iff hfilename (by rwa [heap.length_in_dir])).mp
    (Option.bind_eq_some_iff.mpr ⟨in_dir, hcopy, hcstring⟩)
  exact ⟨dir, hends, hentersDir, hfits⟩

/-! The whole command. -/

/-- `main` from its second call of `getAbsPath` on. -/
theorem mainComp_eq (fuel : Nat) (hstat : (os.view cwd).lstat pathname = some statbuf)
    (hsource : (os.view cwd).lstat filename = some ⟨.reg, source.length⟩)
    (hread : os.content cwd filename = some source)
    (henters : Enters os size cwd (startPath statbuf pathname) start) :
    mainComp os fuel size cwd heap pathname filename = (do
      let (in_filepath, cwd) ←
        inFilepath os size cwd heap.in_dir heap.in_filepath filename
      let (ret, w) ← myFTW (os.view cwd) fuel size (slashed start.path)
        (findComp os cwd source.length source in_filepath)
        (Comparing.start (heap.compbuf source.length) filename)
      return (ret, w.state.found.printed ++ [closing w.state.found.found_count])) := by
  obtain ⟨rest, habsPath, -⟩ := getAbsPath_enters henters heap.length_in_path
  simp only [mainComp, inFilepath, hstat, hsource, hread, orExit_some, ok_bind,
    Int.toNat_natCast, List.take_length, ne_eq, not_true_eq_false, if_false, habsPath,
    orUndefined_some, cstring_append (nul_not_mem_slashed start.no_nul), bind_assoc,
    pure_bind]

/-- When `main` finds the source's directory it searches with `excludedPath`. -/
theorem mainComp_search (fuel : Nat) (hstat : (os.view cwd).lstat pathname = some statbuf)
    (hsource : (os.view cwd).lstat filename = some ⟨.reg, source.length⟩)
    (hread : os.content cwd filename = some source) (hfilename : 0 ∉ filename)
    (henters : Enters os size cwd (startPath statbuf pathname) start)
    (hlooks : LooksIn os size cwd heap filename dir) :
    ∃ rest, mainComp os fuel size cwd heap pathname filename = (do
      let (ret, w) ← myFTW (os.view cwd) fuel size (slashed start.path)
        (findComp os cwd source.length source (excludedPath dir filename ++ 0 :: rest))
        (Comparing.start (heap.compbuf source.length) filename)
      return (ret, w.state.found.printed ++ [closing w.state.found.found_count])) := by
  obtain ⟨rest, hfilepath⟩ := inFilepath_looksIn hfilename henters.two_le_size hlooks
  refine ⟨rest, ?_⟩
  rw [mainComp_eq fuel hstat hsource hread henters, hfilepath]
  rfl

theorem mainComp_looksIn (hstat : (os.view cwd).lstat pathname = some statbuf)
    (hsource : (os.view cwd).lstat filename = some ⟨.reg, source.length⟩)
    (hread : os.content cwd filename = some source) (hfilename : 0 ∉ filename)
    (henters : Enters os size cwd (startPath statbuf pathname) start)
    {result : Int × List Line}
    (hrun : mainComp os fuel size cwd heap pathname filename = .ok result) :
    ∃ dir, LooksIn os size cwd heap filename dir := by
  rw [mainComp_eq fuel hstat hsource hread henters] at hrun
  obtain ⟨filepath, hfilepath, -⟩ := bind_ok hrun
  exact looksIn_of_inFilepath hfilename henters.two_le_size hfilepath

theorem excluded_no_nul (hfilename : 0 ∉ filename) : 0 ∉ excludedPath dir filename := by
  intro hmem
  rcases List.mem_append.mp hmem with hdir | hname
  · exact nul_not_mem_slashed dir.no_nul hdir
  · exact hfilename (List.mem_of_mem_drop hname)

theorem mainComp_prints {tree : Tree} (hstat : (os.view cwd).lstat pathname = some statbuf)
    (hsource : (os.view cwd).lstat filename = some ⟨.reg, source.length⟩)
    (hread : os.content cwd filename = some source) (hfilename : 0 ∉ filename)
    (henters : Enters os size cwd (startPath statbuf pathname) start)
    (hshows : tree.Shows (os.view cwd) (slashed start.path))
    (hfits : tree.Fits size (slashed start.path)) (hfuel : tree.depth < fuel)
    (hreadable : Readable os cwd (tree.objects (slashed start.path)))
    (hlooks : LooksIn os size cwd heap filename dir)
    (hnul : ∀ path content,
      Candidate os cwd (tree.objects (slashed start.path)) source path content →
        0 ∈ source) :
    ∃ ret, mainComp os fuel size cwd heap pathname filename =
      .ok (ret, .matchingContent filename ::
        ((hits (compHit os cwd source (excludedPath dir filename))
            (visits (tree.objects (slashed start.path)))).map .found ++
          [closing (hits (compHit os cwd source (excludedPath dir filename))
            (visits (tree.objects (slashed start.path)))).length])) := by
  have hstart : 0 ∉ slashed start.path := nul_not_mem_slashed start.no_nul
  obtain ⟨rest, hmain⟩ := mainComp_search fuel hstat hsource hread hfilename henters hlooks
  have hfollows : ∀ call ∈ visits (tree.objects (slashed start.path)),
      ∀ (s : Comparing) (found : Found),
      s.compbuf.length = source.length ∧ s.found = found →
        ∃ s', findComp os cwd source.length source
            (excludedPath dir filename ++ 0 :: rest) call s = .ok (0, s') ∧
          s'.compbuf.length = source.length ∧
          s'.found = if compHit os cwd source (excludedPath dir filename) call then
            found.report call.pathname else found := by
    intro call hcall s found hs
    exact findComp_follows hreadable
      (fun object hobject => tree.nul_not_mem_objects hstart hobject)
      (excluded_no_nul hfilename) hnul hcall hs
  obtain ⟨s, hcalls, -, hfound⟩ := callAll_simulation
    (s := Comparing.start (heap.compbuf source.length) filename)
    (R := fun (s : Comparing) found => s.compbuf.length = source.length ∧ s.found = found)
    hfollows ⟨heap.length_compbuf source.length, rfl⟩
  have hwalk := myFTW_outcome
    (findComp os cwd source.length source (excludedPath dir filename ++ 0 :: rest))
    (Comparing.start (heap.compbuf source.length) filename)
    (slashed_ne_nil start.path) hstart hshows hfits hfuel
  rw [hcalls] at hwalk
  obtain ⟨w, hresult, hstate⟩ := outcome_eq_ok hwalk
  refine ⟨0, ?_⟩
  rw [hmain, hresult, ok_bind]
  simp only [hstate, hfound, foldl_report, Comparing.start, Nat.zero_add,
    List.singleton_append]
  rfl

theorem mainComp_terminated {tree : Tree}
    (hstat : (os.view cwd).lstat pathname = some statbuf)
    (hsource : (os.view cwd).lstat filename = some ⟨.reg, source.length⟩)
    (hread : os.content cwd filename = some source) (hfilename : 0 ∉ filename)
    (henters : Enters os size cwd (startPath statbuf pathname) start)
    (hshows : tree.Shows (os.view cwd) (slashed start.path))
    (hfits : tree.Fits size (slashed start.path)) (hfuel : tree.depth < fuel)
    (hreadable : Readable os cwd (tree.objects (slashed start.path)))
    (hlooks : LooksIn os size cwd heap filename dir) {result : Int × List Line}
    (hrun : mainComp os fuel size cwd heap pathname filename = .ok result)
    {path : Path} {content : List Byte}
    (hcandidate : Candidate os cwd (tree.objects (slashed start.path)) source path
      content) : 0 ∈ source := by
  have hstart : 0 ∉ slashed start.path := nul_not_mem_slashed start.no_nul
  obtain ⟨rest, hmain⟩ :=
    mainComp_search fuel hstat hsource hread hfilename henters hlooks
  obtain ⟨⟨ret, w⟩, hresult, -⟩ := bind_ok (hmain.symm.trans hrun)
  have hcalls := myFTW_outcome
    (findComp os cwd source.length source (excludedPath dir filename ++ 0 :: rest))
    (Comparing.start (heap.compbuf source.length) filename)
    (slashed_ne_nil start.path) hstart hshows hfits hfuel
  rw [hresult] at hcalls
  exact candidate_terminated hreadable
    (fun object hobject => tree.nul_not_mem_objects hstart hobject)
    (excluded_no_nul hfilename) (heap.length_compbuf source.length) hcalls.symm
    hcandidate

end Command

/-- The directory `/d` with two files of three bytes that differ behind a NUL: `s`
holds `a\0b` and `t` holds `a\0c`. -/
def twoFiles : Os where
  view _ :=
    { lstat := fun path =>
        if path = [46] then some ⟨.dir, 4096⟩
        else if path = [115] then some ⟨.reg, 3⟩
        else if path = [47, 100, 47] then some ⟨.dir, 4096⟩
        else if path = [47, 100, 47, 115] then some ⟨.reg, 3⟩
        else if path = [47, 100, 47, 116] then some ⟨.reg, 3⟩
        else none
      opendir := fun path =>
        if path = [47, 100, 47] then
          some [⟨[115], by decide, by decide, by decide⟩,
            ⟨[116], by decide, by decide, by decide⟩]
        else none }
  chdir _ path :=
    if path = [46] ∨ path = [47, 100] then some ⟨[47, 100], rfl, by decide⟩ else none
  content _ path :=
    if path = [115] ∨ path = [47, 100, 47, 115] then some [97, 0, 98]
    else if path = [47, 100, 47, 116] then some [97, 0, 99]
    else none
  chdir_back := by
    intro here dir there hchdir
    split at hchdir
    · rename_i hpath
      obtain rfl := Option.some.inj hchdir
      rcases hpath with hdot | hpath
      · have habsolute := dir.absolute
        rw [hdot] at habsolute
        cases habsolute
      · exact WorkDir.eq_of_path hpath.symm
    · cases hchdir

def twoFilesTree : Tree :=
  .dir ⟨.dir, 4096⟩
    (.cons ⟨[115], by decide, by decide, by decide⟩ (.file ⟨.reg, 3⟩)
      (.cons ⟨[116], by decide, by decide, by decide⟩ (.file ⟨.reg, 3⟩) .nil))

def zeroHeap (size : Nat) : Heap size where
  in_path := List.replicate size 0
  in_dir := List.replicate size 0
  in_filepath := List.replicate size 0
  compbuf n := List.replicate n 0
  length_in_path := List.length_replicate
  length_in_dir := List.length_replicate
  length_in_filepath := List.length_replicate
  length_compbuf _ := List.length_replicate

end ApueCourse.Find
