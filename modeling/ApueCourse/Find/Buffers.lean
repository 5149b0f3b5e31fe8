import ApueCourse.Find.NameSearch
import ApueCourse.Find.Statistics

/-! The writes of the walk and of `getAbsPath` to the buffers of `path_alloc`. -/

namespace ApueCourse.Find

open Memory Control

variable {σ : Type}

/-- `pathconf("/", _PC_PATH_MAX)`. -/
inductive Pathconf
  | value (n : Nat)
  | indeterminate
  | failed
  deriving DecidableEq

/-- What the system tells `path_alloc`: the macro of `<limits.h>`, where there is one,
`sysconf(_SC_VERSION)` and `pathconf`. -/
structure Limits where
  PATH_MAX : Option Nat
  posix_version : Int
  pathconf : Pathconf

def SUSV3 : Int := 200112

def PATH_MAX_GUESS : Nat := 1024

def pathmax (limits : Limits) : Option Nat :=
  match limits.PATH_MAX with
  | some n => some n
  | none =>
      match limits.pathconf with
      | .value n => some (n + 1)
      | .indeterminate => some PATH_MAX_GUESS
      | .failed => none

/-- The size of the buffer; `none` is `err_sys`. -/
def path_alloc (limits : Limits) : Option Nat :=
  (pathmax limits).map fun pathmax =>
    if limits.posix_version < SUSV3 then pathmax + 1 else pathmax

/-- `PATH_MAX` as a program can find it out. -/
def Limits.path_max (limits : Limits) : Option Nat :=
  match limits.PATH_MAX, limits.pathconf with
  | some n, _ => some n
  | none, .value n => some n
  | none, _ => none

theorem path_max_le {limits : Limits} {size n : Nat} (hsize : path_alloc limits = some size)
    (hmax : limits.path_max = some n) : n ≤ size := by
  obtain ⟨pathmax', hpathmax, hsize⟩ := Option.map_eq_some_iff.mp hsize
  have hle : n ≤ pathmax' := by
    unfold pathmax at hpathmax
    unfold Limits.path_max at hmax
    split at hpathmax <;> simp_all
    split at hpathmax <;> simp_all
    omega
  split at hsize <;> omega

/-- The kernel takes pathnames of at least one and of fewer than `n` bytes. -/
structure Accepts (fs : FileSystem) (n : Nat) : Prop where
  empty : fs.lstat [] = none
  long : ∀ path, n ≤ path.length → fs.lstat path = none

theorem Accepts.start {fs : FileSystem} {n : Nat} (haccepts : Accepts fs n) {arg : Path}
    {statbuf : Stat} (hstat : fs.lstat arg = some statbuf) :
    startPath statbuf arg ≠ [] ∧ (startPath statbuf arg).length < n := by
  have harg : arg ≠ [] := by
    intro hnil
    rw [hnil, haccepts.empty] at hstat
    cases hstat
  have hlength : arg.length < n := by
    apply Nat.lt_of_not_le
    intro hlong
    rw [haccepts.long arg hlong] at hstat
    cases hstat
  have hpos := List.length_pos_of_ne_nil harg
  unfold startPath
  split
  · exact ⟨harg, hlength⟩
  · exact ⟨List.cons_ne_nil _ _, Nat.lt_of_le_of_lt hpos hlength⟩

theorem startPath_no_nul {arg : Path} {statbuf : Stat} (hnul : 0 ∉ arg) :
    0 ∉ startPath statbuf arg := by
  unfold startPath
  split
  · exact hnul
  · decide

/-! Where the walk comes to. -/

def callsOf : List Step → List Call
  | [] => []
  | .holds _ :: rest => callsOf rest
  | .call c :: rest => c :: callsOf rest

/-- The walk comes to put `path` into `fullpath`: all calls in front of that return 0. -/
def Comes (func : FindFunc σ) (walk : List Step) (state : σ) (path : Path) : Prop :=
  ∃ before after state', walk = before ++ .holds path :: after ∧
    callAll func (callsOf before) state = .ok (0, state')

theorem comes_holds {func : FindFunc σ} {first path : Path} {rest : List Step} {state : σ} :
    Comes func (.holds first :: rest) state path ↔
      path = first ∨ Comes func rest state path := by
  constructor
  · rintro ⟨before, after, state', hwalk, hcalls⟩
    cases before with
    | nil =>
        cases hwalk
        exact .inl rfl
    | cons step before =>
        obtain ⟨rfl, hrest⟩ := List.cons.inj hwalk
        exact .inr ⟨before, after, state', hrest, hcalls⟩
  · rintro (rfl | ⟨before, after, state', rfl, hcalls⟩)
    · exact ⟨[], rest, state, rfl, rfl⟩
    · exact ⟨.holds first :: before, after, state', rfl, hcalls⟩

theorem comes_call {func : FindFunc σ} {c : Call} {path : Path} {rest : List Step} {state : σ} :
    Comes func (.call c :: rest) state path ↔
      ∃ state', func c state = .ok (0, state') ∧ Comes func rest state' path := by
  constructor
  · rintro ⟨before, after, last, hwalk, hcalls⟩
    cases before with
    | nil => cases hwalk
    | cons step before =>
        obtain ⟨rfl, hrest⟩ := List.cons.inj hwalk
        rw [callsOf, callAll] at hcalls
        cases hcall : func c state with
        | error stop =>
            rw [hcall] at hcalls
            cases hcalls
        | ok result =>
            obtain ⟨ret, state'⟩ := result
            rw [hcall] at hcalls
            by_cases hret : ret = 0
            · subst ret
              exact ⟨state', rfl, before, after, last, hrest, by simpa using hcalls⟩
            · simp [hret] at hcalls
  · rintro ⟨state', hcall, before, after, last, rfl, hcalls⟩
    refine ⟨.call c :: before, after, last, rfl, ?_⟩
    simp [callsOf, callAll, hcall, hcalls]

/-- A walk goes out of its buffer exactly if it comes to a pathname that does not fit. -/
theorem callAll_run_undefined_iff {func : FindFunc σ} {size : Nat}
    (hfunc : ∀ c state, func c state ≠ .error .undefined) (walk : List Step) (state : σ) :
    callAll (Step.run func size) walk state ≠ .error .undefined ↔
      ∀ path, Comes func walk state path → path.length < size := by
  induction walk generalizing state with
  | nil =>
      constructor
      · intro _ path hcomes
        obtain ⟨before, after, state', hwalk, -⟩ := hcomes
        cases before <;> cases hwalk
      · intro _ hundefined
        cases hundefined
  | cons step rest ih =>
      cases step with
      | holds first =>
          by_cases hfits : first.length < size
          · have hrun : callAll (Step.run func size) (.holds first :: rest) state =
                callAll (Step.run func size) rest state := by
              simp [callAll, Step.run, hfits]
            rw [hrun, ih]
            simp only [comes_holds, forall_eq_or_imp, hfits, true_and]
          · constructor
            · intro hdefined
              exact absurd (callAll_overflow hfits) hdefined
            · intro hall
              exact absurd (hall first (comes_holds.mpr (.inl rfl))) hfits
      | call c =>
          cases hcall : func c state with
          | error stop =>
              have hstop : stop ≠ .undefined := by
                rintro rfl
                exact hfunc c state hcall
              simp [comes_call, callAll, Step.run, hcall, hstop]
          | ok result =>
              obtain ⟨ret, state'⟩ := result
              by_cases hret : ret = 0
              · subst ret
                simpa [comes_call, callAll, Step.run, hcall] using ih state'
              · simp [comes_call, callAll, Step.run, hcall, hret]

/-- A callback that always returns 0 lets the walk come to everything. -/
theorem comes_iff_mem {func : FindFunc σ}
    (hzero : ∀ c state, ∃ state', func c state = .ok (0, state')) {walk : List Step}
    {state : σ} {path : Path} : Comes func walk state path ↔ .holds path ∈ walk := by
  induction walk generalizing state with
  | nil =>
      constructor
      · intro hcomes
        obtain ⟨before, after, state', hwalk, -⟩ := hcomes
        cases before <;> cases hwalk
      · intro hmem
        cases hmem
  | cons step rest ih =>
      cases step with
      | holds first =>
          rw [comes_holds, ih, List.mem_cons, Step.holds.injEq]
      | call c =>
          obtain ⟨state', hcall⟩ := hzero c state
          rw [comes_call, List.mem_cons]
          simp [hcall, ih]

theorem walked_fits_iff {size : Nat} (path : Path) (tree : Tree) :
    (tree.walked path).length < size ↔
      ∀ path', .holds path' ∈ tree.steps path → path'.length < size := by
  have hpath := length_le_slashed path
  cases tree with
  | file stat | nostat => simp [Tree.walked, Tree.steps]
  | unreadable stat | dir stat entries =>
      simp only [Tree.walked, Tree.steps, List.mem_cons, Step.holds.injEq, reduceCtorEq,
        List.not_mem_nil, false_or, or_false, forall_eq_or_imp, forall_eq]
      omega

theorem fits_iff_holds {size : Nat} {path : Path} {tree : Tree} :
    tree.Fits size path ↔
      ∀ path', .holds path' ∈ steps (tree.objects path) → path'.length < size := by
  simp only [Tree.Fits, walked_fits_iff, steps, List.mem_flatMap]
  constructor
  · intro hfits path' hmem
    obtain ⟨object, hobject, hholds⟩ := hmem
    exact hfits object hobject path' hholds
  · intro hall object hobject path' hholds
    exact hall path' ⟨object, hobject, hholds⟩

/-- The walk with such a callback goes out of its buffer exactly if the tree does not fit. -/
theorem callAll_run_fits_iff {func : FindFunc σ} {size : Nat}
    (hzero : ∀ c state, ∃ state', func c state = .ok (0, state')) {path : Path} {tree : Tree}
    {state : σ} :
    callAll (Step.run func size) (steps (tree.objects path)) state ≠ .error .undefined ↔
      tree.Fits size path := by
  rw [callAll_run_undefined_iff, fits_iff_holds]
  · simp only [comes_iff_mem hzero]
  · intro c state hundefined
    obtain ⟨state', hcall⟩ := hzero c state
    rw [hcall] at hundefined
    cases hundefined

@[simp] theorem error_bind (stop : Stop) (f : α → Except Stop β) :
    (Except.error stop >>= f) = .error stop := rfl

/-- `getAbsPath` goes out of the buffer exactly if the pathname of the directory leaves no
room for the slash. -/
theorem getAbsPath_undefined_iff {os : Os} {size : Nat} {cwd : WorkDir} {srcpath : Path}
    {abspath : Block} (hlength : abspath.length = size) :
    getAbsPath os size cwd srcpath abspath ≠ .error .undefined ↔
      ∀ there, cwd.path.length < size → os.chdir cwd srcpath = some there →
        there.path.length < size → (slashed there.path).length < size := by
  by_cases hfits : cwd.path.length < size
  · cases hchdir : os.chdir cwd srcpath with
    | none => simp [getAbsPath, getcwd, hfits, hchdir, orExit]
    | some there =>
        by_cases hthere : there.path.length < size
        · obtain ⟨rest, hcopy⟩ : ∃ rest, strcpy abspath 0 there.path =
              some (there.path ++ 0 :: rest) := by
            have hroom : 0 + (there.path ++ [0]).length ≤ abspath.length := by
              simp only [List.length_append, List.length_singleton]
              omega
            exact ⟨_, by rw [strcpy, blit, if_pos hroom]; simp; rfl⟩
          have hsize : (there.path ++ 0 :: rest).length = size :=
            (length_blit hcopy).trans hlength
          have hrun : getAbsPath os size cwd srcpath abspath = (do
              let appended ← appendSlash (there.path ++ 0 :: rest) there.path.length
              let cwd ← orExit (os.chdir there cwd.path)
              return (appended.2, cwd)) := by
            simp only [getAbsPath, getcwd, hfits, hthere, hchdir, hcopy,
              cstring_append there.no_nul, if_true, orExit_some, orUndefined_some, ok_bind]
          rw [hrun]
          by_cases hslashed : (slashed there.path).length < size
          · obtain ⟨rest', happend, -⟩ := appendSlash_eq rest there.path_ne_nil
              (by rw [hsize]; exact hslashed)
            rw [happend, ok_bind]
            cases hback : os.chdir there cwd.path with
            | none => simp [orExit, hslashed]
            | some back => simp [hslashed]
          · have hover := @appendSlash_overflow there.path rest there.path_ne_nil
              (by rw [hsize]; exact hslashed)
            simp [hover, hfits, hthere, hslashed]
        · simp [getAbsPath, getcwd, hfits, hchdir, hthere, orExit]
  · simp [getAbsPath, getcwd, hfits, orExit]

/-- The start paths of the walks of `main`: for the statistics its argument, or the current
directory where that is no directory, and for the searches what `getAbsPath` makes of it. -/
inductive Starts (os : Os) (size : Nat) (cwd : WorkDir) (arg : Path) : Path → Prop
  | statistics {statbuf : Stat} (hstat : (os.view cwd).lstat arg = some statbuf) :
      Starts os size cwd arg (startPath statbuf arg)
  | search {statbuf : Stat} {in_path block : Block} {back : WorkDir} {start : Path}
      (hstat : (os.view cwd).lstat arg = some statbuf) (hlength : in_path.length = size)
      (habs : getAbsPath os size cwd (startPath statbuf arg) in_path = .ok (block, back))
      (hstart : cstring block = some start) : Starts os size cwd arg start

theorem Starts.fits {os : Os} {size n : Nat} {cwd : WorkDir} {arg start : Path}
    (haccepts : Accepts (os.view cwd) n) (hle : n ≤ size) (hnul : 0 ∉ arg)
    (hstarts : Starts os size cwd arg start) :
    start ≠ [] ∧ 0 ∉ start ∧ start.length < size := by
  cases hstarts with
  | statistics hstat =>
      obtain ⟨hne, hlength⟩ := haccepts.start hstat
      exact ⟨hne, startPath_no_nul hnul, by omega⟩
  | search hstat hlength habs hstart =>
      obtain ⟨there, henters⟩ := getAbsPath_ok hlength habs
      obtain ⟨rest, hrun, -⟩ := getAbsPath_enters henters hlength
      obtain ⟨rfl, -⟩ := Prod.mk.inj (Except.ok.inj (hrun.symm.trans habs))
      have hslashed := nul_not_mem_slashed there.no_nul
      rw [cstring_append hslashed] at hstart
      obtain rfl := Option.some.inj hstart
      exact ⟨slashed_ne_nil _, hslashed, henters.fits_there⟩

def linux : Limits := { PATH_MAX := some 4096, posix_version := 200809, pathconf := .value 4096 }

/-- A name of `n + 1` letters. -/
def longName (n : Nat) : Name where
  bytes := List.replicate (n + 1) 97
  ne_nil := List.cons_ne_nil _ _
  no_slash := fun hslash => absurd (List.eq_of_mem_replicate hslash) (by decide)
  no_nul := fun hnul => absurd (List.eq_of_mem_replicate hnul) (by decide)

/-- Directories in each other, as deep as the kernel takes their pathnames, each with one
entry of the longest name. -/
def deepDisk : FileSystem where
  lstat path := if path = [] ∨ 4096 ≤ path.length then none else some ⟨.dir, 4096⟩
  opendir path := if path = [] ∨ 4096 ≤ path.length then none else some [longName 254]

/-- The working directory is the uppermost of them. -/
def deepOs : Os where
  view _ := deepDisk
  chdir here path := if path = here.path ∨ path = [46] then some here else none
  content _ _ := none
  chdir_back := by
    intro here dir there hchdir
    split at hchdir
    · rename_i hpath
      obtain rfl := Option.some.inj hchdir
      rcases hpath with hpath | hdot
      · exact WorkDir.eq_of_path hpath.symm
      · have habsolute := dir.absolute
        rw [hdot] at habsolute
        cases habsolute
    · cases hchdir

def deepTree : Nat → Tree
  | 0 => .nostat
  | k + 1 => .dir ⟨.dir, 4096⟩ (.cons (longName 254) (deepTree k) .nil)

theorem deepDisk_accepts : Accepts deepDisk 4096 where
  empty := rfl
  long _ hlong := if_pos (.inr hlong)

theorem longName_not_dot : (longName 254).isDot = false := by
  have hlength : (longName 254).bytes.length = 255 := List.length_replicate
  unfold Name.isDot
  rw [decide_eq_false_iff_not]
  rintro (hdot | hdots)
  · rw [hdot] at hlength
    cases hlength
  · rw [hdots] at hlength
    cases hlength

theorem length_longName_entry {path : Path} (hlast : path.getLast? ≠ some slash) :
    (slashed path ++ (longName 254).bytes).length = path.length + 256 := by
  have hlength : (longName 254).bytes.length = 255 := List.length_replicate
  rw [slashed, if_neg hlast, List.length_append, List.length_append, List.length_singleton,
    hlength]

theorem deepTree_shows {k : Nat} {path : Path} (hpath : path ≠ [])
    (hlast : path.getLast? ≠ some slash) (hlength : path.length + 256 * k = 4097) :
    (deepTree k).Shows deepDisk path := by
  induction k generalizing path with
  | zero => exact if_pos (.inr (by omega))
  | succ k ih =>
      have hentry := length_longName_entry hlast
      have hslashed : (slashed path).length < 4096 := by
        rw [slashed, if_neg hlast, List.length_append, List.length_singleton]
        omega
      have hnames : [longName 254].filter (fun name => !name.isDot) = [longName 254] :=
        List.filter_cons_of_pos (by rw [longName_not_dot]; rfl)
      refine ⟨if_neg ?_, rfl, ⟨[longName 254], if_neg ?_, hnames⟩, by simp [Entries.names], ?_,
        trivial⟩
      · exact not_or.mpr ⟨hpath, by omega⟩
      · exact not_or.mpr ⟨slashed_ne_nil path, by omega⟩
      · refine ih ?_ (entry_getLast? _ (longName 254)) ?_
        · exact List.append_ne_nil_of_right_ne_nil _ (longName 254).ne_nil
        · omega

theorem deepTree_too_long {k : Nat} {path : Path} (hlast : path.getLast? ≠ some slash)
    (hlength : path.length + 256 * k = 4097) : ¬ (deepTree k).Fits 4096 path := by
  intro hfits
  induction k generalizing path with
  | zero =>
      have hself : path.length < 4096 := hfits _ (mem_objects_self path _)
      omega
  | succ k ih =>
      have hentry := length_longName_entry hlast
      refine ih (entry_getLast? (slashed path) (longName 254)) (by omega) ?_
      intro object hobject
      apply hfits object
      simp only [deepTree, Tree.objects, Entries.objects, List.append_nil]
      exact List.mem_cons_of_mem _ hobject

theorem depth_deepTree (k : Nat) : (deepTree k).depth = k := by
  induction k with
  | zero => rfl
  | succ k ih => simp [deepTree, Tree.depth, Entries.depth, ih]

def deepDir : WorkDir := ⟨[47, 97], rfl, by decide⟩

theorem findStat_defined (c : Call) (s : Statistics) : findStat c s ≠ .error .undefined := by
  intro hundefined
  cases hundefined

theorem deepDisk_undefined :
    outcome (myFTW deepDisk 17 4096 [46] findStat .zero) = .error .undefined := by
  have hshows : (deepTree 16).Shows deepDisk [46] :=
    deepTree_shows (by decide) (by decide) (by decide)
  have hdepth : (deepTree 16).depth < 17 := by
    rw [depth_deepTree]
    decide
  rw [myFTW_steps findStat .zero (by decide) (by decide) (by decide) hshows hdepth]
  apply Classical.byContradiction
  intro hdefined
  have hfits := (callAll_run_fits_iff findStat_zero).mp hdefined
  exact deepTree_too_long (by decide) (by decide) hfits

end ApueCourse.Find
