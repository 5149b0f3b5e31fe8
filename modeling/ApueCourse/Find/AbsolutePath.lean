import ApueCourse.Find.Preorder

/-! `getAbsPath` and `getFilenamePos`, with the working directory of the process. -/

namespace ApueCourse.Find

open Memory

/-! A working directory goes by the pathname that `getcwd` gives for it. -/

structure WorkDir where
  path : Path
  absolute : path.head? = some slash
  no_nul : 0 ∉ path
  deriving DecidableEq

theorem WorkDir.eq_of_path {dir dir' : WorkDir} (hpath : dir.path = dir'.path) :
    dir = dir' := by
  cases dir
  cases dir'
  cases hpath
  rfl

/-- The system calls outside the walk: what a working directory shows of the file
system, where `chdir` leads from it, and the bytes that `open` and `read` give. -/
structure Os where
  view : WorkDir → FileSystem
  chdir : WorkDir → Path → Option WorkDir
  content : WorkDir → Path → Option (List Byte)
  chdir_back : ∀ {here dir there : WorkDir},
    chdir here dir.path = some there → there = dir

/-- A call whose failure is reported by `err_sys` or `err_quit`. -/
def orExit : Option α → Except Stop α
  | none => .error (.exit 1)
  | some a => .ok a

@[simp] theorem orExit_some (a : α) : orExit (some a) = .ok a := rfl

def getcwd (size : Nat) (cwd : WorkDir) : Option Path :=
  if cwd.path.length < size then some cwd.path else none

/-- `abspath` is the buffer the caller has allocated. -/
def getAbsPath (os : Os) (size : Nat) (cwd : WorkDir) (srcpath : Path)
    (abspath : Block) : Except Stop (Block × WorkDir) := do
  let dir ← orExit (getcwd size cwd)
  let cwd ← orExit (os.chdir cwd srcpath)
  let path ← orExit (getcwd size cwd)
  let abspath ← orUndefined (strcpy abspath 0 path)
  let path ← orUndefined (cstring abspath)
  let (_, abspath) ← appendSlash abspath path.length
  let cwd ← orExit (os.chdir cwd dir)
  return (abspath, cwd)

/-- The `for` loop of `getFilenamePos`, which has the first `i` bytes to look at. -/
def lastSlash (pathname : Path) : Nat → Nat
  | 0 => 0
  | i + 1 => if pathname[i]? = some slash then i else lastSlash pathname i

def getFilenamePos (pathname : Path) : Nat :=
  let pos := lastSlash pathname pathname.length
  if pos = 0 then pos else pos + 1

/-! `getAbsPath`. -/

/-- From `cwd` the path `srcpath` leads to `there`, there is a way back, and the
pathnames of both fit the buffers. -/
structure Enters (os : Os) (size : Nat) (cwd : WorkDir) (srcpath : Path)
    (there : WorkDir) : Prop where
  fits : cwd.path.length < size
  chdir : os.chdir cwd srcpath = some there
  fits_there : (slashed there.path).length < size
  back : os.chdir there cwd.path = some cwd

theorem WorkDir.path_ne_nil (dir : WorkDir) : dir.path ≠ [] := by
  intro hnil
  have habsolute := dir.absolute
  rw [hnil] at habsolute
  cases habsolute

theorem Enters.two_le_size {os : Os} {size : Nat} {cwd there : WorkDir}
    {srcpath : Path} (henters : Enters os size cwd srcpath there) : 2 ≤ size := by
  have hpos := List.length_pos_of_ne_nil (slashed_ne_nil there.path)
  have hfits := henters.fits_there
  omega

theorem getAbsPath_enters {os : Os} {size : Nat} {cwd there : WorkDir}
    {srcpath : Path} {abspath : Block} (henters : Enters os size cwd srcpath there)
    (hlength : abspath.length = size) :
    ∃ rest, getAbsPath os size cwd srcpath abspath =
        .ok (slashed there.path ++ 0 :: rest, cwd) ∧
      (slashed there.path ++ 0 :: rest).length = size := by
  obtain ⟨hfits, hchdir, hslashed, hback⟩ := henters
  have hthere : there.path.length < size :=
    (length_le_slashed there.path).trans_lt hslashed
  have hcopy : strcpy abspath 0 there.path =
      some (there.path ++ 0 :: abspath.drop (there.path.length + 1)) := by
    have hfront : abspath.take ([] : Path).length = [] := rfl
    have hroom : ([] : Path).length + (there.path ++ [0]).length ≤ abspath.length := by
      simp only [List.length_append, List.length_singleton, List.length_nil]
      omega
    simpa [strcpy] using blit_append hfront hroom
  have hsize : (there.path ++ 0 :: abspath.drop (there.path.length + 1)).length =
      size :=
    (length_blit hcopy).trans hlength
  obtain ⟨rest, happend, hrest⟩ := appendSlash_eq
    (abspath.drop (there.path.length + 1)) there.path_ne_nil
    (by rw [hsize]; exact hslashed)
  refine ⟨rest, ?_, by rw [hrest, hsize]⟩
  simp only [getAbsPath, getcwd, hfits, hthere, hchdir, hback, hcopy, happend,
    cstring_append there.no_nul, if_true, orExit_some, orUndefined_some, ok_bind]
  rfl

theorem orExit_bind_ok {f : α → Except Stop β} {result : Option α} {b : β}
    (hok : (orExit result >>= f) = .ok b) : ∃ a, result = some a ∧ f a = .ok b := by
  cases result with
  | none => cases hok
  | some a => exact ⟨a, rfl, hok⟩

theorem orUndefined_bind_ok {f : α → Except Stop β} {result : Option α} {b : β}
    (hok : (orUndefined result >>= f) = .ok b) :
    ∃ a, result = some a ∧ f a = .ok b := by
  cases result with
  | none => cases hok
  | some a => exact ⟨a, rfl, hok⟩

theorem bind_ok {f : α → Except Stop β} {result : Except Stop α} {b : β}
    (hok : (result >>= f) = .ok b) : ∃ a, result = .ok a ∧ f a = .ok b := by
  cases result with
  | error stop => cases hok
  | ok a => exact ⟨a, rfl, hok⟩

theorem getcwd_eq_some {size : Nat} {cwd : WorkDir} {path : Path}
    (hcwd : getcwd size cwd = some path) : path = cwd.path ∧ cwd.path.length < size := by
  unfold getcwd at hcwd
  split at hcwd
  · exact ⟨(Option.some.inj hcwd).symm, ‹_›⟩
  · cases hcwd

theorem appendSlash_fits {path : Path} {rest : Block} {result : Nat × Block}
    (hpath : path ≠ []) (hok : appendSlash (path ++ 0 :: rest) path.length = .ok result) :
    (slashed path).length < (path ++ 0 :: rest).length := by
  apply Classical.byContradiction
  intro hlong
  rw [appendSlash_overflow hpath hlong] at hok
  cases hok

theorem getAbsPath_ok {os : Os} {size : Nat} {cwd cwd' : WorkDir} {srcpath : Path}
    {abspath block : Block} (hlength : abspath.length = size)
    (hok : getAbsPath os size cwd srcpath abspath = .ok (block, cwd')) :
    ∃ there, Enters os size cwd srcpath there := by
  obtain ⟨dir, hdir, hok⟩ := orExit_bind_ok hok
  obtain ⟨rfl, hfits⟩ := getcwd_eq_some hdir
  obtain ⟨there, hchdir, hok⟩ := orExit_bind_ok hok
  obtain ⟨path, hpath, hok⟩ := orExit_bind_ok hok
  obtain ⟨rfl, hthere⟩ := getcwd_eq_some hpath
  obtain ⟨copied, hcopy, hok⟩ := orUndefined_bind_ok hok
  obtain ⟨path, hpath, hok⟩ := orUndefined_bind_ok hok
  obtain ⟨⟨ptr, appended⟩, happend, hok⟩ := bind_ok hok
  obtain ⟨back, hback, -⟩ := orExit_bind_ok hok
  have hfront : abspath.take ([] : Path).length = [] := rfl
  have hroom : ([] : Path).length + (there.path ++ [0]).length ≤ abspath.length := by
    simp only [List.length_append, List.length_singleton, List.length_nil]
    omega
  have hblit : strcpy abspath 0 there.path = _ := blit_append hfront hroom
  rw [hblit] at hcopy
  have hcopied : copied = there.path ++ 0 :: abspath.drop (there.path.length + 1) := by
    simpa using (Option.some.inj hcopy).symm
  have hsize : copied.length = size := (length_blit (hblit.trans hcopy)).trans hlength
  rw [hcopied, cstring_append there.no_nul] at hpath
  obtain rfl := Option.some.inj hpath
  rw [hcopied] at happend hsize
  refine ⟨there, hfits, hchdir, ?_, ?_⟩
  · rw [← hsize]
    exact appendSlash_fits there.path_ne_nil happend
  · rw [hback, os.chdir_back hback]

/-! `getFilenamePos`. -/

theorem lastSlash_of_not_mem {pathname : Path} (hslash : slash ∉ pathname) (i : Nat) :
    lastSlash pathname i = 0 := by
  induction i with
  | zero => rfl
  | succ i ih =>
      have hget : pathname[i]? ≠ some slash := by
        intro hget
        exact hslash (List.mem_of_getElem? hget)
      rw [lastSlash, if_neg hget, ih]

theorem lastSlash_append (front : Path) {name : Path} (hname : slash ∉ name)
    {i : Nat} (hi : i ≤ name.length) :
    lastSlash (front ++ slash :: name) (front.length + 1 + i) = front.length := by
  induction i with
  | zero => simp [lastSlash]
  | succ i ih =>
      have hget : (front ++ slash :: name)[front.length + 1 + i]? = name[i]? := by
        rw [List.getElem?_append_right (by omega)]
        have hindex : front.length + 1 + i - front.length = i + 1 := by omega
        rw [hindex, List.getElem?_cons_succ]
      have hne : name[i]? ≠ some slash := by
        intro hget
        exact hname (List.mem_of_getElem? hget)
      rw [← Nat.add_assoc, lastSlash, hget, if_neg hne, ih (by omega)]

theorem getFilenamePos_of_not_mem {pathname : Path} (hslash : slash ∉ pathname) :
    getFilenamePos pathname = 0 := by
  simp [getFilenamePos, lastSlash_of_not_mem hslash]

/-- Index 0 stands for "no slash" and for a slash at index 0. -/
theorem getFilenamePos_append (front : Path) {name : Path} (hname : slash ∉ name) :
    getFilenamePos (front ++ slash :: name) =
      if front = [] then 0 else front.length + 1 := by
  have hlast := lastSlash_append front hname (Nat.le_refl name.length)
  have hlength : (front ++ slash :: name).length = front.length + 1 + name.length := by
    simp only [List.length_append, List.length_cons]
    omega
  simp only [getFilenamePos, hlength, hlast, List.length_eq_zero_iff]
  cases front with
  | nil => rfl
  | cons c front => rfl

theorem eq_append_of_slash_mem {pathname : Path} (hslash : slash ∈ pathname) :
    ∃ front name, pathname = front ++ slash :: name ∧ slash ∉ name := by
  obtain ⟨name, front, heq, hname⟩ :=
    List.eq_append_cons_of_mem (List.mem_reverse.mpr hslash)
  refine ⟨front.reverse, name.reverse, ?_, by simpa using hname⟩
  rw [← List.reverse_reverse pathname, heq]
  simp

theorem getFilenamePos_le (pathname : Path) :
    getFilenamePos pathname ≤ pathname.length := by
  by_cases hslash : slash ∈ pathname
  · obtain ⟨front, name, rfl, hname⟩ := eq_append_of_slash_mem hslash
    rw [getFilenamePos_append front hname]
    simp only [List.length_append, List.length_cons]
    split <;> omega
  · rw [getFilenamePos_of_not_mem hslash]
    exact Nat.zero_le _

/-- The test that `main` makes on an argument of `-name`. -/
theorem names_directory_iff (arg : Path) :
    getFilenamePos arg ≠ 0 ∨ arg.head? = some slash ↔ slash ∈ arg := by
  constructor
  · rintro (hpos | hhead)
    · apply Classical.byContradiction
      intro hslash
      exact hpos (getFilenamePos_of_not_mem hslash)
    · exact List.mem_of_head? hhead
  · intro hslash
    obtain ⟨front, name, rfl, hname⟩ := eq_append_of_slash_mem hslash
    rw [getFilenamePos_append front hname]
    cases front with
    | nil => exact .inr rfl
    | cons c front => simp

end ApueCourse.Find
