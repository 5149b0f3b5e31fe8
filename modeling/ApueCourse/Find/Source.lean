import ApueCourse.Find.ContentSearch

/-! The pathname by which `-comp` keeps the source out of its result. -/

namespace ApueCourse.Find

open Memory Control

/-! The two parts of a pathname. -/

theorem lastComponent_of_not_mem {path : Path} (hslash : slash ∉ path) :
    lastComponent path = path := by
  have hwhole : path.reverse.takeWhile (· ≠ slash) = path.reverse := by
    rw [List.takeWhile_eq_self_iff]
    intro c hc
    have hne : c ≠ slash := fun heq => hslash (heq ▸ List.mem_reverse.mp hc)
    exact decide_eq_true hne
  rw [lastComponent, hwhole, List.reverse_reverse]

theorem lastComponent_append (front : Path) {name : Path} (hname : slash ∉ name) :
    lastComponent (front ++ slash :: name) = name := by
  have hbytes : ∀ c ∈ name.reverse, decide (c ≠ slash) = true := by
    intro c hc
    have hne : c ≠ slash := fun heq => hname (heq ▸ List.mem_reverse.mp hc)
    exact decide_eq_true hne
  have hreverse : (front ++ slash :: name).reverse =
      name.reverse ++ slash :: front.reverse := by
    simp
  rw [lastComponent, hreverse, List.takeWhile_append_of_pos hbytes]
  simp

theorem dirPart_append (front : Path) {name : Path} (hname : slash ∉ name) :
    dirPart (front ++ slash :: name) = front ++ [slash] := by
  have hlength : (front ++ slash :: name).length - name.length = (front ++ [slash]).length := by
    simp only [List.length_append, List.length_cons, List.length_nil]
    omega
  have hsplit : front ++ slash :: name = front ++ [slash] ++ name := List.append_cons ..
  rw [dirPart, if_pos (by simp), lastComponent_append front hname, hlength, hsplit,
    List.take_left]

/-! The two pathnames of the source. -/

section Source

variable {os : Os} {size : Nat} {cwd dir home : WorkDir} {heap : Heap size} {filename : Path}

theorem root_of_chdir (hhome : os.chdir cwd [slash] = some home) : home.path = [slash] := by
  have hroot := @os.chdir_back cwd ⟨[slash], rfl, by decide⟩ home hhome
  rw [hroot]

/-- The search passes over the source exactly if it does not lie directly in `/` by its
spelling, and the directory is the right one. -/
theorem excludedPath_eq_iff (hhome : os.chdir cwd (dirPart filename) = some home) :
    excludedPath dir filename = slashed home.path ++ lastComponent filename ↔
      (slash ∈ filename → getFilenamePos filename ≠ 0) ∧
        slashed dir.path = slashed home.path := by
  by_cases hslash : slash ∈ filename
  · obtain ⟨front, name, rfl, hname⟩ := eq_append_of_slash_mem hslash
    have hpos := getFilenamePos_append front hname
    rw [dirPart_append front hname] at hhome
    rw [excludedPath, hpos, lastComponent_append front hname]
    by_cases hfront : front = []
    · subst hfront
      have hroot : slashed home.path = [slash] := by
        rw [root_of_chdir hhome]
        rfl
      rw [hroot, if_pos rfl, List.drop_zero, List.nil_append]
      constructor
      · intro hsame
        have hlength := congrArg List.length hsame
        have hdir := List.length_pos_of_ne_nil (slashed_ne_nil dir.path)
        simp only [List.length_append, List.length_cons, List.length_nil] at hlength
        omega
      · intro hcondition
        exact absurd rfl (hcondition.1 hslash)
    · have hdrop : (front ++ slash :: name).drop (front.length + 1) = name := by
        rw [List.append_cons]
        exact List.drop_left' (by simp)
      rw [if_neg hfront, hdrop, List.append_cancel_right_eq]
      simp
  · rw [excludedPath, getFilenamePos_of_not_mem hslash, lastComponent_of_not_mem hslash,
      List.drop_zero, List.append_cancel_right_eq]
    simp [hslash]

end Source

/-- The source does not lie directly in `/` by its spelling, and what the fresh buffer holds
behind the directory part does not lead to another directory. -/
def FindsSource (os : Os) (size : Nat) (cwd : WorkDir) (heap : Heap size) (filename : Path) :
    Prop :=
  (slash ∈ filename → getFilenamePos filename ≠ 0) ∧
    ∃ home dir, os.chdir cwd (dirPart filename) = some home ∧
      LooksIn os size cwd heap filename dir ∧ slashed dir.path = slashed home.path

theorem sName_ne_nil : ([115] : List Byte) ≠ [] := by decide

theorem slash_not_mem_sName : slash ∉ ([115] : List Byte) := by decide

theorem nul_not_mem_sName : 0 ∉ ([115] : List Byte) := by decide

theorem root_absolute : ([47] : Path).head? = some slash := rfl

theorem nul_not_mem_root : 0 ∉ ([47] : Path) := by decide

/-- The root directory with the one file `s`. -/
def rootFile : Os where
  view _ :=
    { lstat := fun path =>
        if path = [47] then some ⟨.dir, 4096⟩
        else if path = [47, 115] then some ⟨.reg, 2⟩
        else none
      opendir := fun path =>
        if path = [47] then some [⟨[115], sName_ne_nil, slash_not_mem_sName, nul_not_mem_sName⟩]
        else none }
  chdir _ path :=
    if path = [46] ∨ path = [47] then some ⟨[47], root_absolute, nul_not_mem_root⟩ else none
  content _ path := if path = [47, 115] then some [97, 0] else none
  chdir_back := by
    intro here dir there hchdir
    split at hchdir
    · rename_i hpath
      obtain rfl := Option.some.inj hchdir
      rcases hpath with hdot | hpath
      · have habsolute := dir.absolute
        rw [hdot] at habsolute
        cases habsolute
      · exact WorkDir.eq_of_path hpath.symm
    · cases hchdir

end ApueCourse.Find
