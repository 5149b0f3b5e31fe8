import ApueCourse.Find.Census

/-! The report of `myfind <pathname>` and the divisors of its percentages. -/

namespace ApueCourse.Find

open Memory Control

/-- A line of the report: `"%s = %7ld, %5.2f %%\n"` with `count*100.0/divisor`, a division of
doubles. -/
structure Share where
  label : String
  count : Nat
  divisor : Nat
  deriving DecidableEq

/-- `ntot` after the test for 0. -/
def Statistics.ntot (s : Statistics) : Nat :=
  if s.total = 0 then 1 else s.total

def report (s : Statistics) : List Share :=
  [⟨"regular files ", s.nreg, s.ntot⟩,
    -- the only line that is no share of `ntot`
    ⟨"<=4096B in reg", s.nsreg, s.nreg⟩,
    ⟨"directories   ", s.ndir, s.ntot⟩,
    ⟨"block special ", s.nblk, s.ntot⟩,
    ⟨"char special  ", s.nchr, s.ntot⟩,
    ⟨"FIFOs         ", s.nfifo, s.ntot⟩,
    ⟨"symbolic links", s.nslink, s.ntot⟩,
    ⟨"sockets       ", s.nsock, s.ntot⟩]

/-- `main` with one argument. -/
def mainStat (fs : FileSystem) (fuel : Nat) (limits : Limits) (pathname : Path) :
    Except Stop (Int × List Share) := do
  let statbuf ← orExit (fs.lstat pathname)
  let size ← orExit (path_alloc limits)
  let (ret, w) ← myFTW fs fuel size (startPath statbuf pathname) findStat .zero
  return (ret, report w.state)

theorem Statistics.ntot_ne_zero (s : Statistics) : s.ntot ≠ 0 := by
  unfold Statistics.ntot
  split
  · exact Nat.one_ne_zero
  · assumption

theorem divisors_ne_zero_iff (s : Statistics) :
    (∀ line ∈ report s, line.divisor ≠ 0) ↔ s.nreg ≠ 0 := by
  constructor
  · intro hlines
    exact hlines ⟨"<=4096B in reg", s.nsreg, s.nreg⟩ (by simp [report])
  · intro hreg line hline
    simp only [report, List.mem_cons, List.not_mem_nil, or_false] at hline
    rcases hline with rfl | rfl | rfl | rfl | rfl | rfl | rfl | rfl
    case inr.inl => exact hreg
    all_goals exact s.ntot_ne_zero

/-- The calls of one object count it among the regular files if it is one, whatever its size. -/
theorem nreg_calls {path : Path} {tree : Tree} (hmode : tree.ModeOk) (s : Statistics) :
    ((tree.calls path).foldl Statistics.count s).nreg =
      s.nreg + if tree.is .reg then 1 else 0 := by
  cases tree with
  | nostat => rfl
  | file stat =>
      have hstat : (Tree.file stat).stat = some stat := rfl
      cases htype : stat.st_mode with
      | reg =>
          by_cases hsmall : stat.st_size ≤ 4096 ∧ 0 ≤ stat.st_size <;>
            simp [Tree.calls, Statistics.count, Tree.is, hstat, htype, hsmall]
      | _ => simp [Tree.calls, Statistics.count, Tree.is, hstat, htype]
  | unreadable stat | dir stat entries =>
      have hdir : stat.st_mode = .dir := hmode
      simp [Tree.calls, Statistics.count, Tree.is, Tree.stat, hdir]

theorem nreg_visits {objects : List (Path × Tree)} (hmode : ∀ object ∈ objects, object.2.ModeOk)
    (s : Statistics) :
    ((visits objects).foldl Statistics.count s).nreg =
      s.nreg + objects.countP fun object => object.2.is .reg := by
  induction objects generalizing s with
  | nil => rfl
  | cons object rest ih =>
      have hself := @nreg_calls object.1 object.2 (hmode object List.mem_cons_self) s
      have hrest := ih (fun object hobject => hmode object (List.mem_cons_of_mem _ hobject))
        ((object.2.calls object.1).foldl Statistics.count s)
      rw [hself] at hrest
      rw [visits, List.flatMap_cons, List.foldl_append, List.countP_cons, ← visits, hrest]
      omega

/-- A walk that stays in its buffer ends with the number of the regular files in `nreg`. -/
theorem walk_nreg {fs : FileSystem} {size fuel : Nat} {start : Path} {tree : Tree}
    (hstart : start ≠ []) (hnul : 0 ∉ start) (hshows : tree.Shows fs start)
    (hfits : tree.Fits size start) (hfuel : tree.depth < fuel) :
    ∃ w, myFTW fs fuel size start findStat .zero = .ok (0, w) ∧
      w.state.nreg = (tree.objects start).countP fun object => object.2.is .reg := by
  obtain ⟨s, hcalls, rfl⟩ := @callAll_simulation _ _ _ _ findStat
    (visits (tree.objects start)) Eq (fun call s => s.count call)
    (fun call _ s t hst => ⟨s.count call, rfl, by rw [hst]⟩) .zero .zero rfl
  rw [← myFTW_outcome findStat .zero hstart hnul hshows hfits hfuel] at hcalls
  obtain ⟨w, hwalk, hstate⟩ := outcome_eq_ok hcalls
  refine ⟨w, hwalk, ?_⟩
  rw [hstate, nreg_visits fun object hobject => tree.modeOk_of_mem hshows hobject]
  exact Nat.zero_add _

/-- `main` comes to its report and divides by no zero in it exactly if the walk stays in its
buffer and the tree has a regular file. -/
theorem report_divides_iff {limits : Limits} {size n : Nat}
    (hsize : path_alloc limits = some size) (hmax : limits.path_max = some n)
    {fs : FileSystem} (haccepts : Accepts fs n) {arg : Path} {statbuf : Stat} (hnul : 0 ∉ arg)
    (hstat : fs.lstat arg = some statbuf) {tree : Tree}
    (hshows : tree.Shows fs (startPath statbuf arg)) {fuel : Nat} (hfuel : tree.depth < fuel) :
    (∃ ret lines, mainStat fs fuel limits arg = .ok (ret, lines) ∧
        ∀ line ∈ lines, line.divisor ≠ 0) ↔
      tree.Fits size (startPath statbuf arg) ∧
        ∃ object ∈ tree.objects (startPath statbuf arg), object.2.is .reg := by
  obtain ⟨hne, hlength⟩ := haccepts.start hstat
  have hroom := Nat.lt_of_lt_of_le hlength (path_max_le hsize hmax)
  have hstart : 0 ∉ startPath statbuf arg := startPath_no_nul hnul
  have hmain : mainStat fs fuel limits arg =
      (myFTW fs fuel size (startPath statbuf arg) findStat .zero).map
        fun (ret, w) => (ret, report w.state) := by
    simp only [mainStat, hstat, hsize, orExit_some, ok_bind]
    cases myFTW fs fuel size (startPath statbuf arg) findStat .zero <;> rfl
  rw [hmain]
  generalize startPath statbuf arg = start at *
  constructor
  · intro hreport
    obtain ⟨ret, lines, hlines, hdivisors⟩ := hreport
    have hfits : tree.Fits size start := by
      rw [← callAll_run_fits_iff findStat_zero,
        ← myFTW_steps findStat .zero hne hstart hroom hshows hfuel]
      intro hundefined
      cases hwalk : myFTW fs fuel size start findStat .zero with
      | error stop =>
          rw [hwalk] at hlines
          cases hlines
      | ok result =>
          rw [hwalk] at hundefined
          cases hundefined
    obtain ⟨w, hwalk, hnreg⟩ := walk_nreg hne hstart hshows hfits hfuel
    rw [hwalk] at hlines
    cases hlines
    rw [divisors_ne_zero_iff, hnreg, ← Nat.pos_iff_ne_zero, List.countP_pos_iff] at hdivisors
    exact ⟨hfits, hdivisors⟩
  · intro hcondition
    obtain ⟨hfits, hregular⟩ := hcondition
    obtain ⟨w, hwalk, hnreg⟩ := walk_nreg hne hstart hshows hfits hfuel
    refine ⟨0, report w.state, by rw [hwalk]; rfl, ?_⟩
    rw [divisors_ne_zero_iff, hnreg, ← Nat.pos_iff_ne_zero, List.countP_pos_iff]
    exact hregular

/-- `d` with a regular file in it. -/
theorem report_divides_iff_smallDisk :
    (∃ ret lines, mainStat smallDisk 2 linux [100] = .ok (ret, lines) ∧
        ∀ line ∈ lines, line.divisor ≠ 0) ↔
      smallTree.Fits 4096 [100] ∧ ∃ object ∈ smallTree.objects [100], object.2.is .reg := by
  have hshows : smallTree.Shows smallDisk [100] := by
    simp [smallTree, smallDisk, Tree.Shows, Entries.Shows, Entries.names, slashed,
      slash, Name.isDot]
  exact @report_divides_iff linux 4096 4096 rfl rfl smallDisk smallDisk_accepts [100]
    ⟨.dir, 4096⟩ (by decide) rfl smallTree hshows 2 (by decide)

/-- The directory `d` with nothing in it. -/
def emptyDisk : FileSystem where
  lstat path := if path = [100] then some ⟨.dir, 4096⟩ else none
  opendir path := if path = [100, 47] then some [] else none

/-- `myfind d` divides by the number 0 of regular files. -/
theorem empty_directory_divides_by_zero :
    (Tree.dir ⟨.dir, 4096⟩ .nil).Shows emptyDisk [100] ∧
      ∃ lines, mainStat emptyDisk 2 linux [100] = .ok (0, lines) ∧
        ∃ line ∈ lines, line.divisor = 0 := by
  have hshows : (Tree.dir ⟨.dir, 4096⟩ .nil).Shows emptyDisk [100] := by
    simp [emptyDisk, Tree.Shows, Entries.Shows, Entries.names, slashed, slash]
  have hfits : (Tree.dir ⟨.dir, 4096⟩ .nil).Fits 4096 [100] := by
    intro object hobject
    rw [List.mem_singleton.mp hobject]
    decide
  obtain ⟨w, hwalk, hnreg⟩ := @walk_nreg emptyDisk 4096 2 [100] (.dir ⟨.dir, 4096⟩ .nil)
    (by decide) (by decide) hshows hfits (by decide)
  have hmain : mainStat emptyDisk 2 linux [100] = .ok (0, report w.state) := by
    have hsize : path_alloc linux = some 4096 := rfl
    have hstat : emptyDisk.lstat [100] = some ⟨.dir, 4096⟩ := rfl
    have hstart : startPath ⟨.dir, 4096⟩ [100] = [100] := rfl
    simp only [mainStat, hstat, hsize, hstart, orExit_some, ok_bind, hwalk]
    rfl
  refine ⟨hshows, report w.state, hmain, ?_⟩
  exact ⟨⟨"<=4096B in reg", w.state.nsreg, w.state.nreg⟩, by simp [report], hnreg⟩

end ApueCourse.Find
