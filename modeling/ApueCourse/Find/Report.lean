import ApueCourse.Find.AbsolutePath

/-! What `myfind` prints, and the callbacks that print and count what they find. -/

namespace ApueCourse.Find

open Memory Control

/-! One constructor for each `printf` of the two searches. -/

inductive Line
  /-- `"%d filename(s) to match:\n"` -/
  | filenames (total : Nat)
  /-- `"\nExpected file name, get directory: %s\n"` -/
  | expectedName (arg : Path)
  /-- `"\nMatching filename '%s'(%d/%d):"` -/
  | matchingName (arg : Path) (i total : Nat)
  /-- `"Matching content of '%s':"` -/
  | matchingContent (arg : Path)
  /-- `"\n%s"` -/
  | found (pathname : Path)
  /-- `"No match.\n"` -/
  | noMatch
  /-- `"\n%ld match(es) found.\n"`, with `-comp` without the space before `found` -/
  | matches (found_count : Nat)
  deriving DecidableEq

structure Found where
  found_count : Nat
  printed : List Line
  deriving DecidableEq

/-- `found_count++; printf("\n%s", pathname);` -/
def Found.report (found : Found) (pathname : Path) : Found :=
  { found_count := found.found_count + 1,
    printed := found.printed ++ [.found pathname] }

def closing (found_count : Nat) : Line :=
  if found_count = 0 then .noMatch else .matches found_count

def hits (hit : Call → Bool) (calls : List Call) : List Path :=
  (calls.filter hit).map Call.pathname

theorem foldl_report (hit : Call → Bool) (calls : List Call) (found : Found) :
    calls.foldl (fun found call =>
        if hit call then found.report call.pathname else found) found =
      { found_count := found.found_count + (hits hit calls).length,
        printed := found.printed ++ (hits hit calls).map .found } := by
  induction calls generalizing found with
  | nil => simp [hits]
  | cons call rest ih =>
      rw [List.foldl_cons, ih]
      cases hcall : hit call with
      | true =>
          simp [hits, hcall, Found.report, Nat.add_assoc, Nat.add_comm 1]
      | false => simp [hits, hcall]

/-! Hits among the files of a tree. -/

theorem Tree.eq_file_of_mem_calls {tree : Tree} {path : Path} {call : Call}
    (hcall : call ∈ tree.calls path) (htype : call.type = .F) :
    ∃ stat, tree = .file stat ∧ call = ⟨path, some stat, .F⟩ := by
  cases tree with
  | file stat => exact ⟨stat, rfl, List.mem_singleton.mp hcall⟩
  | nostat | dir =>
      rw [List.mem_singleton.mp hcall] at htype
      cases htype
  | unreadable stat =>
      rcases List.mem_pair.mp hcall with rfl | rfl
      · cases htype
      · cases htype

theorem mem_visits_file {objects : List (Path × Tree)} {call : Call}
    (htype : call.type = .F) :
    call ∈ visits objects ↔
      ∃ stat, call = ⟨call.pathname, some stat, .F⟩ ∧
        (call.pathname, .file stat) ∈ objects := by
  unfold visits
  rw [List.mem_flatMap]
  constructor
  · intro hcall
    obtain ⟨⟨path, tree⟩, hobject, hcall⟩ := hcall
    obtain ⟨stat, rfl, rfl⟩ := Tree.eq_file_of_mem_calls hcall htype
    exact ⟨stat, rfl, hobject⟩
  · intro hcall
    obtain ⟨stat, hcall, hobject⟩ := hcall
    refine ⟨_, hobject, ?_⟩
    rw [hcall]
    exact List.mem_singleton_self _

theorem mem_hits {hit : Call → Bool} (hfiles : ∀ call, hit call → call.type = .F)
    {objects : List (Path × Tree)} {path : Path} :
    path ∈ hits hit (visits objects) ↔
      ∃ stat, (path, .file stat) ∈ objects ∧ hit ⟨path, some stat, .F⟩ := by
  simp only [hits, List.mem_map, List.mem_filter]
  constructor
  · intro hpath
    obtain ⟨call, ⟨hcall, hhit⟩, rfl⟩ := hpath
    obtain ⟨stat, heq, hobject⟩ := (mem_visits_file (hfiles call hhit)).mp hcall
    rw [heq] at hhit
    exact ⟨stat, hobject, hhit⟩
  · intro hpath
    obtain ⟨stat, hobject, hhit⟩ := hpath
    exact ⟨⟨path, some stat, .F⟩,
      ⟨(mem_visits_file rfl).mpr ⟨stat, rfl, hobject⟩, hhit⟩, rfl⟩

theorem hits_sublist {hit : Call → Bool} (hfiles : ∀ call, hit call → call.type = .F)
    (objects : List (Path × Tree)) :
    (hits hit (visits objects)).Sublist (objects.map Prod.fst) := by
  induction objects with
  | nil => exact List.Sublist.slnil
  | cons object rest ih =>
      obtain ⟨path, tree⟩ := object
      have hcons : hits hit (visits ((path, tree) :: rest)) =
          hits hit (tree.calls path) ++ hits hit (visits rest) := by
        simp [hits, visits]
      have hnone (hother : ∀ stat, tree ≠ .file stat) :
          (hits hit (tree.calls path)).Sublist [path] := by
        have hfilter : (tree.calls path).filter hit = [] := by
          rw [List.filter_eq_nil_iff]
          intro call hcall hhit
          obtain ⟨stat, hfile, -⟩ := Tree.eq_file_of_mem_calls hcall (hfiles call hhit)
          exact hother stat hfile
        rw [hits, hfilter]
        exact List.nil_sublist _
      have hself : (hits hit (tree.calls path)).Sublist [path] := by
        cases tree with
        | file stat => exact (List.filter_sublist (p := hit)).map Call.pathname
        | nostat | unreadable | dir =>
            apply hnone
            intro stat hfile
            cases hfile
      rw [hcons]
      exact hself.append ih

theorem nodup_hits {hit : Call → Bool} (hfiles : ∀ call, hit call → call.type = .F)
    {fs : FileSystem} {tree : Tree} {path : Path} (hshows : tree.Shows fs path) :
    (hits hit (visits (tree.objects path))).Nodup :=
  (hits_sublist hfiles _).nodup (tree.nodup_paths hshows)

end ApueCourse.Find
