import ApueCourse.Find.Ftw

/-! The walk calls its callback on the objects of the tree, in preorder and with
their true pathnames, whatever the buffer went through before. -/

namespace ApueCourse.Find

open Memory Control

variable {σ : Type}

/-- The calls that an object gets when the walk comes to it. -/
def Tree.calls (path : Path) : Tree → List Call
  | .file stat => [⟨path, some stat, .F⟩]
  | .nostat => [⟨path, none, .NS⟩]
  | .unreadable stat =>
      [⟨path, some stat, .D⟩, ⟨slashed path, some stat, .DNR⟩]
  | .dir stat _ => [⟨path, some stat, .D⟩]

def visits (objects : List (Path × Tree)) : List Call :=
  objects.flatMap fun object => object.2.calls object.1

/-- What the walk does: a pathname that `fullpath` has to hold, and a call. -/
inductive Step
  | holds (path : Path)
  | call (call : Call)

/-- An object's calls with the pathnames that they need. -/
def Tree.steps (path : Path) : Tree → List Step
  | .file stat => [.holds path, .call ⟨path, some stat, .F⟩]
  | .nostat => [.holds path, .call ⟨path, none, .NS⟩]
  | .unreadable stat =>
      [.holds path, .call ⟨path, some stat, .D⟩, .holds (slashed path),
        .call ⟨slashed path, some stat, .DNR⟩]
  | .dir stat _ => [.holds path, .call ⟨path, some stat, .D⟩, .holds (slashed path)]

def steps (objects : List (Path × Tree)) : List Step :=
  objects.flatMap fun object => object.2.steps object.1

/-- A step, where `fullpath` has `size` bytes. -/
def Step.run (func : FindFunc σ) (size : Nat) : Step → σ → Except Stop (Int × σ)
  | .holds path, state => if path.length < size then .ok (0, state) else .error .undefined
  | .call c, state => func c state

/-! Pathnames. -/

theorem slashed_ne_nil (path : Path) : slashed path ≠ [] := by
  unfold slashed
  split
  · rintro rfl
    simp_all
  · simp

theorem slashed_getLast? (path : Path) : (slashed path).getLast? = some slash := by
  unfold slashed
  split
  · assumption
  · simp

theorem nul_not_mem_slashed {path : Path} (hpath : 0 ∉ path) :
    0 ∉ slashed path := by
  unfold slashed
  split
  · exact hpath
  · simp [hpath, slash]

theorem length_le_slashed (path : Path) : path.length ≤ (slashed path).length := by
  unfold slashed
  split
  · exact Nat.le_refl _
  · simp

theorem slashed_eq_dropLast_append (path : Path) :
    slashed path = (slashed path).dropLast ++ [slash] :=
  (List.dropLast_append_getLast? slash (slashed_getLast? path)).symm

theorem entry_getLast? (base : Path) (name : Name) :
    (base ++ name.bytes).getLast? ≠ some slash := by
  intro hlast
  rw [List.getLast?_append_of_ne_nil _ name.ne_nil] at hlast
  exact name.no_slash (List.mem_of_getLast? hlast)

theorem slashed_entry (base : Path) (name : Name) :
    slashed (base ++ name.bytes) = base ++ name.bytes ++ [slash] :=
  if_neg (entry_getLast? base name)

theorem length_le_walked (path : Path) (tree : Tree) :
    path.length ≤ (tree.walked path).length := by
  cases tree with
  | file | nostat => exact Nat.le_refl _
  | unreadable | dir => exact length_le_slashed path

theorem mem_objects_self (path : Path) (tree : Tree) :
    (path, tree) ∈ tree.objects path := by
  cases tree <;> simp [Tree.objects]

/-! The buffer. -/

theorem appendSlash_eq {path : Path} (rest : Block) (hpath : path ≠ [])
    (hfits : (slashed path).length < (path ++ 0 :: rest).length) :
    ∃ rest', appendSlash (path ++ 0 :: rest) path.length =
        .ok ((slashed path).length, slashed path ++ 0 :: rest') ∧
      (slashed path ++ 0 :: rest').length = (path ++ 0 :: rest).length := by
  have hlength : path.length ≠ 0 := by
    simpa using hpath
  have hlast : (path ++ 0 :: rest)[path.length - 1]? = path.getLast? := by
    rw [List.getElem?_append_left (by omega), List.getLast?_eq_getElem?]
  unfold appendSlash
  rw [if_neg hlength, hlast]
  by_cases hslash : path.getLast? = some slash
  · exact ⟨rest, by simp [hslash, slashed], by simp [hslash, slashed]⟩
  · have hpathSlash : slashed path = path ++ [slash] := if_neg hslash
    rw [hpathSlash] at hfits ⊢
    cases rest with
    | nil => simp at hfits
    | cons c rest =>
        refine ⟨rest, ?_, by simp⟩
        have hsecond : store (path ++ slash :: c :: rest) (path.length + 1) 0 =
            some (path ++ [slash] ++ 0 :: rest) := by
          simpa using store_append (path ++ [slash]) rest c 0
        simp only [if_neg hslash, store_append, orUndefined_some, ok_bind,
          hsecond, List.length_append, List.length_singleton]
        rfl

theorem appendSlash_overflow {path : Path} {rest : Block} (hpath : path ≠ [])
    (hfits : ¬ (slashed path).length < (path ++ 0 :: rest).length) :
    appendSlash (path ++ 0 :: rest) path.length = .error .undefined := by
  by_cases hlast : path.getLast? = some slash
  · rw [slashed, if_pos hlast] at hfits
    simp at hfits
  · rw [slashed, if_neg hlast] at hfits
    cases rest with
    | cons c rest => simp at hfits
    | nil =>
        have hlength : path.length ≠ 0 := by
          simpa using hpath
        have hget : (path ++ [0])[path.length - 1]? = path.getLast? := by
          rw [List.getElem?_append_left (by omega), List.getLast?_eq_getElem?]
        unfold appendSlash
        rw [if_neg hlength, hget, if_neg hlast, store_append path [] 0 slash]
        simp [orUndefined, store]

/-- The walk below `front` ends as the calls do, with the buffer's size and its
beginning `front` unharmed. -/
def Follows (front : Path) (size : Nat) (calls : Except Stop (Int × σ))
    (walk : Except Stop (Int × World σ)) : Prop :=
  match calls with
  | .error stop => walk = .error stop
  | .ok (ret, state) =>
      ∃ fullpath, fullpath.length = size ∧ fullpath.take front.length = front ∧
        walk = .ok (ret, { fullpath, state })

theorem readEntries_filter (visit : World σ → Except Stop (Int × World σ))
    (ptr : Nat) (names : List Name) (ret : Int) (w : World σ) :
    readEntries visit ptr names ret w =
      readEntries visit ptr (names.filter fun name => !name.isDot) ret w := by
  induction names generalizing ret w with
  | nil => rfl
  | cons name rest ih =>
      cases hdot : name.isDot with
      | true => simp [readEntries, hdot, ih]
      | false => simp [readEntries, hdot, ih]

theorem call_follows {front : Path} {w : World σ} (func : FindFunc σ) (call : Call)
    (hfront : w.fullpath.take front.length = front) :
    Follows front w.fullpath.length (callAll func [call] w.state)
      (w.call func call.pathname call.statptr call.type) := by
  simp only [callAll, World.call]
  cases hcall : func call w.state with
  | error stop => rfl
  | ok result =>
      obtain ⟨ret, state⟩ := result
      by_cases hret : ret = 0
      · subst ret
        exact ⟨w.fullpath, rfl, hfront, rfl⟩
      · simp only [ne_eq, hret, not_false_eq_true, if_true]
        exact ⟨w.fullpath, rfl, hfront, rfl⟩

/-- `ptr[-1] = 0` after the loop takes away the separator and leaves what is in
front of it. -/
theorem follows_close {base : Path} {size : Nat} {calls : Except Stop (Int × σ)}
    {walk : Except Stop (Int × World σ)} (hbase : base ≠ [])
    (hsize : base.length ≤ size) (hwalk : Follows base size calls walk) :
    Follows base.dropLast size calls (do
      let (ret, w) ← walk
      let fullpath ← orUndefined (store w.fullpath (base.length - 1) 0)
      return (ret, { w with fullpath })) := by
  have hpos : 0 < base.length := List.length_pos_iff.mpr hbase
  cases calls with
  | error stop =>
      have herror : walk = .error stop := hwalk
      rw [herror]
      rfl
  | ok result =>
      obtain ⟨ret, state⟩ := result
      obtain ⟨fullpath, hlength, htake, rfl⟩ := hwalk
      have hstore : store fullpath (base.length - 1) 0 =
          some (fullpath.set (base.length - 1) 0) :=
        if_pos (by omega)
      refine ⟨fullpath.set (base.length - 1) 0, by simpa using hlength, ?_, ?_⟩
      · rw [List.length_dropLast, List.take_set_of_le (Nat.le_refl _),
          List.dropLast_eq_take, ← htake, List.take_take, List.length_take]
        congr 1
        omega
      · simp only [ok_bind, hstore, orUndefined_some]
        rfl

theorem take_dropLast_slashed {path : Path} {block rest : Block}
    (hblock : block = path ++ 0 :: rest) :
    block.take (slashed path).dropLast.length = (slashed path).dropLast := by
  have hfront : (slashed path).dropLast <+: path := by
    unfold slashed
    split
    · exact List.dropLast_prefix path
    · simp
  rw [hblock]
  exact (List.prefix_iff_eq_take.mp
    (hfront.trans (List.prefix_append path _))).symm

/-- A directory gets its `FTW_D` call; what follows happens with its slashed
pathname in the buffer. -/
theorem doPath_directory {fs : FileSystem} {func : FindFunc σ} {fuel : Nat}
    {w : World σ} {path : Path} {rest : Block} {stat : Stat} {more : List Step}
    (hw : w.fullpath = path ++ 0 :: rest) (hpath : path ≠ []) (hnul : 0 ∉ path)
    (hlstat : fs.lstat path = some stat) (hdir : stat.st_mode = .dir)
    (hmore : ∀ w' : World σ, w'.fullpath.length = w.fullpath.length →
      (∃ rest', w'.fullpath = slashed path ++ 0 :: rest') →
      Follows (slashed path).dropLast w.fullpath.length
        (callAll (Step.run func w.fullpath.length) more w'.state)
        (match fs.opendir (slashed path) with
        | none => w'.call func (slashed path) (some stat) .DNR
        | some names => do
            let (ret, w) ← readEntries (doPath fs func fuel)
              (slashed path).length names 0 w'
            let fullpath ← orUndefined
              (store w.fullpath ((slashed path).length - 1) 0)
            return (ret, { w with fullpath }))) :
    Follows (slashed path).dropLast w.fullpath.length
      (callAll (Step.run func w.fullpath.length)
        (.holds path :: .call ⟨path, some stat, .D⟩ :: .holds (slashed path) :: more) w.state)
      (doPath fs func (fuel + 1) w) := by
  have hcstring : cstring w.fullpath = some path := by
    rw [hw, cstring_append hnul]
  have hroom : path.length < w.fullpath.length := by
    simp [hw]
  simp only [doPath, callAll, Step.run, hroom, hcstring, orUndefined_some, ok_bind, hlstat,
    hdir, ne_eq, not_true_eq_false, if_false, if_true, World.call]
  cases hcall : func ⟨path, some stat, .D⟩ w.state with
  | error stop => rfl
  | ok result =>
      obtain ⟨ret, state⟩ := result
      by_cases hret : ret = 0
      · subst ret
        by_cases hfits : (slashed path).length < w.fullpath.length
        · obtain ⟨rest', happend, hlength⟩ :=
            appendSlash_eq rest hpath (hw ▸ hfits)
          have hnext := hmore { fullpath := slashed path ++ 0 :: rest', state }
            (by rw [hlength, hw]) ⟨rest', rfl⟩
          simp only [ok_bind, hfits, if_true]
          simp only [hw, happend, ok_bind, not_true_eq_false, if_false,
            cstring_append (nul_not_mem_slashed hnul), orUndefined_some]
          rw [← hw]
          exact hnext
        · have hover := @appendSlash_overflow path rest hpath (hw ▸ hfits)
          simp only [ok_bind, hfits, if_false, not_true_eq_false]
          simp only [hw, hover]
          rfl
      · simp only [ok_bind, hret, not_false_eq_true, if_true]
        exact ⟨w.fullpath, rfl, take_dropLast_slashed hw, rfl⟩

theorem steps_append (first second : List (Path × Tree)) :
    steps (first ++ second) = steps first ++ steps second :=
  List.flatMap_append

theorem steps_objects (path : Path) (tree : Tree) :
    ∃ more, steps (tree.objects path) = .holds path :: more := by
  cases tree <;> exact ⟨_, rfl⟩

theorem callAll_overflow {func : FindFunc σ} {size : Nat} {path : Path} {more : List Step}
    {state : σ} (hlong : ¬ path.length < size) :
    callAll (Step.run func size) (.holds path :: more) state = .error .undefined := by
  simp [callAll, Step.run, hlong]

mutual
theorem Tree.doPath_follows {fs : FileSystem} (tree : Tree) (func : FindFunc σ)
    {fuel : Nat} {w : World σ} {path : Path} {rest : Block}
    (hshows : tree.Shows fs path) (hpath : path ≠ []) (hnul : 0 ∉ path)
    (hw : w.fullpath = path ++ 0 :: rest) (hfuel : tree.depth < fuel) :
    Follows (slashed path).dropLast w.fullpath.length
      (callAll (Step.run func w.fullpath.length) (steps (tree.objects path)) w.state)
      (doPath fs func fuel w) := by
  have hcstring : cstring w.fullpath = some path := by
    rw [hw, cstring_append hnul]
  have hroom : path.length < w.fullpath.length := by
    simp [hw]
  cases fuel with
  | zero => exact absurd hfuel (Nat.not_lt_zero _)
  | succ fuel =>
      cases tree with
      | file stat =>
          obtain ⟨hlstat, hmode⟩ := hshows
          have hcall := call_follows func ⟨path, some stat, .F⟩
            (take_dropLast_slashed hw)
          simpa [doPath, hcstring, hlstat, hmode, steps, Tree.objects, Tree.steps,
            Step.run, callAll, hroom] using hcall
      | nostat =>
          have hlstat : fs.lstat path = none := hshows
          have hcall := call_follows func ⟨path, none, .NS⟩
            (take_dropLast_slashed hw)
          simpa [doPath, hcstring, hlstat, steps, Tree.objects, Tree.steps, Step.run,
            callAll, hroom] using hcall
      | unreadable stat =>
          obtain ⟨hlstat, hmode, hopendir⟩ := hshows
          refine doPath_directory hw hpath hnul hlstat hmode ?_
          rintro w' hlength ⟨rest', hw'⟩
          rw [hopendir]
          have hfront : w'.fullpath.take (slashed path).dropLast.length =
              (slashed path).dropLast := by
            rw [hw', slashed_eq_dropLast_append path, List.append_assoc]
            simp
          have hcall := call_follows func ⟨slashed path, some stat, .DNR⟩ hfront
          rw [hlength] at hcall
          simpa [callAll, Step.run] using hcall
      | dir stat entries =>
          obtain ⟨hlstat, hmode, ⟨names, hopendir, hnames⟩, -, hentries⟩ := hshows
          refine doPath_directory hw hpath hnul hlstat hmode ?_
          rintro w' hlength ⟨rest', hw'⟩
          rw [hopendir]
          have hbase : (slashed path).length < w'.fullpath.length := by
            simp [hw']
          have hdepth : entries.depth < fuel := by
            have : (Tree.dir stat entries).depth = entries.depth + 1 := by
              simp only [Tree.depth]
            omega
          have hloop := entries.readEntries_follows func (w := w') hentries
            (by
              intro name hname
              rw [← hnames, List.mem_filter] at hname
              simpa using hname.2)
            (nul_not_mem_slashed hnul) hdepth (by simp [hw'])
          have hclose := follows_close (slashed_ne_nil path) hbase.le hloop
          rw [← hnames, ← readEntries_filter, hlength] at hclose
          exact hclose

theorem Entries.readEntries_follows {fs : FileSystem} (entries : Entries)
    (func : FindFunc σ) {fuel : Nat} {w : World σ} {base : Path}
    (hshows : entries.Shows fs base)
    (hdots : ∀ name ∈ entries.names, name.isDot = false) (hnul : 0 ∉ base)
    (hfuel : entries.depth < fuel)
    (hfront : w.fullpath.take base.length = base) :
    Follows base w.fullpath.length
      (callAll (Step.run func w.fullpath.length) (steps (entries.objects base)) w.state)
      (readEntries (doPath fs func fuel) base.length entries.names 0 w) := by
  cases entries with
  | nil => exact ⟨w.fullpath, rfl, hfront, rfl⟩
  | cons name tree rest =>
      obtain ⟨htree, hrest⟩ := hshows
      have hdot : name.isDot = false := hdots name (by simp [Entries.names])
      have hname : base ++ name.bytes ≠ [] := by
        simp [name.ne_nil]
      have hnulName : 0 ∉ base ++ name.bytes := by
        simp [hnul, name.no_nul]
      simp only [Entries.objects, steps_append, callAll_append, Entries.names,
        readEntries, hdot, Bool.false_eq_true, if_false]
      by_cases hfits : (base ++ name.bytes).length < w.fullpath.length
      · -- `strcpy(ptr, d_name)` puts the name behind what is left of the buffer.
        obtain ⟨fullpath, hcopy, hbuffer⟩ :
            ∃ fullpath, strcpy w.fullpath base.length name.bytes = some fullpath ∧
              ∃ rest', fullpath = base ++ name.bytes ++ 0 :: rest' := by
          have hroom :
              base.length + (name.bytes ++ [0]).length ≤ w.fullpath.length := by
            simp only [List.length_append, List.length_singleton] at hfits ⊢
            omega
          exact ⟨_, blit_append hfront hroom, _,
            by simp only [List.append_assoc, List.singleton_append]; rfl⟩
        obtain ⟨rest', hbuffer⟩ := hbuffer
        have hsize : fullpath.length = w.fullpath.length := length_blit hcopy
        have hdepth : tree.depth < fuel ∧ rest.depth < fuel := by
          simp only [Entries.depth] at hfuel
          omega
        have hvisit := tree.doPath_follows func
          (w := { fullpath, state := w.state }) htree hname hnulName hbuffer hdepth.1
        rw [slashed_entry, List.dropLast_concat] at hvisit
        simp only [hsize] at hvisit
        simp only [hcopy, orUndefined_some, ok_bind]
        cases hcalls : callAll (Step.run func w.fullpath.length)
            (steps (tree.objects (base ++ name.bytes))) w.state with
        | error stop =>
            rw [hcalls] at hvisit
            have hstop : doPath fs func fuel { fullpath, state := w.state } =
                .error stop := hvisit
            rw [hstop]
            rfl
        | ok result =>
            obtain ⟨ret, state⟩ := result
            rw [hcalls] at hvisit
            obtain ⟨fullpath', hsize', htake, hdone⟩ := hvisit
            have hbase : fullpath'.take base.length = base := by
              have hshort := congrArg (List.take base.length) htake
              rwa [List.take_take, List.take_left, List.length_append,
                Nat.min_eq_left (Nat.le_add_right _ _)] at hshort
            rw [hdone]
            by_cases hret : ret = 0
            · subst ret
              have hloop := rest.readEntries_follows func
                (w := { fullpath := fullpath', state }) hrest
                (by
                  intro name' hname'
                  exact hdots name' (List.mem_cons_of_mem _ hname'))
                hnul hdepth.2 hbase
              simp only [hsize'] at hloop
              simpa using hloop
            · simp only [ok_bind, ne_eq, hret, not_false_eq_true, if_true]
              exact ⟨fullpath', hsize', hbase, rfl⟩
      · have hover : strcpy w.fullpath base.length name.bytes = none := by
          rw [strcpy, blit, if_neg]
          simp only [List.length_append, List.length_singleton] at hfits ⊢
          omega
        obtain ⟨more, hmore⟩ := steps_objects (base ++ name.bytes) tree
        rw [hmore, callAll_overflow hfits, hover]
        rfl
end

/-- Where everything fits, the steps are the calls. -/
theorem callAll_steps {func : FindFunc σ} {size : Nat} {objects : List (Path × Tree)}
    (hfits : ∀ object ∈ objects, (object.2.walked object.1).length < size) (state : σ) :
    callAll (Step.run func size) (steps objects) state =
      callAll func (visits objects) state := by
  induction objects generalizing state with
  | nil => rfl
  | cons object rest ih =>
      obtain ⟨path, tree⟩ := object
      have hwalked : (tree.walked path).length < size := hfits _ List.mem_cons_self
      have hpath : path.length < size := (length_le_walked path tree).trans_lt hwalked
      have hself : callAll (Step.run func size) (tree.steps path) state =
          callAll func (tree.calls path) state := by
        cases tree with
        | file stat | nostat => simp [Tree.steps, Tree.calls, callAll, Step.run, hpath]
        | unreadable stat | dir stat entries =>
            have hslashed : (slashed path).length < size := hwalked
            simp [Tree.steps, Tree.calls, callAll, Step.run, hpath, hslashed]
      have hrest := ih (fun object hobject => hfits object (List.mem_cons_of_mem _ hobject))
      simp only [steps, visits, List.flatMap_cons, callAll_append, hself] at hrest ⊢
      simp only [hrest]

end ApueCourse.Find
