import ApueCourse.Db.Local

/-! A record taken out of a list, put in front of one, and given new data. -/

namespace ApueCourse.Db

open Memory Function

theorem Path.congr {mem mem' : Nat → Option Rec} {offs : List Nat} {n : Nat}
    (hpath : Path mem n offs) (hmem : ∀ o ∈ offs, mem' o = mem o) : Path mem' n offs := by
  induction offs generalizing n with
  | nil => exact hpath
  | cons o rest ih =>
      obtain ⟨rfl, hne, r, hr, hrest⟩ := hpath
      exact ⟨rfl, hne, r, (hmem n List.mem_cons_self).trans hr,
        ih hrest fun o ho => hmem o (List.mem_cons_of_mem n ho)⟩

theorem Path.unlink_first {mem : Nat → Option Rec} {back : List Nat} {n o : Nat} {r : Rec}
    (hpath : Path mem n (o :: back)) (ho : mem o = some r) :
    Path (update mem o none) r.ptr back := by
  have hnodup := hpath.nodup
  obtain ⟨rfl, -, r', hr', hrest⟩ := hpath
  cases ho.symm.trans hr'
  apply hrest.congr
  intro o' ho'
  apply update_of_ne
  rintro rfl
  exact (List.nodup_cons.mp hnodup).1 ho'

theorem Path.unlink {mem : Nat → Option Rec} {front back : List Nat} {n x o : Nat} {rx r : Rec}
    (hpath : Path mem n (front ++ x :: o :: back)) (hx : mem x = some rx) (ho : mem o = some r) :
    Path (update (update mem o none) x (some (rx.setPtr r.ptr))) n (front ++ x :: back) := by
  have hnodup := hpath.nodup
  induction front generalizing n with
  | nil =>
      obtain ⟨rfl, hne, r', hr', hrest⟩ := hpath
      obtain ⟨hnot, -⟩ := List.nodup_cons.mp hnodup
      refine ⟨rfl, hne, _, update_self .., ?_⟩
      apply (hrest.unlink_first ho).congr
      intro o' ho'
      apply update_of_ne
      rintro rfl
      exact hnot (List.mem_cons_of_mem o ho')
  | cons o' front ih =>
      obtain ⟨rfl, hne, r', hr', hrest⟩ := hpath
      obtain ⟨hnot, hnodup'⟩ := List.nodup_cons.mp hnodup
      have hnx : n ≠ x := by
        rintro rfl
        exact hnot (List.mem_append_right _ List.mem_cons_self)
      have hno : n ≠ o := by
        rintro rfl
        exact hnot (List.mem_append_right _ (List.mem_cons_of_mem x List.mem_cons_self))
      refine ⟨rfl, hne, r', ?_, ih hrest hnodup'⟩
      rw [update_of_ne hnx, update_of_ne hno, hr']

/-- The list without the record `r` at `o`, which is behind the records of `front`: the
pointer to it leads to the next record. -/
inductive Unlinked (head : Nat) (mem : Nat → Option Rec) (o : Nat) (r : Rec) :
    List Nat → Nat → (Nat → Option Rec) → Prop
  | first : Unlinked head mem o r [] r.ptr (update mem o none)
  | behind {front : List Nat} {x : Nat} {rx : Rec} (hx : mem x = some rx) (hne : x ≠ o) :
      Unlinked head mem o r (front ++ [x]) head
        (update (update mem o none) x (some (rx.setPtr r.ptr)))

namespace Unlinked

variable {head head' : Nat} {mem mem' : Nat → Option Rec} {o : Nat} {r : Rec}
  {front : List Nat}

theorem gone (hunlinked : Unlinked head mem o r front head' mem') : mem' o = none := by
  cases hunlinked with
  | first => exact update_self ..
  | behind hx hne => rw [update_of_ne hne.symm, update_self]

/-- All other records are there, with the same key and data. -/
theorem other (hunlinked : Unlinked head mem o r front head' mem') {o' : Nat} (hne' : o' ≠ o) :
    (mem' o').map (fun r => (r.key, r.data)) = (mem o').map fun r => (r.key, r.data) := by
  cases hunlinked with
  | first => rw [update_of_ne hne']
  | @behind _ x rx hx hne =>
      rcases eq_or_ne o' x with rfl | hne''
      · rw [update_self, hx]
        rfl
      · rw [update_of_ne hne'', update_of_ne hne']

theorem eq_none_iff (hunlinked : Unlinked head mem o r front head' mem') {o' : Nat}
    (hne : o' ≠ o) : mem' o' = none ↔ mem o' = none := by
  have hother := congrArg Option.isNone (hunlinked.other hne)
  rw [Option.isNone_map, Option.isNone_map] at hother
  rw [← Option.isNone_iff_eq_none, ← Option.isNone_iff_eq_none, hother]

theorem exists_old (hunlinked : Unlinked head mem o r front head' mem') {o' : Nat} {r' : Rec}
    (hr' : mem' o' = some r') :
    o' ≠ o ∧ ∃ r₀, mem o' = some r₀ ∧ r₀.key = r'.key ∧ r₀.data = r'.data := by
  have hne : o' ≠ o := by
    rintro rfl
    rw [hunlinked.gone] at hr'
    cases hr'
  have hother := hunlinked.other hne
  rw [hr', Option.map_some] at hother
  obtain ⟨r₀, hr₀, heq⟩ := Option.map_eq_some_iff.mp hother.symm
  exact ⟨hne, r₀, hr₀, congrArg Prod.fst heq, congrArg Prod.snd heq⟩

theorem exists_new (hunlinked : Unlinked head mem o r front head' mem') {o' : Nat} {r₀ : Rec}
    (hne : o' ≠ o) (hr₀ : mem o' = some r₀) :
    ∃ r', mem' o' = some r' ∧ r'.key = r₀.key ∧ r'.data = r₀.data := by
  have hother := hunlinked.other hne
  rw [hr₀, Option.map_some] at hother
  obtain ⟨r', hr', heq⟩ := Option.map_eq_some_iff.mp hother
  exact ⟨r', hr', congrArg Prod.fst heq, congrArg Prod.snd heq⟩

theorem path (hunlinked : Unlinked head mem o r front head' mem') {back : List Nat}
    (hpath : Path mem head (front ++ o :: back)) (ho : mem o = some r) :
    Path mem' head' (front ++ back) := by
  cases hunlinked with
  | first => exact hpath.unlink_first ho
  | behind hx hne =>
      rw [List.append_assoc] at hpath ⊢
      exact hpath.unlink hx ho

end Unlinked

namespace Lists

variable {i : Slot} {head head' : Nat} {mem mem' : Nat → Option Rec}
  {map map' : List Byte → Option (List Byte)} {offs front back : List Nat} {o : Nat} {r : Rec}

theorem unlink (hlists : Lists i head mem map (front ++ o :: back)) (ho : mem o = some r)
    (hunlinked : Unlinked head mem o r front head' mem')
    (hmap : ∀ key, slotOf key = i → map' key = if key = r.key then none else map key) :
    Lists i head' mem' map' (front ++ back) where
  path := hunlinked.path hlists.path ho
  mem_iff o' := by
    rcases eq_or_ne o' o with rfl | hne
    · rw [hunlinked.gone]
      have hnodup := List.nodup_middle.mp hlists.path.nodup
      exact iff_of_false (List.nodup_cons.mp hnodup).1 fun h => h rfl
    · have hold := hlists.mem_iff o'
      rw [List.mem_append, List.mem_cons, or_iff_right hne, ← List.mem_append] at hold
      rw [hold, Ne, Ne, hunlinked.eq_none_iff hne]
  blank hi o' r' hr' := by
    obtain ⟨-, r₀, hr₀, hkey, -⟩ := hunlinked.exists_old hr'
    exact hkey ▸ hlists.blank hi hr₀
  hash hi o' r' hr' := by
    obtain ⟨-, r₀, hr₀, hkey, -⟩ := hunlinked.exists_old hr'
    exact hkey ▸ hlists.hash hi hr₀
  distinct hi o₁ o₂ r₁ r₂ hr₁ hr₂ hkey := by
    obtain ⟨-, r₁', hr₁', hkey₁, -⟩ := hunlinked.exists_old hr₁
    obtain ⟨-, r₂', hr₂', hkey₂, -⟩ := hunlinked.exists_old hr₂
    exact hlists.distinct hi hr₁' hr₂' (hkey₁.trans (hkey.trans hkey₂.symm))
  first hi o' r' ho' hr' := by
    obtain ⟨-, r₀, hr₀, hkey, -⟩ := hunlinked.exists_old hr'
    refine hkey ▸ hlists.first hi ?_ hr₀
    cases front with
    | nil => exact List.mem_of_mem_tail ho'
    | cons x front =>
        rcases List.mem_append.mp ho' with hfront | hback
        · exact List.mem_append_left _ hfront
        · exact List.mem_append_right _ (List.mem_cons_of_mem o hback)
  map {key} hkey {d} := by
    have hi : i ≠ freeSlot := hkey ▸ slotOf_ne_free key
    rw [hmap key hkey]
    constructor
    · intro hd
      split at hd
      · cases hd
      · rename_i hne
        obtain ⟨o', r₀, hr₀, hkey₀, hdata⟩ := (hlists.map hkey).mp hd
        have hne' : o' ≠ o := by
          rintro rfl
          cases ho.symm.trans hr₀
          exact hne hkey₀.symm
        obtain ⟨r', hr', hkey', hdata'⟩ := hunlinked.exists_new hne' hr₀
        exact ⟨o', r', hr', hkey'.trans hkey₀, hdata'.trans hdata⟩
    · rintro ⟨o', r', hr', hkey', hdata'⟩
      obtain ⟨hne, r₀, hr₀, hkey₀, hdata₀⟩ := hunlinked.exists_old hr'
      rw [if_neg]
      · exact (hlists.map hkey).mpr ⟨o', r₀, hr₀, hkey₀.trans hkey', hdata₀.trans hdata'⟩
      · intro h
        exact hne (hlists.distinct hi hr₀ ho (hkey₀.trans (hkey'.trans h)))

theorem cons (hlists : Lists i head mem map offs) (hnone : mem o = none) (hne : o ≠ 0)
    (hptr : r.ptr = head) (hblank : i = freeSlot → Blank r.key)
    (hhash : i ≠ freeSlot → slotOf r.key = i)
    (hnew : i ≠ freeSlot → ∀ o' ∈ offs, ∀ r', mem o' = some r' → r'.key ≠ r.key ∧ SEP ∉ r'.key)
    (hmap : ∀ key, slotOf key = i → map' key = if key = r.key then some r.data else map key) :
    Lists i o (update mem o (some r)) map' (o :: offs) := by
  have hcases : ∀ {o' r'}, update mem o (some r) o' = some r' →
      o' = o ∧ r' = r ∨ o' ≠ o ∧ mem o' = some r' ∧ o' ∈ offs := by
    intro o' r' hr'
    rcases eq_or_ne o' o with rfl | hne'
    · rw [update_self] at hr'
      cases hr'
      exact .inl ⟨rfl, rfl⟩
    · rw [update_of_ne hne'] at hr'
      exact .inr ⟨hne', hr', (hlists.mem_iff o').mpr (hr' ▸ Option.some_ne_none r')⟩
  have hnot : o ∉ offs := fun h => (hlists.mem_iff o).mp h hnone
  constructor
  case path =>
      refine ⟨rfl, hne, r, update_self .., ?_⟩
      rw [hptr]
      apply hlists.path.congr
      intro o' ho'
      apply update_of_ne
      rintro rfl
      exact hnot ho'
  case mem_iff =>
      intro o'
      rcases eq_or_ne o' o with rfl | hne'
      · rw [update_self]
        exact iff_of_true List.mem_cons_self (Option.some_ne_none r)
      · rw [update_of_ne hne', List.mem_cons, or_iff_right hne', hlists.mem_iff]
  case blank =>
      intro hi o' r' hr'
      rcases hcases hr' with ⟨-, rfl⟩ | ⟨-, hr'', -⟩
      · exact hblank hi
      · exact hlists.blank hi hr''
  case hash =>
      intro hi o' r' hr'
      rcases hcases hr' with ⟨-, rfl⟩ | ⟨-, hr'', -⟩
      · exact hhash hi
      · exact hlists.hash hi hr''
  case distinct =>
      intro hi o₁ o₂ r₁ r₂ h₁ h₂ hkey
      rcases hcases h₁ with ⟨rfl, rfl⟩ | ⟨-, h₁', hmem₁⟩
      · rcases hcases h₂ with ⟨rfl, -⟩ | ⟨-, h₂', hmem₂⟩
        · rfl
        · exact absurd hkey.symm (hnew hi _ hmem₂ _ h₂').1
      · rcases hcases h₂ with ⟨rfl, rfl⟩ | ⟨-, h₂', -⟩
        · exact absurd hkey (hnew hi _ hmem₁ _ h₁').1
        · exact hlists.distinct hi h₁' h₂' hkey
  case first =>
      intro hi o' r' ho' hr'
      rcases hcases hr' with ⟨rfl, -⟩ | ⟨-, hr'', hmem⟩
      · exact absurd ho' hnot
      · exact (hnew hi o' hmem r' hr'').2
  case map =>
      intro key hkey d
      have hi : i ≠ freeSlot := hkey ▸ slotOf_ne_free key
      rw [hmap key hkey]
      constructor
      · intro hd
        split at hd
        · rename_i hkey'
          cases hd
          exact ⟨o, r, update_self .., hkey'.symm, rfl⟩
        · obtain ⟨o', r', hr', hkey', hdata⟩ := (hlists.map hkey).mp hd
          have hne' : o' ≠ o := by
            rintro rfl
            rw [hnone] at hr'
            cases hr'
          exact ⟨o', r', (update_of_ne hne' _ _).trans hr', hkey', hdata⟩
      · rintro ⟨o', r', hr', hkey', hdata⟩
        rcases hcases hr' with ⟨-, rfl⟩ | ⟨-, hr'', hmem⟩
        · rw [if_pos hkey'.symm, hdata]
        · rw [if_neg fun h => (hnew hi o' hmem r' hr'').1 (hkey'.trans h)]
          exact (hlists.map hkey).mpr ⟨o', r', hr'', hkey', hdata⟩

theorem setData (hlists : Lists i head mem map offs) (ho : mem o = some r) (d : List Byte)
    (hmap : ∀ key, slotOf key = i → map' key = if key = r.key then some d else map key) :
    Lists i head (update mem o (some (r.setData d))) map' offs := by
  have hcases : ∀ {o' r'}, update mem o (some (r.setData d)) o' = some r' →
      ∃ r₀, mem o' = some r₀ ∧ r'.key = r₀.key ∧ r'.ptr = r₀.ptr ∧
        (o' = o ∧ r'.data = d ∨ o' ≠ o ∧ r'.data = r₀.data) := by
    intro o' r' hr'
    rcases eq_or_ne o' o with rfl | hne'
    · rw [update_self] at hr'
      cases hr'
      exact ⟨r, ho, rfl, rfl, .inl ⟨rfl, rfl⟩⟩
    · rw [update_of_ne hne'] at hr'
      exact ⟨r', hr', rfl, rfl, .inr ⟨hne', rfl⟩⟩
  have hpath : ∀ {offs n}, Path mem n offs → Path (update mem o (some (r.setData d))) n offs := by
    intro offs
    induction offs with
    | nil => exact fun h => h
    | cons o' rest ih =>
        rintro n ⟨rfl, hne, r', hr', hrest⟩
        rcases eq_or_ne n o with rfl | hne'
        · cases ho.symm.trans hr'
          exact ⟨rfl, hne, r.setData d, update_self .., ih hrest⟩
        · exact ⟨rfl, hne, r', (update_of_ne hne' _ _).trans hr', ih hrest⟩
  constructor
  case path => exact hpath hlists.path
  case mem_iff =>
      intro o'
      rw [hlists.mem_iff]
      rcases eq_or_ne o' o with rfl | hne'
      · rw [update_self, ho]
        exact iff_of_true (Option.some_ne_none _) (Option.some_ne_none _)
      · rw [update_of_ne hne']
  case blank =>
      intro hi o' r' hr'
      obtain ⟨r₀, hr₀, hkey, -⟩ := hcases hr'
      exact hkey ▸ hlists.blank hi hr₀
  case hash =>
      intro hi o' r' hr'
      obtain ⟨r₀, hr₀, hkey, -⟩ := hcases hr'
      exact hkey ▸ hlists.hash hi hr₀
  case distinct =>
      intro hi o₁ o₂ r₁ r₂ h₁ h₂ hkey
      obtain ⟨r₁', hr₁', hkey₁, -⟩ := hcases h₁
      obtain ⟨r₂', hr₂', hkey₂, -⟩ := hcases h₂
      exact hlists.distinct hi hr₁' hr₂' (hkey₁.symm.trans (hkey.trans hkey₂))
  case first =>
      intro hi o' r' ho' hr'
      obtain ⟨r₀, hr₀, hkey, -⟩ := hcases hr'
      exact hkey ▸ hlists.first hi ho' hr₀
  case map =>
      intro key hkey d'
      have hi : i ≠ freeSlot := hkey ▸ slotOf_ne_free key
      rw [hmap key hkey]
      constructor
      · intro hd
        split at hd
        · rename_i hkey'
          cases hd
          exact ⟨o, r.setData d, update_self .., hkey'.symm, rfl⟩
        · rename_i hne
          obtain ⟨o', r', hr', hkey', hdata⟩ := (hlists.map hkey).mp hd
          have hne' : o' ≠ o := by
            rintro rfl
            cases ho.symm.trans hr'
            exact hne hkey'.symm
          exact ⟨o', r', (update_of_ne hne' _ _).trans hr', hkey', hdata⟩
      · rintro ⟨o', r', hr', hkey', hdata⟩
        obtain ⟨r₀, hr₀, hkey₀, -, hcase⟩ := hcases hr'
        rcases hcase with ⟨rfl, hd⟩ | ⟨hne', hd⟩
        · cases ho.symm.trans hr₀
          rw [if_pos (hkey'.symm.trans hkey₀), ← hdata, hd]
        · rw [if_neg]
          · exact (hlists.map hkey).mpr
              ⟨o', r₀, hr₀, hkey₀.symm.trans hkey', hd.symm.trans hdata⟩
          · intro h
            exact hne' (hlists.distinct hi hr₀ ho (hkey₀.symm.trans (hkey'.trans h)))

end Lists

end ApueCourse.Db
