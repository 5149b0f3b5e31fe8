import ApueCourse.Db.Calls

/-! The files of a database while no process is at work on it. -/

namespace ApueCourse.Db

open Memory Function Program

/-- What the pointers and the records of two files are, with the list that each record is
on: the free list, or the chain of its key. -/
structure Image (idx dat : List Byte) where
  head : Slot → Nat
  recs : Nat → Option Rec
  slot : Nat → Slot
  chain : Slot → List Nat
  layout : Layout idx dat head recs (fun _ : Empty => none)
  path : ∀ i, Path recs (head i) (chain i)
  mem_chain : ∀ {i o}, o ∈ chain i ↔ recs o ≠ none ∧ slot o = i
  blank : ∀ {o r}, recs o = some r → slot o = freeSlot → Blank r.key
  hash : ∀ {o r}, recs o = some r → slot o ≠ freeSlot → slotOf r.key = slot o
  distinct : ∀ {o o' r r'}, recs o = some r → slot o ≠ freeSlot → recs o' = some r' →
    slot o' ≠ freeSlot → r.key = r'.key → o = o'
  first : ∀ {i o r}, i ≠ freeSlot → o ∈ (chain i).tail → recs o = some r → SEP ∉ r.key

/-- The data that the keys have in the files. -/
def Image.Binds {idx dat : List Byte} (image : Image idx dat) (map : Bindings) : Prop :=
  ∀ key d, map key = some d ↔
    ∃ o r, image.recs o = some r ∧ image.slot o ≠ freeSlot ∧ r.key = key ∧ r.data = d

theorem Layout.of_none {Pid Pid' : Type} {idx dat : List Byte} {head : Slot → Nat}
    {recs : Nat → Option Rec} {spare : Pid → Option (Nat × List Byte)}
    {spare' : Pid' → Option (Nat × List Byte)} (hlayout : Layout idx dat head recs spare)
    (hnone : ∀ p, spare' p = none) : Layout idx dat head recs spare' where
  idx_le := hlayout.idx_le
  dat_le := hlayout.dat_le
  newline := hlayout.newline
  ptr := hlayout.ptr
  ptr_le := hlayout.ptr_le
  fits := hlayout.fits
  start := hlayout.start
  record := hlayout.record
  apart := hlayout.apart
  first := hlayout.first
  next := hlayout.next
  data {tag pos d} htag := by
    cases tag with
    | inl o => exact @Layout.data _ _ _ _ _ _ hlayout (.inl o) pos d htag
    | inr p => cases (hnone p).symm.trans htag
  data_apart {tag tag' pos pos' d d'} hne htag htag' := by
    cases tag with
    | inl o =>
        cases tag' with
        | inl o' =>
            refine @Layout.data_apart _ _ _ _ _ _ hlayout (.inl o) (.inl o') pos pos' d d' ?_ htag
              htag'
            exact fun h => hne (congrArg _ (Sum.inl.inj h))
        | inr p => cases (hnone p).symm.trans htag'
    | inr p => cases (hnone p).symm.trans htag

namespace Image

variable {Pid : Type} [DecidableEq Pid] {idx dat : List Byte}

/-- Every record belongs to its list. -/
def own (image : Image idx dat) (Pid : Type) : Nat → Owner Pid :=
  fun o => if image.recs o = none then .nobody else .list (image.slot o)

theorem part_own (image : Image idx dat) {i : Slot} {o : Nat} {r : Rec} :
    part image.recs (image.own Pid) (.list i) o = some r ↔
      image.recs o = some r ∧ image.slot o = i := by
  rw [part_eq_some, own]
  constructor
  · rintro ⟨hown, hr⟩
    rw [if_neg (hr ▸ Option.some_ne_none r)] at hown
    exact ⟨hr, Owner.list.inj hown⟩
  · rintro ⟨hr, rfl⟩
    exact ⟨if_neg (hr ▸ Option.some_ne_none r), hr⟩

theorem part_hand (image : Image idx dat) (p : Pid) :
    part image.recs (image.own Pid) (.hand p) = fun _ => none := by
  funext o
  rw [part, own]
  apply if_neg
  intro h
  split at h
  · cases h
  · cases h

theorem lists (image : Image idx dat) {map : Bindings} (hbinds : image.Binds map) (i : Slot) :
    Lists i (image.head i) (part image.recs (image.own Pid) (.list i)) map (image.chain i) where
  path := by
    apply (image.path i).congr
    intro o ho
    obtain ⟨hne, hslot⟩ := image.mem_chain.mp ho
    exact if_pos ((if_neg hne).trans (congrArg Owner.list hslot))
  mem_iff o := by
    rw [image.mem_chain, Option.ne_none_iff_exists', Option.ne_none_iff_exists']
    constructor
    · rintro ⟨⟨r, hr⟩, hslot⟩
      exact ⟨r, image.part_own.mpr ⟨hr, hslot⟩⟩
    · rintro ⟨r, hr⟩
      obtain ⟨hr', hslot⟩ := image.part_own.mp hr
      exact ⟨⟨r, hr'⟩, hslot⟩
  blank hi o r hr := by
    obtain ⟨hr', hslot⟩ := image.part_own.mp hr
    exact image.blank hr' (hslot.trans hi)
  hash hi o r hr := by
    obtain ⟨hr', rfl⟩ := image.part_own.mp hr
    exact image.hash hr' hi
  distinct hi o o' r r' hr hr' hkey := by
    obtain ⟨hr₁, hslot⟩ := image.part_own.mp hr
    obtain ⟨hr₂, hslot'⟩ := image.part_own.mp hr'
    exact image.distinct hr₁ (hslot ▸ hi) hr₂ (hslot' ▸ hi) hkey
  first hi o r ho hr := image.first hi ho (image.part_own.mp hr).1
  map {key} hkey {d} := by
    rw [hbinds]
    constructor
    · rintro ⟨o, r, hr, hne, rfl, hd⟩
      exact ⟨o, r, image.part_own.mpr ⟨hr, (image.hash hr hne).symm.trans hkey⟩, rfl, hd⟩
    · rintro ⟨o, r, hr, rfl, hd⟩
      obtain ⟨hr', hslot⟩ := image.part_own.mp hr
      refine ⟨o, r, hr', ?_, rfl, hd⟩
      rw [hslot, ← hkey]
      exact slotOf_ne_free r.key

/-- The whole of the files as the state of processes that have no locks. -/
theorem exists_ghost {w : World Pid} {map : Bindings}
    (image : Image (w.content .idx) (w.content .dat)) (hbinds : image.Binds map)
    (hlocks : ∀ p file byte, w.locks p file byte = none) :
    ∃ s : Ghost Pid, s.Sound ∧ s.world = w ∧ s.map = map ∧ ∀ p, s.view p = View.idle := by
  let s : Ghost Pid := ⟨w, image.head, image.recs, image.own Pid, fun _ => none, map⟩
  refine ⟨s, ⟨?_, ?_, ?_, ?_⟩, rfl, rfl, ?_⟩
  · exact image.layout.of_none fun _ => rfl
  · intro p q file byte mode mode' hne hp
    cases (hlocks p file byte).symm.trans hp
  · intro o
    by_cases hr : image.recs o = none
    · exact iff_of_true (if_pos hr) hr
    · refine iff_of_false (fun hown => ?_) hr
      cases (if_neg hr).symm.trans hown
  · exact fun i _ => ⟨image.chain i, image.lists hbinds i⟩
  · intro p
    have hholds : s.holds p = fun _ => none := funext fun i => hlocks p .idx i.off
    rw [Ghost.view, hholds, hlocks, hlocks, View.idle]
    congr 1
    exact image.part_hand p

end Image

/-- The list of a record. -/
def Owner.slot {Pid : Type} : Owner Pid → Slot
  | .list i => i
  | .nobody | .hand _ => freeSlot

/-- What processes without locks have left. -/
theorem Ghost.exists_image {Pid : Type} [DecidableEq Pid] {s : Ghost Pid} (hs : s.Sound)
    (hidle : ∀ p, s.view p = View.idle) :
    ∃ image : Image (s.world.content .idx) (s.world.content .dat), image.Binds s.map := by
  have hholds : ∀ p, s.holds p = fun _ => none := fun p => congrArg View.lock (hidle p)
  have hlists : ∀ i, ∃ offs, Lists i (s.head i) (part s.recs s.own (.list i)) s.map offs := by
    intro i
    apply hs.lists i
    intro p
    rw [hholds]
    exact nofun
  choose chain hchain using hlists
  have hown : ∀ {o r}, s.recs o = some r → s.own o = .list (s.own o).slot := by
    intro o r hr
    cases hown : s.own o with
    | list i => rfl
    | nobody =>
        rw [(hs.nobody o).mp hown] at hr
        cases hr
    | hand p =>
        have hhand : (s.view p).hand o = some r := view_hand_eq_some.mpr ⟨hown, hr⟩
        rw [hidle] at hhand
        cases hhand
  have hpart : ∀ {o r}, s.recs o = some r →
      part s.recs s.own (.list (s.own o).slot) o = some r := by
    intro o r hr
    exact part_eq_some.mpr ⟨hown hr, hr⟩
  have hpart' : ∀ {i o r}, part s.recs s.own (.list i) o = some r →
      s.recs o = some r ∧ (s.own o).slot = i := by
    intro i o r hr
    obtain ⟨howner, hr'⟩ := part_eq_some.mp hr
    exact ⟨hr', congrArg Owner.slot howner⟩
  have hhash : ∀ {o r}, s.recs o = some r → (s.own o).slot ≠ freeSlot →
      slotOf r.key = (s.own o).slot :=
    fun hr hne => (hchain _).hash hne (hpart hr)
  have hmem : ∀ {i o}, o ∈ chain i ↔ s.recs o ≠ none ∧ (s.own o).slot = i := by
    intro i o
    rw [(hchain i).mem_iff, Option.ne_none_iff_exists', Option.ne_none_iff_exists']
    constructor
    · rintro ⟨r, hr⟩
      obtain ⟨hr', hslot⟩ := hpart' hr
      exact ⟨⟨r, hr'⟩, hslot⟩
    · rintro ⟨⟨r, hr⟩, rfl⟩
      exact ⟨r, hpart hr⟩
  have hpath : ∀ i, Path s.recs (s.head i) (chain i) := by
    intro i
    apply (hchain i).path.congr
    intro o ho
    obtain ⟨hne, rfl⟩ := hmem.mp ho
    obtain ⟨r, hr⟩ := Option.ne_none_iff_exists'.mp hne
    rw [hr, hpart hr]
  have hdistinct : ∀ {o o' r r'}, s.recs o = some r → (s.own o).slot ≠ freeSlot →
      s.recs o' = some r' → (s.own o').slot ≠ freeSlot → r.key = r'.key → o = o' := by
    intro o o' r r' hr hne hr' hne' hkey
    have hslot : (s.own o').slot = (s.own o).slot := by
      rw [← hhash hr hne, ← hhash hr' hne', hkey]
    exact (hchain _).distinct hne (hpart hr) (hslot ▸ hpart hr') hkey
  refine ⟨⟨s.head, s.recs, fun o => (s.own o).slot, chain, hs.layout.of_none (fun p => nomatch p),
    hpath, hmem, fun hr hfree => (hchain _).blank hfree (hpart hr), hhash, hdistinct, ?_⟩, ?_⟩
  · intro i o r hi ho hr
    obtain ⟨-, rfl⟩ := hmem.mp (List.mem_of_mem_tail ho)
    exact (hchain _).first hi ho (hpart hr)
  intro key d
  rw [(hchain _).map rfl]
  constructor
  · rintro ⟨o, r, hr, rfl, hd⟩
    obtain ⟨hr', hslot⟩ := hpart' hr
    exact ⟨o, r, hr', fun hfree => slotOf_ne_free r.key (hslot.symm.trans hfree), rfl, hd⟩
  · rintro ⟨o, r, hr, hne, rfl, hd⟩
    exact ⟨o, r, hhash hr hne ▸ hpart hr, rfl, hd⟩

section Unique

variable {idx dat : List Byte}

theorem Layout.datoff_le {Pid : Type} {head : Slot → Nat} {recs : Nat → Option Rec}
    {spare : Pid → Option (Nat × List Byte)} (hlayout : Layout idx dat head recs spare) {o : Nat}
    {r : Rec} (hr : recs o = some r) : (r.datoff : Int) ≤ LONG_MAX := by
  have hle := (hlayout.data_le hr).trans hlayout.dat_le
  simp only [OFF_MAX, LONG_MAX] at hle ⊢
  omega

theorem sprintfWidth_inj {n n' width : Nat} (hn : (n : Int) ≤ LONG_MAX)
    (hn' : (n' : Int) ≤ LONG_MAX) (heq : sprintfWidth width n = sprintfWidth width n') :
    n = n' := by
  have hread := atol_sprintfWidth hn width (c := 0) (by decide) []
  rw [heq, atol_sprintfWidth hn' width (by decide) []] at hread
  exact_mod_cast (Option.some.inj hread).symm

theorem sprintfLong_inj {n n' : Nat} (hn : (n : Int) ≤ LONG_MAX) (hn' : (n' : Int) ≤ LONG_MAX)
    (heq : sprintfLong n = sprintfLong n') : n = n' := by
  have hread := atolField_long hn
  rw [heq, atolField_long hn'] at hread
  exact_mod_cast (Prog.ret.inj hread).symm

/-- What is behind the last `SEP`. -/
theorem append_sep_inj {front front' back back' : List Byte} (hback : SEP ∉ back)
    (hback' : SEP ∉ back') (heq : front ++ SEP :: back = front' ++ SEP :: back') :
    front = front' ∧ back = back' := by
  have hreverse : ∀ front {back : List Byte}, SEP ∉ back →
      strchr (front ++ SEP :: back).reverse = some (back.reverse, front.reverse) := by
    intro front back hback
    rw [List.reverse_append, List.reverse_cons, List.append_assoc, List.singleton_append,
      strchr_append (mt List.mem_reverse.mp hback)]
  have hsome := hreverse front hback
  rw [heq, hreverse front' hback'] at hsome
  obtain ⟨hback, hfront⟩ := Prod.mk.inj (Option.some.inj hsome)
  exact ⟨(List.reverse_injective hfront).symm, (List.reverse_injective hback).symm⟩

/-- The key can have any characters, as the fields behind it are numbers. -/
theorem Rec.fields_inj {r r' : Rec} (heq : r.fields = r'.fields) :
    r.key = r'.key ∧ sprintfLong r.datoff = sprintfLong r'.datoff ∧
      sprintfLong r.datlen = sprintfLong r'.datlen := by
  have hsplit : ∀ r : Rec,
      r.fields = (r.key ++ SEP :: sprintfLong r.datoff) ++ SEP :: sprintfLong r.datlen := by
    intro r
    rw [fields, List.append_assoc, List.cons_append]
  have hno : ∀ n : Nat, SEP ∉ sprintfLong n := fun n => not_mem_sprintfLong n (by decide)
  rw [hsplit, hsplit] at heq
  obtain ⟨hfront, hdatlen⟩ := append_sep_inj (hno _) (hno _) heq
  obtain ⟨hkey, hdatoff⟩ := append_sep_inj (hno _) (hno _) hfront
  exact ⟨hkey, hdatoff, hdatlen⟩

/-- An index record can be read in one way only. -/
theorem Layout.rec_unique {Pid Pid' : Type} {head head' : Slot → Nat}
    {recs recs' : Nat → Option Rec} {spare : Pid → Option (Nat × List Byte)}
    {spare' : Pid' → Option (Nat × List Byte)} (hlayout : Layout idx dat head recs spare)
    (hlayout' : Layout idx dat head' recs' spare') {o : Nat} {r r' : Rec} (hr : recs o = some r)
    (hr' : recs' o = some r') : r = r' := by
  have hfits := hlayout.fits hr
  have hfits' := hlayout'.fits hr'
  have hhead : r.head = r'.head :=
    (hlayout.readhead hr).symm.trans (hlayout'.readhead hr')
  have hlong : ∀ {n : Int}, n ≤ PTR_MAX → n ≤ LONG_MAX := fun h => h.trans (by decide)
  have hwidth : (sprintfWidth PTR_SZ r.ptr).length = (sprintfWidth PTR_SZ r'.ptr).length := by
    rw [Layout.length_sprintfWidth_ptr hfits.ptr, Layout.length_sprintfWidth_ptr hfits'.ptr]
  obtain ⟨hptr, hlength⟩ := List.append_inj hhead hwidth
  have hptr' : r.ptr = r'.ptr := sprintfWidth_inj (hlong hfits.ptr) (hlong hfits'.ptr) hptr
  have hlength' : r.text.length = r'.text.length :=
    sprintfWidth_inj (hfits.high.trans (by decide)) (hfits'.high.trans (by decide)) hlength
  have htext : r.text = r'.text := by
    rw [← hlayout.readtext hr, ← hlayout'.readtext hr', hlength']
  rw [Rec.text_eq, Rec.text_eq] at htext
  obtain ⟨hkey, hdatoff, hdatlen⟩ := Rec.fields_inj (List.append_cancel_right htext)
  have hdatoff' : r.datoff = r'.datoff :=
    sprintfLong_inj (hlayout.datoff_le hr) (hlayout'.datoff_le hr') hdatoff
  have hdatlen' : r.datlen = r'.datlen :=
    sprintfLong_inj (hfits.datlen.trans (by decide)) (hfits'.datlen.trans (by decide)) hdatlen
  have hdata : r.data ++ [NEWLINE] = r'.data ++ [NEWLINE] := by
    rw [← hlayout.readdata hr, ← hlayout'.readdata hr', hdatoff', hdatlen']
  have hdata' : r.data = r'.data := List.append_cancel_right hdata
  cases r
  cases r'
  dsimp only at hptr' hkey hdatoff' hdata'
  rw [hptr', hkey, hdatoff', hdata']

theorem Image.rec_unique (image image' : Image idx dat) {o : Nat} {r r' : Rec}
    (hr : image.recs o = some r) (hr' : image'.recs o = some r') : r = r' :=
  image.layout.rec_unique image'.layout hr hr'

theorem Image.head_unique (image image' : Image idx dat) (i : Slot) :
    image.head i = image'.head i := by
  have hlong : ∀ {n : Int}, n ≤ PTR_MAX → n ≤ LONG_MAX := fun h => h.trans (by decide)
  apply sprintfWidth_inj (hlong (image.layout.ptr_le i)) (hlong (image'.layout.ptr_le i))
  rw [← image.layout.readptr i, ← image'.layout.readptr i]

theorem Image.path_unique (image image' : Image idx dat) {n : Nat} {offs offs' : List Nat}
    (hpath : Path image.recs n offs) (hpath' : Path image'.recs n offs') : offs = offs' := by
  induction offs generalizing n offs' with
  | nil =>
      cases offs' with
      | nil => rfl
      | cons o' rest' => exact absurd (hpath'.1.symm.trans hpath) hpath'.2.1
  | cons o rest ih =>
      obtain ⟨rfl, hne, r, hr, hrest⟩ := hpath
      cases offs' with
      | nil => exact absurd hpath' hne
      | cons o' rest' =>
          obtain ⟨rfl, -, r', hr', hrest'⟩ := hpath'
          cases image.rec_unique image' hr hr'
          rw [ih hrest hrest']

theorem Image.chain_unique (image image' : Image idx dat) (i : Slot) :
    image.chain i = image'.chain i := by
  apply image.path_unique image' (image.path i)
  rw [image.head_unique image']
  exact image'.path i

theorem Image.Binds.of_image {image image' : Image idx dat} {map : Bindings}
    (hbinds : image.Binds map) {key d : List Byte} (hd : map key = some d) :
    ∃ o r, image'.recs o = some r ∧ image'.slot o ≠ freeSlot ∧ r.key = key ∧ r.data = d := by
  obtain ⟨o, r, hr, hne, hkey, hdata⟩ := (hbinds key d).mp hd
  have hmem : o ∈ image.chain (image.slot o) :=
    image.mem_chain.mpr ⟨hr ▸ Option.some_ne_none r, rfl⟩
  rw [image.chain_unique image'] at hmem
  obtain ⟨hne', hslot⟩ := image'.mem_chain.mp hmem
  obtain ⟨r', hr'⟩ := Option.ne_none_iff_exists'.mp hne'
  cases image.rec_unique image' hr hr'
  exact ⟨o, r, hr', hslot ▸ hne, hkey, hdata⟩

/-- The files say what data each key has. -/
theorem Image.binds_unique {image image' : Image idx dat} {map map' : Bindings}
    (hbinds : image.Binds map) (hbinds' : image'.Binds map') : map = map' := by
  funext key
  apply Option.ext
  intro d
  constructor
  · intro hd
    exact (hbinds' key d).mpr (hbinds.of_image hd)
  · intro hd
    exact (hbinds key d).mpr (hbinds'.of_image hd)

end Unique

/-- The records at the offsets follow one another from `n` up to `finish`. -/
def Tiles (recs : Nat → Option Rec) (n : Nat) : List Nat → Nat → Prop
  | [], finish => n = finish
  | o :: rest, finish => n = o ∧ ∃ r, recs o = some r ∧ Tiles recs (o + r.size) rest finish

theorem Layout.exists_tiles {Pid : Type} {idx dat : List Byte} {head : Slot → Nat}
    {recs : Nat → Option Rec} {spare : Pid → Option (Nat × List Byte)}
    (hlayout : Layout idx dat head recs spare) {n : Nat}
    (hn : n = idx.length ∨ recs n ≠ none) :
    ∃ offs, Tiles recs n offs idx.length ∧ ∀ o, o ∈ offs ↔ n ≤ o ∧ recs o ≠ none := by
  have hsize : ∀ r : Rec, 0 < r.size := fun r => by
    rw [Rec.size, PTR_SZ]
    omega
  induction hk : idx.length - n using Nat.strongRecOn generalizing n with
  | ind k ih =>
      rcases hn with rfl | hne
      · refine ⟨[], rfl, fun o => iff_of_false List.not_mem_nil ?_⟩
        rintro ⟨hle, hne⟩
        obtain ⟨r, hr⟩ := Option.ne_none_iff_exists'.mp hne
        have hend := hlayout.end_le hr
        have hpos := hsize r
        omega
      · obtain ⟨r, hr⟩ := Option.ne_none_iff_exists'.mp hne
        have hend := hlayout.end_le hr
        have hpos := hsize r
        obtain ⟨offs, htiles, hmem⟩ := ih (idx.length - (n + r.size)) (by omega)
          (hlayout.next hr) rfl
        refine ⟨n :: offs, ⟨rfl, r, hr, htiles⟩, fun o => ?_⟩
        rw [List.mem_cons, hmem]
        constructor
        · rintro (rfl | ⟨hle, ho⟩)
          · exact ⟨le_rfl, hne⟩
          · exact ⟨by omega, ho⟩
        · rintro ⟨hle, ho⟩
          rcases Nat.eq_or_lt_of_le hle with rfl | hlt
          · exact .inl rfl
          · obtain ⟨r', hr'⟩ := Option.ne_none_iff_exists'.mp ho
            exact .inr ⟨hlayout.apart hr hr' hlt, ho⟩

namespace Image

variable {idx dat : List Byte} (image : Image idx dat)

theorem exists_tiles : ∃ offs, Tiles image.recs START offs idx.length ∧
    ∀ o, o ∈ offs ↔ image.recs o ≠ none := by
  obtain ⟨offs, htiles, hmem⟩ := image.layout.exists_tiles (image.layout.first.imp_left Eq.symm)
  refine ⟨offs, htiles, fun o => ?_⟩
  rw [hmem, and_iff_right_iff_imp]
  intro hne
  obtain ⟨r, hr⟩ := Option.ne_none_iff_exists'.mp hne
  exact image.layout.start hr

theorem existsUnique_chain {o : Nat} (hne : image.recs o ≠ none) : ∃! i, o ∈ image.chain i :=
  ⟨image.slot o, image.mem_chain.mpr ⟨hne, rfl⟩, fun _ hi => (image.mem_chain.mp hi).2.symm⟩

/-- The data records of two index records do not meet. -/
theorem datoff_apart {o o' : Nat} {r r' : Rec} (hne : o ≠ o') (hr : image.recs o = some r)
    (hr' : image.recs o' = some r') :
    r.datoff + r.datlen ≤ r'.datoff ∨ r'.datoff + r'.datlen ≤ r.datoff := by
  have hextent : ∀ {o r}, image.recs o = some r →
      extent image.recs (fun _ : Empty => none) (.inl o) = some (r.datoff, r.data) := by
    intro o r hr
    rw [extent, hr, Option.map_some]
  have htag : (Sum.inl o : Nat ⊕ Empty) ≠ .inl o' := fun h => hne (Sum.inl.inj h)
  exact image.layout.data_apart htag (hextent hr) (hextent hr')

end Image

section Empty

theorem at_middle (front bytes back : List Byte) :
    At (front ++ (bytes ++ back)) front.length bytes := by
  intro i hi
  rw [List.getElem?_append_right (Nat.le_add_right _ _), Nat.add_sub_cancel_left,
    List.getElem?_append_left hi]

theorem length_emptyTable : emptyTable.length = START := by
  rw [emptyTable, List.length_append, List.length_flatten, List.map_replicate,
    List.sum_replicate]
  rfl

theorem at_emptyTable (i : Slot) : At emptyTable i.off (sprintfWidth PTR_SZ 0) := by
  obtain ⟨k, hk⟩ := Nat.exists_eq_add_of_le (Nat.le_of_lt_succ i.isLt)
  have hsplit : NHASH_DEF + 1 = i + (1 + k) := by
    omega
  have hoff : i.off = (List.replicate i (sprintfWidth PTR_SZ 0)).flatten.length := by
    rw [List.length_flatten, List.map_replicate, List.sum_replicate, Slot.off, Nat.mul_comm]
    rfl
  rw [emptyTable, hsplit, List.replicate_add, List.replicate_add, List.flatten_append,
    List.flatten_append, List.append_assoc, List.append_assoc, hoff]
  exact at_middle _ _ _

/-- A database without records. -/
def Image.empty : Image emptyTable [] where
  head _ := 0
  recs _ := none
  slot _ := freeSlot
  chain _ := []
  layout := {
    idx_le := by
      rw [length_emptyTable]
      decide
    dat_le := Nat.zero_le _
    newline := by
      have hlength : (List.replicate (NHASH_DEF + 1) (sprintfWidth PTR_SZ 0)).flatten.length =
          (NHASH_DEF + 1) * PTR_SZ := by
        rw [List.length_flatten, List.map_replicate, List.sum_replicate]
        rfl
      rw [← hlength]
      exact at_middle _ [NEWLINE] []
    ptr := at_emptyTable
    ptr_le := fun _ => by decide
    fits := nofun
    start := nofun
    record := nofun
    apart := nofun
    first := .inl length_emptyTable
    next := nofun
    data := fun {tag _ _} htag => by
      cases tag with
      | inl o => cases htag
      | inr p => cases htag
    data_apart := fun {tag _ _ _ _ _} _ htag _ => by
      cases tag with
      | inl o => cases htag
      | inr p => cases htag }
  path _ := rfl
  mem_chain := iff_of_false List.not_mem_nil fun h => h.1 rfl
  blank := nofun
  hash := nofun
  distinct := nofun
  first := nofun

theorem Image.empty_binds : Image.empty.Binds fun _ => none :=
  fun _ _ => iff_of_false nofun fun ⟨_, _, hr, _⟩ => nomatch hr

end Empty

end ApueCourse.Db
