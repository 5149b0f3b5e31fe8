import ApueCourse.Db.Space
import ApueCourse.Db.Scanned
import Mathlib.Data.Set.Card

/-! How many records there are of which lengths: a database takes the room of a pool of records
that are used again where their lengths are the same. -/

namespace ApueCourse.Db

open Memory Function Program Transition

/-- The keys that need records of these lengths. -/
def keysOf (map : Bindings) (keylen datlen : Nat) : Set (List Byte) :=
  {key | key.length = keylen ∧ ∃ d, map key = some d ∧ d.length = datlen}

/-- What the keys have, how many records there are for which lengths of key and data, and the
lengths of the two files. -/
structure Space where
  map : Bindings
  records : Nat → Nat → Nat
  idx : Nat
  dat : Nat

namespace Space

/-- Not all records of these lengths are in use. -/
def Free (s : Space) (keylen datlen : Nat) : Prop :=
  (keysOf s.map keylen datlen).ncard < s.records keylen datlen

def append (s : Space) (key data : List Byte) : Space where
  map := s.map
  records := update s.records key.length
    (update (s.records key.length) data.length (s.records key.length data.length + 1))
  idx := s.idx + (PTR_SZ + IDXLEN_SZ + (idxText key s.dat (data.length + 1)).length)
  dat := s.dat + (data.length + 1)

theorem append_records (s : Space) (key data : List Byte) (keylen datlen : Nat) :
    (s.append key data).records keylen datlen =
      if keylen = key.length ∧ datlen = data.length then s.records keylen datlen + 1
      else s.records keylen datlen := by
  rw [append]
  dsimp only
  rcases eq_or_ne keylen key.length with rfl | hne
  · rw [update_self, update_apply]
    simp only [true_and]
    split
    · rename_i hdatlen
      rw [hdatlen]
    · rfl
  · rw [update_of_ne hne, if_neg fun h => hne h.1]

end Space

def Call.data : Call → List Byte
  | .store _ data _ => data
  | .open _ | .fetch _ | .delete _ | .rewind | .nextrec => []

open Classical in
/-- A call on the pool.  Nothing is ever given back to the file system. -/
noncomputable def Space.apply (s : Space) (call : Call) : Space :=
  { (if call.Appends s.Free (s.map call.key) then s.append call.key call.data else s) with
    map := (call.apply s.map).2 }

namespace Plan

/-- The records of these lengths. -/
def places (plan : Plan) (keylen datlen : Nat) : Set Nat :=
  {o | ∃ datoff, plan.shape o = some (keylen, datoff, datlen)}

theorem places_append {plan : Plan} (hnew : plan.shape plan.idx = none) (key data : List Byte)
    (keylen datlen : Nat) : (plan.append key data).places keylen datlen =
      if keylen = key.length ∧ datlen = data.length then
        insert plan.idx (plan.places keylen datlen)
      else plan.places keylen datlen := by
  have hshape : ∀ o, (plan.append key data).shape o =
      if o = plan.idx then some (key.length, plan.dat, data.length) else plan.shape o :=
    fun o => update_apply ..
  split
  · rename_i hlengths
    obtain ⟨rfl, rfl⟩ := hlengths
    ext o
    rw [Set.mem_insert_iff]
    constructor
    · rintro ⟨datoff, ho⟩
      rw [hshape] at ho
      split at ho
      · exact .inl ‹_›
      · exact .inr ⟨datoff, ho⟩
    · rintro (rfl | ⟨datoff, ho⟩)
      · exact ⟨plan.dat, (hshape _).trans (if_pos rfl)⟩
      · refine ⟨datoff, (hshape o).trans ((if_neg ?_).trans ho)⟩
        rintro rfl
        cases hnew.symm.trans ho
  · rename_i hlengths
    ext o
    constructor
    · rintro ⟨datoff, ho⟩
      rw [hshape] at ho
      split at ho
      · simp only [Option.some.injEq, Prod.mk.injEq] at ho
        exact absurd ⟨ho.1.symm, ho.2.2.symm⟩ hlengths
      · exact ⟨datoff, ho⟩
    · rintro ⟨datoff, ho⟩
      refine ⟨datoff, (hshape o).trans ((if_neg ?_).trans ho)⟩
      rintro rfl
      cases hnew.symm.trans ho

end Plan

section Unique

variable {idx dat : List Byte}

theorem Tiles.unique {Pid Pid' : Type} {head head' : Slot → Nat} {recs recs' : Nat → Option Rec}
    {spare : Pid → Option (Nat × List Byte)} {spare' : Pid' → Option (Nat × List Byte)}
    (hlayout : Layout idx dat head recs spare) (hlayout' : Layout idx dat head' recs' spare')
    {n : Nat} {offs offs' : List Nat} (htiles : Tiles recs n offs idx.length)
    (htiles' : Tiles recs' n offs' idx.length) : offs = offs' := by
  have hsize : ∀ r : Rec, 0 < r.size := fun r => by
    rw [Rec.size, PTR_SZ]
    omega
  induction offs generalizing n offs' with
  | nil =>
      cases offs' with
      | nil => rfl
      | cons o' rest' =>
          obtain ⟨rfl, r', hr', -⟩ := htiles'
          have hend := hlayout'.end_le hr'
          have hpos := hsize r'
          rw [Tiles] at htiles
          omega
  | cons o rest ih =>
      obtain ⟨rfl, r, hr, hrest⟩ := htiles
      cases offs' with
      | nil =>
          have hend := hlayout.end_le hr
          have hpos := hsize r
          rw [Tiles] at htiles'
          omega
      | cons o' rest' =>
          obtain ⟨rfl, r', hr', hrest'⟩ := htiles'
          cases hlayout.rec_unique hlayout' hr hr'
          rw [ih hrest hrest']

/-- Two files are made up of records in one way only. -/
theorem Layout.recs_unique {Pid Pid' : Type} {head head' : Slot → Nat}
    {recs recs' : Nat → Option Rec} {spare : Pid → Option (Nat × List Byte)}
    {spare' : Pid' → Option (Nat × List Byte)} (hlayout : Layout idx dat head recs spare)
    (hlayout' : Layout idx dat head' recs' spare') : recs = recs' := by
  obtain ⟨offs, htiles, hmem⟩ := hlayout.exists_tiles (hlayout.first.imp_left Eq.symm)
  obtain ⟨offs', htiles', hmem'⟩ := hlayout'.exists_tiles (hlayout'.first.imp_left Eq.symm)
  have hoffs := Tiles.unique hlayout hlayout' htiles htiles'
  have hiff : ∀ o, recs o ≠ none ↔ recs' o ≠ none := by
    intro o
    have h := hmem o
    rw [hoffs, hmem'] at h
    constructor
    · intro ho
      obtain ⟨r, hr⟩ := Option.ne_none_iff_exists'.mp ho
      exact (h.mpr ⟨hlayout.start hr, ho⟩).2
    · intro ho
      obtain ⟨r, hr⟩ := Option.ne_none_iff_exists'.mp ho
      exact (h.mp ⟨hlayout'.start hr, ho⟩).2
  funext o
  cases hr : recs o with
  | none =>
      have ho := not_iff_not.mpr (hiff o)
      rw [hr] at ho
      exact (not_not.mp (ho.mp (not_not.mpr rfl))).symm
  | some r =>
      obtain ⟨r', hr'⟩ := Option.ne_none_iff_exists'.mp ((hiff o).mp (hr ▸ Option.some_ne_none r))
      rw [hr', hlayout.rec_unique hlayout' hr hr']

theorem Image.plan_eq {w : World Unit} {plan : Plan}
    (image : Image (w.content .idx) (w.content .dat)) (hplan : plan.Of w) : image.plan = plan := by
  obtain ⟨head, recs, hlayout, rfl⟩ := hplan
  rw [Image.plan, image.layout.recs_unique hlayout, planOf]

end Unique

namespace Image

variable {idx dat : List Byte} (image : Image idx dat) {keylen datlen : Nat}

theorem mem_places {o : Nat} : o ∈ image.plan.places keylen datlen ↔
    ∃ r, image.recs o = some r ∧ r.key.length = keylen ∧ r.data.length = datlen := by
  constructor
  · rintro ⟨datoff, ho⟩
    obtain ⟨r, hr, hshape⟩ := Option.map_eq_some_iff.mp ho
    simp only [Rec.shape, Prod.mk.injEq] at hshape
    exact ⟨r, hr, hshape.1, hshape.2.2⟩
  · rintro ⟨r, hr, rfl, rfl⟩
    exact ⟨r.datoff, congrArg (Option.map Rec.shape) hr⟩

theorem places_finite : (image.plan.places keylen datlen).Finite := by
  apply (Set.finite_lt_nat idx.length).subset
  intro o ho
  obtain ⟨r, hr, -⟩ := image.mem_places.mp ho
  have hend := image.layout.end_le hr
  rw [Rec.size, PTR_SZ] at hend
  show o < idx.length
  omega

theorem shape_idx : image.plan.shape image.plan.idx = none := by
  cases hr : image.recs idx.length with
  | none => exact congrArg (Option.map Rec.shape) hr
  | some r =>
      have hend := image.layout.end_le hr
      rw [Rec.size, PTR_SZ] at hend
      omega

/-- The records that are not free are those of the keys. -/
theorem ncard_live {map : Bindings} (hbinds : image.Binds map) :
    {o ∈ image.plan.places keylen datlen | image.slot o ≠ freeSlot}.ncard =
      (keysOf map keylen datlen).ncard := by
  classical
  refine Set.ncard_congr (fun o _ => ((image.recs o).map Rec.key).getD []) ?_ ?_ ?_
  · rintro o ⟨ho, hlive⟩
    obtain ⟨r, hr, hkeylen, hdatlen⟩ := image.mem_places.mp ho
    rw [hr, Option.map_some, Option.getD_some]
    exact ⟨hkeylen, r.data, (hbinds r.key r.data).mpr ⟨o, r, hr, hlive, rfl, rfl⟩, hdatlen⟩
  · rintro o o' ⟨ho, hlive⟩ ⟨ho', hlive'⟩ heq
    obtain ⟨r, hr, -⟩ := image.mem_places.mp ho
    obtain ⟨r', hr', -⟩ := image.mem_places.mp ho'
    simp only [hr, hr', Option.map_some, Option.getD_some] at heq
    exact image.distinct hr hlive hr' hlive' heq
  · rintro key ⟨hkeylen, d, hd, hdatlen⟩
    obtain ⟨o, r, hr, hlive, rfl, rfl⟩ := (hbinds key d).mp hd
    refine ⟨o, ⟨image.mem_places.mpr ⟨r, hr, hkeylen, hdatlen⟩, hlive⟩, ?_⟩
    rw [hr, Option.map_some, Option.getD_some]

/-- There is a free record exactly where not all records are those of keys. -/
theorem free_iff {map : Bindings} (hbinds : image.Binds map) : image.Free keylen datlen ↔
    (keysOf map keylen datlen).ncard < (image.plan.places keylen datlen).ncard := by
  rw [← image.ncard_live hbinds]
  have hsubset : {o ∈ image.plan.places keylen datlen | image.slot o ≠ freeSlot} ⊆
      image.plan.places keylen datlen := fun o ho => ho.1
  constructor
  · rintro ⟨o, ho, r, hr, hkeylen, hdatlen⟩
    refine Set.ncard_lt_ncard ⟨hsubset, fun h => ?_⟩ image.places_finite
    exact (h (image.mem_places.mpr ⟨r, hr, hkeylen, hdatlen⟩)).2 (image.mem_chain.mp ho).2
  · intro hlt
    obtain ⟨o, ho, hnot⟩ := Set.exists_mem_notMem_of_ncard_lt_ncard hlt
      (image.places_finite.subset hsubset)
    obtain ⟨r, hr, hkeylen, hdatlen⟩ := image.mem_places.mp ho
    have hslot : image.slot o = freeSlot := by
      by_contra hne
      exact hnot ⟨ho, hne⟩
    exact ⟨o, image.mem_chain.mpr ⟨hr ▸ Option.some_ne_none r, hslot⟩, r, hr, hkeylen, hdatlen⟩

end Image

/-- The files are those of the pool. -/
def Space.Of (s : Space) (w : World Unit) : Prop :=
  ∃ image : Image (w.content .idx) (w.content .dat), image.Binds s.map ∧
    (∀ keylen datlen, (image.plan.places keylen datlen).ncard = s.records keylen datlen) ∧
    (w.content .idx).length = s.idx ∧ (w.content .dat).length = s.dat

section Calls

variable {w : World Unit} {db : DB} {fuel : Nat} {call : Call} {prog : P (Result × Option DB)}

theorem leaves_call (hcall : call.OnText) (happend : db.append = false)
    (hprog : call.prog fuel (some db) = some prog) {map : Bindings}
    (image : Image (w.content .idx) (w.content .dat)) (hbinds : image.Binds map) :
    Leaves prog w fun _ w' => image.plan.Behind (call.Appends image.Free (map call.key)) call.key
      call.data w' := by
  cases call with
  | fetch key =>
      cases hprog
      refine Prog.Leaves.bind (leaves_fetch image rfl rfl key fuel) ?_
      exact fun _ _ hplan => .ret ⟨False.elim, fun _ => hplan⟩
  | store key data flag =>
      cases hprog
      refine Prog.Leaves.bind
        (leaves_store happend image hbinds rfl rfl hcall.1 hcall.2 flag fuel) ?_
      exact fun _ _ hbehind => .ret hbehind
  | delete key =>
      cases hprog
      refine Prog.Leaves.bind (leaves_delete happend image rfl rfl key fuel) ?_
      exact fun _ _ hplan => .ret ⟨False.elim, fun _ => hplan⟩
  | «open» | rewind | nextrec => cases hcall

/-- One call. -/
theorem Space.Of.step {s : Space} (hof : s.Of w) (hcall : call.OnText)
    (happend : db.append = false) (hprog : call.prog fuel (some db) = some prog)
    {a : Result × Option DB} {w' : World Unit} (hexec : exec prog w = .ok (a, w'))
    (hmap : ∃ image' : Image (w'.content .idx) (w'.content .dat),
      image'.Binds (call.apply s.map).2) : (s.apply call).Of w' := by
  obtain ⟨image, hbinds, hrecords, hidx, hdat⟩ := hof
  obtain ⟨image', hbinds'⟩ := hmap
  have hbehind := leaves_call hcall happend hprog image hbinds a w' hexec
  have hfree : image.Free = s.Free := by
    funext keylen datlen
    rw [Free, ← hrecords]
    exact propext (image.free_iff hbinds)
  rw [hfree] at hbehind
  have hlengths : ∀ {plan : Plan}, plan.Of w' →
      (w'.content .idx).length = plan.idx ∧ (w'.content .dat).length = plan.dat := by
    rintro plan ⟨head, recs, -, rfl⟩
    exact ⟨rfl, rfl⟩
  by_cases happends : call.Appends s.Free (s.map call.key)
  · have hplan := hbehind.1 happends
    have hidx' : image.plan.idx = s.idx := hidx
    have hdat' : image.plan.dat = s.dat := hdat
    rw [apply, if_pos happends]
    refine ⟨image', hbinds', fun keylen datlen => ?_, ?_, ?_⟩
    · rw [image'.plan_eq hplan, Plan.places_append image.shape_idx]
      have hnew : image.plan.idx ∉ image.plan.places keylen datlen := by
        rintro ⟨datoff, ho⟩
        cases image.shape_idx.symm.trans ho
      dsimp only
      rw [append_records]
      split
      · rw [Set.ncard_insert_of_notMem hnew image.places_finite, hrecords]
      · exact hrecords keylen datlen
    · rw [(hlengths hplan).1, Plan.append, hidx', hdat']
      rfl
    · rw [(hlengths hplan).2, Plan.append, hdat']
      rfl
  · have hplan := hbehind.2 happends
    rw [apply, if_neg happends]
    refine ⟨image', hbinds', fun keylen datlen => ?_, ?_, ?_⟩
    · rw [image'.plan_eq hplan, hrecords]
    · exact (hlengths hplan).1.trans hidx
    · exact (hlengths hplan).2.trans hdat

theorem Space.map_foldl (s : Space) (calls : List Call) :
    (calls.foldl Space.apply s).map = (replay s.map calls).2 := by
  induction calls generalizing s with
  | nil => rfl
  | cons call calls ih => exact ih (s.apply call)

theorem Space.Of.session (hfuel : PTR_MAX < fuel) {calls : List Call}
    (hcalls : ∀ call ∈ calls, call.OnText) (happend : db.append = false) {g : Ghost Unit}
    (hsound : g.Sound) (hview : g.view () = View.idle) {s : Space} (hof : s.Of g.world)
    (hmap : g.map = s.map) {results : List Result} {db' : Option DB} {w' : World Unit}
    (hsession : session fuel (some db) calls g.world = .ok (results, db', w')) :
    (calls.foldl Space.apply s).Of w' := by
  induction calls generalizing db g s results with
  | nil =>
      cases hsession
      exact hof
  | cons call calls ih =>
      obtain ⟨prog, hprog⟩ := call.exists_prog fuel db
      have hcall := hcalls call List.mem_cons_self
      obtain ⟨hdone, -⟩ := exec_call hfuel hcall happend hprog hsound hview
      rw [Db.session, hprog] at hsession
      dsimp only at hsession
      cases hexec : exec prog g.world with
      | error reason =>
          rw [hexec] at hsession
          cases hsession
      | ok a =>
          obtain ⟨⟨result, db₁⟩, w₁⟩ := a
          rw [hexec] at hsession
          obtain ⟨g₁, hsound₁, rfl, hview₁, happly, db₁, rfl, happend₁⟩ :=
            hdone result db₁ w₁ hexec
          have hmap₁ : g₁.map = (s.apply call).map := by
            rw [hmap] at happly
            exact (congrArg Prod.snd happly).symm
          have himage := g₁.exists_image hsound₁ fun _ => hview₁
          rw [hmap₁] at himage
          have hof₁ := hof.step hcall happend hprog hexec himage
          dsimp only at hsession
          cases hrest : Db.session fuel (some db₁) calls g₁.world with
          | error reason =>
              rw [hrest] at hsession
              cases hsession
          | ok b =>
              obtain ⟨results₁, db₂, w₂⟩ := b
              rw [hrest] at hsession
              cases hsession
              exact ih (fun c hc => hcalls c (List.mem_cons_of_mem _ hc)) happend₁ hsound₁ hview₁
                hof₁ hmap₁ hrest

theorem Image.space_of {map : Bindings} (image : Image (w.content .idx) (w.content .dat))
    (hbinds : image.Binds map) :
    Space.Of ⟨map, fun keylen datlen => (image.plan.places keylen datlen).ncard,
      (w.content .idx).length, (w.content .dat).length⟩ w :=
  ⟨image, hbinds, fun _ _ => rfl, rfl, rfl⟩

end Calls

/-- Whatever calls have run side by side and have all returned: the calls of a process that goes
on alone make of the lengths of the files, and of the records in them, what they make of the
pool. -/
theorem session_refines_space {Pid : Type} [DecidableEq Pid] {fuel : Nat} (hfuel : PTR_MAX < fuel)
    {s t : State Pid} (hs : s.New) {events : List (Event Pid)}
    (hrun : (State.system Pid fuel).Run s events t) (hevents : ∀ event ∈ events, event.call.OnText)
    (hidle : ∀ p, ∃ db, t.proc p = .idle db) :
    ∃ space : Space, space.Of t.world.alone ∧ ∀ db calls results db' w', db.append = false →
      (∀ call ∈ calls, call.OnText) →
      session fuel (some db) calls t.world.alone = .ok (results, db', w') →
      (calls.foldl Space.apply space).Of w' := by
  obtain ⟨g, hsound, hworld, hstands, -⟩ := hs.exists_ghost_run hfuel hrun hevents
  have hview : ∀ p, g.view p = View.idle := by
    intro p
    obtain ⟨db, hproc⟩ := hidle p
    have hp := hstands p
    rw [hproc] at hp
    exact hp.1
  rw [← hworld]
  obtain ⟨image, hbinds⟩ := g.exists_image hsound hview
  obtain ⟨g', hsound', hworld', hmap', hview'⟩ :=
    Image.exists_ghost (w := g.world.alone) image hbinds fun _ _ _ => rfl
  obtain ⟨space, hof, hmap⟩ : ∃ space : Space, space.Of g.world.alone ∧ space.map = g.map :=
    ⟨_, Image.space_of (w := g.world.alone) image hbinds, rfl⟩
  refine ⟨space, hof, fun db calls results db' w' happend hcalls hsession => ?_⟩
  rw [← hworld'] at hof hsession
  exact hof.session hfuel hcalls happend hsound' (hview' ()) (hmap'.trans hmap.symm) hsession

/-- A database with one key. -/
theorem session_refines_space_ab : ∃ (w : World Unit) (space : Space), space.Of w.alone ∧
    ∀ db calls results db' w', db.append = false → (∀ call ∈ calls, call.OnText) →
      session 1000000 (some db) calls w.alone = .ok (results, db', w') →
      (calls.foldl Space.apply space).Of w' := by
  have hshort : short [.store [97, 98] [120] DB_INSERT] := by decide +kernel
  obtain ⟨results, db, w, hsession, -⟩ := exists_short hshort
  obtain ⟨events, hrun, hevents⟩ := State.exists_run_session hsession
  refine ⟨w, session_refines_space (by decide) State.fresh_new hrun (fun event hevent => ?_)
    fun _ => ⟨_, rfl⟩⟩
  rw [List.mem_singleton.mp (hevents event hevent)]
  decide

end ApueCourse.Db
