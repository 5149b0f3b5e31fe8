import ApueCourse.Db.Abort

/-! `db_rewind`, then `db_nextrec` up to the end, by a process that is alone with the files. -/

namespace ApueCourse.Db

open Memory Function Program Transition

instance (key : List Byte) : Decidable (Blank key) :=
  inferInstanceAs (Decidable (∀ c ∈ key, c = SPACE))

theorem all_space_iff {key : List Byte} : key.all (· = SPACE) = true ↔ Blank key := by
  simp only [List.all_eq_true, decide_eq_true_eq, Blank]

/-- `db_nextrec` until it returns `NULL`, with the pairs that it has returned. -/
def nextrecs (fuel : Nat) : Nat → DB → P (List (List Byte × List Byte))
  | 0, _ => .stop .spin
  | rounds + 1, db => do
      let (record, db) ← db_nextrec fuel db
      match record with
      | none => return []
      | some pair => do
          let pairs ← nextrecs fuel rounds db
          return pair :: pairs

def scan (fuel : Nat) (db : DB) : P (List (List Byte × List Byte)) :=
  nextrecs fuel fuel (db_rewind db)

/-- The pairs of the records at the offsets, without those that are blank. -/
def shown (recs : Nat → Option Rec) : List Nat → List (List Byte × List Byte)
  | [] => []
  | o :: rest =>
      match recs o with
      | none => shown recs rest
      | some r => if Blank r.key then shown recs rest else (r.key, r.data) :: shown recs rest

theorem length_shown (recs : Nat → Option Rec) (offs : List Nat) :
    (shown recs offs).length ≤ offs.length := by
  induction offs with
  | nil => exact le_rfl
  | cons o rest ih =>
      rw [shown, List.length_cons]
      split
      · omega
      · split
        · omega
        · rw [List.length_cons]
          omega

theorem mem_shown {recs : Nat → Option Rec} {offs : List Nat} {o : Nat} {r : Rec}
    (ho : o ∈ offs) (hr : recs o = some r) (hkey : ¬ Blank r.key) :
    (r.key, r.data) ∈ shown recs offs := by
  induction offs with
  | nil => cases ho
  | cons o' rest ih =>
      rw [shown]
      rcases List.mem_cons.mp ho with rfl | hrest
      · rw [hr]
        dsimp only
        rw [if_neg hkey]
        exact List.mem_cons_self
      · cases recs o' with
        | none => exact ih hrest
        | some r' =>
            dsimp only
            split
            · exact ih hrest
            · exact List.mem_cons_of_mem _ (ih hrest)

theorem not_blank_of_mem_shown {recs : Nat → Option Rec} {offs : List Nat}
    {pair : List Byte × List Byte} (hpair : pair ∈ shown recs offs) : ¬ Blank pair.1 := by
  induction offs with
  | nil => cases hpair
  | cons o rest ih =>
      rw [shown] at hpair
      split at hpair
      · exact ih hpair
      · split at hpair
        · exact ih hpair
        · rcases List.mem_cons.mp hpair with rfl | hrest
          · assumption
          · exact ih hrest

theorem Tiles.length_le {recs : Nat → Option Rec} {n finish : Nat} {offs : List Nat}
    (htiles : Tiles recs n offs finish) : n + offs.length ≤ finish := by
  induction offs generalizing n with
  | nil => exact htiles.le
  | cons o rest ih =>
      obtain ⟨rfl, r, -, hrest⟩ := htiles
      have hle := ih hrest
      rw [Rec.size, PTR_SZ] at hle
      rw [List.length_cons]
      omega

section Exec

variable {Pid : Type} {w : World Unit} {db : DB} {head : Slot → Nat} {recs : Nat → Option Rec}
  {spare : Pid → Option (Nat × List Byte)} {offs : List Nat} {n fuel : Nat}

/-- The loop comes to the first record that is not blank, with the others behind it, or to the
end. -/
theorem exec_nextrecLoop (hlayout : Layout (w.content .idx) (w.content .dat) head recs spare)
    (hclear : ∀ o r, recs o = some r → SEP ∉ r.key)
    (htiles : Tiles recs n offs (w.content .idx).length) (hfuel : offs.length < fuel)
    (hreadable : db.readable = true) (hpos : db.idxpos = n) :
    ∃ found db', exec (nextrecLoop fuel db) w = .ok ((found, db'), w) ∧ db'.readable = true ∧
      (found = false ∧ shown recs offs = [] ∨
        found = true ∧ ∃ o r rest, recs o = some r ∧ db'.OnRec o r ∧
          Tiles recs db'.idxpos rest (w.content .idx).length ∧
          shown recs offs = (r.key, r.data) :: shown recs rest) := by
  induction fuel generalizing db n offs with
  | zero => cases hfuel
  | succ fuel ih =>
      rw [nextrecLoop]
      cases offs with
      | nil =>
          rw [exec_bind, exec_readidx_end hreadable (hpos.trans htiles), ok_bind]
          exact ⟨false, _, rfl, hreadable, .inl ⟨rfl, rfl⟩⟩
      | cons o rest =>
          obtain ⟨rfl, r, hr, hrest⟩ := htiles
          rw [exec_bind, exec_readidx hlayout hreadable hr (.inr ⟨rfl, hpos⟩),
            if_neg (hclear n r hr), ok_bind]
          dsimp only
          rw [if_neg (by omega), (db.onRec_onto n r).idxbuf, shown, hr]
          dsimp only
          by_cases hblank : Blank r.key
          · rw [if_pos (all_space_iff.mpr hblank), if_pos hblank]
            rw [List.length_cons] at hfuel
            exact ih hrest (by omega) hreadable rfl
          · rw [if_neg (mt all_space_iff.mp hblank), if_neg hblank]
            exact ⟨true, db.onto n r, rfl, hreadable,
              .inr ⟨rfl, n, r, rest, hr, db.onRec_onto n r, hrest, rfl⟩⟩

theorem exec_nextrec (hlayout : Layout (w.content .idx) (w.content .dat) head recs spare)
    (hclear : ∀ o r, recs o = some r → SEP ∉ r.key)
    (hlocks : ∀ file byte, w.locks () file byte = none)
    (htiles : Tiles recs n offs (w.content .idx).length) (hfuel : offs.length < fuel)
    (hreadable : db.readable = true) (hpos : db.idxpos = n) :
    ∃ record db', exec (db_nextrec fuel db) w = .ok ((record, db'), w) ∧ db'.readable = true ∧
      (record = none ∧ shown recs offs = [] ∨
        ∃ pair rest, record = some pair ∧
          Tiles recs db'.idxpos rest (w.content .idx).length ∧
          shown recs offs = pair :: shown recs rest) := by
  have hgive : ∀ {α : Type} (a : α), exec (un_lock freeLock >>= fun _ => pure a)
      { w with locks := w.locks.set () freeLock (some .read) } = .ok (a, w) := by
    intro α a
    rw [exec_bind, exec_un_lock, ok_bind, unlocked_eq hlocks]
    rfl
  rw [db_nextrec, exec_bind, exec_readw_lock hreadable, ok_bind]
  dsimp only
  obtain ⟨found, db₁, hexec, hreadable₁, hresult⟩ := @exec_nextrecLoop Pid
    { w with locks := w.locks.set () freeLock (some .read) } db head recs spare offs n fuel
    (by exact hlayout) hclear (by exact htiles) hfuel hreadable hpos
  rw [exec_bind, hexec, ok_bind]
  dsimp only
  rcases hresult with ⟨rfl, hshown⟩ | ⟨rfl, o, r, rest, hr, hon, hrest, hshown⟩
  · rw [if_neg nofun, hgive]
    exact ⟨none, db₁, rfl, hreadable₁, .inl ⟨rfl, hshown⟩⟩
  · obtain ⟨db₂, hexec₂, hsame, hpos₂⟩ := @exec_readdat
      { w with locks := w.locks.set () freeLock (some .read) } db₁ Pid head recs spare o r
      (by exact hlayout) hreadable₁ hr hon
    rw [if_pos rfl, exec_bind, hexec₂, ok_bind]
    dsimp only
    rw [hgive, hon.idxbuf]
    exact ⟨_, db₂, rfl, hsame.readable.trans hreadable₁,
      .inr ⟨(r.key, r.data), rest, rfl, hpos₂ ▸ hrest, hshown⟩⟩

theorem exec_nextrecs (hlayout : Layout (w.content .idx) (w.content .dat) head recs spare)
    (hclear : ∀ o r, recs o = some r → SEP ∉ r.key)
    (hlocks : ∀ file byte, w.locks () file byte = none)
    (htiles : Tiles recs n offs (w.content .idx).length)
    (hfuel : (w.content .idx).length < fuel) {rounds : Nat}
    (hrounds : (shown recs offs).length < rounds) (hreadable : db.readable = true)
    (hpos : db.idxpos = n) :
    exec (nextrecs fuel rounds db) w = .ok (shown recs offs, w) := by
  induction rounds generalizing db n offs with
  | zero => cases hrounds
  | succ rounds ih =>
      have hlength := htiles.length_le
      have hoffs : offs.length < fuel := by omega
      obtain ⟨record, db', hexec, hreadable', hresult⟩ :=
        exec_nextrec hlayout hclear hlocks htiles hoffs hreadable hpos
      rw [nextrecs, exec_bind, hexec, ok_bind]
      dsimp only
      rcases hresult with ⟨rfl, hshown⟩ | ⟨pair, rest, rfl, hrest, hshown⟩
      · rw [hshown]
        rfl
      · rw [hshown, List.length_cons] at hrounds
        rw [hshown, exec_bind, ih hrest (by omega) hreadable' rfl, ok_bind]
        rfl

end Exec

variable {Pid : Type} [DecidableEq Pid] {g : Ghost Pid}

/-- A scan shows what each key has that is not blank, and no blank key. -/
theorem Ghost.Sound.exec_scan (hs : g.Sound) (hplain : g.Plain)
    (hfree : ∀ p i, g.holds p i ≠ some .write) {fuel : Nat}
    (hfuel : (g.world.content .idx).length < fuel) {db : DB} (hreadable : db.readable = true) :
    ∃ pairs, exec (scan fuel db) g.world.alone = .ok (pairs, g.world.alone) ∧
      (∀ key data, g.map key = some data → ¬ Blank key → (key, data) ∈ pairs) ∧
      ∀ pair ∈ pairs, ¬ Blank pair.1 := by
  obtain ⟨offs, htiles, hmem⟩ := hs.layout.exists_tiles (hs.layout.first.imp_left Eq.symm)
  have hlength := htiles.length_le
  have hshown := length_shown g.recs offs
  refine ⟨shown g.recs offs, ?_, fun key data hdata hkey => ?_,
    fun _ => not_blank_of_mem_shown⟩
  · exact exec_nextrecs (by exact hs.layout) hplain (fun _ _ => rfl) (by exact htiles)
      (by exact hfuel) (by omega) hreadable rfl
  · obtain ⟨mem, _, hin, hlists⟩ := hs.chain hfree (slotOf key)
    obtain ⟨o, r, hr, rfl, rfl⟩ := (hlists.map rfl).mp hdata
    have hr' := hin hr
    have ho := (hmem o).mpr ⟨hs.layout.start hr', hr' ▸ Option.some_ne_none r⟩
    exact mem_shown ho hr' hkey

end ApueCourse.Db
