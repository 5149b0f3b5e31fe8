import ApueCourse.Db.Update

/-! What `db_store` makes of the chain of its key. -/

namespace ApueCourse.Db

open Memory Function Program

variable {Pid : Type} [DecidableEq Pid] {p : Pid} {call : Call} {v : View}

/-- What a call to `db_store` has to go by: C strings, and data that is not too long. -/
structure Storable (key data : List Byte) : Prop where
  nul : 0 ∉ key
  datnul : 0 ∉ data
  datlen : (data.length : Int) + 1 ≤ DATLEN_MAX

/-- A handle for one process's own use, set to a chain. -/
structure DB.On (db : DB) (c : Slot) : Prop where
  able : db.Able
  chainoff : db.chainoff = (c.off : Nat)

theorem does_fileSize {file : FileId} {post : Nat → View → Prop}
    (hop : Makes p call v (.size file) post) : Does p call v (fileSize file) post :=
  .sys hop fun _ _ h => .ret h

/-- The data is appended to its file. -/
theorem does_appendData {db : DB} (hable : db.Able) {key data : List Byte}
    {flag : Int} (hcall : call = .store key data flag) (hdat : v.dat = none)
    (hspare : v.spare = none) (hlacks : v.Lacks key) (hstop : v.MayStop call) :
    Does p call v (_db_writedat db data 0 .end) fun db' v' =>
      ∃ off : Nat, v' = { v with spare := some (off, data) } ∧
        ∃ pos, db' = { db with datoff := off, datlen := data.length + 1, datpos := pos } := by
  apply Does.wellFormed
  intro hwf
  have hlen := hwf.datlen hdat
  rw [_db_writedat]
  refine Does.bind (does_writew_lock hable (makes_lockDat .write)) ?_
  rintro ⟨⟩ v₁ ⟨n, hv₁⟩
  have hv₁_dat : v₁.dat = some .write := by
    rw [hv₁]
  refine Does.bind (does_fileSize (makes_sizeDat (hv₁_dat ▸ Option.some_ne_none _))) ?_
  rintro size v₂ ⟨rfl, hv₂⟩
  rw [hv₂, writeData]
  dsimp only
  rw [Prog.bind_assoc]
  refine Does.bind (does_write ⟨hable.readable, hable.writable, hable.append⟩
    (makes_appendData hcall hv₁_dat ?_ ?_)) ?_
  · rw [hv₁]
    exact hspare
  · rw [hv₁]
    exact hlacks
  rintro (_ | pos) v₃ (⟨hdone, hwrite⟩ | ⟨hdone, hv₃⟩)
  · cases hdone
  · refine .stop (by simp) (hstop.congr ?_ ?_ ?_ ?_)
    · rw [hv₃, hv₁]
    · rw [hv₃, hv₁]
    · rw [hv₃, hv₁]
    · rw [hv₃, hv₁]
  · obtain ⟨m, hv₃⟩ := hwrite
    dsimp only
    rw [Prog.pure_eq, Prog.ret_bind]
    refine Does.bind (does_un_lock makes_unlockDat) ?_
    rintro ⟨⟩ v₄ hv₄
    refine .ret ⟨v₁.datlen, ?_, pos, rfl⟩
    rw [hv₄, hv₃, hv₁, ← hdat, ← hlen]
  · cases hdone

/-- The index record is appended to its file. -/
theorem does_appendRec {db : DB} (hable : db.Able) {key data : List Byte}
    {flag : Int} (hcall : call = .store key data flag) (hstorable : Storable key data)
    (htail : v.tail = none) {off n : Nat} (hspare : v.spare = some (off, data))
    (hoff : db.datoff = off) (hlen : db.datlen = data.length + 1) (hlacks : v.Lacks key)
    (hstop : v.MayStop call) :
    Does p call v (_db_writeidx db key 0 .end n) fun db' v' =>
      ∃ o, o ≠ 0 ∧ (∀ i, v.mem i o = none) ∧
        v' = { v with hand := update v.hand o (some ⟨n, key, off, data⟩), spare := none } ∧
        db'.idxoff = o ∧ db'.Able ∧ db'.chainoff = db.chainoff := by
  apply Does.wellFormed
  intro hwf
  have hidxlen := hwf.idxlen htail
  obtain ⟨r, hr⟩ : ∃ r : Rec, r = ⟨n, key, off, data⟩ := ⟨_, rfl⟩
  have htext : idxText key db.datoff db.datlen = r.text := by
    rw [hr, Rec.text, hoff, hlen]
    rfl
  rw [_db_writeidx]
  dsimp only
  rw [htext]
  split
  · exact .stop (by simp) hstop
  · split
    · exact .stop (by simp) hstop
    · split
      · exact .stop (by simp) hstop
      · rename_i hptr _ hlength
        have hn : (n : Int) ≤ PTR_MAX := by
          omega
        have hfits : r.Fits := by
          subst hr
          refine ⟨hn, hstorable.nul, by omega, by omega, ?_, hstorable.datnul⟩
          rw [Rec.datlen]
          exact_mod_cast hstorable.datlen
        have hable' : DB.Able { db with ptrval := n, idxbuf := r.text } :=
          ⟨hable.readable, hable.writable, hable.append⟩
        refine Does.bind (does_writew_lock hable' (makes_lockTail .write)) ?_
        rintro ⟨⟩ v₁ ⟨m, hv₁⟩
        have hv₁_tail : v₁.tail = some .write := by
          rw [hv₁]
        refine Does.bind (does_fileSize (makes_sizeIdx (hv₁_tail ▸ Option.some_ne_none _))) ?_
        rintro size v₂ ⟨rfl, hv₂⟩
        rw [hv₂, writeIndex]
        dsimp only
        rw [Prog.bind_assoc]
        have hbytes : sprintfWidth PTR_SZ n ++ sprintfWidth IDXLEN_SZ r.text.length ++ r.text =
            r.bytes := by
          rw [Rec.bytes, Rec.head, hr]
        rw [hbytes]
        refine Does.bind (does_write ⟨hable.readable, hable.writable, hable.append⟩
          (@makes_appendRec _ _ p call v₁ r flag ?_ hv₁_tail ?_ hfits ?_)) ?_
        · rw [hr, hcall]
        · rw [hv₁, hr]
          exact hspare
        · rw [hv₁, hr]
          exact hlacks
        rintro (_ | pos) v₃ (⟨hdone, hwrite⟩ | ⟨hdone, hv₃⟩)
        · cases hdone
        · refine .stop (by simp) (hstop.congr ?_ ?_ ?_ ?_)
          · rw [hv₃, hv₁]
          · rw [hv₃, hv₁]
          · rw [hv₃, hv₁]
          · rw [hv₃, hv₁]
        · obtain ⟨hne, hmem, m', hv₃⟩ := hwrite
          dsimp only
          rw [Prog.pure_eq, Prog.ret_bind]
          refine Does.bind (does_un_lock makes_unlockTail) ?_
          rintro ⟨⟩ v₄ hv₄
          refine .ret ⟨v₁.idxlen, hne, ?_, ?_, rfl,
            ⟨hable.readable, hable.writable, hable.append⟩, rfl⟩
          · rw [hv₁] at hmem ⊢
            exact hmem
          · rw [hv₄, hv₃, hv₁, ← htail, ← hidxlen, hr]
        · cases hdone

/-- A new record is at the front of the chain. -/
def View.Pushed (v : View) (c : Slot) (key data : List Byte) (v' : View) : Prop :=
  ∃ o r, o ≠ 0 ∧ v.mem c o = none ∧ r.key = key ∧ r.data = data ∧ r.ptr = v.head c ∧
    v' = { v with head := update v.head c o, mem := update v.mem c (update (v.mem c) o (some r)) }

/-- The record in the hand of the process goes to the front of its chain. -/
theorem does_push {db : DB} {key data : List Byte} (hdb : db.On (slotOf key)) {o n off : Nat}
    (hlock : v.lock (slotOf key) = some .write) (hhand : v.hand = fun _ => none)
    (hn : n = v.head (slotOf key)) (ho : o ≠ 0) (hidxoff : db.idxoff = o)
    (hstop : v.MayStop call) :
    Does p call { v with hand := update v.hand o (some ⟨n, key, off, data⟩) }
      (_db_writeptr db db.chainoff db.idxoff) fun db' v' =>
        v.Pushed (slotOf key) key data v' ∧ db'.On (slotOf key) := by
  apply Does.wellFormed
  intro hwf
  obtain ⟨r, hr⟩ : ∃ r : Rec, r = ⟨n, key, off, data⟩ := ⟨_, rfl⟩
  obtain ⟨u, hu⟩ : ∃ u : View, u = { v with hand := update v.hand o (some r) } := ⟨_, rfl⟩
  rw [← hr, ← hu] at hwf ⊢
  have hu_hand : u.hand o = some r := by
    rw [hu]
    exact update_self ..
  have hu_mem : u.mem = v.mem := hu ▸ rfl
  have hmem : v.mem (slotOf key) o = none := by
    rw [← hu_mem]
    by_contra hne
    have hnone := hwf.hand hne
    rw [hu_hand] at hnone
    cases hnone
  have hgive : u.Relabel (u.give (slotOf key) o r) := by
    refine .give hu_hand (by rw [hu]; exact hlock) ?_
    rw [if_neg (slotOf_ne_free key), hr]
  rw [hdb.chainoff, hidxoff]
  have hstop' : u.MayStop call := hu ▸ hstop.congr rfl rfl rfl rfl
  refine (does_writeHead hdb.able hgive (by rw [hu]; exact hlock) fun _ => hstop').mono ?_
  rintro db' v' ⟨hv', pos, hdb'⟩
  have hdb'_on : db'.On (slotOf key) := by
    rw [hdb']
    exact ⟨⟨hdb.able.readable, hdb.able.writable, hdb.able.append⟩, hdb.chainoff⟩
  refine ⟨⟨o, r, ho, hmem, hr ▸ rfl, hr ▸ rfl, hr ▸ hn, ?_⟩, hdb'_on⟩
  rw [hv', View.give, hu]
  dsimp only
  rw [update_idem, hhand]
  congr 1
  exact update_eq_self o (fun _ => none)

/-- A process with the chain of a key for writing, and nothing else. -/
structure View.Storing (v : View) (key : List Byte) : Prop where
  lock : v.lock (slotOf key) = some .write
  free : v.lock freeSlot = none
  tail : v.tail = none
  dat : v.dat = none
  hand : v.hand = fun _ => none
  spare : v.spare = none

theorem does_storeAppend {db : DB} {key data : List Byte} (hdb : db.On (slotOf key))
    {flag : Int} (hcall : call = .store key data flag) (hstorable : Storable key data)
    (hstoring : v.Storing key) (hlacks : v.Lacks key) (hstop : v.MayStop call) :
    Does p call v (storeAppend db key data (v.head (slotOf key))) fun db' v' =>
      v.Pushed (slotOf key) key data v' ∧ db'.On (slotOf key) := by
  rw [storeAppend]
  refine Does.bind (does_appendData hdb.able hcall hstoring.dat hstoring.spare hlacks hstop) ?_
  rintro db₁ v₁ ⟨off, hv₁, pos, hdb₁⟩
  have hlacks₁ : v₁.Lacks key := by
    rw [hv₁]
    exact hlacks
  refine Does.bind (@does_appendRec _ _ p call v₁ db₁ ?_ _ _ _ hcall hstorable ?_ off
    (v.head (slotOf key)) ?_ ?_ ?_ hlacks₁ ?_) ?_
  · rw [hdb₁]
    exact ⟨hdb.able.readable, hdb.able.writable, hdb.able.append⟩
  · rw [hv₁]
    exact hstoring.tail
  · rw [hv₁]
  · rw [hdb₁]
  · rw [hdb₁]
  · rw [hv₁]
    exact hstop.congr rfl rfl rfl rfl
  rintro db₂ v₂ ⟨o, ho, hmem, hv₂, hidxoff, hable₂, hchain₂⟩
  have hdb₂ : db₂.On (slotOf key) := by
    refine ⟨hable₂, ?_⟩
    rw [hchain₂, hdb₁]
    exact hdb.chainoff
  have hv₂' : v₂ = { v with
      hand := update v.hand o (some ⟨v.head (slotOf key), key, off, data⟩) } := by
    rw [hv₂, hv₁, ← hstoring.spare]
  rw [hv₂']
  exact does_push hdb₂ hstoring.lock hstoring.hand rfl ho hidxoff hstop

theorem View.Lacks.hand {key : List Byte} (hlacks : v.Lacks key) (hhand : v.hand = fun _ => none)
    {o : Nat} {r : Rec} (hblank : Blank r.key) :
    View.Lacks { v with hand := update v.hand o (some r) } key := by
  refine ⟨hlacks.1, fun hkey o' r' hr' => ?_⟩
  rcases hr' with hmem | hr'
  · exact hlacks.2 hkey o' r' (.inl hmem)
  · dsimp only at hr'
    rcases eq_or_ne o' o with rfl | hne
    · rw [update_self] at hr'
      cases hr'
      rintro rfl
      exact hkey hblank
    · rw [update_of_ne hne, hhand] at hr'
      cases hr'

theorem does_storeReuse {db : DB} {key data : List Byte} (hdb : db.On (slotOf key))
    {flag : Int} (hcall : call = .store key data flag) (hstorable : Storable key data)
    (hstoring : v.Storing key) (hlacks : v.Lacks key) {o : Nat} {r : Rec} (ho : o ≠ 0)
    (hon : db.OnRec o r) (hfits : r.Fits) (hblank : Blank r.key)
    (hkeylen : r.key.length = key.length) (hdatlen : r.data.length = data.length)
    (hhead : (v.head (slotOf key) : Int) ≤ PTR_MAX) (hstop : v.MayStop call) :
    Does p call { v with hand := update v.hand o (some r) }
      (storeReuse db key data (v.head (slotOf key))) fun db' v' =>
        v.Pushed (slotOf key) key data v' ∧ db'.On (slotOf key) := by
  obtain ⟨u, hu⟩ : ∃ u : View, u = { v with hand := update v.hand o (some r) } := ⟨_, rfl⟩
  have hu_hand : u.hand o = some r := by
    rw [hu]
    exact update_self ..
  have hu_lacks : u.Lacks key := by
    rw [hu]
    exact hlacks.hand hstoring.hand hblank
  rw [← hu, storeReuse, hon.datoff]
  have hkind : u.DataKind o r data call := by
    rw [hcall]
    exact .reuse hu_hand hblank hu_lacks
  refine Does.bind (does_setData hdb.able .refl (.hand hu_hand) hdatlen.symm hstorable.datnul
    hkind) ?_
  rintro db₁ v₁ ⟨hv₁, pos₁, hdb₁⟩
  have hv₁' : v₁ = { v with hand := update v.hand o (some (r.setData data)) } := by
    rw [hv₁, hu]
    dsimp only
    rw [update_idem]
  have hv₁_hand : v₁.hand o = some (r.setData data) := by
    rw [hv₁']
    exact update_self ..
  have hv₁_lacks : v₁.Lacks key := by
    rw [hv₁']
    exact hlacks.hand hstoring.hand hblank
  obtain ⟨r', hr'⟩ : ∃ r' : Rec, r' = ⟨v.head (slotOf key), key, r.datoff, data⟩ := ⟨_, rfl⟩
  have hshape : (r.setData data).SameShape r' := by
    subst hr'
    refine ⟨?_, rfl, rfl⟩
    simp only [Rec.size, Rec.text, idxText, Rec.datlen, Rec.setData, List.length_append, hkeylen]
  have hdb₁_idxoff : db₁.idxoff = o := by
    rw [hdb₁]
    exact hon.idxoff
  have hptr : (v.head (slotOf key) : Int) = r'.ptr := by
    rw [hr']
  rw [hdb₁_idxoff, hptr]
  refine Does.bind (@does_setRecord _ _ p call v₁ db₁ ?_ o (r.setData data) r' key ?_ ?_ ?_
    hv₁_hand hshape ?_ ?_ ?_) ?_
  · rw [hdb₁]
    exact ⟨hdb.able.readable, hdb.able.writable, hdb.able.append⟩
  · rw [hr']
  · rw [hdb₁, hr']
  · rw [hdb₁, hr', Rec.datlen, hdatlen, Rec.datlen]
  · apply (hfits.setData hdatlen.symm hstorable.datnul).of_shape hshape
    · rw [hr']
      exact hhead
    · rw [hr']
      exact hstorable.nul
    · rw [hr']
      exact hstorable.datnul
  · rw [hr']
    rfl
  · subst hr'
    rw [hcall]
    exact .reuse hblank hv₁_lacks
  rintro db₂ v₂ ⟨hv₂, pos₂, hdb₂⟩
  have hon₂ : db₂.On (slotOf key) := by
    rw [hdb₂, hdb₁]
    exact ⟨⟨hdb.able.readable, hdb.able.writable, hdb.able.append⟩, hdb.chainoff⟩
  have hidxoff₂ : db₂.idxoff = o := hdb₂ ▸ rfl
  have hv₂' : v₂ = { v with
      hand := update v.hand o (some ⟨v.head (slotOf key), key, r.datoff, data⟩) } := by
    rw [hv₂, hv₁', hr']
    dsimp only
    rw [update_idem]
  rw [hv₂']
  exact does_push hon₂ hstoring.lock hstoring.hand rfl ho hidxoff₂ hstop

theorem Lists.lacks {key : List Byte} {head : Nat} {mem : Nat → Option Rec} {map : Bindings}
    {offs : List Nat} (hlists : Lists (slotOf key) head mem map offs) (hmap : map key = none)
    {o : Nat} {r : Rec} (hr : mem o = some r) : r.key ≠ key := by
  intro hkey
  have hsome := (hlists.map rfl).mpr ⟨o, r, hr, hkey, rfl⟩
  rw [hmap] at hsome
  cases hsome

/-- The chain of the key has become one for `map`. -/
def View.Became (v : View) (key : List Byte) (map : Bindings) (v' : View) : Prop :=
  ∃ head mem offs, Lists (slotOf key) head mem map offs ∧
    v' = { v with
      head := update v.head (slotOf key) head
      mem := update v.mem (slotOf key) mem }

theorem View.Became.of_update {key : List Byte} {head : Nat} {mem : Nat → Option Rec}
    {map : Bindings} {v' : View}
    (hbecame : View.Became { v with
      head := update v.head (slotOf key) head
      mem := update v.mem (slotOf key) mem } key map v') : v.Became key map v' := by
  obtain ⟨head', mem', offs, hlists, hv'⟩ := hbecame
  refine ⟨head', mem', offs, hlists, ?_⟩
  rw [hv']
  dsimp only
  rw [update_idem, update_idem]

theorem View.Pushed.became {key data : List Byte} {v' : View}
    (hpushed : v.Pushed (slotOf key) key data v') {map : Bindings} {offs : List Nat}
    (hlists : Lists (slotOf key) (v.head (slotOf key)) (v.mem (slotOf key)) map offs)
    (hclear : ∀ {o r}, v.mem (slotOf key) o = some r → SEP ∉ r.key)
    (hmap : map key = none) : v.Became key (update map key (some data)) v' := by
  obtain ⟨o, r, ho, hnone, rfl, rfl, hptr, hv'⟩ := hpushed
  have hne := slotOf_ne_free r.key
  refine ⟨o, _, o :: offs, ?_, hv'⟩
  exact hlists.cons hnone ho hptr (fun h => absurd h hne) (fun _ => rfl)
    (fun _ _ _ _ hr' => ⟨hlists.lacks hmap hr', hclear hr'⟩) fun _ _ => update_apply ..

/-- `db_store` where the key has no record. -/
theorem does_storeNew {db : DB} {key data : List Byte} (hdb : db.On (slotOf key)) {fuel : Nat}
    (hfuel : PTR_MAX < fuel) {flag : Int} (hcall : call = .store key data flag)
    (hstorable : Storable key data) (hstoring : v.Storing key) {map : Bindings}
    {offs : List Nat}
    (hlists : Lists (slotOf key) (v.head (slotOf key)) (v.mem (slotOf key)) map offs)
    (hclear : ∀ {o r}, v.mem (slotOf key) o = some r → SEP ∉ r.key) (hmap : map key = none)
    (hgiven : v.Given v.map) :
    Does p call v (storeNew fuel db key data flag) fun a v' =>
      a.2.On (slotOf key) ∧
        (flag = DB_REPLACE ∧ a.1 = -1 ∧ v' = v ∨
          flag ≠ DB_REPLACE ∧ a.1 = 0 ∧ v.Became key (update map key (some data)) v') := by
  rw [storeNew]
  split
  · rename_i hflag
    exact .ret ⟨hdb, .inl ⟨hflag, rfl, rfl⟩⟩
  · rename_i hflag
    have hlacks : v.Lacks key := by
      refine ⟨hstoring.lock, fun _ o r hr => ?_⟩
      rcases hr with hr | hr
      · exact hlists.lacks hmap hr
      · rw [hstoring.hand] at hr
        cases hr
    have hstop : v.MayStop call := .inl hgiven
    rw [hdb.chainoff]
    refine Does.bind (does_readptr (hstoring.lock ▸ Option.some_ne_none _) fun _ => hstop) ?_
    rintro ⟨ptrval, db₁⟩ v₁ ⟨heq, -, hhead, hv₁⟩
    obtain ⟨rfl, hdb₁⟩ := Prod.mk.inj heq
    have hon₁ : db₁.On (slotOf key) := by
      rw [hdb₁]
      exact ⟨⟨hdb.able.readable, hdb.able.writable, hdb.able.append⟩, hdb.chainoff⟩
    dsimp only
    rw [hv₁]
    refine Does.bind (does_findfree hon₁.able hfuel hstoring.free hstoring.hand hgiven) ?_
    rintro ⟨rc, db₂⟩ v₂ ⟨hsame, hresult⟩
    dsimp only at hsame hresult ⊢
    have hon₂ : db₂.On (slotOf key) :=
      ⟨hon₁.able.same hsame, hsame.chainoff.trans hon₁.chainoff⟩
    rcases hresult with ⟨hrc, hv₂⟩ | ⟨hrc, o, r, hv₂, ho, hle, hrec, hfits, hblank, hkeylen, hdatlen⟩
    · rw [if_pos (by omega), hv₂]
      refine Does.bind (does_storeAppend hon₂ hcall hstorable hstoring hlacks hstop) ?_
      rintro db₃ v₃ ⟨hpushed, hon₃⟩
      exact .ret ⟨hon₃, .inr ⟨hflag, rfl, hpushed.became hlists hclear hmap⟩⟩
    · rw [if_neg (by omega), hv₂]
      rw [Rec.datlen] at hdatlen
      refine Does.bind (does_storeReuse hon₂ hcall hstorable hstoring hlacks ho hrec hfits hblank
        (by exact_mod_cast hkeylen) (by omega) hhead hstop) ?_
      rintro db₃ v₃ ⟨hpushed, hon₃⟩
      exact .ret ⟨hon₃, .inr ⟨hflag, rfl, hpushed.became hlists hclear hmap⟩⟩

/-- The record of a key has gone from its chain. -/
theorem View.Given.delete (hgiven : v.Given v.map) {key : List Byte} {head : Nat}
    {mem : Nat → Option Rec} {offs : List Nat}
    (hlists : Lists (slotOf key) head mem (update v.map key none) offs) :
    View.Given { v with
      head := update v.head (slotOf key) head
      mem := update v.mem (slotOf key) mem } (update v.map key none) := by
  intro i hi
  dsimp only
  rcases eq_or_ne i (slotOf key) with rfl | hne
  · rw [update_self, update_self]
    exact ⟨offs, hlists⟩
  · rw [update_of_ne hne, update_of_ne hne]
    obtain ⟨offs', hoffs'⟩ := hgiven i hi
    refine ⟨offs', hoffs'.congr_map fun key' hkey' => update_of_ne ?_ _ _⟩
    rintro rfl
    exact hne hkey'.symm

/-- `db_store` where the key has a record. -/
theorem does_storeOld {db : DB} {key data : List Byte} (hdb : db.On (slotOf key)) {flag : Int}
    (hcall : call = .store key data flag) (hstorable : Storable key data)
    (hstoring : v.Storing key) {map : Bindings} {offs front back : List Nat} {o : Nat} {r : Rec}
    (hlists : Lists (slotOf key) (v.head (slotOf key)) (v.mem (slotOf key)) map offs)
    (hclear : ∀ {o r}, v.mem (slotOf key) o = some r → SEP ∉ r.key)
    (hfound : Found (v.mem (slotOf key)) offs front o back r) (hle : (o : Int) ≤ PTR_MAX)
    (hkey : r.key = key) (hon : db.OnRec o r)
    (hptroff : db.ptroff = ptrBehind ((slotOf key).off : Nat) front) (hgiven : v.Given v.map)
    (hmap : ∀ key', slotOf key' = slotOf key → v.map key' = map key') :
    Does p call v (storeOld db key data flag) fun a v' =>
      a.2.On (slotOf key) ∧
        (flag = DB_INSERT ∧ a.1 = 1 ∧ v' = v ∨
          flag ≠ DB_INSERT ∧ a.1 = 0 ∧ v.Became key (update map key (some data)) v') := by
  subst hkey
  have hne := slotOf_ne_free r.key
  rw [storeOld]
  split
  · rename_i hflag
    exact .ret ⟨hdb, .inl ⟨hflag, rfl, rfl⟩⟩
  · rename_i hflag
    rw [hon.datlen, Rec.datlen]
    split
    · rename_i hlength
      have hdelete : call = .delete r.key ∨ ∃ data flag, call = .store r.key data flag ∧
          r.data.length ≠ data.length :=
        .inr ⟨data, flag, hcall, fun h => hlength (by rw [← h]; exact rfl)⟩
      refine Does.bind (does_dodelete hdb.able hne hstoring.lock hstoring.free hstoring.hand
        (hfound.offs ▸ hlists.path) hfound.mem hle hfound.fits hon hptroff hdelete) ?_
      rintro db₁ v₁ ⟨head', mem', hunlinked, hv₁, hable₁, hchainoff₁⟩
      have hon₁ : db₁.On (slotOf r.key) := ⟨hable₁, hchainoff₁.trans hdb.chainoff⟩
      have hlists₁ : Lists (slotOf r.key) (v₁.head (slotOf r.key)) (v₁.mem (slotOf r.key))
          (update map r.key none) (front ++ back) := by
        rw [hv₁]
        dsimp only
        rw [update_self, update_self]
        exact (hfound.offs ▸ hlists).unlink hfound.mem hunlinked fun _ _ => update_apply ..
      have hmap₁ : update map r.key none r.key = none := update_self ..
      have hclear₁ : ∀ {o' r'}, v₁.mem (slotOf r.key) o' = some r' → SEP ∉ r'.key := by
        intro o' r' hr'
        rw [hv₁] at hr'
        dsimp only at hr'
        rw [update_self] at hr'
        obtain ⟨-, r₀, hr₀, hkey₀, -⟩ := hunlinked.exists_old hr'
        exact hkey₀ ▸ hclear hr₀
      have hstop₁ : v₁.MayStop call := by
        subst hcall
        refine .inr ⟨?_, ?_, ?_, fun key' hslot hkey' => ?_⟩
        · rw [hv₁] at hlists₁ ⊢
          dsimp only at hlists₁ ⊢
          rw [update_self, update_self] at hlists₁
          refine hgiven.delete (hlists₁.congr_map fun key' hkey' => ?_)
          rw [update_apply, update_apply, hmap key' hkey']
        · rw [hv₁]
          exact hstoring.lock
        · have hold : map r.key = some r.data := (hlists.map rfl).mpr ⟨o, r, hfound.mem, rfl, rfl⟩
          rw [hv₁]
          dsimp only [Call.key]
          rw [hmap r.key rfl, hold]
          exact ⟨hflag, fun h => hlength (by rw [← h]; exact rfl)⟩
        · rw [hv₁] at hkey'
          dsimp only at hkey'
          rw [hmap key' hslot] at hkey'
          obtain ⟨d, hd⟩ := Option.ne_none_iff_exists'.mp hkey'
          obtain ⟨o', r', hr', rfl, -⟩ := (hlists.map hslot).mp hd
          exact hclear hr'
      have hstoring₁ : v₁.Storing r.key := by
        rw [hv₁]
        exact ⟨hstoring.lock, hstoring.free, hstoring.tail, hstoring.dat, hstoring.hand,
          hstoring.spare⟩
      have hlacks₁ : v₁.Lacks r.key := by
        refine ⟨hstoring₁.lock, fun _ o r hr => ?_⟩
        rcases hr with hr | hr
        · exact hlists₁.lacks hmap₁ hr
        · rw [hstoring₁.hand] at hr
          cases hr
      rw [hon₁.chainoff]
      refine Does.bind (does_readptr (hstoring₁.lock ▸ Option.some_ne_none _) fun _ => hstop₁) ?_
      rintro ⟨ptrval, db₂⟩ v₂ ⟨heq, -, -, hv₂⟩
      obtain ⟨rfl, hdb₂⟩ := Prod.mk.inj heq
      have hon₂ : db₂.On (slotOf r.key) := by
        rw [hdb₂]
        exact ⟨⟨hable₁.readable, hable₁.writable, hable₁.append⟩, hon₁.chainoff⟩
      dsimp only
      rw [hv₂]
      refine Does.bind (does_storeAppend hon₂ hcall hstorable hstoring₁ hlacks₁ hstop₁) ?_
      rintro db₃ v₃ ⟨hpushed, hon₃⟩
      refine .ret ⟨hon₃, .inr ⟨hflag, rfl, ?_⟩⟩
      have hbecame := hpushed.became hlists₁ hclear₁ hmap₁
      rw [update_idem, hv₁] at hbecame
      exact hbecame.of_update
    · rename_i hlength
      have hd : data.length = r.data.length := by
        omega
      have hkind : v.DataKind o r data call := by
        rw [hcall]
        exact .replace hstoring.lock hfound.mem
      rw [hon.datoff]
      refine Does.bind (does_setData hdb.able .refl (.list hstoring.lock hfound.mem) hd
        hstorable.datnul hkind) ?_
      rintro db₁ v₁ ⟨hv₁, pos₁, hdb₁⟩
      have hon₁ : db₁.On (slotOf r.key) := by
        rw [hdb₁]
        exact ⟨⟨hdb.able.readable, hdb.able.writable, hdb.able.append⟩, hdb.chainoff⟩
      refine .ret ⟨hon₁, .inr ⟨hflag, rfl, ?_⟩⟩
      have hlists₁ : Lists (slotOf r.key) (v.head (slotOf r.key))
          (update (v.mem (slotOf r.key)) o (some (r.setData data)))
          (update map r.key (some data)) offs :=
        hlists.setData hfound.mem data fun _ _ => update_apply ..
      refine ⟨_, _, offs, hlists₁, ?_⟩
      rw [hv₁, update_eq_self]

end ApueCourse.Db
