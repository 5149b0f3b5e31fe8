import ApueCourse.Db.Store

/-! Each call on a key does to the data of the keys what it does to a map, at its last system
call. -/

namespace ApueCourse.Db

open Memory Function Program

/-- What a process knows that has no lock. -/
def View.idle : View where
  lock _ := none
  tail := none
  dat := none
  head _ := 0
  mem _ _ := none
  hand _ := none
  spare := none
  map _ := none
  idxlen := 0
  datlen := 0

theorem View.idle_unlockSlot (i : Slot) (mode : LockMode) (head : Nat) (mem : Nat → Option Rec)
    (map : Bindings) : (View.idle.lockSlot i mode head mem map).unlockSlot i = View.idle := by
  rw [unlockSlot, lockSlot, idle]
  congr 1
  · dsimp only
    rw [update_idem]
    exact update_eq_self i _
  · dsimp only
    rw [update_idem]
    exact update_eq_self i _
  · dsimp only
    rw [update_idem]
    exact update_eq_self i _
  · funext key
    dsimp only
    split <;> rfl

theorem View.idle_storing (key : List Byte) (head : Nat) (mem : Nat → Option Rec)
    (map : Bindings) : (View.idle.lockSlot (slotOf key) .write head mem map).Storing key where
  lock := update_self ..
  free := update_of_ne (slotOf_ne_free key).symm (some .write) _
  tail := rfl
  dat := rfl
  hand := rfl
  spare := rfl

theorem View.Became.idle {key : List Byte} {mode : LockMode} {head : Nat}
    {mem : Nat → Option Rec} {map map' : Bindings} {v : View}
    (hbecame : (View.idle.lockSlot (slotOf key) mode head mem map).Became key map' v) :
    ∃ head mem offs, Lists (slotOf key) head mem map' offs ∧
      v = View.idle.lockSlot (slotOf key) mode head mem map := by
  obtain ⟨head', mem', offs, hlists, hv⟩ := hbecame
  refine ⟨head', mem', offs, hlists, ?_⟩
  rw [hv, lockSlot_head, lockSlot_mem, update_idem, update_idem]
  rfl

section Calls

variable {Pid : Type} [DecidableEq Pid] {p : Pid} {call : Call} {v : View} {α β : Type}

/-- The call has come to its end: its result and the data of the keys are those of the map, the
process has no lock, and if it has looked for the key it can read. -/
structure Done (p : Pid) (call : Call) (a : Result × Option DB) (x : Bindings) (s : Ghost Pid) :
    Prop where
  result : a.1 = (call.apply x).1
  map : s.map = (call.apply x).2
  view : s.view p = View.idle
  handle : ∃ db, a.2 = some db ∧ db.append = false ∧ (a.1 ≠ .code (-1) → db.readable = true)

theorem Does.plays {prog : P α} {f : α → P β} {middle : α → View → Prop} {s : Ghost Pid}
    {post : β → Bindings → Ghost Pid → Prop} (hprog : Does p call (s.view p) prog middle)
    (hf : ∀ a (t : Ghost Pid), middle a (t.view p) →
      (Ghost.protocol Pid).Plays p call post (f a) t.map t) :
    (Ghost.protocol Pid).Plays p call post (prog >>= f) s.map s := by
  apply (hprog s rfl).bind
  rintro a _ t ⟨rfl, ha⟩
  exact hf a t ha

/-- The last step of a call: the lock of its chain is given back. -/
theorem plays_commit {s : Ghost Pid} {mode : LockMode} {head : Nat} {mem : Nat → Option Rec}
    {map : Bindings} {new : Option (List Byte)} {db : DB} {result : Result}
    (hview : s.view p = View.idle.lockSlot (slotOf call.key) mode head mem map)
    (hlists : mode = .write →
      ∃ offs, Lists (slotOf call.key) head mem (update map call.key new) offs)
    (hread : mode = .read → new = map call.key) (hreadable : db.readable = true)
    (happend : db.append = false) (hchainoff : db.chainoff = ((slotOf call.key).off : Nat))
    (hact : call.act (map call.key) = (result, new)) :
    (Ghost.protocol Pid).Plays p call (Done p call)
      (un_lock (chainLock db.chainoff) >>= fun _ => .ret (result, some db)) s.map s := by
  have hlock : chainLock db.chainoff = slotRange (slotOf call.key) := by
    rw [hchainoff, ← chainoff_eq, chainLock_eq]
  rw [hlock]
  refine ⟨rfl, fun t hinv hrely r w hsys => ?_⟩
  have hview' : t.view p = View.idle.lockSlot (slotOf call.key) mode head mem map :=
    hrely.trans hview
  have hholds : t.holds p (slotOf call.key) = some mode := by
    have hlocks : t.holds p = (View.idle.lockSlot (slotOf call.key) mode head mem map).lock :=
      congrArg View.lock hview'
    rw [hlocks, View.lockSlot_lock, update_self]
  have hmap : ∀ key, slotOf key = slotOf call.key → t.map key = map key := by
    intro key hkey
    have hne : t.holds p (slotOf key) ≠ none := by
      rw [hkey, hholds]
      exact Option.some_ne_none mode
    rw [← Ghost.view_map hne, hview']
    exact if_pos hkey
  have hnew : call.act (t.map call.key) = (result, new) := by
    rw [hmap call.key rfl, hact]
  have hhead : (t.view p).head (slotOf call.key) = head := by
    rw [hview', View.lockSlot_head, update_self]
  have hmem : (t.view p).mem (slotOf call.key) = mem := by
    rw [hview', View.lockSlot_mem, update_self]
  have hunlock := @exists_unlockSlot _ _ p call t (slotOf call.key) (update t.map call.key new)
    ?_ ?_ ?_
  · cases hsys with
    | unlock =>
        obtain ⟨t', hworld, hturn, hmap', hidle⟩ := hunlock
        refine ⟨t', hworld, hturn, ?_, ?_, ?_, db, rfl, happend, fun _ => hreadable⟩
        · exact (congrArg Prod.fst hnew).symm
        · exact hmap'.trans (congrArg (fun a => update t.map call.key a.2) hnew.symm)
        · rw [hidle, hview', View.idle_unlockSlot]
  · intro hwrite
    obtain ⟨offs, hoffs⟩ := hlists (Option.some.inj (hholds.symm.trans hwrite))
    rw [hhead, hmem]
    refine ⟨offs, hoffs.congr_map fun key hkey => ?_⟩
    rw [update_apply, update_apply, hmap key hkey]
  · intro key hkey
    rcases eq_or_ne key call.key with rfl | hne
    · refine ⟨rfl, ?_⟩
      cases mode with
      | write => exact hholds
      | read =>
          rw [update_self, hmap _ rfl] at hkey
          exact absurd (hread rfl) hkey
    · exact absurd (update_of_ne hne _ _) hkey
  · intro _ o r hr
    rw [hview'] at hr
    cases hr

/-- The last step of a call that has changed nothing. -/
theorem plays_leave {s : Ghost Pid} {mode : LockMode} {head : Nat} {mem : Nat → Option Rec}
    {map : Bindings} {offs : List Nat} {db : DB} {result : Result}
    (hview : s.view p = View.idle.lockSlot (slotOf call.key) mode head mem map)
    (hlists : Lists (slotOf call.key) head mem map offs) (hreadable : db.readable = true)
    (happend : db.append = false) (hchainoff : db.chainoff = ((slotOf call.key).off : Nat))
    (hact : call.act (map call.key) = (result, map call.key)) :
    (Ghost.protocol Pid).Plays p call (Done p call)
      (un_lock (chainLock db.chainoff) >>= fun _ => .ret (result, some db)) s.map s := by
  refine plays_commit hview (fun _ => ⟨offs, ?_⟩) (fun _ => rfl) hreadable happend hchainoff hact
  rw [update_eq_self]
  exact hlists

/-- The last step of a call that has changed the chain of its key. -/
theorem plays_change {s : Ghost Pid} {head : Nat} {mem : Nat → Option Rec} {map : Bindings}
    {new : Option (List Byte)} {db : DB} {result : Result}
    (hbecame : (View.idle.lockSlot (slotOf call.key) .write head mem map).Became call.key
      (update map call.key new) (s.view p)) (hon : db.On (slotOf call.key))
    (hact : call.act (map call.key) = (result, new)) :
    (Ghost.protocol Pid).Plays p call (Done p call)
      (un_lock (chainLock db.chainoff) >>= fun _ => .ret (result, some db)) s.map s := by
  obtain ⟨head', mem', offs, hlists, hview⟩ := hbecame.idle
  exact plays_commit hview (fun _ => ⟨offs, hlists⟩) nofun hon.able.readable hon.able.append
    hon.chainoff hact

omit [DecidableEq Pid] in
theorem Searched.on {db db' : DB} (happend : db.append = false) {key : List Byte} {head : Nat}
    {mem : Nat → Option Rec} {map : Bindings} {offs : List Nat} {rc : Int}
    (hsearched : Searched db key head mem map offs rc db') (hwritable : db'.writable = true) :
    db'.On (slotOf key) :=
  ⟨⟨hsearched.readable, hwritable, hsearched.append.trans happend⟩, hsearched.chainoff⟩

omit [DecidableEq Pid] in
theorem Found.le {mem : Nat → Option Rec} {offs front back : List Nat} {o : Nat} {r : Rec}
    (hfound : Found mem offs front o back r) (hreached : Reached offs) : (o : Int) ≤ PTR_MAX := by
  apply hreached.le
  rw [hfound.offs]
  exact List.mem_append_right _ List.mem_cons_self

/-- The result of the search tells whether the key has data. -/
theorem Searched.map {db db' : DB} {key : List Byte} {head : Nat} {mem : Nat → Option Rec}
    {map : Bindings} {offs : List Nat} {rc : Int}
    (hsearched : Searched db key head mem map offs rc db') :
    rc = -1 ∧ map key = none ∨
      rc = 0 ∧ ∃ front o back r, Found mem offs front o back r ∧ r.key = key ∧ db'.OnRec o r ∧
        db'.ptroff = ptrBehind ((slotOf key).off : Nat) front ∧ map key = some r.data := by
  rcases hsearched.result with ⟨hrc, hnone⟩ | ⟨hrc, front, o, back, r, hfound, hkey, hon, hptr⟩
  · refine .inl ⟨hrc, ?_⟩
    cases hd : map key with
    | none => rfl
    | some d =>
        obtain ⟨o, r, hr, hkey, -⟩ := (hsearched.lists.map rfl).mp hd
        have ho := (hsearched.lists.mem_iff o).mpr (hr ▸ Option.some_ne_none r)
        exact absurd hkey (hnone o ho r hr)
  · refine .inr ⟨hrc, front, o, back, r, hfound, hkey, hon, hptr, ?_⟩
    exact (hsearched.lists.map rfl).mpr ⟨o, r, hfound.mem, hkey, rfl⟩

theorem plays_fetch {fuel : Nat} (hfuel : PTR_MAX < fuel) {db : DB} (happend : db.append = false)
    {key : List Byte} {s : Ghost Pid} (hview : s.view p = View.idle) :
    (Ghost.protocol Pid).Plays p (.fetch key) (Done p (.fetch key))
      (db_fetch fuel db key >>= fun a => .ret (.data a.1, some a.2)) s.map s := by
  have hnone : ∀ i, (s.view p).lock i = none := by
    intro i
    rw [hview]
    rfl
  rw [db_fetch, Prog.bind_assoc]
  apply (does_find_and_lock hfuel hnone false).plays
  rintro ⟨rc, db₁⟩ t ⟨-, head, mem, map, offs, hsearched, ht⟩
  have happend₁ := hsearched.append.trans happend
  have hlocked : t.view p = View.idle.lockSlot (slotOf key) .read head mem map := by
    rw [ht, hview]
    rfl
  have hreadable := hsearched.readable
  have hchainoff := hsearched.chainoff
  dsimp only at happend₁ hreadable hchainoff ⊢
  rcases hsearched.map with ⟨hrc, hmap⟩ | ⟨hrc, front, o, back, r, hfound, hkey, hrec, -, hmap⟩
  · dsimp only at hrc
    rw [if_pos (by omega), Prog.bind_assoc]
    exact plays_leave hlocked hsearched.lists hreadable happend₁ hchainoff
      (congrArg (fun d => (Result.data d, map key)) hmap)
  · dsimp only at hrc
    rw [if_neg (by omega), Prog.bind_assoc]
    have hknows : (t.view p).Knows o r := by
      refine .inl ⟨slotOf key, ?_, ?_⟩
      · rw [hlocked, View.lockSlot_lock, update_self]
        exact Option.some_ne_none _
      · rw [hlocked, View.lockSlot_mem, update_self]
        exact hfound.mem
    apply (does_readdat hknows hrec hfound.fits.datnul fun h => nomatch h.symm.trans hreadable).plays
    rintro ⟨data, db₂⟩ t₂ ⟨rfl, hsame, ht₂⟩
    rw [Prog.bind_assoc]
    exact plays_leave (ht₂.trans hlocked) hsearched.lists (hsame.readable.trans hreadable)
      (hsame.append.trans happend₁) (hsame.chainoff.trans hchainoff)
      (congrArg (fun d => (Result.data d, map key)) hmap)

theorem plays_delete {fuel : Nat} (hfuel : PTR_MAX < fuel) {db : DB} (happend : db.append = false)
    {key : List Byte} {s : Ghost Pid} (hview : s.view p = View.idle) :
    (Ghost.protocol Pid).Plays p (.delete key) (Done p (.delete key))
      (db_delete fuel db key >>= fun a => .ret (.code a.1, some a.2)) s.map s := by
  have hnone : ∀ i, (s.view p).lock i = none := by
    intro i
    rw [hview]
    rfl
  rw [db_delete, Prog.bind_assoc]
  apply (does_find_and_lock hfuel hnone true).plays
  rintro ⟨rc, db₁⟩ t ⟨hwritable, head, mem, map, offs, hsearched, ht⟩
  have hon := hsearched.on happend (hwritable rfl)
  have hlists := hsearched.lists
  have hlocked : t.view p = View.idle.lockSlot (slotOf key) .write head mem map := by
    rw [ht, hview]
    rfl
  dsimp only at hon ⊢
  rcases hsearched.map with ⟨hrc, hmap⟩ | ⟨hrc, front, o, back, r, hfound, hkey, hrec, hptr, hmap⟩
  · dsimp only at hrc
    rw [if_neg (by omega), Prog.bind_assoc]
    refine plays_leave hlocked hlists hon.able.readable hon.able.append hon.chainoff ?_
    rw [Call.key, hmap]
    rfl
  · dsimp only at hrc
    rw [if_pos hrc, Prog.bind_assoc]
    obtain ⟨v, hv⟩ : ∃ v, v = View.idle.lockSlot (slotOf key) .write head mem map := ⟨_, rfl⟩
    have hstoring : v.Storing key := hv ▸ View.idle_storing key head mem map
    have hmem : v.mem (slotOf key) = mem := by
      rw [hv, View.lockSlot_mem, update_self]
    have hhead : v.head (slotOf key) = head := by
      rw [hv, View.lockSlot_head, update_self]
    rw [← hmem] at hfound
    rw [← hhead, ← hmem] at hlists
    rw [← hv] at hlocked
    subst hkey
    have hdodelete := does_dodelete (p := p) hon.able (slotOf_ne_free r.key) hstoring.lock
      hstoring.free hstoring.hand (hfound.offs ▸ hlists.path) hfound.mem
      (hfound.le hsearched.reached) hfound.fits hrec hptr (.inl rfl)
    rw [← hlocked] at hdodelete
    apply hdodelete.plays
    rintro db₂ t₂ ⟨head', mem', hunlinked, ht₂, hable₂, hchainoff₂⟩
    have hon₂ : db₂.On (slotOf r.key) := ⟨hable₂, hchainoff₂.trans hon.chainoff⟩
    rw [hlocked] at hunlinked ht₂
    rw [Prog.bind_assoc]
    refine @plays_change _ _ p (.delete r.key) t₂ head mem map none db₂ _
      ⟨head', mem', front ++ back, ?_, hv ▸ ht₂⟩ hon₂ ?_
    · exact (hfound.offs ▸ hlists).unlink hfound.mem hunlinked fun _ _ => update_apply ..
    · rw [Call.key, hmap]
      rfl

theorem plays_store {fuel : Nat} (hfuel : PTR_MAX < fuel) {db : DB} (happend : db.append = false)
    {key data : List Byte} (hkey : 0 ∉ key) (hdata : 0 ∉ data) {flag : Int} {s : Ghost Pid}
    (hview : s.view p = View.idle) :
    (Ghost.protocol Pid).Plays p (.store key data flag) (Done p (.store key data flag))
      (db_store fuel db key data flag >>= fun a => .ret (.code a.1, some a.2)) s.map s := by
  have hnone : ∀ i, (s.view p).lock i = none := by
    intro i
    rw [hview]
    rfl
  rw [db_store]
  split
  · rename_i hflag
    have hact : ∀ old, (Call.store key data flag).act old = (.code (-1), old) :=
      fun old => if_pos hflag
    refine ⟨?_, ?_, hview, db, rfl, happend, absurd rfl⟩
    · rw [Call.apply, hact]
    · rw [Call.apply, hact, update_eq_self]
  · rename_i hflag
    dsimp only
    split
    · refine ⟨rfl, nofun, .inl fun i hi => ?_⟩
      cases hi.symm.trans (hnone i)
    · rename_i hlen
      have hstorable : Storable key data := ⟨hkey, hdata, by omega⟩
      have hcall : Call.store key data flag = .store key data flag := rfl
      rw [Prog.bind_assoc]
      apply (does_find_and_lock hfuel hnone true).plays
      rintro ⟨rc, db₁⟩ t ⟨hwritable, head, mem, map, offs, hsearched, ht⟩
      have hon := hsearched.on happend (hwritable rfl)
      have hlists := hsearched.lists
      have hlocked : t.view p = View.idle.lockSlot (slotOf key) .write head mem map := by
        rw [ht, hview]
        rfl
      obtain ⟨v, hv⟩ : ∃ v, v = View.idle.lockSlot (slotOf key) .write head mem map := ⟨_, rfl⟩
      have hstoring : v.Storing key := hv ▸ View.idle_storing key head mem map
      have hmem : v.mem (slotOf key) = mem := by
        rw [hv, View.lockSlot_mem, update_self]
      have hhead : v.head (slotOf key) = head := by
        rw [hv, View.lockSlot_head, update_self]
      have hgiven : v.Given v.map := by
        rw [hv]
        exact (View.given_of_unlocked fun _ h => Option.some_ne_none _ h.symm).lockSlot hsearched.lists
      have hvmap : ∀ key', slotOf key' = slotOf key → v.map key' = map key' := by
        intro key' hkey'
        rw [hv]
        exact if_pos hkey'
      have hclear : ∀ {o r}, v.mem (slotOf key) o = some r → SEP ∉ r.key :=
        fun hr => hsearched.clear (hmem ▸ hr)
      rw [← hhead, ← hmem] at hlists
      rw [← hv] at hlocked
      dsimp only at hon ⊢
      rcases hsearched.map with ⟨hrc, hmap⟩ |
        ⟨hrc, front, o, back, r, hfound, hkey, hrec, hptr, hmap⟩
      · dsimp only at hrc
        rw [if_pos (by omega), Prog.bind_assoc]
        have hnew := does_storeNew (p := p) hon hfuel hcall hstorable hstoring hlists hclear hmap
          hgiven
        rw [← hlocked] at hnew
        apply hnew.plays
        rintro ⟨rc₂, db₂⟩ t₂ ⟨hon₂, hresult⟩
        dsimp only at hon₂ hresult ⊢
        rw [Prog.bind_assoc]
        rcases hresult with ⟨hreplace, rfl, ht₂⟩ | ⟨hreplace, rfl, hbecame⟩
        · refine plays_leave (ht₂.trans (hlocked.trans hv)) hsearched.lists hon₂.able.readable
            hon₂.able.append hon₂.chainoff ?_
          rw [Call.key, hmap, Call.act, if_neg hflag, if_pos rfl, if_pos hreplace]
        · rw [hlocked, hv] at hbecame
          refine plays_change hbecame hon₂ ?_
          rw [Call.key, hmap, Call.act, if_neg hflag, if_pos rfl, if_neg hreplace]
      · dsimp only at hrc
        rw [if_neg (by omega), Prog.bind_assoc]
        rw [← hmem] at hfound
        have hold := does_storeOld (p := p) hon hcall hstorable hstoring hlists hclear hfound
          (hfound.le hsearched.reached) hkey hrec hptr hgiven hvmap
        rw [← hlocked] at hold
        apply hold.plays
        rintro ⟨rc₂, db₂⟩ t₂ ⟨hon₂, hresult⟩
        dsimp only at hon₂ hresult ⊢
        rw [Prog.bind_assoc]
        rcases hresult with ⟨hinsert, rfl, ht₂⟩ | ⟨hinsert, rfl, hbecame⟩
        · refine plays_leave (ht₂.trans (hlocked.trans hv)) hsearched.lists hon₂.able.readable
            hon₂.able.append hon₂.chainoff ?_
          rw [Call.key, hmap, Call.act, if_neg hflag, if_neg nofun, if_pos hinsert]
        · rw [hlocked, hv] at hbecame
          refine plays_change hbecame hon₂ ?_
          rw [Call.key, hmap, Call.act, if_neg hflag, if_neg nofun, if_neg hinsert]

/-- Every call on a key keeps the rules. -/
theorem plays_call {fuel : Nat} (hfuel : PTR_MAX < fuel) (hcall : call.OnText) {db : DB}
    (happend : db.append = false) {prog : P (Result × Option DB)}
    (hprog : call.prog fuel (some db) = some prog) {s : Ghost Pid}
    (hview : s.view p = View.idle) :
    (Ghost.protocol Pid).Plays p call (Done p call) prog s.map s := by
  cases call with
  | fetch key =>
      cases hprog
      exact plays_fetch hfuel happend hview
  | store key data flag =>
      cases hprog
      exact plays_store hfuel happend hcall.1 hcall.2 hview
  | delete key =>
      cases hprog
      exact plays_delete hfuel happend hview
  | «open» | rewind | nextrec => exact hcall.elim

end Calls

end ApueCourse.Db
