import ApueCourse.Db.Local

/-! The rules for programs that see only their own locks: one for each system call. -/

namespace ApueCourse.Db

open Memory Function Program

variable {Pid : Type} [DecidableEq Pid] {p : Pid} {call : Call} {v u v' : View} {α β : Type}

/-- From what the process knows the program keeps the rules and leaves the data of the keys
as they are, and where it ends `post` holds of its result and of what the process knows. -/
def Does (p : Pid) (call : Call) (v : View) (prog : P α) (post : α → View → Prop) : Prop :=
  ∀ s : Ghost Pid, s.view p = v →
    (Ghost.protocol Pid).Plays p call (fun a x s => s.map = x ∧ post a (s.view p)) prog s.map s

/-- The same for one system call. -/
def Makes (p : Pid) (call : Call) (v : View) (op : Op) (post : op.Res → View → Prop) : Prop :=
  ∀ s : Ghost Pid, s.Sound → s.view p = v → ∀ r w, World.Sys p op s.world r w →
    ∃ t, t.world = w ∧ Ghost.Turn p call op r s t ∧ t.map = s.map ∧ post r (t.view p)

namespace View

def Given (v : View) (map : Bindings) : Prop :=
  ∀ i, v.lock i = some .write → ∃ offs, Lists i (v.head i) (v.mem i) map offs

structure Rewriting (v : View) (call : Call) : Prop where
  given : v.Given (update v.map call.key none)
  lock : v.lock (slotOf call.key) = some .write
  rewrites : call.Rewrites (v.map call.key)
  clear : ∀ key, slotOf key = slotOf call.key → v.map key ≠ none → SEP ∉ key

def MayStop (v : View) (call : Call) : Prop := v.Given v.map ∨ v.Rewriting call

theorem Given.congr {map : Bindings} (hgiven : v.Given map) (hlock : u.lock = v.lock)
    (hhead : u.head = v.head) (hmem : u.mem = v.mem) : u.Given map := by
  intro i hi
  rw [hhead, hmem]
  exact hgiven i (hlock ▸ hi)

/-- Where a process may stop does not depend on what it has but for its lists. -/
theorem MayStop.congr (hstop : v.MayStop call) (hlock : u.lock = v.lock)
    (hhead : u.head = v.head) (hmem : u.mem = v.mem) (hmap : u.map = v.map) : u.MayStop call := by
  rcases hstop with hgiven | ⟨hgiven, hlocked, hrewrites, hclear⟩
  · exact .inl (hmap ▸ hgiven.congr hlock hhead hmem)
  · rw [← hmap] at hgiven hrewrites hclear
    exact .inr ⟨hgiven.congr hlock hhead hmem, hlock ▸ hlocked, hrewrites, hclear⟩

theorem given_of_unlocked (hnone : ∀ i, v.lock i ≠ some .write) : v.Given v.map :=
  fun i hi => absurd hi (hnone i)

theorem Given.lockSlot (hgiven : v.Given v.map) {i : Slot} {mode : LockMode} {head : Nat}
    {mem : Nat → Option Rec} {map : Bindings} {offs : List Nat}
    (hlists : Lists i head mem map offs) :
    (v.lockSlot i mode head mem map).Given (v.lockSlot i mode head mem map).map := by
  intro j hj
  rcases eq_or_ne j i with rfl | hne
  · refine ⟨offs, ?_⟩
    rw [lockSlot_head, lockSlot_mem, update_self, update_self]
    exact hlists.congr_map fun key hkey => if_pos hkey
  · rw [lockSlot_lock, update_of_ne hne] at hj
    obtain ⟨offs', hoffs'⟩ := hgiven j hj
    refine ⟨offs', ?_⟩
    rw [lockSlot_head, lockSlot_mem, update_of_ne hne, update_of_ne hne]
    exact hoffs'.congr_map fun key hkey => if_neg (hkey ▸ hne)

end View

theorem Ghost.given_of_view {s : Ghost Pid} {map map' : Bindings} (hgiven : (s.view p).Given map)
    (hmap : ∀ key, s.holds p (slotOf key) = some .write → map' key = map key) :
    s.Given p map' := by
  intro i hi
  have hne : s.holds p i ≠ none := hi ▸ Option.some_ne_none _
  obtain ⟨offs, hoffs⟩ := hgiven i hi
  rw [Ghost.view_head hne, Ghost.view_mem hne] at hoffs
  exact ⟨offs, hoffs.congr_map fun key hkey => hmap key (hkey ▸ hi)⟩

theorem Ghost.mayStop_of_view {s : Ghost Pid} (hstop : (s.view p).MayStop call) :
    s.MayStop p call := by
  have hview : ∀ key, s.holds p (slotOf key) = some .write → s.map key = (s.view p).map key := by
    intro key hkey
    exact (Ghost.view_map (hkey ▸ Option.some_ne_none _)).symm
  rcases hstop with hgiven | ⟨hgiven, hlock, hrewrites, hclear⟩
  · exact .inl (given_of_view hgiven hview)
  · refine .inr ⟨given_of_view hgiven fun key hkey => ?_, hlock, ?_, fun key hslot hkey => ?_⟩
    · rw [update_apply, update_apply, hview key hkey]
    · rw [hview call.key hlock]
      exact hrewrites
    · apply hclear key hslot
      rw [← hview key (hslot ▸ hlock)]
      exact hkey

namespace Does

theorem ret {a : α} {post : α → View → Prop} (ha : post a v) :
    Does p call v (.ret a) post := by
  rintro s rfl
  exact ⟨rfl, ha⟩

theorem stop {reason : Stop} {post : α → View → Prop} (hreason : reason ≠ .spin)
    (hstop : v.MayStop call) : Does p call v (.stop reason) post := by
  rintro s rfl
  exact ⟨rfl, hreason, Ghost.mayStop_of_view hstop⟩

theorem bind {prog : P α} {f : α → P β} {middle : α → View → Prop} {post : β → View → Prop}
    (hprog : Does p call v prog middle)
    (hf : ∀ a v', middle a v' → Does p call v' (f a) post) :
    Does p call v (prog >>= f) post := by
  intro s hs
  apply (hprog s hs).bind
  rintro a _ t ⟨rfl, ha⟩
  exact hf a _ ha t rfl

theorem mono {prog : P α} {post post' : α → View → Prop} (hprog : Does p call v prog post)
    (hpost : ∀ a v', post a v' → post' a v') : Does p call v prog post' := by
  intro s hs
  apply (hprog s hs).mono
  rintro a x t ⟨rfl, ha⟩
  exact ⟨rfl, hpost a _ ha⟩

theorem sys {op : Op} {next : op.Res → P α} {middle : op.Res → View → Prop}
    {post : α → View → Prop} (hop : Makes p call v op middle)
    (hnext : ∀ r v', middle r v' → Does p call v' (next r) post) :
    Does p call v (.call op next) post := by
  intro s hs
  refine ⟨rfl, fun t hinv hrely r w hsys => ?_⟩
  obtain ⟨t', hworld, hturn, hmap, hr⟩ := hop t hinv (hrely.trans hs) r w hsys
  refine ⟨t', hworld, hturn, ?_⟩
  have hplays := hnext r _ hr t' rfl
  rwa [hmap] at hplays

end Does

/-- A lock of a list that nobody else has for writing. -/
theorem makes_lockSlot {i : Slot} (hnone : v.lock i = none) (mode : LockMode) :
    Makes p call v (.lockw mode (slotRange i)) fun _ v' =>
      ∃ head mem map offs, Lists i head mem map offs ∧ Reached offs ∧
        v' = v.lockSlot i mode head mem map := by
  rintro s hs rfl r w hsys
  cases hsys with
  | lockw hgrants =>
      have hfresh : ∀ j : Slot, (slotRange i).Has .idx j.off → s.holds p j = none := by
        intro j hj
        rw [slotRange_has_off.mp hj]
        exact hnone
      have hfree : ∀ q, s.holds q i ≠ some .write := by
        intro q hq
        rcases eq_or_ne q p with rfl | hne
        · exact nomatch hq.symm.trans hnone
        · have hread := hgrants q hne .idx i.off (slotRange_has_off.mpr rfl) _ hq
          cases hread.2
      obtain ⟨offs, hlists⟩ := hs.lists i hfree
      refine ⟨s.setLocks p (slotRange i) (some mode), rfl,
        ⟨s, .refl, .lock hgrants hfresh⟩, rfl, _, _, _, offs, hlists, ?_,
        Ghost.view_lockSlot s p i mode⟩
      apply hlists.path.reached (hs.layout.ptr_le i)
      intro o r hr
      exact (hs.layout.fits (part_eq_some.mp hr).2).ptr

/-- A lock of a list is given back, with the data of its keys as `map` has them. -/
theorem exists_unlockSlot {s : Ghost Pid} {i : Slot} {map : List Byte → Option (List Byte)}
    (hlists : s.holds p i = some .write →
      ∃ offs, Lists i ((s.view p).head i) ((s.view p).mem i) map offs)
    (hmap : ∀ key, map key ≠ s.map key → slotOf key = i ∧ s.holds p i = some .write)
    (hhand : s.holds p i = some .write → ∀ o r, (s.view p).hand o = some r →
      i = freeSlot ∧ Blank r.key) :
    ∃ t, t.world = { s.world with locks := s.world.locks.set p (slotRange i) none } ∧
      Ghost.Turn p call (.unlock (slotRange i)) () s t ∧ t.map = map ∧
      t.view p = (s.view p).unlockSlot i := by
  refine ⟨{ s.setLocks p (slotRange i) none with map := map }, rfl,
    ⟨s, .refl, .unlock ?_ ?_ ?_⟩, rfl, ?_⟩
  · intro j hj hlock
    cases slotRange_has_off.mp hj
    have hne : s.holds p i ≠ none := hlock ▸ Option.some_ne_none _
    rw [← Ghost.view_head hne, ← Ghost.view_mem hne]
    exact hlists hlock
  · intro key hkey
    obtain ⟨rfl, hlock⟩ := hmap key hkey
    exact ⟨slotRange_has_off.mpr rfl, hlock⟩
  · intro j hj hlock o r hown hrec
    cases slotRange_has_off.mp hj
    exact hhand hlock o r (Ghost.view_hand_eq_some.mpr ⟨hown, hrec⟩)
  · apply Ghost.view_unlockSlot
    intro key hkey
    by_contra hne
    exact hkey (hmap key hne).1

theorem makes_unlockFree {offs : List Nat} (hlock : v.lock freeSlot = some .write)
    (hlists : Lists freeSlot (v.head freeSlot) (v.mem freeSlot) v.map offs)
    (hhand : ∀ o r, v.hand o = some r → Blank r.key) :
    Makes p call v (.unlock freeLock) fun _ v' => v' = v.unlockSlot freeSlot := by
  rintro s hs rfl r w hsys
  cases hsys with
  | unlock =>
      have hmap : ∀ key, slotOf key = freeSlot → s.map key = (s.view p).map key :=
        fun key hkey => absurd hkey (slotOf_ne_free key)
      exact exists_unlockSlot (fun _ => ⟨offs, hlists.congr_map hmap⟩)
        (fun _ h => absurd rfl h) fun _ o r hr => ⟨rfl, hhand o r hr⟩

theorem makes_lockTail (mode : LockMode) :
    Makes p call v (.lockw mode tailLock) fun _ v' =>
      ∃ n, v' = { v with tail := some mode, idxlen := n } := by
  rintro s hs rfl r w hsys
  cases hsys with
  | lockw hgrants =>
      refine ⟨_, rfl, ⟨s, .refl, .lock hgrants ?_⟩, rfl, _, Ghost.view_tailLock s p mode⟩
      intro i hi
      have hoff := Layout.off_lt i
      have hstart := Ghost.tailLock_has.mp hi
      rw [START] at hstart
      omega

theorem makes_unlockTail :
    Makes p call v (.unlock tailLock) fun _ v' => v' = { v with tail := none, idxlen := 0 } := by
  rintro s hs rfl r w hsys
  cases hsys with
  | unlock =>
      have hno : ∀ i : Slot, ¬ tailLock.Has .idx i.off := by
        intro i hi
        have hoff := Layout.off_lt i
        have hstart := Ghost.tailLock_has.mp hi
        rw [START] at hstart
        omega
      exact ⟨s.setLocks p tailLock none, rfl,
        ⟨s, .refl, .unlock (fun i hi => absurd hi (hno i)) (fun _ h => absurd rfl h)
          fun i hi => absurd hi (hno i)⟩, rfl, Ghost.view_tailUnlock s p⟩

theorem makes_lockDat (mode : LockMode) :
    Makes p call v (.lockw mode datLock) fun _ v' =>
      ∃ n, v' = { v with dat := some mode, datlen := n } := by
  rintro s hs rfl r w hsys
  cases hsys with
  | lockw hgrants =>
      exact ⟨_, rfl, ⟨s, .refl, .lock hgrants fun i hi => nomatch hi.1⟩, rfl, _,
        Ghost.view_datLock s p mode⟩

theorem makes_unlockDat :
    Makes p call v (.unlock datLock) fun _ v' => v' = { v with dat := none, datlen := 0 } := by
  rintro s hs rfl r w hsys
  cases hsys with
  | unlock =>
      exact ⟨s.setLocks p datLock none, rfl,
        ⟨s, .refl, .unlock (fun i hi => nomatch hi.1) (fun _ h => absurd rfl h)
          fun i hi => nomatch hi.1⟩, rfl, Ghost.view_datUnlock s p⟩

theorem makes_sizeIdx (hlock : v.tail ≠ none) :
    Makes p call v (.size .idx) fun n v' => n = v.idxlen ∧ v' = v := by
  rintro s hs rfl r w hsys
  cases hsys with
  | size => exact ⟨s, rfl, ⟨s, .refl, .size⟩, rfl, (if_neg hlock).symm, rfl⟩

theorem makes_sizeDat (hlock : v.dat ≠ none) :
    Makes p call v (.size .dat) fun n v' => n = v.datlen ∧ v' = v := by
  rintro s hs rfl r w hsys
  cases hsys with
  | size => exact ⟨s, rfl, ⟨s, .refl, .size⟩, rfl, (if_neg hlock).symm, rfl⟩

theorem makes_readPtr {i : Slot} (hlock : v.lock i ≠ none) :
    Makes p call v (.read .idx i.off PTR_SZ) fun bytes v' =>
      bytes = sprintfWidth PTR_SZ (v.head i) ∧ (v.head i : Int) ≤ PTR_MAX ∧ v' = v := by
  rintro s hs rfl r w hsys
  cases hsys with
  | read =>
      refine ⟨s, rfl, ⟨s, .refl, .read⟩, rfl, ?_, ?_, rfl⟩
      · rw [Ghost.view_head hlock]
        exact hs.layout.readptr i
      · rw [Ghost.view_head hlock]
        exact hs.layout.ptr_le i

/-- The record is on a list that the process has locked, or in its hand. -/
def View.Knows (v : View) (o : Nat) (r : Rec) : Prop :=
  (∃ i, v.lock i ≠ none ∧ v.mem i o = some r) ∨ v.hand o = some r

theorem recs_of_knows {s : Ghost Pid} {o : Nat} {r : Rec} (hknows : (s.view p).Knows o r) :
    s.recs o = some r := by
  rcases hknows with ⟨i, hlock, hmem⟩ | hhand
  · exact ((Ghost.view_mem_eq_some hlock).mp hmem).2
  · exact (Ghost.view_hand_eq_some.mp hhand).2

theorem makes_readHead {o : Nat} {r : Rec} (hknows : v.Knows o r) :
    Makes p call v (.read .idx o (PTR_SZ + IDXLEN_SZ)) fun bytes v' =>
      bytes = r.head ∧ r.Fits ∧ (r.datoff : Int) ≤ LONG_MAX ∧ v' = v := by
  rintro s hs rfl r' w hsys
  have hrec := recs_of_knows hknows
  cases hsys with
  | read =>
      refine ⟨s, rfl, ⟨s, .refl, .read⟩, rfl, hs.layout.readhead hrec, hs.layout.fits hrec, ?_,
        rfl⟩
      have hle := (hs.layout.data_le hrec).trans hs.layout.dat_le
      simp only [OFF_MAX, LONG_MAX] at hle ⊢
      omega

theorem makes_readText {o : Nat} {r : Rec} (hknows : v.Knows o r) :
    Makes p call v (.read .idx (o + (PTR_SZ + IDXLEN_SZ)) r.text.length) fun bytes v' =>
      bytes = r.text ∧ v' = v := by
  rintro s hs rfl r' w hsys
  cases hsys with
  | read =>
      exact ⟨s, rfl, ⟨s, .refl, .read⟩, rfl, hs.layout.readtext (recs_of_knows hknows), rfl⟩

theorem makes_readData {o : Nat} {r : Rec} (hknows : v.Knows o r) :
    Makes p call v (.read .dat r.datoff r.datlen) fun bytes v' =>
      bytes = r.data ++ [NEWLINE] ∧ v' = v := by
  rintro s hs rfl r' w hsys
  cases hsys with
  | read =>
      exact ⟨s, rfl, ⟨s, .refl, .read⟩, rfl, hs.layout.readdata (recs_of_knows hknows), rfl⟩

theorem makes_head {i : Slot} {n : Nat} (hlabel : v.Relabel u)
    (hlock : u.lock i = some .write) (hn : (n : Int) ≤ PTR_MAX) :
    Makes p call v (.write .idx i.off (sprintfWidth PTR_SZ n)) fun done v' =>
      done = true ∧ v' = { u with head := update u.head i n } := by
  intro s hs hview r w hsys
  obtain ⟨t, hturn, rfl, hworld, hmap⟩ := Ghost.exists_relabel hview hlabel
  rw [← hworld] at hsys
  have ht := hturn.sound hs
  have hle : i.off + (sprintfWidth PTR_SZ n).length ≤ (t.world.content .idx).length := by
    rw [Layout.length_sprintfWidth_ptr hn]
    exact (Layout.off_lt i).trans (Nat.le_of_lt ht.layout.start_le)
  cases hsys with
  | write hfits =>
      have hlock' : t.holds p i ≠ none := ne_of_eq_of_ne hlock (Option.some_ne_none _)
      refine ⟨_, rfl, ⟨t, hturn, .head hlock hn⟩, hmap, rfl, ?_⟩
      exact Ghost.view_setHead hlock' rfl rfl rfl rfl
        (Ghost.length_setContent (length_writeAt_of_le hle)) rfl rfl
  | writeTooBig hbig => exact absurd (hle.trans ht.layout.idx_le) (Nat.not_le_of_lt hbig)

theorem makes_pointer {o n : Nat} {r : Rec} (hlabel : v.Relabel u)
    (hset : u.SetRec o r (r.setPtr n) v') (hn : (n : Int) ≤ PTR_MAX) :
    Makes p call v (.write .idx o (sprintfWidth PTR_SZ n)) fun done v₁ =>
      done = true ∧ v₁ = v' := by
  intro s hs hview r₀ w hsys
  obtain ⟨t, hturn, rfl, hworld, hmap⟩ := Ghost.exists_relabel hview hlabel
  rw [← hworld] at hsys
  have ht := hturn.sound hs
  obtain ⟨hrec, hmine⟩ := Ghost.setRec_own hset
  have hle : o + (sprintfWidth PTR_SZ n).length ≤ (t.world.content .idx).length := by
    rw [Layout.length_sprintfWidth_ptr hn]
    apply le_trans _ (ht.layout.end_le hrec)
    rw [Rec.size]
    omega
  cases hsys with
  | write hfits =>
      refine ⟨_, rfl, ⟨t, hturn, .pointer hrec hmine hn⟩, hmap, rfl, ?_⟩
      exact Ghost.view_setRec hset rfl rfl rfl rfl
        (Ghost.length_setContent (length_writeAt_of_le hle)) rfl rfl
  | writeTooBig hbig => exact absurd (hle.trans ht.layout.idx_le) (Nat.not_le_of_lt hbig)

namespace View

def Lacks (v : View) (key : List Byte) : Prop :=
  v.lock (slotOf key) = some .write ∧ (¬ Blank key → ∀ o r,
    v.mem (slotOf key) o = some r ∨ v.hand o = some r → r.key ≠ key)

inductive DataKind (v : View) (o : Nat) (r : Rec) (d : List Byte) : Call → Prop
  | blank {call : Call} (hhand : v.hand o = some r) (hfree : v.lock freeSlot = some .write)
      (hcall : call = .delete r.key ∨
        ∃ data flag, call = .store r.key data flag ∧ d.length ≠ data.length) :
      DataKind v o r d call
  | reuse {key : List Byte} {flag : Int} (hhand : v.hand o = some r) (hblank : Blank r.key)
      (hlacks : v.Lacks key) : DataKind v o r d (.store key d flag)
  | replace {flag : Int} (hlock : v.lock (slotOf r.key) = some .write)
      (hmem : v.mem (slotOf r.key) o = some r) : DataKind v o r d (.store r.key d flag)

inductive RecKind (v : View) (r r' : Rec) : Call → Prop
  | blank {call : Call} (hfree : v.lock freeSlot = some .write) (hblank : Blank r'.key)
      (hcall : call = .delete r.key ∨ ∃ data flag, call = .store r.key data flag) :
      RecKind v r r' call
  | reuse {flag : Int} (hblank : Blank r.key) (hlacks : v.Lacks r'.key) :
      RecKind v r r' (.store r'.key r'.data flag)

end View

theorem lacks_of_view {s : Ghost Pid} {key : List Byte} (hlacks : (s.view p).Lacks key) :
    s.Lacks p key := by
  have hlock : s.holds p (slotOf key) = some .write := hlacks.1
  have hne : s.holds p (slotOf key) ≠ none := hlock ▸ Option.some_ne_none _
  refine ⟨hlock, fun hblank o r hown hrec => hlacks.2 hblank o r ?_⟩
  rcases hown with hlist | hhand
  · exact .inl ((Ghost.view_mem_eq_some hne).mpr ⟨hlist, hrec⟩)
  · exact .inr (Ghost.view_hand_eq_some.mpr ⟨hhand, hrec⟩)

theorem dataKind_of_view {s : Ghost Pid} {o : Nat} {r : Rec} {d : List Byte}
    (hkind : (s.view p).DataKind o r d call) : DataKind s p o r d call := by
  cases hkind with
  | blank hhand hfree hcall =>
      exact .blank (Ghost.view_hand_eq_some.mp hhand).1 hfree hcall
  | reuse hhand hblank hlacks =>
      exact .reuse (Ghost.view_hand_eq_some.mp hhand).1 hblank (lacks_of_view hlacks)
  | replace hlock hmem =>
      have hlock' : s.holds p (slotOf r.key) = some .write := hlock
      have hne : s.holds p (slotOf r.key) ≠ none := hlock' ▸ Option.some_ne_none _
      exact .replace ((Ghost.view_mem_eq_some hne).mp hmem).1 hlock'

theorem recKind_of_view {s : Ghost Pid} {r r' : Rec} (hkind : (s.view p).RecKind r r' call) :
    RecKind s p r r' call := by
  cases hkind with
  | blank hfree hblank hcall => exact .blank hfree hblank hcall
  | reuse hblank hlacks => exact .reuse hblank (lacks_of_view hlacks)

theorem makes_data {o : Nat} {r : Rec} {d : List Byte} (hlabel : v.Relabel u)
    (hset : u.SetRec o r (r.setData d) v') (hd : d.length = r.data.length) (hnul : 0 ∉ d)
    (hkind : u.DataKind o r d call) :
    Makes p call v (.write .dat r.datoff (d ++ [NEWLINE])) fun done v₁ =>
      done = true ∧ v₁ = v' := by
  intro s hs hview r₀ w hsys
  obtain ⟨t, hturn, rfl, hworld, hmap⟩ := Ghost.exists_relabel hview hlabel
  rw [← hworld] at hsys
  have ht := hturn.sound hs
  obtain ⟨hrec, hmine⟩ := Ghost.setRec_own hset
  have hle : r.datoff + (d ++ [NEWLINE]).length ≤ (t.world.content .dat).length := by
    rw [List.length_append, hd]
    exact ht.layout.data_le hrec
  cases hsys with
  | write hfits =>
      refine ⟨_, rfl, ⟨t, hturn, .data hrec hd hnul (dataKind_of_view hkind)⟩, hmap, rfl, ?_⟩
      exact Ghost.view_setRec hset rfl rfl rfl rfl
        (Ghost.length_setContent (length_writeAt_of_le hle)) rfl rfl
  | writeTooBig hbig => exact absurd (hle.trans ht.layout.dat_le) (Nat.not_le_of_lt hbig)

theorem makes_record {o : Nat} {r r' : Rec} (hhand : v.hand o = some r)
    (hshape : r.SameShape r') (hfits : r'.Fits) (hdata : r'.data = r.data)
    (hkind : v.RecKind r r' call) :
    Makes p call v (.write .idx o r'.bytes) fun done v₁ =>
      done = true ∧ v₁ = { v with hand := update v.hand o (some r') } := by
  rintro s hs rfl r₀ w hsys
  obtain ⟨hown, hrec⟩ := Ghost.view_hand_eq_some.mp hhand
  have hle : o + r'.bytes.length ≤ (s.world.content .idx).length := by
    rw [Rec.length_bytes hfits, ← hshape.size]
    exact hs.layout.end_le hrec
  cases hsys with
  | write hfile =>
      refine ⟨_, rfl, ⟨s, .refl, .record hrec hown hshape hfits hdata (recKind_of_view hkind)⟩,
        rfl, rfl, ?_⟩
      exact Ghost.view_setRec (.hand hhand) rfl rfl rfl rfl
        (Ghost.length_setContent (length_writeAt_of_le hle)) rfl rfl
  | writeTooBig hbig => exact absurd (hle.trans hs.layout.idx_le) (Nat.not_le_of_lt hbig)

theorem makes_appendData {key d : List Byte} {flag : Int} (hcall : call = .store key d flag)
    (hdat : v.dat = some .write) (hspare : v.spare = none) (hlacks : v.Lacks key) :
    Makes p call v (.write .dat v.datlen (d ++ [NEWLINE])) fun done v₁ =>
      done = true ∧ (∃ n, v₁ = { v with spare := some (v.datlen, d), datlen := n }) ∨
        done = false ∧ v₁ = v := by
  rintro s hs rfl r₀ w hsys
  have hdat' : s.world.locks p .dat 0 = some .write := hdat
  have hne : s.world.locks p .dat 0 ≠ none := hdat' ▸ Option.some_ne_none _
  have hlen : (s.view p).datlen = (s.world.content .dat).length := if_neg hne
  rw [hlen] at hsys ⊢
  cases hsys with
  | write hfits =>
      refine ⟨_, rfl, ⟨s, .refl, .appendData hcall hdat' hspare hfits (lacks_of_view hlacks)⟩,
        rfl, .inl ⟨rfl, ?_⟩⟩
      refine ⟨(writeAt (s.world.content .dat) (s.world.content .dat).length
        (d ++ [NEWLINE])).length, ?_⟩
      rw [Ghost.view, Ghost.view]
      congr 1
      · exact update_self ..
      · exact if_neg hne
  | writeTooBig hbig => exact ⟨s, rfl, ⟨s, .refl, .tooBig⟩, rfl, .inr ⟨rfl, rfl⟩⟩

theorem makes_appendRec {r : Rec} {flag : Int} (hcall : call = .store r.key r.data flag)
    (htail : v.tail = some .write) (hspare : v.spare = some (r.datoff, r.data))
    (hfits : r.Fits) (hlacks : v.Lacks r.key) :
    Makes p call v (.write .idx v.idxlen r.bytes) fun done v₁ =>
      done = true ∧ v.idxlen ≠ 0 ∧ (∀ i, v.mem i v.idxlen = none) ∧
        (∃ n, v₁ = { v with
          hand := update v.hand v.idxlen (some r)
          spare := none
          idxlen := n }) ∨
        done = false ∧ v₁ = v := by
  rintro s hs rfl r₀ w hsys
  have htail' : s.world.locks p .idx START = some .write := htail
  have hne : s.world.locks p .idx START ≠ none := htail' ▸ Option.some_ne_none _
  have hlen : (s.view p).idxlen = (s.world.content .idx).length := if_neg hne
  have hnobody := (hs.nobody _).mpr hs.recs_length
  rw [hlen] at hsys ⊢
  cases hsys with
  | write hfile =>
      refine ⟨_, rfl,
        ⟨s, .refl, .appendRec hcall htail' hspare hfits hfile (lacks_of_view hlacks)⟩, rfl,
        .inl ⟨rfl, ?_, ?_, ?_⟩⟩
      · have hstart := hs.layout.start_le
        rw [START] at hstart
        omega
      · intro i
        by_cases hi : s.holds p i = none
        · exact congrFun (if_pos hi) _
        · rw [Ghost.view_mem hi, part, hnobody]
          refine if_neg fun h => ?_
          cases h
      · refine ⟨(writeAt (s.world.content .idx) (s.world.content .idx).length
          r.bytes).length, ?_⟩
        rw [Ghost.view, Ghost.view]
        congr 1
        · funext i
          by_cases hi : s.holds p i = none
          · exact (if_pos hi).trans (if_pos hi).symm
          · refine (if_neg hi).trans (Eq.trans ?_ (if_neg hi).symm)
            refine part_new_other (by simp) ?_ _
            rw [hnobody]
            simp
        · exact part_new _
        · exact update_self ..
        · exact if_neg hne
  | writeTooBig hbig => exact ⟨s, rfl, ⟨s, .refl, .tooBig⟩, rfl, .inr ⟨rfl, rfl⟩⟩

end ApueCourse.Db
