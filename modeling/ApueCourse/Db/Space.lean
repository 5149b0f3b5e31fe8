import ApueCourse.Db.Growth

/-! The room that a database takes: what each call makes of the lengths of its files. -/

namespace ApueCourse.Db

open Memory Function Program

/-- Whether a call on a key with the data `old` makes the files longer, where `free` says for
which lengths of key and data there is a free record. -/
def Call.Appends (free : Nat → Nat → Prop) : Call → Option (List Byte) → Prop
  | .store key data flag, none =>
      (flag = DB_INSERT ∨ flag = DB_STORE) ∧ ¬ free key.length data.length
  | .store _ data flag, some old =>
      (flag = DB_REPLACE ∨ flag = DB_STORE) ∧ data.length ≠ old.length
  | .fetch _, _ | .delete _, _ | .open _, _ | .rewind, _ | .nextrec, _ => False

/-- What is behind a call: longer files, or files of the lengths that they had. -/
def Plan.Behind (plan : Plan) (appends : Prop) (key data : List Byte) (w : World Unit) : Prop :=
  (appends → (plan.append key data).Of w) ∧ (¬ appends → plan.Of w)

section Calls

variable {w : World Unit} {db : DB} {map : Bindings} {idx dat : List Byte}

namespace Image

variable (image : Image idx dat)

def plan : Plan := ⟨fun o => (image.recs o).map Rec.shape, idx.length, dat.length⟩

def Free (keylen datlen : Nat) : Prop := Fitting image.recs (image.chain freeSlot) keylen datlen

theorem plan_of (hidx : w.content .idx = idx) (hdat : w.content .dat = dat) : image.plan.Of w := by
  subst hidx hdat
  exact ⟨image.head, image.recs, image.layout.of_none fun _ => rfl, rfl⟩

theorem absent (hbinds : image.Binds map) {key : List Byte}
    (hnone : ∀ o ∈ image.chain (slotOf key), ∀ r, image.recs o = some r → r.key ≠ key) :
    map key = none := by
  cases hd : map key with
  | none => rfl
  | some d =>
      obtain ⟨o, r, hr, hne, hkey, -⟩ := (hbinds key d).mp hd
      have hslot : image.slot o = slotOf key := hkey ▸ (image.hash hr hne).symm
      exact absurd hkey (hnone o (image.mem_chain.mpr ⟨hr ▸ Option.some_ne_none r, hslot⟩) r hr)

theorem present (hbinds : image.Binds map) {key : List Byte} {o : Nat} {r : Rec}
    (ho : o ∈ image.chain (slotOf key)) (hr : image.recs o = some r) (hkey : r.key = key) :
    map key = some r.data := by
  refine (hbinds key r.data).mpr ⟨o, r, hr, ?_, hkey, rfl⟩
  rw [(image.mem_chain.mp ho).2]
  exact slotOf_ne_free key

theorem pointer_ptroff {o : Nat} {r : Rec} (hbehind : db.Behind image.recs o r) :
    ∃ ptroff : Nat, db.ptroff = ptroff ∧ image.plan.Pointer ptroff := by
  rcases hbehind.ptroff with ⟨i, hi⟩ | ⟨o', hne, ho'⟩
  · exact ⟨i.off, hi, .head i⟩
  · obtain ⟨r', hr'⟩ := Option.ne_none_iff_exists'.mp hne
    exact ⟨o', ho', .record (congrArg (Option.map Rec.shape) hr')⟩

end Image

theorem Plan.Behind.unlock {plan : Plan} {appends : Prop} {key data : List Byte}
    (hbehind : plan.Behind appends key data w) (range : Range) {α : Type} (a : α) :
    Leaves (un_lock range >>= fun _ => .ret a) w fun _ w' =>
      plan.Behind appends key data w' := by
  refine Prog.Leaves.bind (leaves_un_lock range) ?_
  rintro ⟨⟩ w' hw'
  exact .ret ⟨fun h => (hbehind.1 h).congr hw', fun h => (hbehind.2 h).congr hw'⟩

theorem leaves_storeNew (happend : db.append = false)
    (image : Image idx dat) (hidx : w.content .idx = idx) (hdat : w.content .dat = dat)
    {key data : List Byte} (hnul : 0 ∉ key) (hdatnul : 0 ∉ data) (hdatlen : ((data.length + 1 : Nat) : Int) ≤ DATLEN_MAX)
    (hchainoff : db.chainoff = ((slotOf key).off : Nat)) {flag : Int}
    (hflag : flag = DB_INSERT ∨ flag = DB_REPLACE ∨ flag = DB_STORE) (fuel : Nat) :
    Leaves (storeNew fuel db key data flag) w fun _ w' =>
      image.plan.Behind ((Call.store key data flag).Appends image.Free none) key data w' := by
  have hplan := image.plan_of hidx hdat
  rw [storeNew]
  split
  · rename_i hreplace
    refine .ret ⟨?_, fun _ => hplan⟩
    rintro ⟨h | h, -⟩
    · exact absurd (hreplace.symm.trans h) (by decide)
    · exact absurd (hreplace.symm.trans h) (by decide)
  · rename_i hreplace
    have hstores : flag = DB_INSERT ∨ flag = DB_STORE :=
      hflag.imp_right fun h => h.resolve_left hreplace
    refine Prog.Leaves.bind (leaves_readptr _) ?_
    rintro ⟨ptrval, db₁⟩ w₁ ⟨rfl, idxpos, hdb₁⟩
    dsimp only at hdb₁ ⊢
    subst hdb₁
    have hlayout := image.layout
    subst hidx hdat
    refine Prog.Leaves.bind (leaves_findfree (by exact happend)
      (hlayout.of_none fun _ => rfl) (image.path freeSlot)) ?_
    rintro ⟨rc, db₂⟩ w₂ ⟨hplan₂, happend₂, hchainoff₂, hresult⟩
    dsimp only at hplan₂ happend₂ hchainoff₂ hresult ⊢
    rw [hchainoff] at hchainoff₂
    rcases hresult with ⟨rfl, hnone⟩ | ⟨rfl, hfree, o, datoff, hshape, hat⟩
    · rw [if_pos (by decide)]
      refine Prog.Leaves.bind (leaves_storeAppend happend₂ hplan₂ hnul hdatnul hdatlen hchainoff₂
        ptrval) ?_
      rintro db₃ w₃ ⟨hplan₃, -, -⟩
      exact .ret ⟨fun _ => hplan₃, fun hnot => absurd ⟨hstores, hnone⟩ hnot⟩
    · rw [if_neg (by decide)]
      refine Prog.Leaves.bind (leaves_storeReuse happend₂ hplan₂ hnul hdatnul hshape hat hchainoff₂
        ptrval) ?_
      rintro db₃ w₃ ⟨hplan₃, -, -⟩
      exact .ret ⟨fun happends => absurd hfree happends.2, fun _ => hplan₃⟩

theorem leaves_storeOld (happend : db.append = false)
    (image : Image idx dat) (hidx : w.content .idx = idx) (hdat : w.content .dat = dat)
    {key data : List Byte} (hnul : 0 ∉ key) (hdatnul : 0 ∉ data) (hdatlen : ((data.length + 1 : Nat) : Int) ≤ DATLEN_MAX)
    (hchainoff : db.chainoff = ((slotOf key).off : Nat)) {flag : Int}
    (hflag : flag = DB_INSERT ∨ flag = DB_REPLACE ∨ flag = DB_STORE) {o : Nat} {r : Rec}
    (hbehind : db.Behind image.recs o r) :
    Leaves (storeOld db key data flag) w fun _ w' =>
      image.plan.Behind ((Call.store key data flag).Appends image.Free (some r.data)) key data
        w' := by
  have hplan := image.plan_of hidx hdat
  have hat := hbehind.at_rec
  have hshape : image.plan.shape o = some (r.key.length, r.datoff, r.data.length) :=
    congrArg (Option.map Rec.shape) hbehind.record
  obtain ⟨ptroff, hptroff, hpointer⟩ := image.pointer_ptroff hbehind
  rw [storeOld]
  split
  · rename_i hinsert
    refine .ret ⟨?_, fun _ => hplan⟩
    rintro ⟨h | h, -⟩
    · exact absurd (hinsert.symm.trans h) (by decide)
    · exact absurd (hinsert.symm.trans h) (by decide)
  · rename_i hinsert
    have hstores : flag = DB_REPLACE ∨ flag = DB_STORE := hflag.resolve_left hinsert
    rw [hat.datlen]
    split
    · rename_i hlength
      refine Prog.Leaves.bind (leaves_dodelete happend hplan hat hshape hptroff hpointer) ?_
      rintro db₁ w₁ ⟨hplan₁, happend₁, hchainoff₁⟩
      refine Prog.Leaves.bind (leaves_readptr _) ?_
      rintro ⟨ptrval, db₂⟩ w₂ ⟨rfl, idxpos, hdb₂⟩
      dsimp only at hdb₂ ⊢
      subst hdb₂
      refine Prog.Leaves.bind (leaves_storeAppend (by exact happend₁) hplan₁ hnul hdatnul hdatlen
        (by exact hchainoff₁.trans hchainoff) ptrval) ?_
      rintro db₃ w₃ ⟨hplan₃, -, -⟩
      exact .ret ⟨fun _ => hplan₃, fun hnot => absurd ⟨hstores, by omega⟩ hnot⟩
    · rename_i hlength
      have heq : data.length = r.data.length := by omega
      rw [hat.datoff]
      rw [← heq] at hshape
      refine Prog.Leaves.bind (leaves_writedat happend hplan hshape hdatnul) ?_
      rintro db₁ w₁ ⟨hplan₁, -⟩
      exact .ret ⟨fun happends => absurd heq happends.2, fun _ => hplan₁⟩

/-- `db_store` makes the files longer exactly where no free record has the lengths that it needs,
and always where the data that it replaces has another length. -/
theorem leaves_store (happend : db.append = false)
    (image : Image idx dat) (hbinds : image.Binds map) (hidx : w.content .idx = idx)
    (hdat : w.content .dat = dat) {key data : List Byte} (hnul : 0 ∉ key) (hdatnul : 0 ∉ data) (flag : Int) (fuel : Nat) :
    Leaves (db_store fuel db key data flag) w fun _ w' =>
      image.plan.Behind ((Call.store key data flag).Appends image.Free (map key)) key data w' := by
  subst hidx hdat
  have hplan := image.plan_of rfl rfl
  rw [db_store]
  split
  · rename_i hflag
    refine .ret ⟨fun happends => ?_, fun _ => hplan⟩
    cases hold : map key with
    | none =>
        rw [hold] at happends
        rcases happends.1 with h | h
        · exact absurd h hflag.1
        · exact absurd h hflag.2.2
    | some old =>
        rw [hold] at happends
        rcases happends.1 with h | h
        · exact absurd h hflag.2.1
        · exact absurd h hflag.2.2
  · rename_i hflag
    dsimp only
    split
    · exact .stop _ _
    · rename_i hlength
      have hdatlen : ((data.length + 1 : Nat) : Int) ≤ DATLEN_MAX := by omega
      have hflag' : flag = DB_INSERT ∨ flag = DB_REPLACE ∨ flag = DB_STORE := by
        by_contra hnone
        exact hflag ⟨fun h => hnone (.inl h), fun h => hnone (.inr (.inl h)),
          fun h => hnone (.inr (.inr h))⟩
      refine Prog.Leaves.bind (leaves_find_and_lock image.layout (image.path (slotOf key)) true) ?_
      rintro ⟨rc, db₁⟩ w₁ ⟨hw₁, happend₁, hchainoff₁, hresult⟩
      dsimp only at happend₁ hchainoff₁ hresult ⊢
      have hidx₁ := congrFun hw₁ .idx
      have hdat₁ := congrFun hw₁ .dat
      rw [happend] at happend₁
      rcases hresult with ⟨rfl, hnone⟩ | ⟨rfl, o, ho, r, hkey, hbehind⟩
      · rw [if_pos (by decide), image.absent hbinds hnone]
        refine Prog.Leaves.bind (leaves_storeNew happend₁ image hidx₁ hdat₁ hnul hdatnul hdatlen
          hchainoff₁ hflag' fuel) ?_
        rintro a w₂ hw₂
        exact hw₂.unlock _ _
      · rw [if_neg (by decide), image.present hbinds ho hbehind.record hkey]
        refine Prog.Leaves.bind (leaves_storeOld happend₁ image hidx₁ hdat₁ hnul hdatnul hdatlen
          hchainoff₁ hflag' hbehind) ?_
        rintro a w₂ hw₂
        exact hw₂.unlock _ _

theorem leaves_delete (happend : db.append = false) (image : Image idx dat)
    (hidx : w.content .idx = idx) (hdat : w.content .dat = dat) (key : List Byte) (fuel : Nat) :
    Leaves (db_delete fuel db key) w fun _ w' => image.plan.Of w' := by
  subst hidx hdat
  rw [db_delete]
  refine Prog.Leaves.bind (leaves_find_and_lock image.layout (image.path (slotOf key)) true) ?_
  rintro ⟨rc, db₁⟩ w₁ ⟨hw₁, happend₁, -, hresult⟩
  dsimp only at happend₁ hresult ⊢
  have hplan := image.plan_of (congrFun hw₁ .idx) (congrFun hw₁ .dat)
  split
  · rename_i hrc
    rcases hresult with ⟨hnone, -⟩ | ⟨-, o, ho, r, hkey, hbehind⟩
    · exact absurd (hrc.symm.trans hnone) (by decide)
    · obtain ⟨ptroff, hptroff, hpointer⟩ := image.pointer_ptroff hbehind
      refine Prog.Leaves.bind (leaves_dodelete (happend₁.trans happend) hplan hbehind.at_rec
        (congrArg (Option.map Rec.shape) hbehind.record) hptroff hpointer) ?_
      rintro db₂ w₂ ⟨hplan₂, -, -⟩
      refine Prog.Leaves.bind (leaves_un_lock _) ?_
      rintro ⟨⟩ w₃ hw₃
      exact .ret (hplan₂.congr hw₃)
  · refine Prog.Leaves.bind (leaves_un_lock _) ?_
    rintro ⟨⟩ w₂ hw₂
    exact .ret (hplan.congr hw₂)

theorem leaves_fetch (image : Image idx dat) (hidx : w.content .idx = idx)
    (hdat : w.content .dat = dat) (key : List Byte) (fuel : Nat) :
    Leaves (db_fetch fuel db key) w fun _ w' => image.plan.Of w' := by
  subst hidx hdat
  rw [db_fetch]
  refine Prog.Leaves.bind (leaves_find_and_lock image.layout (image.path (slotOf key)) false) ?_
  rintro ⟨rc, db₁⟩ w₁ ⟨hw₁, -⟩
  have hplan := image.plan_of (congrFun hw₁ .idx) (congrFun hw₁ .dat)
  dsimp only
  split
  · refine Prog.Leaves.bind (leaves_un_lock _) ?_
    rintro ⟨⟩ w₂ hw₂
    exact .ret (hplan.congr hw₂)
  · refine Prog.Leaves.bind (leaves_readdat w₁) ?_
    rintro a w₂ rfl
    refine Prog.Leaves.bind (leaves_un_lock _) ?_
    rintro ⟨⟩ w₃ hw₃
    exact .ret (hplan.congr hw₃)

end Calls

end ApueCourse.Db
