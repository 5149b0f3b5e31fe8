import ApueCourse.Program.Prog

/-! What a program leaves where it comes to its end.  Of a run that stops nothing is said. -/

namespace ApueCourse.Program.Prog

variable {Op : Type} {Res : Op → Type} {Stop World : Type} {α β : Type}
  {act : (op : Op) → World → Res op × World} {w : World}

def Leaves (act : (op : Op) → World → Res op × World) (prog : Prog Op Res Stop α) (w : World)
    (post : α → World → Prop) : Prop :=
  ∀ a w', prog.run act w = .ok (a, w') → post a w'

theorem Leaves.ret {post : α → World → Prop} {a : α} (ha : post a w) :
    Leaves act (ret a : Prog Op Res Stop α) w post := by
  intro b w' hrun
  cases hrun
  exact ha

theorem Leaves.stop (reason : Stop) (post : α → World → Prop) :
    Leaves act (stop reason : Prog Op Res Stop α) w post := by
  intro b w' hrun
  cases hrun

theorem Leaves.call {op : Op} {next : Res op → Prog Op Res Stop α} {post : α → World → Prop}
    (hnext : Leaves act (next (act op w).1) (act op w).2 post) :
    Leaves act (call op next) w post :=
  hnext

theorem Leaves.bind {prog : Prog Op Res Stop α} {f : α → Prog Op Res Stop β}
    {middle : α → World → Prop} {post : β → World → Prop} (hprog : Leaves act prog w middle)
    (hf : ∀ a w', middle a w' → Leaves act (f a) w' post) : Leaves act (prog >>= f) w post := by
  intro b w' hrun
  rw [run_bind] at hrun
  cases hfirst : prog.run act w with
  | error reason =>
      rw [hfirst] at hrun
      cases hrun
  | ok a =>
      rw [hfirst] at hrun
      exact hf a.1 a.2 (hprog a.1 a.2 hfirst) b w' hrun

theorem Leaves.mono {prog : Prog Op Res Stop α} {middle post : α → World → Prop}
    (hprog : Leaves act prog w middle) (hpost : ∀ a w', middle a w' → post a w') :
    Leaves act prog w post :=
  fun a w' hrun => hpost a w' (hprog a w' hrun)

end ApueCourse.Program.Prog
