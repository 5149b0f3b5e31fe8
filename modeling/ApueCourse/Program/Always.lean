import ApueCourse.Program.Prog

/-! What holds of a program whatever its calls give back. -/

namespace ApueCourse.Program.Prog

variable {Op : Type} {Res : Op → Type} {Stop : Type} {α β : Type}

/-- With results that `admits` lets through, the program stops only where it may and has `post`
of the result it comes to. -/
def Always (admits : (op : Op) → Res op → Prop) (mayStop : Stop → Prop) (post : α → Prop) :
    Prog Op Res Stop α → Prop
  | ret a => post a
  | stop reason => mayStop reason
  | call op next => ∀ r, admits op r → (next r).Always admits mayStop post

variable {admits : (op : Op) → Res op → Prop} {mayStop : Stop → Prop} {middle post : α → Prop}

theorem Always.bind {post : β → Prop} {prog : Prog Op Res Stop α} {f : α → Prog Op Res Stop β}
    (hprog : prog.Always admits mayStop middle)
    (hf : ∀ a, middle a → (f a).Always admits mayStop post) :
    (prog >>= f).Always admits mayStop post := by
  induction prog with
  | ret a => exact hf a hprog
  | stop reason => exact hprog
  | call op next ih => exact fun r hr => ih r (hprog r hr)

theorem Always.mono {prog : Prog Op Res Stop α} (hprog : prog.Always admits mayStop middle)
    (hpost : ∀ a, middle a → post a) : prog.Always admits mayStop post := by
  induction prog with
  | ret a => exact hpost a hprog
  | stop reason => exact hprog
  | call op next ih => exact fun r hr => ih r (hprog r hr)

/-- A condition that is true of the result can be used behind it. -/
theorem Always.bind_congr {prog : Prog Op Res Stop α} {f g : α → Prog Op Res Stop β}
    (hprog : prog.Always (fun _ _ => True) mayStop middle) (hfg : ∀ a, middle a → f a = g a) :
    prog >>= f = prog >>= g := by
  induction prog with
  | ret a => exact hfg a hprog
  | stop reason => rfl
  | call op next ih =>
      simp only [call_bind]
      congr 1
      funext r
      exact ih r (hprog r trivial)

end ApueCourse.Program.Prog
