/-! Sequential programs as trees of the calls they make. -/

namespace ApueCourse.Program

/-- A program that makes calls of `Op` and goes on with their results, until it has a
result itself or stops for good. -/
inductive Prog (Op : Type) (Res : Op → Type) (Stop : Type) (α : Type)
  | ret (a : α)
  | stop (reason : Stop)
  | call (op : Op) (next : Res op → Prog Op Res Stop α)

namespace Prog

variable {Op : Type} {Res : Op → Type} {Stop : Type} {α β γ : Type}

protected def bind : Prog Op Res Stop α → (α → Prog Op Res Stop β) → Prog Op Res Stop β
  | ret a, f => f a
  | stop reason, _ => stop reason
  | call op next, f => call op fun r => (next r).bind f

instance : Monad (Prog Op Res Stop) where
  pure := ret
  bind := Prog.bind

@[simp] theorem pure_eq (a : α) : (pure a : Prog Op Res Stop α) = ret a := rfl

@[simp] theorem ret_bind (a : α) (f : α → Prog Op Res Stop β) : ret a >>= f = f a := rfl

@[simp] theorem stop_bind (reason : Stop) (f : α → Prog Op Res Stop β) :
    stop reason >>= f = stop reason := rfl

@[simp] theorem call_bind (op : Op) (next : Res op → Prog Op Res Stop α)
    (f : α → Prog Op Res Stop β) : call op next >>= f = call op fun r => next r >>= f := rfl

theorem bind_assoc (prog : Prog Op Res Stop α) (f : α → Prog Op Res Stop β)
    (g : β → Prog Op Res Stop γ) : prog >>= f >>= g = prog >>= fun a => f a >>= g := by
  induction prog with
  | ret a => rfl
  | stop reason => rfl
  | call op next ih =>
      simp only [call_bind]
      congr 1
      funext r
      exact ih r

/-- The result of a program that has come to its end. -/
def result? : Prog Op Res Stop α → Option α
  | ret a => some a
  | stop _ | call .. => none

theorem result?_eq_some {prog : Prog Op Res Stop α} {a : α} :
    prog.result? = some a ↔ prog = ret a := by
  cases prog with
  | ret b => simp [result?]
  | stop | call => simp [result?]

/-- Why a program has stopped. -/
def reason? : Prog Op Res Stop α → Option Stop
  | stop reason => some reason
  | ret _ | call .. => none

theorem reason?_eq_some {prog : Prog Op Res Stop α} {reason : Stop} :
    prog.reason? = some reason ↔ prog = stop reason := by
  cases prog with
  | stop reason' => simp [reason?]
  | ret | call => simp [reason?]

/-- The program run to its end, where nothing but its calls changes the world. -/
def run {World : Type} (act : (op : Op) → World → Res op × World) :
    Prog Op Res Stop α → World → Except Stop (α × World)
  | ret a, w => .ok (a, w)
  | stop reason, _ => .error reason
  | call op next, w => (next (act op w).1).run act (act op w).2

theorem run_bind {World : Type} (act : (op : Op) → World → Res op × World)
    (prog : Prog Op Res Stop α) (f : α → Prog Op Res Stop β) (w : World) :
    (prog >>= f).run act w = (prog.run act w).bind fun a => (f a.1).run act a.2 := by
  induction prog generalizing w with
  | ret a => rfl
  | stop reason => rfl
  | call op next ih => exact ih (act op w).1 (act op w).2

/-- Whatever the calls give back, the program makes only calls that `step` allows in the
state it has led to, and ends in a state that `final` allows. -/
def Follows {σ : Type} (step : σ → Op → Option σ) (final : α → σ → Prop) :
    Prog Op Res Stop α → σ → Prop
  | ret a, s => final a s
  | stop _, _ => True
  | call op next, s => ∃ s', step s op = some s' ∧ ∀ r, (next r).Follows step final s'

theorem Follows.bind {σ : Type} {step : σ → Op → Option σ} {middle : α → σ → Prop}
    {final : β → σ → Prop} {prog : Prog Op Res Stop α} {f : α → Prog Op Res Stop β} {s : σ}
    (hprog : prog.Follows step middle s)
    (hf : ∀ a s, middle a s → (f a).Follows step final s) :
    (prog >>= f).Follows step final s := by
  induction prog generalizing s with
  | ret a => exact hf a s hprog
  | stop reason => trivial
  | call op next ih =>
      obtain ⟨s', hstep, hnext⟩ := hprog
      exact ⟨s', hstep, fun r => ih r (hnext r)⟩

theorem Follows.mono {σ : Type} {step : σ → Op → Option σ} {final final' : α → σ → Prop}
    {prog : Prog Op Res Stop α} {s : σ} (hprog : prog.Follows step final s)
    (hfinal : ∀ a s, final a s → final' a s) : prog.Follows step final' s := by
  induction prog generalizing s with
  | ret a => exact hfinal a s hprog
  | stop reason => trivial
  | call op next ih =>
      obtain ⟨s', hstep, hnext⟩ := hprog
      exact ⟨s', hstep, fun r => ih r (hnext r)⟩

end Prog

end ApueCourse.Program
