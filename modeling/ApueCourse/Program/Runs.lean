import ApueCourse.Program.Prog

/-! The runs of a program whose calls the system may answer in more than one way. -/

namespace ApueCourse.Program.Prog

variable {Op : Type} {Res : Op → Type} {Stop World : Type} {α β : Type}

/-- A call with its answer. -/
structure Made (Op : Type) (Res : Op → Type) where
  op : Op
  result : Res op

/-- A run from one world to another, with the calls in their order and what the program has
come to. -/
inductive Runs (sys : (op : Op) → World → Res op → World → Prop) :
    Prog Op Res Stop α → World → List (Made Op Res) → Except Stop α → World → Prop
  | ret (a : α) (w : World) : Runs sys (.ret a) w [] (.ok a) w
  | stop (reason : Stop) (w : World) : Runs sys (.stop reason) w [] (.error reason) w
  | call {op : Op} {next : Res op → Prog Op Res Stop α} {w middle finish : World} {r : Res op}
      {made : List (Made Op Res)} {outcome : Except Stop α} (hsys : sys op w r middle)
      (hnext : Runs sys (next r) middle made outcome finish) :
      Runs sys (.call op next) w (⟨op, r⟩ :: made) outcome finish

namespace Runs

variable {sys : (op : Op) → World → Res op → World → Prop} {w finish : World}
variable {made : List (Made Op Res)}

theorem of_ret {a : α} {outcome : Except Stop α} (hrun : Runs sys (.ret a) w made outcome finish) :
    made = [] ∧ outcome = .ok a ∧ finish = w := by
  cases hrun with
  | ret => exact ⟨rfl, rfl, rfl⟩

theorem of_stop {reason : Stop} {outcome : Except Stop α}
    (hrun : Runs sys (.stop reason) w made outcome finish) :
    made = [] ∧ outcome = .error reason ∧ finish = w := by
  cases hrun with
  | stop => exact ⟨rfl, rfl, rfl⟩

theorem of_call {op : Op} {next : Res op → Prog Op Res Stop α} {outcome : Except Stop α}
    (hrun : Runs sys (.call op next) w made outcome finish) :
    ∃ r middle rest, made = ⟨op, r⟩ :: rest ∧ sys op w r middle ∧
      Runs sys (next r) middle rest outcome finish := by
  cases hrun with
  | call hsys hnext => exact ⟨_, _, _, rfl, hsys, hnext⟩

theorem bind {prog : Prog Op Res Stop α} {f : α → Prog Op Res Stop β} {a : α} {middle : World}
    {made' : List (Made Op Res)} {outcome : Except Stop β}
    (hprog : Runs sys prog w made (.ok a) middle) (hf : Runs sys (f a) middle made' outcome finish) :
    Runs sys (prog >>= f) w (made ++ made') outcome finish := by
  induction prog generalizing w made with
  | ret b =>
      obtain ⟨rfl, ha, rfl⟩ := of_ret hprog
      cases ha
      exact hf
  | stop reason =>
      obtain ⟨-, ha, -⟩ := of_stop hprog
      cases ha
  | call op next ih =>
      obtain ⟨r, middle', rest, rfl, hsys, hnext⟩ := of_call hprog
      exact .call hsys (ih r hnext)

theorem bind_error {prog : Prog Op Res Stop α} {reason : Stop}
    (hprog : Runs sys prog w made (.error reason) finish) (f : α → Prog Op Res Stop β) :
    Runs sys (prog >>= f) w made (.error reason) finish := by
  induction prog generalizing w made with
  | ret b =>
      obtain ⟨-, houtcome, -⟩ := of_ret hprog
      cases houtcome
  | stop reason' =>
      obtain ⟨rfl, houtcome, rfl⟩ := of_stop hprog
      cases houtcome
      exact .stop reason finish
  | call op next ih =>
      obtain ⟨r, middle, rest, rfl, hsys, hnext⟩ := of_call hprog
      exact .call hsys (ih r hnext)

/-- A run of two programs, one after the other. -/
theorem of_bind {prog : Prog Op Res Stop α} {f : α → Prog Op Res Stop β}
    {outcome : Except Stop β} (hrun : Runs sys (prog >>= f) w made outcome finish) :
    (∃ a middle first second, made = first ++ second ∧ Runs sys prog w first (.ok a) middle ∧
      Runs sys (f a) middle second outcome finish) ∨
    ∃ reason, outcome = .error reason ∧ Runs sys prog w made (.error reason) finish := by
  induction prog generalizing w made with
  | ret a => exact .inl ⟨a, w, [], made, rfl, .ret a w, hrun⟩
  | stop reason =>
      obtain ⟨rfl, rfl, rfl⟩ := of_stop hrun
      exact .inr ⟨reason, rfl, .stop reason finish⟩
  | call op next ih =>
      obtain ⟨r, middle, rest, rfl, hsys, hnext⟩ := of_call hrun
      rcases ih r hnext with ⟨a, middle', first, second, rfl, hfirst, hsecond⟩ | hstop
      · exact .inl ⟨a, middle', ⟨op, r⟩ :: first, second, rfl, .call hsys hfirst, hsecond⟩
      · obtain ⟨reason, rfl, hstop⟩ := hstop
        exact .inr ⟨reason, rfl, .call hsys hstop⟩

theorem of_bind_ok {prog : Prog Op Res Stop α} {f : α → Prog Op Res Stop β} {b : β}
    (hrun : Runs sys (prog >>= f) w made (.ok b) finish) :
    ∃ a middle first second, made = first ++ second ∧ Runs sys prog w first (.ok a) middle ∧
      Runs sys (f a) middle second (.ok b) finish := by
  rcases of_bind hrun with hok | ⟨reason, houtcome, -⟩
  · exact hok
  · cases houtcome

end Runs

/-- The run in which `act` answers the calls. -/
def follow (act : (op : Op) → World → Res op × World) :
    Prog Op Res Stop α → World → List (Made Op Res) × Except Stop α × World
  | ret a, w => ([], .ok a, w)
  | stop reason, w => ([], .error reason, w)
  | call op next, w =>
      let (made, end') := (next (act op w).1).follow act (act op w).2
      (⟨op, (act op w).1⟩ :: made, end')

theorem follow_runs {sys : (op : Op) → World → Res op → World → Prop}
    {act : (op : Op) → World → Res op × World}
    (hact : ∀ op w, sys op w (act op w).1 (act op w).2) (prog : Prog Op Res Stop α) (w : World) :
    prog.Runs sys w (prog.follow act w).1 (prog.follow act w).2.1 (prog.follow act w).2.2 := by
  induction prog generalizing w with
  | ret a => exact .ret a w
  | stop reason => exact .stop reason w
  | call op next ih => exact .call (hact op w) (ih (act op w).1 (act op w).2)

theorem follow_runs_ok {sys : (op : Op) → World → Res op → World → Prop}
    {act : (op : Op) → World → Res op × World}
    (hact : ∀ op w, sys op w (act op w).1 (act op w).2) {prog : Prog Op Res Stop α} {w : World}
    {a : α} (hok : (prog.follow act w).2.1 = .ok a) :
    prog.Runs sys w (prog.follow act w).1 (.ok a) (prog.follow act w).2.2 := by
  have hrun := follow_runs hact prog w
  rwa [hok] at hrun

theorem runs_of_ok {sys : (op : Op) → World → Res op → World → Prop}
    {act : (op : Op) → World → Res op × World}
    (hact : ∀ op w, sys op w (act op w).1 (act op w).2) {prog : Prog Op Res Stop α}
    {w finish : World} {a : α} (hrun : prog.run act w = .ok (a, finish)) :
    ∃ made, prog.Runs sys w made (.ok a) finish := by
  induction prog generalizing w with
  | ret b =>
      cases hrun
      exact ⟨[], .ret a finish⟩
  | stop reason => cases hrun
  | call op next ih =>
      obtain ⟨made, hnext⟩ := ih (act op w).1 hrun
      exact ⟨⟨op, (act op w).1⟩ :: made, .call (hact op w) hnext⟩

theorem runs_of_error {sys : (op : Op) → World → Res op → World → Prop}
    {act : (op : Op) → World → Res op × World}
    (hact : ∀ op w, sys op w (act op w).1 (act op w).2) {prog : Prog Op Res Stop α} {w : World}
    {reason : Stop} (hrun : prog.run act w = .error reason) :
    ∃ made finish, prog.Runs sys w made (.error reason) finish := by
  induction prog generalizing w with
  | ret b => cases hrun
  | stop reason' =>
      cases hrun
      exact ⟨[], w, .stop reason w⟩
  | call op next ih =>
      obtain ⟨made, finish, hnext⟩ := ih (act op w).1 hrun
      exact ⟨⟨op, (act op w).1⟩ :: made, finish, .call (hact op w) hnext⟩

end ApueCourse.Program.Prog
