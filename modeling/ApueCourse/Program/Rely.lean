import ApueCourse.Program.Runs

/-! Programs that run side by side on one state.  Every call of a process is a turn, and
between two of its own turns a process relies on what the turns of the others leave as it
is. -/

namespace ApueCourse.Program

/-- `State` is the `World` of the calls with ghost state beside it, and `abs` what the
programs are about.  `Turn` is what one call may do to the state in the course of a `Task`,
`Rely` what a process can count on between its turns, and `mayStop` where it may stop. -/
structure Protocol (Pid Task Op : Type) (Res : Op → Type) (Stop World State Abs : Type) where
  sys : Pid → (op : Op) → World → Res op → World → Prop
  world : State → World
  abs : State → Abs
  Inv : State → Prop
  Turn : Pid → Task → (op : Op) → Res op → State → State → Prop
  Rely : Pid → State → State → Prop
  mayStop : Pid → Task → Stop → State → Prop
  turn_inv {p : Pid} {task : Task} {op : Op} {r : Res op} {s t : State} :
    Inv s → Turn p task op r s t → Inv t
  turn_rely {p q : Pid} {task : Task} {op : Op} {r : Res op} {s t : State} :
    Inv s → Turn p task op r s t → q ≠ p → Rely q s t
  rely_trans {p : Pid} {s t u : State} : Rely p s t → Rely p t u → Rely p s u

namespace Protocol

variable {Pid Task Op : Type} {Res : Op → Type} {Stop World State Abs α β : Type}
variable (M : Protocol Pid Task Op Res Stop World State Abs)

/-- The program plays by the rules from the state `s`, and where it ends `post` holds of its
result, of what the state was about before its last call, and of the state.  A call that is
not the last one leaves `abs` as it is. -/
def Plays (p : Pid) (task : Task) (post : α → Abs → State → Prop) :
    Prog Op Res Stop α → Abs → State → Prop
  | .ret a, x, s => post a x s
  | .stop reason, x, s => M.abs s = x ∧ M.mayStop p task reason s
  | .call op next, x, s => M.abs s = x ∧ ∀ t, M.Inv t → M.Rely p s t → ∀ r w,
      M.sys p op (M.world t) r w → ∃ t', M.world t' = w ∧ M.Turn p task op r t t' ∧
        Plays p task post (next r) (M.abs t) t'

/-- What is so where a program has come to its end, or has stopped. -/
def Ends (p : Pid) (task : Task) (post : α → Abs → State → Prop) (x : Abs) (s : State) :
    Except Stop α → Prop
  | .ok a => post a x s
  | .error reason => M.abs s = x ∧ M.mayStop p task reason s

variable {M} {p : Pid} {task : Task}

theorem Plays.bind {middle : α → Abs → State → Prop} {post : β → Abs → State → Prop}
    {prog : Prog Op Res Stop α} {f : α → Prog Op Res Stop β} {x : Abs} {s : State}
    (hprog : M.Plays p task middle prog x s)
    (hf : ∀ a x s, middle a x s → M.Plays p task post (f a) x s) :
    M.Plays p task post (prog >>= f) x s := by
  induction prog generalizing x s with
  | ret a => exact hf a x s hprog
  | stop reason => exact hprog
  | call op next ih =>
      refine ⟨hprog.1, fun t hinv hrely r w hsys => ?_⟩
      obtain ⟨t', hworld, hturn, hnext⟩ := hprog.2 t hinv hrely r w hsys
      exact ⟨t', hworld, hturn, ih r hnext⟩

theorem Plays.mono {post post' : α → Abs → State → Prop} {prog : Prog Op Res Stop α}
    {x : Abs} {s : State} (hprog : M.Plays p task post prog x s)
    (hpost : ∀ a x s, post a x s → post' a x s) : M.Plays p task post' prog x s := by
  induction prog generalizing x s with
  | ret a => exact hpost a x s hprog
  | stop reason => exact hprog
  | call op next ih =>
      refine ⟨hprog.1, fun t hinv hrely r w hsys => ?_⟩
      obtain ⟨t', hworld, hturn, hnext⟩ := hprog.2 t hinv hrely r w hsys
      exact ⟨t', hworld, hturn, ih r hnext⟩

/-- A program in front of a call goes on from what the others make of the state. -/
theorem Plays.rely {post : α → Abs → State → Prop} {op : Op}
    {next : Res op → Prog Op Res Stop α} {x : Abs} {s t : State}
    (hprog : M.Plays p task post (.call op next) x s) (hrely : M.Rely p s t) :
    M.Plays p task post (.call op next) (M.abs t) t :=
  ⟨rfl, fun u hinv hu r w hsys => hprog.2 u hinv (M.rely_trans hrely hu) r w hsys⟩

/-- The next call of a program that plays by the rules. -/
theorem Plays.call {post : α → Abs → State → Prop} {op : Op}
    {next : Res op → Prog Op Res Stop α} {x : Abs} {s t : State} {r : Res op} {w : World}
    (hprog : M.Plays p task post (.call op next) x s) (hrely : M.Rely p s t)
    (hinv : M.Inv t) (hsys : M.sys p op (M.world t) r w) :
    ∃ t', M.world t' = w ∧ M.Inv t' ∧ M.Turn p task op r t t' ∧ (∀ q ≠ p, M.Rely q t t') ∧
      M.Plays p task post (next r) (M.abs t) t' := by
  obtain ⟨t', hworld, hturn, hnext⟩ := hprog.2 t hinv hrely r w hsys
  exact ⟨t', hworld, M.turn_inv hinv hturn, hturn,
    fun q hq => M.turn_rely hinv hturn hq, hnext⟩

/-- A program that runs alone comes to its end or stops where it may, and its last call is the
only one that has changed what the state is about.  What its turns keep is so in the end, and
the others can count on what they could count on. -/
theorem Plays.runs_keeps {post : α → Abs → State → Prop} (hrely : ∀ q s, M.Rely q s s)
    (kept : State → Prop)
    (hkept : ∀ s op r t, M.Inv s → kept s → M.Turn p task op r s t → kept t)
    {prog : Prog Op Res Stop α} {x : Abs} {s : State} {made : List (Prog.Made Op Res)}
    {outcome : Except Stop α} {w : World} (hprog : M.Plays p task post prog x s) (hinv : M.Inv s)
    (hs : kept s) (hrun : prog.Runs (M.sys p) (M.world s) made outcome w) :
    ∃ t, M.Inv t ∧ kept t ∧ (∀ q ≠ p, M.Rely q s t) ∧ M.world t = w ∧
      M.Ends p task post x t outcome := by
  induction prog generalizing s made with
  | ret a =>
      obtain ⟨rfl, rfl, rfl⟩ := hrun.of_ret
      exact ⟨s, hinv, hs, fun q _ => hrely q s, rfl, hprog⟩
  | stop reason =>
      obtain ⟨rfl, rfl, rfl⟩ := hrun.of_stop
      exact ⟨s, hinv, hs, fun q _ => hrely q s, rfl, hprog⟩
  | call op next ih =>
      obtain ⟨r, middle, rest, rfl, hop, hnext⟩ := hrun.of_call
      have habs := hprog.1
      obtain ⟨t, hworld, hinv', hturn, hothers, hplays⟩ := hprog.call (hrely p s) hinv hop
      rw [habs] at hplays
      rw [← hworld] at hnext
      obtain ⟨u, hinv'', hu, hothers', hends⟩ :=
        ih r hplays hinv' (hkept s op r t hinv hs hturn) hnext
      exact ⟨u, hinv'', hu, fun q hq => M.rely_trans (hothers q hq) (hothers' q hq), hends⟩

theorem Plays.runs {post : α → Abs → State → Prop} (hrely : ∀ q s, M.Rely q s s)
    {prog : Prog Op Res Stop α} {x : Abs} {s : State} {made : List (Prog.Made Op Res)}
    {outcome : Except Stop α} {w : World} (hprog : M.Plays p task post prog x s) (hinv : M.Inv s)
    (hrun : prog.Runs (M.sys p) (M.world s) made outcome w) :
    ∃ t, M.Inv t ∧ (∀ q ≠ p, M.Rely q s t) ∧ M.world t = w ∧ M.Ends p task post x t outcome := by
  obtain ⟨t, hinv', -, hends⟩ := hprog.runs_keeps hrely (fun _ => True)
    (fun _ _ _ _ _ _ _ => trivial) hinv trivial hrun
  exact ⟨t, hinv', hends⟩

end Protocol

end ApueCourse.Program
