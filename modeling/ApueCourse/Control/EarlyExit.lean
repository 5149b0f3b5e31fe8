import Mathlib.Data.List.Basic

/-! A callback applied to a sequence of arguments until it returns non-zero. -/

namespace ApueCourse.Control

variable {α : Type u} {σ : Type v} {τ : Type w} {ε : Type x}

/-- Call `func` on the arguments in turn; the first non-zero return ends it. -/
def callAll (func : α → σ → Except ε (Int × σ)) :
    List α → σ → Except ε (Int × σ)
  | [], s => .ok (0, s)
  | a :: rest, s =>
      match func a s with
      | .error e => .error e
      | .ok (ret, s') => if ret ≠ 0 then .ok (ret, s') else callAll func rest s'

/-- `func` with a record of the calls made and of what they returned. -/
def logged (func : α → σ → Except ε (Int × σ)) (a : α)
    (s : List (α × Int) × σ) : Except ε (Int × (List (α × Int) × σ)) :=
  match func a s.2 with
  | .error e => .error e
  | .ok (ret, s') => .ok (ret, (s.1 ++ [(a, ret)], s'))

/-- The calls `made` go through the arguments in order, each once, up to the first
call that returns non-zero; `ret` is what that call returned, or 0. -/
inductive EarlyExit : List α → List (α × Int) → Int → Prop
  | done : EarlyExit [] [] 0
  | stop {a : α} {rest : List α} {ret : Int} (hret : ret ≠ 0) :
      EarlyExit (a :: rest) [(a, ret)] ret
  | next {a : α} {rest : List α} {made : List (α × Int)} {ret : Int}
      (hrest : EarlyExit rest made ret) :
      EarlyExit (a :: rest) ((a, 0) :: made) ret

theorem callAll_append (func : α → σ → Except ε (Int × σ)) (first second : List α)
    (s : σ) :
    callAll func (first ++ second) s =
      match callAll func first s with
      | .error e => .error e
      | .ok (ret, s') =>
          if ret ≠ 0 then .ok (ret, s') else callAll func second s' := by
  induction first generalizing s with
  | nil => simp [callAll]
  | cons a first ih =>
      simp only [List.cons_append, callAll]
      cases hcall : func a s with
      | error e => rfl
      | ok result =>
          obtain ⟨ret, s'⟩ := result
          by_cases hret : ret = 0
          · simp [hret, ih]
          · simp [hret]

theorem callAll_logged (func : α → σ → Except ε (Int × σ)) (args : List α)
    (log : List (α × Int)) (s : σ) :
    (∀ e, callAll func args s = .error e →
      callAll (logged func) args (log, s) = .error e) ∧
    (∀ ret s', callAll func args s = .ok (ret, s') →
      ∃ made, callAll (logged func) args (log, s) = .ok (ret, (log ++ made, s')) ∧
        EarlyExit args made ret) := by
  induction args generalizing log s with
  | nil =>
      constructor
      · intro e hcall
        cases hcall
      · intro ret s' hcall
        cases hcall
        exact ⟨[], by simp [callAll], .done⟩
  | cons a rest ih =>
      simp only [callAll, logged]
      cases hcall : func a s with
      | error e => simp
      | ok result =>
          obtain ⟨ret, s'⟩ := result
          by_cases hret : ret = 0
          · subst ret
            obtain ⟨herror, hok⟩ := ih (log ++ [(a, 0)]) s'
            constructor
            · intro e he
              simpa using herror e (by simpa using he)
            · intro ret s'' hrest
              obtain ⟨made, hmade, hexit⟩ := hok ret s'' (by simpa using hrest)
              exact ⟨(a, 0) :: made, by simpa using hmade, .next hexit⟩
          · constructor
            · intro e he
              simp [hret] at he
            · intro ret' s'' hrest
              simp only [ne_eq, hret, not_false_eq_true, if_true,
                Except.ok.injEq, Prod.mk.injEq] at hrest
              obtain ⟨rfl, rfl⟩ := hrest
              exact ⟨[(a, ret)], by simp [hret], .stop hret⟩

/-! Callbacks that never return anything but 0. -/

/-- While the callback keeps up with `next`, so does the whole sequence. -/
theorem callAll_simulation {func : α → σ → Except ε (Int × σ)} {args : List α}
    {R : σ → τ → Prop} {next : α → τ → τ}
    (hfunc : ∀ a ∈ args, ∀ s t, R s t → ∃ s', func a s = .ok (0, s') ∧ R s' (next a t))
    {s : σ} {t : τ} (hstart : R s t) :
    ∃ s', callAll func args s = .ok (0, s') ∧
      R s' (args.foldl (fun t a => next a t) t) := by
  induction args generalizing s t with
  | nil => exact ⟨s, rfl, hstart⟩
  | cons a rest ih =>
      obtain ⟨s₁, hcall, hnext⟩ := hfunc a List.mem_cons_self s t hstart
      obtain ⟨s₂, hrest, hend⟩ := ih
        (fun b hb => hfunc b (List.mem_cons_of_mem a hb)) hnext
      exact ⟨s₂, by simpa [callAll, hcall] using hrest, hend⟩

theorem callAll_all_called {func : α → σ → Except ε (Int × σ)} {args : List α}
    {I : σ → Prop}
    (hfunc : ∀ a s ret s', I s → func a s = .ok (ret, s') → ret = 0 ∧ I s')
    {s : σ} (hstart : I s) {result : Int × σ} (hcalls : callAll func args s = .ok result) :
    ∀ a ∈ args, ∃ s ret s', I s ∧ func a s = .ok (ret, s') := by
  induction args generalizing s with
  | nil =>
      intro a ha
      cases ha
  | cons b rest ih =>
      cases hcall : func b s with
      | error e => simp [callAll, hcall] at hcalls
      | ok next =>
          obtain ⟨ret, s'⟩ := next
          obtain ⟨rfl, hnext⟩ := hfunc b s ret s' hstart hcall
          have hrest : callAll func rest s' = .ok result := by
            simpa [callAll, hcall] using hcalls
          intro a ha
          cases ha with
          | head => exact ⟨s, 0, s', hstart, hcall⟩
          | tail _ ha => exact ih hnext hrest a ha

end ApueCourse.Control
