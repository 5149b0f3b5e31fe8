import ApueCourse.Shell.Processes

/-! A timeout belongs to the command line that set it. -/

namespace ApueCourse.Shell

open Transition

/-- Between `alarm(time)` and `alarm(0)` of one command line. -/
def Pc.timed : Pc → Bool
  | .fork | .forked _ | .forkTest | .execlp | .waitpid | .waited _ | .waitTest
  | .alarmOff | .exit => true
  | .handler .SIGQUIT pc =>
      match pc with
      | .test | .kill | .clear | .print | .cancel => true
      | _ => false
  | _ => false

/-- Where an expired timer may still be pending: `sig_quit` discards it after its
`alarm(0)`. -/
def Pc.expirable : Pc → Bool
  | .handler .SIGQUIT .sigpending | .handler .SIGQUIT .ignore => true
  | pc => pc.timed

theorem Pc.expirable_of_timed {pc : Pc} (htimed : pc.timed) : pc.expirable := by
  unfold expirable
  split
  · rfl
  · rfl
  · exact htimed

def Pc.inHandler : Pc → Bool
  | .handler _ _ => true
  | _ => false

namespace Machine

/-- What holds of the signal state at every step of the program. -/
structure Sound (time : Int) (m : Machine) : Prop where
  saved : ∀ sig, m.saved sig = false
  blocked : ∀ sig, m.blocked sig = m.pc.inHandler
  disposition : ∀ sig, m.disposition sig =
    if m.pc = .handler sig.other .reinstall then .SIG_IGN else .handler
  timer : ∀ line, m.timer = some line →
    line = m.line ∧ m.alrm = none ∧ m.pc.timed ∧ time ≠ 0
  alrm : ∀ line, m.alrm = some line → line = m.line ∧ m.pc.expirable ∧ time ≠ 0

theorem Sound.timer_eq_none {time : Int} {m : Machine} (hm : m.Sound time)
    (hpc : m.pc.timed = false) : m.timer = none := by
  cases htimer : m.timer with
  | none => rfl
  | some line =>
      obtain ⟨-, -, htimed, -⟩ := hm.timer line htimer
      rw [hpc] at htimed
      cases htimed

theorem Sound.alrm_eq_none {time : Int} {m : Machine} (hm : m.Sound time)
    (hpc : m.pc.expirable = false) : m.alrm = none := by
  cases halrm : m.alrm with
  | none => rfl
  | some line =>
      obtain ⟨-, hexpirable, -⟩ := hm.alrm line halrm
      rw [hpc] at hexpirable
      cases hexpirable

theorem Sound.quiet_alrm {time : Int} {m : Machine} (hm : m.Sound time)
    (hpc : m.pc.inHandler = false) (hquiet : m.Quiet) : m.alrm = none := by
  have hblocked := hm.blocked .SIGALRM
  have hpending := hquiet .SIGALRM
  rw [hblocked, hpc] at hpending
  simpa [pending] using hpending

theorem Sound.goto {time : Int} {m : Machine} (hm : m.Sound time) {pid : Int} {pc : Pc}
    (hhandler : pc.inHandler = m.pc.inHandler)
    (hold : ∀ sig, m.pc ≠ .handler sig .reinstall)
    (hnew : ∀ sig, pc ≠ .handler sig .reinstall)
    (htimer : m.timer = none ∨ pc.timed) (halrm : m.alrm = none ∨ pc.expirable) :
    Sound time { m with pid, pc } where
  saved := hm.saved
  blocked sig := (hm.blocked sig).trans hhandler.symm
  disposition sig := by
    have hsig := hm.disposition sig
    rw [if_neg (hold sig.other)] at hsig
    rw [hsig, if_neg (hnew sig.other)]
  timer line hline := by
    obtain ⟨hcurrent, hnone, -, htime⟩ := hm.timer line hline
    refine ⟨hcurrent, hnone, ?_, htime⟩
    exact htimer.resolve_left (by rw [hline]; exact Option.some_ne_none line)
  alrm line hline := by
    obtain ⟨hcurrent, -, htime⟩ := hm.alrm line hline
    refine ⟨hcurrent, ?_, htime⟩
    exact halrm.resolve_left (by rw [hline]; exact Option.some_ne_none line)

/-- With neither a timer nor an expired one only mask and dispositions matter. -/
theorem Sound.of_idle {time : Int} {m : Machine} (hsaved : ∀ sig, m.saved sig = false)
    (hblocked : ∀ sig, m.blocked sig = m.pc.inHandler)
    (hdisposition : ∀ sig, m.disposition sig =
      if m.pc = .handler sig.other .reinstall then .SIG_IGN else .handler)
    (htimer : m.timer = none) (halrm : m.alrm = none) : m.Sound time where
  saved := hsaved
  blocked := hblocked
  disposition := hdisposition
  timer line hline := by
    rw [htimer] at hline
    cases hline
  alrm line hline := by
    rw [halrm] at hline
    cases hline

theorem Sound.main {time : Int} {m m' : Machine} (hm : m.Sound time) (hquiet : m.Quiet)
    (hmain : m.pc.inHandler = false) (hcode : m.code time = some m') :
    m'.Sound time := by
  have hold : ∀ sig, m.pc ≠ .handler sig .reinstall := by
    intro sig hpc
    rw [hpc] at hmain
    cases hmain
  have hquietAlrm : m.alrm = none := hm.quiet_alrm hmain hquiet
  have hgo {pid : Int} {pc : Pc} (hpc : pc.inHandler = false)
      (htimer : m.timer = none ∨ pc.timed) : Sound time { m with pid, pc } := by
    refine hm.goto (hpc.trans hmain.symm) hold ?_ htimer (.inl hquietAlrm)
    intro sig heq
    rw [heq] at hpc
    cases hpc
  cases hpc : m.pc with
  | prompt =>
      simp only [Machine.code, hpc, Option.some.injEq] at hcode
      subst hcode
      exact hgo rfl (.inl (hm.timer_eq_none (by rw [hpc]; rfl)))
  | alarm =>
      simp only [Machine.code, hpc, Option.some.injEq] at hcode
      subst hcode
      have hfork : Sound time { m with pc := .fork } := hgo rfl (.inr rfl)
      refine { hfork with timer := ?_ }
      intro line hline
      by_cases htime : time = 0
      · rw [if_neg (not_not.mpr htime), hm.timer_eq_none (by rw [hpc]; rfl)] at hline
        cases hline
      · rw [if_pos htime] at hline
        exact ⟨(Option.some.inj hline).symm, hquietAlrm, rfl, htime⟩
  | forked ret =>
      simp only [Machine.code, hpc, Option.some.injEq] at hcode
      subst hcode
      exact hgo rfl (.inr rfl)
  | forkTest =>
      simp only [Machine.code, hpc, Option.some.injEq] at hcode
      subst hcode
      apply hgo
      · split
        · rfl
        · split <;> rfl
      · right
        split
        · rfl
        · split <;> rfl
  | waited ret =>
      simp only [Machine.code, hpc, Option.some.injEq] at hcode
      subst hcode
      exact hgo rfl (.inr rfl)
  | waitTest =>
      simp only [Machine.code, hpc, Option.some.injEq] at hcode
      subst hcode
      apply hgo
      · split <;> rfl
      · right
        split <;> rfl
  | alarmOff =>
      simp only [Machine.code, hpc, Option.some.injEq] at hcode
      subst hcode
      have hprompt : Sound time { m with pc := .prompt, timer := none } :=
        .of_idle hm.saved (fun sig => by rw [hm.blocked sig, hmain]; rfl)
          (fun sig => by rw [hm.disposition sig, if_neg (hold sig.other)]; rfl) rfl
          hquietAlrm
      -- without a time limit there is no timer that `alarm(0)` would have to cancel
      have hnone : (if time ≠ 0 then none else m.timer) = none := by
        by_cases htime : time = 0
        · rw [if_neg (not_not.mpr htime)]
          cases htimer : m.timer with
          | none => rfl
          | some line => exact absurd htime (hm.timer line htimer).2.2.2
        · rw [if_pos htime]
      rw [hnone]
      exact hprompt
  | handler sig pc =>
      rw [hpc] at hmain
      cases hmain
  | fgets | fork | execlp | waitpid | exit => simp [Machine.code, hpc] at hcode

theorem Sound.goto_handler {time : Int} {m : Machine} (hm : m.Sound time) {sig : Signal}
    {pc pc' : HandlerPc} {pid : Int} (hpc : m.pc = .handler sig pc)
    (hold : pc ≠ .reinstall) (hnew : pc' ≠ .reinstall)
    (htimer : m.timer = none ∨ (Pc.handler sig pc').timed)
    (halrm : m.alrm = none ∨ (Pc.handler sig pc').expirable) :
    Sound time { m with pid, pc := .handler sig pc' } := by
  refine hm.goto (by rw [hpc]; rfl) ?_ ?_ htimer halrm
  · intro sig' heq
    rw [hpc] at heq
    exact hold (Pc.handler.inj heq).2
  · intro sig' heq
    exact hnew (Pc.handler.inj heq).2

/-- Up to its `alarm(0)` a `sig_quit` may still find the timer of its line. -/
theorem Sound.goto_timed {time : Int} {m : Machine} (hm : m.Sound time) {sig : Signal}
    {pc pc' : HandlerPc} {pid : Int} (hpc : m.pc = .handler sig pc)
    (hold : pc ≠ .reinstall) (hnew : pc' ≠ .reinstall)
    (htimed : (Pc.handler .SIGQUIT pc').timed) :
    Sound time { m with pid, pc := .handler sig pc' } := by
  cases sig with
  | SIGALRM =>
      exact hm.goto_handler hpc hold hnew (.inl (hm.timer_eq_none (by rw [hpc]; rfl)))
        (.inl (hm.alrm_eq_none (by rw [hpc]; rfl)))
  | SIGQUIT =>
      exact hm.goto_handler hpc hold hnew (.inr htimed) (.inr (Pc.expirable_of_timed htimed))

theorem Sound.handlerStep {time : Int} {m m' : Machine} {sig : Signal} {pc : HandlerPc}
    (hm : m.Sound time) (hpc : m.pc = .handler sig pc)
    (hstep : handlerStep sig (sig = .SIGQUIT) m pc = some m') : m'.Sound time := by
  have hblocked : ∀ sig, m.blocked sig = true := by
    intro sig'
    rw [hm.blocked sig', hpc]
    rfl
  cases pc with
  | test =>
      simp only [Machine.handlerStep, Option.some.injEq] at hstep
      subst hstep
      exact hm.goto_timed hpc (by simp) (by split <;> simp) (by split <;> rfl)
  | kill => cases hstep
  | clear =>
      simp only [Machine.handlerStep, Option.some.injEq] at hstep
      subst hstep
      exact hm.goto_timed hpc (by simp) (by simp) rfl
  | print =>
      simp only [Machine.handlerStep, Option.some.injEq] at hstep
      subst hstep
      cases sig with
      | SIGALRM =>
          exact hm.goto_handler hpc (by simp) (by simp)
            (.inl (hm.timer_eq_none (by rw [hpc]; rfl)))
            (.inl (hm.alrm_eq_none (by rw [hpc]; rfl)))
      | SIGQUIT => exact hm.goto_timed hpc (by simp) (by simp) rfl
  | cancel =>
      simp only [Machine.handlerStep, Option.some.injEq] at hstep
      subst hstep
      refine ⟨hm.saved, fun sig' => hblocked sig', ?_, by simp, ?_⟩
      · intro sig'
        have hsig := hm.disposition sig'
        rw [hpc, if_neg (by simp)] at hsig
        rw [if_neg (by simp)]
        exact hsig
      · intro line hline
        obtain ⟨hcurrent, hexpirable, htime⟩ := hm.alrm line hline
        refine ⟨hcurrent, ?_, htime⟩
        rw [hpc] at hexpirable
        cases sig with
        | SIGALRM => exact hexpirable
        | SIGQUIT => rfl
  | sigpending =>
      simp only [Machine.handlerStep, Option.some.injEq] at hstep
      subst hstep
      have htimer : m.timer = none := hm.timer_eq_none (by rw [hpc]; cases sig <;> rfl)
      refine hm.goto_handler hpc (by simp) (by split <;> simp) (.inl htimer) ?_
      cases sig with
      | SIGALRM => exact .inl (hm.alrm_eq_none (by rw [hpc]; rfl))
      | SIGQUIT =>
          cases halrm : m.alrm with
          | none => exact .inl rfl
          | some line =>
              right
              simp [Signal.other, Machine.pending, halrm, Pc.expirable]
  | ignore =>
      simp only [Machine.handlerStep, Option.some.injEq] at hstep
      subst hstep
      have htimer : m.timer = none := hm.timer_eq_none (by rw [hpc]; cases sig <;> rfl)
      have hhandler : ∀ sig', m.disposition sig' = .handler := by
        intro sig'
        rw [hm.disposition sig', hpc, if_neg (by simp)]
      cases sig with
      | SIGALRM =>
          refine .of_idle hm.saved hblocked ?_ htimer (hm.alrm_eq_none (by rw [hpc]; rfl))
          intro sig'
          cases sig' with
          | SIGALRM => exact hhandler .SIGALRM
          | SIGQUIT => rfl
      | SIGQUIT =>
          refine .of_idle hm.saved hblocked ?_ htimer rfl
          intro sig'
          cases sig' with
          | SIGALRM => rfl
          | SIGQUIT => exact hhandler .SIGQUIT
  | reinstall =>
      simp only [Machine.handlerStep, Option.some.injEq] at hstep
      subst hstep
      have htimer : m.timer = none := hm.timer_eq_none (by rw [hpc]; cases sig <;> rfl)
      have halrm : m.alrm = none := hm.alrm_eq_none (by rw [hpc]; cases sig <;> rfl)
      refine .of_idle hm.saved hblocked ?_ htimer halrm
      intro sig'
      by_cases hsig : sig' = sig.other
      · rw [hsig, if_neg (by simp [Machine.goto])]
        simp [Machine.goto, Machine.signal]
      · have hother := hm.disposition sig'
        rw [hpc, if_neg] at hother
        · rw [if_neg (by simp [Machine.goto])]
          simpa [Machine.goto, Machine.signal, hsig] using hother
        · intro heq
          apply hsig
          rw [(Pc.handler.inj heq).1]
          cases sig' <;> rfl
  | siglongjmp =>
      simp only [Machine.handlerStep, Option.some.injEq] at hstep
      subst hstep
      refine .of_idle hm.saved hm.saved ?_
        (hm.timer_eq_none (by rw [hpc]; cases sig <;> rfl))
        (hm.alrm_eq_none (by rw [hpc]; cases sig <;> rfl))
      intro sig'
      rw [if_neg (by simp)]
      rw [hm.disposition sig', hpc, if_neg (by simp)]

theorem Sound.code {time : Int} {m m' : Machine} (hm : m.Sound time) (hquiet : m.Quiet)
    (hcode : m.code time = some m') : m'.Sound time := by
  cases hpc : m.pc with
  | handler sig pc =>
      apply hm.handlerStep hpc
      rw [← hcode]
      cases sig with
      | SIGALRM => simp [Machine.code, hpc, sig_alrm]
      | SIGQUIT => simp [Machine.code, hpc, sig_quit]
  | _ => exact hm.main hquiet (by rw [hpc]; rfl) hcode

theorem Sound.generate {time : Int} {m : Machine} (hm : m.Sound time) (line : Nat) :
    (m.generate .SIGQUIT line).Sound time := by
  unfold Machine.generate
  split
  · exact hm
  · exact ⟨hm.saved, hm.blocked, hm.disposition, hm.timer, hm.alrm⟩

theorem Sound.expire {time : Int} {m : Machine} {line : Nat} (hm : m.Sound time)
    (htimer : m.timer = some line) :
    Sound time { m.generate .SIGALRM line with timer := none } := by
  obtain ⟨hcurrent, hnone, htimed, htime⟩ := hm.timer line htimer
  have hhandler : m.disposition .SIGALRM = .handler := by
    rw [hm.disposition, if_neg]
    intro hpc
    rw [hpc] at htimed
    cases htimed
  have hgenerate : m.generate .SIGALRM line = { m with alrm := some line } := by
    simp [Machine.generate, hhandler, hnone]
  rw [hgenerate]
  refine ⟨hm.saved, hm.blocked, hm.disposition, by simp, ?_⟩
  intro line' hline
  obtain rfl := Option.some.inj hline
  exact ⟨hcurrent, Pc.expirable_of_timed htimed, htime⟩

theorem Sound.deliver {time : Int} {m : Machine} {sig : Signal} (hm : m.Sound time)
    (hpending : m.pending sig) (hblocked : m.blocked sig = false) :
    (m.deliver sig).Sound time := by
  have hmain : m.pc.inHandler = false := by
    rw [← hm.blocked sig, hblocked]
  have hhandler : ∀ sig, m.disposition sig = .handler := by
    intro sig'
    rw [hm.disposition, if_neg]
    intro hpc
    rw [hpc] at hmain
    cases hmain
  have hmask : ∀ sig', (m.blocked sig' || sig' = sig || sig' = sig.other) = true := by
    intro sig'
    cases sig <;> cases sig' <;> simp [Signal.other]
  simp only [Machine.deliver, hhandler]
  cases sig with
  | SIGALRM =>
      have htimer : m.timer = none := by
        cases htimer : m.timer with
        | none => rfl
        | some line =>
            rw [Machine.pending, (hm.timer line htimer).2.1] at hpending
            cases hpending
      exact .of_idle hm.saved hmask (fun sig => by rw [if_neg (by simp)]; exact hhandler sig)
        htimer rfl
  | SIGQUIT =>
      refine ⟨hm.saved, hmask, ?_, ?_, ?_⟩
      · intro sig
        rw [if_neg (by simp)]
        exact hhandler sig
      · intro line hline
        obtain ⟨hcurrent, hnone, -, htime⟩ := hm.timer line hline
        exact ⟨hcurrent, hnone, rfl, htime⟩
      · intro line hline
        obtain ⟨hcurrent, -, htime⟩ := hm.alrm line hline
        exact ⟨hcurrent, rfl, htime⟩

theorem Sound.goto_main {time : Int} {m : Machine} (hm : m.Sound time) {pc : Pc}
    (hold : m.pc.inHandler = false) (hnew : pc.inHandler = false) (htimed : pc.timed) :
    (m.goto pc).Sound time := by
  refine hm.goto (hnew.trans hold.symm) ?_ ?_ (.inr htimed)
    (.inr (Pc.expirable_of_timed htimed))
  · intro sig hpc
    rw [hpc] at hold
    cases hold
  · intro sig hpc
    rw [hpc] at hnew
    cases hnew

theorem Sound.alone {time : Int} {m m' : Machine} (hm : m.Sound time)
    (hmove : Alone time m m') : m'.Sound time := by
  cases hmove with
  | code hquiet hcode => exact hm.code hquiet hcode
  | fgets hpc line =>
      cases line with
      | true =>
          exact .of_idle hm.saved (fun sig => (hm.blocked sig).trans (by rw [hpc]; rfl))
            (fun sig => (hm.disposition sig).trans (by rw [hpc]; rfl))
            (hm.timer_eq_none (by rw [hpc]; rfl)) (hm.alrm_eq_none (by rw [hpc]; rfl))
      | false => exact hm.goto_main (by rw [hpc]; rfl) rfl rfl
  | forkFails hpc => exact hm.goto_main (by rw [hpc]; rfl) rfl rfl
  | execFails hpc => exact hm.goto_main (by rw [hpc]; rfl) rfl rfl
  | expire htimer => exact hm.expire htimer

theorem Sound.move {time : Int} {m m' : Machine} (hm : m.Sound time)
    (hmove : Move time m m') : m'.Sound time := by
  cases hmove with
  | alone hmove => exact hm.alone hmove
  | deliver hpending hblocked => exact hm.deliver hpending hblocked
  | quit => exact hm.generate 0
  | forked hpc hpos => exact hm.goto_main (by rw [hpc]; rfl) rfl rfl
  | waited hpc => exact hm.goto_main (by rw [hpc]; rfl) rfl rfl
  | killed hpc => exact hm.goto_timed hpc (by simp) (by simp) rfl

theorem Sound.child {time : Int} {m : Machine} (hm : m.Sound time) (hpc : m.pc = .fork) :
    m.child.Sound time :=
  .of_idle hm.saved (fun sig => (hm.blocked sig).trans (by rw [hpc]; rfl))
    (fun sig => (hm.disposition sig).trans (by rw [hpc]; rfl)) rfl rfl

theorem Sound.start (time : Int) : Sound time .start :=
  .of_idle (fun _ => rfl) (fun _ => rfl) (fun _ => rfl) rfl rfl

end Machine

theorem reachable_sound {time : Int} {root : Nat} {s : Processes}
    (hs : (shell time root).Reachable s) {p : Nat} {m : Machine}
    (hp : (s p).prog = some m) : m.Sound time :=
  Processes.reachable_prog (.start time) (fun _ _ hm hmove => hm.move hmove)
    (fun _ hm hpc => hm.child hpc) hs p m hp

/-- Whenever a line is about to be read nothing is armed, pending, blocked or
ignored, and a `SIGALRM` that is delivered comes from the `alarm(time)` of the
current line, which has not come to its `alarm(0)`. -/
theorem no_stale_timeout {time : Int} {root : Nat} {s : Processes}
    (hs : (shell time root).Reachable s) {p : Nat} {m : Machine}
    (hp : (s p).prog = some m) :
    (m.pc = .fgets →
        m.timer = none ∧ m.pending .SIGALRM = false ∧
          ∀ sig, m.blocked sig = false ∧ m.disposition sig = .handler) ∧
      ∀ s', (shell time root).Step s (.deliver p .SIGALRM) s' →
        m.alrm = some m.line ∧ m.pc.timed := by
  have hm := reachable_sound hs hp
  constructor
  · intro hpc
    refine ⟨hm.timer_eq_none (by rw [hpc]; rfl), ?_, ?_⟩
    · rw [Machine.pending, hm.alrm_eq_none (by rw [hpc]; rfl)]
      rfl
    · intro sig
      rw [hm.blocked sig, hm.disposition sig, hpc]
      exact ⟨rfl, if_neg (by simp)⟩
  · intro s' hdeliver
    obtain ⟨m', hp', hnext⟩ := Option.bind_eq_some_iff.mp hdeliver
    obtain rfl := Option.some.inj (hp.symm.trans hp')
    obtain ⟨⟨hpending, hblocked⟩, -⟩ := Option.ite_none_right_eq_some.mp hnext
    obtain ⟨line, halrm⟩ := Option.isSome_iff_exists.mp hpending
    obtain ⟨rfl, hexpirable, -⟩ := hm.alrm line halrm
    refine ⟨halrm, ?_⟩
    have hmain : m.pc.inHandler = false := by
      rw [← hm.blocked .SIGALRM]
      simpa using hblocked
    unfold Pc.expirable at hexpirable
    split at hexpirable
    · rename_i hpc
      rw [hpc] at hmain
      cases hmain
    · rename_i hpc
      rw [hpc] at hmain
      cases hmain
    · exact hexpirable

/-- The timer of the first line expires in front of `fork`. -/
theorem no_stale_timeout_first_line :
    ∃ s m, (shell 5 1).Reachable s ∧ (s 1).prog = some m ∧ m.pc = .fork ∧
      m.pending .SIGALRM = true ∧
      (m.pc = .fgets →
          m.timer = none ∧ m.pending .SIGALRM = false ∧
            ∀ sig, m.blocked sig = false ∧ m.disposition sig = .handler) ∧
        ∀ s', (shell 5 1).Step s (.deliver 1 .SIGALRM) s' →
          m.alrm = some m.line ∧ m.pc.timed := by
  obtain ⟨s, hschedule, m, hp, hpc, hpending⟩ :
      ∃ s, (Processes.onlyShell 1).schedule 5
          [.code 1, .fgets 1 true, .code 1, .expire 1] = some s ∧
        ∃ m, (s 1).prog = some m ∧ m.pc = .fork ∧ m.pending .SIGALRM = true :=
    ⟨_, rfl, _, rfl, rfl, rfl⟩
  have hs := Processes.schedule_reachable hschedule
  exact ⟨s, m, hs, hp, hpc, hpending, no_stale_timeout hs hp⟩

end ApueCourse.Shell
