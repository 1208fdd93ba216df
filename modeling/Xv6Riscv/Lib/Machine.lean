/-!
# Machines: runs of a partial step function

A machine is a step function `step : σ → ε → Outcome π σ`. An event is either not enabled in a
state (`stuck`), or stops the whole machine (`halt`, a kernel panic), or leads to the next state.
Nothing here names the kernel: the models instantiate it, and their safety theorems are
`Reach.inv` at an invariant and at the events allowed by a condition.
-/
namespace Xv6Riscv.Machine

inductive Outcome (π σ : Type) where
  | stuck
  | halt (p : π)
  | ok (s : σ)
deriving DecidableEq, Repr

variable {π σ ε : Type}

namespace Outcome

/-- Continue after a step that may have stopped the machine. -/
def bind {τ : Type} (r : Outcome π σ) (f : σ → Outcome π τ) : Outcome π τ :=
  match r with
  | stuck => stuck
  | halt p => halt p
  | ok s => f s

@[simp] theorem bind_ok {τ : Type} (s : σ) (f : σ → Outcome π τ) : (ok s : Outcome π σ).bind f = f s := rfl
@[simp] theorem bind_stuck {τ : Type} (f : σ → Outcome π τ) : (stuck : Outcome π σ).bind f = stuck := rfl
@[simp] theorem bind_halt {τ : Type} (p : π) (f : σ → Outcome π τ) : (halt p : Outcome π σ).bind f = halt p := rfl

variable {r : Outcome π σ} {τ : Type}

theorem bind_eq_ok {f : σ → Outcome π τ} {t : τ} : r.bind f = ok t ↔ ∃ s, r = ok s ∧ f s = ok t := by
  cases r <;> simp

theorem bind_eq_halt {f : σ → Outcome π τ} {q : π} :
    r.bind f = halt q ↔ r = halt q ∨ ∃ s, r = ok s ∧ f s = halt q := by
  cases r <;> simp

theorem halt_of_bind_ok {f : σ → τ} {q : π} (h : (r.bind fun s => ok (f s)) = halt q) : r = halt q :=
  (bind_eq_halt.1 h).resolve_right fun ⟨_, _, h⟩ => nomatch h

theorem bind_ne_stuck {f : σ → Outcome π τ} (hr : r ≠ stuck) (hf : ∀ s, f s ≠ stuck) : r.bind f ≠ stuck := by
  cases r with
  | stuck => exact absurd rfl hr
  | halt p => nofun
  | ok s => exact hf s

def isOk : Outcome π σ → Bool
  | ok _ => true
  | _ => false

/-- Check that the machine has stopped with `p`. -/
def halts [DecidableEq π] (p : π) : Outcome π σ → Bool
  | halt q => decide (q = p)
  | _ => false

theorem eq_halt [DecidableEq π] {p : π} (h : r.halts p = true) : r = halt p := by
  cases r with
  | halt q => rw [of_decide_eq_true h]
  | stuck => cases h
  | ok s => cases h

end Outcome

variable (step : σ → ε → Outcome π σ)

/-- The events of a list, one after the other. -/
def run : σ → List ε → Outcome π σ
  | s, [] => .ok s
  | s, e :: es => (step s e).bind fun s' => run s' es

theorem run_append (s : σ) (es fs : List ε) :
    run step s (es ++ fs) = (run step s es).bind fun s' => run step s' fs := by
  induction es generalizing s with
  | nil => rfl
  | cons e es ih =>
    simp only [List.cons_append, run]
    cases step s e <;> simp [ih]

/-- The state after a run that is known to succeed. -/
def after (s : σ) (es : List ε) : σ :=
  match run step s es with
  | .ok s' => s'
  | _ => s

variable {s : σ}

theorem run_eq_after {es : List ε} (h : (run step s es).isOk = true) : run step s es = .ok (after step s es) := by
  unfold after
  cases hr : run step s es <;> simp_all [Outcome.isOk]

theorem step_eq_after {e : ε} (h : (step s e).isOk = true) : step s e = .ok (after step s [e]) := by
  unfold after run run
  cases hs : step s e <;> simp_all [Outcome.isOk]

/-- The states reached from `init` by events that `allowed` accepts in the state they start from. -/
inductive Reach (init : σ → Prop) (allowed : σ → ε → Prop) : σ → Prop
  | init {s : σ} : init s → Reach init allowed s
  | step {s s' : σ} (e : ε) : Reach init allowed s → allowed s e → step s e = .ok s' →
      Reach init allowed s'

variable {step} {init : σ → Prop} {allowed : σ → ε → Prop}

theorem Reach.after_step (h : Reach step init allowed s) (e : ε) (ha : allowed s e)
    (hok : (step s e).isOk = true) : Reach step init allowed (after step s [e]) :=
  .step e h ha (step_eq_after step hok)

theorem Reach.inv {I : σ → Prop} (h0 : ∀ s, init s → I s)
    (hs : ∀ s e s', I s → allowed s e → step s e = .ok s' → I s') (h : Reach step init allowed s) : I s := by
  induction h with
  | init hi => exact h0 _ hi
  | step e _ ha he ih => exact hs _ e _ ih ha he

theorem Reach.mono {allowed' : σ → ε → Prop} (hsub : ∀ s e, allowed s e → allowed' s e)
    (h : Reach step init allowed s) : Reach step init allowed' s := by
  induction h with
  | init hi => exact .init hi
  | step e _ ha he ih => exact .step e ih (hsub _ _ ha) he

theorem Reach.of_run (hall : ∀ s e, allowed s e) :
    ∀ (es : List ε) {s s' : σ}, Reach step init allowed s → run step s es = .ok s' →
      Reach step init allowed s'
  | [], _, _, h, hr => by cases hr; exact h
  | e :: es, s, s', h, hr => by
    obtain ⟨s1, h1, h2⟩ := Outcome.bind_eq_ok.1 hr
    exact Reach.of_run hall es (.step e h (hall s e) h1) h2

variable (step) (allowed) in
/-- Check that a run succeeds and that each event is allowed where it happens. -/
def checked [∀ s e, Decidable (allowed s e)] : σ → List ε → Bool
  | _, [] => true
  | s, e :: es =>
    decide (allowed s e) && match step s e with
      | .ok s' => checked s' es
      | _ => false

theorem Reach.run_checked [∀ s e, Decidable (allowed s e)] :
    ∀ (es : List ε) {s : σ}, Reach step init allowed s → checked step allowed s es = true →
      ∃ s', run step s es = .ok s' ∧ Reach step init allowed s'
  | [], s, h, _ => ⟨s, rfl, h⟩
  | e :: es, s, h, hc => by
    simp only [checked, Bool.and_eq_true, decide_eq_true_eq] at hc
    obtain ⟨ha, hc⟩ := hc
    cases hs : step s e with
    | ok s' =>
      rw [hs] at hc
      obtain ⟨t, hr, ht⟩ := Reach.run_checked es (.step e h ha hs) hc
      exact ⟨t, by rw [run, hs, Outcome.bind_ok, hr], ht⟩
    | stuck => rw [hs] at hc; cases hc
    | halt p => rw [hs] at hc; cases hc

theorem Reach.of_checked [∀ s e, Decidable (allowed s e)] (es : List ε) (h : Reach step init allowed s)
    (hc : checked step allowed s es = true) : Reach step init allowed (after step s es) := by
  obtain ⟨s', hr, hs'⟩ := h.run_checked es hc
  rw [after, hr]
  exact hs'

/-- An event that brings the machine closer to its end, as long as it is not there, gets it there. -/
theorem run_ends {I stop : σ → Prop} {μ : σ → Nat} {e : ε}
    (hstep : ∀ s, I s → stop s ∨ ∃ s', step s e = .ok s' ∧ I s' ∧ μ s' < μ s) :
    ∀ {n : Nat} {s : σ}, I s → μ s ≤ n → ∃ m ≤ n, ∃ s', run step s (List.replicate m e) = .ok s' ∧ I s' ∧ stop s'
  | n, s, hI, hn => by
    rcases hstep s hI with h | ⟨t, ht, hIt, hlt⟩
    · exact ⟨0, Nat.zero_le _, s, rfl, hI, h⟩
    cases n with
    | zero => omega
    | succ n =>
      obtain ⟨m, hm, s', hr, h⟩ := run_ends hstep hIt (Nat.le_of_lt_succ (Nat.lt_of_lt_of_le hlt hn))
      exact ⟨m + 1, Nat.succ_le_succ hm, s', by rw [List.replicate_succ, run, ht, Outcome.bind_ok, hr], h⟩

end Xv6Riscv.Machine
