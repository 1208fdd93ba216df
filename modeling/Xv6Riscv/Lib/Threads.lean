import Mathlib.Logic.Function.Basic
import Xv6Riscv.Lib.Machine

/-!
# Threads that interleave action by action

A program is a tree: it ends with a value, or it performs an action on the shared state and goes on
with the result. A pool runs one program in each thread and a scheduler picks, action by action, whose
turn it is.

The rules of a logic give every thread a *view*, what it owns and knows, and say for every action what a
thread with a given view may conclude from performing it. `wp` extends the rules to programs. When each
action keeps a global invariant, gives its thread the view the rules promise and leaves the view of every
running thread alone (`Sound`), what `wp` says of the programs is true of the pool under every
interleaving (`Holds.next`, `Reach.holds`).
-/
namespace Xv6Riscv.Threads
open Machine Function

/-- A program over the actions `A`, where the action `a` answers with an `R a`. -/
inductive Prog (A : Type) (R : A → Type) (α : Type) : Type
  | ret (x : α)
  | act (a : A) (k : R a → Prog A R α)

namespace Prog
variable {A : Type} {R : A → Type} {α β : Type}

def bind : Prog A R α → (α → Prog A R β) → Prog A R β
  | ret x, f => f x
  | act a k, f => act a fun r => (k r).bind f

instance : Monad (Prog A R) where
  pure := ret
  bind := bind

instance : LawfulMonad (Prog A R) :=
  LawfulMonad.mk' _
    (fun p => by
      induction p with
      | ret x => rfl
      | act a k ih => exact congrArg (act a) (funext ih))
    (fun _ _ => rfl)
    (fun p f g => by
      induction p with
      | ret x => rfl
      | act a k ih => exact congrArg (act a) (funext ih))

/-- The program that performs one action. -/
def perform (a : A) : Prog A R (R a) := act a ret

def isRet : Prog A R α → Bool
  | ret _ => true
  | act _ _ => false

end Prog

/-! ## Pools -/

section
variable {τ U A : Type} {R : A → Type} {σ π : Type}

/-- The shared state, and what each thread has still to do: a thread at `ret` is idle. -/
structure Pool (τ : Type) {A : Type} (R : A → Type) (σ : Type) where
  shared : σ
  todo : τ → Prog A R Unit

def Pool.idle (s : Pool τ R σ) (t : τ) : Prop := s.todo t = .ret ()

inductive Event (τ U : Type) where
  /-- The idle thread `t` begins the program of the call `u`. -/
  | start (t : τ) (u : U)
  /-- The thread `t` performs its next action. -/
  | next (t : τ)
deriving DecidableEq

/-- The thread whose event it is. -/
def Event.by : Event τ U → τ
  | .start t _ => t
  | .next t => t

/-- What the actions do to the shared state, and what the calls are. -/
structure System (τ U : Type) {A : Type} (R : A → Type) (σ π : Type) where
  exec : σ → τ → (a : A) → Outcome π (R a × σ)
  enabled : σ → τ → U → Bool
  code : U → Prog A R Unit

variable [DecidableEq τ]

def System.step (S : System τ U R σ π) (s : Pool τ R σ) : Event τ U → Outcome π (Pool τ R σ)
  | .start t u =>
    if (s.todo t).isRet && S.enabled s.shared t u then
      .ok { s with todo := update s.todo t (S.code u) }
    else .stuck
  | .next t =>
    match s.todo t with
    | .ret _ => .stuck
    | .act a k => (S.exec s.shared t a).bind fun (r, σ') => .ok ⟨σ', update s.todo t (k r)⟩

/-- The condition `ok` on actions as a condition on events. -/
def nextOk (ok : σ → τ → A → Prop) (s : Pool τ R σ) : Event τ U → Prop
  | .start _ _ => True
  | .next t =>
    match s.todo t with
    | .ret _ => True
    | .act a _ => ok s.shared t a

instance (ok : σ → τ → A → Prop) [∀ s t a, Decidable (ok s t a)] (s : Pool τ R σ) (e : Event τ U) :
    Decidable (nextOk ok s e) :=
  decidable_of_iff
    ((match e with
      | .start _ _ => true
      | .next t =>
        match s.todo t with
        | .ret _ => true
        | .act a _ => decide (ok s.shared t a)) = true) <| by
    cases e with
    | start t u => simp [nextOk]
    | next t =>
      simp only [nextOk]
      cases s.todo t <;> simp

variable {s s' s₀ : Pool τ R σ} {S : System τ U R σ π} {t q : τ} {u : U}

theorem System.start_eq_ok : S.step s (.start t u) = .ok s' ↔ s.idle t ∧ S.enabled s.shared t u = true ∧
      s' = { s with todo := update s.todo t (S.code u) } := by
  have hidle : (s.todo t).isRet = true ↔ s.idle t := by
    unfold Pool.idle
    cases s.todo t <;> simp [Prog.isRet]
  simp only [System.step, Bool.and_eq_true, hidle]
  split <;> grind

theorem System.next_eq_ok :
    S.step s (.next t) = .ok s' ↔ ∃ a k r σ', s.todo t = .act a k ∧ S.exec s.shared t a = .ok (r, σ') ∧
      s' = ⟨σ', update s.todo t (k r)⟩ := by
  simp only [System.step]
  cases hp : s.todo t with
  | ret x => simp
  | act a k =>
    constructor
    · intro h
      obtain ⟨⟨r, σ'⟩, hex, he⟩ := Outcome.bind_eq_ok.1 h
      cases he
      exact ⟨a, k, r, σ', rfl, hex, rfl⟩
    · rintro ⟨a', k', r, σ', heq, hex, rfl⟩
      cases heq
      change (S.exec s.shared t a).bind _ = _
      rw [hex, Outcome.bind_ok]

/-- The program run to its end by the thread `t`, with nobody in between. -/
def Prog.alone {α : Type} (exec : σ → τ → (a : A) → Outcome π (R a × σ)) (t : τ) : Prog A R α → σ → Outcome π (α × σ)
  | .ret x, s => .ok (x, s)
  | .act a k, s => (exec s t a).bind fun (r, s') => (k r).alone exec t s'

omit [DecidableEq τ] in
theorem Prog.alone_bind {α β : Type} {exec : σ → τ → (a : A) → Outcome π (R a × σ)} (p : Prog A R α)
    (f : α → Prog A R β) (s : σ) :
    (p >>= f).alone exec t s = (p.alone exec t s).bind fun (x, s') => (f x).alone exec t s' := by
  induction p generalizing s with
  | ret x => rfl
  | act a k ih =>
    change (exec s t a).bind (fun (r, s') => ((k r).bind f).alone exec t s') = ((exec s t a).bind _).bind _
    cases exec s t a with
    | ok x => exact ih x.1 x.2
    | stuck => rfl
    | halt m => rfl

theorem System.run_alone (S : System τ U R σ π) (p : Prog A R Unit)
    (hp : s.todo t = p) {σ' : σ} (h : p.alone S.exec t s.shared = .ok ((), σ')) :
    ∃ n, run S.step s (List.replicate n (.next t)) = .ok ⟨σ', update s.todo t (.ret ())⟩ := by
  induction p generalizing s with
  | ret x =>
    cases h
    refine ⟨0, ?_⟩
    rw [← hp, update_eq_self]
    rfl
  | act a k ih =>
    obtain ⟨⟨r, σ₁⟩, hex, hk⟩ := Outcome.bind_eq_ok.1 h
    obtain ⟨n, hn⟩ := ih r (s := ⟨σ₁, update s.todo t (k r)⟩) (update_self ..) hk
    refine ⟨n + 1, ?_⟩
    rw [List.replicate_succ, run, System.next_eq_ok.2 ⟨a, k, r, σ₁, hp, hex, rfl⟩, Outcome.bind_ok, hn]
    simp

/-- The states in which the thread `q` is at work on the call `u` that it made in `s₀`, up to the state
in which it has just finished. -/
inductive During (S : System τ U R σ π) (ok : σ → τ → A → Prop) (q : τ) (u : U) (s₀ : Pool τ R σ) :
    Pool τ R σ → Prop
  | start {s : Pool τ R σ} : S.step s₀ (.start q u) = .ok s → During S ok q u s₀ s
  | step {s s' : Pool τ R σ} (e : Event τ U) : During S ok q u s₀ s → ¬ s.idle q → nextOk ok s e →
      S.step s e = .ok s' → During S ok q u s₀ s'

variable {ok : σ → τ → A → Prop}

theorem During.enabled (hd : During S ok q u s₀ s) : S.enabled s₀.shared q u = true := by
  induction hd with
  | start hstep => exact (System.start_eq_ok.1 hstep).2.1
  | step e _ _ _ _ ih => exact ih

variable {init : Pool τ R σ → Prop}

theorem During.reach (hd : During S ok q u s₀ s) (h : Reach S.step init (nextOk ok) s₀) :
    Reach S.step init (nextOk ok) s := by
  induction hd with
  | start hstep => exact .step (.start q u) h trivial hstep
  | step e _ _ hok hstep ih => exact .step e ih hok hstep

theorem System.todo_of_ne {e : Event τ U} (hne : e.by ≠ t) (h : S.step s e = .ok s') : s'.todo t = s.todo t := by
  cases e with
  | start u c =>
    obtain ⟨-, -, rfl⟩ := System.start_eq_ok.1 h
    exact update_of_ne (Ne.symm hne) _ _
  | next u =>
    obtain ⟨a, k, r, σ', -, -, rfl⟩ := System.next_eq_ok.1 h
    exact update_of_ne (Ne.symm hne) _ _

/-- In `s₀` the thread `t` has come to the part `p` of its program, with `rest` after it. Whatever the others did
since, it now has `q` of that part to do. -/
inductive Inside {α : Type} (S : System τ U R σ π) (t : τ) (p : Prog A R α) (rest : α → Prog A R Unit)
    (s₀ : Pool τ R σ) : Prog A R α → Pool τ R σ → Prop
  | enter : s₀.todo t = (p >>= rest) → Inside S t p rest s₀ p s₀
  | own {s : Pool τ R σ} {a : A} {k : R a → Prog A R α} {r : R a} {σ' : σ} : Inside S t p rest s₀ (.act a k) s →
      S.exec s.shared t a = .ok (r, σ') → Inside S t p rest s₀ (k r) ⟨σ', update s.todo t (k r >>= rest)⟩
  | other {q : Prog A R α} {s s' : Pool τ R σ} (e : Event τ U) : Inside S t p rest s₀ q s → e.by ≠ t →
      S.step s e = .ok s' → Inside S t p rest s₀ q s'

namespace Inside
variable {α : Type} {S : System τ U R σ π} {t : τ} {p q : Prog A R α} {rest : α → Prog A R Unit} {s₀ s : Pool τ R σ}

theorem todo (h : Inside S t p rest s₀ q s) : s.todo t = (q >>= rest) := by
  induction h with
  | enter h => exact h
  | own _ _ _ => exact update_self ..
  | other e _ hne hstep ih => rw [System.todo_of_ne hne hstep, ih]

theorem reach (h : Inside S t p rest s₀ q s) (h₀ : Reach S.step init (fun _ _ => True) s₀) :
    Reach S.step init (fun _ _ => True) s := by
  induction h with
  | enter _ => exact h₀
  | own hin hex ih => exact .step (.next t) ih trivial (System.next_eq_ok.2 ⟨_, _, _, _, hin.todo, hex, rfl⟩)
  | other e _ _ hstep ih => exact .step e ih trivial hstep

/-- What holds of a program and of all that can be left of it. -/
theorem closed {P : Prog A R α → Prop} (hP : ∀ {a k} r, P (.act a k) → P (k r)) (hp : P p)
    (h : Inside S t p rest s₀ q s) : P q := by
  induction h with
  | enter _ => exact hp
  | own _ _ ih => exact hP _ ih
  | other _ _ _ _ ih => exact ih

end Inside

end

/-! ## Rules and weakest preconditions -/

/-- What a thread may conclude from an action. `Ready` holds of the view of a thread that may run, and
`Valid` of every view there is. -/
structure Rules (τ : Type) {A : Type} (R : A → Type) (V : Type) where
  Ready : τ → V → Prop
  Valid : V → Prop
  act : τ → (a : A) → V → (R a → V → Prop) → Prop
  mono : ∀ {t a v} {Q Q' : R a → V → Prop}, (∀ r v', Q r v' → Q' r v') → act t a v Q → act t a v Q'

section
variable {τ U A : Type} {R : A → Type} {σ π V α β : Type}

namespace Rules

/-- With the view `v`, the thread `t` can run the program, and `Q` holds when it ends. -/
def wp (L : Rules τ R V) (t : τ) : Prog A R α → V → (α → V → Prop) → Prop
  | .ret x, v, Q => Q x v
  | .act a k, v, Q => L.Ready t v ∧ (L.Valid v → L.act t a v fun r v' => L.wp t (k r) v' Q)

variable {L : Rules τ R V} {t : τ} {v : V}

@[simp] theorem wp_ret (x : α) (Q : α → V → Prop) : L.wp t (.ret x) v Q ↔ Q x v := Iff.rfl

@[simp] theorem wp_pure (x : α) (Q : α → V → Prop) : L.wp t (pure x) v Q ↔ Q x v := Iff.rfl

theorem wp_bind (p : Prog A R α) (f : α → Prog A R β) (Q : β → V → Prop) :
    L.wp t (p >>= f) v Q ↔ L.wp t p v fun x v' => L.wp t (f x) v' Q := by
  induction p generalizing v with
  | ret x => exact Iff.rfl
  | act a k ih =>
    -- the continuations agree as predicates, so the rule of the action says the same of both
    have hk : (fun r v' => L.wp t ((k r).bind f) v' Q) =
        fun r v' => L.wp t (k r) v' fun x v' => L.wp t (f x) v' Q := by
      funext r v'
      exact propext (ih r)
    change (L.Ready t v ∧ (L.Valid v → L.act t a v fun r v' => L.wp t ((k r).bind f) v' Q)) ↔ _
    rw [hk]
    exact Iff.rfl

theorem wp_mono {p : Prog A R α} {Q Q' : α → V → Prop} (h : L.wp t p v Q) (hQ : ∀ x v', Q x v' → Q' x v') :
    L.wp t p v Q' := by
  induction p generalizing v with
  | ret x => exact hQ x v h
  | act a k ih => exact ⟨h.1, fun hv => L.mono (fun r v' hr => ih r hr) (h.2 hv)⟩

end Rules

/-! ## Soundness -/

variable [DecidableEq τ]

/-- The actions keep the invariant `Inv` of the shared state and the views, and do what the rules say.
A thread that an action puts to another use is not `Ready` and ends up at `Rest`. Only the panics that
`bad` allows stop the machine. -/
structure Sound (S : System τ U R σ π) (L : Rules τ R V) (Inv : σ → (τ → V) → Prop) (Rest : τ → V → Prop)
    (ok : σ → τ → A → Prop) (bad : π → Prop) : Prop where
  valid : ∀ {s W} (t : τ), Inv s W → L.Valid (W t)
  exec : ∀ {s W t a r s'} {Q : R a → V → Prop}, Inv s W → L.Ready t (W t) → L.act t a (W t) Q → ok s t a →
    S.exec s t a = .ok (r, s') →
      ∃ W', Inv s' W' ∧ Q r (W' t) ∧ ∀ u, u ≠ t → W' u = W u ∨ ¬ L.Ready u (W u) ∧ Rest u (W' u)
  halt : ∀ {s W t a p} {Q : R a → V → Prop}, Inv s W → L.Ready t (W t) → L.act t a (W t) Q →
    S.exec s t a = .halt p → bad p
  start : ∀ {s W t u}, Inv s W → S.enabled s t u = true → Rest t (W t) →
    L.wp t (S.code u) (W t) fun _ => Rest t

omit [DecidableEq τ] in
theorem Sound.mono {L : Rules τ R V} {Inv : σ → (τ → V) → Prop} {Rest : τ → V → Prop}
    {ok' : σ → τ → A → Prop} {bad : π → Prop} (h : Sound S L Inv Rest ok bad)
    (hok : ∀ s t a, ok' s t a → ok s t a) : Sound S L Inv Rest ok' bad where
  valid := h.valid
  exec hinv hr ha ho hex := h.exec hinv hr ha (hok _ _ _ ho) hex
  halt := h.halt
  start := h.start

/-- Every thread has a view with which it can finish its program, and then reaches `goal`. -/
def Holds (L : Rules τ R V) (Inv : σ → (τ → V) → Prop) (goal : τ → V → Prop) (s : Pool τ R σ) : Prop :=
  ∃ W, Inv s.shared W ∧ ∀ t, L.wp t (s.todo t) (W t) fun _ => goal t

namespace Holds
variable {S : System τ U R σ π} {L : Rules τ R V} {Inv : σ → (τ → V) → Prop} {Rest goal : τ → V → Prop}
  {ok : σ → τ → A → Prop} {bad : π → Prop} {s s' : Pool τ R σ} {t : τ} {u : U}

variable {goal' : τ → V → Prop}

omit [DecidableEq τ] in
theorem mono (h : Holds L Inv goal s) (hg : ∀ t v, goal t v → goal' t v) : Holds L Inv goal' s := by
  obtain ⟨W, hinv, hwp⟩ := h
  exact ⟨W, hinv, fun t => Rules.wp_mono (hwp t) fun _ v hv => hg t v hv⟩

/-- A step of one thread. Those that are put to another use meanwhile must be content with `Rest`. -/
theorem next (hS : Sound S L Inv Rest ok bad) (h : Holds L Inv goal s)
    (hgoal : ∀ W, Inv s.shared W → ∀ u, u ≠ t → s.idle u → ¬ L.Ready u (W u) → ∀ v, Rest u v → goal u v)
    (hok : nextOk (U := U) ok s (.next t)) (hstep : S.step s (.next t) = .ok s') : Holds L Inv goal s' := by
  obtain ⟨W, hinv, hwp⟩ := h
  obtain ⟨a, k, r, σ', hp, hex, rfl⟩ := System.next_eq_ok.1 hstep
  have ht := hwp t
  simp only [nextOk, hp] at ht hok
  obtain ⟨W', hinv', hq, hother⟩ := hS.exec hinv ht.1 (ht.2 (hS.valid t hinv)) hok hex
  refine ⟨W', hinv', fun u => ?_⟩
  by_cases hu : u = t
  · subst hu
    simpa using hq
  simp only [update_of_ne hu]
  rcases hother u hu with heq | ⟨hnr, hrest⟩
  · rw [heq]
    exact hwp u
  -- a thread in the middle of a program is ready, so this one is idle
  have hwu := hwp u
  cases hpu : s.todo u with
  | act a k =>
    rw [hpu] at hwu
    exact absurd hwu.1 hnr
  | ret x => exact hgoal W hinv u hu hpu hnr _ hrest

theorem start (h : Holds L Inv goal s)
    (hcall : ∀ W, Inv s.shared W → goal t (W t) → L.wp t (S.code u) (W t) fun _ => goal' t)
    (hgoal : ∀ u, u ≠ t → goal' u = goal u) (hstep : S.step s (.start t u) = .ok s') : Holds L Inv goal' s' := by
  obtain ⟨W, hinv, hwp⟩ := h
  obtain ⟨hidle, -, rfl⟩ := System.start_eq_ok.1 hstep
  refine ⟨W, hinv, fun u => ?_⟩
  by_cases hu : u = t
  · subst hu
    have hrest := hwp u
    rw [show s.todo u = .ret () from hidle] at hrest
    simpa using hcall W hinv hrest
  · simpa [update_of_ne hu, hgoal u hu] using hwp u

section
variable (hS : Sound S L Inv Rest ok bad)
include hS

/-- **Adequacy.** In every state that a run reaches, each thread has the view its program needs. -/
theorem of_reach
    (hinit : ∀ s, init s → Holds L Inv Rest s) (h : Reach S.step init (nextOk ok) s) :
    Holds L Inv Rest s := by
  refine h.inv hinit fun s e s' hs hok hstep => ?_
  cases e with
  | next t => exact hs.next hS (fun _ _ _ _ _ _ _ hr => hr) hok hstep
  | start t u =>
    obtain ⟨-, hen, -⟩ := System.start_eq_ok.1 hstep
    exact hs.start (fun W hinv hr => hS.start hinv hen hr) (fun _ _ => rfl) hstep

/-- No run reaches a panic that `bad` does not allow. -/
theorem halt (h : Holds L Inv goal s) {e : Event τ U} {p : π}
    (hstep : S.step s e = .halt p) : bad p := by
  obtain ⟨W, hinv, hwp⟩ := h
  cases e with
  | start t u =>
    simp only [System.step] at hstep
    split at hstep <;> cases hstep
  | next t =>
    have ht := hwp t
    simp only [System.step] at hstep
    cases hp : s.todo t with
    | ret x =>
      rw [hp] at hstep
      cases hstep
    | act a k =>
      rw [hp] at hstep ht
      rcases Outcome.bind_eq_halt.1 hstep with hex | ⟨x, -, hx⟩
      · exact hS.halt hinv ht.1 (ht.2 (hS.valid t hinv)) hex
      · cases hx

/-- **A call keeps its promise.** While `q` is at work on its call, it still has the view it needs to
reach the goal of the call, whatever the other threads do. -/
theorem of_during (h : Holds L Inv Rest s₀)
    {post : V → Prop} (hcall : ∀ W, Inv s₀.shared W → Rest q (W q) → L.wp q (S.code u) (W q) fun _ => post)
    (hd : During S ok q u s₀ s) : Holds L Inv (update Rest q post) s := by
  induction hd with
  | start hstep =>
    refine h.start (fun W hinv hr => ?_) (fun u hu => update_of_ne hu _ _) hstep
    simpa using hcall W hinv hr
  | step e _ hbusy hok hstep ih =>
    have hgoal : ∀ {s : Pool τ R σ} {t : τ}, (s.idle q → q = t) → ∀ u, u ≠ t → s.idle u → ∀ v, Rest u v →
        update Rest q post u v := by
      intro s t hq u hut hidle v hr
      have huq : u ≠ q := by
        rintro rfl
        exact hut (hq hidle)
      rwa [update_of_ne huq]
    cases e with
    | next t => exact ih.next hS (fun _ _ u hu hi _ => hgoal (fun hi => absurd hi hbusy) u hu hi) hok hstep
    | start t u' =>
      obtain ⟨hidle, hen, -⟩ := System.start_eq_ok.1 hstep
      have htq : t ≠ q := by
        rintro rfl
        exact hbusy hidle
      refine ih.start (fun W hinv hr => ?_) (fun _ _ => rfl) hstep
      rw [update_of_ne htq] at hr ⊢
      exact hS.start hinv hen hr

end

end Holds
end
end Xv6Riscv.Threads
