import Mathlib.Logic.Relation

/-!
# Programs simulated by small steps of a ghost machine

A function of the modelled code is a program `σ → Except π (α × σ)`: it returns a value and the next
state, or stops with a panic. Its specification is a path of small steps over a richer state `κ`,
which carries what the code does not store (references held by local variables, work in progress).
`Sim g c r Q` says that the outcome `r` of a program started in `c` is explained by such a path: a
normal return ends in a ghost state with the returned state and `Q`, and a panic `p` only happens
when a ghost state with `bad p` was on the way. An invariant of the small steps is thereby an
invariant of every program, and it excludes the panics whose `bad` it contradicts.
-/
namespace Xv6Riscv.Simulation

/-- The ghost machine: the concrete state in a ghost state, the small steps, and what a panic shows. -/
structure Ghost (σ κ π : Type) where
  state : κ → σ
  step : κ → κ → Prop
  bad : π → κ → Prop

variable {σ κ π α β : Type} {g : Ghost σ κ π}

/-- A sequence of small steps. -/
def Ghost.Path (g : Ghost σ κ π) : κ → κ → Prop := Relation.ReflTransGen g.step

theorem Ghost.Path.refl (c : κ) : g.Path c c := Relation.ReflTransGen.refl

theorem Ghost.Path.trans {c d e : κ} (h : g.Path c d) (k : g.Path d e) : g.Path c e :=
  Relation.ReflTransGen.trans h k

theorem Ghost.Path.one {c d : κ} (h : g.step c d) : g.Path c d := Relation.ReflTransGen.single h

theorem Ghost.Path.inv {I : κ → Prop} (hs : ∀ c d, I c → g.step c d → I d) {c d : κ}
    (h : g.Path c d) (hc : I c) : I d := by
  induction h with
  | refl => exact hc
  | tail _ hstep ih => exact hs _ _ ih hstep

/-- The outcome `r` of a program started in `c` is explained by small steps. -/
def Sim (g : Ghost σ κ π) (c : κ) (r : Except π (α × σ)) (Q : α → κ → Prop) : Prop :=
  match r with
  | .ok (a, s) => ∃ d, g.state d = s ∧ g.Path c d ∧ Q a d
  | .error p => ∃ d, g.Path c d ∧ g.bad p d

variable {c d : κ} {Q : α → κ → Prop}

theorem Sim.ok {a : α} {s : σ} (hs : g.state c = s) (h : Q a c) : Sim g c (.ok (a, s)) Q :=
  ⟨c, hs, .refl c, h⟩

theorem Sim.ok_step {a : α} {s : σ} (hstep : g.step c d) (hs : g.state d = s) (h : Q a d) : Sim g c (.ok (a, s)) Q :=
  ⟨d, hs, .one hstep, h⟩

theorem Sim.error {p : π} (h : g.bad p c) : Sim g c (.error p : Except π (α × σ)) Q :=
  ⟨c, .refl c, h⟩

variable {r : Except π (α × σ)}

theorem Sim.mono {R : α → κ → Prop} (h : Sim g c r Q) (hQ : ∀ a d, g.Path c d → Q a d → R a d) : Sim g c r R := by
  cases r with
  | ok as =>
    obtain ⟨d, hs, hp, hq⟩ := h
    exact ⟨d, hs, hp, hQ _ _ hp hq⟩
  | error p => exact h

theorem Sim.after (hp : g.Path c d) (h : Sim g d r Q) : Sim g c r Q := by
  cases r with
  | ok as =>
    obtain ⟨e, hs, he, hq⟩ := h
    exact ⟨e, hs, hp.trans he, hq⟩
  | error p =>
    obtain ⟨e, he, hb⟩ := h
    exact ⟨e, hp.trans he, hb⟩

theorem Sim.bind {m : StateT σ (Except π) α} {f : α → StateT σ (Except π) β} {R : β → κ → Prop}
    (hm : Sim g c (m (g.state c)) Q) (hf : ∀ a d, m (g.state c) = .ok (a, g.state d) → Q a d → Sim g d (f a (g.state d)) R) :
    Sim g c ((m >>= f) (g.state c)) R := by
  have hbind : (m >>= f) (g.state c) = (m (g.state c)).bind fun as => f as.1 as.2 := rfl
  rw [hbind]
  cases hr : m (g.state c) with
  | ok as =>
    rw [hr] at hm
    obtain ⟨d, hs, hp, hq⟩ := hm
    have hrest := hf _ _ (hs ▸ hr) hq
    rw [hs] at hrest
    exact hrest.after hp
  | error p =>
    rw [hr] at hm
    exact hm

end Xv6Riscv.Simulation
