import Mathlib.Logic.Function.Basic

/-!
# A lock and the thread inside

Threads are inside or outside of what a lock protects, by the place they are at in their program. The lock says who is
inside.
-/
namespace Xv6Riscv.Mutex
open Function

variable {τ : Type} {lock : Option τ} {inside : τ → Bool} {t u : τ}

/-- The lock is held by the thread inside. -/
def Excl (lock : Option τ) (inside : τ → Bool) : Prop := ∀ t, lock = some t ↔ inside t = true

namespace Excl

theorem unique (h : Excl lock inside) (ht : inside t = true) (hu : inside u = true) : u = t := by
  have ht := (h t).2 ht
  have hu := (h u).2 hu
  rw [ht] at hu
  cases hu
  rfl

theorem outside (h : Excl lock inside) (ht : inside t = true) (hu : u ≠ t) : inside u = false := by
  by_contra hin
  exact hu (h.unique ht (by simpa using hin))

variable [DecidableEq τ]

theorem enter (h : Excl none inside) : Excl (some t) (update inside t true) := by
  intro u
  by_cases hu : u = t
  · subst hu
    simp
  · simpa [update_of_ne hu, Ne.symm hu] using h u

theorem leave (h : Excl (some t) inside) : Excl none (update inside t false) := by
  intro u
  by_cases hu : u = t
  · subst hu
    simp
  · simpa [update_of_ne hu, Ne.symm hu] using h u

theorem stay {b : Bool} (h : Excl lock inside) (hb : inside t = b) : Excl lock (update inside t b) := by
  rwa [← hb, update_eq_self]

end Excl
end Xv6Riscv.Mutex
