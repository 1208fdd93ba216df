import Mathlib.Data.List.Basic
import Mathlib.Logic.Function.Basic

/-!
# Numbered things that are free or belong to a thread

Each thread has a list of numbers below a bound, no number is in two lists, and a map says which numbers are in
none of them.
-/
namespace Xv6Riscv.Owners
open Function

variable {τ : Type} {bound : Nat} {free : Nat → Bool} {owns : τ → List Nat} {t u : τ} {i j : Nat}

structure Owned (bound : Nat) (free : Nat → Bool) (owns : τ → List Nat) : Prop where
  nodup : ∀ t, (owns t).Nodup
  lt : ∀ t, ∀ i ∈ owns t, i < bound
  apart : ∀ t u, ∀ i ∈ owns t, i ∈ owns u → u = t
  free_iff : ∀ i < bound, free i = true ↔ ∀ t, i ∉ owns t

namespace Owned

section
variable (h : Owned bound free owns) (hi : i ∈ owns t)
include h hi

theorem taken : free i = false := by
  by_contra hf
  exact (h.free_iff i (h.lt t i hi)).1 (by simpa using hf) t hi

theorem ne_of_ne (hj : j ∈ owns u) (hu : u ≠ t) : j ≠ i := by
  rintro rfl
  exact hu (h.apart t u j hi hj)

theorem not_mem (hu : u ≠ t) : i ∉ owns u := fun hj => hu (h.apart t u i hi hj)

end

variable [DecidableEq τ] {l : List Nat}

theorem give (h : Owned bound free owns) (hnone : owns t = []) (hnodup : l.Nodup)
    (hlt : ∀ i ∈ l, i < bound) (hfree : ∀ i ∈ l, free i = true) :
    Owned bound (fun i => if i ∈ l then false else free i) (update owns t l) where
  nodup u := by
    by_cases hu : u = t
    · subst hu
      simpa using hnodup
    · simpa [update_of_ne hu] using h.nodup u
  lt u := by
    by_cases hu : u = t
    · subst hu
      simpa using hlt
    · simpa [update_of_ne hu] using h.lt u
  apart u v i hi hj := by
    -- what was free belonged to nobody
    have hnew : ∀ w, w ≠ t → i ∈ owns w → i ∉ l := fun w _ hw hl => (h.free_iff i (hlt i hl)).1 (hfree i hl) w hw
    by_cases hu : u = t <;> by_cases hv : v = t
    · rw [hu, hv]
    · subst hu
      simp only [update_self, update_of_ne hv] at hi hj
      exact absurd hi (hnew v hv hj)
    · subst hv
      simp only [update_self, update_of_ne hu] at hi hj
      exact absurd hj (hnew u hu hi)
    · simp only [update_of_ne hu, update_of_ne hv] at hi hj
      exact h.apart u v i hi hj
  free_iff i hi := by
    by_cases hl : i ∈ l
    · simp only [hl, if_true, Bool.false_eq_true, false_iff, not_forall, not_not]
      exact ⟨t, by simpa using hl⟩
    rw [if_neg hl, h.free_iff i hi]
    refine forall_congr' fun u => ?_
    by_cases hu : u = t
    · subst hu
      simp [hl, hnone]
    · rw [update_of_ne hu]

theorem drop (h : Owned bound free owns) (hown : owns t = i :: l) :
    Owned bound (update free i true) (update owns t l) where
  nodup u := by
    have hnodup := h.nodup u
    by_cases hu : u = t
    · subst hu
      rw [hown] at hnodup
      simpa using (List.nodup_cons.1 hnodup).2
    · simpa [update_of_ne hu] using hnodup
  lt u := by
    have hlt := h.lt u
    by_cases hu : u = t
    · subst hu
      rw [hown] at hlt
      simp only [update_self]
      exact fun j hj => hlt j (List.mem_cons_of_mem _ hj)
    · simpa [update_of_ne hu] using hlt
  apart u v j hj hj' := by
    have hsub : ∀ w, j ∈ update owns t l w → j ∈ owns w := by
      intro w hw
      by_cases hwt : w = t
      · subst hwt
        rw [update_self] at hw
        rw [hown]
        exact List.mem_cons_of_mem _ hw
      · rwa [update_of_ne hwt] at hw
    exact h.apart u v j (hsub u hj) (hsub v hj')
  free_iff j hj := by
    have hnodup := h.nodup t
    rw [hown] at hnodup
    by_cases hji : j = i
    · subst hji
      simp only [update_self, true_iff]
      intro u
      by_cases hu : u = t
      · subst hu
        simpa using (List.nodup_cons.1 hnodup).1
      · rw [update_of_ne hu]
        exact h.not_mem (t := t) (by rw [hown]; exact List.mem_cons_self) hu
    · rw [update_of_ne hji, h.free_iff j hj]
      refine forall_congr' fun u => ?_
      by_cases hu : u = t
      · subst hu
        simp [hown, hji]
      · rw [update_of_ne hu]

theorem keep (h : Owned bound free owns) (hl : l = owns t) : Owned bound free (update owns t l) := by
  rwa [hl, update_eq_self]

end Owned
end Xv6Riscv.Owners
