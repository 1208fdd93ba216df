import Mathlib.Data.Multiset.Count
import Mathlib.Tactic.SplitIfs

/-!
# Exact reference counts

The books of an allocator of pages with reference counts. A page is on the free list, or it is in transit
between the list and an owner (`zero`: its count is 0), or it has one owner that may write it (`own`), or
it is shared by the holders of references (`shared`, one entry for each). The books are exact when every
page of the region is in exactly one of these places and its count is the number of its owners and
references. Each operation of the allocator moves one page from one column to another, and keeps the
books exact.
-/
namespace Xv6Riscv.RefCount
open Multiset Function

variable {F : Type*} [DecidableEq F]

structure Exact (region : F → Prop) [DecidablePred region] (count : F → ℕ) (free zero own shared : Multiset F) :
    Prop where
  counted : ∀ f, count f = own.count f + shared.count f
  once : ∀ f, free.count f + zero.count f + own.count f + min 1 (shared.count f) = if region f then 1 else 0

namespace Exact

variable {region : F → Prop} [DecidablePred region] {count : F → ℕ} {free zero own shared : Multiset F} {f : F}

section
variable (h : Exact region count free zero own shared)
include h

theorem places (f : F) : free.count f + zero.count f + own.count f + min 1 (shared.count f) ≤ 1 := by
  rw [h.once f]
  split_ifs <;> omega

theorem region_of_pos (hf : 0 < free.count f + zero.count f + own.count f + shared.count f) : region f := by
  have := h.once f
  by_contra hr
  rw [if_neg hr] at this
  omega

/-! ## What a page in one place is not -/

theorem own_nodup : own.Nodup := by
  rw [nodup_iff_count_le_one]
  intro f
  have := h.places f
  omega

theorem free_nodup : free.Nodup := by
  rw [nodup_iff_count_le_one]
  intro f
  have := h.places f
  omega

theorem not_shared_of_own (hf : f ∈ own) : f ∉ shared := by
  intro hs
  have := h.places f
  have := count_pos.2 hf
  have := count_pos.2 hs
  omega

theorem count_eq_zero_iff (hr : region f) : count f = 0 ↔ f ∈ free ∨ f ∈ zero := by
  have := h.once f
  rw [if_pos hr] at this
  rw [h.counted f, ← Multiset.count_pos, ← Multiset.count_pos]
  omega

end

/-! ## The operations -/

/-- An operation changes the places and the count of one page, which stays in one place. -/
theorem move {count' : F → ℕ} {free' zero' own' shared' : Multiset F} (h : Exact region count free zero own shared)
    (hne : ∀ g, g ≠ f → count' g = count g ∧ free'.count g = free.count g ∧ zero'.count g = zero.count g ∧
      own'.count g = own.count g ∧ shared'.count g = shared.count g)
    (hcount : count' f = own'.count f + shared'.count f)
    (honce : free'.count f + zero'.count f + own'.count f + min 1 (shared'.count f) =
      free.count f + zero.count f + own.count f + min 1 (shared.count f)) :
    Exact region count' free' zero' own' shared' := by
  constructor <;> intro g <;> by_cases hg : g = f
  · rw [hg, hcount]
  · obtain ⟨hc, -, -, ho, hs⟩ := hne g hg
    rw [hc, ho, hs, h.counted g]
  · rw [hg, honce, h.once f]
  · obtain ⟨-, hf, hz, ho, hs⟩ := hne g hg
    rw [hf, hz, ho, hs, h.once g]

theorem pop (h : Exact region count (f ::ₘ free) zero own shared) :
    Exact region count free (f ::ₘ zero) own shared := by
  refine h.move (f := f) (fun g hg => by simp [hg]) (h.counted f) ?_
  simp only [count_cons_self]
  omega

theorem push (h : Exact region count free (f ::ₘ zero) own shared) :
    Exact region count (f ::ₘ free) zero own shared := by
  refine h.move (f := f) (fun g hg => by simp [hg]) (h.counted f) ?_
  simp only [count_cons_self]
  omega

theorem fresh (h : Exact region count free (f ::ₘ zero) own shared) :
    Exact region (update count f 1) free zero (f ::ₘ own) shared := by
  have hplaces := h.places f
  apply h.move (f := f) (fun g hg => by simp [hg])
  all_goals
    simp only [count_cons_self, update_self] at *
    omega

theorem drop (h : Exact region count free zero own (f ::ₘ shared)) (hc : 1 < count f) :
    Exact region (update count f (count f - 1)) free zero own shared := by
  have hcounted := h.counted f
  have hplaces := h.places f
  apply h.move (f := f) (fun g hg => by simp [hg])
  all_goals
    simp only [count_cons_self, update_self] at *
    omega

theorem last_own (h : Exact region count free zero (f ::ₘ own) shared) :
    Exact region (update count f 0) free (f ::ₘ zero) own shared := by
  have hplaces := h.places f
  apply h.move (f := f) (fun g hg => by simp [hg])
  all_goals
    simp only [count_cons_self, update_self] at *
    omega

theorem to_own (h : Exact region count free zero own (f ::ₘ shared)) (hc : count f ≤ 1) :
    Exact region count free zero (f ::ₘ own) shared := by
  have hcounted := h.counted f
  apply h.move (f := f) (fun g hg => by simp [hg])
  all_goals
    simp only [count_cons_self] at *
    omega

/-- An owner gives up the right to write: its page becomes a shared one, with one reference. -/
theorem to_shared (h : Exact region count free zero (f ::ₘ own) shared) :
    Exact region count free zero own (f ::ₘ shared) := by
  have hcounted := h.counted f
  have hplaces := h.places f
  apply h.move (f := f) (fun g hg => by simp [hg])
  all_goals
    simp only [count_cons_self] at *
    omega

theorem share (h : Exact region count free zero own shared) (hf : f ∈ shared) :
    Exact region (update count f (count f + 1)) free zero own (f ::ₘ shared) := by
  have hcounted := h.counted f
  have hpos := count_pos.2 hf
  apply h.move (f := f) (fun g hg => by simp [hg])
  all_goals
    simp only [count_cons_self, update_self] at *
    omega

end Exact
end Xv6Riscv.RefCount
