import Xv6Riscv.Lib.Count
import Mathlib.Data.List.Nodup

/-!
# Ownership ledgers

The units of a region (disk blocks, frames) are handed out to owners. A ledger is *balanced* when every
unit of the region is marked as used exactly as often as it is owned, so at most once, and nobody
owns a unit outside the region. An allocator takes a unit that is not marked and gives it to one
owner; freeing needs the owner to have it.
-/
namespace Xv6Riscv
open Finset Function

/-- The owners in `t` hold the units of `region`, and `used` marks the units that are held. -/
structure Ledger {ι β : Type*} [DecidableEq β] (t : Finset ι) (region : β → Prop) (used : β → Bool)
    (own : ι → List β) : Prop where
  balance : ∀ b, region b → ∑ i ∈ t, (own i).count b = (used b).toNat
  within : ∀ i ∈ t, ∀ b ∈ own i, region b

namespace Ledger

variable {ι β : Type*} [DecidableEq β] {t : Finset ι} {region : β → Prop} {used used' : β → Bool}
  {own own' : ι → List β} {i j : ι} {b : β} {held : List β}

theorem congr (h : Ledger t region used own) (ho : ∀ i ∈ t, own' i = own i)
    (hu : ∀ b, region b → used' b = used b) : Ledger t region used' own' where
  balance b hb := by
    rw [hu b hb, ← h.balance b hb]
    exact sum_congr rfl fun i hi => by rw [ho i hi]
  within i hi b hb := h.within i hi b (ho i hi ▸ hb)

section
variable (h : Ledger t region used own) (hi : i ∈ t)
include h hi

theorem used_of_mem (hb : b ∈ own i) : used b = true := by
  have hcount := Count.le_sum t (fun i => (own i).count b) hi
  have hpos := List.count_pos_iff.2 hb
  rw [h.balance b (h.within i hi b hb)] at hcount
  cases hu : used b with
  | true => rfl
  | false =>
    rw [hu, Bool.toNat_false] at hcount
    omega

theorem not_mem_of_free (hb : used b = false) : b ∉ own i := by
  intro hmem
  rw [h.used_of_mem hi hmem] at hb
  cases hb

theorem count_le_one (b : β) : (own i).count b ≤ 1 := by
  by_cases hb : b ∈ own i
  · have hcount := Count.le_sum t (fun i => (own i).count b) hi
    rw [h.balance b (h.within i hi b hb)] at hcount
    exact hcount.trans (Bool.toNat_le _)
  · rw [List.count_eq_zero.2 hb]
    exact Nat.zero_le _

theorem nodup : (own i).Nodup :=
  List.nodup_iff_count_le_one.2 (h.count_le_one hi)

end

section
variable [DecidableEq ι]

section
variable (h : Ledger t region used own)
include h

theorem owner_unique (hi : i ∈ t) (hj : j ∈ t) (hbi : b ∈ own i) (hbj : b ∈ own j) : i = j := by
  by_contra hne
  have hcount := Count.add_le_sum t (fun i => (own i).count b) hi hj hne
  rw [h.balance b (h.within i hi b hbi)] at hcount
  have := List.count_pos_iff.2 hbi
  have := List.count_pos_iff.2 hbj
  have := Bool.toNat_le (used b)
  omega

theorem move (hi : i ∈ t) (hcount : ∀ b, region b → held.count b + (used b).toNat = (own i).count b + (used' b).toNat)
    (hwithin : ∀ b ∈ held, region b) : Ledger t region used' (update own i held) where
  balance b hb := by
    have hsum := Count.sum_update t own (·.count b) hi held
    have := h.balance b hb
    have := hcount b hb
    omega
  within j hj b hb := by
    by_cases hji : j = i
    · rw [hji, update_self] at hb
      exact hwithin b hb
    · rw [update_of_ne hji] at hb
      exact h.within j hj b hb

theorem take (used' : β → Bool) (hi : i ∈ t) (hb : region b) (hfree : used b = false)
    (hmark : used' b = true) (hother : ∀ c, region c → c ≠ b → used' c = used c) :
    Ledger t region used' (update own i (b :: own i)) := by
  refine h.move hi ?_ ?_
  · intro c hc
    by_cases hcb : c = b
    · subst hcb
      rw [List.count_cons_self, hfree, hmark, Bool.toNat_false, Bool.toNat_true, Nat.add_zero]
    · rw [List.count_cons_of_ne (Ne.symm hcb), hother c hc hcb]
  · intro c hc
    rcases List.mem_cons.1 hc with rfl | hc
    · exact hb
    · exact h.within i hi c hc

theorem give (used' : β → Bool) (hi : i ∈ t) (hb : b ∈ own i) (hmark : used' b = false)
    (hother : ∀ c, region c → c ≠ b → used' c = used c) : Ledger t region used' (update own i ((own i).erase b)) := by
  have hused := h.used_of_mem hi hb
  refine h.move hi ?_ (fun c hc => h.within i hi c (List.mem_of_mem_erase hc))
  intro c hc
  by_cases hcb : c = b
  · subst hcb
    have := List.count_pos_iff.2 hb
    rw [List.count_erase_self, hused, hmark, Bool.toNat_false, Bool.toNat_true]
    omega
  · rw [List.count_erase_of_ne hcb, hother c hc hcb]

theorem perm (hi : i ∈ t) (hp : held.Perm (own i)) : Ledger t region used (update own i held) := by
  refine h.move hi ?_ (fun b hb => h.within i hi b (hp.mem_iff.1 hb))
  intro b _
  rw [hp.count_eq]

end

end

/-! ## Owners listed one after the other -/

section
variable {n : Nat} {own : Nat → List β}

theorem sum_count (n : Nat) (own : Nat → List β) (b : β) :
    ∑ i ∈ range n, (own i).count b = ((List.range n).flatMap own).count b := by
  induction n with
  | zero => rfl
  | succ n ih =>
    rw [sum_range_succ, ih, List.range_succ, List.flatMap_append, List.count_append, List.flatMap_singleton]

theorem mem_flatMap_iff (h : Ledger (range n) region used own) (hb : region b) :
    used b = true ↔ b ∈ (List.range n).flatMap own := by
  have hbalance := h.balance b hb
  rw [sum_count] at hbalance
  rw [← List.count_pos_iff, hbalance]
  cases used b <;> simp

theorem nodup_flatMap (h : Ledger (range n) region used own) : ((List.range n).flatMap own).Nodup := by
  rw [List.nodup_iff_count_le_one]
  intro b
  by_cases hb : b ∈ (List.range n).flatMap own
  · obtain ⟨i, hi, hbi⟩ := List.mem_flatMap.1 hb
    have hregion := h.within i (mem_range.2 (List.mem_range.1 hi)) b hbi
    rw [← sum_count, h.balance b hregion]
    exact Bool.toNat_le _
  · rw [List.count_eq_zero.2 hb]
    exact Nat.zero_le _

theorem of_flatMap (hwithin : ∀ i < n, ∀ b ∈ own i, region b) (hnodup : ((List.range n).flatMap own).Nodup)
    (hused : ∀ b, region b → (used b = true ↔ b ∈ (List.range n).flatMap own)) : Ledger (range n) region used own where
  balance b hb := by
    rw [sum_count]
    by_cases hmem : b ∈ (List.range n).flatMap own
    · rw [(hused b hb).2 hmem, List.count_eq_one_of_mem hnodup hmem]
      rfl
    · have hfalse : used b = false := Bool.eq_false_iff.2 fun hu => hmem ((hused b hb).1 hu)
      rw [hfalse, List.count_eq_zero.2 hmem]
      rfl
  within i hi := hwithin i (mem_range.1 hi)

end

end Ledger

end Xv6Riscv
