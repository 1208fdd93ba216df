import Mathlib.Algebra.Order.BigOperators.Group.Finset

/-!
# Counting over a table

The models count references (page owners, page-table entries, directory entries) as a sum over the
slots of a table. An operation changes one slot, so the sum moves by what that slot moved.
-/
namespace Xv6Riscv.Count
open Finset Function

section
variable {ι α : Type*} [DecidableEq ι]

theorem sum_update {M : Type*} [AddCommMonoid M] (t : Finset ι) (f : ι → α) (g : α → M) {p : ι} (hp : p ∈ t) (x : α) :
    ∑ c ∈ t, g (update f p x c) + g (f p) = ∑ c ∈ t, g (f c) + g x := by
  rw [← add_sum_erase t _ hp, ← add_sum_erase t (fun c => g (f c)) hp]
  have hrest : ∑ c ∈ t.erase p, g (update f p x c) = ∑ c ∈ t.erase p, g (f c) := by
    apply sum_congr rfl
    intro c hc
    rw [update_of_ne (ne_of_mem_erase hc)]
  simp only [update_self, hrest]
  rw [add_right_comm, add_comm (g x)]
  exact add_right_comm ..

theorem sum_update_of_not_mem (t : Finset ι) (f : ι → α) (g : α → ℕ) {p : ι} (hp : p ∉ t) (x : α) :
    ∑ c ∈ t, g (update f p x c) = ∑ c ∈ t, g (f c) := by
  apply sum_congr rfl
  intro c hc
  have hne : c ≠ p := by rintro rfl; exact hp hc
  rw [update_of_ne hne]

end

theorem le_sum {ι : Type*} (t : Finset ι) (f : ι → ℕ) {p : ι} (hp : p ∈ t) : f p ≤ ∑ c ∈ t, f c :=
  single_le_sum (fun _ _ => Nat.zero_le _) hp

theorem add_le_sum {ι : Type*} [DecidableEq ι] (t : Finset ι) (f : ι → ℕ) {p q : ι} (hp : p ∈ t) (hq : q ∈ t)
    (hne : p ≠ q) : f p + f q ≤ ∑ c ∈ t, f c := by
  rw [← add_sum_erase t f hp]
  have := le_sum (t.erase p) f (mem_erase.2 ⟨hne.symm, hq⟩)
  omega

end Xv6Riscv.Count
