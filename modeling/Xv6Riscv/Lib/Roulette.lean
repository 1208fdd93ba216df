import Mathlib.Algebra.BigOperators.Group.List.Basic
import Mathlib.Algebra.Order.BigOperators.Group.List
import Mathlib.Order.Interval.Finset.Nat
import Mathlib.Tactic.Linarith

/-!
# A wheel of segments

The segments of a list lie one behind the other on the number line, each with its own length. A draw wins the
segment it falls into, or none when it lies behind the last one.
-/
namespace Xv6Riscv.Roulette
open List

variable {κ : Type*} (w : κ → Nat)

/-- The segment that `v` falls into, when the first one begins at `a`. -/
def spin (v : Nat) : Nat → List κ → Option κ
  | _, [] => none
  | a, k :: l => if a ≤ v ∧ v < a + w k then some k else spin v (a + w k) l

/-- The length of the wheel. -/
def size (l : List κ) : Nat := (l.map w).sum

@[simp] theorem size_nil : size w [] = 0 := rfl

@[simp] theorem size_cons (k : κ) (l : List κ) : size w (k :: l) = w k + size w l := sum_cons

variable {l : List κ} {k : κ}

theorem le_size (hk : k ∈ l) : w k ≤ size w l :=
  single_le_sum (fun _ _ => Nat.zero_le _) _ (mem_map_of_mem hk)

variable {b v a : Nat}

theorem size_le (h : ∀ k ∈ l, w k ≤ b) : size w l ≤ l.length * b := by
  induction l with
  | nil => simp
  | cons k l ih =>
    have hk := h k (mem_cons_self ..)
    have hl := ih fun j hj => h j (mem_cons_of_mem _ hj)
    rw [size_cons, length_cons, Nat.succ_mul]
    omega

/-! ## Who wins -/

theorem spin_eq_none_iff (h : a ≤ v) : spin w v a l = none ↔ a + size w l ≤ v := by
  induction l generalizing a with
  | nil => simp [spin, h]
  | cons k l ih =>
    rw [spin, size_cons]
    split
    next hin => simp only [reduceCtorEq, false_iff]; omega
    next hout => rw [ih (by omega)]; omega

section
variable [DecidableEq κ]

/-- Where the segment of `k` begins. -/
def start : List κ → κ → Nat
  | [], _ => 0
  | j :: l, k => if j = k then 0 else w j + start l k

theorem start_add_le (hk : k ∈ l) : start w l k + w k ≤ size w l := by
  induction l with
  | nil => cases hk
  | cons j l ih =>
    rw [start, size_cons]
    split
    next he => subst he; omega
    next hne =>
      have := ih ((mem_cons.1 hk).resolve_left (Ne.symm hne))
      omega

theorem spin_eq_some_iff (hl : l.Nodup) :
    spin w v a l = some k ↔ k ∈ l ∧ a + start w l k ≤ v ∧ v < a + start w l k + w k := by
  induction l generalizing a with
  | nil => simp [spin]
  | cons j l ih =>
    obtain ⟨hj, hl⟩ := nodup_cons.1 hl
    rw [spin, start]
    by_cases he : j = k
    · subst he
      rw [if_pos rfl]
      split
      next hin => simpa using hin
      next hout =>
        -- behind its own segment `j` does not come again
        rw [ih hl]
        simp only [hj, false_and, mem_cons, true_or, true_and, false_iff]
        omega
    · rw [if_neg he, mem_cons, or_iff_right (Ne.symm he)]
      split
      next hin =>
        simp only [Option.some.injEq, he, false_iff]
        omega
      next hout =>
        rw [ih hl, Nat.add_assoc a]

theorem start_disjoint {j : κ} (hj : j ∈ l) (hk : k ∈ l) (hne : j ≠ k) :
    start w l j + w j ≤ start w l k ∨ start w l k + w k ≤ start w l j := by
  induction l with
  | nil => cases hj
  | cons i l ih =>
    rw [start, start]
    by_cases hij : i = j
    · rw [if_pos hij, if_neg (hij ▸ hne), hij]
      omega
    by_cases hik : i = k
    · rw [if_neg hij, if_pos hik, hik]
      omega
    · rw [if_neg hij, if_neg hik]
      have := ih ((mem_cons.1 hj).resolve_left (Ne.symm hij)) ((mem_cons.1 hk).resolve_left (Ne.symm hik))
      omega

/-- Of the draws below `b`, with the whole wheel below `b`, as many win `k` as its segment is long. -/
theorem card_spin (hl : l.Nodup) (hk : k ∈ l) (hb : size w l ≤ b) :
    ((Finset.range b).filter fun v => spin w v 0 l = some k).card = w k := by
  have hin := start_add_le w hk
  have heq : ((Finset.range b).filter fun v => spin w v 0 l = some k)
      = Finset.Ico (start w l k) (start w l k + w k) := by
    ext v
    simp only [Finset.mem_filter, Finset.mem_range, Finset.mem_Ico, spin_eq_some_iff w hl, hk, true_and]
    omega
  rw [heq, Nat.card_Ico, Nat.add_sub_cancel_left]

end

/-! ## Segments that are rounded shares of a length `r` -/

section
variable {w} {c : κ → Nat} {r n : Nat}

theorem size_mul (l : List κ) : size (fun k => c k * r) l = size c l * r := by
  induction l with
  | nil => simp
  | cons k l ih => rw [size_cons, size_cons, ih, Nat.add_mul]

theorem size_div_le (l : List κ) : size (fun k => c k * r / n) l ≤ size c l * r / n := by
  rcases Nat.eq_zero_or_pos n with rfl | hn
  · simp only [Nat.div_zero, nonpos_iff_eq_zero]
    exact Nat.eq_zero_of_le_zero ((size_le _ fun _ _ => Nat.le_refl 0).trans_eq (Nat.mul_zero _))
  rw [Nat.le_div_iff_mul_le hn, ← size_mul, ← size_mul]
  induction l with
  | nil => simp
  | cons k l ih =>
    exact Nat.add_le_add (Nat.div_mul_le_self _ _) ih

theorem lt_size_div (hn : 0 < n) (hl : l ≠ []) : size c l * r / n < size (fun k => c k * r / n) l + l.length := by
  suffices h : ∀ l : List κ, size c l * r + l.length ≤ (size (fun k => c k * r / n) l + l.length) * n by
    rw [Nat.div_lt_iff_lt_mul hn]
    have := h l
    have := length_pos_iff.2 hl
    omega
  intro l
  induction l with
  | nil => simp
  | cons k l ih =>
    have hk := Nat.div_add_mod (c k * r) n
    have hm := Nat.mod_lt (c k * r) hn
    rw [size_cons, size_cons, length_cons]
    nlinarith

end

end Xv6Riscv.Roulette
