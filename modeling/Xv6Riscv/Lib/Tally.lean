import Mathlib.Data.Finmap
import Mathlib.Data.Multiset.AddSub
import Mathlib.Algebra.BigOperators.Group.List.Basic
import Mathlib.Algebra.Order.Group.Multiset

/-!
# Totals over a keyed list

`total g l` adds up `g k x` over the entries of a keyed list. Inserting or erasing a key moves the total
by the entry of that key.
-/
namespace Xv6Riscv.Tally
open List

variable {κ α M : Type*} [AddCommMonoid M]

def total (g : κ → α → M) (l : AList fun _ : κ => α) : M := (l.entries.map fun e => g e.1 e.2).sum

variable {g : κ → α → M} {l : AList fun _ : κ => α} {k : κ} {x : α}

@[simp] theorem total_empty (g : κ → α → M) : total g ∅ = 0 := rfl

variable [DecidableEq κ]

theorem total_insert (g : κ → α → M) (l : AList fun _ : κ => α) (k : κ) (x : α) :
    total g (l.insert k x) = g k x + total g (l.erase k) := by
  simp [total, AList.entries_insert, AList.erase]

theorem erase_of_notMem (h : k ∉ l) : l.erase k = l :=
  AList.ext (kerase_of_notMem_keys h)

theorem total_erase (g : κ → α → M) (h : l.lookup k = some x) : total g l = g k x + total g (l.erase k) := by
  obtain ⟨entries, hnd⟩ := l
  simp only [total, AList.erase]
  change entries.dlookup k = some x at h
  clear hnd
  induction entries with
  | nil => cases h
  | cons e es ih =>
    obtain ⟨k', y⟩ := e
    by_cases hk : k = k'
    · subst hk
      rw [dlookup_cons_eq] at h
      cases h
      simp
    · rw [dlookup_cons_ne _ _ (by simpa using hk)] at h
      rw [kerase_cons_ne (by simpa using hk)]
      simp only [map_cons, sum_cons, ih h]
      rw [add_left_comm]

theorem total_insert_of_notMem (g : κ → α → M) (h : k ∉ l) (x : α) : total g (l.insert k x) = g k x + total g l := by
  rw [total_insert, erase_of_notMem h]

theorem total_congr {g g' : κ → α → M} (h : ∀ k x, l.lookup k = some x → g k x = g' k x) : total g l = total g' l := by
  unfold total
  congr 1
  apply map_congr_left
  intro e he
  exact h e.1 e.2 (AList.mem_lookup_iff.2 he)

theorem mem_total {F : Type*} {g : κ → α → Multiset F} {f : F} :
    f ∈ total g l ↔ ∃ k x, l.lookup k = some x ∧ f ∈ g k x := by
  have hmem : f ∈ total g l ↔ ∃ e ∈ l.entries, f ∈ g e.1 e.2 := by
    unfold total
    induction l.entries with
    | nil => simp
    | cons e es ih => simp only [map_cons, sum_cons, Multiset.mem_add, ih, exists_mem_cons_iff]
  rw [hmem]
  constructor
  · rintro ⟨⟨k, x⟩, he, hf⟩
    exact ⟨k, x, AList.mem_lookup_iff.2 he, hf⟩
  · rintro ⟨k, x, hk, hf⟩
    exact ⟨⟨k, x⟩, AList.mem_lookup_iff.1 hk, hf⟩

end Xv6Riscv.Tally
