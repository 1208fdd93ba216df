import Mathlib.Data.Nat.ModEq
import Mathlib.Logic.Function.Basic

/-!
# Ring buffers with counters that wrap

Two counters of `w` bits say how much was ever taken from a ring of `size` places and how much was ever put into it.
They are used modulo `size` as places and modulo `2 ^ w` as counts, so both wrap without harm when `size`
divides `2 ^ w` and is smaller. `Queued` says what is in the ring: a list, oldest first.
-/
namespace Xv6Riscv.RingBuffer
open List BitVec

instance neZero_two : NeZero 2 := ⟨by decide⟩

variable {w size : Nat} [NeZero size] {α : Type}

/-- The place that a counter stands for. -/
def slot (i : BitVec w) : Fin size := Fin.ofNat size i.toNat

/-- The ring holds `q`: it was put in at the places from `first` on, and `next` is the next place. -/
structure Queued (data : Fin size → α) (first next : BitVec w) (q : List α) : Prop where
  count : next = first + BitVec.ofNat w q.length
  bound : q.length ≤ size
  entry : ∀ k (h : k < q.length), data (slot (first + BitVec.ofNat w k)) = q[k]

theorem Queued.empty (data : Fin size → α) (i : BitVec w) : Queued data i i [] :=
  ⟨by simp, by simp, fun k h => by simp at h⟩

theorem slot_add (hdvd : size ∣ 2 ^ w) (i : BitVec w) (k : Nat) :
    (slot (i + BitVec.ofNat w k) : Fin size).val = (i.toNat + k) % size := by
  simp only [slot, Fin.val_ofNat, toNat_add, toNat_ofNat, Nat.add_mod_mod]
  exact Nat.mod_mod_of_dvd _ hdvd

theorem add_sub_self (i : BitVec w) {n : Nat} (h : n < 2 ^ w) : (i + BitVec.ofNat w n - i).toNat = n := by
  rw [BitVec.add_comm, BitVec.add_sub_cancel, toNat_ofNat, Nat.mod_eq_of_lt h]

theorem slot_add_ne (hdvd : size ∣ 2 ^ w) (i : BitVec w) {k n : Nat} (hkn : k < n) (hn : n < k + size) :
    (slot (i + BitVec.ofNat w k) : Fin size) ≠ slot (i + BitVec.ofNat w n) := by
  intro he
  have hmod := congrArg Fin.val he
  rw [slot_add hdvd, slot_add hdvd] at hmod
  have hdiff : size ∣ n - k := by
    have := (Nat.modEq_iff_dvd' (n := size) (by omega : i.toNat + k ≤ i.toNat + n)).1 hmod
    rwa [Nat.add_sub_add_left] at this
  have := Nat.le_of_dvd (by omega) hdiff
  omega

namespace Queued
variable {data : Fin size → α} {first next : BitVec w} {q : List α}

section
variable (h : Queued data first next q)
include h

theorem length_eq (hlt : size < 2 ^ w) : (next - first).toNat = q.length := by
  have hb := h.bound
  rw [h.count, add_sub_self first (by omega)]

theorem eq_nil_iff (hlt : size < 2 ^ w) : first = next ↔ q = [] := by
  constructor
  · intro he
    have hlen := h.length_eq hlt
    rw [he, BitVec.sub_self, toNat_zero] at hlen
    exact length_eq_zero_iff.1 hlen.symm
  · rintro rfl
    simpa using h.count.symm

theorem full_iff (hlt : size < 2 ^ w) : next = first + BitVec.ofNat w size ↔ q.length = size := by
  constructor
  · intro he
    have hlen := h.length_eq hlt
    rw [he, add_sub_self first hlt] at hlen
    exact hlen.symm
  · intro he
    rw [h.count, he]

theorem stage (hdvd : size ∣ 2 ^ w) (hroom : q.length < size) (x : α) :
    Queued (Function.update data (slot next) x) first next q where
  count := h.count
  bound := h.bound
  entry k hk := by
    rw [h.count, Function.update_of_ne (slot_add_ne hdvd first hk (by omega)), h.entry k hk]

theorem publish (hroom : q.length < size) : Queued data first (next + 1#w) (q ++ [data (slot next)]) where
  count := by
    rw [h.count, length_append, length_singleton, ofNat_add, BitVec.add_assoc]
  bound := by
    rw [length_append, length_singleton]
    exact hroom
  entry k hk := by
    rw [length_append, length_singleton] at hk
    by_cases hlast : k = q.length
    · subst hlast
      simp [h.count]
    · have hold : k < q.length := by omega
      rw [h.entry k hold, getElem_append_left hold]

theorem push (hdvd : size ∣ 2 ^ w) (hroom : q.length < size) (x : α) :
    Queued (Function.update data (slot next) x) first (next + 1#w) (q ++ [x]) := by
  have hnext := (h.stage hdvd hroom x).publish hroom
  rwa [Function.update_self] at hnext

theorem pop (hlt : size < 2 ^ w) (hne : first ≠ next) :
    ∃ q', q = data (slot first) :: q' ∧ Queued data (first + 1#w) next q' := by
  cases hq : q with
  | nil => exact absurd ((h.eq_nil_iff hlt).2 hq) hne
  | cons x q' =>
    subst hq
    have hsucc : ∀ k, first + BitVec.ofNat w (k + 1) = first + 1#w + BitVec.ofNat w k := by
      intro k
      rw [Nat.add_comm k 1, ofNat_add, ← BitVec.add_assoc]
    refine ⟨q', ?_, ?_, ?_, fun k hk => ?_⟩
    · have h0 := h.entry 0 (by simp)
      simp only [BitVec.add_zero, getElem_cons_zero] at h0
      rw [h0]
    · rw [h.count, length_cons, hsucc]
    · have := h.bound
      rw [length_cons] at this
      omega
    · have hk' := h.entry (k + 1) (by simpa using hk)
      rwa [hsucc, getElem_cons_succ] at hk'

end

end Queued
end Xv6Riscv.RingBuffer
