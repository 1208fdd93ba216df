import Mathlib.Algebra.Group.Nat.Defs
import Mathlib.Logic.Function.Basic
import Mathlib.Tactic.SplitIfs

/-!
# The two `memmove`s (kernel/string.c:31, user/ulib.c:110)

They copy upwards or downwards, and choose the direction by different tests. A copy upwards is right unless the
destination begins inside of the source, a copy downwards unless the source begins inside of the destination.
Addresses are 64 bits wide and wrap, the kernel's `n` is a `uint`, the library's an `int`.
-/
namespace Xv6Riscv.Memmove
open Function (update update_of_ne update_self)

abbrev Addr := BitVec 64
abbrev Memory := Addr → BitVec 8

/-- `while(n-- > 0) *d++ = *s++;` -/
def up : Nat → Addr → Addr → Memory → Memory
  | 0, _, _, mem => mem
  | n + 1, d, s, mem => up n (d + 1) (s + 1) (update mem d (mem s))

/-- `while(n-- > 0) *--d = *--s;` -/
def down : Nat → Addr → Addr → Memory → Memory
  | 0, _, _, mem => mem
  | n + 1, d, s, mem => down n (d - 1) (s - 1) (update mem (d - 1) (mem (s - 1)))

def kernelMemmove (dst src : Addr) (n : BitVec 32) (mem : Memory) : Memory :=
  if n = 0 then mem
  else if src < dst ∧ src + n.setWidth 64 > dst then
    down n.toNat (dst + n.setWidth 64) (src + n.setWidth 64) mem
  else up n.toNat dst src mem

def userMemmove (dst src : Addr) (n : BitVec 32) (mem : Memory) : Memory :=
  if src > dst then up n.toInt.toNat dst src mem
  else down n.toInt.toNat (dst + n.signExtend 64) (src + n.signExtend 64) mem

/-- The memory after a move of `n` bytes: an address at the distance `k < n` from `dst` has what was at this distance
from `src`. -/
def moved (dst src : Addr) (n : Nat) (mem : Memory) : Memory := fun a =>
  if (a - dst).toNat < n then mem (src + (a - dst)) else mem a

theorem moved_zero (d s : Addr) (mem : Memory) : moved d s 0 mem = mem := rfl

variable {d s dst src : Addr}

theorem up_eq {n : Nat} (hn : n < 2 ^ 64) (h : d = s ∨ n ≤ (d - s).toNat) (mem : Memory) :
    up n d s mem = moved d s n mem := by
  induction n generalizing d s mem with
  | zero => exact (moved_zero d s mem).symm
  | succ n ih =>
    rw [up, ih (by omega) (h.imp (fun h => by rw [h]) fun h => by bv_omega)]
    funext a
    unfold moved
    by_cases ha : a = d
    · subst ha
      have hlast : ¬ (a - (a + 1)).toNat < n := by bv_omega
      rw [if_neg hlast, update_self, if_pos (by simp), BitVec.sub_self, BitVec.add_zero]
    have hiff : (a - (d + 1)).toNat < n ↔ (a - d).toNat < n + 1 := by bv_omega
    have hread : s + 1 + (a - (d + 1)) = s + (a - d) := by bv_omega
    rw [hread]
    simp only [hiff]
    split
    · -- the byte that is read here was not written yet
      have hne : s + (a - d) ≠ d := by
        intro he
        rcases h with rfl | h <;> bv_omega
      rw [update_of_ne hne]
    · rw [update_of_ne ha]

theorem down_eq {n : Nat} (hn : n < 2 ^ 64) (h : d = s ∨ n ≤ (s - d).toNat) (mem : Memory) :
    down n (d + BitVec.ofNat 64 n) (s + BitVec.ofNat 64 n) mem = moved d s n mem := by
  induction n generalizing mem with
  | zero => exact (moved_zero d s mem).symm
  | succ n ih =>
    have hpred : ∀ p : Addr, p + BitVec.ofNat 64 (n + 1) - 1 = p + BitVec.ofNat 64 n := by
      intro p
      bv_omega
    rw [down, hpred, hpred, ih (by omega) (h.imp_right fun h => by omega)]
    funext a
    unfold moved
    by_cases ha : a = d + BitVec.ofNat 64 n
    · have hout : ¬ (a - d).toNat < n := by bv_omega
      have hin : (a - d).toNat < n + 1 := by bv_omega
      have hread : s + (a - d) = s + BitVec.ofNat 64 n := by bv_omega
      rw [if_neg hout, if_pos hin, hread, ha, update_self]
    · have hiff : (a - d).toNat < n ↔ (a - d).toNat < n + 1 := by bv_omega
      simp only [hiff]
      split
      · have hne : s + (a - d) ≠ d + BitVec.ofNat 64 n := by bv_omega
        rw [update_of_ne hne]
      · rw [update_of_ne ha]

/-- The range does not go beyond the end of the address space. -/
def Within (p : Addr) (n : Nat) : Prop := p.toNat + n ≤ 2 ^ 64

theorem setWidth_eq (n : BitVec 32) : n.setWidth 64 = BitVec.ofNat 64 n.toNat := by bv_omega

variable {n : BitVec 32}

theorem toNat_toInt (h : 0 ≤ n.toInt) : n.toInt.toNat = n.toNat := by
  have hcond := BitVec.toInt_eq_toNat_cond n
  split at hcond <;> omega

theorem kernelMemmove_eq (hd : Within dst n.toNat) (hs : Within src n.toNat)
    (mem : Memory) : kernelMemmove dst src n mem = moved dst src n.toNat mem := by
  have hlt := n.isLt
  unfold Within at hd hs
  unfold kernelMemmove
  split_ifs with h0 hover
  · subst h0
    exact (moved_zero dst src mem).symm
  · rw [setWidth_eq]
    exact down_eq (by omega) (.inr (by bv_omega)) mem
  · exact up_eq (by omega) (by bv_omega) mem

theorem userMemmove_eq (hd : Within dst n.toInt.toNat)
    (hs : Within src n.toInt.toNat) (mem : Memory) : userMemmove dst src n mem = moved dst src n.toInt.toNat mem := by
  unfold userMemmove
  by_cases h0 : 0 ≤ n.toInt
  · have hlt := n.isLt
    have hmsb : n.msb = false := by simpa [BitVec.msb_eq_toInt] using h0
    rw [toNat_toInt h0] at hd hs ⊢
    unfold Within at hd hs
    split_ifs with hgt
    · exact up_eq (by omega) (.inr (by bv_omega)) mem
    · rw [BitVec.signExtend_eq_setWidth_of_msb_false hmsb, setWidth_eq]
      exact down_eq (by omega) (by bv_omega) mem
  · have hlen : n.toInt.toNat = 0 := Int.toNat_of_nonpos (by omega)
    rw [hlen]
    exact ite_self mem

/-- **Both `memmove`s move**, whatever the overlap. The library's takes a negative length for 0. -/
theorem memmove_moves (dst src : Addr) (n : BitVec 32) (mem : Memory) :
    (Within dst n.toNat → Within src n.toNat → kernelMemmove dst src n mem = moved dst src n.toNat mem) ∧
    (Within dst n.toInt.toNat → Within src n.toInt.toNat →
      userMemmove dst src n mem = moved dst src n.toInt.toNat mem) ∧
    (0 ≤ n.toInt → Within dst n.toNat → Within src n.toNat →
      userMemmove dst src n mem = kernelMemmove dst src n mem) := by
  refine ⟨fun hd hs => kernelMemmove_eq hd hs mem, fun hd hs => userMemmove_eq hd hs mem, fun h0 hd hs => ?_⟩
  have hn := toNat_toInt h0
  rw [kernelMemmove_eq hd hs, userMemmove_eq (hn ▸ hd) (hn ▸ hs), hn]

theorem memmove_moves_overlap : Within 104 8 ∧ Within 100 8 ∧
    kernelMemmove 104 100 8 (fun a => a.setWidth 8) 111 = 107 ∧
    userMemmove 104 100 8 (fun a => a.setWidth 8) = kernelMemmove 104 100 8 fun a => a.setWidth 8 := by
  have hd : Within 104 8 := Nat.le_of_ble_eq_true rfl
  have hs : Within 100 8 := Nat.le_of_ble_eq_true rfl
  obtain ⟨hk, -, hu⟩ := memmove_moves 104 100 8 fun a => a.setWidth 8
  exact ⟨hd, hs, by rw [hk hd hs]; decide, hu (by decide) hd hs⟩

end Xv6Riscv.Memmove
