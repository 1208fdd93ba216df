import Mathlib.Algebra.Order.Group.Nat
import Mathlib.Data.Nat.Bits
import Mathlib.Data.Fin.Basic
import Xv6Riscv.PageTable.Model

/-!
# The arithmetic of page-table words

The macros of riscv.h on 64-bit words, as arithmetic on numbers: the three indices of an address together are its page
number, an entry gives back the page and the flags that were packed into it, and the entries of different
page-table pages lie at different addresses.
-/
namespace Xv6Riscv.PageTable
open BitVec

/-! ## Addresses -/

theorem PX_toNat (level : Nat) (va : Word) : (PX level va).toNat = va.toNat / 2 ^ (12 + 9 * level) % 512 := by
  unfold PX
  rw [toNat_and, toNat_ushiftRight, Nat.shiftRight_eq_div_pow]
  exact Nat.and_two_pow_sub_one_eq_mod _ 9

theorem PGROUNDDOWN_eq (a : Word) : PGROUNDDOWN a = (a >>> 12) <<< 12 := by
  apply eq_of_getLsbD_eq
  intro i hi
  have hmask : (~~~(PGSIZE - 1)).getLsbD i = decide (12 ≤ i) := by
    revert i
    decide
  simp only [PGROUNDDOWN, getLsbD_and, hmask, getLsbD_shiftLeft, getLsbD_ushiftRight]
  by_cases h : 12 ≤ i
  · simp [h, hi]
  · simp [h]

theorem PGROUNDDOWN_toNat (a : Word) : (PGROUNDDOWN a).toNat = a.toNat / 4096 * 4096 := by
  rw [PGROUNDDOWN_eq, toNat_shiftLeft, toNat_ushiftRight, Nat.shiftLeft_eq, Nat.shiftRight_eq_div_pow]
  omega

/-- The index of `va` in the page-table page of a level. -/
def index (level : Nat) (va : Word) : Fin 512 := ⟨(PX level va).toNat, by rw [PX_toNat]; exact Nat.mod_lt _ (by decide)⟩

theorem index_val (level : Nat) (va : Word) :
    (index level va : Nat) = va.toNat / 2 ^ (12 + 9 * level) % 512 := PX_toNat level va

variable {va flags p q : Word}

theorem page_of_indices (h : va < MAXVA) :
    va.toNat / 4096 = ((index 2 va : Nat) * 512 + index 1 va) * 512 + index 0 va := by
  have hlt : va.toNat < 2 ^ 38 := h
  simp only [index_val]
  omega

theorem indices_eq_iff {va' : Word} (h : va < MAXVA) (h' : va' < MAXVA) :
    (index 2 va = index 2 va' ∧ index 1 va = index 1 va' ∧ index 0 va = index 0 va') ↔
    va.toNat / 4096 = va'.toNat / 4096 := by
  constructor
  · rintro ⟨h2, h1, h0⟩
    rw [page_of_indices h, page_of_indices h', h2, h1, h0]
  · intro heq
    rw [page_of_indices h, page_of_indices h'] at heq
    have hlt : ∀ level va, (index level va : Nat) < 512 := fun level va => (index level va).isLt
    omega

/-! ## Entries -/

theorem and_V_eq_zero (w : Word) : w &&& PTE_V = 0#64 ↔ w.getLsbD 0 = false := by
  unfold PTE_V
  constructor
  · intro h
    have hbit := congrArg (BitVec.getLsbD · 0) h
    simpa using hbit
  intro h
  apply eq_of_getLsbD_eq
  intro i hi
  cases i with
  | zero => simpa using h
  | succ i => simp

theorem or_V_valid (w : Word) : (w ||| PTE_V) &&& PTE_V ≠ 0#64 := by
  rw [ne_eq, and_V_eq_zero]
  simp [PTE_V]

theorem zero_and_V : 0#64 &&& PTE_V = 0#64 := by decide

theorem PTE2PA_mod (pte : Word) : (PTE2PA pte).toNat % 4096 = 0 := by
  rw [PTE2PA, toNat_shiftLeft, Nat.shiftLeft_eq]
  omega

theorem getLsbD_of_lt {w : Word} {n i : Nat} (h : w.toNat < 2 ^ n) (hi : n ≤ i) : w.getLsbD i = false := by
  exact Nat.testBit_lt_two_pow (lt_of_lt_of_le h (Nat.pow_le_pow_right (by decide) hi))

theorem PTE2PA_PA2PTE (pa : Word) (hf : flags.toNat < 1024) : PTE2PA (PA2PTE pa ||| flags) = PGROUNDDOWN pa := by
  rw [PGROUNDDOWN_eq]
  apply eq_of_getLsbD_eq
  intro i hi
  simp only [PTE2PA, PA2PTE, getLsbD_shiftLeft, getLsbD_ushiftRight, getLsbD_or]
  by_cases h : i < 12
  · simp [h]
  have hflag : flags.getLsbD (10 + (i - 12)) = false := getLsbD_of_lt (n := 10) hf (by omega)
  have hlow : ¬ 10 + (i - 12) < 10 := by omega
  have hhigh : 10 + (i - 12) < 64 := by omega
  have hbit : 12 + (10 + (i - 12) - 10) = 12 + (i - 12) := by omega
  simp only [hflag, hlow, hhigh, hbit, hi, h, decide_true, decide_false, Bool.not_false, Bool.true_and, Bool.or_false]

theorem PTE_FLAGS_PA2PTE (pa : Word) (hf : flags.toNat < 1024) : PTE_FLAGS (PA2PTE pa ||| flags) = flags := by
  apply eq_of_getLsbD_eq
  intro i hi
  have hmask : (0x3FF : Word).getLsbD i = decide (i < 10) := by
    revert i
    decide
  simp only [PTE_FLAGS, PA2PTE, getLsbD_and, getLsbD_or, getLsbD_shiftLeft, hmask]
  by_cases h : i < 10
  · simp [h]
  · have hflag : flags.getLsbD i = false := getLsbD_of_lt (n := 10) hf (Nat.not_lt.1 h)
    simp [h, hflag]

/-! ## Pages -/

/-- The address of a page. -/
def Aligned (p : Word) : Prop := p.toNat % 4096 = 0

theorem PGROUNDDOWN_of_aligned (h : Aligned p) : PGROUNDDOWN p = p := by
  apply eq_of_toNat_eq
  rw [PGROUNDDOWN_toNat]
  unfold Aligned at h
  omega

theorem PTE2PA_interior (h : Aligned p) : PTE2PA (PA2PTE p ||| PTE_V) = p := by
  rw [PTE2PA_PA2PTE p (by decide), PGROUNDDOWN_of_aligned h]

/-- The address of the `i`-th word of a page. -/
def slot (p : Word) (i : Fin 512) : Word := p + 8 * BitVec.ofNat 64 i

theorem entry_eq (p : Word) (level : Nat) (va : Word) : entry p level va = slot p (index level va) := by
  simp [entry, slot, index]

theorem slot_toNat (h : Aligned p) (i : Fin 512) : (slot p i).toNat = p.toNat + 8 * i := by
  unfold Aligned at h
  simp only [slot, toNat_add, toNat_mul, toNat_ofNat, show (8 : Word).toNat = 8 from rfl]
  omega

theorem slot_inj {i j : Fin 512} (hp : Aligned p) (hq : Aligned q) (h : slot p i = slot q j) : p = q ∧ i = j := by
  have heq := congrArg BitVec.toNat h
  rw [slot_toNat hp, slot_toNat hq] at heq
  unfold Aligned at hp hq
  refine ⟨eq_of_toNat_eq ?_, Fin.ext ?_⟩
  · omega
  · omega

theorem slot_mem_page {i : Fin 512} (hp : Aligned p) (hq : Aligned q) : slot p i - q < PGSIZE ↔ p = q := by
  have hs := slot_toNat hp i
  unfold Aligned at hp hq
  rw [lt_def, toNat_sub, hs, show PGSIZE.toNat = 4096 from rfl, ← toNat_inj]
  omega

end Xv6Riscv.PageTable
