import Mathlib.Logic.Function.Basic
import Mathlib.Data.Nat.ModEq

/-!
# Little-endian integers in a byte array

`getLE n b o` is the `n`-byte unsigned integer at offset `o`, `setLE n b o v` stores `v` there, cut to `n`
bytes. A C structure laid over a buffer is a choice of offsets: `getLE_setLE` reads a field back,
`getLE_setLE_ne` says that the other fields stay.
-/
namespace Xv6Riscv.Layout
open Function List BitVec

abbrev Bytes := Nat → BitVec 8

def getLE : Nat → Bytes → Nat → Nat
  | 0, _, _ => 0
  | n + 1, b, o => (b o).toNat + 256 * getLE n b (o + 1)

def setLE : Nat → Bytes → Nat → Nat → Bytes
  | 0, b, _, _ => b
  | n + 1, b, o, v => setLE n (update b o (BitVec.ofNat 8 v)) (o + 1) (v / 256)

theorem setLE_of_lt : ∀ (n : Nat) (b : Bytes) {o k : Nat} (v : Nat), k < o → setLE n b o v k = b k
  | 0, _, _, _, _, _ => rfl
  | n + 1, b, o, k, v, h => by
    rw [setLE, setLE_of_lt n _ _ (by omega), update_of_ne (by omega)]

theorem setLE_of_le : ∀ (n : Nat) (b : Bytes) {o k : Nat} (v : Nat), o + n ≤ k → setLE n b o v k = b k
  | 0, _, _, _, _, _ => rfl
  | n + 1, b, o, k, v, h => by
    rw [setLE, setLE_of_le n _ _ (by omega), update_of_ne (by omega)]

theorem getLE_congr : ∀ (n : Nat) {b b' : Bytes} {o : Nat}, (∀ k, o ≤ k → k < o + n → b k = b' k) →
    getLE n b o = getLE n b' o
  | 0, _, _, _, _ => rfl
  | n + 1, b, b', o, h => by
    rw [getLE, getLE, h o (by omega) (by omega), getLE_congr n fun k h1 h2 => h k (by omega) (by omega)]

theorem getLE_lt : ∀ (n : Nat) (b : Bytes) (o : Nat), getLE n b o < 256 ^ n
  | 0, _, _ => Nat.one_pos
  | n + 1, b, o => by
    have h1 := (b o).isLt
    have h2 := getLE_lt n b (o + 1)
    rw [getLE, Nat.pow_succ]
    omega

theorem getLE_setLE : ∀ (n : Nat) (b : Bytes) (o v : Nat), getLE n (setLE n b o v) o = v % 256 ^ n
  | 0, _, _, v => by rw [getLE, Nat.pow_zero, Nat.mod_one]
  | n + 1, b, o, v => by
    rw [getLE, setLE, setLE_of_lt n _ _ (by omega), update_self, getLE_setLE n, Nat.pow_succ,
      Nat.mul_comm (256 ^ n) 256, Nat.mod_mul, toNat_ofNat]

variable {n o k : Nat}

theorem getLE_setLE_ne {m : Nat} (b : Bytes) (v : Nat) (h : k + m ≤ o ∨ o + n ≤ k) :
    getLE m (setLE n b o v) k = getLE m b k := by
  apply getLE_congr
  intro i h1 h2
  rcases h with h | h
  · exact setLE_of_lt n b v (by omega)
  · exact setLE_of_le n b v (by omega)

/-! ## Arrays of 32-bit integers -/

/-- `p[0] = xs[0]; p[1] = xs[1]; ...` for a 32-bit `p` at offset `o`. -/
def putInts (b : Bytes) (o : Nat) : List Nat → Bytes
  | [] => b
  | x :: xs => putInts (setLE 4 b o x) (o + 4) xs

def getInts (b : Bytes) (o n : Nat) : List Nat := (List.range n).map fun i => getLE 4 b (o + 4 * i)

theorem putInts_of_lt (b : Bytes) (xs : List Nat) (h : k < o) : putInts b o xs k = b k := by
  induction xs generalizing b o with
  | nil => rfl
  | cons x xs ih => rw [putInts, ih _ (by omega), setLE_of_lt 4 b x h]

theorem putInts_of_le (b : Bytes) (xs : List Nat) (h : o + 4 * xs.length ≤ k) : putInts b o xs k = b k := by
  induction xs generalizing b o with
  | nil => rfl
  | cons x xs ih =>
    rw [length_cons] at h
    rw [putInts, ih _ (by omega), setLE_of_le 4 b x (by omega)]

theorem getInts_succ (b : Bytes) (o n : Nat) : getInts b o (n + 1) = getLE 4 b o :: getInts b (o + 4) n := by
  rw [getInts, range_succ_eq_map, map_cons, map_map, getInts]
  congr 1
  apply map_congr_left
  intro i _
  simp only [comp, Nat.succ_eq_add_one]
  congr 1
  omega

theorem getInts_putInts (b : Bytes) (o : Nat) (xs : List Nat) (h : ∀ x ∈ xs, x < 256 ^ 4) :
    getInts (putInts b o xs) o xs.length = xs := by
  induction xs generalizing b o with
  | nil => rfl
  | cons x xs ih =>
    have hhead : getLE 4 (putInts (setLE 4 b o x) (o + 4) xs) o = x := by
      rw [getLE_congr 4 fun k _ hk => putInts_of_lt _ xs hk, getLE_setLE,
        Nat.mod_eq_of_lt (h x (mem_cons_self ..))]
    rw [length_cons, getInts_succ, putInts, hhead, ih _ _ fun y hy => h y (mem_cons_of_mem _ hy)]

@[simp] theorem length_getInts (b : Bytes) (o n : Nat) : (getInts b o n).length = n := by
  rw [getInts, length_map, length_range]

theorem getInts_congr {b b' : Bytes} (h : ∀ k, o ≤ k → k < o + 4 * n → b k = b' k) :
    getInts b o n = getInts b' o n := by
  apply map_congr_left
  intro i hi
  have := mem_range.1 hi
  exact getLE_congr 4 fun k h1 h2 => h k (by omega) (by omega)

theorem getInts_getD (b : Bytes) (o n : Nat) (hk : k < n) : (getInts b o n).getD k 0 = getLE 4 b (o + 4 * k) := by
  rw [getInts, getD_eq_getElem?_getD, List.getElem?_map, List.getElem?_range hk]
  rfl

theorem getInts_setLE (b : Bytes) (o n : Nat) {v : Nat} (hv : v < 256 ^ 4) :
    getInts (setLE 4 b (o + 4 * k) v) o n = (getInts b o n).set k v := by
  apply ext_getElem
  · simp
  intro i h1 h2
  simp only [getInts, getElem_set, getElem_map, getElem_range]
  split
  next hik =>
    subst hik
    rw [getLE_setLE, Nat.mod_eq_of_lt hv]
  next hik => exact getLE_setLE_ne b v (by omega)

theorem getLE_zero : ∀ (n o : Nat), getLE n (fun _ => 0) o = 0
  | 0, _ => rfl
  | n + 1, o => by rw [getLE, getLE_zero n]; rfl

/-! ## Bits -/

/-- `(p[k/8] & (1 << (k % 8))) != 0` -/
def testBit (b : Bytes) (k : Nat) : Bool := b (k / 8) &&& 1#8 <<< (k % 8) ≠ 0

/-- `p[k/8] |= 1 << (k % 8)` -/
def setBit (b : Bytes) (k : Nat) : Bytes := update b (k / 8) (b (k / 8) ||| 1#8 <<< (k % 8))

/-- `p[k/8] &= ~(1 << (k % 8))` -/
def clearBit (b : Bytes) (k : Nat) : Bytes := update b (k / 8) (b (k / 8) &&& ~~~(1#8 <<< (k % 8)))

theorem getLsbD_mask (k i : Nat) : (1#8 <<< (k % 8)).getLsbD i = decide (i = k % 8) := by
  have hk : k % 8 < 8 := Nat.mod_lt _ (by decide)
  rw [← BitVec.twoPow, getLsbD_twoPow, decide_eq_true hk, Bool.true_and]
  exact decide_eq_decide.2 eq_comm

theorem testBit_eq (b : Bytes) (k : Nat) : testBit b k = (b (k / 8)).getLsbD (k % 8) := by
  have hmask : (1#8 <<< (k % 8)) ≠ 0 := by
    intro h0
    have hbit : (1#8 <<< (k % 8)).getLsbD (k % 8) = (0 : BitVec 8).getLsbD (k % 8) := by rw [h0]
    rw [getLsbD_mask, decide_eq_true rfl, ofNat_eq_ofNat, getLsbD_zero] at hbit
    cases hbit
  rw [testBit, ← BitVec.twoPow, and_twoPow]
  rw [← BitVec.twoPow] at hmask
  cases (b (k / 8)).getLsbD (k % 8) with
  | true => simpa using hmask
  | false => simp

theorem testBit_congr {b b' : Bytes} (h : b (k / 8) = b' (k / 8)) : testBit b k = testBit b' k := by
  rw [testBit, testBit, h]

theorem testBit_setBit (b : Bytes) (k j : Nat) : testBit (setBit b k) j = (decide (j = k) || testBit b j) := by
  by_cases hbyte : j / 8 = k / 8
  · have hjk : j = k ↔ j % 8 = k % 8 := by omega
    rw [testBit_eq, testBit_eq, setBit, hbyte, update_self, getLsbD_or, getLsbD_mask,
      Bool.or_comm]
    simp only [hjk]
  · have hjk : j ≠ k := by rintro rfl; exact hbyte rfl
    have hsame : setBit b k (j / 8) = b (j / 8) := update_of_ne hbyte ..
    rw [testBit_congr hsame, decide_eq_false hjk, Bool.false_or]

theorem testBit_clearBit (b : Bytes) (k j : Nat) : testBit (clearBit b k) j = (!decide (j = k) && testBit b j) := by
  by_cases hbyte : j / 8 = k / 8
  · have hjk : j = k ↔ j % 8 = k % 8 := by omega
    have hj : j % 8 < 8 := Nat.mod_lt _ (by decide)
    rw [testBit_eq, testBit_eq, clearBit, hbyte, update_self, getLsbD_and, getLsbD_not,
      getLsbD_mask, decide_eq_true hj, Bool.true_and, Bool.and_comm]
    simp only [hjk]
  · have hjk : j ≠ k := by rintro rfl; exact hbyte rfl
    have hsame : clearBit b k (j / 8) = b (j / 8) := update_of_ne hbyte ..
    rw [testBit_congr hsame, decide_eq_false hjk, Bool.not_false, Bool.true_and]

end Xv6Riscv.Layout
