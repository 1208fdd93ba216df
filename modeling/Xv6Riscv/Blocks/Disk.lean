import Xv6Riscv.Blocks.Model

/-!
# Reading and writing the structures on the disk

Bits of the bitmap and on-disk inodes as functions of the blocks: each write changes the one bit or the
one inode it is meant for.
-/
namespace Xv6Riscv.Blocks
open Layout Function

variable {sb : Super} {disk : Nat → Bytes} {b c w i x : Nat} {ip : Inode}

/-! ## The regions of the disk -/

theorem Super.iblock_lt (sb : Super) (h : i < sb.ninodes) : sb.iblock i < sb.bmapstart := sb.inodes_fit i h

theorem Super.bblock_lt (sb : Super) (h : b < sb.size) : sb.bblock b < sb.dataStart := sb.bitmap_fits b h

theorem Super.le_bblock (sb : Super) (b : Nat) : sb.bmapstart ≤ sb.bblock b := Nat.le_add_left _ _

theorem Super.Data.ne_bblock (h : sb.Data w) (hb : b < sb.size) : w ≠ sb.bblock b := by
  have := sb.bblock_lt hb
  have := h.1
  omega

theorem Super.Data.le (h : sb.Data w) : sb.bmapstart ≤ w := by
  have := sb.bblock_lt h.2
  have := sb.le_bblock w
  have := h.1
  omega

theorem Super.Data.ne_zero (h : sb.Data w) : w ≠ 0 := by
  have := sb.bblock_lt h.2
  have := h.1
  omega

theorem Super.Data.lt (h : sb.Data w) : w < 256 ^ 4 := by
  have := h.2
  have := sb.fits
  omega

/-! ## The bitmap -/

/-- The bit of block `b`. -/
def bit (sb : Super) (disk : Nat → Bytes) (b : Nat) : Bool := testBit (disk (sb.bblock b)) (b % BPB)

theorem bit_update_of_ne (data : Bytes) (h : sb.bblock c ≠ w) : bit sb (update disk w data) c = bit sb disk c := by
  rw [bit, bit, update_of_ne h]

theorem bblock_mod_inj (hb : sb.bblock c = sb.bblock b) (hm : c % BPB = b % BPB) : c = b := by
  have hd : c / BPB = b / BPB := Nat.add_right_cancel hb
  rw [← Nat.div_add_mod c BPB, ← Nat.div_add_mod b BPB, hd, hm]

theorem bit_mark (sb : Super) (disk : Nat → Bytes) (b c : Nat) :
    bit sb (update disk (sb.bblock b) (setBit (disk (sb.bblock b)) (b % BPB))) c =
      (decide (c = b) || bit sb disk c) := by
  by_cases hblock : sb.bblock c = sb.bblock b
  · have hmod : c % BPB = b % BPB ↔ c = b := ⟨bblock_mod_inj hblock, fun h => by rw [h]⟩
    rw [bit, bit, hblock, update_self, testBit_setBit, decide_eq_decide.2 hmod]
  · have hne : c ≠ b := by rintro rfl; exact hblock rfl
    rw [bit_update_of_ne _ hblock, decide_eq_false hne, Bool.false_or]

theorem bit_clear (sb : Super) (disk : Nat → Bytes) (b c : Nat) :
    bit sb (update disk (sb.bblock b) (clearBit (disk (sb.bblock b)) (b % BPB))) c =
      (!decide (c = b) && bit sb disk c) := by
  by_cases hblock : sb.bblock c = sb.bblock b
  · have hmod : c % BPB = b % BPB ↔ c = b := ⟨bblock_mod_inj hblock, fun h => by rw [h]⟩
    rw [bit, bit, hblock, update_self, testBit_clearBit, decide_eq_decide.2 hmod]
  · have hne : c ≠ b := by rintro rfl; exact hblock rfl
    rw [bit_update_of_ne _ hblock, decide_eq_false hne, Bool.not_false, Bool.true_and]

/-- The loops of `balloc` end at a block of the disk whose bit is clear. -/
theorem firstFree_spec (h : firstFree sb disk = some b) : b < sb.size ∧ bit sb disk b = false := by
  obtain ⟨k, -, hk⟩ := List.exists_of_findSome?_eq_some h
  obtain ⟨bi, hbi, rfl⟩ := Option.map_eq_some_iff.1 hk
  have hclear := List.find?_some hbi
  have hlt := List.mem_range.1 (List.mem_of_find?_eq_some hbi)
  have hpos : 0 < BPB := by decide
  have hdiv : (k * BPB + bi) / BPB = k := by
    rw [Nat.mul_comm, Nat.mul_add_div hpos, Nat.div_eq_of_lt (by omega), Nat.add_zero]
  have hmod : (k * BPB + bi) % BPB = bi := by
    rw [Nat.mul_comm, Nat.mul_add_mod, Nat.mod_eq_of_lt (by omega)]
  have hblock : sb.bblock (k * BPB + bi) = sb.bblock (k * BPB) := by
    rw [Super.bblock, Super.bblock, hdiv, Nat.mul_div_cancel k hpos]
  refine ⟨by omega, ?_⟩
  rw [bit, hblock, hmod]
  simpa using hclear

/-! ## On-disk inodes -/

theorem getDinode_congr {b b' : Bytes} {o : Nat} (h : ∀ k, o ≤ k → k < o + 64 → b k = b' k) :
    getDinode b o = getDinode b' o := by
  unfold getDinode
  have hle : ∀ n o', o ≤ o' → o' + n ≤ o + 64 → getLE n b o' = getLE n b' o' :=
    fun n o' h1 h2 => getLE_congr n fun k h3 h4 => h k (by omega) (by omega)
  have hints : getInts b (o + 12) (NDIRECT + 1) = getInts b' (o + 12) (NDIRECT + 1) :=
    getInts_congr fun k h1 h2 => h k (by omega) (by unfold NDIRECT at h2; omega)
  rw [hle 2 o (by omega) (by omega), hle 2 (o + 2) (by omega) (by omega), hle 2 (o + 4) (by omega) (by omega),
    hle 2 (o + 6) (by omega) (by omega), hle 4 (o + 8) (by omega) (by omega), hints]

theorem putDinode_of_ne {b : Bytes} {o k : Nat} (hl : ip.addrs.length = NDIRECT + 1) (h : k < o ∨ o + 64 ≤ k) :
    putDinode b o ip k = b k := by
  unfold putDinode
  rcases h with h | h
  · rw [putInts_of_lt _ _ (by omega), setLE_of_lt 4 _ _ (by omega), setLE_of_lt 2 _ _ (by omega),
      setLE_of_lt 2 _ _ (by omega), setLE_of_lt 2 _ _ (by omega), setLE_of_lt 2 _ _ (by omega)]
  · rw [putInts_of_le _ _ (by rw [hl]; unfold NDIRECT; omega), setLE_of_le 4 _ _ (by omega),
      setLE_of_le 2 _ _ (by omega), setLE_of_le 2 _ _ (by omega), setLE_of_le 2 _ _ (by omega),
      setLE_of_le 2 _ _ (by omega)]

theorem ofNat_toNat_mod (v : BitVec 16) : BitVec.ofNat 16 (v.toNat % 256 ^ 2) = v := by
  rw [Nat.mod_eq_of_lt (show v.toNat < 256 ^ 2 from v.isLt), BitVec.ofNat_toNat, BitVec.setWidth_eq]

theorem getDinode_putDinode (b : Bytes) (o : Nat) (hl : ip.addrs.length = NDIRECT + 1)
    (hs : ip.size < 256 ^ 4) (ha : ∀ a ∈ ip.addrs, a < 256 ^ 4) : getDinode (putDinode b o ip) o = ip := by
  have hlow : ∀ (n k : Nat) (b' : Bytes), k + n ≤ o + 12 →
      getLE n (putInts b' (o + 12) ip.addrs) k = getLE n b' k :=
    fun n k b' hk => getLE_congr n fun j _ hj => putInts_of_lt _ _ (by omega)
  have haddrs : ∀ b' : Bytes, getInts (putInts b' (o + 12) ip.addrs) (o + 12) (NDIRECT + 1) = ip.addrs := by
    intro b'
    rw [← hl]
    exact getInts_putInts b' _ _ ha
  unfold getDinode putDinode
  simp only [hlow 2 o _ (by omega), hlow 2 (o + 2) _ (by omega), hlow 2 (o + 4) _ (by omega),
    hlow 2 (o + 6) _ (by omega), hlow 4 (o + 8) _ (by omega), haddrs]
  -- each field is the last one stored at its offset
  simp (disch := omega) only [getLE_setLE_ne, getLE_setLE, ofNat_toNat_mod, Nat.mod_eq_of_lt hs]

theorem dinode_update_of_ne (data : Bytes) (h : sb.iblock i ≠ w) :
    dinode sb (update disk w data) i = dinode sb disk i := by
  rw [dinode, dinode, update_of_ne h]

section
variable (disk : Nat → Bytes)

theorem dinode_put_of_ne (hl : ip.addrs.length = NDIRECT + 1) (h : i ≠ x) :
    dinode sb (update disk (sb.iblock x) (putDinode (disk (sb.iblock x)) (64 * (x % IPB)) ip)) i =
      dinode sb disk i := by
  by_cases hblock : sb.iblock i = sb.iblock x
  · have hd : i / IPB = x / IPB := Nat.add_right_cancel hblock
    have hslot : i % IPB ≠ x % IPB := by
      intro hm
      apply h
      rw [← Nat.div_add_mod i IPB, ← Nat.div_add_mod x IPB, hd, hm]
    rw [dinode, dinode, hblock, update_self]
    exact getDinode_congr fun k h1 h2 => putDinode_of_ne hl (by omega)
  · exact dinode_update_of_ne _ hblock

theorem dinode_put_self (x : Nat) (hl : ip.addrs.length = NDIRECT + 1)
    (hs : ip.size < 256 ^ 4) (ha : ∀ a ∈ ip.addrs, a < 256 ^ 4) :
    dinode sb (update disk (sb.iblock x) (putDinode (disk (sb.iblock x)) (64 * (x % IPB)) ip)) x = ip := by
  rw [dinode, update_self, getDinode_putDinode _ _ hl hs ha]

theorem dinode_length (x : Nat) : (dinode sb disk x).addrs.length = NDIRECT + 1 :=
  length_getInts _ _ _

theorem dinode_size_lt (x : Nat) : (dinode sb disk x).size < 256 ^ 4 := getLE_lt 4 _ _

end

end Xv6Riscv.Blocks
