import Mathlib.Data.List.GetD
import Xv6Riscv.Blocks.Disk
import Xv6Riscv.Lib.Ledger

/-!
# Who owns which block

`Held sb s x L` is the state while inode `x` is worked on: all other inodes own the blocks their addresses
name, and `x` owns the blocks in `L`, whatever its own addresses say at this moment. Each primitive
(marking and clearing a bit, writing a block of `x`, writing the inode) has one lemma that says what it
does to `L`.
-/
namespace Xv6Riscv.Blocks
open Layout Finset Function
variable {l : List Nat} {k : Nat}

variable {sb : Super} {disk disk' : Nat → Bytes} {s s' : St} {b w i x : Nat} {ip : Inode} {L L' : List Nat}

/-! ## Lists of addresses -/

/-- The addresses in use. -/
def nonzero (l : List Nat) : List Nat := l.filter (· ≠ 0)

@[simp] theorem mem_nonzero : b ∈ nonzero l ↔ b ∈ l ∧ b ≠ 0 := by
  simp [nonzero]

@[simp] theorem nonzero_replicate (n : Nat) : nonzero (List.replicate n 0) = [] := by
  simp [nonzero]

theorem nonzero_append (l m : List Nat) : nonzero (l ++ m) = nonzero l ++ nonzero m := List.filter_append ..

theorem nonzero_cons (h : b ≠ 0) : nonzero (b :: l) = b :: nonzero l :=
  List.filter_cons_of_pos (by simpa using h)

theorem nonzero_set_zero (hk : l.getD k 0 = b) (hb : b ≠ 0) : (nonzero l).Perm (b :: nonzero (l.set k 0)) := by
  induction l generalizing k with
  | nil => exact absurd hk.symm hb
  | cons a l ih =>
    cases k with
    | zero =>
      obtain rfl : a = b := hk
      rw [nonzero_cons hb]
      exact .refl _
    | succ k =>
      have hrest := ih (k := k) hk
      rw [List.set_cons_succ]
      by_cases ha : a = 0
      · subst ha
        exact hrest
      · rw [nonzero_cons ha, nonzero_cons ha]
        exact (hrest.cons a).trans (.swap ..)

theorem nonzero_set (hk : k < l.length) (h0 : l.getD k 0 = 0) (hb : b ≠ 0) :
    (nonzero (l.set k b)).Perm (b :: nonzero l) := by
  have hget : (l.set k b).getD k 0 = b := by
    rw [List.getD_eq_getElem?_getD, List.getElem?_set_self hk]
    rfl
  have hback : (l.set k b).set k 0 = l := by
    rw [List.getD_eq_getElem _ _ hk] at h0
    rw [List.set_set, ← h0, List.set_getElem_self]
  have := nonzero_set_zero hget hb
  rwa [hback] at this

theorem nonzero_slot_unique {j : Nat} (hn : (nonzero l).Nodup) (hjk : l.getD j 0 = l.getD k 0)
    (h0 : l.getD k 0 ≠ 0) : j = k := by
  by_contra hne
  have hmem := (nonzero_set_zero rfl h0).nodup_iff.1 hn
  have hj : j < l.length := by
    by_contra hlen
    rw [← hjk, List.getD_eq_default _ _ (by omega)] at h0
    exact h0 rfl
  refine (List.nodup_cons.1 hmem).1 (mem_nonzero.2 ⟨?_, h0⟩)
  have hset : (l.set k 0).getD j 0 = l.getD k 0 := by
    rw [List.getD_eq_getElem?_getD, List.getElem?_set_ne (Ne.symm hne), ← hjk, List.getD_eq_getElem?_getD]
  rw [← hset, List.getD_eq_getElem _ _ (by rwa [List.length_set])]
  exact List.getElem_mem _

/-! ## The blocks of an inode -/

/-- The content of the indirect block. -/
def Inode.indirect (disk : Nat → Bytes) (ip : Inode) : List Nat :=
  if ip.addrs.getD NDIRECT 0 = 0 then [] else getInts (disk (ip.addrs.getD NDIRECT 0)) 0 NINDIRECT

/-- The direct addresses, the address of the indirect block and the addresses in it. -/
def Inode.owned (disk : Nat → Bytes) (ip : Inode) : List Nat :=
  if ip.type = 0 then [] else nonzero (ip.addrs ++ ip.indirect disk)

/-- The address of block `bn` of the content. -/
def Inode.addr (disk : Nat → Bytes) (ip : Inode) (bn : Nat) : Nat :=
  if bn < NDIRECT then ip.addrs.getD bn 0 else (ip.indirect disk).getD (bn - NDIRECT) 0

/-- Every block below the size has an address. -/
def Inode.Covered (disk : Nat → Bytes) (ip : Inode) : Prop := ∀ bn, bn * BSIZE < ip.size → ip.addr disk bn ≠ 0

/-- The inode as the kernel sees it: the copy in memory if there is one, else the one on the disk. -/
def Fs.inode (sb : Super) (s : Fs) (x : Nat) : Inode := if s.valid x then s.mem x else dinode sb s.disk x

def Fs.owned (sb : Super) (s : Fs) (x : Nat) : List Nat := (s.inode sb x).owned s.disk

theorem Inode.owned_of_typed (ht : ip.type ≠ 0) : ip.owned disk = nonzero (ip.addrs ++ ip.indirect disk) :=
  if_neg ht

theorem Inode.owned_of_free (ht : ip.type = 0) : ip.owned disk = [] := if_pos ht

theorem Inode.owned_fresh (type : BitVec 16) : (Inode.fresh type).owned disk = [] := by
  have hind : (Inode.fresh type).indirect disk = [] := if_pos rfl
  by_cases ht : type = 0
  · exact owned_of_free ht
  · rw [owned_of_typed ht, hind, List.append_nil]
    exact nonzero_replicate _

theorem getD_mem (h : l.getD k 0 ≠ 0) : l.getD k 0 ∈ l := by
  have hk : k < l.length := by
    by_contra hlen
    exact h (List.getD_eq_default _ _ (by omega))
  rw [List.getD_eq_getElem _ _ hk]
  exact List.getElem_mem _

theorem Inode.mem_owned_addrs (ht : ip.type ≠ 0) (h : ip.addrs.getD k 0 ≠ 0) : ip.addrs.getD k 0 ∈ ip.owned disk := by
  rw [owned_of_typed ht]
  exact mem_nonzero.2 ⟨List.mem_append_left _ (getD_mem h), h⟩

theorem Inode.mem_owned_addr {bn : Nat} (ht : ip.type ≠ 0) (h : ip.addr disk bn ≠ 0) :
    ip.addr disk bn ∈ ip.owned disk := by
  unfold Inode.addr at h ⊢
  by_cases hbn : bn < NDIRECT
  · rw [if_pos hbn] at h ⊢
    exact mem_owned_addrs ht h
  · rw [if_neg hbn] at h ⊢
    rw [owned_of_typed ht]
    exact mem_nonzero.2 ⟨List.mem_append_right _ (getD_mem h), h⟩

theorem Inode.indirect_congr (ht : ip.type ≠ 0) (h : ∀ a ∈ ip.owned disk, disk' a = disk a) :
    ip.indirect disk' = ip.indirect disk := by
  unfold Inode.indirect
  split
  next => rfl
  next h0 => rw [h _ (mem_owned_addrs ht h0)]

theorem Inode.owned_congr (h : ∀ a ∈ ip.owned disk, disk' a = disk a) : ip.owned disk' = ip.owned disk := by
  by_cases ht : ip.type = 0
  · rw [owned_of_free ht, owned_of_free ht]
  · rw [owned_of_typed ht, owned_of_typed ht, indirect_congr ht h]

theorem Inode.Covered.congr (hc : ip.Covered disk) (ht : ip.type ≠ 0)
    (h : ∀ a ∈ ip.owned disk, disk' a = disk a) : ip.Covered disk' := by
  intro bn hbn
  unfold Inode.addr
  rw [indirect_congr ht h]
  exact hc bn hbn

/-! ## The state while an inode is worked on -/

structure Held (sb : Super) (s : St) (x : Nat) (L : List Nat) : Prop where
  reserved : ∀ b < sb.dataStart, bit sb s.disk b = true
  ledger : Ledger (range sb.ninodes) sb.Data (bit sb s.disk) (Function.update (s.owned sb) x L)
  covered : ∀ i < sb.ninodes, i ≠ x → (s.inode sb i).type ≠ 0 → (s.inode sb i).Covered s.disk
  synced : ∀ i, i ≠ x → s.valid i = true → s.mem i = dinode sb s.disk i
  typed : ∀ i, i ≠ x → s.valid i = true → (s.mem i).type ≠ 0
  table : ∀ i, s.valid i = true ∨ 0 < s.ref i → i < sb.ninodes
  /-- What `balloc` handed out was owned by nobody. -/
  fresh : ∀ c ∈ s.calls, c.block ≠ 0 → sb.Data c.block ∧ ∀ i < sb.ninodes, c.block ∉ c.fs.owned sb i

section
variable (h : Held sb s x L)
include h

theorem Held.data (hx : x < sb.ninodes) (hb : b ∈ L) : sb.Data b :=
  h.ledger.within x (mem_range.2 hx) b (by rwa [update_self])

theorem Held.nodup (hx : x < sb.ninodes) : L.Nodup := by
  have := h.ledger.nodup (mem_range.2 hx)
  rwa [update_self] at this

theorem Held.others_data (hi : i < sb.ninodes) (hne : i ≠ x) (hb : b ∈ s.owned sb i) : sb.Data b :=
  h.ledger.within i (mem_range.2 hi) b (by rwa [update_of_ne hne])

theorem Held.not_mem_others (hx : x < sb.ninodes) (hb : b ∈ L) (hi : i < sb.ninodes)
    (hne : i ≠ x) : b ∉ s.owned sb i := by
  intro hmem
  refine hne (h.ledger.owner_unique (mem_range.2 hi) (mem_range.2 hx) (b := b) ?_ ?_)
  · rwa [update_of_ne hne]
  · rwa [update_self]

theorem Held.perm (hx : x < sb.ninodes) (hp : L'.Perm L) : Held sb s x L' where
  __ := h
  ledger := by
    have hp' : L'.Perm (update (s.owned sb) x L x) := by rwa [update_self]
    have := h.ledger.perm (mem_range.2 hx) hp'
    rwa [update_idem] at this

theorem Held.frame (hmem : ∀ i, i ≠ x → s'.mem i = s.mem i) (hvalid : ∀ i, i ≠ x → s'.valid i = s.valid i)
    (hdinode : ∀ i < sb.ninodes, i ≠ x → dinode sb s'.disk i = dinode sb s.disk i)
    (hown : ∀ i < sb.ninodes, i ≠ x → ∀ a ∈ s.owned sb i, s'.disk a = s.disk a)
    (hreserved : ∀ b < sb.dataStart, bit sb s'.disk b = true)
    (hledger : Ledger (range sb.ninodes) sb.Data (bit sb s'.disk) (update (s.owned sb) x L'))
    (htable : ∀ i, s'.valid i = true ∨ 0 < s'.ref i → i < sb.ninodes)
    (hfresh : ∀ c ∈ s'.calls, c.block ≠ 0 → sb.Data c.block ∧ ∀ i < sb.ninodes, c.block ∉ c.fs.owned sb i) :
    Held sb s' x L' := by
  have hinode : ∀ i < sb.ninodes, i ≠ x → s'.inode sb i = s.inode sb i := by
    intro i hi hne
    rw [Fs.inode, Fs.inode, hmem i hne, hvalid i hne, hdinode i hi hne]
  constructor
  case reserved => exact hreserved
  case ledger =>
    refine hledger.congr (fun i hi => ?_) (fun _ _ => rfl)
    by_cases hne : i = x
    · rw [hne, update_self, update_self]
    · have hi := mem_range.1 hi
      rw [update_of_ne hne, update_of_ne hne, Fs.owned, hinode i hi hne]
      exact Inode.owned_congr (hown i hi hne)
  case covered =>
    intro i hi hne ht
    rw [hinode i hi hne] at ht ⊢
    exact (h.covered i hi hne ht).congr ht (hown i hi hne)
  case synced =>
    intro i hne hv
    rw [hmem i hne, hdinode i (htable i (.inl hv)) hne]
    exact h.synced i hne (hvalid i hne ▸ hv)
  case typed =>
    intro i hne hv
    rw [hmem i hne]
    exact h.typed i hne (hvalid i hne ▸ hv)
  case table => exact htable
  case fresh => exact hfresh

/-! ## Writing a block -/

theorem Held.setBlock {data : Bytes} (hw : sb.bmapstart ≤ w) (hfree : ∀ i < sb.ninodes, i ≠ x → w ∉ s.owned sb i)
    (hreserved : ∀ b < sb.dataStart, bit sb (s.setBlock w data).disk b = true)
    (hledger : Ledger (range sb.ninodes) sb.Data (bit sb (s.setBlock w data).disk)
      (update (s.owned sb) x L')) : Held sb (s.setBlock w data) x L' := by
  refine h.frame (fun _ _ => rfl) (fun _ _ => rfl) ?_ ?_ hreserved hledger h.table h.fresh
  · intro i hi _
    have := sb.iblock_lt hi
    exact dinode_update_of_ne _ (by omega)
  · intro i hi hne a ha
    exact update_of_ne (by rintro rfl; exact hfree i hi hne ha) ..

theorem Held.setBitmap {data : Bytes} (hb : b < sb.size)
    (hreserved : ∀ c < sb.dataStart, bit sb (s.setBlock (sb.bblock b) data).disk c = true)
    (hledger : Ledger (range sb.ninodes) sb.Data (bit sb (s.setBlock (sb.bblock b) data).disk)
      (update (s.owned sb) x L')) : Held sb (s.setBlock (sb.bblock b) data) x L' := by
  refine h.setBlock (sb.le_bblock b) ?_ hreserved hledger
  intro i hi hne hmem
  exact (h.others_data hi hne hmem).ne_bblock hb rfl

theorem Held.mark (hx : x < sb.ninodes) (hb : sb.Data b) (hfree : bit sb s.disk b = false) :
    Held sb (s.setBlock (sb.bblock b) (setBit (s.disk (sb.bblock b)) (b % BPB))) x (b :: L) := by
  have hbit := bit_mark sb s.disk b
  refine h.setBitmap hb.2 ?_ ?_
  · intro c hc
    show bit sb (update s.disk _ _) c = true
    rw [hbit, h.reserved c hc, Bool.or_true]
  · have htake := h.ledger.take (bit sb (update s.disk _ _)) (mem_range.2 hx) hb hfree
      (by rw [hbit, decide_eq_true rfl, Bool.true_or])
      (fun c _ hc => by rw [hbit, decide_eq_false hc, Bool.false_or])
    rw [update_self, update_idem] at htake
    exact htake

theorem Held.unmark (hx : x < sb.ninodes) (hb : b ∈ L) : bit sb s.disk b = true ∧
    Held sb (s.setBlock (sb.bblock b) (clearBit (s.disk (sb.bblock b)) (b % BPB))) x (L.erase b) := by
  have hdata := h.data hx hb
  have hself : b ∈ update (s.owned sb) x L x := by rwa [update_self]
  have hbit := bit_clear sb s.disk b
  refine ⟨h.ledger.used_of_mem (mem_range.2 hx) hself, h.setBitmap hdata.2 ?_ ?_⟩
  · intro c hc
    have hne : c ≠ b := by
      have := hdata.1
      omega
    show bit sb (update s.disk _ _) c = true
    rw [hbit, decide_eq_false hne, h.reserved c hc]
    rfl
  · have hgive := h.ledger.give (bit sb (update s.disk _ _)) (mem_range.2 hx) hself
      (by rw [hbit, decide_eq_true rfl, Bool.not_true, Bool.false_and])
      (fun c _ hc => by rw [hbit, decide_eq_false hc, Bool.not_false, Bool.true_and])
    rw [update_self, update_idem] at hgive
    exact hgive

theorem Held.write (hx : x < sb.ninodes) (hw : w ∈ L) (data : Bytes) : Held sb (s.setBlock w data) x L := by
  have hdata := h.data hx hw
  have hbit : ∀ c < sb.size, bit sb (update s.disk w data) c = bit sb s.disk c :=
    fun c hc => bit_update_of_ne _ (hdata.ne_bblock hc).symm
  refine h.setBlock hdata.le (fun i hi hne => h.not_mem_others hx hw hi hne) ?_ ?_
  · intro c hc
    show bit sb (update s.disk w data) c = true
    rw [hbit c (lt_of_lt_of_le hc (Nat.sub_le _ _)), h.reserved c hc]
  · exact h.ledger.congr (fun _ _ => rfl) (fun c hc => hbit c hc.2)

/-! ## Writing the inode -/

theorem Held.setMem (ip : Inode) : Held sb (s.setMem x ip) x L :=
  h.frame (fun _ hi => update_of_ne hi ..) (fun _ _ => rfl) (fun _ _ _ => rfl) (fun _ _ _ _ _ => rfl)
    h.reserved h.ledger h.table h.fresh

theorem Held.putDinode (hx : x < sb.ninodes) (hl : ip.addrs.length = NDIRECT + 1) :
    Held sb (s.setBlock (sb.iblock x) (putDinode (s.disk (sb.iblock x)) (64 * (x % IPB)) ip)) x L := by
  have hlt := sb.iblock_lt hx
  have hdisk : ∀ w (data : Bytes), sb.bmapstart ≤ w → (s.setBlock (sb.iblock x) data).disk w = s.disk w :=
    fun w data hw => update_of_ne (by omega) ..
  have hbit : ∀ c (data : Bytes), bit sb (s.setBlock (sb.iblock x) data).disk c = bit sb s.disk c := by
    intro c data
    rw [bit, bit, hdisk _ _ (sb.le_bblock c)]
  refine h.frame (fun _ _ => rfl) (fun _ _ => rfl) (fun i _ hi => dinode_put_of_ne s.disk hl hi) ?_ ?_ ?_
    h.table h.fresh
  · exact fun i hi hne a ha => hdisk a _ (h.others_data hi hne ha).le
  · exact fun b hb => by rw [hbit]; exact h.reserved b hb
  · exact h.ledger.congr (fun _ _ => rfl) (fun c _ => hbit c _)

end

end Xv6Riscv.Blocks
