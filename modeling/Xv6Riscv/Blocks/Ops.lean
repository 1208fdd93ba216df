import Xv6Riscv.Blocks.Content

/-!
# `readi`, `writei` and `itrunc`

Between two operations nothing is under way (`Inv`): every allocated inode owns the blocks its addresses
name, has an address for every block below its size, and is the same in memory and on the disk. Each
operation locks one inode, works on it as a `Busy` one, and writes it back.
-/
namespace Xv6Riscv.Blocks
open Layout Finset Function

variable {sb : Super} {s s' : St} {a b k n x bn : Nat} {L : List Nat}

/-! ## Between operations -/

structure Inv (sb : Super) (s : St) : Prop where
  reserved : ∀ b < sb.dataStart, bit sb s.disk b = true
  ledger : Ledger (range sb.ninodes) sb.Data (bit sb s.disk) (s.owned sb)
  covered : ∀ i < sb.ninodes, (s.inode sb i).type ≠ 0 → (s.inode sb i).Covered s.disk
  synced : ∀ i, s.valid i = true → s.mem i = dinode sb s.disk i
  typed : ∀ i, s.valid i = true → (s.mem i).type ≠ 0
  table : ∀ i, s.valid i = true ∨ 0 < s.ref i → i < sb.ninodes
  fresh : ∀ c ∈ s.calls, c.block ≠ 0 → sb.Data c.block ∧ ∀ i < sb.ninodes, c.block ∉ c.fs.owned sb i

theorem Inv.held (h : Inv sb s) (x : Nat) : Held sb s x (s.owned sb x) where
  reserved := h.reserved
  ledger := by
    rw [update_eq_self]
    exact h.ledger
  covered i hi _ := h.covered i hi
  synced i _ := h.synced i
  typed i _ := h.typed i
  table := h.table
  fresh := h.fresh

theorem Held.inv (h : Held sb s x (s.owned sb x)) (hcovered : (s.inode sb x).type ≠ 0 → (s.inode sb x).Covered s.disk)
    (hsynced : s.valid x = true → s.mem x = dinode sb s.disk x ∧ (s.mem x).type ≠ 0) : Inv sb s where
  reserved := h.reserved
  ledger := by
    have := h.ledger
    rwa [update_eq_self] at this
  covered i hi ht := by
    by_cases hne : i = x
    · rw [hne] at ht ⊢
      exact hcovered ht
    · exact h.covered i hi hne ht
  synced i hv := by
    by_cases hne : i = x
    · rw [hne] at hv ⊢
      exact (hsynced hv).1
    · exact h.synced i hne hv
  typed i hv := by
    by_cases hne : i = x
    · rw [hne] at hv ⊢
      exact (hsynced hv).2
    · exact h.typed i hne hv
  table := h.table
  fresh := h.fresh

/-- Every block below `size` has an address. -/
def Filled (s : St) (x size : Nat) : Prop := ∀ bn, bn * BSIZE < size → s.addr x bn ≠ 0

theorem Filled.mono (h : Filled s x n) (hg : Grows s s' x) : Filled s' x n := by
  intro bn hbn
  rw [hg.2 bn (h bn hbn)]
  exact h bn hbn

theorem Inv.busy (h : Inv sb s) (hv : s.valid x = true) : Busy sb s x ∧ Filled s x (s.mem x).size := by
  have hsynced := h.synced x hv
  have hx := h.table x (.inl hv)
  have hinode : s.inode sb x = s.mem x := if_pos hv
  have hopen : Open sb s x := by
    refine ⟨hx, hv, h.typed x hv, ?_, ?_⟩
    · rw [hsynced]
      exact dinode_length _ _
    · rw [hsynced]
      exact dinode_size_lt _ _
  have hcovered := h.covered x hx (by rw [hinode]; exact h.typed x hv)
  rw [hinode] at hcovered
  exact ⟨⟨hopen, h.held x⟩, hcovered⟩

theorem Busy.addrs_lt (h : Busy sb s x) (ha : a ∈ (s.mem x).addrs) : a < 256 ^ 4 := by
  by_cases h0 : a = 0
  · rw [h0]
    decide
  · refine (h.held.data h.lt (b := a) ?_).lt
    rw [h.owned]
    exact mem_nonzero.2 ⟨List.mem_append_left _ ha, h0⟩

theorem iupdate_disk (hx : x < sb.ninodes) (hw : sb.bmapstart ≤ a) : (iupdate sb s x).disk a = s.disk a := by
  have := sb.iblock_lt hx
  exact update_of_ne (by omega) ..

theorem Busy.iupdate (h : Busy sb s x) : Busy sb (iupdate sb s x) x ∧
    (iupdate sb s x).mem x = dinode sb (iupdate sb s x).disk x ∧ Grows s (iupdate sb s x) x := by
  have hopen : Open sb (Blocks.iupdate sb s x) x := h.toOpen.congr rfl rfl
  have hind : (s.mem x).indirect (Blocks.iupdate sb s x).disk = (s.mem x).indirect s.disk := by
    apply Inode.indirect_congr h.typed
    intro a ha
    rw [← h.inode] at ha
    exact iupdate_disk h.lt (h.held.data h.lt ha).le
  have howned : (Blocks.iupdate sb s x).owned sb x = s.owned sb x := by
    rw [hopen.owned, h.owned]
    exact congrArg (fun e => nonzero (_ ++ e)) hind
  refine ⟨⟨hopen, ?_⟩, ?_, rfl, fun bn _ => ?_⟩
  · rw [howned]
    exact h.held.putDinode h.lt h.length
  · exact (dinode_put_self s.disk x h.length h.size fun a ha => h.addrs_lt ha).symm
  · show (s.mem x).addr (Blocks.iupdate sb s x).disk bn = _
    rw [Inode.addr, hind]
    rfl

/-- Writing a complete inode back ends the operation. -/
theorem Busy.close (h : Busy sb s x) (hf : Filled s x (s.mem x).size) : Inv sb (Blocks.iupdate sb s x) := by
  obtain ⟨hbusy, hsynced, hgrows⟩ := h.iupdate
  refine hbusy.held.inv (fun _ => ?_) (fun _ => ⟨hsynced, hbusy.typed⟩)
  rw [hbusy.inode]
  exact hf.mono hgrows

/-! ## `readi` -/

/-- Reading below the size allocates nothing and changes nothing. -/
theorem readLoop_spec {β : Type} (dst : Nat → List (BitVec 8) → Bool × List β) (hf : Filled s x (s.mem x).size)
    (off tot : Nat) (out : List β) (h : off + (n - tot) ≤ (s.mem x).size) : ∃ r out', readLoop sb x n dst s off tot out = .ok (r, out', s) := by
  induction hleft : n - tot using Nat.strong_induction_on generalizing off tot out with
  | _ left ih =>
    rw [readLoop]
    by_cases htot : tot < n
    · have haddr : s.addr x (off / BSIZE) ≠ 0 := by
        apply hf
        have := Nat.div_mul_le_self off BSIZE
        omega
      have hpos : 0 < chunk (n - tot) off := chunk_pos off (by omega)
      have hle : chunk (n - tot) off ≤ n - tot := Nat.min_le_left _ _
      rw [if_pos htot, bmap_of_addr haddr]
      simp only [Bind.bind, Except.bind, if_neg haddr]
      split
      · exact ih (n - (tot + chunk (n - tot) off)) (by omega) _ _ _ (by omega) rfl
      · exact ⟨_, _, rfl⟩
    · rw [if_neg htot]
      exact ⟨_, _, rfl⟩

theorem readi_spec {β : Type} (dst : Nat → List (BitVec 8) → Bool × List β) (hf : Filled s x (s.mem x).size)
    (off n : BitVec 32) :
    ∃ r out, readi sb s x dst off n = .ok (r, out, s) := by
  unfold readi
  by_cases hbad : (s.mem x).size < off.toNat ∨ (off + n).toNat < off.toNat
  · exact ⟨_, _, if_pos hbad⟩
  · simp only [if_neg hbad]
    refine readLoop_spec dst hf _ 0 [] ?_
    have hadd := BitVec.toNat_add off n
    split <;> omega

/-! ## `writei` -/

theorem Busy.relog (h : Busy sb s x) (lh : List Nat) : Busy sb { s with lh := lh } x :=
  ⟨{ h.toOpen with }, { h.held with }⟩

theorem Busy.writeData (h : Busy sb s x) (h0 : s.addr x bn ≠ 0) (data : Bytes) :
    Busy sb (s.setBlock (s.addr x bn) data) x ∧ Grows s (s.setBlock (s.addr x bn) data) x := by
  have hopen : Open sb (s.setBlock (s.addr x bn) data) x := h.toOpen.congr rfl rfl
  have hind : (s.mem x).indirect (s.setBlock (s.addr x bn) data).disk = (s.mem x).indirect s.disk := by
    unfold Inode.indirect
    have hother : (s.setBlock (s.addr x bn) data).disk ((s.mem x).addrs.getD NDIRECT 0) =
        s.disk ((s.mem x).addrs.getD NDIRECT 0) := update_of_ne (h.addr_ne_indirect h0) ..
    rw [hother]
  have howned : (s.setBlock (s.addr x bn) data).owned sb x = s.owned sb x := by
    rw [hopen.owned, h.owned]
    exact congrArg (fun e => nonzero (_ ++ e)) hind
  refine ⟨⟨hopen, ?_⟩, rfl, fun bn' _ => ?_⟩
  · rw [howned]
    exact h.held.write h.lt (h.addr_mem h0) data
  · show (s.mem x).addr (s.setBlock (s.addr x bn) data).disk bn' = _
    rw [Inode.addr, hind]
    rfl

theorem Filled.chunk {off m : Nat} (h : Filled s x off) (h0 : s.addr x (off / BSIZE) ≠ 0)
    (hm : m ≤ BSIZE - off % BSIZE) : Filled s x (off + m) := by
  intro bn hbn
  by_cases hlt : bn * BSIZE < off
  · exact h bn hlt
  -- the chunk ends with its block
  have hbn' : bn = off / BSIZE := by
    unfold BSIZE at *
    omega
  rw [hbn']
  exact h0

theorem writeLoop_spec (src : Nat → Source) (h : Busy sb s x) (hs : Filled s x (s.mem x).size) (off tot : Nat)
    (ho : Filled s x off) (hmax : off + (n - tot) ≤ MAXFILE * BSIZE) :
    ∃ off' tot' s', writeLoop sb x n src s off tot = .ok (off', tot', s') ∧ Busy sb s' x ∧
      Filled s' x (s'.mem x).size ∧ Filled s' x off' ∧ off' ≤ MAXFILE * BSIZE := by
  induction hleft : n - tot using Nat.strong_induction_on generalizing s off tot with
  | _ left ih =>
    rw [writeLoop]
    by_cases htot : tot < n
    · have hbn : off / BSIZE < MAXFILE := by
        apply Nat.div_lt_of_lt_mul
        rw [Nat.mul_comm]
        omega
      obtain ⟨a, s1, hrun, hbusy, hgrows, haddr, -⟩ := bmap_spec h hbn
      have hs1 : Filled s1 x (s1.mem x).size := by
        rw [hgrows.1]
        exact hs.mono hgrows
      rw [if_pos htot, hrun]
      simp only [Bind.bind, Except.bind]
      by_cases ha : a = 0
      · rw [if_pos ha]
        exact ⟨_, _, _, rfl, hbusy, hs1, ho.mono hgrows, by omega⟩
      have hpos : 0 < chunk (n - tot) off := chunk_pos off (by omega)
      have hle : chunk (n - tot) off ≤ n - tot := Nat.min_le_left _ _
      have h1 : s1.addr x (off / BSIZE) ≠ 0 := by rw [haddr ha]; exact ha
      obtain ⟨hbusy2, hgrows2⟩ := hbusy.writeData h1 ((src tot).copy (s1.disk a) (off % BSIZE) (chunk (n - tot) off))
      rw [haddr ha] at hbusy2 hgrows2
      have hs2 := hs1.mono hgrows2
      rw [if_neg ha]
      by_cases hok : (src tot).ok
      · rw [if_pos hok]
        have hend : chunk (n - tot) off ≤ BSIZE - off % BSIZE := Nat.min_le_right _ _
        have hnext := ((ho.mono hgrows).chunk h1 hend).mono hgrows2
        refine ih (n - (tot + chunk (n - tot) off)) (by omega) hbusy2 ?_ _ _ hnext (by omega) rfl
        exact hs2
      · rw [if_neg hok]
        exact ⟨_, _, _, rfl, hbusy2.relog s1.lh, hs2, (ho.mono hgrows).mono hgrows2, by omega⟩
    · rw [if_neg htot]
      exact ⟨_, _, _, rfl, h, hs, ho, by omega⟩

theorem Busy.setFields (h : Busy sb s x) (ip : Inode) (ht : ip.type ≠ 0) (ha : ip.addrs = (s.mem x).addrs)
    (hn : ip.size < 256 ^ 4) : Busy sb (s.setMem x ip) x ∧ ∀ bn, (s.setMem x ip).addr x bn = s.addr x bn := by
  have hmem : (s.setMem x ip).mem x = ip := update_self ..
  have hind : ip.indirect s.disk = (s.mem x).indirect s.disk := by rw [Inode.indirect, ha, Inode.indirect]
  have hopen : Open sb (s.setMem x ip) x := by
    constructor
    case lt => exact h.lt
    case valid => exact h.valid
    all_goals rw [hmem]
    case typed => exact ht
    case length => exact ha ▸ h.length
    case size => exact hn
  have howned : (s.setMem x ip).owned sb x = s.owned sb x := by
    rw [hopen.owned, h.owned, hmem, ha]
    exact congrArg (fun e => nonzero (_ ++ e)) hind
  refine ⟨⟨hopen, ?_⟩, fun bn => ?_⟩
  · rw [howned]
    exact h.held.setMem _
  · rw [St.addr, hmem, Inode.addr, ha]
    exact congrArg (fun e : List Nat => if bn < NDIRECT then _ else e.getD (bn - NDIRECT) 0) hind

/-- `if(off > ip->size) ip->size = off` -/
def St.growTo (s : St) (x off : Nat) : St :=
  if (s.mem x).size < off then s.setMem x ((s.mem x).setSize off) else s

theorem Busy.growTo {off : Nat} (h : Busy sb s x) (hmax : off ≤ MAXFILE * BSIZE) :
    Busy sb (s.growTo x off) x ∧ (∀ bn, (s.growTo x off).addr x bn = s.addr x bn) ∧
      ((s.growTo x off).mem x).size = max (s.mem x).size off := by
  unfold St.growTo
  by_cases hsize : (s.mem x).size < off
  · have hlt : off < 256 ^ 4 := by
      unfold MAXFILE NDIRECT NINDIRECT BSIZE at hmax
      omega
    have hmem : (s.setMem x ((s.mem x).setSize off)).mem x = (s.mem x).setSize off := update_self ..
    obtain ⟨hbusy, haddr⟩ := h.setFields ((s.mem x).setSize off) h.typed rfl hlt
    rw [if_pos hsize]
    refine ⟨hbusy, haddr, ?_⟩
    rw [hmem, Nat.max_eq_right (Nat.le_of_lt hsize)]
    rfl
  · rw [if_neg hsize]
    exact ⟨h, fun _ => rfl, (Nat.max_eq_left (Nat.le_of_not_lt hsize)).symm⟩

theorem Busy.finish {off : Nat} (h : Busy sb s x) (hs : Filled s x (s.mem x).size) (ho : Filled s x off)
    (hmax : off ≤ MAXFILE * BSIZE) : Inv sb (Blocks.iupdate sb (s.growTo x off) x) := by
  obtain ⟨hbusy, haddr, hsize⟩ := h.growTo hmax
  refine hbusy.close fun bn hbn => ?_
  rw [hsize, lt_max_iff] at hbn
  rw [haddr]
  exact hbn.elim (hs bn) (ho bn)

theorem writei_spec (src : Nat → Source) (h : Inv sb s) (hv : s.valid x = true) (off n : BitVec 32) :
    ∃ r s', writei sb s x src off n = .ok (r, s') ∧ Inv sb s' := by
  obtain ⟨hbusy, hfilled⟩ := h.busy hv
  unfold writei
  by_cases hbad : (s.mem x).size < off.toNat ∨ (off + n).toNat < off.toNat
  · exact ⟨_, _, if_pos hbad, h⟩
  by_cases hbig : MAXFILE * BSIZE < (off + n).toNat
  · exact ⟨_, _, by rw [if_neg hbad, if_pos hbig], h⟩
  have hsum : off.toNat + (n.toNat - 0) ≤ MAXFILE * BSIZE := by
    have hadd := BitVec.toNat_add off n
    omega
  have hoff : Filled s x off.toNat := fun bn hbn => hfilled bn (by omega)
  obtain ⟨off', tot, s1, hrun, hbusy1, hs1, ho1, hmax⟩ := writeLoop_spec src hbusy hfilled off.toNat 0 hoff hsum
  rw [if_neg hbad, if_neg hbig, hrun]
  exact ⟨_, _, rfl, hbusy1.finish hs1 ho1 hmax⟩

end Xv6Riscv.Blocks
