import Xv6Riscv.Blocks.Held

/-!
# `bmap`: addresses are added one at a time

An inode that is locked and loaded is `Busy`: it owns the blocks that the addresses in memory name. `bmap`
keeps that, on every path out of it, and never changes an address that is there.
-/
namespace Xv6Riscv.Blocks
open Layout Finset Function

variable {sb : Super} {s s' : St} {a b k x bn : Nat} {L : List Nat}

/-! ## `balloc` and `bfree` -/

theorem Held.addCall {c : Call} (h : Held sb s x L)
    (hc : c.block ≠ 0 → sb.Data c.block ∧ ∀ i < sb.ninodes, c.block ∉ c.fs.owned sb i) :
    Held sb { s with calls := c :: s.calls } x L where
  reserved := h.reserved
  ledger := h.ledger
  covered := h.covered
  synced := h.synced
  typed := h.typed
  table := h.table
  fresh := List.forall_mem_cons.2 ⟨hc, h.fresh⟩

theorem balloc_spec (h : Held sb s x (s.owned sb x)) (hx : x < sb.ninodes) :
    ∃ b s', balloc sb s = (b, s') ∧ s'.mem = s.mem ∧ s'.valid = s.valid ∧
      (b = 0 ∧ s'.disk = s.disk ∧ Held sb s' x (s.owned sb x) ∨
        sb.Data b ∧ b ∉ s.owned sb x ∧ s'.disk b = (fun _ => 0) ∧
          (∀ w, sb.Data w → w ≠ b → s'.disk w = s.disk w) ∧ Held sb s' x (b :: s.owned sb x)) := by
  unfold balloc
  cases hf : firstFree sb s.disk with
  | none => exact ⟨_, _, rfl, rfl, rfl, .inl ⟨rfl, rfl, h.addCall fun h0 => absurd rfl h0⟩⟩
  | some b =>
    obtain ⟨hlt, hfree⟩ := firstFree_spec hf
    -- the blocks in front of the data are marked
    have hdata : sb.Data b := by
      refine ⟨?_, hlt⟩
      by_contra hres
      rw [h.reserved b (by omega)] at hfree
      cases hfree
    have hledger := h.ledger
    rw [update_eq_self] at hledger
    have hnew : ∀ i < sb.ninodes, b ∉ s.owned sb i := fun i hi => hledger.not_mem_of_free (mem_range.2 hi) hfree
    refine ⟨_, _, rfl, rfl, rfl, .inr ⟨hdata, hnew x hx, update_self .., ?_, ?_⟩⟩
    · intro w hw hne
      show update (update s.disk _ _) b _ w = _
      rw [update_of_ne hne, update_of_ne (hw.ne_bblock hlt)]
    · exact ((h.mark hx hdata hfree).write hx List.mem_cons_self _).addCall (c := ⟨s.toFs, b⟩)
        fun _ => ⟨hdata, hnew⟩

theorem bfree_spec (h : Held sb s x L) (hx : x < sb.ninodes) (hb : b ∈ L) :
    ∃ data, bfree sb s b = .ok (s.setBlock (sb.bblock b) data) ∧
      Held sb (s.setBlock (sb.bblock b) data) x (L.erase b) := by
  obtain ⟨hbit, hheld⟩ := h.unmark hx hb
  exact ⟨_, if_pos hbit, hheld⟩

/-! ## An inode that is being used -/

/-- The inode is locked and loaded. -/
structure Open (sb : Super) (s : St) (x : Nat) : Prop where
  lt : x < sb.ninodes
  valid : s.valid x = true
  typed : (s.mem x).type ≠ 0
  length : (s.mem x).addrs.length = NDIRECT + 1
  size : (s.mem x).size < 256 ^ 4

structure Busy (sb : Super) (s : St) (x : Nat) : Prop extends Open sb s x where
  held : Held sb s x (s.owned sb x)

theorem Open.inode (h : Open sb s x) : s.inode sb x = s.mem x := if_pos h.valid

theorem Open.owned (h : Open sb s x) : s.owned sb x = nonzero ((s.mem x).addrs ++ (s.mem x).indirect s.disk) := by
  rw [Fs.owned, h.inode, Inode.owned_of_typed h.typed]

theorem Open.congr (h : Open sb s x) (hmem : s'.mem = s.mem) (hvalid : s'.valid = s.valid) : Open sb s' x where
  lt := h.lt
  valid := hvalid ▸ h.valid
  typed := hmem ▸ h.typed
  length := hmem ▸ h.length
  size := hmem ▸ h.size

theorem Open.setAddr (h : Open sb s x) (k a : Nat) : Open sb (s.setAddr x k a) x := by
  have hmem : (s.setAddr x k a).mem x = (s.mem x).setAddrs ((s.mem x).addrs.set k a) := update_self ..
  constructor
  case lt => exact h.lt
  case valid => exact h.valid
  all_goals rw [hmem]
  case typed => exact h.typed
  case length => exact List.length_set.trans h.length
  case size => exact h.size

/-- The address of a block of the content of `x`. -/
def St.addr (s : St) (x bn : Nat) : Nat := (s.mem x).addr s.disk bn

theorem Busy.addr_mem (h : Busy sb s x) (h0 : s.addr x bn ≠ 0) : s.addr x bn ∈ s.owned sb x := by
  rw [Fs.owned, h.inode]
  exact Inode.mem_owned_addr h.typed h0

theorem Busy.addrs_mem (h : Busy sb s x) (h0 : (s.mem x).addrs.getD k 0 ≠ 0) :
    (s.mem x).addrs.getD k 0 ∈ s.owned sb x := by
  rw [Fs.owned, h.inode]
  exact Inode.mem_owned_addrs h.typed h0

/-- Addresses are added, the others and the size stay. -/
def Grows (s s' : St) (x : Nat) : Prop :=
  (s'.mem x).size = (s.mem x).size ∧ ∀ bn, s.addr x bn ≠ 0 → s'.addr x bn = s.addr x bn

theorem Grows.refl (s : St) (x : Nat) : Grows s s x := ⟨rfl, fun _ _ => rfl⟩

theorem Grows.trans {s'' : St} (h : Grows s s' x) (h' : Grows s' s'' x) : Grows s s'' x := by
  refine ⟨h'.1.trans h.1, fun bn h0 => ?_⟩
  have h1 := h.2 bn h0
  exact (h'.2 bn (h1 ▸ h0)).trans h1

/-- The blocks of the content stay what they are. -/
def Keeps (s s' : St) (x : Nat) : Prop :=
  ∀ bn, s.addr x bn ≠ 0 → s'.disk (s'.addr x bn) = s.disk (s.addr x bn)

theorem Keeps.refl (s : St) (x : Nat) : Keeps s s x := fun _ _ => rfl

theorem Keeps.trans {s'' : St} (h : Keeps s s' x) (h' : Keeps s' s'' x) (hg : Grows s s' x) : Keeps s s'' x := by
  intro bn h0
  have h1 : s'.addr x bn ≠ 0 := by rw [hg.2 bn h0]; exact h0
  exact (h' bn h1).trans (h bn h0)

/-! ## All addresses of an inode -/

/-- The place of block `bn` in the list of all addresses, where the indirect block has a place of its own. -/
def place (bn : Nat) : Nat := if bn < NDIRECT then bn else bn + 1

theorem Open.getD_place (h : Open sb s x) (bn : Nat) :
    ((s.mem x).addrs ++ (s.mem x).indirect s.disk).getD (place bn) 0 = s.addr x bn := by
  unfold place St.addr Inode.addr
  by_cases hlt : bn < NDIRECT
  · rw [if_pos hlt, if_pos hlt, List.getD_append _ _ _ _ (by rw [h.length]; omega)]
  · rw [if_neg hlt, if_neg hlt, List.getD_append_right _ _ _ _ (by rw [h.length]; omega), h.length]
    congr 1

theorem Busy.addresses_nodup (h : Busy sb s x) : (nonzero ((s.mem x).addrs ++ (s.mem x).indirect s.disk)).Nodup :=
  h.owned ▸ h.held.nodup h.lt

/-- No block is in two places of the content. -/
theorem Busy.addr_inj {bn' : Nat} (h : Busy sb s x) (h0 : s.addr x bn ≠ 0) (heq : s.addr x bn' = s.addr x bn) :
    bn' = bn := by
  rw [← h.getD_place bn'] at heq
  rw [← h.getD_place bn] at h0 heq
  have hplace := nonzero_slot_unique h.addresses_nodup heq h0
  unfold place at hplace
  split at hplace <;> split at hplace <;> omega

/-- The address of the indirect block is no address of a block of the content. -/
theorem Busy.addr_ne_indirect (h : Busy sb s x) (h0 : s.addr x bn ≠ 0) :
    (s.mem x).addrs.getD NDIRECT 0 ≠ s.addr x bn := by
  intro heq
  rw [← List.getD_append _ ((s.mem x).indirect s.disk) _ _ (show NDIRECT < _ by rw [h.length]; omega)] at heq
  rw [← h.getD_place bn] at h0 heq
  have hplace := nonzero_slot_unique h.addresses_nodup heq h0
  unfold place at hplace
  split at hplace <;> omega

/-! ## One more address -/

theorem getD_set_self {l : List Nat} (hk : k < l.length) : (l.set k b).getD k 0 = b := by
  rw [List.getD_eq_getElem?_getD, List.getElem?_set_self hk]
  rfl

theorem getD_set_of_ne {l : List Nat} {j : Nat} (h : j ≠ k) : (l.set k b).getD j 0 = l.getD j 0 := by
  rw [List.getD_eq_getElem?_getD, List.getElem?_set_ne (Ne.symm h), List.getD_eq_getElem?_getD]

theorem getInts_zero (n : Nat) : getInts (fun _ => 0) 0 n = List.replicate n 0 := by
  simp only [getInts, getLE_zero, List.map_const', List.length_range]

section
variable {ip : Inode} {disk disk' : Nat → Bytes}

/-- What filling slot `k` with a block of zeros does to the indirect addresses. -/
theorem Inode.indirect_setSlot (hk : k < ip.addrs.length) (h0 : ip.addrs.getD k 0 = 0) (hb : b ≠ 0)
    (hzero : disk' b = fun _ => 0)
    (hsame : ip.addrs.getD NDIRECT 0 ≠ 0 → disk' (ip.addrs.getD NDIRECT 0) = disk (ip.addrs.getD NDIRECT 0)) :
    (k = NDIRECT ∧ ip.indirect disk = [] ∧
      (ip.setAddrs (ip.addrs.set k b)).indirect disk' = List.replicate NINDIRECT 0) ∨
    (k ≠ NDIRECT ∧ (ip.setAddrs (ip.addrs.set k b)).indirect disk' = ip.indirect disk) := by
  by_cases hkn : k = NDIRECT
  · subst hkn
    refine .inl ⟨rfl, if_pos h0, ?_⟩
    unfold Inode.indirect Inode.setAddrs
    simp only [getD_set_self hk, if_neg hb, hzero, getInts_zero]
  · refine .inr ⟨hkn, ?_⟩
    unfold Inode.indirect Inode.setAddrs
    simp only [getD_set_of_ne (Ne.symm hkn)]
    by_cases ha : ip.addrs.getD NDIRECT 0 = 0
    · rw [if_pos ha, if_pos ha]
    · rw [if_neg ha, if_neg ha, hsame ha]

theorem Inode.owned_setSlot (ht : ip.type ≠ 0) (hk : k < ip.addrs.length) (h0 : ip.addrs.getD k 0 = 0)
    (hb : b ≠ 0) (hzero : disk' b = fun _ => 0)
    (hsame : ip.addrs.getD NDIRECT 0 ≠ 0 → disk' (ip.addrs.getD NDIRECT 0) = disk (ip.addrs.getD NDIRECT 0)) :
    ((ip.setAddrs (ip.addrs.set k b)).owned disk').Perm (b :: ip.owned disk) := by
  have hind : nonzero ((ip.setAddrs (ip.addrs.set k b)).indirect disk') = nonzero (ip.indirect disk) := by
    rcases indirect_setSlot hk h0 hb hzero hsame with ⟨-, hold, hnew⟩ | ⟨-, hnew⟩
    · rw [hnew, hold, nonzero_replicate]
      rfl
    · rw [hnew]
  have hnew : (ip.setAddrs (ip.addrs.set k b)).type ≠ 0 := ht
  rw [owned_of_typed ht, owned_of_typed hnew, nonzero_append, nonzero_append, hind]
  exact (nonzero_set hk h0 hb).append_right _

theorem Inode.addr_setSlot (hk : k < ip.addrs.length) (h0 : ip.addrs.getD k 0 = 0) (hb : b ≠ 0)
    (hzero : disk' b = fun _ => 0)
    (hsame : ip.addrs.getD NDIRECT 0 ≠ 0 → disk' (ip.addrs.getD NDIRECT 0) = disk (ip.addrs.getD NDIRECT 0))
    (hbn : ip.addr disk bn ≠ 0) : (ip.setAddrs (ip.addrs.set k b)).addr disk' bn = ip.addr disk bn := by
  unfold Inode.addr at hbn ⊢
  by_cases hlt : bn < NDIRECT
  · rw [if_pos hlt] at hbn
    rw [if_pos hlt, if_pos hlt]
    exact getD_set_of_ne (by rintro rfl; exact hbn h0)
  rw [if_neg hlt] at hbn
  rw [if_neg hlt, if_neg hlt]
  rcases indirect_setSlot hk h0 hb hzero hsame with ⟨-, hold, -⟩ | ⟨-, hnew⟩
  · rw [hold] at hbn
    exact absurd rfl hbn
  · rw [hnew]

theorem Inode.indirect_setEntry (ha : ip.addrs.getD NDIRECT 0 = a) (ha0 : a ≠ 0) (hb : b < 256 ^ 4)
    (hnew : disk' a = setLE 4 (disk a) (4 * k) b) : ip.indirect disk' = (ip.indirect disk).set k b := by
  have h4 : 4 * k = 0 + 4 * k := (Nat.zero_add _).symm
  unfold Inode.indirect
  rw [ha, if_neg ha0, if_neg ha0, hnew, h4, getInts_setLE _ _ _ hb]

end

/-! ## The direct addresses and the address of the indirect block -/

theorem bslot_spec (h : Busy sb s x) (hk : k < NDIRECT + 1) : ∃ a s', bslot sb s x k = (a, s') ∧
    Busy sb s' x ∧ Grows s s' x ∧ (a ≠ 0 → (s'.mem x).addrs.getD k 0 = a) ∧ Keeps s s' x := by
  unfold bslot
  by_cases h0 : (s.mem x).addrs.getD k 0 = 0
  · obtain ⟨b, s1, hrun, hmem, hvalid, hcase⟩ := balloc_spec h.held h.lt
    have hopen := h.toOpen.congr hmem hvalid
    simp only [h0, if_true, hrun]
    rcases hcase with ⟨rfl, hdisk, hheld⟩ | ⟨hdata, hnew, hzero, hdisk, hheld⟩
    · -- out of blocks
      have hsame : s1.owned sb x = s.owned sb x := by rw [hopen.owned, h.owned, hmem, hdisk]
      have haddr : ∀ bn, s1.addr x bn = s.addr x bn := fun bn => by rw [St.addr, St.addr, hmem, hdisk]
      refine ⟨0, s1, rfl, ⟨hopen, hsame ▸ hheld⟩, ⟨by rw [hmem], fun bn _ => haddr bn⟩, fun hne => absurd rfl hne,
        fun bn _ => ?_⟩
      rw [haddr, hdisk]
    have hb := hdata.ne_zero
    have hlen : k < (s.mem x).addrs.length := h.length ▸ hk
    have hset : (s1.setAddr x k b).mem x = (s.mem x).setAddrs ((s.mem x).addrs.set k b) := by
      rw [← hmem]
      exact update_self ..
    have hsame : (s.mem x).addrs.getD NDIRECT 0 ≠ 0 →
        s1.disk ((s.mem x).addrs.getD NDIRECT 0) = s.disk ((s.mem x).addrs.getD NDIRECT 0) := by
      intro ha
      have hmemo := h.addrs_mem ha
      exact hdisk _ (h.held.data h.lt hmemo) (by rintro rfl; exact hnew hmemo)
    have hopen' := hopen.setAddr k b
    have howned : ((s1.setAddr x k b).owned sb x).Perm (b :: s.owned sb x) := by
      rw [Fs.owned, hopen'.inode, hset, Fs.owned, h.inode]
      exact Inode.owned_setSlot h.typed hlen h0 hb hzero hsame
    have haddr : ∀ bn, s.addr x bn ≠ 0 → (s1.setAddr x k b).addr x bn = s.addr x bn := by
      intro bn hbn
      rw [St.addr, hset]
      exact Inode.addr_setSlot hlen h0 hb hzero hsame hbn
    simp only [if_neg hb]
    refine ⟨b, _, rfl, ⟨hopen', (hheld.setMem _).perm h.lt howned⟩, ⟨?_, haddr⟩, fun _ => ?_, fun bn hbn => ?_⟩
    · rw [hset]
      rfl
    · rw [hset]
      exact getD_set_self hlen
    · have hmemo := h.addr_mem hbn
      rw [haddr bn hbn]
      exact hdisk _ (h.held.data h.lt hmemo) (by rintro rfl; exact hnew hmemo)
  · simp only [if_neg h0]
    exact ⟨_, s, rfl, h, Grows.refl s x, fun _ => rfl, Keeps.refl s x⟩

/-! ## The entries of the indirect block -/

theorem Inode.indirect_getD {ip : Inode} (disk : Nat → Bytes) (ha : ip.addrs.getD NDIRECT 0 = a) (ha0 : a ≠ 0)
    (hk : k < NINDIRECT) : (ip.indirect disk).getD k 0 = getLE 4 (disk a) (4 * k) := by
  rw [Inode.indirect, ha, if_neg ha0, getInts_getD _ _ _ hk, Nat.zero_add]

theorem bentry_spec (h : Busy sb s x) (ha : (s.mem x).addrs.getD NDIRECT 0 = a) (ha0 : a ≠ 0)
    (hk : k < NINDIRECT) : ∃ b s', bentry sb s a k = (b, s') ∧ Busy sb s' x ∧ Grows s s' x ∧
      (b ≠ 0 → ((s'.mem x).indirect s'.disk).getD k 0 = b) ∧ Keeps s s' x := by
  have hentry := Inode.indirect_getD s.disk ha ha0 hk
  unfold bentry
  by_cases h0 : getLE 4 (s.disk a) (4 * k) = 0
  · obtain ⟨b, s1, hrun, hmem, hvalid, hcase⟩ := balloc_spec h.held h.lt
    have hopen := h.toOpen.congr hmem hvalid
    simp only [h0, if_true, hrun]
    rcases hcase with ⟨rfl, hdisk, hheld⟩ | ⟨hdata, hnew, hzero, hdisk, hheld⟩
    · have hsame : s1.owned sb x = s.owned sb x := by rw [hopen.owned, h.owned, hmem, hdisk]
      have haddr : ∀ bn, s1.addr x bn = s.addr x bn := fun bn => by rw [St.addr, St.addr, hmem, hdisk]
      refine ⟨0, s1, rfl, ⟨hopen, hsame ▸ hheld⟩, ⟨by rw [hmem], fun bn _ => haddr bn⟩, fun hne => absurd rfl hne,
        fun bn _ => ?_⟩
      rw [haddr, hdisk]
    have hb := hdata.ne_zero
    have hamem : a ∈ s.owned sb x := ha ▸ h.addrs_mem (by rw [ha]; exact ha0)
    have ha1 : s1.disk a = s.disk a :=
      hdisk a (h.held.data h.lt hamem) (by rintro rfl; exact hnew hamem)
    have hopen' : Open sb (s1.setBlock a (setLE 4 (s1.disk a) (4 * k) b)) x := hopen.congr rfl rfl
    have hind : (s.mem x).indirect (s1.setBlock a (setLE 4 (s1.disk a) (4 * k) b)).disk =
        ((s.mem x).indirect s.disk).set k b := by
      refine Inode.indirect_setEntry ha ha0 hdata.lt ?_
      rw [← ha1]
      exact update_self ..
    have hlen : k < ((s.mem x).indirect s.disk).length := by
      rw [Inode.indirect, ha, if_neg ha0, length_getInts]
      exact hk
    have hmem' : (s1.setBlock a (setLE 4 (s1.disk a) (4 * k) b)).mem = s.mem := hmem
    have hwrite := hheld.write h.lt (List.mem_cons_of_mem b hamem) (setLE 4 (s1.disk a) (4 * k) b)
    have hblock : ∀ bn, s.addr x bn ≠ 0 →
        (s1.setBlock a (setLE 4 (s1.disk a) (4 * k) b)).disk (s.addr x bn) = s.disk (s.addr x bn) := by
      intro bn hbn
      have hmemo := h.addr_mem hbn
      have hne : s.addr x bn ≠ a := fun heq => h.addr_ne_indirect hbn (ha.trans heq.symm)
      exact (update_of_ne hne ..).trans
        (hdisk _ (h.held.data h.lt hmemo) (by rintro rfl; exact hnew hmemo))
    simp only [if_neg hb]
    generalize s1.setBlock a (setLE 4 (s1.disk a) (4 * k) b) = s2 at *
    have howned : (s2.owned sb x).Perm (b :: s.owned sb x) := by
      rw [hopen'.owned, h.owned, hmem', hind, nonzero_append, nonzero_append]
      exact ((nonzero_set hlen (hentry.trans h0) hb).append_left _).trans List.perm_middle
    have haddr : ∀ bn, s.addr x bn ≠ 0 → s2.addr x bn = s.addr x bn := by
      intro bn hbn
      unfold St.addr Inode.addr at hbn ⊢
      rw [hmem', hind]
      by_cases hlt : bn < NDIRECT
      · rw [if_pos hlt, if_pos hlt]
      rw [if_neg hlt] at hbn
      rw [if_neg hlt, if_neg hlt]
      refine getD_set_of_ne ?_
      rintro rfl
      exact hbn (hentry.trans h0)
    refine ⟨b, s2, rfl, ⟨hopen', hwrite.perm h.lt howned⟩, ⟨by rw [hmem'], haddr⟩, fun _ => ?_, fun bn hbn => ?_⟩
    · rw [hmem', hind, getD_set_self hlen]
    · rw [haddr bn hbn]
      exact hblock bn hbn
  · simp only [if_neg h0]
    exact ⟨_, s, rfl, h, Grows.refl s x, fun _ => hentry, Keeps.refl s x⟩

/-! ## `bmap` -/

/-- `bmap` keeps the ledger balanced whether or not it finds blocks, and what it returns is then the
address of the block. -/
theorem bmap_spec (h : Busy sb s x) (hbn : bn < MAXFILE) : ∃ a s', bmap sb s x bn = .ok (a, s') ∧
    Busy sb s' x ∧ Grows s s' x ∧ (a ≠ 0 → s'.addr x bn = a) ∧ Keeps s s' x := by
  unfold bmap
  by_cases hlt : bn < NDIRECT
  · obtain ⟨a, s1, hrun, hbusy, hgrows, haddr, hkeeps⟩ := bslot_spec h (k := bn) (by omega)
    refine ⟨a, s1, by rw [if_pos hlt, hrun], hbusy, hgrows, fun h0 => ?_, hkeeps⟩
    rw [St.addr, Inode.addr, if_pos hlt, haddr h0]
  have hk : bn - NDIRECT < NINDIRECT := by
    unfold MAXFILE at hbn
    omega
  obtain ⟨a, s1, hrun, hbusy, hgrows, haddr, hkeeps⟩ := bslot_spec h (k := NDIRECT) (by omega)
  simp only [if_neg hlt, if_pos hk, hrun]
  by_cases ha0 : a = 0
  · exact ⟨0, s1, by rw [if_pos ha0], hbusy, hgrows, fun h0 => absurd rfl h0, hkeeps⟩
  · obtain ⟨b, s2, hrun2, hbusy2, hgrows2, haddr2, hkeeps2⟩ := bentry_spec hbusy (haddr ha0) ha0 hk
    refine ⟨b, s2, by rw [if_neg ha0, hrun2], hbusy2, hgrows.trans hgrows2, fun h0 => ?_,
      hkeeps.trans hkeeps2 hgrows⟩
    rw [St.addr, Inode.addr, if_neg hlt, haddr2 h0]

theorem bmap_of_addr (h0 : s.addr x bn ≠ 0) : bmap sb s x bn = .ok (s.addr x bn, s) := by
  unfold bmap St.addr Inode.addr at *
  by_cases hlt : bn < NDIRECT
  · rw [if_pos hlt] at h0
    rw [if_pos hlt, if_pos hlt, bslot]
    simp only [if_neg h0]
  rw [if_neg hlt] at h0
  have ha0 : (s.mem x).addrs.getD NDIRECT 0 ≠ 0 := by
    intro ha
    rw [Inode.indirect, if_pos ha] at h0
    exact h0 rfl
  have hk : bn - NDIRECT < NINDIRECT := by
    by_contra hk
    rw [Inode.indirect, if_neg ha0, List.getD_eq_default _ _ (by rw [length_getInts]; omega)] at h0
    exact h0 rfl
  have hentry := Inode.indirect_getD s.disk rfl ha0 hk
  rw [hentry] at h0
  simp only [if_neg hlt, if_pos hk, bslot, if_neg ha0, bentry, if_neg h0, hentry]

end Xv6Riscv.Blocks
