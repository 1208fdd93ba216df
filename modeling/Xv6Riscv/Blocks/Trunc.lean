import Xv6Riscv.Blocks.Ops

/-!
# `itrunc`: an inode gives up its blocks

The bits are cleared before the addresses are: while the indirect block is worked off, the entries that
were freed are still listed in it. `Freeing` therefore says which blocks are left, not the addresses.
-/
namespace Xv6Riscv.Blocks
open Layout Finset List

variable {sb : Super} {s s' : St} {a b k n x bn : Nat} {L E : List Nat}

/-! ## `itrunc` -/

theorem bfree_head (h : Held sb s x (b :: L)) (hx : x < sb.ninodes) :
    ∃ s', bfree sb s b = .ok s' ∧ Held sb s' x L ∧ s'.mem = s.mem ∧ s'.valid = s.valid ∧ s'.ref = s.ref ∧
      ∀ w, sb.Data w → s'.disk w = s.disk w := by
  have hdata := h.data hx mem_cons_self
  obtain ⟨data, hrun, hheld⟩ := bfree_spec h hx mem_cons_self
  rw [erase_cons_head] at hheld
  exact ⟨_, hrun, hheld, rfl, rfl, rfl, fun w hw => Function.update_of_ne (hw.ne_bblock hdata.2) ..⟩

/-- `x` owns the blocks named by its addresses in memory and those in `E`. -/
structure Freeing (sb : Super) (s : St) (x : Nat) (E : List Nat) : Prop extends Open sb s x where
  held : Held sb s x (nonzero ((s.mem x).addrs ++ E))

theorem freeSlot_spec (h : Freeing sb s x E) : ∃ s', freeSlot sb x s k = .ok s' ∧ Freeing sb s' x E ∧
    s'.mem x = (s.mem x).setAddrs ((s.mem x).addrs.set k 0) ∧ s'.ref = s.ref ∧
      ∀ w, sb.Data w → s'.disk w = s.disk w := by
  unfold freeSlot
  by_cases h0 : (s.mem x).addrs.getD k 0 = 0
  · have hsame : (s.mem x).addrs.set k 0 = (s.mem x).addrs := by
      by_cases hk : k < (s.mem x).addrs.length
      · rw [getD_eq_getElem _ _ hk] at h0
        rw [← h0, set_getElem_self]
      · exact set_eq_of_length_le (by omega)
    simp only [if_pos h0]
    refine ⟨s, rfl, h, ?_, rfl, fun _ _ => rfl⟩
    rw [hsame]
    rfl
  · have hperm : ((s.mem x).addrs.getD k 0 :: nonzero ((s.mem x).addrs.set k 0 ++ E)).Perm
        (nonzero ((s.mem x).addrs ++ E)) := by
      rw [nonzero_append, nonzero_append]
      exact ((nonzero_set_zero rfl h0).append_right _).symm
    obtain ⟨s1, hrun, hheld, hmem, hvalid, href, hdisk⟩ := bfree_head (h.held.perm h.lt hperm) h.lt
    have hset : (s1.setAddr x k 0).mem x = (s.mem x).setAddrs ((s.mem x).addrs.set k 0) := by
      rw [← hmem]
      exact Function.update_self ..
    simp only [if_neg h0, hrun]
    refine ⟨_, rfl, ⟨(h.toOpen.congr hmem hvalid).setAddr k 0, ?_⟩, hset, href, hdisk⟩
    rw [hset]
    exact hheld.setMem _

theorem freeSlots_spec (h : Freeing sb s x E) (m : Nat) : ∃ s',
    (List.range m).foldlM (freeSlot sb x) s = .ok s' ∧ Freeing sb s' x E ∧
      (∀ j, (s'.mem x).addrs.getD j 0 = if j < m then 0 else (s.mem x).addrs.getD j 0) ∧ s'.ref = s.ref ∧
        ∀ w, sb.Data w → s'.disk w = s.disk w := by
  induction m with
  | zero => exact ⟨s, rfl, h, fun j => by rw [if_neg (Nat.not_lt_zero j)], rfl, fun _ _ => rfl⟩
  | succ m ih =>
    obtain ⟨s1, hrun, hfree, haddrs, href, hdisk⟩ := ih
    obtain ⟨s2, hrun2, hfree2, hmem2, href2, hdisk2⟩ := freeSlot_spec (k := m) hfree
    refine ⟨s2, ?_, hfree2, fun j => ?_, href2.trans href, fun w hw => (hdisk2 w hw).trans (hdisk w hw)⟩
    · rw [range_succ, foldlM_append, hrun]
      simp only [Bind.bind, Except.bind, foldlM_cons, hrun2, foldlM_nil, pure, Except.pure]
    rw [hmem2]
    show ((s1.mem x).addrs.set m 0).getD j 0 = _
    by_cases hj : j = m
    · subst hj
      rw [if_pos (Nat.lt_succ_self j)]
      by_cases hlen : j < (s1.mem x).addrs.length
      · exact getD_set_self hlen
      · exact getD_eq_default _ _ (by rw [length_set]; omega)
    · rw [getD_set_of_ne hj, haddrs]
      by_cases hlt : j < m
      · rw [if_pos hlt, if_pos (by omega)]
      · rw [if_neg hlt, if_neg (by omega)]

theorem freeEntries_spec (h : Held sb s x (nonzero E ++ [a])) (hx : x < sb.ninodes) : ∃ s',
    E.foldlM (freeEntry sb) s = .ok s' ∧ Held sb s' x [a] ∧ s'.mem = s.mem ∧ s'.valid = s.valid ∧ s'.ref = s.ref := by
  induction E generalizing s with
  | nil => exact ⟨s, rfl, h, rfl, rfl, rfl⟩
  | cons b E ih =>
    rw [foldlM_cons, freeEntry]
    by_cases h0 : b = 0
    · subst h0
      exact ih h
    rw [nonzero_cons h0] at h
    obtain ⟨s1, hrun, hheld, hmem, hvalid, href, -⟩ := bfree_head h hx
    obtain ⟨s2, hrun2, hheld2, hmem2, hvalid2, href2⟩ := ih hheld
    rw [if_neg h0, hrun]
    exact ⟨s2, hrun2, hheld2, hmem2.trans hmem, hvalid2.trans hvalid, href2.trans href⟩

theorem freeIndirect_spec (h : Freeing sb s x ((s.mem x).indirect s.disk))
    (hdirect : ∀ j < NDIRECT, (s.mem x).addrs.getD j 0 = 0) : ∃ s', freeIndirect sb x s = .ok s' ∧
      Open sb s' x ∧ Held sb s' x [] ∧ (s'.mem x).addrs = List.replicate (NDIRECT + 1) 0 ∧ s'.ref = s.ref := by
  have hzeros : ∀ l : List Nat, l.length = NDIRECT + 1 → (∀ j < NDIRECT + 1, l.getD j 0 = 0) →
      l = List.replicate (NDIRECT + 1) 0 := by
    intro l hl hj
    refine eq_replicate_iff.2 ⟨hl, fun b hb => ?_⟩
    obtain ⟨j, hjl, rfl⟩ := getElem_of_mem hb
    have := hj j (by omega)
    rwa [getD_eq_getElem _ _ hjl] at this
  have hlen : NDIRECT < (s.mem x).addrs.length := by rw [h.length]; omega
  have hset := hzeros ((s.mem x).addrs.set NDIRECT 0) (by rw [length_set, h.length]) (by
    intro j hj
    by_cases hjn : j = NDIRECT
    · rw [hjn, getD_set_self hlen]
    · rw [getD_set_of_ne hjn]
      exact hdirect j (by omega))
  unfold freeIndirect
  by_cases ha : (s.mem x).addrs.getD NDIRECT 0 = 0
  · have hall := hzeros _ h.length (by
      intro j hj
      by_cases hjn : j = NDIRECT
      · rw [hjn, ha]
      · exact hdirect j (by omega))
    have hheld := h.held
    rw [show (s.mem x).indirect s.disk = [] from if_pos ha, append_nil, hall, nonzero_replicate] at hheld
    exact ⟨s, by simp only [if_pos ha], h.toOpen, hheld, hall, rfl⟩
  -- what is left are the entries and the indirect block itself
  have hleft : (nonzero ((s.mem x).indirect s.disk) ++ [(s.mem x).addrs.getD NDIRECT 0]).Perm
      (nonzero ((s.mem x).addrs ++ (s.mem x).indirect s.disk)) := by
    have hone := nonzero_set_zero rfl ha
    rw [hset, nonzero_replicate] at hone
    rw [nonzero_append]
    exact (perm_append_comm.trans (hone.append_right _).symm)
  obtain ⟨s1, hrun, hheld, hmem, hvalid, href⟩ := freeEntries_spec (h.held.perm h.lt hleft) h.lt
  obtain ⟨s2, hrun2, hheld2, hmem2, hvalid2, href2, -⟩ := bfree_head hheld h.lt
  have hind : (s.mem x).indirect s.disk = getInts (s.disk ((s.mem x).addrs.getD NDIRECT 0)) 0 NINDIRECT :=
    if_neg ha
  rw [hind] at hrun
  simp only [if_neg ha, Bind.bind, Except.bind, hrun, hrun2]
  refine ⟨_, rfl, ((h.toOpen.congr hmem hvalid).congr hmem2 hvalid2).setAddr NDIRECT 0, hheld2.setMem _, ?_,
    href2.trans href⟩
  have hsetmem : (s2.setAddr x NDIRECT 0).mem x = (s2.mem x).setAddrs ((s2.mem x).addrs.set NDIRECT 0) :=
    Function.update_self ..
  rw [hsetmem, hmem2, hmem]
  exact hset

theorem itrunc_spec (h : Busy sb s x) : ∃ s', itrunc sb s x = .ok s' ∧ Busy sb s' x ∧
    s'.mem x = dinode sb s'.disk x ∧ (s'.mem x).addrs = List.replicate (NDIRECT + 1) 0 ∧
      (s'.mem x).size = 0 ∧ s'.ref = s.ref := by
  have hfreeing : Freeing sb s x ((s.mem x).indirect s.disk) := ⟨h.toOpen, by rw [← h.owned]; exact h.held⟩
  obtain ⟨s1, hrun1, hfree1, haddrs1, href1, hdisk1⟩ := freeSlots_spec hfreeing NDIRECT
  have hn : (s1.mem x).addrs.getD NDIRECT 0 = (s.mem x).addrs.getD NDIRECT 0 := by
    rw [haddrs1, if_neg (Nat.lt_irrefl _)]
  have hind : (s1.mem x).indirect s1.disk = (s.mem x).indirect s.disk := by
    unfold Inode.indirect
    rw [hn]
    by_cases ha : (s.mem x).addrs.getD NDIRECT 0 = 0
    · rw [if_pos ha, if_pos ha]
    · rw [if_neg ha, if_neg ha, hdisk1 _ (h.held.data h.lt (h.addrs_mem ha))]
  obtain ⟨s2, hrun2, hopen2, hheld2, haddrs2, href2⟩ := freeIndirect_spec (hind ▸ hfree1)
    (fun j hj => by rw [haddrs1, if_pos hj])
  have howned : s2.owned sb x = [] := by
    have h0 : (s2.mem x).addrs.getD NDIRECT 0 = 0 := by rw [haddrs2]; rfl
    rw [hopen2.owned, Inode.indirect, if_pos h0, append_nil, haddrs2, nonzero_replicate]
  have hbusy2 : Busy sb s2 x := ⟨hopen2, howned ▸ hheld2⟩
  obtain ⟨hbusy3, -⟩ := hbusy2.setFields ((s2.mem x).setSize 0) hbusy2.typed rfl (Nat.pow_pos (by decide))
  have hmem3 : (s2.setMem x ((s2.mem x).setSize 0)).mem x = (s2.mem x).setSize 0 := Function.update_self ..
  obtain ⟨hbusy4, hsynced, -⟩ := hbusy3.iupdate
  refine ⟨iupdate sb (s2.setMem x ((s2.mem x).setSize 0)) x, ?_, hbusy4, hsynced, ?_, ?_, href2.trans href1⟩
  · simp only [itrunc, Bind.bind, Except.bind, hrun1, hrun2]
  · show ((s2.setMem x ((s2.mem x).setSize 0)).mem x).addrs = _
    rw [hmem3]
    exact haddrs2
  · show ((s2.setMem x ((s2.mem x).setSize 0)).mem x).size = _
    rw [hmem3]
    rfl

end Xv6Riscv.Blocks
