import Xv6Riscv.Blocks.Trunc

/-!
# Every block has one owner

The functions of the inode table, and from all operations together the invariant over whole runs.
-/
namespace Xv6Riscv.Blocks
open Layout Finset Machine Function

variable {sb : Super} {s s' : St} {x : Nat}

/-! ## Results that are not the panics in question -/

/-- The result satisfies `P`, or the panic is neither `freeing free block` nor `bmap: out of range`. -/
def Safe {α : Type} (r : Except Panic α) (P : α → Prop) : Prop :=
  match r with
  | .ok a => P a
  | .error p => p ≠ .freeingFree ∧ p ≠ .outOfRange

variable {α β : Type}

theorem Safe.bind {r : Except Panic α} {f : α → Except Panic β} {P : α → Prop} {Q : β → Prop}
    (h : Safe r P) (hf : ∀ a, P a → Safe (f a) Q) : Safe (r >>= f) Q := by
  cases r with
  | ok a => exact hf a h
  | error p => exact h

theorem Safe.mono {r : Except Panic α} {P Q : α → Prop} (h : Safe r P) (hpq : ∀ a, P a → Q a) : Safe r Q := by
  cases r with
  | ok a => exact hpq a h
  | error p => exact h

theorem Safe.map {r : Except Panic α} {f : α → β} {P : β → Prop} (h : Safe r fun a => P (f a)) :
    Safe (r.map f) P := by
  cases r with
  | ok a => exact h
  | error p => exact h

/-! ## The inode table -/

section
variable (h : Inv sb s)
include h

theorem Inv.setTable (hmem : ∀ i, i ≠ x → s'.mem i = s.mem i)
    (hvalid : ∀ i, i ≠ x → s'.valid i = s.valid i) (hdisk : s'.disk = s.disk) (hcalls : s'.calls = s.calls)
    (hx : x < sb.ninodes) (href : ∀ i, 0 < s'.ref i → i ≠ x → 0 < s.ref i)
    (hload : s'.valid x = true → s'.mem x = dinode sb s.disk x ∧ (s'.mem x).type ≠ 0) : Inv sb s' := by
  have hinode : s'.inode sb x = s.inode sb x := by
    have hdinode : ∀ t : St, (t.valid x = true → t.mem x = dinode sb s.disk x) → t.disk = s.disk →
        t.inode sb x = dinode sb s.disk x := by
      intro t ht hd
      rw [Fs.inode]
      by_cases hv : t.valid x = true
      · rw [if_pos hv, ht hv]
      · rw [if_neg hv, hd]
    rw [hdinode s' (fun hv => (hload hv).1) hdisk, hdinode s (h.synced x) rfl]
  have htable : ∀ i, s'.valid i = true ∨ 0 < s'.ref i → i < sb.ninodes := by
    intro i hi
    by_cases hne : i = x
    · rw [hne]
      exact hx
    · rcases hi with hi | hi
      · exact h.table i (.inl (hvalid i hne ▸ hi))
      · exact h.table i (.inr (href i hi hne))
  have howned : s'.owned sb x = s.owned sb x := by rw [Fs.owned, hinode, hdisk, Fs.owned]
  have hheld : Held sb s' x (s'.owned sb x) := by
    rw [howned]
    refine (h.held x).frame hmem hvalid (fun _ _ _ => by rw [hdisk]) (fun _ _ _ _ _ => by rw [hdisk]) ?_ ?_ htable ?_
    · rw [hdisk]
      exact h.reserved
    · rw [hdisk]
      exact (h.held x).ledger
    · rw [hcalls]
      exact h.fresh
  refine hheld.inv ?_ ?_
  · rw [hinode, hdisk]
    exact h.covered x hx
  · rw [hdisk]
    exact hload

theorem iget_spec (hx : x < sb.ninodes) : Safe (iget sb s x) fun s' => Inv sb s' ∧ s'.calls = s.calls := by
  unfold iget
  by_cases href : 0 < s.ref x
  · rw [if_pos href]
    refine ⟨h.setTable (x := x) (fun _ _ => rfl) (fun _ _ => rfl) rfl rfl hx ?_ ?_, rfl⟩
    · intro i hi hne
      exact lt_of_lt_of_eq hi (update_of_ne hne ..)
    · exact fun hv => ⟨h.synced x hv, h.typed x hv⟩
  rw [if_neg href]
  by_cases hfull : s.inUse sb < NINODE
  · rw [if_pos hfull]
    refine ⟨h.setTable (x := x) (fun _ _ => rfl) (fun _ hi => update_of_ne hi ..) rfl rfl hx ?_ ?_, rfl⟩
    · intro i hi hne
      exact lt_of_lt_of_eq hi (update_of_ne hne ..)
    · intro hv
      have hfalse : ((s.setRef x 1).setValid x false).valid x = false := update_self ..
      rw [hfalse] at hv
      cases hv
  · rw [if_neg hfull]
    exact ⟨nofun, nofun⟩

theorem ilock_spec : Safe (ilock sb s x) fun s' => Inv sb s' ∧ s'.valid x = true ∧ s'.calls = s.calls := by
  unfold ilock
  by_cases href : s.ref x < 1
  · rw [if_pos href]
    exact ⟨nofun, nofun⟩
  rw [if_neg href]
  by_cases hv : s.valid x = true
  · rw [if_pos hv]
    exact ⟨h, hv, rfl⟩
  rw [if_neg hv]
  have hmem : ((s.setMem x (dinode sb s.disk x)).setValid x true).mem x = dinode sb s.disk x :=
    update_self ..
  simp only [hmem]
  by_cases ht : (dinode sb s.disk x).type = 0
  · rw [if_pos ht]
    exact ⟨nofun, nofun⟩
  rw [if_neg ht]
  refine ⟨h.setTable (x := x) (fun _ hi => update_of_ne hi ..) (fun _ hi => update_of_ne hi ..)
    rfl rfl (h.table x (.inr (by omega))) (fun _ hi _ => hi) ?_, update_self .., rfl⟩
  rw [hmem]
  exact fun _ => ⟨rfl, ht⟩

theorem ialloc_spec (type : BitVec 16) : Safe (ialloc sb s type) fun r => Inv sb r.2 := by
  unfold ialloc
  cases hfind : (List.range sb.ninodes).find? fun x => x ≠ 0 ∧ (dinode sb s.disk x).type = 0 with
  | none => exact h
  | some x =>
    have hx := List.mem_range.1 (List.mem_of_find?_eq_some hfind)
    have hfree : (dinode sb s.disk x).type = 0 := by
      have := List.find?_some hfind
      simp only [decide_eq_true_eq] at this
      exact this.2
    have hvalid : ¬ s.valid x = true := by
      intro hv
      have ht := h.typed x hv
      rw [h.synced x hv] at ht
      exact ht hfree
    have hold : s.owned sb x = [] := by
      rw [Fs.owned, Fs.inode, if_neg hvalid]
      exact Inode.owned_of_free hfree
    have hlen : (Inode.fresh type).addrs.length = NDIRECT + 1 := List.length_replicate
    have hheld := (h.held x).putDinode hx hlen
    rw [hold] at hheld
    have hself : dinode sb (s.setBlock (sb.iblock x)
        (putDinode (s.disk (sb.iblock x)) (64 * (x % IPB)) (.fresh type))).disk x = .fresh type := by
      refine dinode_put_self s.disk x hlen (Nat.pow_pos (by decide)) fun a ha => ?_
      rw [List.eq_of_mem_replicate ha]
      exact Nat.pow_pos (by decide)
    refine (iget_spec ?_ hx).bind fun s' hs' => hs'.1
    have hinode : (s.setBlock (sb.iblock x)
        (putDinode (s.disk (sb.iblock x)) (64 * (x % IPB)) (.fresh type))).inode sb x = .fresh type :=
      (if_neg hvalid).trans hself
    refine Held.inv (x := x) ?_ ?_ (fun hv => absurd hv hvalid)
    · rw [Fs.owned, hinode, Inode.owned_fresh]
      exact hheld
    · rw [hinode]
      exact fun _ bn hbn => absurd hbn (Nat.not_lt_zero _)

theorem iput_spec (href : 0 < s.ref x) : Safe (iput sb s x) (Inv sb) := by
  have hx := h.table x (.inr href)
  have hdrop : ∀ t : St, Inv sb t → Inv sb (t.setRef x (t.ref x - 1)) := by
    intro t ht
    refine ht.setTable (x := x) (fun _ _ => rfl) (fun _ _ => rfl) rfl rfl hx ?_ ?_
    · intro i hi hne
      exact lt_of_lt_of_eq hi (update_of_ne hne ..)
    · exact fun hv => ⟨ht.synced x hv, ht.typed x hv⟩
  unfold iput
  by_cases hlast : s.ref x = 1 ∧ s.valid x ∧ (s.mem x).nlink = 0
  · obtain ⟨s1, hrun, hbusy, -, haddrs, hsize, -⟩ := itrunc_spec (h.busy hlast.2.1).1
    have howned : s1.owned sb x = [] := by
      have h0 : (s1.mem x).addrs.getD NDIRECT 0 = 0 := by rw [haddrs]; rfl
      rw [hbusy.owned, Inode.indirect, if_pos h0, List.append_nil, haddrs, nonzero_replicate]
    simp only [if_pos hlast, Bind.bind, Except.bind, hrun]
    refine hdrop _ ?_
    -- the type is cleared in memory, on the disk, and then the copy in memory is dropped
    have hmem : (s1.setMem x ((s1.mem x).setType 0)).mem x = (s1.mem x).setType 0 := update_self ..
    have hlen : ((s1.setMem x ((s1.mem x).setType 0)).mem x).addrs.length = NDIRECT + 1 := by
      rw [hmem]
      exact hbusy.length
    have hheld := ((howned ▸ hbusy.held).setMem ((s1.mem x).setType 0)).putDinode hx hlen
    have hself : dinode sb (iupdate sb (s1.setMem x ((s1.mem x).setType 0)) x).disk x = (s1.mem x).setType 0 := by
      refine (dinode_put_self _ x hlen ?_ ?_).trans hmem
      · rw [hmem]
        exact hbusy.size
      · rw [hmem]
        exact fun a ha => hbusy.addrs_lt ha
    change Held sb (iupdate sb (s1.setMem x ((s1.mem x).setType 0)) x) x [] at hheld
    generalize iupdate sb (s1.setMem x ((s1.mem x).setType 0)) x = s2 at *
    have hvalid : (s2.setValid x false).valid x = false := update_self ..
    have hinode : (s2.setValid x false).inode sb x = (s1.mem x).setType 0 := by
      rw [Fs.inode, hvalid]
      exact hself
    have hheld' : Held sb (s2.setValid x false) x [] := by
      refine hheld.frame (fun _ _ => rfl) (fun _ hi => update_of_ne hi ..) (fun _ _ _ => rfl)
        (fun _ _ _ _ _ => rfl) hheld.reserved hheld.ledger ?_ hheld.fresh
      intro i hi
      by_cases hne : i = x
      · rw [hne]
        exact hx
      · have hsame : (s2.setValid x false).valid i = s2.valid i := update_of_ne hne ..
        exact hheld.table i (hi.imp_left fun hv => hsame ▸ hv)
    refine Held.inv (x := x) ?_ ?_ ?_
    · rw [Fs.owned, hinode, Inode.owned_of_free rfl]
      exact hheld'
    · rw [hinode]
      exact fun ht => absurd rfl ht
    · rw [hvalid]
      simp
  · rw [if_neg hlast]
    exact hdrop s h

/-! ## Every operation -/

/-- No operation runs into the panics, all of them keep the invariant, and `readi` does not call `balloc`. -/
theorem exec_spec (op : Op) (he : enabled sb s op = true) :
    Safe (exec sb s op) fun s' => Inv sb s' ∧ ∀ x dst off n, op = .readi x dst off n → s'.calls = s.calls := by
  cases op with
  | ialloc type =>
    exact ((ialloc_spec h type).mono fun r hr => ⟨hr, nofun⟩).map
  | iget x =>
    have hx : x < sb.ninodes := by
      simp only [enabled, Bool.and_eq_true, decide_eq_true_eq] at he
      exact he.2
    exact (iget_spec h hx).mono fun s' hs' => ⟨hs'.1, nofun⟩
  | iput x =>
    have href : 0 < s.ref x := by simpa [enabled] using he
    exact (iput_spec h href).mono fun s' hs' => ⟨hs', nofun⟩
  | readi x dst off n =>
    refine (ilock_spec h).bind fun s1 hs1 => ?_
    obtain ⟨r, out, hrun⟩ := readi_spec dst (hs1.1.busy hs1.2.1).2 off n
    rw [hrun]
    exact ⟨hs1.1, fun _ _ _ _ _ => hs1.2.2⟩
  | writei x src off n =>
    refine (ilock_spec h).bind fun s1 hs1 => ?_
    obtain ⟨r, s2, hrun, hinv⟩ := writei_spec src hs1.1 hs1.2.1 off n
    rw [hrun]
    exact ⟨hinv, nofun⟩
  | itrunc x =>
    refine (ilock_spec h).bind fun s1 hs1 => ?_
    obtain ⟨s2, hrun, hbusy, hsynced, -, hsize, -⟩ := itrunc_spec (hs1.1.busy hs1.2.1).1
    rw [hrun]
    refine ⟨hbusy.held.inv (fun _ bn hbn => ?_) (fun _ => ⟨hsynced, hbusy.typed⟩), nofun⟩
    rw [hbusy.inode, hsize] at hbn
    exact absurd hbn (Nat.not_lt_zero _)
  | iupdate x major minor nlink =>
    refine (ilock_spec h).bind fun s1 hs1 => ?_
    obtain ⟨hbusy, hfilled⟩ := hs1.1.busy hs1.2.1
    obtain ⟨hbusy2, haddr⟩ := hbusy.setFields ((s1.mem x).setNumbers major minor nlink) hbusy.typed rfl hbusy.size
    refine ⟨hbusy2.close fun bn hbn => ?_, nofun⟩
    rw [haddr]
    refine hfilled bn (lt_of_lt_of_eq hbn ?_)
    have hmem : (s1.setMem x ((s1.mem x).setNumbers major minor nlink)).mem x =
        (s1.mem x).setNumbers major minor nlink := update_self ..
    rw [hmem]
    rfl

theorem step_inv {op : Op} (hstep : step sb s op = .ok s') : Inv sb s' ∧
    ∀ x dst off n, op = .readi x dst off n → s'.calls = s.calls := by
  unfold step at hstep
  split at hstep
  next he =>
    have hsafe := exec_spec h op he
    cases hr : exec sb s op with
    | ok t =>
      rw [hr] at hsafe hstep
      cases hstep
      exact hsafe
    | error p =>
      rw [hr] at hstep
      cases hstep
  next => cases hstep

theorem step_halt {op : Op} {p : Panic} (hstep : step sb s op = .halt p) : p ≠ .freeingFree ∧ p ≠ .outOfRange := by
  unfold step at hstep
  split at hstep
  next he =>
    have hsafe := exec_spec h op he
    cases hr : exec sb s op with
    | ok t =>
      rw [hr] at hstep
      cases hstep
    | error q =>
      rw [hr] at hsafe hstep
      cases hstep
      exact hsafe
  next => cases hstep

end

/-! ## Runs -/

/-- All blocks owned by inodes, one inode after the other. -/
def Fs.allOwned (sb : Super) (s : Fs) : List Nat := (List.range sb.ninodes).flatMap (s.owned sb)

/-- A consistent image: the addresses of the allocated inodes are data blocks, each named once and exactly
these marked in the bitmap, which marks everything in front of the data blocks as well; every block
below the size of an inode has an address. -/
structure Consistent (sb : Super) (s : Fs) : Prop where
  reserved : ∀ b < sb.dataStart, bit sb s.disk b = true
  within : ∀ i < sb.ninodes, ∀ b ∈ s.owned sb i, sb.Data b
  distinct : (s.allOwned sb).Nodup
  marked : ∀ b, sb.Data b → (bit sb s.disk b = true ↔ b ∈ s.allOwned sb)
  covered : ∀ i < sb.ninodes, (s.inode sb i).type ≠ 0 → (s.inode sb i).Covered s.disk

/-- A machine just booted from a consistent image. -/
def Booted (sb : Super) (s : St) : Prop := ∃ disk, s = boot disk ∧ Consistent sb s.toFs

theorem Booted.inv (h : Booted sb s) : Inv sb s := by
  obtain ⟨disk, rfl, hc⟩ := h
  constructor
  case reserved => exact hc.reserved
  case ledger => exact Ledger.of_flatMap hc.within hc.distinct hc.marked
  case covered => exact hc.covered
  case synced => exact nofun
  case typed => exact nofun
  case table => exact fun i hi => hi.elim nofun fun h0 => absurd h0 (Nat.lt_irrefl 0)
  case fresh => exact nofun

theorem reach_inv (h : Reach (step sb) (Booted sb) (fun _ _ => True) s) : Inv sb s :=
  h.inv (I := Inv sb) (fun _ hs => hs.inv) fun _ _ _ hi _ hstep => (step_inv hi hstep).1

/-- **Every block has one owner.** In every state of every run from a consistent image:
the addresses of the allocated inodes are pairwise distinct data blocks; the bitmap marks exactly these
among the data blocks; every block below the size of an allocated inode has an address; and the inodes
in memory are those on the disk. No call of `balloc` has returned a block that was owned when it was
made, `freeing free block` is out of reach, and `readi` does not call `balloc`. -/
theorem blocks_owned_once (h : Reach (step sb) (Booted sb) (fun _ _ => True) s) :
    ((∀ b ∈ s.allOwned sb, sb.Data b) ∧ (s.allOwned sb).Nodup) ∧
    (∀ b, sb.Data b → (bit sb s.disk b = true ↔ b ∈ s.allOwned sb)) ∧
    (∀ i < sb.ninodes, (s.inode sb i).type ≠ 0 → (s.inode sb i).Covered s.disk) ∧
    (∀ i, s.inode sb i = dinode sb s.disk i) ∧
    (∀ c ∈ s.calls, c.block ≠ 0 → sb.Data c.block ∧ c.block ∉ c.fs.allOwned sb) ∧
    (∀ op, step sb s op ≠ .halt .freeingFree) ∧
    ∀ x dst off n s', step sb s (.readi x dst off n) = .ok s' → s'.calls = s.calls := by
  have hinv := reach_inv h
  refine ⟨⟨?_, hinv.ledger.nodup_flatMap⟩, fun b hb => hinv.ledger.mem_flatMap_iff hb, hinv.covered, ?_, ?_, ?_, ?_⟩
  · intro b hb
    obtain ⟨i, hi, hbi⟩ := List.mem_flatMap.1 hb
    exact hinv.ledger.within i (mem_range.2 (List.mem_range.1 hi)) b hbi
  · intro i
    rw [Fs.inode]
    by_cases hv : s.valid i = true
    · rw [if_pos hv, hinv.synced i hv]
    · rw [if_neg hv]
  · intro c hc h0
    obtain ⟨hdata, hnew⟩ := hinv.fresh c hc h0
    refine ⟨hdata, fun hmem => ?_⟩
    obtain ⟨i, hi, hbi⟩ := List.mem_flatMap.1 hmem
    exact hnew i (List.mem_range.1 hi) hbi
  · exact fun op hhalt => (step_halt hinv hhalt).1 rfl
  · exact fun x dst off n s' hstep => (step_inv hinv hstep).2 x dst off n rfl

/-! ## A small disk -/

/-- Eight blocks: the inodes in block 2, the bitmap in block 3, four data blocks. -/
def smallDisk : Super where
  size := 8
  nblocks := 4
  ninodes := 4
  inodestart := 2
  bmapstart := 3
  inodes_fit := by decide
  bitmap_fits := by decide
  fits := by decide

/-- One empty file, inode 1. -/
def smallImage : Nat → Bytes :=
  update (update (fun _ _ => 0) 2 (putDinode (fun _ => 0) 64 (.fresh 2))) 3
    (update (fun _ => 0) 0 15)

theorem smallImage_booted : Booted smallDisk (boot smallImage) := by
  have hsize : ∀ i < 4, ((boot smallImage).inode smallDisk i).size = 0 := by decide +kernel
  refine ⟨smallImage, rfl, ⟨by decide +kernel, by decide +kernel, by decide +kernel, ?_, ?_⟩⟩
  · have hall : ∀ b < 8, smallDisk.Data b → (bit smallDisk (boot smallImage).disk b = true ↔
        b ∈ (boot smallImage).allOwned smallDisk) := by decide +kernel
    exact fun b hb => hall b hb.2 hb
  · intro i hi _ bn hbn
    rw [hsize i hi] at hbn
    exact absurd hbn (Nat.not_lt_zero _)

/-- 1500 bytes are written to the file, and a second write fails in `either_copyin`. -/
def writtenFile : St := after (step smallDisk) (boot smallImage)
  [.iget 1, .writei 1 (fun _ => ⟨fun _ => 7, true, 0⟩) 0 1500, .writei 1 (fun _ => ⟨fun _ => 7, false, 3⟩) 1500 600]

theorem writtenFile_reach : Reach (step smallDisk) (Booted smallDisk) (fun _ _ => True) writtenFile :=
  .of_run (fun _ _ => trivial) _ (.init smallImage_booted) (run_eq_after _ (by decide +kernel))

theorem blocks_owned_once_written :
    (writtenFile.allOwned smallDisk = [4, 5] ∧ writtenFile.calls.map (·.block) = [5, 4]) ∧
    ∀ op, step smallDisk writtenFile op ≠ .halt .freeingFree :=
  ⟨by decide +kernel, (blocks_owned_once writtenFile_reach).2.2.2.2.2.1⟩

end Xv6Riscv.Blocks
