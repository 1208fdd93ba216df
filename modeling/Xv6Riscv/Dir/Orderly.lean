import Xv6Riscv.Dir.Dangling
import Xv6Riscv.Dir.Mkfs

/-!
# Runs without a dangling entry

The invariant `Tidy` over whole runs from a consistent image, for calls that meet the condition
`orderly`; and a run without it.
-/
namespace Xv6Riscv.Dir
open Finset Simulation Machine

variable {s : Fs} {n : Nat} {inode : Nat → Inode}

/-! ## Booting from a consistent image -/

/-- The inodes of a consistent file system: the directories form a tree below the root, every entry
names an allocated inode, and link counts are exact. -/
structure Consistent (s : Fs) : Prop where
  bound : s.ninodes ≤ 2 ^ 16
  image : Image s
  root : (s.inode ROOTINO).type = .dir
  named : ∀ d, (s.inode d).type = .dir → ∀ e ∈ regular (s.inode d).ents, e.inum ≠ 0 →
    (s.inode e.inum).type ≠ .free
  parent : ∀ d, (s.inode d).type = .dir → (s.inode (parentOf (s.inode d).ents)).type = .dir
  file : ∀ x, (s.inode x).type ≠ .free → (s.inode x).type ≠ .dir → (s.inode x).nlink.toInt = s.links x
  dir : ∀ x, (s.inode x).type = .dir →
    (s.inode x).nlink.toInt = (s.links x + s.subdirs x + isRoot x : Nat)
  tree : ∀ x, (s.inode x).type = .dir → s.links x + isRoot x = 1

/-- A machine that was just booted from a consistent image. -/
def Booted (s : Fs) : Prop := ∃ n inode, s = boot n inode ∧ Consistent s

theorem toNat_of_toInt {b : BitVec 16} {k : Nat} (h : b.toInt = k) : b.toNat = k := by
  have hlt := b.isLt
  rw [BitVec.toInt_eq_toNat_cond] at h
  split at h <;> omega

theorem Booted.base (h : Booted s) : Base [] s := by
  obtain ⟨n, inode, rfl, hc⟩ := h
  exact boot_base hc.bound hc.image hc.root

theorem Booted.tidy (h : Booted s) : Tidy ⟨s, []⟩ := by
  have hbase := h.base
  obtain ⟨n, inode, rfl, hc⟩ := h
  have hdir : ∀ x, ((boot n inode).inode x).type = .dir → ((boot n inode).inode x).nlink.toNat ≠ 0 := by
    intro x hx
    have := toNat_of_toInt (hc.dir x hx)
    have := hc.tree x hx
    omega
  constructor
  case image => exact hc.image
  case root => exact hc.root
  case refd =>
    intro x hx
    refine hbase.owned x ?_
    have := hbase.refs x
    rw [List.count_nil] at this
    exact lt_of_lt_of_eq hx (by simpa using this)
  case named => exact hc.named
  case parent => exact hc.parent
  case pend => nofun
  case file => exact fun x hf hd => by rw [toNat_of_toInt (hc.file x hf hd)]; simp
  case dir => exact fun x hx => toNat_of_toInt (hc.dir x hx)
  case once => exact fun x hx => (hc.tree x hx).le
  case bare =>
    intro x hx h0
    have := hc.tree x hx
    simp only at h0
    omega
  case orphan => exact fun x hx h0 => absurd (toNat_eq_zero_iff.2 h0) (hdir x hx)

theorem mkfs_consistent {names : List Name} (h : MkfsOk n names) : Consistent (boot n (mkfs names)) where
  bound := h.bound
  image := mkfs_image h
  root := by
    show (mkfs names ROOTINO).type = .dir
    rw [mkfs_root]
  named d hd e he h0 := by
    have hroot := mkfs_dir hd
    subst hroot
    have he : e ∈ regular (mkfs names ROOTINO).ents := he
    rw [mkfs_root] at he
    rcases List.mem_append.1 he with he | he
    · have hr := (mem_fileEnts he).1
      have hne : e.inum ≠ ROOTINO := by unfold ROOTINO; omega
      show (mkfs names e.inum).type ≠ .free
      rw [mkfs, if_neg hne, if_pos (by omega)]
      nofun
    · rw [List.eq_of_mem_replicate he] at h0
      exact absurd rfl h0
  parent d hd := by
    have hroot := mkfs_dir hd
    subst hroot
    show (mkfs names (parentOf (mkfs names ROOTINO).ents)).type = .dir
    rw [mkfs_root]
    show (mkfs names ROOTINO).type = .dir
    rw [mkfs_root]
  file x hf hd := by
    have hx : x ≠ ROOTINO := by
      rintro rfl
      apply hd
      show (mkfs names ROOTINO).type = .dir
      rw [mkfs_root]
    obtain ⟨hr, hi⟩ := mkfs_file hx hf
    rw [mkfs_links h, if_pos hr]
    show (mkfs names x).nlink.toInt = 1
    rw [hi]
    rfl
  dir x hd := by
    have hroot := mkfs_dir hd
    subst hroot
    have hsub : (boot n (mkfs names)).subdirs ROOTINO = 0 := by
      apply List.countP_eq_zero.2
      intro e he
      simp only [decide_eq_true_eq, not_and]
      intro h0 hed
      have heq : e.inum = ROOTINO := mkfs_dir hed
      have he : e ∈ regular (mkfs names ROOTINO).ents := he
      rw [mkfs_root] at he
      rcases List.mem_append.1 he with he | he
      · have hr := (mem_fileEnts he).1
        unfold ROOTINO at heq
        omega
      · rw [List.eq_of_mem_replicate he] at h0
        exact h0 rfl
    rw [hsub, mkfs_links h, if_neg (by unfold ROOTINO; omega)]
    show (mkfs names ROOTINO).nlink.toInt = _
    rw [mkfs_root]
    rfl
  tree x hd := by
    have hroot := mkfs_dir hd
    subst hroot
    rw [mkfs_links h, if_neg (by unfold ROOTINO; omega)]
    rfl

/-! ## Runs -/

/-- **No dangling entry in an orderly run.** If every call of a run from a consistent image removes a
directory only when no other allocated directory has it as `".."`, makes directories only in linked
ones and does not wrap a link count to 0, then in every state reached all entries of allocated
directories name allocated inodes, and no such call panics with `ilock: no type`. -/
theorem entries_allocated (h : Reach step Booted (Allowed orderly) s) :
    (∀ d, (s.inode d).type = .dir → ∀ e ∈ (s.inode d).ents, e.inum ≠ 0 → (s.inode e.inum).type ≠ .free) ∧
    ∀ e, Allowed orderly s e → step s e ≠ .halt .noType := by
  obtain ⟨hb, ht⟩ := reach_inv (fun _ _ => Tidy.micro) (fun s hs => ⟨hs.base, hs.tidy⟩) h
  refine ⟨fun d hd e he h0 => ht.entry hd he h0, ?_⟩
  intro e hal hhalt
  obtain ⟨c, hc, x, href, hfree⟩ := halt_bad (fun _ _ => Tidy.micro) hb ht hal hhalt
  exact hc.refd x href hfree

/-- The smallest disk: a root directory without files and room for two more inodes. -/
def emptyDisk : Fs := boot 4 (mkfs [])

theorem emptyDisk_booted : Booted emptyDisk :=
  ⟨4, mkfs [], rfl, mkfs_consistent ⟨nofun, by decide, by decide⟩⟩

/-- A directory is made there, -/
def madeDisk : Fs := after step emptyDisk [(0, .mkdir ['d'] {})]

/-- and removed again. -/
def removedDisk : Fs := after step madeDisk [(0, .unlink ['d'])]

theorem madeDisk_reach : Reach step Booted (Allowed orderly) madeDisk := by
  refine Reach.after_step (.init emptyDisk_booted) _ ?_ (by decide +kernel)
  intro cwd hcwd _ dp name hres _
  obtain rfl : ROOTINO = cwd := Option.some.inj hcwd
  have hdp : resolveParent emptyDisk ROOTINO ['d'] = some (ROOTINO, ['d']) := by decide +kernel
  rw [hdp] at hres
  cases hres
  show 0 < (emptyDisk.inode ROOTINO).nlink.toInt
  decide +kernel

theorem removedDisk_reach : Reach step Booted (Allowed orderly) removedDisk := by
  refine Reach.after_step madeDisk_reach _ ?_ (by decide +kernel)
  intro cwd hcwd _ _ dp name x hres hlook _ c hc hcd
  have hcwd' : madeDisk.cwd 0 = some ROOTINO := by decide +kernel
  obtain rfl : ROOTINO = cwd := Option.some.inj (hcwd'.symm.trans hcwd)
  have hdp : resolveParent madeDisk ROOTINO ['d'] = some (ROOTINO, ['d']) := by decide +kernel
  rw [hdp] at hres
  cases hres
  have hx : lookup madeDisk ROOTINO ['d'] = some 2 := by decide +kernel
  obtain rfl : 2 = x := Option.some.inj (hx.symm.trans hlook)
  -- only the directories on the disk matter
  have himage := (reach_inv (fun _ _ => Tidy.micro) (fun s hs => ⟨hs.base, hs.tidy⟩) madeDisk_reach).2.image
  have hlt : c < madeDisk.ninodes := (himage.dir hcd).2
  have hn : madeDisk.ninodes = 4 := by decide +kernel
  have hall : ∀ c < 4, c ≠ 2 → (madeDisk.inode c).type = .dir → parentOf (madeDisk.inode c).ents ≠ 2 := by
    decide +kernel
  exact hall c (hn ▸ hlt) hc hcd

theorem entries_allocated_removed :
    (∀ d, (removedDisk.inode d).type = .dir → ∀ e ∈ (removedDisk.inode d).ents, e.inum ≠ 0 →
      (removedDisk.inode e.inum).type ≠ .free) ∧
    ∀ e, Allowed orderly removedDisk e → step removedDisk e ≠ .halt .noType :=
  entries_allocated removedDisk_reach

/-! ## The run that leaves a dangling `".."` -/

/-- `/d/s` becomes the current directory, then both directories are removed. -/
def orphaned : Fs := after step emptyDisk
  [(0, .mkdir ['d'] {}), (0, .mkdir ['d', '/', 's'] {}), (0, .chdir ['d', '/', 's']),
    (0, .unlink ['/', 'd', '/', 's']), (0, .unlink ['/', 'd'])]

/-- **A parent is freed before its removed child.** The current directory (inode 3) is still
allocated, its `".."` names the free inode 2, and `chdir("..")` panics. -/
theorem dotdot_dangles :
    Reach step Booted (fun _ _ => True) orphaned ∧
    ((orphaned.inode 3).type = .dir ∧ ⟨2, dotdot⟩ ∈ (orphaned.inode 3).ents ∧
      (orphaned.inode 2).type = .free) ∧
    step orphaned (0, .chdir ['.', '.']) = .halt .noType := by
  refine ⟨?_, by decide +kernel, Outcome.eq_halt (by decide +kernel)⟩
  exact .of_run (fun _ _ => trivial) _ (.init emptyDisk_booted) (run_eq_after step (by decide +kernel))

end Xv6Riscv.Dir
