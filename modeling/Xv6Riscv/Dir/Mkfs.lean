import Xv6Riscv.Dir.Counts

/-!
# Booting, and the images of `mkfs` (`proc.c`, `mkfs.c`)

`mkfs` writes a root directory with one entry for each file of its command line. `boot` is the
machine of `userinit` on some image: one process, in the root directory.
-/
namespace Xv6Riscv.Dir
open Finset List

variable {n : Nat} {inode : Nat → Inode} {names : List Name} {x : Nat}

/-! ## Booting -/

theorem boot_owners (x : Nat) : (boot n inode).owners x = if x = ROOTINO then 1 else 0 := by
  have hboot : boot n inode = Fs.setCwd { boot n inode with cwd := fun _ => none } 0 (some ROOTINO) := rfl
  have hzero : Fs.owners { boot n inode with cwd := fun _ => none } x = 0 := by
    simp [Fs.owners, cwdRef, fileRef, boot]
  have hset := Fs.owners_setCwd { boot n inode with cwd := fun _ => none } (p := 0) (by decide) (some ROOTINO) x
  rw [← hboot, hzero] at hset
  simp only [cwdRef, Option.some.injEq, reduceCtorEq, if_false, Nat.add_zero, Nat.zero_add] at hset
  rw [hset]
  by_cases hx : x = ROOTINO
  · rw [if_pos hx, if_pos hx.symm]
  · rw [if_neg hx, if_neg (fun h => hx h.symm)]

/-- The first process holds the root directory, nothing else is referenced. -/
theorem boot_base (hn : n ≤ 2 ^ 16) (hi : Image (boot n inode)) (hroot : (inode ROOTINO).type = .dir) :
    Base [] (boot n inode) where
  toImage := hi
  refs x := by
    rw [boot_owners, count_nil, Nat.add_zero]
    by_cases hx : x = ROOTINO
    · subst hx
      rfl
    · rw [if_neg hx]
      show Function.update (fun _ => 0) ROOTINO 1 x = 0
      rw [Function.update_of_ne hx]
  fresh x _ hv := by cases hv
  owned x hx := by
    rw [boot_owners] at hx
    by_cases hxr : x = ROOTINO
    · rw [hxr]
      show (inode ROOTINO).type ≠ .free
      rw [hroot]
      decide
    · rw [if_neg hxr] at hx
      omega
  files _ _ _ hf := by cases hf
  bound := hn

/-! ## `mkfs` -/

/-- The entries of the files, which get the inode numbers after the root's. -/
def fileEnts (first : Nat) (names : List Name) : List Dirent :=
  (names.zipIdx first).map fun nk => ⟨nk.2, nk.1⟩

/-- mkfs.c:116-167: the content of the root directory, filled up with empty slots to a block beyond the
last entry (64 entries to a block). -/
def rootEnts (names : List Name) : List Dirent :=
  ⟨ROOTINO, dot⟩ :: ⟨ROOTINO, dotdot⟩ :: (fileEnts 2 names ++
    List.replicate (((names.length + 2) / 64 + 1) * 64 - (names.length + 2)) .empty)

/-- The inodes of an image that `mkfs` builds from files of these names. -/
def mkfs (names : List Name) (x : Nat) : Inode :=
  if x = ROOTINO then ⟨.dir, 0, 1, rootEnts names⟩
  else if 2 ≤ x ∧ x < names.length + 2 then ⟨.file, 0, 1, []⟩
  else ⟨.free, 0, 0, []⟩

/-- The names on the command line of `mkfs`, and room for them on the disk. -/
structure MkfsOk (n : Nat) (names : List Name) : Prop where
  named : ∀ a ∈ names, a ≠ dot ∧ a ≠ dotdot
  room : names.length + 2 ≤ n
  bound : n ≤ 2 ^ 16

theorem mkfs_dir (h : (mkfs names x).type = .dir) : x = ROOTINO := by
  unfold mkfs at h
  split at h
  · assumption
  · split at h <;> cases h

theorem mkfs_root : mkfs names ROOTINO = ⟨.dir, 0, 1, rootEnts names⟩ := if_pos rfl

theorem mkfs_file (hx : x ≠ ROOTINO) (h : (mkfs names x).type ≠ .free) :
    (2 ≤ x ∧ x < names.length + 2) ∧ mkfs names x = ⟨.file, 0, 1, []⟩ := by
  unfold mkfs at h ⊢
  rw [if_neg hx] at h ⊢
  split at h
  next hr => exact ⟨hr, if_pos hr⟩
  next => exact absurd rfl h

theorem mem_fileEnts {first : Nat} {e : Dirent} (h : e ∈ fileEnts first names) :
    (first ≤ e.inum ∧ e.inum < first + names.length) ∧ e.name ∈ names := by
  obtain ⟨nk, hnk, rfl⟩ := mem_map.1 h
  have hidx := mem_zipIdx hnk
  refine ⟨⟨hidx.1, hidx.2.1⟩, ?_⟩
  rw [hidx.2.2]
  exact getElem_mem _

theorem countP_fileEnts : ∀ (names : List Name) (first : Nat),
    (fileEnts first names).countP (fun e => e.inum ≠ 0 ∧ e.inum = x) =
      if x ≠ 0 ∧ first ≤ x ∧ x < first + names.length then 1 else 0
  | [], first => by
    rw [if_neg (by simp only [length_nil]; omega)]
    rfl
  | name :: names, first => by
    have hcons : fileEnts first (name :: names) = ⟨first, name⟩ :: fileEnts (first + 1) names := rfl
    rw [hcons, countP_cons, countP_fileEnts names (first + 1), length_cons]
    by_cases hx : x = first
    · subst hx
      simp
    have : first ≠ x := fun h => hx h.symm
    simp only [this, and_false, decide_false, Bool.false_eq_true, if_false, Nat.add_zero]
    by_cases hin : x ≠ 0 ∧ first + 1 ≤ x ∧ x < first + 1 + names.length
    · rw [if_pos hin, if_pos (by omega)]
    · rw [if_neg hin, if_neg (by omega)]

theorem mkfs_image (h : MkfsOk n names) : Image (boot n (mkfs names)) where
  range y hy := by
    have := h.room
    by_cases hyr : y = ROOTINO
    · subst hyr
      exact ⟨by decide, by show 1 < n; omega⟩
    · obtain ⟨hr, -⟩ := mkfs_file hyr hy
      exact ⟨by omega, by show y < n; omega⟩
  shape d hd := by
    obtain rfl := mkfs_dir hd
    show DirOk ROOTINO (mkfs names ROOTINO).ents
    rw [mkfs_root]
    refine .replace (by decide) ?_
    intro e he h0
    rcases mem_append.1 he with he | he
    · exact h.named _ (mem_fileEnts he).2
    · rw [eq_of_mem_replicate he] at h0
      exact absurd rfl h0

theorem mkfs_links (h : MkfsOk n names) (x : Nat) :
    (boot n (mkfs names)).links x = if 2 ≤ x ∧ x < names.length + 2 then 1 else 0 := by
  have hroom := h.room
  have hsum : (boot n (mkfs names)).links x = (mkfs names ROOTINO).names x := by
    refine sum_eq_single_of_mem ROOTINO (mem_range.2 (by show ROOTINO < n; unfold ROOTINO; omega)) ?_
    intro y _ hy
    exact Inode.names_of_not_dir fun hd => hy (mkfs_dir hd)
  rw [hsum, mkfs_root, Inode.names, if_pos rfl]
  have hreg : regular (rootEnts names) = fileEnts 2 names ++ List.replicate _ .empty := rfl
  simp only [hreg]
  rw [countP_append, countP_fileEnts, countP_replicate]
  simp only [Dirent.empty, ne_eq, not_true, false_and, decide_false, Bool.false_eq_true, if_false,
    Nat.add_zero]
  by_cases hx : 2 ≤ x ∧ x < names.length + 2
  · rw [if_pos hx, if_pos (by omega)]
  · rw [if_neg hx, if_neg (by omega)]

end Xv6Riscv.Dir
