import Xv6Riscv.Dir.Links

/-!
# Runs with exact link counts

The invariant `Exact` over whole runs from an image of `mkfs`, for calls that meet the condition
`countable`; and a run without it.
-/
namespace Xv6Riscv.Dir
open Finset Simulation Machine

variable {s : Fs} {x n : Nat} {i : Inode}

/-! ## The number of links -/

/-- The entries other than `"."` that name `x`, in a directory with a positive link count. -/
def Inode.linksTo (i : Inode) (x : Nat) : Nat :=
  if i.Linked then i.ents.countP fun e => e.inum ≠ 0 ∧ e.inum = x ∧ e.name ≠ dot else 0

/-- The directory entries on the disk that count as links to `x`. -/
def Fs.linkCount (s : Fs) (x : Nat) : Nat := ∑ d ∈ range s.ninodes, (s.inode d).linksTo x

theorem DirOk.linksTo {d : Nat} (h : DirOk d i.ents) (hl : i.Linked) (x : Nat) : i.linksTo x = i.names x + i.up x := by
  have hregular : (regular i.ents).countP (fun e => decide (e.inum ≠ 0 ∧ e.inum = x ∧ e.name ≠ dot)) =
      (regular i.ents).countP fun e => decide (e.inum ≠ 0 ∧ e.inum = x) := by
    apply List.countP_congr
    intro e he
    simp only [decide_eq_true_eq]
    exact ⟨fun h => ⟨h.1, h.2.1⟩, fun hx => ⟨hx.1, hx.2, (h.names e he hx.1).1⟩⟩
  have hdotdot : dotdot ≠ dot := by decide
  rw [Inode.linksTo, if_pos hl, Inode.names, if_pos hl.1, Inode.up, h.split, List.countP_cons, List.countP_cons]
  simp only [regular_cons, parentOf_cons, hregular]
  by_cases hp : parentOf i.ents = x
  · have hx : x ≠ 0 := hp ▸ h.parent
    simp [hp, hx, hl, hdotdot]
  · simp [hp]

theorem Exact.linkCount {B : List Nat} (h : Exact ⟨s, B⟩) (x : Nat) : s.linkCount x = s.links x + s.ups x := by
  rw [Fs.linkCount, Fs.links, Fs.ups, Fs.total, Fs.total, ← sum_add_distrib]
  apply sum_congr rfl
  intro d _
  by_cases hl : (s.inode d).Linked
  · exact (h.image.shape d hl.1).linksTo hl x
  rw [Inode.linksTo, if_neg hl, Inode.up_of_not_linked hl, Nat.add_zero]
  by_contra hne
  -- a removed directory has no entries left
  obtain ⟨hd, e, he, h0, -⟩ := Inode.exists_of_names_pos (Nat.pos_of_ne_zero (Ne.symm hne))
  exact h0 (h.bare d hd hl e he)

/-! ## Booting from an image of `mkfs` -/

/-- A machine that was just booted from an image of `mkfs`. -/
def MkfsBooted (s : Fs) : Prop := ∃ n names, MkfsOk n names ∧ s = boot n (mkfs names)

variable {names : List Name}

theorem mkfs_linked (x : Nat) : (mkfs names x).Linked ↔ x = ROOTINO := by
  refine ⟨fun h => mkfs_dir h.1, ?_⟩
  rintro rfl
  rw [mkfs_root]
  exact ⟨rfl, Int.one_pos⟩

theorem mkfs_ups (h : MkfsOk n names) (x : Nat) : (boot n (mkfs names)).ups x = if x = ROOTINO then 1 else 0 := by
  have hroom := h.room
  have hsum : (boot n (mkfs names)).ups x = (mkfs names ROOTINO).up x := by
    refine sum_eq_single_of_mem ROOTINO (mem_range.2 (by show ROOTINO < n; unfold ROOTINO; omega)) ?_
    intro y _ hy
    exact Inode.up_of_not_linked fun hl => hy ((mkfs_linked y).1 hl)
  have hparent : parentOf (mkfs names ROOTINO).ents = ROOTINO := by rw [mkfs_root]; rfl
  rw [hsum, Inode.up, hparent]
  by_cases hx : x = ROOTINO
  · rw [if_pos hx, if_pos ⟨(mkfs_linked _).2 rfl, hx.symm⟩]
  · rw [if_neg hx, if_neg fun hup => hx hup.2.symm]

theorem mkfs_exact (h : MkfsOk n names) : Exact ⟨boot n (mkfs names), []⟩ := by
  have hroom := h.room
  have hinode : (boot n (mkfs names)).inode = mkfs names := rfl
  have hroot2 : ¬ (2 ≤ ROOTINO ∧ ROOTINO < names.length + 2) := by unfold ROOTINO; omega
  have hparent : parentOf (mkfs names ROOTINO).ents = ROOTINO := by rw [mkfs_root]; rfl
  constructor
  case image => exact mkfs_image h
  case pend => nofun
  case root => exact ⟨(mkfs_linked _).2 rfl, hparent, by rw [mkfs_links h, if_neg hroot2]⟩
  case exact =>
    intro y hy
    simp only [hinode, mkfs_links h, mkfs_ups h] at hy ⊢
    by_cases hyr : y = ROOTINO
    · rw [hyr, mkfs_root, if_neg hroot2, if_pos rfl]
      rfl
    · obtain ⟨hr, hi⟩ := mkfs_file hyr hy
      rw [hi, if_pos hr, if_neg hyr]
      rfl
  case free =>
    intro y hy
    simp only [hinode, mkfs_links h, mkfs_ups h] at hy ⊢
    have hyr : y ≠ ROOTINO := by
      rintro rfl
      rw [mkfs_root] at hy
      cases hy
    have hr : ¬ (2 ≤ y ∧ y < names.length + 2) := by
      intro hr
      rw [mkfs, if_neg hyr, if_pos hr] at hy
      cases hy
    rw [if_neg hr, if_neg hyr]
    exact ⟨rfl, rfl⟩
  case bare => exact fun d hd hnl => absurd ((mkfs_linked d).2 (mkfs_dir hd)) hnl
  case home => exact fun y hy hyr => absurd ((mkfs_linked y).1 hy) hyr
  case reach =>
    intro y hy
    obtain ⟨d, hd, e, he, h0, rfl⟩ := Fs.exists_entry hy
    obtain rfl : d = ROOTINO := mkfs_dir hd
    exact .entry .root hd he h0

theorem MkfsBooted.inv (h : MkfsBooted s) : Base [] s ∧ Exact ⟨s, []⟩ := by
  obtain ⟨n, names, hok, rfl⟩ := h
  refine ⟨boot_base hok.bound (mkfs_image hok) ?_, mkfs_exact hok⟩
  exact ((mkfs_linked ROOTINO).2 rfl).1

/-! ## Runs -/

/-- **Link counts are exact in a countable run.** If every call of a run from an image of `mkfs` makes
entries only in directories with a positive link count and raises no count beyond 32767, then in
every state reached the link count of an allocated inode is the number of its links, no such call
panics with `unlink: nlink < 1`, and an inode with a positive link count has a path from the root. -/
theorem link_counts_exact (h : Reach step MkfsBooted (Allowed countable) s) :
    (∀ x, (s.inode x).type ≠ .free → (s.inode x).nlink.toInt = s.linkCount x) ∧
    (∀ e, Allowed countable s e → step s e ≠ .halt .nlink) ∧
    ∀ x, (s.inode x).type ≠ .free → 0 < (s.inode x).nlink.toInt → Reachable s x := by
  obtain ⟨hb, hx⟩ := reach_inv (fun _ _ => Exact.micro) (fun _ hs => hs.inv) h
  have hcount : ∀ x, (s.inode x).type ≠ .free → (s.inode x).nlink.toInt = s.linkCount x := by
    intro x ha
    have hexact : (s.inode x).nlink.toInt = (s.links x + s.ups x + ([] : List Nat).count x : Nat) := hx.exact x ha
    rw [hexact, hx.linkCount, List.count_nil, Nat.add_zero]
  refine ⟨hcount, ?_, ?_⟩
  · -- the entry that `unlink` found counts for its inode
    intro e hal hhalt
    obtain ⟨c, hc, d, hd, a, ha, h0, hlt⟩ := halt_bad (fun _ _ => Exact.micro) hb hx hal hhalt
    have hpos := (hc.entry hd ha h0).2
    have hfree : (c.fs.inode a.inum).type ≠ .free := by
      intro hf
      have := (hc.free _ hf).1
      omega
    have := hc.exact _ hfree
    omega
  · intro x ha hpos
    by_cases hd : (s.inode x).type = .dir
    · exact hx.linked_reach ⟨hd, hpos⟩
    refine hx.reach x ?_
    have hups : s.ups x = 0 := by
      by_contra hu
      exact hd (hx.ups_dir (Nat.pos_of_ne_zero hu))
    have := hcount x ha
    have := hx.linkCount x
    simp only
    omega

/-- The root directory alone, and a directory made in it. -/
def oneDir : Fs := after step (boot 4 (mkfs [])) [(0, .mkdir ['d'] {})]

theorem mkfsBooted_four : MkfsBooted (boot 4 (mkfs [])) :=
  ⟨4, [], ⟨nofun, by decide, by decide⟩, rfl⟩

theorem link_counts_exact_oneDir :
    (∀ x, (oneDir.inode x).type ≠ .free → (oneDir.inode x).nlink.toInt = oneDir.linkCount x) ∧
    (∀ e, Allowed countable oneDir e → step oneDir e ≠ .halt .nlink) ∧
    ∀ x, (oneDir.inode x).type ≠ .free → 0 < (oneDir.inode x).nlink.toInt → Reachable oneDir x := by
  refine link_counts_exact (Reach.after_step (.init mkfsBooted_four) _ ?_ (by decide +kernel))
  intro cwd hcwd _ dp name hres _
  obtain rfl : ROOTINO = cwd := Option.some.inj hcwd
  have hdp : resolveParent (boot 4 (mkfs [])) ROOTINO ['d'] = some (ROOTINO, ['d']) := by decide +kernel
  rw [hdp] at hres
  cases hres
  show 0 < ((boot 4 (mkfs [])).inode ROOTINO).nlink.toInt ∧ _ < 32767
  decide +kernel

/-! ## A file in a removed directory -/

/-- `/d` is removed while it is the current directory, and then `open("f", O_CREATE | O_WRONLY)`. -/
def strayFile : Fs := after step (boot 4 (mkfs []))
  [(0, .mkdir ['d'] {}), (0, .chdir ['d']), (0, .unlink ['/', 'd']), (0, .open ['f'] 0x201 {})]

/-- **A positive link count without a name.** The file (inode 3) has link count 1, but its only entry is
in the removed directory (inode 2), so it has no link and no path leads to it. -/
theorem created_in_removed :
    Reach step MkfsBooted (fun _ _ => True) strayFile ∧
    ((strayFile.inode 3).type = .file ∧ (strayFile.inode 3).nlink = 1 ∧ strayFile.linkCount 3 = 0) ∧
    ¬ Reachable strayFile 3 := by
  refine ⟨.of_run (fun _ _ => trivial) _ (.init mkfsBooted_four) (run_eq_after step (by decide +kernel)),
    by decide +kernel, ?_⟩
  -- the root has no regular entries left, so nothing else is reachable
  have hempty : ∀ e ∈ regular (strayFile.inode ROOTINO).ents, e.inum = 0 := by decide +kernel
  have honly : ∀ y, Reachable strayFile y → y = ROOTINO := by
    intro y hy
    induction hy with
    | root => rfl
    | entry _ _ he h0 ih =>
      subst ih
      exact absurd (hempty _ he) h0
  exact fun h3 => absurd (honly 3 h3) (by decide)

end Xv6Riscv.Dir
