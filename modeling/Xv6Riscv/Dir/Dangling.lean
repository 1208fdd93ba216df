import Xv6Riscv.Dir.Counts

/-!
# No dangling directory entry

Freeing an inode is safe for the directories when nothing names it: no regular entry, because its link
count bounds their number, and no `".."` of another allocated directory. The second part is not
something the kernel ensures. A directory that was removed while it is somebody's current directory
keeps its `".."`; when its parent is removed as well, the parent is freed first. So the result needs a
condition (`orderly`).
-/
namespace Xv6Riscv.Dir
open Finset Simulation Machine List
variable {name : Name} {B' : List Nat}

variable {s s' : Fs} {B : List Nat} {x y dp : Nat} {i : Inode} {c d : Cfg}

/-! ## The invariant -/

/-- The entries of `d` that name directories. -/
def Fs.subdirs (s : Fs) (d : Nat) : Nat :=
  (regular (s.inode d).ents).countP fun e => e.inum ≠ 0 ∧ (s.inode e.inum).type = .dir

def isRoot (x : Nat) : Nat := if x = ROOTINO then 1 else 0

structure Tidy (c : Cfg) : Prop where
  image : Image c.fs
  root : (c.fs.inode ROOTINO).type = .dir
  refd : ∀ x, 0 < c.fs.ref x → (c.fs.inode x).type ≠ .free
  named : ∀ d, (c.fs.inode d).type = .dir → ∀ e ∈ regular (c.fs.inode d).ents, e.inum ≠ 0 →
    (c.fs.inode e.inum).type ≠ .free
  parent : ∀ d, (c.fs.inode d).type = .dir → (c.fs.inode (parentOf (c.fs.inode d).ents)).type = .dir
  pend : ∀ x ∈ c.pend, (c.fs.inode x).type ≠ .free ∧ (c.fs.inode x).type ≠ .dir
  /-- The link count of a file bounds its entries, written and announced. -/
  file : ∀ x, (c.fs.inode x).type ≠ .free → (c.fs.inode x).type ≠ .dir →
    c.fs.links x + c.pend.count x ≤ (c.fs.inode x).nlink.toNat
  /-- The link count of a directory is its entry and one for each subdirectory. -/
  dir : ∀ x, (c.fs.inode x).type = .dir →
    (c.fs.inode x).nlink.toNat = c.fs.links x + c.fs.subdirs x + isRoot x
  once : ∀ x, (c.fs.inode x).type = .dir → c.fs.links x + isRoot x ≤ 1
  bare : ∀ x, (c.fs.inode x).type = .dir → c.fs.links x + isRoot x = 0 → c.fs.subdirs x = 0
  /-- A removed directory is not the `".."` of another one. -/
  orphan : ∀ x, (c.fs.inode x).type = .dir → (c.fs.inode x).nlink = 0 → Childless c.fs x

theorem Tidy.free_links (h : Tidy c) (hx : (c.fs.inode x).type = .free) : c.fs.links x = 0 := by
  by_contra hne
  obtain ⟨d, -, hd⟩ := Fs.exists_of_total_pos (Nat.pos_of_ne_zero hne)
  obtain ⟨hdir, e, he, h0, rfl⟩ := Inode.exists_of_names_pos hd
  exact h.named d hdir e he h0 hx

/-- Every entry of an allocated directory, `"."` and `".."` included, names an allocated inode. -/
theorem Tidy.entry (h : Tidy c) {d : Nat} (hd : (c.fs.inode d).type = .dir) {e : Dirent}
    (he : e ∈ (c.fs.inode d).ents) (h0 : e.inum ≠ 0) : (c.fs.inode e.inum).type ≠ .free := by
  rw [(h.image.shape d hd).split] at he
  rcases mem_cons.1 he with rfl | he
  · rw [hd]; decide
  · rcases mem_cons.1 he with rfl | he
    · rw [h.parent d hd]; decide
    · exact h.named d hd e he h0

theorem Tidy.of_named (h : Tidy c) (hx : Named c.fs x) : (c.fs.inode x).type ≠ .free := by
  rcases hx with rfl | hx | ⟨d, hd, e, he, h0, rfl⟩
  · rw [h.root]; decide
  · exact hx
  · exact h.entry hd he h0

/-! ## Subdirectories under a change -/

theorem countP_dirs {es : List Dirent}
    (ht : ∀ e ∈ es, e.inum ≠ 0 → ((s'.inode e.inum).type = .dir ↔ (s.inode e.inum).type = .dir)) :
    es.countP (fun e => decide (e.inum ≠ 0 ∧ (s'.inode e.inum).type = .dir)) =
      es.countP fun e => decide (e.inum ≠ 0 ∧ (s.inode e.inum).type = .dir) := by
  apply countP_congr
  intro e hmem
  simp only [decide_eq_true_eq]
  exact and_congr_right fun h0 => ht e hmem h0

theorem Fs.subdirs_congr {d : Nat} (he : (s'.inode d).ents = (s.inode d).ents)
    (ht : ∀ e ∈ regular (s.inode d).ents, e.inum ≠ 0 → ((s'.inode e.inum).type = .dir ↔ (s.inode e.inum).type = .dir)) :
    s'.subdirs d = s.subdirs d := by
  unfold Fs.subdirs
  rw [he]
  exact countP_dirs ht

theorem Fs.subdirs_extends {d : Nat} (name : Name) (hx : x ≠ 0)
    (h : Extends (regular (s.inode d).ents) ⟨x, name⟩ (regular (s'.inode d).ents))
    (ht : ∀ e ∈ regular (s.inode d).ents, e.inum ≠ 0 →
      ((s'.inode e.inum).type = .dir ↔ (s.inode e.inum).type = .dir)) :
    s'.subdirs d = s.subdirs d + if (s'.inode x).type = .dir then 1 else 0 := by
  have hold : (regular (s.inode d).ents).countP (fun e => decide (e.inum ≠ 0 ∧ (s'.inode e.inum).type = .dir)) =
      s.subdirs d := countP_dirs ht
  unfold Fs.subdirs at hold ⊢
  rw [h _ (fun a ha => by simp [ha]), hold]
  by_cases hd : (s'.inode x).type = .dir <;> simp [hd, hx]

theorem Made.subdirs (m : Made s s' dp x name) (hi : Image s) (h0 : s.links x = 0)
    (hy : (s.inode y).type = .dir) : s'.subdirs y = s.subdirs y + if y = dp then 1 else 0 := by
  have hold : ∀ e ∈ regular (s.inode y).ents, e.inum ≠ 0 →
      ((s'.inode e.inum).type = .dir ↔ (s.inode e.inum).type = .dir) := by
    intro e he hne
    rw [m.type (hi.unnamed h0 hy he hne)]
  by_cases hyd : y = dp
  · subst hyd
    rw [Fs.subdirs_extends name m.inum m.entry hold, if_pos m.childType, if_pos rfl]
  · rw [if_neg hyd, Nat.add_zero]
    exact Fs.subdirs_congr (by rw [m.other y hyd (m.ne_of_dir hy)]) hold

theorem Removed.subdirs (r : Removed s s' dp x name) (y : Nat) :
    s'.subdirs y + (if y = dp then 1 else 0) = s.subdirs y := by
  by_cases hyd : y = dp
  · subst hyd
    rw [Fs.subdirs_extends name r.inum r.entry fun e _ _ => by rw [r.type], if_pos r.child, if_pos rfl]
  rw [if_neg hyd, Nat.add_zero]
  refine Fs.subdirs_congr ?_ fun e _ _ => by rw [r.type]
  by_cases hyx : y = x
  · rw [hyx, r.gone]
    rfl
  · rw [r.other y hyd hyx]

/-! ## One lemma per kind of small step -/

section
variable (h : Tidy ⟨s, B⟩)
include h

/-- No directory changes, and none comes or goes. -/
theorem Tidy.spare (himage : Image s') (hn : s'.ninodes = s.ninodes)
    (hsame : ∀ y, (s.inode y).type = .dir ∨ (s'.inode y).type = .dir → s'.inode y = s.inode y)
    (halloc : ∀ y, (s.inode y).type ≠ .free → (s'.inode y).type ≠ .free)
    (hrefd : ∀ y, 0 < s'.ref y → (s.inode y).type ≠ .free)
    (hrest : ∀ y, (y ∈ B' → (s'.inode y).type ≠ .free ∧ (s'.inode y).type ≠ .dir) ∧
      ((s'.inode y).type ≠ .free → (s'.inode y).type ≠ .dir → s.links y + B'.count y ≤ (s'.inode y).nlink.toNat)) :
    Tidy ⟨s', B'⟩ := by
  have hdir : ∀ y, (s'.inode y).type = .dir ↔ (s.inode y).type = .dir := by
    refine fun y => ⟨fun hy => ?_, fun hy => ?_⟩
    · rwa [hsame y (.inr hy)] at hy
    · rwa [hsame y (.inl hy)]
  have hl : ∀ y, s'.links y = s.links y := by
    refine fun y => Fs.total_congr hn fun d => ?_
    by_cases hd : (s.inode d).type = .dir
    · rw [hsame d (.inl hd)]
    · rw [Inode.names_of_not_dir hd, Inode.names_of_not_dir (mt (hdir d).1 hd)]
  have hs : ∀ y, (s.inode y).type = .dir → s'.subdirs y = s.subdirs y :=
    fun y hy => Fs.subdirs_congr (by rw [hsame y (.inl hy)]) fun e _ _ => hdir e.inum
  constructor
  case image => exact himage
  case root => exact (hdir _).2 h.root
  case refd => exact fun y hy => halloc y (hrefd y hy)
  case pend => exact fun y => (hrest y).1
  case file =>
    simp only [hl]
    exact fun y => (hrest y).2
  -- the other parts are about directories
  all_goals
    intro y hy
    have hy' := (hdir y).1 hy
    simp only [hsame y (.inr hy), hl, hs y hy']
  case named => exact fun e he h0 => halloc _ (h.named y hy' e he h0)
  case parent => exact (hdir _).2 (h.parent y hy')
  case dir => exact h.dir y hy'
  case once => exact h.once y hy'
  case bare => exact h.bare y hy'
  case orphan =>
    intro h0 c hc hcd
    rw [hsame c (.inr hcd)]
    exact h.orphan y hy' h0 c hc ((hdir c).1 hcd)

theorem Tidy.tau (hi : s'.inode = s.inode) (hn : s'.ninodes = s.ninodes)
    (hr : ∀ x, 0 < s'.ref x → 0 < s.ref x ∨ Named s x) (himage : Image s') : Tidy ⟨s', B⟩ := by
  refine h.spare himage hn (fun y _ => by rw [hi]) (fun y => by rw [hi]; exact id) (fun y hy => ?_) fun y => ?_
  · rcases hr y hy with hy | hy
    · exact h.refd y hy
    · exact h.of_named hy
  · rw [hi]
    exact ⟨h.pend y, h.file y⟩

/-- A file, device or free inode changes into one that is no directory. -/
theorem Tidy.setFile (hx : (s.inode x).type ≠ .dir) (hi : i.type ≠ .dir)
    (hfree : i.type = .free → (s.inode x).type = .free) (hpend : x ∈ B' → i.type ≠ .free)
    (hfile : i.type ≠ .free → s.links x + B'.count x ≤ i.nlink.toNat)
    (hcount : ∀ y, y ≠ x → B'.count y = B.count y) (himage : Image (s.setInode x i)) : Tidy ⟨s.setInode x i, B'⟩ := by
  have hother : ∀ y, y ≠ x → (s.setInode x i).inode y = s.inode y := fun y hy => Fs.setInode_of_ne _ _ hy
  refine h.spare himage rfl (fun y hy => hother y ?_) (fun y hy => ?_) h.refd fun y => ?_
  · rintro rfl
    rw [Fs.setInode_self] at hy
    exact hy.elim hx hi
  all_goals by_cases hyx : y = x
  · subst hyx
    rw [Fs.setInode_self]
    exact fun hf => hy (hfree hf)
  · rwa [hother y hyx]
  · subst hyx
    rw [Fs.setInode_self]
    exact ⟨fun hy => ⟨hpend hy, hi⟩, fun hf _ => hfile hf⟩
  · rw [hother y hyx, hcount y hyx]
    exact ⟨fun hy => h.pend y (mem_of_count hcount hy hyx), h.file y⟩

/-- Entries and link counts change, but no inode changes its kind and no directory its parent. -/
theorem Tidy.entries (himage : Image s') (href : s'.ref = s.ref) (ht : ∀ y, (s'.inode y).type = (s.inode y).type)
    (hpar : ∀ y, (s.inode y).type = .dir → parentOf (s'.inode y).ents = parentOf (s.inode y).ents)
    (hnamed : ∀ y, (s.inode y).type = .dir → ∀ e ∈ regular (s'.inode y).ents, e.inum ≠ 0 →
      (s.inode e.inum).type ≠ .free) (hB : ∀ y ∈ B', (s.inode y).type ≠ .free ∧ (s.inode y).type ≠ .dir)
    (hfile : ∀ y, (s.inode y).type ≠ .free → (s.inode y).type ≠ .dir →
      s'.links y + B'.count y ≤ (s'.inode y).nlink.toNat) (hdir : ∀ y, (s.inode y).type = .dir →
      (s'.inode y).nlink.toNat = s'.links y + s'.subdirs y + isRoot y ∧ s'.links y ≤ s.links y ∧
      (s'.links y + isRoot y = 0 → s'.subdirs y = 0))
    (horphan : ∀ y, (s.inode y).type = .dir → (s'.inode y).nlink = 0 → Childless s y) : Tidy ⟨s', B'⟩ := by
  constructor
  case image => exact himage
  case orphan =>
    intro y hy h0 c hc hcd
    simp only [ht] at hy hcd
    simp only [hpar c hcd]
    exact horphan y hy h0 c hc hcd
  case refd => simpa only [href, ht] using h.refd
  all_goals simp only [ht]
  case root => exact h.root
  case named => exact hnamed
  case parent =>
    intro d hd
    rw [hpar d hd]
    exact h.parent d hd
  case pend => exact hB
  case file => exact hfile
  case dir => exact fun y hy => (hdir y hy).1
  case once =>
    intro y hy
    have := h.once y hy
    have := (hdir y hy).2.1
    simp only at *
    omega
  case bare => exact fun y hy => (hdir y hy).2.2

/-- The content of `dp` changes in entries for the file or device `x`; `B'` makes up for it. -/
theorem Tidy.content (hd : (s.inode dp).type = .dir)
    (hx : (s.inode x).type ≠ .free ∧ (s.inode x).type ≠ .dir) (hi : i.type = .dir)
    (hpar : parentOf i.ents = parentOf (s.inode dp).ents) (hlink : i.nlink = (s.inode dp).nlink)
    (hmem : ∀ e ∈ regular i.ents, e.inum ≠ 0 → e.inum = x ∨ e ∈ regular (s.inode dp).ents)
    (hnames : ∀ y, y ≠ x → i.names y = (s.inode dp).names y) (hsubs : (s.setInode dp i).subdirs dp = s.subdirs dp)
    (hcount : i.names x + B'.count x = (s.inode dp).names x + B.count x)
    (hother : ∀ y, y ≠ x → B'.count y = B.count y) (himage : Image (s.setInode dp i)) : Tidy ⟨s.setInode dp i, B'⟩ := by
  have hlinks := Fs.links_setInode (s := s) (h.image.dir hd).2 i
  have hlinks' : ∀ y, y ≠ x → (s.setInode dp i).links y = s.links y := by
    intro y hy
    have := hlinks y
    have := hnames y hy
    omega
  have hnlink := s.setInode_congr (·.nlink) hlink
  have ht := s.setInode_congr (·.type) (hi.trans hd.symm)
  have hsub : ∀ y, (s.setInode dp i).subdirs y = s.subdirs y := by
    intro y
    by_cases hy : y = dp
    · rw [hy, hsubs]
    · exact Fs.subdirs_congr (by rw [Fs.setInode_of_ne _ _ hy]) fun e _ _ => by rw [ht]
  have hB : ∀ y ∈ B', (s.inode y).type ≠ .free ∧ (s.inode y).type ≠ .dir := by
    intro y hy
    by_cases hyx : y = x
    · exact hyx ▸ hx
    · exact h.pend y (mem_of_count hother hy hyx)
  refine h.entries himage rfl ht ?_ ?_ hB ?_ ?_ ?_
  · exact fun y _ => s.setInode_congr (fun i => parentOf i.ents) hpar y
  · intro y hyd e he h0
    by_cases hy : y = dp
    · subst hy
      rw [Fs.setInode_self] at he
      rcases hmem e he h0 with hex | he
      · exact hex ▸ hx.1
      · exact h.named y hd e he h0
    · rw [Fs.setInode_of_ne _ _ hy] at he
      exact h.named y hyd e he h0
  · intro y hyf hyd
    have hold : s.links y + B.count y ≤ (s.inode y).nlink.toNat := h.file y hyf hyd
    rw [hnlink]
    by_cases hy : y = x
    · subst hy
      have := hlinks y
      omega
    · rw [hlinks' y hy, hother y hy]
      exact hold
  · intro y hy
    have hyx : y ≠ x := by rintro rfl; exact hx.2 hy
    rw [hlinks' y hyx, hnlink, hsub]
    exact ⟨h.dir y hy, Nat.le_refl _, h.bare y hy⟩
  · intro y hy h0
    rw [hnlink] at h0
    exact h.orphan y hy h0

theorem Tidy.enter (hxB : x ∈ B) (hd : (s.inode dp).type = .dir)
    (hx : (s.inode x).type ≠ .free ∧ (s.inode x).type ≠ .dir) (hx0 : x ≠ 0) (hi : i.type = .dir)
    (hrest : Extends (regular (s.inode dp).ents) ⟨x, name⟩ (regular i.ents))
    (hpar : parentOf i.ents = parentOf (s.inode dp).ents) (hlink : i.nlink = (s.inode dp).nlink)
    (himage : Image (s.setInode dp i)) : Tidy ⟨s.setInode dp i, B.erase x⟩ := by
  have hnames := Inode.names_of_extends hd hi hx0 hrest
  have hne : x ≠ dp := by rintro rfl; exact hx.2 hd
  have ht := s.setInode_congr (·.type) (hi.trans hd.symm)
  refine h.content hd hx hi hpar hlink ?_ ?_ ?_ ?_ ?_ himage
  · intro e he h0
    rcases (hrest.mem_iff h0).1 he with rfl | he
    · exact .inl rfl
    · exact .inr he
  · intro y hy
    rw [hnames y, if_neg hy, Nat.add_zero]
  · rw [Fs.subdirs_extends (s := s) name hx0, Fs.setInode_of_ne _ _ hne, if_neg hx.2, Nat.add_zero]
    · rw [Fs.setInode_self]
      exact hrest
    · exact fun e _ _ => by rw [ht]
  · have := count_pos_iff.2 hxB
    rw [hnames x, if_pos rfl, count_erase_self]
    omega
  · exact fun y hy => count_erase_of_ne hy

end

theorem Tidy.clear (name : Name) (h : Tidy ⟨s, B⟩) (hd : (s.inode dp).type = .dir)
    (hx : (s.inode x).type ≠ .free ∧ (s.inode x).type ≠ .dir) (hx0 : x ≠ 0) (hi : i.type = .dir)
    (hrest : Extends (regular i.ents) ⟨x, name⟩ (regular (s.inode dp).ents))
    (hpar : parentOf i.ents = parentOf (s.inode dp).ents) (hlink : i.nlink = (s.inode dp).nlink)
    (himage : Image (s.setInode dp i)) : Tidy ⟨s.setInode dp i, x :: B⟩ := by
  have hnames := Inode.names_of_extends hi hd hx0 hrest
  have ht := s.setInode_congr (·.type) (hi.trans hd.symm)
  refine h.content hd hx hi hpar hlink ?_ ?_ ?_ ?_ ?_ himage
  · exact fun e he h0 => .inr ((hrest.mem_iff h0).2 (.inr he))
  · intro y hy
    rw [hnames y, if_neg hy, Nat.add_zero]
  · have hsub : s.subdirs dp = (s.setInode dp i).subdirs dp + if (s.inode x).type = .dir then 1 else 0 := by
      exact Fs.subdirs_extends name hx0 (by rw [Fs.setInode_self]; exact hrest) fun e _ _ => by rw [ht]
    rw [hsub, if_neg hx.2, Nat.add_zero]
  · rw [hnames x, if_pos rfl, count_cons_self]
    omega
  · exact fun y hy => count_cons_of_ne (fun h => hy h.symm)

section
variable (h : Tidy ⟨s, B⟩)
include h

theorem Tidy.rmdir (r : Removed s s' dp x name) (hchild : Childless s x)
    (himage : Image s') : Tidy ⟨s', B⟩ := by
  have hsubx : s.subdirs x = 0 := by
    apply countP_eq_zero.2
    intro e he
    simp [r.empty e he]
  -- `x` had one entry, `dp` is a linked directory
  have hxl := r.links x
  rw [if_pos rfl] at hxl
  have hxdir : (s.inode x).nlink.toNat = s.links x + s.subdirs x + isRoot x := h.dir x r.child
  have hddir : (s.inode dp).nlink.toNat = s.links dp + s.subdirs dp + isRoot dp := h.dir dp r.dir
  have hdl := r.links dp
  have hds := r.subdirs dp
  rw [if_pos rfl] at hds
  have hdlinked : s.links dp + isRoot dp ≠ 0 := by
    intro h0
    have : s.subdirs dp = 0 := h.bare dp r.dir h0
    omega
  have hxdec := (s.inode x).dec_toNat (by omega)
  rw [← r.gone] at hxdec
  have hddec := (s.inode dp).dec_toNat (by omega)
  rw [← r.dirLink] at hddec
  refine h.entries himage r.ref r.type (fun y _ => r.parent y) ?_ h.pend ?_ ?_ ?_
  · intro y hyd e he h0
    exact h.named y hyd e ((r.mem_entries h0).2 (.inl he)) h0
  · intro y hyf hyd
    have hyx : y ≠ x := by rintro rfl; exact hyd r.child
    have hydp : y ≠ dp := by rintro rfl; exact hyd r.dir
    have hold : s.links y + B.count y ≤ (s.inode y).nlink.toNat := h.file y hyf hyd
    have hl := r.links y
    rw [r.other y hydp hyx]
    omega
  · intro y hyd
    have hl := r.links y
    have hs := r.subdirs y
    by_cases hyx : y = x
    · subst hyx
      omega
    rw [if_neg hyx] at hl
    by_cases hydp : y = dp
    · subst hydp
      omega
    rw [if_neg hydp] at hs
    have hold : (s.inode y).nlink.toNat = s.links y + s.subdirs y + isRoot y := h.dir y hyd
    have hbare : s.links y + isRoot y = 0 → s.subdirs y = 0 := h.bare y hyd
    rw [r.other y hydp hyx]
    refine ⟨by omega, by omega, fun h0 => ?_⟩
    omega
  · intro y hyd h0
    by_cases hyx : y = x
    · exact hyx ▸ hchild
    have hydp : y ≠ dp := by
      rintro rfl
      have := toNat_eq_zero_iff.2 h0
      omega
    rw [r.other y hydp hyx] at h0
    exact h.orphan y hyd h0

theorem Tidy.mkdir (m : Made s s' dp x name) (hg : 0 < (s.inode dp).nlink.toInt)
    (himage : Image s') : Tidy ⟨s', B⟩ := by
  have hroot : ROOTINO ≠ x := m.ne_of_dir h.root
  have hlinks0 : s.links x = 0 := h.free_links m.free
  have hlinks' : ∀ y, y ≠ x → s'.links y = s.links y := fun y hy => by rw [m.links, if_neg hy, Nat.add_zero]
  have hlinksx : s'.links x = 1 := by rw [m.links, if_pos rfl, hlinks0]
  have halloc : ∀ y, (s.inode y).type ≠ .free → (s'.inode y).type ≠ .free := fun y hy => by rwa [m.type (m.ne hy)]
  have hsubx : s'.subdirs x = 0 := by
    unfold Fs.subdirs
    rw [m.childEnts]
    rfl
  have hdirOf : ∀ y, y ≠ x → (s'.inode y).type = .dir → (s.inode y).type = .dir :=
    fun y hyx hy => by rwa [m.type hyx] at hy
  obtain ⟨hgpos, -, hgwrap⟩ := toNat_pos_of_toInt hg
  have hdinc := (s.inode dp).inc_toNat hgwrap
  rw [← m.dirLink] at hdinc
  have hddir : (s.inode dp).nlink.toNat = s.links dp + s.subdirs dp + isRoot dp := h.dir dp m.dir
  constructor
  case image => exact himage
  case root => exact (m.type hroot).trans h.root
  case refd =>
    intro y hy
    simp only [m.ref] at hy
    exact halloc y (h.refd y hy)
  case named =>
    intro d hd e he h0
    by_cases hdx : d = x
    · subst hdx
      simp only [m.childEnts] at he
      cases he
    have hd' := hdirOf d hdx hd
    by_cases hdp : d = dp
    · subst hdp
      rcases (m.entry.mem_iff h0).1 he with rfl | he
      · simp only [m.childType]
        decide
      · exact halloc _ (h.named d hd' e he h0)
    · simp only [m.other d hdp hdx] at he
      exact halloc _ (h.named d hd' e he h0)
  case parent =>
    intro d hd
    by_cases hdx : d = x
    · subst hdx
      simp only [m.childParent, m.dirType]
    · have hp : (s.inode (parentOf (s.inode d).ents)).type = .dir := h.parent d (hdirOf d hdx hd)
      simp only [m.parent hdx, m.type (m.ne_of_dir hp)]
      exact hp
  case pend =>
    intro y hy
    have hyp : (s.inode y).type ≠ .free ∧ (s.inode y).type ≠ .dir := h.pend y hy
    simp only [m.type (m.ne hyp.1)]
    exact hyp
  case file =>
    intro y hyf hyd
    have hyx : y ≠ x := by rintro rfl; exact hyd m.childType
    have hydp : y ≠ dp := by rintro rfl; exact hyd m.dirType
    simp only [hlinks' y hyx, m.other y hydp hyx] at hyf hyd ⊢
    exact h.file y hyf hyd
  case dir =>
    intro y hyd
    by_cases hyx : y = x
    · subst hyx
      simp only [m.childLink, hlinksx, hsubx, isRoot, if_neg hroot.symm]
      rfl
    have hyd' := hdirOf y hyx hyd
    simp only [hlinks' y hyx, m.subdirs h.image hlinks0 hyd']
    by_cases hydp : y = dp
    · subst hydp
      rw [if_pos rfl]
      omega
    · rw [m.other y hydp hyx, if_neg hydp]
      exact h.dir y hyd'
  case once =>
    intro y hyd
    by_cases hyx : y = x
    · subst hyx
      simp only [hlinksx, isRoot, if_neg hroot.symm]
      omega
    · simp only [hlinks' y hyx]
      exact h.once y (hdirOf y hyx hyd)
  case bare =>
    intro y hyd h0
    by_cases hyx : y = x
    · subst hyx
      exact hsubx
    have hyd' := hdirOf y hyx hyd
    simp only [hlinks' y hyx] at h0
    have hbare : s.subdirs y = 0 := h.bare y hyd' h0
    simp only [m.subdirs h.image hlinks0 hyd', hbare, Nat.zero_add]
    -- a directory without an entry has no link, and nothing is made in it
    rw [if_neg]
    rintro rfl
    omega
  case orphan =>
    intro y hyd h0 c hc hcd
    have hyx : y ≠ x := by
      rintro rfl
      simp only [m.childLink] at h0
      cases h0
    have hydp : y ≠ dp := by
      rintro rfl
      have := toNat_eq_zero_iff.2 h0
      simp only at this
      omega
    simp only [m.other y hydp hyx] at h0
    by_cases hcx : c = x
    · subst hcx
      simp only [m.childParent]
      exact hydp.symm
    · simp only [m.parent hcx]
      exact h.orphan y (hdirOf y hyx hyd) h0 c hc (hdirOf c hcx hcd)

theorem Tidy.free (ha : (s.inode x).type ≠ .free) (hl : (s.inode x).nlink = 0)
    (hi : s'.inode = Function.update s.inode x (s.inode x).freed) (hn : s'.ninodes = s.ninodes)
    (hr : ∀ y, 0 < s'.ref y → y ≠ x ∧ 0 < s.ref y) (himage : Image s') : Tidy ⟨s', B⟩ := by
  have hl0 := toNat_eq_zero_iff.2 hl
  have hself : (s'.inode x).type = .free := by rw [hi, Function.update_self]; rfl
  have hother : ∀ y, y ≠ x → s'.inode y = s.inode y := fun y hy => by rw [hi, Function.update_of_ne hy]
  have hne : ∀ y, (s'.inode y).type ≠ .free → y ≠ x := by rintro y hy rfl; exact hy hself
  have hned : ∀ y, (s'.inode y).type = .dir → y ≠ x := fun y hy => hne y (by rw [hy]; decide)
  -- no entry names `x`, and a directory `x` names no directories
  have hlinks0 : s.links x = 0 := by
    by_cases hd : (s.inode x).type = .dir
    · have : (s.inode x).nlink.toNat = s.links x + s.subdirs x + isRoot x := h.dir x hd
      omega
    · have : s.links x + B.count x ≤ (s.inode x).nlink.toNat := h.file x ha hd
      omega
  have hroot : x ≠ ROOTINO := by
    rintro rfl
    have : (s.inode ROOTINO).nlink.toNat = s.links ROOTINO + s.subdirs ROOTINO + isRoot ROOTINO :=
      h.dir _ h.root
    simp only [isRoot, if_true] at this
    omega
  have hpend : x ∉ B := by
    intro hB
    have hxp : (s.inode x).type ≠ .free ∧ (s.inode x).type ≠ .dir := h.pend x hB
    have : s.links x + B.count x ≤ (s.inode x).nlink.toNat := h.file x hxp.1 hxp.2
    have := count_pos_iff.2 hB
    omega
  have hnames : ∀ y, (s.inode y).type = .dir → (s.inode x).names y = 0 := by
    intro y hy
    by_contra hpos
    obtain ⟨hd, e, he, h0, rfl⟩ := Inode.exists_of_names_pos (Nat.pos_of_ne_zero hpos)
    have hdir : (s.inode x).nlink.toNat = s.links x + s.subdirs x + isRoot x := h.dir x hd
    have : 0 < s.subdirs x := countP_pos_iff.2 ⟨e, he, by simp [h0, hy]⟩
    omega
  have hlinks : ∀ y, s'.links y + (s.inode x).names y = s.links y := by
    intro y
    have h1 : s'.links y = (s.setInode x (s.inode x).freed).links y := Fs.total_congr hn fun y => by rw [hi]; rfl
    have h2 := Fs.links_setInode (h.image.range x ha).2 (s.inode x).freed y
    have h3 : (s.inode x).freed.names y = 0 := Inode.names_of_not_dir nofun
    simp only at h2
    omega
  have hsub : ∀ y, (s'.inode y).type = .dir → s'.subdirs y = s.subdirs y := by
    intro y hy
    have hyx := hned y hy
    refine Fs.subdirs_congr (by rw [hother y hyx]) ?_
    intro e he h0
    have hyd : (s.inode y).type = .dir := by rwa [hother y hyx] at hy
    rw [hother _ (h.image.unnamed hlinks0 hyd he h0)]
  have hback : ∀ y, (s'.inode y).type = .dir → (s.inode y).type = .dir ∧ s'.links y = s.links y := by
    intro y hy
    have hyd : (s.inode y).type = .dir := by rwa [hother y (hned y hy)] at hy
    have := hlinks y
    have := hnames y hyd
    exact ⟨hyd, by omega⟩
  constructor
  case image => exact himage
  case root =>
    rw [hother _ hroot.symm]
    exact h.root
  case refd =>
    intro y hy
    obtain ⟨hyx, hpos⟩ := hr y hy
    rw [hother y hyx]
    exact h.refd y hpos
  case named =>
    intro d hd e he h0
    simp only [hother d (hned d hd)] at he
    have hd' := (hback d hd).1
    simp only [hother _ (h.image.unnamed hlinks0 hd' he h0)]
    exact h.named d hd' e he h0
  case parent =>
    intro d hd
    have hdx := hned d hd
    have hd' := (hback d hd).1
    have hp : (s.inode (parentOf (s.inode d).ents)).type = .dir := h.parent d hd'
    have hpx : parentOf (s.inode d).ents ≠ x := by
      intro heq
      exact h.orphan x (heq ▸ hp) hl d hdx hd' heq
    simp only [hother d hdx, hother _ hpx]
    exact hp
  case pend =>
    intro y hy
    have hyx : y ≠ x := by rintro rfl; exact hpend hy
    simp only [hother y hyx]
    exact h.pend y hy
  case file =>
    intro y hyf hyd
    have hyx := hne y hyf
    simp only [hother y hyx] at hyf hyd ⊢
    have hold : s.links y + B.count y ≤ (s.inode y).nlink.toNat := h.file y hyf hyd
    have := hlinks y
    omega
  case dir =>
    intro y hy
    have hyb := hback y hy
    simp only [hsub y hy, hyb.2, hother y (hned y hy)]
    exact h.dir y hyb.1
  case once =>
    intro y hy
    have hyb := hback y hy
    simp only [hyb.2]
    exact h.once y hyb.1
  case bare =>
    intro y hy h0
    have hyb := hback y hy
    simp only [hyb.2] at h0
    simp only [hsub y hy]
    exact h.bare y hyb.1 h0
  case orphan =>
    intro y hy h0 c hc hcd
    simp only [hother y (hned y hy)] at h0
    simp only [hother c (hned c hcd)]
    exact h.orphan y (hback y hy).1 h0 c hc (hback c hcd).1

theorem Tidy.dec (hB : x ∈ B) (hx : (s.inode x).type ≠ .free ∧ (s.inode x).type ≠ .dir)
    (himage : Image (s.setInode x (s.inode x).dec)) : Tidy ⟨s.setInode x (s.inode x).dec, B.erase x⟩ := by
  have hpos := count_pos_iff.2 hB
  have hold : s.links x + B.count x ≤ (s.inode x).nlink.toNat := h.file x hx.1 hx.2
  refine h.setFile hx.2 hx.2 (fun hf => absurd hf hx.1) (fun _ => hx.1) ?_
    (fun y hy => count_erase_of_ne hy) himage
  intro _
  have hdown := (s.inode x).dec_toNat (by omega)
  rw [count_erase_self]
  omega

end

/-! ## The condition and the result -/

/-- No directory is made inside a removed one, a directory is removed only when it is not the `".."`
of another allocated one, and `link` does not wrap a count around to 0. -/
def orderly : Guard where
  inc n := n ≠ -1
  enter _ := True
  mkdir n := 0 < n.toInt
  childless := True
  inc_zero := by decide

/-- **One small step keeps every entry alive.** -/
theorem Tidy.micro (h : Tidy c) (hs : Micro orderly c d) : Tidy d := by
  have himage := h.image.micro hs
  cases hs with
  | tau hi hn hr => exact h.tau hi hn hr himage
  | free x ha hl hi hn hr => exact h.free ha hl hi hn hr himage
  | @alloc s B x ty hx hlt hf hty =>
    have hxB : x ∉ B := fun hB => (h.pend x hB).1 hf
    refine h.setFile (by rw [hf]; decide) hty.2 (fun hf' => absurd hf' hty.1) (fun _ => hty.1) ?_
      (fun _ _ => rfl) himage
    intro _
    have : s.links x = 0 := h.free_links hf
    rw [this, count_eq_zero.2 hxB]
    exact Nat.zero_le _
  | @scratch s B x i hf hi =>
    exact h.setFile (by rw [hf]; decide) (by rw [hi]; decide) (fun _ => hf) (fun hB => absurd hf (h.pend x hB).1)
      (fun hne => absurd hi hne) (fun _ _ => rfl) himage
  | @inc s B x m hx hg =>
    refine h.setFile hx.2 hx.2 (fun hf => absurd hf hx.1) (fun _ => hx.1) ?_
      (fun y hy => count_cons_of_ne fun h => hy h.symm) himage
    intro _
    have hold : s.links x + B.count x ≤ (s.inode x).nlink.toNat := h.file x hx.1 hx.2
    have hup := (s.inode x).inc_toNat hg
    rw [count_cons_self]
    show _ ≤ (s.inode x).inc.nlink.toNat
    omega
  | dec x hB hx => exact h.dec hB hx himage
  | enter dp x name rest hB hd hx hx0 hname hrest hg =>
    exact h.enter hB hd hx hx0 hd hrest rfl rfl himage
  | mkdir dp x m name rest hx0 hlt hf hd hname hrest hg =>
    exact h.mkdir (h.image.made hx0 hlt hf hd hrest) hg himage
  | @remove s B dp x name rest hne hd hx hx0 hrest hl =>
    -- the entry first, then the link
    have hmid := h.clear (i := (s.inode dp).setEnts (⟨dp, dot⟩ :: ⟨parentOf (s.inode dp).ents, dotdot⟩ :: rest))
      name hd hx hx0 hd hrest rfl rfl (h.image.clear hd hrest)
    have hxi := s.setInode_of_ne ((s.inode dp).setEnts (⟨dp, dot⟩ :: ⟨parentOf (s.inode dp).ents, dotdot⟩ :: rest)) hne
    have hend := hmid.dec mem_cons_self (by rw [hxi]; exact hx) (by rw [hxi]; exact himage)
    rwa [hxi, erase_cons_head] at hend
  | rmdir dp x name rest hne hd hx hx0 hempty hrest hl hg =>
    exact h.rmdir (h.image.removed hne hd hx hx0 hempty hrest) (hg trivial) himage

end Xv6Riscv.Dir
