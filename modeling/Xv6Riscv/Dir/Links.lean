import Xv6Riscv.Dir.Mkfs

/-!
# Exact link counts

While no entry is made in a removed directory and no count overflows its 16 bits, the link count of an
inode is the number of entries other than `"."` that name it, in directories that are linked
themselves. For the invariant this number is taken apart: a removed directory has no regular
entries, so the regular part is `links` over all allocated directories, and `ups` counts the `".."`
of linked directories.
-/
namespace Xv6Riscv.Dir
open Finset Simulation

variable {s s' : Fs} {B : List Nat} {x y dp : Nat} {i j : Inode} {c d : Cfg}

/-! ## Counts and names -/

/-- A directory with a positive link count. -/
def Inode.Linked (i : Inode) : Prop := i.type = .dir ∧ 0 < i.nlink.toInt

instance : Decidable i.Linked := inferInstanceAs (Decidable (_ ∧ _))

/-- The `".."` of a linked directory, as an entry for its parent. -/
def Inode.up (i : Inode) (x : Nat) : Nat := if i.Linked ∧ parentOf i.ents = x then 1 else 0

/-- The linked directories below `x`. -/
def Fs.ups (s : Fs) (x : Nat) : Nat := s.total (·.up x)

/-- An inode that a path of regular names leads to from the root. -/
inductive Reachable (s : Fs) : Nat → Prop
  | root : Reachable s ROOTINO
  | entry {d : Nat} {e : Dirent} : Reachable s d → (s.inode d).type = .dir → e ∈ regular (s.inode d).ents →
      e.inum ≠ 0 → Reachable s e.inum

structure Exact (c : Cfg) : Prop where
  image : Image c.fs
  pend : ∀ x ∈ c.pend, (c.fs.inode x).type ≠ .free ∧ (c.fs.inode x).type ≠ .dir
  root : (c.fs.inode ROOTINO).Linked ∧ parentOf (c.fs.inode ROOTINO).ents = ROOTINO ∧ c.fs.links ROOTINO = 0
  exact : ∀ x, (c.fs.inode x).type ≠ .free →
    (c.fs.inode x).nlink.toInt = (c.fs.links x + c.fs.ups x + c.pend.count x : Nat)
  free : ∀ x, (c.fs.inode x).type = .free → c.fs.links x = 0 ∧ c.fs.ups x = 0
  /-- A removed directory is empty. -/
  bare : ∀ d, (c.fs.inode d).type = .dir → ¬ (c.fs.inode d).Linked →
    ∀ e ∈ regular (c.fs.inode d).ents, e.inum = 0
  /-- A linked directory has its one entry in its parent. -/
  home : ∀ x, (c.fs.inode x).Linked → x ≠ ROOTINO → c.fs.links x = 1 ∧
    (c.fs.inode (parentOf (c.fs.inode x).ents)).type = .dir ∧
    ∃ e ∈ regular (c.fs.inode (parentOf (c.fs.inode x).ents)).ents, e.inum = x
  reach : ∀ x, 0 < c.fs.links x → Reachable c.fs x

theorem Inode.up_of_not_linked (h : ¬ i.Linked) : i.up x = 0 := if_neg fun hl => h hl.1

theorem Inode.up_of_linked (h : i.Linked) (hp : parentOf i.ents = dp) (x : Nat) : i.up x = if x = dp then 1 else 0 := by
  unfold Inode.up
  simp only [h, hp, true_and, eq_comm]

theorem Inode.up_congr (hl : j.Linked ↔ i.Linked) (hp : parentOf j.ents = parentOf i.ents) (x : Nat) :
    j.up x = i.up x := by
  unfold Inode.up
  rw [hp]
  simp only [hl]

theorem Exact.entry (h : Exact c) {d : Nat} (hd : (c.fs.inode d).type = .dir) {e : Dirent}
    (he : e ∈ regular (c.fs.inode d).ents) (h0 : e.inum ≠ 0) : (c.fs.inode d).Linked ∧ 0 < c.fs.links e.inum := by
  refine ⟨?_, Fs.total_pos (·.names e.inum) (h.image.dir hd).2 (Inode.names_pos hd he h0)⟩
  by_contra hl
  exact h0 (h.bare d hd hl e he)

theorem Fs.exists_entry (h : 0 < s.links x) :
    ∃ d, (s.inode d).type = .dir ∧ ∃ e ∈ regular (s.inode d).ents, e.inum ≠ 0 ∧ e.inum = x := by
  obtain ⟨d, -, hd⟩ := Fs.exists_of_total_pos h
  exact ⟨d, Inode.exists_of_names_pos hd⟩

theorem Exact.exact_of_dir (h : Exact ⟨s, B⟩) (hx : (s.inode x).type = .dir) :
    (s.inode x).nlink.toInt = (s.links x + s.ups x + B.count x : Nat) :=
  h.exact x (by rw [hx]; decide)

theorem Exact.ups_dir (h : Exact c) (hx : 0 < c.fs.ups x) : (c.fs.inode x).type = .dir := by
  obtain ⟨d, -, hd⟩ := Fs.exists_of_total_pos hx
  unfold Inode.up at hd
  split at hd
  next hup =>
    obtain ⟨hl, rfl⟩ := hup
    by_cases hroot : d = ROOTINO
    · subst hroot
      rw [h.root.2.1]
      exact h.root.1.1
    · exact (h.home d hl hroot).2.1
  next => omega

theorem Exact.linked_reach (h : Exact c) (hx : (c.fs.inode x).Linked) : Reachable c.fs x := by
  by_cases hroot : x = ROOTINO
  · rw [hroot]
    exact .root
  · exact h.reach x (by rw [(h.home x hx hroot).1]; exact Nat.one_pos)

/-- Reachability survives a change that spares all entries but those for `x`, when `x` has none. -/
theorem Reachable.transfer (hroot : x ≠ ROOTINO)
    (hbare : (s.inode x).type = .dir → ∀ e ∈ regular (s.inode x).ents, e.inum = 0)
    (hkeep : ∀ d, d ≠ x → (s.inode d).type = .dir → (s'.inode d).type = .dir ∧
      ∀ e ∈ regular (s.inode d).ents, e.inum ≠ 0 → e.inum ≠ x → e ∈ regular (s'.inode d).ents)
    (h : Reachable s y) : y ≠ x → Reachable s' y := by
  induction h with
  | root => exact fun _ => .root
  | @entry d e hd hdir he h0 ih =>
    intro hne
    have hdx : d ≠ x := by
      rintro rfl
      exact h0 (hbare hdir e he)
    obtain ⟨hdir', hents⟩ := hkeep d hdx hdir
    exact .entry (ih hdx) hdir' (hents e he h0 hne) h0

/-! ## One lemma per kind of small step -/

/-- No linked directory changes, and there is no new one: the directories that do change are empty before, and no
directories afterwards. -/
theorem Exact.spare {B' : List Nat} (h : Exact ⟨s, B⟩) (himage : Image s') (hn : s'.ninodes = s.ninodes)
    (hlinked : ∀ y, (s.inode y).Linked → s'.inode y = s.inode y)
    (hdir : ∀ y, (s'.inode y).type = .dir → s'.inode y = s.inode y)
    (hrest : ∀ y, (y ∈ B' → (s'.inode y).type ≠ .free ∧ (s'.inode y).type ≠ .dir) ∧
      ((s'.inode y).type ≠ .free → (s'.inode y).nlink.toInt = (s.links y + s.ups y + B'.count y : Nat)) ∧
      ((s'.inode y).type = .free → s.links y = 0 ∧ s.ups y = 0)) : Exact ⟨s', B'⟩ := by
  have hentry : ∀ {d e}, (s.inode d).type = .dir → e ∈ regular (s.inode d).ents → e.inum ≠ 0 →
      s'.inode d = s.inode d := fun hd he h0 => hlinked _ (h.entry hd he h0).1
  have hl : ∀ y, s'.links y = s.links y := by
    refine fun y => Fs.total_congr hn fun d => ?_
    by_cases hd : (s'.inode d).type = .dir
    · rw [hdir d hd]
    rw [Inode.names_of_not_dir hd]
    by_contra hpos
    obtain ⟨hd', e, he, h0, -⟩ := Inode.exists_of_names_pos (Nat.pos_of_ne_zero (Ne.symm hpos))
    rw [hentry hd' he h0] at hd
    exact hd hd'
  have hu : ∀ y, s'.ups y = s.ups y := by
    refine fun y => Fs.total_congr hn fun d => ?_
    by_cases hd : (s.inode d).Linked
    · rw [hlinked d hd]
    · rw [Inode.up_of_not_linked hd, Inode.up_of_not_linked fun hd' => hd (by rwa [← hdir d hd'.1])]
  constructor
  case image => exact himage
  case pend => exact fun y => (hrest y).1
  case root =>
    simp only [hlinked _ h.root.1, hl]
    exact h.root
  case exact =>
    simp only [hl, hu]
    exact fun y => (hrest y).2.1
  case free =>
    simp only [hl, hu]
    exact fun y => (hrest y).2.2
  case bare =>
    intro y hy
    simp only [hdir y hy] at hy ⊢
    exact h.bare y hy
  case home =>
    intro y hy hroot
    simp only [hdir y hy.1] at hy ⊢
    obtain ⟨h1, hpd, e, he, hey⟩ := h.home y hy hroot
    have hsame := hentry hpd he (hey ▸ (h.image.dir hy.1).1)
    simp only [hl, hsame]
    exact ⟨h1, hpd, e, he, hey⟩
  case reach =>
    intro y hy
    simp only [hl] at hy
    have hold : Reachable s y := h.reach y hy
    clear hy
    induction hold with
    | root => exact .root
    | entry _ hd he h0 ih =>
      have hsame := hentry hd he h0
      exact .entry ih (by rwa [hsame]) (by rwa [hsame]) h0

theorem Exact.tau (h : Exact ⟨s, B⟩) (hi : s'.inode = s.inode) (hn : s'.ninodes = s.ninodes)
    (himage : Image s') : Exact ⟨s', B⟩ := by
  refine h.spare himage hn (fun y _ => by rw [hi]) (fun y _ => by rw [hi]) fun y => ?_
  rw [hi]
  exact ⟨h.pend y, h.exact y, h.free y⟩

/-- A file, device or free inode changes into one that is no directory. -/
theorem Exact.setFile {B' : List Nat} (h : Exact ⟨s, B⟩) (hx : (s.inode x).type ≠ .dir) (hi : i.type ≠ .dir)
    (hfree : i.type = .free → (s.inode x).type = .free) (hpend : x ∈ B' → i.type ≠ .free)
    (hexact : i.type ≠ .free → i.nlink.toInt = (s.links x + s.ups x + B'.count x : Nat))
    (hcount : ∀ y, y ≠ x → B'.count y = B.count y) (himage : Image (s.setInode x i)) : Exact ⟨s.setInode x i, B'⟩ := by
  have hother : ∀ y, y ≠ x → (s.setInode x i).inode y = s.inode y := fun y hy => Fs.setInode_of_ne _ _ hy
  refine h.spare himage rfl (fun y hy => hother y ?_) (fun y hy => hother y ?_) fun y => ?_
  · rintro rfl
    exact hx hy.1
  · rintro rfl
    rw [Fs.setInode_self] at hy
    exact hi hy
  · by_cases hyx : y = x
    · subst hyx
      rw [Fs.setInode_self]
      exact ⟨fun hy => ⟨hpend hy, hi⟩, hexact, fun hf => h.free y (hfree hf)⟩
    · rw [hother y hyx, hcount y hyx]
      exact ⟨fun hy => h.pend y (mem_of_count hcount hy hyx), h.exact y, h.free y⟩

/-- The content of `dp` changes in entries for the file or device `x`; `B'` makes up for it. -/
theorem Exact.content {B' : List Nat} (h : Exact ⟨s, B⟩) (hd : (s.inode dp).type = .dir)
    (hx : (s.inode x).type ≠ .free ∧ (s.inode x).type ≠ .dir) (hi : i.type = .dir)
    (hpar : parentOf i.ents = parentOf (s.inode dp).ents) (hlink : i.nlink = (s.inode dp).nlink)
    (hbare : ¬ i.Linked → ∀ e ∈ regular i.ents, e.inum = 0)
    (hkeep : ∀ e ∈ regular (s.inode dp).ents, e.inum ≠ 0 → e.inum ≠ x → e ∈ regular i.ents)
    (hnames : ∀ y, y ≠ x → i.names y = (s.inode dp).names y)
    (hcount : i.names x + B'.count x = (s.inode dp).names x + B.count x)
    (hB : ∀ y, y ≠ x → B'.count y = B.count y) (himage : Image (s.setInode dp i)) : Exact ⟨s.setInode dp i, B'⟩ := by
  have hself : (s.setInode dp i).inode dp = i := Fs.setInode_self _ _ _
  have hother : ∀ y, y ≠ dp → (s.setInode dp i).inode y = s.inode y := fun y hy => Fs.setInode_of_ne _ _ hy
  have hlinks := Fs.links_setInode (s := s) (h.image.dir hd).2 i
  have hl : ∀ y, y ≠ x → (s.setInode dp i).links y = s.links y := by
    intro y hy
    have := hlinks y
    have := hnames y hy
    omega
  have hlk : i.Linked ↔ (s.inode dp).Linked := by
    unfold Inode.Linked
    rw [hi, hd, hlink]
  have hu : ∀ y, (s.setInode dp i).ups y = s.ups y :=
    fun y => Fs.total_setInode_of_eq s (·.up y) (Inode.up_congr hlk hpar y)
  have ht := s.setInode_congr (·.type) (hi.trans hd.symm)
  have hlinked : ∀ y, ((s.setInode dp i).inode y).Linked ↔ (s.inode y).Linked :=
    fun y => iff_of_eq (s.setInode_congr Inode.Linked (propext hlk) y)
  have hnlink := s.setInode_congr (·.nlink) hlink
  have hparent := s.setInode_congr (fun i => parentOf i.ents) hpar
  generalize s.setInode dp i = s' at *
  have hents : ∀ y, ∀ e ∈ regular (s.inode y).ents, e.inum ≠ 0 → e.inum ≠ x → e ∈ regular (s'.inode y).ents := by
    intro y e he h0 hex
    by_cases hy : y = dp
    · subst hy
      rw [hself]
      exact hkeep e he h0 hex
    · rwa [hother y hy]
  have hdne : ∀ y, (s.inode y).type = .dir → y ≠ x := by rintro y hy rfl; exact hx.2 hy
  have hbare' : ∀ y, (s'.inode y).type = .dir → ¬ (s'.inode y).Linked →
      ∀ e ∈ regular (s'.inode y).ents, e.inum = 0 := by
    intro y hy hnl
    by_cases hyd : y = dp
    · subst hyd
      rw [hself] at hnl ⊢
      exact hbare hnl
    · rw [hother y hyd] at hy hnl ⊢
      exact h.bare y hy hnl
  have htransfer : ∀ y, Reachable s y → y ≠ x → Reachable s' y := by
    intro y hy
    refine hy.transfer (hdne _ h.root.1.1).symm (fun hxd => absurd hxd hx.2) ?_
    intro d _ hdd
    exact ⟨by rw [ht]; exact hdd, fun e he h0 hex => hents d e he h0 hex⟩
  constructor
  case image => exact himage
  case pend =>
    intro y hy
    simp only [ht]
    by_cases hyx : y = x
    · exact hyx ▸ hx
    · exact h.pend y (mem_of_count hB hy hyx)
  case root =>
    have hr := h.root
    simp only [hlinked, hparent, hl _ (hdne _ hr.1.1)]
    exact hr
  case exact =>
    intro y hy
    simp only [ht] at hy
    have hold : (s.inode y).nlink.toInt = (s.links y + s.ups y + B.count y : Nat) := h.exact y hy
    simp only [hnlink, hu, hold]
    by_cases hyx : y = x
    · subst hyx
      have := hlinks y
      omega
    · rw [hl y hyx, hB y hyx]
  case free =>
    intro y hy
    simp only [ht] at hy
    have hyx : y ≠ x := by rintro rfl; exact hx.1 hy
    simp only [hl y hyx, hu]
    exact h.free y hy
  case bare => exact hbare'
  case home =>
    intro y hy hroot
    simp only [hlinked] at hy
    obtain ⟨hone, hpd, e, he, hey⟩ := h.home y hy hroot
    simp only [hl y (hdne y hy.1), hparent, ht]
    refine ⟨hone, hpd, e, hents _ e he ?_ ?_, hey⟩
    · rw [hey]
      exact (h.image.dir hy.1).1
    · rw [hey]
      exact hdne y hy.1
  case reach =>
    intro y hy
    by_cases hyx : y = x
    · -- one of the entries of `x`, in a directory that is linked
      obtain ⟨d, hdd, e, he, h0, hey⟩ := Fs.exists_entry hy
      have hdl : (s'.inode d).Linked := by
        by_contra hnl
        exact h0 (hbare' d hdd hnl e he)
      have hreach : Reachable s' d := htransfer d (h.linked_reach ((hlinked d).1 hdl)) (by
        rintro rfl
        exact hx.2 ((hlinked d).1 hdl).1)
      exact hey ▸ .entry hreach hdd he h0
    · simp only [hl y hyx] at hy
      exact htransfer y (h.reach y hy) hyx

variable {name : Name}

theorem Exact.enter (h : Exact ⟨s, B⟩) (hxB : x ∈ B) (hd : (s.inode dp).type = .dir)
    (hx : (s.inode x).type ≠ .free ∧ (s.inode x).type ≠ .dir) (hx0 : x ≠ 0) (hi : i.type = .dir)
    (hrest : Extends (regular (s.inode dp).ents) ⟨x, name⟩ (regular i.ents))
    (hpar : parentOf i.ents = parentOf (s.inode dp).ents) (hlink : i.nlink = (s.inode dp).nlink)
    (hg : 0 < (s.inode dp).nlink.toInt) (himage : Image (s.setInode dp i)) : Exact ⟨s.setInode dp i, B.erase x⟩ := by
  have hnames := Inode.names_of_extends hd hi hx0 hrest
  refine h.content hd hx hi hpar hlink ?_ ?_ ?_ ?_ ?_ himage
  · exact fun hnl => absurd ⟨hi, hlink ▸ hg⟩ hnl
  · exact fun e he h0 _ => (hrest.mem_iff h0).2 (.inr he)
  · intro y hy
    rw [hnames y, if_neg hy, Nat.add_zero]
  · have := List.count_pos_iff.2 hxB
    rw [hnames x, if_pos rfl, List.count_erase_self]
    omega
  · exact fun y hy => List.count_erase_of_ne hy

theorem Exact.clear (name : Name) (h : Exact ⟨s, B⟩) (hd : (s.inode dp).type = .dir)
    (hx : (s.inode x).type ≠ .free ∧ (s.inode x).type ≠ .dir) (hx0 : x ≠ 0) (hi : i.type = .dir)
    (hrest : Extends (regular i.ents) ⟨x, name⟩ (regular (s.inode dp).ents))
    (hpar : parentOf i.ents = parentOf (s.inode dp).ents) (hlink : i.nlink = (s.inode dp).nlink)
    (himage : Image (s.setInode dp i)) : Exact ⟨s.setInode dp i, x :: B⟩ := by
  have hnames := Inode.names_of_extends hi hd hx0 hrest
  refine h.content hd hx hi hpar hlink ?_ ?_ ?_ ?_ ?_ himage
  · intro hnl e he
    by_contra h0
    refine h0 (h.bare dp hd (fun hl => hnl ⟨hi, ?_⟩) e ((hrest.mem_iff h0).2 (.inr he)))
    rw [hlink]
    exact hl.2
  · intro e he h0 hex
    rcases (hrest.mem_iff h0).1 he with rfl | he
    · exact absurd rfl hex
    · exact he
  · intro y hy
    rw [hnames y, if_neg hy, Nat.add_zero]
  · rw [hnames x, if_pos rfl, List.count_cons_self]
    omega
  · exact fun y hy => List.count_cons_of_ne (fun h => hy h.symm)

section
variable (h : Exact ⟨s, B⟩)
include h

theorem Exact.free_step (ha : (s.inode x).type ≠ .free) (hl : (s.inode x).nlink = 0)
    (hi : s'.inode = Function.update s.inode x (s.inode x).freed) (hn : s'.ninodes = s.ninodes)
    (himage : Image s') : Exact ⟨s', B⟩ := by
  have hself : (s'.inode x).type = .free := by rw [hi, Function.update_self]; rfl
  have hother : ∀ y, y ≠ x → s'.inode y = s.inode y := fun y hy => by rw [hi, Function.update_of_ne hy]
  have hx0 : (s.links x + s.ups x + B.count x : Nat) = 0 := by
    have : (s.inode x).nlink.toInt = (s.links x + s.ups x + B.count x : Nat) := h.exact x ha
    rw [hl] at this
    exact (Int.natCast_eq_zero.1 this.symm)
  refine h.spare himage hn (fun y hy => hother y ?_) (fun y hy => hother y ?_) fun y => ?_
  · rintro rfl
    have hpos := hy.2
    rw [hl] at hpos
    exact absurd hpos (by decide)
  · rintro rfl
    rw [hself] at hy
    cases hy
  · by_cases hyx : y = x
    · subst hyx
      refine ⟨fun hB => ?_, fun hf => absurd hself hf, fun _ => by omega⟩
      have := List.count_pos_iff.2 hB
      omega
    · rw [hother y hyx]
      exact ⟨h.pend y, h.exact y, h.free y⟩

theorem Exact.removable (r : Removed s s' dp x name) (hl : 1 ≤ (s.inode x).nlink.toInt) :
    x ≠ ROOTINO ∧ parentOf (s.inode x).ents = dp ∧ s.links x = 1 ∧ (s.inode x).nlink.toInt = 1 := by
  have hxl : (s.inode x).Linked := ⟨r.child, by omega⟩
  have hent : (⟨x, name⟩ : Dirent) ∈ regular (s.inode dp).ents := (r.entry.mem_iff r.inum).2 (.inl rfl)
  have hroot : x ≠ ROOTINO := by
    rintro rfl
    have hlinks : 0 < s.links ROOTINO := (h.entry r.dir hent r.inum).2
    have : s.links ROOTINO = 0 := h.root.2.2
    omega
  obtain ⟨hone, hpd, e, he, hex⟩ := h.home x hxl hroot
  simp only at hone hpd he
  have hpar : parentOf (s.inode x).ents = dp := by
    by_contra hne
    have h0 : e.inum ≠ 0 := by rw [hex]; exact r.inum
    have h1 := Inode.names_pos hpd he h0
    have h2 := Inode.names_pos r.dir hent r.inum
    rw [hex] at h1
    have htwo := Count.add_le_sum (range s.ninodes) (fun y => (s.inode y).names x)
      (mem_range.2 (h.image.dir hpd).2) (mem_range.2 (h.image.dir r.dir).2) hne
    have hsum : ∑ y ∈ range s.ninodes, (s.inode y).names x = 1 := hone
    simp only at htwo h2
    omega
  refine ⟨hroot, hpar, hone, ?_⟩
  have hups : s.ups x = 0 := by
    by_contra hpos
    obtain ⟨y, -, hy⟩ := Fs.exists_of_total_pos (Nat.pos_of_ne_zero hpos)
    unfold Inode.up at hy
    split at hy
    next hup =>
      obtain ⟨hyl, hyp⟩ := hup
      by_cases hyr : y = ROOTINO
      · rw [hyr, h.root.2.1] at hyp
        exact hroot hyp.symm
      · obtain ⟨-, -, a, ha, hay⟩ := h.home y hyl hyr
        simp only [hyp] at ha
        have := r.empty a ha
        exact (h.image.dir hyl.1).1 (hay ▸ this)
    next => omega
  have hpend : B.count x = 0 := List.count_eq_zero.2 fun hB => (h.pend x hB).2 r.child
  rw [h.exact_of_dir r.child, hone, hups, hpend]
  rfl

theorem Exact.parent_linked (hd : (s.inode dp).Linked) (hxl : (s.inode x).Linked)
    (hroot : x ≠ ROOTINO) (hpar : parentOf (s.inode x).ents = dp) : 2 ≤ (s.inode dp).nlink.toInt := by
  have hexact := h.exact_of_dir hd.1
  have hup : (s.inode x).up dp = 1 := by rw [Inode.up_of_linked hxl hpar, if_pos rfl]
  by_cases hdr : dp = ROOTINO
  · subst hdr
    have hself : (s.inode ROOTINO).up ROOTINO = 1 := by rw [Inode.up_of_linked hd h.root.2.1, if_pos rfl]
    have htwo := Count.add_le_sum (range s.ninodes) (fun y => (s.inode y).up ROOTINO)
      (mem_range.2 (h.image.dir hxl.1).2) (mem_range.2 (h.image.dir hd.1).2) hroot
    have : s.ups ROOTINO = ∑ y ∈ range s.ninodes, (s.inode y).up ROOTINO := rfl
    omega
  · have hone : s.links dp = 1 := (h.home dp hd hdr).1
    have hle := Count.le_sum (range s.ninodes) (fun y => (s.inode y).up dp) (mem_range.2 (h.image.dir hxl.1).2)
    have : s.ups dp = ∑ y ∈ range s.ninodes, (s.inode y).up dp := rfl
    omega

theorem Exact.rmdir (r : Removed s s' dp x name)
    (hl : 1 ≤ (s.inode x).nlink.toInt) (himage : Image s') : Exact ⟨s', B⟩ := by
  obtain ⟨hroot, hpar, hone, hxone⟩ := h.removable r hl
  have hxl : (s.inode x).Linked := ⟨r.child, by omega⟩
  have hdl : (s.inode dp).Linked := (h.entry r.dir ((r.entry.mem_iff r.inum).2 (.inl rfl)) r.inum).1
  have htwo := h.parent_linked hdl hxl hroot hpar
  have hddec : (s'.inode dp).nlink.toInt = (s.inode dp).nlink.toInt - 1 := by rw [r.dirLink, toInt_dec hdl.2]
  have hdl' : (s'.inode dp).Linked := ⟨r.dirType, by omega⟩
  have hxdec : (s'.inode x).nlink.toInt = 0 := by rw [r.gone, toInt_dec hxl.2, hxone]; rfl
  have hxnl : ¬ (s'.inode x).Linked := fun hl => by
    have := hl.2
    omega
  -- `x` loses its entry, `dp` the `".."` of `x`
  have hups : ∀ y, s'.ups y + (if y = dp then 1 else 0) = s.ups y := by
    intro y
    have hsum : s'.ups y + _ + _ = s.ups y + _ + _ := r.total (·.up y)
    have h1 : (s'.inode x).up y = 0 := Inode.up_of_not_linked hxnl
    have h2 := Inode.up_of_linked hxl hpar y
    have h3 : (s'.inode dp).up y = (s.inode dp).up y := Inode.up_congr ⟨fun _ => hdl, fun _ => hdl'⟩ r.dirParent y
    omega
  have hlinked : ∀ y, (s'.inode y).Linked ↔ (s.inode y).Linked ∧ y ≠ x := by
    intro y
    by_cases hyx : y = x
    · subst hyx
      exact ⟨fun hl => absurd hl hxnl, fun hl => absurd rfl hl.2⟩
    by_cases hyd : y = dp
    · subst hyd
      exact ⟨fun _ => ⟨hdl, hyx⟩, fun _ => hdl'⟩
    · rw [r.other y hyd hyx]
      exact ⟨fun hl => ⟨hl, hyx⟩, fun hl => hl.1⟩
  have hlinks' : ∀ y, y ≠ x → s'.links y = s.links y := by
    intro y hy
    have := r.links y
    rwa [if_neg hy, Nat.add_zero] at this
  have hents : ∀ y, ∀ e ∈ regular (s.inode y).ents, e.inum ≠ 0 → e.inum ≠ x → e ∈ regular (s'.inode y).ents := by
    intro y e he h0 hex
    refine ((r.mem_entries h0).1 he).resolve_right ?_
    rintro ⟨-, rfl⟩
    exact hex rfl
  constructor
  case image => exact himage
  case pend => simpa only [r.type] using h.pend
  case root =>
    have hr := h.root
    simp only [hlinked, r.parent, hlinks' _ hroot.symm]
    exact ⟨⟨hr.1, hroot.symm⟩, hr.2⟩
  case exact =>
    intro y hy
    simp only [r.type] at hy
    have hold : (s.inode y).nlink.toInt = (s.links y + s.ups y + B.count y : Nat) := h.exact y hy
    have hly := r.links y
    have huy := hups y
    by_cases hyx : y = x
    · subst hyx
      rw [if_pos rfl] at hly
      simp only [hxdec]
      omega
    rw [if_neg hyx] at hly
    by_cases hyd : y = dp
    · subst hyd
      rw [if_pos rfl] at huy
      simp only [hddec, hold]
      omega
    · rw [if_neg hyd] at huy
      simp only [r.other y hyd hyx, hold]
      omega
  case free =>
    intro y hy
    simp only [r.type] at hy
    have hold : s.links y = 0 ∧ s.ups y = 0 := h.free y hy
    have := r.links y
    have := hups y
    simp only
    omega
  case bare =>
    intro y hy hnl e he
    simp only [r.type] at hy
    by_contra h0
    have he' := (r.mem_entries h0).2 (.inl he)
    by_cases hyx : y = x
    · exact h0 (r.empty e (hyx ▸ he'))
    · exact h0 (h.bare y hy (fun hyl => hnl ((hlinked y).2 ⟨hyl, hyx⟩)) e he')
  case home =>
    intro y hy hyroot
    obtain ⟨hyl, hyx⟩ := (hlinked y).1 hy
    obtain ⟨h1, hpd, e, he, hey⟩ := h.home y hyl hyroot
    simp only [hlinks' y hyx, r.parent, r.type]
    exact ⟨h1, hpd, e, hents _ e he (hey ▸ (h.image.dir hyl.1).1) (hey ▸ hyx), hey⟩
  case reach =>
    intro y hy
    have hyx : y ≠ x := by
      rintro rfl
      have := r.links y
      rw [if_pos rfl] at this
      simp only at hy
      omega
    simp only [hlinks' y hyx] at hy
    refine (h.reach y hy).transfer hroot (fun _ => r.empty) ?_ hyx
    intro d _ hdd
    exact ⟨by rw [r.type]; exact hdd, hents d⟩

theorem Exact.mkdir (m : Made s s' dp x name)
    (hg : 0 < (s.inode dp).nlink.toInt ∧ (s.inode dp).nlink.toInt < 32767) (himage : Image s') : Exact ⟨s', B⟩ := by
  have hdl : (s.inode dp).Linked := ⟨m.dir, hg.1⟩
  have hdinc : (s'.inode dp).nlink.toInt = (s.inode dp).nlink.toInt + 1 := by
    rw [m.dirLink, toInt_inc (by omega) hg.2]
  have hdl' : (s'.inode dp).Linked := ⟨m.dirType, by omega⟩
  have hxl : (s'.inode x).Linked := ⟨m.childType, by rw [m.childLink]; decide⟩
  have hne := m.ne_of_dir m.dir
  have hroot := m.ne_of_dir h.root.1.1
  obtain ⟨hl0, hu0⟩ : s.links x = 0 ∧ s.ups x = 0 := h.free x m.free
  have hpend0 : B.count x = 0 := List.count_eq_zero.2 fun hB => (h.pend x hB).1 m.free
  have hups : ∀ y, s'.ups y = s.ups y + if y = dp then 1 else 0 := by
    intro y
    have hsum : s'.ups y + _ + _ = s.ups y + _ + _ := m.total (·.up y)
    have h1 : (s.inode x).up y = 0 := Inode.up_of_not_linked fun hl => m.ne_of_dir hl.1 rfl
    have h2 := Inode.up_of_linked hxl m.childParent y
    have h3 : (s'.inode dp).up y = (s.inode dp).up y := Inode.up_congr ⟨fun _ => hdl, fun _ => hdl'⟩ m.dirParent y
    omega
  have hlinked : ∀ y, y ≠ x → ((s'.inode y).Linked ↔ (s.inode y).Linked) := by
    intro y hyx
    by_cases hyd : y = dp
    · subst hyd
      exact ⟨fun _ => hdl, fun _ => hdl'⟩
    · rw [m.other y hyd hyx]
  have hlinks' : ∀ y, y ≠ x → s'.links y = s.links y := by
    intro y hy
    rw [m.links y, if_neg hy, Nat.add_zero]
  have htransfer : ∀ y, Reachable s y → y ≠ x → Reachable s' y := by
    intro y hy
    refine hy.transfer hroot.symm (fun hxd => absurd rfl (m.ne_of_dir hxd)) ?_
    intro d hdx hdd
    exact ⟨by rw [m.type hdx]; exact hdd, fun e he h0 _ => m.mem_entries hdx he h0⟩
  have hnew : (⟨x, name⟩ : Dirent) ∈ regular (s'.inode dp).ents := (m.entry.mem_iff m.inum).2 (.inl rfl)
  constructor
  case image => exact himage
  case pend =>
    intro y hy
    have hyp : (s.inode y).type ≠ .free ∧ (s.inode y).type ≠ .dir := h.pend y hy
    simp only [m.type (m.ne hyp.1)]
    exact hyp
  case root =>
    have hr := h.root
    simp only [hlinked _ hroot, m.parent hroot, hlinks' _ hroot]
    exact hr
  case exact =>
    intro y hy
    simp only [m.links, hups]
    by_cases hyx : y = x
    · subst hyx
      simp only [m.childLink, if_true, if_neg hne.symm, hl0, hu0, hpend0]
      rfl
    by_cases hyd : y = dp
    · subst hyd
      have hold := h.exact_of_dir m.dir
      simp only [hdinc, if_neg hyx, if_true]
      omega
    · simp only [m.other y hyd hyx] at hy ⊢
      rw [if_neg hyx, if_neg hyd]
      exact h.exact y hy
  case free =>
    intro y hy
    have hyx : y ≠ x := by
      rintro rfl
      simp only [m.childType] at hy
      cases hy
    have hyd : y ≠ dp := by
      rintro rfl
      simp only [m.dirType] at hy
      cases hy
    simp only [m.type hyx] at hy
    simp only [m.links, hups, if_neg hyx, if_neg hyd]
    exact h.free y hy
  case bare =>
    intro y hy hnl
    have hyx : y ≠ x := by
      rintro rfl
      exact hnl hxl
    have hyd : y ≠ dp := by
      rintro rfl
      exact hnl hdl'
    simp only [m.other y hyd hyx] at hy hnl ⊢
    exact h.bare y hy hnl
  case home =>
    intro y hy hyroot
    by_cases hyx : y = x
    · subst hyx
      have hone : s'.links y = 1 := by rw [m.links, if_pos rfl, hl0]
      simp only [m.childParent]
      exact ⟨hone, m.dirType, _, hnew, rfl⟩
    · have hyl := (hlinked y hyx).1 hy
      obtain ⟨h1, hpd, e, he, hey⟩ := h.home y hyl hyroot
      have hpx := m.ne_of_dir hpd
      simp only [hlinks' y hyx, m.parent hyx, m.type hpx]
      exact ⟨h1, hpd, e, m.mem_entries hpx he (hey ▸ (h.image.dir hyl.1).1), hey⟩
  case reach =>
    intro y hy
    by_cases hyx : y = x
    · subst hyx
      exact .entry (e := ⟨y, name⟩) (htransfer dp (h.linked_reach hdl) hne) m.dirType hnew m.inum
    · simp only [hlinks' y hyx] at hy
      exact htransfer y (h.reach y hy) hyx

theorem Exact.dec (hB : x ∈ B) (hx : (s.inode x).type ≠ .free ∧ (s.inode x).type ≠ .dir)
    (himage : Image (s.setInode x (s.inode x).dec)) : Exact ⟨s.setInode x (s.inode x).dec, B.erase x⟩ := by
  have hpos := List.count_pos_iff.2 hB
  have hold : (s.inode x).nlink.toInt = (s.links x + s.ups x + B.count x : Nat) := h.exact x hx.1
  refine h.setFile hx.2 hx.2 (fun hf => absurd hf hx.1) (fun _ => hx.1) ?_
    (fun y hy => List.count_erase_of_ne hy) himage
  intro _
  have hdown := toInt_dec (i := s.inode x) (by omega)
  rw [List.count_erase_self]
  omega

end

/-! ## Every small step -/

/-- New entries go into linked directories, and no count is raised beyond its 16 bits. -/
def countable : Guard where
  inc n := n.toInt < 32767
  enter n := 0 < n.toInt
  mkdir n := 0 < n.toInt ∧ n.toInt < 32767
  childless := False
  inc_zero := by decide

theorem Exact.micro (h : Exact c) (hs : Micro countable c d) : Exact d := by
  have himage := h.image.micro hs
  cases hs with
  | tau hi hn hr => exact h.tau hi hn himage
  | free x ha hl hi hn hr => exact h.free_step ha hl hi hn himage
  | @alloc s B x ty hx hlt hf hty =>
    have hxB : x ∉ B := fun hB => (h.pend x hB).1 hf
    refine h.setFile (by rw [hf]; decide) hty.2 (fun hf' => absurd hf' hty.1) (fun _ => hty.1) ?_
      (fun _ _ => rfl) himage
    intro _
    obtain ⟨hl, hu⟩ : s.links x = 0 ∧ s.ups x = 0 := h.free x hf
    rw [hl, hu, List.count_eq_zero.2 hxB]
    rfl
  | @scratch s B x i hf hi =>
    exact h.setFile (by rw [hf]; decide) (by rw [hi]; decide) (fun _ => hf) (fun hB => absurd hf (h.pend x hB).1)
      (fun hne => absurd hi hne) (fun _ _ => rfl) himage
  | @inc s B x m hx hg =>
    refine h.setFile hx.2 hx.2 (fun hf => absurd hf hx.1) (fun _ => hx.1) ?_
      (fun y hy => List.count_cons_of_ne fun h => hy h.symm) himage
    intro _
    have hold : (s.inode x).nlink.toInt = (s.links x + s.ups x + B.count x : Nat) := h.exact x hx.1
    have hup := toInt_inc (i := s.inode x) (by omega) hg
    rw [List.count_cons_self]
    show (s.inode x).inc.nlink.toInt = _
    omega
  | dec x hB hx => exact h.dec hB hx himage
  | enter dp x name rest hB hd hx hx0 hname hrest hg =>
    exact h.enter hB hd hx hx0 hd hrest rfl rfl hg himage
  | mkdir dp x m name rest hx0 hlt hf hd hname hrest hg =>
    exact h.mkdir (h.image.made hx0 hlt hf hd hrest) hg himage
  | @remove s B dp x name rest hne hd hx hx0 hrest hl =>
    -- the entry first, then the link
    have hmid := h.clear (i := (s.inode dp).setEnts (⟨dp, dot⟩ :: ⟨parentOf (s.inode dp).ents, dotdot⟩ :: rest))
      name hd hx hx0 hd hrest rfl rfl (h.image.clear hd hrest)
    have hxi := s.setInode_of_ne ((s.inode dp).setEnts (⟨dp, dot⟩ :: ⟨parentOf (s.inode dp).ents, dotdot⟩ :: rest)) hne
    have hend := hmid.dec List.mem_cons_self (by rw [hxi]; exact hx) (by rw [hxi]; exact himage)
    rwa [hxi, List.erase_cons_head] at hend
  | rmdir dp x name rest hne hd hx hx0 hempty hrest hl hg =>
    exact h.rmdir (h.image.removed hne hd hx hx0 hempty hrest) hl himage

end Xv6Riscv.Dir
