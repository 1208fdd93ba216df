import Xv6Riscv.Dir.Calls

/-!
# Counting directory entries

Both invariants of the link counts are sums over the directories of the disk. A small step changes one or
two inodes, so each sum moves by what these inodes contribute.
-/
namespace Xv6Riscv.Dir
open Finset Simulation

variable {G : Guard} {c d : Cfg} {s s' : Fs} {x y : Nat} {i j : Inode}

/-! ## Sums over the inodes -/

/-- A quantity of single inodes, summed over the disk. -/
def Fs.total (s : Fs) (f : Inode → Nat) : Nat := ∑ x ∈ range s.ninodes, f (s.inode x)

theorem Fs.total_setInode (s : Fs) (f : Inode → Nat) (i : Inode) (hx : x < s.ninodes) :
    (s.setInode x i).total f + f (s.inode x) = s.total f + f i :=
  Count.sum_update (range s.ninodes) s.inode f (mem_range.2 hx) i

theorem Fs.total_setInode_of_eq (s : Fs) (f : Inode → Nat) (h : f i = f (s.inode x)) :
    (s.setInode x i).total f = s.total f := by
  apply sum_congr rfl
  intro y _
  by_cases hyx : y = x
  · rw [hyx, Fs.setInode_self, h]
  · rw [Fs.setInode_of_ne _ _ hyx]

theorem Fs.total_two (s : Fs) (f : Inode → Nat) {a b : Nat} (hne : a ≠ b) (ha : a < s.ninodes)
    (hb : b < s.ninodes) (i j : Inode) :
    ((s.setInode b j).setInode a i).total f + f (s.inode a) + f (s.inode b) = s.total f + f i + f j := by
  have hb' := s.total_setInode f j hb
  have ha' := (s.setInode b j).total_setInode f i (x := a) ha
  rw [Fs.setInode_of_ne _ _ hne] at ha'
  omega

theorem Fs.total_pos (f : Inode → Nat) (hx : x < s.ninodes) (h : 0 < f (s.inode x)) : 0 < s.total f :=
  lt_of_lt_of_le h (Count.le_sum (range s.ninodes) (fun y => f (s.inode y)) (mem_range.2 hx))

theorem Fs.total_congr {f : Inode → Nat} (hn : s'.ninodes = s.ninodes) (h : ∀ y, f (s'.inode y) = f (s.inode y)) :
    s'.total f = s.total f := by
  unfold Fs.total
  rw [hn]
  exact sum_congr rfl fun y _ => h y

theorem Fs.exists_of_total_pos {f : Inode → Nat} (h : 0 < s.total f) : ∃ x, x < s.ninodes ∧ 0 < f (s.inode x) := by
  by_contra hno
  push Not at hno
  have : s.total f = 0 := by
    apply sum_eq_zero
    intro x hx
    have := hno x (mem_range.1 hx)
    omega
  omega

/-! ## The entries of one directory -/

/-- The regular entries of a directory that name `x`. -/
def Inode.names (i : Inode) (x : Nat) : Nat :=
  if i.type = .dir then (regular i.ents).countP fun e => e.inum ≠ 0 ∧ e.inum = x else 0

theorem Inode.names_of_not_dir (h : i.type ≠ .dir) : i.names x = 0 := if_neg h

variable {e : Dirent}

theorem Inode.names_pos (hi : i.type = .dir) (he : e ∈ regular i.ents) (h0 : e.inum ≠ 0) : 0 < i.names e.inum := by
  rw [Inode.names, if_pos hi, List.countP_pos_iff]
  exact ⟨e, he, by simpa using h0⟩

theorem Inode.exists_of_names_pos (h : 0 < i.names x) :
    i.type = .dir ∧ ∃ e ∈ regular i.ents, e.inum ≠ 0 ∧ e.inum = x := by
  unfold Inode.names at h
  split at h
  next hi =>
    obtain ⟨e, he, hp⟩ := List.countP_pos_iff.1 h
    exact ⟨hi, e, he, by simpa using hp⟩
  next => omega

theorem Inode.names_of_extends {name : Name} (hi : i.type = .dir) (hj : j.type = .dir) (hx : x ≠ 0)
    (h : Extends (regular i.ents) ⟨x, name⟩ (regular j.ents)) (y : Nat) :
    j.names y = i.names y + if y = x then 1 else 0 := by
  rw [Inode.names, if_pos hj, Inode.names, if_pos hi,
    h (fun e => decide (e.inum ≠ 0 ∧ e.inum = y)) (fun a ha => by simp [ha])]
  by_cases hyx : y = x
  · simp [hyx, hx]
  · have hxy : x ≠ y := fun h => hyx h.symm
    simp [hyx, hxy]

theorem Inode.names_congr (ht : j.type = i.type) (he : j.ents = i.ents) (x : Nat) : j.names x = i.names x := by
  rw [Inode.names, Inode.names, ht, he]

/-- The regular entries that name `x`, in all allocated directories. -/
def Fs.links (s : Fs) (x : Nat) : Nat := s.total (·.names x)

theorem Fs.links_setInode {dp : Nat} (hd : dp < s.ninodes) (i : Inode) (y : Nat) :
    (s.setInode dp i).links y + (s.inode dp).names y = s.links y + i.names y :=
  s.total_setInode (·.names y) i hd

theorem Image.unnamed (hi : Image s) (h0 : s.links x = 0) {d : Nat} (hd : (s.inode d).type = .dir)
    (he : e ∈ regular (s.inode d).ents) (hne : e.inum ≠ 0) : e.inum ≠ x := by
  rintro rfl
  have := Fs.total_pos (·.names e.inum) (hi.dir hd).2 (Inode.names_pos hd he hne)
  unfold Fs.links at h0
  omega

theorem mem_of_count {B B' : List Nat} (h : ∀ y, y ≠ x → B'.count y = B.count y) (hy : y ∈ B') (hyx : y ≠ x) :
    y ∈ B := by
  have hpos := List.count_pos_iff.2 hy
  rw [h y hyx] at hpos
  exact List.count_pos_iff.1 hpos

/-! ## The steps on two directories -/

/-- What `mkdir` does: the free inode `x` becomes an empty directory below `dp`, which gets an entry for it. -/
structure Made (s s' : Fs) (dp x : Nat) (name : Name) : Prop where
  inum : x ≠ 0
  free : (s.inode x).type = .free
  dir : (s.inode dp).type = .dir
  ref : s'.ref = s.ref
  other : ∀ y, y ≠ dp → y ≠ x → s'.inode y = s.inode y
  total : ∀ f : Inode → Nat, s'.total f + f (s.inode dp) + f (s.inode x) = s.total f + f (s'.inode dp) + f (s'.inode x)
  childType : (s'.inode x).type = .dir
  childLink : (s'.inode x).nlink = 1
  childEnts : regular (s'.inode x).ents = []
  childParent : parentOf (s'.inode x).ents = dp
  dirType : (s'.inode dp).type = .dir
  dirLink : (s'.inode dp).nlink = (s.inode dp).inc.nlink
  dirParent : parentOf (s'.inode dp).ents = parentOf (s.inode dp).ents
  entry : Extends (regular (s.inode dp).ents) ⟨x, name⟩ (regular (s'.inode dp).ents)

/-- What the removal of a directory does: `dp` loses its entry for the empty directory `x`, and both lose a link. -/
structure Removed (s s' : Fs) (dp x : Nat) (name : Name) : Prop where
  inum : x ≠ 0
  ne : x ≠ dp
  dir : (s.inode dp).type = .dir
  child : (s.inode x).type = .dir
  empty : ∀ e ∈ regular (s.inode x).ents, e.inum = 0
  ref : s'.ref = s.ref
  other : ∀ y, y ≠ dp → y ≠ x → s'.inode y = s.inode y
  total : ∀ f : Inode → Nat, s'.total f + f (s.inode x) + f (s.inode dp) = s.total f + f (s'.inode x) + f (s'.inode dp)
  gone : s'.inode x = (s.inode x).dec
  dirType : (s'.inode dp).type = .dir
  dirLink : (s'.inode dp).nlink = (s.inode dp).dec.nlink
  dirParent : parentOf (s'.inode dp).ents = parentOf (s.inode dp).ents
  entry : Extends (regular (s'.inode dp).ents) ⟨x, name⟩ (regular (s.inode dp).ents)

section Steps
variable {dp : Nat} {name : Name} {rest : List Dirent} {m : Int}

theorem Image.made (hi : Image s) (hx0 : x ≠ 0) (hlt : x < s.ninodes) (hf : (s.inode x).type = .free)
    (hd : (s.inode dp).type = .dir) (hrest : Extends (regular (s.inode dp).ents) ⟨x, name⟩ rest) :
    Made s ((s.setInode x ⟨.dir, m, 1, [⟨x, dot⟩, ⟨dp, dotdot⟩]⟩).setInode dp
      ((s.inode dp).setEnts (⟨dp, dot⟩ :: ⟨parentOf (s.inode dp).ents, dotdot⟩ :: rest)).inc) dp x name := by
  have hne : dp ≠ x := by
    rintro rfl
    rw [hd] at hf
    cases hf
  have hdp := (s.setInode x ⟨.dir, m, 1, [⟨x, dot⟩, ⟨dp, dotdot⟩]⟩).setInode_self dp
    ((s.inode dp).setEnts (⟨dp, dot⟩ :: ⟨parentOf (s.inode dp).ents, dotdot⟩ :: rest)).inc
  have hx := ((s.setInode x ⟨.dir, m, 1, [⟨x, dot⟩, ⟨dp, dotdot⟩]⟩).setInode_of_ne
    ((s.inode dp).setEnts (⟨dp, dot⟩ :: ⟨parentOf (s.inode dp).ents, dotdot⟩ :: rest)).inc hne.symm).trans
    (s.setInode_self x _)
  constructor
  case inum => exact hx0
  case free => exact hf
  case dir => exact hd
  case ref => rfl
  case other =>
    intro y hydp hyx
    rw [Fs.setInode_of_ne _ _ hydp, Fs.setInode_of_ne _ _ hyx]
  case total =>
    intro f
    rw [hdp, hx]
    exact s.total_two f hne (hi.dir hd).2 hlt _ _
  case dirType =>
    rw [hdp]
    exact hd
  case entry =>
    rw [hdp]
    exact hrest
  case childType | childLink => rw [hx]
  case childEnts | childParent => rw [hx]; rfl
  case dirLink | dirParent => rw [hdp]; rfl

theorem Image.removed (hi : Image s) (hne : x ≠ dp) (hd : (s.inode dp).type = .dir) (hx : (s.inode x).type = .dir)
    (hx0 : x ≠ 0) (hempty : ∀ e ∈ regular (s.inode x).ents, e.inum = 0)
    (hrest : Extends rest ⟨x, name⟩ (regular (s.inode dp).ents)) : Removed s ((s.setInode dp ((s.inode dp).setEnts
      (⟨dp, dot⟩ :: ⟨parentOf (s.inode dp).ents, dotdot⟩ :: rest)).dec).setInode x (s.inode x).dec) dp x name := by
  have hself := (s.setInode dp ((s.inode dp).setEnts
    (⟨dp, dot⟩ :: ⟨parentOf (s.inode dp).ents, dotdot⟩ :: rest)).dec).setInode_self x (s.inode x).dec
  have hdp := ((s.setInode dp ((s.inode dp).setEnts
    (⟨dp, dot⟩ :: ⟨parentOf (s.inode dp).ents, dotdot⟩ :: rest)).dec).setInode_of_ne
    (s.inode x).dec hne.symm).trans (s.setInode_self dp _)
  constructor
  case inum => exact hx0
  case ne => exact hne
  case dir => exact hd
  case child => exact hx
  case empty => exact hempty
  case ref => rfl
  case other =>
    intro y hydp hyx
    rw [Fs.setInode_of_ne _ _ hyx, Fs.setInode_of_ne _ _ hydp]
  case total =>
    intro f
    rw [hdp, hself]
    exact s.total_two f hne (hi.dir hx).2 (hi.dir hd).2 _ _
  case gone => exact hself
  case dirType =>
    rw [hdp]
    exact hd
  case entry =>
    rw [hdp]
    exact hrest
  case dirLink | dirParent => rw [hdp]; rfl

section
variable (h : Made s s' dp x name)
include h

theorem Made.ne (hy : (s.inode y).type ≠ .free) : y ≠ x := by
  rintro rfl
  exact hy h.free

theorem Made.ne_of_dir (hy : (s.inode y).type = .dir) : y ≠ x := h.ne (by rw [hy]; decide)

theorem Made.type (hyx : y ≠ x) : (s'.inode y).type = (s.inode y).type := by
  by_cases hy : y = dp
  · rw [hy, h.dirType, h.dir]
  · rw [h.other y hy hyx]

theorem Made.parent (hyx : y ≠ x) : parentOf (s'.inode y).ents = parentOf (s.inode y).ents := by
  by_cases hy : y = dp
  · rw [hy, h.dirParent]
  · rw [h.other y hy hyx]

theorem Made.mem_entries (hyx : y ≠ x) (he : e ∈ regular (s.inode y).ents)
    (h0 : e.inum ≠ 0) : e ∈ regular (s'.inode y).ents := by
  by_cases hy : y = dp
  · subst hy
    exact (h.entry.mem_iff h0).2 (.inr he)
  · rwa [h.other y hy hyx]

theorem Made.links (y : Nat) : s'.links y = s.links y + if y = x then 1 else 0 := by
  have hsum : s'.links y + _ + _ = s.links y + _ + _ := h.total (·.names y)
  have hold : (s.inode x).names y = 0 := Inode.names_of_not_dir (by rw [h.free]; decide)
  have hnew : (s'.inode x).names y = 0 := by
    rw [Inode.names, if_pos h.childType, h.childEnts]
    rfl
  have hdp := Inode.names_of_extends h.dir h.dirType h.inum h.entry y
  omega

end

section
variable (h : Removed s s' dp x name)
include h

theorem Removed.type (y : Nat) : (s'.inode y).type = (s.inode y).type := by
  by_cases hyx : y = x
  · rw [hyx, h.gone]
    rfl
  · by_cases hy : y = dp
    · rw [hy, h.dirType, h.dir]
    · rw [h.other y hy hyx]

theorem Removed.parent (y : Nat) : parentOf (s'.inode y).ents = parentOf (s.inode y).ents := by
  by_cases hyx : y = x
  · rw [hyx, h.gone]
    rfl
  · by_cases hy : y = dp
    · rw [hy, h.dirParent]
    · rw [h.other y hy hyx]

theorem Removed.mem_entries (h0 : e.inum ≠ 0) :
    e ∈ regular (s.inode y).ents ↔ e ∈ regular (s'.inode y).ents ∨ y = dp ∧ e = ⟨x, name⟩ := by
  by_cases hy : y = dp
  · subst hy
    rw [h.entry.mem_iff h0, or_comm]
    simp
  · by_cases hyx : y = x
    · rw [hyx, h.gone]
      simp [hyx ▸ hy, Inode.dec]
    · simp [h.other y hy hyx, hy]

theorem Removed.links (y : Nat) : s'.links y + (if y = x then 1 else 0) = s.links y := by
  have hsum : s'.links y + _ + _ = s.links y + _ + _ := h.total (·.names y)
  have hx : (s'.inode x).names y = (s.inode x).names y := by
    rw [h.gone]
    exact Inode.names_congr rfl rfl y
  have hdp := Inode.names_of_extends h.dirType h.dir h.inum h.entry y
  omega

end

theorem Image.clear (hi : Image s) (hd : (s.inode dp).type = .dir)
    (hrest : Extends rest ⟨x, name⟩ (regular (s.inode dp).ents)) :
    Image (s.setInode dp ((s.inode dp).setEnts (⟨dp, dot⟩ :: ⟨parentOf (s.inode dp).ents, dotdot⟩ :: rest))) := by
  have hok := hi.shape dp hd
  refine hi.setInode (fun _ => hi.dir hd) fun _ => .replace hok.parent ?_
  exact fun e he h0 => hok.names e ((hrest.mem_iff h0).2 (.inr he)) h0

end Steps

/-! ## Link counts as numbers -/

theorem Inode.inc_toNat (h : i.nlink ≠ -1) : i.inc.nlink.toNat = i.nlink.toNat + 1 := by
  have hne : i.nlink.toNat ≠ 65535 := by
    intro h65
    apply h
    apply BitVec.eq_of_toNat_eq
    rw [h65]
    rfl
  have hone : (1 : BitVec 16).toNat = 1 := rfl
  simp only [Inode.inc, BitVec.toNat_add, hone]
  omega

theorem Inode.dec_toNat (h : 0 < i.nlink.toNat) : i.dec.nlink.toNat + 1 = i.nlink.toNat := by
  have hone : (1 : BitVec 16).toNat = 1 := rfl
  simp only [Inode.dec, BitVec.toNat_sub, hone]
  omega

theorem toNat_pos_of_toInt {n : BitVec 16} (h : 0 < n.toInt) : 0 < n.toNat ∧ n.toNat < 32768 ∧ n ≠ -1 := by
  rw [BitVec.toInt_eq_toNat_cond] at h
  refine ⟨?_, ?_, ?_⟩
  · split at h <;> omega
  · split at h <;> omega
  · rintro rfl
    revert h
    decide

theorem toNat_eq_zero_iff {n : BitVec 16} : n.toNat = 0 ↔ n = 0 := by
  constructor
  · intro h
    exact BitVec.eq_of_toNat_eq h
  · rintro rfl
    rfl

theorem toInt_inc (h0 : 0 ≤ i.nlink.toInt) (h : i.nlink.toInt < 32767) : i.inc.nlink.toInt = i.nlink.toInt + 1 := by
  have hne : i.nlink ≠ -1 := by
    intro heq
    rw [heq] at h0
    exact absurd h0 (by decide)
  have hnat := i.inc_toNat hne
  rw [BitVec.toInt_eq_toNat_cond] at h0 h ⊢
  rw [BitVec.toInt_eq_toNat_cond, hnat]
  split at h0 <;> split <;> omega

theorem toInt_dec (h : 0 < i.nlink.toInt) : i.dec.nlink.toInt = i.nlink.toInt - 1 := by
  obtain ⟨hpos, hlt, -⟩ := toNat_pos_of_toInt h
  have hnat := i.dec_toNat hpos
  rw [BitVec.toInt_eq_toNat_cond, BitVec.toInt_eq_toNat_cond]
  split <;> split <;> omega

/-! ## The shape of the directories -/

theorem Image.micro (hi : Image c.fs) (h : Micro G c d) : Image d.fs := by
  cases h with
  | tau h1 h2 => exact ⟨by rw [h1, h2]; exact hi.range, by rw [h1]; exact hi.shape⟩
  | @free s s' B x ha hl h1 h2 hr =>
    have hset := hi.setInode (x := x) (i := (s.inode x).freed) (fun h => absurd rfl h) nofun
    exact ⟨by rw [h1, h2]; exact hset.range, by rw [h1]; exact hset.shape⟩
  | alloc x ty hx hlt hf hty =>
    exact hi.setInode (fun _ => ⟨hx, hlt⟩) fun h => absurd h hty.2
  | scratch x i hf hfree =>
    exact hi.setInode (fun h => absurd hfree h) fun h => by rw [hfree] at h; cases h
  | inc x m hx hg => exact hi.setInode (fun _ => hi.range x hx.1) fun h => absurd h hx.2
  | dec x hB hx => exact hi.setInode (fun _ => hi.range x hx.1) fun h => absurd h hx.2
  | enter d x name rest hB hd hx hx0 hname hrest hg =>
    have hok := hi.shape d hd
    refine hi.setInode (fun _ => hi.dir hd) fun _ => .replace hok.parent ?_
    intro e he h0
    rcases (hrest.mem_iff h0).1 he with rfl | he
    · exact hname
    · exact hok.names e he h0
  | mkdir d x m name rest hx0 hlt hf hd hname hrest hg =>
    have hok := hi.shape d hd
    have hdir := hi.dir hd
    refine (hi.setInode (fun _ => ⟨hx0, hlt⟩) fun _ => .replace hdir.1 (by simp)).setInode (fun _ => hdir)
      fun _ => .replace hok.parent ?_
    intro e he h0
    rcases (hrest.mem_iff h0).1 he with rfl | he
    · exact hname
    · exact hok.names e he h0
  | remove d x name rest hne hd hx hx0 hrest hl =>
    exact (hi.clear hd hrest).setInode (fun _ => hi.range x hx.1) fun h => absurd h hx.2
  | rmdir d x name rest hne hd hx hx0 hempty hrest hl hg =>
    have hok := hi.shape d hd
    refine (hi.setInode (fun _ => hi.dir hd) fun _ => .replace hok.parent ?_).setInode
      (fun _ => hi.dir hx) fun _ => hi.shape x hx
    exact fun e he h0 => hok.names e ((hrest.mem_iff h0).2 (.inr he)) h0

end Xv6Riscv.Dir
