import Xv6Riscv.Dir.Model
import Xv6Riscv.Lib.Count
import Xv6Riscv.Lib.Simulation

/-!
# What a system call can do to the name space

A call is a sequence of small steps: it takes and drops references, frees inodes, allocates one,
moves a link count, writes or clears a directory entry. `Micro` lists them. Making and removing a
directory are one small step each, because the counts of parent and child only match at its end.
The ghost part of a configuration is `pend`: the inodes whose link count was raised for an entry
that is not yet written (`sys_link` raises it first, `create` sets it to 1 first).

`Base` is what holds in every state without any condition on the calls.
-/
namespace Xv6Riscv.Dir
open Finset Simulation Function List
variable {ents rest : List Dirent} {e : Dirent} {d k x : Nat} {name : Name} {s : Fs} {T : List Nat}

/-! ## Directory content -/

/-- The entries after `"."` and `".."`. -/
def regular (ents : List Dirent) : List Dirent := ents.drop 2

/-- The inode number in the second slot, where `".."` is. -/
def parentOf (ents : List Dirent) : Nat := (ents.getD 1 .empty).inum

@[simp] theorem regular_cons (a b : Dirent) (rest : List Dirent) : regular (a :: b :: rest) = rest := rfl

@[simp] theorem parentOf_cons (a b : Dirent) (rest : List Dirent) : parentOf (a :: b :: rest) = b.inum := rfl

/-- The content of an allocated directory `d`. -/
structure DirOk (d : Nat) (ents : List Dirent) : Prop where
  split : ents = ⟨d, dot⟩ :: ⟨parentOf ents, dotdot⟩ :: regular ents
  parent : parentOf ents ≠ 0
  names : ∀ e ∈ regular ents, e.inum ≠ 0 → e.name ≠ dot ∧ e.name ≠ dotdot

/-- `more` has one entry more than `rest`, namely `e`; empty slots do not count. -/
def Extends (rest : List Dirent) (e : Dirent) (more : List Dirent) : Prop :=
  ∀ P : Dirent → Bool, (∀ a, a.inum = 0 → P a = false) → more.countP P = rest.countP P + (P e).toNat

theorem Extends.mem_iff {more : List Dirent} {a : Dirent} (h : Extends rest e more)
    (ha : a.inum ≠ 0) : a ∈ more ↔ a = e ∨ a ∈ rest := by
  have hP : ∀ b : Dirent, b.inum = 0 → decide (b = a) = false := by
    intro b hb
    simp only [decide_eq_false_iff_not]
    rintro rfl
    exact ha hb
  have hcount := h (fun b => decide (b = a)) hP
  have hmem : ∀ l : List Dirent, a ∈ l ↔ 0 < l.countP fun b => decide (b = a) := by
    intro l
    simp [countP_pos_iff]
  rw [hmem more, hmem rest, hcount]
  by_cases hea : e = a
  · simp [hea]
  · have hae : a ≠ e := fun h => hea h.symm
    simp [hea, hae]

theorem countP_set_add {α : Type} (P : α → Bool) (b : α) :
    ∀ (l : List α) (k : Nat) (a : α), l[k]? = some a →
      (l.set k b).countP P + (P a).toNat = l.countP P + (P b).toNat
  | [], k, a, h => by simp at h
  | c :: l, 0, a, h => by
    simp only [List.getElem?_cons_zero, Option.some.injEq] at h
    subst h
    simp only [set_cons_zero, countP_cons]
    cases P c <;> cases P b <;> simp
  | c :: l, k + 1, a, h => by
    simp only [List.getElem?_cons_succ] at h
    have ih := countP_set_add P b l k a h
    simp only [set_cons_succ, countP_cons]
    omega

theorem extends_clear (h : rest[k]? = some e) : Extends (rest.set k .empty) e rest := by
  intro P hP
  have hset := countP_set_add P .empty rest k e h
  simp only [hP .empty rfl, Bool.toNat_false, Nat.add_zero] at hset
  exact hset.symm

theorem DirOk.exists_cons (hok : DirOk d ents) : ∃ p rest, ents = ⟨d, dot⟩ :: ⟨p, dotdot⟩ :: rest :=
  ⟨_, _, hok.split⟩

theorem addEntry_extends {more : List Dirent} {full : Bool}
    (hd : d ≠ 0) (hok : DirOk d ents) (h : addEntry ents e full = some more) :
    ∃ rest, more = ⟨d, dot⟩ :: ⟨parentOf ents, dotdot⟩ :: rest ∧ Extends (regular ents) e rest := by
  have hparent := hok.parent
  obtain ⟨p, old, rfl⟩ := hok.exists_cons
  unfold addEntry at h
  split at h
  next k hk =>
    obtain ⟨a, hget, hempty⟩ : ∃ a, (⟨d, dot⟩ :: ⟨p, dotdot⟩ :: old : List Dirent)[k]? = some a ∧
        a.inum = 0 := by
      obtain ⟨hlt, hempty, -⟩ := List.findIdx?_eq_some_iff_getElem.1 hk
      exact ⟨_, List.getElem?_eq_getElem hlt, by simpa using hempty⟩
    cases h
    -- the first two slots are in use
    match k, hget with
    | 0, hget =>
      simp only [List.getElem?_cons_zero, Option.some.injEq] at hget
      rw [← hget] at hempty
      exact absurd hempty hd
    | 1, hget =>
      simp only [List.getElem?_cons_succ, List.getElem?_cons_zero, Option.some.injEq] at hget
      rw [← hget] at hempty
      exact absurd hempty hparent
    | k + 2, hget =>
      refine ⟨old.set k e, rfl, ?_⟩
      intro P hP
      have hset := countP_set_add P e old k _ hget
      rw [hP _ hempty] at hset
      simpa using hset
  next =>
    split at h
    · cases h
    · cases h
      refine ⟨old ++ [e], rfl, ?_⟩
      intro P _
      cases hPe : P e <;> simp [hPe]

theorem slotOf_eq_some (h : slotOf ents name = some k) : ∃ e, ents[k]? = some e ∧ e.inum ≠ 0 ∧ e.name = name := by
  obtain ⟨hlt, hp, -⟩ := List.findIdx?_eq_some_iff_getElem.1 h
  simp only [decide_eq_true_eq] at hp
  exact ⟨ents[k], List.getElem?_eq_getElem hlt, hp.1, hp.2⟩

theorem slotOf_eq_none (h : slotOf ents name = none) : ∀ e ∈ ents, e.inum ≠ 0 → e.name ≠ name := by
  intro e he hne heq
  have := (List.findIdx?_eq_none_iff.1 h) e he
  simp [hne, heq] at this

theorem DirOk.absent (hok : DirOk d ents) (hd : d ≠ 0) (h : slotOf ents name = none) : name ≠ dot ∧ name ≠ dotdot := by
  have hdot : (⟨d, dot⟩ : Dirent) ∈ ents := by rw [hok.split]; simp
  have hdotdot : (⟨parentOf ents, dotdot⟩ : Dirent) ∈ ents := by rw [hok.split]; simp
  exact ⟨(slotOf_eq_none h _ hdot hd).symm, (slotOf_eq_none h _ hdotdot hok.parent).symm⟩

theorem DirOk.slot (hok : DirOk d ents) (hk : ents[k]? = some e) (hdot : e.name ≠ dot) (hdotdot : e.name ≠ dotdot) :
    ∃ j, (regular ents)[j]? = some e ∧
      ents.set k .empty = ⟨d, dot⟩ :: ⟨parentOf ents, dotdot⟩ :: (regular ents).set j .empty := by
  obtain ⟨p, rest, rfl⟩ := hok.exists_cons
  match k, hk with
  | 0, hk =>
    simp only [List.getElem?_cons_zero, Option.some.injEq] at hk
    exact absurd (by rw [← hk]) hdot
  | 1, hk =>
    simp only [List.getElem?_cons_succ, List.getElem?_cons_zero, Option.some.injEq] at hk
    exact absurd (by rw [← hk]) hdotdot
  | j + 2, hk =>
    exact ⟨j, hk, rfl⟩

theorem DirOk.replace {p : Nat} (hp : p ≠ 0) (hn : ∀ e ∈ rest, e.inum ≠ 0 → e.name ≠ dot ∧ e.name ≠ dotdot) :
    DirOk d (⟨d, dot⟩ :: ⟨p, dotdot⟩ :: rest) :=
  ⟨rfl, hp, hn⟩

/-! ## Small steps -/

/-- A configuration: the state, and the link counts raised ahead of their entries. -/
structure Cfg where
  fs : Fs
  pend : List Nat

def Fs.setInode (s : Fs) (x : Nat) (i : Inode) : Fs := { s with inode := Function.update s.inode x i }

@[simp] theorem Fs.setInode_self (s : Fs) (x : Nat) (i : Inode) : (s.setInode x i).inode x = i :=
  update_self _ _ _

theorem Fs.setInode_of_ne (s : Fs) {y : Nat} (i : Inode) (h : y ≠ x) : (s.setInode x i).inode y = s.inode y :=
  update_of_ne h _ _

theorem Fs.setInode_congr {α : Type} (s : Fs) {i : Inode} (f : Inode → α) (h : f i = f (s.inode x)) (y : Nat) :
    f ((s.setInode x i).inode y) = f (s.inode y) := by
  by_cases hy : y = x
  · rw [hy, Fs.setInode_self, h]
  · rw [Fs.setInode_of_ne _ _ hy]

@[simp] theorem Fs.setInode_setInode (s : Fs) (x : Nat) (i j : Inode) :
    (s.setInode x i).setInode x j = s.setInode x j := by
  simp [Fs.setInode]

/-- An inode that a path or a reference can lead to. -/
def Named (s : Fs) (x : Nat) : Prop :=
  x = ROOTINO ∨ (s.inode x).type ≠ .free ∨
    ∃ d, (s.inode d).type = .dir ∧ ∃ e ∈ (s.inode d).ents, e.inum ≠ 0 ∧ e.inum = x

/-- What a theorem about the name space asks of the calls, at the small steps they consist of. -/
structure Guard where
  /-- the link count of an inode about to gain a link -/
  inc : BitVec 16 → Prop
  /-- the link count of a directory about to gain an entry for a file or device -/
  enter : BitVec 16 → Prop
  /-- the link count of a directory about to gain a subdirectory -/
  mkdir : BitVec 16 → Prop
  /-- a directory about to be removed must not be the `".."` of another allocated directory -/
  childless : Prop
  inc_zero : inc 0

/-- No allocated directory other than `x` itself has `x` as its `".."`. -/
def Childless (s : Fs) (x : Nat) : Prop :=
  ∀ c, c ≠ x → (s.inode c).type = .dir → parentOf (s.inode c).ents ≠ x

inductive Micro (G : Guard) : Cfg → Cfg → Prop
  /-- References are taken or dropped; a new one is to a named inode. -/
  | tau {s s' : Fs} {B : List Nat} (hi : s'.inode = s.inode) (hn : s'.ninodes = s.ninodes)
      (hr : ∀ x, 0 < s'.ref x → 0 < s.ref x ∨ Named s x) : Micro G ⟨s, B⟩ ⟨s', B⟩
  /-- The last reference to an inode without links is dropped. -/
  | free {s s' : Fs} {B : List Nat} (x : Nat) (ha : (s.inode x).type ≠ .free)
      (hl : (s.inode x).nlink = 0) (hi : s'.inode = Function.update s.inode x (s.inode x).freed)
      (hn : s'.ninodes = s.ninodes) (hr : ∀ y, 0 < s'.ref y → y ≠ x ∧ 0 < s.ref y) :
      Micro G ⟨s, B⟩ ⟨s', B⟩
  /-- A free inode becomes a file or device. -/
  | alloc {s : Fs} {B : List Nat} (x : Nat) (ty : IType) (hx : x ≠ 0) (hlt : x < s.ninodes)
      (hf : (s.inode x).type = .free) (hty : ty ≠ .free ∧ ty ≠ .dir) :
      Micro G ⟨s, B⟩ ⟨s.setInode x ⟨ty, 0, 0, []⟩, B⟩
  /-- A free inode is used and given back. -/
  | scratch {s : Fs} {B : List Nat} (x : Nat) (i : Inode) (hf : (s.inode x).type = .free)
      (hi : i.type = .free) : Micro G ⟨s, B⟩ ⟨s.setInode x i, B⟩
  /-- A link count is raised ahead of the entry. -/
  | inc {s : Fs} {B : List Nat} (x : Nat) (m : Int)
      (hx : (s.inode x).type ≠ .free ∧ (s.inode x).type ≠ .dir) (hg : G.inc (s.inode x).nlink) :
      Micro G ⟨s, B⟩ ⟨s.setInode x { (s.inode x).inc with major := m }, x :: B⟩
  /-- The entry could not be written. -/
  | dec {s : Fs} {B : List Nat} (x : Nat) (hB : x ∈ B)
      (hx : (s.inode x).type ≠ .free ∧ (s.inode x).type ≠ .dir) :
      Micro G ⟨s, B⟩ ⟨s.setInode x (s.inode x).dec, B.erase x⟩
  /-- The entry of a file or device whose link count was raised. -/
  | enter {s : Fs} {B : List Nat} (d x : Nat) (name : Name) (rest : List Dirent) (hB : x ∈ B)
      (hd : (s.inode d).type = .dir) (hx : (s.inode x).type ≠ .free ∧ (s.inode x).type ≠ .dir)
      (hx0 : x ≠ 0) (hname : name ≠ dot ∧ name ≠ dotdot)
      (hrest : Extends (regular (s.inode d).ents) ⟨x, name⟩ rest) (hg : G.enter (s.inode d).nlink) :
      Micro G ⟨s, B⟩ ⟨s.setInode d ((s.inode d).setEnts
        (⟨d, dot⟩ :: ⟨parentOf (s.inode d).ents, dotdot⟩ :: rest)), B.erase x⟩
  /-- A new directory `x` in `d`. -/
  | mkdir {s : Fs} {B : List Nat} (d x : Nat) (m : Int) (name : Name) (rest : List Dirent)
      (hx0 : x ≠ 0) (hlt : x < s.ninodes) (hf : (s.inode x).type = .free)
      (hd : (s.inode d).type = .dir) (hname : name ≠ dot ∧ name ≠ dotdot)
      (hrest : Extends (regular (s.inode d).ents) ⟨x, name⟩ rest) (hg : G.mkdir (s.inode d).nlink) :
      Micro G ⟨s, B⟩ ⟨(s.setInode x ⟨.dir, m, 1, [⟨x, dot⟩, ⟨d, dotdot⟩]⟩).setInode d
        ((s.inode d).setEnts (⟨d, dot⟩ :: ⟨parentOf (s.inode d).ents, dotdot⟩ :: rest)).inc, B⟩
  /-- The entry of a file or device `x` is cleared. -/
  | remove {s : Fs} {B : List Nat} (d x : Nat) (name : Name) (rest : List Dirent) (hne : x ≠ d)
      (hd : (s.inode d).type = .dir) (hx : (s.inode x).type ≠ .free ∧ (s.inode x).type ≠ .dir)
      (hx0 : x ≠ 0) (hrest : Extends rest ⟨x, name⟩ (regular (s.inode d).ents))
      (hl : 1 ≤ (s.inode x).nlink.toInt) :
      Micro G ⟨s, B⟩ ⟨(s.setInode d ((s.inode d).setEnts
        (⟨d, dot⟩ :: ⟨parentOf (s.inode d).ents, dotdot⟩ :: rest))).setInode x (s.inode x).dec, B⟩
  /-- The entry of an empty directory `x` is cleared. -/
  | rmdir {s : Fs} {B : List Nat} (d x : Nat) (name : Name) (rest : List Dirent) (hne : x ≠ d)
      (hd : (s.inode d).type = .dir) (hx : (s.inode x).type = .dir) (hx0 : x ≠ 0)
      (hempty : ∀ e ∈ regular (s.inode x).ents, e.inum = 0)
      (hrest : Extends rest ⟨x, name⟩ (regular (s.inode d).ents))
      (hl : 1 ≤ (s.inode x).nlink.toInt) (hg : G.childless → Childless s x) :
      Micro G ⟨s, B⟩ ⟨(s.setInode d ((s.inode d).setEnts
        (⟨d, dot⟩ :: ⟨parentOf (s.inode d).ents, dotdot⟩ :: rest)).dec).setInode x (s.inode x).dec, B⟩

/-- What a panic shows about the configuration it happens in. -/
def bad : Panic → Cfg → Prop
  | .noType, c => ∃ x, 0 < c.fs.ref x ∧ (c.fs.inode x).type = .free
  | .nlink, c => ∃ d, (c.fs.inode d).type = .dir ∧ ∃ e ∈ regular (c.fs.inode d).ents,
      e.inum ≠ 0 ∧ (c.fs.inode e.inum).nlink.toInt < 1
  | _, _ => True

def ghost (G : Guard) : Ghost Fs Cfg Panic := ⟨Cfg.fs, Micro G, bad⟩

/-! ## What holds without conditions -/

def cwdRef (c : Option Nat) (x : Nat) : Nat := if c = some x then 1 else 0

def fileRef (f : File) (x : Nat) : Nat := if 0 < f.ref ∧ f.ip = some x then 1 else 0

/-- The references to inode `x` kept between calls: current directories and open files. -/
def Fs.owners (s : Fs) (x : Nat) : Nat :=
  ∑ p ∈ range NPROC, cwdRef (s.cwd p) x + ∑ f ∈ range NFILE, fileRef (s.file f) x

/-- The inodes in themselves: allocated ones have a number, directories have their first two entries. -/
structure Image (s : Fs) : Prop where
  range : ∀ x, (s.inode x).type ≠ .free → x ≠ 0 ∧ x < s.ninodes
  shape : ∀ d, (s.inode d).type = .dir → DirOk d (s.inode d).ents

/-- The references are exact, counting those in the local variables `T` of the running call. -/
structure Base (T : List Nat) (s : Fs) : Prop extends Image s where
  refs : ∀ x, s.ref x = s.owners x + T.count x
  fresh : ∀ x, 0 < s.ref x → s.valid x = true → (s.inode x).type ≠ .free
  owned : ∀ x, 0 < s.owners x → (s.inode x).type ≠ .free
  files : ∀ p fd f, s.ofile p fd = some f → f < NFILE
  bound : s.ninodes ≤ 2 ^ 16

theorem Image.dir (hi : Image s) (hd : (s.inode d).type = .dir) : d ≠ 0 ∧ d < s.ninodes :=
  hi.range d (by rw [hd]; decide)

theorem Image.setInode (hi : Image s) {i : Inode}
    (hx : i.type ≠ .free → x ≠ 0 ∧ x < s.ninodes) (hs : i.type = .dir → DirOk x i.ents) : Image (s.setInode x i) where
  range := by
    intro y hy
    by_cases hyx : y = x
    · subst hyx
      simp only [Fs.setInode, update_self] at hy
      exact hx hy
    · simp only [Fs.setInode, update_of_ne hyx] at hy
      exact hi.range y hy
  shape := by
    intro d hd
    by_cases hdx : d = x
    · subst hdx
      simp only [Fs.setInode, update_self] at hd ⊢
      exact hs hd
    · simp only [Fs.setInode, update_of_ne hdx] at hd ⊢
      exact hi.shape d hd

theorem Base.ref_pos (hb : Base T s) (hx : x ∈ T) : 0 < s.ref x := by
  have := count_pos_iff.2 hx
  have := hb.refs x
  omega

theorem Base.perm {T' : List Nat} (hb : Base T s) (h : T.Perm T') : Base T' s :=
  { hb with refs := fun x => h.count_eq x ▸ hb.refs x }

theorem Base.swap {y : Nat} (hb : Base (x :: y :: T) s) : Base (y :: x :: T) s :=
  hb.perm (.swap y x T)

def Fs.setRefs (s : Fs) (ref : Nat → Nat) (valid : Nat → Bool) : Fs :=
  { s with ref := ref, valid := valid }

theorem Base.reref {T' : List Nat} (hb : Base T s) {ref : Nat → Nat} {valid : Nat → Bool}
    (hr : ∀ x, ref x = s.owners x + T'.count x) (hv : ∀ x, 0 < ref x → valid x = true → (s.inode x).type ≠ .free) :
    Base T' (s.setRefs ref valid) where
  refs := hr
  fresh := hv
  owned := hb.owned
  files := hb.files
  bound := hb.bound
  range := hb.range
  shape := hb.shape

theorem Base.setInode (hb : Base T s) {i : Inode}
    (hx : i.type ≠ .free → x ≠ 0 ∧ x < s.ninodes) (hi : i.type = .free → s.ref x = 0)
    (hs : i.type = .dir → DirOk x i.ents) : Base T (s.setInode x i) where
  toImage := hb.toImage.setInode hx hs
  refs := hb.refs
  fresh := by
    intro y hy hv
    by_cases hyx : y = x
    · subst hyx
      simp only [Fs.setInode, update_self]
      intro hfree
      have : 0 < s.ref y := hy
      have := hi hfree
      omega
    · simp only [Fs.setInode, update_of_ne hyx]
      exact hb.fresh y hy hv
  owned := by
    intro y hy
    by_cases hyx : y = x
    · subst hyx
      simp only [Fs.setInode, update_self]
      intro hfree
      have := hi hfree
      have := hb.refs y
      have : 0 < s.owners y := hy
      omega
    · simp only [Fs.setInode, update_of_ne hyx]
      exact hb.owned y hy
  files := hb.files
  bound := hb.bound

end Xv6Riscv.Dir
