import Xv6Riscv.Dir.Steps

/-!
# Looking up a path

`namex` takes a reference to every directory on the way and drops it again, and dropping one may free
a directory that was removed meanwhile. `walk` is the path resolution it implements, as a function
of the state the call starts in; `namex_sim` connects the two.
-/
namespace Xv6Riscv.Dir
open Simulation Function List

variable {G : Guard} {T : List Nat} {c d e : Cfg} {s s' : Fs} {x : Nat}

/-! ## The elements of a path -/

/-- All words of a path. -/
def allWords (path : List Char) : List (List Char) :=
  if (words path).1 = [] then (words path).2 else (words path).1 :: (words path).2

theorem elems_eq (path : List Char) : elems path = (allWords path).map (List.take DIRSIZ) := rfl

theorem words_eq (path : List Char) : words path = (path.takeWhile (· ≠ '/'), allWords (path.dropWhile (· ≠ '/'))) := by
  induction path with
  | nil => rfl
  | cons ch path ih =>
    by_cases hch : ch = '/'
    · simp [words, allWords, hch]
    · simp [words, hch, ih]

theorem allWords_slash (path : List Char) : allWords (path.dropWhile (· = '/')) = allWords path := by
  induction path with
  | nil => rfl
  | cons ch path ih =>
    by_cases hch : ch = '/'
    · subst hch
      simp only [decide_true, dropWhile_cons_of_pos, ih]
      simp [allWords, words]
    · simp [hch]

/-- **`elems` is `skipelem` iterated.** No element is left when `skipelem` returns 0; otherwise its
element comes first and the elements of the returned path follow. -/
theorem elems_skipelem (path : List Char) :
    elems path = match skipelem path with
      | none => []
      | some (name, rest) => name :: elems rest := by
  rw [elems_eq, ← allWords_slash]
  unfold skipelem
  cases hpath : path.dropWhile (· = '/') with
  | nil => rfl
  | cons ch rest =>
    have hch : ch ≠ '/' := by
      have := head_dropWhile_not (· = '/') (l := path) (by rw [hpath]; simp)
      simpa [hpath] using this
    have hwords := words_eq (ch :: rest)
    simp only [takeWhile_cons, dropWhile_cons, hch, ne_eq, not_false_eq_true, decide_true,
      if_true] at hwords ⊢
    rw [elems_eq, allWords_slash, allWords, hwords]
    simp

/-! ## Path resolution in one state -/

def lookup (s : Fs) (d : Nat) (name : Name) : Option Nat :=
  if (s.inode d).type = .dir then
    (slotOf (s.inode d).ents name).map fun k => ((s.inode d).ents.getD k .empty).inum
  else none

def walk (s : Fs) : Nat → List Name → Option Nat
  | x, [] => some x
  | x, name :: rest => (lookup s x name).bind fun y => walk s y rest

/-- The directory one level above the last element, and that element. -/
def walkParent (s : Fs) : Nat → List Name → Option (Nat × Name)
  | _, [] => none
  | x, name :: rest =>
    if rest = [] then if (s.inode x).type = .dir then some (x, name) else none
    else (lookup s x name).bind fun y => walkParent s y rest

/-- The inode a path starts from. -/
def startOf (cwd : Nat) (path : List Char) : Nat := if path.head? = some '/' then ROOTINO else cwd

def resolve (s : Fs) (cwd : Nat) (path : List Char) : Option Nat :=
  walk s (startOf cwd path) (elems path)

def resolveParent (s : Fs) (cwd : Nat) (path : List Char) : Option (Nat × Name) :=
  walkParent s (startOf cwd path) (elems path)

/-- Every directory of `s'` was the same directory in `s`. -/
def SameDirs (s s' : Fs) : Prop := ∀ x, (s'.inode x).type = .dir → s.inode x = s'.inode x

theorem SameDirs.trans {s'' : Fs} (h : SameDirs s s') (k : SameDirs s' s'') : SameDirs s s'' := by
  intro x hx
  have hk := k x hx
  rw [← hk] at hx ⊢
  exact h x hx

variable {name : Name}

theorem SameDirs.lookup {y : Nat} (h : SameDirs s s') (hl : lookup s' x name = some y) :
    lookup s x name = some y := by
  unfold Dir.lookup at hl ⊢
  split at hl
  next hd => rwa [h x hd, if_pos hd]
  next => cases hl

theorem SameDirs.walk (h : SameDirs s s') :
    ∀ {ns : List Name} {x y : Nat}, walk s' x ns = some y → walk s x ns = some y
  | [], _, _, hw => hw
  | name :: rest, x, y, hw => by
    obtain ⟨z, hz, hw⟩ := Option.bind_eq_some_iff.1 hw
    exact Option.bind_eq_some_iff.2 ⟨z, h.lookup hz, h.walk hw⟩

theorem SameDirs.walkParent (h : SameDirs s s') :
    ∀ {ns : List Name} {x : Nat} {r : Nat × Name}, walkParent s' x ns = some r → walkParent s x ns = some r
  | [], _, _, hw => hw
  | name :: rest, x, r, hw => by
    unfold Dir.walkParent at hw ⊢
    split at hw
    next hrest =>
      rw [if_pos hrest]
      split at hw
      next hd => rwa [h x hd, if_pos hd]
      next => cases hw
    next hrest =>
      rw [if_neg hrest]
      obtain ⟨z, hz, hw⟩ := Option.bind_eq_some_iff.1 hw
      exact Option.bind_eq_some_iff.2 ⟨z, h.lookup hz, h.walkParent hw⟩

/-! ## Calls that only look -/

/-- Nothing but references changed. -/
structure Kept (c d : Cfg) : Prop where
  inode : d.fs.inode = c.fs.inode
  ninodes : d.fs.ninodes = c.fs.ninodes
  cwd : d.fs.cwd = c.fs.cwd
  ofile : d.fs.ofile = c.fs.ofile
  file : d.fs.file = c.fs.file
  pend : d.pend = c.pend

/-- Only references changed, and inodes without links were freed, none of those held in `T`. -/
structure Quiet (T : List Nat) (c d : Cfg) : Prop where
  ninodes : d.fs.ninodes = c.fs.ninodes
  cwd : d.fs.cwd = c.fs.cwd
  ofile : d.fs.ofile = c.fs.ofile
  file : d.fs.file = c.fs.file
  pend : d.pend = c.pend
  held : ∀ x ∈ T, d.fs.inode x = c.fs.inode x
  inode : ∀ x, d.fs.inode x = c.fs.inode x ∨ (d.fs.inode x).type = .free

theorem Kept.refl (c : Cfg) : Kept c c := ⟨rfl, rfl, rfl, rfl, rfl, rfl⟩

theorem Kept.quiet (h : Kept c d) (T : List Nat) : Quiet T c d where
  ninodes := h.ninodes
  cwd := h.cwd
  ofile := h.ofile
  file := h.file
  pend := h.pend
  held := fun x _ => congrFun h.inode x
  inode := fun x => .inl (congrFun h.inode x)

theorem Kept.trans (h : Kept c d) (k : Kept d e) : Kept c e :=
  ⟨k.inode.trans h.inode, k.ninodes.trans h.ninodes, k.cwd.trans h.cwd, k.ofile.trans h.ofile,
    k.file.trans h.file, k.pend.trans h.pend⟩

section
variable (h : Quiet T c d)
include h

theorem Quiet.trans (k : Quiet T d e) : Quiet T c e where
  ninodes := k.ninodes.trans h.ninodes
  cwd := k.cwd.trans h.cwd
  ofile := k.ofile.trans h.ofile
  file := k.file.trans h.file
  pend := k.pend.trans h.pend
  held := fun x hx => (k.held x hx).trans (h.held x hx)
  inode := by
    intro x
    rcases k.inode x with hk | hk
    · rcases h.inode x with hh | hh
      · exact .inl (hk.trans hh)
      · exact .inr (hk ▸ hh)
    · exact .inr hk

theorem Quiet.mono {U : List Nat} (hsub : ∀ x ∈ U, x ∈ T) : Quiet U c d :=
  { h with held := fun x hx => h.held x (hsub x hx) }

theorem Quiet.alloc (hx : (d.fs.inode x).type ≠ .free) : d.fs.inode x = c.fs.inode x :=
  (h.inode x).resolve_right hx

theorem Quiet.owners (x : Nat) : d.fs.owners x = c.fs.owners x := by
  unfold Fs.owners
  rw [h.cwd, h.file]

theorem Quiet.sameDirs : SameDirs c.fs d.fs := by
  intro x hx
  exact (h.alloc (by rw [hx]; decide)).symm

end

/-! ## The inode table -/

variable {β : Type}

theorem get_bind (f : Fs → M β) : ((get : M Fs) >>= f) s = f s s := rfl

theorem load_bind (f : Inode → M β) : (load x >>= f) s = f (s.inode x) s := rfl

theorem store_bind (i : Inode) (f : Unit → M β) : (store x i >>= f) s = f () (s.setInode x i) := rfl

theorem bind_run {α : Type} {m : M α} {f : α → M β} {a : α} {s' : Fs} (h : m s = .ok (a, s')) :
    (m >>= f) s = f a s' := by
  have hbind : (m >>= f) s = (m s).bind fun as => f as.1 as.2 := rfl
  rw [hbind, h]
  rfl

/-- One more reference to `x`; a table entry taken into use is not valid. -/
def Fs.ref1 (s : Fs) (x : Nat) (valid : Nat → Bool) : Fs :=
  s.setRefs (update s.ref x (s.ref x + 1)) valid

theorem Base.count_get {n : Nat} (hb : Base T s) (hn : n = s.ref x + 1) (y : Nat) :
    update s.ref x n y = s.owners y + (x :: T).count y := by
  have hy := hb.refs y
  by_cases hyx : y = x
  · subst hyx
    rw [update_self, count_cons_self]
    omega
  · rw [update_of_ne hyx, count_cons_of_ne (fun h => hyx h.symm)]
    exact hy

theorem Base.get {valid : Nat → Bool} (hb : Base T s)
    (hv : ∀ y, valid y = true → s.valid y = true ∧ (y = x → 0 < s.ref x)) : Base (x :: T) (s.ref1 x valid) := by
  refine hb.reref (hb.count_get rfl) fun y hy hvy => ?_
  obtain ⟨hval, hpos⟩ := hv y hvy
  refine hb.fresh y ?_ hval
  by_cases hyx : y = x
  · exact hyx ▸ hpos hyx
  · rwa [update_of_ne hyx] at hy

theorem micro_get (valid : Nat → Bool) (hn : 0 < c.fs.ref x ∨ Named c.fs x) :
    Micro G c ⟨c.fs.ref1 x valid, c.pend⟩ := by
  refine .tau rfl rfl ?_
  intro y hy
  by_cases hyx : y = x
  · exact hyx ▸ hn
  · have hupd : (c.fs.ref1 x valid).ref y = c.fs.ref y := update_of_ne hyx _ _
    exact .inl (hupd ▸ hy)

theorem iget_sim (hb : Base T c.fs) (hn : Named c.fs x) :
    Sim (ghost G) c (iget x c.fs) fun a d => a = x ∧ Kept c d ∧ Base (x :: T) d.fs := by
  unfold iget
  split
  next hpos =>
    refine Sim.ok_step (micro_get c.fs.valid (.inr hn)) rfl ⟨rfl, ⟨rfl, rfl, rfl, rfl, rfl, rfl⟩, ?_⟩
    exact hb.get fun y hy => ⟨hy, fun _ => hpos⟩
  next hpos =>
    have hzero : c.fs.ref x = 0 := by omega
    split
    · refine Sim.ok_step (micro_get (update c.fs.valid x false) (.inr hn)) ?_
        ⟨rfl, ⟨rfl, rfl, rfl, rfl, rfl, rfl⟩, hb.get ?_⟩
      · simp only [ghost, Fs.ref1, Fs.setRefs, hzero]
      intro y hy
      by_cases hyx : y = x
      · rw [hyx, update_self] at hy
        cases hy
      · rw [update_of_ne hyx] at hy
        exact ⟨hy, fun h => absurd h hyx⟩
    · exact Sim.error trivial

theorem idup_sim (hb : Base T c.fs) (hx : 0 < c.fs.ref x) :
    Sim (ghost G) c (idup x c.fs) fun a d => a = x ∧ Kept c d ∧ Base (x :: T) d.fs :=
  Sim.ok_step (micro_get c.fs.valid (.inl hx)) rfl
    ⟨rfl, ⟨rfl, rfl, rfl, rfl, rfl, rfl⟩, hb.get fun _ hy => ⟨hy, fun _ => hx⟩⟩

theorem ilock_sim (hb : Base T c.fs) (hx : x ∈ T) : Sim (ghost G) c (ilock x c.fs) fun _ d =>
      Kept c d ∧ Base T d.fs ∧ (c.fs.inode x).type ≠ .free := by
  have hpos := hb.ref_pos hx
  unfold ilock
  split
  next => exact Sim.error trivial
  next =>
    split
    next hv => exact Sim.ok rfl ⟨Kept.refl c, hb, hb.fresh x hpos hv⟩
    next =>
      split
      next hfree => exact Sim.error ⟨x, hpos, hfree⟩
      next hfree =>
        have hstep : Micro G c ⟨c.fs.setRefs c.fs.ref (update c.fs.valid x true), c.pend⟩ :=
          .tau rfl rfl fun _ hy => .inl hy
        refine Sim.ok_step hstep rfl ⟨⟨rfl, rfl, rfl, rfl, rfl, rfl⟩, hb.reref hb.refs ?_, hfree⟩
        intro y hy hv
        by_cases hyx : y = x
        · exact hyx ▸ hfree
        · rw [update_of_ne hyx] at hv
          exact hb.fresh y hy hv

theorem Base.count_put (hb : Base (x :: T) s) (y : Nat) : update s.ref x (s.ref x - 1) y = s.owners y + T.count y := by
  have hy := hb.refs y
  by_cases hyx : y = x
  · subst hyx
    rw [update_self]
    rw [count_cons_self] at hy
    omega
  · rw [update_of_ne hyx]
    rwa [count_cons_of_ne (fun h => hyx h.symm)] at hy

/-- The state after the last reference to `x` freed it. -/
def Fs.drop (s : Fs) (x : Nat) : Fs :=
  (s.setRefs (update s.ref x (s.ref x - 1)) (update s.valid x false)).setInode x
    (s.inode x).freed

theorem iput_free_sim (hb : Base (x :: T) c.fs) (hone : c.fs.ref x = 1) (hv : c.fs.valid x = true)
    (hl : (c.fs.inode x).nlink = 0) : Sim (ghost G) c (.ok ((), c.fs.drop x)) fun _ d => Quiet T c d ∧ Base T d.fs := by
  have hx := hb.refs x
  rw [count_cons_self] at hx
  have halloc := hb.fresh x (by omega) hv
  -- the reference given up was the only one: neither `T` nor an owner has another
  have hne : ∀ y ∈ T, y ≠ x := by
    rintro y hy rfl
    have := count_pos_iff.2 hy
    omega
  have hzero : (c.fs.drop x).ref x = 0 := by
    simp only [Fs.drop, Fs.setInode, Fs.setRefs, update_self]
    omega
  have hother : ∀ y, y ≠ x → (c.fs.drop x).ref y = c.fs.ref y ∧ (c.fs.drop x).inode y = c.fs.inode y :=
    fun y hyx => ⟨update_of_ne hyx _ _, update_of_ne hyx _ _⟩
  have hput : Micro G c ⟨c.fs.drop x, c.pend⟩ := by
    refine .free x halloc hl rfl rfl ?_
    intro y hy
    have hyx : y ≠ x := by rintro rfl; omega
    exact ⟨hyx, (hother y hyx).1 ▸ hy⟩
  refine Sim.ok_step hput rfl ⟨⟨rfl, rfl, rfl, rfl, rfl, ?_, ?_⟩, ?_⟩
  · intro y hy
    exact (hother y (hne y hy)).2
  · intro y
    by_cases hyx : y = x
    · subst hyx
      exact .inr (by simp [Fs.drop, Fs.setInode, Inode.freed])
    · exact .inl (hother y hyx).2
  · refine Base.setInode (hb.reref hb.count_put ?_) (fun _ => hb.range x halloc) (fun _ => hzero) (by rintro ⟨⟩)
    intro y hy hvy
    have hyx : y ≠ x := by
      rintro rfl
      rw [update_self] at hvy
      cases hvy
    rw [update_of_ne hyx] at hy hvy
    exact hb.fresh y hy hvy

theorem iput_sim (hb : Base (x :: T) c.fs) : Sim (ghost G) c (iput x c.fs) fun _ d => Quiet T c d ∧ Base T d.fs := by
  unfold iput
  split
  next h => exact iput_free_sim hb h.1 h.2.1 h.2.2
  next =>
    have hpos : 0 < c.fs.ref x := hb.ref_pos mem_cons_self
    have hdown : ∀ y, 0 < update c.fs.ref x (c.fs.ref x - 1) y → 0 < c.fs.ref y := by
      intro y hy
      by_cases hyx : y = x
      · exact hyx ▸ hpos
      · rwa [update_of_ne hyx] at hy
    have hput : Micro G c ⟨c.fs.setRefs (update c.fs.ref x (c.fs.ref x - 1)) c.fs.valid, c.pend⟩ :=
      .tau rfl rfl fun y hy => .inl (hdown y hy)
    have hkept : Kept c ⟨c.fs.setRefs (update c.fs.ref x (c.fs.ref x - 1)) c.fs.valid, c.pend⟩ :=
      ⟨rfl, rfl, rfl, rfl, rfl, rfl⟩
    refine Sim.ok_step hput rfl ⟨hkept.quiet T, hb.reref hb.count_put ?_⟩
    intro y hy hvy
    exact hb.fresh y (hdown y hy) hvy

theorem iunlockput_sim (hb : Base (x :: T) c.fs) :
    Sim (ghost G) c (iunlockput x c.fs) fun _ d => Quiet T c d ∧ Base T d.fs :=
  iput_sim hb

/-! ## `dirlookup` and `namex` -/

/-- What `dirlookup` returned in `c`: a held entry, or no entry of that name. -/
def Looked (T : List Nat) (c : Cfg) (dp : Nat) (name : Name) (d : Cfg) : Option (Nat × Nat) → Prop
  | none => slotOf (c.fs.inode dp).ents name = none ∧ Base T d.fs
  | some (ip, k) => slotOf (c.fs.inode dp).ents name = some k ∧
      ip = ((c.fs.inode dp).ents.getD k .empty).inum ∧ Base (ip :: T) d.fs

theorem dirlookup_sim {dp : Nat} (hb : Base T c.fs) (hd : (c.fs.inode dp).type = .dir) :
    Sim (ghost G) c (dirlookup dp name c.fs) fun r d => Kept c d ∧ Looked T c dp name d r := by
  unfold dirlookup
  rw [load_bind, if_neg (not_not.2 hd)]
  cases hslot : slotOf (c.fs.inode dp).ents name with
  | none => exact Sim.ok rfl ⟨Kept.refl c, hslot, hb⟩
  | some k =>
    obtain ⟨e, he, hne, -⟩ := slotOf_eq_some hslot
    have hget : (c.fs.inode dp).ents.getD k .empty = e := by
      rw [getD_eq_getElem?_getD, he]
      rfl
    have hnamed : Named c.fs ((c.fs.inode dp).ents.getD k .empty).inum := by
      rw [hget]
      exact .inr (.inr ⟨dp, hd, e, mem_of_getElem? he, hne, rfl⟩)
    refine Sim.bind (iget_sim hb hnamed) ?_
    rintro ip d - ⟨rfl, hkept, hbase⟩
    exact Sim.ok rfl ⟨hkept, hslot, rfl, hbase⟩

theorem Looked.lookup {dp ip k : Nat} (h : Looked T c dp name d (some (ip, k)))
    (hd : (c.fs.inode dp).type = .dir) : lookup c.fs dp name = some ip := by
  unfold Dir.lookup
  rw [if_pos hd, h.1, h.2.1]
  rfl

/-- What a lookup that started in `c` returned, and the references held afterwards. -/
def Found (parent : Bool) (T : List Nat) (c : Cfg) (x : Nat) (ns : List Name) (d : Cfg) :
    Option (Nat × Name) → Prop
  | none => Base T d.fs
  | some (ip, name) => Base (ip :: T) d.fs ∧
      if parent then walkParent c.fs x ns = some (ip, name) ∧ (d.fs.inode ip).type = .dir
      else walk c.fs x ns = some ip

theorem namexLoop_sim (parent : Bool) : ∀ (ns : List Name) (x : Nat) (c : Cfg), Base (x :: T) c.fs →
    Sim (ghost G) c (namexLoop parent x ns c.fs) fun r d => Quiet T c d ∧ Found parent T c x ns d r
  | [], x, c, hb => by
    unfold namexLoop
    split
    next =>
      refine Sim.bind (iput_sim hb) ?_
      rintro - d - ⟨hquiet, hbase⟩
      exact Sim.ok rfl ⟨hquiet, hbase⟩
    next hparent =>
      refine Sim.ok rfl ⟨(Kept.refl c).quiet T, hb, ?_⟩
      rw [if_neg hparent]
      rfl
  | name :: rest, x, c, hb => by
    unfold namexLoop
    refine Sim.bind (ilock_sim hb mem_cons_self) ?_
    rintro - c1 - ⟨hk1, hb1, -⟩
    rw [show (ghost G).state c1 = c1.fs from rfl, load_bind]
    split
    next =>
      refine Sim.bind (iunlockput_sim hb1) ?_
      rintro - d - ⟨hquiet, hbase⟩
      exact Sim.ok rfl ⟨(hk1.quiet T).trans hquiet, hbase⟩
    next hdir =>
      have hdir1 : (c1.fs.inode x).type = .dir := not_not.1 hdir
      have hdir0 : (c.fs.inode x).type = .dir := hk1.inode ▸ hdir1
      split
      next hlast =>
        refine Sim.ok rfl ⟨hk1.quiet T, hb1, ?_⟩
        rw [if_pos hlast.1]
        refine ⟨?_, hdir1⟩
        rw [walkParent, if_pos hlast.2, if_pos hdir0]
      next hmore =>
        refine Sim.bind (dirlookup_sim hb1 hdir1) ?_
        rintro r c2 - ⟨hk2, hlook⟩
        have hkept := hk1.trans hk2
        match r, hlook with
        | none, hlook =>
          refine Sim.bind (iunlockput_sim hlook.2) ?_
          rintro - d - ⟨hquiet, hbase⟩
          exact Sim.ok rfl ⟨(hkept.quiet T).trans hquiet, hbase⟩
        | some (next, k), hlook =>
          have hnext : lookup c.fs x name = some next := by
            have := hlook.lookup hdir1
            unfold lookup at this ⊢
            rwa [hk1.inode] at this
          refine Sim.bind (iunlockput_sim hlook.2.2.swap) ?_
          rintro - c3 - ⟨hquiet, hbase⟩
          have hquiet3 := (hkept.quiet T).trans (hquiet.mono fun y hy => mem_cons_of_mem _ hy)
          refine (namexLoop_sim parent rest next c3 hbase).mono ?_
          rintro r d - ⟨hq, hfound⟩
          refine ⟨hquiet3.trans hq, ?_⟩
          match r, hfound with
          | none, hfound => exact hfound
          | some (ip, last), ⟨hbd, hw⟩ =>
            refine ⟨hbd, ?_⟩
            cases parent with
            | true =>
              have hrest : rest ≠ [] := fun h => hmore ⟨rfl, h⟩
              refine ⟨?_, hw.2⟩
              rw [walkParent, if_neg hrest, hnext]
              exact hquiet3.sameDirs.walkParent hw.1
            | false =>
              show (lookup c.fs x name).bind _ = some ip
              rw [hnext]
              exact hquiet3.sameDirs.walk hw

/-- **`namex` resolves the path in the state it starts from**, whatever it frees on the way. -/
theorem namex_sim (parent : Bool) {cwd : Nat} {path : List Char} (hb : Base T c.fs) (hcwd : 0 < c.fs.owners cwd) :
    Sim (ghost G) c (namex cwd parent path c.fs) fun r d =>
      Quiet T c d ∧ Found parent T c (startOf cwd path) (elems path) d r := by
  have hloop : ∀ a c1, a = startOf cwd path ∧ Kept c c1 ∧ Base (startOf cwd path :: T) c1.fs →
      Sim (ghost G) c1 (namexLoop parent a (elems path) c1.fs) fun r d =>
        Quiet T c d ∧ Found parent T c (startOf cwd path) (elems path) d r := by
    rintro a c1 ⟨rfl, hkept, hb1⟩
    refine (namexLoop_sim parent (elems path) _ c1 hb1).mono ?_
    rintro r d - ⟨hq, hfound⟩
    refine ⟨(hkept.quiet T).trans hq, ?_⟩
    have hsame : SameDirs c.fs c1.fs := (hkept.quiet T).sameDirs
    match r, hfound with
    | none, hfound => exact hfound
    | some (ip, last), ⟨hbd, hw⟩ =>
      refine ⟨hbd, ?_⟩
      cases parent with
      | true => exact ⟨hsame.walkParent hw.1, hw.2⟩
      | false => exact hsame.walk hw
  unfold namex
  split
  next h =>
    have hstart : startOf cwd path = ROOTINO := if_pos h
    rw [hstart] at hloop ⊢
    exact Sim.bind (iget_sim hb (.inl rfl)) fun a d _ hq => hloop a d hq
  next h =>
    have hstart : startOf cwd path = cwd := if_neg h
    have hpos : 0 < c.fs.ref cwd := by
      have := hb.refs cwd
      omega
    rw [hstart] at hloop ⊢
    exact Sim.bind (idup_sim hb hpos) fun a d _ hq => hloop a d hq

end Xv6Riscv.Dir
