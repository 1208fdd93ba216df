import Mathlib.Data.List.DropRight
import Mathlib.Data.List.Perm.Subperm
import Xv6Riscv.Dir.Lookup

/-!
# Path names

`pathLoop` is the loop of `namex` (fs.c:661) as it stands in the source, on the rest of the string that `skipelem`
leaves. In a directory tree, in which no inode is freed on the way, it looks up the components of the path one after
the other, and it keeps the reference it returns and no other (`namex_components`).
-/
namespace Xv6Riscv.Dir
open Function List

variable {s : Fs} {x y : Nat} {parent : Bool} {name : Name} {path rest : List Char}

/-! ## The loop over the string -/

theorem skipelem_length (h : skipelem path = some (name, rest)) : rest.length < path.length := by
  have hle := (dropWhile_suffix (· = '/') (l := path)).length_le
  have hhead := head?_dropWhile_not (· = '/') path
  unfold skipelem at h
  cases hs : path.dropWhile (· = '/') with
  | nil => simp [hs] at h
  | cons ch s =>
    rw [hs] at h hle hhead
    cases h
    have hch : ch ≠ '/' := by simpa using hhead
    have h1 := (dropWhile_suffix (· = '/') (l := s.dropWhile (· ≠ '/'))).length_le
    have h2 := (dropWhile_suffix (· ≠ '/') (l := s)).length_le
    rw [length_cons] at hle
    rw [dropWhile_cons_of_pos (by simpa using hch)]
    omega

/-- The loop of `namex`, with the string still to be read. -/
def pathLoop (parent : Bool) (ip : Nat) (path : List Char) : M (Option (Nat × Name)) :=
  match _h : skipelem path with
  | none =>
    if parent then do
      iput ip
      pure none
    else pure (some (ip, []))
  | some (name, rest) => do
    ilock ip
    let i ← load ip
    if i.type ≠ .dir then
      iunlockput ip
      pure none
    else if parent ∧ rest = [] then pure (some (ip, name))
    else match ← dirlookup ip name with
      | none =>
        iunlockput ip
        pure none
      | some (next, _) =>
        iunlockput ip
        pathLoop parent next rest
termination_by path.length
decreasing_by exact skipelem_length ‹_›

def namexPath (cwd : Nat) (parent : Bool) (path : List Char) : M (Option (Nat × Name)) := do
  let ip ← if path.head? = some '/' then iget ROOTINO else idup cwd
  pathLoop parent ip path

theorem elems_rest (h : skipelem path = some (name, rest)) : elems rest = [] ↔ rest = [] := by
  have hrest : rest.dropWhile (· = '/') = rest := by
    unfold skipelem at h
    split at h <;> cases h
    exact dropWhile_idempotent _ _
  rw [elems_skipelem, skipelem, hrest]
  cases rest <;> simp

theorem pathLoop_eq (parent : Bool) (ip : Nat) (path : List Char) :
    pathLoop parent ip path = namexLoop parent ip (elems path) := by
  induction hn : path.length using Nat.strong_induction_on generalizing ip path with
  | _ n ih =>
    subst hn
    rw [pathLoop, elems_skipelem]
    split
    · rename_i h
      rw [h]
      rfl
    · rename_i name rest h
      generalize hloop : namexLoop parent ip _ = m
      simp only [h, namexLoop, elems_rest h] at hloop
      simp only [ih _ (skipelem_length h) _ rest rfl]
      exact hloop

theorem namexPath_eq (cwd : Nat) (parent : Bool) (path : List Char) :
    namexPath cwd parent path = namex cwd parent path := by
  unfold namexPath namex
  simp only [pathLoop_eq]

/-! ## Components -/

/-- The non-empty parts of the path between slashes, each cut to `DIRSIZ` characters. -/
def components (path : List Char) : List Name := ((path.splitOn '/').filter (· ≠ [])).map (List.take DIRSIZ)

theorem splitOn_words (path : List Char) :
    ∃ ws, path.splitOn '/' = (words path).1 :: ws ∧ ws.filter (· ≠ []) = (words path).2 := by
  induction path with
  | nil => exact ⟨[], rfl, rfl⟩
  | cons ch path ih =>
    obtain ⟨ws, hws, hfilter⟩ := ih
    unfold splitOn at hws ⊢
    rw [splitOnP_cons_eq_if_modifyHead, hws, words]
    by_cases hch : ch = '/'
    · refine ⟨(words path).1 :: ws, by simp [hch], ?_⟩
      simp only [hch, if_true, filter_cons, hfilter]
      split <;> simp_all
    · exact ⟨ws, by simp [hch], by simpa [hch] using hfilter⟩

theorem elems_components (path : List Char) : elems path = components path := by
  obtain ⟨ws, hws, hfilter⟩ := splitOn_words path
  unfold components
  rw [elems_eq, hws, filter_cons, hfilter, allWords]
  split <;> simp_all

/-- The inode that the path names, or the directory of its last component and that component. -/
def target (s : Fs) (cwd : Nat) (parent : Bool) (path : List Char) : Option (Nat × Name) :=
  let cs := components path
  if parent then
    cs.getLast?.bind fun name => (walk s (startOf cwd path) cs.dropLast).bind fun x =>
      if (s.inode x).type = .dir then some (x, name) else none
  else (walk s (startOf cwd path) cs).map (·, [])

theorem walkParent_eq (x : Nat) (ns : List Name) :
    walkParent s x ns = ns.getLast?.bind fun name => (walk s x ns.dropLast).bind fun x =>
      if (s.inode x).type = .dir then some (x, name) else none := by
  induction ns generalizing x with
  | nil => rfl
  | cons name rest ih =>
    cases rest with
    | nil => simp [walkParent, walk]
    | cons name' rest =>
      rw [walkParent, if_neg (cons_ne_nil _ _), dropLast_cons_cons, walk, getLast?_cons_cons]
      cases lookup s x name with
      | none => simp
      | some y => simpa using ih y

/-! ## Trees -/

/-- An inode that no `iput` of a lookup frees. -/
def Live (s : Fs) (x : Nat) : Prop := (s.inode x).type ≠ .free ∧ ((s.inode x).nlink ≠ 0 ∨ 0 < s.ref x)

/-- Every entry of a directory names an inode with links, or one in use; so does a process with its current
directory. -/
structure Tree (s : Fs) (cwd : Nat) : Prop where
  root : Live s ROOTINO
  cwd : (s.inode cwd).type ≠ .free ∧ 0 < s.ref cwd
  entries : ∀ d, (s.inode d).type = .dir → ∀ e ∈ (s.inode d).ents, e.inum ≠ 0 → Live s e.inum

/-- The state with the reference that a lookup returns, and no other. -/
def holding (s : Fs) (valid : Nat → Bool) : Option (Nat × Name) → Fs
  | none => s.setRefs s.ref valid
  | some (x, _) => s.ref1 x valid

/-- The call returns `r` and keeps its reference, or no entry of the inode table is free. -/
def Returns (s : Fs) (r : Option (Nat × Name)) (out : Except Panic (Option (Nat × Name) × Fs)) : Prop :=
  (∃ valid, out = .ok (r, holding s valid r)) ∨ out = .error .noInodes ∧ NINODE ≤ s.inUse + 1

theorem iput_ref1 (hx : Live s x) (valid : Nat → Bool) : iput x (s.ref1 x valid) = .ok ((), s.setRefs s.ref valid) := by
  have hkeep : ¬ ((s.ref1 x valid).ref x = 1 ∧ (s.ref1 x valid).valid x = true ∧
      ((s.ref1 x valid).inode x).nlink = 0) := by
    simp only [Fs.ref1, Fs.setRefs, update_self]
    rcases hx.2 with h | h
    · exact fun hfree => h hfree.2.2
    · omega
  rw [iput, if_neg hkeep]
  simp [Fs.ref1, Fs.setRefs]

theorem ref1_comm (s : Fs) (x y : Nat) (valid valid' : Nat → Bool) :
    (s.ref1 x valid).ref1 y valid' = (s.ref1 y valid').ref1 x valid' := by
  by_cases h : y = x
  · subst h
    rfl
  · simp only [Fs.ref1, Fs.setRefs, update_of_ne h, update_of_ne (Ne.symm h)]
    rw [update_comm (Ne.symm h)]

theorem inUse_ref1 (s : Fs) (x : Nat) (valid : Nat → Bool) : (s.ref1 x valid).inUse ≤ s.inUse + 1 := by
  have hsub : (List.range s.ninodes).filter (fun y => 0 < (s.ref1 x valid).ref y) ⊆
      x :: (List.range s.ninodes).filter fun y => 0 < s.ref y := by
    intro y hy
    by_cases hyx : y = x
    · simp [hyx]
    · simpa [Fs.ref1, Fs.setRefs, update_of_ne hyx, hyx] using hy
  exact (subperm_of_subset (nodup_range.filter _) hsub).length_le

theorem iget_cases (x : Nat) (s : Fs) :
    (∃ valid, iget x s = .ok (x, s.ref1 x valid)) ∨ iget x s = .error .noInodes ∧ NINODE ≤ s.inUse := by
  unfold iget
  split_ifs with hpos huse
  · exact .inl ⟨s.valid, rfl⟩
  · have hzero : s.ref x = 0 := by omega
    exact .inl ⟨update s.valid x false, by simp only [Fs.ref1, Fs.setRefs, hzero]⟩
  · exact .inr ⟨rfl, by omega⟩

theorem ilock_ref1 (hx : Live s x) (valid : Nat → Bool) :
    ∃ valid', ilock x (s.ref1 x valid) = .ok ((), s.ref1 x valid') := by
  have hpos : ¬ (s.ref1 x valid).ref x < 1 := by simp [Fs.ref1, Fs.setRefs]
  have hfree : ¬ ((s.ref1 x valid).inode x).type = .free := hx.1
  rw [ilock, if_neg hpos, if_neg hfree]
  split
  · exact ⟨valid, rfl⟩
  · exact ⟨_, rfl⟩

theorem run_error {α β : Type} {m : M α} {p : Panic} (h : m s = .error p) (f : α → M β) : (m >>= f) s = .error p := by
  change (m s).bind _ = _
  rw [h]
  rfl

theorem dirlookup_ref1 (hdir : (s.inode x).type = .dir) (name : Name) (valid : Nat → Bool) :
    lookup s x name = none ∧ dirlookup x name (s.ref1 x valid) = .ok (none, s.ref1 x valid) ∨
    ∃ y, lookup s x name = some y ∧
      ((∃ k v, dirlookup x name (s.ref1 x valid) = .ok (some (y, k), (s.ref1 x valid).ref1 y v)) ∨
        dirlookup x name (s.ref1 x valid) = .error .noInodes ∧ NINODE ≤ s.inUse + 1) := by
  have hino : (s.ref1 x valid).inode = s.inode := rfl
  unfold dirlookup lookup
  rw [load_bind, hino, if_neg (not_not.2 hdir), if_pos hdir]
  cases slotOf (s.inode x).ents name with
  | none => exact .inl ⟨rfl, rfl⟩
  | some k =>
    refine .inr ⟨_, rfl, ?_⟩
    rcases iget_cases ((s.inode x).ents.getD k .empty).inum (s.ref1 x valid) with ⟨v, hget⟩ | ⟨hget, hfull⟩
    · exact .inl ⟨k, v, bind_run hget⟩
    · exact .inr ⟨run_error hget _, hfull.trans (inUse_ref1 s x valid)⟩

def walked (s : Fs) (parent : Bool) (x : Nat) (ns : List Name) : Option (Nat × Name) :=
  if parent then walkParent s x ns else (walk s x ns).map (·, [])

theorem walked_cons {rest : List Name} (h : ¬ (parent ∧ rest = [])) :
    walked s parent x (name :: rest) = (lookup s x name).bind fun y => walked s parent y rest := by
  cases parent with
  | true =>
    have hrest : rest ≠ [] := fun hr => h ⟨rfl, hr⟩
    simp [walked, walkParent, hrest]
  | false => simp [walked, walk, Option.map_bind]

/-- **The loop of `namex` in a tree.** -/
theorem namexLoop_tree (ht : ∀ d name y, lookup s d name = some y → Live s y) (parent : Bool) (ns : List Name) :
    ∀ x valid, Live s x → Returns s (walked s parent x ns) (namexLoop parent x ns (s.ref1 x valid)) := by
  induction ns with
  | nil =>
    intro x valid hx
    cases parent with
    | true => exact .inl ⟨valid, bind_run (iput_ref1 hx valid)⟩
    | false => exact .inl ⟨valid, rfl⟩
  | cons name rest ih =>
    intro x valid hx
    obtain ⟨v, hlock⟩ := ilock_ref1 hx valid
    have hput := bind_run (m := iunlockput x) (f := fun _ => (pure none : M (Option (Nat × Name))))
      (iput_ref1 hx v)
    have hino : (s.ref1 x v).inode = s.inode := rfl
    unfold namexLoop
    rw [bind_run hlock, load_bind, hino]
    by_cases hdir : (s.inode x).type = .dir
    · rw [if_neg (not_not.2 hdir)]
      by_cases hlast : parent ∧ rest = []
      · rw [if_pos hlast, walked, if_pos hlast.1, walkParent, if_pos hlast.2, if_pos hdir]
        exact .inl ⟨v, rfl⟩
      rw [if_neg hlast, walked_cons hlast]
      rcases dirlookup_ref1 hdir name v with ⟨hno, hlook⟩ | ⟨y, hy, ⟨k, v', hlook⟩ | ⟨hlook, hfull⟩⟩
      · rw [hno, bind_run hlook]
        exact .inl ⟨v, hput⟩
      · -- the reference to `x` goes, the one to `y` stays
        have hx' : Live (s.ref1 y v') x := by
          refine ⟨hx.1, hx.2.imp_right fun h => ?_⟩
          simp only [Fs.ref1, Fs.setRefs, update_apply]
          split <;> omega
        rw [hy, bind_run hlook, ref1_comm]
        dsimp only
        rw [bind_run (m := iunlockput x) (iput_ref1 hx' v')]
        exact ih y v' (ht _ _ _ hy)
      · rw [run_error hlook]
        exact .inr ⟨rfl, hfull⟩
    · have hnone : walked s parent x (name :: rest) = none := by
        cases parent <;> simp [walked, walk, walkParent, lookup, hdir]
      rw [if_pos hdir, hnone]
      exact .inl ⟨v, hput⟩

/-- **Path resolution is component-wise lookup.** In a tree `namex` returns what the components of the path lead to,
and keeps the reference it returns and no other. -/
theorem namex_components {cwd : Nat} (ht : Tree s cwd) (parent : Bool) (path : List Char) :
    Returns s (target s cwd parent path) (namexPath cwd parent path s) := by
  have hentry : ∀ d name y, lookup s d name = some y → Live s y := by
    intro d name y hy
    unfold lookup at hy
    split at hy
    · rename_i hd
      obtain ⟨k, hk, rfl⟩ := Option.map_eq_some_iff.1 hy
      obtain ⟨e, he, hne, -⟩ := slotOf_eq_some hk
      rw [getD_eq_getElem?_getD, he]
      exact ht.entries d hd e (mem_of_getElem? he) hne
    · cases hy
  have hloop := namexLoop_tree hentry parent (components path) (startOf cwd path)
  have hwalked : walked s parent (startOf cwd path) (components path) = target s cwd parent path := by
    simp only [walked, target, walkParent_eq]
  rw [hwalked] at hloop
  rw [namexPath_eq, namex, elems_components]
  unfold startOf at hloop
  split at hloop
  · rename_i hroot
    rw [if_pos hroot]
    rcases iget_cases ROOTINO s with ⟨v, hget⟩ | ⟨hget, hfull⟩
    · rw [bind_run hget]
      exact hloop v ht.root
    · exact .inr ⟨run_error hget _, hfull.trans (Nat.le_succ _)⟩
  · rename_i hrel
    rw [if_neg hrel]
    exact hloop s.valid ⟨ht.cwd.1, .inr ht.cwd.2⟩

/-- A disk with the root directory only, where a process is. -/
def rootOnly : Fs where
  ninodes := 4
  inode x := if x = ROOTINO then ⟨.dir, 0, 1, [⟨ROOTINO, dot⟩, ⟨ROOTINO, dotdot⟩]⟩ else ⟨.free, 0, 0, []⟩
  ref x := if x = ROOTINO then 1 else 0
  valid _ := false
  cwd p := if p = 0 then some ROOTINO else none
  ofile _ _ := none
  file _ := ⟨0, none⟩

theorem namex_components_dotdot :
    target rootOnly ROOTINO true "..//d/".toList = some (ROOTINO, ['d']) ∧
    Returns rootOnly (some (ROOTINO, ['d'])) (namexPath ROOTINO true "..//d/".toList rootOnly) := by
  have htree : Tree rootOnly ROOTINO := by
    refine ⟨⟨by decide, .inl (by decide)⟩, ⟨by decide, by decide⟩, fun d hd e he _ => ?_⟩
    have hroot : d = ROOTINO := by
      by_contra hne
      simp [rootOnly, hne] at hd
    subst hroot
    have he : e ∈ [⟨ROOTINO, dot⟩, ⟨ROOTINO, dotdot⟩] := he
    have hinum : e.inum = ROOTINO := by
      simp only [mem_cons, not_mem_nil, or_false] at he
      rcases he with rfl | rfl <;> rfl
    rw [hinum]
    exact ⟨by decide, .inl (by decide)⟩
  have htarget : target rootOnly ROOTINO true "..//d/".toList = some (ROOTINO, ['d']) := by decide
  exact ⟨htarget, htarget ▸ namex_components htree true _⟩

/-- The root directory with one file (inode 2), which nobody uses, while `NINODE` other inodes are in use. -/
def fullTable : Fs where
  __ := rootOnly
  ninodes := NINODE + 2
  inode x := if x = ROOTINO then ⟨.dir, 0, 1, [⟨ROOTINO, dot⟩, ⟨ROOTINO, dotdot⟩, ⟨2, ['f']⟩]⟩ else ⟨.file, 0, 1, []⟩
  ref x := if x = 0 ∨ x = 2 then 0 else 1

/-- **A full inode table stops the lookup.** The path leads to the file, and `namei` panics. -/
theorem namex_full_table : Tree fullTable ROOTINO ∧ target fullTable ROOTINO false ['f'] = some (2, []) ∧
    namexPath ROOTINO false ['f'] fullTable = .error .noInodes := by
  have hlive : ∀ x, Live fullTable x := fun x => by
    by_cases hx : x = ROOTINO <;> simp [Live, fullTable, hx]
  refine ⟨⟨hlive _, ⟨by decide, by decide⟩, fun _ _ e _ _ => hlive e.inum⟩, by decide, ?_⟩
  rw [namexPath_eq]
  rfl

end Xv6Riscv.Dir
