import Xv6Riscv.Lib.Radix
import Xv6Riscv.PageTable.Words

/-!
# Page tables implement a map

The words of a page table form a tree of pages (`Shaped`), and what `walk` finds in it is a map from page
numbers to entries (`pageMap`). `walk` with `alloc` hangs empty pages into the tree and leaves the map alone;
a store to the entry it returns changes the map at one page. So `mappages` extends the map on its range,
or on a part of it from below when there is no memory for the tree, and `uvmunmap` removes its range.
-/
namespace Xv6Riscv.PageTable
open Machine Radix BitVec
open Outcome (bind_eq_ok bind_ok)
open Function (update update_of_ne)
variable {first n : Nat} {a size w : Word} {l : List Word} {m'' : Mem} {doFree : Bool}

variable {m m' : Mem} {root p q va pa perm : Word} {i j : Fin 512} {path : List (Fin 512)}

/-! ## The tree -/

/-- The page-table page below an entry. -/
def Mem.child (m : Mem) (p : Word) (i : Fin 512) : Option Word :=
  if m.word (slot p i) &&& PTE_V = 0#64 then none else some (PTE2PA (m.word (slot p i)))

/-- A tree-shaped page table: the root, and two levels of pages below it. -/
structure Shaped (m : Mem) (root : Word) : Prop where
  aligned : Aligned root
  tree : Tree m.child root 2

/-- The free list has pages that are not in the table. -/
structure Spare (m : Mem) (root : Word) : Prop where
  nodup : m.freelist.Nodup
  aligned : ∀ p ∈ m.freelist, Aligned p
  apart : ∀ p ∈ m.freelist, ∀ path, path.length ≤ 2 → node m.child root path ≠ some p

theorem child_eq_none : m.child p i = none ↔ m.word (slot p i) &&& PTE_V = 0#64 := by
  unfold Mem.child
  split_ifs with h <;> simp [h]

theorem child_of_valid (h : m.word (slot p i) &&& PTE_V ≠ 0#64) :
    m.child p i = some (PTE2PA (m.word (slot p i))) := if_neg h

theorem child_congr (h : ∀ j, m'.word (slot p j) = m.word (slot p j)) : m'.child p = m.child p := by
  funext j
  simp only [Mem.child, h j]

theorem Shaped.node_aligned (h : Shaped m root) (hp : node m.child root path = some p) : Aligned p := by
  cases path with
  | nil =>
    cases hp
    exact h.aligned
  | cons i path =>
    obtain ⟨q, -, hc⟩ := node_tail hp
    unfold Mem.child at hc
    split_ifs at hc
    cases hc
    exact PTE2PA_mod _

/-! ## Reading -/

/-- The page with the leaf entry of `va`. -/
def leaf (m : Mem) (root va : Word) : Option Word := node m.child root [index 1 va, index 2 va]

theorem walkTurn_read (m : Mem) (p : Word) (level : Nat) (va : Word) :
    walkTurn m p level va false = (m.child p (index level va), m) := by
  unfold walkTurn
  simp only [entry_eq]
  by_cases h : m.word (slot p (index level va)) &&& PTE_V = 0#64
  · simp [h, child_eq_none.2 h]
  · simp [h, child_of_valid h]

theorem walk_read (h : va < MAXVA) :
    walk m root va false = .ok ((leaf m root va).map fun p => slot p (index 0 va), m) := by
  unfold walk leaf
  rw [if_neg (by simpa using h), walkTurn_read]
  cases h2 : m.child root (index 2 va) with
  | none => simp [h2]
  | some p1 =>
    simp only [walkTurn_read]
    cases h1 : m.child p1 (index 1 va) with
    | none => simp [h2, h1]
    | some p0 => simp [h2, h1, entry_eq]

/-- What is read through `walk(pagetable, va, 0)`. -/
def translate (m : Mem) (root va : Word) : Option Word :=
  match walk m root va false with
  | .ok (some pte, m) => if m.word pte &&& PTE_V = 0#64 then none else some (m.word pte)
  | _ => none

theorem translate_eq (h : va < MAXVA) :
    translate m root va = (leaf m root va).bind fun p =>
      if m.word (slot p (index 0 va)) &&& PTE_V = 0#64 then none else some (m.word (slot p (index 0 va))) := by
  unfold translate
  rw [walk_read h]
  cases leaf m root va <;> rfl

/-- The map: the entries of the pages below `MAXVA`. -/
def pageMap (m : Mem) (root : Word) (n : Nat) : Option Word :=
  if n < 2 ^ 26 then translate m root (BitVec.ofNat 64 (n * 4096)) else none

theorem ofNat_page_toNat (h : n < 2 ^ 26) : (BitVec.ofNat 64 (n * 4096) : Word).toNat = n * 4096 := by
  rw [toNat_ofNat]
  omega

theorem lt_MAXVA_iff : a < MAXVA ↔ a.toNat < 2 ^ 38 := Iff.rfl

/-- **Reading refines the map**: all addresses of a page have its entry. -/
theorem translate_eq_pageMap (h : va < MAXVA) : translate m root va = pageMap m root (va.toNat / 4096) := by
  have hlt := lt_MAXVA_iff.1 h
  have hn : va.toNat / 4096 < 2 ^ 26 := by omega
  have hto := ofNat_page_toNat hn
  have h' : (BitVec.ofNat 64 (va.toNat / 4096 * 4096) : Word) < MAXVA := by
    rw [lt_MAXVA_iff, hto]
    omega
  obtain ⟨h2, h1, h0⟩ := (indices_eq_iff h h').2 (by rw [hto]; omega)
  rw [pageMap, if_pos hn, translate_eq h, translate_eq h']
  unfold leaf
  rw [h2, h1, h0]

theorem pageMap_of_large (h : ¬ n < 2 ^ 26) : pageMap m root n = none := if_neg h

/-- The map is what is read at the addresses. -/
theorem pageMap_ext {f : Nat → Option Word} (h : ∀ va, va < MAXVA → translate m root va = f (va.toNat / 4096))
    (hlarge : ∀ n, ¬ n < 2 ^ 26 → f n = none) : pageMap m root = f := by
  funext n
  by_cases hn : n < 2 ^ 26
  · have hto := ofNat_page_toNat hn
    rw [pageMap, if_pos hn, h _ (by rw [lt_MAXVA_iff, hto]; omega), hto, Nat.mul_div_cancel _ (by decide)]
  · rw [pageMap_of_large hn, hlarge n hn]

theorem pageMap_congr (h : ∀ va, va < MAXVA → translate m' root va = translate m root va) :
    pageMap m' root = pageMap m root :=
  pageMap_ext (fun va hva => (h va hva).trans (translate_eq_pageMap hva)) fun _ => pageMap_of_large

/-! ## Pages that are hung into the tree -/

/-- What `walk` makes of the memory when it takes the page `q` off the free list. -/
def hung (m : Mem) (p : Word) (i : Fin 512) (q : Word) (l : List Word) : Mem :=
  (({ m with freelist := l, fr := update m.fr q 1 }.memset q 5).memset q 0).store (slot p i)
    (PA2PTE q ||| PTE_V)

theorem hung_word_self (l : List Word) : (hung m p i q l).word (slot p i) = PA2PTE q ||| PTE_V := by
  simp [hung, Mem.store]

theorem hung_word_new (hp : Aligned p) (hq : Aligned q) (hne : p ≠ q) (j : Fin 512) :
    (hung m p i q l).word (slot q j) = 0#64 := by
  have hs : slot q j ≠ slot p i := fun he => hne (slot_inj hq hp he).1.symm
  simp [hung, Mem.store, Mem.memset, update_of_ne hs, (slot_mem_page hq hq).2 rfl]

variable {r last pa stop npages : Word}

theorem hung_word_other (hr : Aligned r) (hq : Aligned q) (hne : r ≠ q) {j : Fin 512}
    (hs : slot r j ≠ slot p i) : (hung m p i q l).word (slot r j) = m.word (slot r j) := by
  have hout : ¬ slot r j - q < PGSIZE := fun h => hne ((slot_mem_page hr hq).1 h)
  simp [hung, Mem.store, Mem.memset, update_of_ne hs, hout]

theorem hung_hangs (h : Shaped m root) (hp : node m.child root path = some p) (hlen : path.length < 2)
    (hnone : m.child p i = none) (hq : Aligned q) (hnew : ∀ path, path.length ≤ 2 → node m.child root path ≠ some q) :
    Hangs m.child (hung m p i q l).child root 2 p i q := by
  have hap := h.node_aligned hp
  have hpq : p ≠ q := by
    rintro rfl
    exact hnew path (by omega) hp
  refine ⟨hnone, ?_, fun j => ?_, fun j hj => ?_, fun path' r _ hr hrp hrq => ?_⟩
  · rw [child_of_valid (by rw [hung_word_self]; exact or_V_valid _), hung_word_self, PTE2PA_interior hq]
  · rw [child_eq_none, hung_word_new hap hq hpq]
    exact zero_and_V
  · have hs : slot p j ≠ slot p i := fun he => hj (slot_inj hap hap he).2
    simp only [Mem.child, hung_word_other hap hq hpq hs]
  · have har := h.node_aligned hr
    refine child_congr fun j => hung_word_other har hq hrq fun he => ?_
    exact hrp (slot_inj har hap he).1

/-- The table after some work on it: still a tree beside the free list, with the same map. -/
structure Keeps (m : Mem) (root : Word) (m' : Mem) : Prop where
  shaped : Shaped m' root
  spare : Spare m' root
  nodes : ∀ path p, path.length ≤ 2 → node m.child root path = some p → node m'.child root path = some p
  same : pageMap m' root = pageMap m root

theorem Keeps.refl (h : Shaped m root) (hf : Spare m root) :
    Keeps m root m := ⟨h, hf, fun _ _ _ hp => hp, rfl⟩

theorem Keeps.trans (h : Keeps m root m') (h' : Keeps m' root m'') : Keeps m root m'' where
  shaped := h'.shaped
  spare := h'.spare
  nodes path p hl hp := h'.nodes path p hl (h.nodes path p hl hp)
  same := h'.same.trans h.same

section
variable (h : Shaped m root) (hf : Spare m root)
include h hf

/-- **A new page leaves the map alone.** -/
theorem keeps_hung (hl : m.freelist = q :: l)
    (hp : node m.child root path = some p) (hlen : path.length < 2) (hnone : m.child p i = none) :
    Keeps m root (hung m p i q l) ∧ node (hung m p i q l).child root (i :: path) = some q := by
  have hq : Aligned q := hf.aligned q (by simp [hl])
  have hnew := hf.apart q (by simp [hl])
  have hnodup : q ∉ l ∧ l.Nodup := by simpa [hl] using hf.nodup
  have hh := hung_hangs (l := l) h hp hlen hnone hq hnew
  have hnode := node_hang h.tree hh hp hlen hnew
  have hap := h.node_aligned hp
  have hpq : p ≠ q := by
    rintro rfl
    exact hnew path (by omega) hp
  refine ⟨⟨⟨h.aligned, h.tree.hang hh hp hlen hnew⟩,
    ⟨hnodup.2, fun r hr => hf.aligned r (by simp only [hl, List.mem_cons]; exact .inr hr), ?_⟩, ?_, pageMap_congr ?_⟩, ?_⟩
  · intro r hr path' hlen' hnr
    rw [hnode path' hlen'] at hnr
    split_ifs at hnr
    · cases hnr
      exact hnodup.1 hr
    · exact hf.apart r (by rw [hl]; exact List.mem_cons_of_mem _ hr) path' hlen' hnr
  · intro path' r hlen' hr
    rw [hnode path' hlen']
    split_ifs with he
    · subst he
      rw [node_cons_of hp, hnone] at hr
      cases hr
    · exact hr
  · intro va hva
    rw [translate_eq hva, translate_eq hva, leaf, hnode _ (by simp)]
    split_ifs with he
    · -- the new page is a leaf page: it is empty, and there was none
      have hbefore : leaf m root va = none := by
        rw [leaf, he, node_cons_of hp, hnone]
      rw [hbefore]
      simp [hung_word_new hap hq hpq]
    cases hr : leaf m root va with
    | none =>
      change node m.child root _ = _ at hr
      rw [hr]
      rfl
    | some r =>
      have har := h.node_aligned hr
      have hrq : r ≠ q := by
        rintro rfl
        exact hnew _ (by simp) hr
      have hrp : r ≠ p := by
        rintro rfl
        have := h.tree _ _ r (by simp) (by omega) hr hp
        rw [← this] at hlen
        simp at hlen
      have hw := hung_word_other (m := m) (i := i) (l := l) har hq hrq (j := index 0 va)
        fun he' => hrp (slot_inj har hap he').1
      change node m.child root _ = _ at hr
      rw [hr]
      simp only [Option.bind_some, hw]
  · rw [hnode _ (by simp; omega), if_pos rfl]

/-! ## `walk` with `alloc` -/

/-- One turn finds the page below, or hangs one in, or finds no memory. -/
theorem walkTurn_alloc (hp : node m.child root path = some p) (hlen : path.length < 2) (level : Nat) (va : Word) :
    (∃ q m', walkTurn m p level va true = (some q, m') ∧ Keeps m root m' ∧
    node m'.child root (index level va :: path) = some q) ∨
      walkTurn m p level va true = (none, m) ∧ m.freelist = [] := by
  unfold walkTurn
  simp only [entry_eq]
  by_cases hv : m.word (slot p (index level va)) &&& PTE_V = 0#64
  · cases hl : m.freelist with
    | nil => exact .inr ⟨by simp [hv, Mem.kalloc, hl], rfl⟩
    | cons q l =>
      obtain ⟨hk, hn⟩ := keeps_hung h hf hl hp hlen (child_eq_none.2 hv)
      exact .inl ⟨q, _, by simp [hv, Mem.kalloc, hl]; rfl, hk, hn⟩
  · refine .inl ⟨PTE2PA (m.word (slot p (index level va))), m, by simp [hv], .refl h hf, ?_⟩
    rw [node_cons_of hp, child_of_valid hv]

/-- **`walk` leaves the map alone**, and gives the place of the leaf entry unless it finds no memory. -/
theorem walk_alloc (hva : va < MAXVA) : ∃ m', Keeps m root m' ∧
      ((∃ p, walk m root va true = .ok (some (slot p (index 0 va)), m') ∧ leaf m' root va = some p) ∨
        walk m root va true = .ok (none, m') ∧ m'.freelist = []) := by
  unfold walk
  rw [if_neg (by simpa using hva)]
  rcases walkTurn_alloc h hf (show node m.child root [] = some root from rfl) (by simp) 2 va with
    ⟨p1, m1, h1, hk1, hn1⟩ | ⟨h1, hl⟩
  · rw [h1]
    rcases walkTurn_alloc hk1.shaped hk1.spare hn1 (by simp) 1 va with ⟨p0, m2, h2, hk2, hn2⟩ | ⟨h2, hl⟩
    · exact ⟨m2, hk1.trans hk2, .inl ⟨p0, by simp [h2, entry_eq], hn2⟩⟩
    · exact ⟨m1, hk1, .inr ⟨by simp [h2], hl⟩⟩
  · exact ⟨m, .refl h hf, .inr ⟨by simp [h1], hl⟩⟩

end

/-! ## Stores to a leaf entry -/

theorem store_word_other (hp : Aligned p) (hr : Aligned r) (hne : r ≠ p) (j : Fin 512) :
    (m.store (slot p i) w).word (slot r j) = m.word (slot r j) := by
  have hs : slot r j ≠ slot p i := fun he => hne (slot_inj hr hp he).1
  simp [Mem.store, update_of_ne hs]

theorem node_store (h : Shaped m root) (hp : node m.child root path = some p) (hlen : path.length = 2) :
    Shaped (m.store (slot p i) w) root ∧
      ∀ path', path'.length ≤ 2 → node (m.store (slot p i) w).child root path' = node m.child root path' := by
  have hrow : ∀ path' r, path'.length < 2 → node m.child root path' = some r →
    (m.store (slot p i) w).child r = m.child r := by
    intro path' r hlen' hr
    refine child_congr fun j => store_word_other (h.node_aligned hp) (h.node_aligned hr) ?_ j
    rintro rfl
    have hpath := h.tree path' path r (by omega) (by omega) hr hp
    rw [hpath] at hlen'
    omega
  exact ⟨⟨h.aligned, h.tree.congr hrow⟩, node_congr hrow⟩

/-- **A store to a leaf entry changes the map at its page.** -/
theorem pageMap_store (h : Shaped m root) (hp : leaf m root va = some p) (hva : va < MAXVA) :
    pageMap (m.store (slot p (index 0 va)) w) root =
      update (pageMap m root) (va.toNat / 4096) (if w &&& PTE_V = 0#64 then none else some w) := by
  have hnode := (node_store (i := index 0 va) (w := w) h hp (by simp)).2
  have hap := h.node_aligned hp
  refine pageMap_ext (fun va' hva' => ?_) fun n hn => ?_
  on_goal 2 =>
    have := lt_MAXVA_iff.1 hva
    rw [update_of_ne (by omega), pageMap_of_large hn]
  rw [Function.update_apply, ← translate_eq_pageMap hva', translate_eq hva', translate_eq hva', leaf, hnode _ (by simp)]
  change (leaf m root va').bind _ = _
  by_cases hpage : va'.toNat / 4096 = va.toNat / 4096
  · obtain ⟨h2, h1, h0⟩ := (indices_eq_iff hva' hva).2 hpage
    have hleaf : leaf m root va' = some p := by rw [leaf, h2, h1]; exact hp
    rw [if_pos hpage, hleaf, h0]
    simp [Mem.store]
  rw [if_neg hpage]
  cases hr : leaf m root va' with
  | none => rfl
  | some r =>
    have har := h.node_aligned hr
    have hs : slot r (index 0 va') ≠ slot p (index 0 va) := by
      intro he
      obtain ⟨rfl, h0⟩ := slot_inj har hap he
      have hpath := h.tree _ _ r (by simp) (by simp) hr hp
      simp only [List.cons.injEq, and_true] at hpath
      exact hpage ((indices_eq_iff hva' hva).1 ⟨hpath.2, hpath.1, h0⟩)
    simp [Mem.store, update_of_ne hs]

theorem spare_store (h : Shaped m root) (hf : Spare m root) (hp : node m.child root path = some p)
    (hlen : path.length = 2) : Spare (m.store (slot p i) w) root where
  nodup := hf.nodup
  aligned := hf.aligned
  apart q hq path' hlen' := by
    rw [(node_store h hp hlen).2 path' hlen']
    exact hf.apart q hq path' hlen'

/-! ## `mappages` -/

/-- The entry for the page `k` of a range that begins at `pa`. -/
def entryFor (pa perm : Word) (k : Nat) : Word := PA2PTE (pa + BitVec.ofNat 64 (k * 4096)) ||| perm ||| PTE_V

theorem entryFor_succ (pa perm : Word) (k : Nat) : entryFor (pa + PGSIZE) perm k = entryFor pa perm (k + 1) := by
  have haddr : pa + PGSIZE + BitVec.ofNat 64 (k * 4096) = pa + BitVec.ofNat 64 ((k + 1) * 4096) := by
    apply eq_of_toNat_eq
    simp only [toNat_add, toNat_ofNat, show PGSIZE.toNat = 4096 from rfl]
    omega
  unfold entryFor
  rw [haddr]

theorem entryFor_decode (k : Nat) (hal : Aligned pa) (hperm : perm < 1024) :
    PTE2PA (entryFor pa perm k) = pa + BitVec.ofNat 64 (k * 4096) ∧
      PTE_FLAGS (entryFor pa perm k) = perm ||| PTE_V := by
  have hflags : (perm ||| PTE_V).toNat < 1024 := by
    rw [toNat_or]
    exact Nat.or_lt_two_pow (n := 10) hperm (by decide)
  have hpage : Aligned (pa + BitVec.ofNat 64 (k * 4096)) := by
    unfold Aligned at hal ⊢
    rw [toNat_add, toNat_ofNat]
    omega
  unfold entryFor
  rw [BitVec.or_assoc]
  exact ⟨by rw [PTE2PA_PA2PTE _ hflags, PGROUNDDOWN_of_aligned hpage], PTE_FLAGS_PA2PTE _ hflags⟩

theorem next_page (h : a < MAXVA) : (a + PGSIZE).toNat = a.toNat + 4096 := by
  have := lt_MAXVA_iff.1 h
  rw [toNat_add, show PGSIZE.toNat = 4096 from rfl]
  omega

theorem walk_halts {alloc : Bool} (h : ¬ va < MAXVA) : walk m root va alloc = .halt .walk := if_pos (by simpa using h)

/-- The table with other entries, `e 0, …, e (n - 1)`, for `n` pages from page `first` on. -/
structure Edited (m : Mem) (root : Word) (was : Option Word → Prop) (first n : Nat) (e : Nat → Option Word)
    (m' : Mem) : Prop where
  shaped : Shaped m' root
  small : 0 < n → first + n ≤ 2 ^ 26
  before : ∀ i, first ≤ i → i < first + n → was (pageMap m root i)
  map : ∀ i, pageMap m' root i = if first ≤ i ∧ i < first + n then e (i - first) else pageMap m root i

section
variable {was : Option Word → Prop} {e e' : Nat → Option Word}

theorem Edited.zero (h : Shaped m' root) (hsame : pageMap m' root = pageMap m root) : Edited m root was first 0 e m' where
  shaped := h
  small := nofun
  before i hlo hhi := by omega
  map i := by rw [hsame, if_neg (by omega)]

theorem Edited.one (h : Shaped m' root) (hsame : pageMap m' root = pageMap m root) (ha : a < MAXVA)
    (hp : leaf m' root a = some p) (hwas : was (translate m' root a))
    (he : e 0 = if w &&& PTE_V = 0#64 then none else some w) :
    Edited m root was (a.toNat / 4096) 1 e (m'.store (slot p (index 0 a)) w) where
  shaped := (node_store h hp (by simp)).1
  small _ := by
    have := lt_MAXVA_iff.1 ha
    omega
  before i hlo hhi := by
    obtain rfl : i = a.toNat / 4096 := by omega
    rw [← hsame, ← translate_eq_pageMap ha]
    exact hwas
  map i := by
    rw [pageMap_store h hp ha, hsame, Function.update_apply]
    by_cases hi : i = a.toNat / 4096
    · rw [if_pos hi, ← he, if_pos ⟨by omega, by omega⟩, hi, Nat.sub_self]
    · rw [if_neg hi, if_neg (by omega)]

theorem Edited.append (h : Edited m root was first 1 e m') (h' : Edited m' root was (first + 1) n e' m'')
    (he : ∀ k, e' k = e (k + 1)) : Edited m root was first (n + 1) e m'' where
  shaped := h'.shaped
  small _ := by
    have := h.small
    have := h'.small
    omega
  before i hlo hhi := by
    by_cases hone : i < first + 1
    · exact h.before i hlo hone
    · have hwas := h'.before i (by omega) (by omega)
      rwa [h.map i, if_neg (by omega)] at hwas
  map i := by
    rw [h'.map i, h.map i]
    by_cases hin : first + 1 ≤ i ∧ i < first + 1 + n
    · rw [if_pos hin, if_pos (by omega), he]
      congr 1
      omega
    · rw [if_neg hin]
      by_cases hone : first ≤ i ∧ i < first + 1
      · rw [if_pos hone, if_pos (by omega)]
      · rw [if_neg hone, if_neg (by omega)]

end

/-- The table with `n` more pages. -/
abbrev Extended (m : Mem) (root : Word) (first n : Nat) (pa perm : Word) (m' : Mem) : Prop :=
  Edited m root (· = none) first n (fun k => some (entryFor pa perm k)) m'

theorem extended_one (pa perm : Word) (hk : Keeps m root m') (ha : a < MAXVA) (hp : leaf m' root a = some p)
    (hv : m'.word (slot p (index 0 a)) &&& PTE_V = 0#64) :
    Extended m root (a.toNat / 4096) 1 pa perm (m'.store (slot p (index 0 a)) (PA2PTE pa ||| perm ||| PTE_V)) := by
  refine .one hk.shaped hk.same ha hp ?_ ?_
  · rw [translate_eq ha, hp]
    simp [hv]
  · rw [if_neg (or_V_valid _)]
    simp [entryFor]

variable {m : Mem}

theorem mappagesLoop_spec {turns : Nat} {out : Outcome Panic (Bool × Mem)} (h : Shaped m root)
    (hf : Spare m root) (hloop : mappagesLoop m root a last pa perm turns = out) :
    match out with
    | .ok (r, m') => ∃ n, Extended m root (a.toNat / 4096) n pa perm m' ∧ Spare m' root ∧
      if r = true then 0 < n ∧ last.toNat = a.toNat + (n - 1) * 4096
      else m'.freelist = [] ∧ ∀ k < n, last.toNat ≠ a.toNat + k * 4096
    | .halt _ => True
    | .stuck => ∀ k < turns, a.toNat + k * 4096 < 2 ^ 38 := by
  induction turns generalizing m a pa with
  | zero =>
    cases hloop
    nofun
  | succ turns ih =>
    unfold mappagesLoop at hloop
    by_cases ha : a < MAXVA
    · have hlt := lt_MAXVA_iff.1 ha
      obtain ⟨m1, hk, ⟨p, hw, hp⟩ | ⟨hw, hl⟩⟩ := walk_alloc h hf ha
      · rw [hw, bind_ok] at hloop
        simp only at hloop
        have hone := extended_one pa perm hk ha hp
        have hspare := spare_store (i := index 0 a) (w := PA2PTE pa ||| perm ||| PTE_V) hk.shaped hk.spare hp (by simp)
        split_ifs at hloop with hv hlast
        · cases hloop
          trivial
        · -- the last page
          cases hloop
          exact ⟨1, hone (by simpa using hv), hspare, by simp [hlast]⟩
        have hone := hone (by simpa using hv)
        have hrest := ih hone.shaped hspare hloop
        have hnext := next_page ha
        match out with
        | .halt _ => trivial
        | .stuck =>
          intro k hk
          cases k with
          | zero => simpa using hlt
          | succ k =>
            have := hrest k (by omega)
            omega
        | .ok (r, m') =>
          obtain ⟨n, hext, hspare, hr⟩ := hrest
          have hfirst : (a + PGSIZE).toNat / 4096 = a.toNat / 4096 + 1 := by omega
          have hne : last.toNat ≠ a.toNat := fun he => hlast (eq_of_toNat_eq he.symm)
          rw [hfirst] at hext
          refine ⟨n + 1, hone.append hext fun k => by rw [entryFor_succ], hspare, ?_⟩
          cases r with
          | true =>
            simp only [if_true] at hr ⊢
            omega
          | false =>
            simp only [Bool.false_eq_true, if_false] at hr ⊢
            refine ⟨hr.1, fun k hkn => ?_⟩
            cases k with
            | zero => simpa using hne
            | succ k =>
              have := hr.2 k (by omega)
              omega
      · rw [hw, bind_ok] at hloop
        cases hloop
        exact ⟨0, .zero hk.shaped hk.same, hk.spare, by simpa using hl⟩
    · rw [walk_halts ha] at hloop
      cases hloop
      trivial

/-! ## `uvmunmap` -/

/-- The table without `n` pages. -/
abbrev Removed (m : Mem) (root : Word) (first n : Nat) (m' : Mem) : Prop :=
  Edited m root (· ≠ none) first n (fun _ => none) m'

/-- The memory that `kfree` writes to is outside of the table. -/
structure Outside (m : Mem) (root : Word) (m' : Mem) : Prop where
  words : ∀ path p j, path.length ≤ 2 → node m.child root path = some p → m'.word (slot p j) = m.word (slot p j)

theorem Outside.nodes (h : Outside m root m') :
    ∀ path, path.length ≤ 2 → node m'.child root path = node m.child root path :=
  node_congr fun path p hlen hp => child_congr fun j => h.words path p j (by omega) hp

theorem Outside.shaped (ho : Outside m root m') (h : Shaped m root) : Shaped m' root :=
  ⟨h.aligned, h.tree.congr fun path p hlen hp => child_congr fun j => ho.words path p j (by omega) hp⟩

theorem Outside.same (ho : Outside m root m') : pageMap m' root = pageMap m root := by
  refine pageMap_congr fun va hva => ?_
  rw [translate_eq hva, translate_eq hva, leaf, ho.nodes _ (by simp)]
  change (leaf m root va).bind _ = _
  cases hp : leaf m root va with
  | none => rfl
  | some p => simp [ho.words _ p (index 0 va) (by simp) hp]

theorem kfree_outside (h : Shaped m root) (hfree : m.kfree q = .ok m')
    (hq : ∀ path, path.length ≤ 2 → node m.child root path ≠ some q) : Outside m root m' := by
  refine ⟨fun path p j hlen hp => ?_⟩
  unfold Mem.kfree at hfree
  split_ifs at hfree with hbad hmany
  · cases hfree
    rfl
  cases hfree
  have hal : Aligned q := by
    have hmod : q % PGSIZE = 0 := by
      by_contra hne
      exact hbad (.inl hne)
    have := congrArg BitVec.toNat hmod
    simpa [toNat_umod, PGSIZE, Aligned] using this
  have hne : p ≠ q := by
    rintro rfl
    exact hq path hlen hp
  have hout : ¬ slot p j - q < PGSIZE := fun hin => hne ((slot_mem_page (h.node_aligned hp) hal).1 hin)
  simp [Mem.memset, hout]

theorem removed_one (h : Shaped m root) (ho : Outside m root m') (ha : a < MAXVA)
    (hp : leaf m root a = some p) (hv : m.word (slot p (index 0 a)) &&& PTE_V ≠ 0#64) :
    Removed m root (a.toNat / 4096) 1 (m'.store (slot p (index 0 a)) 0) := by
  have hp' : leaf m' root a = some p := by rw [leaf, ho.nodes _ (by simp)]; exact hp
  refine .one (ho.shaped h) ho.same ha hp' ?_ (by simp)
  rw [translate_eq_pageMap ha, ho.same, ← translate_eq_pageMap ha, translate_eq ha, hp]
  simp [hv]

/-- The frames that are to be freed are not pages of the table. -/
def FramesApart (m : Mem) (root : Word) (doFree : Bool) : Prop :=
  doFree = true → ∀ va pte path, va < MAXVA → translate m root va = some pte → path.length ≤ 2 →
    node m.child root path ≠ some (PTE2PA pte)

theorem uvmunmapLoop_spec (turns : Nat) (h : Shaped m root)
    (hap : FramesApart m root doFree) (hloop : uvmunmapLoop m root a stop doFree turns = .ok m') :
    ∃ n, Removed m root (a.toNat / 4096) n m' ∧ stop.toNat ≤ a.toNat + n * 4096 ∧
      ∀ k < n, a.toNat + k * 4096 < stop.toNat := by
  induction turns generalizing m a with
  | zero => cases hloop
  | succ turns ih =>
    unfold uvmunmapLoop at hloop
    by_cases hstop : a < stop
    · rw [if_pos hstop] at hloop
      by_cases ha : a < MAXVA
      · rw [walk_read ha, bind_ok] at hloop
        cases hp : leaf m root a with
        | none =>
          rw [hp] at hloop
          cases hloop
        | some p =>
          rw [hp] at hloop
          simp only [Option.map_some] at hloop
          by_cases hv : m.word (slot p (index 0 a)) &&& PTE_V = 0#64
          · rw [if_pos hv] at hloop
            cases hloop
          rw [if_neg hv] at hloop
          by_cases hleaf : PTE_FLAGS (m.word (slot p (index 0 a))) = PTE_V
          · rw [if_pos hleaf] at hloop
            cases hloop
          rw [if_neg hleaf] at hloop
          obtain ⟨m1, hfree, hloop⟩ := bind_eq_ok.1 hloop
          have htr : translate m root a = some (m.word (slot p (index 0 a))) := by
            rw [translate_eq ha, hp]
            simp [hv]
          have ho : Outside m root m1 := by
            cases doFree with
            | false =>
              cases hfree
              exact ⟨fun _ _ _ _ _ => rfl⟩
            | true => exact kfree_outside h hfree fun path hlen => hap rfl a _ path ha htr hlen
          have hone := removed_one h ho ha hp hv
          have hap' : FramesApart (m1.store (slot p (index 0 a)) 0) root doFree := by
            intro hd va pte path hva hpte hlen
            rw [translate_eq_pageMap hva, hone.map] at hpte
            split_ifs at hpte
            rw [← translate_eq_pageMap hva] at hpte
            have hp1 : leaf m1 root a = some p := by rw [leaf, ho.nodes _ (by simp)]; exact hp
            rw [(node_store (ho.shaped h) hp1 (by simp)).2 path hlen, ho.nodes path hlen]
            exact hap hd va pte path hva hpte hlen
          obtain ⟨n, hrem, hle, hlt⟩ := ih hone.shaped hap' hloop
          have hnext := next_page ha
          have hfirst : (a + PGSIZE).toNat / 4096 = a.toNat / 4096 + 1 := by omega
          rw [hfirst] at hrem
          refine ⟨n + 1, hone.append hrem fun _ => rfl, by omega, fun k hk => ?_⟩
          cases k with
          | zero => simpa [lt_def] using hstop
          | succ k =>
            have := hlt k (by omega)
            omega
      · rw [walk_halts ha] at hloop
        cases hloop
    · rw [if_neg hstop] at hloop
      cases hloop
      refine ⟨0, .zero h rfl, ?_, nofun⟩
      rw [lt_def] at hstop
      omega

theorem uvmunmapLoop_ends (turns : Nat)
    (hturns : 2 ^ 38 ≤ a.toNat + turns * 4096) : uvmunmapLoop m root a stop doFree (turns + 1) ≠ .stuck := by
  induction turns generalizing m a with
  | zero =>
    have ha : ¬ a < MAXVA := by
      rw [lt_MAXVA_iff]
      omega
    unfold uvmunmapLoop
    rw [walk_halts ha]
    split_ifs <;> nofun
  | succ turns ih =>
    unfold uvmunmapLoop
    by_cases hstop : a < stop
    · rw [if_pos hstop]
      by_cases ha : a < MAXVA
      · have hnext := next_page ha
        rw [walk_read ha, bind_ok]
        cases leaf m root a with
        | none => nofun
        | some p =>
          simp only [Option.map_some]
          split_ifs
          · nofun
          · nofun
          · cases hkf : m.kfree (PTE2PA (m.word (slot p (index 0 a)))) with
            | stuck =>
              unfold Mem.kfree at hkf
              split_ifs at hkf
            | halt e => nofun
            | ok m1 => exact ih (by omega)
          · exact ih (by omega)
      · rw [walk_halts ha]
        nofun
    · rw [if_neg hstop]
      nofun

/-! ## The map of the table -/

/-- The map `f` with the entries `e 0, …, e (n - 1)` from page `first` on. -/
def extend (f : Nat → Option Word) (first n : Nat) (e : Nat → Word) (i : Nat) : Option Word :=
  if first ≤ i ∧ i < first + n then some (e (i - first)) else f i

/-- The map `f` without `n` pages from page `first` on. -/
def remove (f : Nat → Option Word) (first n : Nat) (i : Nat) : Option Word :=
  if first ≤ i ∧ i < first + n then none else f i

/-- The number of the last page of a range, computed as the code does. -/
def lastPage (va size : Word) : Nat := (va + size - 1).toNat / 4096

theorem lastPage_of_small (hs : size ≠ 0) (h : va.toNat + size.toNat - 1 < 2 ^ 64) :
    lastPage va size = (va.toNat + size.toNat - 1) / 4096 := by
  have hpos : size.toNat ≠ 0 := fun h0 => hs (eq_of_toNat_eq (by simpa using h0))
  have hone : (1 : Word).toNat = 1 := rfl
  unfold lastPage
  rw [toNat_sub, toNat_add, hone]
  congr 1
  omega

theorem mappages_spec {r : Bool} (h : Shaped m root) (hf : Spare m root)
    (hmap : mappages m root va size pa perm = .ok (r, m')) :
    ∃ n, Extended m root (va.toNat / 4096) n pa perm m' ∧ Spare m' root ∧
      if r = true then va.toNat / 4096 ≤ lastPage va size ∧ n = lastPage va size - va.toNat / 4096 + 1
      else m'.freelist = [] ∧ n ≤ (va.toNat + size.toNat - 1) / 4096 - va.toNat / 4096 := by
  unfold mappages at hmap
  by_cases hs : size = 0
  · rw [if_pos hs] at hmap
    cases hmap
  rw [if_neg hs] at hmap
  obtain ⟨n, hext, hspare, hr⟩ := mappagesLoop_spec h hf hmap
  have hlast := PGROUNDDOWN_toNat (va + size - 1)
  have hfirst := PGROUNDDOWN_toNat va
  have hpage : (PGROUNDDOWN va).toNat / 4096 = va.toNat / 4096 := by omega
  change _ = lastPage va size * 4096 at hlast
  rw [hpage] at hext
  refine ⟨n, hext, hspare, ?_⟩
  cases r with
  | true =>
    simp only [if_true] at hr ⊢
    omega
  | false =>
    simp only [Bool.false_eq_true, if_false] at hr ⊢
    refine ⟨hr.1, ?_⟩
    -- the last page was not reached, whether or not the end of the range is above 2^64
    by_contra hlong
    have hsmall := hext.small
    have hl := lastPage_of_small hs (show va.toNat + size.toNat - 1 < 2 ^ 64 by omega)
    refine hr.2 (lastPage va size - va.toNat / 4096) (by omega) ?_
    have hpos : size.toNat ≠ 0 := fun h0 => hs (eq_of_toNat_eq (by simpa using h0))
    omega

theorem mappages_ends (h : Shaped m root) (hf : Spare m root) : mappages m root va size pa perm ≠ .stuck := by
  unfold mappages
  split_ifs
  · nofun
  · intro hstuck
    have := mappagesLoop_spec h hf hstuck (2 ^ 26) (by decide)
    omega

theorem uvmunmap_spec (h : Shaped m root) (hap : FramesApart m root doFree)
    (hunmap : uvmunmap m root va npages doFree = .ok m') :
    ∃ n, Removed m root (va.toNat / 4096) n m' ∧ n = ((va + npages * PGSIZE).toNat - va.toNat) / 4096 := by
  unfold uvmunmap at hunmap
  split_ifs at hunmap with hal
  obtain ⟨n, hrem, hle, hlt⟩ := uvmunmapLoop_spec _ h hap hunmap
  refine ⟨n, hrem, ?_⟩
  have hstop : (va + npages * PGSIZE).toNat = (va.toNat + npages.toNat * 4096) % 2 ^ 64 := by
    rw [toNat_add, toNat_mul, show PGSIZE.toNat = 4096 from rfl]
    omega
  cases n with
  | zero => omega
  | succ n =>
    have := hlt n (by omega)
    omega

theorem uvmunmap_ends : uvmunmap m root va npages doFree ≠ .stuck := by
  unfold uvmunmap
  split_ifs
  · nofun
  · exact uvmunmapLoop_ends _ (by omega)

/-- A memory of zeros with two free pages: an empty table. -/
def blank : Mem := { word := fun _ => 0, freelist := [0x80002000, 0x80003000], fr := fun _ => 0, endAddr := 0x80000000 }

theorem blank_child (p : Word) (i : Fin 512) : blank.child p i = none := child_eq_none.2 zero_and_V

theorem blank_node (path : List (Fin 512)) (q : Word) (h : node blank.child 0x80001000 path = some q) :
    path = [] ∧ q = 0x80001000 := by
  cases path with
  | nil =>
    cases h
    exact ⟨rfl, rfl⟩
  | cons i path =>
    obtain ⟨p, -, hc⟩ := node_tail h
    rw [blank_child] at hc
    cases hc

theorem blank_shaped : Shaped blank 0x80001000 := by
  refine ⟨rfl, fun path path' p _ _ hp hp' => ?_⟩
  rw [(blank_node path p hp).1, (blank_node path' p hp').1]

theorem blank_spare : Spare blank 0x80001000 := by
  refine ⟨by decide, by simp [blank, Aligned], fun p hp path _ hn => ?_⟩
  rw [(blank_node path p hn).2] at hp
  exact absurd hp (by decide)

/-- Page 5 is mapped in it, and unmapped again. -/
def mapAndUnmap : Outcome Panic (Mem × Mem) :=
  (mappages blank 0x80001000 0x5000 0x1000 0x80009000 6).bind fun (_, m1) =>
    (uvmunmap m1 0x80001000 0x5000 1 false).bind fun m2 => .ok (m1, m2)

theorem mapAndUnmap_ok : ∃ m1 m2, mappages blank 0x80001000 0x5000 0x1000 0x80009000 6 = .ok (true, m1) ∧
    uvmunmap m1 0x80001000 0x5000 1 false = .ok m2 := by
  obtain ⟨m1, h1⟩ : ∃ m1, mappages blank 0x80001000 0x5000 0x1000 0x80009000 6 = .ok (true, m1) := ⟨_, rfl⟩
  have hok : mapAndUnmap.isOk = true := by decide +kernel
  unfold mapAndUnmap at hok
  simp only [h1, bind_ok] at hok
  cases h2 : uvmunmap m1 0x80001000 0x5000 1 false with
  | ok m2 => exact ⟨m1, m2, h1, h2⟩
  | halt e | stuck =>
    rw [h2] at hok
    cases hok

end Xv6Riscv.PageTable
