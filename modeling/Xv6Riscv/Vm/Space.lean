import Mathlib.Data.Fintype.Card
import Xv6Riscv.Vm.Alloc

/-!
# Address spaces: making, growing, shrinking and freeing them

`Space v root P R`: the thread with the view `v` has the page table at `root` with all that hangs on it, and
besides it the pages `P` and the references `R`. Each function below keeps that, and says which user
pages there are afterwards.
-/
namespace Xv6Riscv.Vm
open Multiset Threads
variable {Q : Unit → View → Prop} {a newsz : Nat}

variable {k : Cond} {t : Tid} {v v' : View} {f root pa : Frame} {i n : Nat} {P R : Multiset Frame} {S : List Nat}
  {pte : Pte} {perm : Perm}

structure Space (v : View) (root : Frame) (P R : Multiset Frame) : Prop where
  pages : v.pages = root ::ₘ ((v.table root).own + P)
  refs : v.refs = (v.table root).shared + R

namespace Space

theorem mem_root (h : Space v root P R) : root ∈ v.pages := by
  rw [h.pages]
  exact mem_cons_self _ _

theorem widen (h : Space v root P R) (hw : Widened root v v') : Space v' root P R := by
  obtain ⟨new, hp, ho⟩ := hw.pages
  refine ⟨?_, ?_⟩
  · rw [hp, ho, h.pages, add_cons, add_assoc]
  · rw [hw.refs, hw.shared, h.refs]

theorem gain (h : Space v root P R) (hf : f ∉ v.pages) (T : Table) (x : Page) :
    Space (v.gain f T x) root (f ::ₘ P) R := by
  have hT := View.gain_table h.mem_root hf T x
  refine ⟨?_, ?_⟩
  · rw [hT, View.gain_pages, h.pages, add_cons, cons_swap]
  · rw [hT, View.gain_refs, h.refs]

theorem map_own (h : Space v root (pa ::ₘ P) R) (hreach : reaches (v.table root).dirs i = true)
    (hget : (v.table root).get i = none) (hi : i < TRAPFRAME) (hcow : perm.cow = false) :
    Space (v.setT root ((v.table root).setPte i ⟨pa, perm⟩)) root P R := by
  refine ⟨?_, ?_⟩
  · simp [h.pages, Table.own_setPte_new hreach hget, ownPte, hi, hcow, cons_add, add_cons]
  · simp [h.refs, Table.shared_setPte_new hreach hget, refPte, hcow]

theorem map_special (h : Space v root P R) (hreach : reaches (v.table root).dirs i = true)
    (hget : (v.table root).get i = none) (hi : TRAPFRAME ≤ i) :
    Space (v.setT root ((v.table root).setPte i pte)) root P R := by
  have : ¬ i < TRAPFRAME := by omega
  refine ⟨?_, ?_⟩
  · simp [h.pages, Table.own_setPte_new hreach hget, ownPte, this]
  · simp [h.refs, Table.shared_setPte_new hreach hget, refPte, this]

theorem clear_special (h : Space v root P R) (hget : (v.table root).get i = some pte) (hi : TRAPFRAME ≤ i) :
    Space (v.setT root ((v.table root).clearPte i)) root P R := by
  have : ¬ i < TRAPFRAME := by omega
  refine ⟨?_, ?_⟩
  · simp [h.pages, Table.own_clear hget, ownPte, this]
  · simp [h.refs, Table.shared_clear hget, refPte, this]

end Space

variable {v'' v v₀ : View}

theorem Frees.trans (h : Frees root v v') (h' : Frees root v' v'') : Frees root v v'' where
  zero := h'.zero.trans h.zero
  lock := h'.lock.trans h.lock
  self := h'.self.trans h.self
  child := h'.child.trans h.child
  table f hne := (h'.table f hne).trans (h.table f hne)
  mem := h'.mem.trans h.mem

theorem Frees.ready (h : Frees root v v') (hr : Ready t v) : Ready t v' := by
  unfold Ready at hr ⊢
  rwa [h.self]

/-! ## `uvmunmap` and `freewalk` -/

theorem wp_free_pte {β : Type} {next : K β} {Q : β → View → Prop} (hr : Ready t v) (hl : v.lock = none)
    (hs : Space v root P R) (hget : (v.table root).get i = some pte) (hi : i < TRAPFRAME)
    (hQ : ∀ v', Space v' root P R → Frees root v v' → (v'.table root) = (v.table root).clearPte i → Wp k t next v' Q) :
    Wp k t (kfree pte.pa >>= fun _ => clearPte root i >>= fun _ => next) v Q := by
  have hown := Table.own_clear hget
  have hsh := Table.shared_clear hget
  cases hcow : pte.perm.cow with
  | false =>
    simp only [ownPte, refPte, hi, hcow, and_self, if_true, singleton_add, and_false, if_false, zero_add,
      Bool.false_eq_true] at hown hsh
    have hpages : v.pages = pte.pa ::ₘ root ::ₘ (((v.table root).clearPte i).own + P) := by
      rw [hs.pages, hown, cons_add, cons_swap]
    refine Wp.bind (wp_kfree_page hr hl hpages (Wp.bind (wp_clearPte hr (mem_cons_self _ _) ?_)))
    refine hQ _ ⟨?_, ?_⟩ ⟨rfl, rfl, rfl, rfl, fun f hne => View.setT_table_ne _ _ hne, rfl⟩ (by simp)
    · simp
    · simp [hs.refs, hsh]
  | true =>
    simp only [ownPte, refPte, hi, hcow, and_self, if_true, singleton_add, and_false, if_false, zero_add,
      Bool.true_eq_false] at hown hsh
    have hrefs : v.refs = pte.pa ::ₘ (((v.table root).clearPte i).shared + R) := by
      rw [hs.refs, hsh, cons_add]
    refine Wp.bind (wp_kfree_ref hr hl hrefs (Wp.bind (wp_clearPte hr hs.mem_root ?_)))
    refine hQ _ ⟨?_, ?_⟩ ⟨rfl, rfl, rfl, rfl, fun f hne => View.setT_table_ne _ _ hne, rfl⟩ (by simp)
    · simp [hs.pages, hown]
    · simp

variable {i sz b oldsz : Nat}

/-- The loop of `uvmunmap`, by induction on the pages to go. -/
theorem wp_uvmunmap_free (n : Nat) (hr : Ready t v) (hl : v.lock = none) (hs : Space v root P R)
    (hleaf : ∀ j, i ≤ j → j < i + n → j < TRAPFRAME ∧ ∃ pte, (v.table root).get j = some pte ∧ pte.perm ≠ {})
    (hQ : ∀ v', Space v' root P R → Frees root v v' →
      (∀ j, (v'.table root).get j = if i ≤ j ∧ j < i + n then none else (v.table root).get j) → Q () v') :
    Wp k t (uvmunmap root i n true) v Q := by
  induction n generalizing v i with
  | zero =>
    refine hQ v hs ⟨rfl, rfl, rfl, rfl, fun _ _ => rfl, rfl⟩ fun j => ?_
    rw [if_neg (by omega)]
  | succ n ih =>
    obtain ⟨hi, pte, hget, hne⟩ := hleaf i le_rfl (by omega)
    refine Wp.bind (wp_walk_get hr hs.mem_root (hi.trans (by decide)) hget ?_)
    simp only [if_neg hne, if_true]
    refine wp_free_pte hr hl hs hget hi fun v1 hs1 hf1 hT => ?_
    refine ih (hf1.ready hr) (hf1.lock.trans hl) hs1 (fun j hj hjn => ?_) fun v2 hs2 hf2 hget2 => ?_
    · rw [hT, Table.get_clearPte, if_neg (by omega)]
      exact hleaf j (by omega) (by omega)
    · refine hQ v2 hs2 (hf1.trans hf2) fun j => ?_
      rw [hget2, hT, Table.get_clearPte]
      split_ifs <;> first | rfl | omega

theorem wp_freewalkSubs {T : Table} (hT : T.ptes = ∅) {n : Nat} (subs : List (Sigma fun _ : Nat => Frame))
    (hr : Ready t v) (hl : v.lock = none)
    (hp : v.pages = (subs.map fun e => ({e.2} : Multiset Frame)).sum + P) (hQ : Q () { v with pages := P }) :
    Wp k t (freewalkSubs T n subs) v Q := by
  induction subs generalizing v with
  | nil =>
    simp only [List.map_nil, List.sum_nil, zero_add] at hp
    subst hp
    exact hQ
  | cons e es ih =>
    simp only [List.map_cons, List.sum_cons, singleton_add, cons_add] at hp
    refine Wp.bind ?_
    simp only [freewalkSub, hT]
    refine wp_kfree_page hr hl hp ?_
    exact ih hr hl rfl hQ

theorem wp_freewalkDirs {T : Table} (hT : T.ptes = ∅) (dirs : List (Sigma fun _ : Nat => Dir))
    (hr : Ready t v) (hl : v.lock = none)
    (hp : v.pages = (dirs.map fun e => e.2.pages).sum + P) (hQ : Q () { v with pages := P }) :
    Wp k t (freewalkDirs T dirs) v Q := by
  induction dirs generalizing v with
  | nil =>
    simp only [List.map_nil, List.sum_nil, zero_add] at hp
    subst hp
    exact hQ
  | cons e es ih =>
    have hsubs : Tally.total (fun _ f => ({f} : Multiset Frame)) e.2.subs =
        ((inOrder e.2.subs).map fun e => ({e.2} : Multiset Frame)).sum :=
      ((List.perm_insertionSort _ _).map _).sum_eq.symm
    simp only [List.map_cons, List.sum_cons, Dir.pages, hsubs] at hp
    refine Wp.bind (wp_freewalkSubs hT _ hr hl (P := e.2.page ::ₘ ((es.map fun e => e.2.pages).sum + P)) ?_ ?_)
    · rw [hp]
      simp only [cons_add, add_cons, add_assoc, Dir.pages]
    · exact Wp.bind (wp_kfree_page hr hl rfl (ih hr hl rfl hQ))

theorem wp_freewalk (hr : Ready t v) (hl : v.lock = none) (hs : Space v root P R)
    (hbare : ∀ j, (v.table root).get j = none) (hQ : Q () { v with pages := P }) : Wp k t (freewalk root) v Q := by
  refine Wp.bind (wp_getTable hr hs.mem_root (Wp.bind ?_))
  have hdirs : (v.table root).dirPages = ((inOrder (v.table root).dirs).map fun e => e.2.pages).sum :=
    ((List.perm_insertionSort _ _).map _).sum_eq.symm
  refine wp_freewalkDirs (Table.bare hbare) _ hr hl (P := root ::ₘ P) ?_ (wp_kfree_page hr hl rfl hQ)
  rw [hs.pages, Table.own_bare hbare, hdirs, add_cons]

theorem wp_uvmfree (hr : Ready t v) (hl : v.lock = none) (hs : Space v root P R)
    (hshape : (v.table root).Shape (npages sz) [])
    (hQ : ∀ v', v'.pages = P → v'.refs = R → Frees root v v' → Q () v') : Wp k t (uvmfree root sz) v Q := by
  refine Wp.bind (wp_uvmunmap_free _ hr hl hs (fun j _ hj => ?_) fun v1 hs1 hf1 hget => ?_)
  · rw [zero_add] at hj
    obtain ⟨pte, hpte⟩ := hshape.get_some (.inl hj)
    exact ⟨hj.trans_le hshape.small, pte, hpte, hshape.perm_ne hpte⟩
  have hbare : ∀ j, (v1.table root).get j = none := by
    intro j
    rw [hget]
    split_ifs with hj
    · rfl
    · exact hshape.get_none (by omega) List.not_mem_nil
  refine wp_freewalk (hf1.ready hr) (hf1.lock.trans hl) hs1 hbare
    (hQ _ rfl ?_ (hf1.trans ⟨rfl, rfl, rfl, rfl, fun _ _ => rfl, rfl⟩))
  rw [hs1.refs, Table.shared_bare hbare, zero_add]

/-! ## `proc_pagetable` and `proc_freepagetable` -/

/-- From `v` to `v'`, nothing that the thread has is different. -/
structure Keeps (v v' : View) : Prop where
  pages : v'.pages = v.pages
  refs : v'.refs = v.refs
  beside : ∀ root, Beside root v v'

theorem Keeps.table (h : Keeps v v') (hf : f ∈ v.pages + v.refs) : v'.table f = v.table f :=
  (h.beside (f + 1)).table f hf (Nat.succ_ne_self f).symm

theorem wp_uvmcreate {Q : Option Frame → View → Prop} (hr : Ready t v) (hl : Unlocked v) (hnone : Q none v)
    (hsome : ∀ root, root ∉ v.pages → root ∉ v.refs → Q (some root) (v.gain root .empty fun _ => 0)) :
    Wp k t uvmcreate v Q := by
  refine Wp.bind (wp_kalloc hr hl (fun _ _ => hnone) fun root T hp hf => ?_)
  refine Wp.bind (.act hr fun _ => .inr ⟨mem_cons_self root _, ?_⟩)
  rw [View.gain_write]
  refine Wp.bind (wp_setTable hr (mem_cons_self root _) ?_)
  have hgain : (v.gain root T fun _ => 0).setT root .empty = v.gain root .empty fun _ => 0 := by
    simp [View.setT, View.gain]
  rw [hgain]
  exact hsome root hp hf

/-- A new table, and the view `v₀` of the thread beside it. -/
structure Apart (root : Frame) (v₀ v : View) : Prop extends Space v root v₀.pages v₀.refs, Grows root v₀ v where
  fresh : root ∉ v₀.pages + v₀.refs

namespace Apart
variable {v₀ : View}

theorem lift (h : Apart root v₀ v) (hs : Space v' root v₀.pages v₀.refs) (hb : Beside root v v') :
    Apart root v₀ v' where
  toSpace := hs
  toBeside := h.toGrows.beside hb
  keeps f hf := by
    rw [hs.pages, hs.refs]
    rcases mem_add.1 hf with hf | hf <;> simp [hf]
  fresh := h.fresh

theorem widen (h : Apart root v₀ v) (hw : Widened root v v') :
    Apart root v₀ v' := h.lift (h.toSpace.widen hw) hw.toBeside

theorem close (h : Apart root v₀ v) (hp : v'.pages = v₀.pages) (hr : v'.refs = v₀.refs) (hf : Frees root v v') :
    Keeps v₀ v' :=
  ⟨hp, hr, (h.toBeside.frees hf).fresh h.fresh⟩

theorem create (hp : root ∉ v.pages) (hf : root ∉ v.refs) : Apart root v (v.gain root .empty fun _ => 0) where
  pages := by simp [View.gain]
  refs := by simp [View.gain]
  toGrows := .gain root hp hf _ _
  fresh hm := (mem_add.1 hm).elim hp hf

theorem map_special (h : Apart root v₀ v) (hreach : reaches (v.table root).dirs i = true)
    (hget : (v.table root).get i = none) (hi : TRAPFRAME ≤ i) :
    Apart root v₀ (v.setT root ((v.table root).setPte i pte)) :=
  h.lift (h.toSpace.map_special hreach hget hi) (Grows.setT root v _).toBeside

theorem clear_special (h : Apart root v₀ v) (hget : (v.table root).get i = some pte) (hi : TRAPFRAME ≤ i) :
    Apart root v₀ (v.setT root ((v.table root).clearPte i)) :=
  h.lift (h.toSpace.clear_special hget hi) (Grows.setT root v _).toBeside

end Apart

theorem fits_special {perm : Perm} (hr : perm.r = true) (hu : perm.u = false) (hc : perm.cow = false) (n i : Nat)
    (pa : Frame) : Table.Fits n i ⟨pa, perm⟩ where
  leaf := hr
  user h := by rw [hu] at h; cases h
  sole _ := hc

theorem wp_procPagetable {tf tr : Frame} {Q : Option Frame → View → Prop} (hr : Ready t v) (hl : v.lock = none)
    (hnone : ∀ v', Keeps v v' → Q none v')
    (hsome : ∀ root v', Apart root v v' → (v'.table root).Shape 0 [TRAPFRAME, TRAMPOLINE] → Q (some root) v') :
    Wp k t (procPagetable tf tr) v Q := by
  have hkeep : Keeps v v := ⟨rfl, rfl, fun root => (Grows.refl root v).toBeside⟩
  refine Wp.bind (wp_uvmcreate hr (.inl hl) (hnone v hkeep) fun root hp hf => ?_)
  have ha := Apart.create hp hf
  have hsh : ((v.gain root .empty fun _ => 0).table root).Shape 0 [] := by simpa [View.gain] using Table.Shape.empty
  refine Wp.bind (wp_mappages hr (.inl hl) ha.mem_root (by decide) (hsh.get_none (Nat.zero_le _) List.not_mem_nil)
    (fun _ v2 hw2 => ?_) fun v2 hw2 hreach hget => ?_)
  · have ha2 := ha.widen hw2
    refine Wp.bind (wp_uvmfree (hw2.ready hr) (hw2.lock.trans hl) ha2.toSpace (hsh.congr hw2.get) fun v3 hp3 hr3 hf3 =>
      ?_)
    exact hnone v3 (ha2.close hp3 hr3 hf3)
  have ha2 := ha.widen hw2
  have ha3 : Apart root v (v2.setT root ((v2.table root).setPte TRAMPOLINE ⟨tr, { r := true, x := true }⟩)) :=
    ha2.map_special hreach hget (by decide)
  have hsh3 : ((v2.table root).setPte TRAMPOLINE ⟨tr, { r := true, x := true }⟩).Shape 0 [TRAMPOLINE] :=
    (hsh.congr hw2.get).map_special hreach (by decide) (fits_special rfl rfl rfl _ _ _)
  rw [← View.setT_table v2 root (Table.setPte _ _ _)] at hsh3
  have hr3 := ha3.ready hr
  have hl3 := ha3.lock.trans hl
  refine Wp.bind (wp_mappages hr3 (.inl hl3) ha3.mem_root (by decide) (hsh3.get_none (Nat.zero_le _) (by decide))
    (fun _ v4 hw4 => ?_) fun v4 hw4 hreach4 hget4 => ?_)
  · have ha4 := ha3.widen hw4
    have hsh4 := hsh3.congr hw4.get
    obtain ⟨pte, hpte⟩ := hsh4.get_some (.inr List.mem_cons_self)
    refine Wp.bind (wp_uvmunmap_keep (ha4.ready hr) ha4.mem_root (by decide) hpte (hsh4.perm_ne hpte) ?_)
    have ha5 := ha4.clear_special hpte (by decide)
    have hsh5 := hsh4.clear_special List.not_mem_nil
    rw [← View.setT_table v4 root (Table.clearPte _ _)] at hsh5
    refine Wp.bind (wp_uvmfree (ha5.ready hr) (ha5.lock.trans hl) ha5.toSpace hsh5 fun v6 hp6 hr6 hf6 => ?_)
    exact hnone v6 (ha5.close hp6 hr6 hf6)
  · have ha4 := ha3.widen hw4
    refine hsome root _ (ha4.map_special hreach4 hget4 le_rfl) ?_
    rw [View.setT_table]
    exact (hsh3.congr hw4.get).map_special hreach4 le_rfl (fits_special rfl rfl rfl _ _ _)

theorem wp_procFreepagetable (hr : Ready t v) (hl : v.lock = none)
    (hs : Space v root P R) (hshape : (v.table root).Shape (npages sz) [TRAPFRAME, TRAMPOLINE])
    (hQ : ∀ v', v'.pages = P → v'.refs = R → Frees root v v' → Q () v') : Wp k t (procFreepagetable root sz) v Q := by
  -- `Shape.clear_special` takes the entries off in the order in which they were made
  have hswap : (v.table root).Shape (npages sz) [TRAMPOLINE, TRAPFRAME] :=
    { hshape with
      above := fun i hi => hshape.above i (by simpa [or_comm] using hi)
      dom := fun i => by rw [hshape.dom]; simp [or_comm] }
  obtain ⟨pte1, h1⟩ := hswap.get_some (.inr List.mem_cons_self)
  refine Wp.bind (wp_uvmunmap_keep hr hs.mem_root (by decide) h1 (hswap.perm_ne h1) ?_)
  have hs1 := hs.clear_special h1 (by decide)
  have hsh1 := hswap.clear_special (by decide)
  have hf1 := Frees.setT root v ((v.table root).clearPte TRAMPOLINE)
  rw [← View.setT_table v root (Table.clearPte _ _)] at hsh1
  generalize v.setT root _ = v1 at *
  obtain ⟨pte2, h2⟩ := hsh1.get_some (.inr List.mem_cons_self)
  refine Wp.bind (wp_uvmunmap_keep (hf1.ready hr) hs1.mem_root (by decide) h2 (hsh1.perm_ne h2) ?_)
  have hs2 := hs1.clear_special h2 le_rfl
  have hsh2 := hsh1.clear_special List.not_mem_nil
  have hf2 := hf1.trans (Frees.setT root v1 ((v1.table root).clearPte TRAPFRAME))
  rw [← View.setT_table v1 root (Table.clearPte _ _)] at hsh2
  exact wp_uvmfree (hf2.ready hr) (hf2.lock.trans hl) hs2 hsh2 fun v3 hp3 hr3 hf3 => hQ v3 hp3 hr3 (hf2.trans hf3)

/-! ## User pages -/

/-- The page that a process finds at page `i` of the table at `root`, if it may use it. -/
def View.page (v : View) (root : Frame) (i : Nat) : Option Page :=
  ((v.table root).get i).bind fun pte => if pte.perm.u then some (v.mem pte.pa) else none

section
variable (h : Space v root P R) (hget : (v.table root).get i = some pte) (hi : i < TRAPFRAME)
include h hget hi

theorem Space.mem_of_get :
    pte.pa ∈ v.pages + v.refs := by
  rw [mem_add, h.pages, h.refs, Table.own_clear hget, Table.shared_clear hget]
  cases hcow : pte.perm.cow with
  | false => exact .inl (by simp [ownPte, hi, hcow])
  | true => exact .inr (by simp [refPte, hi, hcow])

theorem Space.mem_pages
    (hcow : pte.perm.cow = false) : pte.pa ∈ v.pages := by
  rw [h.pages, Table.own_clear hget]
  simp [ownPte, hi, hcow]

end

theorem Space.pa_ne (h : Space v root P R) (hv : Valid v) (hget : (v.table root).get i = some pte) (hi : i < TRAPFRAME)
    (hf : f ∈ P) : pte.pa ≠ f := by
  rintro rfl
  cases hcow : pte.perm.cow with
  | false =>
    have hnd := hv.nodup
    rw [h.pages, Table.own_clear hget] at hnd
    simp only [ownPte, hi, hcow, and_self, if_true, singleton_add, cons_add] at hnd
    rw [cons_swap, nodup_cons] at hnd
    exact hnd.1 (by simp [hf])
  | true =>
    refine hv.apart pte.pa (by rw [h.pages]; simp [hf]) ?_
    rw [h.refs, Table.shared_clear hget]
    simp [refPte, hi, hcow]

/-- Memory is too small for a table that is full. -/
theorem Space.bounded (h : Space v root P R) (hv : Valid v) (hshape : (v.table root).Shape n S) : n ≤ PHYSTOP := by
  have hex : ∀ i : Fin n, ∃ pte, (v.table root).get i = some pte := fun i => hshape.get_some (.inl i.2)
  choose pte hpte using hex
  have hlt : ∀ i, (pte i).pa < PHYSTOP := fun i =>
    hv.below _ (h.mem_of_get (hpte i) (i.2.trans_le hshape.small))
  let g : Fin n → Fin PHYSTOP := fun i => ⟨(pte i).pa, hlt i⟩
  have hinj : Function.Injective g := by
    intro i j hij
    exact Fin.ext (hshape.inj i j _ _ i.2 j.2 (hpte i) (hpte j) (Fin.mk.inj hij))
  simpa using Fintype.card_le_of_injective g hinj

theorem npages_mul (n : Nat) : npages (n * PGSIZE) = n := by
  unfold npages PGSIZE
  omega

theorem npages_mono (h : a ≤ b) : npages a ≤ npages b :=
  Nat.div_le_div_right (by omega)

/-! ## `uvmdealloc` and `uvmalloc` -/

variable {Q : Nat → View → Prop}

theorem wp_uvmdealloc (hr : Ready t v) (hl : v.lock = none)
    (hs : Space v root P R) (hshape : (v.table root).Shape (npages oldsz) S) (hsame : oldsz ≤ newsz → Q oldsz v)
    (hless : ∀ v', newsz < oldsz → Space v' root P R → Frees root v v' → (v'.table root).Shape (npages newsz) S →
      (∀ j, (v'.table root).get j = if npages newsz ≤ j ∧ j < npages oldsz then none else (v.table root).get j) →
      Q newsz v') :
    Wp k t (uvmdealloc root oldsz newsz) v Q := by
  unfold uvmdealloc
  split
  · exact hsame ‹_›
  have hle : npages newsz ≤ npages oldsz := npages_mono (by omega)
  have hsum : npages newsz + (npages oldsz - npages newsz) = npages oldsz := by omega
  refine Wp.bind (wp_uvmunmap_free _ hr hl hs (fun j _ hj => ?_) fun v' hs' hf hget => ?_)
  · rw [hsum] at hj
    obtain ⟨pte, hpte⟩ := hshape.get_some (.inl hj)
    exact ⟨hj.trans_le hshape.small, pte, hpte, hshape.perm_ne hpte⟩
  · rw [hsum] at hget
    exact hless v' (by omega) hs' hf (hshape.unmap hle hget) hget

/-- A page of its own is mapped at the top of the user memory. -/
structure Mapped (root : Frame) (v : View) (i : Nat) (pte : Pte) (v' : View) : Prop extends Grows root v v' where
  get : ∀ j, j ≠ i → (v'.table root).get j = (v.table root).get j
  new : (v'.table root).get i = some pte
  zeroed : v'.mem pte.pa = fun _ => 0

theorem wp_mapZeroed {Q : Bool → View → Prop} (hr : Ready t v) (hl : v.lock = none) (hpa : v.mem pa = fun _ => 0)
    (hs : Space v root (pa ::ₘ P) R) (hshape : (v.table root).Shape i S) (hi : i < TRAPFRAME)
    (hnew : ∀ j q, j < i → (v.table root).get j = some q → q.pa ≠ pa) (hperm : perm.r = true)
    (hcow : perm.cow = false) (hfail : t ≠ none → ∀ v', Widened root v v' → Q false v')
    (hok : ∀ v', Space v' root P R → (v'.table root).Shape (i + 1) S → Mapped root v i ⟨pa, perm⟩ v' → Q true v') :
    Wp k t (mappages root i pa perm) v Q := by
  have hget : (v.table root).get i = none := hshape.get_none le_rfl fun hS => absurd (hshape.above i hS) (by omega)
  refine wp_mappages hr (.inl hl) hs.mem_root (hi.trans (by decide)) hget hfail fun v1 hw hreach hget1 => ?_
  have hfit : Table.Fits (i + 1) i ⟨pa, perm⟩ := ⟨hperm, fun _ => Nat.lt_succ_self i, fun _ => hcow⟩
  refine hok _ ((hs.widen hw).map_own hreach hget1 hi hcow) ?_ ⟨hw.toGrows.trans (.setT root v1 _),
    fun j hj => ?_, ?_, ?_⟩
  · rw [View.setT_table]
    exact (hshape.congr hw.get).map_user hreach hi hfit fun j q hj => by rw [hw.get]; exact hnew j q hj
  · rw [View.setT_table, Table.get_setPte hreach, if_neg hj, hw.get]
  · rw [View.setT_table, Table.get_setPte hreach, if_pos rfl]
  · have hmem : pa ∈ v.pages + v.refs := by
      rw [hs.pages]
      simp
    rw [View.setT_mem, hw.mem pa hmem, hpa]

/-- The user pages from `a` up to `b` are new. -/
structure Grown (root : Frame) (v : View) (a b : Nat) (perm : Perm) (v' : View) : Prop extends Grows root v v' where
  old : ∀ j, ¬ (a ≤ j ∧ j < b) → (v'.table root).get j = (v.table root).get j
  new : ∀ j, a ≤ j → j < b → ∃ pa, (v'.table root).get j = some ⟨pa, perm⟩ ∧ v'.mem pa = fun _ => 0

theorem Grown.refl (root : Frame) (v : View) (a : Nat) (perm : Perm) : Grown root v a a perm v :=
  ⟨.refl root v, fun _ _ => rfl, fun j h h' => absurd h' (by omega)⟩

theorem Grown.succ (h : Grown root v a b perm v') (hab : a ≤ b) (hs : Space v' root P R)
    (hb : b ≤ TRAPFRAME) (hm : Mapped root v' b ⟨pa, perm⟩ v'') : Grown root v a (b + 1) perm v'' := by
  refine ⟨h.toGrows.trans hm.toGrows, fun j hj => ?_, fun j ha hj => ?_⟩
  · rw [hm.get j (by omega)]
    exact h.old j (by omega)
  by_cases hjb : j = b
  · subst hjb
    exact ⟨pa, hm.new, hm.zeroed⟩
  · obtain ⟨pa, hpa, hz⟩ := h.new j ha (by omega)
    refine ⟨pa, (hm.get j hjb).trans hpa, ?_⟩
    rw [hm.mem pa (hs.mem_of_get hpa (by omega)), hz]

section
variable (hr : Ready t v₀) (hl : v₀.lock = none) (hshape₀ : (v₀.table root).Shape a S)
include hr hl hshape₀

theorem wp_undo
    (hs : Space v root P R) (hshape : (v.table root).Shape i S)
    (hb : Beside root v₀ v) (hold : ∀ j, ¬ (a ≤ j ∧ j < i) → (v.table root).get j = (v₀.table root).get j)
    (hfail : ∀ v', Space v' root P R → Beside root v₀ v' → (∀ j, (v'.table root).get j = (v₀.table root).get j) →
    Q 0 v') : Wp k t (uvmdealloc root (i * PGSIZE) (a * PGSIZE) >>= fun _ => pure 0) v Q := by
  have hshape' : (v.table root).Shape (npages (i * PGSIZE)) S := by rwa [npages_mul]
  refine Wp.bind (wp_uvmdealloc (hb.ready hr) (hb.lock.trans hl) hs hshape' (fun hle => ?_) fun v' _ hs' hf _ hget =>
    ?_)
  · have : i ≤ a := Nat.le_of_mul_le_mul_right hle (by decide)
    exact hfail v hs hb fun j => hold j (by omega)
  refine hfail v' hs' (hb.frees hf) fun j => ?_
  simp only [npages_mul] at hget
  rw [hget]
  split_ifs with hj
  · have hS : j ∉ S := fun hS => by
      have := hshape.small
      have := hshape.above j hS
      omega
    exact (hshape₀.get_none hj.1 hS).symm
  · exact hold j hj

/-- The loop of `uvmalloc`, by induction on the pages to go. The pages from `a` up to `i` are mapped. -/
theorem wp_uvmallocLoop {xperm : Perm}
    (hx : xperm.cow = false)
    (hfail : ∀ v', Space v' root P R → Beside root v₀ v' → (∀ j, (v'.table root).get j = (v₀.table root).get j) →
    Q 0 v') (n : Nat) (hai : a ≤ i) (hs : Space v root P R) (hshape : (v.table root).Shape i S)
    (hg : Grown root v₀ a i { xperm with r := true, u := true } v)
    (hok : ∀ v', Space v' root P R → (v'.table root).Shape (i + n) S →
      Grown root v₀ a (i + n) { xperm with r := true, u := true } v' → Q newsz v') :
    Wp k t (uvmallocLoop root (a * PGSIZE) newsz xperm n i) v Q := by
  induction n generalizing i v with
  | zero => exact hok v hs hshape hg
  | succ n ih =>
    have hrv := hg.ready hr
    have hlv := hg.lock.trans hl
    refine Wp.bind (wp_kalloc hrv (.inl hlv) (fun _ _ => ?_) fun f T hfp hfr => ?_)
    · exact wp_undo hr hl hshape₀ hs hshape hg.toBeside hg.old hfail
    refine Wp.bind (.act hrv fun hv => .inr ⟨mem_cons_self f _, ?_⟩)
    rw [View.gain_write]
    have hi : i < TRAPFRAME := by
      have hshape5 : ((v.gain f T fun _ => 5).table root).Shape i S := by rwa [View.gain_table hs.mem_root hfp]
      exact ((hs.gain hfp T _).bounded hv hshape5).trans_lt (by decide)
    have hnew : ∀ j q, j < i → (v.table root).get j = some q → q.pa ≠ f := by
      rintro j q hj hq rfl
      exact (mem_add.1 (hs.mem_of_get hq (hj.trans hi))).elim hfp hfr
    have hs1 := hs.gain hfp T fun _ => 0
    have hT := View.gain_table hs.mem_root hfp T fun _ => 0
    have hg1 := hg.toGrows.trans (.gain root hfp hfr T fun _ => 0)
    have hz : (v.gain f T fun _ => 0).mem f = fun _ => 0 := Function.update_self _ _ _
    have hshape1 : ((v.gain f T fun _ => 0).table root).Shape i S := by rwa [hT]
    have hold1 : Grown root v₀ a i { xperm with r := true, u := true } (v.gain f T fun _ => 0) := by
      refine ⟨hg1, by rw [hT]; exact hg.old, fun j haj hj => ?_⟩
      obtain ⟨pa, hpa, hpz⟩ := hg.new j haj hj
      have hmem := hs.mem_of_get hpa (hj.trans_le hshape.small)
      exact ⟨pa, by rw [hT, hpa], by rw [(Grows.gain root hfp hfr T fun _ => 0).mem pa hmem, hpz]⟩
    rw [← hT] at hnew
    have hr1 := hold1.ready hr
    have hl1 := hold1.lock.trans hl
    refine Wp.bind (wp_mapZeroed hr1 hl1 hz hs1 hshape1 hi hnew rfl hx (fun _ v2 hw => ?_) fun v2 hs2 hshape2 hm => ?_)
    · have hs2 := hs1.widen hw
      have hp2 : v2.pages = f ::ₘ root ::ₘ ((v2.table root).own + P) := by rw [hs2.pages, add_cons, cons_swap]
      refine Wp.bind (wp_kfree_page (hw.ready hr1) (hw.lock.trans hl1) hp2 ?_)
      refine wp_undo hr hl hshape₀ ⟨rfl, hs2.refs⟩ (hshape1.congr hw.get) (hg1.beside ?_)
        (fun j hj => (hw.get j).trans (hold1.old j hj)) hfail
      exact ⟨hw.zero, hw.lock, hw.self, hw.child, hw.table, hw.mem⟩
    · refine ih (by omega) hs2 hshape2 (hold1.succ hai hs1 hshape.small hm) fun v' hs' hshape' hg' => ?_
      rw [Nat.add_assoc, Nat.add_comm 1] at hshape' hg'
      exact hok v' hs' hshape' hg'

end

theorem wp_uvmalloc {xperm : Perm} (hr : Ready t v) (hl : v.lock = none)
    (hs : Space v root P R) (hshape : (v.table root).Shape (npages oldsz) S) (hx : xperm.cow = false)
    (hless : newsz < oldsz → Q oldsz v)
    (hfail : ∀ v', Space v' root P R → Beside root v v' → (∀ j, (v'.table root).get j = (v.table root).get j) → Q 0 v')
    (hok : ∀ v', oldsz ≤ newsz → Space v' root P R → (v'.table root).Shape (npages newsz) S →
      Grown root v (npages oldsz) (npages newsz) { xperm with r := true, u := true } v' → Q newsz v') :
    Wp k t (uvmalloc root oldsz newsz xperm) v Q := by
  unfold uvmalloc
  split
  · exact hless ‹_›
  have hle : npages oldsz ≤ npages newsz := npages_mono (by omega)
  have hsum : npages oldsz + (npages newsz - npages oldsz) = npages newsz := by omega
  refine wp_uvmallocLoop hr hl hshape hx hfail _ le_rfl hs hshape (.refl root v _ _) fun v' hs' hshape' hg => ?_
  rw [hsum] at hshape' hg
  exact hok v' (by omega) hs' hshape' hg

end Xv6Riscv.Vm
