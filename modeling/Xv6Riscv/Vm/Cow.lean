import Xv6Riscv.Vm.Space

/-!
# Sharing pages: `uvmcopy`, `handleCOW` and `copyout`

`uvmcopy` turns every user page of the parent into one that both processes refer to, before it counts the
second reference. `handleCOW` gives the process a page of its own again: the shared page itself when the
count says that nobody else refers to it, and a copy otherwise. `copyout` asks neither the flags nor the
count.
-/
namespace Xv6Riscv.Vm
open Multiset Threads Function
variable {β : Type} {Q : Bool → View → Prop}

variable {k : Cond} {t : Tid} {v v' : View} {f root pa : Frame} {i n : Nat} {P R : Multiset Frame} {S : List Nat}
  {pte : Pte} {perm : Perm}

/-- The flags that `uvmcopy` leaves. -/
def Perm.share (perm : Perm) : Perm := { perm with w := false, cow := true }

def Pte.share (pte : Pte) : Pte := ⟨pte.pa, pte.perm.share⟩

theorem Table.Fits.share (h : Table.Fits n i pte) : Table.Fits n i pte.share := ⟨h.leaf, h.user, nofun⟩

theorem Table.Fits.unshare (h : Table.Fits n i pte) (pa : Frame) : Table.Fits n i ⟨pa, pte.perm.unshare⟩ :=
  ⟨h.leaf, h.user, fun _ => rfl⟩

/-! ## `uvmcopy` -/

theorem wp_sharePte {Q : Unit → View → Prop} (hr : Ready t v) (hs : Space v root P R)
    (hget : (v.table root).get i = some pte) (hi : i < TRAPFRAME)
    (hQ : ∀ v', Space v' root P R → Grows root v v' → v'.table root = (v.table root).setPte i pte.share → Q () v') :
    Wp k t (setPte root i pte.share) v Q := by
  have hreach := Table.reaches_of_get hget
  have hown := Table.own_clear hget
  have hsh := Table.shared_clear hget
  have hown' := Table.own_setPte hreach pte.share
  have hsh' := Table.shared_setPte hreach pte.share
  cases hcow : pte.perm.cow with
  | true =>
    simp only [ownPte, refPte, hi, hcow, Pte.share, Perm.share, and_self, if_true, and_false, if_false, zero_add,
      singleton_add, Bool.true_eq_false] at hown hsh hown' hsh'
    refine wp_setPte hr hs.mem_root (hQ _ ⟨?_, ?_⟩ (Grows.setT root v _) (View.setT_table _ _ _))
    · simp only [View.setT_pages, View.setT_table, Pte.share, Perm.share, hown', hs.pages, hown]
    · simp only [View.setT_refs, View.setT_table, Pte.share, Perm.share, hsh', hs.refs, hsh]
  | false =>
    simp only [ownPte, refPte, hi, hcow, Pte.share, Perm.share, and_self, if_true, and_false, if_false, zero_add,
      singleton_add, Bool.true_eq_false, Bool.false_eq_true] at hown hsh hown' hsh'
    have hp : v.pages = pte.pa ::ₘ root ::ₘ (((v.table root).clearPte i).own + P) := by
      rw [hs.pages, hown, cons_add, cons_swap]
    refine Wp.bind (wp_getTable hr hs.mem_root (.act hr fun _ => ⟨_, .share pte.pa _ hp, mem_cons_self _ _, ?_⟩))
    refine hQ _ ⟨?_, ?_⟩ ⟨⟨rfl, rfl, rfl, rfl, fun g _ hne => update_of_ne hne _ _, fun _ _ => rfl⟩,
      fun g hg => ?_⟩ (update_self _ _ _)
    · simp only [update_self, Pte.share, Perm.share, hown']
    · simp only [update_self, Pte.share, Perm.share, hsh', hs.refs, hsh, cons_add]
    · rw [hp] at hg
      simpa [or_assoc, or_left_comm] using hg

variable {next fail : K β}

theorem wp_countRef {Q : β → View → Prop} (hr : Ready t v) (hl : v.lock = none)
    (hf : f ∈ v.refs) (hQ : Wp k t next { v with refs := f ::ₘ v.refs } Q) :
    Wp k t (memrefLock >>= fun _ => memrefGet f >>= fun fq => memrefSet f (fq + 1) >>= fun _ =>
      memrefUnlock >>= fun _ => next) v Q := by
  refine Wp.bind (.act hr fun _ => ⟨hl, ?_⟩)
  refine Wp.bind (.act hr fun _ => ⟨_, rfl, mem_add.2 (.inr hf), fun m _ _ => ?_⟩)
  refine Wp.bind (.act hr fun _ => .inl ⟨_, .share _ m rfl rfl hf rfl, ?_⟩)
  refine Wp.bind (.act hr fun _ => ⟨nofun, ?_⟩)
  rwa [← View.unlock_eq (v := { v with refs := f ::ₘ v.refs }) hl] at hQ

variable {a b new : Frame}

theorem Space.swap (h : Space v a (b ::ₘ ((v.table b).own + P)) ((v.table b).shared + R)) :
    Space v b (a ::ₘ ((v.table a).own + P)) ((v.table a).shared + R) := by
  refine ⟨?_, ?_⟩
  · rw [h.pages]
    simp only [add_cons]
    rw [cons_swap, add_left_comm]
  · rw [h.refs, add_left_comm]

theorem Grows.table_other (h : Grows a v v') (hb : b ∈ v.pages) (hne : b ≠ a) : v'.table b = v.table b :=
  h.table b (mem_add.2 (.inl hb)) hne

variable {v₀ v : View}

/-- Work on a table that the view `v₀` does not know. -/
theorem Grows.aside (h : Grows root v₀ v) (hnew : new ∉ v₀.pages + v₀.refs)
    (h' : Grows new v v') : Grows root v₀ v' := by
  have hne : ∀ g ∈ v₀.pages + v₀.refs, g ≠ new := fun g hg he => hnew (he ▸ hg)
  exact ⟨⟨h'.zero.trans h.zero, h'.lock.trans h.lock, h'.self.trans h.self, h'.child.trans h.child,
    fun g hg hr => (h'.table g (h.keeps g hg) (hne g hg)).trans (h.table g hg hr),
    fun g hg => (h'.mem g (h.keeps g hg)).trans (h.mem g hg)⟩, fun g hg => h'.keeps g (h.keeps g hg)⟩

theorem Beside.aside (h : Beside root v₀ v) (hnew : new ∉ v₀.pages + v₀.refs)
    (h' : Frees new v v') : Beside root v₀ v' where
  zero := h'.zero.trans h.zero
  lock := h'.lock.trans h.lock
  self := h'.self.trans h.self
  child := h'.child.trans h.child
  table g hg hne := (h'.table g fun he => hnew (he ▸ hg)).trans (h.table g hg hne)
  mem g hg := by rw [h'.mem]; exact h.mem g hg

/-- `uvmcopy` has come to page `i`: `old` had `n` user pages in the view `v₀`, and the table `new`, which
`v₀` does not know, has the first `i` of them. -/
structure Copied (old new : Frame) (P R : Multiset Frame) (n : Nat) (S : List Nat) (v₀ : View) (i : Nat) (v : View) :
    Prop extends Grows old v₀ v where
  space : Space v old (new ::ₘ ((v.table new).own + P)) ((v.table new).shared + R)
  oldShape : (v.table old).Shape n S
  newShape : (v.table new).Shape i S
  shared : ∀ j, (v.table old).get j = if j < i then ((v₀.table old).get j).map Pte.share else (v₀.table old).get j
  same : ∀ j < i, (v.table new).get j = (v.table old).get j

section
variable {old new : Frame} {v₀ v1 v2 : View}

section
variable (h : Copied old new P R n S v₀ i v)
include h

theorem Copied.get_first (hget : (v.table old).get i = some pte) : (v₀.table old).get i = some pte := by
  rw [← hget, h.shared, if_neg (lt_irrefl i)]

/-- What the entries of the parent are after the first write of a turn. -/
theorem Copied.shared_succ (hget : (v.table old).get i = some pte)
    (hT : v1.table old = (v.table old).setPte i pte.share) (j : Nat) :
    (v1.table old).get j = if j < i + 1 then ((v₀.table old).get j).map Pte.share else (v₀.table old).get j := by
  rw [hT, Table.get_setPte (Table.reaches_of_get hget), h.shared]
  by_cases hj : j = i
  · subst hj
    simp [h.get_first hget]
  · have : j < i ↔ j < i + 1 := by omega
    simp [hj, this]

/-- The turn is over: the child's entry is there, and counted. -/
theorem Copied.succ (hi : i < n) (hget : (v.table old).get i = some pte)
    (hT1 : v1.table old = (v.table old).setPte i pte.share) (hshape1 : (v1.table old).Shape n S)
    (hnew1 : v1.table new = v.table new) (hw : Widened new v1 v2) (hreach : reaches (v2.table new).dirs i = true)
    (hnone : (v2.table new).get i = none)
    (hs : Space v2 new (old ::ₘ ((v1.table old).own + P)) ((v1.table old).shared + R)) (hg : Grows old v₀ v')
    (hp : v'.pages = v2.pages) (hr : v'.refs = pte.pa ::ₘ v2.refs) (hold : v'.table old = v1.table old)
    (hnew : v'.table new = (v2.table new).setPte i pte.share) : Copied old new P R n S v₀ (i + 1) v' := by
  have hi' : i < TRAPFRAME := hi.trans_le h.oldShape.small
  have hshared := h.shared_succ hget hT1
  have hgetn : ∀ j, (v2.table new).get j = (v.table new).get j := fun j => by rw [hw.get, hnew1]
  refine { toGrows := hg, space := ?_, oldShape := ?_, newShape := ?_, shared := ?_, same := ?_ }
  · have hsh := Table.shared_setPte_new hreach hnone pte.share
    have hown := Table.own_setPte_new hreach hnone pte.share
    simp only [ownPte, refPte, hi', Pte.share, Perm.share, and_self, if_true, and_false, if_false, zero_add,
      singleton_add, Bool.true_eq_false] at hsh hown
    have hsn : Space v' new (old ::ₘ ((v'.table old).own + P)) ((v'.table old).shared + R) := by
      refine ⟨?_, ?_⟩
      · rw [hp, hold, hnew, Pte.share, Perm.share, hown, hs.pages]
      · rw [hr, hold, hnew, Pte.share, Perm.share, hsh, hs.refs, cons_add]
    exact hsn.swap
  · rw [hold]
    exact hshape1
  · rw [hnew]
    have hf := (h.oldShape.fits i pte hget).share
    refine (h.newShape.congr hgetn).map_user hreach hi' ⟨hf.leaf, fun _ => Nat.lt_succ_self i, hf.sole⟩ ?_
    -- the child has the pages of the parent, and those are different
    intro j q hj hq hpa
    rw [hgetn, h.same j hj] at hq
    have := h.oldShape.inj j i q pte (hj.trans hi) hi hq hget hpa
    omega
  · rw [hold]
    exact hshared
  · intro j hj
    rw [hold, hnew, Table.get_setPte hreach, hgetn, hshared, if_pos hj]
    split_ifs with hji
    · subst hji
      rw [h.get_first hget]
      rfl
    · rw [h.same j (by omega), h.shared, if_pos (show j < i by omega)]

end

section
variable (hne : old ≠ new) (hnew : new ∉ v₀.pages + v₀.refs) (hr : Ready t v₀) (hl : v₀.lock = none)
include hne hnew hr hl

theorem Copied.turn {Q : β → View → Prop}
    (h : Copied old new P R n S v₀ i v)
    (hi : i < n) (hget : (v.table old).get i = some pte)
    (hfail : ∀ v', Grows old v₀ v' → Space v' old (new ::ₘ ((v'.table new).own + P)) ((v'.table new).shared + R) →
      (v'.table old).Shape n S → (v'.table new).Shape i S →
      (∀ j, (v'.table old).get j = if j < i + 1 then ((v₀.table old).get j).map Pte.share else (v₀.table old).get j) →
      Wp k t fail v' Q)
    (hok : ∀ v', Copied old new P R n S v₀ (i + 1) v' → Wp k t next v' Q) :
    Wp k t (setPte old i pte.share >>= fun _ => mappages new i pte.pa pte.perm.share >>= fun r =>
      if r then memrefLock >>= fun _ => memrefGet pte.pa >>= fun fq => memrefSet pte.pa (fq + 1) >>= fun _ =>
        memrefUnlock >>= fun _ => next
      else fail) v Q := by
  have hi' : i < TRAPFRAME := hi.trans_le h.oldShape.small
  refine Wp.bind (wp_sharePte (h.ready hr) h.space hget hi' fun v1 hs1 hg1 hT1 => ?_)
  have hshape1 : (v1.table old).Shape n S := by
    rw [hT1]
    refine h.oldShape.replace (Table.reaches_of_get hget) hi (h.oldShape.fits i pte hget).share
      fun j q hj hji hq hpa => ?_
    exact hji (h.oldShape.inj j i q pte hj hi hq hget hpa)
  have hnew1 : v1.table new = v.table new := by
    refine hg1.table_other ?_ hne.symm
    rw [h.space.pages]
    simp
  rw [← hnew1] at hs1
  have hg01 := h.toGrows.trans hg1
  have hchild1 : (v1.table new).Shape i S := by rw [hnew1]; exact h.newShape
  have hnone1 := hchild1.get_none le_rfl fun hS => absurd (hchild1.above i hS) (by omega)
  refine Wp.bind (wp_mappages (hg01.ready hr) (.inl (hg01.lock.trans hl)) hs1.swap.mem_root
    (hi'.trans (by decide)) hnone1 (fun _ v2 hw => ?_) fun v2 hw hreach hnone => ?_)
  · have hold2 : v2.table old = v1.table old := hw.table_other hs1.mem_root hne
    have hs2 := hs1.swap.widen hw
    rw [← hold2] at hs2 hshape1
    refine hfail v2 (hg01.aside hnew hw.toGrows) hs2.swap hshape1 (hchild1.congr hw.get) fun j => ?_
    rw [hold2]
    exact h.shared_succ hget hT1 j
  have hs2 := hs1.swap.widen hw
  have hg3 := hg01.aside hnew (hw.toGrows.trans (Grows.setT new v2 ((v2.table new).setPte i pte.share)))
  refine wp_countRef (hg3.ready hr) (hg3.lock.trans hl) ?_ (hok _ ?_)
  · -- the parent's entry refers to the page already
    have hold_get : (v1.table old).get i = some pte.share := by
      rw [hT1, Table.get_setPte (Table.reaches_of_get hget), if_pos rfl]
    rw [View.setT_refs, hs2.refs, Table.shared_clear hold_get]
    simp [refPte, hi', Pte.share, Perm.share]
  · refine h.succ hi hget hT1 hshape1 hnew1 hw hreach hnone hs2 ?_ rfl rfl ?_ (View.setT_table _ _ _)
    · refine ⟨⟨hg3.zero, hg3.lock, hg3.self, hg3.child, hg3.table, hg3.mem⟩, fun g hg => ?_⟩
      simp only [add_cons, mem_cons]
      exact .inr (hg3.keeps g hg)
    · exact (View.setT_table_ne v2 _ hne).trans (hw.table_other hs1.mem_root hne)

/-- The loop of `uvmcopy`, by induction on the pages to go. -/
theorem wp_uvmcopyLoop
    (hfail : ∀ v', Beside old v₀ v' → Space v' old (new ::ₘ ((v'.table new).own + P)) ((v'.table new).shared + R) →
      (v'.table old).Shape n S → (v'.table new).Shape 0 S →
      (∃ m, ∀ j, (v'.table old).get j = if j < m then ((v₀.table old).get j).map Pte.share else (v₀.table old).get j) →
      Q false v')
    (hok : ∀ v', Copied old new P R n S v₀ n v' → Q true v') (m : Nat) {i : Nat} (hm : i + m = n)
    (h : Copied old new P R n S v₀ i v) : Wp k t (uvmcopyLoop old new m i) v Q := by
  induction m generalizing i v with
  | zero =>
    obtain rfl : i = n := hm
    exact hok v h
  | succ m ih =>
    have hi : i < n := by omega
    have hi' : i < TRAPFRAME := hi.trans_le h.oldShape.small
    obtain ⟨pte, hget⟩ := h.oldShape.get_some (.inl hi)
    refine Wp.bind (wp_walk_get (h.ready hr) h.space.mem_root (hi'.trans (by decide)) hget ?_)
    refine h.turn hne hnew hr hl hi hget (fun v' hg hs ho hn hsh => ?_) fun v' h' => ih (by omega) h'
    -- the child's entries so far are taken back
    refine Wp.bind (wp_uvmunmap_free i (hg.ready hr) (hg.lock.trans hl) hs.swap (fun j _ hj => ?_)
      fun v3 hs3 hf3 hget3 => ?_)
    · rw [zero_add] at hj
      obtain ⟨q, hq⟩ := hn.get_some (.inl hj)
      exact ⟨hj.trans hi', q, hq, hn.perm_ne hq⟩
    · have hold3 : v3.table old = v'.table old := hf3.table old hne
      rw [← hold3] at hs3 ho hsh
      rw [zero_add] at hget3
      exact hfail v3 (hg.toBeside.aside hnew hf3) hs3.swap ho (hn.unmap (Nat.zero_le i) hget3) ⟨i + 1, hsh⟩

end

end

/-- What `uvmcopy` needs: the parent's table with all that hangs on it, and a new table without user pages. -/
theorem wp_uvmcopy {old : Frame} {sz : Nat} (hg : Grows old v₀ v)
    (hne : old ≠ new) (hnew : new ∉ v₀.pages + v₀.refs) (hr : Ready t v₀) (hl : v₀.lock = none)
    (hT : v.table old = v₀.table old)
    (hs : Space v old (new ::ₘ ((v.table new).own + P)) ((v.table new).shared + R))
    (hold : (v.table old).Shape (npages sz) S) (hnews : (v.table new).Shape 0 S)
    (hfail : ∀ v', Beside old v₀ v' → Space v' old (new ::ₘ ((v'.table new).own + P)) ((v'.table new).shared + R) →
      (v'.table old).Shape (npages sz) S → (v'.table new).Shape 0 S →
      (∃ m, ∀ j, (v'.table old).get j = if j < m then ((v₀.table old).get j).map Pte.share else (v₀.table old).get j) →
      Q false v')
    (hok : ∀ v', Copied old new P R (npages sz) S v₀ (npages sz) v' → Q true v') : Wp k t (uvmcopy old new sz) v Q := by
  refine wp_uvmcopyLoop hne hnew hr hl hfail hok _ (zero_add _)
    { toGrows := hg, space := hs, oldShape := hold, newShape := hnews, shared := fun j => ?_, same := nofun }
  rw [hT, if_neg (Nat.not_lt_zero j)]

/-! ## `handleCOW` -/

theorem wp_mappages_again (hr : Ready t v) (hp : root ∈ v.pages) (hi : i < MAXPG)
    (hreach : reaches (v.table root).dirs i = true) (hget : (v.table root).get i = none)
    (hQ : Q true (v.setT root ((v.table root).setPte i ⟨pa, perm⟩))) : Wp k t (mappages root i pa perm) v Q := by
  have hdir : ((v.table root).dirs.lookup (px 2 i)).isSome = true := by
    cases hd : (v.table root).dirs.lookup (px 2 i) with
    | some d => rfl
    | none =>
      unfold reaches at hreach
      rw [hd] at hreach
      cases hreach
  refine Wp.bind ?_
  unfold walk
  rw [if_neg (by omega)]
  refine Wp.bind (Wp.bind (wp_getTable hr hp ?_))
  simp only [hdir, if_true]
  refine Wp.bind (Wp.bind (wp_getTable hr hp ?_))
  simp only [hreach, if_true]
  refine Wp.bind (wp_getTable hr hp ?_)
  simp only [Table.slot, hreach, if_true, hget]
  exact Wp.bind (wp_setPte hr hp hQ)

/-- The process `p` has a page of its own again at page `i`, with the contents of the shared one. -/
structure Unshared (root : Frame) (v : View) (i : Nat) (pte : Pte) (v' : View) : Prop extends Beside root v v' where
  get : ∃ pa, v'.mem pa = v.mem pte.pa ∧
    ∀ j, (v'.table root).get j = if j = i then some ⟨pa, pte.perm.unshare⟩ else (v.table root).get j

theorem wp_takeLast {l : Lock} {Q : Unit → View → Prop} (hr : Ready t v) (hl : v.lock = some l)
    (hseen : l.seen = some (pte.pa, 1)) (hs : Space v root P R) (hshape : (v.table root).Shape n S)
    (hget : (v.table root).get i = some pte) (hi : i < n) (hcow : pte.perm.cow = true)
    (hQ : ∀ v', Space v' root P R → (v'.table root).Shape n S → Unshared root v i pte v' → Q () v') :
    Wp k t (setPte root i ⟨pte.pa, pte.perm.unshare⟩) v Q := by
  have hi' : i < TRAPFRAME := hi.trans_le hshape.small
  have hreach := Table.reaches_of_get hget
  have hown := Table.own_clear hget
  have hsh := Table.shared_clear hget
  have hown' := Table.own_setPte hreach ⟨pte.pa, pte.perm.unshare⟩
  have hsh' := Table.shared_setPte hreach ⟨pte.pa, pte.perm.unshare⟩
  simp only [ownPte, refPte, hi', hcow, Perm.unshare, and_self, if_true, and_false, if_false, zero_add,
    singleton_add, Bool.true_eq_false, Bool.false_eq_true] at hown hsh hown' hsh'
  have hrefs : v.refs = pte.pa ::ₘ (((v.table root).clearPte i).shared + R) := by rw [hs.refs, hsh, cons_add]
  refine Wp.bind (wp_getTable hr hs.mem_root (.act hr fun _ =>
    ⟨_, .own l pte.pa _ hl hseen hrefs, mem_cons_of_mem hs.mem_root, ?_⟩))
  refine hQ _ ⟨?_, ?_⟩ ?_ ⟨⟨rfl, rfl, rfl, rfl, fun g _ hne => update_of_ne hne _ _, fun _ _ => rfl⟩, pte.pa,
    rfl, fun j => ?_⟩
  · simp only [update_self, Perm.unshare, hown', hs.pages, hown, cons_add]
    rw [cons_swap]
  · simp only [update_self, Perm.unshare, hsh']
  · simp only [update_self]
    refine hshape.replace hreach hi ((hshape.fits i pte hget).unshare pte.pa) fun j q hj hji hq hpa => ?_
    exact hji (hshape.inj j i q pte hj hi hq hget hpa)
  · simp only [update_self, Table.get_setPte hreach]

theorem wp_takeCopy {l : Lock} {m : Nat} {Q : β → View → Prop} (hr : Ready t v)
    (hl : v.lock = some l) (hseen : l.seen = some (pte.pa, m)) (hm : 1 < m)
    (hs : Space v root (pa ::ₘ P) R) (hshape : (v.table root).Shape n S) (hget : (v.table root).get i = some pte)
    (hi : i < n) (hcow : pte.perm.cow = true) (hnew : ∀ j q, j < n → (v.table root).get j = some q → q.pa ≠ pa)
    (hQ : ∀ v', Space v' root P R → (v'.table root).Shape n S → v'.mem = v.mem → v'.zero = v.zero → v'.self = v.self →
      v'.child = v.child → v'.lock = some { l with seen := none } → (∀ f, f ≠ root → v'.table f = v.table f) →
      (∀ j, (v'.table root).get j = if j = i then some ⟨pa, pte.perm.unshare⟩ else (v.table root).get j) →
        Wp k t next v' Q) :
    Wp k t (uvmunmap root i 1 false >>= fun _ => mappages root i pa pte.perm.unshare >>= fun r =>
      if r then memrefSet pte.pa (m - 1) >>= fun _ => next else fail) v Q := by
  have hi' : i < TRAPFRAME := hi.trans_le hshape.small
  have hreach := Table.reaches_of_get hget
  have hown := Table.own_clear hget
  have hsh := Table.shared_clear hget
  -- the table after the entry is cleared and written again
  have hclear : reaches ((v.table root).clearPte i).dirs i = true := by simpa using hreach
  have hnone : ((v.table root).clearPte i).get i = none := by rw [Table.get_clearPte, if_pos rfl]
  have hown' := Table.own_setPte_new hclear hnone ⟨pa, pte.perm.unshare⟩
  have hsh' := Table.shared_setPte_new hclear hnone ⟨pa, pte.perm.unshare⟩
  simp only [ownPte, refPte, hi', hcow, Perm.unshare, and_self, if_true, and_false, if_false, zero_add,
    singleton_add, Bool.true_eq_false, Bool.false_eq_true] at hown hsh hown' hsh'
  have hgetj : ∀ j, (((v.table root).clearPte i).setPte i ⟨pa, pte.perm.unshare⟩).get j =
      if j = i then some ⟨pa, pte.perm.unshare⟩ else (v.table root).get j := by
    intro j
    rw [Table.get_setPte hclear, Table.get_clearPte]
    split_ifs <;> rfl
  have hrefs : v.refs = pte.pa ::ₘ (((v.table root).clearPte i).shared + R) := by rw [hs.refs, hsh, cons_add]
  refine Wp.bind (wp_uvmunmap_keep hr hs.mem_root (hi'.trans (by decide)) hget (hshape.perm_ne hget) ?_)
  refine Wp.bind (wp_mappages_again hr hs.mem_root (hi'.trans (by decide)) (by simpa using hreach) ?_ ?_)
  · rw [View.setT_table]
    exact hnone
  refine Wp.bind (.act hr fun _ => .inl ⟨_, .drop l m _ hl hseen hrefs hm rfl, ?_⟩)
  have hT : (((v.setT root ((v.table root).clearPte i)).setT root
      (((v.setT root ((v.table root).clearPte i)).table root).setPte i ⟨pa, pte.perm.unshare⟩)).table root) =
      ((v.table root).clearPte i).setPte i ⟨pa, pte.perm.unshare⟩ := by
    rw [View.setT_table, View.setT_table]
  refine hQ _ ⟨?_, ?_⟩ ?_ rfl rfl rfl rfl rfl (fun f hne => ?_) fun j => ?_
  · rw [hT]
    simp only [View.setT_pages, Perm.unshare, hown', hs.pages, hown, cons_add, add_cons]
  · rw [hT]
    simp only [Perm.unshare, hsh']
  · rw [hT]
    refine hshape.replace_get hi ((hshape.fits i pte hget).unshare pa) hgetj fun j q hj _ hq => hnew j q hj hq
  · simp only [View.setT_table_ne _ _ hne]
  · rw [hT]
    exact hgetj j

section
variable (hr : Ready t v) (hl : v.lock = none) (hs : Space v root P R) (hshape : (v.table root).Shape n S)
include hr hl hs hshape

theorem wp_handleCOW_fault
    (hget : (v.table root).get i = some pte)
    (hcow : pte.perm.cow = true) (hi : i < n) (hno : k.memory = false → Q false v)
    (hok : ∀ v', Space v' root P R → (v'.table root).Shape n S → Unshared root v i pte v' → Q true v') :
    Wp k t (do
      memrefLock
      setLockKalloc false
      let fq ← memrefGet pte.pa
      if fq = 1 then
        setPte root i ⟨pte.pa, pte.perm.unshare⟩
        setLockKalloc true
        memrefUnlock
        pure true
      else
        let mem ← kalloc
        cowCopy root i pte fq mem) v Q := by
  have hi' : i < TRAPFRAME := hi.trans_le hshape.small
  have href : pte.pa ∈ v.refs := by
    rw [hs.refs, Table.shared_clear hget]
    simp [refPte, hi', hcow]
  refine Wp.bind (.act hr fun _ => ⟨hl, ?_⟩)
  refine Wp.bind (.act hr fun _ => ⟨_, rfl, ?_⟩)
  refine Wp.bind (.act hr fun _ => ⟨_, rfl, mem_add.2 (.inr href), fun fq hpos _ => ?_⟩)
  by_cases hfq : fq = 1
  · subst hfq
    refine Wp.bind (wp_takeLast hr rfl rfl ⟨hs.pages, hs.refs⟩ hshape hget hi hcow fun v' hs' hshape' hu => ?_)
    have hr' := hu.ready hr
    refine Wp.bind (.act hr' fun _ => ⟨_, hu.lock, ?_⟩)
    refine Wp.bind (.act hr' fun _ => ⟨by simp, ?_⟩)
    exact hok _ ⟨hs'.pages, hs'.refs⟩ hshape' ⟨⟨hu.zero, hl.symm, hu.self, hu.child, hu.table, hu.mem⟩, hu.get⟩
  simp only [if_neg hfq]
  refine Wp.bind (wp_kalloc hr (.inr ⟨_, rfl, rfl⟩) (fun hk _ => ?_) fun f T hfp hfr => ?_)
  · refine Wp.bind (.act hr fun _ => ⟨by simp, ?_⟩)
    have := hno hk
    rwa [← View.unlock_eq (v := v) hl] at this
  have hne : pte.pa ≠ f := fun he => hfr (he ▸ href)
  have hb := Grows.gain root hfp hfr T (v.mem pte.pa)
  refine Wp.bind (.act hr fun _ => ⟨mem_cons_self f _, mem_add.2 (.inr href), ?_⟩)
  rw [View.gain_write]
  have hsrc : (View.gain { v with lock := some ⟨!false, some (pte.pa, fq)⟩ } f T fun _ => 5).mem pte.pa
    = v.mem pte.pa :=
    update_of_ne hne _ _
  rw [hsrc]
  have hs1 : Space { v with lock := some ⟨!false, some (pte.pa, fq)⟩ } root P R := ⟨hs.pages, hs.refs⟩
  have hT := View.gain_table (v := { v with lock := some ⟨!false, some (pte.pa, fq)⟩ }) hs.mem_root hfp T
    (v.mem pte.pa)
  have hnew : ∀ j q, j < n → (v.table root).get j = some q → q.pa ≠ f := by
    rintro j q hj hq rfl
    exact (mem_add.1 (hs.mem_of_get hq (hj.trans_le hshape.small))).elim hfp hfr
  refine wp_takeCopy (n := n) (S := S) hr rfl rfl (lt_of_le_of_ne (Nat.succ_le_of_lt hpos) (Ne.symm hfq))
    (hs1.gain hfp T _) (by rwa [hT]) (by rw [hT]; exact hget) hi hcow
    (by rw [hT]; exact hnew) fun v' hs' hshape' hmem hz hself hchild hlock htable hget' => ?_
  have hr' : Ready t v' := by
    unfold Ready at hr ⊢
    rwa [hself]
  refine Wp.bind (.act hr' fun _ => ⟨_, hlock, ?_⟩)
  refine Wp.bind (.act hr' fun _ => ⟨by simp, ?_⟩)
  refine hok _ ⟨hs'.pages, hs'.refs⟩ hshape' ⟨⟨hz, hl.symm, hself, hchild, fun g hg hgr => ?_, fun g hg => ?_⟩, f,
    ?_, ?_⟩
  · exact (htable g hgr).trans (hb.table g hg hgr)
  · rw [hmem]
    exact hb.mem g hg
  · rw [hmem]
    exact update_self _ _ _
  · rw [hT] at hget'
    exact hget'

/-- `handleCOW` refuses page 0 and what is not copy-on-write, and can run out of memory. Otherwise the
process has the page to itself when it is done. -/
theorem wp_handleCOW {va : Nat}
    (hno : (∀ pte, (v.table root).get (va / PGSIZE) = some pte → va / PGSIZE ≠ 0 → pte.perm.cow = true →
      pte.perm.u = true → k.memory = false) → Q false v)
    (hok : ∀ v' pte, (v.table root).get (va / PGSIZE) = some pte → va / PGSIZE ≠ 0 → pte.perm.cow = true →
      pte.perm.u = true → Space v' root P R → (v'.table root).Shape n S → Unshared root v (va / PGSIZE) pte v' →
        Q true v') : Wp k t (handleCOW root va) v Q := by
  unfold handleCOW
  split
  · -- beyond `MAXVA` there is no user page
    rename_i hva
    refine hno fun pte hget _ _ hu => ?_
    have huser := (hshape.fits _ _ hget).user hu
    have hbig : MAXPG ≤ va / PGSIZE := Nat.div_le_div_right hva
    exact absurd (huser.trans_le (hshape.small.trans (by decide : TRAPFRAME ≤ MAXPG))) (by omega)
  rename_i hva
  have hi : va / PGSIZE < MAXPG := Nat.div_lt_div_of_lt_of_dvd (by decide) (Nat.not_le.1 hva)
  generalize va / PGSIZE = i at *
  refine Wp.bind (wp_walk_read hr hs.mem_root hi ?_)
  cases hslot : (v.table root).slot i with
  | none => exact .panic hr rfl
  | some o =>
    have hget : (v.table root).get i = o := by
      unfold Table.slot at hslot
      split at hslot
      · exact Option.some.inj hslot
      · cases hslot
    cases o with
    | none => exact hno fun pte hpte => by rw [hget] at hpte; cases hpte
    | some pte =>
      dsimp only
      split
      · rename_i hrefuse
        refine hno fun q hq hne hcow hu => ?_
        rw [hget] at hq
        cases hq
        simp [hne, hcow, hu] at hrefuse
      · rename_i hrefuse
        simp only [not_or, Bool.not_eq_false] at hrefuse
        obtain ⟨hne, hcow, hu⟩ := hrefuse
        exact wp_handleCOW_fault hr hl hs hshape hget hcow ((hshape.fits i pte hget).user hu)
          (fun hk => hno fun _ _ _ _ _ => hk) fun v' => hok v' pte hget hne hcow hu

end

/-! ## `copyout` -/

/-- The byte that a process finds at `va`. -/
def View.byte (v : View) (root : Frame) (va : Nat) : Option UInt8 :=
  (v.page root (va / PGSIZE)).map fun p => p (va % PGSIZE)

theorem View.byte_write (hshape : (v.table root).Shape n S) (hget : (v.table root).get i = some pte)
    (hu : pte.perm.u = true) (x : Page) (va : Nat) :
    View.byte { v with mem := update v.mem pte.pa x } root va =
      if va / PGSIZE = i then some (x (va % PGSIZE)) else v.byte root va := by
  have hi : i < n := (hshape.fits _ _ hget).user hu
  unfold View.byte View.page
  split_ifs with hpage
  · simp [hpage, hget, hu]
  cases hq : (v.table root).get (va / PGSIZE) with
  | none => rfl
  | some q =>
    simp only [Option.bind_some]
    split_ifs with hqu
    · have hj : va / PGSIZE < n := (hshape.fits _ _ hq).user hqu
      have hne : q.pa ≠ pte.pa := fun hpa => hpage (hshape.inj _ _ q pte hj hi hq hget hpa)
      rw [update_of_ne hne]
    · rfl

/-- A byte on the page of `dst`, from `dst` on. -/
theorem View.byte_of_get {dst va : Nat} (hget : (v.table root).get (dst / PGSIZE) = some pte) (hu : pte.perm.u = true)
    (hle : dst ≤ va) (hlt : va < dst + (PGSIZE - dst % PGSIZE)) :
    va / PGSIZE = dst / PGSIZE ∧ v.byte root va ≠ none := by
  have hpage : va / PGSIZE = dst / PGSIZE := by
    unfold PGSIZE at *
    omega
  simp [View.byte, View.page, hpage, hget, hu]

/-- `src` is now at `dst`, up to the first byte that is not mapped. -/
def Placed (dst : Nat) (src : List UInt8) (b b' : Nat → Option UInt8) : Prop :=
  ∀ va, b' va = if dst ≤ va ∧ va < dst + src.length ∧ ∀ w, dst ≤ w → w ≤ va → b w ≠ none then src[va - dst]? else b va

section
variable {dst : Nat} {src : List UInt8} {b b₁ b₂ : Nat → Option UInt8}

theorem Placed.none (h : src = [] ∨ b dst = none) : Placed dst src b b := by
  intro va
  rw [if_neg]
  rintro ⟨hle, hlt, hall⟩
  rcases h with rfl | h
  · exact absurd hlt (Nat.not_lt.2 hle)
  · exact hall dst le_rfl hle h

theorem Placed.trans (hn : n ≤ src.length) (hall : ∀ w, dst ≤ w → w < dst + n → b w ≠ Option.none)
    (h : Placed dst (src.take n) b b₁) (h' : Placed (dst + n) (src.drop n) b₁ b₂) : Placed dst src b b₂ := by
  intro va
  have hlen : (src.take n).length = n := by simp [hn]
  have hold : ∀ w, dst + n ≤ w → b₁ w = b w := fun w hw => by rw [h w, if_neg (by omega)]
  rw [h' va]
  by_cases hin : dst ≤ va ∧ va < dst + n
  · rw [if_neg (by omega), h va, if_pos ⟨hin.1, by omega, fun w hw hle => hall w hw (by omega)⟩,
      if_pos ⟨hin.1, by omega, fun w hw hle => hall w hw (by omega)⟩, List.getElem?_take, if_pos (by omega)]
  by_cases hle : dst + n ≤ va
  · rw [hold va hle, List.getElem?_drop, show n + (va - (dst + n)) = va - dst by omega, List.length_drop]
    refine if_congr ⟨fun ⟨_, hlt, hw⟩ => ⟨by omega, by omega, fun w hd hv => ?_⟩,
      fun ⟨_, hlt, hw⟩ => ⟨hle, by omega, fun w hd hv => ?_⟩⟩ rfl rfl
    · by_cases hwn : w < dst + n
      · exact hall w hd hwn
      · rw [← hold w (by omega)]
        exact hw w (by omega) hv
    · rw [hold w hd]
      exact hw w (by omega) hv
  · rw [if_neg (by omega), h va, if_neg (by omega), if_neg (by omega)]

end

/-- `copyout` of `src` has come to its end. What the thread has beside the table is untouched, where the pages written
are the table's alone. -/
structure Wrote (k : Cond) (root : Frame) (P R : Multiset Frame) (v : View) (dst : Nat) (src : List UInt8) (v' : View) :
    Prop where
  frame : ∃ m, v' = { v with mem := m }
  others : k.copyout = true ∨ (v.table root).shared = 0 → ∀ f ∈ P + R, v'.mem f = v.mem f
  bytes : Placed dst src (v.byte root) (v'.byte root)

namespace Wrote
variable {dst : Nat} {src : List UInt8}

theorem none (k : Cond) (P R : Multiset Frame) (h : src = [] ∨ v.byte root dst = Option.none) :
    Wrote k root P R v dst src v :=
  ⟨⟨v.mem, rfl⟩, fun _ _ _ => rfl, .none h⟩

theorem trans {v'' : View} (h : Wrote k root P R v dst (src.take n) v') (hn : n ≤ src.length)
    (hall : ∀ w, dst ≤ w → w < dst + n → v.byte root w ≠ Option.none)
    (h' : Wrote k root P R v' (dst + n) (src.drop n) v'') : Wrote k root P R v dst src v'' := by
  obtain ⟨m, rfl⟩ := h.frame
  obtain ⟨m', rfl⟩ := h'.frame
  exact ⟨⟨m', rfl⟩, fun hk f hf => (h'.others hk f hf).trans (h.others hk f hf), h.bytes.trans hn hall h'.bytes⟩

theorem page (hs : Space v root P R) (hv : Valid v) (hshape : (v.table root).Shape n S)
    (hget : (v.table root).get (dst / PGSIZE) = some pte) (hu : pte.perm.u = true)
    (hone : k.copyout = true → v.refs.count pte.pa ≤ 1) (hlen : src.length ≤ PGSIZE - dst % PGSIZE) :
    Wrote k root P R v dst src
      { v with mem := update v.mem pte.pa (splice (v.mem pte.pa) (dst % PGSIZE) src) } := by
  have hi : dst / PGSIZE < n := (hshape.fits _ _ hget).user hu
  have hi' : dst / PGSIZE < TRAPFRAME := hi.trans_le hshape.small
  refine ⟨⟨_, rfl⟩, fun hk f hf => update_of_ne ?_ _ _, fun va => ?_⟩
  · rcases mem_add.1 hf with hf | hf
    · exact (hs.pa_ne hv hget hi' hf).symm
    rintro rfl
    have hsh := Table.shared_clear hget
    have href : pte.pa ∈ v.refs := by
      rw [hs.refs]
      exact mem_add.2 (.inr hf)
    cases hcow : pte.perm.cow with
    | false => exact hv.apart pte.pa (hs.mem_pages hget hi' hcow) href
    | true =>
      simp only [refPte, hi', hcow, and_self, if_true, singleton_add] at hsh
      rcases hk with hk | hk
      · have := hone hk
        rw [hs.refs, hsh, cons_add, count_cons_self, count_add] at this
        have := count_pos.2 hf
        omega
      · rw [hk] at hsh
        exact absurd hsh.symm cons_ne_zero
  · rw [View.byte_write hshape hget hu]
    split_ifs with hpage hin hin
    · have hmod : dst % PGSIZE ≤ va % PGSIZE ∧ va % PGSIZE - dst % PGSIZE = va - dst := by
        unfold PGSIZE at *
        omega
      rw [splice, if_pos hmod.1, hmod.2, List.getElem?_eq_getElem (by omega)]
      rfl
    · have hout : ¬ (dst ≤ va ∧ va < dst + src.length) := by
        rintro ⟨hle, hlt⟩
        exact hin ⟨hle, hlt, fun w hw hwle => (View.byte_of_get hget hu hw (by omega)).2⟩
      have hold : v.byte root va = some (v.mem pte.pa (va % PGSIZE)) := by simp [View.byte, View.page, hpage, hget, hu]
      rw [hold, splice]
      split_ifs
      · rw [List.getElem?_eq_none (by unfold PGSIZE at *; omega)]
        rfl
      · rfl
    · exact absurd (View.byte_of_get hget hu hin.1 (by omega)).1 hpage
    · rfl

end Wrote

/-- The loop of `copyout`, by induction on the turns. -/
theorem wp_copyoutLoop (fuel : Nat) {dst : Nat} {src : List UInt8} (hr : Ready t v)
    (hs : Space v root P R) (hshape : (v.table root).Shape n S) (hfuel : src.length ≤ fuel)
    (hQ : ∀ ok v', Wrote k root P R v dst src v' → Q ok v') : Wp k t (copyoutLoop root fuel dst src) v Q := by
  induction fuel generalizing v dst src with
  | zero => exact hQ true v (.none k P R (.inl (List.length_eq_zero_iff.1 (Nat.le_zero.1 hfuel))))
  | succ fuel ih =>
    refine Wp.bind (wp_walkaddr hr hs.mem_root (fun hno => hQ false v (.none k P R (.inr ?_))) fun pte hget hu => ?_)
    · unfold View.byte View.page
      cases hget : (v.table root).get (dst / PGSIZE) with
      | none => rfl
      | some pte =>
        have hu : pte.perm.u ≠ true := fun hu => hno pte hget
          (((hshape.fits _ _ hget).user hu).trans_le (hshape.small.trans (by decide))) hu
        simp [hu]
    have hi : dst / PGSIZE < TRAPFRAME := ((hshape.fits _ _ hget).user hu).trans_le hshape.small
    refine Wp.bind (.act hr fun hv => ⟨hs.mem_of_get hget hi, fun hone => ?_⟩)
    have hle : min (PGSIZE - dst % PGSIZE) src.length ≤ src.length := min_le_right _ _
    have hw : Wrote k root P R v dst (src.take (min (PGSIZE - dst % PGSIZE) src.length)) _ :=
      .page hs hv hshape hget hu hone (by simp)
    have hall : ∀ w, dst ≤ w → w < dst + min (PGSIZE - dst % PGSIZE) src.length → v.byte root w ≠ none :=
      fun w hw hlt => (View.byte_of_get hget hu hw (by omega)).2
    have hs1 : Space { v with mem := update v.mem pte.pa (splice (v.mem pte.pa) (dst % PGSIZE)
      (src.take (min (PGSIZE - dst % PGSIZE) src.length))) } root P R := ⟨hs.pages, hs.refs⟩
    split
    · rename_i hnil
      exact hQ true _ (hw.trans hle hall (.none k P R (.inl hnil)))
    rename_i hne
    have hn : min (PGSIZE - dst % PGSIZE) src.length = PGSIZE - dst % PGSIZE := by
      rw [List.drop_eq_nil_iff] at hne
      omega
    have hmod : dst % PGSIZE < PGSIZE := Nat.mod_lt _ (by decide)
    have hdst : (dst / PGSIZE + 1) * PGSIZE = dst + min (PGSIZE - dst % PGSIZE) src.length := by
      have := Nat.div_add_mod' dst PGSIZE
      rw [hn, Nat.add_mul]
      omega
    rw [hdst]
    exact ih hr hs1 hshape (by rw [List.length_drop]; omega) fun ok v' hw' => hQ ok v' (hw.trans hle hall hw')

theorem wp_copyout {dst : Nat} {src : List UInt8} (hr : Ready t v)
    (hs : Space v root P R) (hshape : (v.table root).Shape n S)
    (hQ : ∀ ok v', Wrote k root P R v dst src v' → Q ok v') : Wp k t (copyout root dst src) v Q := by
  unfold copyout
  split
  · exact hQ true v (.none k P R (.inl ‹_›))
  · exact wp_copyoutLoop _ hr hs hshape le_rfl hQ

end Xv6Riscv.Vm
