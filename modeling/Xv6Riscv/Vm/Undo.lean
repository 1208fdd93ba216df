import Xv6Riscv.Vm.Solo

/-!
# What a call has taken, and gives back when it fails

A call that builds an address space takes pages off the free list and references to the pages it shares, and every one
of its failing exits has to return them. `Drawn s₀ s X Y` says what a thread that runs alone has taken since `s₀`: the
pages `X`, with count 1, and the references `Y`. A call has returned all when both are empty (`Drawn.returned`).

The pages of a table under construction are its root and `Table.own`, its references `Table.shared`: `Span`.
-/
namespace Xv6Riscv.Vm
open Multiset Threads Machine Function
variable {s'' : Kern} {new old : Frame}

variable {c : Slot} {s₀ s s' : Kern} {root f : Frame} {i n : Nat} {X Y : Multiset Frame} {pte : Pte}
  {perm : Perm} {T : Table}

/-- The state at the start: nobody has the lock, and the free pages are pages with count 0. -/
structure Ground (s₀ : Kern) : Prop where
  unlocked : s₀.holder = none
  nodup : s₀.freelist.Nodup
  zero : ∀ f ∈ s₀.freelist, s₀.fr f = 0
  frame : ∀ f ∈ s₀.freelist, s₀.isFrame f = true

theorem Ground.notMem (g : Ground s₀) {l : Multiset Frame} (h : (s₀.freelist : Multiset Frame) = f ::ₘ X + l) :
    f ∉ X := by
  have hnd : (f ::ₘ X).Nodup := nodup_of_le (le_add_right _ _) (h ▸ coe_nodup.2 g.nodup)
  exact (nodup_cons.1 hnd).1

/-- A page in use, to which a reference can be added. -/
structure InUse (s₀ : Kern) (f : Frame) : Prop where
  used : f ∉ s₀.freelist
  count : 0 < s₀.fr f
  frame : s₀.isFrame f = true

structure Drawn (s₀ s : Kern) (X Y : Multiset Frame) : Prop where
  free : (s₀.freelist : Multiset Frame) = X + s.freelist
  count : ∀ f, s.fr f = if f ∈ X then 1 else s₀.fr f + Y.count f
  mem : ∀ f, f ∉ s₀.freelist → s.mem f = s₀.mem f
  refs : ∀ f ∈ Y, InUse s₀ f
  unlocked : s.holder = none
  flag : s.lockKalloc = s₀.lockKalloc
  first : s.first = s₀.first

/-- From `s` to `s'`, only the tables in `D` and the pages taken are different. -/
structure Within (D : Set Frame) (s s' : Kern) : Prop where
  table : ∀ f, f ∉ D → s'.table f = s.table f
  proc : s'.proc = s.proc
  parent : s'.parent = s.parent
  initproc : s'.initproc = s.initproc
  held : s'.held = s.held

namespace Within
variable {D D' : Set Frame}

theorem refl (D : Set Frame) (s : Kern) : Within D s s := ⟨fun _ _ => rfl, rfl, rfl, rfl, rfl⟩

theorem trans (h : Within D s s') (h' : Within D s' s'') : Within D s s'' :=
  ⟨fun f hf => (h'.table f hf).trans (h.table f hf), h'.proc.trans h.proc, h'.parent.trans h.parent,
    h'.initproc.trans h.initproc, h'.held.trans h.held⟩

theorem mono (h : Within D s s') (hD : D ⊆ D') : Within D' s s' :=
  { h with table := fun f hf => h.table f fun hd => hf (hD hd) }

theorem setProc (h : Within D s s') (d : Slot) (q : Proc) : Within D (s.setProc d q) (s'.setProc d q) :=
  { h with proc := by simp [Kern.setProc, h.proc] }

end Within

theorem Kern.setProc_setProc (s : Kern) (d : Slot) (q q' : Proc) : (s.setProc d q).setProc d q' = s.setProc d q' := by
  simp [Kern.setProc]

/-- All tables are as they were. -/
abbrev Still (s s' : Kern) : Prop := Within ∅ s s'

theorem Still.tables (h : Still s s') : s'.table = s.table := funext fun f => h.table f (Set.notMem_empty f)

namespace Drawn

theorem refl (g : Ground s₀) : Drawn s₀ s₀ 0 0 where
  free := (zero_add _).symm
  count f := by simp
  mem _ _ := rfl
  refs f hf := absurd hf (notMem_zero f)
  unlocked := g.unlocked
  flag := rfl
  first := rfl

/-- **Nothing taken**: the same pages are free, and all counts are as before. -/
theorem returned (h : Drawn s₀ s 0 0) : s.freelist.Perm s₀.freelist ∧ s.fr = s₀.fr := by
  refine ⟨coe_eq_coe.1 ?_, ?_⟩
  · rw [h.free, zero_add]
  · ext f
    rw [h.count]
    simp

section
variable (h : Drawn s₀ s X Y)
include h

theorem mem_free (hf : f ∈ X) : f ∈ s₀.freelist := by
  rw [← mem_coe, h.free]
  exact mem_add.2 (.inl hf)

theorem not_ref (hf : f ∈ s₀.freelist) : f ∉ Y := fun hY => (h.refs f hY).used hf

theorem not_page (hf : f ∉ s₀.freelist) : f ∉ X := fun hX => hf (h.mem_free hX)

theorem isFrame (hf : s₀.isFrame f = true) : s.isFrame f = true := by
  unfold Kern.isFrame at hf ⊢
  rwa [h.first]

theorem congr (hs : s'.freelist = s.freelist ∧ s'.fr = s.fr ∧ s'.mem = s.mem ∧
    s'.holder = s.holder ∧ s'.lockKalloc = s.lockKalloc ∧ s'.first = s.first) : Drawn s₀ s' X Y := by
  obtain ⟨h1, h2, h3, h4, h5, h6⟩ := hs
  exact ⟨by rw [h1]; exact h.free, by rw [h2]; exact h.count, by rw [h3]; exact h.mem, h.refs, h4.trans h.unlocked,
    h5.trans h.flag, h6.trans h.first⟩

theorem memset (hf : f ∈ s₀.freelist) (x : Page) : Drawn s₀ { s with mem := update s.mem f x } X Y := by
  refine { h with mem := fun e he => ?_ }
  have hef : e ≠ f := by
    rintro rfl
    exact he hf
  simp [update_of_ne hef, h.mem e he]

theorem setProc (d : Slot) (q : Proc) : Drawn s₀ (s.setProc d q) X Y :=
  h.congr ⟨rfl, rfl, rfl, rfl, rfl, rfl⟩

end

end Drawn

/-! ## One page, one reference -/

theorem solo_kalloc_free {l : List Frame} (hh : s.holder = none) (hf : s.freelist = f :: l) :
    solo c kalloc s = .ok (some f, { s with
      freelist := l
      fr := update s.fr f 1
      mem := update s.mem f fun _ => 5 }) := by
  by_cases hk : s.lockKalloc = false
  · exact solo_kalloc hf hk
  have hpop : s.exec (some c) .pop = .ok (some f, { s with freelist := l }) := by simp only [Kern.exec, hf]
  refine (solo_step hpop).trans ((solo_step rfl).trans ?_)
  rw [if_pos (Bool.not_eq_false _ |>.mp hk), solo_bind (solo_memrefLock ?free), solo_bind (solo_memrefSet _ _),
    solo_bind (solo_memrefUnlock rfl)]
  case free => exact hh
  refine (solo_step rfl).trans ?_
  rw [hh]
  rfl

theorem Drawn.kalloc (g : Ground s₀) (h : Drawn s₀ s X Y) : solo c kalloc s = .ok (none, s) ∨
    ∃ f s', solo c kalloc s = .ok (some f, s') ∧ Drawn s₀ s' (f ::ₘ X) Y ∧ Still s s' ∧ f ∈ s₀.freelist ∧ f ∉ X := by
  cases hf : s.freelist with
  | nil => exact .inl (solo_kalloc_none hf)
  | cons f l =>
    have hfree : (s₀.freelist : Multiset Frame) = f ::ₘ X + l := by
      rw [h.free, hf, ← cons_coe, add_cons, cons_add]
    have hmem : f ∈ s₀.freelist := by
      rw [← mem_coe, hfree]
      exact mem_add.2 (.inl (mem_cons_self f X))
    have hX : f ∉ X := g.notMem hfree
    refine .inr ⟨f, _, solo_kalloc_free h.unlocked hf, ⟨hfree, fun e => ?_, (h.memset hmem _).mem, h.refs,
      h.unlocked, h.flag, h.first⟩, ⟨fun _ _ => rfl, rfl, rfl, rfl, rfl⟩, hmem, hX⟩
    by_cases hef : e = f
    · subst hef
      simp
    · simp [hef, h.count e]

theorem solo_kfree (hh : s.holder = none) (hf : s.isFrame f = true) :
    solo c (kfree f) s = .ok ((), if 1 < s.fr f then { s with fr := update s.fr f (s.fr f - 1) }
      else { s with
        fr := update s.fr f 0
        mem := update s.mem f fun _ => 1
        freelist := f :: s.freelist }) := by
  have his : solo c (isFrame f) s = .ok (true, s) := solo_act (by simp only [Kern.exec, hf])
  unfold kfree
  rw [solo_bind his, if_pos rfl, solo_bind (solo_memrefLock hh), solo_bind (solo_memrefGet f)]
  by_cases hfr : 1 < s.fr f
  · rw [if_pos hfr, if_pos hfr, solo_bind (solo_memrefSet _ _), solo_memrefUnlock rfl, hh]
  · rw [if_neg hfr, if_neg hfr, solo_bind (solo_memrefSet _ _), solo_bind (solo_memrefUnlock rfl), hh]
    exact (solo_step rfl).trans (solo_act rfl)

theorem Drawn.kfree_page (g : Ground s₀) (h : Drawn s₀ s (f ::ₘ X) Y) :
    ∃ s', solo c (kfree f) s = .ok ((), s') ∧ Drawn s₀ s' X Y ∧ Still s s' := by
  have hmem : f ∈ s₀.freelist := h.mem_free (mem_cons_self f X)
  have hX : f ∉ X := g.notMem h.free
  have hfr : s.fr f = 1 := by rw [h.count, if_pos (mem_cons_self f X)]
  refine ⟨_, solo_kfree h.unlocked (h.isFrame (g.frame f hmem)), ?_, ?_⟩
  · rw [if_neg (by omega)]
    refine ⟨?_, fun e => ?_, (h.memset hmem _).mem, h.refs, h.unlocked, h.flag, h.first⟩
    · rw [h.free, ← cons_coe, add_cons, cons_add]
    · by_cases hef : e = f
      · subst hef
        simp [hX, g.zero e hmem, h.not_ref hmem]
      · simp [h.count e, hef]
  · rw [if_neg (by omega)]
    exact ⟨fun _ _ => rfl, rfl, rfl, rfl, rfl⟩

theorem Drawn.kfree_ref (h : Drawn s₀ s X (f ::ₘ Y)) :
    ∃ s', solo c (kfree f) s = .ok ((), s') ∧ Drawn s₀ s' X Y ∧ Still s s' := by
  have huse := h.refs f (mem_cons_self f Y)
  have hX := h.not_page huse.used
  have hfr : s.fr f = s₀.fr f + Y.count f + 1 := by
    rw [h.count, if_neg hX, count_cons_self]
    rfl
  have hpos := huse.count
  refine ⟨_, solo_kfree h.unlocked (h.isFrame huse.frame), ?_, ?_⟩
  · rw [if_pos (by omega)]
    refine ⟨h.free, fun e => ?_, h.mem, fun e he => h.refs e (mem_cons_of_mem he), h.unlocked, h.flag, h.first⟩
    by_cases hef : e = f
    · subst hef
      simp [hX, hfr]
    · simp [h.count e, hef]
  · rw [if_pos (by omega)]
    exact ⟨fun _ _ => rfl, rfl, rfl, rfl, rfl⟩

theorem Drawn.share {α : Type} (h : Drawn s₀ s X Y) (hf : InUse s₀ f) (p : K α) :
    ∃ s', solo c (do
      memrefLock
      let fq ← memrefGet f
      memrefSet f (fq + 1)
      memrefUnlock
      p) s = solo c p s' ∧ Drawn s₀ s' X (f ::ₘ Y) ∧ Still s s' := by
  have hX := h.not_page hf.used
  refine ⟨{ s with fr := update s.fr f (s.fr f + 1) }, ?_, ⟨h.free, fun e => ?_, h.mem, ?_, h.unlocked,
    h.flag, h.first⟩, ⟨fun _ _ => rfl, rfl, rfl, rfl, rfl⟩⟩
  · rw [solo_bind (solo_memrefLock h.unlocked), solo_bind (solo_memrefGet f), solo_bind (solo_memrefSet _ _),
      solo_bind (solo_memrefUnlock rfl)]
    rw [h.unlocked]
  · by_cases hef : e = f
    · subst hef
      simp [hX, h.count e, add_assoc]
    · simp [h.count e, hef]
  · rintro e he
    rcases mem_cons.1 he with rfl | he
    · exact hf
    · exact h.refs e he

/-! ## A table under construction -/

/-- Since `s₀` the thread has taken the table at `root` and the pages `X`. -/
def Span (s₀ s : Kern) (root : Frame) (X : Multiset Frame) : Prop :=
  Drawn s₀ s (root ::ₘ ((s.table root).own + X)) (s.table root).shared

def Kern.withTable (s : Kern) (root : Frame) (T : Table) : Kern := { s with table := Function.update s.table root T }

@[simp] theorem Kern.table_withTable (s : Kern) (root : Frame) (T : Table) : (s.withTable root T).table root = T :=
  update_self ..

/-- Only the table at `root` is different. -/
abbrev Aside (root : Frame) (s s' : Kern) : Prop := Within {root} s s'

theorem Still.aside (h : Still s s') (root : Frame) : Aside root s s' := h.mono (Set.empty_subset _)

theorem Within.withTable (root : Frame) (s : Kern) (T : Table) : Aside root s (s.withTable root T) :=
  ⟨fun _ hf => update_of_ne hf _ _, rfl, rfl, rfl, rfl⟩

section
variable (g : Ground s₀) (h : Span s₀ s root X)
include g h

/-- A turn of `walk`: the page below is there, or a new one is hung into the table. -/
theorem Span.turn {T : Frame → Table} {P : Table → Prop} (b : Bool) (hb : b = true → P (s.table root))
    (hT : b = false → ∀ f, ((T f).own = f ::ₘ (s.table root).own ∧ (T f).shared = (s.table root).shared) ∧
      (∀ j, (T f).get j = (s.table root).get j) ∧ P (T f)) :
    ∃ ok s', solo c (if b then pure true
        else kalloc >>= fun r =>
          match r with
          | none => pure false
          | some f => do
            memset f 0
            setTable root (T f)
            pure true) s = .ok (ok, s') ∧ Span s₀ s' root X ∧ Aside root s s' ∧
      (∀ j, (s'.table root).get j = (s.table root).get j) ∧ (ok = true → P (s'.table root)) := by
  cases b with
  | true => exact ⟨true, s, rfl, h, .refl _ s, fun _ => rfl, fun _ => hb rfl⟩
  | false =>
    rcases h.kalloc (c := c) g with hs | ⟨f, s1, hs, h1, hstill, hf, hX⟩
    · exact ⟨false, s, solo_bind hs, h, .refl _ s, fun _ => rfl, nofun⟩
    obtain ⟨⟨hown, hsh⟩, hget, hP⟩ := hT rfl f
    refine ⟨true, { s1 with mem := update s1.mem f fun _ => 0 }.withTable root (T f),
      (solo_bind hs).trans ((solo_step rfl).trans (solo_step rfl)), ?_,
      (hstill.aside root).trans ⟨fun e he => update_of_ne he _ _, rfl, rfl, rfl, rfl⟩,
      fun j => by rw [Kern.table_withTable, hget], fun _ => by rwa [Kern.table_withTable]⟩
    unfold Span
    rw [Kern.table_withTable, hown, hsh, cons_add, cons_swap]
    exact (h1.memset hf _).congr ⟨rfl, rfl, rfl, rfl, rfl, rfl⟩

theorem Span.walkDir :
    ∃ ok s', solo c (walkDir root i true) s = .ok (ok, s') ∧ Span s₀ s' root X ∧ Aside root s s' ∧
      (∀ j, (s'.table root).get j = (s.table root).get j) ∧
      (ok = true → ∃ d, (s'.table root).dirs.lookup (px 2 i) = some d) := by
  obtain ⟨ok, s', hs, hend⟩ := h.turn (c := c) g (T := (s.table root).addDir i)
    (P := fun T => ∃ d, T.dirs.lookup (px 2 i) = some d) ((s.table root).dirs.lookup (px 2 i)).isSome
    Option.isSome_iff_exists.1 fun hd f => by
      have hd' : (s.table root).dirs.lookup (px 2 i) = none := by simpa using hd
      refine ⟨⟨Table.own_addDir hd' f, Table.shared_addDir _ _ _⟩, fun j => Table.get_addDir _ _ _ _, ?_⟩
      rw [Table.addDir, dif_pos hd']
      exact ⟨_, AList.lookup_insert _⟩
  exact ⟨ok, s', (solo_step rfl).trans hs, hend⟩

theorem Span.walkSub {d : Dir}
    (hd : (s.table root).dirs.lookup (px 2 i) = some d) :
    ∃ ok s', solo c (walkSub root i true) s = .ok (ok, s') ∧ Span s₀ s' root X ∧ Aside root s s' ∧
      (∀ j, (s'.table root).get j = (s.table root).get j) ∧ (ok = true → reaches (s'.table root).dirs i = true) := by
  obtain ⟨ok, s', hs, hend⟩ := h.turn (c := c) g (T := (s.table root).addSub i)
    (P := fun T => reaches T.dirs i = true) (reaches (s.table root).dirs i) id fun hr f =>
      ⟨⟨Table.own_addSub hd hr f, Table.shared_addSub hd f⟩, Table.get_addSub hd f, Table.reaches_addSub_self hd f⟩
  exact ⟨ok, s', (solo_step rfl).trans hs, hend⟩

/-- `walk` with `alloc` widens the table, and may fail half-way. -/
theorem Span.walk (hi : i < MAXPG) :
    ∃ o s', solo c (walk root i true) s = .ok (o, s') ∧ Span s₀ s' root X ∧ Aside root s s' ∧
      (∀ j, (s'.table root).get j = (s.table root).get j) ∧
      (o = none ∨ o = some ((s.table root).get i) ∧ reaches (s'.table root).dirs i = true) := by
  obtain ⟨ok, s1, hs1, h1, ha1, hg1, hd1⟩ := h.walkDir (c := c) (i := i) g
  unfold Vm.walk
  rw [if_neg (Nat.not_le.2 hi), solo_bind hs1]
  cases ok with
  | false => exact ⟨none, s1, rfl, h1, ha1, hg1, .inl rfl⟩
  | true =>
    obtain ⟨d, hd⟩ := hd1 rfl
    obtain ⟨ok, s2, hs2, h2, ha2, hg2, hr2⟩ := h1.walkSub (c := c) g hd
    have hg : ∀ j, (s2.table root).get j = (s.table root).get j := fun j => (hg2 j).trans (hg1 j)
    rw [if_pos rfl, solo_bind hs2]
    cases ok with
    | false => exact ⟨none, s2, rfl, h2, ha1.trans ha2, hg, .inl rfl⟩
    | true =>
      refine ⟨some ((s.table root).get i), s2, ?_, h2, ha1.trans ha2, hg, .inr ⟨rfl, hr2 rfl⟩⟩
      rw [if_pos rfl]
      refine (solo_step rfl).trans ?_
      rw [Table.slot, if_pos (hr2 rfl), hg]
      rfl

theorem Span.mappages (hi : i < MAXPG) (hget : (s.table root).get i = none)
    (f : Frame) (perm : Perm) :
    ∃ ok s', solo c (mappages root i f perm) s = .ok (ok, s') ∧ Aside root s s' ∧
      (ok = false ∧ Span s₀ s' root X ∧ (∀ j, (s'.table root).get j = (s.table root).get j) ∨
        ok = true ∧ (∀ j, (s'.table root).get j = if j = i then some ⟨f, perm⟩ else (s.table root).get j) ∧
          ∃ P R, Drawn s₀ s' (root ::ₘ (P + X)) R ∧ (s'.table root).own = ownPte i ⟨f, perm⟩ + P ∧
            (s'.table root).shared = refPte i ⟨f, perm⟩ + R) := by
  obtain ⟨o, s1, hs1, h1, ha1, hg1, ho⟩ := h.walk (c := c) g hi
  unfold Vm.mappages
  rw [solo_bind hs1]
  rcases ho with rfl | ⟨rfl, hr⟩
  · exact ⟨false, s1, rfl, ha1, .inl ⟨rfl, h1, hg1⟩⟩
  have hnone : (s1.table root).get i = none := (hg1 i).trans hget
  refine ⟨true, s1.withTable root ((s1.table root).setPte i ⟨f, perm⟩), ?_,
    ha1.trans (.withTable root s1 _), .inr ⟨rfl, fun j => ?_, (s1.table root).own, (s1.table root).shared, ?_, ?_,
      ?_⟩⟩
  · rw [hget]
    exact solo_bind (solo_setPte _)
  · rw [Kern.table_withTable, Table.get_setPte hr, hg1]
  · exact Drawn.congr h1 ⟨rfl, rfl, rfl, rfl, rfl, rfl⟩
  · rw [Kern.table_withTable, Table.own_setPte_new hr hnone]
  · rw [Kern.table_withTable, Table.shared_setPte_new hr hnone]

/-- An entry that stands for no page of the table: the trapframe and the trampoline. -/
theorem Span.mappages_special (hi : i < MAXPG) (hsp : TRAPFRAME ≤ i)
    (hget : (s.table root).get i = none) (f : Frame) (perm : Perm) :
    ∃ ok s', solo c (Vm.mappages root i f perm) s = .ok (ok, s') ∧ Aside root s s' ∧ Span s₀ s' root X ∧
      ∀ j, (s'.table root).get j = if j = i ∧ ok = true then some ⟨f, perm⟩ else (s.table root).get j := by
  have hnot : ¬ i < TRAPFRAME := by omega
  obtain ⟨ok, s', hs, ha, ⟨rfl, h', hg⟩ | ⟨rfl, hg, P, R, hd, hown, hsh⟩⟩ := h.mappages (c := c) g hi hget f perm
  · refine ⟨false, s', hs, ha, h', fun j => ?_⟩
    rw [if_neg (by simp), hg]
  refine ⟨true, s', hs, ha, ?_, fun j => ?_⟩
  · unfold Span
    rw [hown, hsh]
    simpa [ownPte, refPte, hnot] using hd
  · rw [hg]
    simp

end

theorem Span.uvmunmap_special (h : Span s₀ s root X) (hi : i < MAXPG) (hsp : TRAPFRAME ≤ i)
    (hget : (s.table root).get i = some pte) (hp : pte.perm ≠ {}) :
    ∃ s', solo c (uvmunmap root i 1 false) s = .ok ((), s') ∧ Aside root s s' ∧ Span s₀ s' root X ∧
      ∀ j, (s'.table root).get j = if j = i then none else (s.table root).get j := by
  have hnot : ¬ i < TRAPFRAME := by omega
  refine ⟨s.withTable root ((s.table root).clearPte i), solo_uvmunmap hi hget hp, .withTable root s _, ?_, fun j => ?_⟩
  · have hown := Table.own_clear hget
    have hsh := Table.shared_clear hget
    simp only [ownPte, refPte, hnot, false_and, if_false, zero_add] at hown hsh
    unfold Span
    rw [Kern.table_withTable, ← hown, ← hsh]
    exact Drawn.congr h ⟨rfl, rfl, rfl, rfl, rfl, rfl⟩
  · rw [Kern.table_withTable, Table.get_clearPte]

/-- `uvmunmap` of `n` copy-on-write pages, each of which is freed. -/
theorem Span.uvmunmap_cow (h : Span s₀ s root X) (hi : i + n ≤ TRAPFRAME)
    (hget : ∀ j, i ≤ j → j < i + n → ∃ pte, (s.table root).get j = some pte ∧ pte.perm.cow = true) :
    ∃ s', solo c (uvmunmap root i n true) s = .ok ((), s') ∧ Aside root s s' ∧ Span s₀ s' root X ∧
      ∀ j, (s'.table root).get j = if i ≤ j ∧ j < i + n then none else (s.table root).get j := by
  induction n generalizing i s with
  | zero =>
    refine ⟨s, rfl, .refl _ s, h, fun j => ?_⟩
    rw [if_neg (by omega)]
  | succ n ih =>
    obtain ⟨pte, hpte, hcow⟩ := hget i le_rfl (by omega)
    have hlt : i < TRAPFRAME := by omega
    have hmax : i < MAXPG := hlt.trans (by decide)
    have hp : pte.perm ≠ {} := by
      intro he
      rw [he] at hcow
      cases hcow
    have hown := Table.own_clear hpte
    have hsh := Table.shared_clear hpte
    simp only [ownPte, refPte, hlt, hcow, true_and, Bool.true_eq_false, if_false, if_true, zero_add,
      singleton_add] at hown hsh
    have hd : Drawn s₀ s (root ::ₘ (((s.table root).clearPte i).own + X))
      (pte.pa ::ₘ ((s.table root).clearPte i).shared) := by
      rw [← hown, ← hsh]
      exact h
    obtain ⟨s1, hs1, h1, hst⟩ := hd.kfree_ref (c := c)
    have hT : s1.table root = s.table root := by rw [hst.tables]
    have h2 : Span s₀ (s1.withTable root ((s1.table root).clearPte i)) root X := by
      unfold Span
      rw [Kern.table_withTable, hT]
      exact h1.congr ⟨rfl, rfl, rfl, rfl, rfl, rfl⟩
    have hg2 : ∀ j, ((s1.withTable root ((s1.table root).clearPte i)).table root).get j =
        if j = i then none else (s.table root).get j := by
      intro j
      rw [Kern.table_withTable, Table.get_clearPte, hT]
    obtain ⟨s', hs', ha, h', hg⟩ := ih h2 (i := i + 1) (by omega) fun j hj hjn => by
      obtain ⟨q, hq, hc⟩ := hget j (by omega) (by omega)
      exact ⟨q, by rw [hg2, if_neg (by omega)]; exact hq, hc⟩
    refine ⟨s', ?_, ((hst.aside root).trans (.withTable root s1 _)).trans ha, h', fun j => ?_⟩
    · unfold uvmunmap
      rw [solo_bind (solo_walk hmax (Table.reaches_of_get hpte) false), hpte]
      simp only
      rw [if_neg hp, if_pos trivial, solo_bind hs1, solo_bind solo_clearPte]
      exact hs'
    · rw [hg, hg2]
      by_cases hj : j = i
      · subst hj
        simp
      · simp only [if_neg hj]
        congr 1
        exact propext (by omega)

/-! ## A table is freed -/

theorem Drawn.freewalkSubs (g : Ground s₀) (hT : T.ptes = ∅) (subs : List (Sigma fun _ : Nat => Frame))
    (h : Drawn s₀ s ((subs.map fun e => ({e.2} : Multiset Frame)).sum + X) Y) :
    ∃ s', solo c (freewalkSubs T n subs) s = .ok ((), s') ∧ Drawn s₀ s' X Y ∧ Still s s' := by
  induction subs generalizing s with
  | nil =>
    rw [List.map_nil, List.sum_nil, zero_add] at h
    exact ⟨s, rfl, h, .refl _ s⟩
  | cons e es ih =>
    rw [List.map_cons, List.sum_cons, singleton_add, cons_add] at h
    obtain ⟨s1, hs1, h1, hst1⟩ := h.kfree_page (c := c) g
    obtain ⟨s', hs', h', hst'⟩ := ih h1
    refine ⟨s', ?_, h', hst1.trans hst'⟩
    have hsub : solo c (freewalkSub T (n * 512 + e.1) e.2) s = .ok ((), s1) := by
      unfold freewalkSub
      rw [hT, if_neg (by simp)]
      exact hs1
    exact (solo_bind hsub).trans hs'

theorem Drawn.freewalkDirs (g : Ground s₀) (hT : T.ptes = ∅) (dirs : List (Sigma fun _ : Nat => Dir))
    (h : Drawn s₀ s ((dirs.map fun e => e.2.pages).sum + X) Y) :
    ∃ s', solo c (freewalkDirs T dirs) s = .ok ((), s') ∧ Drawn s₀ s' X Y ∧ Still s s' := by
  induction dirs generalizing s with
  | nil =>
    rw [List.map_nil, List.sum_nil, zero_add] at h
    exact ⟨s, rfl, h, .refl _ s⟩
  | cons e es ih =>
    have hsubs : Tally.total (fun _ f => ({f} : Multiset Frame)) e.2.subs =
        ((inOrder e.2.subs).map fun e => ({e.2} : Multiset Frame)).sum :=
      ((List.perm_insertionSort _ _).map _).sum_eq.symm
    have hsplit : ((e :: es).map fun e => e.2.pages).sum + X =
        ((inOrder e.2.subs).map fun e => ({e.2} : Multiset Frame)).sum +
          e.2.page ::ₘ ((es.map fun e => e.2.pages).sum + X) := by
      rw [List.map_cons, List.sum_cons, Dir.pages, hsubs]
      simp only [cons_add, add_cons, add_assoc]
    rw [hsplit] at h
    obtain ⟨s1, hs1, h1, hst1⟩ := h.freewalkSubs (c := c) (n := e.1) g hT _
    obtain ⟨s2, hs2, h2, hst2⟩ := h1.kfree_page (c := c) g
    obtain ⟨s', hs', h', hst'⟩ := ih h2
    exact ⟨s', (solo_bind hs1).trans ((solo_bind hs2).trans hs'), h', (hst1.trans hst2).trans hst'⟩

/-- A table without leaf entries is given back with all its pages. -/
theorem Span.uvmfree (g : Ground s₀) (h : Span s₀ s root X) (hbare : ∀ j, (s.table root).get j = none) :
    ∃ s', solo c (uvmfree root 0) s = .ok ((), s') ∧ Drawn s₀ s' X 0 ∧ Still s s' := by
  have hdirs : (s.table root).dirPages = ((inOrder (s.table root).dirs).map fun e => e.2.pages).sum :=
    ((List.perm_insertionSort _ _).map _).sum_eq.symm
  have hd : Drawn s₀ s (((inOrder (s.table root).dirs).map fun e => e.2.pages).sum + root ::ₘ X) 0 := by
    rw [← hdirs, add_cons, ← Table.own_bare hbare, ← Table.shared_bare hbare]
    exact h
  obtain ⟨s1, hs1, h1, hst1⟩ := hd.freewalkDirs (c := c) g (Table.bare hbare) _
  obtain ⟨s2, hs2, h2, hst2⟩ := h1.kfree_page (c := c) g
  refine ⟨s2, ?_, h2, hst1.trans hst2⟩
  have hwalk : solo c (freewalk root) s = .ok ((), s2) := (solo_step rfl).trans ((solo_bind hs1).trans hs2)
  exact (solo_bind (solo_pure ())).trans hwalk

/-! ## `proc_pagetable` -/

/-- Only tables at pages that were free in `s₀` are different. -/
abbrev Intact (s₀ s s' : Kern) : Prop := Within {f | f ∈ s₀.freelist} s s'

theorem Within.intact (h : Aside root s s') (hroot : root ∈ s₀.freelist) : Intact s₀ s s' :=
  h.mono (Set.singleton_subset_iff.2 hroot)

theorem Still.intact (h : Still s s') : Intact s₀ s s' := h.mono (Set.empty_subset _)

/-- The entries of a new address space. -/
def newEntries (tf : Frame) (j : Nat) : Option Pte :=
  if j = TRAPFRAME then some ⟨tf, { r := true, w := true }⟩
  else if j = TRAMPOLINE then some ⟨trampoline, { r := true, x := true }⟩
  else none

theorem Drawn.uvmcreate (g : Ground s₀) (h : Drawn s₀ s X 0) : solo c uvmcreate s = .ok (none, s) ∨
    ∃ root s', solo c uvmcreate s = .ok (some root, s') ∧ root ∈ s₀.freelist ∧ Aside root s s' ∧ Span s₀ s' root X ∧
      ∀ j, (s'.table root).get j = none := by
  rcases h.kalloc (c := c) g with hs | ⟨root, s1, hs, h1, hst, hroot, -⟩
  · exact .inl (solo_bind hs)
  refine .inr ⟨root, { s1 with mem := update s1.mem root fun _ => 0 }.withTable root .empty, ?_,
    hroot, ?_, ?_, ?_⟩
  · exact (solo_bind hs).trans ((solo_step rfl).trans (solo_step rfl))
  · exact (hst.aside root).trans ⟨fun f hf => update_of_ne hf _ _, rfl, rfl, rfl, rfl⟩
  · unfold Span
    rw [Kern.table_withTable, Table.own_empty, Table.shared_empty, zero_add]
    exact (h1.memset hroot _).congr ⟨rfl, rfl, rfl, rfl, rfl, rfl⟩
  · intro j
    rw [Kern.table_withTable, Table.get_empty]

theorem Drawn.procPagetable (g : Ground s₀) (h : Drawn s₀ s X 0) (tf : Frame) :
    ∃ o s', solo c (procPagetable tf trampoline) s = .ok (o, s') ∧ Intact s₀ s s' ∧ (o = none ∧ Drawn s₀ s' X 0 ∨
        ∃ root, o = some root ∧ root ∈ s₀.freelist ∧ Span s₀ s' root X ∧ ∀ j,
          (s'.table root).get j = newEntries tf j) := by
  unfold Vm.procPagetable
  rcases h.uvmcreate (c := c) g with hs | ⟨root, s1, hs, hroot, ha1, h1, hg1⟩
  · exact ⟨none, s, solo_bind hs, .refl _ s, .inl ⟨rfl, h⟩⟩
  obtain ⟨ok, s2, hs2, ha2, h2, hg2⟩ :=
    h1.mappages_special (c := c) g (i := TRAMPOLINE) (by decide) (by decide) (hg1 _) trampoline { r := true, x := true }
  rw [solo_bind hs]
  dsimp only
  rw [solo_bind hs2]
  cases ok with
  | false =>
    obtain ⟨s3, hs3, h3, hst3⟩ := h2.uvmfree (c := c) g fun j => by rw [hg2, if_neg (by simp), hg1]
    exact ⟨none, s3, solo_bind hs3, ((ha1.trans ha2).intact hroot).trans hst3.intact, .inl ⟨rfl, h3⟩⟩
  | true =>
    obtain ⟨ok, s3, hs3, ha3, h3, hg3⟩ := h2.mappages_special (c := c) g (i := TRAPFRAME) (by decide) le_rfl
      (by rw [hg2, if_neg (by decide), hg1]) tf { r := true, w := true }
    have hentry : (s3.table root).get TRAMPOLINE = some ⟨trampoline, { r := true, x := true }⟩ := by
      rw [hg3, if_neg fun h => absurd h.1 (by decide), hg2, if_pos ⟨rfl, rfl⟩]
    rw [if_pos rfl, solo_bind hs3]
    cases ok with
    | false =>
      obtain ⟨s4, hs4, ha4, h4, hg4⟩ := h3.uvmunmap_special (c := c) (by decide) (by decide) hentry (by decide)
      obtain ⟨s5, hs5, h5, hst5⟩ := h4.uvmfree (c := c) g fun j => by
        rw [hg4]
        split
        · rfl
        · rename_i hj
          rw [hg3, if_neg (by simp), hg2, if_neg (by simp [hj]), hg1]
      refine ⟨none, s5, ?_, (((ha1.trans ha2).trans ha3).trans ha4 |>.intact hroot).trans hst5.intact, .inl ⟨rfl, h5⟩⟩
      exact (solo_bind hs4).trans (solo_bind hs5)
    | true =>
      refine ⟨some root, s3, rfl, ((ha1.trans ha2).trans ha3).intact hroot, .inr ⟨root, rfl, hroot, h3, fun j => ?_⟩⟩
      rw [hg3, hg2, hg1, newEntries]
      simp

theorem Span.procFreepagetable (g : Ground s₀) (h : Span s₀ s root X) {tf : Frame}
    (hget : ∀ j, (s.table root).get j = newEntries tf j) (hroot : root ∈ s₀.freelist) :
    ∃ s', solo c (procFreepagetable root 0) s = .ok ((), s') ∧ Drawn s₀ s' X 0 ∧ Intact s₀ s s' := by
  have h0 : (s.table root).get TRAMPOLINE = some ⟨trampoline, { r := true, x := true }⟩ := hget _
  obtain ⟨s1, hs1, ha1, h1, hg1⟩ := h.uvmunmap_special (c := c) (by decide) (by decide) h0 (by decide)
  have hentry : (s1.table root).get TRAPFRAME = some ⟨tf, { r := true, w := true }⟩ := by
    rw [hg1, if_neg (by decide), hget]
    rfl
  obtain ⟨s2, hs2, ha2, h2, hg2⟩ := h1.uvmunmap_special (c := c) (by decide) le_rfl hentry (by simp)
  obtain ⟨s3, hs3, h3, hst3⟩ := h2.uvmfree (c := c) g fun j => by
    rw [hg2, hg1, hget, newEntries]
    grind
  exact ⟨s3, (solo_bind hs1).trans ((solo_bind hs2).trans hs3), h3, ((ha1.trans ha2).intact hroot).trans hst3.intact⟩

/-! ## `uvmcopy` -/

/-- A table whose entries may have become copy-on-write. -/
structure Reflagged (T T' : Table) : Prop where
  dirs : T'.dirs = T.dirs
  entries : ∀ j, T'.get j = T.get j ∨ ∃ pte, T.get j = some pte ∧ T'.get j = some pte.share

theorem Reflagged.refl (T : Table) : Reflagged T T := ⟨rfl, fun _ => .inl rfl⟩

theorem Reflagged.trans {T' T'' : Table} (h : Reflagged T T') (h' : Reflagged T' T'') : Reflagged T T'' := by
  refine ⟨h'.dirs.trans h.dirs, fun j => ?_⟩
  rcases h.entries j, h'.entries j with ⟨h1 | ⟨pte, h1, h2⟩, h3 | ⟨q, h3, h4⟩⟩
  · exact .inl (h3.trans h1)
  · exact .inr ⟨q, h1.symm.trans h3, h4⟩
  · exact .inr ⟨pte, h1, h3.trans h2⟩
  · rw [h2] at h3
    cases h3
    exact .inr ⟨pte, h1, h4⟩

theorem Reflagged.frames {T' : Table} (h : Reflagged T T') (j : Nat) :
    (T'.get j).map Pte.pa = (T.get j).map Pte.pa := by
  rcases h.entries j with hj | ⟨pte, hj, hj'⟩
  · rw [hj]
  · rw [hj, hj']
    rfl

/-- Only the two tables are different. -/
structure Between (old new : Frame) (s s' : Kern) : Prop extends Within {old, new} s s' where
  parents : Reflagged (s.table old) (s'.table old)

theorem Between.trans (h : Between old new s s') (h' : Between old new s' s'') : Between old new s s'' :=
  ⟨h.toWithin.trans h'.toWithin, h.parents.trans h'.parents⟩

theorem Aside.between (h : Aside new s s') (hne : old ≠ new) : Between old new s s' :=
  ⟨h.mono (Set.subset_insert _ _), by rw [h.table old hne]; exact .refl _⟩

theorem Between.share (hget : (s.table old).get i = some pte) (new : Frame) :
    Between old new s (s.withTable old ((s.table old).setPte i pte.share)) := by
  refine ⟨(Within.withTable old s _).mono (by simp), ?_, fun j => ?_⟩
  · rw [Kern.table_withTable, Table.dirs_setPte]
  rw [Kern.table_withTable, Table.get_setPte (Table.reaches_of_get hget)]
  split
  · rename_i hj
    subst hj
    exact .inr ⟨pte, hget, rfl⟩
  · exact .inl rfl

/-- **`uvmcopy` undoes its work**: when it fails, the new table has no user page and no reference is left over. -/
theorem Span.uvmcopyLoop (g : Ground s₀) (h : Span s₀ s new X) (hne : old ≠ new)
    (hi : i + n ≤ TRAPFRAME) (hold : ∀ j, j < i + n → ∃ pte, (s.table old).get j = some pte ∧ InUse s₀ pte.pa)
    (hdone : ∀ j, j < i → ∃ pte, (s.table new).get j = some pte ∧ pte.perm.cow = true)
    (hrest : ∀ j, i ≤ j → j < TRAPFRAME → (s.table new).get j = none) :
    ∃ ok s', solo c (uvmcopyLoop old new n i) s = .ok (ok, s') ∧ Between old new s s' ∧
      (ok = false → Span s₀ s' new X ∧ ∀ j, (s'.table new).get j = if j < TRAPFRAME then none else
        (s.table new).get j) := by
  induction n generalizing i s with
  | zero => exact ⟨true, s, rfl, ⟨.refl _ s, .refl _⟩, nofun⟩
  | succ n ih =>
    obtain ⟨pte, hget, huse⟩ := hold i (by omega)
    have hmax : i < MAXPG := (show i < TRAPFRAME by omega).trans (by decide)
    have hlt : i < TRAPFRAME := by omega
    -- the parent's entry
    have hb1 := Between.share hget new
    generalize hs1 : s.withTable old ((s.table old).setPte i pte.share) = s1 at hb1
    have hT1 : s1.table new = s.table new := by
      rw [← hs1]
      exact update_of_ne hne.symm _ _
    have h1 : Span s₀ s1 new X := by
      unfold Span
      rw [hT1, ← hs1]
      exact Drawn.congr h ⟨rfl, rfl, rfl, rfl, rfl, rfl⟩
    -- the child's entry
    obtain ⟨ok, s2, hs2, ha2, hend⟩ := h1.mappages (c := c) g hmax (by rw [hT1]; exact hrest i le_rfl hlt) pte.pa
      pte.perm.share
    have hb2 := hb1.trans (ha2.between hne)
    unfold Vm.uvmcopyLoop
    rw [solo_bind (solo_walk hmax (Table.reaches_of_get hget) false), hget]
    dsimp only
    rw [solo_bind (solo_setPte _)]
    change ∃ ok s', solo c (Vm.mappages new i pte.pa pte.perm.share >>= _)
      (s.withTable old ((s.table old).setPte i pte.share)) = _ ∧ _
    rw [hs1, solo_bind hs2]
    rcases hend with ⟨rfl, h2, hg2⟩ | ⟨rfl, hg2, P, R, hd, hown, hsh⟩
    · -- no page for the directories: the entries so far are undone
      obtain ⟨s3, hs3, ha3, h3, hg3⟩ := h2.uvmunmap_cow (c := c) (i := 0) (n := i) (by omega) fun j _ hj => by
        rw [hg2, hT1]
        exact hdone j (by omega)
      refine ⟨false, s3, solo_bind hs3, hb2.trans (ha3.between hne), fun _ => ⟨h3, fun j => ?_⟩⟩
      rw [hg3, hg2, hT1]
      by_cases hj : j < TRAPFRAME
      · rw [if_pos hj]
        split
        · rfl
        · exact hrest j (by omega) hj
      · rw [if_neg hj, if_neg (by omega)]
    · obtain ⟨s3, hs3, h3, hst3⟩ := hd.share (c := c) huse (Vm.uvmcopyLoop old new n (i + 1))
      have hcow : pte.perm.share.cow = true := rfl
      simp only [ownPte, refPte, hlt, hcow, true_and, Bool.true_eq_false, if_false, if_true, zero_add,
        singleton_add] at hown hsh
      have hspan : Span s₀ s3 new X := by
        unfold Span
        rw [hst3.tables, hown, hsh]
        exact h3
      have hb3 := hb2.trans ((hst3.aside new).between hne)
      have hg3 : ∀ j, (s3.table new).get j = if j = i then some ⟨pte.pa, pte.perm.share⟩ else (s.table new).get j := by
        intro j
        rw [hst3.tables, hg2, hT1]
      have hold3 : ∀ j, j < i + 1 + n → ∃ pte, (s3.table old).get j = some pte ∧ InUse s₀ pte.pa := by
        intro j hj
        obtain ⟨q, hq, hquse⟩ := hold j (by omega)
        have hpa := hb3.parents.frames j
        rw [hq] at hpa
        obtain ⟨q', hq', hpa'⟩ := Option.map_eq_some_iff.1 hpa
        exact ⟨q', hq', by rw [hpa']; exact hquse⟩
      have hdone3 : ∀ j, j < i + 1 → ∃ pte, (s3.table new).get j = some pte ∧ pte.perm.cow = true := by
        intro j hj
        rw [hg3]
        split
        · exact ⟨_, rfl, rfl⟩
        · exact hdone j (by omega)
      obtain ⟨ok, s', hs', hb', hfail⟩ := ih hspan (by omega) hold3 hdone3 fun j hj hjt => by
        rw [hg3, if_neg (by omega)]
        exact hrest j (by omega) hjt
      refine ⟨ok, s', ?_, hb3.trans hb', fun hok => ⟨(hfail hok).1, fun j => ?_⟩⟩
      · rw [if_pos rfl, hs3]
        exact hs'
      · rw [(hfail hok).2, hg3]
        by_cases hj : j < TRAPFRAME
        · rw [if_pos hj, if_pos hj]
        · rw [if_neg hj, if_neg hj, if_neg (by omega)]

end Xv6Riscv.Vm
