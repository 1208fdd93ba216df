import Mathlib.Algebra.BigOperators.Group.Finset.Basic
import Mathlib.Algebra.Order.BigOperators.Group.Multiset
import Mathlib.Data.Fintype.Option
import Xv6Riscv.Lib.Count
import Xv6Riscv.Vm.Views

/-!
# The invariant that ties the views to the kernel

The views of all threads together account for every page (`Books`): what they hold, what the rest of the
kernel holds and what is on the free list is all of memory, once, and `memref.fr` is the number of owners
and references of each page. The other parts say that the lock has one holder, that what a view knows of
its pages and tables is true, and that every slot of the process table is with its own thread or with the
one that works on it.
-/
namespace Xv6Riscv.Vm
open Multiset RefCount Function

def Books (first : Frame) (fr : Frame → Nat) (freelist held : List Frame) (W : Tid → View) : Prop :=
  Exact (fun f => first ≤ f ∧ f < PHYSTOP) fr freelist (∑ t, (W t).zero) (held + ∑ t, (W t).pages) (∑ t, (W t).refs)

/-- What the view of a thread says of the lock is true. -/
structure LockOk (holder : Option Tid) (lockKalloc : Bool) (fr : Frame → Nat) (t : Tid) (v : View) : Prop where
  holder : holder = some t ↔ v.lock ≠ none
  shut : ∀ l, v.lock = some l → l.shut = true → lockKalloc = false
  seen : ∀ l f n, v.lock = some l → l.seen = some (f, n) → fr f = n ∧ f ∈ v.pages + v.refs

def Locks (holder : Option Tid) (lockKalloc : Bool) (fr : Frame → Nat) (W : Tid → View) : Prop :=
  ∀ t, LockOk holder lockKalloc fr t (W t)

def Knows (k : Cond) (table : Frame → Table) (mem : Frame → Page) (W : Tid → View) : Prop :=
  ∀ t, ∀ f ∈ (W t).pages + (W t).refs, table f = (W t).table f ∧ (k.copyout = true → mem f = (W t).mem f)

structure Slots (k : Cond) (proc : Slot → Proc) (parent : Slot → Option Slot) (W : Tid → View) : Prop where
  main : (W none).self = none
  self : ∀ c p, (W (some c)).self = some p → proc c = p
  child : ∀ t c p, (W t).child = some (c, p) → proc c = p ∧ (W (some c)).self = none ∧
    (p.state = .used ∨ p.state = .zombie ∧ parent c = t ∧ t ≠ none)
  taken : ∀ c, (W (some c)).self = none → ∃ t p, (W t).child = some (c, p)
  alone : ∀ t u c p q, (W t).child = some (c, p) → (W u).child = some (c, q) → t = u
  asleep : ∀ t, ¬ Ready t (W t) → Rest k t (W t)

structure Inv (k : Cond) (s : Kern) (W : Tid → View) : Prop where
  books : Books s.first s.fr s.freelist s.held W
  locks : Locks s.holder s.lockKalloc s.fr W
  knows : Knows k s.table s.mem W
  slots : Slots k s.proc s.parent W

variable {k : Cond} {W : Tid → View} {t u : Tid} {c : Slot} {f : Frame} {v w : View} {o : Option Tid} {b : Bool}
  {first : Frame} {free held : List Frame} {r : Frame → Nat} {T : Frame → Table} {m : Frame → Page}
  {proc : Slot → Proc} {parent : Slot → Option Slot}

/-! ## Sums over the threads -/

section
variable (sel : View → Multiset Frame)

theorem sum_split (W : Tid → View) (t : Tid) (v : View) :
    ∃ rest, ∑ u, sel (W u) = rest + sel (W t) ∧ ∑ u, sel (update W t v u) = rest + sel v := by
  refine ⟨∑ u ∈ Finset.univ.erase t, sel (W u), (Finset.sum_erase_add _ _ (Finset.mem_univ t)).symm, ?_⟩
  rw [← Finset.sum_erase_add _ _ (Finset.mem_univ t), update_self]
  congr 1
  apply Finset.sum_congr rfl
  intro u hu
  rw [update_of_ne (Finset.ne_of_mem_erase hu)]

theorem sum_update_two (hne : u ≠ t) (h : sel v + sel w = sel (W t) + sel (W u)) :
    ∑ x, sel (update (update W u w) t v x) = ∑ x, sel (W x) := by
  have h1 := Count.sum_update Finset.univ (update W u w) sel (Finset.mem_univ t) v
  have h2 := Count.sum_update Finset.univ W sel (Finset.mem_univ u) w
  rw [update_of_ne hne.symm] at h1
  apply add_right_cancel (b := sel (W t) + sel (W u))
  rw [← add_assoc, h1, add_right_comm, h2, add_assoc, add_comm (sel w), h]

theorem mem_sum_of_mem (h : f ∈ sel (W t)) : f ∈ ∑ u, sel (W u) := Multiset.mem_sum.2 ⟨t, Finset.mem_univ t, h⟩

theorem two_le_count_sum (hne : t ≠ u) (ht : f ∈ sel (W t)) (hu : f ∈ sel (W u)) : 2 ≤ (∑ x, sel (W x)).count f := by
  rw [Multiset.count_sum']
  have := Count.add_le_sum Finset.univ (fun x => (sel (W x)).count f) (Finset.mem_univ t) (Finset.mem_univ u) hne
  have := count_pos.2 ht
  have := count_pos.2 hu
  omega

end

/-! ## Pages in one place are not in another -/

namespace Books

theorem own (held : List Frame) (h : f ∈ (W t).pages) : f ∈ (held : Multiset Frame) + ∑ u, (W u).pages :=
  mem_add.2 (.inr (mem_sum_of_mem View.pages h))

/-- A page of a thread is counted among the owned or the shared ones. -/
theorem pos (ht : f ∈ (W t).pages + (W t).refs) :
    0 < (∑ u, (W u).pages).count f + (∑ u, (W u).refs).count f := by
  rcases mem_add.1 ht with ht | ht
  · have := count_pos.2 (mem_sum_of_mem View.pages ht)
    omega
  · have := count_pos.2 (mem_sum_of_mem View.refs ht)
    omega

section
variable (h : Books first r free held W)
include h

theorem owner_unique (ht : f ∈ (W t).pages) (hu : f ∈ (W u).pages) : t = u := by
  by_contra hne
  have := two_le_count_sum View.pages hne ht hu
  have := h.places f
  rw [count_add] at this
  omega

theorem not_ref (ht : f ∈ (W t).pages) : f ∉ (W u).refs :=
  fun hu => h.not_shared_of_own (own held ht) (mem_sum_of_mem View.refs hu)

section
variable (ht : f ∈ (W t).pages + (W t).refs)
include ht

theorem apart : f ∉ free ∧ f ∉ held ∧ ∀ u, f ∉ (W u).zero := by
  have hpos := pos ht
  have hplaces := h.places f
  rw [count_add] at hplaces
  refine ⟨fun hf => ?_, fun hf => ?_, fun u hz => ?_⟩
  · have : 0 < (free : Multiset Frame).count f := count_pos.2 (mem_coe.2 hf)
    omega
  · have : 0 < (held : Multiset Frame).count f := count_pos.2 (mem_coe.2 hf)
    omega
  · have := count_pos.2 (mem_sum_of_mem View.zero hz)
    omega

theorem not_zero : f ∉ (W u).zero := (h.apart ht).2.2 u

theorem not_free : f ∉ free := (h.apart ht).1

theorem not_held : f ∉ held := (h.apart ht).2.1

theorem below : first ≤ f ∧ f < PHYSTOP := by
  have hpos := pos ht
  refine h.region_of_pos ?_
  rw [count_add]
  omega

end

theorem valid (t : Tid) : Valid (W t) := by
  refine ⟨?_, fun f hf => h.not_ref hf, fun f hf => (h.below hf).2⟩
  refine nodup_of_le ?_ h.own_nodup
  calc (W t).pages ≤ ∑ u, (W u).pages := Finset.single_le_sum (fun _ _ => Multiset.zero_le _) (Finset.mem_univ t)
    _ ≤ _ := le_add_left _ _

theorem ref_unique (hf : r f ≤ 1) (ht : f ∈ (W t).refs) : (W t).refs.count f ≤ 1 ∧ ∀ u, u ≠ t → f ∉ (W u).refs := by
  have hc := h.counted f
  have hle := Count.le_sum Finset.univ (fun x => (W x).refs.count f) (Finset.mem_univ t)
  rw [Multiset.count_sum'] at hc
  refine ⟨by omega, fun u hne hu => ?_⟩
  have := two_le_count_sum View.refs hne hu ht
  rw [Multiset.count_sum'] at this
  omega

end

end Books

/-! ## Frame rules: an action that leaves a part alone -/

section
variable (h : Books first r free held W)
include h

theorem Books.update {r' : Frame → Nat} {free' held' : List Frame}
    (hop : ∀ Z P R : Multiset Frame,
      Exact (fun f => first ≤ f ∧ f < PHYSTOP) r free (Z + (W t).zero) (held + (P + (W t).pages)) (R + (W t).refs) →
      Exact (fun f => first ≤ f ∧ f < PHYSTOP) r' free' (Z + v.zero) (held' + (P + v.pages)) (R + v.refs)) :
    Books first r' free' held' (update W t v) := by
  obtain ⟨Z, hz, hz'⟩ := sum_split View.zero W t v
  obtain ⟨P, hp, hp'⟩ := sum_split View.pages W t v
  obtain ⟨R, hr, hr'⟩ := sum_split View.refs W t v
  unfold Books at h ⊢
  rw [hz, hp, hr] at h
  rw [hz', hp', hr']
  exact hop Z P R h

theorem Books.same (hz : v.zero = (W t).zero) (hp : v.pages = (W t).pages)
    (hr : v.refs = (W t).refs) : Books first r free held (Function.update W t v) :=
  h.update fun Z P R hex => by rwa [hz, hp, hr]

theorem Books.two (hne : u ≠ t) (hz : v.zero + w.zero = (W t).zero + (W u).zero)
    (hp : v.pages + w.pages = (W t).pages + (W u).pages) (hr : v.refs + w.refs = (W t).refs + (W u).refs) :
    Books first r free held (Function.update (Function.update W u w) t v) := by
  unfold Books
  rwa [sum_update_two View.zero hne hz, sum_update_two View.pages hne hp,
    sum_update_two View.refs hne hr]

end

theorem Locks.without (h : Locks o b r W) (ht : (W t).lock = none) (hv : v.lock = none) :
    Locks o b r (update W t v) :=
  (forall_update_iff W (LockOk o b r)).2
    ⟨⟨by rw [hv.trans ht.symm]; exact (h t).holder, by rw [hv]; nofun, by rw [hv]; nofun⟩, fun u _ => h u⟩

theorem Locks.same (h : Locks o b r W) (hl : v.lock = (W t).lock)
    (hf : ∀ f ∈ (W t).pages + (W t).refs, f ∈ v.pages + v.refs) : Locks o b r (update W t v) := by
  refine (forall_update_iff W (LockOk o b r)).2
    ⟨⟨by rw [hl]; exact (h t).holder, by rw [hl]; exact (h t).shut, fun l f n hlv hs => ?_⟩, fun u _ => h u⟩
  rw [hl] at hlv
  exact ⟨((h t).seen l f n hlv hs).1, hf f ((h t).seen l f n hlv hs).2⟩

theorem Knows.same (h : Knows k T m W)
    (hv : ∀ f ∈ v.pages + v.refs, T f = v.table f ∧ (k.copyout = true → m f = v.mem f)) : Knows k T m (update W t v) :=
  (forall_update_iff W fun _ x => ∀ f ∈ x.pages + x.refs, T f = x.table f ∧ (k.copyout = true → m f = x.mem f)).2
    ⟨hv, fun u _ => h u⟩

theorem Knows.fewer (h : Knows k T m W) (ht : v.table = (W t).table) (hm : v.mem = (W t).mem)
    (hf : ∀ f ∈ v.pages + v.refs, f ∈ (W t).pages + (W t).refs) : Knows k T m (update W t v) :=
  h.same fun f hv => by rw [ht, hm]; exact h t f (hf f hv)

theorem Knows.gain (h : Knows k T m W) (ht : w.table = (W t).table) (hm : w.mem = (W t).mem)
    (hf : ∀ g ∈ w.pages + w.refs, g ∈ (W t).pages + (W t).refs) : Knows k T m (update W t (w.gain f (T f) (m f))) := by
  refine h.same fun g hg => ?_
  by_cases hgf : g = f
  · subst hgf
    simp [View.gain]
  · simp only [View.gain, cons_add, mem_cons, hgf, false_or] at hg
    simp only [View.gain, update_of_ne hgf, ht, hm]
    exact h t g (hf g hg)

theorem Ready.of_self (h : Ready t w) (hs : v.self = w.self) : Ready t v := by
  unfold Ready at h ⊢
  rwa [hs]

theorem Slots.same (h : Slots k proc parent W) (hr : Ready t (W t)) (hs : v.self = (W t).self)
    (hc : v.child = (W t).child) : Slots k proc parent (update W t v) := by
  have hself : ∀ u, (update W t v u).self = (W u).self :=
    (forall_update_iff W fun u x => x.self = (W u).self).2 ⟨hs, fun _ _ => rfl⟩
  have hchild : ∀ u, (update W t v u).child = (W u).child :=
    (forall_update_iff W fun u x => x.child = (W u).child).2 ⟨hc, fun _ _ => rfl⟩
  exact {
    main := by rw [hself]; exact h.main
    self := fun c p => by rw [hself]; exact h.self c p
    child := fun u c p => by rw [hchild, hself]; exact h.child u c p
    taken := fun c => by simp only [hself, hchild]; exact h.taken c
    alone := fun x y c p q => by rw [hchild, hchild]; exact h.alone x y c p q
    asleep := (forall_update_iff W fun u x => ¬ Ready u x → Rest k u x).2
      ⟨fun hn => absurd (hr.of_self hs) hn, fun u _ => h.asleep u⟩ }

end Xv6Riscv.Vm
