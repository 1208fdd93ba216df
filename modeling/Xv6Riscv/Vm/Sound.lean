import Xv6Riscv.Vm.Invariant

/-!
# Every action follows its rule

One lemma for each action: it keeps the invariant, and its thread has afterwards what the rule says. An
action on counts moves a page in the books, an action on the lock or on the contents of a page needs the
page to be with no other thread, and an action on a slot moves all that the slot owns.
-/
namespace Xv6Riscv.Vm
open Multiset RefCount Machine Function
variable {Q : View → Prop} {l : Lock} {n : Nat}

variable {k : Cond} {s s' : Kern} {W : Tid → View} {t u : Tid} {c : Slot} {f : Frame} {v w : View}
  {o : Option Tid} {b : Bool} {r : Frame → Nat} {first : Frame} {free held : List Frame}

/-- The state after an action of `t`, which leaves `t` with a view in `Q`. -/
def After (k : Cond) (W : Tid → View) (t : Tid) (s' : Kern) (Q : View → Prop) : Prop :=
  ∃ W', Inv k s' W' ∧ Q (W' t) ∧ ∀ u, u ≠ t → W' u = W u ∨ ¬ Ready u (W u) ∧ Rest k u (W' u)

theorem After.refl (h : Inv k s' W) (hQ : Q (W t)) : After k W t s' Q :=
  ⟨W, h, hQ, fun _ _ => .inl rfl⟩

theorem After.update (h : Inv k s' (update W t v)) (hQ : Q v) : After k W t s' Q :=
  ⟨_, h, by rwa [update_self], fun u hu => .inl (update_of_ne hu _ _)⟩

/-! ## The free list -/

theorem sound_pop {l : List Frame} (h : Inv k s W) (hr : Ready t (W t)) (hl : s.freelist = f :: l)
    (hQ : f ∉ (W t).pages → f ∉ (W t).refs → Q { W t with zero := f ::ₘ (W t).zero }) :
    After k W t { s with freelist := l } Q := by
  have hf : f ∈ s.freelist := by rw [hl]; exact List.mem_cons_self
  have hfree := fun ht => h.books.not_free (t := t) ht hf
  simp only [mem_add] at hfree
  refine .update (v := { W t with zero := f ::ₘ (W t).zero }) ⟨?_, h.locks.same rfl fun _ => id,
    h.knows.fewer rfl rfl fun _ => id, h.slots.same hr rfl rfl⟩
    (hQ (fun hp => hfree (.inl hp)) fun hp => hfree (.inr hp))
  refine h.books.update fun Z P R hex => ?_
  rw [hl, ← cons_coe] at hex
  rw [add_cons]
  exact hex.pop

theorem sound_push {z : Multiset Frame} (h : Inv k s W) (hr : Ready t (W t)) (hz : (W t).zero = f ::ₘ z) :
    Inv k { s with freelist := f :: s.freelist } (update W t { W t with zero := z }) := by
  refine ⟨?_, h.locks.same rfl fun _ => id, h.knows.fewer rfl rfl fun _ => id, h.slots.same hr rfl rfl⟩
  refine h.books.update fun Z P R hex => ?_
  rw [hz, add_cons] at hex
  exact hex.push

/-! ## The lock and the counts -/

theorem Locks.other (h : Locks o b r W) (ht : (W t).lock ≠ none) (hu : u ≠ t) : (W u).lock = none := by
  by_contra hn
  have h1 := (h t).holder.2 ht
  rw [(h u).holder.2 hn] at h1
  exact hu (Option.some.inj h1)

theorem Locks.mine {b' : Bool} {r' : Frame → Nat} (h : Locks o b r W) (ht : (W t).lock ≠ none)
    (hv : v.lock = some l) (hshut : l.shut = true → b' = false)
    (hseen : ∀ f n, l.seen = some (f, n) → r' f = n ∧ f ∈ v.pages + v.refs) : Locks o b' r' (update W t v) := by
  refine (forall_update_iff W (LockOk o b' r')).2
    ⟨⟨by simp [hv, (h t).holder.2 ht], fun l' hl' => ?_, fun l' f n hl' => ?_⟩, fun u hu => ?_⟩
  · cases hv.symm.trans hl'
    exact hshut
  · cases hv.symm.trans hl'
    exact hseen f n
  · have hn := h.other ht hu
    exact ⟨(h u).holder, by rw [hn]; nofun, by rw [hn]; nofun⟩

theorem sound_acquire (h : Inv k s W) (hr : Ready t (W t)) (hs : s.holder = none) :
    Inv k { s with holder := some t } (update W t { W t with lock := some ⟨false, none⟩ }) := by
  have hfree : ∀ u, (W u).lock = none := by
    intro u
    by_contra hn
    have := (h.locks u).holder.2 hn
    rw [hs] at this
    cases this
  refine ⟨h.books.same rfl rfl rfl, ?_, h.knows.fewer rfl rfl fun _ => id, h.slots.same hr rfl rfl⟩
  exact (forall_update_iff W (LockOk (some t) s.lockKalloc s.fr)).2 ⟨⟨by simp, by rintro l ⟨⟩ ⟨⟩, by rintro l f n ⟨⟩ ⟨⟩⟩,
    fun u hu => ⟨by simp [hfree u, hu.symm], (h.locks u).shut, (h.locks u).seen⟩⟩

theorem sound_release (h : Inv k s W) (hr : Ready t (W t)) (ht : (W t).lock ≠ none) :
    Inv k { s with holder := none } (update W t { W t with lock := none }) := by
  refine ⟨h.books.same rfl rfl rfl, ?_, h.knows.fewer rfl rfl fun _ => id, h.slots.same hr rfl rfl⟩
  exact (forall_update_iff W (LockOk none s.lockKalloc s.fr)).2 ⟨⟨by simp, nofun, nofun⟩,
    fun u hu => ⟨by simp [h.locks.other ht hu], (h.locks u).shut, (h.locks u).seen⟩⟩

theorem Books.count_mine (h : Books first r free held W) (hf : f ∈ (W t).pages + (W t).refs) :
    0 < r f ∧ (f ∈ (W t).pages → r f = 1) := by
  have hc := h.counted f
  constructor
  · have hpos := Books.pos hf
    rw [count_add] at hc
    omega
  · intro hp
    have hone := count_pos.2 (Books.own held hp)
    have := h.places f
    omega

theorem sound_memrefGet (h : Inv k s W) (hr : Ready t (W t)) (hl : (W t).lock = some l)
    (hf : f ∈ (W t).pages + (W t).refs) :
    Inv k s (update W t { W t with lock := some { l with seen := some (f, s.fr f) } }) := by
  have ht : (W t).lock ≠ none := by simp [hl]
  refine ⟨h.books.same rfl rfl rfl, h.locks.mine ht rfl ((h.locks t).shut l hl) ?_, h.knows.fewer rfl rfl fun _ => id,
    h.slots.same hr rfl rfl⟩
  rintro g n ⟨⟩
  exact ⟨rfl, hf⟩

theorem sound_fresh {z : Multiset Frame} (h : Inv k s W) (hr : Ready t (W t)) (hz : (W t).zero = f ::ₘ z) :
    Inv k { s with fr := update s.fr f 1 }
      (update W t ({ W t with zero := z }.gain f (s.table f) (s.mem f))) := by
  have hmem : f ∈ (W t).zero := by rw [hz]; exact mem_cons_self f z
  have hne : ∀ {u g}, g ∈ (W u).pages + (W u).refs → g ≠ f := by
    rintro u g hg rfl
    exact h.books.not_zero hg hmem
  have hlocks : Locks s.holder s.lockKalloc (update s.fr f 1) W := fun u =>
    ⟨(h.locks u).holder, (h.locks u).shut, fun l g n hl hs => by
      obtain ⟨hn, hg⟩ := (h.locks u).seen l g n hl hs
      exact ⟨by simpa only [update_of_ne (hne hg)] using hn, hg⟩⟩
  refine ⟨?_, hlocks.same rfl ?_, h.knows.gain rfl rfl fun _ => id, h.slots.same hr rfl rfl⟩
  · refine h.books.update fun Z P R hex => ?_
    rw [hz, add_cons] at hex
    simp only [View.gain, add_cons]
    exact hex.fresh
  · intro g hg
    simp only [View.gain, cons_add, mem_cons]
    exact .inr hg

theorem RefStep.lock_ne_none (hstep : RefStep f n v w) : v.lock ≠ none := by
  cases hstep <;> simp_all

theorem RefStep.frame (hstep : RefStep f n v w) :
    (∃ l, w.lock = some { l with seen := none } ∧ v.lock = some l) ∧
    w.table = v.table ∧ w.mem = v.mem ∧ w.self = v.self ∧ w.child = v.child ∧
    ∀ g ∈ w.pages + w.refs, g ∈ v.pages + v.refs := by
  cases hstep with
  | share l m hl _ hf =>
    refine ⟨⟨l, rfl, hl⟩, rfl, rfl, rfl, rfl, fun g hg => ?_⟩
    simp only [mem_add, mem_cons] at hg ⊢
    rcases hg with hg | rfl | hg
    · exact .inl hg
    · exact .inr hf
    · exact .inr hg
  | drop l m rest hl _ hf | lastPage l rest hl hf | lastRef l m rest hl _ hf =>
    refine ⟨⟨l, rfl, hl⟩, rfl, rfl, rfl, rfl, fun g hg => ?_⟩
    rw [hf]
    simp only [mem_add, mem_cons] at hg ⊢
    tauto

theorem sound_refStep (h : Inv k s W) (hr : Ready t (W t)) (hstep : RefStep f n (W t) v) :
    Inv k { s with fr := update s.fr f n } (update W t v) := by
  obtain ⟨⟨l, hlv, hl⟩, htab, hmem, hself, hchild, hsub⟩ := hstep.frame
  refine ⟨?_, h.locks.mine hstep.lock_ne_none hlv ((h.locks t).shut l hl) (by rintro g n ⟨⟩),
    h.knows.fewer htab hmem hsub, h.slots.same hr hself hchild⟩
  refine h.books.update fun Z P R hex => ?_
  cases hstep with
  | share l m hl hs hf hn =>
    obtain ⟨hm, -⟩ := (h.locks t).seen l f m hl hs
    subst hm hn
    rw [add_cons]
    exact hex.share (mem_add.2 (.inr hf))
  | drop l m rest hl hs hf hm1 hn =>
    obtain ⟨hm, -⟩ := (h.locks t).seen l f m hl hs
    subst hm hn
    rw [hf, add_cons] at hex
    exact hex.drop hm1
  | lastPage l rest hl hf hn =>
    subst hn
    rw [hf, add_cons, add_cons] at hex
    rw [add_cons]
    exact hex.last_own
  | lastRef l m rest hl hs hf hm1 hn =>
    obtain ⟨hm, -⟩ := (h.locks t).seen l f m hl hs
    subst hm hn
    rw [hf, add_cons] at hex
    rw [add_cons]
    exact (hex.to_own hm1).last_own

theorem sound_setLockKalloc {b : Bool} (h : Inv k s W) (hr : Ready t (W t)) (hl : (W t).lock = some l) :
    Inv k { s with lockKalloc := b } (update W t { W t with lock := some { l with shut := !b } }) := by
  have ht : (W t).lock ≠ none := by simp [hl]
  exact ⟨h.books.same rfl rfl rfl, h.locks.mine ht rfl (by simp) ((h.locks t).seen l · · hl),
    h.knows.fewer rfl rfl fun _ => id, h.slots.same hr rfl rfl⟩

/-! ## The contents of pages -/

theorem sound_write {x y : Page} (h : Inv k s W) (hr : Ready t (W t)) (hxy : k.copyout = true → x = y)
    (hf : k.copyout = true → ∀ u, u ≠ t → f ∉ (W u).pages + (W u).refs) :
    Inv k { s with mem := update s.mem f x }
      (update W t { W t with mem := update (W t).mem f y }) := by
  refine ⟨h.books.same rfl rfl rfl, h.locks.same rfl fun _ => id, ?_, h.slots.same hr rfl rfl⟩
  refine (forall_update_iff W fun _ y => ∀ g ∈ y.pages + y.refs, s.table g = y.table g ∧
    (k.copyout = true → update s.mem f x g = y.mem g)).2 ⟨fun g hg => ?_, fun u hu g hg => ?_⟩ <;> by_cases hgf : g = f
  · subst hgf
    exact ⟨(h.knows t g hg).1, fun hk => by simp [hxy hk]⟩
  · simp only [update_of_ne hgf]
    exact h.knows t g hg
  · subst hgf
    exact ⟨(h.knows u g hg).1, fun hk => absurd hg (hf hk u hu)⟩
  · rw [update_of_ne hgf]
    exact h.knows u g hg

theorem sound_junk {x : Page} (h : Inv k s W) (hf : ∀ u, f ∉ (W u).pages + (W u).refs) :
    Inv k { s with mem := update s.mem f x } W := by
  refine ⟨h.books, h.locks, fun u g hg => ?_, h.slots⟩
  have hgf : g ≠ f := by
    rintro rfl
    exact hf u hg
  simp only [update_of_ne hgf]
  exact h.knows u g hg

theorem Books.page_apart (h : Books first r free held W) (hf : f ∈ (W t).pages) (hu : u ≠ t) :
    f ∉ (W u).pages + (W u).refs := by
  rw [mem_add, not_or]
  exact ⟨fun hp => hu (h.owner_unique hp hf), h.not_ref hf⟩

/-! ## Page tables -/

theorem Recast.frame (hv : Recast v w) : w.zero = v.zero ∧ w.lock = v.lock ∧ w.table = v.table ∧ w.mem = v.mem ∧
    w.self = v.self ∧ w.child = v.child ∧ ∀ g, g ∈ w.pages + w.refs ↔ g ∈ v.pages + v.refs := by
  cases hv with
  | same => exact ⟨rfl, rfl, rfl, rfl, rfl, rfl, fun _ => Iff.rfl⟩
  | share f rest hf | own l f rest _ _ hf =>
    refine ⟨rfl, rfl, rfl, rfl, rfl, rfl, fun g => ?_⟩
    simp only [hf, mem_add, mem_cons]
    tauto

section
variable (h : Inv k s W) (hr : Ready t (W t))
include h hr

theorem sound_recast (hv : Recast (W t) v) : Inv k s (update W t v) := by
  obtain ⟨hz, hl, htab, hmem, hself, hchild, hpr⟩ := hv.frame
  refine ⟨?_, h.locks.same hl fun g => (hpr g).2, h.knows.fewer htab hmem fun g => (hpr g).1,
    h.slots.same hr hself hchild⟩
  refine h.books.update fun Z P R hex => ?_
  cases hv with
  | same => exact hex
  | share f rest hf =>
    rw [hf, add_cons, add_cons] at hex
    rw [add_cons]
    exact hex.to_shared
  | own l f rest hlk hs hf =>
    obtain ⟨hm, -⟩ := (h.locks t).seen l f 1 hlk hs
    rw [hf, add_cons] at hex
    rw [add_cons, add_cons]
    exact hex.to_own hm.le

theorem sound_setTable {T : Table} (hf : f ∈ (W t).pages) : Inv k { s with table := update s.table f T }
      (update W t { W t with table := update (W t).table f T }) := by
  refine ⟨h.books.same rfl rfl rfl, h.locks.same rfl fun _ => id, ?_, h.slots.same hr rfl rfl⟩
  refine (forall_update_iff W fun _ y => ∀ g ∈ y.pages + y.refs, update s.table f T g = y.table g ∧
    (k.copyout = true → s.mem g = y.mem g)).2 ⟨fun g hg => ?_, fun u hu g hg => ?_⟩ <;> by_cases hgf : g = f
  · subst hgf
    exact ⟨by simp, (h.knows t g hg).2⟩
  · simp only [update_of_ne hgf]
    exact h.knows t g hg
  · subst hgf
    exact absurd hg (h.books.page_apart hf hu)
  · rw [update_of_ne hgf]
    exact h.knows u g hg

/-! ## Pages of the rest of the kernel -/

theorem sound_hold {rest : Multiset Frame} (hl : (W t).lock = none) (hf : (W t).pages = f ::ₘ rest) :
    Inv k { s with held := f :: s.held } (update W t { W t with pages := rest }) := by
  refine ⟨?_, h.locks.without hl hl, h.knows.fewer rfl rfl ?_, h.slots.same hr rfl rfl⟩
  · refine h.books.update fun Z P R hex => ?_
    rwa [hf, add_cons, add_cons, ← cons_add, cons_coe] at hex
  · intro g hg
    rw [hf]
    simp only [mem_add, mem_cons] at hg ⊢
    tauto

theorem sound_unhold (hf : f ∈ s.held) :
    Inv k { s with held := s.held.erase f } (update W t ((W t).gain f (s.table f) (s.mem f))) := by
  refine ⟨?_, h.locks.same rfl ?_, h.knows.gain rfl rfl fun _ => id, h.slots.same hr rfl rfl⟩
  · refine h.books.update fun Z P R hex => ?_
    have herase : (s.held : Multiset Frame) = f ::ₘ ((s.held.erase f : List Frame) : Multiset Frame) := by
      rw [cons_coe, coe_eq_coe]
      exact List.perm_cons_erase hf
    rw [herase, cons_add, ← add_cons, ← add_cons] at hex
    exact hex
  · intro g hg
    simp only [View.gain, cons_add, mem_cons]
    exact .inr hg

end

/-! ## Process entries -/

section
variable {proc : Slot → Proc} {parent parent' : Slot → Option Slot} {p q : Proc}

section
variable (h : Slots k proc parent W)
include h

theorem Slots.child_ne (hr : Ready u (W u)) (hc : (W t).child = some (c, p)) : some c ≠ u := by
  rintro rfl
  obtain ⟨-, hnone, -⟩ := h.child t c p hc
  rcases hr with hn | ⟨q, hq, -⟩
  · cases hn
  · rw [hnone] at hq
    cases hq

/-- The slot `c` changes, or goes from one thread to another, and no other slot does. -/
theorem Slots.change {W' : Tid → View} (hself : ∀ u, u ≠ some c → (W' u).self = (W u).self)
    (hchild : ∀ u, (W' u).child.filter (·.1 ≠ c) = (W u).child.filter (·.1 ≠ c))
    (hpar : ∀ u d x, (W u).child = some (d, x) → d ≠ c → parent d = u → parent' d = u)
    (hat : (W' (some c)).self = some p ∧ (∀ u x, (W' u).child ≠ some (c, x)) ∨ (W' (some c)).self = none ∧
      ∃ t, (W' t).child = some (c, p) ∧ (∀ u x, (W' u).child = some (c, x) → u = t) ∧
        (p.state = .used ∨ p.state = .zombie ∧ parent' c = t ∧ t ≠ none))
    (hasleep : ∀ u, ¬ Ready u (W' u) → Rest k u (W' u)) : Slots k (update proc c p) parent' W' := by
  have hiff : ∀ {u d x}, d ≠ c → ((W' u).child = some (d, x) ↔ (W u).child = some (d, x)) := by
    intro u d x hd
    have he := congrArg (· = some (d, x)) (hchild u)
    simpa [Option.filter_eq_some_iff, hd] using he
  refine {
    main := by rw [hself none nofun]; exact h.main
    self := fun d x hx => ?_
    child := fun u d x hx => ?_
    taken := fun d hn => ?_
    alone := fun x y d a b hx hy => ?_
    asleep := hasleep }
  all_goals by_cases hd : d = c
  · subst hd
    rcases hat with ⟨hp, -⟩ | ⟨hn, -⟩
    · rw [update_self]
      exact Option.some.inj (hp.symm.trans hx)
    · rw [hn] at hx
      cases hx
  · rw [hself _ (by simpa using hd)] at hx
    rw [update_of_ne hd]
    exact h.self d x hx
  · subst hd
    rcases hat with ⟨-, hno⟩ | ⟨hn, t, ht, halone, hst⟩
    · exact absurd hx (hno u x)
    · obtain rfl := halone u x hx
      cases ht.symm.trans hx
      rw [update_self]
      exact ⟨rfl, hn, hst⟩
  · rw [hiff hd] at hx
    obtain ⟨hp, hn, hst⟩ := h.child u d x hx
    rw [update_of_ne hd, hself _ (by simpa using hd)]
    exact ⟨hp, hn, hst.imp_right fun hz => ⟨hz.1, hpar u d x hx hd hz.2.1, hz.2.2⟩⟩
  · subst hd
    rcases hat with ⟨hp, -⟩ | ⟨-, t, ht, -⟩
    · rw [hp] at hn
      cases hn
    · exact ⟨t, p, ht⟩
  · rw [hself _ (by simpa using hd)] at hn
    obtain ⟨u, x, hx⟩ := h.taken d hn
    exact ⟨u, x, (hiff hd).2 hx⟩
  · subst hd
    rcases hat with ⟨-, hno⟩ | ⟨-, t, -, halone, -⟩
    · exact absurd hx (hno x a)
    · rw [halone x a hx, halone y b hy]
  · exact h.alone x y d a b ((hiff hd).1 hx) ((hiff hd).1 hy)

theorem Slots.setSelf (hq : (W (some c)).self = some q) (hs : v.self = some p)
    (hc : v.child = (W (some c)).child) (ha : ¬ Ready (some c) v → Rest k (some c) v)
    (hpar : ∀ t d p, (W t).child = some (d, p) → parent d = t → parent' d = t) :
    Slots k (update proc c p) parent' (update W (some c) v) := by
  have hchild : ∀ u, (update W (some c) v u).child = (W u).child :=
    (forall_update_iff W fun u x => x.child = (W u).child).2 ⟨hc, fun _ _ => rfl⟩
  refine h.change (fun u hu => by rw [update_of_ne hu]) (fun u => by rw [hchild]) (fun u d x hx _ => hpar u d x hx)
    (.inl ⟨by rw [update_self, hs], fun u x hx => ?_⟩)
    ((forall_update_iff W fun u x => ¬ Ready u x → Rest k u x).2 ⟨ha, fun u _ => h.asleep u⟩)
  rw [hchild] at hx
  rw [(h.child u c x hx).2.1] at hq
  cases hq

theorem Slots.setChild (hr : Ready t (W t)) (hq : (W t).child = some (c, q))
    (hst : p.state = q.state) (hs : v.self = (W t).self) (hv : v.child = some (c, p)) :
    Slots k (update proc c p) parent (update W t v) := by
  have hself : ∀ u, (update W t v u).self = (W u).self :=
    (forall_update_iff W fun u x => x.self = (W u).self).2 ⟨hs, fun _ _ => rfl⟩
  obtain ⟨-, hnone, hstate⟩ := h.child t c q hq
  refine h.change (fun u _ => hself u) ?_ (fun _ _ _ _ _ => id)
    (.inr ⟨(hself _).trans hnone, t, by rw [update_self, hv], fun u x hx => ?_, hst ▸ hstate⟩)
    ((forall_update_iff W fun u x => ¬ Ready u x → Rest k u x).2
      ⟨fun hn => absurd (hr.of_self hs) hn, fun u _ => h.asleep u⟩)
  · exact (forall_update_iff W fun u x => x.child.filter (·.1 ≠ c) = (W u).child.filter (·.1 ≠ c)).2
      ⟨by rw [hv, hq]; simp [Option.filter], fun _ _ => rfl⟩
  · by_contra hu
    rw [update_of_ne hu] at hx
    exact hu (h.alone u t c x q hx hq)

/-- The slot `c`, at rest with its own thread or with `t`, goes to the other of the two. -/
theorem Slots.two (hr : Ready t (W t)) (hct : some c ≠ t) (hqc : (W (some c)).child = none) (hs : v.self = (W t).self)
    (hwr : Rest k (some c) w) (hwas : (W t).child.filter (·.1 ≠ c) = none)
    (hno : ∀ u x, u ≠ t → (W u).child ≠ some (c, x)) (hpar : ∀ d, d ≠ c → parent' d = parent d)
    (hat : w.self = some p ∧ v.child = none ∨ w.self = none ∧ v.child = some (c, p) ∧
      (p.state = .used ∨ p.state = .zombie ∧ parent' c = t ∧ t ≠ none)) :
    Slots k (update proc c p) parent' (update (update W (some c) w) t v) := by
  have hchild : ∀ u, u ≠ t → (update (update W (some c) w) t v u).child = (W u).child := by
    intro u hu
    rw [update_of_ne hu]
    exact (forall_update_iff W fun u x => x.child = (W u).child).2 ⟨hwr.child.trans hqc.symm, fun _ _ => rfl⟩ u
  refine h.change (fun u hu => ?_) (fun u => ?_) (fun u d x _ hd hp => (hpar d hd).trans hp) ?_ fun u hu => ?_
  · by_cases hut : u = t
    · rw [hut, update_self, hs]
    · rw [update_of_ne hut, update_of_ne hu]
  · by_cases hut : u = t
    · rw [hut, update_self, hwas]
      rcases hat with ⟨-, hv⟩ | ⟨-, hv, -⟩ <;> simp [hv]
    · rw [hchild u hut]
  · rw [update_of_ne hct, update_self]
    refine hat.imp (fun hg => ⟨hg.1, fun u x hx => ?_⟩) fun hg =>
      ⟨hg.1, t, by rw [update_self, hg.2.1], fun u x hx => ?_, hg.2.2⟩ <;> by_cases hut : u = t
    · rw [hut, update_self, hg.2] at hx
      cases hx
    · exact hno u x hut ((hchild u hut).symm.trans hx)
    · exact hut
    · exact absurd ((hchild u hut).symm.trans hx) (hno u x hut)
  · by_cases hut : u = t
    · subst hut
      rw [update_self] at hu
      exact absurd (hr.of_self hs) hu
    · rw [update_of_ne hut] at hu ⊢
      exact (forall_update_iff W fun u x => ¬ Ready u x → Rest k u x).2 ⟨fun _ => hwr, fun u _ => h.asleep u⟩ u hu

/-- A slot that no thread can be working on is with its own thread. -/
theorem Slots.self_of (hno : ∀ u p, (W u).child = some (c, p) → proc c = p →
      (p.state = .used ∨ p.state = .zombie ∧ parent c = u ∧ u ≠ none) → False) : ∃ q, (W (some c)).self = some q := by
  cases hq : (W (some c)).self with
  | some q => exact ⟨q, rfl⟩
  | none =>
    obtain ⟨u, p, hu⟩ := h.taken c hq
    obtain ⟨hp, -, hst⟩ := h.child u c p hu
    exact absurd hst (hno u p hu hp)

theorem Slots.reparent (hpar : ∀ u d p, (W u).child = some (d, p) → p.state = .zombie → parent' d = parent d) :
    Slots k proc parent' W := by
  refine ⟨h.main, h.self, fun u d p hp => ?_, h.taken, h.alone, h.asleep⟩
  obtain ⟨hpd, hnone, hst⟩ := h.child u d p hp
  exact ⟨hpd, hnone, hst.imp_right fun hz => ⟨hz.1, by rw [hpar u d p hp hz.1]; exact hz.2.1, hz.2.2⟩⟩

end

end

theorem Kern.setProc_self (s : Kern) (c : Slot) : s.setProc c (s.proc c) = s := by
  rw [Kern.setProc, update_eq_self]

theorem After.two (h : Inv k s' (Function.update (Function.update W (some c) w) t v))
    (hQ : Q v) (hn : ¬ Ready (some c) (W (some c))) (hw : Rest k (some c) w) : After k W t s' Q := by
  refine ⟨_, h, by rwa [update_self], fun u hu => ?_⟩
  rw [update_of_ne hu]
  by_cases huc : u = some c
  · subst huc
    rw [update_self]
    exact .inr ⟨hn, hw⟩
  · exact .inl (update_of_ne huc _ _)

theorem Rest.taken (h : Rest k (some c) w) : Rest k (some c) w.taken where
  zero := h.zero
  lock := h.lock
  child := h.child
  main := nofun
  empty _ := ⟨rfl, rfl⟩
  settled p hp := by cases hp

theorem sound_take {p q : Proc} (h : Inv k s W) (hr : Ready t (W t)) (hnone : (W t).child = none)
    (hq : (W (some c)).self = some q) (hqs : q.state ≠ .runnable)
    (hp : p.state = .used ∨ p.state = .zombie ∧ s.parent c = t ∧ t ≠ none)
    (hQ : Rest k (some c) (W (some c)) → (∀ f ∈ (W (some c)).pages, f ∉ (W t).pages + (W t).refs) →
      Q ((W t).take (W (some c)) c p)) : After k W t (s.setProc c p) Q := by
  have hn : ¬ Ready (some c) (W (some c)) := by
    rintro (hn | ⟨x, hx, hst⟩)
    · cases hn
    · cases hq.symm.trans hx
      exact hqs hst
  have hct : some c ≠ t := by
    rintro rfl
    exact hn hr
  have hrest := h.slots.asleep _ hn
  have hapart : ∀ f ∈ (W (some c)).pages, f ∉ (W t).pages + (W t).refs := fun f hf =>
    h.books.page_apart hf hct.symm
  refine .two ⟨?_, ?_, ?_, ?_⟩ (hQ hrest hapart) hn hrest.taken
  · exact h.books.two hct (by simp [View.taken, View.take]) (by simp [View.taken, View.take])
      (by simp [View.taken, View.take])
  · refine (h.locks.without hrest.lock hrest.taken.lock).same ?_ fun g hg => ?_
    · rw [update_of_ne hct.symm]
      rfl
    · rw [update_of_ne hct.symm] at hg
      simp only [View.take, mem_add] at hg ⊢
      tauto
  · have hk : Knows k s.table s.mem (update W (some c) (W (some c)).taken) :=
      h.knows.fewer rfl rfl fun g hg => by simp [View.taken] at hg
    refine hk.same fun g hg => ?_
    by_cases hgt : g ∈ (W t).pages + (W t).refs
    · simp only [View.take, if_pos hgt]
      exact h.knows t g hgt
    · simp only [View.take, if_neg hgt]
      refine h.knows (some c) g ?_
      simp only [View.take, mem_add] at hg hgt ⊢
      tauto
  · refine h.slots.two hr hct hrest.child rfl hrest.taken (by rw [hnone]; rfl) (fun u x _ hx => ?_) (fun _ _ => rfl)
      (.inr ⟨rfl, rfl, hp⟩)
    rw [(h.slots.child u c x hx).2.1] at hq
    cases hq

theorem sound_handOver {ok : Proc → Prop} {next : Proc → Proc} {parent' : Slot → Option Slot}
    (h : Inv k s W) (hr : Ready t (W t)) (hh : HandOver k c (W t) ok next Q)
    (hpar : ∀ d, d ≠ c → parent' d = s.parent d) :
    After k W t { s.setProc c (next (s.proc c)) with parent := parent' } Q := by
  obtain ⟨hl, p, P, R, P', R', hc, -, hP, hR, hrest, hQ⟩ := hh
  obtain ⟨hpc, hself, -⟩ := h.slots.child t c p hc
  have hct := h.slots.child_ne hr hc
  have hn : ¬ Ready (some c) (W (some c)) := by
    rintro (hn | ⟨x, hx, -⟩)
    · cases hn
    · rw [hself] at hx
      cases hx
  have hwas := h.slots.asleep _ hn
  obtain ⟨hnp, hnr⟩ := hwas.empty hself
  rw [hpc]
  refine .two ⟨?_, ?_, ?_, ?_⟩ hQ hn hrest
  · refine h.books.two hct ?_ ?_ ?_
    · rw [hwas.zero]
      simp [View.give]
    · rw [hnp, hP]
      simp [View.give]
    · rw [hnr, hR]
      simp [View.give]
  · refine (h.locks.without hwas.lock hrest.lock).without ?_ hl
    rw [update_of_ne hct.symm]
    exact hl
  · have hk : Knows k s.table s.mem (update W (some c) ((W t).give P' R' (next p))) := by
      have hof : ∀ g ∈ P' + R', g ∈ (W t).pages + (W t).refs := by
        intro g hg
        rw [hP, hR]
        simp only [mem_add] at hg ⊢
        tauto
      exact h.knows.same fun g hg => h.knows t g (hof g hg)
    refine hk.fewer ?_ ?_ fun g hg => ?_
    · rw [update_of_ne hct.symm]
    · rw [update_of_ne hct.symm]
    · rw [update_of_ne hct.symm, hP, hR]
      simp only [mem_add] at hg ⊢
      tauto
  · exact h.slots.two hr hct hwas.child rfl hrest (by simp [hc])
      (fun u x hut hx => hut (h.slots.alone u t c x p hx hc)) hpar (.inl ⟨rfl, rfl⟩)

/-! ## All actions -/

/-- **Every action follows its rule.** -/
theorem exec_sound {a : Act} {r : a.Res} {Q : a.Res → View → Prop} (h : Inv k s W) (hr : Ready t (W t))
    (ha : a.rule k t (W t) Q) (hok : actOk k s t a) (hex : s.exec t a = .ok (r, s')) : After k W t s' (Q r) := by
  cases a with
  | pop =>
    simp only [Kern.exec] at hex
    split at hex
    · rename_i hnil
      split at hex
      · cases hex
      rename_i hne
      cases hex
      refine .refl h (ha.1 ?_ hne)
      by_contra hk
      exact hok (by simpa using hk) hnil
    · rename_i f l hl
      cases hex
      exact sound_pop h hr hl (ha.2 f)
  | push pa =>
    obtain ⟨z, hz, hQ⟩ := ha
    cases hex
    exact .update (sound_push h hr hz) hQ
  | acquire =>
    obtain ⟨-, hQ⟩ := ha
    simp only [Kern.exec] at hex
    split at hex
    · rename_i hn
      cases hex
      exact .update (sound_acquire h hr hn) hQ
    · split at hex <;> cases hex
  | release =>
    obtain ⟨hl, hQ⟩ := ha
    simp only [Kern.exec] at hex
    split at hex
    · cases hex
      exact .update (sound_release h hr hl) hQ
    · cases hex
  | memrefGet pa =>
    obtain ⟨l, hl, hpa, hQ⟩ := ha
    obtain ⟨hpos, hone⟩ := h.books.count_mine hpa
    cases hex
    exact .update (sound_memrefGet h hr hl hpa) (hQ _ hpos hone)
  | memrefSet pa fq =>
    cases hex
    rcases ha with ⟨v, hstep, hQ⟩ | ⟨z, hz, rfl, hQ⟩
    · exact .update (sound_refStep h hr hstep) hQ
    · exact .update (sound_fresh h hr hz) (hQ _ _)
  | lockKalloc =>
    cases hex
    exact .refl h (ha _ (h.locks t).shut)
  | setLockKalloc b =>
    obtain ⟨l, hl, hQ⟩ := ha
    cases hex
    exact .update (sound_setLockKalloc h hr hl) hQ
  | isFrame pa =>
    obtain ⟨hpa, hQ⟩ := ha
    cases hex
    have hin : s.isFrame pa = true := by
      have hpos := (h.books.count_mine hpa).1
      rw [h.books.counted pa] at hpos
      simpa [Kern.isFrame] using h.books.region_of_pos (f := pa) (by omega)
    rw [hin]
    exact .refl h hQ
  | memset pa c =>
    cases hex
    rcases ha with ⟨hz, hQ⟩ | ⟨hp, hQ⟩
    · exact .refl (sound_junk h fun u hu => h.books.not_zero hu hz) hQ
    · exact .update (sound_write h hr (fun _ => rfl) fun _ u hu => h.books.page_apart hp hu) hQ
  | memmove dst src =>
    obtain ⟨hd, hs, hQ⟩ := ha
    cases hex
    exact .update (sound_write h hr ((h.knows t src hs).2) fun _ u hu => h.books.page_apart hd hu) hQ
  | read pa off =>
    cases hex
    exact .refl h (ha.2 _)
  | write pa off bytes =>
    obtain ⟨hp, hQ⟩ := ha
    cases hex
    refine .update (sound_write h hr (fun hk => ?_) fun _ u hu => h.books.page_apart hp hu) hQ
    rw [(h.knows t pa (mem_add.2 (.inl hp))).2 hk]
  | copy pa off bytes =>
    obtain ⟨hp, hQ⟩ := ha
    cases hex
    have hsole : k.copyout = true → (W t).refs.count pa ≤ 1 ∧ ∀ u, u ≠ t → pa ∉ (W u).pages + (W u).refs := by
      intro hk
      rcases mem_add.1 hp with hp | hp
      · rw [count_eq_zero_of_notMem (h.books.not_ref hp)]
        exact ⟨by omega, fun u hu => h.books.page_apart hp hu⟩
      obtain ⟨hone, hother⟩ := h.books.ref_unique (hok hk) hp
      refine ⟨hone, fun u hu hmem => ?_⟩
      rcases mem_add.1 hmem with hm | hm
      · exact h.books.not_ref hm hp
      · exact hother u hu hm
    refine .update (sound_write h hr (fun hk => ?_) fun hk => (hsole hk).2) (hQ fun hk => (hsole hk).1)
    rw [(h.knows t pa hp).2 hk]
  | getTable pt =>
    obtain ⟨hp, hQ⟩ := ha
    cases hex
    rw [(h.knows t pt (mem_add.2 (.inl hp))).1]
    exact .refl h hQ
  | setTable pt T =>
    obtain ⟨v, hv, hp, hQ⟩ := ha
    cases hex
    have hrv := hr.of_self hv.frame.2.2.2.2.1
    have hinv := sound_setTable (T := T) (f := pt) (t := t) (sound_recast h hr hv) (by simpa using hrv)
      (by simpa using hp)
    rw [update_idem, update_self] at hinv
    exact .update hinv hQ
  | myproc =>
    obtain ⟨p, hp, hQ⟩ := ha
    simp only [Kern.exec] at hex
    split at hex
    · cases hex
    · cases hex
      rw [h.slots.self _ p hp]
      exact .refl h hQ
  | setMyproc p =>
    obtain ⟨q, hq, hst, hQ⟩ := ha
    simp only [Kern.exec] at hex
    split at hex
    · cases hex
    rename_i c
    cases hex
    refine .update (v := { W (some c) with self := some p }) ⟨h.books.same rfl rfl rfl, h.locks.same rfl fun _ => id,
      h.knows.fewer rfl rfl fun _ => id, h.slots.setSelf hq rfl rfl (fun hn => absurd ?_ hn)
        fun _ _ _ _ hpar => hpar⟩ hQ
    refine .inr ⟨p, rfl, ?_⟩
    rcases hr with hn | ⟨q', hq', hrun⟩
    · cases hn
    · cases hq.symm.trans hq'
      rw [hst, hrun]
  | getProc c =>
    obtain ⟨p, hp, hQ⟩ := ha
    cases hex
    rw [(h.slots.child t c p hp).1]
    exact .refl h hQ
  | setProc c p =>
    obtain ⟨q, hq, hst, hQ⟩ := ha
    cases hex
    exact .update (v := { W t with child := some (c, p) }) ⟨h.books.same rfl rfl rfl, h.locks.same rfl fun _ => id,
      h.knows.fewer rfl rfl fun _ => id, h.slots.setChild hr hq hst rfl rfl⟩ hQ
  | claim c =>
    obtain ⟨hnone, hfalse, htrue⟩ := ha
    simp only [Kern.exec] at hex
    split at hex
    · rename_i hst
      cases hex
      obtain ⟨q, hq⟩ := h.slots.self_of (c := c) fun u p _ hp hstate => by
        rw [hp] at hst
        rcases hstate with hs | ⟨hs, -⟩ <;> rw [hst] at hs <;> cases hs
      have hpq := h.slots.self c q hq
      rw [hpq] at hst ⊢
      exact sound_take h hr hnone hq (by rw [hst]; decide) (.inl rfl) fun hrest hapart => htrue _ q hrest
        hq hst hapart
    · cases hex
      exact .refl h hfalse
  | setParent c =>
    obtain ⟨p, hp, hst, hQ⟩ := ha
    cases hex
    refine .refl ⟨h.books, h.locks, h.knows, h.slots.reparent fun u d q hq hz => ?_⟩ hQ
    refine update_of_ne ?_ _ _
    rintro rfl
    obtain rfl := h.slots.alone u t d q p hq hp
    cases hq.symm.trans hp
    rw [hst] at hz
    cases hz
  | setInitproc c =>
    cases hex
    exact .refl ⟨h.books, h.locks, h.knows, h.slots⟩ ha
  | setRunnable c =>
    cases hex
    exact sound_handOver h hr ha fun _ _ => rfl
  | isInit =>
    cases hex
    exact .refl h (ha _)
  | die status =>
    obtain ⟨hnone, p, hp, hQ⟩ := ha
    simp only [Kern.exec] at hex
    split at hex
    · cases hex
    rename_i c
    cases hex
    have hpc := h.slots.self c p hp
    obtain ⟨hrest, hQ⟩ := hQ fun hk => by rw [← hpc]; exact hok hk c rfl
    rw [hpc]
    refine .update (v := { W (some c) with self := some { p with state := .zombie, xstate := status } })
      ⟨h.books.same rfl rfl rfl, h.locks.same rfl fun _ => id, h.knows.fewer rfl rfl fun _ => id,
        h.slots.setSelf hp rfl rfl (fun _ => hrest) fun u d q hq hpar => ?_⟩ hQ
    have hd : s.parent d ≠ some c := by
      intro hd
      obtain rfl : u = some c := hpar.symm.trans hd
      rw [hnone] at hq
      cases hq
    exact (if_neg hd).trans hpar
  | zombieChild c =>
    obtain ⟨hnone, hfalse, htrue⟩ := ha
    obtain ⟨rfl, rfl⟩ := hex
    by_cases hz : t ≠ none ∧ s.parent c = t ∧ (s.proc c).state = .zombie
    · rw [decide_eq_true hz]
      obtain ⟨hne, hpar, hst⟩ := hz
      obtain ⟨q, hq⟩ := h.slots.self_of (c := c) fun u p hu hp hstate => by
        rw [hp] at hst
        rcases hstate with hs | ⟨-, hs, -⟩
        · rw [hst] at hs
          cases hs
        · obtain rfl : t = u := hpar.symm.trans hs
          rw [hnone] at hu
          cases hu
      have hpq := h.slots.self c q hq
      have htake := sound_take (p := q) (Q := Q true) h hr hnone hq (by rw [← hpq, hst]; decide)
        (.inr ⟨hpq ▸ hst, hpar, hne⟩) fun hrest hapart => htrue _ q hrest hq (hpq ▸ hst) hapart
      rwa [← hpq, Kern.setProc_self] at htake
    · rw [decide_eq_false hz]
      exact .refl h hfalse
  | unlockProc c =>
    cases hex
    have hgive : After k W t { s.setProc c (id (s.proc c)) with parent := s.parent } (Q ()) :=
      sound_handOver h hr ha fun _ _ => rfl
    rwa [id, Kern.setProc_self] at hgive
  | setUnused c =>
    cases hex
    exact sound_handOver h hr ha fun d hd => update_of_ne hd _ _
  | hold pa =>
    obtain ⟨hl, rest, hp, hQ⟩ := ha
    cases hex
    exact .update (sound_hold h hr hl hp) hQ
  | unhold pa =>
    simp only [Kern.exec] at hex
    split at hex
    · rename_i hheld
      cases hex
      have hfree := fun ht => h.books.not_held (t := t) ht hheld
      simp only [mem_add] at hfree
      exact .update (sound_unhold h hr hheld) (ha (fun hp => hfree (.inl hp)) (fun hp => hfree (.inr hp)) _ _)
    · cases hex
  | panic m => cases hex

/-- The only panics are those of the code, not of the lock. -/
theorem exec_halt {a : Act} {p : Panic} {Q : a.Res → View → Prop} (h : Inv k s W) (ha : a.rule k t (W t) Q)
    (hex : s.exec t a = .halt p) : p.reachable = true := by
  cases a with
  | acquire =>
    obtain ⟨hl, -⟩ := ha
    simp only [Kern.exec] at hex
    split at hex
    · cases hex
    rename_i u hu
    split at hex
    · rename_i hut
      rw [hut] at hu
      exact absurd hl ((h.locks t).holder.1 hu)
    · cases hex
  | release =>
    obtain ⟨hl, -⟩ := ha
    simp only [Kern.exec, (h.locks t).holder.2 hl] at hex
    cases hex
  | panic m =>
    cases hex
    exact ha
  | pop =>
    simp only [Kern.exec] at hex
    split at hex
    · split at hex <;> cases hex
    · cases hex
  | myproc | setMyproc | claim | die | unhold =>
    simp only [Kern.exec] at hex
    split at hex <;> cases hex
  | _ => cases hex

end Xv6Riscv.Vm
