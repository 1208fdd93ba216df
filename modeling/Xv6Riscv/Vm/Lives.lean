import Mathlib.Tactic.Abel
import Xv6Riscv.Vm.Body

/-!
# How processes come and go: `allocproc`, `freeproc`, `fork`, `wait`

The thread that makes or reaps a process has all that the slot owns in its own view meanwhile. `freeproc`
gives back the trapframe, the page table and the user pages, and leaves the alarm context where it is.
-/
namespace Xv6Riscv.Vm
open Multiset Threads
variable {Q : Unit → View → Prop}

variable {k : Cond} {t : Tid} {c : Slot} {v v' w : View} {f root tf pa : Frame} {i n : Nat} {P R lost : Multiset Frame}
  {S : List Nat} {p : Proc}

/-! ## What a slot owns -/

theorem Rest.unused (h : Rest k (some c) w) (hself : w.self = some p) (hst : p.state = .unused) :
    Blank p ∧ w.refs = 0 ∧ ∃ lost, w.pages = opt p.alarmContext + lost ∧
      (k.alarm = true → p.alarmContext = none ∧ lost = 0) := by
  have hset := h.settled p hself
  obtain ⟨lost, hp, hlost⟩ := hset.pages
  rcases hset.body with ⟨-, hblank⟩ | ⟨hst' | hst', -⟩
  · obtain ⟨hroot, htf, hsz⟩ := hblank
    refine ⟨⟨hroot, htf, hsz⟩, ?_, lost, ?_, fun hk => ⟨hset.alarm hk (.inl (by rw [hst]; decide)), hlost hk⟩⟩
    · rw [hset.refs, View.shared, hroot]
    · rw [hp, View.own, hroot, htf]
      simp
  · rw [hst] at hst'
    cases hst'
  · rw [hst] at hst'
    cases hst'

theorem Rest.zombie (h : Rest k (some c) w) (hself : w.self = some p) (hst : p.state = .zombie) :
    Bodied w p ∧ w.refs = w.shared p ∧ ∃ lost, w.pages = w.own p + lost ∧
      (k.alarm = true → p.alarmContext = none ∧ lost = 0) := by
  have hset := h.settled p hself
  obtain ⟨lost, hp, hlost⟩ := hset.pages
  rcases hset.body with ⟨hst', -⟩ | ⟨-, hb⟩
  · rw [hst] at hst'
    cases hst'
  · exact ⟨hb, hset.refs, lost, hp, fun hk => ⟨hset.alarm hk (.inl (by rw [hst]; decide)), hlost hk⟩⟩

/-! ## `freeproc` -/

theorem wp_freeTrapframe {o : Option Frame} (hr : Ready t v) (hl : v.lock = none)
    (hp : v.pages = opt o + P) (hQ : Q () { v with pages := P }) :
    Wp k t (match o with | some f => kfree f | none => pure ()) v Q := by
  cases o with
  | none =>
    rw [opt_none, zero_add] at hp
    subst hp
    exact hQ
  | some f => exact wp_kfree_page hr hl hp hQ

/-- The pages of a page table, and its references. -/
def View.ownTable (v : View) (o : Option Frame) : Multiset Frame :=
  match o with
  | none => 0
  | some root => root ::ₘ (v.table root).own

theorem View.own_eq (v : View) (p : Proc) :
    v.own p = opt p.trapframe + opt p.alarmContext + v.ownTable p.pagetable := by
  unfold View.own View.ownTable
  cases p.pagetable <;> rfl

theorem wp_freeTable (hr : Ready t v) (hl : v.lock = none)
    (hp : v.pages = v.ownTable p.pagetable + P) (hrefs : v.refs = v.shared p + R)
    (hshape : ∀ root, p.pagetable = some root → (v.table root).Shape (npages p.sz) [TRAPFRAME, TRAMPOLINE])
    (hQ : ∀ v', v'.pages = P → v'.refs = R → v'.zero = v.zero → v'.lock = v.lock → v'.self = v.self →
    v'.child = v.child →
      v'.mem = v.mem → (∀ f, p.pagetable ≠ some f → v'.table f = v.table f) → Q () v') :
    Wp k t (match p.pagetable with | some f => procFreepagetable f p.sz | none => pure ()) v Q := by
  unfold View.shared at hrefs
  cases hroot : p.pagetable with
  | none =>
    rw [hroot] at hp hrefs
    simp only [View.ownTable, zero_add] at hp hrefs
    exact hQ v hp hrefs rfl rfl rfl rfl rfl fun _ _ => rfl
  | some root =>
    rw [hroot] at hp hrefs
    simp only [View.ownTable, cons_add] at hp
    refine wp_procFreepagetable hr hl ⟨hp, hrefs⟩ (hshape root hroot) fun v' hp' hr' hf => ?_
    exact hQ v' hp' hr' hf.zero hf.lock hf.self hf.child hf.mem fun f hne => hf.table f fun he => hne
      (by rw [hroot, he])

/-- `freeproc`: the slot keeps its alarm context, and what it had lost before. -/
theorem wp_freeproc (hr : Ready t v) (hl : v.lock = none) (hc : v.child = some (c, p))
    (hp : v.pages = v.own p + (P + lost)) (hrefs : v.refs = v.shared p + R)
    (hshape : ∀ root, p.pagetable = some root → (v.table root).Shape (npages p.sz) [TRAPFRAME, TRAMPOLINE])
    (hal : k.alarm = true → p.alarmContext = none ∧ lost = 0)
    (hQ : ∀ v', v'.pages = P → v'.refs = R → v'.zero = v.zero → v'.lock = v.lock → v'.self = v.self → v'.child = none →
      v'.mem = v.mem → (∀ f, p.pagetable ≠ some f → v'.table f = v.table f) → Q () v') : Wp k t (freeproc c) v Q := by
  refine Wp.bind (.act hr fun _ => ⟨p, hc, ?_⟩)
  have hp1 : v.pages = opt p.trapframe + (v.ownTable p.pagetable + (P + (opt p.alarmContext + lost))) := by
    rw [hp, View.own_eq]
    abel
  refine Wp.bind (wp_freeTrapframe hr hl hp1 ?_)
  refine Wp.bind (.act hr fun _ => ⟨p, hc, rfl, ?_⟩)
  refine Wp.bind (wp_freeTable hr hl rfl hrefs hshape fun v' hp' hr' hz hl' hs hc' hm ht => ?_)
  have hr1 : Ready t v' := by
    unfold Ready at hr ⊢
    rwa [hs]
  refine Wp.bind (.act hr1 fun _ => ⟨_, hc', rfl, ?_⟩)
  refine .act hr1 fun _ => ⟨hl'.trans hl, _, P, R, opt p.alarmContext + lost, 0, rfl, trivial,
    hp', by rw [add_zero]; exact hr', ?_, ?_⟩
  · refine ⟨rfl, rfl, rfl, nofun, nofun, fun q hq => ?_⟩
    cases hq
    refine ⟨.inl ⟨rfl, rfl, rfl, rfl⟩, ⟨lost, ?_, fun hk => (hal hk).2⟩, rfl, fun hk _ => (hal hk).1⟩
    simp [View.give, View.own]
  · exact hQ _ rfl rfl hz hl' hs rfl hm ht

/-! ## `allocproc` -/

theorem wp_claimSlot (slots : List Slot) {Q : Option Slot → View → Prop} (hr : Ready t v) (hc : v.child = none)
    (hnone : Q none v) (hsome : ∀ c w p, Rest k (some c) w → w.self = some p → p.state = .unused →
      Q (some c) (v.take w c { p with state := .used })) : Wp k t (claimSlot slots) v Q := by
  induction slots with
  | nil => exact hnone
  | cons c cs ih =>
    refine Wp.bind (.act hr fun _ => ⟨hc, ih, fun w p hw hself hst _ => ?_⟩)
    exact hsome c w p hw hself hst

theorem Grows.setChild (h : Grows root v v') (x : Option (Slot × Proc)) :
    Grows root { v with child := x } { v' with child := x } :=
  ⟨⟨h.zero, h.lock, h.self, rfl, h.table, h.mem⟩, h.keeps⟩

theorem Grows.take (root : Frame) (v w : View) (c : Slot) (p : Proc) :
    Grows root { v with child := some (c, p) } (v.take w c p) := by
  refine ⟨⟨rfl, rfl, rfl, rfl, fun f hf _ => if_pos hf, fun f hf => if_pos hf⟩, fun f hf => ?_⟩
  rcases mem_add.1 hf with hf | hf
  · exact mem_add.2 (.inl (mem_add.2 (.inl hf)))
  · exact mem_add.2 (.inr (mem_add.2 (.inl hf)))

/-- A thread that had the view `v` has taken slot `c`, now with the process `p`, which has no page table yet. -/
structure Carrying (k : Cond) (v : View) (c : Slot) (p : Proc) (lost : Multiset Frame) (v' : View) : Prop where
  child : v'.child = some (c, p)
  state : p.state = .used
  pagetable : p.pagetable = none
  sz : p.sz = 0
  alarm : k.alarm = true → p.alarmContext = none ∧ lost = 0
  pages : v'.pages = opt p.trapframe + (v.pages + (opt p.alarmContext + lost))
  refs : v'.refs = v.refs
  grows : ∀ root, Grows root { v with child := some (c, p) } v'

/-- What `allocproc` leaves: a process with a page table without user pages. -/
structure Newborn (k : Cond) (v : View) (c : Slot) (p : Proc) (new tf : Frame) (lost : Multiset Frame) (v' : View) :
    Prop where
  child : v'.child = some (c, p)
  state : p.state = .used
  pagetable : p.pagetable = some new
  trapframe : p.trapframe = some tf
  sz : p.sz = 0
  off : p.alarmOn = false
  alarm : k.alarm = true → p.alarmContext = none ∧ lost = 0
  space : Space v' new (tf ::ₘ (v.pages + (opt p.alarmContext + lost))) v.refs
  shape : (v'.table new).Shape 0 [TRAPFRAME, TRAMPOLINE]
  fresh : new ∉ v.pages + v.refs
  grows : ∀ root, Grows root { v with child := some (c, p) } v'

theorem wp_setProc {q : Proc} (hr : Ready t v) (hc : v.child = some (c, p))
    (hq : q.state = p.state) (hQ : Q () { v with child := some (c, q) }) : Wp k t (setProc c q) v Q :=
  .act hr fun _ => ⟨p, hc, hq, hQ⟩

namespace Carrying
variable {v1 : View} {q : Proc}

theorem ready (h : Carrying k v c p lost v1) (hr : Ready t v) : Ready t v1 := (h.grows 0).ready hr

theorem lock (h : Carrying k v c p lost v1) (hl : v.lock = none) : v1.lock = none := (h.grows 0).lock.trans hl

theorem claim (hw : Rest k (some c) w) (hself : w.self = some p) (hst : p.state = .unused) :
    ∃ lost, Carrying k v c { p with state := .used } lost (v.take w c { p with state := .used }) ∧
      p.trapframe = none := by
  obtain ⟨⟨hroot, htf, hsz⟩, hrefs, lost, hp, hal⟩ := hw.unused hself hst
  refine ⟨lost, ⟨rfl, rfl, hroot, hsz, hal, ?_, ?_, fun r => .take r v w c _⟩, htf⟩
  · change v.pages + w.pages = opt p.trapframe + _
    rw [hp, htf, opt_none, zero_add]
  · change v.refs + w.refs = v.refs
    rw [hrefs, add_zero]

theorem setProc (h : Carrying k v c p lost v1) (hst : q.state = p.state) (hpt : q.pagetable = none) (hsz : q.sz = 0)
    (htf : q.trapframe = p.trapframe) (hac : q.alarmContext = p.alarmContext) :
    Carrying k v c q lost { v1 with child := some (c, q) } :=
  ⟨rfl, hst.trans h.state, hpt, hsz, by rw [hac]; exact h.alarm, by rw [htf, hac]; exact h.pages, h.refs,
    fun r => (h.grows r).setChild _⟩

theorem gain (h : Carrying k v c p lost v1) (hfp : f ∉ v1.pages) (hfr : f ∉ v1.refs) (T : Table) (x : Page)
    (htf : p.trapframe = none) (hst : q.state = p.state) (hpt : q.pagetable = none) (hsz : q.sz = 0)
    (hqtf : q.trapframe = some f) (hac : q.alarmContext = p.alarmContext) :
    Carrying k v c q lost { v1.gain f T x with child := some (c, q) } := by
  refine ⟨rfl, hst.trans h.state, hpt, hsz, by rw [hac]; exact h.alarm, ?_, h.refs,
    fun r => ((h.grows r).trans (.gain r hfp hfr T x)).setChild _⟩
  rw [hqtf, hac]
  change f ::ₘ v1.pages = _
  rw [h.pages, htf, opt_none, zero_add, opt_some, singleton_add]

theorem wp_abandon {Q : Option Slot → View → Prop} (hr : Ready t v) (hl : v.lock = none) (hc : v.child = none)
    (h : Carrying k v c p lost v1) (hnone : ∀ v', Keeps v v' → Q none v') :
    Wp k t (freeproc c >>= fun _ => pure none) v1 Q := by
  have hpages : v1.pages = v1.own p + (v.pages + lost) := by
    rw [h.pages, View.own_eq, h.pagetable]
    abel
  have hrefs : v1.refs = v1.shared p + v.refs := by rw [h.refs, View.shared, h.pagetable, zero_add]
  refine Wp.bind (wp_freeproc (h.ready hr) (h.lock hl) h.child hpages hrefs (by rw [h.pagetable]; nofun) h.alarm
    fun v2 hp2 hr2 hz2 hl2 hs2 hc2 hm2 ht2 => hnone v2 ⟨hp2, hr2, fun r => ?_⟩)
  have hg := h.grows r
  have ht : ∀ f, v2.table f = v1.table f := fun f => ht2 f (by rw [h.pagetable]; nofun)
  exact ⟨hz2.trans hg.zero, hl2.trans hg.lock, hs2.trans hg.self, hc2.trans hc.symm,
    fun f hf hne => (ht f).trans (hg.table f hf hne), fun f hf => by rw [hm2]; exact hg.mem f hf⟩

theorem born (h : Carrying k v c p lost v1) (htf : p.trapframe = some tf) {new : Frame} (ha : Apart new v1 v')
    (hshape : (v'.table new).Shape 0 [TRAPFRAME, TRAMPOLINE]) (hst : q.state = p.state) (hpt : q.pagetable = some new)
    (hsz : q.sz = 0) (hqtf : q.trapframe = some tf) (hoff : q.alarmOn = false) (hac : q.alarmContext = p.alarmContext) :
    Newborn k v c q new tf lost { v' with child := some (c, q) } where
  child := rfl
  state := hst.trans h.state
  pagetable := hpt
  trapframe := hqtf
  sz := hsz
  off := hoff
  alarm := by rw [hac]; exact h.alarm
  space := by
    refine ⟨?_, ?_⟩
    · rw [hac]
      rw [ha.pages, h.pages, htf, opt_some, singleton_add]
    · rw [ha.refs, h.refs]
  shape := hshape
  fresh hm := ha.fresh ((h.grows 0).keeps new hm)
  grows r := ((h.grows r).aside (fun hm => ha.fresh ((h.grows 0).keeps new hm)) ha.toGrows).setChild _

end Carrying

theorem wp_allocproc {Q : Option Slot → View → Prop} (hr : Ready t v) (hl : v.lock = none) (hc : v.child = none)
    (hnone : ∀ v', Keeps v v' → Q none v')
    (hsome : ∀ c p new tf lost v', Newborn k v c p new tf lost v' → Q (some c) v') : Wp k t allocproc v Q := by
  have hkeep : Keeps v v := ⟨rfl, rfl, fun root => (Grows.refl root v).toBeside⟩
  refine Wp.bind (wp_claimSlot _ hr hc (hnone v hkeep) fun c w p0 hw hself hst => ?_)
  obtain ⟨lost, h1, htf⟩ := Carrying.claim (v := v) hw hself hst
  have htf1 : Proc.trapframe { p0 with state := .used } = none := htf
  generalize Proc.mk .used p0.sz p0.pagetable p0.trapframe p0.alarmOn p0.alarmContext p0.xstate = p1 at h1 htf1 ⊢
  refine Wp.bind (.act (h1.ready hr) fun _ => ⟨p1, h1.child, ?_⟩)
  refine Wp.bind (wp_kalloc (h1.ready hr) (.inl (h1.lock hl)) (fun _ _ => ?_) fun f T hfp hfr => ?_)
  · refine Wp.bind (wp_setProc (h1.ready hr) h1.child rfl ?_)
    refine Carrying.wp_abandon hr hl hc (h1.setProc ?_ ?_ ?_ ?_ ?_) hnone
    exacts [rfl, h1.pagetable, h1.sz, htf1.symm, rfl]
  refine Wp.bind (wp_setProc (h1.ready hr) h1.child rfl ?_)
  have h2 := h1.gain (q := { p1 with alarmOn := false, trapframe := some f }) hfp hfr T (fun _ => 5) htf1 rfl
    h1.pagetable h1.sz rfl rfl
  refine Wp.bind (wp_procPagetable (h2.ready hr) (h2.lock hl) (fun v3 hk => ?_) fun new v3 ha hshape => ?_)
  · have h3 : Carrying k v c { p1 with alarmOn := false, trapframe := some f } lost v3 :=
      ⟨((hk.beside 0).child).trans h2.child, h2.state, h2.pagetable, h2.sz, h2.alarm, hk.pages.trans h2.pages,
        hk.refs.trans h2.refs, fun r => (h2.grows r).trans ⟨hk.beside r, fun g hg => by rwa [hk.pages, hk.refs]⟩⟩
    refine Wp.bind (wp_setProc (h3.ready hr) h3.child rfl ?_)
    refine Carrying.wp_abandon hr hl hc (h3.setProc ?_ ?_ ?_ ?_ ?_) hnone
    exacts [rfl, rfl, h1.sz, rfl, rfl]
  · refine Wp.bind (wp_setProc (ha.ready (h2.ready hr)) (ha.child.trans h2.child) rfl ?_)
    exact hsome _ _ _ _ _ _ (h2.born rfl ha hshape rfl rfl h1.sz rfl rfl rfl)

/-! ## `fork` -/

/-- The parent after `fork`: the pages up to `m` are shared, with the contents they had. -/
theorem Calm.forked (h : Calm k v p root tf lost) (hb : Beside root v v')
    (hs : Space v' root (tf ::ₘ (opt p.alarmContext + lost)) 0)
    (hshape : (v'.table root).Shape (npages p.sz) [TRAPFRAME, TRAMPOLINE])
    (hget : ∃ m, ∀ j, (v'.table root).get j = 
      if j < m then ((v.table root).get j).map Pte.share else (v.table root).get j) : Ended k c .fork v p v' := by
  obtain ⟨m, hget⟩ := hget
  have h' := h.update hb hs hshape
  refine ⟨h'.rest, p, h'.self, h.image_congr h.pagetable fun i => ?_, m, fun i => ?_⟩
  · by_cases hi : i < m
    · unfold View.page
      rw [hget, if_pos hi]
      cases hg : (v.table root).get i with
      | none => rfl
      | some pte =>
        simp only [Option.map_some, Option.bind_some, Pte.share, Perm.share]
        split_ifs with hu
        · rw [hb.mem _ (h.space.mem_of_get hg (h.get_user hg hu))]
        · rfl
    · exact h.page_congr hb (by rw [hget, if_neg hi])
  · rw [View.flags_eq h.pagetable, View.flags_eq h.pagetable, hget]
    split_ifs
    · cases (v.table root).get i <;> rfl
    · rfl

theorem Newborn.runs {q : Proc} {new tfc : Frame} {lostc : Multiset Frame} {v1 v2 : View}
    (h : Newborn k v c q new tfc lostc v1) (hshape : (v2.table new).Shape (npages n) [TRAPFRAME, TRAMPOLINE]) :
    Rest k (some c) (v2.give (new ::ₘ ((v2.table new).own + tfc ::ₘ (opt q.alarmContext + lostc))) (v2.table new).shared
      { q with sz := n, state := .runnable }) where
  zero := rfl
  lock := rfl
  child := rfl
  main := nofun
  empty := nofun
  settled p hp := by
    cases hp
    refine ⟨.inr ⟨.inl rfl, new, tfc, h.pagetable, h.trapframe, hshape⟩, ⟨lostc, ?_, fun hk => (h.alarm hk).2⟩, ?_,
      fun hk _ => (h.alarm hk).1⟩
    · rw [View.own_eq, h.pagetable, h.trapframe]
      simp only [View.give, View.ownTable, opt_some, ← singleton_add]
      abel
    · simp only [View.give, View.shared, h.pagetable]

theorem Calm.wp_fork (h : Calm k v p root tf lost) : Wp k (some c) fork v fun _ => Ended k c .fork v p := by
  refine Wp.bind (wp_allocproc h.ready h.lock h.child (fun v' hk => ?_) fun d q new tfc lostc v1 hn => ?_)
  · have hsame := h.image_keeps hk
    exact ⟨h.rest.keeps hk, p, (hk.beside 0).self.trans h.self, hsame.1, 0,
      fun i => by rw [hsame.2, if_neg (Nat.not_lt_zero i)]⟩
  have hne : root ≠ new := fun he => hn.fresh (he ▸ mem_add.2 (.inl h.space.mem_root))
  have hT : v1.table root = v.table root := (hn.grows new).table root (mem_add.2 (.inl h.space.mem_root)) hne
  have hr1 : Ready (some c) v1 := (hn.grows 0).ready h.ready
  refine Wp.bind (.act hr1 fun _ => ⟨p, (hn.grows 0).self.trans h.self, ?_⟩)
  refine Wp.bind (.deref hr1 fun r hr => ?_)
  rw [h.pagetable] at hr
  cases hr
  refine Wp.bind (.act hr1 fun _ => ⟨q, hn.child, ?_⟩)
  refine Wp.bind (.deref hr1 fun r hr => ?_)
  rw [hn.pagetable] at hr
  cases hr
  have hs : Space v1 root (new ::ₘ ((v1.table new).own + ((tf ::ₘ (opt p.alarmContext + lost)) +
      (tfc ::ₘ (opt q.alarmContext + lostc))))) ((v1.table new).shared + 0) := by
    refine Space.swap ⟨?_, ?_⟩
    · rw [hn.space.pages, h.space.pages, hT]
      simp only [← singleton_add]
      abel
    · rw [hn.space.refs, h.space.refs, hT]
  refine Wp.bind (wp_uvmcopy (hn.grows root) hne hn.fresh h.ready h.lock hT hs (by rw [hT]; exact h.shape) hn.shape
    (fun v2 hb hs2 ho hn2 hget => ?_) fun v2 hcp => ?_)
  · -- the child is given up, and the parent's pages stay shared
    have hc2 : v2.child = some (d, q) := hb.child.trans rfl
    have hp2 : v2.pages = v2.own q + (root ::ₘ ((v2.table root).own + tf ::ₘ (opt p.alarmContext + lost)) + lostc) := by
      rw [hs2.pages, View.own_eq, hn.pagetable, hn.trapframe]
      simp only [View.ownTable, opt_some, ← singleton_add]
      abel
    have hr2 : v2.refs = v2.shared q + (v2.table root).shared := by
      rw [hs2.refs, View.shared, hn.pagetable, add_zero, add_comm]
    refine wp_freeproc (hb.ready h.ready) (hb.lock.trans h.lock) hc2 hp2 hr2 ?_ hn.alarm
      fun v3 hp3 hr3 hz3 hl3 hs3 hc3 hm3 ht3 => ?_
    · intro r hr
      rw [hn.pagetable] at hr
      cases hr
      rw [hn.sz]
      exact hn2
    have hT3 : v3.table root = v2.table root :=
      ht3 root (by rw [hn.pagetable]; exact fun he => hne (Option.some.inj he).symm)
    have hb3 : Beside root v v3 := by
      refine ⟨hz3.trans hb.zero, hl3.trans hb.lock, hs3.trans hb.self, hc3.trans h.child.symm, fun f hf hfr => ?_,
        fun f hf => ?_⟩
      · refine (ht3 f ?_).trans (hb.table f hf hfr)
        rw [hn.pagetable]
        rintro he
        cases he
        exact hn.fresh hf
      · rw [hm3]
        exact hb.mem f hf
    rw [← hT3] at hp3 hr3 ho hget
    exact h.forked hb3 ⟨hp3, by rw [hr3, add_zero]⟩ ho hget
  · -- the child starts with the parent's pages
    have hr2 : Ready (some c) v2 := hcp.ready h.ready
    refine Wp.bind (wp_setProc hr2 (hcp.child.trans rfl) rfl ?_)
    refine Wp.bind (.act hr2 fun _ => ⟨_, rfl, hn.state, ?_⟩)
    refine .act hr2 fun _ => ⟨hcp.lock.trans h.lock, _,
      root ::ₘ ((v2.table root).own + tf ::ₘ (opt p.alarmContext + lost)),
      (v2.table root).shared, _, _, rfl, ⟨hn.state, fun _ => ?_⟩, ?_, ?_, hn.runs hcp.newShape, ?_⟩
    · exact ⟨p, root, new, hcp.self.trans h.self, h.pagetable, hcp.space.mem_root, hcp.oldShape, hn.pagetable,
        rfl, hcp.same⟩
    · rw [hcp.space.pages]
      simp only [← singleton_add]
      abel
    · rw [hcp.space.refs, add_zero, add_comm]
    · refine h.forked ⟨hcp.zero, hcp.lock, hcp.self, h.child.symm, hcp.table, hcp.mem⟩
        ⟨rfl, (add_zero _).symm⟩ hcp.oldShape ⟨npages p.sz, hcp.shared⟩

/-! ## `wait` -/

/-- A thread with the view `v` has the dead process `q` of slot `d` in hand. -/
structure Reaping (k : Cond) (v : View) (d : Slot) (q : Proc) (w v' : View) : Prop where
  rest : Rest k (some d) w
  self : w.self = some q
  state : q.state = .zombie
  child : v'.child = some (d, q)
  pages : v'.pages = v.pages + w.pages
  refs : v'.refs = v.refs + w.refs
  zero : v'.zero = v.zero
  lock : v'.lock = v.lock
  mine : v'.self = v.self
  table : ∀ f ∈ v.pages, v'.table f = v.table f
  theirs : ∀ f ∈ w.pages, v'.table f = w.table f
  apart : ∀ f ∈ w.pages, f ∉ v.pages

namespace Reaping
variable {d : Slot} {q : Proc}

theorem take (hw : Rest k (some d) w) (hself : w.self = some q) (hst : q.state = .zombie)
    (hap : ∀ f ∈ w.pages, f ∉ v.pages + v.refs) : Reaping k v d q w (v.take w d q) where
  rest := hw
  self := hself
  state := hst
  child := rfl
  pages := rfl
  refs := rfl
  zero := rfl
  lock := rfl
  mine := rfl
  table _ hf := if_pos (mem_add.2 (.inl hf))
  theirs f hf := if_neg (hap f hf)
  apart f hf hm := hap f hf (mem_add.2 (.inl hm))

section
variable (h : Reaping k v d q w v')
include h

theorem write {m : Frame → Page} : Reaping k v d q w { v' with mem := m } := { h with }

theorem space (hs : Space v root P R) : Space v' root (P + w.pages) (R + w.refs) := by
  have hT := h.table root hs.mem_root
  refine ⟨?_, ?_⟩
  · rw [h.pages, hT, hs.pages, cons_add, add_assoc]
  · rw [h.refs, hT, hs.refs, add_assoc]

theorem own : v'.own q = w.own q ∧ v'.shared q = w.shared q ∧
    ∀ r, q.pagetable = some r → v'.table r = w.table r ∧ r ∈ w.pages := by
  obtain ⟨⟨r, g, hr, hg, -⟩, -, lost, hp, -⟩ := h.rest.zombie h.self h.state
  have hmem : r ∈ w.pages := by
    rw [hp, View.own_eq, hr]
    simp [View.ownTable]
  have hT := h.theirs r hmem
  refine ⟨?_, ?_, fun r' hr' => ?_⟩
  · rw [View.own_eq, View.own_eq, hr]
    simp only [View.ownTable, hT]
  · rw [View.shared, View.shared, hr]
    simp only [hT]
  · rw [hr] at hr'
    cases hr'
    exact ⟨hT, hmem⟩

theorem wp_free (hr : Ready t v) (hl : v.lock = none)
    (hQ : ∀ v'', v''.pages = v.pages → v''.refs = v.refs → v''.zero = v.zero → v''.lock = v.lock → v''.self = v.self →
      v''.child = none → v''.mem = v'.mem → (∀ f ∈ v.pages, v''.table f = v.table f) → Q () v'') :
    Wp k t (freeproc d) v' Q := by
  obtain ⟨⟨r, g, hroot, -, hshape⟩, hrefs, lost, hp, hal⟩ := h.rest.zombie h.self h.state
  obtain ⟨hown, hsh, htab⟩ := h.own
  have hr' : Ready t v' := by
    unfold Ready at hr ⊢
    rwa [h.mine]
  have hpages : v'.pages = v'.own q + (v.pages + lost) := by
    rw [h.pages, hp, hown]
    abel
  have hrefs' : v'.refs = v'.shared q + v.refs := by rw [h.refs, hrefs, hsh, add_comm]
  refine wp_freeproc hr' (h.lock.trans hl) h.child hpages hrefs' (fun r' hr0 => ?_) hal
    fun v2 hp2 hr2 hz2 hl2 hs2 hc2 hm2 ht2 => ?_
  · rw [hroot] at hr0
    cases hr0
    rw [(htab r hroot).1]
    exact hshape
  · refine hQ v2 hp2 hr2 (hz2.trans h.zero) (hl2.trans h.lock) (hs2.trans h.mine) hc2 hm2 fun f hf => ?_
    refine (ht2 f fun he => ?_).trans (h.table f hf)
    exact h.apart f (htab f he).2 hf

theorem wp_unlock (hr : Ready t v) (hl : v.lock = none)
    (hQ : Q () { v' with pages := v.pages, refs := v.refs, child := none }) : Wp k t (unlockProc d) v' Q := by
  have hr' : Ready t v' := by
    unfold Ready at hr ⊢
    rwa [h.mine]
  obtain ⟨hown, hsh, htab⟩ := h.own
  have hset := h.rest.settled q h.self
  obtain ⟨lost, hp, hlost⟩ := hset.pages
  refine .act hr' fun _ => ⟨h.lock.trans hl, q, v.pages, v.refs, w.pages, w.refs, h.child, h.state, h.pages,
    h.refs, ?_, hQ⟩
  refine ⟨rfl, rfl, rfl, nofun, nofun, fun p' hp' => ?_⟩
  cases hp'
  refine ⟨?_, ⟨lost, ?_, hlost⟩, ?_, hset.alarm⟩
  · rcases hset.body with hun | ⟨hst, r, g, hroot, hg, hshape⟩
    · exact .inl hun
    · refine .inr ⟨hst, r, g, hroot, hg, ?_⟩
      change (v'.table r).Shape _ _
      rw [(htab r hroot).1]
      exact hshape
  · change w.pages = v'.own q + lost
    rw [hown]
    exact hp
  · change w.refs = v'.shared q
    rw [hsh]
    exact hset.refs

end

end Reaping

section
variable (h : Calm k v p root tf lost)
include h

theorem Calm.waited {addr : Nat} {v1 v2 v3 : View} {P' R' : Multiset Frame} {src : List UInt8}
    (hsrc : src = [] ∨ addr ≠ 0 ∧ src.length = 4) (h1 : v1.byte root = v.byte root)
    (hw : Wrote k root P' R' v1 addr src v2) (hp : v3.pages = v.pages) (hr : v3.refs = v.refs)
    (hzero : v3.zero = v.zero) (hl : v3.lock = v.lock) (hs : v3.self = v.self) (hc : v3.child = none)
    (hm : v3.mem = v2.mem)
    (hT : v3.table root = v.table root) (hT2 : v2.table root = v.table root) : Ended k c (.wait addr) v p v3 := by
  have h' : Calm k v3 p root tf lost :=
    { h with
      shape := by rw [hT]; exact h.shape
      space := ⟨by rw [hp, hT, h.space.pages], by rw [hr, hT, h.space.refs]⟩
      self := hs.trans h.self
      zero := hzero.trans h.zero
      lock := hl.trans h.lock
      child := hc }
  have h3 : v3.byte root = v2.byte root := by
    unfold View.byte View.page
    rw [hT, hT2, hm]
  refine ⟨h'.rest, p, h'.self, ⟨src, hsrc, ?_⟩, funext fun i => ?_⟩
  · rw [View.image_eq h.pagetable, View.image_eq h.pagetable, h3, ← h1]
    exact hw.bytes
  · rw [View.flags_eq h.pagetable, View.flags_eq h.pagetable, hT]

theorem Calm.wp_waitLoop (addr : Nat) (slots : List Slot) :
    Wp k (some c) (waitLoop addr slots) v fun _ => Ended k c (.wait addr) v p := by
  induction slots with
  | nil => exact ⟨h.rest, p, h.self, ⟨[], .inl rfl, .none (.inl rfl)⟩, rfl⟩
  | cons d ds ih =>
    refine Wp.bind (.act h.ready fun _ => ⟨h.child, ih, fun w q hw hself hst hap => ?_⟩)
    have hre := Reaping.take hw hself hst hap
    have hsame : (v.take w d q).image p = v.image p :=
      (h.same_table (hre.table root h.space.mem_root) fun i pte hget hu =>
        if_pos (h.space.mem_of_get hget (h.get_user hget hu))).1
    have hbyte : (v.take w d q).byte root = v.byte root := by
      rw [← View.image_eq h.pagetable, hsame, View.image_eq h.pagetable]
    generalize v.take w d q = v1 at hre hbyte ⊢
    have hr1 : Ready (some c) v1 := .inr ⟨p, hre.mine.trans h.self, h.state⟩
    refine Wp.bind (.act hr1 fun _ => ⟨p, hre.mine.trans h.self, ?_⟩)
    refine Wp.bind (.deref hr1 fun r hr => ?_)
    rw [h.pagetable] at hr
    cases hr
    refine Wp.bind (.act hr1 fun _ => ⟨q, hre.child, Wp.bind ?_⟩)
    have hT1 : v1.table root = v.table root := hre.table root h.space.mem_root
    -- with the status copied out or not, the zombie is freed or left
    have hend : ∀ ok v2 src, src = [] ∨ addr ≠ 0 ∧ src.length = 4 →
        Wrote k root ((tf ::ₘ (opt p.alarmContext + lost)) + w.pages) (0 + w.refs) v1 addr src v2 →
        Wp k (some c) (if ok = true then freeproc d else unlockProc d) v2 fun _ => Ended k c (.wait addr) v p := by
      intro ok v2 src hsrc hwr
      obtain ⟨m, rfl⟩ := hwr.frame
      split_ifs
      · refine hre.write.wp_free h.ready h.lock fun v3 hp3 hr3 hz3 hl3 hs3 hc3 hm3 ht3 => ?_
        exact h.waited hsrc hbyte hwr hp3 hr3 hz3 hl3 hs3 hc3 hm3 (ht3 root h.space.mem_root) hT1
      · refine hre.write.wp_unlock h.ready h.lock ?_
        exact h.waited hsrc hbyte hwr rfl rfl hre.zero hre.lock hre.mine rfl rfl hT1 hT1
    split_ifs with haddr
    · exact hend true v1 [] (.inl rfl) (.none k _ _ (.inl rfl))
    · refine wp_copyout hr1 (hre.space h.space) (by rw [hT1]; exact h.shape) fun ok v2 hwr => ?_
      exact hend ok v2 _ (.inr ⟨haddr, by simp⟩) hwr

theorem Calm.wp_wait (addr : Nat) :
    Wp k (some c) (wait addr) v fun _ => Ended k c (.wait addr) v p :=
  h.wp_waitLoop addr _

end

/-! ## The kernel's own pages -/

section
variable (hr : Ready t v) (hl : v.lock = none) (hQ : ∀ v', Keeps v v' → Q () v')
include hr hl hQ

theorem wp_allocPage :
    Wp k t allocPage v Q := by
  refine Wp.bind (wp_kalloc hr (.inl hl) (fun _ _ => hQ v ⟨rfl, rfl, fun r => (Grows.refl r v).toBeside⟩)
    fun f T hp hf => ?_)
  refine .act hr fun _ => ⟨hl, v.pages, rfl, hQ _ ⟨rfl, rfl, fun r => ?_⟩⟩
  have hg := Grows.gain r hp hf T fun _ => 5
  exact ⟨hg.zero, hg.lock, hg.self, hg.child, hg.table, hg.mem⟩

theorem wp_freePage :
    Wp k t (freePage pa) v Q := by
  refine Wp.bind (.act hr fun _ hp hf T x => ?_)
  refine wp_kfree_page hr hl rfl (hQ _ ⟨rfl, rfl, fun r => ?_⟩)
  have hg := Grows.gain r hp hf T x
  exact ⟨hg.zero, hg.lock, hg.self, hg.child, hg.table, hg.mem⟩

end

/-! ## `userinit` -/

theorem wp_userinit {initcode : List UInt8} (h : Rest k none v)
    (hQ : ∀ v', Keeps v v' → Q () v') : Wp k none (userinit initcode) v Q := by
  have hr : Ready none v := .inl rfl
  refine Wp.bind (wp_allocproc hr h.lock h.child (fun v' _ => .panic (.inl rfl) rfl) fun c p new tf lost v1 hn => ?_)
  have hr1 : Ready none v1 := .inl rfl
  have hl1 : v1.lock = none := (hn.grows 0).lock.trans h.lock
  refine Wp.bind (.act hr1 fun _ => ?_)
  refine Wp.bind (.act hr1 fun _ => ⟨p, hn.child, ?_⟩)
  refine Wp.bind (.deref hr1 fun r hr => ?_)
  rw [hn.pagetable] at hr
  cases hr
  refine Wp.bind (Wp.bind (wp_kalloc hr1 (.inl hl1) (fun _ ht => absurd rfl ht) fun f T hfp hfr => ?_))
  refine Wp.bind (.act hr1 fun _ => .inr ⟨mem_cons_self f _, ?_⟩)
  rw [View.gain_write]
  have hs2 := hn.space.gain hfp T fun _ => 0
  have hT2 := View.gain_table hn.space.mem_root hfp T fun _ => 0
  have hg2 := fun r => (hn.grows r).trans (Grows.gain r hfp hfr T fun _ => 0)
  have hz : (v1.gain f T fun _ => 0).mem f = fun _ => 0 := Function.update_self _ _ _
  have hshape2 : ((v1.gain f T fun _ => 0).table new).Shape 0 [TRAPFRAME, TRAMPOLINE] := by rw [hT2]; exact hn.shape
  have hfv : ∀ g ∈ v.pages + v.refs, g ≠ f := by
    rintro g hg rfl
    exact (mem_add.1 ((hn.grows 0).keeps g hg)).elim hfp hfr
  generalize v1.gain f T (fun _ => 0) = v2 at *
  have hl2 : v2.lock = none := (hg2 0).lock.trans h.lock
  refine Wp.bind (wp_mapZeroed (.inl rfl) hl2 hz hs2 hshape2 (by decide) nofun rfl rfl (fun ht => absurd rfl ht)
    fun v3 hs3 hshape3 hm => ?_)
  have hg3 := fun r => (hg2 r).aside hn.fresh hm.toGrows
  rw [show 0 + 1 = npages PGSIZE by decide] at hshape3
  have hr3 : Ready none v3 := .inl rfl
  refine .act hr3 fun _ => ⟨hs3.mem_pages hm.new (by decide) rfl, ?_⟩
  refine Wp.bind (wp_setProc (.inl rfl) ((hg3 0).child.trans rfl) rfl ?_)
  refine .act (.inl rfl) fun _ => ⟨(hg3 0).lock.trans h.lock, _, v.pages, v.refs, _, _, rfl,
    ⟨hn.state, fun ht => absurd rfl ht⟩, ?_, ?_, hn.runs hshape3, hQ _ ⟨rfl, rfl, fun r => ?_⟩⟩
  · rw [hs3.pages]
    simp only [← singleton_add]
    abel
  · rw [hs3.refs, add_comm]
  · have hg := hg3 r
    exact ⟨hg.zero, hg.lock, hg.self, h.child.symm, hg.table, fun g hgv =>
      (Function.update_of_ne (hfv g hgv) _ _).trans (hg.mem g hgv)⟩

end Xv6Riscv.Vm
