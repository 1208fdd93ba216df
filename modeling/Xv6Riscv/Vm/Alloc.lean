import Xv6Riscv.Vm.Views

/-!
# The allocator and the walk through a page table

What a thread has after `kalloc`, `kfree`, `walk`, `mappages`. The lemmas are stated for any postcondition
`Q`, as rules to be applied to the next call of a program.
-/
namespace Xv6Riscv.Vm
open Multiset Threads Function
variable {Q : Unit → View → Prop} {v'' : View} {pte : Pte}

variable {k : Cond} {t : Tid} {α β : Type} {v v' : View} {f root : Frame} {i : Nat}

/-- With the view `v`, the thread `t` can run `p` and then has `Q`. -/
abbrev Wp (k : Cond) (t : Tid) (p : K α) (v : View) (Q : α → View → Prop) : Prop := (rules k).wp t p v Q

theorem Wp.bind {p : K α} {g : α → K β} {Q : β → View → Prop} (h : Wp k t p v fun x v' => Wp k t (g x) v' Q) :
    Wp k t (p >>= g) v Q :=
  (Rules.wp_bind p g Q).2 h

theorem Wp.act {a : Act} {Q : a.Res → View → Prop} (hr : Ready t v) (h : Valid v → a.rule k t v Q) :
    Wp k t (Vm.act a) v Q := ⟨hr, h⟩

theorem Wp.panic {m : Panic} {Q : α → View → Prop} (hr : Ready t v) (hm : m.reachable = true) :
    Wp k t (Vm.panic m) v Q := ⟨hr, fun _ => hm⟩

theorem Wp.deref {o : Option Frame} {Q : Frame → View → Prop} (hr : Ready t v) (h : ∀ f, o = some f → Q f v) :
    Wp k t (Vm.deref o) v Q := by
  cases o with
  | none => exact Wp.panic hr rfl
  | some f => exact h f rfl

/-! ## `kalloc` and `kfree` -/

section
variable (v : View) (f : Frame) (T : Table)

@[simp] theorem View.gain_pages (x : Page) : (v.gain f T x).pages = f ::ₘ v.pages := rfl
@[simp] theorem View.gain_refs (x : Page) : (v.gain f T x).refs = v.refs := rfl

theorem View.gain_write (x y : Page) : { v.gain f T x with mem := update (v.gain f T x).mem f y } = v.gain f T y := by
  simp [View.gain]

end

theorem View.unlock_eq (hl : v.lock = none) : { v with lock := none } = v := by
  cases v
  cases hl
  rfl

/-- `kalloc` needs the lock, unless its caller has it and has said so. -/
def Unlocked (v : View) : Prop := v.lock = none ∨ ∃ l, v.lock = some l ∧ l.shut = true

theorem wp_kalloc {Q : Option Frame → View → Prop} (hr : Ready t v) (hl : Unlocked v)
    (hnone : k.memory = false → t ≠ none → Q none v)
    (hsome : ∀ f T, f ∉ v.pages → f ∉ v.refs → Q (some f) (v.gain f T fun _ => 5)) : Wp k t kalloc v Q := by
  refine Wp.bind (.act hr fun _ => ⟨hnone, fun f hp hf => ?_⟩)
  have hset : ∀ T x, Wp k t (memset f 5 >>= fun _ => pure (some f)) (v.gain f T x) Q := by
    intro T x
    refine Wp.bind (.act hr fun _ => .inr ⟨mem_cons_self f _, ?_⟩)
    rw [View.gain_write]
    exact hsome f T hp hf
  refine Wp.bind (.act hr fun _ b hb => ?_)
  rcases hl with hl | ⟨l, hl, hshut⟩
  · cases b with
    | true =>
      refine Wp.bind (.act hr fun _ => ⟨hl, ?_⟩)
      refine Wp.bind (.act hr fun _ => .inr ⟨v.zero, rfl, rfl, fun T x => ?_⟩)
      refine Wp.bind (.act hr fun _ => ⟨nofun, ?_⟩)
      have := hset T x
      rwa [← View.unlock_eq (v := v.gain f T x) hl] at this
    | false => exact Wp.bind (.act hr fun _ => .inr ⟨v.zero, rfl, rfl, hset⟩)
  · obtain rfl := hb l hl hshut
    exact Wp.bind (.act hr fun _ => .inr ⟨v.zero, rfl, rfl, hset⟩)

theorem wp_kfree_page {rest : Multiset Frame} (hr : Ready t v) (hl : v.lock = none)
    (hf : v.pages = f ::ₘ rest) (hQ : Q () { v with pages := rest }) : Wp k t (kfree f) v Q := by
  have hmem : f ∈ v.pages := by rw [hf]; exact mem_cons_self f rest
  refine Wp.bind (.act hr fun _ => ⟨mem_add.2 (.inl hmem), ?_⟩)
  refine Wp.bind (.act hr fun _ => ⟨hl, ?_⟩)
  refine Wp.bind (.act hr fun _ => ⟨_, rfl, mem_add.2 (.inl hmem), fun n _ hn => ?_⟩)
  obtain rfl := hn hmem
  refine Wp.bind (.act hr fun _ => .inl ⟨_, .lastPage _ rest rfl hf rfl, ?_⟩)
  refine Wp.bind (.act hr fun _ => ⟨nofun, ?_⟩)
  refine Wp.bind (.act hr fun _ => .inl ⟨mem_cons_self f _, ?_⟩)
  refine .act hr fun _ => ⟨v.zero, rfl, ?_⟩
  rwa [← View.unlock_eq (v := { v with pages := rest }) hl] at hQ

theorem wp_kfree_ref {rest : Multiset Frame} (hr : Ready t v) (hl : v.lock = none)
    (hf : v.refs = f ::ₘ rest) (hQ : Q () { v with refs := rest }) : Wp k t (kfree f) v Q := by
  have hmem : f ∈ v.refs := by rw [hf]; exact mem_cons_self f rest
  rw [← View.unlock_eq (v := { v with refs := rest }) hl] at hQ
  refine Wp.bind (.act hr fun _ => ⟨mem_add.2 (.inr hmem), ?_⟩)
  refine Wp.bind (.act hr fun _ => ⟨hl, ?_⟩)
  refine Wp.bind (.act hr fun _ => ⟨_, rfl, mem_add.2 (.inr hmem), fun n _ _ => ?_⟩)
  by_cases hn : 1 < n
  · simp only [if_pos hn]
    refine Wp.bind (.act hr fun _ => .inl ⟨_, .drop _ n rest rfl rfl hf hn rfl, ?_⟩)
    exact .act hr fun _ => ⟨nofun, hQ⟩
  · simp only [if_neg hn]
    refine Wp.bind (.act hr fun _ => .inl ⟨_, .lastRef _ n rest rfl rfl hf (Nat.not_lt.1 hn) rfl, ?_⟩)
    refine Wp.bind (.act hr fun _ => ⟨nofun, ?_⟩)
    refine Wp.bind (.act hr fun _ => .inl ⟨mem_cons_self f _, ?_⟩)
    exact .act hr fun _ => ⟨v.zero, rfl, hQ⟩

/-! ## What a function leaves as it was -/

/-- From `v` to `v'`, a function has worked on the table at `root` alone. -/
structure Beside (root : Frame) (v v' : View) : Prop where
  zero : v'.zero = v.zero
  lock : v'.lock = v.lock
  self : v'.self = v.self
  child : v'.child = v.child
  table : ∀ f ∈ v.pages + v.refs, f ≠ root → v'.table f = v.table f
  mem : ∀ f ∈ v.pages + v.refs, v'.mem f = v.mem f

/-- And the thread still has all its pages. -/
structure Grows (root : Frame) (v v' : View) : Prop extends Beside root v v' where
  keeps : ∀ f ∈ v.pages + v.refs, f ∈ v'.pages + v'.refs

/-- And what is left of its pages is untouched. -/
structure Frees (root : Frame) (v v' : View) : Prop where
  zero : v'.zero = v.zero
  lock : v'.lock = v.lock
  self : v'.self = v.self
  child : v'.child = v.child
  table : ∀ f, f ≠ root → v'.table f = v.table f
  mem : v'.mem = v.mem

theorem Beside.ready (h : Beside root v v') (hr : Ready t v) : Ready t v' := by
  unfold Ready at hr ⊢
  rwa [h.self]

theorem Beside.unlocked (h : Beside root v v') (hl : Unlocked v) : Unlocked v' := by
  unfold Unlocked at hl ⊢
  rwa [h.lock]

theorem Beside.frees (h : Beside root v v') (h' : Frees root v' v'') : Beside root v v'' where
  zero := h'.zero.trans h.zero
  lock := h'.lock.trans h.lock
  self := h'.self.trans h.self
  child := h'.child.trans h.child
  table f hf hne := (h'.table f hne).trans (h.table f hf hne)
  mem f hf := by rw [h'.mem]; exact h.mem f hf

theorem Beside.fresh (h : Beside root v v') (hroot : root ∉ v.pages + v.refs) (r : Frame) : Beside r v v' :=
  { h with
    table := fun f hf _ => h.table f hf (by rintro rfl; exact hroot hf) }

namespace Grows

theorem refl (root : Frame) (v : View) : Grows root v v :=
  ⟨⟨rfl, rfl, rfl, rfl, fun _ _ _ => rfl, fun _ _ => rfl⟩, fun _ => id⟩

theorem beside (h : Grows root v v') (h' : Beside root v' v'') : Beside root v v'' where
  zero := h'.zero.trans h.zero
  lock := h'.lock.trans h.lock
  self := h'.self.trans h.self
  child := h'.child.trans h.child
  table f hf hne := (h'.table f (h.keeps f hf) hne).trans (h.table f hf hne)
  mem f hf := (h'.mem f (h.keeps f hf)).trans (h.mem f hf)

theorem trans (h : Grows root v v') (h' : Grows root v' v'') : Grows root v v'' :=
  ⟨h.beside h'.toBeside, fun f hf => h'.keeps f (h.keeps f hf)⟩

theorem gain (root : Frame) (hp : f ∉ v.pages) (hf : f ∉ v.refs) (T : Table) (x : Page) :
    Grows root v (v.gain f T x) := by
  have hne : ∀ g ∈ v.pages + v.refs, g ≠ f := by
    rintro g hg rfl
    exact (mem_add.1 hg).elim hp hf
  refine ⟨⟨rfl, rfl, rfl, rfl, fun g hg _ => update_of_ne (hne g hg) _ _,
    fun g hg => update_of_ne (hne g hg) _ _⟩, fun g hg => ?_⟩
  simp only [View.gain, cons_add, mem_cons]
  exact .inr hg

end Grows

/-! ## `walk` -/

def View.setT (v : View) (root : Frame) (T : Table) : View := { v with table := Function.update v.table root T }

section
variable (v : View) (root : Frame) (T : Table)

@[simp] theorem View.setT_pages : (v.setT root T).pages = v.pages := rfl
@[simp] theorem View.setT_refs : (v.setT root T).refs = v.refs := rfl
@[simp] theorem View.setT_mem : (v.setT root T).mem = v.mem := rfl
@[simp] theorem View.setT_table : (v.setT root T).table root = T := by
  simp [View.setT]

end

theorem View.setT_table_ne (v : View) (T : Table) (h : f ≠ root) : (v.setT root T).table f = v.table f :=
  update_of_ne h _ _

theorem Grows.setT (root : Frame) (v : View) (T : Table) : Grows root v (v.setT root T) :=
  ⟨⟨rfl, rfl, rfl, rfl, fun _ _ hne => View.setT_table_ne v T hne, fun _ _ => rfl⟩, fun _ => id⟩

theorem Frees.setT (root : Frame) (v : View) (T : Table) : Frees root v (v.setT root T) :=
  ⟨rfl, rfl, rfl, rfl, fun _ hne => View.setT_table_ne v T hne, rfl⟩

/-- The table at `root` has new directories, and the thread their pages. -/
structure Widened (root : Frame) (v v' : View) : Prop extends Grows root v v' where
  pages : ∃ new, v'.pages = new + v.pages ∧ (v'.table root).own = new + (v.table root).own
  refs : v'.refs = v.refs
  shared : (v'.table root).shared = (v.table root).shared
  get : ∀ j, (v'.table root).get j = (v.table root).get j

namespace Widened

theorem refl (root : Frame) (v : View) : Widened root v v :=
  ⟨Grows.refl root v, ⟨0, by simp, by simp⟩, rfl, rfl, fun _ => rfl⟩

theorem trans (h : Widened root v v') (h' : Widened root v' v'') : Widened root v v'' := by
  obtain ⟨n1, hp1, ho1⟩ := h.pages
  obtain ⟨n2, hp2, ho2⟩ := h'.pages
  exact ⟨h.toGrows.trans h'.toGrows, ⟨n2 + n1, by rw [hp2, hp1, add_assoc], by rw [ho2, ho1, add_assoc]⟩,
    h'.refs.trans h.refs, h'.shared.trans h.shared, fun j => (h'.get j).trans (h.get j)⟩

theorem mem_root (h : Widened root v v') (hp : root ∈ v.pages) : root ∈ v'.pages := by
  obtain ⟨new, hnew, -⟩ := h.pages
  rw [hnew]
  exact mem_add.2 (.inr hp)

theorem enter (hfp : f ∉ v.pages) (hfr : f ∉ v.refs) (T : Table) (x : Page) {T' : Table}
    (hown : T'.own = f ::ₘ (v.table root).own) (hsh : T'.shared = (v.table root).shared)
    (hget : ∀ j, T'.get j = (v.table root).get j) : Widened root v ((v.gain f T x).setT root T') := by
  refine ⟨(Grows.gain root hfp hfr T x).trans (Grows.setT root _ T'), ⟨{f}, ?_, ?_⟩, rfl, ?_, ?_⟩
  · simp
  · simp [hown]
  · simpa using hsh
  · simpa using hget

end Widened

theorem View.gain_table (hp : root ∈ v.pages) (hf : f ∉ v.pages) (T : Table) (x : Page) :
    (v.gain f T x).table root = v.table root := by
  refine update_of_ne ?_ _ _
  rintro rfl
  exact hf hp

theorem wp_setTable {T : Table} (hr : Ready t v) (hp : root ∈ v.pages)
    (hQ : Q () (v.setT root T)) : Wp k t (setTable root T) v Q :=
  .act hr fun _ => ⟨v, .same, hp, hQ⟩

theorem wp_getTable {Q : Table → View → Prop} (hr : Ready t v) (hp : root ∈ v.pages) (hQ : Q (v.table root) v) :
    Wp k t (getTable root) v Q :=
  .act hr fun _ => ⟨hp, hQ⟩

theorem wp_addPage {Q : Bool → View → Prop} {T : Frame → Table} (hr : Ready t v) (hl : Unlocked v) (hp : root ∈ v.pages)
    (hown : ∀ f, (T f).own = f ::ₘ (v.table root).own) (hsh : ∀ f, (T f).shared = (v.table root).shared)
    (hget : ∀ f j, (T f).get j = (v.table root).get j) (hfail : t ≠ none → Q false v)
    (hok : ∀ f v', Widened root v v' → v'.table root = T f → Q true v') :
    Wp k t (kalloc >>= fun r =>
      match r with
      | none => pure false
      | some f => do
        memset f 0
        setTable root (T f)
        pure true) v Q := by
  refine Wp.bind (wp_kalloc hr hl (fun _ => hfail) fun f T' hfp hfr => ?_)
  refine Wp.bind (.act hr fun _ => .inr ⟨mem_cons_self f _, ?_⟩)
  rw [View.gain_write]
  refine Wp.bind (wp_setTable hr (mem_cons_of_mem hp) ?_)
  exact hok f _ (.enter hfp hfr T' _ (hown f) (hsh f) (hget f)) (by simp)

theorem wp_walkDir {alloc : Bool} {Q : Bool → View → Prop} (hr : Ready t v) (hl : alloc = true → Unlocked v)
    (hp : root ∈ v.pages)
    (hfail : (alloc = false → (v.table root).dirs.lookup (px 2 i) = none) → (alloc = true → t ≠ none) → Q false v)
    (hok : ∀ v' d, Widened root v v' → (alloc = false → v' = v) → (v'.table root).dirs.lookup (px 2 i) = some d →
    Q true v') : Wp k t (walkDir root i alloc) v Q := by
  refine Wp.bind (wp_getTable hr hp ?_)
  split
  · rename_i hd
    obtain ⟨d, hd⟩ := Option.isSome_iff_exists.1 hd
    exact hok v d (.refl root v) (fun _ => rfl) hd
  rename_i hd
  rw [Option.not_isSome_iff_eq_none] at hd
  cases alloc with
  | false => exact hfail (fun _ => hd) nofun
  | true =>
    refine wp_addPage hr (hl rfl) hp (fun f => Table.own_addDir hd f) (fun f => by simp) (fun f j => by simp)
      (fun ht => hfail nofun fun _ => ht) fun f v' hw hT => hok v' ⟨f, ∅⟩ hw nofun ?_
    rw [hT, Table.addDir, dif_pos hd]
    simp

theorem wp_walkSub {alloc : Bool} {d : Dir} {Q : Bool → View → Prop} (hr : Ready t v) (hl : alloc = true → Unlocked v)
    (hp : root ∈ v.pages) (hd : (v.table root).dirs.lookup (px 2 i) = some d)
    (hfail : (alloc = false → reaches (v.table root).dirs i = false) → (alloc = true → t ≠ none) → Q false v)
    (hok : ∀ v', Widened root v v' → (alloc = false → v' = v) → reaches (v'.table root).dirs i = true → Q true v') :
    Wp k t (walkSub root i alloc) v Q := by
  refine Wp.bind (wp_getTable hr hp ?_)
  split
  · rename_i hreach
    exact hok v (.refl root v) (fun _ => rfl) hreach
  rename_i hreach
  rw [Bool.not_eq_true] at hreach
  cases alloc with
  | false => exact hfail (fun _ => hreach) nofun
  | true =>
    refine wp_addPage hr (hl rfl) hp (fun f => Table.own_addSub hd hreach f) (fun f => Table.shared_addSub hd f)
      (fun f j => Table.get_addSub hd f j) (fun ht => hfail nofun fun _ => ht) fun f v' hw hT => hok v' hw nofun ?_
    rw [hT]
    exact Table.reaches_addSub_self hd f

theorem wp_walk_alloc {Q : Option (Option Pte) → View → Prop} (hr : Ready t v) (hl : Unlocked v) (hp : root ∈ v.pages)
    (hi : i < MAXPG) (hfail : t ≠ none → ∀ v', Widened root v v' → Q none v')
    (hok : ∀ v', Widened root v v' → reaches (v'.table root).dirs i = true → Q (some ((v.table root).get i)) v') :
    Wp k t (walk root i true) v Q := by
  unfold walk
  split
  · omega
  refine Wp.bind (wp_walkDir hr (fun _ => hl) hp (fun _ ht => hfail (ht rfl) v (.refl root v)) fun v1 d h1 _ hd => ?_)
  have hr1 := h1.ready hr
  have hp1 := h1.mem_root hp
  refine Wp.bind (wp_walkSub hr1 (fun _ => h1.unlocked hl) hp1 hd (fun _ ht => hfail (ht rfl) v1 h1)
    fun v2 h2 _ hreach => ?_)
  have h12 := h1.trans h2
  refine Wp.bind (wp_getTable (h12.ready hr) (h12.mem_root hp) ?_)
  rw [Table.slot, if_pos hreach, h12.get]
  exact hok v2 h12 hreach

theorem wp_walk_read {Q : Option (Option Pte) → View → Prop} (hr : Ready t v) (hp : root ∈ v.pages)
    (hi : i < MAXPG) (hQ : Q ((v.table root).slot i) v) : Wp k t (walk root i false) v Q := by
  unfold walk
  split
  · omega
  have hslot : reaches (v.table root).dirs i = false → Q none v := by
    intro hn
    rwa [Table.slot, if_neg (by simp [hn])] at hQ
  refine Wp.bind (wp_walkDir hr (by simp) hp (fun hd _ => hslot ?_) fun v1 d _ h1 hd => ?_)
  · unfold reaches
    rw [hd rfl]
    rfl
  · obtain rfl := h1 rfl
    refine Wp.bind (wp_walkSub hr (by simp) hp hd (fun hn _ => hslot (hn rfl)) fun v2 _ h2 _ => ?_)
    obtain rfl := h2 rfl
    exact Wp.bind (wp_getTable hr hp hQ)

theorem wp_walk_get {Q : Option (Option Pte) → View → Prop} (hr : Ready t v) (hp : root ∈ v.pages)
    (hi : i < MAXPG) (hget : (v.table root).get i = some pte) (hQ : Q (some (some pte)) v) :
    Wp k t (walk root i false) v Q :=
  wp_walk_read hr hp hi (by rwa [Table.slot_of_get hget])

/-! ## Single entries -/

theorem wp_setPte (hr : Ready t v) (hp : root ∈ v.pages)
    (hQ : Q () (v.setT root ((v.table root).setPte i pte))) : Wp k t (setPte root i pte) v Q :=
  Wp.bind (wp_getTable hr hp (wp_setTable hr hp hQ))

theorem wp_clearPte (hr : Ready t v) (hp : root ∈ v.pages)
    (hQ : Q () (v.setT root ((v.table root).clearPte i))) : Wp k t (clearPte root i) v Q :=
  Wp.bind (wp_getTable hr hp (wp_setTable hr hp hQ))

theorem wp_mappages {pa : Frame} {perm : Perm} {Q : Bool → View → Prop} (hr : Ready t v) (hl : Unlocked v)
    (hp : root ∈ v.pages)
    (hi : i < MAXPG) (hget : (v.table root).get i = none) (hfail : t ≠ none → ∀ v', Widened root v v' → Q false v')
    (hok : ∀ v', Widened root v v' → reaches (v'.table root).dirs i = true → (v'.table root).get i = none →
      Q true (v'.setT root ((v'.table root).setPte i ⟨pa, perm⟩))) : Wp k t (mappages root i pa perm) v Q := by
  refine Wp.bind (wp_walk_alloc hr hl hp hi hfail fun v' hw hreach => ?_)
  rw [hget]
  exact Wp.bind (wp_setPte (hw.ready hr) (hw.mem_root hp) (hok v' hw hreach ((hw.get i).trans hget)))

theorem wp_uvmunmap_keep (hr : Ready t v) (hp : root ∈ v.pages) (hi : i < MAXPG)
    (hget : (v.table root).get i = some pte) (hleaf : pte.perm ≠ {})
    (hQ : Q () (v.setT root ((v.table root).clearPte i))) : Wp k t (uvmunmap root i 1 false) v Q := by
  refine Wp.bind (wp_walk_get hr hp hi hget ?_)
  simp only [if_neg hleaf]
  exact Wp.bind (wp_clearPte hr hp hQ)

theorem wp_walkaddr {Q : Option Frame → View → Prop} (hr : Ready t v) (hp : root ∈ v.pages)
    (hnone : (∀ pte, (v.table root).get i = some pte → i < MAXPG → pte.perm.u ≠ true) → Q none v)
    (hsome : ∀ pte, (v.table root).get i = some pte → pte.perm.u = true → Q (some pte.pa) v) :
    Wp k t (walkaddr root i) v Q := by
  unfold walkaddr
  split
  · exact hnone fun _ _ hlt => by omega
  rename_i hi
  refine Wp.bind (wp_walk_read hr hp (Nat.not_le.1 hi) ?_)
  have hno : (∀ pte, (v.table root).slot i = some (some pte) → pte.perm.u ≠ true) → Q none v :=
    fun hu => hnone fun pte hget _ => hu pte (Table.slot_of_get hget)
  cases hslot : (v.table root).slot i with
  | none => exact hno (by simp [hslot])
  | some o =>
    cases o with
    | none => exact hno (by simp [hslot])
    | some pte =>
      have hget : (v.table root).get i = some pte := by
        unfold Table.slot at hslot
        split at hslot
        · exact Option.some.inj hslot
        · cases hslot
      simp only [Rules.wp_pure]
      split_ifs with hu
      · exact hsome pte hget hu
      · exact hno (by simpa [hslot] using hu)

theorem wp_walkaddr_get {Q : Option Frame → View → Prop} (hr : Ready t v) (hp : root ∈ v.pages)
    (hi : i < MAXPG) (hget : (v.table root).get i = some pte) (hu : pte.perm.u = true) (hQ : Q (some pte.pa) v) :
    Wp k t (walkaddr root i) v Q := by
  unfold walkaddr
  rw [if_neg (by omega)]
  refine Wp.bind (wp_walk_get hr hp hi hget ?_)
  simp only [Rules.wp_pure, hu, if_true]
  exact hQ

end Xv6Riscv.Vm
