import Mathlib.Tactic.Abel
import Xv6Riscv.Vm.Body

/-!
# `exec`

The new image is built in a page table of its own (`Loading`) beside all that the process has. If a step fails,
it is freed again and nothing has changed. Otherwise the process takes it over and the old one is freed.
-/
namespace Xv6Riscv.Vm
open Multiset Threads
variable {sz : Nat} {Q : Unit → View → Prop} {argv : List (List UInt8)}

variable {k : Cond} {t : Tid} {c : Slot} {v v' v₀ : View} {f root tf pa : Frame} {i n : Nat} {P R lost : Multiset Frame}
  {S : List Nat} {p : Proc} {pte : Pte}

/-- The table at `root` has `n` pages so far, all of them the process's own. -/
structure Loading (root : Frame) (v₀ : View) (n : Nat) (v : View) : Prop extends Apart root v₀ v where
  shape : (v.table root).Shape n [TRAPFRAME, TRAMPOLINE]
  plain : ∀ j pte, j < n → (v.table root).get j = some pte → pte.perm.cow = false

/-- And it can use them. -/
def AllUser (root : Frame) (n : Nat) (v : View) : Prop :=
  ∀ j pte, j < n → (v.table root).get j = some pte → pte.perm.u = true

theorem Table.shared_plain {T : Table} (hshape : T.Shape n S)
    (h : ∀ j pte, j < n → T.get j = some pte → pte.perm.cow = false) : T.shared = 0 := by
  have hz : T.shared = Tally.total (fun _ _ => (0 : Multiset Frame)) T.ptes := by
    refine Tally.total_congr fun j pte hget => ?_
    unfold refPte
    rw [if_neg]
    rintro ⟨hj, hcow⟩
    rcases (hshape.dom j).1 (by rw [show T.get j = some pte from hget]; rfl) with hjn | hjS
    · rw [h j pte hjn hget] at hcow
      cases hcow
    · exact absurd (hshape.above j hjS) (by omega)
  rw [hz]
  simp [Tally.total]

namespace Loading

theorem write (h : Loading root v₀ n v) (hv : Valid v) (hget : (v.table root).get i = some pte)
    (hi : i < n) (x : Page) : Loading root v₀ n { v with mem := Function.update v.mem pte.pa x } := by
  have hi' : i < TRAPFRAME := hi.trans_le h.shape.small
  have hmem := h.mem_pages hget hi' (h.plain i pte hi hget)
  refine { h with pages := h.pages, refs := h.refs, mem := fun f hf => ?_ }
  refine (Function.update_of_ne ?_ _ _).trans (h.mem f hf)
  rcases mem_add.1 hf with hf | hf
  · exact (h.toSpace.pa_ne hv hget hi' hf).symm
  · rintro rfl
    refine hv.apart pte.pa hmem ?_
    rw [h.refs]
    exact mem_add.2 (.inr hf)

theorem wrote {dst : Nat} {src : List UInt8} (h : Loading root v₀ n v)
    (hw : Wrote k root v₀.pages v₀.refs v dst src v') : Loading root v₀ n v' := by
  have hmem := hw.others (.inr (Table.shared_plain h.shape h.plain))
  obtain ⟨m, rfl⟩ := hw.frame
  exact { h with pages := h.pages, refs := h.refs, mem := fun f hf => (hmem f hf).trans (h.mem f hf) }

theorem wp_free (h : Loading root v₀ (npages sz) v) (hr : Ready t v₀)
    (hl : v₀.lock = none) (hQ : ∀ v', Keeps v₀ v' → Q () v') : Wp k t (procFreepagetable root sz) v Q :=
  wp_procFreepagetable (h.ready hr) (h.lock.trans hl) h.toSpace h.shape fun v' hp hr' hf => hQ v' (h.close hp hr' hf)

theorem wp_alloc {newsz : Nat} {xperm : Perm} {Q : Nat → View → Prop} (h : Loading root v₀ (npages sz) v)
    (hu : AllUser root (npages sz) v) (hr : Ready t v₀) (hl : v₀.lock = none) (hx : xperm.cow = false)
    (hfail : ∀ v', Loading root v₀ (npages sz) v' → Q 0 v')
    (hok : ∀ sz1 v', sz ≤ sz1 → newsz ≤ sz1 → Loading root v₀ (npages sz1) v' → AllUser root (npages sz1) v' →
      (sz ≤ newsz → sz1 = newsz) → Q sz1 v') : Wp k t (uvmalloc root sz newsz xperm) v Q := by
  refine wp_uvmalloc (h.ready hr) (h.lock.trans hl) h.toSpace h.shape hx (fun hlt => ?_) (fun v' hs hb hget => ?_)
    fun v' hle hs hshape hg => ?_
  · exact hok sz v le_rfl hlt.le h hu fun hle => absurd hlt (by omega)
  · refine hfail v' ⟨h.toApart.lift hs hb, h.shape.congr hget, fun j pte hj hg => ?_⟩
    rw [hget] at hg
    exact h.plain j pte hj hg
  have hnew : ∀ j pte, j < npages newsz → (v'.table root).get j = some pte → pte.perm.cow = false ∧
    pte.perm.u = true := by
    intro j pte hlt hj
    by_cases hin : npages sz ≤ j ∧ j < npages newsz
    · obtain ⟨pa, hpa, -⟩ := hg.new j hin.1 hin.2
      rw [hpa] at hj
      cases hj
      exact ⟨hx, rfl⟩
    · rw [hg.old j hin] at hj
      exact ⟨h.plain j pte (by omega) hj, hu j pte (by omega) hj⟩
  refine hok newsz v' hle le_rfl ⟨h.toApart.lift hs hg.toBeside, hshape, fun j pte hlt hj => (hnew j pte hlt hj).1⟩
    (fun j pte hlt hj => (hnew j pte hlt hj).2) fun _ => rfl

end Loading

/-! ## Segments -/

variable {v : View}

/-- `loadseg`, by induction on the pages to go. Its panic is out of reach, since the pages are there. -/
theorem wp_loadsegLoop {data : List UInt8} {Q : Bool → View → Prop} (hr : Ready t v₀) (m : Nat) {a : Nat}
    (h : Loading root v₀ n v) (hu : AllUser root n v) (hin : i + (a + m) ≤ n)
    (hQ : ∀ ok v', Loading root v₀ n v' → AllUser root n v' → Q ok v') :
    Wp k t (loadsegLoop root i sz data m a) v Q := by
  induction m generalizing a v with
  | zero => exact hQ true v h hu
  | succ m ih =>
    obtain ⟨pte, hget⟩ := h.shape.get_some (.inl (show i + a < n by omega))
    have hi : i + a < TRAPFRAME := lt_of_lt_of_le (by omega) h.shape.small
    refine Wp.bind (wp_walkaddr_get (h.ready hr) h.mem_root (hi.trans (by decide)) hget (hu _ pte (by omega) hget) ?_)
    refine Wp.bind (.act (h.ready hr) fun hv => ⟨h.mem_pages hget hi (h.plain _ pte (by omega) hget), ?_⟩)
    have h' := h.write hv hget (by omega)
      (splice (v.mem pte.pa) 0 ((data.drop (a * PGSIZE)).take (min (sz - a * PGSIZE) PGSIZE)))
    split_ifs
    · exact ih h' hu (by omega)
    · exact hQ false _ h' hu

theorem npages_add {a b : Nat} (ha : a % PGSIZE = 0) : a / PGSIZE + npages b = npages (a + b) := by
  unfold npages PGSIZE at *
  omega

theorem ProgHdr.fits {ph : ProgHdr} (hsz : ¬ ph.memsz < ph.filesz) (hwrap : ¬ ph.vaddr + ph.memsz < ph.vaddr)
    (halign : ph.vaddr.toNat % PGSIZE = 0) :
    ph.vaddr.toNat / PGSIZE + npages (ph.filesz.toNat % 2 ^ 32) ≤ npages (ph.vaddr + ph.memsz).toNat := by
  rw [UInt64.lt_iff_toNat_lt] at hsz hwrap
  have hadd := UInt64.toNat_add ph.vaddr ph.memsz
  have h2 := ph.memsz.toNat_lt
  rw [npages_add halign]
  apply npages_mono
  omega

theorem wp_loadProgram {Q : Nat × Bool → View → Prop} (hr : Ready t v₀) (hl : v₀.lock = none)
    (phdrs : List (Option ProgHdr)) (h : Loading root v₀ (npages sz) v) (hu : AllUser root (npages sz) v)
    (hQ : ∀ sz' ok v', Loading root v₀ (npages sz') v' → (ok = true → AllUser root (npages sz') v') → Q (sz', ok) v') :
    Wp k t (loadProgram root sz phdrs) v Q := by
  induction phdrs generalizing sz v with
  | nil => exact hQ sz true v h fun _ => hu
  | cons o rest ih =>
    cases o with
    | none => exact hQ sz false v h nofun
    | some ph =>
      unfold loadProgram
      split_ifs with hload hsz hwrap halign
      · exact ih h hu
      · exact hQ sz false v h nofun
      · exact hQ sz false v h nofun
      · exact hQ sz false v h nofun
      refine Wp.bind (h.wp_alloc hu hr hl rfl (fun v1 h1 => ?_) fun sz1 v1 hle hge h1 hu1 _ => ?_)
      · exact hQ sz false v1 h1 nofun
      split_ifs with hz
      · obtain rfl : sz = sz1 := by omega
        exact hQ sz false v1 h1 nofun
      refine Wp.bind (wp_loadsegLoop hr _ h1 hu1 ?_ fun ok v2 h2 hu2 => ?_)
      · rw [zero_add]
        exact (ProgHdr.fits hsz hwrap (by omega)).trans (npages_mono hge)
      · cases ok with
        | true => exact ih h2 hu2
        | false => exact hQ sz1 false v2 h2 nofun

/-! ## The stack -/

theorem wp_pushArgs {Q : Option (Nat × List Nat) → View → Prop} (hr : Ready t v₀) {stackbase : Nat}
    (argv : List (List UInt8))
    {sp : Nat} {ustack : List Nat} (h : Loading root v₀ n v) (hQ : ∀ r v', Loading root v₀ n v' → Q r v') :
    Wp k t (pushArgs root stackbase argv sp ustack) v Q := by
  induction argv generalizing sp ustack v with
  | nil => exact hQ _ v h
  | cons arg rest ih =>
    unfold pushArgs
    split_ifs
    · exact hQ none v h
    dsimp only
    split_ifs
    · exact hQ none v h
    refine Wp.bind (wp_copyout (h.ready hr) h.toSpace h.shape fun ok v1 hw => ?_)
    cases ok with
    | true => exact ih (h.wrote hw)
    | false => exact hQ none v1 (h.wrote hw)

theorem wp_pushStack {Q : Bool → View → Prop} (hr : Ready t v₀)
    (h : Loading root v₀ n v) (hQ : ∀ ok v', Loading root v₀ n v' → Q ok v') : Wp k t (pushStack root sz argv) v Q := by
  unfold pushStack
  -- the number itself is of no use here
  generalize sz - PGSIZE = base
  refine Wp.bind (wp_pushArgs hr argv h fun r v1 h1 => ?_)
  rcases r with _ | ⟨sp, ustack⟩
  · exact hQ false v1 h1
  · dsimp only
    split_ifs
    · exact hQ false v1 h1
    · exact wp_copyout (h1.ready hr) h1.toSpace h1.shape fun ok v2 hw => hQ ok v2 (h1.wrote hw)

theorem wp_uvmclear (hr : Ready t v₀) (h : Loading root v₀ n v) (hi : i < n)
    (hQ : ∀ v', Loading root v₀ n v' → Q () v') : Wp k t (uvmclear root i) v Q := by
  obtain ⟨pte, hget⟩ := h.shape.get_some (.inl hi)
  have hi' : i < TRAPFRAME := hi.trans_le h.shape.small
  have hreach := Table.reaches_of_get hget
  have hcow := h.plain i pte hi hget
  refine Wp.bind (wp_walk_get (h.ready hr) h.mem_root (hi'.trans (by decide)) hget ?_)
  refine wp_setPte (h.ready hr) h.mem_root
    (hQ _ ⟨h.toApart.lift ⟨?_, ?_⟩ (Grows.setT root v _).toBeside, ?_, fun j q hj hq => ?_⟩)
  · rw [View.setT_pages, View.setT_table, Table.own_setPte hreach, h.pages, Table.own_clear hget]
    simp [ownPte, hi', hcow]
  · rw [View.setT_refs, View.setT_table, Table.shared_setPte hreach, h.refs, Table.shared_clear hget]
    simp [refPte, hcow]
  · rw [View.setT_table]
    have hf := h.shape.fits i pte hget
    refine h.shape.replace hreach hi ⟨hf.leaf, by simp, hf.sole⟩ fun j q hj hji hq hpa => ?_
    exact hji (h.shape.inj j i q pte hj hi hq hget hpa)
  · rw [View.setT_table, Table.get_setPte hreach] at hq
    split_ifs at hq
    · cases hq
      exact hcow
    · exact h.plain j q hj hq

/-! ## The whole of `exec` -/

/-- The process has a new image. -/
structure Replaced (v : View) (p : Proc) (tf : Frame) (P R : Multiset Frame) (v' : View) : Prop where
  zero : v'.zero = v.zero
  lock : v'.lock = v.lock
  child : v'.child = v.child
  body : ∃ root sz, v'.self = some { p with pagetable := some root, sz := sz } ∧
    Body v' { p with pagetable := some root, sz := sz } root tf P R ∧
    ∀ i pte, i < npages sz → (v'.table root).get i = some pte → pte.perm.cow = false

/-- The process takes the new image over. -/
theorem Loading.wp_replace {old : Frame} (h : Loading root v₀ (npages sz) v)
    (hself : v₀.self = some p) (hr : Ready t v₀) (hl : v₀.lock = none) (hb : Body v₀ p old tf P R)
    (hQ : ∀ v', Replaced v₀ p tf P R v' → Q () v') :
    Wp k t (deref p.pagetable >>= fun oldpagetable =>
      setMyproc { p with pagetable := some root, sz := sz } >>= fun _ => procFreepagetable oldpagetable p.sz) v Q := by
  refine Wp.bind (.deref (h.ready hr) fun f hf => ?_)
  rw [hb.pagetable] at hf
  cases hf
  refine Wp.bind (.act (h.ready hr) fun _ => ⟨p, h.self.trans hself, rfl, ?_⟩)
  have hne : old ≠ root := fun he => h.fresh (he ▸ mem_add.2 (.inl hb.space.mem_root))
  have hT : v.table old = v₀.table old := h.table old (mem_add.2 (.inl hb.space.mem_root)) hne
  have hs : Space { v with self := some { p with pagetable := some root, sz := sz } } old
      (root ::ₘ ((v.table root).own + (tf ::ₘ P))) ((v.table root).shared + R) := by
    refine ⟨?_, ?_⟩
    · rw [h.pages, hb.space.pages, hT]
      simp only [← singleton_add]
      abel
    · rw [h.refs, hb.space.refs, hT]
      abel
  have hr' : Ready t { v with self := some { p with pagetable := some root, sz := sz } } := by
    rcases hr with hr | ⟨q, hq, hst⟩
    · exact .inl hr
    · rw [hself] at hq
      cases hq
      exact .inr ⟨_, rfl, hst⟩
  refine wp_procFreepagetable hr' (h.lock.trans hl) hs (by change (v.table old).Shape _ _; rw [hT]; exact hb.shape)
    fun v' hp' hr'' hf => ?_
  have hT' : v'.table root = v.table root := hf.table root hne.symm
  refine hQ v' ⟨hf.zero.trans h.zero, hf.lock.trans h.lock, hf.child.trans h.child, root, sz, hf.self,
    ⟨rfl, hb.trapframe, ?_, ?_, ?_⟩, ?_⟩
  · rw [hT']
    exact h.shape
  · rw [hp', hT']
  · rw [hr'', hT']
  · rw [hT']
    exact h.plain

theorem wp_exec {root₀ : Frame} {file : Option Elf} (hself : v.self = some p)
    (hr : Ready t v) (hl : v.lock = none) (hb : Body v p root₀ tf P R) (hkeep : ∀ v', Keeps v v' → Q () v')
    (hnew : ∀ v', Replaced v p tf P R v' → Q () v') : Wp k t (exec file argv) v Q := by
  have hsame : Q () v := hkeep v ⟨rfl, rfl, fun r => (Grows.refl r v).toBeside⟩
  unfold exec
  cases file with
  | none => exact hsame
  | some elf =>
    dsimp only
    split_ifs
    · exact hsame
    refine Wp.bind (.act hr fun _ => ⟨p, hself, ?_⟩)
    refine Wp.bind (.deref hr fun f hf => ?_)
    refine Wp.bind (wp_procPagetable hr hl hkeep fun root v1 ha hshape => ?_)
    have hzero : npages 0 = 0 := by decide
    have h1 : Loading root v (npages 0) v1 := ⟨ha, hshape, fun j _ hj => absurd hj (by omega)⟩
    have hu1 : AllUser root (npages 0) v1 := fun j _ hj => absurd hj (by omega)
    refine Wp.bind (wp_loadProgram hr hl elf.phdrs h1 hu1 fun sz ok v2 h2 hu2 => ?_)
    dsimp only
    split_ifs with hok
    · exact h2.wp_free hr hl hkeep
    have hu2 := hu2 (by simpa using hok)
    refine Wp.bind (.act (h2.ready hr) fun _ => ⟨p, h2.self.trans hself, ?_⟩)
    rw [← npages_mul (npages sz)] at h2 hu2
    refine Wp.bind (h2.wp_alloc hu2 hr hl rfl (fun v3 h3 => ?_) fun sz1 v3 _ _ h3 _ hsz => ?_)
    · exact h3.wp_free hr hl hkeep
    obtain rfl := hsz (by omega)
    have hpos : npages (npages sz * PGSIZE + 2 * PGSIZE) - 2 < npages (npages sz * PGSIZE + 2 * PGSIZE) := by
      rw [← Nat.add_mul, npages_mul]
      omega
    refine Wp.bind (wp_uvmclear hr h3 hpos fun v4 h4 => ?_)
    refine Wp.bind (wp_pushStack hr h4 fun ok v5 h5 => ?_)
    cases ok with
    | true => exact h5.wp_replace hself hr hl hb hnew
    | false => exact h5.wp_free hr hl hkeep

/-! ## `sys_exec` -/

/-- The thread has the pages `bufs` besides what it had. -/
structure Buffered (v : View) (bufs : List Frame) (v' : View) : Prop where
  pages : v'.pages = bufs + v.pages
  refs : v'.refs = v.refs
  grows : ∀ root, Grows root v v'

theorem wp_fetchArgs {Q : List Frame × Option (List (List UInt8)) → View → Prop} (hr : Ready t v) (hl : v.lock = none)
    (args : List Arg) {bufs : List Frame} {v' : View} (h : Buffered v bufs v')
    (hQ : ∀ bufs' r v'', Buffered v bufs' v'' → Q (bufs', r) v'') : Wp k t (fetchArgs args bufs argv) v' Q := by
  induction args generalizing bufs argv v' with
  | nil =>
    unfold fetchArgs
    split_ifs <;> exact hQ _ _ v' h
  | cons arg rest ih =>
    have hr' : Ready t v' := (h.grows 0).ready hr
    have hl' : v'.lock = none := (h.grows 0).lock.trans hl
    have hmore : ∀ f T, f ∉ v'.pages → f ∉ v'.refs → Buffered v (bufs ++ [f]) (v'.gain f T fun _ => 5) := by
      intro f T hfp hfr
      refine ⟨?_, h.refs, fun r => (h.grows r).trans (.gain r hfp hfr T _)⟩
      rw [View.gain_pages, h.pages, ← coe_add, coe_singleton, ← singleton_add]
      abel
    unfold fetchArgs
    split_ifs
    · exact hQ _ _ v' h
    cases arg with
    | badAddr => exact hQ _ _ v' h
    | badStr =>
      refine Wp.bind (wp_kalloc hr' (.inl hl') (fun _ _ => hQ _ _ v' h) fun f T hfp hfr => ?_)
      exact hQ _ _ _ (hmore f T hfp hfr)
    | str s =>
      refine Wp.bind (wp_kalloc hr' (.inl hl') (fun _ _ => hQ _ _ v' h) fun f T hfp hfr => ?_)
      dsimp only
      split_ifs
      · exact ih (hmore f T hfp hfr)
      · exact hQ _ _ _ (hmore f T hfp hfr)

theorem wp_kfreeAll (bufs : List Frame) (hr : Ready t v) (hl : v.lock = none)
    (hp : v.pages = bufs + P) (hQ : Q () { v with pages := P }) : Wp k t (kfreeAll bufs) v Q := by
  induction bufs generalizing v with
  | nil =>
    rw [coe_nil, zero_add] at hp
    subst hp
    exact hQ
  | cons f fs ih =>
    rw [← cons_coe, cons_add] at hp
    exact Wp.bind (wp_kfree_page hr hl hp (ih hr hl rfl hQ))

theorem Calm.wp_sysExec (h : Calm k v p root tf lost) (file : Option Elf) (args : List Arg) :
    Wp k (some c) (sysExec file args) v fun _ => Ended k c (.exec file args) v p := by
  have hnone : Buffered v [] v := ⟨by simp, rfl, fun r => .refl r v⟩
  refine Wp.bind (wp_fetchArgs h.ready h.lock args hnone fun bufs r v1 h1 => ?_)
  have hr1 : Ready (some c) v1 := (h1.grows 0).ready h.ready
  have hl1 : v1.lock = none := (h1.grows 0).lock.trans h.lock
  -- the buffers are given back, and nothing has changed
  have hback : ∀ v2, Keeps v1 v2 → Wp k (some c) (kfreeAll bufs) v2 fun _ => Ended k c (.exec file args) v p := by
    intro v2 hk
    have hb := fun r => (h1.grows r).beside (hk.beside r)
    refine wp_kfreeAll bufs ((hb 0).ready h.ready) ((hb 0).lock.trans h.lock) (hk.pages.trans h1.pages) ?_
    have hkeep : Keeps v { v2 with pages := v.pages } := ⟨rfl, hk.refs.trans h1.refs, fun r =>
      ⟨(hb r).zero, (hb r).lock, (hb r).self, (hb r).child, (hb r).table, (hb r).mem⟩⟩
    exact ⟨h.rest.keeps hkeep, p, (hkeep.beside 0).self.trans h.self, trivial, .inl (h.image_keeps hkeep).2⟩
  cases r with
  | none => exact hback v1 ⟨rfl, rfl, fun r => (Grows.refl r v1).toBeside⟩
  | some argv =>
    have hT : v1.table root = v.table root :=
      (h1.grows (root + 1)).table root (mem_add.2 (.inl h.space.mem_root)) (Nat.succ_ne_self root).symm
    have hb1 : Body v1 p root tf (opt p.alarmContext + lost + bufs) 0 := by
      refine ⟨h.pagetable, h.trapframe, by rw [hT]; exact h.shape, ?_, by rw [h1.refs, hT, h.space.refs]⟩
      rw [h1.pages, hT, h.space.pages]
      simp only [← singleton_add]
      abel
    refine Wp.bind (wp_exec ((h1.grows 0).self.trans h.self) hr1 hl1 hb1 hback fun v2 hrep => ?_)
    obtain ⟨root', sz, hself, hbody, hplain⟩ := hrep.body
    have hr2 : Ready (some c) v2 := .inr ⟨_, hself, h.state⟩
    have hp2 : v2.pages = bufs + (root' ::ₘ ((v2.table root').own + tf ::ₘ (opt p.alarmContext + lost))) := by
      rw [hbody.space.pages]
      simp only [← singleton_add]
      abel
    refine wp_kfreeAll bufs hr2 (hrep.lock.trans hl1) hp2 ?_
    have h' : Calm k { v2 with pages := root' ::ₘ ((v2.table root').own + tf ::ₘ (opt p.alarmContext + lost)) }
        { p with pagetable := some root', sz := sz } root' tf lost :=
      { pagetable := rfl
        trapframe := h.trapframe
        shape := hbody.shape
        space := ⟨rfl, hbody.space.refs⟩
        self := hself
        state := h.state
        zero := hrep.zero.trans ((h1.grows 0).zero.trans h.zero)
        lock := hrep.lock.trans hl1
        child := hrep.child.trans ((h1.grows 0).child.trans h.child)
        lost := h.lost
        alarm := h.alarm }
    refine ⟨h'.rest, _, hself, trivial, .inr fun i f hi hu => ?_⟩
    rw [View.flags_eq rfl] at hi
    obtain ⟨pte, hget, rfl⟩ := Option.map_eq_some_iff.1 hi
    exact hplain i pte ((hbody.shape.fits i pte hget).user hu) hget

end Xv6Riscv.Vm
