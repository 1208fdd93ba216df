import Xv6Riscv.Vm.Cow

/-!
# A process and its memory

What a process has when its thread is in no call (`Calm`), and what the calls that work on its own memory
leave: a load, a store, the `copyout` of a system call, `sbrk`, an alarm and its `sigreturn`, `exit`. For every call
there is what it does to the bytes the process finds in its memory (`Effect`) and to the flags of its pages
(`Flags`).
-/
namespace Xv6Riscv.Vm
open Multiset Threads
variable {p' : Proc} {Q : Unit → View → Prop} {x : UInt8}

variable {k : Cond} {t : Tid} {c : Slot} {v v' : View} {f root tf pa : Frame} {i n : Nat} {P R lost : Multiset Frame}
  {S : List Nat} {p : Proc} {pte : Pte} {perm : Perm} {va : Nat}

/-! ## What a process finds in its memory -/

/-- The byte at `va`, if the process may read it. -/
def userByte (table : Frame → Table) (mem : Frame → Page) (p : Proc) (va : Nat) : Option UInt8 :=
  (p.pagetable.bind fun root => (table root).get (va / PGSIZE)).bind fun pte =>
    if pte.perm.u then some (mem pte.pa (va % PGSIZE)) else none

/-- The flags of page `i`, if it is mapped. -/
def userPerm (table : Frame → Table) (p : Proc) (i : Nat) : Option Perm :=
  (p.pagetable.bind fun root => (table root).get i).map Pte.perm

def View.image (v : View) (p : Proc) : Nat → Option UInt8 := userByte v.table v.mem p
def View.flags (v : View) (p : Proc) : Nat → Option Perm := userPerm v.table p

theorem View.image_eq (hp : p.pagetable = some root) : v.image p = v.byte root := by
  funext va
  unfold View.image userByte View.byte View.page
  simp only [hp, Option.bind_some]
  cases (v.table root).get (va / PGSIZE) with
  | none => rfl
  | some pte =>
    simp only [Option.bind_some]
    split <;> rfl

theorem View.flags_eq (hp : p.pagetable = some root) (i : Nat) : v.flags p i = ((v.table root).get i).map Pte.perm := by
  unfold View.flags userPerm
  rw [hp]
  rfl

/-- What a call of the process does to the bytes it finds, before and after. -/
def Effect (u : Call) (b b' : Nat → Option UInt8) : Prop :=
  match u with
  | .store va x => b' = b ∨ b va ≠ none ∧ b' = Function.update b va (some x)
  | .copyout dst src => Placed dst src b b'
  | .wait addr => ∃ src, (src = [] ∨ addr ≠ 0 ∧ src.length = 4) ∧ Placed addr src b b'
  | .sbrk n => ∀ va, b' va = b va ∨ 0 < n ∧ b va = none ∧ b' va = some 0 ∨ n < 0 ∧ b' va = none
  | .exec _ _ => True
  | _ => b' = b

/-- What it does to the flags of its pages. -/
def Flags (u : Call) (e e' : Nat → Option Perm) : Prop :=
  match u with
  | .fork => ∃ m, ∀ i, e' i = if i < m then (e i).map Perm.share else e i
  | .store va _ => e' = e ∨ va / PGSIZE ≠ 0 ∧ ∃ q, e (va / PGSIZE) = some q ∧ q.cow = true ∧ q.u = true ∧
      e' = Function.update e (va / PGSIZE) (some q.unshare)
  | .sbrk _ => ∀ i, e' i = e i ∨ e' i = none ∨ e i = none ∧ e' i = some { r := true, w := true, u := true }
  | .exec _ _ => e' = e ∨ ∀ i f, e' i = some f → f.u = true → f.cow = false
  | _ => e' = e

/-! ## Between two calls -/

/-- The address space of the process `p`, and the pages `P` beside it. -/
structure Body (v : View) (p : Proc) (root tf : Frame) (P R : Multiset Frame) : Prop where
  pagetable : p.pagetable = some root
  trapframe : p.trapframe = some tf
  shape : (v.table root).Shape (npages p.sz) [TRAPFRAME, TRAMPOLINE]
  space : Space v root (tf ::ₘ P) R

structure Calm (k : Cond) (v : View) (p : Proc) (root tf : Frame) (lost : Multiset Frame) : Prop
    extends Body v p root tf (opt p.alarmContext + lost) 0 where
  self : v.self = some p
  state : p.state = .runnable
  zero : v.zero = 0
  lock : v.lock = none
  child : v.child = none
  lost : k.alarm = true → lost = 0
  alarm : k.alarm = true → p.alarmOn = false → p.alarmContext = none

theorem Body.own (h : Body v p root tf P R) : v.own p = root ::ₘ ((v.table root).own + tf ::ₘ opt p.alarmContext) := by
  unfold View.own
  rw [h.trapframe, h.pagetable]
  simp only [opt_some, singleton_add, cons_add, add_cons]
  rw [add_comm (opt p.alarmContext)]

namespace Calm

section
variable (h : Calm k v p root tf lost)
include h

theorem ready : Ready (some c) v := .inr ⟨p, h.self, h.state⟩

theorem settled {x : ProcState} {s : BitVec 32} (hx : x = .runnable ∨ x = .zombie)
    (hal : k.alarm = true → x ≠ .runnable → p.alarmContext = none) :
    Rest k (some c) { v with self := some { p with state := x, xstate := s } } where
  zero := h.zero
  lock := h.lock
  child := h.child
  main := nofun
  empty := nofun
  settled q hq := by
    cases hq
    refine ⟨.inr ⟨hx, root, tf, h.pagetable, h.trapframe, h.shape⟩, ⟨lost, ?_, h.lost⟩, ?_, fun hk hor => ?_⟩
    · have hown : View.own { v with self := some { p with state := x, xstate := s } }
        { p with state := x, xstate := s } = v.own p := rfl
      rw [hown, h.toBody.own, h.space.pages]
      simp only [cons_add, add_cons, add_assoc]
    · rw [h.space.refs, add_zero]
      unfold View.shared
      rw [h.pagetable]
    · rcases hor with hor | hor
      · exact hal hk hor
      · exact h.alarm hk hor

theorem rest : Rest k (some c) v := by
  have hr := h.settled (c := c) (x := p.state) (s := p.xstate) (.inl h.state) fun _ hne => absurd h.state hne
  have hv : { v with self := some { p with state := p.state, xstate := p.xstate } } = v := by
    cases v
    cases h.self
    rfl
  rwa [hv] at hr

theorem update (hb : Beside root v v') (hs : Space v' root (tf ::ₘ (opt p.alarmContext + lost)) 0)
    (hshape : (v'.table root).Shape (npages p.sz) [TRAPFRAME, TRAMPOLINE]) : Calm k v' p root tf lost :=
  { h with
    shape := hshape
    space := hs
    self := hb.self.trans h.self
    zero := hb.zero.trans h.zero
    lock := hb.lock.trans h.lock
    child := hb.child.trans h.child }

end

end Calm

theorem Rest.calm (h : Rest k (some c) v) (hr : Ready (some c) v) : ∃ p root tf lost, Calm k v p root tf lost := by
  obtain hr | ⟨p, hself, hstate⟩ := hr
  · cases hr
  have hset := h.settled p hself
  obtain ⟨lost, hp, hlost⟩ := hset.pages
  rcases hset.body with ⟨hun, -⟩ | ⟨-, root, tf, hroot, htf, hshape⟩
  · rw [hstate] at hun
    cases hun
  refine ⟨p, root, tf, lost, ⟨hroot, htf, hshape, ?_, ?_⟩, hself, hstate, h.zero, h.lock, h.child, hlost,
    fun hk hoff => ?_⟩
  · rw [hp]
    unfold View.own
    rw [hroot, htf]
    simp only [opt_some, singleton_add, cons_add, add_cons, add_assoc]
    rw [add_left_comm]
  · rw [hset.refs, add_zero]
    unfold View.shared
    rw [hroot]
  · exact hset.alarm hk (.inr hoff)

theorem Rest.keeps (h : Rest k t v) (hk : Keeps v v') : Rest k t v' := by
  have hb := hk.beside 0
  refine ⟨hb.zero.trans h.zero, hb.lock.trans h.lock, hb.child.trans h.child, fun ht => hb.self.trans (h.main ht), ?_,
    ?_⟩
  · rw [hb.self, hk.pages, hk.refs]
    exact h.empty
  intro p hp
  rw [hb.self] at hp
  have hset := h.settled p hp
  obtain ⟨lost, hpages, hlost⟩ := hset.pages
  -- the page table is among the pages
  have htable : ∀ root, p.pagetable = some root → v'.table root = v.table root := by
    intro root hroot
    refine hk.table ?_
    rw [hpages]
    simp [View.own, hroot]
  have hown : v'.own p = v.own p ∧ v'.shared p = v.shared p := by
    unfold View.own View.shared
    cases hroot : p.pagetable with
    | none => exact ⟨rfl, rfl⟩
    | some root => simp only [htable root hroot, and_self]
  refine ⟨?_, ⟨lost, by rw [hk.pages, hown.1, hpages], hlost⟩, by rw [hk.refs, hown.2, hset.refs], hset.alarm⟩
  rcases hset.body with hun | ⟨hst, root, tf, hroot, htf, hshape⟩
  · exact .inl hun
  · exact .inr ⟨hst, root, tf, hroot, htf, by rwa [htable root hroot]⟩

/-! ## The image under what the functions leave -/

section
variable (h : Body v p root tf P R)
include h

theorem Body.get_user (hget : (v.table root).get i = some pte) (hu : pte.perm.u = true) : i < TRAPFRAME :=
  ((h.shape.fits i pte hget).user hu).trans_le h.shape.small

/-- The same page for the process: another frame perhaps, with the same contents. -/
theorem Body.image_congr {root' : Frame} (hp : p'.pagetable = some root')
    (hpage : ∀ i, v'.page root' i = v.page root i) : v'.image p' = v.image p := by
  funext va
  rw [View.image_eq hp, View.image_eq h.pagetable, View.byte, View.byte, hpage]

theorem Body.page_congr (hb : Beside root v v')
    (hget : (v'.table root).get i = (v.table root).get i) : v'.page root i = v.page root i := by
  unfold View.page
  rw [hget]
  cases hg : (v.table root).get i with
  | none => rfl
  | some pte =>
    simp only [Option.bind_some]
    split
    · rename_i hu
      rw [hb.mem _ (h.space.mem_of_get hg (Body.get_user h hg hu))]
    · rfl

theorem Body.image_beside (hb : Beside root v v')
    (hget : ∀ i, (v'.table root).get i = (v.table root).get i) : v'.image p = v.image p :=
  h.image_congr h.pagetable fun i => h.page_congr hb (hget i)

theorem Body.same_table (hT : v'.table root = v.table root)
    (hmem : ∀ i pte, (v.table root).get i = some pte → pte.perm.u = true → v'.mem pte.pa = v.mem pte.pa) :
    v'.image p = v.image p ∧ v'.flags p = v.flags p := by
  refine ⟨h.image_congr h.pagetable fun i => ?_, funext fun i => ?_⟩
  · unfold View.page
    rw [hT]
    cases hg : (v.table root).get i with
    | none => rfl
    | some pte =>
      simp only [Option.bind_some]
      split_ifs with hu
      · rw [hmem i pte hg hu]
      · rfl
  · rw [View.flags_eq h.pagetable, View.flags_eq h.pagetable, hT]

theorem Body.image_keeps (hk : Keeps v v') : v'.image p = v.image p ∧ v'.flags p = v.flags p := by
  refine h.same_table (hk.table (mem_add.2 (.inl h.space.mem_root))) fun i pte hget hu => ?_
  exact (hk.beside root).mem _ (h.space.mem_of_get hget (h.get_user hget hu))

end

/-! ## Calls -/

/-- The call `u` has ended: the process is between two calls or dead, and its memory is as the call says. -/
structure Ended (k : Cond) (c : Slot) (u : Call) (v : View) (p : Proc) (v' : View) : Prop where
  rest : Rest k (some c) v'
  self : ∃ p', v'.self = some p' ∧ Effect u (v.image p) (v'.image p') ∧ Flags u (v.flags p) (v'.flags p')

section
variable (h : Calm k v p root tf lost)
include h

theorem Calm.wp_die {status : BitVec 32}
    (hQ : Rest k (some c) { v with self := some { p with state := .zombie, xstate := status } } →
      Q () { v with self := some { p with state := .zombie, xstate := status } }) : Wp k (some c) (die status) v Q := by
  refine .act h.ready fun _ => ⟨h.child, p, h.self, fun hal => ?_⟩
  have hrest := h.settled (c := c) (s := status) (.inr rfl) fun hk _ => hal hk
  exact ⟨hrest, hQ hrest⟩

theorem Calm.wp_exit {status : BitVec 32}
    (hQ : Rest k (some c) { v with self := some { p with state := .zombie, xstate := status } } →
      Q () { v with self := some { p with state := .zombie, xstate := status } }) :
    Wp k (some c) (exit status) v Q := by
  refine Wp.bind (.act h.ready fun _ b => ?_)
  cases b with
  | true => exact .panic h.ready rfl
  | false => exact h.wp_die hQ

theorem Calm.wp_pagetable {β : Type} {next : Frame → K β} {Q : β → View → Prop}
    (hQ : Wp k (some c) (next root) v Q) : Wp k (some c) (myproc >>= fun p => deref p.pagetable >>= next) v Q := by
  refine Wp.bind (.act h.ready fun _ => ⟨p, h.self, Wp.bind (.deref h.ready fun f hf => ?_)⟩)
  rw [h.pagetable] at hf
  cases hf
  exact hQ

theorem Calm.wp_load (va : Nat) : Wp k (some c) (load va) v fun _ => Ended k c (.load va) v p := by
  refine h.wp_pagetable (Wp.bind (wp_walkaddr h.ready h.space.mem_root (fun _ => ?_) fun pte hget hu => ?_))
  · exact h.wp_exit fun hrest => ⟨hrest, _, rfl, rfl, rfl⟩
  · refine Wp.bind (.act h.ready fun _ => ⟨h.space.mem_of_get hget (h.get_user hget hu), fun _ => ?_⟩)
    exact ⟨h.rest, p, h.self, rfl, rfl⟩

end

/-! ### Stores -/

/-- How a store to `va` can end. -/
inductive Stored (k : Cond) (va : Nat) (x : UInt8) (v : View) (p : Proc) (v' : View) (p' : Proc) : Prop
  /-- The page is writable. -/
  | written (q : Perm) : v.flags p (va / PGSIZE) = some q → q.w = true → q.u = true → v'.flags p' = v.flags p →
      v.image p va ≠ none → v'.image p' = Function.update (v.image p) va (some x) → p' = p → Stored k va x v p v' p'
  /-- The fault gives the process a page of its own. -/
  | retry (q : Perm) : v.flags p (va / PGSIZE) = some q → ¬ (q.w = true ∧ q.u = true) → va / PGSIZE ≠ 0 →
      q.cow = true → q.u = true → v'.flags p' = Function.update (v.flags p) (va / PGSIZE) (some q.unshare) →
      v'.image p' = v.image p → p' = p → Stored k va x v p v' p'
  /-- The process is killed: its page is not writable and not copy-on-write, or there is no memory. -/
  | killed : (∀ q, v.flags p (va / PGSIZE) = some q → ¬ (q.w = true ∧ q.u = true) ∧
        (va / PGSIZE ≠ 0 → q.cow = true → q.u = true → k.memory = false)) →
      v'.flags p' = v.flags p → v'.image p' = v.image p → p'.state = .zombie → Stored k va x v p v' p'

theorem Stored.effect (h : Stored k va x v p v' p') : Effect (.store va x) (v.image p) (v'.image p') := by
  cases h with
  | written q _ _ _ _ hne heq _ => exact .inr ⟨hne, heq⟩
  | retry q _ _ _ _ _ _ heq _ => exact .inl heq
  | killed _ _ heq _ => exact .inl heq

theorem Stored.flags (h : Stored k va x v p v' p') : Flags (.store va x) (v.flags p) (v'.flags p') := by
  cases h with
  | written q _ _ _ heq _ _ _ => exact .inl heq
  | retry q hq _ hne hcow hu heq _ _ => exact .inr ⟨hne, q, hq, hcow, hu, heq⟩
  | killed _ heq _ _ => exact .inl heq

section
variable (h : Calm k v p root tf lost)
include h

theorem Calm.wp_write
    (hget : (v.table root).get (va / PGSIZE) = some pte) (hw : pte.perm.w = true) (hu : pte.perm.u = true)
    (hQ : ∀ v', Rest k (some c) v' → v'.self = some p → Stored k va x v p v' p → Q () v') :
    Wp k (some c) (write pte.pa (va % PGSIZE) [x]) v Q := by
  have hi := h.get_user hget hu
  have hcow := (h.shape.fits _ _ hget).sole hw
  have hmem := h.space.mem_pages hget hi hcow
  refine .act h.ready fun hv => ⟨hmem, hQ _ ?_ h.self (.written pte.perm ?_ hw hu rfl ?_ ?_ rfl)⟩
  · have h' : Calm k { v with mem := Function.update v.mem pte.pa (splice (v.mem pte.pa) (va % PGSIZE) [x]) }
      p root tf lost :=
      { h with space := ⟨h.space.pages, h.space.refs⟩ }
    exact h'.rest
  · rw [View.flags_eq h.pagetable, hget]
    rfl
  · rw [View.image_eq h.pagetable, View.byte, View.page, hget]
    simp [hu]
  funext a
  have hva : a = va ↔ a / PGSIZE = va / PGSIZE ∧ a % PGSIZE = va % PGSIZE := by
    constructor
    · rintro rfl
      exact ⟨rfl, rfl⟩
    · rintro ⟨hd, hm⟩
      rw [← Nat.div_add_mod a PGSIZE, ← Nat.div_add_mod va PGSIZE, hd, hm]
  rw [View.image_eq h.pagetable, View.byte_write h.shape hget hu, Function.update_apply, View.image_eq h.pagetable]
  by_cases hd : a / PGSIZE = va / PGSIZE
  · have hold : v.byte root a = some (v.mem pte.pa (a % PGSIZE)) := by simp [View.byte, View.page, hd, hget, hu]
    simp only [hva, hd, true_and, if_true, hold, splice]
    split_ifs with hle hm hm
    · simp [hm]
    · have : a % PGSIZE - va % PGSIZE ≠ 0 := by omega
      simp [this]
    · omega
    · rfl
  · simp [hva, hd]

theorem Calm.stored_retry (hget : (v.table root).get (va / PGSIZE) = some pte)
    (hnw : ¬ (pte.perm.w = true ∧ pte.perm.u = true)) (hne : va / PGSIZE ≠ 0) (hcow : pte.perm.cow = true)
    (hu : pte.perm.u = true) (hun : Unshared root v (va / PGSIZE) pte v') : Stored k va x v p v' p := by
  obtain ⟨pa, hpa, hget'⟩ := hun.get
  refine .retry pte.perm (by rw [View.flags_eq h.pagetable, hget]; rfl) hnw hne hcow hu ?_ ?_ rfl
  · funext i
    rw [Function.update_apply, View.flags_eq h.pagetable, View.flags_eq h.pagetable, hget']
    split_ifs <;> rfl
  refine h.image_congr h.pagetable fun i => ?_
  by_cases hi : i = va / PGSIZE
  · subst hi
    unfold View.page
    rw [hget', if_pos rfl, hget]
    simp [Perm.unshare, hu, hpa]
  · exact h.page_congr hun.toBeside (by rw [hget', if_neg hi])

theorem Calm.wp_fault
    (hnw : ∀ pte, (v.table root).get (va / PGSIZE) = some pte → ¬ (pte.perm.w = true ∧ pte.perm.u = true))
    (hQ : ∀ v' p', Rest k (some c) v' → v'.self = some p' → Stored k va x v p v' p' → Q () v') :
    Wp k (some c) (handleCOW root va >>= fun ok => if ok then pure () else exit (-1)) v Q := by
  refine Wp.bind (wp_handleCOW h.ready h.lock h.space h.shape (fun hno => ?_)
    fun v' pte hget hne hcow hu hs hshape hun => ?_)
  · refine h.wp_exit fun hrest => hQ _ _ hrest rfl (.killed (fun q hq => ?_) rfl rfl rfl)
    rw [View.flags_eq h.pagetable] at hq
    obtain ⟨pte, hget, rfl⟩ := Option.map_eq_some_iff.1 hq
    exact ⟨hnw pte hget, hno pte hget⟩
  · have h' := h.update hun.toBeside hs hshape
    exact hQ v' p h'.rest h'.self (h.stored_retry hget (hnw pte hget) hne hcow hu hun)

theorem Calm.wp_store (va : Nat)
    (hQ : ∀ v' p', Rest k (some c) v' → v'.self = some p' → Stored k va x v p v' p' → Q () v') :
    Wp k (some c) (store va x) v Q := by
  refine h.wp_pagetable (Wp.bind (Wp.bind (wp_getTable h.ready h.space.mem_root ?_)))
  change Wp k (some c) _ v Q
  -- beyond `MAXVA` the table has no entry either
  have hbig : (if MAXPG ≤ va / PGSIZE then none else (v.table root).get (va / PGSIZE)) =
      (v.table root).get (va / PGSIZE) := by
    split_ifs with hge
    · refine (h.shape.get_none (h.shape.small.trans ((by decide : TRAPFRAME ≤ MAXPG).trans hge)) fun hS => ?_).symm
      have : ∀ i ∈ [TRAPFRAME, TRAMPOLINE], i < MAXPG := by decide
      exact absurd (this _ hS) (Nat.not_lt.2 hge)
    · rfl
  rw [hbig]
  cases hget : (v.table root).get (va / PGSIZE) with
  | none => exact h.wp_fault (fun pte hpte => by rw [hget] at hpte; cases hpte) hQ
  | some pte =>
    dsimp only
    split_ifs with hwu
    · exact h.wp_write hget hwu.1 hwu.2 fun v' => hQ v' p
    · refine h.wp_fault (fun q hq => ?_) hQ
      rw [hget] at hq
      cases hq
      exact hwu

/-! ### `copyout`, `sbrk`, alarms -/

theorem Calm.wrote {dst : Nat} {src : List UInt8}
    (hw : Wrote k root (tf ::ₘ (opt p.alarmContext + lost)) 0 v dst src v') :
    Calm k v' p root tf lost ∧ v'.flags p = v.flags p ∧ Placed dst src (v.image p) (v'.image p) := by
  obtain ⟨m, rfl⟩ := hw.frame
  refine ⟨{ h with space := ⟨h.space.pages, h.space.refs⟩ }, rfl, ?_⟩
  rw [View.image_eq h.pagetable, View.image_eq h.pagetable]
  exact hw.bytes

theorem Calm.wp_sysCopyout (dst : Nat) (src : List UInt8) :
    Wp k (some c) (sysCopyout dst src) v fun _ => Ended k c (.copyout dst src) v p := by
  refine h.wp_pagetable (Wp.bind (wp_copyout h.ready h.space h.shape fun ok v' hw => ?_))
  obtain ⟨h', hflags, hbytes⟩ := h.wrote hw
  exact ⟨h'.rest, p, h'.self, hbytes, hflags⟩

end

theorem Calm.resize (sz : Nat) (h : Calm k v p root tf lost) (hb : Beside root v v')
    (hs : Space v' root (tf ::ₘ (opt p.alarmContext + lost)) 0)
    (hshape : (v'.table root).Shape (npages sz) [TRAPFRAME, TRAMPOLINE]) :
    Calm k { v' with self := some { p with sz := sz } } { p with sz := sz } root tf lost :=
  { pagetable := h.pagetable
    trapframe := h.trapframe
    shape := hshape
    space := ⟨hs.pages, hs.refs⟩
    self := rfl
    state := h.state
    zero := hb.zero.trans h.zero
    lock := hb.lock.trans h.lock
    child := hb.child.trans h.child
    lost := h.lost
    alarm := h.alarm }

theorem Calm.wp_setMyproc {q : Proc} (h : Calm k v p root tf lost) (hb : Beside root v v')
    (hq : q.state = p.state) (hQ : Q () { v' with self := some q }) : Wp k (some c) (setMyproc q) v' Q :=
  .act (hb.ready h.ready) fun _ => ⟨p, hb.self.trans h.self, hq, hQ⟩

theorem Calm.wp_growproc (h : Calm k v p root tf lost) (n : Int) :
    Wp k (some c) (growproc n) v fun _ => Ended k c (.sbrk n) v p := by
  refine Wp.bind (.act h.ready fun _ => ⟨p, h.self, Wp.bind (.deref h.ready fun f hf => ?_)⟩)
  rw [h.pagetable] at hf
  cases hf
  have hsame : Ended k c (.sbrk n) v p v := ⟨h.rest, p, h.self, fun _ => .inl rfl, fun _ => .inl rfl⟩
  split_ifs with hpos hneg
  · refine Wp.bind (wp_uvmalloc h.ready h.lock h.space h.shape rfl (fun hlt => ?_) (fun v' hs hb hget => ?_)
      fun v' hle hs hshape hg => ?_)
    · -- the new size wrapped around, and the old one is kept
      split_ifs with hz
      · exact hsame
      · refine h.wp_setMyproc (Grows.refl root v).toBeside rfl ?_
        have h' := h.resize p.sz (Grows.refl root v).toBeside h.space h.shape
        exact ⟨h'.rest, _, rfl, fun _ => .inl rfl, fun _ => .inl rfl⟩
    · have h' := h.update hb hs (h.shape.congr hget)
      refine ⟨h'.rest, p, h'.self, fun va => .inl ?_, fun i => .inl ?_⟩
      · rw [h.image_beside hb hget]
      · rw [View.flags_eq h.pagetable, View.flags_eq h.pagetable, hget]
    · have h' := h.resize _ hg.toBeside hs hshape
      have hnone : ∀ i, npages p.sz ≤ i → i < npages ((p.sz + n) % 2 ^ 64).toNat → (v.table root).get i = none :=
        fun i hle hlt =>
          h.shape.get_none hle fun hS => absurd (h.shape.above _ hS) (Nat.not_le.2 (hlt.trans_le hshape.small))
      have himage : ∀ va, v'.image p va = v.image p va ∨ 0 < n ∧ v.image p va = none ∧ v'.image p va = some 0 ∨
          n < 0 ∧ v'.image p va = none := by
        intro va
        rw [View.image_eq h.pagetable, View.image_eq h.pagetable]
        by_cases hin : npages p.sz ≤ va / PGSIZE ∧ va / PGSIZE < npages ((p.sz + n) % 2 ^ 64).toNat
        · obtain ⟨pa, hpa, hz⟩ := hg.new _ hin.1 hin.2
          refine .inr (.inl ⟨hpos, ?_, ?_⟩)
          · simp [View.byte, View.page, hnone _ hin.1 hin.2]
          · simp [View.byte, View.page, hpa, hz]
        · left
          rw [View.byte, View.byte, h.page_congr hg.toBeside (hg.old _ hin)]
      have hflags : Flags (.sbrk n) (v.flags p) (v'.flags p) := by
        intro i
        rw [View.flags_eq h.pagetable, View.flags_eq h.pagetable]
        by_cases hin : npages p.sz ≤ i ∧ i < npages ((p.sz + n) % 2 ^ 64).toNat
        · obtain ⟨pa, hpa, -⟩ := hg.new i hin.1 hin.2
          rw [hnone i hin.1 hin.2, hpa]
          exact .inr (.inr ⟨rfl, rfl⟩)
        · rw [hg.old i hin]
          exact .inl rfl
      split_ifs with hz
      · -- a size that wrapped to 0: nothing was mapped, and the old size was 0
        have hsz : p.sz = 0 := by omega
        rw [hz, ← hsz] at hshape
        have h'' := h.update hg.toBeside hs hshape
        exact ⟨h''.rest, p, h''.self, himage, hflags⟩
      · exact h.wp_setMyproc hg.toBeside rfl ⟨h'.rest, _, rfl, himage, hflags⟩
  · refine Wp.bind (wp_uvmdealloc h.ready h.lock h.space h.shape (fun hle => ?_) fun v' hlt hs hf hshape hget => ?_)
    · refine h.wp_setMyproc (Grows.refl root v).toBeside rfl ?_
      have h' := h.resize p.sz (Grows.refl root v).toBeside h.space h.shape
      exact ⟨h'.rest, _, rfl, fun _ => .inl rfl, fun _ => .inl rfl⟩
    have hb := (Grows.refl root v).toBeside.frees hf
    refine h.wp_setMyproc hb rfl ?_
    have h' := h.resize _ hb hs hshape
    have hflags : Flags (.sbrk n) (v.flags p) (v'.flags p) := by
      intro i
      rw [View.flags_eq h.pagetable, View.flags_eq h.pagetable, hget]
      split_ifs
      · exact .inr (.inl rfl)
      · exact .inl rfl
    refine ⟨h'.rest, _, rfl, fun va => ?_, hflags⟩
    have himage : v'.image p va = v.image p va ∨ v'.image p va = none := by
      rw [View.image_eq h.pagetable, View.image_eq h.pagetable, View.byte, View.byte]
      by_cases hin : npages ((p.sz + n) % 2 ^ 64).toNat ≤ va / PGSIZE ∧ va / PGSIZE < npages p.sz
      · right
        rw [View.page, hget, if_pos hin]
        rfl
      · left
        rw [h.page_congr hb (by rw [hget, if_neg hin])]
    rcases himage with heq | hnone
    · exact .inl heq
    · exact .inr (.inr ⟨hneg, hnone⟩)
  · exact hsame

theorem Calm.setAlarm (context : Option Frame) (on : Bool) {lost' : Multiset Frame} (h : Calm k v p root tf lost)
    (hs : Space v' root (tf ::ₘ (opt context + lost')) 0)
    (hz : v'.zero = v.zero) (hl : v'.lock = v.lock) (hc : v'.child = v.child) (hT : v'.table root = v.table root)
    (hlost : k.alarm = true → lost' = 0) (hal : k.alarm = true → on = false → context = none) :
    Calm k { v' with self := some { p with alarmContext := context, alarmOn := on } }
      { p with alarmContext := context, alarmOn := on } root tf lost' where
  pagetable := h.pagetable
  trapframe := h.trapframe
  shape := by
    rw [hT]
    exact h.shape
  space := ⟨hs.pages, hs.refs⟩
  self := rfl
  state := h.state
  zero := hz.trans h.zero
  lock := hl.trans h.lock
  child := hc.trans h.child
  lost := hlost
  alarm := hal

theorem Calm.wp_alarm (h : Calm k v p root tf lost) : Wp k (some c) Vm.alarm v fun _ => Ended k c .alarm v p := by
  refine Wp.bind (.act h.ready fun _ => ⟨p, h.self, ?_⟩)
  dsimp only
  split_ifs with hon
  · exact ⟨h.rest, p, h.self, rfl, rfl⟩
  refine Wp.bind (wp_kalloc h.ready (.inl h.lock) (fun _ _ => ?_) fun f T hfp hfr => ?_)
  · exact Wp.bind (.panic h.ready rfl)
  refine Wp.bind (.deref h.ready fun g hg => ?_)
  cases hg
  refine Wp.bind (.deref h.ready fun g hg => ?_)
  rw [h.trapframe] at hg
  cases hg
  have htf : tf ∈ v.pages := by rw [h.space.pages]; simp
  refine Wp.bind (.act h.ready fun _ => ⟨mem_cons_self f _, mem_add.2 (.inl (mem_cons_of_mem htf)), ?_⟩)
  rw [View.gain_write]
  refine .act h.ready fun _ => ⟨p, h.self, rfl, ?_⟩
  have hs := h.space.gain hfp T ((v.gain f T fun _ => 5).mem tf)
  have hg := Grows.gain root hfp hfr T ((v.gain f T fun _ => 5).mem tf)
  have hT := View.gain_table h.space.mem_root hfp T ((v.gain f T fun _ => 5).mem tf)
  generalize v.gain f T ((v.gain f T fun _ => 5).mem tf) = v' at *
  have hs' : Space v' root (tf ::ₘ (opt (some f) + (opt p.alarmContext + lost))) 0 := by
    rw [opt_some, singleton_add, cons_swap]
    exact hs
  have hlost : k.alarm = true → opt p.alarmContext + lost = 0 := by
    intro hk
    rw [h.lost hk, h.alarm hk (by simpa using hon)]
    rfl
  have h' := h.setAlarm (some f) true hs' hg.zero hg.lock hg.child hT hlost nofun
  have hmem := h.same_table hT fun i pte hget hu =>
    hg.mem _ (h.space.mem_of_get hget (h.get_user hget hu))
  exact ⟨h'.rest, _, rfl, hmem.1, hmem.2⟩

theorem Calm.wp_sigreturn (h : Calm k v p root tf lost) :
    Wp k (some c) Vm.sigreturn v fun _ => Ended k c .sigreturn v p := by
  refine Wp.bind (.act h.ready fun _ => ⟨p, h.self, ?_⟩)
  refine Wp.bind (.deref h.ready fun g hg => ?_)
  rw [h.trapframe] at hg
  cases hg
  refine Wp.bind (.deref h.ready fun f hf => ?_)
  have hpages : v.pages = f ::ₘ root ::ₘ ((v.table root).own + tf ::ₘ lost) := by
    rw [h.space.pages, hf]
    simp only [opt_some, singleton_add, add_cons]
    rw [cons_swap tf f, cons_swap root f]
  have htf : tf ∈ v.pages := by rw [h.space.pages]; simp
  have hfp : f ∈ v.pages := by rw [hpages]; exact mem_cons_self _ _
  refine Wp.bind (.act h.ready fun hv => ⟨htf, mem_add.2 (.inl hfp), ?_⟩)
  refine Wp.bind (wp_kfree_page h.ready h.lock hpages (.act h.ready fun _ => ⟨p, h.self, rfl, ?_⟩))
  -- the trapframe is no page of the process's own memory
  have hmem : ∀ i pte, (v.table root).get i = some pte → pte.perm.u = true →
      Function.update v.mem tf (v.mem f) pte.pa = v.mem pte.pa := fun i pte hget hu =>
    Function.update_of_ne (h.space.pa_ne hv hget (h.get_user hget hu) (mem_cons_self tf _)) _ _
  have hs : Space { v with
      pages := root ::ₘ ((v.table root).own + tf ::ₘ lost), mem := Function.update v.mem tf (v.mem f) } root
      (tf ::ₘ (opt none + lost)) 0 := ⟨by simp, h.space.refs⟩
  have h' := h.setAlarm none false hs rfl rfl rfl rfl h.lost fun _ _ => rfl
  have hsame : View.image { v with mem := Function.update v.mem tf (v.mem f) } p = v.image p ∧
      View.flags { v with mem := Function.update v.mem tf (v.mem f) } p = v.flags p := h.same_table rfl hmem
  exact ⟨h'.rest, _, rfl, hsame.1, hsame.2⟩

end Xv6Riscv.Vm
