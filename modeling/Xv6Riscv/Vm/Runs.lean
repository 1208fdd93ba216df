import Xv6Riscv.Vm.Exec
import Xv6Riscv.Vm.Lives
import Xv6Riscv.Vm.Sound

/-!
# Runs of the kernel

The actions follow their rules (`Vm/Sound.lean`) and every call can be carried out under these rules from any
state between two calls. So in every state of every run each thread has the view its program needs
(`holds_of_reach`): the invariant holds, and a thread that is in no call is at `Rest`.
-/
namespace Xv6Riscv.Vm
open Multiset Threads Machine

variable {k : Cond} {t : Tid} {c : Slot} {v : View} {root tf : Frame} {lost : Multiset Frame} {p : Proc} {s : Kern}
  {W : Tid → View} {first : Frame}

/-! ## All calls -/

/-- **Every call of a process ends** with what it promises, unless the kernel panics. -/
theorem Calm.wp_call (h : Calm k v p root tf lost) {u : Call} (hu : ∀ initcode, u ≠ .userinit initcode) :
    Wp k (some c) u.code v fun _ => Ended k c u v p := by
  have hkeep : ∀ {v'}, Keeps v v' → Rest k (some c) v' ∧ ∃ p', v'.self = some p' ∧ v'.image p' = v.image p ∧
      v'.flags p' = v.flags p := fun hk =>
    ⟨h.rest.keeps hk, p, (hk.beside 0).self.trans h.self, (h.image_keeps hk).1, (h.image_keeps hk).2⟩
  cases u with
  | userinit initcode => exact absurd rfl (hu initcode)
  | load va => exact h.wp_load va
  | store va x => exact h.wp_store va fun v' p' hr hself hst => ⟨hr, p', hself, hst.effect, hst.flags⟩
  | copyout dst src => exact h.wp_sysCopyout dst src
  | sbrk n => exact h.wp_growproc n
  | fork => exact h.wp_fork
  | exec file args => exact h.wp_sysExec file args
  | exit status => exact h.wp_exit fun hr => ⟨hr, _, rfl, rfl, rfl⟩
  | wait addr => exact h.wp_wait addr
  | alarm => exact h.wp_alarm
  | sigreturn => exact h.wp_sigreturn
  | allocPage => exact wp_allocPage h.ready h.lock fun v' hk => ⟨(hkeep hk).1, (hkeep hk).2⟩
  | freePage pa => exact wp_freePage h.ready h.lock fun v' hk => ⟨(hkeep hk).1, (hkeep hk).2⟩

theorem Inv.ready (h : Inv k s W) (hst : (s.proc c).state = .runnable) : Ready (some c) (W (some c)) := by
  cases hself : (W (some c)).self with
  | some p => exact .inr ⟨p, hself, by rwa [← h.slots.self c p hself]⟩
  | none =>
    obtain ⟨t, p, hc⟩ := h.slots.taken c hself
    obtain ⟨hp, -, hor⟩ := h.slots.child t c p hc
    rw [hp] at hst
    rcases hor with hused | ⟨hzom, -⟩
    · rw [hst] at hused
      cases hused
    · rw [hst] at hzom
      cases hzom

theorem Inv.calm (h : Inv k s W) (hrest : Rest k (some c) (W (some c))) {u : Call} (hen : enabled s (some c) u = true) :
    (∀ initcode, u ≠ .userinit initcode) ∧ ∃ root tf lost, Calm k (W (some c)) (s.proc c) root tf lost := by
  simp only [enabled, Bool.and_eq_true, decide_eq_true_eq] at hen
  refine ⟨fun initcode hu => ?_, ?_⟩
  · subst hu
    exact absurd hen.1 Bool.false_ne_true
  · obtain ⟨p, root, tf, lost, hcalm⟩ := hrest.calm (h.ready hen.2)
    rw [h.slots.self c p hcalm.self]
    exact ⟨root, tf, lost, hcalm⟩

theorem start_sound {u : Call} (h : Inv k s W) (hen : enabled s t u = true) (hrest : Rest k t (W t)) :
    Wp k t u.code (W t) fun _ => Rest k t := by
  cases t with
  | some c =>
    obtain ⟨hu, root, tf, lost, hcalm⟩ := h.calm hrest hen
    exact Rules.wp_mono (hcalm.wp_call hu) fun _ _ he => he.rest
  | none =>
    cases u with
    | userinit initcode => exact wp_userinit hrest fun v' hk => hrest.keeps hk
    | allocPage => exact wp_allocPage (.inl rfl) hrest.lock fun v' hk => hrest.keeps hk
    | freePage pa => exact wp_freePage (.inl rfl) hrest.lock fun v' hk => hrest.keeps hk
    | _ => cases hen

/-- **The rules are sound for the kernel.** -/
theorem sound (k : Cond) : Sound vm (rules k) (Inv k) (Rest k) (actOk k) fun p => p.reachable = true where
  valid t h := h.books.valid t
  exec h hr ha hok hex := exec_sound h hr ha hok hex
  halt h _ ha hex := exec_halt h ha hex
  start h hen hrest := start_sound h hen hrest

/-! ## After `kinit` -/

/-- The view of a thread after `kinit`: an unused slot, and no pages. -/
def View.fresh (t : Tid) : View where
  pages := 0
  refs := 0
  zero := 0
  lock := none
  table := fun _ => .empty
  mem := fun _ _ => 1
  self := t.map fun _ => {}
  child := none

theorem rest_fresh (t : Tid) : Rest k t (View.fresh t) where
  zero := rfl
  lock := rfl
  child := rfl
  main ht := by rw [ht]; rfl
  empty _ := ⟨rfl, rfl⟩
  settled p hp := by
    obtain ⟨c, -, rfl⟩ := Option.map_eq_some_iff.1 hp
    exact ⟨.inl ⟨rfl, rfl, rfl, rfl⟩, ⟨0, rfl, fun _ => rfl⟩, rfl, fun _ _ => rfl⟩

theorem sum_fresh (sel : View → Multiset Frame) (h : ∀ t, sel (View.fresh t) = 0) : ∑ t, sel (View.fresh t) = 0 :=
  Finset.sum_eq_zero fun t _ => h t

theorem books_boot (first : Nat) : Books first (fun _ => 0) (List.range' first (PHYSTOP - first)).reverse
    [] View.fresh := by
  unfold Books
  rw [sum_fresh View.zero fun _ => rfl, sum_fresh View.pages fun _ => rfl, sum_fresh View.refs fun _ => rfl]
  refine ⟨fun f => rfl, fun f => ?_⟩
  have hnodup : (List.range' first (PHYSTOP - first)).Nodup := List.nodup_range'
  have hrange : ∀ n : ℕ, first ≤ n ∧ n < first + (PHYSTOP - first) ↔ first ≤ n ∧ n < PHYSTOP := by
    intro n
    omega
  rw [Multiset.coe_count, List.count_reverse, hnodup.count]
  simp only [List.mem_range'_1, coe_nil, count_zero, add_zero, Nat.min_zero]
  congr 1
  exact propext (hrange f)

theorem inv_boot (k : Cond) (first : Frame) : Inv k (boot first).shared View.fresh where
  books := books_boot first
  locks := fun _ => ⟨⟨nofun, fun h => absurd rfl h⟩, fun _ h => (nomatch h), fun _ _ _ h => (nomatch h)⟩
  knows := fun _ f hf => absurd hf (notMem_zero f)
  slots := {
    main := rfl
    self := fun _ _ hp => Option.some.inj hp
    child := fun _ _ _ h => nomatch h
    taken := fun _ h => nomatch h
    alone := fun _ _ _ _ _ h => nomatch h
    asleep := fun t _ => rest_fresh t }

/-! ## Every state of a run -/

theorem holds_boot (k : Cond) (first : Frame) : Holds (rules k) (Inv k) (Rest k) (boot first) :=
  ⟨View.fresh, inv_boot k first, fun t => rest_fresh t⟩

/-- Every thread has its view in every state that is reached with actions that meet `ok`. -/
theorem holds_of_reach {ok : Kern → Tid → Act → Prop} (hok : ∀ s t a, ok s t a → actOk k s t a) {s : State}
    (h : Reach vm.step (· = boot first) (nextOk ok) s) : Holds (rules k) (Inv k) (Rest k) s := by
  refine .of_reach ((sound k).mono hok) (fun s hs => ?_) h
  subst hs
  exact holds_boot k first

/-- No condition. -/
def Cond.free : Cond := ⟨false, false, false⟩

theorem actOk_free (s : Kern) (t : Tid) (a : Act) : actOk .free s t a := by
  cases a <;> first | trivial | exact fun h => nomatch h

theorem holds_free {s : State} (h : Reach vm.step (· = boot first) (fun _ _ => True) s) :
    Holds (rules .free) (Inv .free) (Rest .free) s := by
  have hall : ∀ (s : State) (e : Event Tid Call), nextOk (actOk .free) s e := by
    intro s e
    cases e with
    | start t u => trivial
    | next t =>
      simp only [nextOk]
      cases s.todo t with
      | ret x => trivial
      | act a next => exact actOk_free s.shared t a
  exact holds_of_reach (fun _ _ _ h => h) (h.mono fun s e _ => hall s e)

/-! ## A page is found -/

/-- `kalloc` finds a page. -/
def findsPage (s : Kern) (_ : Tid) : Act → Prop
  | .pop => s.freelist ≠ []
  | _ => True

/-- From now on `kalloc` finds a page. -/
def Cond.pages (k : Cond) : Cond := { k with memory := true }

theorem actOk_pages {a : Act} (h : actOk k s t a) (hf : findsPage s t a) : actOk k.pages s t a := by
  cases a with
  | pop => exact fun _ => hf
  | _ => exact h

theorem rest_pages : Rest k.pages t v ↔ Rest k t v := by
  have hset : ∀ pr, Settled k.pages v pr ↔ Settled k v pr := fun pr =>
    ⟨fun h => ⟨h.body, h.pages, h.refs, h.alarm⟩, fun h => ⟨h.body, h.pages, h.refs, h.alarm⟩⟩
  exact ⟨fun h => ⟨h.zero, h.lock, h.child, h.main, h.empty, fun pr hp => (hset pr).1 (h.settled pr hp)⟩,
    fun h => ⟨h.zero, h.lock, h.child, h.main, h.empty, fun pr hp => (hset pr).2 (h.settled pr hp)⟩⟩

theorem inv_pages (h : Inv k s W) : Inv k.pages s W where
  books := h.books
  locks := h.locks
  knows := h.knows
  slots := { h.slots with asleep := fun t ht => rest_pages.2 (h.slots.asleep t ht) }

theorem handOver_pages {ok : Proc → Prop} {next : Proc → Proc} {Q : View → Prop} (h : HandOver k c v ok next Q) :
    HandOver k.pages c v ok next Q := by
  obtain ⟨hl, pr, P, R, P', R', hc, hok, hp, hr, hrest, hQ⟩ := h
  exact ⟨hl, pr, P, R, P', R', hc, hok, hp, hr, rest_pages.2 hrest, hQ⟩

theorem rule_pages {a : Act} {Q : a.Res → View → Prop} (h : a.rule k t v Q) : a.rule k.pages t v Q := by
  cases a with
  | pop => exact ⟨nofun, h.2⟩
  | claim c => exact ⟨h.1, h.2.1, fun w pr hw => h.2.2 w pr (rest_pages.1 hw)⟩
  | zombieChild c => exact ⟨h.1, h.2.1, fun w pr hw => h.2.2 w pr (rest_pages.1 hw)⟩
  | setRunnable c => exact handOver_pages h
  | unlockProc c => exact handOver_pages h
  | setUnused c => exact handOver_pages h
  | die status =>
    obtain ⟨hc, pr, hself, h⟩ := h
    exact ⟨hc, pr, hself, fun hal => ⟨rest_pages.2 (h hal).1, (h hal).2⟩⟩
  | _ => exact h

theorem wp_pages {α : Type} {pr : K α} {Q : α → View → Prop} (h : (rules k).wp t pr v Q) : (rules k.pages).wp t pr v Q := by
  induction pr generalizing v with
  | ret x => exact h
  | act a next ih =>
    refine ⟨h.1, fun hv => Act.rule_mono (fun r v' hr => ih r hr) ?_⟩
    exact rule_pages (h.2 hv)

theorem holds_pages {s : State} (h : Holds (rules k) (Inv k) (Rest k) s) :
    Holds (rules k.pages) (Inv k.pages) (Rest k.pages) s := by
  obtain ⟨W, hinv, hwp⟩ := h
  exact ⟨W, inv_pages hinv, fun t => Rules.wp_mono (wp_pages (hwp t)) fun _ v hv => rest_pages.2 hv⟩

theorem rest_of_idle {s : State} {goal : Tid → View → Prop} {W : Tid → View}
    (hwp : ∀ t, (rules k).wp t (s.todo t) (W t) fun _ => goal t) (hi : s.idle t) : goal t (W t) := by
  have := hwp t
  rwa [show s.todo t = .ret () from hi] at this

/-! ## Runs one call after the other -/

/-- The call `u` by the thread `t`, which takes `n` actions, with nobody in between. -/
def callEvents (t : Tid) (u : Call) (n : Nat) : List (Event Tid Call) := .start t u :: List.replicate n (.next t)

/-- The slots that the first two processes get. -/
def initSlot : Slot := ⟨0, by decide⟩
def childSlot : Slot := ⟨1, by decide⟩

/-- The first process, and its child: they share the page of initcode. -/
def startRun : List (Event Tid Call) := callEvents none (.userinit [1, 2, 3]) 77
def forkRun : List (Event Tid Call) := startRun ++ callEvents (some initSlot) .fork 80

/-- The same with one more page. -/
def grownRun : List (Event Tid Call) := startRun ++ callEvents (some initSlot) (.sbrk 4096) 14
def sharedRun : List (Event Tid Call) := grownRun ++ callEvents (some initSlot) .fork 94

theorem idle_of_isRet {s : State} (h : (s.todo t).isRet = true) : s.idle t := by
  unfold Pool.idle
  cases hp : s.todo t with
  | ret x => rfl
  | act a next =>
    rw [hp] at h
    cases h

theorem quiet_of_isRet {s : State} (h : ∀ t, (s.todo t).isRet = true) (t : Tid) : s.idle t := idle_of_isRet (h t)

end Xv6Riscv.Vm
