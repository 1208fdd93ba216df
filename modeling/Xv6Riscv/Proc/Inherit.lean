import Xv6Riscv.Proc.Wait

/-!
# What a child inherits

`fork` makes the child RUNNABLE and then writes its `smask` and `tickets`, without a lock. A child that is dispatched
before these writes runs with `smask` 0 and one ticket, or has its own values overwritten (`child_overtakes_fork`).
-/
namespace Xv6Riscv.Proc
open Machine
open Function (update update_self update_of_ne update_apply update_eq_self)

/-- The slot that a thread in `fork` has allocated, until the last write to it. -/
def Pc.forks : Pc → Option Nat
  | .forkParent np | .forkRunnable np | .forkSmask np | .forkTickets np => some np
  | _ => none

structure Forking (s : Sys) : Prop where
  parked : ∀ p np, (s.pc p).forks = some np →
    s.pc np = .forkret ∧ (∀ c, s.cpc c ≠ .run np) ∧ (s.state np = .used ∨ s.state np = .runnable)
  one : ∀ p p' np, (s.pc p).forks = some np → (s.pc p').forks = some np → p = p'
  fresh : ∀ p np, (s.pc p).forks = some np →
    s.traced np = false ∧ s.ticketed np = false ∧ s.smask0 np = s.smask p ∧ s.tickets0 np = s.tickets p
  copied : ∀ p np, s.pc p = .forkTickets np → s.smask np = s.smask0 np
  settled : ∀ q, s.state q ≠ .unused → (∀ p, (s.pc p).forks ≠ some q) →
    (s.traced q = false → s.smask q = s.smask0 q) ∧ (s.ticketed q = false → s.tickets q = s.tickets0 q)

namespace Forking
variable {s s' : Sys} {c p q : Nat}

theorem boot : Forking boot where
  parked _ _ := nofun
  one _ _ _ := nofun
  fresh _ _ := nofun
  copied _ _ := nofun
  settled q hq _ := by
    refine ⟨fun _ => rfl, fun _ => rfl⟩

/-! ## Steps outside of `fork` -/

section
variable (h : Forking s)
include h

theorem not_forked (hc : s.cpc c = .run p) (r : Nat) : (s.pc r).forks ≠ some p :=
  fun hr => (h.parked r p hr).2.1 c hc

variable {b a : Pc}

theorem forward (hc : s.cpc c = .run p) (hb : b.forks = (s.pc p).forks)
    (hcopied : ∀ np, b = .forkTickets np → s.smask np = s.smask0 np) : Forking (goto s p b) := by
  have hpc : ∀ {r}, ((Proc.goto s p b).pc r).forks = (s.pc r).forks := by
    intro r
    by_cases e : r = p
    · simp only [Proc.goto, e, update_self, hb]
    · simp only [Proc.goto, update_of_ne e]
  exact {
    parked := by
      intro r np hr
      rw [hpc] at hr
      have e : np ≠ p := by
        rintro rfl
        exact h.not_forked hc r hr
      simp only [Proc.goto, update_of_ne e]
      exact h.parked r np hr
    one := fun r r' np hr hr' => h.one r r' np (hpc ▸ hr) (hpc ▸ hr')
    fresh := fun r np hr => h.fresh r np (hpc ▸ hr)
    copied := by
      intro r np hr
      by_cases e : r = p
      · subst e
        simp only [Proc.goto, update_self] at hr
        exact hcopied np hr
      · simp only [Proc.goto, update_of_ne e] at hr
        exact h.copied r np hr
    settled := fun r hr hn => h.settled r hr fun r' hr' => hn r' (hpc ▸ hr') }

theorem goto (hc : s.cpc c = .run p) (ha : (s.pc p).forks = none) (hb : b.forks = none) : Forking (goto s p b) :=
  h.forward hc (hb.trans ha.symm) (by rintro np rfl; cases hb)

theorem step (hat : At s c p a) (ha : a.forks = none) (hb : b.forks = none) : Forking (Proc.goto s p b) :=
  h.goto hat.cpc (by rw [hat.pc]; exact ha) hb

theorem cpus {f : Nat → CpuPc}
    (hf : ∀ c q, f c = .run q → s.cpc c = .run q ∨ ∀ p, (s.pc p).forks ≠ some q) : Forking { s with cpc := f } :=
  { h with
    parked := fun p np hp => ⟨(h.parked p np hp).1, fun c hc => (hf c np hc).elim ((h.parked p np hp).2.1 c)
      fun hn => hn p hp, (h.parked p np hp).2.2⟩ }

theorem setState (st : ProcState) (hold : s.state q ≠ .unused)
    (hq : st = .runnable ∨ ∀ r, (s.pc r).forks ≠ some q) : Forking { s with state := update s.state q st } :=
  { h with
    parked := by
      intro r np hr
      have := h.parked r np hr
      refine ⟨this.1, this.2.1, ?_⟩
      by_cases e : np = q
      · subst e
        simp only [update_self]
        exact .inr (hq.resolve_right fun hn => hn r hr)
      · simp only [update_of_ne e]
        exact this.2.2
    settled := by
      intro r hr
      refine h.settled r ?_
      by_cases e : r = q
      · rw [e]; exact hold
      · simpa only [update_of_ne e] using hr }

theorem wakeSlot (chan : Chan) (i : Nat) : Forking (wakeSlot s chan i) := by
  unfold Proc.wakeSlot
  split
  · rename_i hg
    exact { h.setState (q := i) .runnable (by rw [hg.1]; decide) (.inl rfl) with }
  · exact h

theorem freeproc (hst : s.state q = .unused ∨ s.state q = .zombie) (hpc : (s.pc q).forks = none) :
    Forking (freeproc s q) := by
  have hne : ∀ {r np}, (s.pc r).forks = some np → np ≠ q := by
    rintro r np hr rfl
    rcases (h.parked r np hr).2.2 with e | e <;> rw [e] at hst <;> revert hst <;> decide
  have hrun : ∀ {r np}, (s.pc r).forks = some np → r ≠ q := by
    rintro r np hr rfl
    rw [hpc] at hr
    cases hr
  exact {
    parked := fun r np hr => by
      simp only [Proc.freeproc, update_of_ne (hne hr)]
      exact h.parked r np hr
    one := h.one
    fresh := fun r np hr => by
      simp only [Proc.freeproc, update_of_ne (hrun hr)]
      exact h.fresh r np hr
    copied := by
      intro r np hr
      change s.pc r = _ at hr
      have e : np ≠ q := hne (by rw [hr]; rfl : (s.pc r).forks = some np)
      simp only [Proc.freeproc, update_of_ne e]
      exact h.copied r np hr
    settled := by
      intro r hr
      have e : r ≠ q := by
        rintro rfl
        exact hr (by simp [Proc.freeproc])
      simp only [Proc.freeproc, update_of_ne e] at hr ⊢
      exact h.settled r hr }

variable {np : Nat}

section
variable (hat : At s c p a) (ha : a.forks = none)
include hat ha

theorem apart {r : Nat}
    (hr : (s.pc r).forks = some np) : r ≠ p ∧ np ≠ p := by
  refine ⟨?_, ?_⟩
  · rintro rfl
    rw [hat.pc, ha] at hr
    cases hr
  · rintro rfl
    exact h.not_forked hat.cpc _ hr

theorem setOwn (mask n : BitVec 32) {t u : Bool}
    (ht : t = true ∨ t = s.traced p ∧ mask = s.smask p) (hu : u = true ∨ u = s.ticketed p ∧ n = s.tickets p) :
    Forking { s with
      smask := update s.smask p mask, traced := update s.traced p t
      tickets := update s.tickets p n, ticketed := update s.ticketed p u } := by
  exact { h with
    fresh := by
      intro r np hr
      have e := h.apart hat ha hr
      simp only [update_of_ne e.1, update_of_ne e.2]
      exact h.fresh r np hr
    copied := by
      intro r np hr
      have e := (h.apart hat ha (r := r) (by rw [hr]; rfl)).2
      simp only [update_of_ne e]
      exact h.copied r np hr
    settled := by
      intro r hr hn
      have hset := h.settled r hr hn
      by_cases e : r = p
      · subst e
        simp only [update_self]
        constructor
        · rcases ht with rfl | ⟨rfl, rfl⟩
          · nofun
          · exact hset.1
        · rcases hu with rfl | ⟨rfl, rfl⟩
          · nofun
          · exact hset.2
      · simp only [update_of_ne e]
        exact hset }

theorem trace (mask : BitVec 32) :
    Forking { s with smask := update s.smask p mask, traced := update s.traced p true } := by
  have := h.setOwn hat ha mask (s.tickets p) (.inl rfl) (.inr ⟨rfl, rfl⟩)
  simpa only [update_eq_self] using this

theorem settickets (n : BitVec 32) :
    Forking { s with tickets := update s.tickets p n, ticketed := update s.ticketed p true } := by
  have := h.setOwn hat ha (s.smask p) n (.inr ⟨rfl, rfl⟩) (.inl rfl)
  simpa only [update_eq_self] using this

end

/-! ## Steps of `fork` -/

theorem alloc (ht : Table s) (hv : Lives s) {i : Nat} (hat : At s c p (.allocproc i))
    (hl : s.plock i = none) (hst : s.state i = .unused) :
    Forking (Proc.goto (allocate s p i) p (.forkParent i)) := by
  have hrun : ∀ c, s.cpc c ≠ .run i := fun c => ht.not_run_of_free hl (by rw [hst]; decide)
  have hi : (s.pc i).forks = none := by rcases hv.unused i hst with e | e <;> rw [e] <;> rfl
  have hpi : p ≠ i := by
    rintro rfl
    exact hrun c hat.cpc
  have hno : ∀ r, (s.pc r).forks ≠ some i := by
    intro r hr
    rcases (h.parked r i hr).2.2 with e | e <;> rw [hst] at e <;> cases e
  have hpc : ∀ {r np}, ((Proc.goto (allocate s p i) p (.forkParent i)).pc r).forks = some np →
      r = p ∧ np = i ∨ r ≠ p ∧ r ≠ i ∧ np ≠ i ∧ (s.pc r).forks = some np := by
    intro r np hr
    simp only [Proc.goto, allocate, update_apply] at hr
    grind [Pc.forks]
  have hkept : ∀ {r np}, (s.pc r).forks = some np →
      ((Proc.goto (allocate s p i) p (.forkParent i)).pc r).forks = some np := by
    intro r np hr
    have hrp := (h.apart hat rfl hr).1
    simp only [Proc.goto, allocate, update_apply]
    grind
  refine ⟨?_, ?_, ?_, ?_, ?_⟩
  · intro r np hr
    rcases hpc hr with ⟨rfl, rfl⟩ | ⟨-, -, hne, hr⟩
    · simp only [Proc.goto, allocate, update_of_ne hpi.symm, update_self]
      exact ⟨trivial, hrun, .inl trivial⟩
    · simp only [Proc.goto, allocate, update_of_ne (h.apart hat rfl hr).2, update_of_ne hne]
      exact h.parked r np hr
  · intro r r' np hr hr'
    rcases hpc hr with ⟨rfl, rfl⟩ | ⟨-, -, hne, hr⟩ <;> rcases hpc hr' with ⟨rfl, hn⟩ | ⟨-, -, hne', hr'⟩
    · rfl
    · exact absurd rfl hne'
    · exact absurd hn hne
    · exact h.one r r' np hr hr'
  · intro r np hr
    rcases hpc hr with ⟨rfl, rfl⟩ | ⟨-, hri, hne, hr⟩
    · simp [Proc.goto, allocate, update_of_ne hpi]
    · simp only [Proc.goto, allocate, update_of_ne hri, update_of_ne hne]
      exact h.fresh r np hr
  · intro r np hr
    have hfork : ((Proc.goto (allocate s p i) p (.forkParent i)).pc r).forks = some np := by rw [hr]; rfl
    rcases hpc hfork with ⟨rfl, rfl⟩ | ⟨hrp, hri, hne, -⟩
    · simp [Proc.goto] at hr
    · simp only [Proc.goto, allocate, update_of_ne hrp, update_of_ne hri] at hr
      simp only [Proc.goto, allocate, update_of_ne hne]
      exact h.copied r np hr
  · intro q hq hn
    have e : q ≠ i := by
      rintro rfl
      exact hn p (by simp [Proc.goto, Pc.forks])
    simp only [Proc.goto, allocate, update_of_ne e] at hq ⊢
    exact h.settled q hq fun r hr => hn r (hkept hr)

theorem same (hat : At s c p a) (ha : a.forks = some np)
    (hb : b.forks = some np) (hcopied : b = .forkTickets np → s.smask np = s.smask0 np) :
    Forking (Proc.goto s p b) :=
  h.forward hat.cpc (by rw [hat.pc, ha, hb]) (by rintro np' rfl; cases hb; exact hcopied rfl)

theorem copySmask (hat : At s c p (.forkSmask np)) : Forking { s with smask := update s.smask np (s.smask p) } := by
  have hp : (s.pc p).forks = some np := by rw [hat.pc]; rfl
  have hnp := (h.parked p np hp).1
  exact { h with
    fresh := by
      intro r np' hr
      have e : r ≠ np := by
        rintro rfl
        rw [hnp] at hr
        cases hr
      simp only [update_of_ne e]
      exact h.fresh r np' hr
    copied := by
      intro r np' hr
      have e : np' ≠ np := by
        rintro rfl
        have := h.one r p np' (by rw [hr]; rfl) hp
        rw [this, hat.pc] at hr
        cases hr
      simp only [update_of_ne e]
      exact h.copied r np' hr
    settled := by
      intro r hr hn
      have e : r ≠ np := by
        rintro rfl
        exact hn p hp
      simp only [update_of_ne e]
      exact h.settled r hr hn }

theorem copyTickets (hat : At s c p (.forkTickets np)) :
    Forking { Proc.goto s p .code with tickets := update s.tickets np (s.tickets p) } := by
  have hp : (s.pc p).forks = some np := by rw [hat.pc]; rfl
  have hnp := (h.parked p np hp).1
  have hold : ∀ {r np'}, ((Proc.goto s p .code).pc r).forks = some np' →
      r ≠ p ∧ r ≠ np ∧ np' ≠ p ∧ np' ≠ np ∧ (s.pc r).forks = some np' := by
    intro r np' hr
    obtain ⟨e, hforks⟩ := of_update (Pc.forks · = some np') hr nofun
    refine ⟨e, ?_, ?_, ?_, hforks⟩
    · rintro rfl
      rw [hnp] at hforks
      cases hforks
    · rintro rfl
      exact h.not_forked hat.cpc r hforks
    · rintro rfl
      exact e (h.one r p np' hforks hp)
  exact {
    parked := by
      intro r np' hr
      obtain ⟨-, -, hne, -, hr⟩ := hold hr
      simp only [Proc.goto, update_of_ne hne]
      exact h.parked r np' hr
    one := fun r r' np' hr hr' => h.one r r' np' (hold hr).2.2.2.2 (hold hr').2.2.2.2
    fresh := by
      intro r np' hr
      obtain ⟨-, hne, -, -, hr⟩ := hold hr
      simp only [Proc.goto, update_of_ne hne]
      exact h.fresh r np' hr
    copied := fun r np' hr => h.copied r np' (eq_of_update hr nofun).2
    settled := by
      intro r hr hn
      by_cases e : r = np
      · subst e
        obtain ⟨-, -, -, htickets⟩ := h.fresh p r hp
        refine ⟨fun _ => h.copied p r hat.pc, fun _ => ?_⟩
        simp only [Proc.goto, update_self]
        exact htickets.symm
      · simp only [Proc.goto, update_of_ne e]
        refine h.settled r hr fun r' hr' => hn r' ?_
        have hne : r' ≠ p := by
          rintro rfl
          rw [hp] at hr'
          exact e (Option.some.inj hr').symm
        simp only [Proc.goto, update_of_ne hne]
        exact hr' }

theorem move (hk : Kernel s) (hm : Move s s')
    (hd : ∀ c q, s'.cpc c = .run q → s.cpc c = .run q ∨ ∀ p, (s.pc p).forks ≠ some q) : Forking s' := by
  have ht := hk.table
  cases hm with
  | select | ret | rel | swtch => exact { h.cpus hd with }
  | dispatch c p hc hl hst =>
    have h1 := h.cpus hd
    have h2 := h1.setState (q := p) .running (by change s.state p ≠ _; rw [hst]; decide)
      (.inr (h1.not_forked (c := c) (by simp [dispatch])))
    exact { h2 with }
  | forkret c p hc hsw hpc => exact { h.goto (b := .code) hc (by rw [hpc]; rfl) rfl with }
  | wokenUp c p chan k hc hsw hpc => exact { h.goto (b := .sleepRelock k) hc (by rw [hpc]; rfl) rfl with }
  | yield c p hr hno hl => exact { h.setState (q := p) .runnable (ht.runs_not_unused hr) (.inl rfl) with }
  | wakeSlot _ _ chan i | devSlot _ chan i => exact { h.wakeSlot chan i with }
  | call c p a hat hno hcall => exact h.step hat rfl (by cases hcall <;> rfl)
  | scan c p a b hat hscan => exact h.step hat (by cases hscan <;> rfl) (by cases hscan <;> rfl)
  | take c p a lk b hat hfree htake =>
    have hb : a.forks = none ∧ b.forks = none := by
      cases htake with
      | sleep k => cases k <;> exact ⟨rfl, rfl⟩
      | _ => exact ⟨rfl, rfl⟩
    exact { h.step hat hb.1 hb.2 with }
  | callSleep _ _ _ _ hat | keep _ _ _ _ hat | waitSkip _ _ _ _ _ _ hat | scanned _ _ _ _ _ hat
  | waitSleep _ _ _ _ hat => exact h.step hat rfl rfl
  | trace c p mask hat => exact h.trace hat rfl mask
  | settickets c p tk hat => exact h.settickets hat rfl _
  | killAwake c p pid i hat => exact { h.step hat (b := .code) rfl rfl with }
  | killAsleep c p pid i hat hl hst =>
    have h1 := h.step hat (b := .code) rfl rfl
    exact { h1.setState (q := i) .runnable (by change s.state i ≠ _; rw [hst]; decide) (.inl rfl) with }
  | alloc c p i hat hi hl hst => exact h.alloc ht hk.lives hat hl hst
  | allocFail c p i hat hl hst =>
    have hi : (s.pc i).forks = none := by rcases hk.lives.unused i hst with e | e <;> rw [e] <;> rfl
    have h1 := h.freeproc (.inl hst) hi
    exact { h1.step (b := .code) ⟨⟨hat.cpc, hat.sw⟩, hat.wake, hat.pc⟩ rfl rfl with }
  | setParent c p np hat hfree => exact { h.same (b := .forkRunnable np) hat rfl rfl (by simp) with }
  | publish c p np hat hl =>
    have hused := ht.made p np (by rw [hat.pc]; rfl)
    have h1 := h.same (b := .forkSmask np) hat rfl rfl (by simp)
    exact { h1.setState (q := np) .runnable (by change s.state np ≠ _; rw [hused]; decide) (.inl rfl) with }
  | copySmask c p np hat =>
    have hp : (s.pc p).forks = some np := by rw [hat.pc]; rfl
    have hmask := (h.fresh p np hp).2.2.1
    have h1 := h.copySmask hat
    have h2 := h1.same (b := .forkTickets np) ⟨⟨hat.cpc, hat.sw⟩, hat.wake, hat.pc⟩ rfl rfl
      fun _ => by simp only [update_self]; exact hmask.symm
    exact { h2 with }
  | copyTickets c p np hat => exact h.copyTickets hat
  | adopt c p status i hat => exact { h.step hat (b := .exitReparent status (i + 1)) rfl rfl with }
  | wakeParent c p status i hat => exact { h.step hat (b := .exitZombie status) rfl rfl with }
  | die c p status hat hl =>
    have h1 := h.step hat (b := .exitUnlock) rfl rfl
    exact { h1.setState (q := p) .zombie (ht.runs_not_unused hat.toRuns) (.inr (h1.not_forked (c := c) hat.cpc)) with }
  | exitUnlock c p hat => exact { h.step hat (b := .zombie) rfl rfl with }
  | reap c p w i havekids hat hpar hl hst =>
    have hi : (s.pc i).forks = none := by
      have := hk.lives.zombie i hst
      cases hpc : s.pc i <;> rw [hpc] at this <;> first | rfl | cases this
    have h1 := h.freeproc (.inr hst) hi
    exact { h1.step (b := .code) ⟨⟨hat.cpc, hat.sw⟩, hat.wake, hat.pc⟩ rfl rfl with }
  | waitReturn c p a hat hin => exact { h.step hat (b := .code) (by cases hin <;> rfl) rfl with }
  | sleepLock c p chan k hat hl => exact { h.step hat (b := .sleepUnlock chan k) rfl rfl with }
  | sleepUnlock c p chan k hat => exact { h.step hat (b := .sleepState chan k) rfl rfl with }
  | sleepState c p chan k hat =>
    have h1 := h.step hat (b := .sleepSched chan k) rfl rfl
    exact { h1.setState (q := p) .sleeping (ht.runs_not_unused hat.toRuns)
      (.inr (h1.not_forked (c := c) hat.cpc)) with }
  | _ => exact { h with }

end

end Forking

variable {s s' : Sys} {pol : Policy}

/-- A child is not dispatched before its parent's `fork` has made its last write to it. -/
def waits (s : Sys) : Event → Bool
  | .sched c _ =>
    match s.cpc c with
    | .pick q => (List.range NPROC).all fun p => s.pc p ≠ .forkSmask q ∧ s.pc p ≠ .forkTickets q
    | _ => true
  | _ => true

/-- A process that executes has the mask and the tickets its parent had at the fork, unless it changed them. -/
def Inherits (s : Sys) : Prop :=
  ∀ c q, At s c q .code →
    (s.traced q = false → s.smask q = s.smask0 q) ∧ (s.ticketed q = false → s.tickets q = s.tickets0 q)

/-- The last steps of `fork` do not overwrite what the child has set. -/
def Undisturbed (pol : Policy) (s : Sys) : Prop :=
  (∀ c p np ok s', At s c p (.forkSmask np) → step s pol (.thread c (.next ok)) = .ok s' → s.traced np = true →
    s'.smask np = s.smask np) ∧
  ∀ c p np ok s', At s c p (.forkTickets np) → step s pol (.thread c (.next ok)) = .ok s' → s.ticketed np = true →
    s'.tickets np = s.tickets np

theorem waits_run {e : Event} (hk : Kernel s) (hw : waits s e = true) (hs : step s pol e = .ok s') (c q : Nat)
    (hr : s'.cpc c = .run q) : s.cpc c = .run q ∨ ∀ p, (s.pc p).forks ≠ some q := by
  refine or_iff_not_imp_left.2 fun hne p hp => ?_
  obtain ⟨hst, hpick, cand, rfl⟩ := step_run hs hr hne
  simp only [waits, hpick, List.all_eq_true, List.mem_range, decide_eq_true_eq] at hw
  have hlt : p < NPROC := by
    refine hk.table.lt fun hun => ?_
    rcases hk.lives.unused p hun with e | e <;> rw [e] at hp <;> cases hp
  have hmade : (s.pc p).making = some q → False := fun hm => by
    rw [hk.table.made p q hm] at hst
    cases hst
  cases hpc : s.pc p <;> rw [hpc] at hp hmade <;> cases hp
  · exact hmade rfl
  · exact hmade rfl
  · exact (hw p hlt).1 hpc
  · exact (hw p hlt).2 hpc

theorem forking_of_waits (h : Reach (fun s e => step s pol e) (· = boot) (fun s e => waits s e = true) s) :
    Kernel s ∧ Forking s :=
  Reach.inv (I := fun s => Kernel s ∧ Forking s) (by rintro _ rfl; exact ⟨Kernel.boot, Forking.boot⟩)
    (fun _ _ _ hI hw hs => ⟨hI.1.move (step_move hs), hI.2.move hI.1 (step_move hs) (waits_run hI.1 hw hs)⟩) h

/-- **A child inherits the mask and the tickets.** In every run that dispatches no child before the last write of its
parent's `fork`: a process that executes and has not changed its mask or its tickets has those of its parent at the
fork, and `fork` overwrites nothing that the child has set. -/
theorem fork_inherits (h : Reach (fun s e => step s pol e) (· = boot) (fun s e => waits s e = true) s) :
    Inherits s ∧ Undisturbed pol s := by
  obtain ⟨hk, hf⟩ := forking_of_waits h
  refine ⟨fun c q hat => ?_, fun c p np ok s' hat _ ht => ?_, fun c p np ok s' hat _ ht => ?_⟩
  · exact hf.settled q (hk.table.runs_not_unused hat.toRuns) (hf.not_forked hat.cpc)
  · have := (hf.fresh p np (by rw [hat.pc]; rfl)).1
    rw [ht] at this
    cases this
  · have := (hf.fresh p np (by rw [hat.pc]; rfl)).2.1
    rw [ht] at this
    cases this

/-- `init` takes five more tickets and forks; its child is dispatched on the second CPU after `n` steps of `fork`. -/
def forkTicketed (n : Nat) : List Event :=
  startInit ++ [Event.thread 0 (.settickets 5), .thread 0 .fork] ++ List.replicate n (Event.thread 0 (.next true)) ++
    [Event.sched 1 1, .sched 1 1, .thread 1 (.next true)]

theorem fork_inherits_tickets :
    (after (fun s e => step s .other e) boot (forkTicketed 6)).tickets 1 =
      (after (fun s e => step s .other e) boot (forkTicketed 6)).tickets0 1 := by
  have hr : Reach (fun s e => step s .other e) (· = boot) (fun s e => waits s e = true)
      (after (fun s e => step s .other e) boot (forkTicketed 6)) :=
    Reach.of_checked _ (.init rfl) (by decide +kernel)
  exact (((fork_inherits hr).1 1 1 ⟨⟨by decide +kernel, by decide +kernel⟩, by decide +kernel, by decide +kernel⟩).2
    (by decide +kernel))

/-- A child that is dispatched as soon as it is RUNNABLE runs without the tickets of its parent, and the mask it sets is
overwritten. -/
theorem child_overtakes_fork :
    (¬ ∀ s, Reached .other s → Inherits s) ∧ ¬ ∀ s, Reached .other s → Undisturbed .other s := by
  have hr : ∀ es, checked (fun s e => step s .other e) (fun _ _ => True) boot es = true →
      Reached .other (after (fun s e => step s .other e) boot es) := fun es hes => Reach.of_checked _ (.init rfl) hes
  refine ⟨fun h => ?_, fun h => ?_⟩
  · have := (h _ (hr (forkTicketed 4) (by decide +kernel)) 1 1
      ⟨⟨by decide +kernel, by decide +kernel⟩, by decide +kernel, by decide +kernel⟩).2 (by decide +kernel)
    revert this
    decide +kernel
  · have hs := step_eq_after (fun s e => step s .other e) (e := .thread 0 (.next true))
      (s := after (fun s e => step s .other e) boot (forkTicketed 4 ++ [.thread 1 (.trace 3)])) (by decide +kernel)
    have := (h _ (hr (forkTicketed 4 ++ [.thread 1 (.trace 3)]) (by decide +kernel))).1 0 0 1 true _
      ⟨⟨by decide +kernel, by decide +kernel⟩, by decide +kernel, by decide +kernel⟩ hs (by decide +kernel)
    revert this
    decide +kernel

end Xv6Riscv.Proc
