import Xv6Riscv.Proc.Steps

/-!
# One process, one CPU

A process that runs on a CPU is RUNNING while its lock is free, and while the lock is held it is held by this CPU:
from `sched` until `scheduler` releases it, and from the dispatch until the process does. So a process that is
RUNNABLE under its free lock is on no CPU, which is what the dispatch finds (`one_cpu`).
-/
namespace Xv6Riscv.Proc
open Machine
open Function (update update_self update_of_ne update_eq_self update_eq_self_iff)
variable {st : ProcState} {b : Pc}

/-- `c->proc` at this place. -/
def CpuPc.current : CpuPc → Option Nat
  | .run p | .ret p => some p
  | _ => none

/-- The CPU may hold the lock of process `p`. -/
def CpuPc.Owns (a : CpuPc) (p : Nat) : Prop := a = .run p ∨ a = .ret p ∨ a = .rel p

/-- Where a thread holds its own `p->lock`, with the state the process has there. -/
def Pc.window : Pc → Option ProcState
  | .exitUnlock => some .zombie
  | .sleepUnlock _ _ | .sleepState _ _ => some .running
  | _ => none

/-- The slot that a thread in `fork` has allocated and not yet made RUNNABLE. -/
def Pc.making : Pc → Option Nat
  | .forkParent np | .forkRunnable np => some np
  | _ => none

/-- States of a process that has left its CPU. -/
def Parked : ProcState → Prop
  | .sleeping | .runnable | .zombie => True
  | _ => False

theorem Parked.ne_running (h : Parked st) : st ≠ .running := by rintro rfl; exact h

theorem Parked.ne_unused (h : Parked st) : st ≠ .unused := by rintro rfl; exact h

theorem Parked.ne_used (h : Parked st) : st ≠ .used := by rintro rfl; exact h

variable {a : CpuPc} {p c' : Nat}

theorem CpuPc.not_owns_other {q : Nat} (hp : a.Owns p) (hne : q ≠ p) : ¬ a.Owns q := by
  intro hq
  rcases hp with rfl | rfl | rfl <;> rcases hq with e | e | e <;> cases e <;> exact hne rfl

theorem CpuPc.not_owns_of_idle (h : a.idle = true) : ¬ a.Owns p := by
  rintro (rfl | rfl | rfl) <;> cases h

theorem CpuPc.current_of_idle (h : a.idle = true) : a.current = none := by
  cases a <;> first | rfl | cases h

theorem update_owns {cpc : Nat → CpuPc} {c : Nat} (hold : ¬ (cpc c).Owns p) (hnew : ¬ a.Owns p)
    (c' : Nat) : update cpc c a c' = cpc c' ∨ ¬ (update cpc c a c').Owns p ∧ ¬ (cpc c').Owns p := by
  by_cases e : c' = c
  · subst e
    rw [update_self]
    exact .inr ⟨hnew, hold⟩
  · exact .inl (update_of_ne e ..)

/-- The state and the lock of a process that CPU `c` runs, in front of `a`. -/
def Here (c : Nat) (a : Pc) (st : ProcState) (l : Option Nat) : Switch → Prop
  | .on =>
    match a.window with
    | some st' => l = some c ∧ st = st'
    | none => l = none ∧ st = .running
  | .out => l = some c ∧ Parked st
  | .off => False
  | .back => l = some c ∧ st = .running

structure Table (s : Sys) : Prop where
  cproc : ∀ c, s.cproc c = (s.cpc c).current
  lock : ∀ p c, s.plock p = some c → (s.cpc c).Owns p
  here : ∀ c p, s.cpc c = .run p → Here c (s.pc p) (s.state p) (s.plock p) (s.sw p)
  left : ∀ c p, s.cpc c = .ret p ∨ s.cpc c = .rel p → s.plock p = some c ∧ s.sw p = .off ∧ Parked (s.state p)
  away : ∀ p, (∀ c, s.cpc c ≠ .run p) → s.sw p = .off
  running : ∀ p, s.state p = .running → ∃ c, s.cpc c = .run p
  one : ∀ c c' p, s.cpc c = .run p → s.cpc c' = .run p → c = c'
  window : ∀ p, (s.pc p).window ≠ none → ∃ c, s.cpc c = .run p ∧ s.sw p = .on
  made : ∀ p np, (s.pc p).making = some np → s.state np = .used
  maker : ∀ p p' np, (s.pc p).making = some np → (s.pc p').making = some np → p = p'
  bound : ∀ p, NPROC ≤ p → s.state p = .unused

/-! ## One row of the table -/

/-- What `Table` says about one process. -/
structure Row (cpc : Nat → CpuPc) (p : Nat) (a : Pc) (st : ProcState) (l : Option Nat) (w : Switch) : Prop where
  lock : ∀ c, l = some c → (cpc c).Owns p
  here : ∀ c, cpc c = .run p → Here c a st l w
  left : ∀ c, cpc c = .ret p ∨ cpc c = .rel p → l = some c ∧ w = .off ∧ Parked st
  away : (∀ c, cpc c ≠ .run p) → w = .off
  running : st = .running → ∃ c, cpc c = .run p
  one : ∀ c c', cpc c = .run p → cpc c' = .run p → c = c'
  window : a.window ≠ none → ∃ c, cpc c = .run p ∧ w = .on
  bound : NPROC ≤ p → st = .unused

namespace Row
variable {cpc cpc' : Nat → CpuPc} {c p : Nat} {a : Pc} {l : Option Nat} {w : Switch}

theorem on (hc : cpc c = .run p) (hone : ∀ c', (cpc c').Owns p → c' = c) (hh : Here c a st l w)
    (hw : a.window ≠ none → w = .on) (hb : p < NPROC) : Row cpc p a st l w where
  lock c' hl := by
    have e : c = c' := by
      rw [hl] at hh
      cases w with
      | on =>
        simp only [Here] at hh
        split at hh
        · exact (Option.some.inj hh.1).symm
        · cases hh.1
      | out | back => exact (Option.some.inj hh.1).symm
      | off => exact hh.elim
    rw [← e]
    exact .inl hc
  here c' hc' := by
    rw [hone c' (.inl hc')]
    exact hh
  left c' hc' := by
    rw [hone c' (.inr hc'), hc] at hc'
    rcases hc' with e | e <;> cases e
  away hno := absurd hc (hno c)
  running _ := ⟨c, hc⟩
  one c₁ c₂ h₁ h₂ := (hone c₁ (.inl h₁)).trans (hone c₂ (.inl h₂)).symm
  window ha := ⟨c, hc, hw ha⟩
  bound hge := absurd hb (Nat.not_lt.2 hge)

theorem leaving (hc : cpc c = .ret p ∨ cpc c = .rel p) (hone : ∀ c', (cpc c').Owns p → c' = c) (ha : a.window = none)
    (hst : Parked st) (hb : p < NPROC) : Row cpc p a st (some c) .off where
  lock c' hl := by
    cases hl
    exact .inr hc
  here c' hc' := by
    rw [hone c' (.inl hc')] at hc'
    rcases hc with e | e <;> rw [hc'] at e <;> cases e
  left c' hc' := by
    rw [hone c' (.inr hc')]
    exact ⟨rfl, rfl, hst⟩
  away _ := rfl
  running hrun := absurd hrun hst.ne_running
  one c₁ c₂ h₁ h₂ := (hone c₁ (.inl h₁)).trans (hone c₂ (.inl h₂)).symm
  window hw := absurd ha hw
  bound hge := absurd hb (Nat.not_lt.2 hge)

theorem nowhere (hno : ∀ c, ¬ (cpc c).Owns p) (ha : a.window = none) (hst : st ≠ .running) (hb : p < NPROC) :
    Row cpc p a st none .off where
  lock _ := nofun
  here c hc := absurd (.inl hc) (hno c)
  left c hc := absurd (.inr hc) (hno c)
  away _ := rfl
  running hrun := absurd hrun hst
  one c _ hc := absurd (.inl hc) (hno c)
  window hw := absurd ha hw
  bound hge := absurd hb (Nat.not_lt.2 hge)

theorem congr (h : Row cpc p a st l w) (hc : ∀ c, cpc' c = cpc c ∨ ¬ (cpc' c).Owns p ∧ ¬ (cpc c).Owns p) :
    Row cpc' p a st l w := by
  have hto : ∀ {c}, (cpc' c).Owns p → cpc' c = cpc c := fun ho => (hc _).resolve_right fun hn => hn.1 ho
  have hof : ∀ {c}, (cpc c).Owns p → cpc' c = cpc c := fun ho => (hc _).resolve_right fun hn => hn.2 ho
  exact {
    lock := fun c hl => by rw [hof (h.lock c hl)]; exact h.lock c hl
    here := fun c hr => h.here c ((hto (.inl hr)).symm.trans hr)
    left := fun c hr => h.left c (by rwa [hto (.inr hr)] at hr)
    away := fun hno => h.away fun c hr => hno c ((hof (.inl hr)).trans hr)
    running := fun hst => (h.running hst).imp fun c hr => (hof (.inl hr)).trans hr
    one := fun c c' h₁ h₂ => h.one c c' ((hto (.inl h₁)).symm.trans h₁) ((hto (.inl h₂)).symm.trans h₂)
    window := fun ha => (h.window ha).imp fun c hr => ⟨(hof (.inl hr.1)).trans hr.1, hr.2⟩
    bound := h.bound }

end Row

namespace Table
variable {s s' : Sys} {c p q : Nat}

theorem row (h : Table s) (p : Nat) : Row s.cpc p (s.pc p) (s.state p) (s.plock p) (s.sw p) :=
  ⟨h.lock p, (h.here · p), (h.left · p), h.away p, h.running p, (h.one · · p), h.window p, h.bound p⟩

theorem of_rows (hcproc : ∀ c, s.cproc c = (s.cpc c).current)
    (hrow : ∀ p, Row s.cpc p (s.pc p) (s.state p) (s.plock p) (s.sw p))
    (hmade : ∀ p np, (s.pc p).making = some np → s.state np = .used)
    (hmaker : ∀ p p' np, (s.pc p).making = some np → (s.pc p').making = some np → p = p') : Table s where
  cproc := hcproc
  lock p := (hrow p).lock
  here c p := (hrow p).here c
  left c p := (hrow p).left c
  away p := (hrow p).away
  running p := (hrow p).running
  one c c' p := (hrow p).one c c'
  window p := (hrow p).window
  made := hmade
  maker := hmaker
  bound p := (hrow p).bound

section
variable (h : Table s)
include h

/-- A step that concerns process `p`, which nobody is making, and the CPUs that have it. -/
theorem put (hcproc : ∀ c, s'.cproc c = (s'.cpc c).current)
    (hp : Row s'.cpc p (s'.pc p) (s'.state p) (s'.plock p) (s'.sw p))
    (hcpc : ∀ q, q ≠ p → ∀ c, s'.cpc c = s.cpc c ∨ ¬ (s'.cpc c).Owns q ∧ ¬ (s.cpc c).Owns q)
    (hq : ∀ q, q ≠ p → s'.pc q = s.pc q ∧ s'.state q = s.state q ∧ s'.plock q = s.plock q ∧ s'.sw q = s.sw q)
    (hmk : ∀ r, (s.pc r).making ≠ some p)
    (hmp : ∀ np, (s'.pc p).making = some np → (s.pc p).making = some np) : Table s' := by
  have hm : ∀ {r np}, (s'.pc r).making = some np → (s.pc r).making = some np := by
    intro r np hr
    by_cases e : r = p
    · rw [e] at hr ⊢
      exact hmp np hr
    · rwa [(hq r e).1] at hr
  refine of_rows hcproc (fun q => ?_) (fun r np hr => ?_) fun r r' np hr hr' => h.maker r r' np (hm hr) (hm hr')
  · by_cases e : q = p
    · rw [e]
      exact hp
    · obtain ⟨hpc, hst, hl, hsw⟩ := hq q e
      rw [hpc, hst, hl, hsw]
      exact (h.row q).congr (hcpc q e)
  · have hne : np ≠ p := by rintro rfl; exact hmk r (hm hr)
    rw [(hq np hne).2.1]
    exact h.made r np (hm hr)

/-! ## What the invariant gives -/

theorem lt (hst : s.state p ≠ .unused) : p < NPROC := by
  by_contra hge
  exact hst (h.bound p (Nat.le_of_not_lt hge))

section
variable (hr : Runs s c p)
include hr

theorem runs_unlocked (ha : (s.pc p).window = none) : s.plock p = none ∧ s.state p = .running := by
  have := h.here c p hr.cpc
  rw [hr.sw, Here, ha] at this
  exact this

theorem runs_locked (ha : (s.pc p).window = some st) : s.plock p = some c ∧ s.state p = st := by
  have := h.here c p hr.cpc
  rw [hr.sw, Here, ha] at this
  exact this

theorem runs_state : s.state p = .running ∨ s.state p = .zombie := by
  cases ha : (s.pc p).window with
  | none => exact .inl (h.runs_unlocked hr ha).2
  | some st =>
    rw [(h.runs_locked hr ha).2]
    cases hpc : s.pc p <;> rw [hpc] at ha <;> cases ha <;> decide

theorem runs_not_unused : s.state p ≠ .unused := by
  rcases h.runs_state hr with e | e <;> rw [e] <;> decide

theorem window_of_free (hl : s.plock p = none) : (s.pc p).window = none := by
  cases ha : (s.pc p).window with
  | none => rfl
  | some st =>
    have := (h.runs_locked hr ha).1
    rw [hl] at this
    cases this

end

theorem not_making (hst : s.state q ≠ .used) (r : Nat) : (s.pc r).making ≠ some q :=
  fun hm => hst (h.made r q hm)

section
variable (hl : s.plock p = none)
include hl

theorem run_of_free (hc : s.cpc c = .run p) : s.state p = .running := by
  have hh := h.here c p hc
  rw [hl] at hh
  cases hsw : s.sw p <;> rw [hsw] at hh
  · simp only [Here] at hh
    split at hh
    · cases hh.1
    · exact hh.2
  · cases hh.1
  · exact hh.elim
  · cases hh.1

theorem not_run_of_free (hst : s.state p ≠ .running) : s.cpc c ≠ .run p :=
  fun hc => hst (h.run_of_free hl hc)

theorem not_left_of_free : ¬ (s.cpc c = .ret p ∨ s.cpc c = .rel p) := by
  intro hc
  have := (h.left c p hc).1
  rw [hl] at this
  cases this

theorem not_owned (hst : s.state p ≠ .running) : ¬ (s.cpc c).Owns p := by
  rintro (hc | hc)
  · exact h.not_run_of_free hl hst hc
  · exact h.not_left_of_free hl hc

theorem window_none (hst : s.state p ≠ .running) : (s.pc p).window = none := by
  by_contra hw
  obtain ⟨c, hc, -⟩ := h.window p hw
  exact h.not_run_of_free hl hst hc

end

theorem alone (hc : s.cpc c = .run p) (ho : (s.cpc c').Owns p) : c' = c := by
  rcases ho with ho | ho
  · exact h.one c' c p ho hc
  · have hh := h.here c p hc
    rw [(h.left c' p ho).2.1] at hh
    exact hh.elim

end

/-! ## Moves -/

theorem making_of_update {np : Nat} (hb : b.making = none)
    (hq : (update s.pc p b q).making = some np) : (s.pc q).making = some np :=
  (of_update (Pc.making · = some np) hq (by simp [hb])).2

section
variable (h : Table s)
include h

theorem goto (hw : b.window = (s.pc p).window)
    (hm : ∀ np, b.making = some np → s.state np = .used ∧ ∀ r, r ≠ p → (s.pc r).making ≠ some np) :
    Table (goto s p b) where
  cproc := h.cproc
  lock := h.lock
  here c q hc := by
    have hq := h.here c q hc
    by_cases e : q = p
    · subst e
      simp only [Proc.goto, update_self]
      unfold Here at hq ⊢
      rw [hw]
      exact hq
    · simpa only [Proc.goto, update_of_ne e] using hq
  left := h.left
  away := h.away
  running := h.running
  one := h.one
  window q hq := by
    refine h.window q ?_
    by_cases e : q = p
    · subst e
      simp only [Proc.goto, update_self, hw] at hq
      exact hq
    · simpa only [Proc.goto, update_of_ne e] using hq
  made q np hq := by
    by_cases e : q = p
    · subst e
      simp only [Proc.goto, update_self] at hq
      exact (hm np hq).1
    · simp only [Proc.goto, update_of_ne e] at hq
      exact h.made q np hq
  maker q q' np hq hq' := by
    by_cases e : q = p <;> by_cases e' : q' = p
    · rw [e, e']
    · subst e
      simp only [Proc.goto, update_self, update_of_ne e'] at hq hq'
      exact absurd hq' ((hm np hq).2 q' e')
    · subst e'
      simp only [Proc.goto, update_self, update_of_ne e] at hq hq'
      exact absurd hq ((hm np hq').2 q e)
    · simp only [Proc.goto, update_of_ne e, update_of_ne e'] at hq hq'
      exact h.maker q q' np hq hq'
  bound := h.bound

theorem setState (st : ProcState) (hl : s.plock q = none) (hold : s.state q ≠ .running)
    (hnew : st ≠ .running) (hmk : ∀ r, (s.pc r).making ≠ some q) (hb : q < NPROC) :
    Table { s with state := update s.state q st } := by
  have hno : ∀ c, ¬ (s.cpc c).Owns q := fun _ => h.not_owned hl hold
  refine h.put (p := q) h.cproc ?_ (fun _ _ _ => .inl rfl) (fun r e => ⟨rfl, update_of_ne e .., rfl, rfl⟩) hmk
    fun _ => id
  simp only [update_self, hl, h.away q fun c hc => hno c (.inl hc)]
  exact .nowhere hno (h.window_none hl hold) hnew hb

theorem grab (hr : Runs s c p) (hl : s.plock p = none) (hb : b.window = some st) : Table { s with
      plock := update s.plock p (some c), pc := update s.pc p b
      state := update s.state p st } := by
  have hrun : s.state p = .running := (h.runs_unlocked hr (h.window_of_free hr hl)).2
  have hnm : b.making = none := by cases b <;> first | rfl | cases hb
  refine h.put (p := p) h.cproc ?_ (fun _ _ _ => .inl rfl)
    (fun r e => ⟨update_of_ne e .., update_of_ne e .., update_of_ne e .., rfl⟩) (h.not_making (by rw [hrun]; decide)) ?_
  · simp only [update_self]
    exact .on hr.cpc (fun _ => h.alone hr.cpc) (by rw [hr.sw, Here, hb]; exact ⟨rfl, rfl⟩) (fun _ => hr.sw)
      (h.lt (h.runs_not_unused hr))
  · simp only [update_self, hnm]
    nofun

theorem leave (hr : Runs s c p) (st : ProcState) (hb : b.window = none)
    (hm : b.making = (s.pc p).making) (hst : Parked st) :
    Table { s with
      plock := update s.plock p (some c), pc := update s.pc p b
      state := update s.state p st, sw := update s.sw p .out } := by
  refine h.put (p := p) h.cproc ?_ (fun _ _ _ => .inl rfl)
    (fun r e => ⟨update_of_ne e .., update_of_ne e .., update_of_ne e .., update_of_ne e ..⟩) (h.not_making ?_) ?_
  · simp only [update_self]
    exact .on hr.cpc (fun _ => h.alone hr.cpc) ⟨rfl, hst⟩ (absurd hb) (h.lt (h.runs_not_unused hr))
  · rcases h.runs_state hr with e | e <;> rw [e] <;> decide
  · simp only [update_self, hm]
    exact fun _ => id

theorem resume (hc : s.cpc c = .run p) (hsw : s.sw p = .back) :
    Table { s with sw := update s.sw p .on, plock := update s.plock p none } := by
  have hhere := h.here c p hc
  rw [hsw] at hhere
  have hpc : (s.pc p).window = none := by
    by_contra hlk
    obtain ⟨c', -, hon⟩ := h.window p hlk
    rw [hon] at hsw
    cases hsw
  refine h.put (p := p) h.cproc ?_ (fun _ _ _ => .inl rfl)
    (fun r e => ⟨rfl, rfl, update_of_ne e .., update_of_ne e ..⟩) (h.not_making (by rw [hhere.2]; decide)) fun _ => id
  simp only [update_self]
  exact .on hc (fun _ => h.alone hc) (by rw [Here, hpc]; exact ⟨rfl, hhere.2⟩) (fun _ => rfl)
    (h.lt (by rw [hhere.2]; decide))

theorem select (hc : (s.cpc c).idle = true) (ha : a.idle = true) : Table (setCpc s c a) := by
  refine of_rows (fun c' => ?_) (fun q => (h.row q).congr ?_) h.made h.maker
  · by_cases e : c' = c
    · subst e
      simp only [setCpc, update_self]
      rw [h.cproc, CpuPc.current_of_idle hc, CpuPc.current_of_idle ha]
    · simp only [setCpc, update_of_ne e]
      exact h.cproc c'
  · exact update_owns (CpuPc.not_owns_of_idle hc) (CpuPc.not_owns_of_idle ha)

/-- The scheduler found the process RUNNABLE under its lock, so no CPU has it. -/
theorem dispatch (hc : s.cpc c = .pick p) (hl : s.plock p = none) (hst : s.state p = .runnable) :
    Table (dispatch s c p) := by
  refine h.put (p := p) (fun c' => ?_) ?_ (fun q hq => ?_)
    (fun q e => ⟨rfl, update_of_ne e .., update_of_ne e .., update_of_ne e ..⟩) (h.not_making (by rw [hst]; decide))
    fun _ => id
  · by_cases e : c' = c
    · subst e; simp only [Proc.dispatch, update_self]; rfl
    · simp only [Proc.dispatch, update_of_ne e]; exact h.cproc c'
  · simp only [Proc.dispatch, update_self]
    refine .on (c := c) (update_self ..) (fun c' ho => ?_) ⟨rfl, rfl⟩ ?_ (h.lt (by rw [hst]; decide))
    · by_contra e
      rw [update_of_ne e] at ho
      exact h.not_owned hl (by rw [hst]; decide) ho
    · exact absurd (h.window_none hl (by rw [hst]; decide))
  · exact update_owns (by rw [hc]; exact CpuPc.not_owns_of_idle rfl) (CpuPc.not_owns_other (.inl rfl) hq)

theorem swtch (hc : s.cpc c = .run p) (hsw : s.sw p = .out) : Table (swtch s c p) := by
  have hhere := h.here c p hc
  rw [hsw] at hhere
  refine h.put (p := p) (fun c' => ?_) ?_ (fun q hq => ?_) (fun q e => ⟨rfl, rfl, rfl, update_of_ne e ..⟩)
    (h.not_making hhere.2.ne_used) fun _ => id
  · by_cases e : c' = c
    · subst e
      simp only [Proc.swtch, setCpc, update_self]
      rw [h.cproc, hc]
      rfl
    · simp only [Proc.swtch, setCpc, update_of_ne e]; exact h.cproc c'
  · simp only [Proc.swtch, setCpc, update_self, hhere.1]
    refine .leaving (.inl (update_self ..)) (fun c' ho => ?_) ?_ hhere.2 (h.lt hhere.2.ne_unused)
    · by_contra e
      rw [update_of_ne e] at ho
      exact e (h.alone hc ho)
    · by_contra hw
      obtain ⟨c', -, hon⟩ := h.window p hw
      rw [hon] at hsw
      cases hsw
  · exact update_owns (CpuPc.not_owns_other (.inl hc) hq) (CpuPc.not_owns_other (.inr (.inl rfl)) hq)

/-- The scheduler goes on after `swtch`: `c->proc = 0`, then `release(&p->lock)`. -/
theorem depart {b : CpuPc} {l : Option Nat} (hc : s.cpc c = .ret p ∧ b = .rel p ∧ l = some c ∨
    s.cpc c = .rel p ∧ b = .loop ∧ l = none) :
    Table { setCpc s c b with
      cproc := update s.cproc c none, plock := update s.plock p l } := by
  have hleft : s.cpc c = .ret p ∨ s.cpc c = .rel p := hc.imp (·.1) (·.1)
  obtain ⟨hl, hoff, hpark⟩ := h.left c p hleft
  have hw : (s.pc p).window = none := by
    by_contra hw
    obtain ⟨c', -, hon⟩ := h.window p hw
    rw [hon] at hoff
    cases hoff
  -- the lock of `p` is this CPU's, so no other CPU is concerned with `p`
  have hother : ∀ {c'}, c' ≠ c → ¬ (s.cpc c').Owns p := by
    rintro c' e (ho | ho)
    · have hh := h.here c' p ho
      rw [hoff] at hh
      exact hh
    · exact e (Option.some.inj ((h.left c' p ho).1.symm.trans hl))
  refine h.put (p := p) (fun c' => ?_) ?_ (fun q hq => ?_) (fun q e => ⟨rfl, rfl, update_of_ne e .., rfl⟩)
    (h.not_making hpark.ne_used) fun _ => id
  · by_cases e : c' = c
    · subst e
      simp only [setCpc, update_self]
      rcases hc with ⟨-, rfl, -⟩ | ⟨-, rfl, -⟩ <;> rfl
    · simp only [setCpc, update_of_ne e]; exact h.cproc c'
  · simp only [setCpc, update_self, hoff]
    rcases hc with ⟨-, rfl, rfl⟩ | ⟨-, rfl, rfl⟩
    · refine .leaving (.inr (update_self ..)) (fun c' ho => ?_) hw hpark (h.lt hpark.ne_unused)
      by_contra e
      rw [update_of_ne e] at ho
      exact hother e ho
    · refine .nowhere (fun c' ho => ?_) hw hpark.ne_running (h.lt hpark.ne_unused)
      by_cases e : c' = c
      · rw [e, update_self] at ho
        exact CpuPc.not_owns_of_idle rfl ho
      · rw [update_of_ne e] at ho
        exact hother e ho
  · refine update_owns (CpuPc.not_owns_other (.inr hleft) hq) ?_
    rcases hc with ⟨-, rfl, -⟩ | ⟨-, rfl, -⟩
    · exact CpuPc.not_owns_other (.inr (.inr rfl)) hq
    · exact CpuPc.not_owns_of_idle rfl

theorem ready (hl : s.plock q = none) (hold : s.state q ≠ .running)
    (hmk : ∀ r, (s.pc r).making ≠ some q) (hne : s.state q ≠ .unused) : Table (ready s q) :=
  { h.setState .runnable hl hold (by decide) hmk (h.lt hne) with }

theorem ready_sleeping (hl : s.plock q = none) (hst : s.state q = .sleeping) : Table (Proc.ready s q) :=
  h.ready hl (by rw [hst]; decide) (h.not_making (by rw [hst]; decide)) (by rw [hst]; decide)

theorem wakeSlot (chan : Chan) (hl : s.plock q = none) : Table (wakeSlot s chan q) := by
  unfold Proc.wakeSlot
  split
  · rename_i hg
    exact h.ready_sleeping hl hg.1
  · exact h

theorem freeproc (hl : s.plock q = none) (hst : s.state q = .zombie ∨ s.state q = .unused) : Table (freeproc s q) := by
  have hold : s.state q ≠ .running ∧ s.state q ≠ .used := by rcases hst with e | e <;> rw [e] <;> decide
  by_cases hq : q < NPROC
  · exact { h.setState .unused hl hold.1 (by decide) (h.not_making hold.2) hq with }
  have hst : update s.state q .unused = s.state :=
    update_eq_self_iff.2 (h.bound q (Nat.le_of_not_lt hq)).symm
  unfold Proc.freeproc
  rw [hst]
  exact { h with }

end

theorem boot : Table boot where
  cproc _ := rfl
  lock _ _ := nofun
  here _ _ := nofun
  left _ _ := by rintro (h | h) <;> cases h
  away _ _ := rfl
  running p hp := by
    simp only [Proc.boot] at hp
    split at hp <;> cases hp
  one _ _ _ := nofun
  window _ h := absurd rfl h
  made _ _ := nofun
  maker _ _ _ := nofun
  bound p hp := by
    have hne : p ≠ initproc := by rintro rfl; exact absurd hp (by decide)
    simp only [Proc.boot, if_neg hne]

section
variable (h : Table s)
include h

theorem step {a : Pc} (hat : At s c p a) (hw : b.window = a.window) (hb : b.making = none) :
    Table (Proc.goto s p b) :=
  h.goto (by rw [hat.pc, hw]) fun np hnp => by rw [hb] at hnp; cases hnp

theorem move (hm : Move s s') : Table s' := by
  cases hm with
  | idle => exact h
  | select c a hc ha => exact h.select hc ha
  | dispatch c p hc hl hst => exact h.dispatch hc hl hst
  | ret c p hc =>
    have hl := (h.left c p (.inl hc)).1
    have := h.depart (b := .rel p) (l := some c) (.inl ⟨hc, rfl, rfl⟩)
    rw [update_eq_self_iff.2 hl.symm] at this
    exact this
  | rel c p hc =>
    have hproc : s.cproc c = none := by rw [h.cproc, hc]; rfl
    have := h.depart (b := .loop) (l := none) (.inr ⟨hc, rfl, rfl⟩)
    rw [show update s.cproc c none = s.cproc from update_eq_self_iff.2 hproc.symm] at this
    exact this
  | swtch c p hc hsw => exact h.swtch hc hsw
  | forkret c p hc hsw hpc => exact (h.resume hc hsw).goto (by rw [hpc]; rfl) nofun
  | wokenUp c p chan k hc hsw hpc =>
    exact { (h.resume hc hsw).goto (p := p) (b := .sleepRelock k) (by rw [hpc]; rfl) nofun with }
  | yielded c p hc hsw hy => exact h.resume hc hsw
  | yield c p hr hno hl =>
    have := h.leave hr .runnable (h.window_of_free hr hl) rfl trivial
    rw [show update s.pc p (s.pc p) = s.pc from update_eq_self p s.pc] at this
    exact { this with }
  | wakeSlot _ _ chan _ _ _ _ hl | devSlot _ chan _ _ hl => exact { h.wakeSlot chan hl with }
  | call c p a hat hno hcall => exact h.step hat (by cases hcall <;> rfl) (by cases hcall <;> rfl)
  | scan c p a b hat hscan => exact h.step hat (by cases hscan <;> rfl) (by cases hscan <;> rfl)
  | take c p a lk b hat hfree htake =>
    have hb : b.window = a.window ∧ b.making = none := by
      cases htake with
      | sleep k => cases k <;> exact ⟨rfl, rfl⟩
      | _ => exact ⟨rfl, rfl⟩
    exact { h.step hat hb.1 hb.2 with }
  | callSleep _ _ _ _ hat | keep _ _ _ _ hat | waitSkip _ _ _ _ _ _ hat | scanned _ _ _ _ _ hat
  | waitSleep _ _ _ _ hat => exact h.step hat rfl rfl
  | killAwake _ _ _ _ hat | copyTickets _ _ _ hat => exact { h.step hat (b := .code) rfl rfl with }
  | killAsleep c p pid i hat hl hst =>
    have hat' : At (Proc.ready s i) c p (.kill pid i) := ⟨⟨hat.cpc, hat.sw⟩, hat.wake, hat.pc⟩
    exact { (h.ready_sleeping hl hst).step hat' (b := .code) rfl rfl with }
  | alloc c p i hat hi hl hst =>
    have hne : p ≠ i := by rintro rfl; exact h.runs_not_unused hat.toRuns hst
    have hpc := h.window_none hl (by rw [hst]; decide)
    have hmk := h.not_making (q := i) (by rw [hst]; decide)
    have h1 := h.setState .used hl (by rw [hst]; decide) (by decide) hmk hi
    have h2 := h1.goto (p := i) (b := .forkret) hpc.symm nofun
    have h3 := h2.goto (p := p) (b := .forkParent i)
      (by simp only [Proc.goto, update_of_ne hne, hat.pc]; rfl) (by
        rintro np ⟨⟩
        refine ⟨by simp only [Proc.goto, update_self], fun r _ => ?_⟩
        exact fun hr => hmk r (making_of_update rfl hr))
    exact { h3 with }
  | allocFail c p i hat hl hst =>
    have hat' : At (Proc.freeproc s i) c p (.allocproc i) := ⟨⟨hat.cpc, hat.sw⟩, hat.wake, hat.pc⟩
    exact { (h.freeproc hl (.inr hst)).step hat' (b := .code) rfl rfl with }
  | setParent c p np hat hfree =>
    have hmk : (s.pc p).making = some np := by rw [hat.pc]; rfl
    have := h.goto (p := p) (b := .forkRunnable np) (by rw [hat.pc]; rfl) (by
      rintro np' ⟨⟩
      exact ⟨h.made p np hmk, fun r hne hr => hne (h.maker r p np hr hmk)⟩)
    exact { this with }
  | publish c p np hat hl =>
    have hmk : (s.pc p).making = some np := by rw [hat.pc]; rfl
    have hused := h.made p np hmk
    have h1 := h.step hat (b := .forkSmask np) rfl rfl
    refine h1.ready hl (by change s.state np ≠ _; rw [hused]; decide) (fun r hr => ?_)
      (by change s.state np ≠ _; rw [hused]; decide)
    have hrp : r = p := h.maker r p np (making_of_update rfl hr) hmk
    rw [hrp] at hr
    simp only [Proc.goto, update_self] at hr
    cases hr
  | copySmask c p np hat => exact { h.step hat (b := .forkTickets np) rfl rfl with }
  | adopt c p status i hat hpar => exact { h.step hat (b := .exitReparent status (i + 1)) rfl rfl with }
  | wakeParent c p status i hat hi => exact { h.step hat (b := .exitZombie status) rfl rfl with }
  | die c p status hat hl => exact { h.grab hat.toRuns hl (b := .exitUnlock) rfl with }
  | exitUnlock c p hat =>
    obtain ⟨hl, hst⟩ := h.runs_locked hat.toRuns (by rw [hat.pc]; rfl)
    have := h.leave hat.toRuns (b := .zombie) .zombie rfl (by rw [hat.pc]; rfl) trivial
    rw [show update s.plock p (some c) = s.plock from update_eq_self_iff.2 hl.symm,
      show update s.state p .zombie = s.state from update_eq_self_iff.2 hst.symm] at this
    exact { this with }
  | reap c p w i havekids hat hpar hl hst =>
    have hat' : At (Proc.freeproc s i) c p (.waitScan w i havekids) := ⟨⟨hat.cpc, hat.sw⟩, hat.wake, hat.pc⟩
    exact { (h.freeproc hl (.inl hst)).step hat' (b := .code) rfl rfl with }
  | waitReturn c p a hat hin => exact { h.step hat (b := .code) (by cases hin <;> rfl) rfl with }
  | sleepLock c p chan k hat hl =>
    have hst := (h.runs_unlocked hat.toRuns (by rw [hat.pc]; rfl)).2
    have := h.grab hat.toRuns hl (b := .sleepUnlock chan k) rfl
    rw [show update s.state p .running = s.state from update_eq_self_iff.2 hst.symm] at this
    exact { this with }
  | sleepUnlock c p chan k hat => exact { h.step hat (b := .sleepState chan k) rfl rfl with }
  | sleepState c p chan k hat =>
    obtain ⟨hl, -⟩ := h.runs_locked hat.toRuns (by rw [hat.pc]; rfl)
    have := h.leave hat.toRuns (b := .sleepSched chan k) .sleeping rfl (by rw [hat.pc]; rfl) trivial
    rw [show update s.plock p (some c) = s.plock from update_eq_self_iff.2 hl.symm] at this
    exact { this with }
  | _ => exact { h with }

/-- `c->proc = p` while CPU `c` runs `p`, and then until the scheduler has noticed that `p` left. -/
theorem cproc_eq : s.cproc c = some p ↔ s.cpc c = .run p ∨ s.cpc c = .ret p := by
  rw [h.cproc]
  cases s.cpc c <;> simp [CpuPc.current]

theorem cproc_injective (hc : s.cproc c = some p) (hc' : s.cproc c' = some p) : c = c' := by
  rcases h.cproc_eq.1 hc with e | e <;> rcases h.cproc_eq.1 hc' with e' | e'
  · exact h.one c c' p e e'
  · exact (h.alone e (.inr (.inl e'))).symm
  · exact h.alone e' (.inr (.inl e))
  · have hl := (h.left c p (.inl e)).1
    rw [(h.left c' p (.inl e')).1] at hl
    exact (Option.some.inj hl).symm

theorem running_iff (hl : s.plock p = none) : s.state p = .running ↔ ∃ c, s.cproc c = some p := by
  constructor
  · intro hst
    obtain ⟨c, hc⟩ := h.running p hst
    exact ⟨c, h.cproc_eq.2 (.inl hc)⟩
  · rintro ⟨c, hc⟩
    rcases h.cproc_eq.1 hc with e | e
    · exact h.run_of_free hl e
    · exact absurd (.inl e) (h.not_left_of_free (c := c) hl)

theorem cproc_not_unused (hc : s.cproc c = some p) : s.state p ≠ .unused := by
  rcases h.cproc_eq.1 hc with e | e
  · have hh := h.here c p e
    cases hsw : s.sw p with
    | on => exact h.runs_not_unused ⟨e, hsw⟩
    | out => rw [hsw] at hh; exact hh.2.ne_unused
    | off => rw [hsw] at hh; exact hh.elim
    | back => rw [hsw] at hh; rw [hh.2]; decide
  · exact (h.left c p (.inl e)).2.2.ne_unused

end

end Table

variable {s : Sys} {pol : Policy}

theorem Reached.table (h : Reached pol s) : Table s := Reached.inv Table.boot (fun _ _ => Table.move) h

/-- **One process, one CPU.** Under every selection policy and in every state reached: a process whose lock is free is
RUNNING exactly if one CPU has it as `c->proc`; no two CPUs have the same process; and a free slot is no CPU's. -/
theorem one_cpu (h : Reached pol s) :
    (∀ p, s.plock p = none → (s.state p = .running ↔ ∃! c, s.cproc c = some p)) ∧
      (∀ c c' p, s.cproc c = some p → s.cproc c' = some p → c = c') ∧
      ∀ c p, s.state p = .unused → s.cproc c ≠ some p := by
  have ht := h.table
  refine ⟨fun p hl => ?_, fun c c' p hc hc' => ht.cproc_injective hc hc', fun c p hst hc => ht.cproc_not_unused hc hst⟩
  rw [ht.running_iff hl]
  constructor
  · rintro ⟨c, hc⟩
    exact ⟨c, hc, fun c' hc' => ht.cproc_injective hc' hc⟩
  · rintro ⟨c, hc, -⟩
    exact ⟨c, hc⟩

/-- CPU 0 dispatches `init`, which returns from `forkret`. -/
def startInit : List Event := [.sched 0 0, .sched 0 0, .thread 0 (.next true)]

/-- Its `fork` up to the child's becoming RUNNABLE. -/
def forkOne : List Event :=
  startInit ++ [Event.thread 0 .fork] ++ List.replicate 6 (Event.thread 0 (.next true))

/-- CPU 1 dispatches the child. -/
def twoCpus : List Event := forkOne ++ [.sched 1 1, .sched 1 1, .thread 1 (.next true)]

theorem one_cpu_two : let s := after (fun s e => step s .other e) boot twoCpus
    ∀ p < 2, s.cproc p = some p ∧ ∃! c, s.cproc c = some p := by
  have hr : Reached .other (after (fun s e => step s .other e) boot twoCpus) :=
    Reach.of_checked _ (.init rfl) (by decide +kernel)
  obtain ⟨hcpu, hfree, hrun⟩ : (∀ p < 2, (after (fun s e => step s .other e) boot twoCpus).cproc p = some p) ∧
      (∀ p < 2, (after (fun s e => step s .other e) boot twoCpus).plock p = none) ∧
      ∀ p < 2, (after (fun s e => step s .other e) boot twoCpus).state p = .running := by decide +kernel
  exact fun p hp => ⟨hcpu p hp, ((one_cpu hr).1 p (hfree p hp)).1 (hrun p hp)⟩

end Xv6Riscv.Proc
