import Xv6Riscv.Alarm.Sigreturn

/-!
# The tick counter of `sigalarm`

| here | there |
| --- | --- |
| `Timer` | `p->interval`, `p->handler`, `p->nticks`, `p->alarmOn` (proc.h:114-117) |
| `Timer.next` | what `usertrap` (trap.c:148-162), `sys_sigalarm` and `sys_sigreturn` (sysproc.c:110, 127) do to them |
| `Phase` | what an alarm is for: count `n` ticks, run the handler until `sigreturn`, count again |

`step_timer` reads the effect of any event on the timer of a process off the model; the rest is about two small
machines that see the same acts. The counter is not reset by `sys_sigalarm`, and it runs when no alarm is set, so
the first period is as long as the specification says only if the counter is 0 when the call is made. It is
compared for equality, also with the interval 0: the counter gets there when it wraps.
-/
namespace Xv6Riscv.Alarm
open Machine List
open Outcome (bind_eq_ok bind_ok)

@[ext] structure Timer where
  interval : BitVec 32
  handler : BitVec 64
  nticks : BitVec 32
  alarmOn : Bool

def Proc.timer (q : Proc) : Timer := ⟨q.interval, q.handler, q.nticks, q.alarmOn⟩

variable {t : Timer} {env : Env}

/-- What happens to the timer of a process. -/
inductive Act where
  | tick
  | sigalarm (interval : BitVec 32) (handler : BitVec 64)
  | sigreturn
  | other
deriving DecidableEq

/-- Does the next tick deliver? -/
def Timer.due (t : Timer) : Bool := !t.alarmOn && t.nticks + 1 == t.interval

def Timer.next (t : Timer) : Act → Timer
  | .tick => if t.alarmOn then t else { t with nticks := t.nticks + 1, alarmOn := t.due }
  | .sigalarm interval handler => { t with interval := interval, handler := handler }
  | .sigreturn => { t with nticks := 0, alarmOn := false }
  | .other => t

theorem Timer.next_tick_on (h : t.alarmOn = true) : t.next .tick = t := if_pos h

theorem Timer.next_tick_off (h : t.alarmOn = false) :
    t.next .tick = { t with nticks := t.nticks + 1, alarmOn := t.due } := if_neg (by rw [h]; nofun)

/-- The act of a process that calls the kernel with these registers. -/
def Trapframe.act (u : Trapframe) : Act :=
  match u.sysno with
  | .sigalarm => .sigalarm ((u.reg .a0).setWidth 32) (u.reg .a1)
  | .sigreturn => .sigreturn
  | _ => .other

/-- What the event is for the timer of `p`. -/
def Event.act (s : Sys) (p : Nat) : Event → Act
  | .tick q => if q = p then .tick else .other
  | .ecall q _ => if q = p ∧ (s.proc p).killed = false then (s.proc p).user.act else .other
  | _ => .other

/-! ## The effect of an event -/

section
variable {s s' : Sys} {p c : Nat}

theorem freeproc_ne (hne : p ≠ c) (h : freeproc s c = .ok s') : s'.proc p = s.proc p := by
  obtain ⟨s1, h1, h2⟩ := bind_eq_ok.1 h
  cases h2
  rw [setProc_ne _ _ _ _ hne]
  split at h1
  · obtain ⟨-, rfl⟩ := kfree_ok h1
    rfl
  · cases h1
    rfl

theorem allocproc_ne {ptOk : Bool} {r : Option Nat × Sys} (hu : (s.proc p).state ≠ .unused)
    (h : allocproc s ptOk = .ok r) : r.2.proc p = s.proc p ∧ ∀ c, r.1 = some c → p ≠ c := by
  unfold allocproc at h
  split at h
  · cases h
    exact ⟨rfl, nofun⟩
  next c hslot =>
    have hne : p ≠ c := fun e => hu (e ▸ (unusedSlot_some hslot).2)
    have hclaim : (claimed s c).proc p = s.proc p := claimed_ne _ _ _ hne
    dsimp only at h
    split at h
    · obtain ⟨s1, h1, h2⟩ := bind_eq_ok.1 h
      cases h2
      exact ⟨by rw [freeproc_ne hne h1, setProc_ne _ _ _ _ hne, hclaim], nofun⟩
    next a s1 hk =>
      have hs1 : s1.proc p = s.proc p := by
        unfold kalloc at hk
        split at hk
        · cases hk
        · cases hk
          exact hclaim
      split at h
      · cases h
        exact ⟨by rw [setProc_ne _ _ _ _ hne, hs1], fun d hd => by cases hd; exact hne⟩
      · obtain ⟨s2, h2, h3⟩ := bind_eq_ok.1 h
        cases h3
        exact ⟨by rw [freeproc_ne hne h2, setProc_ne _ _ _ _ hne, hs1], nofun⟩

variable {r : BitVec 64 × Sys}

theorem fork_ne {q : Nat} (hu : (s.proc p).state ≠ .unused) (h : fork s q env = .ok r) : r.2.proc p = s.proc p := by
  obtain ⟨⟨oc, s1⟩, h1, h2⟩ := bind_eq_ok.1 h
  obtain ⟨hsame, hne⟩ := allocproc_ne hu h1
  cases oc with
  | none =>
    cases h2
    exact hsame
  | some c =>
    have hne := hne c rfl
    simp only at h2
    split at h2
    · cases h2
      simp only [usertrapret, setProc_ne _ _ _ _ hne, setTf_proc]
      exact hsame
    · obtain ⟨s2, h3, h4⟩ := bind_eq_ok.1 h2
      cases h4
      rw [freeproc_ne hne h3]
      exact hsame

theorem wait_ne (hz : (s.proc p).state ≠ .zombie) (h : wait s env = .ok r) : r.2.proc p = s.proc p := by
  unfold wait at h
  split at h
  · split at h
    next c hc =>
      obtain ⟨s1, h1, h2⟩ := bind_eq_ok.1 h
      cases h2
      exact freeproc_ne (fun e => hz (e ▸ hc.2)) h1
    next =>
      cases h
      rfl
  · cases h
    rfl

theorem timer_setProc (f : Proc → Proc) (hf : (f (s.proc c)).timer = (s.proc c).timer) (p : Nat) :
    ((s.setProc c f).proc p).timer = (s.proc p).timer := by
  by_cases e : p = c
  · rw [e, setProc_self]
    exact hf
  · rw [setProc_ne _ _ _ _ e]

theorem kill_timer (pid : BitVec 32) (p : Nat) : ((kill s pid).2.proc p).timer = (s.proc p).timer := by
  unfold kill
  split
  · dsimp only
    exact timer_setProc _ rfl p
  · rfl

theorem exit_timer (h : exit s c = .ok s') (p : Nat) : (s'.proc p).timer = (s.proc p).timer := by
  unfold exit at h
  split at h
  · cases h
  · cases h
    exact timer_setProc _ rfl p

theorem usertrapTail_timer (h : usertrapTail s c = .ok s') (p : Nat) : (s'.proc p).timer = (s.proc p).timer := by
  unfold usertrapTail at h
  split at h
  · exact exit_timer h p
  · cases h
    exact timer_setProc _ rfl p

end

/-- The process is there and has not exited. -/
def Alive (s : Sys) (p : Nat) : Prop := (s.proc p).state ≠ .unused ∧ (s.proc p).state ≠ .zombie

variable {s s' s₁ : Sys} {p c j : Nat}

theorem syscall_timer {r : Bool × Sys} (ha : Alive s p) (h : syscall s c env = .ok r) :
    (r.2.proc p).timer = if c = p then (s.proc p).timer.next (s.tf p).act else (s.proc p).timer := by
  have same : (s.tf c).act = .other → (r.2.proc p).timer = (s.proc p).timer →
      (r.2.proc p).timer = if c = p then (s.proc p).timer.next (s.tf p).act else (s.proc p).timer := by
    intro hact hr
    split
    next e =>
      rw [← e, hact, e]
      exact hr
    next => exact hr
  unfold syscall at h
  cases hn : (s.tf c).sysno <;> simp only [hn] at h
  case fork =>
    obtain ⟨x, h1, h2⟩ := bind_eq_ok.1 h
    cases h2
    exact same (by simp [Trapframe.act, hn]) (by rw [setTf_proc, fork_ne ha.1 h1])
  case exit =>
    obtain ⟨x, h1, h2⟩ := bind_eq_ok.1 h
    cases h2
    exact same (by simp [Trapframe.act, hn]) (exit_timer h1 p)
  case wait =>
    obtain ⟨x, h1, h2⟩ := bind_eq_ok.1 h
    cases h2
    exact same (by simp [Trapframe.act, hn]) (by rw [setTf_proc, wait_ne ha.2 h1])
  case kill =>
    cases h
    exact same (by simp [Trapframe.act, hn]) (kill_timer _ p)
  case exec =>
    cases h
    refine same (by simp [Trapframe.act, hn]) ?_
    unfold exec
    split <;> rfl
  case sigalarm =>
    cases h
    rw [setTf_proc]
    split
    next e =>
      subst e
      simp [sysSigalarm, Trapframe.act, hn, Timer.next, Proc.timer]
    next e => rw [sysSigalarm, setProc_ne _ _ _ _ (Ne.symm e)]
  case sigreturn =>
    obtain ⟨x, h1, h2⟩ := bind_eq_ok.1 h
    cases h2
    rw [setTf_proc]
    unfold sysSigreturn at h1
    simp only at h1
    split at h1
    · cases h1
    obtain ⟨s1, hfree, hret⟩ := bind_eq_ok.1 h1
    obtain ⟨-, rfl⟩ := kfree_ok hfree
    cases hret
    split
    next e =>
      subst e
      simp [Trapframe.act, hn, Timer.next, Proc.timer]
    next e =>
      simp only [setProc_ne _ _ _ _ (Ne.symm e)]
      rfl
  case other | unknown =>
    cases h
    exact same (by simp [Trapframe.act, hn]) rfl

theorem ecall_timer (ha : Alive s p) (h : ecall s c env = .ok s') :
    (s'.proc p).timer = (s.proc p).timer.next ((Event.ecall c env).act s p) := by
  unfold ecall at h
  simp only at h
  split at h
  next hk =>
    have hsame : (s'.proc p).timer = (s.proc p).timer := exit_timer (s := uservec s c) h p
    rw [hsame, Event.act, if_neg]
    · rfl
    · rintro ⟨rfl, hk'⟩
      rw [show ((uservec s c).proc c).killed = (s.proc c).killed from rfl, hk'] at hk
      cases hk
  next hk =>
    obtain ⟨⟨b, s2⟩, h1, h2⟩ := bind_eq_ok.1 h
    have hcall := syscall_timer (s := skipEcall (uservec s c) c) (p := p) ha h1
    have htail : (s'.proc p).timer = (s2.proc p).timer := by
      cases b with
      | true => exact usertrapTail_timer h2 p
      | false =>
        cases h2
        rfl
    rw [htail]
    refine hcall.trans ?_
    by_cases e : c = p
    · subst e
      have hact : ((skipEcall (uservec s c) c).tf c).act = (s.proc c).user.act := by
        simp [skipEcall, uservec, Trapframe.act, Trapframe.sysno]
      have hk' : (s.proc c).killed = false := by simpa [uservec] using hk
      rw [if_pos rfl, hact, Event.act, if_pos ⟨rfl, hk'⟩]
      rfl
    · rw [if_neg e, Event.act, if_neg fun h => e h.1]
      rfl

/-- A tick that does not deliver counts, unless a handler is running. -/
def counted (s : Sys) (p : Nat) : Sys :=
  if (s.proc p).alarmOn then s else s.setProc p fun q => { q with nticks := q.nticks + 1 }

theorem usertrapAlarm_quiet (h : fires (s.proc p) = false) : usertrapAlarm s p = .ok (counted s p) := by
  simp only [usertrapAlarm, counted]
  split
  · rfl
  next hoff =>
    have hne : ((s.proc p).nticks + 1 == (s.proc p).interval) = false := by simpa [fires, hoff] using h
    rw [hne]
    rfl

theorem usertrapAlarm_timer (h : usertrapAlarm s c = .ok s') (p : Nat) :
    (s'.proc p).timer = (s.proc p).timer.next ((Event.tick c).act s p) := by
  cases hf : fires (s.proc c) with
  | false =>
    rw [usertrapAlarm_quiet hf] at h
    cases h
    by_cases e : c = p
    · subst e
      rw [Event.act, if_pos rfl, counted]
      split
      next hon => exact (Timer.next_tick_on hon).symm
      next hoff =>
        have hoff : (s.proc c).alarmOn = false := Bool.eq_false_iff.2 hoff
        have hdue : (s.proc c).timer.due = false := hf
        rw [Timer.next_tick_off hoff, hdue, setProc_self, ← hoff]
        rfl
    · rw [Event.act, if_neg e, counted]
      split
      · rfl
      · rw [setProc_ne _ _ _ _ (Ne.symm e)]
        rfl
  | true =>
    obtain ⟨a, as, -, rfl⟩ := usertrapAlarm_fires hf h
    by_cases e : c = p
    · subst e
      have hoff : (s.proc c).alarmOn = false := by
        simp only [fires, Bool.and_eq_true, Bool.not_eq_true'] at hf
        exact hf.1
      have hdue : (s.proc c).timer.due = true := hf
      rw [Event.act, if_pos rfl, Timer.next_tick_off hoff, hdue]
      simp [delivered, Proc.timer]
    · rw [Event.act, if_neg e]
      simp [delivered, setProc_ne _ _ _ _ (Ne.symm e), Timer.next]

theorem tick_timer (h : tick s c = .ok s') (p : Nat) :
    (s'.proc p).timer = (s.proc p).timer.next ((Event.tick c).act s p) := by
  obtain ⟨s1, h1, h2⟩ := bind_eq_ok.1 h
  rw [usertrapTail_timer h2 p]
  exact usertrapAlarm_timer h1 p

/-- **What an event does to the timer of a live process.** -/
theorem step_timer {e : Event} (ha : Alive s p) (h : step s e = .ok s') :
    (s'.proc p).timer = (s.proc p).timer.next (e.act s p) := by
  cases e <;> simp only [step] at h <;> split at h
  case user.isTrue | resched.isTrue =>
    cases h
    exact timer_setProc _ rfl p
  case ecall.isTrue => exact ecall_timer ha h
  case tick.isTrue => exact tick_timer h p
  case trap.isTrue =>
    refine (usertrapTail_timer h p).trans ?_
    split
    · exact timer_setProc _ rfl p
    · rfl
  case h_2 hk =>
    unfold kalloc at hk
    split at hk
    · cases hk
    · cases hk
      cases h
      rfl
  case kput.isTrue =>
    obtain ⟨-, rfl⟩ := kfree_ok h
    rfl
  all_goals cases h

/-! ## Ticks in user mode -/

/-- A tick leaves the process alone: its registers go to the trapframe as they are, and no handler starts. -/
def Leaves (s : Sys) (p : Nat) : Prop :=
  step s (.tick p) ≠ .halt .kerneltrap ∧ ∀ s', step s (.tick p) = .ok s' →
    s'.tf p = (s.proc p).user ∧ (s'.proc p).alarmOn = (s.proc p).alarmOn

/-- A tick saves the registers and sets `epc` to the handler. -/
def Delivers (s : Sys) (p : Nat) (h : BitVec 64) : Prop :=
  step s (.tick p) ≠ .halt .kerneltrap ∧ ∀ s', step s (.tick p) = .ok s' →
    (s'.proc p).alarmOn = true ∧ s'.page (s'.proc p).alarmContext = (s.proc p).user ∧
      s'.tf p = { (s.proc p).user with epc := h }

/-- The end of `usertrap` writes no page, and of the slot only `state` and the user registers. -/
theorem usertrapTail_spec : usertrapTail s p ≠ .halt .kerneltrap ∧
    ∀ s', usertrapTail s p = .ok s' → s'.tf p = s.tf p ∧ s'.page = s.page ∧
      (s'.proc p).alarmOn = (s.proc p).alarmOn ∧ (s'.proc p).alarmContext = (s.proc p).alarmContext := by
  unfold usertrapTail
  split
  · unfold exit
    split
    · exact ⟨by simp, by simp⟩
    · refine ⟨by simp, fun s' h => ?_⟩
      cases h
      simp [Sys.tf]
  · refine ⟨by simp, fun s' h => ?_⟩
    cases h
    simp [usertrapret, Sys.tf]

theorem tick_leaves (hr : isRunning s p) (h : fires (s.proc p) = false) : Leaves s p := by
  have hstep : step s (.tick p) = usertrapTail (counted (uservec s p) p) p := by
    have hq : usertrapAlarm (uservec s p) p = .ok (counted (uservec s p) p) := usertrapAlarm_quiet h
    simp only [step, hr, if_true, tick, hq, bind_ok]
  have htf : (counted (uservec s p) p).tf p = (s.proc p).user ∧
      ((counted (uservec s p) p).proc p).alarmOn = (s.proc p).alarmOn := by
    unfold counted
    split
    · simp [uservec]
    · simp [uservec, Sys.tf, Sys.setTf]
  rw [Leaves, hstep]
  refine ⟨usertrapTail_spec.1, fun s' h' => ?_⟩
  obtain ⟨h1, -, h2, -⟩ := usertrapTail_spec.2 s' h'
  exact ⟨h1.trans htf.1, h2.trans htf.2⟩

theorem usertrapAlarm_delivers {a : Nat} {as : List Nat} (h : fires (s.proc p) = true)
    (hf : s.freelist = a :: as) : usertrapAlarm s p = .ok (delivered s p a as) := by
  simp only [fires, Bool.and_eq_true, Bool.not_eq_true'] at h
  simp only [usertrapAlarm, h.1, h.2, Bool.false_eq_true, if_false, if_true]
  rw [kalloc_cons (by exact hf)]
  rfl

theorem tick_delivers (hi : Inv s) (hr : isRunning s p) (h : fires (s.proc p) = true)
    (hfree : s.freelist ≠ []) : Delivers s p (s.proc p).handler := by
  have hrun := hr
  simp only [isRunning, decide_eq_true_eq] at hrun
  obtain ⟨hp, hst⟩ := hrun
  have hu : (s.proc p).state ≠ .unused := by simp [hst]
  obtain ⟨a, as, hf⟩ := exists_cons_of_ne_nil hfree
  -- the new page is not the trapframe
  have hne : a ≠ (s.proc p).trapframe := by
    rintro rfl
    exact (hi.not_mem_freelist hp slotOwns_tf (hi.trapframe p hp hu)).1 (by simp [hf])
  have halarm : usertrapAlarm (uservec s p) p = .ok (delivered (uservec s p) p a as) := usertrapAlarm_delivers h hf
  have hstep : step s (.tick p) = usertrapTail (delivered (uservec s p) p a as) p := by
    simp only [step, hr, if_true, tick, halarm, bind_ok]
  rw [Delivers, hstep]
  refine ⟨usertrapTail_spec.1, fun s' h' => ?_⟩
  obtain ⟨h1, h2, h3, h4⟩ := usertrapTail_spec.2 s' h'
  rw [h1, h2, h3, h4]
  refine ⟨by simp [delivered], ?_, ?_⟩
  · simp [delivered, popped, uservec, Sys.setTf, Sys.setPage, Sys.tf, hne, Ne.symm hne]
  · simp [delivered, popped, uservec, Sys.setTf, Sys.setPage, Sys.tf, Ne.symm hne]

/-! ## What an alarm is for -/

inductive Phase where
  /-- So many ticks since the call of `sigalarm`, or since `sigreturn`. -/
  | counting (k : Nat)
  | handling
deriving DecidableEq

def Phase.next (n : Nat) : Phase → Act → Phase
  | .counting k, .tick => if k + 1 = n then .handling else .counting (k + 1)
  | .handling, .tick => .handling
  | _, .sigreturn => .counting 0
  | ph, _ => ph

def phase (n : Nat) (as : List Act) : Phase := as.foldl (Phase.next n) (.counting 0)

def Act.isSigalarm : Act → Bool
  | .sigalarm _ _ => true
  | _ => false

/-- A run from `s₁` in which process `p` stays alive, with what it did to the timer of `p`. -/
inductive After (p : Nat) (s₁ : Sys) : List Act → Sys → Prop
  | start : After p s₁ [] s₁
  | step {as : List Act} {s s' : Sys} (e : Event) : After p s₁ as s → Alarm.step s e = .ok s' → Alive s' p →
      After p s₁ (as ++ [e.act s p]) s'

/-- What a tick does in each phase of an alarm `n`, `h`. -/
def OnTime (p : Nat) (n : Nat) (h : BitVec 64) (s : Sys) : Phase → Prop
  | .counting k => if k + 1 = n then Delivers s p h else Leaves s p
  | .handling => Leaves s p

theorem phase_concat (n : Nat) (as : List Act) (a : Act) : phase n (as ++ [a]) = (phase n as).next n a := by
  simp [phase]

section
variable {p : Nat} {s₁ s : Sys} {as : List Act}

theorem After.alive (h : After p s₁ as s) (ha : Alive s₁ p) : Alive s p := by
  cases h with
  | start => exact ha
  | step _ _ _ hl => exact hl

theorem After.inv (h : After p s₁ as s) (hi : Inv s₁) : Inv s := by
  induction h with
  | start => exact hi
  | step _ _ he _ ih => exact ih.step he

theorem After.timer (h : After p s₁ as s) (ha : Alive s₁ p) :
    (s.proc p).timer = as.foldl Timer.next (s₁.proc p).timer := by
  induction h with
  | start => rfl
  | step e hr he _ ih => rw [foldl_concat, ← ih, step_timer (hr.alive ha) he]

end

/-- The timer of an alarm `n` in this phase. -/
structure Timer.At (t₁ t : Timer) (ph : Phase) : Prop where
  interval : t.interval = t₁.interval
  handler : t.handler = t₁.handler
  phase : match ph with
    | .counting k => t.alarmOn = false ∧ t.nticks = BitVec.ofNat 32 k ∧ k < t₁.interval.toNat
    | .handling => t.alarmOn = true

theorem Timer.At.due_iff {t₁ : Timer} {k : Nat} (h : t₁.At t (.counting k)) :
    t.due = true ↔ k + 1 = t₁.interval.toNat := by
  obtain ⟨hoff, hticks, hk⟩ := h.phase
  have h1 : (1 : BitVec 32).toNat = 1 := rfl
  rw [Timer.due, hoff, Bool.not_false, Bool.true_and, beq_iff_eq, hticks, h.interval, ← BitVec.toNat_inj,
    BitVec.toNat_add, BitVec.toNat_ofNat, h1]
  omega

theorem Timer.At.next {t₁ : Timer} {ph : Phase} (h : t₁.At t ph) {a : Act} (ha : a.isSigalarm = false)
    (hn : 0 < t₁.interval.toNat) : t₁.At (t.next a) (ph.next t₁.interval.toNat a) := by
  cases a with
  | tick =>
    cases ph with
    | counting k =>
      obtain ⟨hoff, hticks, hk⟩ := h.phase
      rw [Timer.next_tick_off hoff, Phase.next]
      split
      next hdue => exact ⟨h.interval, h.handler, h.due_iff.2 hdue⟩
      next hdue =>
        refine ⟨h.interval, h.handler, ?_, ?_, by omega⟩
        · exact Bool.eq_false_iff.2 fun h' => hdue (h.due_iff.1 h')
        · rw [hticks, BitVec.ofNat_add]
          rfl
    | handling => rw [Timer.next_tick_on h.phase]; exact ⟨h.interval, h.handler, h.phase⟩
  | sigalarm i h => cases ha
  | sigreturn => cases ph <;> exact ⟨h.interval, h.handler, rfl, rfl, hn⟩
  | other => cases ph <;> exact ⟨h.interval, h.handler, h.phase⟩

theorem timer_phase {as : List Act} (h0 : t.nticks = 0) (hoff : t.alarmOn = false)
    (hn : 0 < t.interval.toNat) (has : ∀ a ∈ as, a.isSigalarm = false) :
    t.At (as.foldl Timer.next t) (phase t.interval.toNat as) := by
  induction as using List.reverseRecOn with
  | nil => exact ⟨rfl, rfl, hoff, h0, hn⟩
  | append_singleton as a ih =>
    rw [foldl_concat, phase_concat]
    exact (ih fun b hb => has b (mem_append_left _ hb)).next (has a (by simp)) hn

theorem toNat_succ {x : BitVec 32} (h : x.toNat + 1 < 2 ^ 32) : (x + 1).toNat = x.toNat + 1 := by
  rw [BitVec.toNat_add, show (1 : BitVec 32).toNat = 1 from rfl]
  omega

theorem Timer.not_due_zero (hz : t.interval = 0) (h : t.nticks.toNat + 1 < 2 ^ 32) : t.due = false := by
  have hne : t.nticks + 1 ≠ 0 := by
    intro h0
    have hsum := toNat_succ h
    rw [h0] at hsum
    exact Nat.succ_ne_zero _ hsum.symm
  rw [Timer.due, hz, beq_eq_false_iff_ne.2 hne, Bool.and_false]

/-- With the interval 0 the counter is due when it wraps, and not before. -/
theorem timer_off {as : List Act} (hz : t.interval = 0) (hoff : t.alarmOn = false)
    (has : ∀ a ∈ as, a.isSigalarm = false) : (as.foldl Timer.next t).interval = 0 ∧
    ∃ k, phase 0 as = .counting k ∧ (t.nticks.toNat + k < 2 ^ 32 →
      (as.foldl Timer.next t).alarmOn = false ∧ (as.foldl Timer.next t).nticks.toNat ≤ t.nticks.toNat + k) := by
  induction as using List.reverseRecOn with
  | nil => exact ⟨hz, 0, rfl, fun _ => ⟨hoff, Nat.le_refl _⟩⟩
  | append_singleton as a ih =>
    obtain ⟨hint, k, hph, hk⟩ := ih fun b hb => has b (mem_append_left _ hb)
    rw [foldl_concat, phase_concat, hph]
    generalize as.foldl Timer.next t = u at hint hk
    cases a with
    | tick =>
      refine ⟨?_, k + 1, by rw [Phase.next, if_neg (Nat.succ_ne_zero k)], fun hlt => ?_⟩
      · unfold Timer.next
        dsimp only
        split <;> exact hint
      · obtain ⟨hu, hle⟩ := hk (by omega)
        have hsum := toNat_succ (x := u.nticks) (by omega)
        rw [Timer.next_tick_off hu]
        exact ⟨Timer.not_due_zero hint (by omega), by dsimp only; omega⟩
    | sigalarm i h => exact absurd (has (.sigalarm i h) (by simp)) nofun
    | sigreturn => exact ⟨hint, 0, rfl, fun _ => ⟨rfl, Nat.zero_le _⟩⟩
    | other => exact ⟨hint, k, rfl, hk⟩

/-! ## `sigalarm` -/

/-- In every run without another `sigalarm` every tick of `p` does what the specification says, given a page for
the registers where it delivers. -/
def Punctual (p n : Nat) (h : BitVec 64) (s₁ : Sys) : Prop :=
  ∀ as s, After p s₁ as s → (∀ a ∈ as, a.isSigalarm = false) → isRunning s p →
    (phase n as = .counting (n - 1) → s.freelist ≠ []) → OnTime p n h s (phase n as)

theorem alive_of_running (h : isRunning s p) : Alive s p := by
  simp only [isRunning, decide_eq_true_eq] at h
  rw [Alive, h.2]
  exact ⟨by simp, by simp⟩

theorem Timer.At.onTime {ph : Phase} (h : (s₁.proc p).timer.At (s.proc p).timer ph)
    (hi : Inv s) (hr : isRunning s p) (hfree : ph = .counting ((s₁.proc p).interval.toNat - 1) → s.freelist ≠ []) :
    OnTime p (s₁.proc p).interval.toNat (s₁.proc p).handler s ph := by
  cases ph with
  | counting k =>
    simp only [OnTime]
    split
    next hk =>
      have hhandler : (s.proc p).handler = (s₁.proc p).handler := h.handler
      rw [← hhandler]
      exact tick_delivers hi hr (h.due_iff.2 hk) (hfree (by rw [← hk, Nat.add_sub_cancel]))
    next hk => exact tick_leaves hr (Bool.eq_false_iff.2 fun h' => hk (h.due_iff.1 h'))
  | handling =>
    have hon : (s.proc p).alarmOn = true := h.phase
    exact tick_leaves hr (by rw [fires, hon]; rfl)

theorem punctual_of_zero (hi : Inv s₁) (hr : isRunning s₁ p) (hn : 0 < (s₁.proc p).interval.toNat)
    (hoff : (s₁.proc p).alarmOn = false) (h0 : (s₁.proc p).nticks = 0) :
    Punctual p (s₁.proc p).interval.toNat (s₁.proc p).handler s₁ := by
  intro as s h has hrun hfree
  have hat := timer_phase (t := (s₁.proc p).timer) h0 hoff hn has
  rw [← h.timer (alive_of_running hr)] at hat
  exact hat.onTime (h.inv hi) hrun hfree

/-- A tick of a process that is not killed brings it back to user mode. -/
theorem tick_ok (hr : isRunning s p) (hk : (s.proc p).killed = false) (hfree : s.freelist ≠ []) :
    ∃ s', step s (.tick p) = .ok s' ∧ isRunning s' p ∧ (s'.proc p).killed = false ∧
      (fires (s.proc p) = false → s'.freelist = s.freelist) := by
  have hrun := hr
  simp only [isRunning, decide_eq_true_eq] at hrun
  -- whatever the alarm branch does, it keeps these fields
  suffices h : ∃ t, usertrapAlarm (uservec s p) p = .ok t ∧ (t.proc p).killed = false ∧ (t.proc p).state = .running ∧
      (fires (s.proc p) = false → t.freelist = s.freelist) by
    obtain ⟨t, ht, htk, hts, htf⟩ := h
    refine ⟨usertrapret t p, ?_, ?_, ?_, htf⟩
    · simp [step, hr, tick, ht, usertrapTail, htk]
    · simp [isRunning, usertrapret, hts, hrun.1]
    · simpa [usertrapret] using htk
  cases hf : fires (s.proc p) with
  | false =>
    refine ⟨_, usertrapAlarm_quiet (s := uservec s p) hf, ?_⟩
    unfold counted
    split
    · exact ⟨hk, hrun.2, fun _ => rfl⟩
    · simp [uservec, hk, hrun.2]
  | true =>
    obtain ⟨a, as, hfl⟩ := exists_cons_of_ne_nil hfree
    exact ⟨delivered (uservec s p) p a as, usertrapAlarm_delivers hf hfl, by simp [delivered, uservec, hk],
      by simp [delivered, uservec, hrun.2], by simp⟩

/-- The state after `j` ticks in a row, none of which delivers. -/
structure Ticked (p : Nat) (s₁ : Sys) (j : Nat) (s : Sys) : Prop where
  after : After p s₁ (List.replicate j .tick) s
  running : isRunning s p
  killed : (s.proc p).killed = false
  freelist : s.freelist = s₁.freelist
  timer : (s.proc p).timer = { (s₁.proc p).timer with nticks := (s₁.proc p).nticks + BitVec.ofNat 32 j }

theorem phase_ticks {n : Nat} (h : j < n) : phase n (List.replicate j .tick) = .counting j := by
  induction j with
  | zero => rfl
  | succ j ih => rw [replicate_succ', phase_concat, ih (by omega), Phase.next, if_neg (by omega)]

theorem Ticked.next (h : Ticked p s₁ j s) (hoff : (s₁.proc p).alarmOn = false)
    (hfree : s₁.freelist ≠ []) (hl : Leaves s p) : ∃ s', Ticked p s₁ (j + 1) s' := by
  have hoff' : (s.proc p).timer.alarmOn = false := by rw [h.timer]; exact hoff
  obtain ⟨s', hs', hr', hk', hf'⟩ := tick_ok h.running h.killed (by rw [h.freelist]; exact hfree)
  have htimer : (s'.proc p).timer = (s.proc p).timer.next .tick := by
    rw [step_timer (alive_of_running h.running) hs', Event.act, if_pos rfl]
  rw [Timer.next_tick_off hoff'] at htimer
  -- the tick left the process alone, so the counter was not due
  have hdue : (s.proc p).timer.due = false := by
    have hon := congrArg Timer.alarmOn htimer
    exact hon.symm.trans ((hl.2 s' hs').2.trans hoff')
  have hact : (Event.tick p).act s p = .tick := if_pos rfl
  have hafter := h.after.step (.tick p) hs' (alive_of_running hr')
  rw [hact, ← replicate_succ'] at hafter
  refine ⟨s', hafter, hr', hk', (hf' hdue).trans h.freelist, ?_⟩
  rw [htimer, hdue, ← hoff', h.timer, BitVec.ofNat_add, ← BitVec.add_assoc]
  rfl

/-- `n` ticks in a row: if they are to deliver at the last one only, the counter starts at 0. -/
theorem zero_of_punctual (hr : isRunning s₁ p) (hk : (s₁.proc p).killed = false)
    (hn : 0 < (s₁.proc p).interval.toNat) (hoff : (s₁.proc p).alarmOn = false) (hfree : s₁.freelist ≠ [])
    (h : Punctual p (s₁.proc p).interval.toNat (s₁.proc p).handler s₁) : (s₁.proc p).nticks = 0 := by
  have honTime : ∀ j s, j < (s₁.proc p).interval.toNat → Ticked p s₁ j s →
      OnTime p (s₁.proc p).interval.toNat (s₁.proc p).handler s (.counting j) := by
    intro j s hj ht
    have hall := h _ s ht.after (fun a ha => by rw [eq_of_mem_replicate ha]; rfl) ht.running
      (fun _ => by rw [ht.freelist]; exact hfree)
    rwa [phase_ticks hj] at hall
  have hticked : ∀ j, j < (s₁.proc p).interval.toNat → ∃ s, Ticked p s₁ j s := by
    intro j hj
    induction j with
    | zero => exact ⟨s₁, .start, hr, hk, rfl, by simp [Proc.timer]⟩
    | succ j ih =>
      obtain ⟨s, hs⟩ := ih (by omega)
      have hl := honTime j s (by omega) hs
      rw [OnTime, if_neg (by omega)] at hl
      exact hs.next hoff hfree hl
  obtain ⟨s, hs⟩ := hticked ((s₁.proc p).interval.toNat - 1) (by omega)
  have hd := honTime _ s (by omega) hs
  rw [OnTime, if_pos (by omega)] at hd
  obtain ⟨s', hs', -, -, -⟩ := tick_ok hs.running hs.killed (by rw [hs.freelist]; exact hfree)
  have hoff' : (s.proc p).timer.alarmOn = false := by rw [hs.timer]; exact hoff
  have htimer : (s'.proc p).timer = (s.proc p).timer.next .tick := by
    rw [step_timer (alive_of_running hs.running) hs', Event.act, if_pos rfl]
  rw [Timer.next_tick_off hoff'] at htimer
  have hdue : (s.proc p).timer.due = true := (congrArg Timer.alarmOn htimer).symm.trans (hd.2 s' hs').1
  -- so the counter has gone up by `n` to `n`
  have hsum : (s₁.proc p).nticks + BitVec.ofNat 32 ((s₁.proc p).interval.toNat - 1) + 1 = (s₁.proc p).interval := by
    rw [Timer.due, hoff', Bool.not_false, Bool.true_and, beq_iff_eq, hs.timer] at hdue
    exact hdue
  have h1 : (1 : BitVec 32).toNat = 1 := rfl
  rw [← BitVec.toNat_inj, BitVec.toNat_add, BitVec.toNat_add, BitVec.toNat_ofNat, h1] at hsum
  refine BitVec.eq_of_toNat_eq ?_
  change (s₁.proc p).nticks.toNat = 0
  omega

theorem sigalarm_returns {s₀ : Sys} (hr : isRunning s₀ p)
    (hn : (s₀.proc p).user.sysno = .sigalarm) (hcall : step s₀ (.ecall p env) = .ok s₁) (hr₁ : isRunning s₁ p) :
    (s₁.proc p).killed = false ∧ (s₁.proc p).timer =
      { (s₀.proc p).timer with
        interval := ((s₀.proc p).user.reg .a0).setWidth 32
        handler := (s₀.proc p).user.reg .a1 } := by
  have hstep := hcall
  simp only [step, hr, if_true, ecall] at hstep
  simp only [isRunning, decide_eq_true_eq] at hr₁
  -- a killed process exits on its way in or out
  have hexit : ∀ s s', exit s p = .ok s' → (s'.proc p).state ≠ .running := by
    intro s s' h
    unfold exit at h
    split at h
    · cases h
    · cases h
      simp
  split at hstep
  next => exact absurd hr₁.2 (hexit _ _ hstep)
  next hk =>
    have hk₀ : (s₀.proc p).killed = false := by simpa [uservec] using hk
    constructor
    · obtain ⟨⟨b, s2⟩, h1, h2⟩ := bind_eq_ok.1 hstep
      have hno : ((skipEcall (uservec s₀ p) p).tf p).sysno = .sigalarm := by
        rw [← hn]
        simp [skipEcall, uservec, Trapframe.sysno]
      simp only [syscall, hno] at h1
      cases h1
      simp only [usertrapTail] at h2
      split at h2
      · exact absurd hr₁.2 (hexit _ _ h2)
      next hk2 =>
        cases h2
        simpa [usertrapret] using hk2
    · rw [step_timer (alive_of_running hr) hcall, Event.act, if_pos ⟨rfl, hk₀⟩, Trapframe.act, hn]
      rfl

/-- **`sigalarm(n, h)`.** It is called with no handler running and returns to user mode. If `n` is not 0, all later
ticks are on time when the tick counter is 0 at the call, and only then. If `n` is 0, no tick delivers as long as the
counter does not wrap. -/
theorem sigalarm_on_time {s₀ s₁ : Sys} {p : Nat} {env : Env} (h₀ : Reach step Boot (fun _ _ => True) s₀)
    (hr : isRunning s₀ p) (hoff : (s₀.proc p).alarmOn = false) (hn : (s₀.proc p).user.sysno = .sigalarm)
    (hcall : step s₀ (.ecall p env) = .ok s₁) (hr₁ : isRunning s₁ p) :
    let n := (((s₀.proc p).user.reg .a0).setWidth 32).toNat
    let h := (s₀.proc p).user.reg .a1
    (0 < n → ((s₀.proc p).nticks = 0 → Punctual p n h s₁) ∧
      (s₁.freelist ≠ [] → Punctual p n h s₁ → (s₀.proc p).nticks = 0)) ∧
    (n = 0 → ∀ as s k, After p s₁ as s → (∀ a ∈ as, a.isSigalarm = false) → isRunning s p →
      phase 0 as = .counting k → (s₀.proc p).nticks.toNat + k + 1 < 2 ^ 32 → Leaves s p) := by
  obtain ⟨hk, ht⟩ := sigalarm_returns hr hn hcall hr₁
  have hint : (s₁.proc p).interval = ((s₀.proc p).user.reg .a0).setWidth 32 := congrArg Timer.interval ht
  have hhan : (s₁.proc p).handler = (s₀.proc p).user.reg .a1 := congrArg Timer.handler ht
  have htic : (s₁.proc p).nticks = (s₀.proc p).nticks := congrArg Timer.nticks ht
  have hoff₁ : (s₁.proc p).alarmOn = false := (congrArg Timer.alarmOn ht).trans hoff
  have hi : Inv s₁ := (Reach.alarm_inv h₀).step hcall
  rw [← hint, ← hhan, ← htic]
  refine ⟨fun hpos => ⟨punctual_of_zero hi hr₁ hpos hoff₁, zero_of_punctual hr₁ hk hpos hoff₁⟩, ?_⟩
  intro hz as s k hafter has hrun hph hlt
  have hz' : (s₁.proc p).timer.interval = 0 := BitVec.eq_of_toNat_eq hz
  obtain ⟨hint', k', hph', hcount⟩ := timer_off (t := (s₁.proc p).timer) hz' hoff₁ has
  rw [← hafter.timer (alive_of_running hr₁)] at hint' hcount
  cases hph'.symm.trans hph
  have hle := (hcount (Nat.lt_of_succ_lt hlt)).2
  exact tick_leaves hrun (Timer.not_due_zero hint' (Nat.lt_of_le_of_lt (Nat.succ_le_succ hle) hlt))

/-! ### `sigalarm(2, 0x40)` by the first process -/

/-- The first process is about to call, after these ticks. -/
def asking (before : List Event) : Sys :=
  after step booted (Event.resched 0 .running :: before ++ [Event.user 0 (calling 23 2 0x40)])

def asked (before : List Event) : Sys := after step (asking before) [.ecall 0 quiet]

theorem sigalarm_on_time_first : Punctual 0 2 0x40 (asked []) := by
  have hreach : Reach step Boot (fun _ _ => True) (asking []) :=
    Reach.of_run (fun _ _ => trivial) [.resched 0 .running, .user 0 (calling 23 2 0x40)] (.init booted_boot) rfl
  have hcall : step (asking []) (.ecall 0 quiet) = .ok (asked []) := rfl
  have hon := sigalarm_on_time hreach (by decide +kernel) rfl (by decide +kernel) hcall (by decide +kernel)
  exact (hon.1 (by decide +kernel)).1 rfl

/-- One tick before the call: the first tick after it delivers, not the second. -/
theorem sigalarm_early : ∃ s₀ s₁, Reach step Boot (fun _ _ => True) s₀ ∧ isRunning s₀ 0 ∧
    (s₀.proc 0).alarmOn = false ∧ (s₀.proc 0).user = calling 23 2 0x40 ∧
    step s₀ (.ecall 0 quiet) = .ok s₁ ∧ isRunning s₁ 0 ∧ s₁.freelist ≠ [] ∧ ¬ Punctual 0 2 0x40 s₁ := by
  have hreach : Reach step Boot (fun _ _ => True) (asking [.tick 0]) :=
    Reach.of_run (fun _ _ => trivial) [.resched 0 .running, .tick 0, .user 0 (calling 23 2 0x40)]
      (.init booted_boot) rfl
  refine ⟨_, asked [.tick 0], hreach, by decide +kernel, rfl, rfl, rfl, by decide +kernel, by decide +kernel, ?_⟩
  intro h
  have hleaves : Leaves (asked [.tick 0]) 0 := h [] _ .start nofun (by decide +kernel) nofun
  have hstep : step (asked [.tick 0]) (.tick 0) = .ok (after step (asked [.tick 0]) [.tick 0]) := rfl
  have hon : ((after step (asked [.tick 0]) [.tick 0]).proc 0).alarmOn = true := by decide +kernel
  have hoff : ((asked [.tick 0]).proc 0).alarmOn = false := by decide +kernel
  have := (hleaves.2 _ hstep).2
  rw [hon, hoff] at this
  cases this

end Xv6Riscv.Alarm
