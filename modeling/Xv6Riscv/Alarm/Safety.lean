import Xv6Riscv.Alarm.Sigreturn

/-!
# The alarm state machine

`alarmOn`, `alarmContext` and the page behind it agree for every live process (`AlarmOk`), under three conditions
(`Allowed`). Each of them is needed: `alarm_unsafe` has a run without it.
-/
namespace Xv6Riscv.Alarm
open Machine
open Outcome (bind_eq_halt halt_of_bind_ok)
variable {s s' : Sys} {p : Nat} {q : Panic}

/-- The alarm fields of slot `p` are consistent: a context is there exactly while the alarm is on, it
is the page of this process's latest alarm with the frame saved then, and nobody else has it. -/
structure AlarmOk (s : Sys) (p : Nat) : Prop where
  on_iff : (s.proc p).alarmOn = true ↔ (s.proc p).alarmContext ≠ 0
  latest : (s.proc p).alarmContext ≠ 0 →
    s.last (s.proc p).gen = ((s.proc p).alarmContext, s.page (s.proc p).alarmContext)
  foreign : (s.proc p).alarmContext ≠ 0 → Foreign s p (s.proc p).alarmContext

/-- The events the safety theorem covers. -/
structure Allowed (s : Sys) (e : Event) : Prop where
  sigreturn : ∀ p env, e = .ecall p env → (s.proc p).killed = false →
    (s.proc p).user.sysno = .sigreturn → (s.proc p).alarmOn = true
  alarm : ∀ p, e = .tick p → fires (s.proc p) → s.freelist ≠ []
  fork : ∀ p env, e = .ecall p env → (s.proc p).killed = false → (s.proc p).user.sysno = .fork →
    ∀ c, unusedSlot s.state = some c → (s.proc c).alarmContext = 0

/-! ## Steps -/

theorem Micro.alarmOk {l : Label} (hm : Micro s l s') (hi : Inv s) (hp : p < NPROC)
    (h : (s.proc p).state ≠ .unused → AlarmOk s p)
    (hb : l = .birth p → (s.proc p).alarmContext = 0) (hu' : (s'.proc p).state ≠ .unused) : AlarmOk s' p := by
  have hi' := hi.micro hm
  -- the third field is the ownership invariant again
  suffices hmain : ((s'.proc p).alarmOn = true ↔ (s'.proc p).alarmContext ≠ 0) ∧
      ((s'.proc p).alarmContext ≠ 0 →
        s'.last (s'.proc p).gen = ((s'.proc p).alarmContext, s'.page (s'.proc p).alarmContext)) from
    ⟨hmain.1, hmain.2, hi'.foreign hp⟩
  rcases hm.alarm_fields p with h1 | rfl | rfl | rfl | ⟨hon, hctx⟩
  · exact absurd h1 hu'
  · have hctx := hb rfl
    cases hm
    simp [born, claimed, popped, hctx]
  · cases hm with
    | @alarm _ a as _ hu hoff hf =>
      obtain ⟨hon, hctx, hpage⟩ := (delivered_saved hi hp hu hf).pending hu' (by simp [delivered])
      have ha := (delivered_saved hi hp hu hf).nonnull
      rw [hon, hctx, hpage]
      refine ⟨by simpa using ha, fun _ => ?_⟩
      have hne : (s.proc p).trapframe ≠ a := by
        rintro rfl
        exact (hi.not_mem_freelist hp slotOwns_tf ha).1 (by simp [hf])
      simp [delivered, popped, Sys.tf, Sys.setPage, hne]
  · cases hm
    simp [returned]
  · rcases hm.slot hi.nonnull.1 p with h1 | ⟨hu, hg, _⟩ | ⟨rfl, _, _⟩
    · exact absurd h1 hu'
    · have hok := h hu
      rw [hon, hctx, hg]
      refine ⟨hok.on_iff, fun h0 => ?_⟩
      by_cases hl : l = .sigreturn p
      · subst hl
        cases hm
        simp [returned] at hctx
        exact absurd hctx.symm h0
      · obtain ⟨hpage, hlast⟩ := hm.context hi hp hu (hok.on_iff.2 h0) h0 hl
        rw [hlast, hpage]
        exact hok.latest h0
    · have h0 := hb rfl
      cases hm
      simp [born, claimed, popped, h0]

theorem Micro.no_context {l : Label} (hm : Micro s l s') {c : Nat} (hl : l ≠ .alarm c)
    (h : (s.proc c).alarmContext = 0) : (s'.proc c).alarmContext = 0 := by
  have hw := hm.wrote c
  generalize s'.proc c = q at hw
  cases hw with
  | same => exact h
  | field hk => exact hk.alarmContext.trans h
  | death => simpa [cleared] using h
  | stillborn => simpa [cleared, claimed] using h
  | birth => simpa [born, claimed] using h
  | alarm => exact absurd rfl hl
  | sigreturn => simp [returned]

/-- Every live slot is consistent. -/
def Safe (s : Sys) : Prop := ∀ p < NPROC, (s.proc p).state ≠ .unused → AlarmOk s p

theorem Safe.step {e : Event} (h : Safe s) (hi : Inv s) (ha : Allowed s e)
    (he : Alarm.step s e = .ok s') : Safe s' := by
  obtain ⟨ls, hpath, hl⟩ := step_path hi he
  -- an event with a birth is a `fork`, and then no alarm fires in it
  have hbirth : ∀ c, .birth c ∈ ls → (s.proc c).alarmContext = 0 ∧ .alarm c ∉ ls := by
    intro c hm
    obtain ⟨p, env, rfl, hk, hn, hslot⟩ := hl _ hm
    refine ⟨ha.fork p env rfl hk hn c hslot, fun hal => ?_⟩
    obtain ⟨he, _⟩ := hl _ hal
    cases he
  refine (hpath.inv (I := fun s => Inv s ∧ Safe s ∧ ∀ c, .birth c ∈ ls → (s.proc c).alarmContext = 0)
    ?_ ⟨hi, h, fun c hm => (hbirth c hm).1⟩).2.1
  intro s l s' hm ⟨hi, h, h0⟩ hstep
  refine ⟨hi.micro hstep, ?_, ?_⟩
  · intro p hp hu'
    exact hstep.alarmOk hi hp (h p hp) (by rintro rfl; exact h0 p hm) hu'
  · intro c hc
    exact hstep.no_context (by rintro rfl; exact (hbirth c hc).2 hm) (h0 c hc)

theorem Boot.safe (h : Boot s) : Safe s := by
  have h0 : ∀ p, (s.proc p).alarmOn = false ∧ (s.proc p).alarmContext = 0 := by
    intro p
    by_cases e : p = 0
    · subst e; exact h.init_alarm
    · exact (h.others p e).2.2
  intro p _ _
  exact ⟨by simp [h0 p], by simp [h0 p], by simp [h0 p]⟩

/-! ## Where the kernel stops -/

theorem kfree_halt {a : Nat} (h : kfree s a = .halt q) : a = 0 := by
  unfold kfree at h
  split at h
  · assumption
  · cases h

theorem freeproc_no_halt (s : Sys) (c : Nat) (q : Panic) : freeproc s c ≠ .halt q := by
  intro h
  replace h := halt_of_bind_ok h
  split at h
  · rename_i h0; exact h0 (kfree_halt h)
  · cases h

theorem allocproc_no_halt (s : Sys) (b : Bool) (q : Panic) : allocproc s b ≠ .halt q := by
  intro h
  unfold allocproc at h
  split at h
  · cases h
  simp only at h
  split at h
  · exact freeproc_no_halt _ _ _ (halt_of_bind_ok h)
  · split at h
    · cases h
    · exact freeproc_no_halt _ _ _ (halt_of_bind_ok h)

theorem fork_no_halt (s : Sys) (p : Nat) (env : Env) (q : Panic) : fork s p env ≠ .halt q := by
  intro h
  rcases bind_eq_halt.1 h with h | ⟨⟨oc, s1⟩, _, h⟩
  · exact allocproc_no_halt _ _ _ h
  cases oc with
  | none => cases h
  | some c =>
    simp only at h
    split at h
    · cases h
    · exact freeproc_no_halt _ _ _ (halt_of_bind_ok h)

theorem wait_no_halt (s : Sys) (env : Env) (q : Panic) : wait s env ≠ .halt q := by
  intro h
  unfold wait at h
  split at h
  · split at h
    · exact freeproc_no_halt _ _ _ (halt_of_bind_ok h)
    · cases h
  · cases h

theorem exit_halt (h : exit s p = .halt q) : q = .initExiting := by
  unfold exit at h
  split at h <;> cases h
  rfl

theorem usertrapTail_halt (h : usertrapTail s p = .halt q) : q = .initExiting := by
  unfold usertrapTail at h
  split at h
  · exact exit_halt h
  · cases h

theorem sysSigreturn_halt (h : sysSigreturn s p = .halt q) : (s.proc p).alarmContext = 0 := by
  by_contra h0
  rw [sysSigreturn_eq h0] at h
  cases h

theorem syscall_halt {env : Env} (h : syscall s p env = .halt q) :
    q = .initExiting ∨ (s.tf p).sysno = .sigreturn ∧ (s.proc p).alarmContext = 0 := by
  unfold syscall at h
  split at h
  · exact absurd (halt_of_bind_ok h) (fork_no_halt _ _ _ _)
  · exact .inl (exit_halt (halt_of_bind_ok h))
  · exact absurd (halt_of_bind_ok h) (wait_no_halt _ _ _)
  · cases h
  · cases h
  · cases h
  · rename_i hn; exact .inr ⟨hn, sysSigreturn_halt (halt_of_bind_ok h)⟩
  · cases h
  · cases h

theorem usertrapAlarm_halt (h : usertrapAlarm s p = .halt q) : fires (s.proc p) ∧ s.freelist = [] := by
  unfold usertrapAlarm at h
  simp only at h
  split at h
  · cases h
  rename_i hoff
  split at h
  · rename_i hfire
    cases hf : s.freelist with
    | nil => exact ⟨by simpa [fires, hoff] using hfire, rfl⟩
    | cons a as =>
      rw [kalloc_cons (by exact hf)] at h
      cases h
  · cases h

/-- The kernel stops only when init exits, when an alarm finds no page, or when `sigreturn` finds no
context. -/
theorem step_halt {e : Event} (hi : Inv s) (h : step s e = .halt q) :
    q = .initExiting ∨ (∃ p, e = .tick p ∧ fires (s.proc p) ∧ s.freelist = []) ∨
      ∃ p env, e = .ecall p env ∧ isRunning s p ∧ (s.proc p).killed = false ∧
        (s.proc p).user.sysno = .sigreturn ∧ (s.proc p).alarmContext = 0 := by
  cases e <;> simp only [step] at h <;> split at h
  case ecall.isTrue p env hr =>
    simp only [ecall] at h
    split at h
    · exact .inl (exit_halt h)
    rename_i hk
    rcases bind_eq_halt.1 h with h | ⟨⟨b, s1⟩, _, h⟩
    · rcases syscall_halt h with h | ⟨hn, h0⟩
      · exact .inl h
      · refine .inr (.inr ⟨p, env, rfl, hr, by simpa [uservec] using hk, ?_, h0⟩)
        simpa [skipEcall, uservec, Trapframe.sysno] using hn
    · cases b with
      | true => exact .inl (usertrapTail_halt h)
      | false => cases h
  case tick.isTrue p _ =>
    rcases bind_eq_halt.1 h with h | ⟨_, _, h⟩
    · obtain ⟨hf, hfl⟩ := usertrapAlarm_halt h
      exact .inr (.inl ⟨p, rfl, hf, hfl⟩)
    · exact .inl (usertrapTail_halt h)
  case trap.isTrue => exact .inl (usertrapTail_halt h)
  case kput.isTrue hm =>
    rw [kfree_halt h] at hm
    exact absurd hm hi.nonnull.2
  all_goals cases h

/-! ## Safety -/

/-- **The alarm state machine is safe under `Allowed`.** In every state reached: the alarm fields of
every live process are consistent; the next allowed event does not stop the kernel (other than by init
exiting); and a `sigreturn` frees a page that is not free already and resumes the frame this very
process saved at its latest alarm (with `a0` passed through an `int`). -/
theorem alarm_safe {s : Sys} (h : Reach step Boot Allowed s) :
    (∀ p < NPROC, (s.proc p).state ≠ .unused → AlarmOk s p) ∧
    (∀ e q, Allowed s e → step s e = .halt q → q = .initExiting) ∧
    (∀ p env, isRunning s p → (s.proc p).killed = false → (s.proc p).user.sysno = .sigreturn →
      Allowed s (.ecall p env) →
      (s.proc p).alarmContext ∉ s.freelist ∧
      ∃ s', step s (.ecall p env) = .ok s' ∧ (s'.proc p).user =
        (s.last (s.proc p).gen).2.set .a0 (throughInt ((s.last (s.proc p).gen).2.reg .a0))) := by
  have hinv : Inv s ∧ Safe s := h.inv (I := fun s => Inv s ∧ Safe s)
    (fun s hb => ⟨hb.inv, hb.safe⟩) (fun s e s' hI ha he => ⟨hI.1.step he, hI.2.step hI.1 ha he⟩)
  obtain ⟨hi, hsafe⟩ := hinv
  have hctx : ∀ p env, isRunning s p → (s.proc p).killed = false →
      (s.proc p).user.sysno = .sigreturn → Allowed s (.ecall p env) →
      AlarmOk s p ∧ (s.proc p).alarmContext ≠ 0 := by
    intro p env hr hk hn ha
    simp only [isRunning, decide_eq_true_eq] at hr
    have hok := hsafe p hr.1 (by simp [hr.2])
    exact ⟨hok, hok.on_iff.1 (ha.sigreturn p env rfl hk hn)⟩
  refine ⟨hsafe, ?_, ?_⟩
  · intro e q ha hh
    rcases step_halt hi hh with h | ⟨p, rfl, hf, hfl⟩ | ⟨p, env, rfl, hr, hk, hn, h0⟩
    · exact h
    · exact absurd hfl (ha.alarm p rfl hf)
    · exact absurd h0 (hctx p env hr hk hn ha).2
  · intro p env hr hk hn ha
    obtain ⟨hok, h0⟩ := hctx p env hr hk hn ha
    obtain ⟨s', hs', -, huser⟩ := sigreturn_resumes env hi hr hk hn h0
    refine ⟨(hok.foreign h0).free, s', hs', ?_⟩
    rw [huser, hok.latest h0]

/-! ### Runs inside and outside `Allowed` -/

theorem Allowed.user (s : Sys) (p : Nat) (u : Trapframe) : Allowed s (.user p u) :=
  ⟨nofun, nofun, nofun⟩

theorem Allowed.resched (s : Sys) (p : Nat) (st : ProcState) : Allowed s (.resched p st) :=
  ⟨nofun, nofun, nofun⟩

theorem handled_allowed (v : BitVec 64) : Reach step Boot Allowed (handled v) := by
  have h1 : Reach step Boot Allowed (after step booted [.resched 0 .running, .user 0 (calling 23 1 0x40)]) :=
    .step _ (.step _ (.init booted_boot) (.resched _ 0 .running) rfl) (.user _ 0 (calling 23 1 0x40)) rfl
  have hcall : Allowed (after step booted [.resched 0 .running, .user 0 (calling 23 1 0x40)]) (.ecall 0 quiet) := by
    refine ⟨?_, nofun, ?_⟩
    · rintro _ _ ⟨⟩ _ hn
      revert hn
      decide +kernel
    · rintro _ _ ⟨⟩ _ hn
      revert hn
      decide +kernel
  have h2 : Reach step Boot Allowed (interrupted v) :=
    .step _ (.step _ h1 hcall rfl) (.user _ 0 (calling 0 v 0)) rfl
  have htick : Allowed (interrupted v) (.tick 0) := by
    refine ⟨nofun, ?_, nofun⟩
    rintro _ - - h
    cases h
  exact .step _ (.step _ h2 htick (fired_eq v)) (.user _ 0 (calling 24 0 0)) rfl

theorem alarm_safe_handled : ((handled 7).proc 0).alarmOn = true ∧
    ((handled 7).proc 0).alarmContext ≠ 0 ∧ AlarmOk (handled 7) 0 := by
  have hok := (alarm_safe (handled_allowed 7)).1 0 (by decide) (by decide +kernel)
  exact ⟨by decide +kernel, hok.on_iff.1 (by decide +kernel), hok⟩

/-- The first process forks; the child dies inside its handler; the next child gets its slot. -/
def reuse : List Event :=
  [.resched 0 .running, .user 0 (calling 1 0 0), .ecall 0 quiet, .resched 1 .running,
   .user 1 (calling 23 1 0x40), .ecall 1 quiet, .tick 1, .user 1 (calling 2 0 0), .ecall 1 quiet,
   .user 0 (calling 3 0 0), .ecall 0 { quiet with child := some 1 }, .user 0 (calling 1 0 0), .ecall 0 quiet]

/-- `sigreturn` out of the blue. -/
def stray : List Event := [.resched 0 .running, .user 0 (calling 24 0 0)]

/-- `sigalarm(1, 0x40)`, then the last pages go. -/
def exhausted : List Event :=
  [.resched 0 .running, .user 0 (calling 23 1 0x40), .ecall 0 quiet, .kget, .kget]

/-- Without the conditions of `Allowed`: a live process with a context of its slot's last process and no
alarm, a `sigreturn` and a timer tick that copy from or to the null page. -/
theorem alarm_unsafe :
    (∃ s p, Reach step Boot (fun _ _ => True) s ∧ p < NPROC ∧ (s.proc p).state ≠ .unused ∧
      ¬ ((s.proc p).alarmOn = true ↔ (s.proc p).alarmContext ≠ 0)) ∧
    (∃ s p env, Reach step Boot (fun _ _ => True) s ∧ step s (.ecall p env) = .halt .kerneltrap) ∧
    (∃ s p, Reach step Boot (fun _ _ => True) s ∧ step s (.tick p) = .halt .kerneltrap) := by
  have reach : ∀ es, run step booted es = .ok (after step booted es) →
      Reach step Boot (fun _ _ => True) (after step booted es) :=
    fun es h => Reach.of_run (fun _ _ => trivial) es (.init booted_boot) h
  refine ⟨⟨after step booted reuse, 1, reach reuse rfl, by decide, by decide +kernel, ?_⟩,
    ⟨after step booted stray, 0, quiet, reach stray rfl, rfl⟩,
    ⟨after step booted exhausted, 0, reach exhausted rfl, rfl⟩⟩
  decide +kernel

end Xv6Riscv.Alarm
