import Xv6Riscv.Alarm.Invariant

/-!
# Alarm delivery and `sigreturn`

The registers saved by the alarm stay intact until the process itself calls `sigreturn`, whatever the
handler, the other processes and the rest of the kernel do in between (`Saved.step`). What the user
program then gets back is the saved frame with `a0` passed through `int a0` (`sigreturn_resumes`).
-/
namespace Xv6Riscv.Alarm
open Machine
variable {s s' : Sys} {a g p : Nat} {t : Trapframe}

/-! ## The saved context is private -/

/-- While an alarm is pending, its page is nobody else's: it is neither free, nor held by the rest of
the kernel, nor a trapframe, nor another slot's context. -/
structure Foreign (s : Sys) (p a : Nat) : Prop where
  free : a ∉ s.freelist
  held : a ∉ s.held
  frame : ∀ c < NPROC, (s.proc c).state ≠ .unused → (s.proc c).trapframe ≠ a
  context : ∀ c < NPROC, c ≠ p → (s.proc c).alarmContext ≠ a

theorem Inv.foreign (h : Inv s) (hp : p < NPROC) (h0 : (s.proc p).alarmContext ≠ 0) :
    Foreign s p (s.proc p).alarmContext where
  free := (h.not_mem_freelist hp slotOwns_ctx h0).1
  held := (h.not_mem_freelist hp slotOwns_ctx h0).2
  frame c hc hu := by
    by_cases e : c = p
    · subst e
      intro heq
      have h1 := h.unique _ h0
      have h2 := slotOwns_le_owners s c (s.proc c).alarmContext hp
      simp only [slotOwns, heq, ref, if_true] at h2
      omega
    · exact h.ne_of_slots hc hp e slotOwns_tf slotOwns_ctx (h.trapframe c hc hu)
  context c hc e := (h.ne_of_slots hp hc (Ne.symm e) slotOwns_ctx slotOwns_ctx h0).symm

/-- The page of a pending alarm, and what history knows about it, survive every elementary step but
the process's own `sigreturn`. -/
theorem Micro.context {l : Label} (hm : Micro s l s') (hi : Inv s)
    (hp : p < NPROC) (hu : (s.proc p).state ≠ .unused) (hon : (s.proc p).alarmOn = true)
    (h0 : (s.proc p).alarmContext ≠ 0) (hl : l ≠ .sigreturn p) :
    s'.page (s.proc p).alarmContext = s.page (s.proc p).alarmContext ∧
      s'.last (s.proc p).gen = s.last (s.proc p).gen := by
  have hf := hi.foreign hp h0
  generalize (s.proc p).alarmContext = a at *
  have hne : ∀ {b}, b ∈ s.freelist → a ≠ b := fun hb e => hf.free (e ▸ hb)
  cases hm with
  | field => exact ⟨rfl, rfl⟩
  | @frame c t hc huc => exact ⟨setPage_ne _ _ _ _ (hf.frame c hc huc).symm, rfl⟩
  | kget hfl => exact ⟨setPage_ne _ _ _ _ (hne (by simp [hfl])), rfl⟩
  | @kput b hb =>
    have : a ≠ b := by rintro rfl; exact hf.held hb
    exact ⟨setPage_ne _ _ _ _ this, rfl⟩
  | @death c hc huc => exact ⟨setPage_ne _ _ _ _ (hf.frame c hc huc).symm, rfl⟩
  | stillborn => exact ⟨rfl, rfl⟩
  | birth hc huc hfl => exact ⟨setPage_ne _ _ _ _ (hne (by simp [hfl])), rfl⟩
  | @alarm q b as hq huq hoff hfl =>
    have e : p ≠ q := by rintro rfl; simp [hon] at hoff
    have hg : (s.proc p).gen ≠ (s.proc q).gen := fun hg => e (hi.gen_inj p hp q hq hu huq hg)
    have hb : a ≠ b := hne (by simp [hfl])
    have ht : a ≠ (s.proc q).trapframe := (hf.frame q hq huq).symm
    exact ⟨by simp [delivered, popped, Sys.setTf, Sys.setPage, hb, ht], by simp [delivered, popped, hg]⟩
  | @sigreturn q hq huq hctx =>
    have e : p ≠ q := by rintro rfl; exact hl rfl
    have hb : a ≠ (s.proc q).alarmContext := (hf.context q hq (Ne.symm e)).symm
    have ht : a ≠ (s.proc q).trapframe := (hf.frame q hq huq).symm
    exact ⟨by simp [returned, pushed, Sys.setTf, Sys.setPage, hb, ht], rfl⟩

/-- As long as slot `p` holds process `g`, its alarm is pending with the frame `t` saved in page `a`. -/
structure Saved (p g a : Nat) (t : Trapframe) (s : Sys) : Prop where
  slot : p < NPROC
  nonnull : a ≠ 0
  born : g < s.births
  pending : (s.proc p).state ≠ .unused → (s.proc p).gen = g →
    (s.proc p).alarmOn = true ∧ (s.proc p).alarmContext = a ∧ s.page a = t

theorem Saved.micro {l : Label} (h : Saved p g a t s)
    (hi : Inv s) (hl : l ≠ .sigreturn p) (hm : Micro s l s') : Saved p g a t s' where
  slot := h.slot
  nonnull := h.nonnull
  born := h.born.trans_le hm.births.1
  pending hu' hg' := by
    rcases hm.slot hi.nonnull.1 p with h1 | ⟨hu, hg, _⟩ | ⟨_, hg, _⟩
    · exact absurd h1 hu'
    · obtain ⟨hon, rfl, rfl⟩ := h.pending hu (hg ▸ hg')
      obtain ⟨hpage, _⟩ := hm.context hi h.slot hu hon h.nonnull hl
      rcases hm.alarm_fields p with h2 | rfl | rfl | h2 | ⟨hon', hctx'⟩
      · exact absurd h2 hu'
      · cases hm with | birth _ h3 _ => exact absurd h3 hu
      · cases hm with | alarm _ _ hoff _ => simp [hon] at hoff
      · exact absurd h2 hl
      · exact ⟨hon'.trans hon, hctx', hpage⟩
    · have := h.born
      omega

theorem Saved.path {ls : List Label} (h : Saved p g a t s)
    (hi : Inv s) (hl : .sigreturn p ∉ ls) (hp : Path s ls s') : Saved p g a t s' := by
  refine (hp.inv (I := fun s => Inv s ∧ Saved p g a t s) ?_ ⟨hi, h⟩).2
  intro s l s' hm ⟨hi, h⟩ hstep
  exact ⟨hi.micro hstep, h.micro hi (by rintro rfl; exact hl hm) hstep⟩

/-! ## Delivery -/

theorem usertrapAlarm_fires (hf : fires (s.proc p)) (h : usertrapAlarm s p = .ok s') :
    ∃ a as, s.freelist = a :: as ∧ s' = delivered s p a as := by
  simp only [fires, Bool.and_eq_true, Bool.not_eq_true'] at hf
  unfold usertrapAlarm at h
  simp only [hf.1, hf.2, Bool.false_eq_true, if_false, if_true] at h
  cases hfl : s.freelist with
  | nil =>
    rw [kalloc_nil (by exact hfl)] at h
    cases h
  | cons a as =>
    rw [kalloc_cons (by exact hfl)] at h
    cases h
    exact ⟨a, as, rfl, rfl⟩

theorem delivered_saved {as : List Nat} (hi : Inv s) (hp : p < NPROC)
    (hu : (s.proc p).state ≠ .unused) (hf : s.freelist = a :: as) :
    Saved p (s.proc p).gen a (s.tf p) (delivered s p a as) where
  slot := hp
  nonnull := fun e => hi.nonnull.1 (by simp [hf, e])
  born := hi.gen p hp hu
  pending _ _ := by
    have ht := hi.trapframe p hp hu
    have hne : a ≠ (s.proc p).trapframe := by
      rintro rfl
      exact (hi.not_mem_freelist hp slotOwns_tf ht).1 (by simp [hf])
    refine ⟨by simp [delivered], by simp [delivered], ?_⟩
    simp [delivered, popped, Sys.setTf, Sys.setPage, Sys.tf, hne, Ne.symm hne]

theorem tick_saved (hi : Inv s) (hr : isRunning s p) (hf : fires (s.proc p)) (h : step s (.tick p) = .ok s') :
    ∃ a, Saved p (s.proc p).gen a (s.proc p).user s' := by
  simp only [step, hr, if_true] at h
  simp only [isRunning, decide_eq_true_eq] at hr
  obtain ⟨hp, hst⟩ := hr
  have hu : (s.proc p).state ≠ .unused := by simp [hst]
  have hiv : Inv (uservec s p) := hi.micro (.frame hp hu)
  obtain ⟨s1, h1, h2⟩ := Outcome.bind_eq_ok.1 h
  obtain ⟨a, as, hfl, rfl⟩ := usertrapAlarm_fires (s := uservec s p) hf h1
  have hsaved := delivered_saved (s := uservec s p) hiv hp hu hfl
  have huser : (uservec s p).tf p = (s.proc p).user := by simp [uservec]
  have halive : ((delivered (uservec s p) p a as).proc p).state ≠ .unused := by
    simpa [delivered, uservec] using hu
  rw [huser] at hsaved
  have hoff : ((uservec s p).proc p).alarmOn = false := by
    simp only [fires, Bool.and_eq_true, Bool.not_eq_true'] at hf
    exact hf.1
  have hid : Inv (delivered (uservec s p) p a as) := hiv.micro (.alarm hp hu hoff hfl)
  exact ⟨a, hsaved.path hid (by simp) (usertrapTail_path hp halive h2)⟩

/-! ## Return -/

/-- A value that went through a C `int`. -/
def throughInt (v : BitVec 64) : BitVec 64 := (v.setWidth 32).signExtend 64

theorem sysSigreturn_eq (h0 : (s.proc p).alarmContext ≠ 0) : sysSigreturn s p =
      .ok (throughInt ((s.page (s.proc p).alarmContext).reg .a0), returned s p) := by
  simp [sysSigreturn, h0, kfree, throughInt, returned]

theorem returned_tf (hne : (s.proc p).trapframe ≠ (s.proc p).alarmContext) :
    (returned s p).tf p = s.page (s.proc p).alarmContext := by
  simp [returned, pushed, Sys.tf, Sys.setTf, Sys.setPage, hne]

theorem sigreturn_resumes (env : Env) (hi : Inv s) (hr : isRunning s p)
    (hk : (s.proc p).killed = false) (hn : (s.proc p).user.sysno = .sigreturn) (h0 : (s.proc p).alarmContext ≠ 0) :
    ∃ s', step s (.ecall p env) = .ok s' ∧ isRunning s' p ∧ (s'.proc p).user = (s.page (s.proc p).alarmContext).set .a0
        (throughInt ((s.page (s.proc p).alarmContext).reg .a0)) := by
  have hrun := hr
  simp only [isRunning, decide_eq_true_eq] at hrun
  obtain ⟨hp, hst⟩ := hrun
  have hne : (s.proc p).trapframe ≠ (s.proc p).alarmContext :=
    (hi.foreign hp h0).frame p hp (by simp [hst])
  -- the trap saves the handler's registers in the trapframe, not in the context
  let s1 := skipEcall (uservec s p) p
  have hproc : s1.proc = s.proc := rfl
  have hpage : s1.page (s.proc p).alarmContext = s.page (s.proc p).alarmContext := by
    simp [s1, skipEcall, uservec, Sys.setTf, Sys.setPage, hne.symm]
  have hno : (s1.tf p).sysno = .sigreturn := by
    rw [← hn]
    simp [s1, skipEcall, uservec, Trapframe.sysno]
  have hsys : sysSigreturn s1 p =
      .ok (throughInt ((s.page (s.proc p).alarmContext).reg .a0), returned s1 p) := by
    rw [sysSigreturn_eq (by rwa [hproc]), hproc, hpage]
  have htf : (returned s1 p).tf p = s.page (s.proc p).alarmContext := by
    rw [returned_tf (by rwa [hproc]), hproc, hpage]
  have hk' : ((uservec s p).proc p).killed = false := hk
  have hkr : ((returned s1 p).proc p).killed = false := by simpa [returned, hproc] using hk
  have hsr : ((returned s1 p).proc p).state = .running := by simpa [returned, hproc] using hst
  have heq : ecall s p env = .ok (usertrapret ((returned s1 p).setTf p
      (((returned s1 p).tf p).set .a0 (throughInt ((s.page (s.proc p).alarmContext).reg .a0)))) p) := by
    simp only [ecall, hk', Bool.false_eq_true, if_false]
    change (syscall s1 p env).bind _ = _
    simp [syscall, hno, hsys, usertrapTail, hkr]
  refine ⟨_, by simp only [step, hr, if_true]; exact heq, ?_, ?_⟩
  · simp [isRunning, hp, usertrapret, hsr]
  · simp [usertrapret, htf]

theorem set_a0_eq_self {v : BitVec 64} : t.set .a0 v = t ↔ v = t.reg .a0 := by
  constructor
  · intro h
    rw [← h]
    simp [Trapframe.set]
  · rintro rfl
    simp [Trapframe.set]

/-! ## Transparency -/

/-- Everything but a `sigreturn` of process slot `p`. -/
def NoSigreturn (p : Nat) (s : Sys) (e : Event) : Prop :=
  ∀ env, e = .ecall p env → (s.proc p).user.sysno ≠ .sigreturn

theorem Saved.reach {s0 : Sys} (h : Saved p g a t s0) (hi : Inv s0)
    (hr : Reach step (· = s0) (NoSigreturn p) s) : Inv s ∧ Saved p g a t s := by
  refine hr.inv (I := fun s => Inv s ∧ Saved p g a t s) (by rintro s rfl; exact ⟨hi, h⟩) ?_
  intro s e s' ⟨hi, h⟩ hno he
  obtain ⟨ls, hpath, hl⟩ := step_path hi he
  refine ⟨hi.step he, h.path hi ?_ hpath⟩
  intro hm
  obtain ⟨env, rfl, _, hn⟩ := hl _ hm
  exact hno env rfl hn

/-- **Alarm and `sigreturn`.** A tick fires the alarm of a running process; then come any events
but a `sigreturn` of this process; then it calls `sigreturn`. It is back in user mode with the
registers the tick interrupted if and only if the interrupted `a0` survives a C `int`. -/
theorem sigreturn_transparent_iff {s0 s1 s2 : Sys} {p : Nat} (env : Env)
    (h0 : Reach step Boot (fun _ _ => True) s0) (hr : isRunning s0 p) (hf : fires (s0.proc p))
    (ht : step s0 (.tick p) = .ok s1) (hh : Reach step (· = s1) (NoSigreturn p) s2)
    (hr2 : isRunning s2 p) (hg : (s2.proc p).gen = (s0.proc p).gen) (hk : (s2.proc p).killed = false)
    (hn : (s2.proc p).user.sysno = .sigreturn) :
    ∃ s3, step s2 (.ecall p env) = .ok s3 ∧ isRunning s3 p ∧
      ((s3.proc p).user = (s0.proc p).user ↔
        throughInt ((s0.proc p).user.reg .a0) = (s0.proc p).user.reg .a0) := by
  have hi0 := Reach.alarm_inv h0
  obtain ⟨a, hsaved⟩ := tick_saved hi0 hr hf ht
  obtain ⟨hi2, hsaved2⟩ := hsaved.reach (hi0.step ht) hh
  have hu2 : (s2.proc p).state ≠ .unused := by
    simp only [isRunning, decide_eq_true_eq] at hr2
    simp [hr2.2]
  obtain ⟨_, rfl, hpage⟩ := hsaved2.pending hu2 hg
  obtain ⟨s3, h3, hr3, huser⟩ := sigreturn_resumes env hi2 hr2 hk hn hsaved2.nonnull
  rw [hpage] at huser
  exact ⟨s3, h3, hr3, by rw [huser, set_a0_eq_self]⟩

/-! ### One alarm of the first process -/

/-- A freshly booted system with pages 1, 2 and 3. -/
def booted : Sys where
  proc c := { state := if c = 0 then .runnable else .unused, pid := if c = 0 then 1 else 0, killed := false
              trapframe := if c = 0 then 1 else 0, interval := 0, handler := 0, nticks := 0
              alarmOn := false, alarmContext := 0, user := fill 0, gen := 0 }
  nextpid := 2
  page _ := fill 0
  freelist := [2, 3]
  held := []
  births := 1
  last _ := (0, fill 0)

theorem booted_boot : Boot booted where
  init_state := rfl
  init_alarm := ⟨rfl, rfl⟩
  init_gen := ⟨rfl, rfl⟩
  others c hc := by simp [booted, hc]
  pages := by decide
  nonnull := by decide

/-- Registers that ask for system call `num` with these arguments. -/
def calling (num a0 a1 : BitVec 64) : Trapframe := (((fill 0).set .a7 num).set .a0 a0).set .a1 a1

def quiet : Env := ⟨true, true, none, none, 0⟩

/-- `sigalarm(1, 0x40)`, then user code that has `v` in `a0`. -/
def interrupted (v : BitVec 64) : Sys :=
  after step booted [.resched 0 .running, .user 0 (calling 23 1 0x40), .ecall 0 quiet, .user 0 (calling 0 v 0)]

def fired (v : BitVec 64) : Sys := after step (interrupted v) [.tick 0]

/-- The handler is about to call `sigreturn`. -/
def handled (v : BitVec 64) : Sys := after step (fired v) [.user 0 (calling 24 0 0)]

theorem interrupted_reach (v : BitVec 64) : Reach step Boot (fun _ _ => True) (interrupted v) :=
  Reach.of_run (fun _ _ => trivial)
    [.resched 0 .running, .user 0 (calling 23 1 0x40), .ecall 0 quiet, .user 0 (calling 0 v 0)]
    (.init booted_boot) rfl

theorem fired_eq (v : BitVec 64) : step (interrupted v) (.tick 0) = .ok (fired v) := rfl

theorem handled_reach (v : BitVec 64) : Reach step (· = fired v) (NoSigreturn 0) (handled v) :=
  .step (.user 0 (calling 24 0 0)) (.init rfl) (fun _ h => by cases h) rfl

theorem sigreturn_transparent_small : ∃ s3, step (handled 7) (.ecall 0 quiet) = .ok s3 ∧
    isRunning s3 0 ∧ (s3.proc 0).user = ((interrupted 7).proc 0).user := by
  obtain ⟨s3, h3, hr3, hiff⟩ := sigreturn_transparent_iff quiet (interrupted_reach 7)
    (by decide +kernel) (by decide +kernel) (fired_eq 7) (handled_reach 7) (by decide +kernel)
    (by decide +kernel) (by decide +kernel) (by decide +kernel)
  exact ⟨s3, h3, hr3, hiff.2 (by decide +kernel)⟩

/-- `a0 = 0xFFFFFFFF` when the tick comes: the program goes on with `a0 = -1`. -/
theorem sigreturn_not_transparent : ¬ ∀ (s0 s1 s2 s3 : Sys) (p : Nat) (env : Env),
    Reach step Boot (fun _ _ => True) s0 → isRunning s0 p → fires (s0.proc p) →
    step s0 (.tick p) = .ok s1 → Reach step (· = s1) (NoSigreturn p) s2 → isRunning s2 p →
    (s2.proc p).gen = (s0.proc p).gen → (s2.proc p).killed = false →
    (s2.proc p).user.sysno = .sigreturn → step s2 (.ecall p env) = .ok s3 →
    (s3.proc p).user = (s0.proc p).user := by
  intro h
  have huser := h (interrupted 0xFFFFFFFF) (fired 0xFFFFFFFF) (handled 0xFFFFFFFF)
    (after step (handled 0xFFFFFFFF) [.ecall 0 quiet]) 0 quiet (interrupted_reach _)
    (by decide +kernel) (by decide +kernel) (fired_eq _) (handled_reach _) (by decide +kernel)
    (by decide +kernel) (by decide +kernel) (by decide +kernel) rfl
  have ha0 := congrArg (fun t => t.reg .a0) huser
  revert ha0
  decide +kernel

end Xv6Riscv.Alarm
