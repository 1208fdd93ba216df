import Xv6Riscv.Mlfq.FullQueue

/-!
# Time slices (trap.c:164-168, 197-204)

A process has used up its slice at level `pr` when `rticks` is `1 << pr`; the test is for equality, after each
user-mode tick. `rticks` is kept when the process is preempted or sleeps, and aging lowers `pr` without
touching it: a process that goes up with `rticks` at or above the new slice steps over the value that is
tested for, and is not demoted any more (`slice_overrun`).
-/
namespace Xv6Riscv.Mlfq
open Machine SlotArray

variable {s s' : Sys} {e : Event} {p c k : Nat}

/-- After `userinit`, with the counters of the first process zero. -/
structure Start (s : Sys) : Prop extends Boot s where
  rticks : (s.proc 0).rticks = 0

/-- The process may still run. -/
def Proc.Live (q : Proc) : Prop := q.state ≠ .unused ∧ q.state ≠ .zombie

/-- The slice of its level is not used up. -/
def Proc.InSlice (q : Proc) : Prop := q.pr < NPR ∧ q.rticks.toNat < 2 ^ q.pr

/-- When the aging loop moves a process up, its ticks are within the slice of the level it goes to. -/
def AgesInSlice (s : Sys) (e : Event) : Prop :=
  e = .sched → ∀ i j, s.pc = .age i j → ∀ fp, s.entry i j = some fp → 30 ≤ (s.proc fp).wticks.toInt →
    (s.proc fp).rticks.toNat < 2 ^ ((s.proc fp).pr - 1)

/-! ## What a step does to one slot -/

/-- What event `e` makes of slot `c`. -/
inductive SlotStep (s : Sys) (e : Event) (c : Nat) (q : Proc) : Prop
  | same (live : q.Live → (s.proc c).Live) (zombie : (s.proc c).state = .zombie → q.state = .zombie)
      (rticks : q.rticks = (s.proc c).rticks) (pr : q.pr = (s.proc c).pr)
  /-- A killed process exits at the tick. -/
  | exits (ev : e = .utick) (pc : s.pc = .running c) (zombie : q.state = .zombie)
  | ticks (ev : e = .utick) (pc : s.pc = .running c) (ne : (s.proc c).rticks + 1 ≠ 1 <<< (s.proc c).pr)
      (rticks : q.rticks = (s.proc c).rticks + 1) (pr : q.pr = (s.proc c).pr)
  | expires (ev : e = .utick) (pc : s.pc = .running c) (eq : (s.proc c).rticks + 1 = 1 <<< (s.proc c).pr)
      (rticks : q.rticks = 0) (pr : q.pr = if (s.proc c).pr = 4 then (s.proc c).pr else (s.proc c).pr + 1)
  | ages (i j : Nat) (ev : e = .sched) (pc : s.pc = .age i j) (entry : s.entry i j = some c)
      (waited : 30 ≤ (s.proc c).wticks.toInt) (state : q.state = (s.proc c).state)
      (rticks : q.rticks = (s.proc c).rticks) (pr : q.pr = (promote (s.proc c)).pr) (lt : q.pr < NPR)
  | freed (ev : e = .call (.free c)) (state : q.state = .unused)
  | born (state : (s.proc c).state = .unused) (rticks : q.rticks = 0) (pr : q.pr = 0)

theorem SlotStep.of_eq {q : Proc} (hs : q.state = (s.proc c).state) (ht : q.rticks = (s.proc c).rticks)
    (hp : q.pr = (s.proc c).pr) : SlotStep s e c q :=
  .same (fun h => by rwa [Proc.Live, ← hs]) (fun h => hs.trans h) ht hp

/-- A process that may run keeps its ticks and its level. -/
theorem SlotStep.of_live {q : Proc} (hl : (s.proc c).Live) (ht : q.rticks = (s.proc c).rticks)
    (hp : q.pr = (s.proc c).pr) : SlotStep s e c q :=
  .same (fun _ => hl) (fun hz => absurd hz hl.2) ht hp

theorem SlotStep.refl : SlotStep s e c (s.proc c) := .of_eq rfl rfl rfl

theorem slotStep_setProc {f : Proc → Proc} (h : SlotStep s e p (f (s.proc p))) (c : Nat) :
    SlotStep s e c ((s.setProc p f).proc c) := by
  by_cases hc : c = p
  · subst hc
    rw [setProc_self]
    exact h
  · rw [setProc_ne _ _ _ _ hc]
    exact .refl

theorem sched_slot (h : step s .sched = .ok s') (c : Nat) : SlotStep s .sched c (s'.proc c) := by
  cases sched_cases h with
  | move => exact .refl
  | queue _ _ hq =>
    rw [goto_proc, (queueProc_proc hq).1]
    exact .refl
  | @age i j fp s1 s2 hpc hentry hw hd hq =>
    obtain ⟨hproc2, -, hlt⟩ := queueProc_proc hq
    obtain ⟨hproc1, -⟩ := dequeueProc_proc hd
    rw [setProc_self, hproc1] at hlt
    rw [goto_proc, hproc2]
    by_cases hc : c = fp
    · subst hc
      rw [setProc_self, hproc1]
      exact .ages i j rfl hpc hentry hw rfl rfl rfl hlt
    · rw [setProc_ne _ _ _ _ hc, hproc1]
      exact .refl
  | drop hd =>
    rw [goto_proc, (dequeueProc_proc hd).1]
    exact .refl
  | @run i j fp s1 hd hst =>
    obtain ⟨hproc1, -⟩ := dequeueProc_proc hd
    rw [hproc1] at hst
    rw [schedule, goto_proc]
    by_cases hc : c = fp
    · subst hc
      rw [setProc_self, hproc1]
      exact .of_live (by simp [Proc.Live, hst]) rfl rfl
    · rw [setProc_ne _ _ _ _ hc, hproc1]
      exact .refl

/-- The CPU runs a process that is RUNNING. -/
def OnCpu (s : Sys) : Prop := ∀ p, s.pc = .running p → (s.proc p).state = .running

theorem preempt_proc (s : Sys) (p i : Nat) : (∀ c, c ≠ p → (preempt s p i).proc c = s.proc c) ∧
    ∃ st r, (preempt s p i).proc p = { s.proc p with state := st, resume := r } ∧
      (((preempt s p i).pc = .enqueue 0 ∧ st = .runnable) ∨ (preempt s p i).pc = s.pc ∧ st = (s.proc p).state) := by
  unfold preempt
  split
  next k hk =>
    refine ⟨fun c hc => ?_, .runnable, some (k + 1), ?_, .inl ⟨rfl, rfl⟩⟩
    · rw [yield, sched, goto_proc, setProc_ne _ _ _ _ hc, setProc_ne _ _ _ _ hc]
    · rw [yield, sched, goto_proc, setProc_self, setProc_self]
  next hk =>
    exact ⟨fun c hc => setProc_ne _ _ _ _ hc, (s.proc p).state, none, setProc_self .., .inr ⟨rfl, rfl⟩⟩

/-- `usertrap` for a timer interrupt: the process exits, its slice ends, or it has one more tick. -/
theorem usertrap_proc (h : usertrap s p = .ok s') :
    (∀ c, c ≠ p → ∃ w, s'.proc c = { s.proc c with wticks := w }) ∧
    ((s'.pc = .enqueue 0 ∧ (s'.proc p).state = .zombie) ∨
      ((s.proc p).rticks + 1 = 1 <<< (s.proc p).pr ∧ s'.pc = .enqueue 0 ∧ (s'.proc p).rticks = 0 ∧
        (s'.proc p).pr = if (s.proc p).pr = 4 then (s.proc p).pr else (s.proc p).pr + 1) ∨
      ((s.proc p).rticks + 1 ≠ 1 <<< (s.proc p).pr ∧ (s'.proc p).rticks = (s.proc p).rticks + 1 ∧
        (s'.proc p).pr = (s.proc p).pr ∧
        (s'.pc = .enqueue 0 ∨ s'.pc = s.pc ∧ (s'.proc p).state = (s.proc p).state))) := by
  obtain ⟨hpc, -, hproc⟩ := bumpAll_spec (s.setProc p fun q => { q with rticks := q.rticks + 1 })
  have hother : ∀ c, c ≠ p → ∃ w,
      (bumpAll (s.setProc p fun q => { q with rticks := q.rticks + 1 })).proc c = { s.proc c with wticks := w } := by
    intro c hc
    obtain ⟨w, hw⟩ := hproc c
    rw [setProc_ne _ _ _ _ hc] at hw
    exact ⟨w, hw⟩
  obtain ⟨w, hself⟩ := hproc p
  rw [setProc_self] at hself
  simp only [usertrap] at h
  generalize bumpAll (s.setProc p fun q => { q with rticks := q.rticks + 1 }) = s1 at h hpc hother hself
  split at h
  · -- killed
    simp only [exit] at h
    split at h
    · cases h
    · cases h
      refine ⟨fun c hc => ?_, .inl ⟨rfl, by simp [sched]⟩⟩
      rw [sched, goto_proc, setProc_ne _ _ _ _ hc]
      exact hother c hc
  split at h
  next heq =>
    rw [hself] at heq
    cases h
    refine ⟨fun c hc => ?_, .inr (.inl ⟨heq, rfl, ?_, ?_⟩)⟩
    · rw [yield, sched, goto_proc, setProc_ne _ _ _ _ hc, setProc_ne _ _ _ _ hc]
      exact hother c hc
    · simp [yield, sched]
    · simp [yield, sched, hself]
  next hne =>
    rw [hself] at hne
    cases h
    obtain ⟨hpre, st, r, hprep, hcase⟩ := preempt_proc s1 p 0
    refine ⟨fun c hc => ?_, .inr (.inr ⟨hne, ?_, ?_, ?_⟩)⟩
    · rw [hpre c hc]
      exact hother c hc
    · rw [hprep, hself]
    · rw [hprep, hself]
    · rcases hcase with ⟨h1, -⟩ | ⟨h1, h2⟩
      · exact .inl h1
      · refine .inr ⟨h1.trans hpc, ?_⟩
        rw [hprep, hself]
        exact h2.trans (by rw [hself])

theorem sched_switch {st : ProcState} (hrun : (s.proc p).state = .running) (c : Nat) :
    SlotStep s e c ((sched s p st).proc c) := by
  rw [sched, goto_proc]
  exact slotStep_setProc (.of_live (by simp [Proc.Live, hrun]) rfl rfl) c

theorem wake_slot (c d : Nat) : SlotStep s e d ((wake s c).proc d) := by
  refine slotStep_setProc ?_ d
  by_cases hst : (s.proc c).state = .sleeping
  · exact .of_live (by simp [Proc.Live, hst]) rfl rfl
  · refine .of_eq ?_ rfl rfl
    exact if_neg hst

theorem call_slot {call : Call} (hrun : (s.proc p).state = .running) (h : doCall s p call = .ok s') (c : Nat) :
    SlotStep s (.call call) c (s'.proc c) := by
  cases call with
  | sleep =>
    cases h
    exact sched_switch hrun c
  | exit =>
    simp only [doCall, exit] at h
    split at h
    · cases h
    · cases h
      exact sched_switch hrun c
  | alloc =>
    cases h
    unfold allocproc
    split
    · exact .refl
    next d hd =>
      by_cases hc : c = d
      · subst hc
        rw [setProc_self]
        exact .born (unusedSlot_some hd).2 rfl rfl
      · rw [setProc_ne _ _ _ _ hc]
        exact .refl
  | start d =>
    simp only [doCall] at h
    split at h
    next hd =>
      cases h
      exact slotStep_setProc (.of_live (by simp [Proc.Live, hd.2]) rfl rfl) c
    next => cases h
  | free d =>
    simp only [doCall] at h
    split at h
    · cases h
      unfold freeproc
      by_cases hc : c = d
      · subst hc
        rw [setProc_self]
        exact .freed rfl rfl
      · rw [setProc_ne _ _ _ _ hc]
        exact .refl
    · cases h
  | kill pid =>
    cases h
    unfold kill
    split
    next d hd =>
      unfold wake
      by_cases hc : c = d
      · subst hc
        rw [setProc_self, setProc_self]
        by_cases hst : (s.proc c).state = .sleeping
        · exact .of_live (by simp [Proc.Live, hst]) rfl rfl
        · exact .of_eq (if_neg hst) rfl rfl
      · rw [setProc_ne _ _ _ _ hc, setProc_ne _ _ _ _ hc]
        exact .refl
    next => exact .refl

/-- **What a step does to one slot.** -/
theorem step_slot (hrun : OnCpu s) (h : step s e = .ok s') (c : Nat) : SlotStep s e c (s'.proc c) := by
  cases e with
  | sched => exact sched_slot h c
  | utick =>
    obtain ⟨p, hpc, h⟩ := utick_eq_ok h
    obtain ⟨hother, hself⟩ := usertrap_proc h
    by_cases hc : c = p
    · subst hc
      rcases hself with ⟨-, hz⟩ | ⟨heq, -, ht, hp⟩ | ⟨hne, ht, hp, -⟩
      · exact .exits rfl hpc hz
      · exact .expires rfl hpc heq ht hp
      · exact .ticks rfl hpc hne ht hp
    · obtain ⟨w, hw⟩ := hother c hc
      rw [hw]
      exact .of_eq rfl rfl rfl
  | ktick =>
    cases h
    obtain ⟨-, -, hproc⟩ := bumpAll_spec s
    have hbump : ∀ c, SlotStep s .ktick c ((bumpAll s).proc c) := by
      intro c
      obtain ⟨w, hw⟩ := hproc c
      rw [hw]
      exact .of_eq rfl rfl rfl
    unfold kerneltrap
    split
    next p hpc =>
      rw [yield, sched, goto_proc]
      by_cases hc : c = p
      · subst hc
        obtain ⟨w, hw⟩ := hproc c
        rw [setProc_self, hw]
        exact .of_live (by simp [Proc.Live, hrun c hpc]) rfl rfl
      · rw [setProc_ne _ _ _ _ hc]
        exact hbump c
    next => exact hbump c
  | resume =>
    obtain ⟨p, i, hpc, rfl⟩ := resume_eq_ok h
    obtain ⟨hother, st, r, hself, -⟩ := preempt_proc s p i
    by_cases hc : c = p
    · subst hc
      rw [hself]
      exact .of_live (by simp [Proc.Live, hrun c hpc]) rfl rfl
    · rw [hother c hc]
      exact .refl
  | wakeup d =>
    obtain ⟨-, rfl⟩ := wakeup_eq_ok h
    exact wake_slot d c
  | call call =>
    obtain ⟨p, hpc, h⟩ := call_eq_ok h
    exact call_slot (hrun p hpc) h c

/-! ## The running process -/

theorem sched_pc (h : step s .sched = .ok s') : OnCpu s' := by
  intro p hpc
  cases sched_cases h with
  | move hop => exact absurd hpc hop.idle
  | queue | age | drop => cases hpc
  | run =>
    cases hpc
    simp [schedule]

theorem OnCpu.setProc {f : Proc → Proc} (h : OnCpu s)
    (hf : (s.proc c).state = .running → (f (s.proc c)).state = .running) : OnCpu (s.setProc c f) := by
  intro p hpc
  by_cases hp : p = c
  · subst hp
    rw [setProc_self]
    exact hf (h p hpc)
  · rw [setProc_ne _ _ _ _ hp]
    exact h p hpc

theorem OnCpu.wake (h : OnCpu s) (c : Nat) : OnCpu (wake s c) :=
  h.setProc fun hst => by simp [hst]

theorem OnCpu.call {call : Call} (h : OnCpu s) (hs : doCall s p call = .ok s') : OnCpu s' := by
  cases call with
  | sleep =>
    cases hs
    rintro q ⟨⟩
  | exit =>
    simp only [doCall, exit] at hs
    split at hs
    · cases hs
    · cases hs
      rintro q ⟨⟩
  | alloc =>
    cases hs
    unfold allocproc
    split
    · exact h
    next d hd =>
      have hs : OnCpu { s with nextpid := s.nextpid + 1 } := h
      exact hs.setProc fun hst => absurd ((unusedSlot_some hd).2.symm.trans hst) (by decide)
  | start d =>
    simp only [doCall] at hs
    split at hs
    next hd =>
      cases hs
      exact h.setProc fun hst => absurd (hd.2.symm.trans hst) (by decide)
    next => cases hs
  | free d =>
    simp only [doCall] at hs
    split at hs
    next hd =>
      cases hs
      exact h.setProc fun hst => absurd hd.2 (by simp [hst])
    next => cases hs
  | kill pid =>
    cases hs
    unfold kill
    split
    · exact (h.setProc fun hst => hst).wake _
    · exact h

theorem OnCpu.step (hrun : OnCpu s) (h : step s e = .ok s') : OnCpu s' := by
  intro p hpc
  cases e with
  | sched => exact sched_pc h p hpc
  | utick =>
    obtain ⟨p', hs, h⟩ := utick_eq_ok h
    rcases (usertrap_proc h).2 with ⟨h1, -⟩ | ⟨-, h1, -⟩ | ⟨-, -, -, h1 | ⟨h1, h2⟩⟩ <;> rw [h1] at hpc
    iterate 3 cases hpc
    cases hs.symm.trans hpc
    exact h2.trans (hrun p hs)
  | ktick =>
    cases h
    unfold kerneltrap at hpc ⊢
    split at hpc
    · cases hpc
    next hno =>
      rw [(bumpAll_spec s).1] at hpc
      exact absurd hpc (hno p)
  | resume =>
    obtain ⟨p', i, hs, rfl⟩ := resume_eq_ok h
    obtain ⟨-, st, r, hself, ⟨h1, -⟩ | ⟨h1, h2⟩⟩ := preempt_proc s p' i <;> rw [h1] at hpc
    · cases hpc
    · cases hs.symm.trans hpc
      rw [hself]
      exact h2.trans (hrun p hs)
  | wakeup d =>
    obtain ⟨-, rfl⟩ := wakeup_eq_ok h
    exact hrun.wake d p hpc
  | call call =>
    obtain ⟨p', -, h⟩ := call_eq_ok h
    exact hrun.call h p hpc

/-! ## Slices -/

structure Sliced (s : Sys) : Prop where
  slice : ∀ c, (s.proc c).Live → (s.proc c).InSlice
  running : OnCpu s

theorem one_shiftLeft (h : k < NPR) : ((1 : BitVec 32) <<< k).toNat = 2 ^ k := by
  exact (by decide : ∀ k < NPR, ((1 : BitVec 32) <<< k).toNat = 2 ^ k) k h

theorem tick_lt {t : BitVec 32} (hk : k < NPR) (ht : t.toNat < 2 ^ k) (hne : t + 1 ≠ 1 <<< k) :
    (t + 1).toNat = t.toNat + 1 ∧ t.toNat + 1 < 2 ^ k := by
  have hpow : 2 ^ k ≤ 2 ^ 4 := Nat.pow_le_pow_right (by decide) (by unfold NPR at hk; omega)
  have hadd : (t + 1).toNat = t.toNat + 1 := by
    show (t.toNat + 1) % 2 ^ 32 = _
    omega
  refine ⟨hadd, ?_⟩
  have : (t + 1).toNat ≠ ((1 : BitVec 32) <<< k).toNat := fun h => hne (BitVec.eq_of_toNat_eq h)
  rw [hadd, one_shiftLeft hk] at this
  omega

theorem Sliced.step (h : Sliced s) (ha : AgesInSlice s e) (hs : step s e = .ok s') : Sliced s' := by
  refine ⟨fun c hlive => ?_, h.running.step hs⟩
  have hslot := step_slot h.running hs c
  unfold Proc.InSlice
  cases hslot with
  | same hl _ ht hp =>
    rw [ht, hp]
    exact h.slice c (hl hlive)
  | exits _ _ hz => exact absurd hz hlive.2
  | ticks _ hpc hne ht hp =>
    obtain ⟨hlt, hin⟩ := h.slice c (by simp [Proc.Live, h.running c hpc])
    obtain ⟨hadd, hnew⟩ := tick_lt hlt hin hne
    rw [ht, hp, hadd]
    exact ⟨hlt, hnew⟩
  | expires _ hpc _ ht hp =>
    obtain ⟨hlt, -⟩ := h.slice c (by simp [Proc.Live, h.running c hpc])
    rw [ht, hp]
    refine ⟨?_, Nat.two_pow_pos _⟩
    unfold NPR at hlt ⊢
    split <;> omega
  | ages i j he hpc hentry hw hst ht hp hlt =>
    have hbound := ha he i j hpc c hentry hw
    refine ⟨hlt, ?_⟩
    have hpr : (s'.proc c).pr = (s.proc c).pr - 1 := by
      rw [hp] at hlt ⊢
      simp only [promote] at hlt ⊢
      split at hlt
      · exact absurd hlt (by decide)
      next hne => rw [if_neg hne]
    rw [ht, hpr]
    exact hbound
  | freed _ hu => exact absurd hu hlive.1
  | born _ ht hp =>
    rw [ht, hp]
    exact ⟨by decide, by decide⟩

theorem Start.sliced (h : Start s) : Sliced s where
  slice c hlive := by
    by_cases hc : c = 0
    · subst hc
      rw [Proc.InSlice, h.init.2.2, h.rticks]
      exact ⟨by decide, by decide⟩
    · exact absurd (h.others c hc).1 hlive.1
  running p hpc := by
    rw [h.pc] at hpc
    cases hpc

theorem Reach.sliced (h : Reach step Start AgesInSlice s) : Sliced s :=
  Reach.inv (fun _ => Start.sliced) (fun _ _ _ hi ha hs => hi.step ha hs) h

/-! ## Counting the ticks of a process -/

/-- The user-mode ticks of a run that find process `p` running. -/
def userTicks (p : Nat) : Sys → List Event → Nat
  | _, [] => 0
  | s, e :: es =>
    (if e = .utick ∧ s.pc = .running p then 1 else 0) +
      match step s e with
      | .ok s' => userTicks p s' es
      | _ => 0

/-- The event ends the slice of `p`: it is demoted, or at the last level yields. -/
def EndsSlice (s : Sys) (p : Nat) (e : Event) : Prop :=
  e = .utick ∧ s.pc = .running p ∧ (s.proc p).rticks + 1 = 1 <<< (s.proc p).pr

/-- There is a process in slot `p`, and it is at level `k`. -/
def AtLevel (p k : Nat) (s : Sys) : Prop := (s.proc p).state ≠ .unused ∧ (s.proc p).pr = k

/-- A run of allowed events in which `p` stays at level `k` and its slice does not end. -/
def Stays (p k : Nat) : Sys → List Event → Prop
  | s, [] => AtLevel p k s
  | s, e :: es => AtLevel p k s ∧ AgesInSlice s e ∧ ¬EndsSlice s p e ∧
      match step s e with
      | .ok s' => Stays p k s' es
      | _ => False

variable {es : List Event}

theorem Stays.atLevel (h : Stays p k s es) : AtLevel p k s := by
  cases es with
  | nil => exact h
  | cons e es => exact h.1

theorem userTicks_zombie (h : Sliced s) (hst : Stays p k s es)
    (hz : (s.proc p).state = .zombie) : userTicks p s es = 0 := by
  induction es generalizing s with
  | nil => rfl
  | cons e es ih =>
    obtain ⟨-, ha, hends, hst⟩ := hst
    have hno : s.pc ≠ .running p := by
      intro hpc
      rw [h.running p hpc] at hz
      cases hz
    rw [userTicks, if_neg (fun hc => hno hc.2), Nat.zero_add]
    cases hs : step s e with
    | ok s' =>
      rw [hs] at hst
      refine ih (h.step ha hs) hst ?_
      cases step_slot h.running hs p with
      | same _ hz' => exact hz' hz
      | exits _ _ hz' => exact hz'
      | ticks _ hpc | expires _ hpc => exact absurd hpc hno
      | ages i j _ _ _ _ hstate => exact hstate.trans hz
      | freed _ hu => exact absurd hu hst.atLevel.1
      | born hu =>
        rw [hu] at hz
        cases hz
    | stuck => rfl
    | halt q => rfl

/-- A tick that finds `p` running, when its slice does not end. -/
theorem tick_slot (hs : step s .utick = .ok s') (hpc : s.pc = .running p) (hends : ¬EndsSlice s p .utick) :
    (s'.proc p).state = .zombie ∨ ((s.proc p).rticks + 1 ≠ 1 <<< (s.proc p).pr ∧
      (s'.proc p).rticks = (s.proc p).rticks + 1) := by
  simp only [step, hpc] at hs
  split at hs
  · rcases (usertrap_proc hs).2 with ⟨-, hz⟩ | ⟨heq, -⟩ | ⟨hne, ht, -⟩
    · exact .inl hz
    · exact absurd ⟨rfl, hpc, heq⟩ hends
    · exact .inr ⟨hne, ht⟩
  · cases hs

theorem userTicks_bound (h : Sliced s) (hlive : (s.proc p).Live) (hst : Stays p k s es) :
    (s.proc p).rticks.toNat + userTicks p s es ≤ 2 ^ k := by
  induction es generalizing s with
  | nil =>
    have := (h.slice p hlive).2
    rw [hst.2] at this
    exact Nat.le_of_lt this
  | cons e es ih =>
    obtain ⟨⟨-, hpr⟩, ha, hends, hst⟩ := hst
    obtain ⟨hlt, hin⟩ := h.slice p hlive
    rw [hpr] at hlt hin
    cases hs : step s e with
    | ok s' =>
      rw [hs] at hst
      have hs' := h.step ha hs
      rw [userTicks, hs]
      -- an exited process takes no more ticks; otherwise the counter has moved with the tick
      by_cases hz : (s'.proc p).state = .zombie
      · have hrest := userTicks_zombie hs' hst hz
        simp only [hrest]
        split <;> omega
      have hticks : (s'.proc p).rticks.toNat =
          (s.proc p).rticks.toNat + if e = .utick ∧ s.pc = .running p then 1 else 0 := by
        by_cases htick : e = .utick ∧ s.pc = .running p
        · obtain ⟨rfl, hpc⟩ := htick
          rcases tick_slot hs hpc hends with hz' | ⟨hne, ht⟩
          · exact absurd hz' hz
          · rw [hpr] at hne
            rw [if_pos ⟨rfl, hpc⟩, ht, (tick_lt hlt hin hne).1]
        · rw [if_neg htick, Nat.add_zero]
          cases step_slot h.running hs p with
          | same _ _ ht => rw [ht]
          | exits he hpc | ticks he hpc | expires he hpc => exact absurd ⟨he, hpc⟩ htick
          | ages i j _ _ _ _ _ ht => rw [ht]
          | freed _ hu => exact absurd hu hst.atLevel.1
          | born hu => exact absurd hu hlive.1
      have hrest := ih hs' ⟨hst.atLevel.1, hz⟩ hst
      show _ + (_ + userTicks p s' es) ≤ _
      omega
    | stuck =>
      rw [hs] at hst
      exact hst.elim
    | halt q =>
      rw [hs] at hst
      exact hst.elim

/-- **Time slices are enforced** as long as aging moves up only processes whose ticks fit the slice of the level
they go to: a running process has not used up its slice, and while it stays at its level and its slice does
not end it takes at most `2 ^ pr` user-mode ticks. -/
theorem slices_enforced (hr : Reach step Start AgesInSlice s) (hpc : s.pc = .running p) :
    (s.proc p).rticks.toNat < 2 ^ (s.proc p).pr ∧
      ∀ es, Stays p (s.proc p).pr s es → userTicks p s es ≤ 2 ^ (s.proc p).pr := by
  have h := Reach.sliced hr
  have hlive : (s.proc p).Live := by simp [Proc.Live, h.running p hpc]
  refine ⟨(h.slice p hlive).2, fun es hes => ?_⟩
  have := userTicks_bound h hlive hes
  omega

/-- `AgesInSlice`, computed. -/
def agesInSlice (s : Sys) : Event → Bool
  | .sched =>
    match s.pc with
    | .age i j => (s.entry i j).all fun fp =>
        decide (30 ≤ (s.proc fp).wticks.toInt → (s.proc fp).rticks.toNat < 2 ^ ((s.proc fp).pr - 1))
    | _ => true
  | _ => true

theorem agesInSlice_iff : agesInSlice s e = true ↔ AgesInSlice s e := by
  unfold agesInSlice AgesInSlice
  cases e with
  | sched =>
    cases s.pc with
    | age i j =>
      simp only [Option.all_eq_true, decide_eq_true_eq, forall_const, Pc.age.injEq]
      constructor
      · rintro h _ _ ⟨rfl, rfl⟩ fp hfp
        exact h fp hfp
      · exact fun h fp hfp => h i j ⟨rfl, rfl⟩ fp hfp
    | _ => simp
  | _ => simp

instance (s : Sys) (e : Event) : Decidable (AgesInSlice s e) := decidable_of_iff _ agesInSlice_iff

theorem booted_start : Start booted := ⟨booted_boot, rfl⟩

/-- The first process runs and is demoted at its first tick; the scheduler runs it again, at level 1. -/
def demotion : List Event :=
  List.replicate 327 Event.sched ++ Event.utick :: List.replicate 328 Event.sched ++ [Event.resume]

/-- At level 1 the first process has its whole slice of two ticks. -/
theorem slices_enforced_demoted :
    (after step booted demotion).pc = .running 0 ∧ ((after step booted demotion).proc 0).pr = 1 ∧
      ((after step booted demotion).proc 0).rticks.toNat < 2 := by
  have hrun : checked step AgesInSlice booted demotion = true ∧ (after step booted demotion).pc = .running 0 ∧
      ((after step booted demotion).proc 0).pr = 1 := by decide +kernel
  have hin := (slices_enforced (Reach.of_checked demotion (.init booted_start) hrun.1) hrun.2.1).1
  rw [hrun.2.2] at hin
  exact ⟨hrun.2.1, hrun.2.2, hin⟩

/-- After one tick at level 1 the process is preempted, waits for 30 ticks, and is aged to level 0. -/
def overrun : List Event :=
  demotion ++ Event.utick :: Event.ktick :: Event.sched :: List.replicate 30 Event.ktick ++
    List.replicate 326 Event.sched

/-- **A slice is overrun.** The process runs at level 0, whose slice is one tick, with one tick used. -/
theorem slice_overrun : ∃ s, Reach step Start (fun _ _ => True) s ∧ s.pc = .running 0 ∧
    (s.proc 0).resume = none ∧ (s.proc 0).pr = 0 ∧ ¬(s.proc 0).rticks.toNat < 2 ^ (s.proc 0).pr := by
  have hrun : checked step (fun _ _ => True) booted overrun = true ∧ (after step booted overrun).pc = .running 0 ∧
      ((after step booted overrun).proc 0).resume = none ∧ ((after step booted overrun).proc 0).pr = 0 ∧
      ¬((after step booted overrun).proc 0).rticks.toNat < 2 ^ ((after step booted overrun).proc 0).pr := by
    decide +kernel
  exact ⟨_, Reach.of_checked overrun (.init booted_start) hrun.1, hrun.2⟩

end Xv6Riscv.Mlfq
