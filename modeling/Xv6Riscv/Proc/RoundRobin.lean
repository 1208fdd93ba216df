import Xv6Riscv.Proc.Wait

/-!
# Round robin on one CPU

The scan of the RR policy starts at `proc[0]` after every dispatch. So it finds a process that has just been dispatched
and is RUNNABLE again before any process in a higher slot: two processes are enough for it not to be fair
(`slot_zero_again`).
-/
namespace Xv6Riscv.Proc
open Machine List
open Function (update update_self update_of_ne update_apply)

/-- No process has been dispatched twice since the process in slot `q` is RUNNABLE. -/
def Fair (s : Sys) : Prop := ∀ q, s.state q = .runnable → (s.passed q).Nodup

def Event.onCpu0 : Event → Bool
  | .sched c _ | .thread c _ => c = 0
  | .dev _ _ => true

/-- The process that `yield`, a slot of `wakeup`, or `kill` makes RUNNABLE. -/
def readies (s : Sys) : Event → Option Nat
  | .thread c a =>
    match s.cpc c, a with
    | .run p, .yield => if s.sw p = .on then some p else none
    | .run p, .next _ =>
      if s.sw p = .on then
        match s.wake p, s.pc p with
        | some (chan, i), _ => if s.state i = .sleeping ∧ s.chan i = chan then some i else none
        | none, .kill pid i => if s.pid i = pid ∧ s.state i = .sleeping then some i else none
        | none, _ => none
      else none
    | _, _ => none
  | .dev d .next =>
    match s.dwake d with
    | some (chan, i) => if s.state i = .sleeping ∧ s.chan i = chan then some i else none
    | none => none
  | _ => none

/-- On one CPU, a process becomes RUNNABLE again only while no process in a higher slot is RUNNABLE that was so when
this one was dispatched. -/
def inTurn (s : Sys) (e : Event) : Bool :=
  e.onCpu0 && match readies s e with
    | some p => (List.range NPROC).all fun q => !(p < q && s.state q = .runnable && s.birth p ∈ s.passed q)
    | none => true

variable {s s' : Sys} {pol : Policy}

/-! ## Who becomes RUNNABLE -/

variable {c p q i cand : Nat}

theorem pcStep_ready {ok : Bool} (hs : pcStep s c p ok = .ok s') (hne : s.state q ≠ .runnable)
    (hr : s'.state q = .runnable) :
    (∃ pid, s.pc p = .kill pid q ∧ s.pid q = pid ∧ s.state q = .sleeping) ∨ s.pc p = .forkRunnable q := by
  unfold pcStep at hs
  cases hpc : s.pc p <;> rw [hpc] at hs <;>
    simp only [killScan, allocproc, forkParent, forkRunnable, lockThen, exitReparent, exitZombie, waitScan, waitKids,
      reduceCtorEq] at hs <;> (repeat' split at hs) <;> cases hs <;>
    simp only [goto, release, ready, acquire, freeproc, allocate, update_apply] at hr <;> grind

theorem codeStep_state {a : Act} (hs : codeStep s c p a = .ok s') : s'.state = s.state := by
  cases a <;> simp only [codeStep, lockThen, reduceCtorEq] at hs <;> (repeat' split at hs) <;> cases hs <;> rfl

theorem wakeSlot_ready {chan : Chan} (hne : s.state q ≠ .runnable)
    (hr : (wakeSlot s chan i).state q = .runnable) : i = q ∧ s.state i = .sleeping ∧ s.chan i = chan := by
  unfold wakeSlot at hr
  split at hr
  · rename_i hg
    by_cases e : q = i
    · exact ⟨e.symm, hg⟩
    · simp only [ready, update_of_ne e] at hr
      exact absurd hr hne
  · exact absurd hr hne

theorem schedStep_state (hs : schedStep s pol c cand = .ok s') (hr : s'.state q = .runnable) :
    s.state q = .runnable := by
  unfold schedStep at hs
  repeat' split at hs
  all_goals cases hs
  all_goals first
    | exact hr
    | simp only [dispatch, update_apply] at hr
      split at hr
      · cases hr
      · exact hr

theorem threadStep_ready {a : Act} (ht : Table s) (hc : s.cpc c = .run p)
    (hs : threadStep s c p a = .ok s') (hne : s.state q ≠ .runnable) (hused : s.state q ≠ .used)
    (hr : s'.state q = .runnable) : readies s (.thread c a) = some q := by
  unfold threadStep at hs
  cases hsw : s.sw p <;> rw [hsw] at hs <;> simp only [resume] at hs
  case off => cases hs
  case out => cases hs; exact absurd hr hne
  case back => split at hs <;> cases hs <;> exact absurd hr hne
  case on =>
    split at hs
    · simp only [yield] at hs
      split at hs <;> cases hs
      by_cases e : q = p
      · simp only [readies, hc, hsw, e, if_true]
      · simp only [ready, update_of_ne e] at hr
        exact absurd hr hne
    · split at hs
      · rename_i chan i hw
        unfold wakeup at hs
        repeat' split at hs
        all_goals cases hs
        · exact absurd hr hne
        · obtain ⟨rfl, hg⟩ := wakeSlot_ready hne hr
          simp only [readies, hc, hsw, hw, if_true, if_pos hg]
        · exact absurd hr hne
      · rename_i hw
        rcases pcStep_ready hs hne hr with ⟨pid, hpc, hg⟩ | hpc
        · simp only [readies, hc, hsw, hw, hpc, if_true, if_pos hg]
        · exact absurd (ht.made p q (by rw [hpc]; rfl)) hused
    · split at hs
      · rw [codeStep_state hs] at hr
        exact absurd hr hne
      · cases hs

theorem devStep_ready {d : Nat} {a : DevAct} (hs : devStep s d a = .ok s') (hne : s.state q ≠ .runnable)
    (hr : s'.state q = .runnable) : readies s (.dev d a) = some q := by
  cases a <;> simp only [devStep] at hs <;> split at hs
  case h_2 chan i hw =>
    repeat' split at hs
    all_goals cases hs
    · obtain ⟨rfl, hg⟩ := wakeSlot_ready hne hr
      simp only [readies, hw, if_pos hg]
    · exact absurd hr hne
  all_goals cases hs
  all_goals exact absurd hr hne

theorem step_ready {e : Event} (ht : Table s) (hs : step s pol e = .ok s') (hne : s.state q ≠ .runnable)
    (hused : s.state q ≠ .used) (hr : s'.state q = .runnable) : readies s e = some q := by
  cases e with
  | sched c cand =>
    simp only [step] at hs
    split at hs
    · exact absurd (schedStep_state hs hr) hne
    · cases hs
  | thread c a =>
    simp only [step] at hs
    split at hs
    · rename_i hc
      exact threadStep_ready ht hc hs hne hused hr
    · cases hs
  | dev d a => exact devStep_ready hs hne hr

/-! ## Turns -/

structure Turns (s : Sys) : Prop where
  idle : ∀ c, c ≠ 0 → s.cpc c = .loop
  old : ∀ q, ∀ b ∈ s.passed q, b < s.births
  used : ∀ p q, s.state p = .used → s.birth p ∉ s.passed q
  nodup : ∀ q, s.state q = .runnable → (s.passed q).Nodup
  behind : ∀ p q, s.state p = .runnable → s.state q = .runnable → s.birth p ∈ s.passed q → p ≠ q → q < p
  scan : ∀ q, s.state q = .runnable → s.passed q ≠ [] →
    (∀ i, s.cpc 0 = .scan i → i ≤ q) ∧ ∀ r, s.cpc 0 = .pick r → r ≤ q

namespace Turns

theorem boot : Turns boot where
  idle _ _ := rfl
  old _ _ := nofun
  used _ _ _ := nofun
  nodup _ _ := nodup_nil
  behind _ _ _ _ := nofun
  scan _ _ h := absurd rfl h

theorem setCpc (h : Turns s) {a : CpuPc}
    (ha : ∀ q, s.state q = .runnable → s.passed q ≠ [] → (∀ i, a = .scan i → i ≤ q) ∧ ∀ r, a = .pick r → r ≤ q) :
    Turns (setCpc s 0 a) :=
  { h with
    idle := fun c hc => by simp only [Proc.setCpc, update_of_ne hc]; exact h.idle c hc
    scan := fun q hq hp => by simp only [Proc.setCpc, update_self]; exact ha q hq hp }

theorem dispatch (h : Turns s) (hh : History s) (hp : Parents s) (hc : s.cpc 0 = .pick p)
    (hst : s.state p = .runnable) : Turns (dispatch s 0 p) := by
  have hun : s.state p ≠ .unused := by rw [hst]; decide
  -- the candidate has been passed by nobody who is RUNNABLE: they are all in higher slots, or new
  have hnew : ∀ q, s.state q = .runnable → q ≠ p → s.birth p ∉ s.passed q := by
    intro q hq hne hmem
    have h1 := h.behind p q hst hq hmem hne.symm
    have h2 := (h.scan q hq (ne_nil_of_mem hmem)).2 p hc
    omega
  have hother : ∀ {r}, update s.state p .running r = .runnable → r ≠ p ∧ s.state r = .runnable :=
    fun hr => eq_of_update hr (by decide)
  have hbirth : ∀ {r}, r ≠ p → s.state r ≠ .unused → s.birth r ≠ s.birth p := fun hne hr e =>
    hne (hh.distinct _ _ hr hun e)
  refine ⟨fun c hc => ?_, fun q b hb => ?_, fun r q hr => ?_, fun q hq => ?_, fun r q hr hq hmem hne => ?_,
    fun q _ _ => ?_⟩
  · simp only [Proc.dispatch, update_of_ne hc]
    exact h.idle c hc
  · simp only [Proc.dispatch] at hb ⊢
    have := hp.older p hun
    have := h.old q b
    grind
  · obtain ⟨e, hr⟩ := eq_of_update hr (by decide)
    simp only [Proc.dispatch]
    have := hbirth e (by rw [hr]; decide)
    have := h.used r q hr
    grind
  · obtain ⟨e, hq⟩ := hother hq
    simp only [Proc.dispatch, if_neg e, if_pos hq]
    exact nodup_cons.2 ⟨hnew q hq e, h.nodup q hq⟩
  · obtain ⟨er, hr⟩ := hother hr
    obtain ⟨eq, hq⟩ := hother hq
    simp only [Proc.dispatch, if_neg eq, if_pos hq] at hmem
    rcases mem_cons.1 hmem with hb | hmem
    · exact absurd hb (hbirth er (by rw [hr]; decide))
    · exact h.behind r q hr hq hmem hne
  · simp only [Proc.dispatch, update_self]
    exact ⟨by simp, by simp⟩

theorem sched (h : Turns s) (hh : History s) (hp : Parents s) (hs : schedStep s .rr 0 cand = .ok s') : Turns s' := by
  unfold schedStep at hs
  cases hc : s.cpc 0 <;> rw [hc] at hs <;> simp only at hs
  case loop =>
    cases hs
    refine h.setCpc fun q _ _ => ⟨?_, nofun⟩
    rintro i ⟨⟩
    exact Nat.zero_le q
  case scan i =>
    repeat' split at hs
    all_goals cases hs
    · refine h.setCpc fun q hq hpass => ⟨nofun, ?_⟩
      rintro r ⟨⟩
      exact (h.scan q hq hpass).1 i hc
    · rename_i hst
      refine h.setCpc fun q hq hpass => ⟨?_, nofun⟩
      rintro j ⟨⟩
      have hle := (h.scan q hq hpass).1 i hc
      have hne : q ≠ i := by
        rintro rfl
        exact hst hq
      omega
    · exact h.setCpc fun q _ _ => ⟨nofun, nofun⟩
  case pick p =>
    repeat' split at hs
    all_goals cases hs
    · rename_i hst
      exact h.dispatch hh hp hc hst
    · exact h.setCpc fun q _ _ => ⟨nofun, nofun⟩
  case run => cases hs
  case ret p => cases hs; exact { h.setCpc (a := .rel p) fun q _ _ => ⟨nofun, nofun⟩ with }
  case rel => cases hs; exact { h.setCpc (a := .loop) fun q _ _ => ⟨nofun, nofun⟩ with }

end Turns

/-- The record of `q` stays, or `q` becomes RUNNABLE and it is empty. -/
def Recorded (s s' : Sys) (q : Nat) : Prop :=
  s'.passed q = s.passed q ∧ (s'.state q = .runnable → s.state q = .runnable) ∨
    s'.passed q = [] ∧ s.state q ≠ .runnable ∧ s'.state q = .runnable

theorem recorded_ready (hi : s.state i ≠ .runnable) (q : Nat) : Recorded s (ready s i) q := by
  by_cases e : q = i
  · subst e
    exact .inr ⟨by simp [ready], hi, by simp [ready]⟩
  · exact .inl ⟨by simp [ready, e], by simp [ready, e]⟩

theorem recorded_wakeSlot (chan : Chan) (i q : Nat) : Recorded s (wakeSlot s chan i) q := by
  unfold wakeSlot
  split
  · rename_i hg
    exact recorded_ready (by rw [hg.1]; decide) q
  · exact .inl ⟨rfl, id⟩

theorem move_passed (hk : Kernel s) (hm : Move s s') (hd : ∀ c q, s'.cpc c = .run q → s.cpc c = .run q) (q : Nat) :
    Recorded s s' q := by
  cases hm with
  | idle => exact .inl ⟨rfl, id⟩
  | dispatch c p hc hl hst =>
    have := hd c p (by simp [dispatch])
    rw [hc] at this
    cases this
  | yield c p hr hno hl =>
    have hst := (hk.table.runs_unlocked hr (hk.table.window_of_free hr hl)).2
    exact recorded_ready (i := p) (by rw [hst]; decide) q
  | wakeSlot _ _ chan i | devSlot _ chan i => exact recorded_wakeSlot chan i q
  | killAsleep c p pid i hat hl hst => exact recorded_ready (i := i) (by rw [hst]; decide) q
  | publish c p np hat hl =>
    have hused := hk.table.made p np (by rw [hat.pc]; rfl)
    exact recorded_ready (i := np) (by rw [hused]; decide) q
  | _ =>
    refine .inl ⟨rfl, fun hq => ?_⟩
    simp only [goto, release, acquire, setCpc, swtch, freeproc, allocate, update_apply] at hq
    grind

theorem move_births (hm : Move s s') :
    (s'.birth = s.birth ∧ s'.births = s.births ∧ ∀ p, s'.state p = .used → s.state p = .used) ∨
      ∃ i, s'.state = update s.state i .used ∧ s'.birth = update s.birth i s.births ∧
        s'.births = s.births + 1 ∧ s'.passed = s.passed := by
  have hslot : ∀ {chan i}, (wakeSlot s chan i).birth = s.birth ∧ (wakeSlot s chan i).births = s.births ∧
      ∀ p, (wakeSlot s chan i).state p = .used → s.state p = .used := by
    intro chan i
    unfold wakeSlot
    split
    · refine ⟨rfl, rfl, fun p hp => ?_⟩
      simp only [ready, update_apply] at hp
      grind
    · exact ⟨rfl, rfl, fun p => id⟩
  cases hm with
  | idle => exact .inl ⟨rfl, rfl, fun p => id⟩
  | wakeSlot | devSlot => exact .inl hslot
  | alloc c p i => exact .inr ⟨i, rfl, rfl, rfl, rfl⟩
  | _ =>
    refine .inl ⟨rfl, rfl, fun q hq => ?_⟩
    simp only [goto, release, ready, acquire, setCpc, swtch, dispatch, freeproc, update_apply] at hq
    grind

theorem Turns.quiet (h : Turns s) (hk : Kernel s) (hm : Move s s') (hd : ∀ c q, s'.cpc c = .run q → s.cpc c = .run q)
    (hcpc : ∀ c, s'.cpc c = s.cpc c ∨ s.cpc c ≠ .loop ∧ (∀ i, s'.cpc c ≠ .scan i) ∧ ∀ r, s'.cpc c ≠ .pick r)
    (hturn : ∀ p q, s.state p ≠ .runnable → s.state p ≠ .used → s'.state p = .runnable → s.state q = .runnable →
      s.birth p ∈ s.passed q → ¬ p < q) : Turns s' := by
  have hpassed := move_passed hk hm hd
  have hb : ∀ p, s'.state p = .runnable → s'.birth p = s.birth p := by
    intro p hp
    rcases move_births hm with ⟨hb, -⟩ | ⟨i, hst, hb, -⟩
    · rw [hb]
    rw [hst] at hp
    rw [hb, update_of_ne (eq_of_update hp nofun).1]
  have hmem : ∀ {q b}, b ∈ s'.passed q → b ∈ s.passed q ∧ (s'.state q = .runnable → s.state q = .runnable) := by
    intro q b hb
    rcases hpassed q with ⟨e, hq⟩ | ⟨e, -⟩ <;> rw [e] at hb
    · exact ⟨hb, hq⟩
    · cases hb
  refine ⟨fun c hc => ?_, fun q b hb => ?_, fun p q hp hmem' => ?_, fun q hq => ?_, fun p q hp hq hmem' hne => ?_,
    fun q hq hne => ?_⟩
  · rcases hcpc c with e | ⟨e, -⟩
    · rw [e]; exact h.idle c hc
    · exact absurd (h.idle c hc) e
  · have := h.old q b (hmem hb).1
    rcases move_births hm with ⟨-, e, -⟩ | ⟨i, -, -, e, -⟩ <;> rw [e] <;> omega
  · rcases move_births hm with ⟨e, -, hu⟩ | ⟨i, hst, e, -, -⟩ <;> rw [e] at hmem'
    · exact h.used p q (hu p hp) (hmem hmem').1
    by_cases epi : p = i
    · subst epi
      rw [update_self] at hmem'
      exact absurd (h.old q _ (hmem hmem').1) (Nat.lt_irrefl _)
    · rw [update_of_ne epi] at hmem'
      rw [hst, update_of_ne epi] at hp
      exact h.used p q hp (hmem hmem').1
  · rcases hpassed q with ⟨e, hq'⟩ | ⟨e, -⟩ <;> rw [e]
    · exact h.nodup q (hq' hq)
    · exact nodup_nil
  · rw [hb p hp] at hmem'
    obtain ⟨hold, hq'⟩ := hmem hmem'
    by_cases hrun : s.state p = .runnable
    · exact h.behind p q hrun (hq' hq) hold hne
    · by_cases hu : s.state p = .used
      · exact absurd hold (h.used p q hu)
      · have := hturn p q hrun hu hp (hq' hq) hold
        omega
  · obtain ⟨b, hb⟩ := exists_mem_of_ne_nil _ hne
    obtain ⟨hold, hq'⟩ := hmem hb
    rcases hcpc 0 with e | ⟨-, e1, e2⟩
    · rw [e]
      exact h.scan q (hq' hq) (ne_nil_of_mem hold)
    · exact ⟨fun i hi => absurd hi (e1 i), fun r hr => absurd hr (e2 r)⟩

theorem Turns.step (h : Turns s) (hk : Kernel s) (hp : Parents s) (hh : History s) {e : Event} (he : inTurn s e = true)
    (hs : step s .rr e = .ok s') : Turns s' := by
  simp only [inTurn, Bool.and_eq_true] at he
  obtain ⟨hcpu, hturn⟩ := he
  have hm := step_move hs
  have hordered : ∀ p q, s.state p ≠ .runnable → s.state p ≠ .used → s'.state p = .runnable → s.state q = .runnable →
      s.birth p ∈ s.passed q → ¬ p < q := by
    intro p q hne hused hr hq hmem hlt
    rw [step_ready hk.table hs hne hused hr] at hturn
    have hqlt : q < NPROC := hk.table.lt (by rw [hq]; decide)
    simp only [all_eq_true, mem_range] at hturn
    have := hturn q hqlt
    simp [hlt, hq, hmem] at this
  cases e with
  | sched c cand =>
    obtain rfl : c = 0 := by simpa [Event.onCpu0] using hcpu
    simp only [Proc.step] at hs
    split at hs
    · exact h.sched hh hp hs
    · cases hs
  | thread c a =>
    simp only [Proc.step] at hs
    split at hs
    · rename_i p hc
      refine h.quiet hk hm ?_ ?_ hordered
      all_goals rcases threadStep_cpc hs with hcpc | hcpc <;> simp only [hcpc, update_apply]
      · exact fun _ _ => id
      · grind
      · exact fun _ => .inl trivial
      · grind
    · cases hs
  | dev d a =>
    have hcpc := devStep_cpc hs
    exact h.quiet hk hm (fun c q => by rw [hcpc]; exact id) (fun c => .inl (by rw [hcpc])) hordered

/-- **The RR scheduler goes round**, on one CPU and in every run in which a process that becomes RUNNABLE again (in
`yield`, `wakeup` or `kill`) finds no process RUNNABLE in a higher slot that was so when it was dispatched: there are
never two dispatches of one process while another one stays RUNNABLE. -/
theorem round_robin (h : Reach (fun s e => step s .rr e) (· = boot) (fun s e => inTurn s e = true) s) : Fair s := by
  have hinv : ((Kernel s ∧ Parents s) ∧ Waiting s ∧ History s) ∧ Turns s := by
    refine Reach.inv (I := fun s => ((Kernel s ∧ Parents s) ∧ Waiting s ∧ History s) ∧ Turns s) ?_ ?_ h
    · rintro _ rfl
      exact ⟨⟨⟨Kernel.boot, Parents.boot⟩, Waiting.boot, History.boot⟩, Turns.boot⟩
    · rintro s e s' ⟨⟨⟨hk, hp⟩, hw, hh⟩, ht⟩ he hs
      have hm := step_move hs
      exact ⟨⟨⟨hk.move hm, hp.move hk hm⟩, hw.move hk hp hm, hh.move hk hp hm⟩, ht.step hk hp hh he hs⟩
  exact hinv.2.nodup

/-- `init` is dispatched and forks. -/
def rrFork : List Event :=
  List.replicate 3 (Event.sched 0 0) ++ [Event.thread 0 (.next true), .thread 0 .fork] ++
    List.replicate 6 (Event.thread 0 (.next true))

/-- A process yields, and the scheduler makes its next dispatch from slot 0. -/
def rrYield : List Event :=
  [Event.thread 0 .yield, .thread 0 (.next true)] ++ List.replicate 5 (Event.sched 0 0) ++ [Event.thread 0 (.next true)]

theorem round_robin_once :
    ((after (fun s e => step s .rr e) boot (rrFork ++ rrYield)).passed 1).Nodup ∧
      (after (fun s e => step s .rr e) boot (rrFork ++ rrYield)).passed 1 = [0] := by
  have hr : Reach (fun s e => step s .rr e) (· = boot) (fun s e => inTurn s e = true)
      (after (fun s e => step s .rr e) boot (rrFork ++ rrYield)) := Reach.of_checked _ (.init rfl) (by decide +kernel)
  exact ⟨round_robin hr 1 (by decide +kernel), by decide +kernel⟩

/-- `init` yields twice and is dispatched each time, while its child in slot 1 stays RUNNABLE. -/
theorem slot_zero_again :
    ¬ ∀ s, Reach (fun s e => step s .rr e) (· = boot) (fun _ e => e.onCpu0 = true) s → Fair s := by
  intro h
  have := h _ (Reach.of_checked (rrFork ++ rrYield ++ rrYield) (.init rfl) (by decide +kernel)) 1 (by decide +kernel)
  revert this
  decide +kernel

end Xv6Riscv.Proc
