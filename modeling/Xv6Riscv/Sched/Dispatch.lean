import Xv6Riscv.Mlfq.Runs
import Xv6Riscv.Sched.Model

/-!
# The pointer that reaches the dispatch step

Every loop but the one of RR starts with `p = 0` and stores in `p` only the address of a RUNNABLE process that
it has just looked at. RR uses `p` as its loop variable: when the loop runs to its end `p` is `&proc[NPROC]`,
which is not null, and the dispatch step takes the lock and reads the state of what lies behind the table.
-/
namespace Xv6Riscv.Sched
open Machine List
open Outcome (bind_eq_ok bind_ne_stuck bind_ok)
variable {i j n : Nat} {p : Ptr} {s s' : Mlfq.Sys}

variable {t : Nat → Proc} {k : Nat}

/-- A slot of the table that holds a RUNNABLE process. -/
def Runnable (t : Nat → Proc) (k : Nat) : Prop := k < NPROC ∧ (t k).state = .runnable

/-! ## RR -/

theorem rr_runnable (h : ∃ k, Runnable t k) (hk : rr t = some k) : Runnable t k := by
  obtain ⟨i, hi, hst⟩ := h
  have hlt : (List.range NPROC).findIdx (fun k => decide ((t k).state = .runnable)) < (List.range NPROC).length :=
    findIdx_lt_length_of_exists ⟨i, mem_range.2 hi, decide_eq_true hst⟩
  have hget := findIdx_getElem (w := hlt)
  simp only [rr, Option.some.injEq] at hk
  subst hk
  exact ⟨hlt, by simpa using hget⟩

theorem rr_idle (h : ¬ ∃ k, Runnable t k) : rr t = some NPROC := by
  have hlen : (List.range NPROC).findIdx (fun k => decide ((t k).state = .runnable)) = (List.range NPROC).length := by
    rw [findIdx_eq_length]
    intro i hi
    exact decide_eq_false fun hst => h ⟨i, mem_range.1 hi, hst⟩
  rw [rr, hlen, length_range]

/-! ## FCFS -/

/-- Of the RUNNABLE processes in the first `n` slots `p` has the smallest `ctime`, and the lowest slot of
those. -/
structure Earliest (t : Nat → Proc) (n p : Nat) : Prop where
  lt : p < n
  runnable : (t p).state = .runnable
  first : ∀ q < n, (t q).state = .runnable → q ≠ p →
    (t p).ctime < (t q).ctime ∨ (t p).ctime = (t q).ctime ∧ p < q

/-- What `p` is after `n` slots. -/
def Scanned (t : Nat → Proc) (n : Nat) : Ptr → Prop
  | none => ∀ q < n, (t q).state ≠ .runnable
  | some p => Earliest t n p

theorem Scanned.skip (h : Scanned t n p) (hn : (t n).state ≠ .runnable) : Scanned t (n + 1) p := by
  cases p with
  | none =>
    intro q hq
    rcases Nat.lt_succ_iff_lt_or_eq.1 hq with hq | rfl
    · exact h q hq
    · exact hn
  | some p =>
    refine ⟨h.lt.trans (Nat.lt_succ_self n), h.runnable, fun q hq hst hne => ?_⟩
    rcases Nat.lt_succ_iff_lt_or_eq.1 hq with hq | rfl
    · exact h.first q hq hst hne
    · exact absurd hst hn

theorem fcfsStep_scanned (h : Scanned t n p) : Scanned t (n + 1) (fcfsStep t p n) := by
  by_cases hn : (t n).state = .runnable
  · simp only [fcfsStep, hn, ne_eq, not_true_eq_false, if_false]
    cases p with
    | none =>
      refine ⟨Nat.lt_succ_self n, hn, fun q hq hst hne => ?_⟩
      exact absurd hst (h q (Nat.lt_of_le_of_ne (Nat.lt_succ_iff.1 hq) hne))
    | some p =>
      dsimp only
      split
      next hgt =>
        refine ⟨Nat.lt_succ_self n, hn, fun q hq hst hne => .inl ?_⟩
        have hq' := Nat.lt_of_le_of_ne (Nat.lt_succ_iff.1 hq) hne
        by_cases hqp : q = p
        · exact hqp ▸ hgt
        · rcases h.first q hq' hst hqp with hlt | ⟨heq, -⟩
          · exact BitVec.lt_trans hgt hlt
          · exact heq ▸ hgt
      next hle =>
        refine ⟨h.lt.trans (Nat.lt_succ_self n), h.runnable, fun q hq hst hne => ?_⟩
        rcases Nat.lt_succ_iff_lt_or_eq.1 hq with hq | rfl
        · exact h.first q hq hst hne
        · -- the later slot takes over only when its `ctime` is smaller
          rcases Nat.lt_or_eq_of_le (BitVec.le_def.1 (BitVec.not_lt.1 hle)) with hlt | heq
          · exact .inl (BitVec.lt_def.2 hlt)
          · exact .inr ⟨BitVec.eq_of_toNat_eq heq, h.lt⟩
  · unfold fcfsStep
    rw [if_pos hn]
    exact h.skip hn

theorem fcfs_scanned (t : Nat → Proc) : Scanned t NPROC (fcfs t) := by
  suffices h : ∀ n, Scanned t n ((List.range n).foldl (fcfsStep t) none) from h NPROC
  intro n
  induction n with
  | zero => exact fun q hq => absurd hq (Nat.not_lt_zero q)
  | succ n ih =>
    rw [range_succ, foldl_concat]
    exact fcfsStep_scanned ih

theorem fcfs_earliest (h : fcfs t = some k) : Earliest t NPROC k := by
  have hscan := fcfs_scanned t
  rw [h] at hscan
  exact hscan

theorem fcfs_runnable (h : fcfs t = some k) : Runnable t k :=
  ⟨(fcfs_earliest h).lt, (fcfs_earliest h).runnable⟩

theorem fcfs_none (h : fcfs t = none) : ¬ ∃ k, Runnable t k := by
  have hscan := fcfs_scanned t
  rw [h] at hscan
  exact fun ⟨k, hk, hst⟩ => hscan k hk hst

/-! ## LOTTERY -/

theorem lotteryLoop_mem {tot rv sv : BitVec 32} {l : List Nat} (h : lotteryLoop t tot rv sv l = some k) :
    k ∈ l ∧ (t k).state = .runnable := by
  induction l generalizing sv with
  | nil => cases h
  | cons fp l ih =>
    simp only [lotteryLoop] at h
    split at h
    next hst =>
      split at h
      · cases h
        exact ⟨mem_cons_self .., hst⟩
      · exact (ih h).imp_left (mem_cons_of_mem _)
    next => exact (ih h).imp_left (mem_cons_of_mem _)

theorem lottery_runnable {ticks : BitVec 32} (h : lottery t ticks = some k) : Runnable t k :=
  (lotteryLoop_mem h).imp_left mem_range.1

/-! ## PBS -/

theorem dp_slt (q : Proc) : (dp q).slt 103 = true := by
  simp only [dp, max, min, BitVec.slt_iff_toInt_lt]
  have h0 : (0 : BitVec 32).toInt = 0 := by decide
  have h100 : (100 : BitVec 32).toInt = 100 := by decide
  have h103 : (103 : BitVec 32).toInt = 103 := by decide
  split <;> split <;> omega

/-- The scan keeps the states; it holds no process only while `min_dp` is still 103. -/
structure PbsOk (t : Nat → Proc) (s : Pbs) : Prop where
  state : ∀ k, (s.t k).state = (t k).state
  null : s.p = none → s.minDp = 103
  ptr : ∀ k, s.p = some k → Runnable t k

theorem pbsStep_ok {s : Pbs} {fp : Nat} (h : PbsOk t s) (hfp : fp < NPROC) :
    ∃ s', pbsStep s fp = .ok s' ∧ PbsOk t s' := by
  unfold pbsStep
  split
  next hst =>
    have hrun : Runnable t fp := ⟨hfp, h.state fp ▸ hst⟩
    generalize hu : Function.update s.t fp { s.t fp with niceness := niceness (s.t fp) } = u
    have hstate : ∀ k, (u k).state = (t k).state := by
      intro k
      rw [← hu, Function.update_apply]
      split
      next he => exact he ▸ h.state fp
      next => exact h.state k
    dsimp only
    split
    next => exact ⟨_, rfl, hstate, nofun, by rintro k ⟨⟩; exact hrun⟩
    next hge =>
      split
      next heq =>
        cases hp : s.p with
        | none =>
          -- `min_dp` is 103 here, above every dynamic priority
          rw [h.null hp, dp_slt] at hge
          exact absurd rfl hge
        | some q =>
          refine ⟨_, rfl, hstate, ?_, ?_⟩
          · split <;> nofun
          intro k hk
          split at hk
          · cases hk
            exact hrun
          · exact h.ptr k (hp.trans hk)
      next => exact ⟨_, rfl, hstate, h.null, h.ptr⟩
  next => exact ⟨s, rfl, h⟩

theorem pbs_run {s : Pbs} {l : List Nat} (h : PbsOk t s) (hl : ∀ fp ∈ l, fp < NPROC) :
    ∃ s', run pbsStep s l = .ok s' ∧ PbsOk t s' := by
  induction l generalizing s with
  | nil => exact ⟨s, rfl, h⟩
  | cons fp l ih =>
    obtain ⟨s1, h1, hok⟩ := pbsStep_ok h (hl fp (mem_cons_self ..))
    obtain ⟨s2, h2, hok⟩ := ih hok fun x hx => hl x (mem_cons_of_mem _ hx)
    exact ⟨s2, by rw [run, h1, bind_ok, h2], hok⟩

/-- The tie-break never reads through a null pointer, and what is left in `p` is a RUNNABLE process. -/
theorem pbs_ok (t : Nat → Proc) : ∃ p, pbs t = .ok p ∧ ∀ k, p = some k → Runnable t k := by
  have h0 : PbsOk t { t := t, p := none, minDp := 103 } := ⟨fun _ => rfl, fun _ => rfl, nofun⟩
  obtain ⟨s, hs, hok⟩ := pbs_run h0 fun fp hfp => mem_range.1 hfp
  exact ⟨s.p, by rw [pbs, hs, bind_ok], hok.ptr⟩

/-! ## MLFQ -/

/-- During a round the states are those of the table, and the queues hold slots. -/
structure InRound (t : Table) (s : Mlfq.Sys) : Prop where
  state : ∀ k, (s.proc k).state = (t.proc k).state
  slots : ∀ i c, some c ∈ s.queue i → c < NPROC

theorem Table.inRound (t : Table) : InRound t t.sys := ⟨fun _ => rfl, t.slots⟩

theorem InRound.slots_step {t : Table} (h : InRound t s) (hs : Mlfq.step s .sched = .ok s') :
    ∀ i c, some c ∈ s'.queue i → c < NPROC := by
  intro i
  refine Mlfq.sched_queue (P := fun q => ∀ c, some c ∈ q → c < NPROC) hs ?_ ?_ (h.slots i)
  · intro same p q hp hq c hc
    rcases SlotArray.mem_listed_push _ (SlotArray.mem_listed.2 hc) with hc | rfl
    · exact hq c (SlotArray.mem_listed.1 hc)
    · exact hp.elim id fun ⟨j, hj⟩ => h.slots j c hj
  · intro same q hq c hc
    exact hq c (SlotArray.mem_listed.1 (SlotArray.mem_listed_remove _ (SlotArray.mem_listed.2 hc)))

theorem InRound.step {t : Table} (h : InRound t s) (hs : Mlfq.step s .sched = .ok s') :
    (InRound t s' ∧ ∀ p, s'.pc ≠ .running p) ∨ ∃ p, s'.pc = .running p ∧ Runnable t.proc p := by
  have hslots := h.slots_step hs
  cases Mlfq.sched_cases hs with
  | move hop => exact .inl ⟨⟨h.state, hslots⟩, fun _ => hop.idle⟩
  | @queue k s₁ hpc hst hq hk =>
    refine .inl ⟨⟨fun c => ?_, hslots⟩, by simp⟩
    rw [Mlfq.goto_proc, (Mlfq.queueProc_proc hq).1]
    exact h.state c
  | @age i j fp s₁ s₂ hpc he hw hd hq =>
    refine .inl ⟨⟨fun c => ?_, hslots⟩, by simp⟩
    rw [Mlfq.goto_proc, (Mlfq.queueProc_proc hq).1, ← h.state c, ← (Mlfq.dequeueProc_proc hd).1]
    by_cases hfp : c = fp
    · rw [hfp, Mlfq.setProc_self, Mlfq.promote]
    · rw [Mlfq.setProc_ne _ _ _ _ hfp]
  | drop hd he =>
    refine .inl ⟨⟨fun c => ?_, hslots⟩, by simp⟩
    rw [Mlfq.goto_proc, (Mlfq.dequeueProc_proc hd).1]
    exact h.state c
  | @run i j fp s₁ hd hst he =>
    refine .inr ⟨fp, rfl, h.slots i fp (Mlfq.mem_of_entry he), ?_⟩
    rw [← h.state fp, ← (Mlfq.dequeueProc_proc hd).1]
    exact hst

theorem round_runnable {t : Table} (h : InRound t s) (hr : round n s = .ok p) :
    ∀ k, p = some k → Runnable t.proc k := by
  induction n generalizing s with
  | zero => cases hr
  | succ n ih =>
    simp only [round] at hr
    split at hr
    next s' hs =>
      rcases h.step hs with ⟨hin, hidle⟩ | ⟨q, hq, hrun⟩
      · split at hr
        next q hq => exact absurd hq (hidle q)
        next =>
          cases hr
          nofun
        next => exact ih hin hr
      · rw [hq] at hr
        cases hr
        rintro k ⟨⟩
        exact hrun
    next => cases hr
    next => cases hr

theorem left_pos (i j : Nat) : 0 < left i j := by
  unfold left
  split <;> omega

theorem left_next (hi : i < NPR) (hj : j < NPROC) : left i (j + 1) < left i j := by
  rw [left, left, if_pos hi, if_pos hi]
  omega

theorem left_row (hi : i < NPR) : left (i + 1) 0 < left i j := by
  rw [left, left, if_pos hi]
  split
  next hi' =>
    simp only [NPR, NPROC] at hi' ⊢
    omega
  next => omega

/-- An iteration chooses a process, ends the round, or brings its end nearer. -/
theorem rank_step (h : Mlfq.step s .sched = .ok s') :
    (∃ p, s'.pc = .running p) ∨ s'.pc = .enqueue 0 ∨ rank s'.pc < rank s.pc := by
  cases Mlfq.sched_cases h with
  | @move pc hop =>
    rw [Mlfq.goto_pc]
    generalize s.pc = a at hop
    cases hop with
    | skip hk =>
      simp only [rank]
      omega
    | enqueued =>
      have hrow : left 1 0 < left 0 0 := left_row (by decide)
      simp only [rank]
      omega
    | stay hi hj => exact .inr (.inr (Nat.add_lt_add_right (left_next hi hj) _))
    | level hi => exact .inr (.inr (Nat.add_lt_add_right (left_row hi) _))
    | aged hi =>
      simp only [rank, left, hi, if_false]
      omega
    | empty hi => exact .inr (.inr (left_row hi))
    | round => exact .inr (.inl rfl)
  | queue hpc _ _ hk =>
    rw [hpc]
    simp only [Mlfq.goto_pc, rank]
    omega
  | age hpc _ _ _ _ hi hj =>
    rw [hpc]
    exact .inr (.inr (Nat.add_lt_add_right (left_next hi hj) _))
  | drop _ _ _ hpc hi hj =>
    rw [hpc]
    exact .inr (.inr (left_next hi hj))
  | @run _ _ fp => exact .inl ⟨fp, rfl⟩

theorem queueProc_moves (s : Mlfq.Sys) (p : Nat) : Mlfq.queueProc s p ≠ .stuck := by
  simp only [Mlfq.queueProc]
  split <;> simp

theorem dequeueProc_moves (s : Mlfq.Sys) (p : Nat) : Mlfq.dequeueProc s p ≠ .stuck := by
  simp only [Mlfq.dequeueProc]
  split <;> simp

theorem step_moves (h : ∀ p, s.pc ≠ .running p) : Mlfq.step s .sched ≠ .stuck := by
  simp only [Mlfq.step]
  cases hpc : s.pc with
  | enqueue n =>
    simp only [Mlfq.enqueueStep]
    split
    · refine bind_ne_stuck ?_ (by simp)
      split
      · exact queueProc_moves s n
      · simp
    · simp
  | age i j =>
    simp only [Mlfq.ageStep]
    split
    · split
      · split
        · split
          · exact bind_ne_stuck (dequeueProc_moves _ _) fun s1 =>
              bind_ne_stuck (queueProc_moves _ _) (by simp)
          · simp
        · simp
      · simp
    · simp
  | select i j =>
    simp only [Mlfq.selectStep]
    split
    · split
      · split
        · refine bind_ne_stuck (dequeueProc_moves _ _) fun s1 => ?_
          split <;> simp
        · simp
      · simp
    · simp
  | running p => exact absurd hpc (h p)

theorem rank_pos {pc : Mlfq.Pc} (h : ∀ p, pc ≠ .running p) : 0 < rank pc := by
  have := left_pos 0 0
  cases pc with
  | enqueue k =>
    simp only [rank]
    omega
  | age i j =>
    simp only [rank]
    omega
  | select i j => exact left_pos i j
  | running p => exact absurd rfl (h p)

theorem round_ends (h : ∀ p, s.pc ≠ .running p) (hn : rank s.pc ≤ n) : round n s ≠ .stuck := by
  induction n generalizing s with
  | zero =>
    have := rank_pos h
    omega
  | succ n ih =>
    simp only [round]
    split
    next s' hs =>
      split
      next => nofun
      next => nofun
      next hnot hne =>
        refine ih hnot ?_
        rcases rank_step hs with ⟨p, hp⟩ | hp | hp
        · exact absurd hp (hnot p)
        · exact absurd hp hne
        · omega
    next => nofun
    next hs => exact absurd hs (step_moves h)

/-! ## The builds -/

/-- The selection comes to the dispatch step without a read through a null pointer, and what it brings is null
or a slot of the table, null if nothing is RUNNABLE. -/
structure Real (b : Build) (t : Table) : Prop where
  ends : select b t ≠ .stuck
  noNull : select b t ≠ .halt .nullPointer
  slot : ∀ k, select b t = .ok (some k) → k < NPROC
  idle : (¬ ∃ k, Runnable t.proc k) → ∀ p, select b t = .ok p → p = none

theorem Real.of_runnable {b : Build} {t : Table} (hends : select b t ≠ .stuck)
    (hnull : select b t ≠ .halt .nullPointer) (h : ∀ k, select b t = .ok (some k) → Runnable t.proc k) : Real b t where
  ends := hends
  noNull := hnull
  slot k hk := (h k hk).1
  idle hnone p hp := by
    cases p with
    | none => rfl
    | some k => exact absurd ⟨k, h k hp⟩ hnone

theorem round_noNull (n : Nat) (s : Mlfq.Sys) : round n s ≠ .halt .nullPointer := by
  induction n generalizing s with
  | zero => nofun
  | succ n ih =>
    simp only [round]
    split
    · split
      · nofun
      · nofun
      · exact ih _
    · nofun
    · nofun

/-- **The pointer is null or a slot, and null on an idle machine, in every build and every table but the
idle one under RR.** -/
theorem dispatch_real (b : Build) (t : Table) : Real b t ↔ (b = .rr → ∃ k, Runnable t.proc k) := by
  constructor
  · rintro h rfl
    by_contra hidle
    exact absurd (h.slot NPROC (congrArg Outcome.ok (rr_idle hidle))) (Nat.lt_irrefl _)
  intro h
  cases b with
  | rr =>
    refine .of_runnable nofun nofun fun k hk => ?_
    cases hk
    exact rr_runnable (h rfl) rfl
  | fcfs =>
    refine .of_runnable nofun nofun fun k hk => ?_
    exact fcfs_runnable (Outcome.ok.inj hk)
  | lottery =>
    refine .of_runnable nofun nofun fun k hk => ?_
    exact lottery_runnable (Outcome.ok.inj hk)
  | pbs =>
    obtain ⟨p, hp, hrun⟩ := pbs_ok t.proc
    have hsel : select .pbs t = .ok p := hp
    refine .of_runnable (by rw [hsel]; nofun) (by rw [hsel]; nofun) fun k hk => hrun k ?_
    exact Outcome.ok.inj (hsel.symm.trans hk)
  | mlfq =>
    refine .of_runnable (round_ends nofun (Nat.le_refl _)) (round_noNull _ _) fun k hk => ?_
    exact round_runnable t.inRound hk k rfl

/-- A process as `allocproc` makes it, in slot `k`. -/
def fresh (k : Nat) (state : ProcState) : Proc where
  state := state
  pid := BitVec.ofNat 32 (k + 1)
  ctime := 0
  tickets := 1
  pbsRtime := 0
  stime := 0
  staticP := 60
  niceness := 5
  wtime := 0
  schNo := 0
  wticks := 0
  pr := 0

def sample (state : Nat → ProcState) : Table where
  proc k := fresh k (state k)
  ticks := 0
  queue _ := List.replicate NPROC none
  slots i c h := by simp at h

/-- All processes asleep: RR takes the address behind the table, the other builds null. -/
theorem rr_past_table : ¬ Real .rr (sample fun _ => .sleeping) ∧
    select .rr (sample fun _ => .sleeping) = .ok (some NPROC) ∧
    ∀ b, b ≠ .rr → select b (sample fun _ => .sleeping) = .ok none := by
  have hrr : select .rr (sample fun _ => .sleeping) = .ok (some NPROC) := by decide +kernel
  refine ⟨fun h => absurd (h.slot NPROC hrr) (Nat.lt_irrefl _), hrr, fun b hb => ?_⟩
  cases b <;> first | exact absurd rfl hb | decide +kernel

end Xv6Riscv.Sched
