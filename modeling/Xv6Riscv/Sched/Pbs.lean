import Mathlib.Data.Prod.Lex
import Xv6Riscv.Lib.Least
import Xv6Riscv.Sched.Dispatch

/-!
# The pass of PBS (proc.c:686)

The pass writes `niceness` to every RUNNABLE process and keeps the process that is first by dynamic priority,
`sch_no`, `ctime` and slot (`pass_least`).

The quotient `sleep / (sleep + pbs_rtime)` is taken in integers, before the multiplication by 10. It is 1 for a
process that has not run at all and 0 for every other one, so `niceness` is 10 or 0, where the formula of the
README gives the values in between.
-/
namespace Xv6Riscv.Sched
open Machine Scan BitVec

variable {t : Nat → Proc} {k n : Nat}

/-- `fp` after the pass has computed its niceness. -/
def price (q : Proc) : Proc := { q with niceness := niceness q }

/-- The table when the pass has come to slot `n`. -/
def priced (t : Nat → Proc) (n k : Nat) : Proc := if k < n ∧ (t k).state = .runnable then price (t k) else t k

/-- The loop over the table. -/
def pass (t : Nat → Proc) : Outcome Fault Pbs := run pbsStep { t := t, p := none, minDp := 103 } (List.range NPROC)

theorem pbs_eq_pass (t : Nat → Proc) : pbs t = (pass t).bind fun s => .ok s.p := rfl

/-- Dynamic priority, `sch_no`, `ctime` and slot, in this order. -/
def key (t : Nat → Proc) (k : Nat) : Int ×ₗ Int ×ₗ Nat ×ₗ Nat :=
  toLex ((dp (t k)).toInt, toLex ((t k).schNo.toInt, toLex ((t k).ctime.toNat, k)))

/-! ## One slot -/

@[simp] theorem price_schNo (q : Proc) : (price q).schNo = q.schNo := rfl

@[simp] theorem price_ctime (q : Proc) : (price q).ctime = q.ctime := rfl

theorem priced_zero (t : Nat → Proc) : priced t 0 = t := by
  funext k
  simp [priced]

theorem priced_self (t : Nat → Proc) (n : Nat) : priced t n n = t n := by simp [priced]

theorem priced_of_lt (hk : k < n) (hst : (t k).state = .runnable) : priced t n k = price (t k) := if_pos ⟨hk, hst⟩

theorem priced_skip (hn : (t n).state ≠ .runnable) : priced t (n + 1) = priced t n := by
  funext k
  refine if_congr ⟨fun h => ⟨?_, h.2⟩, fun h => ⟨h.1.trans (Nat.lt_succ_self n), h.2⟩⟩ rfl rfl
  exact Nat.lt_of_le_of_ne (Nat.lt_succ_iff.1 h.1) fun he => hn (he ▸ h.2)

theorem priced_succ (hn : (t n).state = .runnable) :
    Function.update (priced t n) n (price (t n)) = priced t (n + 1) := by
  funext k
  rw [Function.update_apply]
  split
  next he => rw [he, priced_of_lt (Nat.lt_succ_self n) hn]
  next hne =>
    refine if_congr ⟨fun h => ⟨h.1.trans (Nat.lt_succ_self n), h.2⟩, fun h => ⟨?_, h.2⟩⟩ rfl rfl
    exact Nat.lt_of_le_of_ne (Nat.lt_succ_iff.1 h.1) hne

/-- The keys by the niceness that the pass computes. -/
def order (t : Nat → Proc) : Nat → Int ×ₗ Int ×ₗ Nat ×ₗ Nat := key fun k => price (t k)

theorem key_priced (hk : k < n) (hst : (t k).state = .runnable) : key (priced t n) k = order t k := by
  rw [order, key, key, priced_of_lt hk hst]

theorem order_lt {j k : Nat} : order t j < order t k ↔
    (dp (price (t j))).toInt < (dp (price (t k))).toInt ∨ dp (price (t j)) = dp (price (t k)) ∧
      ((t j).schNo.toInt < (t k).schNo.toInt ∨ (t j).schNo = (t k).schNo ∧
        ((t j).ctime < (t k).ctime ∨ (t j).ctime = (t k).ctime ∧ j < k)) := by
  simp only [order, key, Prod.Lex.toLex_lt_toLex, price_schNo, price_ctime, toInt_inj, toNat_inj,
    lt_def]

/-- A tie of dynamic priorities goes to the later slot exactly when it is before the earlier one in the order. -/
theorem wins_iff {p : Nat} (hp : p < n) (hd : dp (price (t n)) = dp (price (t p))) :
    wins (priced t (n + 1)) n p = true ↔ order t n < order t p := by
  have hfield : ∀ k, (priced t (n + 1) k).schNo = (t k).schNo ∧ (priced t (n + 1) k).ctime = (t k).ctime := by
    intro k
    unfold priced
    split <;> exact ⟨rfl, rfl⟩
  have hnot : ¬ n < p := Nat.not_lt.2 hp.le
  simp only [wins, (hfield n).1, (hfield n).2, (hfield p).1, (hfield p).2, Bool.or_eq_true, Bool.and_eq_true,
    slt_iff_toInt_lt, beq_iff_eq, decide_eq_true_eq, order_lt, hd, Int.lt_irrefl, false_or, true_and, hnot,
    and_false, or_false]

/-! ## The scan -/

/-- The pass in front of slot `n`. -/
structure Scanning (t : Nat → Proc) (n : Nat) (s : Pbs) : Prop where
  table : s.t = priced t n
  null : s.p = none → s.minDp = 103 ∧ ∀ q < n, (t q).state ≠ .runnable
  best : ∀ p, s.p = some p →
    s.minDp = dp (price (t p)) ∧ Least (fun k => (t k).state = .runnable) (order t) n p

theorem Scanning.step {s : Pbs} (h : Scanning t n s) : ∃ s', pbsStep s n = .ok s' ∧ Scanning t (n + 1) s' := by
  have hself : s.t n = t n := by rw [h.table, priced_self]
  unfold pbsStep
  rw [hself]
  split
  next hst =>
    have htable : Function.update s.t n { t n with niceness := niceness (t n) } = priced t (n + 1) := by
      rw [h.table]
      exact priced_succ hst
    have hdp : dp (priced t (n + 1) n) = dp (price (t n)) := by rw [priced_of_lt (Nat.lt_succ_self n) hst]
    rw [htable]
    dsimp only
    rw [hdp]
    cases hp : s.p with
    | none =>
      -- the first RUNNABLE process: every dynamic priority is below 103
      obtain ⟨hmin, hno⟩ := h.null hp
      rw [hmin, dp_slt, if_pos rfl]
      exact ⟨_, rfl, rfl, nofun, by rintro p ⟨⟩; exact ⟨rfl, .first hno hst⟩⟩
    | some p =>
      obtain ⟨hmin, hbest⟩ := h.best p hp
      rw [hmin]
      split
      next hlt =>
        refine ⟨_, rfl, rfl, nofun, ?_⟩
        rintro q ⟨⟩
        exact ⟨rfl, hbest.take hst (order_lt.2 (.inl (slt_iff_toInt_lt.1 hlt)))⟩
      next hge =>
        rw [slt_iff_toInt_lt, Int.not_lt] at hge
        split
        next heq =>
          -- equal priorities: `wins` decides
          have hwins := wins_iff hbest.lt heq
          refine ⟨_, rfl, rfl, by dsimp only; split <;> nofun, ?_⟩
          intro q hq
          split at hq
          next hw => cases hq; exact ⟨heq.symm, hbest.take hst (hwins.1 hw)⟩
          next hw =>
            cases hq
            refine ⟨rfl, hbest.keep ((not_lt.1 (mt hwins.2 hw)).lt_of_ne fun he => ?_)⟩
            -- two slots never have the same key
            have hslot : (p : Nat) = n := by
              have := congrArg (fun x => (ofLex (ofLex (ofLex x).2).2).2) he
              exact this
            exact absurd hslot hbest.lt.ne
        next hne =>
          refine ⟨_, rfl, rfl, nofun, ?_⟩
          rintro q ⟨⟩
          have hlt : (dp (price (t p))).toInt < (dp (price (t n))).toInt :=
            lt_of_le_of_ne hge fun he => hne (eq_of_toInt_eq he).symm
          exact ⟨rfl, hbest.keep (order_lt.2 (.inl hlt))⟩
  next hst =>
    refine ⟨s, rfl, by rw [h.table, priced_skip hst], fun hp => ?_, fun p hp => ?_⟩
    · obtain ⟨hmin, hno⟩ := h.null hp
      refine ⟨hmin, fun q hq => ?_⟩
      rcases Nat.lt_succ_iff_lt_or_eq.1 hq with hq | rfl
      · exact hno q hq
      · exact hst
    · obtain ⟨hmin, hbest⟩ := h.best p hp
      exact ⟨hmin, hbest.skip hst⟩

theorem pass_scanning (t : Nat → Proc) : ∃ s, pass t = .ok s ∧ Scanning t NPROC s := by
  suffices h : ∀ n, ∃ s, run pbsStep { t := t, p := none, minDp := 103 } (List.range n) = .ok s ∧ Scanning t n s from
    h NPROC
  intro n
  induction n with
  | zero => exact ⟨_, rfl, (priced_zero t).symm, fun _ => ⟨rfl, nofun⟩, nofun⟩
  | succ n ih =>
    obtain ⟨s, hs, hscan⟩ := ih
    obtain ⟨s', hs', hscan'⟩ := hscan.step
    refine ⟨s', ?_, hscan'⟩
    rw [List.range_succ, run_append, hs, Outcome.bind_ok, run, hs', Outcome.bind_ok, run]

/-- Every pass runs to its end, without a read through the null pointer, and brings the RUNNABLE process that is
least by the dynamic priorities it has computed, `sch_no`, `ctime` and slot; null only when nothing is RUNNABLE. -/
theorem pass_least (t : Nat → Proc) : ∃ s, pass t = .ok s ∧ pbs t = .ok s.p ∧
    (s.p ≠ none ↔ ∃ k, Runnable t k) ∧
    (∀ k, Runnable t k → (s.t k).niceness = niceness (t k)) ∧
    ∀ k, s.p = some k ↔ Runnable t k ∧ ∀ j, Runnable t j → j ≠ k → key s.t k < key s.t j := by
  obtain ⟨s, hs, hscan⟩ := pass_scanning t
  have hkey : ∀ k, Runnable t k → key s.t k = order t k := by
    intro k hk
    rw [hscan.table, key_priced hk.1 hk.2]
  have hsome : ∀ k, s.p = some k → Runnable t k ∧ ∀ j, Runnable t j → j ≠ k → key s.t k < key s.t j := by
    intro k hk
    obtain ⟨-, hbest⟩ := hscan.best k hk
    have hrun : Runnable t k := ⟨hbest.lt, hbest.sat⟩
    refine ⟨hrun, fun j hj hne => ?_⟩
    rw [hkey k hrun, hkey j hj]
    exact hbest.least j hj.1 hj.2 hne
  have hnull : s.p = none → ¬ ∃ k, Runnable t k := fun hp ⟨k, hk⟩ => (hscan.null hp).2 k hk.1 hk.2
  refine ⟨s, hs, by rw [pbs_eq_pass, hs, Outcome.bind_ok], ⟨fun hp => ?_, fun hr hp => hnull hp hr⟩, ?_, fun k =>
    ⟨hsome k, fun ⟨hk, hleast⟩ => ?_⟩⟩
  · obtain ⟨k, hk⟩ := Option.ne_none_iff_exists'.1 hp
    exact ⟨k, (hsome k hk).1⟩
  · intro k hk
    rw [hscan.table, priced_of_lt hk.1 hk.2, price]
  cases hp : s.p with
  | none => exact absurd ⟨k, hk⟩ (hnull hp)
  | some q =>
    -- both are least, so they are the same
    obtain ⟨hq, hleast'⟩ := hsome q hp
    by_contra hne
    have hne : q ≠ k := fun he => hne (congrArg some he)
    exact lt_asymm (hleast q hq hne) (hleast' k hk hne.symm)

/-! ## The formulas -/

/-- A process that slept `s` ticks and ran `r` since its last dispatch. -/
structure Slept (q : Proc) (s r : Nat) : Prop where
  slept : (q.wtime - q.stime).toInt = s
  ran : q.pbsRtime.toInt = r
  pos : 0 < s + r

/-- It has the static priority `sp`. -/
structure Timed (q : Proc) (s r sp : Nat) : Prop extends Slept q s r where
  prio : q.staticP.toInt = sp
  le : sp ≤ 100

section
variable {q q' : Proc} {s r sp s' r' : Nat}

theorem toInt_lt (a : BitVec 32) : a.toInt < 2 ^ 31 := BitVec.toInt_lt

theorem Slept.bounds (h : Slept q s r) : s < 2 ^ 31 ∧ r < 2 ^ 31 := by
  have hs := toInt_lt (q.wtime - q.stime)
  have hr := toInt_lt q.pbsRtime
  rw [h.slept] at hs
  rw [h.ran] at hr
  omega

/-- The `int` that the sum `sleep + pbs_rtime` is. -/
def wrapped (n : Nat) : Int := if n < 2 ^ 31 then n else (n : Int) - 2 ^ 32

theorem toInt_ofNat {n : Nat} (h : n < 2 ^ 32) : (BitVec.ofNat 32 n).toInt = wrapped n := by
  have hn : (BitVec.ofNat 32 n).toNat = n := by
    exact Nat.mod_eq_of_lt h
  rw [toInt_eq_toNat_cond, hn, wrapped]
  split <;> split <;> omega

theorem Slept.niceness (h : Slept q s r) :
    (Sched.niceness q).toInt = Int.bmod ((s : Int).tdiv (wrapped (s + r)) * 10) (2 ^ 32) := by
  obtain ⟨hs31, hr31⟩ := h.bounds
  have hpos := h.pos
  have hsum : (q.wtime - q.stime) + q.pbsRtime = BitVec.ofNat 32 (s + r) := by
    rw [← ofInt_toInt (x := q.wtime - q.stime), ← ofInt_toInt (x := q.pbsRtime), h.slept, h.ran,
      ofInt_natCast, ofInt_natCast, ofNat_add]
  have hne : ¬ (q.wtime - q.stime = 0 ∧ q.pbsRtime = 0) := by
    rintro ⟨hs0, hr0⟩
    have hs := h.slept
    have hr := h.ran
    rw [hs0] at hs
    rw [hr0] at hr
    have : (0 : BitVec 32).toInt = 0 := by decide
    omega
  have hdiv : BitVec.ofNat 32 (s + r) ≠ 0 := by
    intro h0
    have := congrArg BitVec.toNat h0
    simp at this
    omega
  have hmin : q.wtime - q.stime ≠ BitVec.intMin 32 := by
    intro he
    have hs := h.slept
    rw [he] at hs
    have : (BitVec.intMin 32).toInt = -2 ^ 31 := by decide
    omega
  have h10 : (10 : BitVec 32).toInt = 10 := by decide
  rw [Sched.niceness, if_neg hne, hsum, divw, if_neg hdiv, toInt_mul,
    toInt_sdiv_of_ne_or_ne _ _ (.inl hmin), h.slept, toInt_ofNat (by omega), h10]

/-- Without overflow `niceness` is 10 for a process that has not run and 0 for every other one. -/
theorem Slept.niceness_eq (h : Slept q s r) (hlt : s + r < 2 ^ 31) :
    (Sched.niceness q).toInt = if r = 0 then 10 else 0 := by
  have hpos := h.pos
  rw [h.niceness, wrapped, if_pos hlt]
  split
  next h0 =>
    subst h0
    have : (s : Int).tdiv ((s + 0 : Nat) : Int) = 1 := Int.tdiv_self (by omega)
    rw [this]
    decide
  next h0 =>
    have : (s : Int).tdiv ((s + r : Nat) : Int) = 0 := Int.tdiv_eq_zero_of_lt (by omega) (by omega)
    rw [this]
    decide

/-- The formula of the README, rounded down. -/
def formula (s r : Nat) : Nat := 10 * s / (s + r)

theorem formula_eq_zero_iff (hpos : 0 < s + r) : formula s r = 0 ↔ 9 * s < r := by
  rw [formula, Nat.div_eq_zero_iff_lt hpos]
  omega

theorem formula_le : formula s r ≤ 10 := by
  unfold formula
  rcases Nat.eq_zero_or_pos (s + r) with h0 | hpos
  · rw [h0, Nat.div_zero]
    omega
  · exact Nat.div_le_of_le_mul (by omega)

/-- The multiples of 10 that wrap to a value between 0 and 10. -/
theorem bmod_tenfold {k f : Nat} (hk : k < 2 ^ 30) (hf : f ≤ 10) (h : Int.bmod (-(k : Int) * 10) (2 ^ 32) = f) :
    k = 0 ∧ f = 0 ∨ k = 429496729 ∧ f = 6 ∨ k = 858993459 ∧ f = 2 := by
  have hdvd := Int.dvd_bmod_sub_self (x := -(k : Int) * 10) (m := 2 ^ 32)
  obtain ⟨m, hm⟩ := hdvd
  -- `10 * k + f` is 0, `2 ^ 32` or `2 ^ 33`
  have hm3 : m = 0 ∨ m = 1 ∨ m = 2 := by omega
  rcases hm3 with rfl | rfl | rfl <;> omega

/-- When the sum wraps, the quotient is negative or zero, and ten times it is never the value of the formula unless
both are zero. -/
theorem Slept.niceness_wrapped (h : Slept q s r) (hge : 2 ^ 31 ≤ s + r) :
    (Sched.niceness q).toInt = formula s r ↔ 9 * s < r := by
  obtain ⟨hs31, hr31⟩ := h.bounds
  have hf := formula_eq_zero_iff h.pos
  have hle : formula s r ≤ 10 := formula_le
  have hmul : formula s r * (s + r) ≤ 10 * s := Nat.div_mul_le_self _ _
  rw [h.niceness, wrapped, if_neg (by omega)]
  obtain ⟨d, hd⟩ : ∃ d : Nat, 2 ^ 32 - (s + r) = d := ⟨_, rfl⟩
  obtain ⟨k, hk⟩ : ∃ k : Nat, s / d = k := ⟨_, rfl⟩
  have hd2 : 2 ≤ d := by omega
  have hquot : (s : Int).tdiv ((s + r : Nat) - 2 ^ 32) = -(k : Int) := by
    have : ((s + r : Nat) : Int) - 2 ^ 32 = -(d : Int) := by omega
    rw [this, Int.tdiv_neg, ← Int.ofNat_tdiv, hk]
  have hkd : k * d ≤ s := hk ▸ Nat.div_mul_le_self s d
  have hdk : s < (k + 1) * d := by
    have := Nat.lt_mul_div_succ s (show 0 < d by omega)
    rwa [hk, Nat.mul_comm] at this
  have hk30 : k * 2 ≤ s := (Nat.mul_le_mul_left k hd2).trans hkd
  rw [hquot]
  constructor
  · intro he
    refine hf.1 ?_
    rcases bmod_tenfold (by omega) hle he with ⟨-, h0⟩ | ⟨hk, h6⟩ | ⟨hk, h2⟩
    · exact h0
    · -- the quotient is that large only for a divisor of 5, where the formula gives 5
      rw [h6] at hmul
      rw [hk] at hkd hdk
      omega
    · rw [hk] at hkd hdk
      omega
  · intro hlt
    have hk0 : k = 0 := hk ▸ Nat.div_eq_of_lt (by omega)
    rw [hf.2 hlt, hk0]
    decide

theorem Slept.niceness_iff (h : Slept q s r) : (Sched.niceness q).toInt = formula s r ↔ r = 0 ∨ 9 * s < r := by
  have hpos := h.pos
  obtain ⟨hs31, hr31⟩ := h.bounds
  rcases Nat.lt_or_ge (s + r) (2 ^ 31) with hlt | hge
  · rw [h.niceness_eq hlt]
    split
    next h0 =>
      subst h0
      have : formula s 0 = 10 := by
        rw [formula, Nat.add_zero, Nat.mul_div_cancel _ (by omega)]
      simp [this]
    next h0 =>
      rw [or_iff_right h0, ← formula_eq_zero_iff hpos]
      omega
  · rw [h.niceness_wrapped hge]
    exact ⟨.inr, fun h' => h'.resolve_left (by omega)⟩

theorem Timed.dp_eq (h : Timed q s r sp) {m : Nat} (hn : (Sched.niceness q).toInt = m) (hm : m ≤ 10) :
    (dp (price q)).toInt = Max.max 0 (Min.min ((sp : Int) - m + 5) 100) := by
  have hle := h.le
  have h5 : (5 : BitVec 32).toInt = 5 := by decide
  have h0 : (0 : BitVec 32).toInt = 0 := by decide
  have h100 : (100 : BitVec 32).toInt = 100 := by decide
  have hval : (q.staticP - Sched.niceness q + 5).toInt = (sp : Int) - m + 5 := by
    rw [toInt_add, toInt_sub, h.prio, hn, h5, Int.bmod_def, Int.bmod_def]
    split <;> split <;> omega
  simp only [dp, price, max, min, slt_iff_toInt_lt]
  split <;> split <;> omega

theorem Slept.niceness_mono (h : Slept q s r) (h' : Slept q' s' r') (hlt : s + r < 2 ^ 31)
    (hlt' : s' + r' < 2 ^ 31) (hle : s * (s' + r') ≤ s' * (s + r)) :
    (Sched.niceness q).toInt ≤ (Sched.niceness q').toInt := by
  have hpos := h.pos
  rw [h.niceness_eq hlt, h'.niceness_eq hlt']
  by_cases h0 : r = 0
  · -- a fraction of one is only below another one
    subst h0
    have hr' : s * r' ≤ 0 := by
      rw [Nat.mul_add, Nat.add_zero, Nat.mul_comm s' s] at hle
      omega
    rcases Nat.mul_eq_zero.1 (Nat.le_zero.1 hr') with h0 | h0
    · omega
    · rw [if_pos rfl, if_pos h0]
  · split <;> omega

theorem Timed.dp_anti (h : Timed q s r sp) (h' : Timed q' s' r' sp) (hlt : s + r < 2 ^ 31)
    (hlt' : s' + r' < 2 ^ 31) (hle : (Sched.niceness q).toInt ≤ (Sched.niceness q').toInt) :
    (dp (price q')).toInt ≤ (dp (price q)).toInt := by
  have hval : ∀ {q : Proc} {s r : Nat}, Slept q s r → s + r < 2 ^ 31 →
      ∃ m : Nat, (Sched.niceness q).toInt = m ∧ m ≤ 10 := by
    intro q s r h hlt
    rw [h.niceness_eq hlt]
    split
    · exact ⟨10, rfl, by omega⟩
    · exact ⟨0, rfl, by omega⟩
  obtain ⟨m, hm, hm10⟩ := hval h.toSlept hlt
  obtain ⟨m', hm', hm10'⟩ := hval h'.toSlept hlt'
  rw [h.dp_eq hm hm10, h'.dp_eq hm' hm10']
  omega

end

/-- In every pass the niceness and the dynamic priority of a RUNNABLE process are those of the formulas exactly when
it has not run since its last dispatch or has slept for less than a tenth of the time. As long as `sleep + pbs_rtime`
is an `int`, a larger sleeping time, a smaller running time or a larger fraction of sleep never makes the niceness
smaller or, with the same static priority, the dynamic priority larger. -/
theorem pbs_formula {s r sp : Nat} (hk : Runnable t k) (h : Timed (t k) s r sp) : ∃ st, pass t = .ok st ∧
    (((st.t k).niceness.toInt = formula s r ∧
        (dp (st.t k)).toInt = Max.max 0 (Min.min ((sp : Int) - formula s r + 5) 100)) ↔ r = 0 ∨ 9 * s < r) ∧
    ∀ j s' r' sp', Runnable t j → Timed (t j) s' r' sp' → s + r < 2 ^ 31 → s' + r' < 2 ^ 31 →
      (s ≤ s' ∧ r' ≤ r ∨ s * (s' + r') ≤ s' * (s + r)) →
      (st.t k).niceness.toInt ≤ (st.t j).niceness.toInt ∧
        (sp' = sp → (dp (st.t j)).toInt ≤ (dp (st.t k)).toInt) := by
  obtain ⟨st, hst, hscan⟩ := pass_scanning t
  have hprice : ∀ j, Runnable t j → st.t j = price (t j) := fun j hj => by
    rw [hscan.table, priced_of_lt hj.1 hj.2]
  refine ⟨st, hst, ?_, fun j s' r' sp' hj h' hlt hlt' hle => ?_⟩
  · rw [hprice k hk]
    refine ⟨fun hf => h.niceness_iff.1 hf.1, fun hc => ?_⟩
    have hn := h.niceness_iff.2 hc
    exact ⟨hn, h.dp_eq hn formula_le⟩
  have hfrac : s * (s' + r') ≤ s' * (s + r) := by
    rcases hle with ⟨hs, hr⟩ | hle
    · rw [Nat.mul_add, Nat.mul_add, Nat.mul_comm s s']
      exact Nat.add_le_add_left (Nat.mul_le_mul hs hr) _
    · exact hle
  have hn := h.niceness_mono h'.toSlept hlt hlt' hfrac
  rw [hprice k hk, hprice j hj]
  refine ⟨hn, ?_⟩
  rintro rfl
  exact h.dp_anti h' hlt hlt' hn

/-- A RUNNABLE process in slot 0 that slept `s` ticks and ran `r`. -/
def napper (s r : Nat) (k : Nat) : Proc :=
  { fresh k (if k = 0 then .runnable else .sleeping) with
    wtime := BitVec.ofNat 32 s, pbsRtime := BitVec.ofNat 32 r }

theorem pbs_formula_asleep : ∃ st, pass (napper 3 0) = .ok st ∧
    (st.t 0).niceness.toInt = formula 3 0 ∧ (dp (st.t 0)).toInt = 55 := by
  have htimed : Timed (napper 3 0 0) 3 0 60 := ⟨⟨by decide, by decide, by decide⟩, by decide, by decide⟩
  obtain ⟨st, hst, hf, -⟩ := pbs_formula ⟨by decide, rfl⟩ htimed
  obtain ⟨hn, hd⟩ := hf.2 (.inl rfl)
  exact ⟨st, hst, hn, hd.trans (by decide)⟩

/-- One tick asleep and one tick running: the formula gives a niceness of 5, the pass computes 0. -/
theorem niceness_truncated : Timed (napper 1 1 0) 1 1 60 ∧ formula 1 1 = 5 ∧
    ∃ st, pass (napper 1 1) = .ok st ∧ (st.t 0).niceness = 0 ∧ dp (st.t 0) = 65 := by
  refine ⟨⟨⟨by decide, by decide, by decide⟩, by decide, by decide⟩, by decide, ?_⟩
  obtain ⟨st, hst, hscan⟩ := pass_scanning (napper 1 1)
  refine ⟨st, hst, ?_, ?_⟩ <;> rw [hscan.table] <;> decide

end Xv6Riscv.Sched
