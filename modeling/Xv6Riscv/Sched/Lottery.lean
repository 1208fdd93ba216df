import Mathlib.Order.CompletePartialOrder
import Xv6Riscv.Lib.Roulette
import Xv6Riscv.Sched.Dispatch

/-!
# The lottery draw (proc.c:658)

Each RUNNABLE process gets `tickets * RAND_MAX / tot_tk` of the values `0 .. RAND_MAX`, one process behind the
other in the order of the table, and the random value picks the process whose values it is among. Without
overflow the loop is a spin of this wheel (`draw_eq_spin`).

The quotients are rounded down and add up to `RAND_MAX` at most: the value `RAND_MAX` itself picks no process.
-/
namespace Xv6Riscv.Sched
open Roulette List BitVec

variable {t : Nat → Proc} {k : Nat} {rv : BitVec 32}

/-- The second loop with the random value `rv`. -/
def draw (t : Nat → Proc) (rv : BitVec 32) : Ptr := lotteryLoop t (totTk t) rv 0 (List.range NPROC)

theorem rand_le (seed : BitVec 64) : (rand seed).toNat ≤ RAND_MAX.toNat := by
  rw [rand, toNat_umod]
  exact Nat.le_of_lt_succ (Nat.mod_lt _ (by decide))

/-- Every RUNNABLE process has tickets, and `tickets * RAND_MAX` is an `int`. -/
structure Fair (t : Nat → Proc) : Prop where
  positive : ∀ k < NPROC, (t k).state = .runnable → 0 < (t k).tickets.toInt
  scaled : ∀ k < NPROC, (t k).state = .runnable → (t k).tickets.toInt * RAND_MAX.toInt < 2 ^ 31

/-- The RUNNABLE processes in the order of the table. -/
def runnables (t : Nat → Proc) : List Nat := (List.range NPROC).filter fun k => (t k).state = .runnable

/-- The tickets of the RUNNABLE processes. -/
def allTickets (t : Nat → Proc) : Nat := size (fun k => (t k).tickets.toNat) (runnables t)

/-- The number of values that process `k` has. -/
def share (t : Nat → Proc) (k : Nat) : Nat := (t k).tickets.toNat * RAND_MAX.toNat / allTickets t

/-- The first of them. -/
def first (t : Nat → Proc) (k : Nat) : Nat := start (share t) (runnables t) k

/-- The number of values that some process has. -/
def covered (t : Nat → Proc) : Nat := size (share t) (runnables t)

theorem mem_runnables : k ∈ runnables t ↔ Runnable t k := by
  simp [runnables, Runnable]

theorem nodup_runnables (t : Nat → Proc) : (runnables t).Nodup := List.Nodup.filter _ nodup_range

theorem length_runnables (t : Nat → Proc) : (runnables t).length ≤ NPROC :=
  (length_filter_le _ _).trans_eq length_range

/-! ## The arithmetic of the loop -/

theorem Fair.tickets (h : Fair t) (hk : Runnable t k) :
    0 < (t k).tickets.toNat ∧ (t k).tickets.toNat * RAND_MAX.toNat < 2 ^ 31 := by
  have hpos := h.positive k hk.1 hk.2
  have hmul := h.scaled k hk.1 hk.2
  have hmax : RAND_MAX.toInt = 32767 := by decide
  have hmax' : RAND_MAX.toNat = 32767 := by decide
  rw [hmax] at hmul
  rw [hmax']
  have := toInt_eq_toNat_cond (t k).tickets
  split at this <;> omega

/-- With `NPROC` processes the sum of the tickets is far from overflowing. -/
theorem Fair.allTickets_lt (h : Fair t) : allTickets t < 2 ^ 31 := by
  have hmax : RAND_MAX.toNat = 32767 := by decide
  have hle : allTickets t ≤ (runnables t).length * 65538 := by
    refine size_le _ fun k hk => ?_
    have := (h.tickets (mem_runnables.1 hk)).2
    rw [hmax] at this
    omega
  have hlen : (runnables t).length ≤ 64 := length_runnables t
  omega

theorem Fair.tickets_le (hk : Runnable t k) : (t k).tickets.toNat ≤ allTickets t :=
  le_size (fun k => (t k).tickets.toNat) (mem_runnables.2 hk)

theorem totTk_foldl (l : List Nat) (a : BitVec 32) :
    l.foldl (fun tot fp => if (t fp).state = .runnable then tot + (t fp).tickets else tot) a
      = a + BitVec.ofNat 32 (size (fun k => (t k).tickets.toNat) (l.filter fun k => (t k).state = .runnable)) := by
  induction l generalizing a with
  | nil => simp
  | cons fp l ih =>
    rw [foldl_cons, ih]
    by_cases hst : (t fp).state = .runnable
    · rw [if_pos hst, filter_cons_of_pos (by simpa using hst), size_cons, ofNat_add, BitVec.add_assoc,
        ofNat_toNat, setWidth_eq]
    · rw [if_neg hst, filter_cons_of_neg (by simpa using hst)]

theorem Fair.totTk (h : Fair t) : (totTk t).toNat = allTickets t := by
  have hlt := h.allTickets_lt
  have hsum : Sched.totTk t = BitVec.ofNat 32 (allTickets t) := (totTk_foldl _ 0).trans (BitVec.zero_add _)
  rw [hsum, toNat_ofNat]
  exact Nat.mod_eq_of_lt (by omega)

variable {a b : BitVec 32}

theorem toNat_divw (ha : a.toNat < 2 ^ 31) (hb : b.toNat < 2 ^ 31) (h0 : 0 < b.toNat) :
    (divw a b).toNat = a.toNat / b.toNat := by
  have hne : b ≠ 0 := by rintro rfl; exact absurd h0 (by decide)
  have ha' : a.msb = false := msb_eq_false_iff_two_mul_lt.2 (by omega)
  have hb' : b.msb = false := msb_eq_false_iff_two_mul_lt.2 (by omega)
  rw [divw, if_neg hne, toNat_sdiv, ha', hb']
  exact toNat_udiv

theorem Fair.prob (h : Fair t) (hk : Runnable t k) :
    (divw ((t k).tickets * RAND_MAX) (Sched.totTk t)).toNat = share t k := by
  obtain ⟨hpos, hmul⟩ := h.tickets hk
  have hle := Fair.tickets_le hk
  have hlt := h.allTickets_lt
  have hprod : ((t k).tickets * RAND_MAX).toNat = (t k).tickets.toNat * RAND_MAX.toNat := by
    exact Nat.mod_eq_of_lt (by omega)
  rw [toNat_divw (by omega) (by rw [h.totTk]; omega) (by rw [h.totTk]; omega), hprod, h.totTk, share]

/-! ## The loop is a spin of the wheel -/

theorem sle_iff_toNat (ha : a.toNat < 2 ^ 31) (hb : b.toNat < 2 ^ 31) : a.sle b = true ↔ a.toNat ≤ b.toNat := by
  rw [sle_iff_toInt_le, toInt_eq_toNat_of_lt (by omega), toInt_eq_toNat_of_lt (by omega)]
  omega

theorem slt_iff_toNat (ha : a.toNat < 2 ^ 31) (hb : b.toNat < 2 ^ 31) : a.slt b = true ↔ a.toNat < b.toNat := by
  rw [slt_iff_toInt_lt, toInt_eq_toNat_of_lt (by omega), toInt_eq_toNat_of_lt (by omega)]
  omega

theorem lotteryLoop_eq_spin (h : Fair t) {l : List Nat} (hl : ∀ k ∈ l, k < NPROC) {sv : BitVec 32}
    (hrv : rv.toNat < 2 ^ 31) (hsv : sv.toNat + size (share t) (l.filter fun k => (t k).state = .runnable) < 2 ^ 31) :
    lotteryLoop t (totTk t) rv sv l = spin (share t) rv.toNat sv.toNat (l.filter fun k => (t k).state = .runnable) := by
  induction l generalizing sv with
  | nil => rfl
  | cons fp l ih =>
    have hl' := fun k hk => hl k (mem_cons_of_mem _ hk)
    rw [lotteryLoop]
    by_cases hst : (t fp).state = .runnable
    · rw [if_pos hst, filter_cons_of_pos (by simpa using hst), spin]
      rw [filter_cons_of_pos (by simpa using hst), size_cons] at hsv
      have hprob := h.prob ⟨hl fp (mem_cons_self ..), hst⟩
      generalize divw ((t fp).tickets * RAND_MAX) (totTk t) = prob at hprob ⊢
      have hsum : (sv + prob).toNat = sv.toNat + share t fp := by
        rw [toNat_add, hprob]
        exact Nat.mod_eq_of_lt (by omega)
      simp only [sle_iff_toNat (a := sv) (by omega) hrv, slt_iff_toNat (b := sv + prob) hrv (by omega), hsum]
      split
      · rfl
      · rw [ih hl' (by omega), hsum]
    · rw [if_neg hst, filter_cons_of_neg (by simpa using hst)]
      rw [filter_cons_of_neg (by simpa using hst)] at hsv
      exact ih hl' hsv

theorem covered_le (t : Nat → Proc) : covered t ≤ RAND_MAX.toNat := by
  refine (size_div_le (runnables t)).trans ?_
  rcases Nat.eq_zero_or_pos (allTickets t) with h0 | hpos
  · rw [h0, Nat.div_zero]
    exact Nat.zero_le _
  · exact (Nat.mul_div_cancel_left _ hpos).le

/-- Rounding costs each process less than one value. -/
theorem Fair.lt_covered (h : Fair t) (hr : ∃ k, Runnable t k) : RAND_MAX.toNat < covered t + (runnables t).length := by
  obtain ⟨k, hk⟩ := hr
  have hpos : 0 < allTickets t := (h.tickets hk).1.trans_le (Fair.tickets_le hk)
  have := lt_size_div (c := fun k => (t k).tickets.toNat) (r := RAND_MAX.toNat) hpos
    (ne_nil_of_mem (mem_runnables.2 hk))
  exact (Nat.mul_div_cancel_left _ hpos).symm.trans_lt this

theorem Fair.draw_eq_spin (h : Fair t) (hrv : rv.toNat ≤ RAND_MAX.toNat) :
    draw t rv = spin (share t) rv.toNat 0 (runnables t) := by
  have hmax : RAND_MAX.toNat = 32767 := by decide
  have hcov := covered_le t
  refine lotteryLoop_eq_spin h (fun k hk => mem_range.1 hk) (by omega) ?_
  change 0 + covered t < 2 ^ 31
  omega

/-! ## Who wins -/

/-- The number of random values with which the loop picks process `k`. -/
def chances (t : Nat → Proc) (k : Nat) : Nat :=
  ((Finset.range (RAND_MAX.toNat + 1)).filter fun v => draw t (BitVec.ofNat 32 v) = some k).card

theorem Fair.chances (h : Fair t) (hk : Runnable t k) : chances t k = share t k := by
  have hmax : RAND_MAX.toNat = 32767 := by decide
  rw [← card_spin (share t) (nodup_runnables t) (mem_runnables.2 hk) ((covered_le t).trans (Nat.le_succ _))]
  refine congrArg Finset.card (Finset.filter_congr fun v hv => ?_)
  have hv' : v ≤ 32767 := by
    rw [Finset.mem_range, hmax] at hv
    omega
  have hval : (BitVec.ofNat 32 v).toNat = v := by
    rw [toNat_ofNat]
    exact Nat.mod_eq_of_lt (by omega)
  rw [h.draw_eq_spin (by omega), hval]

/-- The draw picks a RUNNABLE process exactly for the values below `covered t`, which misses at least one of the
`RAND_MAX + 1` values and at most one for each RUNNABLE process. -/
theorem draw_wins (h : Fair t) (hr : ∃ k, Runnable t k) :
    (∀ rv : BitVec 32, rv.toNat ≤ RAND_MAX.toNat →
      ((∃ k, draw t rv = some k ∧ Runnable t k) ↔ rv.toNat < covered t)) ∧
    covered t ≤ RAND_MAX.toNat ∧ RAND_MAX.toNat < covered t + (runnables t).length := by
  refine ⟨fun rv hrv => ?_, covered_le t, h.lt_covered hr⟩
  have hnone := spin_eq_none_iff (share t) (l := runnables t) (Nat.zero_le rv.toNat)
  rw [← h.draw_eq_spin hrv, Nat.zero_add] at hnone
  constructor
  · rintro ⟨k, hk, -⟩
    refine Nat.lt_of_not_le fun hle => ?_
    rw [hnone.2 hle] at hk
    cases hk
  · intro hlt
    cases hd : draw t rv with
    | none => exact absurd (hnone.1 hd) (Nat.not_le.2 hlt)
    | some k => exact ⟨k, rfl, (lotteryLoop_mem hd).imp_left mem_range.1⟩

/-- Two processes with 1 and 2 tickets, the others asleep. -/
def pair (k : Nat) : Proc :=
  { fresh k (if k < 2 then .runnable else .sleeping) with tickets := BitVec.ofNat 32 (k + 1) }

theorem pair_fair : Fair pair := ⟨by decide, by decide⟩

theorem draw_wins_pair :
    (∃ k, draw pair 7 = some k ∧ Runnable pair k) ∧ ¬ ∃ k, draw pair RAND_MAX = some k ∧ Runnable pair k := by
  have hwins := (draw_wins pair_fair ⟨0, by decide, by decide⟩).1
  exact ⟨(hwins 7 (by decide)).2 (by decide +kernel), fun hd =>
    absurd ((hwins RAND_MAX (by decide)).1 hd) (by decide +kernel)⟩

/-- One RUNNABLE process with one ticket: at tick 24884 `rand` returns `RAND_MAX` and the pass picks none. -/
theorem draw_without_winner :
    let t := (sample fun k => if k = 0 then .runnable else .sleeping).proc
    Fair t ∧ Runnable t 0 ∧ rand ((24884 : BitVec 32).setWidth 64) = RAND_MAX ∧ lottery t 24884 = none := by
  refine ⟨⟨by decide, by decide⟩, ⟨by decide, by decide⟩, by decide, by decide +kernel⟩

/-- Each RUNNABLE process is picked for the values of one interval, as many as its rounded share, and the intervals
do not overlap. So more tickets never make the chance smaller, and equal tickets give equal chances. -/
theorem lottery_shares (h : Fair t) :
    (∀ k, Runnable t k →
      first t k + share t k ≤ RAND_MAX.toNat ∧ chances t k = share t k ∧
      ∀ rv : BitVec 32, rv.toNat ≤ RAND_MAX.toNat →
        (draw t rv = some k ↔ first t k ≤ rv.toNat ∧ rv.toNat < first t k + share t k)) ∧
    (∀ j k, Runnable t j → Runnable t k → j ≠ k →
      Disjoint (Set.Ico (first t j) (first t j + share t j)) (Set.Ico (first t k) (first t k + share t k))) ∧
    (∀ j k, Runnable t j → Runnable t k → (t j).tickets.toInt ≤ (t k).tickets.toInt → chances t j ≤ chances t k) ∧
    ∀ j k, Runnable t j → Runnable t k → (t j).tickets = (t k).tickets → chances t j = chances t k := by
  refine ⟨fun k hk => ⟨?_, h.chances hk, fun rv hrv => ?_⟩, fun j k hj hk hne => ?_, fun j k hj hk hle => ?_,
    fun j k hj hk he => ?_⟩
  · have := start_add_le (share t) (mem_runnables.2 hk)
    exact this.trans (covered_le t)
  · rw [h.draw_eq_spin hrv, spin_eq_some_iff _ (nodup_runnables t), Nat.zero_add]
    exact and_iff_right (mem_runnables.2 hk)
  · rw [Set.disjoint_left]
    intro v hv hv'
    rcases start_disjoint (share t) (mem_runnables.2 hj) (mem_runnables.2 hk) hne with hlt | hlt
    · exact absurd (hv.2.trans_le hlt) (Nat.not_lt.2 hv'.1)
    · exact absurd (hv'.2.trans_le hlt) (Nat.not_lt.2 hv.1)
  · rw [h.chances hj, h.chances hk]
    refine Nat.div_le_div_right (Nat.mul_le_mul_right _ ?_)
    have hj' := h.positive j hj.1 hj.2
    have hej := toInt_eq_toNat_cond (t j).tickets
    have hek := toInt_eq_toNat_cond (t k).tickets
    split at hej <;> split at hek <;> omega
  · rw [h.chances hj, h.chances hk, share, share, he]

theorem lottery_shares_pair : chances pair 0 = 10922 ∧ chances pair 1 = 21844 ∧ draw pair 10922 = some 1 := by
  obtain ⟨hone, -, -, -⟩ := lottery_shares pair_fair
  have h0 := hone 0 ⟨by decide, by decide⟩
  have h1 := hone 1 ⟨by decide, by decide⟩
  exact ⟨h0.2.1.trans (by decide +kernel), h1.2.1.trans (by decide +kernel),
    (h1.2.2 10922 (by decide)).2 (by decide +kernel)⟩

end Xv6Riscv.Sched
