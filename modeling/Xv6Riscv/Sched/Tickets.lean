import Xv6Riscv.Proc.States
import Xv6Riscv.Sched.Lottery

/-!
# The arithmetic of the lottery over whole runs

| here | there |
| --- | --- |
| `Pass.sum k tot` | the first loop (proc.c:661) in front of slot `k`, with `tot_tk` |
| `Pass.draw k tot rv sv` | the second loop (proc.c:670) in front of slot `k`, with `tot_tk`, `rv` and `sv` |
| `passStep` | one iteration, or what is between the loops |
| `act` | the machine of `Proc` in the build LOTTERY: a CPU chooses a process by such a pass |
| `Sys.steady` | history: the processes that were RUNNABLE all through the first loop, up to now or up to its end |

The loops take the lock of one slot at a time, so the table changes under them. `int` arithmetic is checked: a result
that does not fit, or a division by zero, is a fault. `settickets` (sysproc.c:143) adds any number to the tickets of its
caller, `fork` copies the tickets of the parent.
-/
namespace Xv6Riscv.Sched.Tickets
open Machine
open Outcome (bind_ok)
open Function (update update_apply)

inductive Pass where
  | off
  | sum (k : Nat) (tot : Int)
  | draw (k : Nat) (tot rv sv : Int)
deriving DecidableEq, Repr

structure Sys where
  kernel : Proc.Sys
  pass : Nat → Pass
  steady : Nat → Nat → Bool

inductive Fault where
  | panic (p : Proc.Panic)
  | overflow
  | divByZero
deriving DecidableEq, Repr

/-- The value is an `int`. -/
def IsInt (x : Int) : Prop := -2 ^ 31 ≤ x ∧ x < 2 ^ 31

instance (x : Int) : Decidable (IsInt x) := inferInstanceAs (Decidable (_ ∧ _))

def checked (x : Int) : Outcome Fault Int := if IsInt x then .ok x else .halt .overflow

def divide (x y : Int) : Outcome Fault Int := if y = 0 then .halt .divByZero else checked (x.tdiv y)

inductive Event where
  /-- A step of a process or an interrupt handler, or of the scheduler after its choice. -/
  | kernel (e : Proc.Event)
  /-- The next iteration of the pass on CPU `c`; `ticks` is what `rand` is called with. -/
  | pass (c : Nat) (ticks : BitVec 32)
deriving DecidableEq, Repr

variable (s : Sys)

def setPass (c : Nat) (a : Pass) : Sys := { s with pass := update s.pass c a }

/-- A step of the machine of `Proc`. -/
def lift (e : Proc.Event) : Outcome Fault Sys :=
  match Proc.step s.kernel .other e with
  | .ok k => .ok { s with kernel := k }
  | .halt p => .halt (.panic p)
  | .stuck => .stuck

/-- `int prob = …` and the test, for a RUNNABLE process in slot `k`. -/
def drawSlot (c k : Nat) (tot rv sv : Int) : Outcome Fault Sys :=
  (checked ((s.kernel.tickets k).toInt * RAND_MAX.toInt)).bind fun scaled =>
  (divide scaled tot).bind fun prob =>
  (checked (sv + prob)).bind fun upper =>
    if sv ≤ rv ∧ rv < upper then lift (setPass s c .off) (.sched c k) else .ok (setPass s c (.draw (k + 1) tot rv upper))

def passStep (c : Nat) (ticks : BitVec 32) : Outcome Fault Sys :=
  match s.pass c with
  | .off => .ok (setPass s c (.sum 0 0))
  | .sum k tot =>
    if k < NPROC then
      if s.kernel.plock k = none then
        if s.kernel.state k = .runnable then
          (checked (tot + (s.kernel.tickets k).toInt)).bind fun tot => .ok (setPass s c (.sum (k + 1) tot))
        else .ok (setPass s c (.sum (k + 1) tot))
      else .stuck
    else .ok (setPass s c (.draw 0 tot (rand (ticks.setWidth 64)).toInt 0))
  | .draw k tot rv sv =>
    if k < NPROC then
      if s.kernel.plock k = none then
        if s.kernel.state k = .runnable then drawSlot s c k tot rv sv
        else .ok (setPass s c (.draw (k + 1) tot rv sv))
      else .stuck
    -- `p` is still 0
    else .ok (setPass s c .off)

/-- The tickets of the process on CPU `c`. -/
def callerTickets (c : Nat) : Int :=
  match s.kernel.cpc c with
  | .run p => (s.kernel.tickets p).toInt
  | _ => 0

def act : Event → Outcome Fault Sys
  | .kernel (.sched c cand) => if s.kernel.cpc c = .loop then .stuck else lift s (.sched c cand)
  | .kernel (.thread c (.settickets tk)) =>
    (checked (callerTickets s c + tk.toInt)).bind fun _ => lift s (.thread c (.settickets tk))
  | .kernel e => lift s e
  | .pass c ticks => if c < NCPU ∧ s.kernel.cpc c = .loop then passStep s c ticks else .stuck

/-- The history after a step from `s` to `s'`. -/
def watch (s' : Sys) : Sys :=
  { s' with steady := fun c q => match s'.pass c with
      | .sum _ _ => (s.pass c = .off || s.steady c q) && s'.kernel.state q = .runnable
      | _ => s.steady c q }

def step (e : Event) : Outcome Fault Sys := (act s e).bind fun s' => .ok (watch s s')

def boot : Sys where
  kernel := Proc.boot
  pass _ := .off
  steady _ _ := false

/-- Some process was RUNNABLE all through the first loop. -/
def Busy (c : Nat) : Prop := ∃ q < NPROC, s.steady c q = true

/-- Every call of `settickets` leaves its caller with 1 to 65537 tickets. -/
def Careful : Event → Prop
  | .kernel (.thread c (.settickets tk)) => 1 ≤ callerTickets s c + tk.toInt ∧ callerTickets s c + tk.toInt ≤ 65537
  | _ => True

instance (e : Event) : Decidable (Careful s e) := by
  unfold Careful
  split <;> infer_instance

variable {s} {s' : Sys} {c k : Nat}

/-! ## The arithmetic -/

variable {x tot rv sv : Int}

theorem checked_of (h : IsInt x) : checked x = .ok x := if_pos h

/-- The tickets of a process that is in range. -/
structure InRange (x : Int) : Prop where
  pos : 1 ≤ x
  le : x ≤ 65537

/-- The variables of a pass that has met no fault: as long as nobody has won, `sv` is at most `rv`. -/
def Pass.Ok : Pass → Prop
  | .off => True
  | .sum k tot => 0 ≤ tot ∧ tot ≤ k * 65537 ∧ k ≤ NPROC
  | .draw _ tot rv sv => 0 ≤ tot ∧ 0 ≤ sv ∧ sv ≤ rv ∧ rv ≤ 32767

structure Inv (s : Sys) : Prop where
  kernel : Proc.Reached .other s.kernel
  tickets : ∀ q, s.kernel.state q ≠ .unused → InRange (s.kernel.tickets q).toInt
  pass : ∀ c, (s.pass c).Ok

/-- What one step does to a pass. -/
inductive PassStep (s : Sys) : Pass → Pass → Prop
  | same (a : Pass) : PassStep s a a
  | start : PassStep s .off (.sum 0 0)
  | count {k : Nat} {tot : Int} : s.kernel.state k = .runnable →
      PassStep s (.sum k tot) (.sum (k + 1) (tot + (s.kernel.tickets k).toInt))
  | skip {k : Nat} {tot : Int} : s.kernel.state k ≠ .runnable → PassStep s (.sum k tot) (.sum (k + 1) tot)
  | turn {k : Nat} {tot rv : Int} : NPROC ≤ k → PassStep s (.sum k tot) (.draw 0 tot rv 0)
  | lose {k : Nat} {tot rv sv sv' : Int} : PassStep s (.draw k tot rv sv) (.draw (k + 1) tot rv sv')
  | stop (a : Pass) : PassStep s a .off

/-- A step that keeps the invariant. -/
structure Goes (s s' : Sys) : Prop where
  inv : Inv s'
  pass : ∀ c, PassStep s (s.pass c) (s'.pass c)

/-! ## Steps of the kernel -/

theorem InRange.isInt (h : InRange x) : IsInt x := by
  obtain ⟨hpos, hle⟩ := h
  constructor <;> omega

theorem toInt_add_eq {a b : BitVec 32} (h : IsInt (a.toInt + b.toInt)) : (a + b).toInt = a.toInt + b.toInt := by
  obtain ⟨hlo, hhi⟩ := h
  rw [BitVec.toInt_add, Int.bmod_eq_of_le] <;> omega

variable {e : Proc.Event}

theorem lift_eq_ok (h : lift s e = .ok s') :
    ∃ k, Proc.step s.kernel .other e = .ok k ∧ s' = { s with kernel := k } := by
  unfold lift at h
  split at h <;> cases h
  next k hk => exact ⟨k, hk, rfl⟩

theorem lift_eq_halt {f : Fault} (h : lift s e = .halt f) : ∃ p, f = .panic p := by
  unfold lift at h
  split at h <;> cases h
  exact ⟨_, rfl⟩

namespace Inv

theorem table (h : Inv s) : Proc.Table s.kernel := h.kernel.table

theorem lift (h : Inv s) (he : Careful s (.kernel e)) (hs : Tickets.lift s e = .ok s') : Goes s s' := by
  obtain ⟨k, hk, rfl⟩ := lift_eq_ok hs
  refine ⟨⟨.step e h.kernel trivial hk, fun q hq => ?_, h.pass⟩, fun _ => .same _⟩
  have hone : InRange (1 : BitVec 32).toInt := ⟨by decide, by decide⟩
  by_cases hu : s.kernel.state q = .unused
  · -- only `allocproc` takes a free slot
    cases h.table.change (Proc.step_move hk) q with
    | same hst => exact absurd (hst.trans hu) hq
    | alloc _ _ ht => exact ht.symm ▸ hone
    | free hst _ => rw [hu] at hst; cases hst
    | _ => simp_all
  have hold := h.tickets q hu
  have hrun : ∀ {c p : Nat}, s.kernel.cpc c = .run p → InRange (s.kernel.tickets p).toInt := fun {c p} hc =>
    h.tickets p (h.table.cproc_not_unused ((h.table.cproc c).trans (by rw [hc]; rfl)))
  cases Proc.step_tickets hk with
  | none _ ht => exact ht.symm ▸ hold
  | alloc c i a ht =>
    rw [ht, update_apply]
    split
    · exact hone
    · exact hold
  | copy c p np a hc ht =>
    rw [ht, update_apply]
    split
    · exact hrun hc
    · exact hold
  | set c p tk hc ht =>
    rw [ht, update_apply]
    split
    · simp only [Careful, callerTickets, hc] at he
      have hr : InRange ((s.kernel.tickets p).toInt + tk.toInt) := ⟨he.1, he.2⟩
      rwa [toInt_add_eq hr.isInt]
    · exact hold

theorem setPass (h : Inv s) {a : Pass} (ha : a.Ok) (hstep : PassStep s (s.pass c) a) : Goes s (setPass s c a) := by
  have hall : ∀ c', (update s.pass c a c').Ok ∧ PassStep s (s.pass c') (update s.pass c a c') := by
    intro c'
    rw [update_apply]
    split
    next he => exact ⟨ha, he ▸ hstep⟩
    next => exact ⟨h.pass c', .same _⟩
  exact ⟨⟨h.kernel, h.tickets, fun c' => (hall c').1⟩, fun c' => (hall c').2⟩

/-! ## Iterations of a pass -/

theorem prob_bound (hx : InRange x) (htot : 1 ≤ tot) :
    0 ≤ (x * 32767).tdiv tot ∧ (x * 32767).tdiv tot ≤ 65537 * 32767 := by
  obtain ⟨hpos, hle⟩ := hx
  rw [Int.tdiv_eq_ediv_of_nonneg (by omega)]
  constructor
  · exact Int.ediv_nonneg (by omega) (by omega)
  · exact (Int.ediv_le_self _ (by omega)).trans (by omega)

theorem lift_pick (hk : k < NPROC) (hc : c < NCPU) (hloop : s.kernel.cpc c = .loop) :
    Tickets.lift s (.sched c k) = .ok { s with kernel := Proc.setCpc s.kernel c (.pick k) } := by
  have hpick : Proc.step s.kernel .other (.sched c k) = .ok (Proc.setCpc s.kernel c (.pick k)) := by
    simp only [Proc.step, if_pos hc, Proc.schedStep, hloop, if_pos hk]
  rw [Tickets.lift, hpick]

/-- A RUNNABLE process in the second loop: it wins or leaves `sv` at most `rv`, unless the first loop has counted
nothing. -/
theorem drawSlot (h : Inv s) (hp : s.pass c = .draw k tot rv sv) (hk : k < NPROC) (hc : c < NCPU)
    (hloop : s.kernel.cpc c = .loop) (hst : s.kernel.state k = .runnable) :
    (∃ s', drawSlot s c k tot rv sv = .ok s' ∧ Goes s s') ∨ drawSlot s c k tot rv sv = .halt .divByZero ∧ tot = 0 := by
  have hok := h.pass c
  rw [hp] at hok
  obtain ⟨htot0, hsv0, hsv, hrv⟩ := hok
  have hmax : RAND_MAX.toInt = 32767 := by decide
  have hx := h.tickets k (by rw [hst]; nofun)
  have hpos := hx.pos
  have hle := hx.le
  unfold Tickets.drawSlot
  rw [hmax, checked_of ⟨by omega, by omega⟩, bind_ok, divide]
  by_cases htot : tot = 0
  · exact .inr ⟨by rw [if_pos htot]; rfl, htot⟩
  obtain ⟨hprob0, hprob⟩ := prob_bound hx (show 1 ≤ tot by omega)
  rw [if_neg htot, checked_of ⟨by omega, by omega⟩, bind_ok]
  generalize ((s.kernel.tickets k).toInt * 32767).tdiv tot = prob at hprob0 hprob
  rw [checked_of ⟨by omega, by omega⟩, bind_ok]
  left
  split
  next hwin =>
    have hpick := lift_pick (s := Tickets.setPass s c .off) hk hc hloop
    have hoff := h.setPass (a := .off) trivial (.stop (s.pass c))
    exact ⟨_, hpick, (hoff.inv.lift (e := .sched c k) trivial hpick).inv, hoff.pass⟩
  next hlose => exact ⟨_, rfl, h.setPass ⟨htot0, by omega, by omega, hrv⟩ (hp ▸ .lose)⟩

theorem passStep (h : Inv s) (ticks : BitVec 32) (hc : c < NCPU) (hloop : s.kernel.cpc c = .loop) :
    passStep s c ticks = .stuck ∨ (∃ s', passStep s c ticks = .ok s' ∧ Goes s s') ∨
      passStep s c ticks = .halt .divByZero ∧ ∃ k rv sv, s.pass c = .draw k 0 rv sv := by
  have hp := h.pass c
  unfold Tickets.passStep
  cases hpc : s.pass c with
  | off => exact .inr (.inl ⟨_, rfl, h.setPass ⟨by omega, by omega, by omega⟩ (hpc ▸ .start)⟩)
  | sum k tot =>
    rw [hpc] at hp
    obtain ⟨h0, hle, hk64⟩ := hp
    have h64 : (k : Int) ≤ 64 := by exact_mod_cast hk64
    dsimp only
    split
    next hk =>
      split
      · split
        next hst =>
          have hx := h.tickets k (by rw [hst]; nofun)
          have hpos := hx.pos
          have hx65 := hx.le
          rw [checked_of ⟨by omega, by omega⟩, bind_ok]
          exact .inr (.inl ⟨_, rfl, h.setPass ⟨by omega, by push_cast; omega, hk⟩ (hpc ▸ .count hst)⟩)
        next hst => exact .inr (.inl ⟨_, rfl, h.setPass ⟨h0, by push_cast; omega, hk⟩ (hpc ▸ .skip hst)⟩)
      · exact .inl rfl
    next hk =>
      have hrand := rand_le (ticks.setWidth 64)
      have hmax : RAND_MAX.toNat = 32767 := by decide
      have hint : (rand (ticks.setWidth 64)).toInt = (rand (ticks.setWidth 64)).toNat :=
        BitVec.toInt_eq_toNat_of_lt (by omega)
      exact .inr (.inl ⟨_, rfl, h.setPass ⟨h0, by omega, by omega, by omega⟩ (hpc ▸ .turn (Nat.not_lt.1 hk))⟩)
  | draw k tot rv sv =>
    rw [hpc] at hp
    dsimp only
    split
    next hk =>
      split
      · split
        next hst =>
          refine .inr ((h.drawSlot hpc hk hc hloop hst).imp_right fun hz => ⟨hz.1, k, rv, sv, ?_⟩)
          rw [hz.2]
        next => exact .inr (.inl ⟨_, rfl, h.setPass hp (hpc ▸ .lose)⟩)
      · exact .inl rfl
    next => exact .inr (.inl ⟨_, rfl, h.setPass trivial (.stop _)⟩)

theorem boot : Inv boot where
  kernel := .init rfl
  tickets q hq := by
    by_cases h0 : q = 0
    · subst h0
      exact ⟨by decide, by decide⟩
    · exact absurd (if_neg h0) hq
  pass _ := trivial

/-- A careful event keeps the invariant, and the one fault it can meet is a division by a sum that is zero. -/
theorem act (h : Inv s) {e : Event} (he : Careful s e) :
    (∀ s', act s e = .ok s' → Goes s s') ∧ ∀ f, act s e = .halt f → (∃ p, f = .panic p) ∨
      f = .divByZero ∧ ∃ c ticks, e = .pass c ticks ∧ ∃ k rv sv, s.pass c = .draw k 0 rv sv := by
  have hlift : ∀ {e : Proc.Event} {R : Fault → Prop}, Careful s (.kernel e) →
      (∀ s', Tickets.lift s e = .ok s' → Goes s s') ∧ ∀ f, Tickets.lift s e = .halt f → (∃ p, f = .panic p) ∨ R f :=
    fun he => ⟨fun _ => h.lift he, fun _ hf => .inl (lift_eq_halt hf)⟩
  unfold Tickets.act
  split
  · split
    · exact ⟨nofun, nofun⟩
    · exact hlift trivial
  · simp only [Careful] at he
    rw [checked_of (InRange.isInt ⟨he.1, he.2⟩), bind_ok]
    exact hlift he
  · exact hlift he
  next c ticks =>
    split
    next hc =>
      rcases h.passStep ticks hc.1 hc.2 with hs | ⟨s', hs, hgoes⟩ | ⟨hs, hz⟩ <;> rw [hs]
      · exact ⟨nofun, nofun⟩
      · refine ⟨?_, nofun⟩
        rintro _ ⟨⟩
        exact hgoes
      · refine ⟨nofun, ?_⟩
        rintro _ ⟨⟩
        exact .inr ⟨rfl, c, ticks, rfl, hz⟩
    next => exact ⟨nofun, nofun⟩

end Inv

/-! ## What the first loop has counted -/

/-- A process that stays RUNNABLE is counted when its slot is passed. -/
structure Counted (s : Sys) : Prop where
  sum : ∀ {c k tot}, s.pass c = .sum k tot → ∀ q, s.steady c q = true → s.kernel.state q = .runnable ∧ (q < k → 0 < tot)
  draw : ∀ {c k tot rv sv}, s.pass c = .draw k tot rv sv → Busy s c → 0 < tot

theorem Counted.watch (h : Counted s) (hinv : Inv s) (hgoes : Goes s s') : Counted (watch s s') := by
  constructor
  · intro c k tot hp q hq
    change s'.pass c = .sum k tot at hp
    simp only [Tickets.watch, hp, Bool.and_eq_true, Bool.or_eq_true, decide_eq_true_eq] at hq
    refine ⟨hq.2, fun hlt => ?_⟩
    have hstep := hgoes.pass c
    have hok := hinv.pass c
    rw [hp] at hstep
    cases hpc : s.pass c <;> rw [hpc] at hstep hok <;> cases hstep <;> simp only [hpc, reduceCtorEq, false_or] at hq
    case start => omega
    case same => exact (h.sum hpc q hq.1).2 hlt
    case count hst =>
      have := (hinv.tickets _ (by rw [hst]; nofun)).pos
      have := hok.1
      omega
    case skip hst =>
      obtain ⟨hrun, hpos⟩ := h.sum hpc q hq.1
      refine hpos (Nat.lt_of_le_of_ne (Nat.le_of_lt_succ hlt) ?_)
      rintro rfl
      exact hst hrun
  · rintro c k tot rv sv hp ⟨q, hlt, hq⟩
    change s'.pass c = .draw k tot rv sv at hp
    simp only [Tickets.watch, hp] at hq
    have hstep := hgoes.pass c
    rw [hp] at hstep
    cases hpc : s.pass c <;> rw [hpc] at hstep <;> cases hstep
    case turn hk => exact (h.sum hpc q hq).2 (hlt.trans_le hk)
    case same | lose => exact h.draw hpc ⟨q, hlt, hq⟩

/-- The states of the careful runs. -/
abbrev Reached (s : Sys) : Prop := Reach step (· = boot) Careful s

theorem Reached.inv (h : Reached s) : Inv s ∧ Counted s := by
  refine Reach.inv (I := fun s => Inv s ∧ Counted s) ?_ (fun s e s' hI he hs => ?_) h
  · rintro _ rfl
    exact ⟨.boot, nofun, nofun⟩
  · obtain ⟨s₁, hact, hs⟩ := Outcome.bind_eq_ok.1 hs
    cases hs
    have hgoes := (hI.1.act he).1 s₁ hact
    exact ⟨{ hgoes.inv with }, hI.2.watch hI.1 hgoes⟩

/-- **The arithmetic of the lottery.** In every careful run, whatever the other events are: all processes have tickets;
nothing overflows; and if some process is RUNNABLE all through the first loop of a pass, then `tot_tk` is positive in
its second loop, which does not divide by zero. -/
theorem lottery_arithmetic (h : Reached s) :
    (∀ q, s.kernel.state q ≠ .unused → 0 < (s.kernel.tickets q).toInt) ∧
    (∀ e, Careful s e → step s e ≠ .halt .overflow) ∧
    (∀ c k tot rv sv, s.pass c = .draw k tot rv sv → Busy s c → 0 < tot) ∧
    ∀ e, Careful s e → step s e = .halt .divByZero → ∃ c ticks, e = .pass c ticks ∧ ¬ Busy s c := by
  obtain ⟨hinv, hcounted⟩ := h.inv
  have hhalt : ∀ e f, step s e = .halt f → act s e = .halt f := fun e f hs => by
    unfold step at hs
    cases ha : act s e <;> rw [ha] at hs <;> cases hs
    rfl
  refine ⟨fun q hq => ?_, fun e he hs => ?_, fun c k tot rv sv hp => hcounted.draw hp, fun e he hs => ?_⟩
  · have := (hinv.tickets q hq).pos
    omega
  · rcases (hinv.act he).2 _ (hhalt e _ hs) with ⟨p, hp⟩ | ⟨hp, -⟩ <;> cases hp
  · rcases (hinv.act he).2 _ (hhalt e _ hs) with ⟨p, hp⟩ | ⟨-, c, ticks, rfl, k, rv, sv, hp⟩
    · cases hp
    · exact ⟨c, ticks, rfl, fun hb => absurd (hcounted.draw hp hb) (by omega)⟩

/-- The events of a pass on CPU `c` up to its second loop. -/
def countPass (c : Nat) : List Event := List.replicate 66 (Event.pass c 0)

/-- CPU 0 dispatches the first process, which returns from `forkret`. -/
def startInit : List Event :=
  countPass 0 ++ [Event.pass 0 0, Event.kernel (.sched 0 0), Event.kernel (.thread 0 (.next true))]

/-- The process on CPU 0 gives it up. -/
def giveUp : List Event :=
  [Event.kernel (.thread 0 .yield), Event.kernel (.thread 0 (.next true)), Event.kernel (.sched 0 0),
    Event.kernel (.sched 0 0)]

/-- The first process has 6 tickets and is RUNNABLE during the next pass. -/
def sixTickets : List Event := startInit ++ [Event.kernel (.thread 0 (.settickets 5))] ++ giveUp ++ countPass 0

theorem lottery_arithmetic_six : ∃ tot rv, (after step boot sixTickets).pass 0 = .draw 0 tot rv 0 ∧ 0 < tot := by
  have hr : Reached (after step boot sixTickets) := Reach.of_checked _ (.init rfl) (by decide +kernel)
  have hp : (after step boot sixTickets).pass 0 = .draw 0 6 0 0 := by decide +kernel
  exact ⟨_, _, hp, (lottery_arithmetic hr).2.2.1 _ _ _ _ _ hp ⟨0, by decide, by decide +kernel⟩⟩

/-- A process that gives up its only ticket makes the next pass divide by zero. So does a process that becomes RUNNABLE
between the loops of a pass, without any call of `settickets`. And a process can ask for more tickets than there are. -/
theorem lottery_faults :
    run step boot (startInit ++ [Event.kernel (.thread 0 (.settickets (-1)))] ++ giveUp ++ countPass 0 ++
      [Event.pass 0 0]) = .halt .divByZero ∧
    run step boot (startInit ++ countPass 1 ++ giveUp ++ [Event.pass 1 0]) = .halt .divByZero ∧
    run step boot (startInit ++ [Event.kernel (.thread 0 (.settickets 0x7fffffff))]) = .halt .overflow := by
  refine ⟨Outcome.eq_halt ?_, Outcome.eq_halt ?_, Outcome.eq_halt ?_⟩ <;> decide +kernel

end Xv6Riscv.Sched.Tickets
