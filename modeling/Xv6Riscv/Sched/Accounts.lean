import Xv6Riscv.Proc.States
import Xv6Riscv.Sched.Pbs

/-!
# The accounts of PBS over whole runs

| here | there |
| --- | --- |
| `Event.tick` | `ticks++` in `clockintr` (trap.c:332) |
| `Event.count i` | slot `i` of the loop in `usertrap` (trap.c:138): `pbs_rtime += 1` for a RUNNING process |
| `Event.setPriority c i sp` | `sys_set_priority` (sysproc.c:154), called on CPU `c`, has found its pid in slot `i` |
| `Event.scan c k` | the pass (proc.c:689) on CPU `c` at slot `k`: `niceness` |
| `Acct.follow` | the fields where the state changes: `allocproc` and `fork` (proc.c:163, proc.c:361), the dispatch (proc.c:773), `sleep` (proc.c:870), `wakeup` (proc.c:895) |

The accounts are kept beside the machine of `Proc`, in which the choice of the pass is arbitrary. `slept` is a history
variable: the ticks in which the process was SLEEPING since its last dispatch.

The interval from `stime` to `wtime` is the sleep as long as both ends are written. `kill` makes a sleeping process
RUNNABLE without writing `wtime`, and `set_priority` clears one end of an interval that is still open, or both.
-/
namespace Xv6Riscv.Sched.Accounts
open Machine BitVec

structure Acct where
  pbsRtime : BitVec 32
  stime : BitVec 32
  staticP : BitVec 32
  niceness : BitVec 32
  wtime : BitVec 32
  schNo : BitVec 32
  slept : Nat
deriving DecidableEq, Repr

structure Sys where
  kernel : Proc.Sys
  ticks : BitVec 32
  acct : Nat → Acct

/-- The scan of `kill` that this event goes on with: its pid and slot. -/
def killing (k : Proc.Sys) : Proc.Event → Option (BitVec 32 × Nat)
  | .thread c (.next _) =>
    match k.cpc c with
    | .run p =>
      if k.sw p = .on ∧ k.wake p = none then
        match k.pc p with
        | .kill pid i => some (pid, i)
        | _ => none
      else none
    | _ => none
  | _ => none

/-- The static priority of the process that executes this event, in `fork` the parent. -/
def callerPriority (s : Sys) : Proc.Event → BitVec 32
  | .thread c _ =>
    match s.kernel.cpc c with
    | .run p => (s.acct p).staticP
    | _ => 60
  | _ => 60

/-- A slot whose state changes from the first to the second; `killed` if by `kill`. -/
def Acct.follow (a : Acct) (ticks parentP : BitVec 32) (killed : Bool) : ProcState → ProcState → Acct
  | .unused, .used =>
    { pbsRtime := 0, stime := 0, staticP := parentP, niceness := 5, wtime := 0, schNo := 0, slept := 0 }
  | .runnable, .running =>
    { a with pbsRtime := 0, stime := 0, niceness := 5, wtime := 0, schNo := a.schNo + 1, slept := 0 }
  | .running, .sleeping => { a with stime := ticks }
  | .sleeping, .runnable => if killed then a else { a with wtime := ticks }
  | _, _ => a

/-- The process as the pass sees it; the fields of the other builds are filled in. -/
def view (s : Sys) (q : Nat) : Sched.Proc where
  state := s.kernel.state q
  pid := s.kernel.pid q
  ctime := 0
  tickets := s.kernel.tickets q
  pbsRtime := (s.acct q).pbsRtime
  stime := (s.acct q).stime
  staticP := (s.acct q).staticP
  niceness := (s.acct q).niceness
  wtime := (s.acct q).wtime
  schNo := (s.acct q).schNo
  wticks := 0
  pr := 0

inductive Event where
  | kernel (e : Proc.Event)
  | tick
  | count (i : Nat)
  | setPriority (c i : Nat) (sp : BitVec 32)
  | scan (c k : Nat)
deriving DecidableEq, Repr

variable (s : Sys)

def setAcct (i : Nat) (a : Acct) : Sys := { s with acct := Function.update s.acct i a }

def follow (e : Proc.Event) (k : Proc.Sys) : Sys :=
  { s with
    kernel := k
    acct := fun q =>
      (s.acct q).follow s.ticks (callerPriority s e) (killing s.kernel e).isSome (s.kernel.state q) (k.state q) }

/-- The process on CPU `c` is in kernel code and may be in `sys_set_priority`. -/
def inCode (c : Nat) : Bool :=
  match s.kernel.cpc c with
  | .run p => s.kernel.sw p = .on ∧ s.kernel.wake p = none ∧ s.kernel.pc p = .code
  | _ => false

def step : Event → Outcome Proc.Panic Sys
  | .kernel e => (Proc.step s.kernel .other e).bind fun k => .ok (follow s e k)
  | .tick =>
    .ok { s with
      ticks := s.ticks + 1
      acct := fun q =>
        if s.kernel.state q = .sleeping then { s.acct q with slept := (s.acct q).slept + 1 } else s.acct q }
  | .count i =>
    if s.kernel.plock i = none then
      if s.kernel.state i = .running then .ok (setAcct s i { s.acct i with pbsRtime := (s.acct i).pbsRtime + 1 })
      else .ok s
    else .stuck
  | .setPriority c i sp =>
    if inCode s c = true ∧ i < NPROC ∧ s.kernel.plock i = none then
      .ok (setAcct s i { s.acct i with staticP := sp, niceness := 5, pbsRtime := 0, stime := 0, wtime := 0 })
    else .stuck
  | .scan c k =>
    if s.kernel.cpc c = .loop ∧ k < NPROC ∧ s.kernel.plock k = none then
      if s.kernel.state k = .runnable then .ok (setAcct s k { s.acct k with niceness := niceness (view s k) })
      else .ok s
    else .stuck

def boot : Sys where
  kernel := Proc.boot
  ticks := 0
  acct q :=
    if q = Proc.initproc then
      { pbsRtime := 0, stime := 0, staticP := 60, niceness := 5, wtime := 0, schNo := 0, slept := 0 }
    else { pbsRtime := 0, stime := 0, staticP := 0, niceness := 0, wtime := 0, schNo := 0, slept := 0 }

/-- A priority from which `staticP - niceness + 5` can be computed, for a niceness of 0 to 10. -/
structure Moderate (sp : BitVec 32) : Prop where
  low : -2 ^ 31 + 10 ≤ sp.toInt
  high : sp.toInt ≤ 2 ^ 31 - 6

instance (sp : BitVec 32) : Decidable (Moderate sp) :=
  decidable_of_iff (-2 ^ 31 + 10 ≤ sp.toInt ∧ sp.toInt ≤ 2 ^ 31 - 6) ⟨fun h => ⟨h.1, h.2⟩, fun h => ⟨h.low, h.high⟩⟩

/-- `kill` meets no sleeping process, and `set_priority` is called with a moderate priority and not for a process that
has slept since its last dispatch. -/
def Careful : Event → Prop
  | .kernel e => ∀ x ∈ killing s.kernel e, ¬ (s.kernel.pid x.2 = x.1 ∧ s.kernel.state x.2 = .sleeping)
  | .setPriority _ i sp =>
    Moderate sp ∧ s.kernel.state i ≠ .sleeping ∧ (s.kernel.state i = .runnable → (s.acct i).slept = 0)
  | _ => True

instance (e : Event) : Decidable (Careful s e) := by
  cases e <;> unfold Careful <;> infer_instance

variable {s} {s' : Sys}

/-! ## What `kill` does to the states -/

variable {e : Proc.Event} {x : BitVec 32 × Nat} {k : Proc.Sys}

theorem killing_eq_some (h : killing k e = some x) :
    ∃ c p ok, e = .thread c (.next ok) ∧ Proc.At k c p (.kill x.1 x.2) := by
  unfold killing at h
  repeat' split at h
  all_goals cases h
  rename_i c ok _ p hc hon _ pid i hpc
  exact ⟨c, p, ok, rfl, ⟨⟨hc, hon.1⟩, hon.2, hpc⟩⟩

theorem killing_state {k' : Proc.Sys} (h : killing k e = some x)
    (hno : ¬ (k.pid x.2 = x.1 ∧ k.state x.2 = .sleeping)) (hs : Proc.step k .other e = .ok k') :
    k'.state = k.state := by
  obtain ⟨c, p, ok, rfl, hat⟩ := killing_eq_some h
  simp only [Proc.step, hat.cpc, Proc.threadStep, hat.sw, hat.wake, Proc.pcStep, hat.pc, Proc.killScan] at hs
  repeat' split at hs
  on_goal 1 =>
    rename_i hpid hst
    exact absurd ⟨hpid, hst⟩ hno
  all_goals cases hs
  all_goals rfl

/-! ## The invariant -/

/-- The account of a slot by its state. -/
def Fits (a : Acct) (ticks : BitVec 32) : ProcState → Prop
  | .unused | .zombie => True
  | .used | .running => a.wtime = a.stime ∧ a.slept = 0
  | .sleeping => ticks - a.stime = BitVec.ofNat 32 a.slept
  | .runnable => a.wtime - a.stime = BitVec.ofNat 32 a.slept

structure Inv (s : Sys) : Prop where
  kernel : Proc.Reached .other s.kernel
  prio : ∀ q, Moderate (s.acct q).staticP
  slot : ∀ q, Fits (s.acct q) s.ticks (s.kernel.state q)

theorem moderate_default : Moderate 60 := ⟨by decide, by decide⟩

theorem follow_self (a : Acct) (ticks parentP : BitVec 32) (killed : Bool) (st : ProcState) :
    a.follow ticks parentP killed st st = a := by
  cases st <;> rfl

theorem fits_awake {a : Acct} {ticks : BitVec 32} (h : a.wtime = a.stime ∧ a.slept = 0) : Fits a ticks .runnable := by
  obtain ⟨hw, hs⟩ := h
  rw [Fits, hw, hs, BitVec.sub_self]

theorem Fits.congr {a b : Acct} {ticks : BitVec 32} {st : ProcState} (h : Fits a ticks st) (hw : b.wtime = a.wtime)
    (hs : b.stime = a.stime) (hl : b.slept = a.slept) : Fits b ticks st := by
  cases st <;> simp_all [Fits]

namespace Inv

section
variable (h : Inv s)
include h

theorem caller (e : Proc.Event) : Moderate (callerPriority s e) := by
  unfold callerPriority
  split
  · split
    · exact h.prio _
    · exact moderate_default
  · exact moderate_default

theorem follow_prio (e : Proc.Event) (q : Nat) (killed : Bool) (st st' : ProcState) :
    Moderate ((s.acct q).follow s.ticks (callerPriority s e) killed st st').staticP := by
  unfold Acct.follow
  split
  · exact h.caller e
  · exact h.prio q
  · exact h.prio q
  · split <;> exact h.prio q
  · exact h.prio q

theorem follow (he : Careful s (.kernel e))
    (hk : Proc.step s.kernel .other e = .ok k) : Inv (follow s e k) := by
  refine ⟨.step e h.kernel trivial hk, fun q => h.follow_prio e q _ _ _, fun q => ?_⟩
  have hq := h.slot q
  change Fits ((s.acct q).follow s.ticks (callerPriority s e) (killing s.kernel e).isSome (s.kernel.state q)
    (k.state q)) s.ticks (k.state q)
  cases h.kernel.table.change (Proc.step_move hk) q with
  | same hst =>
    rw [hst, follow_self]
    exact hq
  | alloc hst hst' _ | dispatch hst hst' =>
    rw [hst, hst']
    exact ⟨rfl, rfl⟩
  | publish hst hst' | yield hst hst' =>
    rw [hst] at hq
    rw [hst, hst']
    exact fits_awake hq
  | sleep hst hst' =>
    rw [hst] at hq
    rw [hst, hst']
    change s.ticks - s.ticks = BitVec.ofNat 32 (s.acct q).slept
    rw [hq.2, BitVec.sub_self]
  | wake hst hst' =>
    rw [hst] at hq
    cases hx : killing s.kernel e with
    | none =>
      rw [hst, hst']
      exact hq
    | some x =>
      -- a careful `kill` wakes nobody
      have hstate := congrFun (killing_state hx (he x hx) hk) q
      rw [hst, hst'] at hstate
      cases hstate
  | exit hst hst' | free hst hst' =>
    rw [hst']
    trivial

theorem tick (hs : step s .tick = .ok s') : Inv s' := by
  cases hs
  refine ⟨h.kernel, fun q => ?_, fun q => ?_⟩
  · dsimp only
    split <;> exact h.prio q
  have hq := h.slot q
  dsimp only
  by_cases hst : s.kernel.state q = .sleeping
  · rw [hst] at hq
    rw [if_pos hst, hst]
    change s.ticks + 1 - (s.acct q).stime = BitVec.ofNat 32 ((s.acct q).slept + 1)
    rw [ofNat_add, ← hq, add_sub_comm]
    rfl
  · cases hst' : s.kernel.state q <;> rw [hst'] at hq <;> first | exact absurd hst' hst | exact hq

theorem setAcct {i : Nat} {a : Acct} (hp : Moderate a.staticP) (hf : Fits a s.ticks (s.kernel.state i)) :
    Inv (setAcct s i a) := by
  refine ⟨h.kernel, fun q => ?_, fun q => ?_⟩
  · by_cases he : q = i
    · subst he
      simpa [Accounts.setAcct] using hp
    · simpa [Accounts.setAcct, he] using h.prio q
  · by_cases he : q = i
    · subst he
      simpa [Accounts.setAcct] using hf
    · simpa [Accounts.setAcct, he] using h.slot q

/-- `set_priority` clears both ends, which is right for a process that has not slept. -/
theorem setPriority {c i : Nat} {sp : BitVec 32} (he : Careful s (.setPriority c i sp)) :
    Inv (Accounts.setAcct s i
      { s.acct i with staticP := sp, niceness := 5, pbsRtime := 0, stime := 0, wtime := 0 }) := by
  obtain ⟨hsp, hasleep, hslept⟩ := he
  refine h.setAcct hsp ?_
  have hi := h.slot i
  cases hst : s.kernel.state i <;> rw [hst] at hi
  case unused | zombie => trivial
  case sleeping => exact absurd hst hasleep
  case used | running => exact ⟨rfl, hi.2⟩
  case runnable => exact fits_awake ⟨rfl, hslept hst⟩

theorem step {e : Event} (he : Careful s e) (hs : step s e = .ok s') : Inv s' := by
  cases e with
  | kernel e =>
    obtain ⟨k, hk, hs⟩ := Outcome.bind_eq_ok.1 hs
    cases hs
    exact h.follow he hk
  | tick => exact h.tick hs
  | count i =>
    simp only [Accounts.step] at hs
    split at hs
    · split at hs <;> cases hs
      · exact h.setAcct (h.prio i) ((h.slot i).congr rfl rfl rfl)
      · exact h
    · cases hs
  | setPriority c i sp =>
    simp only [Accounts.step] at hs
    split at hs <;> cases hs
    exact h.setPriority he
  | scan c k =>
    simp only [Accounts.step] at hs
    split at hs
    · split at hs <;> cases hs
      · exact h.setAcct (h.prio k) ((h.slot k).congr rfl rfl rfl)
      · exact h
    · cases hs

end

theorem boot : Inv boot where
  kernel := .init rfl
  prio q := by
    simp only [Accounts.boot]
    split
    · exact moderate_default
    · exact ⟨by decide, by decide⟩
  slot q := by
    by_cases h0 : q = 0
    · subst h0
      exact fits_awake ⟨rfl, rfl⟩
    · have hst : Accounts.boot.kernel.state q = .unused := if_neg h0
      rw [hst]
      trivial

end Inv

/-- The states of the careful runs. -/
abbrev Reached (s : Sys) : Prop := Reach step (· = boot) Careful s

theorem Reached.inv (h : Reached s) : Inv s :=
  Reach.inv (by rintro _ rfl; exact .boot) (fun _ _ _ hI he hs => hI.step he hs) h

/-! ## What the pass computes -/

theorem eq_zero_of_toNat {a : BitVec 32} (h : a.toNat = 0) : a = 0 := eq_of_toNat_eq h

/-- The niceness of a process whose account is in order. -/
theorem niceness_range {q : Sched.Proc} {n : Nat} (hsleep : q.wtime - q.stime = BitVec.ofNat 32 n)
    (hlt : n + q.pbsRtime.toNat < 2 ^ 31) : 0 ≤ (niceness q).toInt ∧ (niceness q).toInt ≤ 10 := by
  have hn : (BitVec.ofNat 32 n).toInt = n := by
    rw [toInt_ofNat (by omega), wrapped, if_pos (by omega)]
  have hr : q.pbsRtime.toInt = q.pbsRtime.toNat := toInt_eq_toNat_of_lt (by omega)
  by_cases h0 : n + q.pbsRtime.toNat = 0
  · -- neither slept nor counted: the default
    have hn0 : n = 0 := by omega
    have hr0 : q.pbsRtime = 0 := eq_zero_of_toNat (by omega)
    have h5 : niceness q = 5 := by
      rw [niceness, hsleep, hn0, hr0]
      rfl
    rw [h5]
    decide
  · have hslept : Slept q n q.pbsRtime.toNat := ⟨by rw [hsleep, hn], hr, by omega⟩
    rw [hslept.niceness_eq hlt]
    split <;> omega

/-- **The accounts are in order.** In every state of every careful run, for every RUNNABLE process with fewer than
`2 ^ 31` ticks on its account: `wtime - stime` is the number of ticks it slept since its last dispatch, the divisor is
not zero where the pass divides, the niceness is between 0 and 10, and `staticP - niceness + 5` is an `int`. -/
theorem accounts_in_order (h : Reached s) {q : Nat} (hq : s.kernel.state q = .runnable)
    (hlt : (s.acct q).slept + (s.acct q).pbsRtime.toNat < 2 ^ 31) :
    ((s.acct q).wtime - (s.acct q).stime).toInt = (s.acct q).slept ∧
    (¬ ((s.acct q).wtime - (s.acct q).stime = 0 ∧ (s.acct q).pbsRtime = 0) →
      (s.acct q).wtime - (s.acct q).stime + (s.acct q).pbsRtime ≠ 0) ∧
    (0 ≤ (niceness (view s q)).toInt ∧ (niceness (view s q)).toInt ≤ 10) ∧
    -2 ^ 31 ≤ (s.acct q).staticP.toInt - (niceness (view s q)).toInt ∧
    (s.acct q).staticP.toInt - (niceness (view s q)).toInt + 5 < 2 ^ 31 := by
  have hsleep := h.inv.slot q
  rw [hq] at hsleep
  have hnice := niceness_range (q := view s q) hsleep hlt
  obtain ⟨hlow, hhigh⟩ := h.inv.prio q
  refine ⟨?_, fun hne hzero => hne ?_, hnice, by omega, by omega⟩
  · rw [hsleep, toInt_ofNat (by omega), wrapped, if_pos (by omega)]
  -- both terms are small, so the sum is zero only if both are
  rw [hsleep] at hzero ⊢
  have hsum := congrArg BitVec.toNat hzero
  rw [toNat_add, toNat_ofNat, Nat.mod_eq_of_lt (show (s.acct q).slept < 2 ^ 32 by omega),
    Nat.mod_eq_of_lt (by omega)] at hsum
  have hsum : (s.acct q).slept + (s.acct q).pbsRtime.toNat = 0 := hsum
  constructor
  · rw [show (s.acct q).slept = 0 by omega]
    rfl
  · exact eq_zero_of_toNat (by omega)

/-- CPU 1 runs the first process, which forks; CPU 2 runs the child. -/
def startChild : List Event :=
  [Event.kernel (.sched 1 0), Event.kernel (.sched 1 0), Event.kernel (.thread 1 (.next true)),
    Event.kernel (.thread 1 .fork)] ++ List.replicate 6 (Event.kernel (.thread 1 (.next true))) ++
    [Event.kernel (.sched 2 1), Event.kernel (.sched 2 1), Event.kernel (.thread 2 (.next true))]

/-- The child goes to sleep. -/
def childSleeps : List Event :=
  [Event.kernel (.thread 2 (.acquire 7)), Event.kernel (.thread 2 (.sleep (.obj 7) 7))] ++
    List.replicate 4 (Event.kernel (.thread 2 (.next true))) ++ [Event.kernel (.sched 2 0), Event.kernel (.sched 2 0)]

/-- The first process wakes it up. -/
def wakeChild : List Event :=
  [Event.kernel (.thread 1 (.wakeup (.obj 7)))] ++ List.replicate 2 (Event.kernel (.thread 1 (.next true)))

/-- The first process kills it. -/
def killChild : List Event :=
  [Event.kernel (.thread 1 (.kill 2))] ++ List.replicate 2 (Event.kernel (.thread 1 (.next true)))

/-- A child that runs for one tick and sleeps for two. -/
def napping : List Event :=
  startChild ++ [Event.tick, Event.count 1] ++ childSleeps ++ [Event.tick, Event.tick] ++ wakeChild

theorem accounts_in_order_nap :
    (((after step boot napping).acct 1).wtime - ((after step boot napping).acct 1).stime).toInt = 2 := by
  have hr : Reached (after step boot napping) := Reach.of_checked _ (.init rfl) (by decide +kernel)
  exact (accounts_in_order hr (by decide +kernel) (by decide +kernel)).1.trans (by decide +kernel)

/-- The account of the child after a run at whose end it is RUNNABLE. -/
def Ends (es : List Event) (P : Acct → BitVec 32 → Prop) : Prop :=
  ∃ s, run step boot es = .ok s ∧ s.kernel.state 1 = .runnable ∧ P (s.acct 1) (niceness (view s 1))

theorem ends_of {es : List Event} {P : Acct → BitVec 32 → Prop} (hok : (run step boot es).isOk = true)
    (hst : (after step boot es).kernel.state 1 = .runnable)
    (hP : P ((after step boot es).acct 1) (niceness (view (after step boot es) 1))) : Ends es P :=
  ⟨_, run_eq_after step hok, hst, hP⟩

/-- A child that has run for one tick and is killed in its sleep: its sleep is -1, and the pass divides by zero. A child
whose priority is set in its sleep has slept one tick and gets an account of three. And with `INT_MAX` as its priority
`staticP - niceness + 5` overflows. -/
theorem accounts_out_of_order :
    Ends (startChild ++ [Event.tick, Event.count 1] ++ childSleeps ++ killChild) (fun a _ =>
      (a.wtime - a.stime).toInt = -1 ∧ a.pbsRtime = 1 ∧ a.wtime - a.stime + a.pbsRtime = 0) ∧
    Ends (startChild ++ [Event.tick, Event.tick] ++ childSleeps ++ [Event.setPriority 1 1 60, Event.tick] ++ wakeChild)
      (fun a _ => a.slept = 1 ∧ a.wtime - a.stime = 3) ∧
    Ends (startChild ++ [Event.setPriority 1 1 0x7fffffff, Event.tick, Event.count 1] ++ childSleeps ++ wakeChild)
      (fun a n => a.staticP.toInt - n.toInt + 5 ≥ 2 ^ 31) := by
  refine ⟨ends_of ?_ ?_ ?_, ends_of ?_ ?_ ?_, ends_of ?_ ?_ ?_⟩ <;> decide +kernel

end Xv6Riscv.Sched.Accounts
