import Mathlib.Order.WellFounded
import Xv6Riscv.Sched.Dispatch

/-!
# First come, first served (build FCFS)

| here | there |
| --- | --- |
| `allocproc`, `freeproc` | proc.c:126, proc.c:205 |
| `Event.start` | the end of `fork` (proc.c:402) and of `userinit` |
| `Event.dispatch` | `p->state = RUNNING` (proc.c:771) |
| `Event.sleep`, `wake`, `exit` | the changes of `state` in `sleep`, `wakeup` and `kill`, `exit` |
| `Event.tick` | `ticks++` (trap.c:332) |
| `Sys.born`, `Sys.count` | history: which allocation made the process in a slot, and how many there were |

The build has no `yield`. A CPU may have looked at an older table than the one in which it dispatches, so
`dispatch` takes any RUNNABLE process here. `settickets` and `set_priority` write fields that the scan of
FCFS does not read.

The scan compares `ctime`, the tick in which a process was allocated. Processes of one tick are told apart by
their slots only, and `allocproc` takes the lowest free slot, whichever that is.
-/
namespace Xv6Riscv.Sched.Fcfs
open Machine Function

structure Sys where
  proc : Nat → Proc
  ticks : BitVec 32
  nextpid : BitVec 32
  born : Nat → Nat
  count : Nat

inductive Event where
  | alloc
  | start (c : Nat) | free (c : Nat)
  | dispatch (c : Nat) | sleep (c : Nat) | wake (c : Nat) | exit (c : Nat)
  | tick
deriving DecidableEq, Repr

namespace Sys

def setProc (s : Sys) (c : Nat) (q : Proc) : Sys := { s with proc := update s.proc c q }

/-- A change of `state` that expects `old`. -/
def move (s : Sys) (c : Nat) (old new : ProcState) : Outcome Empty Sys :=
  if c < NPROC ∧ (s.proc c).state = old then .ok (s.setProc c { s.proc c with state := new }) else .stuck

end Sys

/-- `allocproc` up to its allocations; where one fails, `freeproc` follows. -/
def allocproc (s : Sys) : Sys :=
  match unusedSlot fun c => (s.proc c).state with
  | none => s
  | some c =>
    { s with
      proc := update s.proc c
        { state := .used, pid := s.nextpid, ctime := s.ticks, tickets := 1, pbsRtime := 0, stime := 0, staticP := 60,
          niceness := 5, wtime := 0, schNo := 0, wticks := 0, pr := 0 }
      nextpid := s.nextpid + 1
      born := update s.born c s.count
      count := s.count + 1 }

def freeproc (q : Proc) : Proc := { q with pid := 0, state := .unused, ctime := 0, wticks := 0, pr := 0 }

def step (s : Sys) : Event → Outcome Empty Sys
  | .alloc => .ok (allocproc s)
  | .start c => s.move c .used .runnable
  | .free c =>
    if c < NPROC ∧ ((s.proc c).state = .used ∨ (s.proc c).state = .zombie) then
      .ok (s.setProc c (freeproc (s.proc c)))
    else .stuck
  | .dispatch c => s.move c .runnable .running
  | .sleep c => s.move c .running .sleeping
  | .wake c => s.move c .sleeping .runnable
  | .exit c => s.move c .running .zombie
  | .tick => .ok { s with ticks := s.ticks + 1 }

/-- After `procinit` and `userinit`. -/
structure Boot (s : Sys) : Prop where
  init : (s.proc 0).state = .runnable ∧ (s.proc 0).pid = 1 ∧ (s.proc 0).ctime = 0
  others : ∀ c, c ≠ 0 → (s.proc c).state = .unused
  ticks : s.ticks = 0
  nextpid : s.nextpid = 2
  history : s.count = 1 ∧ s.born 0 = 0

/-! ## Creation order -/

/-- Each process has a creation number of its own, and its `pid` is that number, from 1 on. -/
structure Inv (s : Sys) : Prop where
  nextpid : s.nextpid = BitVec.ofNat 32 (s.count + 1)
  pid : ∀ c, (s.proc c).state ≠ .unused → (s.proc c).pid = BitVec.ofNat 32 (s.born c + 1)
  born : ∀ c, (s.proc c).state ≠ .unused → s.born c < s.count
  inj : ∀ c d, (s.proc c).state ≠ .unused → (s.proc d).state ≠ .unused → s.born c = s.born d → c = d

variable {s s' : Sys}

theorem Boot.inv (h : Boot s) : Inv s where
  nextpid := by rw [h.nextpid, h.history.1]; rfl
  pid c hc := by
    have h0 : c = 0 := Classical.not_not.1 fun hne => hc (h.others c hne)
    rw [h0, h.init.2.1, h.history.2]
    rfl
  born c hc := by
    have h0 : c = 0 := Classical.not_not.1 fun hne => hc (h.others c hne)
    rw [h0, h.history.1, h.history.2]
    exact Nat.one_pos
  inj c d hc hd _ := by
    have hc0 : c = 0 := Classical.not_not.1 fun hne => hc (h.others c hne)
    have hd0 : d = 0 := Classical.not_not.1 fun hne => hd (h.others d hne)
    rw [hc0, hd0]

theorem Inv.shrink (h : Inv s) (hn : s'.nextpid = s.nextpid) (hb : s'.born = s.born) (hc : s'.count = s.count)
    (hp : ∀ c, (s'.proc c).state ≠ .unused → (s.proc c).state ≠ .unused ∧ (s'.proc c).pid = (s.proc c).pid) :
    Inv s' where
  nextpid := by rw [hn, hc]; exact h.nextpid
  pid c hu := by rw [(hp c hu).2, hb]; exact h.pid c (hp c hu).1
  born c hu := by rw [hb, hc]; exact h.born c (hp c hu).1
  inj c d hu hv he := h.inj c d (hp c hu).1 (hp d hv).1 (by rwa [hb] at he)

theorem Inv.setProc (h : Inv s) {c : Nat} {q : Proc}
    (hq : q.state ≠ .unused → (s.proc c).state ≠ .unused ∧ q.pid = (s.proc c).pid) : Inv (s.setProc c q) := by
  refine h.shrink rfl rfl rfl fun d hd => ?_
  simp only [Sys.setProc, update_apply] at hd ⊢
  split at hd
  next he =>
    rw [if_pos he, he]
    exact hq hd
  next he =>
    rw [if_neg he]
    exact ⟨hd, rfl⟩

theorem Inv.move {c : Nat} {old new : ProcState} (h : Inv s) (hold : old ≠ .unused)
    (hs : s.move c old new = .ok s') : Inv s' := by
  unfold Sys.move at hs
  split at hs
  next hg =>
    cases hs
    exact h.setProc fun _ => ⟨fun hu => hold (hg.2.symm.trans hu), rfl⟩
  next => cases hs

theorem Inv.allocproc (h : Inv s) : Inv (allocproc s) := by
  unfold Fcfs.allocproc
  split
  next => exact h
  next c hc =>
    -- the new number is above every number given so far
    have hnew : ∀ d, (s.proc d).state ≠ .unused → s.born d ≠ s.count := fun d hd => Nat.ne_of_lt (h.born d hd)
    refine ⟨?_, fun d hd => ?_, fun d hd => ?_, fun d e hd he heq => ?_⟩
    · dsimp only
      rw [h.nextpid, BitVec.ofNat_add s.count.succ 1]
      rfl
    · by_cases hdc : d = c
      · simp only [hdc, update_self]
        exact h.nextpid
      · simp only [update_of_ne hdc] at hd ⊢
        exact h.pid d hd
    · by_cases hdc : d = c
      · simp only [hdc, update_self]
        omega
      · simp only [update_of_ne hdc] at hd ⊢
        have := h.born d hd
        omega
    · by_cases hdc : d = c <;> by_cases hec : e = c
      · rw [hdc, hec]
      · simp only [hdc, update_self, update_of_ne hec] at he heq
        exact absurd heq.symm (hnew e he)
      · simp only [hec, update_self, update_of_ne hdc] at hd heq
        exact absurd heq (hnew d hd)
      · simp only [update_of_ne hdc, update_of_ne hec] at hd he heq
        exact h.inj d e hd he heq

theorem Inv.step {e : Event} (h : Inv s) (hs : Fcfs.step s e = .ok s') : Inv s' := by
  cases e with
  | alloc =>
    cases hs
    exact h.allocproc
  | start c => exact h.move (by decide) hs
  | free c =>
    simp only [Fcfs.step] at hs
    split at hs
    · cases hs
      exact h.setProc fun hu => absurd rfl hu
    · cases hs
  | dispatch c => exact h.move (by decide) hs
  | sleep c => exact h.move (by decide) hs
  | wake c => exact h.move (by decide) hs
  | exit c => exact h.move (by decide) hs
  | tick =>
    cases hs
    exact h.shrink rfl rfl rfl fun c hc => ⟨hc, rfl⟩

theorem reach_inv {allowed : Sys → Event → Prop} (h : Reach step Boot allowed s) : Inv s :=
  h.inv (fun _ => Boot.inv) fun _ _ _ hi _ hs => hi.step hs

/-! ## What the scan finds -/

/-- `m` was created before every other RUNNABLE process. -/
def Oldest (s : Sys) (m : Nat) : Prop := Runnable s.proc m ∧ ∀ q, Runnable s.proc q → q ≠ m → s.born m < s.born q

theorem Inv.exists_oldest (h : Inv s) (hr : ∃ k, Runnable s.proc k) : ∃ m, Oldest s m := by
  obtain ⟨m, hm, hmin⟩ := (measure s.born).wf.has_min {k | Runnable s.proc k} hr
  refine ⟨m, hm, fun q hq hne => ?_⟩
  have hle : s.born m ≤ s.born q := Nat.not_lt.1 (hmin q hq)
  refine Nat.lt_of_le_of_ne hle fun heq => hne ?_
  refine (h.inj m q ?_ ?_ heq).symm
  · rw [hm.2]
    nofun
  · rw [hq.2]
    nofun

theorem Oldest.unique {m n : Nat} (hm : Oldest s m) (hn : Oldest s n) : m = n := by
  by_contra hne
  exact Nat.lt_asymm (hm.2 n hn.1 (Ne.symm hne)) (hn.2 m hm.1 hne)

theorem earliest_unique {t : Nat → Proc} {n p q : Nat} (hp : Earliest t n p) (hq : Earliest t n q) : p = q := by
  by_contra hne
  have h1 := hp.first q hq.lt hq.runnable (Ne.symm hne)
  have h2 := hq.first p hp.lt hp.runnable hne
  simp only [BitVec.lt_def, ← BitVec.toNat_inj] at h1 h2
  omega

/-- **FCFS selects the process that was created first exactly when that one also has the smallest `ctime` of the
RUNNABLE processes and the lowest slot of those with that `ctime`**, in every table that a run reaches. -/
theorem fcfs_oldest_iff {s : Sys} (h : Reach step Boot (fun _ _ => True) s) (hr : ∃ k, Runnable s.proc k) :
    (∃ p, fcfs s.proc = some p ∧ Oldest s p) ↔ ∀ m, Oldest s m → Earliest s.proc NPROC m := by
  obtain ⟨p, hp⟩ : ∃ p, fcfs s.proc = some p := by
    cases hf : fcfs s.proc with
    | none => exact absurd hr (fcfs_none hf)
    | some p => exact ⟨p, rfl⟩
  constructor
  · rintro ⟨q, hq, hold⟩ m hm
    rw [hm.unique hold]
    exact fcfs_earliest hq
  · intro hfirst
    obtain ⟨m, hm⟩ := (reach_inv h).exists_oldest hr
    have hpm : p = m := earliest_unique (fcfs_earliest hp) (hfirst m hm)
    exact ⟨p, hp, hpm ▸ hm⟩

/-- The machine that `main` hands to the schedulers. -/
def booted : Sys where
  proc k := fresh k (if k = 0 then .runnable else .unused)
  ticks := 0
  nextpid := 2
  born _ := 0
  count := 1

theorem booted_boot : Boot booted := ⟨by decide, fun c hc => by simp [booted, fresh, hc], rfl, rfl, by decide⟩

/-- A CPU dispatches what the scan of the table finds. -/
def followsScan (s : Sys) : Event → Bool
  | .dispatch p => fcfs s.proc == some p
  | _ => true

/-- `init` forks twice and waits; the first child exits, `init` reaps it and, after `pause`, forks a third child,
which gets the slot of the first. -/
def recycled (pause : List Event) : List Event :=
  [.dispatch 0, .alloc, .start 1, .alloc, .start 2, .sleep 0, .dispatch 1, .exit 1, .wake 0, .dispatch 0, .free 1] ++
    pause ++ [.alloc, .start 1, .sleep 0]

/-- With a tick between the two forks the second child runs first, from the higher slot. -/
theorem fcfs_oldest_recycled : ∃ s, Reach step Boot (fun _ _ => True) s ∧ Runnable s.proc 1 ∧ Runnable s.proc 2 ∧
    fcfs s.proc = some 2 ∧ ∃ p, fcfs s.proc = some p ∧ Oldest s p := by
  obtain ⟨hok, h1, h2, hsel, hborn, honly⟩ :
    checked step (fun _ _ => True) booted (recycled [.tick]) = true ∧
      ((after step booted (recycled [.tick])).proc 1).state = .runnable ∧
      ((after step booted (recycled [.tick])).proc 2).state = .runnable ∧
      fcfs (after step booted (recycled [.tick])).proc = some 2 ∧
      (after step booted (recycled [.tick])).born 2 < (after step booted (recycled [.tick])).born 1 ∧
      ∀ c < NPROC, ((after step booted (recycled [.tick])).proc c).state = .runnable → c = 1 ∨ c = 2 := by
    decide +kernel
  have hr := Reach.of_checked (recycled [.tick]) (.init booted_boot) hok
  refine ⟨_, hr, ⟨by decide, h1⟩, ⟨by decide, h2⟩, hsel, (fcfs_oldest_iff hr ⟨2, by decide, h2⟩).2 fun m hm => ?_⟩
  rcases honly m hm.1.1 hm.1.2 with rfl | rfl
  · exact absurd (hm.2 2 ⟨by decide, h2⟩ (by decide)) (Nat.lt_asymm hborn)
  · exact fcfs_earliest hsel

/-- Without a tick the third child runs before the second. -/
theorem youngest_first : ∃ s, Reach step Boot (fun s e => followsScan s e = true) s ∧ Runnable s.proc 1 ∧
    Runnable s.proc 2 ∧
    (s.proc 2).pid = 3 ∧ (s.proc 1).pid = 4 ∧ fcfs s.proc = some 1 ∧ ¬ ∃ p, fcfs s.proc = some p ∧ Oldest s p := by
  obtain ⟨hok, h1, h2, hp2, hp1, hsel, hborn⟩ :
    checked step (fun s e => followsScan s e = true) booted (recycled []) = true ∧
      ((after step booted (recycled [])).proc 1).state = .runnable ∧
      ((after step booted (recycled [])).proc 2).state = .runnable ∧
      ((after step booted (recycled [])).proc 2).pid = 3 ∧ ((after step booted (recycled [])).proc 1).pid = 4 ∧
      fcfs (after step booted (recycled [])).proc = some 1 ∧
      (after step booted (recycled [])).born 2 < (after step booted (recycled [])).born 1 := by
    decide +kernel
  refine ⟨_, Reach.of_checked (recycled []) (.init booted_boot) hok, ⟨by decide, h1⟩, ⟨by decide, h2⟩, hp2, hp1, hsel, ?_⟩
  rintro ⟨p, hp, hold⟩
  cases hsel.symm.trans hp
  exact Nat.lt_asymm hborn (hold.2 2 ⟨by decide, h2⟩ (by decide))

end Xv6Riscv.Sched.Fcfs
