import Xv6Riscv.Proc.States

/-!
# The times that `waitx` reports

| here | there |
| --- | --- |
| `Event.tick` | `clockintr` (trap.c:329) on CPU 0: `ticks++` |
| `Event.visit` | one slot of `update_time` (proc.c:559), under its lock |
| `Times.follow` | `ctime`, `rtime`, `etime` where the state changes: `allocproc` (proc.c:148), `exit` (proc.c:449), `freeproc` (proc.c:205) |
| `wtime` | `waitx` (proc.c:531) |

The clock runs over the machine of `Proc`. CPU 0 does nothing else while it is in `clockintr`, which it enters with no
lock held; the other CPUs go on. The fields of `Times` after `etime` are history variables, and so is `now`.
-/
namespace Xv6Riscv.Proc.Clock
open Machine

structure Times where
  ctime : BitVec 32
  rtime : BitVec 32
  etime : BitVec 32
  /-- The ticks in which the process was allocated and exited. -/
  born : Nat
  died : Nat
  /-- How often `update_time` found it RUNNING, and whether also in the tick in which it was allocated. -/
  ran : Nat
  early : Bool
deriving DecidableEq, Repr

structure Sys where
  kernel : Proc.Sys
  ticks : BitVec 32
  times : Nat → Times
  /-- `update_time` is in front of this slot. -/
  upd : Option Nat
  /-- Ticks since boot. -/
  now : Nat

/-- A slot whose state changes from the first to the second. -/
def Times.follow (t : Times) (ticks : BitVec 32) (now : Nat) : ProcState → ProcState → Times
  | .unused, .used => { ctime := ticks, rtime := 0, etime := 0, born := now, died := 0, ran := 0, early := false }
  | .running, .zombie => { t with etime := ticks, died := now }
  | .zombie, .unused => { t with ctime := 0 }
  | _, _ => t

/-- `*wtime = np->etime - np->ctime - np->rtime`. -/
def wtime (t : Times) : BitVec 32 := t.etime - t.ctime - t.rtime

/-- CPU 0 takes interrupts: it holds no lock. -/
def Interruptible (k : Proc.Sys) : Prop := NoLocks k (.cpu 0) ∧ ∀ q < NPROC, k.plock q ≠ some 0

instance (k : Proc.Sys) : Decidable (Interruptible k) := inferInstanceAs (Decidable (_ ∧ _))

def onCpu0 : Proc.Event → Bool
  | .sched c _ | .thread c _ => c == 0
  | .dev _ _ => false

inductive Event where
  | kernel (e : Proc.Event)
  | tick
  | visit
deriving DecidableEq, Repr

variable (s : Sys)

def follow (k : Proc.Sys) : Sys :=
  { s with
    kernel := k
    times := fun q => (s.times q).follow s.ticks s.now (s.kernel.state q) (k.state q) }

def setTimes (i : Nat) (t : Times) : Sys := { s with times := Function.update s.times i t }

/-- `if (p->state == RUNNING) p->rtime++`. -/
def count (t : Times) (now : Nat) : Times :=
  { t with rtime := t.rtime + 1, ran := t.ran + 1, early := t.early || t.born == now }

def visit : Outcome Panic Sys :=
  match s.upd with
  | none => .stuck
  | some i =>
    if i < NPROC then
      if s.kernel.plock i = none then
        if s.kernel.state i = .running then
          .ok { setTimes s i (count (s.times i) s.now) with upd := some (i + 1) }
        else .ok { s with upd := some (i + 1) }
      else .stuck
    else .ok { s with upd := none }

def step (pol : Policy) : Event → Outcome Panic Sys
  | .kernel e =>
    if s.upd ≠ none ∧ onCpu0 e = true then .stuck
    else (Proc.step s.kernel pol e).bind fun k => .ok (follow s k)
  | .tick =>
    if s.upd = none ∧ Interruptible s.kernel then
      .ok { s with ticks := s.ticks + 1, now := s.now + 1, upd := some 0 }
    else .stuck
  | .visit => visit s

def boot : Sys where
  kernel := Proc.boot
  ticks := 0
  times _ := { ctime := 0, rtime := 0, etime := 0, born := 0, died := 0, ran := 0, early := false }
  upd := none
  now := 0

variable {s} {s' : Sys} {pol : Policy}

/-! ## How long a process has run -/

/-- The last tick for which `update_time` has been at slot `q`. -/
def last (s : Sys) (q : Nat) : Nat :=
  match s.upd with
  | none => s.now
  | some i => if q < i then s.now else s.now - 1

/-- One count is allowed in the tick of the allocation. -/
def Times.extra (t : Times) : Nat := if t.early then 1 else 0

/-- The times of a process that has not exited, with the ticks up to `last` counted. -/
structure Running (t : Times) (now last : Nat) : Prop where
  ctime : t.ctime = BitVec.ofNat 32 t.born
  rtime : t.rtime = BitVec.ofNat 32 t.ran
  born : t.born ≤ now
  ran : t.ran ≤ last - t.born + t.extra
  early : t.early = true → t.born ≤ last

/-- The times of a process that has exited. -/
structure Exited (t : Times) : Prop where
  ctime : t.ctime = BitVec.ofNat 32 t.born
  rtime : t.rtime = BitVec.ofNat 32 t.ran
  etime : t.etime = BitVec.ofNat 32 t.died
  born : t.born ≤ t.died
  ran : t.ran ≤ t.died - t.born + t.extra

/-- The times of a slot by its state. -/
def Fits (t : Times) (now last : Nat) : ProcState → Prop
  | .unused => True
  | .zombie => Exited t
  | _ => Running t now last

structure Inv (pol : Policy) (s : Sys) : Prop where
  kernel : Proc.Reached pol s.kernel
  ticks : s.ticks = BitVec.ofNat 32 s.now
  pos : s.upd ≠ none → 0 < s.now
  slot : ∀ q, Fits (s.times q) s.now (last s q) (s.kernel.state q)

theorem last_le (s : Sys) (q : Nat) : last s q ≤ s.now := by
  unfold last
  split
  · exact Nat.le_refl _
  · split <;> omega

variable {t : Times}

theorem Running.mono {now last now' last' : Nat} (h : Running t now last) (hnow : now ≤ now')
    (hlast : last ≤ last') : Running t now' last' where
  ctime := h.ctime
  rtime := h.rtime
  born := Nat.le_trans h.born hnow
  ran := Nat.le_trans h.ran (Nat.add_le_add_right (Nat.sub_le_sub_right hlast _) _)
  early he := Nat.le_trans (h.early he) hlast

theorem Fits.mono {now last now' last' : Nat} {st : ProcState} (h : Fits t now last st) (hnow : now ≤ now')
    (hlast : last ≤ last') : Fits t now' last' st := by
  cases st with
  | unused => trivial
  | zombie => exact h
  | _ => exact Running.mono h hnow hlast

theorem Running.exit {ticks : BitVec 32} {now last : Nat} (h : Running t now last)
    (ht : ticks = BitVec.ofNat 32 now) (hlast : last ≤ now) : Exited { t with etime := ticks, died := now } where
  ctime := h.ctime
  rtime := h.rtime
  etime := ht
  born := h.born
  ran := (h.mono (Nat.le_refl now) hlast).ran

/-- `update_time` counts a tick at most once, and the tick of the allocation sets `early`. -/
theorem Running.count {now : Nat} (h : Running t now (now - 1)) (hpos : 0 < now) : Running (count t now) now now := by
  have hran := h.ran
  have hborn := h.born
  refine ⟨h.ctime, ?_, h.born, ?_, fun _ => h.born⟩
  · simp only [Clock.count, h.rtime, BitVec.ofNat_add]
    rfl
  by_cases hnow : t.born = now
  · -- it has not been counted in this tick yet
    have hnot : t.early = false := by
      by_contra he
      have := h.early (by simpa using he)
      omega
    simp [Clock.count, Times.extra, hnow, hnot] at hran ⊢
    omega
  · simp [Clock.count, Times.extra, hnow] at hran ⊢
    omega

theorem follow_self (t : Times) (ticks : BitVec 32) (now : Nat) (st : ProcState) : t.follow ticks now st st = t := by
  cases st <;> rfl

namespace Inv

theorem follow (h : Inv pol s) {e : Proc.Event} {k : Proc.Sys} (hk : Proc.step s.kernel pol e = .ok k) :
    Inv pol (follow s k) := by
  refine ⟨.step e h.kernel trivial hk, h.ticks, h.pos, fun q => ?_⟩
  have hq := h.slot q
  change Fits ((s.times q).follow s.ticks s.now (s.kernel.state q) (k.state q)) s.now (last s q) (k.state q)
  cases h.kernel.table.change (step_move hk) q with
  | same hst =>
    rw [hst, follow_self]
    exact hq
  | alloc hst hst' _ =>
    rw [hst, hst']
    exact ⟨h.ticks, rfl, Nat.le_refl _, Nat.zero_le _, nofun⟩
  | exit hst hst' =>
    rw [hst] at hq
    rw [hst, hst']
    exact Running.exit hq h.ticks (last_le s q)
  | free hst hst' =>
    rw [hst, hst']
    trivial
  | publish hst hst' | dispatch hst hst' | yield hst hst' | sleep hst hst' | wake hst hst' =>
    rw [hst] at hq
    rw [hst, hst']
    exact hq

theorem tick (h : Inv pol s) (hupd : s.upd = none) :
    Inv pol { s with ticks := s.ticks + 1, now := s.now + 1, upd := some 0 } := by
  refine ⟨h.kernel, ?_, fun _ => Nat.succ_pos _, fun q => ?_⟩
  · rw [h.ticks, BitVec.ofNat_add]
    rfl
  · have hlast : last s q = s.now := by rw [last, hupd]
    have hq := h.slot q
    rw [hlast] at hq
    exact hq.mono (Nat.le_succ _) (Nat.le_refl _)

theorem last_succ {i q : Nat} {t : Nat → Times} (hupd : s.upd = some i) :
    last { s with times := t, upd := some (i + 1) } q = if q = i then s.now else last s q := by
  simp only [last, hupd]
  by_cases he : q = i
  · rw [if_pos he, if_pos (by omega)]
  · rw [if_neg he]
    refine if_congr ⟨fun hlt => ?_, fun hlt => ?_⟩ rfl rfl <;> omega

theorem visit (h : Inv pol s) (hs : visit s = .ok s') : Inv pol s' := by
  unfold Clock.visit at hs
  split at hs
  · cases hs
  next i hupd =>
    have hnow : 0 < s.now := h.pos (by rw [hupd]; nofun)
    have hlast : last s i = s.now - 1 := by simp [last, hupd]
    split at hs
    · split at hs
      · split at hs
        next hst =>
          cases hs
          refine ⟨h.kernel, h.ticks, fun _ => hnow, fun q => ?_⟩
          have hq := h.slot q
          change Fits (Function.update s.times i _ q) s.now (last { s with times := _, upd := some (i + 1) } q) _
          rw [last_succ hupd]
          by_cases he : q = i
          · subst he
            rw [if_pos rfl, Function.update_self]
            change Fits _ _ _ (s.kernel.state q)
            rw [hst, hlast] at hq
            rw [hst]
            exact Running.count hq hnow
          · rw [if_neg he, Function.update_of_ne he]
            exact hq
        next hst =>
          cases hs
          refine ⟨h.kernel, h.ticks, fun _ => hnow, fun q => ?_⟩
          change Fits (s.times q) s.now (last { s with times := s.times, upd := some (i + 1) } q) _
          rw [last_succ hupd]
          refine (h.slot q).mono (Nat.le_refl _) ?_
          split
          · exact last_le s q
          · exact Nat.le_refl _
      · cases hs
    · cases hs
      exact ⟨h.kernel, h.ticks, nofun, fun q => (h.slot q).mono (Nat.le_refl _) (last_le s q)⟩

theorem step (h : Inv pol s) {e : Event} (hs : step s pol e = .ok s') : Inv pol s' := by
  cases e with
  | kernel e =>
    simp only [Clock.step] at hs
    split at hs
    · cases hs
    · obtain ⟨k, hk, hs⟩ := Outcome.bind_eq_ok.1 hs
      cases hs
      exact h.follow hk
  | tick =>
    simp only [Clock.step] at hs
    split at hs <;> cases hs
    next hg => exact h.tick hg.1
  | visit => exact h.visit hs

theorem boot : Inv pol boot where
  kernel := .init rfl
  ticks := rfl
  pos := nofun
  slot q := by
    by_cases h0 : q = 0
    · subst h0
      exact ⟨rfl, rfl, Nat.le_refl _, Nat.zero_le _, nofun⟩
    · have hst : (Clock.boot.kernel.state q) = .unused := if_neg h0
      rw [hst]
      trivial

end Inv

/-! ## Runs -/

/-- The states of all runs. -/
abbrev Reached (pol : Policy) (s : Sys) : Prop := Reach (fun s e => step s pol e) (· = boot) (fun _ _ => True) s

theorem Reached.inv (h : Reached pol s) : Inv pol s :=
  Reach.inv (by rintro _ rfl; exact .boot) (fun _ _ _ hI _ hs => hI.step hs) h

/-- **The times add up.** In every state of every run, a process that has exited was counted at most once for each tick
of its life, and once more if it was counted in the tick of its allocation. Without this extra count, and if it lived
less than `2 ^ 32` ticks, `rtime` is at most `etime - ctime`, and `rtime + wtime` is its lifetime. -/
theorem times_add_up (h : Reached pol s) {q : Nat} (hq : s.kernel.state q = .zombie) :
    (s.times q).ran ≤ (s.times q).died - (s.times q).born + (if (s.times q).early then 1 else 0) ∧
    ((s.times q).early = false → (s.times q).died - (s.times q).born < 2 ^ 32 →
      (s.times q).rtime.toNat = (s.times q).ran ∧
      (s.times q).rtime.toNat ≤ ((s.times q).etime - (s.times q).ctime).toNat ∧
      (s.times q).rtime.toNat + (wtime (s.times q)).toNat = (s.times q).died - (s.times q).born) := by
  have hfit := h.inv.slot q
  rw [hq] at hfit
  obtain ⟨hctime, hrtime, hetime, hborn, hran⟩ := hfit
  refine ⟨hran, fun hearly hlt => ?_⟩
  generalize s.times q = t at *
  simp only [Times.extra, hearly, Bool.false_eq_true, if_false, Nat.add_zero] at hran
  have hlife : t.etime - t.ctime = BitVec.ofNat 32 (t.died - t.born) := by
    have hsum : t.died = t.died - t.born + t.born := by omega
    rw [hetime, hctime, hsum, BitVec.ofNat_add, BitVec.add_sub_cancel, Nat.add_sub_cancel]
  have hwtime : wtime t = BitVec.ofNat 32 (t.died - t.born - t.ran) := by
    have hsum : t.died - t.born = t.died - t.born - t.ran + t.ran := by omega
    rw [wtime, hlife, hrtime, hsum, BitVec.ofNat_add, BitVec.add_sub_cancel, Nat.add_sub_cancel]
  have htoNat : ∀ {n : Nat}, n < 2 ^ 32 → (BitVec.ofNat 32 n).toNat = n := fun hn => by
    rw [BitVec.toNat_ofNat, Nat.mod_eq_of_lt hn]
  rw [hwtime, hlife, hrtime, htoNat (by omega), htoNat (by omega), htoNat (by omega)]
  omega

/-- CPU 1 dispatches the first process, which returns from `forkret` and calls `fork`. -/
def startFork : List Event :=
  [Event.kernel (.sched 1 0), Event.kernel (.sched 1 0), Event.kernel (.thread 1 (.next true)),
    Event.kernel (.thread 1 .fork)]

/-- `fork` goes on until the child is RUNNABLE, and CPU 2 dispatches it. -/
def makeChild : List Event :=
  List.replicate 6 (Event.kernel (.thread 1 (.next true))) ++
    [Event.kernel (.sched 2 1), Event.kernel (.sched 2 1), Event.kernel (.thread 2 (.next true))]

/-- The child calls `exit` and comes to `p->state = ZOMBIE`. -/
def exitChild : List Event :=
  [Event.kernel (.thread 2 (.exit 0))] ++ List.replicate 132 (Event.kernel (.thread 2 (.next true)))

/-- A child that is RUNNING through the first tick and exits. -/
def oneTick : List Event :=
  startFork ++ makeChild ++ [Event.tick] ++ List.replicate 65 Event.visit ++ exitChild

theorem times_add_up_child :
    ((after (fun s e => step s .other e) boot oneTick).times 1).rtime.toNat +
      (wtime ((after (fun s e => step s .other e) boot oneTick).times 1)).toNat = 1 := by
  have hr : Reached .other (after (fun s e => step s .other e) boot oneTick) :=
    Reach.of_checked _ (.init rfl) (by decide +kernel)
  exact ((times_add_up hr (by decide +kernel)).2 (by decide +kernel) (by decide +kernel)).2.2.trans (by decide +kernel)

/-- The first tick begins, the child is created, dispatched, counted and exits, all in this tick. -/
def sameTick : List Event :=
  startFork ++ [Event.tick] ++ makeChild ++ [Event.visit, Event.visit] ++ exitChild

/-- It has run for one tick and has lived for none; `wtime` is `2 ^ 32 - 1`. -/
theorem times_wrap : ∃ s, run (fun s e => step s .other e) boot sameTick = .ok s ∧ s.kernel.state 1 = .zombie ∧
    (s.times 1).rtime = 1 ∧ (s.times 1).etime - (s.times 1).ctime = 0 ∧ (wtime (s.times 1)).toNat = 2 ^ 32 - 1 := by
  refine ⟨after (fun s e => step s .other e) boot sameTick, run_eq_after _ (by decide +kernel), ?_⟩
  decide +kernel

end Xv6Riscv.Proc.Clock
