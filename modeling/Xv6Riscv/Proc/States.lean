import Xv6Riscv.Proc.Cpus

/-!
# Which states follow each other

The accounts that other parts of the kernel keep of a process (its times, its priorities) are updated where its state
changes. `Table.change` lists these changes; `step_tickets` lists the writes to `tickets`.
-/
namespace Xv6Riscv.Proc
open Machine
open Function (update update_of_ne update_self)

variable {s s' : Sys} {pol : Policy} {c p q : Nat}

/-- What one step can do to the state of slot `q`. -/
inductive Change (s s' : Sys) (q : Nat) : Prop
  | same : s'.state q = s.state q → Change s s' q
  | alloc : s.state q = .unused → s'.state q = .used → s'.tickets q = 1 → Change s s' q
  | publish : s.state q = .used → s'.state q = .runnable → Change s s' q
  | dispatch : s.state q = .runnable → s'.state q = .running → Change s s' q
  | yield : s.state q = .running → s'.state q = .runnable → Change s s' q
  | sleep : s.state q = .running → s'.state q = .sleeping → Change s s' q
  | wake : s.state q = .sleeping → s'.state q = .runnable → Change s s' q
  | exit : s.state q = .running → s'.state q = .zombie → Change s s' q
  | free : s.state q = .zombie → s'.state q = .unused → Change s s' q

theorem Change.of_update {i : Nat} {a : ProcState} (hs : s'.state = update s.state i a)
    (h : s'.state i = a → Change s s' i) : Change s s' q := by
  by_cases he : q = i
  · exact he ▸ h (by rw [hs, update_self])
  · exact .same (by rw [hs, update_of_ne he])

theorem Change.of_wakeSlot {chan : Chan} {i : Nat} (hs : s'.state = (wakeSlot s chan i).state) : Change s s' q := by
  unfold wakeSlot at hs
  split at hs
  next h => exact .of_update hs (.wake h.1)
  next => exact .same (by rw [hs])

theorem Table.change (h : Table s) (hm : Move s s') (q : Nat) : Change s s' q := by
  cases hm with
  | dispatch c p hc hl hst => exact .of_update rfl (.dispatch hst)
  | yield c p hr hno hl => exact .of_update rfl (.yield (h.runs_unlocked hr (h.window_of_free hr hl)).2)
  | wakeSlot c p chan i hr hw hi hl => exact .of_wakeSlot rfl
  | devSlot d chan i hw hl => exact .of_wakeSlot rfl
  | killAsleep c p pid i hat hl hst => exact .of_update rfl (.wake hst)
  | alloc c p i hat hi hl hst => exact .of_update rfl fun hu => .alloc hst hu (update_self ..)
  | allocFail c p i hat hl hst => exact .of_update rfl fun hu => .same (hu.trans hst.symm)
  | publish c p np hat hl => exact .of_update rfl (.publish (h.made p np (by rw [hat.pc]; rfl)))
  | die c p status hat hl => exact .of_update rfl (.exit (h.runs_unlocked hat.toRuns (by rw [hat.pc]; rfl)).2)
  | reap c p w i havekids hat hpar hl hst => exact .of_update rfl (.free hst)
  | sleepState c p chan k hat => exact .of_update rfl (.sleep (h.runs_locked hat.toRuns (by rw [hat.pc]; rfl)).2)
  | _ => exact .same rfl

/-! ## Tickets -/

/-- What a step writes to `tickets`. -/
inductive Ticketing (s s' : Sys) : Event → Prop
  | none (e : Event) : s'.tickets = s.tickets → Ticketing s s' e
  | alloc (c i : Nat) (a : Act) : s'.tickets = update s.tickets i 1 → Ticketing s s' (.thread c a)
  | copy (c p np : Nat) (a : Act) : s.cpc c = .run p → s'.tickets = update s.tickets np (s.tickets p) →
      Ticketing s s' (.thread c a)
  | set (c p : Nat) (tk : BitVec 32) : s.cpc c = .run p →
      s'.tickets = update s.tickets p (s.tickets p + tk) → Ticketing s s' (.thread c (.settickets tk))

@[simp] theorem wakeSlot_tickets (chan : Chan) (i : Nat) : (wakeSlot s chan i).tickets = s.tickets := by
  unfold wakeSlot
  split <;> rfl

theorem schedStep_tickets {cand : Nat} (hs : schedStep s pol c cand = .ok s') : s'.tickets = s.tickets := by
  unfold schedStep at hs
  cases hc : s.cpc c <;> rw [hc] at hs <;> simp only at hs <;> (repeat' split at hs) <;> cases hs <;> rfl

theorem devStep_tickets {d : Nat} {a : DevAct} (hs : devStep s d a = .ok s') : s'.tickets = s.tickets := by
  cases a <;> simp only [devStep] at hs <;> (repeat' split at hs) <;> cases hs <;>
    first | rfl | exact wakeSlot_tickets _ _

theorem pcStep_tickets {ok : Bool} (hc : s.cpc c = .run p) (a : Act) (hs : pcStep s c p ok = .ok s') :
    Ticketing s s' (.thread c a) := by
  unfold pcStep at hs
  cases hpc : s.pc p <;> rw [hpc] at hs <;>
    simp only [killScan, allocproc, forkParent, forkRunnable, lockThen, exitReparent, exitZombie, waitScan, waitKids,
      reduceCtorEq] at hs <;> (repeat' split at hs) <;> cases hs <;>
    first
      | exact .none _ rfl
      | exact .alloc c _ a rfl
      | exact .copy c p _ a hc rfl

theorem codeStep_tickets {a : Act} (hc : s.cpc c = .run p) (hs : codeStep s c p a = .ok s') :
    Ticketing s s' (.thread c a) := by
  cases a <;> simp only [codeStep, lockThen, reduceCtorEq] at hs <;> (repeat' split at hs) <;> cases hs <;>
    first
      | exact .none _ rfl
      | exact .set c p _ hc rfl

theorem threadStep_tickets {a : Act} (hc : s.cpc c = .run p) (hs : threadStep s c p a = .ok s') :
    Ticketing s s' (.thread c a) := by
  unfold threadStep at hs
  split at hs
  · cases hs
  · cases hs
    exact .none _ rfl
  · refine .none _ ?_
    unfold resume at hs
    split at hs <;> cases hs <;> rfl
  split at hs
  · unfold yield at hs
    split at hs <;> cases hs
    exact .none _ rfl
  · split at hs
    · refine .none _ ?_
      unfold wakeup at hs
      repeat' split at hs
      all_goals cases hs
      · rfl
      · exact wakeSlot_tickets _ _
      · rfl
    · exact pcStep_tickets hc _ hs
  · split at hs
    · exact codeStep_tickets hc hs
    · cases hs

theorem step_tickets {e : Event} (hs : step s pol e = .ok s') : Ticketing s s' e := by
  cases e with
  | sched c cand =>
    simp only [step] at hs
    split at hs
    · exact .none _ (schedStep_tickets hs)
    · cases hs
  | thread c a =>
    simp only [step] at hs
    split at hs
    next hc => exact threadStep_tickets hc hs
    next => cases hs
  | dev d a => exact .none _ (devStep_tickets hs)

end Xv6Riscv.Proc
