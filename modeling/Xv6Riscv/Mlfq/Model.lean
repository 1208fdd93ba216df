import Mathlib.Logic.Function.Basic
import Xv6Riscv.Basic
import Xv6Riscv.Lib.Machine
import Xv6Riscv.Lib.SlotArray

/-!
# The MLFQ scheduler on one CPU: the model

| here | there |
| --- | --- |
| `queueProc`, `dequeueProc` | `queue_proc`, `dequeue_proc` (proc.c:585, proc.c:571) |
| `enqueueStep`, `ageStep`, `selectStep` | one iteration of the three loops of `scheduler` (proc.c:721, 731, 745) |
| `usertrap`, `preempt` | the MLFQ parts of `usertrap` (trap.c:164-178, 195-217) |
| `kerneltrap` | trap.c:302-316 |
| `allocproc`, `freeproc` | proc.c:126, proc.c:205 |
| `yield`, `sleep`, `exit`, `wakeup`, `kill` | proc.c, their changes of `state` |

`queue[i]` is a list of `NPROC` slots; a pointer to `proc[c]` is `some c`. The scheduler runs with interrupts
on, so an interrupt may come between any two iterations of its loops. It touches `state` and `wticks` only,
which `queue_proc` and `dequeue_proc` do not read, so it need not come inside them.
-/
namespace Xv6Riscv.Mlfq
open Machine SlotArray

structure Proc where
  state : ProcState
  pid : BitVec 32
  killed : Bool
  rticks : BitVec 32
  wticks : BitVec 32
  /-- `enum procpr`: P0 to P4. -/
  pr : Nat
  /-- Where the preemption loop of `usertrap` goes on when the process runs again. -/
  resume : Option Nat

inductive Pc where
  /-- In front of iteration `fp = &proc[k]` of the enqueue loop. -/
  | enqueue (k : Nat)
  | age (i j : Nat)
  | select (i j : Nat)
  | running (p : Nat)
deriving DecidableEq, Repr

structure Sys where
  proc : Nat → Proc
  queue : Nat → List (Option Nat)
  nextpid : BitVec 32
  pc : Pc

/-- `queueIndex`: an access to `queue[i]` with `i` out of bounds. -/
inductive Panic where
  | queueIndex | initExiting
deriving DecidableEq, Repr

namespace Sys

def setProc (s : Sys) (c : Nat) (f : Proc → Proc) : Sys :=
  { s with proc := Function.update s.proc c (f (s.proc c)) }

def setQueue (s : Sys) (i : Nat) (q : List (Option Nat)) : Sys :=
  { s with queue := Function.update s.queue i q }

def goto (s : Sys) (pc : Pc) : Sys := { s with pc := pc }

end Sys

/-! ## Run queues -/

/-- `fp->pid == p->pid`. -/
def samePid (s : Sys) (p : Nat) (fp : Nat) : Bool := (s.proc fp).pid == (s.proc p).pid

def queueProc (s : Sys) (p : Nat) : Outcome Panic Sys :=
  let i := (s.proc p).pr
  if i < NPR then .ok (s.setQueue i (push (samePid s p) p (s.queue i))) else .halt .queueIndex

def dequeueProc (s : Sys) (p : Nat) : Outcome Panic Sys :=
  let i := (s.proc p).pr
  if i < NPR then .ok (s.setQueue i (remove (samePid s p) (s.queue i))) else .halt .queueIndex

/-- `fp->pr--` on an unsigned enumeration. -/
def promote (q : Proc) : Proc := { q with pr := if q.pr = 0 then 2 ^ 32 - 1 else q.pr - 1, wticks := 0 }

/-! ## The loops of `scheduler` -/

def enqueueStep (s : Sys) (k : Nat) : Outcome Panic Sys :=
  if k < NPROC then
    (if (s.proc k).state = .runnable then queueProc s k else .ok s).bind fun s =>
      .ok (s.goto (.enqueue (k + 1)))
  else .ok (s.goto (.age 1 0))

/-- `fp = queue[i][j]`. -/
def Sys.entry (s : Sys) (i j : Nat) : Option Nat := (s.queue i).getD j none

def ageStep (s : Sys) (i j : Nat) : Outcome Panic Sys :=
  if i < NPR then
    if j < NPROC then
      match s.entry i j with
      | some fp =>
        if 30 ≤ (s.proc fp).wticks.toInt then
          (dequeueProc s fp).bind fun s => (queueProc (s.setProc fp promote) fp).bind fun s =>
            .ok (s.goto (.age i (j + 1)))
        else .ok (s.goto (.age i (j + 1)))
      | none => .ok (s.goto (.age i (j + 1)))
    else .ok (s.goto (.age (i + 1) 0))
  else .ok (s.goto (.select 0 0))

/-- `goto schedule` and the switch to the process. -/
def schedule (s : Sys) (p : Nat) : Sys :=
  (s.setProc p fun q => { q with wticks := 0, state := .running }).goto (.running p)

def selectStep (s : Sys) (i j : Nat) : Outcome Panic Sys :=
  if i < NPR then
    if j < NPROC then
      match s.entry i j with
      | some fp =>
        (dequeueProc s fp).bind fun s =>
          if (s.proc fp).state = .runnable then .ok (schedule s fp) else .ok (s.goto (.select i (j + 1)))
      | none => .ok (s.goto (.select (i + 1) 0))
    else .ok (s.goto (.select (i + 1) 0))
  else .ok (s.goto (.enqueue 0))

/-! ## Traps -/

/-- `wticks++` for an entry of the queues that is RUNNABLE. -/
def bump (s : Sys) (e : Option Nat) : Sys :=
  match e with
  | some fp => if (s.proc fp).state = .runnable then s.setProc fp fun q => { q with wticks := q.wticks + 1 } else s
  | none => s

def bumpAll (s : Sys) : Sys := ((List.range NPR).flatMap s.queue).foldl bump s

/-- The switch back to the scheduler, which goes on with its next round. -/
def sched (s : Sys) (p : Nat) (st : ProcState) : Sys :=
  (s.setProc p fun q => { q with state := st }).goto (.enqueue 0)

def yield (s : Sys) (p : Nat) : Sys := sched s p .runnable

/-- `exit`; `initproc` is slot 0. -/
def exit (s : Sys) (p : Nat) : Outcome Panic Sys :=
  if p = 0 then .halt .initExiting else .ok (sched s p .zombie)

/-- The first null slot `j` of `queue[i]`, `NPROC` if there is none: is it past the first? -/
def occupied (s : Sys) (i : Nat) : Bool := (s.queue i).findIdx (· == none) ≠ 0

/-- The loop over higher priorities from `i` on: it yields at the first that has a process. -/
def preempt (s : Sys) (p i : Nat) : Sys :=
  match (List.range (s.proc p).pr).find? fun k => i ≤ k ∧ occupied s k with
  | some k => yield (s.setProc p fun q => { q with resume := some (k + 1) }) p
  | none => s.setProc p fun q => { q with resume := none }

/-- `usertrap` for a timer interrupt. -/
def usertrap (s : Sys) (p : Nat) : Outcome Panic Sys :=
  let s := bumpAll (s.setProc p fun q => { q with rticks := q.rticks + 1 })
  if (s.proc p).killed then exit s p
  else if (s.proc p).rticks = 1 <<< (s.proc p).pr then
    .ok (yield (s.setProc p fun q =>
      { q with rticks := 0, pr := if q.pr = 4 then q.pr else q.pr + 1, resume := some 0 }) p)
  else .ok (preempt s p 0)

/-- `kerneltrap` for a timer interrupt: the running process, if there is one, yields. -/
def kerneltrap (s : Sys) : Sys :=
  match s.pc with
  | .running p => yield (bumpAll s) p
  | _ => bumpAll s

/-! ## Processes -/

/-- `freeproc`, the fields of this model. -/
def freeproc (s : Sys) (c : Nat) : Sys :=
  s.setProc c fun q => { q with pid := 0, killed := false, state := .unused, rticks := 0, wticks := 0, pr := 0 }

/-- `allocproc`; the new process starts in `forkret`. -/
def allocproc (s : Sys) : Sys :=
  match unusedSlot fun c => (s.proc c).state with
  | none => s
  | some c =>
    { s with nextpid := s.nextpid + 1 }.setProc c fun q =>
      { q with pid := s.nextpid, state := .used, rticks := 0, wticks := 0, pr := 0, resume := none }

/-- One process woken by `wakeup` or `kill`. -/
def wake (s : Sys) (c : Nat) : Sys :=
  s.setProc c fun q => { q with state := if q.state = .sleeping then .runnable else q.state }

def kill (s : Sys) (pid : BitVec 32) : Sys :=
  match (List.range NPROC).find? fun c => (s.proc c).pid = pid with
  | some c => wake (s.setProc c fun q => { q with killed := true }) c
  | none => s

/-! ## The machine -/

/-- What the running process does in kernel mode. -/
inductive Call where
  | sleep | exit
  /-- `fork`: the slot is taken, then made RUNNABLE, or given back when `uvmcopy` fails. -/
  | alloc | start (c : Nat)
  /-- `freeproc`, by a failing `fork` or by `wait`. -/
  | free (c : Nat)
  | kill (pid : BitVec 32)
deriving DecidableEq, Repr

inductive Event where
  /-- The next iteration of the scheduler. -/
  | sched
  /-- A timer interrupt in user mode, and in kernel mode. -/
  | utick | ktick
  /-- The preemption loop of `usertrap` goes on after a `yield`. -/
  | resume
  /-- An interrupt or the running process wakes `c`. -/
  | wakeup (c : Nat)
  | call (c : Call)
deriving DecidableEq, Repr

def doCall (s : Sys) (p : Nat) : Call → Outcome Panic Sys
  | .sleep => .ok (sched s p .sleeping)
  | .exit => exit s p
  | .alloc => .ok (allocproc s)
  | .start c =>
    if c < NPROC ∧ (s.proc c).state = .used then .ok (s.setProc c fun q => { q with state := .runnable })
    else .stuck
  | .free c =>
    if c < NPROC ∧ ((s.proc c).state = .used ∨ (s.proc c).state = .zombie) then .ok (freeproc s c) else .stuck
  | .kill pid => .ok (kill s pid)

def step (s : Sys) : Event → Outcome Panic Sys
  | .sched =>
    match s.pc with
    | .enqueue k => enqueueStep s k
    | .age i j => ageStep s i j
    | .select i j => selectStep s i j
    | .running _ => .stuck
  | .utick =>
    match s.pc with
    | .running p => if (s.proc p).resume = none then usertrap s p else .stuck
    | _ => .stuck
  | .ktick => .ok (kerneltrap s)
  | .resume =>
    match s.pc with
    | .running p =>
      match (s.proc p).resume with
      | some i => .ok (preempt s p i)
      | none => .stuck
    | _ => .stuck
  | .wakeup c => if c < NPROC ∧ (s.proc c).state = .sleeping then .ok (wake s c) else .stuck
  | .call c =>
    match s.pc with
    | .running p => if (s.proc p).resume = none then doCall s p c else .stuck
    | _ => .stuck

/-- After `procinit` and `userinit`. -/
structure Boot (s : Sys) : Prop where
  init : (s.proc 0).state = .runnable ∧ (s.proc 0).pid = 1 ∧ (s.proc 0).pr = 0
  others : ∀ c, c ≠ 0 → (s.proc c).state = .unused ∧ (s.proc c).pr = 0
  queue : ∀ i, s.queue i = List.replicate NPROC none
  nextpid : s.nextpid = 2
  pc : s.pc = .enqueue 0

end Xv6Riscv.Mlfq
