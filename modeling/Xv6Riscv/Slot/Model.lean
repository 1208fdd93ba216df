import Xv6Riscv.Basic
import Xv6Riscv.Lib.Machine
import Mathlib.Data.Fintype.Basic
import Mathlib.Logic.Function.Basic

/-!
# The slots of the process table: who writes which field

| here | there |
| --- | --- |
| `Proc`, `Sched` | `struct proc` (proc.h:86), without its memory (`kstack`, `sz`, `pagetable`, `trapframe`, `context`), `name`, and `graph`, which nothing writes |
| `allocproc`, `freeproc` | proc.c:126, proc.c:205 |
| `fork`, `exit`, `wait`, `kill` | proc.c:341, proc.c:417, proc.c:463, proc.c:905 |
| `sleep`, `wakeup` | proc.c:852, proc.c:885 |
| `sysSetPriority`, `sysSigreturn`, `Call.trace`, `Call.settickets`, `Call.sigalarm` | sysproc.c:97-180 |
| `usertrapAlarm` | the alarm branch of `usertrap` (trap.c:148-162) |
| `Event.account` | the clock and the scheduler of the build: `update_time` (proc.c:559), `usertrap` and `kerneltrap`, `scheduler` (proc.c:610) |

A function is one step. The scheduling fields are read by the policies only, so the bookkeeping of the five builds is
one event that writes any values into any slot. Files, inodes and pages are named by their address, 0 is the null
pointer. -/
namespace Xv6Riscv.Slot
open Machine

/-- The fields of the scheduling policies and of `waitx`. -/
structure Sched where
  ctime : BitVec 32
  etime : BitVec 32
  tickets : BitVec 32
  pbsRtime : BitVec 32
  rtime : BitVec 32
  stime : BitVec 32
  staticP : BitVec 32
  niceness : BitVec 32
  wtime : BitVec 32
  schNo : BitVec 32
  rticks : BitVec 32
  wticks : BitVec 32
  pr : BitVec 32
deriving DecidableEq

structure Proc where
  state : ProcState
  pid : BitVec 32
  parent : Option Nat
  chan : Nat
  killed : Bool
  xstate : BitVec 32
  smask : BitVec 32
  interval : BitVec 32
  handler : BitVec 64
  nticks : BitVec 32
  alarmOn : Bool
  alarmContext : Nat
  sched : Sched
  ofile : Fin NOFILE → Nat
  cwd : Nat
deriving DecidableEq

structure Sys where
  proc : Nat → Proc
  ticks : BitVec 32
  nextpid : BitVec 32

/-- `kerneltrap`: the kernel reads or writes the unmapped page 0. -/
inductive Panic where
  | initExiting | kerneltrap
deriving DecidableEq, Repr

def initproc : Nat := 0

/-- `&proc[i]` as a channel. -/
def slotAddr (i : Nat) : Nat := i + 1

variable (s : Sys)

def setProc (i : Nat) (q : Proc) : Sys := { s with proc := Function.update s.proc i q }

/-! ## A slot is taken and freed -/

/-- The fields `freeproc` resets. -/
def freeproc (q : Proc) : Proc :=
  { q with
    pid := 0, parent := none, chan := 0, killed := false, xstate := 0, state := .unused
    smask := 0, interval := 0, nticks := 0, handler := 0
    sched := { q.sched with ctime := 0, rticks := 0, wticks := 0, pr := 0 } }

/-- The fields `allocproc` sets, `pr = P0` among them. -/
def newSched (ticks : BitVec 32) : Sched where
  ctime := ticks
  etime := 0
  tickets := 1
  pbsRtime := 0
  rtime := 0
  stime := 0
  staticP := 60
  niceness := 5
  wtime := 0
  schNo := 0
  rticks := 0
  wticks := 0
  pr := 0

/-- The slot that `allocproc` takes and the process it returns, when its allocations succeed. -/
def allocproc : Option (Nat × Proc) :=
  ((List.range NPROC).find? fun i => (s.proc i).state = .unused).map fun i =>
    (i, { s.proc i with
      pid := s.nextpid, state := .used, smask := 0, nticks := 0, alarmOn := false, sched := newSched s.ticks })

/-- `mem`: the allocations of `allocproc` and `uvmcopy` succeed; otherwise `freeproc(np)`. -/
def fork (p : Nat) (mem : Bool) : Sys :=
  match allocproc s with
  | none => s
  | some (i, np) =>
    let q := s.proc p
    if mem then
      { setProc s i
          { np with
            state := .runnable
            parent := some p
            smask := q.smask
            sched := { np.sched with staticP := q.sched.staticP, tickets := q.sched.tickets }
            ofile := fun fd => if q.ofile fd ≠ 0 then q.ofile fd else np.ofile fd
            cwd := q.cwd } with
        nextpid := s.nextpid + 1 }
    else { setProc s i (freeproc np) with nextpid := s.nextpid + 1 }

/-- `wakeup`, called by process `p`. -/
def wakeup (p : Option Nat) (chan : Nat) : Sys :=
  { s with
    proc := fun i =>
      let q := s.proc i
      if some i ≠ p ∧ q.state = .sleeping ∧ q.chan = chan then
        { q with state := .runnable, sched := { q.sched with wtime := s.ticks } }
      else q }

/-- `reparent` without its calls of `wakeup(initproc)`. -/
def reparent (p : Nat) : Sys :=
  { s with
    proc := fun i =>
      let q := s.proc i
      if q.parent = some p then { q with parent := some initproc } else q }

def exit (p : Nat) (status : BitVec 32) : Outcome Panic Sys :=
  if p = initproc then .halt .initExiting
  else
    let s1 := setProc s p { s.proc p with ofile := fun _ => 0, cwd := 0 }
    let s2 := if (List.range NPROC).any fun i => (s1.proc i).parent = some p
      then wakeup (reparent s1 p) p (slotAddr initproc) else s1
    let s3 := wakeup s2 p (((s2.proc p).parent.map slotAddr).getD 0)
    let q := s3.proc p
    .ok (setProc s3 p { q with xstate := status, state := .zombie, sched := { q.sched with etime := s.ticks } })

/-- `wait` and `waitx` find the ZOMBIE child `i` and return. -/
def wait (p i : Nat) : Outcome Panic Sys :=
  if i < NPROC ∧ (s.proc i).parent = some p ∧ (s.proc i).state = .zombie then
    .ok (setProc s i (freeproc (s.proc i)))
  else .stuck

/-! ## System calls by pid -/

/-- The first slot with this pid: the scans of `kill` and `sys_set_priority` do not look at the state. -/
def slotOf (pid : BitVec 32) : Option Nat := (List.range NPROC).find? fun i => (s.proc i).pid = pid

def kill (pid : BitVec 32) : Sys :=
  match slotOf s pid with
  | none => s
  | some i =>
    let q := s.proc i
    setProc s i { q with killed := true, state := if q.state = .sleeping then .runnable else q.state }

def sysSetPriority (p : Nat) (sp pid : BitVec 32) : Sys :=
  match slotOf s pid with
  | none => s
  | some i =>
    let q := s.proc i
    let s1 := setProc s i { q with
      sched := { q.sched with staticP := sp, niceness := 5, pbsRtime := 0, stime := 0, wtime := 0 } }
    -- `yield()`
    if sp.slt q.sched.staticP then setProc s1 p { s1.proc p with state := .runnable } else s1

/-! ## What a process does to its own slot -/

inductive Call where
  | yield
  | setkilled
  | trace (mask : BitVec 32)
  | settickets (tk : BitVec 32)
  | sigalarm (interval : BitVec 32) (handler : BitVec 64)
  | sigreturn
  /-- A timer interrupt in user mode; `context` is what `kalloc` returns. -/
  | timer (context : Nat)
  | sleep (chan : Nat)
  /-- `ofile[fd] = f`, with 0 in `close`. -/
  | setFile (fd : Fin NOFILE) (f : Nat)
  | chdir (ip : Nat)
deriving DecidableEq

def sysSigreturn (q : Proc) : Outcome Panic Proc :=
  if q.alarmContext = 0 then .halt .kerneltrap
  else .ok { q with alarmOn := false, nticks := 0, alarmContext := 0 }

def usertrapAlarm (q : Proc) (context : Nat) : Outcome Panic Proc :=
  if q.alarmOn = false then
    let q1 := { q with nticks := q.nticks + 1 }
    if q1.nticks = q1.interval then
      if context = 0 then .halt .kerneltrap else .ok { q1 with alarmContext := context, alarmOn := true }
    else .ok q1
  else .ok q

def call (ticks : BitVec 32) (q : Proc) : Call → Outcome Panic Proc
  | .yield => .ok { q with state := .runnable }
  | .setkilled => .ok { q with killed := true }
  | .trace mask => .ok { q with smask := mask }
  | .settickets tk => .ok { q with sched := { q.sched with tickets := q.sched.tickets + tk } }
  | .sigalarm interval handler => .ok { q with interval := interval, handler := handler }
  | .sigreturn => sysSigreturn q
  | .timer context => usertrapAlarm q context
  | .sleep chan => .ok { q with chan := chan, state := .sleeping, sched := { q.sched with stime := ticks } }
  | .setFile fd f => .ok { q with ofile := Function.update q.ofile fd f }
  | .chdir ip => .ok { q with cwd := ip }

/-! ## The machine -/

inductive Event where
  | tick
  | account (i : Nat) (sched : Sched)
  /-- RUNNABLE to RUNNING; a process that has slept goes on in `sleep`, with `p->chan = 0`. -/
  | dispatch (p : Nat)
  /-- Process `p`, which is RUNNING. -/
  | call (p : Nat) (a : Call)
  | fork (p : Nat) (mem : Bool)
  | exit (p : Nat) (status : BitVec 32)
  | wait (p i : Nat)
  | kill (p : Nat) (pid : BitVec 32)
  | setPriority (p : Nat) (sp pid : BitVec 32)
  /-- By process `p` or by an interrupt handler. -/
  | wakeup (p : Option Nat) (chan : Nat)
deriving DecidableEq

def step : Event → Outcome Panic Sys
  | .tick => .ok { s with ticks := s.ticks + 1 }
  | .account i sched => .ok (setProc s i { s.proc i with sched := sched })
  | .dispatch p =>
    if (s.proc p).state = .runnable then .ok (setProc s p { s.proc p with state := .running, chan := 0 }) else .stuck
  | .call p a =>
    if (s.proc p).state = .running then (call s.ticks (s.proc p) a).bind fun q => .ok (setProc s p q) else .stuck
  | .fork p mem => if (s.proc p).state = .running then .ok (fork s p mem) else .stuck
  | .exit p status => if (s.proc p).state = .running then exit s p status else .stuck
  | .wait p i => if (s.proc p).state = .running then wait s p i else .stuck
  | .kill p pid => if (s.proc p).state = .running then .ok (kill s pid) else .stuck
  | .setPriority p sp pid => if (s.proc p).state = .running then .ok (sysSetPriority s p sp pid) else .stuck
  | .wakeup p chan => .ok (wakeup s p chan)

/-- A slot of the table at boot: all zero. -/
def zero : Proc where
  state := .unused
  pid := 0
  parent := none
  chan := 0
  killed := false
  xstate := 0
  smask := 0
  interval := 0
  handler := 0
  nticks := 0
  alarmOn := false
  alarmContext := 0
  sched := ⟨0, 0, 0, 0, 0, 0, 0, 0, 0, 0, 0, 0, 0⟩
  ofile _ := 0
  cwd := 0

/-- After `userinit`, with the root directory at address `root`. -/
def boot (root : Nat) : Sys where
  proc i := if i = initproc then { zero with state := .runnable, pid := 1, sched := newSched 0, cwd := root } else zero
  ticks := 0
  nextpid := 2

end Xv6Riscv.Slot
