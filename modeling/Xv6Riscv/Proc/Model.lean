import Xv6Riscv.Basic
import Xv6Riscv.Lib.Machine
import Mathlib.Logic.Function.Basic

/-!
# Processes and CPUs (`proc.c`)

| here | there |
| --- | --- |
| `Sys.state` … `Sys.tickets` | the fields of `proc[i]` that these functions read and write, by slot |
| `Sys.plock`, `Sys.locks` | who holds `p->lock`; the other spin locks that are held, `wait_lock` among them |
| `Sys.cproc`, `Sys.cpc` | `c->proc`, and where the CPU is: in `scheduler()` or running a process |
| `Sys.pc`, `Sys.wake`, `Sys.sw` | where the kernel thread of a process is; its call of `wakeup`; its switch to or from the CPU |
| `schedStep` | `scheduler` (`:606`): the choice of a candidate, and the dispatch (`:767`) |
| `threadStep` | `fork` (`:341`), `exit` (`:417`), `wait` (`:463`), `waitx` (`:511`), `yield` (`:820`), `sleep` (`:852`), `wakeup` (`:885`), `kill` (`:905`), one critical section at a time |
| `devStep` | interrupt handlers: they take locks and call `wakeup` |

A critical section of a lock that neither switches nor takes a second lock is one step, which can happen when the
lock is free. `p->lock` is a part of the state where it is held across `swtch`: one thread takes it and another
one releases it. A thread can be preempted (`yield`) wherever it holds no lock.

Interrupt handlers run beside the CPUs and not on top of what they interrupt, which only adds interleavings. The
candidate of the policies other than RR is arbitrary. RR leaves its loop with `p = &proc[NPROC]` when nothing is
RUNNABLE; the words behind the table are taken not to be a RUNNABLE process. Memory, files, and the fields of the
scheduling policies are left out: no function here branches on them, but for the allocations, which may fail.
The fields after `nextpid` are history variables.
-/
namespace Xv6Riscv.Proc
open Machine
open Function (update)

/-- What `p->chan` points to; `null` is 0. -/
inductive Chan where
  | null
  | proc (i : Nat)
  | obj (n : Nat)
deriving DecidableEq, Repr

/-- The spin locks other than `p->lock`. -/
inductive Lk where
  | wait
  | obj (n : Nat)
deriving DecidableEq, Repr

inductive Owner where
  | cpu (c : Nat)
  | dev (d : Nat)
deriving DecidableEq, Repr

/-- A lock that is held; `woke` are the channels of the calls of `wakeup` that its holder made since it has the lock. -/
structure Hold where
  lk : Lk
  owner : Owner
  woke : List Chan
deriving DecidableEq, Repr

inductive Wait where
  | wait | waitx
deriving DecidableEq, Repr

/-- The caller of `sleep`: kernel code with a lock of its own, or `wait` and `waitx` with `wait_lock`. -/
inductive Kont where
  | code (n : Nat)
  | wait (w : Wait)
deriving DecidableEq, Repr

/-- The lock that is passed to `sleep`. -/
def Kont.lk : Kont → Lk
  | .code n => .obj n
  | .wait _ => .wait

/-- Where a kernel thread is. The name is what comes next. -/
inductive Pc where
  | forkret
  /-- User code, and kernel code that is not below. -/
  | code
  | kill (pid : BitVec 32) (i : Nat)
  /-- `fork`: the scan of `allocproc`, `np->parent = p`, `np->state = RUNNABLE`, `np->smask = p->smask`, and
  `np->tickets = p->tickets`. -/
  | allocproc (i : Nat)
  | forkParent (np : Nat)
  | forkRunnable (np : Nat)
  | forkSmask (np : Nat)
  | forkTickets (np : Nat)
  /-- `exit`: `acquire(&wait_lock)`, `reparent`, `acquire(&p->lock)`, `release(&wait_lock)`; `zombie` never returns. -/
  | exitLock (status : BitVec 32)
  | exitReparent (status : BitVec 32) (i : Nat)
  | exitZombie (status : BitVec 32)
  | exitUnlock
  | zombie
  /-- `wait` and `waitx`: `acquire(&wait_lock)`, the scan, and the test after it. -/
  | waitLock (w : Wait)
  | waitScan (w : Wait) (i : Nat) (havekids : Bool)
  | waitKids (w : Wait) (havekids : Bool)
  /-- `sleep(chan, lk)`: `acquire(&p->lock)`, `release(lk)`, `p->state = SLEEPING`, `sched()`, `acquire(lk)`. -/
  | sleepLock (chan : Chan) (k : Kont)
  | sleepUnlock (chan : Chan) (k : Kont)
  | sleepState (chan : Chan) (k : Kont)
  | sleepSched (chan : Chan) (k : Kont)
  | sleepRelock (k : Kont)
deriving DecidableEq, Repr

/-- A thread runs (`on`), is in `sched` in front of `swtch` (`out`), is switched away (`off`), or has been switched
to and still holds `p->lock` (`back`). -/
inductive Switch where
  | on | out | off | back
deriving DecidableEq, Repr

/-- Where a CPU is: the head of the loop, the scan of RR, in front of `acquire(&p->lock)`, in the process, in front of
`c->proc = 0`, in front of `release(&p->lock)`. -/
inductive CpuPc where
  | loop
  | scan (i : Nat)
  | pick (p : Nat)
  | run (p : Nat)
  | ret (p : Nat)
  | rel (p : Nat)
deriving DecidableEq, Repr

/-- An exit, and what a `wait` returned: the process (by its number), its pid and status, its parent, and the caller. -/
structure Exit where
  birth : Nat
  pid : BitVec 32
  status : BitVec 32
deriving DecidableEq, Repr

structure Reap where
  exit : Exit
  parent : Option Nat
  caller : Nat
deriving DecidableEq, Repr

structure Sys where
  state : Nat → ProcState
  chan : Nat → Chan
  killed : Nat → Bool
  xstate : Nat → BitVec 32
  pid : Nat → BitVec 32
  parent : Nat → Option Nat
  smask : Nat → BitVec 32
  tickets : Nat → BitVec 32
  plock : Nat → Option Nat
  locks : List Hold
  cproc : Nat → Option Nat
  cpc : Nat → CpuPc
  pc : Nat → Pc
  /-- `wakeup(chan)`, in front of slot `i`. -/
  wake : Nat → Option (Chan × Nat)
  sw : Nat → Switch
  dwake : Nat → Option (Chan × Nat)
  nextpid : BitVec 32
  /-- Processes are numbered as they are allocated. -/
  births : Nat
  birth : Nat → Nat
  exited : List Exit
  reaped : List Reap
  /-- The parent's `smask` and `tickets` at the fork; whether the process has changed its own. -/
  smask0 : Nat → BitVec 32
  tickets0 : Nat → BitVec 32
  traced : Nat → Bool
  ticketed : Nat → Bool
  /-- The processes dispatched since the process in this slot is RUNNABLE. -/
  passed : Nat → List Nat

inductive Panic where
  | initExiting | schedLocks | zombieExit
deriving DecidableEq, Repr

/-- `initproc`: `userinit` allocates the first slot. -/
def initproc : Nat := 0

/-! ## Updates -/

variable (s : Sys)

def goto (p : Nat) (pc : Pc) : Sys := { s with pc := update s.pc p pc }

/-- `p->state = RUNNABLE`. -/
def ready (q : Nat) : Sys :=
  { s with state := update s.state q .runnable, passed := update s.passed q [] }

def Free (lk : Lk) : Prop := ∀ h ∈ s.locks, h.lk ≠ lk

/-- `mycpu()->noff == 0`. -/
def NoLocks (o : Owner) : Prop := ∀ h ∈ s.locks, h.owner ≠ o

def Holds (o : Owner) (lk : Lk) : Prop := ∃ h ∈ s.locks, h.lk = lk ∧ h.owner = o

instance (lk : Lk) : Decidable (Free s lk) := inferInstanceAs (Decidable (∀ _ ∈ _, _))
instance (o : Owner) : Decidable (NoLocks s o) := inferInstanceAs (Decidable (∀ _ ∈ _, _))
instance (o : Owner) (lk : Lk) : Decidable (Holds s o lk) := inferInstanceAs (Decidable (∃ _ ∈ _, _))

def acquire (o : Owner) (lk : Lk) : Sys := { s with locks := ⟨lk, o, []⟩ :: s.locks }

def release (lk : Lk) : Sys := { s with locks := s.locks.filter (·.lk ≠ lk) }

/-- `wakeup(chan)` returned to the owner `o` of some locks. -/
def Hold.wakes (h : Hold) (o : Owner) (chan : Chan) : Hold :=
  if h.owner = o then { h with woke := chan :: h.woke } else h

/-- `freeproc` (`:205`). -/
def freeproc (q : Nat) : Sys :=
  { s with
    pid := update s.pid q 0
    parent := update s.parent q none
    chan := update s.chan q .null
    killed := update s.killed q false
    xstate := update s.xstate q 0
    state := update s.state q .unused
    smask := update s.smask q 0 }

/-- `allocproc` (`:126`) has found slot `q`. -/
def allocate (p q : Nat) : Sys :=
  { s with
    pid := update s.pid q s.nextpid
    nextpid := s.nextpid + 1
    state := update s.state q .used
    smask := update s.smask q 0
    tickets := update s.tickets q 1
    pc := update s.pc q .forkret
    births := s.births + 1
    birth := update s.birth q s.births
    smask0 := update s.smask0 q (s.smask p)
    tickets0 := update s.tickets0 q (s.tickets p)
    traced := update s.traced q false
    ticketed := update s.ticketed q false }

/-! ## `scheduler` -/

inductive Policy where
  | rr | other
deriving DecidableEq, Repr

/-- `p->state = RUNNING; c->proc = p; swtch(…)`, with `p->lock` held. -/
def dispatch (c p : Nat) : Sys :=
  { s with
    state := update s.state p .running
    cproc := update s.cproc c (some p)
    plock := update s.plock p (some c)
    sw := update s.sw p .back
    cpc := update s.cpc c (.run p)
    passed := fun q =>
      if q = p then [] else if s.state q = .runnable then s.birth p :: s.passed q else s.passed q }

def setCpc (c : Nat) (pc : CpuPc) : Sys := { s with cpc := update s.cpc c pc }

def schedStep (pol : Policy) (c cand : Nat) : Outcome Panic Sys :=
  match s.cpc c with
  | .loop =>
    match pol with
    | .rr => .ok (setCpc s c (.scan 0))
    | .other => if cand < NPROC then .ok (setCpc s c (.pick cand)) else .ok s
  | .scan i =>
    if i < NPROC then
      if s.plock i = none then
        if s.state i = .runnable then .ok (setCpc s c (.pick i)) else .ok (setCpc s c (.scan (i + 1)))
      else .stuck
    else .ok (setCpc s c .loop)
  | .pick p =>
    if s.plock p = none then
      if s.state p = .runnable then .ok (dispatch s c p) else .ok (setCpc s c .loop)
    else .stuck
  | .run _ => .stuck
  | .ret p => .ok { setCpc s c (.rel p) with cproc := update s.cproc c none }
  | .rel p => .ok { setCpc s c .loop with plock := update s.plock p none }

/-! ## Kernel threads -/

/-- What a thread does next, where it has a choice; `ok` is whether its allocations or its `copyout` succeed. -/
inductive Act where
  | next (ok : Bool)
  | yield
  | acquire (n : Nat)
  | release (n : Nat)
  | wakeup (chan : Chan)
  | sleep (chan : Chan) (n : Nat)
  | fork
  | exit (status : BitVec 32)
  | wait (w : Wait)
  | kill (pid : BitVec 32)
  | setkilled
  | trace (mask : BitVec 32)
  | settickets (tk : BitVec 32)
deriving DecidableEq, Repr

/-- `swtch(&p->context, &mycpu()->context)`. -/
def swtch (c p : Nat) : Sys :=
  { setCpc s c (.ret p) with sw := update s.sw p .off }

/-- The thread is on the CPU again: the end of `yield`, of `sleep`, or `forkret`. -/
def resume (p : Nat) : Outcome Panic Sys :=
  let s' := { s with sw := update s.sw p .on, plock := update s.plock p none }
  match s.pc p with
  | .forkret => .ok (goto s' p .code)
  | .sleepSched _ k => .ok { goto s' p (.sleepRelock k) with chan := update s.chan p .null }
  | .zombie => .halt .zombieExit
  | _ => .ok s'

def yield (c p : Nat) : Outcome Panic Sys :=
  if NoLocks s (.cpu c) ∧ s.plock p = none then
    .ok { ready s p with plock := update s.plock p (some c), sw := update s.sw p .out }
  else .stuck

/-- One slot of `wakeup`. -/
def wakeSlot (chan : Chan) (i : Nat) : Sys :=
  if s.state i = .sleeping ∧ s.chan i = chan then ready s i else s

def wakeup (c p : Nat) (chan : Chan) (i : Nat) : Outcome Panic Sys :=
  if i < NPROC then
    if i = p then .ok { s with wake := update s.wake p (some (chan, i + 1)) }
    else if s.plock i = none then
      .ok { wakeSlot s chan i with wake := update s.wake p (some (chan, i + 1)) }
    else .stuck
  else .ok { s with wake := update s.wake p none, locks := s.locks.map (·.wakes (.cpu c) chan) }

def killScan (p : Nat) (pid : BitVec 32) (i : Nat) : Outcome Panic Sys :=
  if i < NPROC then
    if s.plock i = none then
      if s.pid i = pid then
        let s' := { s with killed := update s.killed i true }
        .ok (goto (if s.state i = .sleeping then ready s' i else s') p .code)
      else .ok (goto s p (.kill pid (i + 1)))
    else .stuck
  else .ok (goto s p .code)

/-- One slot of `allocproc`, and the rest of the critical section of `np->lock` in `fork`. -/
def allocproc (p i : Nat) (ok : Bool) : Outcome Panic Sys :=
  if i < NPROC then
    if s.plock i = none then
      if s.state i = .unused then
        if ok then .ok (goto (allocate s p i) p (.forkParent i))
        else .ok (goto (freeproc { s with nextpid := s.nextpid + 1 } i) p .code)
      else .ok (goto s p (.allocproc (i + 1)))
    else .stuck
  else .ok (goto s p .code)

def forkParent (p np : Nat) : Outcome Panic Sys :=
  if Free s .wait then
    .ok { goto s p (.forkRunnable np) with parent := update s.parent np (some p) }
  else .stuck

def forkRunnable (p np : Nat) : Outcome Panic Sys :=
  if s.plock np = none then .ok (goto (ready s np) p (.forkSmask np)) else .stuck

/-- `&proc[i]` as a channel. -/
def parentChan : Option Nat → Chan
  | some i => .proc i
  | none => .null

/-- One slot of `reparent`, or `wakeup(p->parent)` after it. -/
def exitReparent (p : Nat) (status : BitVec 32) (i : Nat) : Outcome Panic Sys :=
  if i < NPROC then
    if s.parent i = some p then
      .ok { goto s p (.exitReparent status (i + 1)) with
        parent := update s.parent i (some initproc)
        wake := update s.wake p (some (.proc initproc, 0)) }
    else .ok (goto s p (.exitReparent status (i + 1)))
  else .ok { goto s p (.exitZombie status) with
    wake := update s.wake p (some (parentChan (s.parent p), 0)) }

def exitZombie (c p : Nat) (status : BitVec 32) : Outcome Panic Sys :=
  if s.plock p = none then
    .ok { goto s p .exitUnlock with
      plock := update s.plock p (some c)
      xstate := update s.xstate p status
      state := update s.state p .zombie
      exited := s.exited ++ [⟨s.birth p, s.pid p, status⟩] }
  else .stuck

/-- One slot of the scan of `wait` or `waitx`. -/
def waitScan (p : Nat) (w : Wait) (i : Nat) (havekids ok : Bool) : Outcome Panic Sys :=
  if i < NPROC then
    if s.parent i = some p then
      if s.plock i = none then
        if s.state i = .zombie then
          if ok then
            .ok { goto (release (freeproc s i) .wait) p .code with
              reaped := s.reaped ++ [⟨⟨s.birth i, s.pid i, s.xstate i⟩, s.parent i, p⟩] }
          else .ok (goto (release s .wait) p .code)
        else .ok (goto s p (.waitScan w (i + 1) true))
      else .stuck
    else .ok (goto s p (.waitScan w (i + 1) havekids))
  else .ok (goto s p (.waitKids w havekids))

/-- `killed(p)` in `wait`, `p->killed` in `waitx`. -/
def waitKids (p : Nat) (w : Wait) (havekids : Bool) : Outcome Panic Sys :=
  if havekids = true ∧ w = .wait ∧ s.plock p ≠ none then .stuck
  else if havekids = false ∨ s.killed p = true then .ok (goto (release s .wait) p .code)
  else .ok (goto s p (.sleepLock (.proc p) (.wait w)))

/-- `acquire(lk)`, then on to `pc`. -/
def lockThen (c p : Nat) (lk : Lk) (pc : Pc) : Outcome Panic Sys :=
  if Free s lk then .ok (goto (acquire s (.cpu c) lk) p pc) else .stuck

def Kont.pc : Kont → Pc
  | .code _ => .code
  | .wait w => .waitScan w 0 false

/-- The kernel code that is not modelled: it takes and releases locks, and calls the functions above. -/
def codeStep (c p : Nat) : Act → Outcome Panic Sys
  | .acquire n => lockThen s c p (.obj n) .code
  | .release n => if Holds s (.cpu c) (.obj n) then .ok (release s (.obj n)) else .stuck
  | .wakeup chan => .ok { s with wake := update s.wake p (some (chan, 0)) }
  | .sleep chan n =>
    if Holds s (.cpu c) (.obj n) then
      -- `sched` panics when another lock is held
      if ∀ h ∈ s.locks, h.owner = .cpu c → h.lk = .obj n then .ok (goto s p (.sleepLock chan (.code n)))
      else .halt .schedLocks
    else .stuck
  | .fork => if NoLocks s (.cpu c) then .ok (goto s p (.allocproc 0)) else .stuck
  | .exit status =>
    if NoLocks s (.cpu c) then
      if p = initproc then .halt .initExiting else .ok (goto s p (.exitLock status))
    else .stuck
  | .wait w => if NoLocks s (.cpu c) then .ok (goto s p (.waitLock w)) else .stuck
  | .kill pid => if NoLocks s (.cpu c) then .ok (goto s p (.kill pid 0)) else .stuck
  | .setkilled => if s.plock p = none then .ok { s with killed := update s.killed p true } else .stuck
  | .trace mask =>
    .ok { s with smask := update s.smask p mask, traced := update s.traced p true }
  | .settickets tk =>
    .ok { s with
      tickets := update s.tickets p (s.tickets p + tk), ticketed := update s.ticketed p true }
  | .next _ | .yield => .stuck

/-- The next step of a thread in one of the functions above. -/
def pcStep (c p : Nat) (ok : Bool) : Outcome Panic Sys :=
  match s.pc p with
  | .forkret | .code | .zombie | .sleepSched _ _ => .stuck
  | .kill pid i => killScan s p pid i
  | .allocproc i => allocproc s p i ok
  | .forkParent np => forkParent s p np
  | .forkRunnable np => forkRunnable s p np
  | .forkSmask np => .ok { goto s p (.forkTickets np) with smask := update s.smask np (s.smask p) }
  | .forkTickets np => .ok { goto s p .code with tickets := update s.tickets np (s.tickets p) }
  | .exitLock status => lockThen s c p .wait (.exitReparent status 0)
  | .exitReparent status i => exitReparent s p status i
  | .exitZombie status => exitZombie s c p status
  | .exitUnlock => .ok { goto (release s .wait) p .zombie with sw := update s.sw p .out }
  | .waitLock w => lockThen s c p .wait (.waitScan w 0 false)
  | .waitScan w i havekids => waitScan s p w i havekids ok
  | .waitKids w havekids => waitKids s p w havekids
  | .sleepLock chan k =>
    if s.plock p = none then
      .ok { goto s p (.sleepUnlock chan k) with plock := update s.plock p (some c) }
    else .stuck
  | .sleepUnlock chan k => .ok (goto (release s k.lk) p (.sleepState chan k))
  | .sleepState chan k =>
    .ok { goto s p (.sleepSched chan k) with
      chan := update s.chan p chan
      state := update s.state p .sleeping
      sw := update s.sw p .out }
  | .sleepRelock k => lockThen s c p k.lk k.pc

def threadStep (c p : Nat) (a : Act) : Outcome Panic Sys :=
  match s.sw p with
  | .off => .stuck
  | .out => .ok (swtch s c p)
  | .back => resume s p
  | .on =>
    match a with
    | .yield => yield s c p
    | .next ok =>
      match s.wake p with
      | some (chan, i) => wakeup s c p chan i
      | none => pcStep s c p ok
    | a => if s.wake p = none ∧ s.pc p = .code then codeStep s c p a else .stuck

/-! ## Interrupt handlers -/

inductive DevAct where
  | next
  | acquire (n : Nat)
  | release (n : Nat)
  | wakeup (chan : Chan)
deriving DecidableEq, Repr

def devStep (d : Nat) : DevAct → Outcome Panic Sys
  | .next =>
    match s.dwake d with
    | none => .stuck
    | some (chan, i) =>
      if i < NPROC then
        if s.plock i = none then
          .ok { wakeSlot s chan i with dwake := update s.dwake d (some (chan, i + 1)) }
        else .stuck
      else .ok { s with dwake := update s.dwake d none, locks := s.locks.map (·.wakes (.dev d) chan) }
  | .acquire n => if Free s (.obj n) ∧ s.dwake d = none then .ok (acquire s (.dev d) (.obj n)) else .stuck
  | .release n => if Holds s (.dev d) (.obj n) ∧ s.dwake d = none then .ok (release s (.obj n)) else .stuck
  | .wakeup chan =>
    if s.dwake d = none then .ok { s with dwake := update s.dwake d (some (chan, 0)) } else .stuck

/-! ## The machine -/

inductive Event where
  /-- `scheduler` on CPU `c`; the policies other than RR choose `cand`. -/
  | sched (c cand : Nat)
  /-- The process that runs on CPU `c`. -/
  | thread (c : Nat) (a : Act)
  | dev (d : Nat) (a : DevAct)
deriving DecidableEq, Repr

def step (pol : Policy) : Event → Outcome Panic Sys
  | .sched c cand => if c < NCPU then schedStep s pol c cand else .stuck
  | .thread c a =>
    match s.cpc c with
    | .run p => threadStep s c p a
    | _ => .stuck
  | .dev d a => devStep s d a

/-- After `userinit`: the first slot is `initproc`, and the CPUs enter `scheduler`. -/
def boot : Sys where
  state i := if i = initproc then .runnable else .unused
  chan _ := .null
  killed _ := false
  xstate _ := 0
  pid i := if i = initproc then 1 else 0
  parent _ := none
  smask _ := 0
  tickets i := if i = initproc then 1 else 0
  plock _ := none
  locks := []
  cproc _ := none
  cpc _ := .loop
  pc _ := .forkret
  wake _ := none
  sw _ := .off
  dwake _ := none
  nextpid := 2
  births := 1
  birth _ := 0
  exited := []
  reaped := []
  smask0 _ := 0
  tickets0 i := if i = initproc then 1 else 0
  traced _ := false
  ticketed _ := false
  passed _ := []

end Xv6Riscv.Proc
