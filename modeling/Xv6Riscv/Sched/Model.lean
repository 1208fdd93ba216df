import Xv6Riscv.Mlfq.Model

/-!
# The choice of a process: the five selection loops of `scheduler` (proc.c:606)

| here | there |
| --- | --- |
| `Ptr` | `struct proc *p`: `some k` is `&proc[k]`, `some NPROC` the address behind the table |
| `rr` | `#ifdef RR` (proc.c:629) |
| `fcfs` | `#ifdef FCFS` (proc.c:640) |
| `rand` | random.c:6 |
| `totTk`, `lottery` | `#ifdef LOTTERY` (proc.c:658) |
| `niceness`, `dp`, `pbs` | `#ifdef PBS` (proc.c:686) |
| `mlfq` | `#ifdef MLFQ` (proc.c:720): the iterations of the three loops are those of `Mlfq.step` |
| `select` | the pointer with which `scheduler` comes to `if (p)` (proc.c:767) |

Each function reads one table of processes, the one its scan sees. The arithmetic is the compiled one: `int` is
`BitVec 32`, signed, and wraps; a division by zero gives −1 and does not trap. A read through a null pointer
is a fault.
-/
namespace Xv6Riscv.Sched
open Machine

abbrev Ptr := Option Nat

/-- The fields of `struct proc` that the loops read. -/
structure Proc where
  state : ProcState
  pid : BitVec 32
  ctime : BitVec 32
  tickets : BitVec 32
  pbsRtime : BitVec 32
  stime : BitVec 32
  staticP : BitVec 32
  niceness : BitVec 32
  wtime : BitVec 32
  schNo : BitVec 32
  wticks : BitVec 32
  pr : Nat

inductive Fault where
  | nullPointer
  /-- An access to `queue[i]` with `i` out of bounds. -/
  | queueIndex
deriving DecidableEq, Repr

/-! ## RR -/

/-- The loop counts in `p` itself. -/
def rr (t : Nat → Proc) : Ptr :=
  some ((List.range NPROC).findIdx fun k => (t k).state = .runnable)

/-! ## FCFS -/

def fcfsStep (t : Nat → Proc) (p : Ptr) (fp : Nat) : Ptr :=
  if (t fp).state ≠ .runnable then p
  else
    match p with
    | none => some fp
    | some q => if (t q).ctime > (t fp).ctime then some fp else p

def fcfs (t : Nat → Proc) : Ptr := (List.range NPROC).foldl (fcfsStep t) none

/-! ## LOTTERY -/

def RAND_MAX : BitVec 32 := 32767

def rand (seed : BitVec 64) : BitVec 32 :=
  ((seed * 1103515245 + 12345) / 65536).setWidth 32 % 32768

/-- `a / b` on `int`s, as the instruction `divw` has it. -/
def divw (a b : BitVec 32) : BitVec 32 := if b = 0 then -1 else a.sdiv b

def totTk (t : Nat → Proc) : BitVec 32 :=
  (List.range NPROC).foldl (fun tot fp => if (t fp).state = .runnable then tot + (t fp).tickets else tot) 0

def lotteryLoop (t : Nat → Proc) (tot rv : BitVec 32) : BitVec 32 → List Nat → Ptr
  | _, [] => none
  | sv, fp :: rest =>
    if (t fp).state = .runnable then
      let prob := divw ((t fp).tickets * RAND_MAX) tot
      if sv.sle rv ∧ rv.slt (sv + prob) then some fp else lotteryLoop t tot rv (sv + prob) rest
    else lotteryLoop t tot rv sv rest

def lottery (t : Nat → Proc) (ticks : BitVec 32) : Ptr :=
  lotteryLoop t (totTk t) (rand (ticks.setWidth 64)) 0 (List.range NPROC)

/-! ## PBS -/

/-- `max` and `min` (proc.c:32, proc.c:36). -/
def max (a b : BitVec 32) : BitVec 32 := if b.slt a then a else b
def min (a b : BitVec 32) : BitVec 32 := if b.slt a then b else a

def niceness (q : Proc) : BitVec 32 :=
  let sleep := q.wtime - q.stime
  if sleep = 0 ∧ q.pbsRtime = 0 then 5 else divw sleep (sleep + q.pbsRtime) * 10

def dp (q : Proc) : BitVec 32 := max 0 (min (q.staticP - q.niceness + 5) 100)

structure Pbs where
  t : Nat → Proc
  p : Ptr
  minDp : BitVec 32

/-- Does `fp` win a tie of dynamic priorities against `q`? -/
def wins (t : Nat → Proc) (fp q : Nat) : Bool :=
  (t fp).schNo.slt (t q).schNo || ((t fp).schNo == (t q).schNo && (t fp).ctime < (t q).ctime)

def pbsStep (s : Pbs) (fp : Nat) : Outcome Fault Pbs :=
  if (s.t fp).state = .runnable then
    let t := Function.update s.t fp { s.t fp with niceness := niceness (s.t fp) }
    let d := dp (t fp)
    if d.slt s.minDp then .ok { t := t, p := some fp, minDp := d }
    else if d = s.minDp then
      match s.p with
      | none => .halt .nullPointer
      | some q => .ok { s with t := t, p := if wins t fp q then some fp else s.p }
    else .ok { s with t := t }
  else .ok s

def pbs (t : Nat → Proc) : Outcome Fault Ptr :=
  (run pbsStep { t := t, p := none, minDp := 103 } (List.range NPROC)).bind fun s => .ok s.p

/-! ## MLFQ -/

/-- What the scheduler finds: the processes, the tick counter and the run queues, whose entries are null or
slots of the table. -/
structure Table where
  proc : Nat → Proc
  ticks : BitVec 32
  queue : Nat → List (Option Nat)
  slots : ∀ i c, some c ∈ queue i → c < NPROC

/-- The table for the loops of MLFQ; they do not read the fields that are filled in here. -/
def Table.sys (t : Table) : Mlfq.Sys where
  proc k :=
    { state := (t.proc k).state, pid := (t.proc k).pid, wticks := (t.proc k).wticks, pr := (t.proc k).pr,
      killed := false, rticks := 0, resume := none }
  queue := t.queue
  nextpid := 0
  pc := .enqueue 0

/-- Iterate until a process is chosen or the last loop has ended. -/
def round : Nat → Mlfq.Sys → Outcome Fault Ptr
  | 0, _ => .stuck
  | n + 1, s =>
    match Mlfq.step s .sched with
    | .ok s' =>
      match s'.pc with
      | .running p => .ok (some p)
      | .enqueue 0 => .ok none
      | _ => round n s'
    | .halt _ => .halt .queueIndex
    | .stuck => .stuck

/-- The iterations of a loop over the queues that are left at `i`, `j`. -/
def left (i j : Nat) : Nat :=
  if i < NPR then (NPR - 1 - i) * (NPROC + 1) + (NPROC - j) + 2 else 1

/-- The iterations that are left in a round, at most. -/
def rank : Mlfq.Pc → Nat
  | .enqueue k => (NPROC + 1 - k) + left 0 0 + left 0 0
  | .age i j => left i j + left 0 0
  | .select i j => left i j
  | .running _ => 0

def mlfq (t : Table) : Outcome Fault Ptr := round (rank (.enqueue 0)) t.sys

/-! ## The builds -/

inductive Build where
  | rr | fcfs | lottery | pbs | mlfq
deriving DecidableEq, Repr

def select : Build → Table → Outcome Fault Ptr
  | .rr, t => .ok (rr t.proc)
  | .fcfs, t => .ok (fcfs t.proc)
  | .lottery, t => .ok (lottery t.proc t.ticks)
  | .pbs, t => pbs t.proc
  | .mlfq, t => mlfq t

end Xv6Riscv.Sched
