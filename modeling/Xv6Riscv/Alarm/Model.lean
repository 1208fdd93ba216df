import Mathlib.Logic.Function.Basic
import Xv6Riscv.Basic
import Xv6Riscv.Lib.Machine

/-!
# `sigalarm` / `sigreturn`: the model

| here | there |
| --- | --- |
| `Trapframe` | `struct trapframe` (proc.h), its user half: `epc` and the 31 registers `uservec` saves and `userret` loads (trampoline.S) |
| `Proc` | `struct proc` (proc.h), the fields read or written below |
| `usertrapret` | trap.c:225, followed by `userret` |
| `usertrapAlarm` | the alarm branch of `usertrap` (trap.c:148-162) |
| `allocproc`, `freeproc` | proc.c:126, proc.c:205 |
| `fork`, `exit`, `kill` | proc.c:341, proc.c:417, proc.c:905 |
| `sysSigalarm`, `sysSigreturn` | sysproc.c:110, sysproc.c:127 |
| `syscall` | syscall.c:205 (the trace output is left out: it writes no process state) |

Pages are named by their address, and `page a` is the page at `a` read as a trapframe. All pages of
this model are private to one owner (trapframes, saved contexts, pages of the rest of the kernel), so
their reference count is 1 and `kfree` always puts them on the free list. A system call takes effect at
one point: the other processes run before it or after it. What the rest of the kernel (does `proc_pagetable` find
memory, what does `exec` load, which child is reaped, what do the other system calls return) is chosen by the
environment in each event, in any way. -/
namespace Xv6Riscv.Alarm
open Machine
open Function (update)

/-- The registers `uservec` saves and `userret` restores. -/
inductive Reg where
  | ra | sp | gp | tp | t0 | t1 | t2 | s0 | s1 | a0 | a1 | a2 | a3 | a4 | a5 | a6 | a7
  | s2 | s3 | s4 | s5 | s6 | s7 | s8 | s9 | s10 | s11 | t3 | t4 | t5 | t6
deriving DecidableEq, Repr

@[ext] structure Trapframe where
  epc : BitVec 64
  reg : Reg → BitVec 64

def Trapframe.set (t : Trapframe) (r : Reg) (v : BitVec 64) : Trapframe :=
  { t with reg := update t.reg r v }

/-- A page after `memset` with one byte repeated. -/
def fill (w : BitVec 64) : Trapframe := ⟨w, fun _ => w⟩

structure Proc where
  state : ProcState
  pid : BitVec 32
  killed : Bool
  trapframe : Nat
  interval : BitVec 32
  handler : BitVec 64
  nticks : BitVec 32
  alarmOn : Bool
  alarmContext : Nat
  /-- The registers while the process is in user mode (`epc` is its program counter). -/
  user : Trapframe
  /-- History variable: which of all processes ever created this is. -/
  gen : Nat

structure Sys where
  proc : Nat → Proc
  nextpid : BitVec 32
  page : Nat → Trapframe
  freelist : List Nat
  /-- Pages held by the rest of the kernel. -/
  held : List Nat
  /-- History variable: how many processes were created so far. -/
  births : Nat
  /-- History variable: the page and the registers saved by the latest alarm of a process. -/
  last : Nat → Nat × Trapframe

/-- How the kernel stops: an access to the unmapped page 0 ends in `kerneltrap`'s panic. -/
inductive Panic where
  | kerneltrap | kfree | initExiting
deriving DecidableEq, Repr

namespace Sys

def setProc (s : Sys) (p : Nat) (f : Proc → Proc) : Sys :=
  { s with proc := update s.proc p (f (s.proc p)) }

def setPage (s : Sys) (a : Nat) (t : Trapframe) : Sys :=
  { s with page := update s.page a t }

/-- `*(p->trapframe)`. -/
def tf (s : Sys) (p : Nat) : Trapframe := s.page (s.proc p).trapframe

def setTf (s : Sys) (p : Nat) (t : Trapframe) : Sys := s.setPage (s.proc p).trapframe t

end Sys

/-! ## Pages and processes -/

/-- The state after `kalloc` took the head `a` of the free list: the page is filled with 5s. -/
def popped (s : Sys) (a : Nat) (as : List Nat) : Sys :=
  { s with freelist := as }.setPage a (fill 0x0505050505050505)

/-- The state after `kfree` put `a` back: the page is filled with 1s. -/
def pushed (s : Sys) (a : Nat) : Sys :=
  { s with freelist := a :: s.freelist }.setPage a (fill 0x0101010101010101)

/-- `kalloc` (kalloc.c:116). -/
def kalloc (s : Sys) : Option (Nat × Sys) :=
  match s.freelist with
  | [] => none
  | a :: as => some (a, popped s a as)

/-- `kfree` (kalloc.c:82). -/
def kfree (s : Sys) (a : Nat) : Outcome Panic Sys :=
  if a = 0 then .halt .kfree else .ok (pushed s a)

/-- The field resets of `freeproc`: `alarmOn` and `alarmContext` are not among them. -/
def cleared (q : Proc) : Proc :=
  { q with trapframe := 0, pid := 0, killed := false, state := .unused
           interval := 0, nticks := 0, handler := 0 }

def freeproc (s : Sys) (c : Nat) : Outcome Panic Sys :=
  (if (s.proc c).trapframe ≠ 0 then kfree s (s.proc c).trapframe else .ok s).bind fun s =>
    .ok (s.setProc c cleared)

def Sys.state (s : Sys) (c : Nat) : ProcState := (s.proc c).state

/-- The field resets of `allocproc`: `interval`, `handler` and `alarmContext` keep what the slot
held before. -/
def claimed (s : Sys) (c : Nat) : Sys :=
  { s with nextpid := s.nextpid + 1, births := s.births + 1 }.setProc c fun q =>
    { q with pid := s.nextpid, state := .used, nticks := 0, alarmOn := false, gen := s.births }

/-- `allocproc`; `ptOk` says whether `proc_pagetable` found memory. -/
def allocproc (s : Sys) (ptOk : Bool) : Outcome Panic (Option Nat × Sys) :=
  match unusedSlot s.state with
  | none => .ok (none, s)
  | some c =>
    let s := claimed s c
    match kalloc s with
    | none => (freeproc (s.setProc c fun q => { q with trapframe := 0 }) c).bind fun s => .ok (none, s)
    | some (a, s) =>
      let s := s.setProc c fun q => { q with trapframe := a }
      if ptOk then .ok (some c, s) else (freeproc s c).bind fun s => .ok (none, s)

/-- What the rest of the kernel contributes to one system call. -/
structure Env where
  ptOk : Bool
  copyOk : Bool
  /-- `exec` succeeds with this entry point, stack pointer and `argc`. -/
  exec : Option (BitVec 64 × BitVec 64 × BitVec 64)
  /-- The zombie child `wait` or `waitx` finds. -/
  child : Option Nat
  /-- What any other system call returns. -/
  ret : BitVec 64

/-- Return to user mode: `usertrapret` and `userret` load the registers from the trapframe. -/
def usertrapret (s : Sys) (p : Nat) : Sys := s.setProc p fun q => { q with user := s.tf p }

/-- Entry from user mode: `uservec` saves the registers, `usertrap` saves `sepc` (trap.c:107). -/
def uservec (s : Sys) (p : Nat) : Sys := s.setTf p (s.proc p).user

/-- `exit`; `initproc` is slot 0. -/
def exit (s : Sys) (p : Nat) : Outcome Panic Sys :=
  if p = 0 then .halt .initExiting else .ok (s.setProc p fun q => { q with state := .zombie })

/-! ## System calls

Each returns the value `syscall` stores in `a0`. -/

def minusOne : BitVec 64 := BitVec.allOnes 64

def fork (s : Sys) (p : Nat) (env : Env) : Outcome Panic (BitVec 64 × Sys) :=
  (allocproc s env.ptOk).bind fun
    | (none, s) => .ok (minusOne, s)
    | (some c, s) =>
      if env.copyOk then
        let s := s.setTf c ((s.tf p).set .a0 0)
        let s := s.setProc c fun q => { q with state := .runnable }
        -- the child's first `usertrapret`, from `forkret`
        .ok ((s.proc c).pid.signExtend 64, usertrapret s c)
      else (freeproc s c).bind fun s => .ok (minusOne, s)

/-- `exec` touches the trapframe only; every alarm field survives it. -/
def exec (s : Sys) (p : Nat) (env : Env) : BitVec 64 × Sys :=
  match env.exec with
  | none => (minusOne, s)
  | some (entry, sp, argc) => (argc, s.setTf p { ((s.tf p).set .a1 sp).set .sp sp with epc := entry })

/-- `wait` and `waitx`: free the zombie the scan found. -/
def wait (s : Sys) (env : Env) : Outcome Panic (BitVec 64 × Sys) :=
  match env.child with
  | some c =>
    if c < NPROC ∧ (s.proc c).state = .zombie then
      (freeproc s c).bind fun s' => .ok ((s.proc c).pid.signExtend 64, s')
    else .ok (minusOne, s)
  | none => .ok (minusOne, s)

/-- `kill`: the first slot with this pid. -/
def kill (s : Sys) (pid : BitVec 32) : BitVec 64 × Sys :=
  match (List.range NPROC).find? fun c => (s.proc c).pid = pid with
  | some c =>
    (0, s.setProc c fun q =>
      { q with killed := true, state := if q.state = .sleeping then .runnable else q.state })
  | none => (minusOne, s)

def sysSigalarm (s : Sys) (p : Nat) : BitVec 64 × Sys :=
  (0, s.setProc p fun q =>
    { q with interval := ((s.tf p).reg .a0).setWidth 32, handler := (s.tf p).reg .a1 })

/-- `sys_sigreturn`: `int a0` keeps the low 32 bits, the `uint64` result sign-extends them. -/
def sysSigreturn (s : Sys) (p : Nat) : Outcome Panic (BitVec 64 × Sys) :=
  let ctx := (s.proc p).alarmContext
  if ctx = 0 then .halt .kerneltrap
  else
    let a0 : BitVec 32 := ((s.page ctx).reg .a0).setWidth 32
    (kfree (s.setTf p (s.page ctx)) ctx).bind fun s =>
      .ok (a0.signExtend 64, s.setProc p fun q =>
        { q with alarmOn := false, nticks := 0, alarmContext := 0 })

/-- The system calls with an effect on this state (syscall.h). -/
inductive Sysno where
  | fork | exit | wait | kill | exec | sigalarm | sigreturn | other | unknown
deriving DecidableEq, Repr

def sysno (num : BitVec 32) : Sysno :=
  match num.toNat with
  | 1 => .fork
  | 2 => .exit
  | 3 | 27 => .wait
  | 6 => .kill
  | 7 => .exec
  | 23 => .sigalarm
  | 24 => .sigreturn
  | n => if 0 < n ∧ n < 28 then .other else .unknown

/-- The system call the process is asking for: `num = p->trapframe->a7`, an `int`. -/
def Trapframe.sysno (t : Trapframe) : Sysno := Alarm.sysno ((t.reg .a7).setWidth 32)

/-- `syscall`; the flag is false when the call does not return (`exit`). -/
def syscall (s : Sys) (p : Nat) (env : Env) : Outcome Panic (Bool × Sys) :=
  let ret (r : BitVec 64 × Sys) : Outcome Panic (Bool × Sys) :=
    .ok (true, r.2.setTf p ((r.2.tf p).set .a0 r.1))
  match (s.tf p).sysno with
  | .fork => (fork s p env).bind ret
  | .exit => (exit s p).bind fun s => .ok (false, s)
  | .wait => (wait s env).bind ret
  | .kill => ret (kill s (((s.tf p).reg .a0).setWidth 32))
  | .exec => ret (exec s p env)
  | .sigalarm => ret (sysSigalarm s p)
  | .sigreturn => (sysSigreturn s p).bind ret
  | .other => ret (env.ret, s)
  | .unknown => ret (minusOne, s)

/-! ## Traps from user mode -/

/-- The end of `usertrap`: a killed process exits, any other goes back to user mode. -/
def usertrapTail (s : Sys) (p : Nat) : Outcome Panic Sys :=
  if (s.proc p).killed then exit s p else .ok (usertrapret s p)

/-- `sepc` points to the `ecall` instruction: return to the next one (trap.c:116). -/
def skipEcall (s : Sys) (p : Nat) : Sys := s.setTf p { s.tf p with epc := (s.tf p).epc + 4 }

/-- `usertrap` for an `ecall` (trap.c:109-123). -/
def ecall (s : Sys) (p : Nat) (env : Env) : Outcome Panic Sys :=
  let s := uservec s p
  if (s.proc p).killed then exit s p
  else
    (syscall (skipEcall s p) p env).bind fun
      | (true, s) => usertrapTail s p
      | (false, s) => .ok s

/-- Does this user-mode tick deliver the alarm? -/
def fires (q : Proc) : Bool := !q.alarmOn && q.nticks + 1 == q.interval

/-- trap.c:148-162. `kalloc` is not checked: with no page left `memmove` writes to page 0. -/
def usertrapAlarm (s : Sys) (p : Nat) : Outcome Panic Sys :=
  let q := s.proc p
  if q.alarmOn then .ok s
  else
    let s := s.setProc p fun q => { q with nticks := q.nticks + 1 }
    if q.nticks + 1 == q.interval then
      match kalloc s with
      | none => .halt .kerneltrap
      | some (context, s) =>
        let saved := s.tf p
        let s := (s.setPage context saved).setProc p fun q =>
          { q with alarmContext := context, alarmOn := true }
        let s := { s with last := update s.last q.gen (context, saved) }
        .ok (s.setTf p { s.tf p with epc := q.handler })
    else .ok s

/-- `usertrap` for a timer interrupt. -/
def tick (s : Sys) (p : Nat) : Outcome Panic Sys :=
  (usertrapAlarm (uservec s p) p).bind fun s => usertrapTail s p

/-- `usertrap` for any other interrupt or exception; `kills` when it calls `setkilled`. -/
def trap (s : Sys) (p : Nat) (kills : Bool) : Outcome Panic Sys :=
  let s := uservec s p
  usertrapTail (if kills then s.setProc p fun q => { q with killed := true } else s) p

/-! ## The machine -/

inductive Event where
  /-- Any user-mode instructions: they leave any register contents. -/
  | user (p : Nat) (u : Trapframe)
  | ecall (p : Nat) (env : Env)
  | tick (p : Nat)
  | trap (p : Nat) (kills : Bool)
  /-- Scheduling: `scheduler`, `yield`, `sleep`, `wakeup`. -/
  | resched (p : Nat) (st : ProcState)
  /-- The rest of the kernel takes or returns a page. -/
  | kget
  | kput (a : Nat)

def live (st : ProcState) : Bool := st = .sleeping ∨ st = .runnable ∨ st = .running

def isRunning (s : Sys) (p : Nat) : Bool := p < NPROC ∧ (s.proc p).state = .running

def step (s : Sys) : Event → Outcome Panic Sys
  | .user p u => if isRunning s p then .ok (s.setProc p fun q => { q with user := u }) else .stuck
  | .ecall p env => if isRunning s p then ecall s p env else .stuck
  | .tick p => if isRunning s p then tick s p else .stuck
  | .trap p kills => if isRunning s p then trap s p kills else .stuck
  | .resched p st =>
    if p < NPROC ∧ live (s.proc p).state ∧ live st then .ok (s.setProc p fun q => { q with state := st })
    else .stuck
  | .kget =>
    match kalloc s with
    | none => .stuck
    | some (a, s) => .ok { s with held := a :: s.held }
  | .kput a => if a ∈ s.held then kfree { s with held := s.held.erase a } a else .stuck

/-- After `userinit`: slot 0 holds the first process, the other slots are as `procinit` left them
(zero but for `state = UNUSED`), and no page has two owners. -/
structure Boot (s : Sys) : Prop where
  init_state : (s.proc 0).state = .runnable
  init_alarm : (s.proc 0).alarmOn = false ∧ (s.proc 0).alarmContext = 0
  init_gen : (s.proc 0).gen = 0 ∧ s.births = 1
  others : ∀ c, c ≠ 0 → (s.proc c).state = .unused ∧ (s.proc c).trapframe = 0 ∧
    (s.proc c).alarmOn = false ∧ (s.proc c).alarmContext = 0
  pages : ((s.proc 0).trapframe :: (s.freelist ++ s.held)).Nodup
  nonnull : ∀ a ∈ (s.proc 0).trapframe :: (s.freelist ++ s.held), a ≠ 0

end Xv6Riscv.Alarm
