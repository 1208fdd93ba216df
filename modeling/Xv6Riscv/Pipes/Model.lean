import Mathlib.Data.Fintype.Basic
import Xv6Riscv.Lib.Machine
import Xv6Riscv.Lib.Ring

/-!
# Pipes: the model

| here | there |
| --- | --- |
| `Pipe`, `PIPESIZE` | `struct pipe` (pipe.c:13), pipe.c:11 |
| `pipewrite`, `piperead`, `pipeclose` | pipe.c:77, pipe.c:106, pipe.c:59 |
| `Sys.sleep`, `Sys.wakeup`, `kill` | proc.c:852, proc.c:885, proc.c:906 |
| `Referenced` | file.c: a call is made through an open file, and `fileclose` closes an end with the last reference to it |

Any number of processes are in calls on one pipe, each at some point of its call (`Pc`). A step of a process goes to
the next point at which another process can act or the code takes a branch. `wakeup` is one step: a process
goes to sleep on the pipe with `pi->lock` held, so none does while another looks for sleepers. `copyin` and `copyout`
succeed. `pushed` and `delivered` are history variables.
-/
namespace Xv6Riscv.Pipes
open Machine RingBuffer
open Function (update)

abbrev Byte := BitVec 8

def PIPESIZE : Nat := 512

instance : NeZero PIPESIZE := ⟨by decide⟩

inductive End where
  | read | write
deriving DecidableEq, Repr

structure Pipe where
  data : Fin PIPESIZE → Byte
  nread : BitVec 32
  nwrite : BitVec 32
  readopen : Bool
  writeopen : Bool

def Pipe.isOpen (pi : Pipe) : End → Bool
  | .read => pi.readopen
  | .write => pi.writeopen

def Pipe.close (pi : Pipe) : End → Pipe
  | .read => { pi with readopen := false }
  | .write => { pi with writeopen := false }

/-- `pi->data[pi->nwrite++ % PIPESIZE] = ch`. -/
def Pipe.push (pi : Pipe) (ch : Byte) : Pipe :=
  { pi with data := update pi.data (slot pi.nwrite) ch, nwrite := pi.nwrite + 1#32 }

/-- `pi->data[pi->nread++ % PIPESIZE]`. -/
def Pipe.pop (pi : Pipe) : Byte × Pipe := (pi.data (slot pi.nread), { pi with nread := pi.nread + 1#32 })

/-- Where a process is. For `pipewrite`, `user i` is what `copyin` finds at `addr + i`; for `piperead`, `got` is what
has been copied out, so that `i` is its length. -/
inductive Pc where
  | idle
  /-- `pipewrite`: in front of `acquire`, at the `while`, asleep, at the `acquire` in `sleep`, behind the loop. -/
  | writeEntry (user : Nat → Byte) (n : Int)
  | writeLoop (user : Nat → Byte) (n : Int) (i : Nat)
  | writeSleep (user : Nat → Byte) (n : Int) (i : Nat)
  | writeWoken (user : Nat → Byte) (n : Int) (i : Nat)
  | writeEnd (i : Nat)
  | writeReturn (r : Int)
  /-- `piperead`: in front of `acquire`, at the `while`, asleep, at the `acquire` in `sleep`, at the `for`, behind
  it. -/
  | readEntry (n : Int)
  | readWait (n : Int)
  | readSleep (n : Int)
  | readWoken (n : Int)
  | readCopy (n : Int) (got : List Byte)
  | readEnd (n : Int) (got : List Byte)
  | readReturn (n r : Int)
  /-- `pipeclose`: in front of `acquire`, of the assignment, of the last `if`, and of `kfree`. -/
  | closeEntry (e : End)
  | closeEnd (e : End)
  | closeTest
  | closeFree

/-- A process asleep on `&pi->nread` or `&pi->nwrite` becomes runnable. -/
def Pc.woken : End → Pc → Pc
  | .read, .readSleep n => .readWoken n
  | .write, .writeSleep user n i => .writeWoken user n i
  | _, pc => pc

structure Sys (τ : Type) where
  pipe : Pipe
  /-- Who holds `pi->lock`. -/
  lock : Option τ
  /-- The page of the pipe was given to `kfree`. -/
  freed : Bool
  killed : τ → Bool
  pc : τ → Pc
  /-- The bytes that went into the pipe, and those that were copied out, in this order. -/
  pushed : List Byte
  delivered : List Byte

inductive Panic where
  | acquire | release
  /-- No panic of the kernel: the pipe is used after it was freed. -/
  | freed
deriving DecidableEq, Repr

inductive Call where
  | write (user : Nat → Byte) (n : Int)
  | read (n : Int)
  | close (e : End)

def Call.entry : Call → Pc
  | .write user n => .writeEntry user n
  | .read n => .readEntry n
  | .close e => .closeEntry e

inductive Event (τ : Type) where
  | start (t : τ) (c : Call)
  | next (t : τ)
  | kill (t : τ)

variable {τ : Type} [DecidableEq τ]

namespace Sys

def goto (s : Sys τ) (t : τ) (pc : Pc) : Sys τ := { s with pc := update s.pc t pc }

/-- `acquire(&pi->lock)`, and on to `pc`. -/
def acquire (s : Sys τ) (t : τ) (pc : Pc) : Outcome Panic (Sys τ) :=
  match s.lock with
  | none => .ok ({ s with lock := some t }.goto t pc)
  | some u => if u = t then .halt .acquire else .stuck

/-- `release(&pi->lock)`, and on to `pc`. -/
def release (s : Sys τ) (t : τ) (pc : Pc) : Outcome Panic (Sys τ) :=
  if s.lock = some t then .ok ({ s with lock := none }.goto t pc) else .halt .release

omit [DecidableEq τ] in
/-- `wakeup(&pi->nread)` or `wakeup(&pi->nwrite)`. -/
def wakeup (s : Sys τ) (e : End) : Sys τ := { s with pc := fun u => (s.pc u).woken e }

/-- `sleep` up to `sched`: `pc` is a place where the process sleeps. -/
def sleep (s : Sys τ) (t : τ) (pc : Pc) : Outcome Panic (Sys τ) := s.release t pc

end Sys

/-- What `pipewrite` does next. -/
def pipewrite (s : Sys τ) (t : τ) : Pc → Outcome Panic (Sys τ)
  | .writeEntry user n => s.acquire t (.writeLoop user n 0)
  | .writeLoop user n i =>
    if (i : Int) < n then
      if s.pipe.readopen = false ∨ s.killed t = true then s.release t (.writeReturn (-1))
      else if s.pipe.nwrite = s.pipe.nread + BitVec.ofNat 32 PIPESIZE then
        (s.wakeup .read).sleep t (.writeSleep user n i)
      else
        let ch := user i
        .ok ({ s with pipe := s.pipe.push ch, pushed := s.pushed ++ [ch] }.goto t (.writeLoop user n (i + 1)))
    else .ok (s.goto t (.writeEnd i))
  | .writeWoken user n i => s.acquire t (.writeLoop user n i)
  | .writeEnd i => (s.wakeup .read).release t (.writeReturn i)
  | _ => .stuck

/-- What `piperead` does next. -/
def piperead (s : Sys τ) (t : τ) : Pc → Outcome Panic (Sys τ)
  | .readEntry n => s.acquire t (.readWait n)
  | .readWait n =>
    if s.pipe.nread = s.pipe.nwrite ∧ s.pipe.writeopen = true then
      if s.killed t = true then s.release t (.readReturn n (-1))
      else s.sleep t (.readSleep n)
    else .ok (s.goto t (.readCopy n []))
  | .readWoken n => s.acquire t (.readWait n)
  | .readCopy n got =>
    if (got.length : Int) < n then
      if s.pipe.nread = s.pipe.nwrite then .ok (s.goto t (.readEnd n got))
      else
        let (ch, pi) := s.pipe.pop
        .ok ({ s with pipe := pi, delivered := s.delivered ++ [ch] }.goto t (.readCopy n (got ++ [ch])))
    else .ok (s.goto t (.readEnd n got))
  | .readEnd n got => (s.wakeup .write).release t (.readReturn n got.length)
  | _ => .stuck

/-- What `pipeclose` does next. -/
def pipeclose (s : Sys τ) (t : τ) : Pc → Outcome Panic (Sys τ)
  | .closeEntry e => s.acquire t (.closeEnd e)
  | .closeEnd .write => .ok (({ s with pipe := s.pipe.close .write }.wakeup .read).goto t .closeTest)
  | .closeEnd .read => .ok (({ s with pipe := s.pipe.close .read }.wakeup .write).goto t .closeTest)
  | .closeTest =>
    if s.pipe.readopen = false ∧ s.pipe.writeopen = false then s.release t .closeFree else s.release t .idle
  | .closeFree => .ok ({ s with freed := true }.goto t .idle)
  | _ => .stuck

/-- The step reads or writes the page of the pipe. -/
def Pc.touches : Pc → Bool
  | .idle | .writeSleep .. | .writeReturn .. | .readSleep .. | .readReturn .. => false
  | _ => true

def next (s : Sys τ) (t : τ) : Pc → Outcome Panic (Sys τ)
  | .idle | .writeSleep .. | .readSleep .. => .stuck
  | .writeReturn _ | .readReturn .. => .ok (s.goto t .idle)
  | .writeEntry user n => pipewrite s t (.writeEntry user n)
  | .writeLoop user n i => pipewrite s t (.writeLoop user n i)
  | .writeWoken user n i => pipewrite s t (.writeWoken user n i)
  | .writeEnd i => pipewrite s t (.writeEnd i)
  | .closeEntry e => pipeclose s t (.closeEntry e)
  | .closeEnd e => pipeclose s t (.closeEnd e)
  | .closeTest => pipeclose s t .closeTest
  | .closeFree => pipeclose s t .closeFree
  | pc => piperead s t pc

def step (s : Sys τ) : Event τ → Outcome Panic (Sys τ)
  | .start t c =>
    match s.pc t with
    | .idle => .ok (s.goto t c.entry)
    | _ => .stuck
  | .next t => if s.freed && (s.pc t).touches then .halt .freed else next s t (s.pc t)
  | .kill t => .ok ({ s with killed := update s.killed t true }.goto t (((s.pc t).woken .read).woken .write))

/-! ## The calls that are made -/

/-- The end that the call of a process still uses: through an open file that refers to it, or to close it. -/
def Pc.refers : Pc → Option End
  | .writeEntry .. | .writeLoop .. | .writeSleep .. | .writeWoken .. | .writeEnd .. => some .write
  | .readEntry .. | .readWait .. | .readSleep .. | .readWoken .. | .readCopy .. | .readEnd .. => some .read
  | .closeEntry e | .closeEnd e => some e
  | .idle | .writeReturn .. | .readReturn .. | .closeTest | .closeFree => none

/-- The end that the call is about to close. -/
def Pc.closes : Pc → Option End
  | .closeEntry e | .closeEnd e => some e
  | _ => none

/-- A call on an end is made while the end is open and nobody closes it; an end is closed once, when there is no other
call on it. -/
def Referenced (s : Sys τ) : Event τ → Prop
  | .start _ (.write _ _) => s.pipe.writeopen = true ∧ ∀ u, (s.pc u).closes ≠ some .write
  | .start _ (.read _) => s.pipe.readopen = true ∧ ∀ u, (s.pc u).closes ≠ some .read
  | .start _ (.close e) => s.pipe.isOpen e = true ∧ ∀ u, (s.pc u).refers ≠ some e
  | .next _ | .kill _ => True

omit [DecidableEq τ] in
instance [Fintype τ] (s : Sys τ) (ev : Event τ) : Decidable (Referenced s ev) :=
  match ev with
  | .start _ (.write _ _) => inferInstanceAs (Decidable (_ ∧ _))
  | .start _ (.read _) => inferInstanceAs (Decidable (_ ∧ _))
  | .start _ (.close _) => inferInstanceAs (Decidable (_ ∧ _))
  | .next _ => isTrue trivial
  | .kill _ => isTrue trivial

/-- The pipe is new: both ends are open, and the counters are equal, whatever they are. -/
structure Init (s : Sys τ) : Prop where
  counters : s.pipe.nread = s.pipe.nwrite
  isOpen : ∀ e, s.pipe.isOpen e = true
  lock : s.lock = none
  freed : s.freed = false
  idle : ∀ t, s.pc t = .idle
  pushed : s.pushed = []
  delivered : s.delivered = []

end Xv6Riscv.Pipes
