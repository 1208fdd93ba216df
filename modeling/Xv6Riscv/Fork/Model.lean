import Xv6Riscv.Slot.Model
import Xv6Riscv.Vm.Undo

/-!
# `fork` with files and results

| here | there |
| --- | --- |
| `Fields` | `struct proc` (proc.h:86) without its memory: `context`, `kstack` and `graph` are left out |
| `Fields.alloc`, `allocMemory`, `allocproc` | proc.c:126: the fields, the pages, both |
| `Fields.free` | proc.c:205, beside `Vm.freeproc` |
| `dupFiles` | the loop over `ofile` with `filedup` (file.c:48), then `idup` (fs.c:282) |
| `fork` | proc.c:341 |

The memory side is that of `Vm/Model.lean`, run without interruption: a call of `fork` that fails is to be compared
with the state it started in. Files and inodes are named by their address, 0 is the null pointer.
-/
namespace Xv6Riscv.Fork
open Machine Threads Vm
open Outcome (bind_eq_ok)
open Function (update)

structure Fields where
  pid : BitVec 32
  chan : Nat
  killed : Bool
  name : List UInt8
  smask : BitVec 32
  interval : BitVec 32
  nticks : BitVec 32
  handler : BitVec 64
  sched : Slot.Sched
  ofile : Fin NOFILE → Nat
  cwd : Nat

structure Sys where
  kern : Kern
  fields : Vm.Slot → Fields
  nextpid : BitVec 32
  ticks : BitVec 32
  /-- `f->ref` and `ip->ref`. -/
  fileRef : Nat → Nat
  inodeRef : Nat → Nat

inductive Panic where
  | vm (m : Vm.Panic)
  | filedup
deriving DecidableEq

/-- Code that works on memory, run by the process in slot `p`. -/
def onMemory {α : Type} (p : Vm.Slot) (m : K α) (s : Sys) : Outcome Panic (α × Sys) :=
  match solo p m s.kern with
  | .ok (x, kern) => .ok (x, { s with kern })
  | .stuck => .stuck
  | .halt e => .halt (.vm e)

def setFields (s : Sys) (d : Vm.Slot) (q : Fields) : Sys := { s with fields := update s.fields d q }

/-- The fields that `allocproc` sets. -/
def Fields.alloc (q : Fields) (pid ticks : BitVec 32) : Fields :=
  { q with pid := pid, smask := 0, nticks := 0, sched := Slot.newSched ticks }

/-- The fields that `freeproc` resets. -/
def Fields.free (q : Fields) : Fields :=
  { q with
    pid := 0, name := q.name.set 0 0, chan := 0, killed := false
    smask := 0, interval := 0, nticks := 0, handler := 0
    sched := { q.sched with ctime := 0, rticks := 0, wticks := 0, pr := 0 } }

/-- The pages of the new process in slot `d`: its trapframe and its page table. -/
def allocMemory (d : Vm.Slot) : K Bool := do
  let p ← getProc d
  match ← kalloc with
  | none =>
    setProc d { p with alarmOn := false, trapframe := none }
    freeproc d
    pure false
  | some f =>
    setProc d { p with alarmOn := false, trapframe := some f }
    match ← procPagetable f trampoline with
    | none =>
      setProc d { p with alarmOn := false, trapframe := some f, pagetable := none }
      freeproc d
      pure false
    | some pagetable =>
      setProc d { p with alarmOn := false, trapframe := some f, pagetable := some pagetable }
      pure true

def allocproc (p : Vm.Slot) (s : Sys) : Outcome Panic (Option Vm.Slot × Sys) :=
  (onMemory p (claimSlot (List.finRange NPROC)) s).bind fun (o, s) =>
    match o with
    | none => .ok (none, s)
    | some d =>
      let s := { setFields s d ((s.fields d).alloc s.nextpid s.ticks) with nextpid := s.nextpid + 1 }
      (onMemory p (allocMemory d) s).bind fun (ok, s) =>
        if ok then .ok (some d, s) else .ok (none, setFields s d (s.fields d).free)

/-- `uvmcopy(p->pagetable, np->pagetable, p->sz)`, with the two processes as it has found them. -/
def copyMemory (d : Vm.Slot) : K (Bool × Vm.Proc × Vm.Proc) := do
  let p ← myproc
  let old ← deref p.pagetable
  let np ← getProc d
  let new ← deref np.pagetable
  let ok ← uvmcopy old new p.sz
  pure (ok, p, np)

/-- `np->sz = p->sz`, `np->parent = p`, `np->state = RUNNABLE`. -/
def startChild (d : Vm.Slot) (p np : Vm.Proc) : K Unit := do
  setProc d { np with sz := p.sz }
  setParent d
  setRunnable d

/-- The open files among `fds` get one more reference each. -/
def dupFiles (ofile : Fin NOFILE → Nat) (fds : List (Fin NOFILE)) (ref : Nat → Nat) : Outcome Panic (Nat → Nat) :=
  match fds with
  | [] => .ok ref
  | fd :: fds =>
    if ofile fd = 0 then dupFiles ofile fds ref
    else if ref (ofile fd) < 1 then .halt .filedup
    else dupFiles ofile fds (update ref (ofile fd) (ref (ofile fd) + 1))

/-- What the child has from its parent `q`. -/
def Fields.inherit (np q : Fields) : Fields :=
  { np with
    name := q.name
    smask := q.smask
    sched := { np.sched with staticP := q.sched.staticP, tickets := q.sched.tickets }
    ofile := fun fd => if q.ofile fd = 0 then np.ofile fd else q.ofile fd
    cwd := q.cwd }

/-- The result is the pid of the child, and `none` for -1. -/
def fork (p : Vm.Slot) (s : Sys) : Outcome Panic (Option (BitVec 32) × Sys) :=
  (allocproc p s).bind fun (o, s) =>
    match o with
    | none => .ok (none, s)
    | some d =>
      (onMemory p (copyMemory d) s).bind fun ((ok, parent, child), s) =>
        if ok then
          let q := s.fields p
          (dupFiles q.ofile (List.finRange NOFILE) s.fileRef).bind fun fileRef =>
            let s := { s with
              fileRef
              inodeRef := update s.inodeRef q.cwd (s.inodeRef q.cwd + 1) }
            (onMemory p (startChild d parent child) (setFields s d ((s.fields d).inherit q))).bind fun (_, s) =>
              .ok (some (s.fields d).pid, s)
        else
          (onMemory p (freeproc d) s).bind fun (_, s) => .ok (none, setFields s d (s.fields d).free)

/-! ## The memory side is `Vm.fork` -/

variable {s s' : Sys} {p : Vm.Slot}

theorem onMemory_eq_ok {α : Type} {m : K α} {x : α} (h : onMemory p m s = .ok (x, s')) :
    solo p m s.kern = .ok (x, s'.kern) := by
  unfold onMemory at h
  split at h
  · rename_i y k hs
    cases h
    exact hs
  · cases h
  · cases h

theorem allocproc_eq : Vm.allocproc = (do
    match ← claimSlot (List.finRange NPROC) with
    | none => pure none
    | some d => do
      let ok ← allocMemory d
      pure (if ok then some d else none)) := by
  refine congrArg _ (funext fun o => ?_)
  cases o with
  | none => rfl
  | some d =>
    unfold allocMemory
    simp only [bind_assoc]
    refine congrArg _ (funext fun p => congrArg _ (funext fun o => ?_))
    cases o with
    | none => simp
    | some f =>
      simp only [bind_assoc]
      refine congrArg _ (funext fun _ => congrArg _ (funext fun o => ?_))
      cases o <;> simp

theorem solo_allocproc {o : Option Vm.Slot} (h : allocproc p s = .ok (o, s')) :
    solo p Vm.allocproc s.kern = .ok (o, s'.kern) := by
  obtain ⟨⟨o1, s1⟩, h1, h⟩ := bind_eq_ok.1 h
  rw [allocproc_eq, solo_bind (onMemory_eq_ok h1)]
  cases o1 with
  | none =>
    cases h
    rfl
  | some d =>
    obtain ⟨⟨ok, s2⟩, h2, h⟩ := bind_eq_ok.1 h
    have hm := onMemory_eq_ok h2
    cases ok <;> cases h <;> exact solo_bind hm

/-- **The memory side of `fork` is `Vm.fork`.** -/
theorem solo_fork {r : Option (BitVec 32)} (h : fork p s = .ok (r, s')) :
    solo p Vm.fork s.kern = .ok ((), s'.kern) := by
  have heq : Vm.fork = (do
      match ← Vm.allocproc with
      | none => pure ()
      | some d => do
        let (ok, parent, child) ← copyMemory d
        if ok then startChild d parent child else freeproc d) := by
    refine congrArg _ (funext fun o => ?_)
    cases o with
    | none => rfl
    | some d =>
      unfold copyMemory startChild
      simp only [bind_assoc, pure_bind]
  obtain ⟨⟨o, s1⟩, h1, h⟩ := bind_eq_ok.1 h
  rw [heq, solo_bind (solo_allocproc h1)]
  cases o with
  | none =>
    cases h
    rfl
  | some d =>
    obtain ⟨⟨⟨ok, parent, child⟩, s2⟩, h2, h⟩ := bind_eq_ok.1 h
    refine (solo_bind (onMemory_eq_ok h2)).trans ?_
    cases ok with
    | true =>
      obtain ⟨ref, -, h⟩ := bind_eq_ok.1 h
      obtain ⟨⟨u, s3⟩, h3, h⟩ := bind_eq_ok.1 h
      cases h
      have hm := onMemory_eq_ok h3
      exact hm
    | false =>
      obtain ⟨⟨u, s3⟩, h3, h⟩ := bind_eq_ok.1 h
      cases h
      have hm := onMemory_eq_ok h3
      exact hm

end Xv6Riscv.Fork
