import Mathlib.Algebra.Group.Int.Defs
import Mathlib.Algebra.Group.Nat.Defs

/-!
# Parameters shared by the models (`param.h`, `riscv.h`, `memlayout.h`, `proc.h`)
-/
namespace Xv6Riscv

/-! ## `param.h` -/

def NPROC : Nat := 64
def NCPU : Nat := 8
def NOFILE : Nat := 16
def NPR : Nat := 5
def NINODE : Nat := 50
def MAXOPBLOCKS : Nat := 10
def LOGSIZE : Nat := MAXOPBLOCKS * 3

/-! ## `proc.h` -/

/-- `enum procstate`. -/
inductive ProcState where
  | unused | used | sleeping | runnable | running | zombie
deriving DecidableEq, Repr

/-- The slot that `allocproc` takes. -/
def unusedSlot (state : Nat → ProcState) : Option Nat := (List.range NPROC).find? fun c => state c = .unused

theorem unusedSlot_some {state : Nat → ProcState} {c : Nat} (h : unusedSlot state = some c) :
    c < NPROC ∧ state c = .unused :=
  ⟨List.mem_range.1 (List.mem_of_find?_eq_some h), by simpa using List.find?_some h⟩

end Xv6Riscv
