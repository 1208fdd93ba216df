import Xv6Riscv.Lib.Paged
import Xv6Riscv.Vm.Model

/-!
# `copyout` (vm.c:357) and `copyin` (vm.c:384) in one system call

Nothing else runs on the page table of a process while it is in a system call, so `walkaddr` is a function from page
numbers to physical pages. Both copies stop at the first page that `walkaddr` does not find and leave what they have
copied up to there.
-/
namespace Xv6Riscv.User

/-- What `walkaddr` finds in a user page table: the physical page of each mapped user page. Nothing is mapped from
`MAXVA` on, so no address that a copy comes to wraps. -/
structure PageMap where
  walkaddr : Nat → Option Nat
  below_maxva : ∀ vpn, Vm.MAXPG ≤ vpn → walkaddr vpn = none

/-- Page 0 is mapped, to page 5. -/
def firstPage : PageMap where
  walkaddr vpn := if vpn = 0 then some 5 else none
  below_maxva _ h := if_neg (Nat.ne_of_gt (Nat.lt_of_lt_of_le (by decide) h))

/-- Physical memory, by page and offset. -/
abbrev Memory := Nat × Nat → BitVec 8

variable (pt : PageMap)

def copyout (dstva : Nat) (src : List (BitVec 8)) (mem : Memory) : Bool × Memory :=
  Paged.copyOut Vm.PGSIZE pt.walkaddr src.length dstva src mem

/-- The result and the bytes that reach the destination. -/
def copyin (mem : Memory) (srcva len : Nat) : Bool × List (BitVec 8) :=
  Paged.copyIn Vm.PGSIZE pt.walkaddr mem len srcva len

/-- The stores of a `copyout`. -/
def stores (dstva : Nat) (src : List (BitVec 8)) : List ((Nat × Nat) × BitVec 8) :=
  Paged.writes Vm.PGSIZE pt.walkaddr dstva src

/-- `len` bytes from `va` on are mapped. -/
def Mapped (va len : Nat) : Prop := Paged.Mapped Vm.PGSIZE pt.walkaddr va len

instance (va len : Nat) : Decidable (Mapped pt va len) := inferInstanceAs (Decidable (Paged.Mapped ..))

theorem copyout_eq (dstva : Nat) (src : List (BitVec 8)) (mem : Memory) :
    copyout pt dstva src mem = (decide (Mapped pt dstva src.length), Paged.apply mem (stores pt dstva src)) := by
  rw [copyout, Paged.copyOut_eq _ _ (by decide) _ (Nat.le_refl _)]
  congr 2
  exact propext (Paged.writes_length_eq_iff ..)

/-- The byte at an address of the process. -/
def byte (mem : Memory) (va : Nat) : Option (BitVec 8) := Paged.load Vm.PGSIZE pt.walkaddr mem va

theorem copyin_result (mem : Memory) (srcva len : Nat) : (copyin pt mem srcva len).2.length ≤ len ∧
      ((copyin pt mem srcva len).1 = true ↔ (copyin pt mem srcva len).2.length = len) := by
  rw [copyin, Paged.copyIn_eq _ _ _ (by decide) (Nat.le_refl _)]
  exact ⟨Paged.reads_length_le .., decide_eq_true_iff⟩

theorem copyin_byte {mem : Memory} {srcva len k : Nat} (hk : k < (copyin pt mem srcva len).2.length) :
    byte pt mem (srcva + k) = (copyin pt mem srcva len).2[k]? := by
  rw [copyin, Paged.copyIn_eq _ _ _ (by decide) (Nat.le_refl _)] at hk ⊢
  exact Paged.load_of_reads _ _ _ hk

end Xv6Riscv.User
