import Mathlib.Algebra.Group.Nat.Defs
import Mathlib.Logic.Function.Basic
import Xv6Riscv.Lib.Machine

/-!
# Page tables as words in memory: the model

| here | there |
| --- | --- |
| `PX`, `PA2PTE`, `PTE2PA`, `PTE_FLAGS`, `PGROUNDDOWN` | riscv.h:335-364 |
| `kalloc`, `kfree` | kalloc.c:114, kalloc.c:82 |
| `walk` | vm.c:86 |
| `mappages`, `uvmunmap` | vm.c:143, vm.c:171 |

`Vm/Model.lean` takes a page table as a value. Here it is what the hardware reads: 512 words in each of many pages,
with addresses and flags packed into 64 bits. A pointer is the physical address, as in the kernel's own page table.
The loops stop by themselves, because `walk` panics beyond `MAXVA`; `LOOPS` bounds their turns. The links of
the free list are a list, and one
thread works on the table: the locks of `kalloc` and `kfree` are left out.
-/
namespace Xv6Riscv.PageTable
open Machine
open Function (update)

abbrev Word := BitVec 64

def PGSIZE : Word := 4096
def MAXVA : Word := 1 <<< 38
def PHYSTOP : Word := 0x88000000

def PTE_V : Word := 1
def PTE_U : Word := 1 <<< 4

def PGROUNDDOWN (a : Word) : Word := a &&& ~~~(PGSIZE - 1)
def PA2PTE (pa : Word) : Word := (pa >>> 12) <<< 10
def PTE2PA (pte : Word) : Word := (pte >>> 10) <<< 12
def PTE_FLAGS (pte : Word) : Word := pte &&& 0x3FF
def PX (level : Nat) (va : Word) : Word := (va >>> (12 + 9 * level)) &&& 0x1FF

/-! ## Memory -/

structure Mem where
  /-- The 64-bit word at an address. -/
  word : Word → Word
  /-- `kmem.freelist`. -/
  freelist : List Word
  /-- `memref.fr`, by the address of the page. -/
  fr : Word → Nat
  /-- `end`. -/
  endAddr : Word

inductive Panic where
  | walk | mappagesSize | mappagesRemap | uvmunmapAlign | uvmunmapWalk | uvmunmapNotMapped | uvmunmapNotLeaf | kfree
deriving DecidableEq

namespace Mem

/-- `*p = w`. -/
def store (m : Mem) (p w : Word) : Mem := { m with word := update m.word p w }

/-- `memset(pa, c, PGSIZE)`: the byte `c` in all words of the page. -/
def memset (m : Mem) (pa : Word) (c : BitVec 8) : Mem :=
  { m with word := fun a => if a - pa < PGSIZE then c.setWidth 64 * 0x0101010101010101 else m.word a }

def kalloc (m : Mem) : Option Word × Mem :=
  match m.freelist with
  | [] => (none, m)
  | r :: l => (some r, { m with freelist := l, fr := update m.fr r 1 }.memset r 5)

def kfree (m : Mem) (pa : Word) : Outcome Panic Mem :=
  if pa % PGSIZE ≠ 0 ∨ pa < m.endAddr ∨ PHYSTOP ≤ pa then .halt .kfree
  else if 1 < m.fr pa then .ok { m with fr := update m.fr pa (m.fr pa - 1) }
  else
    let m := { m with fr := update m.fr pa 0 }.memset pa 1
    .ok { m with freelist := pa :: m.freelist }

end Mem

/-! ## vm.c -/

/-- `&pagetable[PX(level, va)]`. -/
def entry (pagetable : Word) (level : Nat) (va : Word) : Word := pagetable + 8 * PX level va

/-- One turn of the loop of `walk`: the page table of the next level. -/
def walkTurn (m : Mem) (pagetable : Word) (level : Nat) (va : Word) (alloc : Bool) : Option Word × Mem :=
  let pte := entry pagetable level va
  if m.word pte &&& PTE_V ≠ 0#64 then (some (PTE2PA (m.word pte)), m)
  else if alloc then
    match m.kalloc with
    | (none, m) => (none, m)
    | (some pagetable, m) => (some pagetable, (m.memset pagetable 0).store pte (PA2PTE pagetable ||| PTE_V))
  else (none, m)

/-- The address of the leaf entry, or `none` for 0. -/
def walk (m : Mem) (pagetable va : Word) (alloc : Bool) : Outcome Panic (Option Word × Mem) :=
  if MAXVA ≤ va then .halt .walk
  else
    match walkTurn m pagetable 2 va alloc with
    | (none, m) => .ok (none, m)
    | (some pagetable, m) =>
      match walkTurn m pagetable 1 va alloc with
      | (none, m) => .ok (none, m)
      | (some pagetable, m) => .ok (some (entry pagetable 0 va), m)

/-- More turns than any loop makes before `walk` panics: the pages below `MAXVA`, and one. -/
def LOOPS : Nat := 2 ^ 26 + 1

/-- The loop of `mappages`. The result is `true` for 0 and `false` for -1. -/
def mappagesLoop (m : Mem) (pagetable a last pa perm : Word) : Nat → Outcome Panic (Bool × Mem)
  | 0 => .stuck
  | turns + 1 =>
    (walk m pagetable a true).bind fun (pte, m) =>
      match pte with
      | none => .ok (false, m)
      | some pte =>
        if m.word pte &&& PTE_V ≠ 0#64 then .halt .mappagesRemap
        else
          let m := m.store pte (PA2PTE pa ||| perm ||| PTE_V)
          if a = last then .ok (true, m)
          else mappagesLoop m pagetable (a + PGSIZE) last (pa + PGSIZE) perm turns

/-- `perm` is the `int` as it is converted. -/
def mappages (m : Mem) (pagetable va size pa perm : Word) : Outcome Panic (Bool × Mem) :=
  if size = 0 then .halt .mappagesSize
  else mappagesLoop m pagetable (PGROUNDDOWN va) (PGROUNDDOWN (va + size - 1)) pa perm LOOPS

/-- The loop of `uvmunmap` up to the address `stop`. -/
def uvmunmapLoop (m : Mem) (pagetable a stop : Word) (doFree : Bool) : Nat → Outcome Panic Mem
  | 0 => .stuck
  | turns + 1 =>
    if a < stop then
      (walk m pagetable a false).bind fun (pte, m) =>
        match pte with
        | none => .halt .uvmunmapWalk
        | some pte =>
          if m.word pte &&& PTE_V = 0#64 then .halt .uvmunmapNotMapped
          else if PTE_FLAGS (m.word pte) = PTE_V then .halt .uvmunmapNotLeaf
          else
            (if doFree then m.kfree (PTE2PA (m.word pte)) else .ok m).bind fun m =>
              uvmunmapLoop (m.store pte 0) pagetable (a + PGSIZE) stop doFree turns
    else .ok m

def uvmunmap (m : Mem) (pagetable va npages : Word) (doFree : Bool) : Outcome Panic Mem :=
  if va % PGSIZE ≠ 0 then .halt .uvmunmapAlign
  else uvmunmapLoop m pagetable va (va + npages * PGSIZE) doFree LOOPS

end Xv6Riscv.PageTable
