import Mathlib.Data.Finmap
import Mathlib.Data.List.Sort
import Xv6Riscv.Basic
import Xv6Riscv.Lib.Threads

/-!
# Pages, page tables and copy-on-write: the model

| here | there |
| --- | --- |
| `kalloc`, `kfree` | kalloc.c:114, kalloc.c:82 |
| `walk`, `walkaddr`, `mappages` | vm.c:86, vm.c:109, vm.c:143 |
| `uvmunmap`, `uvmcreate`, `uvmfirst` | vm.c:171, vm.c:197, vm.c:211 |
| `uvmalloc`, `uvmdealloc` | vm.c:226, vm.c:256 |
| `freewalk`, `uvmfree` | vm.c:272, vm.c:292 |
| `uvmcopy`, `uvmclear`, `copyout` | vm.c:306, vm.c:344, vm.c:360 |
| `handleCOW` | trap.c:32 |
| `store`, `load` | a user instruction, and what usertrap (trap.c:83) does when it faults |
| `alarm`, `sigreturn` | trap.c:154-161, sysproc.c:127 |
| `procPagetable`, `procFreepagetable` | proc.c:239, proc.c:273 |
| `allocproc`, `freeproc`, `userinit` | proc.c:127, proc.c:206, proc.c:295 |
| `growproc`, `fork`, `exit`, `wait` | proc.c:322, proc.c:342, proc.c:418, proc.c:463 |
| `exec`, `loadseg`, `sysExec` | exec.c:23, exec.c:148, sysfile.c:435 |

The kernel code is written as programs over the actions of `Act`. An action is what happens without
another thread in between: a critical section of `kmem.lock`, taking or giving back `memref.lock`, one
read or write of a reference count, of `lock_kalloc`, of a page, of a page table or of a process. So the
threads of this model interleave everywhere the real ones do, and in more places.

A page is named by its index `fn` in `memref.fr`, and a virtual address by its page number where the code
has aligned it. A page table is a value: the two levels of directories with the pages they occupy, and
the valid leaf entries by page number. Its bytes are not the bytes of these pages. Sleeping and the CPUs are
left out: a process that is not a zombie may always run. What files hold is chosen by the caller.
-/
namespace Xv6Riscv.Vm
open Machine Threads
open Function (update)

/-! ## `riscv.h`, `memlayout.h` -/

def PGSIZE : Nat := 4096
def MAXVA : Nat := 2 ^ 38
def MAXARG : Nat := 32

/-- `fn(PHYSTOP)`. -/
def PHYSTOP : Nat := 32768

/-- The page number of `MAXVA`, and of the two pages below it. -/
def MAXPG : Nat := MAXVA / PGSIZE
def TRAMPOLINE : Nat := MAXPG - 1
def TRAPFRAME : Nat := MAXPG - 2

/-- `PGROUNDUP(sz) / PGSIZE`. -/
def npages (sz : Nat) : Nat := (sz + PGSIZE - 1) / PGSIZE

abbrev Frame := Nat
abbrev Slot := Fin NPROC
abbrev Page := Nat → UInt8

/-- The threads: one for each slot of the process table, and the one that runs `main`. -/
abbrev Tid := Option Slot

/-! ## Page tables -/

/-- The flags of a leaf entry apart from `PTE_V`. -/
structure Perm where
  r : Bool := false
  w : Bool := false
  x : Bool := false
  u : Bool := false
  cow : Bool := false
deriving DecidableEq

structure Pte where
  pa : Frame
  perm : Perm
deriving DecidableEq

/-- A level-1 page, and the level-0 pages it points to. -/
structure Dir where
  page : Frame
  subs : AList fun _ : Nat => Frame

def px (level i : Nat) : Nat := i / 512 ^ level % 512

/-- The directories have a slot for the leaf entry of page `i`. -/
def reaches (dirs : AList fun _ : Nat => Dir) (i : Nat) : Bool :=
  ((dirs.lookup (px 2 i)).bind fun d => d.subs.lookup (px 1 i)).isSome

/-- A page table without its root page. Every leaf entry can be reached through the directories. -/
structure Table where
  dirs : AList fun _ : Nat => Dir
  ptes : AList fun _ : Nat => Pte
  hung : ∀ i ∈ ptes, reaches dirs i = true

namespace Table

def empty : Table := ⟨∅, ∅, fun _ h => absurd h (AList.notMem_empty _)⟩

/-- The leaf entry of page `i`, if it is valid. -/
def get (T : Table) (i : Nat) : Option Pte := T.ptes.lookup i

/-- What `walk` finds: no slot, or the slot with its entry. -/
def slot (T : Table) (i : Nat) : Option (Option Pte) := if reaches T.dirs i then some (T.get i) else none

variable {dirs : AList fun _ : Nat => Dir} {k i : Nat}

theorem reaches_addDir (h : dirs.lookup k = none) (f : Frame)
    (hi : reaches dirs i = true) : reaches (dirs.insert k ⟨f, ∅⟩) i = true := by
  unfold reaches at hi ⊢
  have hne : px 2 i ≠ k := by
    rintro rfl
    rw [h] at hi
    cases hi
  rwa [AList.lookup_insert_ne hne]

theorem reaches_addSub {d : Dir} (h : dirs.lookup k = some d) (j : Nat) (f : Frame) (hi : reaches dirs i = true) :
    reaches (dirs.insert k { d with subs := d.subs.insert j f }) i = true := by
  unfold reaches at hi ⊢
  by_cases hk : px 2 i = k
  · rw [hk, h] at hi
    rw [hk, AList.lookup_insert]
    simp only [Option.bind_some] at hi ⊢
    rw [AList.lookup_isSome] at hi ⊢
    exact (AList.mem_insert _).2 (.inr hi)
  · rwa [AList.lookup_insert_ne hk]

/-- `*pte = PA2PTE(pagetable) | PTE_V` at level 2. -/
def addDir (T : Table) (i : Nat) (f : Frame) : Table :=
  if h : T.dirs.lookup (px 2 i) = none then
    { T with
      dirs := T.dirs.insert (px 2 i) ⟨f, ∅⟩
      hung := fun j hj => reaches_addDir h f (T.hung j hj) }
  else T

/-- `*pte = PA2PTE(pagetable) | PTE_V` at level 1. -/
def addSub (T : Table) (i : Nat) (f : Frame) : Table :=
  match h : T.dirs.lookup (px 2 i) with
  | none => T
  | some d =>
    { T with
      dirs := T.dirs.insert (px 2 i) { d with subs := d.subs.insert (px 1 i) f }
      hung := fun j hj => reaches_addSub h _ f (T.hung j hj) }

/-- `*pte = PA2PTE(pa) | perm | PTE_V` at level 0. -/
def setPte (T : Table) (i : Nat) (pte : Pte) : Table :=
  if h : reaches T.dirs i = true then
    { T with
      ptes := T.ptes.insert i pte
      hung := fun j hj => by
        rcases (AList.mem_insert _).1 hj with rfl | hj
        · exact h
        · exact T.hung j hj }
  else T

/-- `*pte = 0` at level 0. -/
def clearPte (T : Table) (i : Nat) : Table :=
  { T with
    ptes := T.ptes.erase i
    hung := fun j hj => T.hung j (AList.mem_erase.1 hj).2 }

end Table

/-- The entries of a page of directories from index 0 up. -/
def inOrder {α : Type} (l : AList fun _ : Nat => α) : List (Sigma fun _ : Nat => α) :=
  l.entries.insertionSort fun a b => a.1 ≤ b.1

/-! ## The state of the kernel -/

/-- The fields of `struct proc` that have to do with memory. -/
structure Proc where
  state : ProcState := .unused
  sz : Nat := 0
  pagetable : Option Frame := none
  trapframe : Option Frame := none
  alarmOn : Bool := false
  alarmContext : Option Frame := none
  xstate : BitVec 32 := 0

structure Kern where
  /-- `fn(PGROUNDUP(end))`: the pages from here to `PHYSTOP` belong to the allocator. -/
  first : Frame
  freelist : List Frame
  fr : Frame → Nat
  lockKalloc : Bool
  /-- Who holds `memref.lock`. -/
  holder : Option Tid
  mem : Frame → Page
  /-- The page table with this root page. -/
  table : Frame → Table
  proc : Slot → Proc
  parent : Slot → Option Slot
  initproc : Option Slot
  /-- The pages that the rest of the kernel has allocated (pipes, kernel stacks, its page table). -/
  held : List Frame

def Kern.isFrame (s : Kern) (f : Frame) : Bool := decide (s.first ≤ f) && decide (f < PHYSTOP)

inductive Panic where
  | kfree | walk | mappagesRemap | uvmunmapWalk | uvmunmapNotMapped | uvmunmapNotLeaf | freewalkLeaf
  | uvmcopyPte | uvmcopyPresent | uvmclear | loadseg | initExiting | acquire | release
  /-- The kernel uses a null pointer, and `kerneltrap` panics. -/
  | kerneltrap
deriving DecidableEq

/-! ## Actions -/

inductive Act where
  /-- The critical section of `kmem.lock` in `kalloc`, and the one in `kfree`. `main` allocates while it
  boots, with nearly all of memory free: that it finds none is left out. -/
  | pop
  | push (pa : Frame)
  /-- `memref_lock`, `memref_unlock`, `memref_get`, `memref_set`. -/
  | acquire
  | release
  | memrefGet (pa : Frame)
  | memrefSet (pa : Frame) (fq : Nat)
  /-- `memref.lock_kalloc`. -/
  | lockKalloc
  | setLockKalloc (b : Bool)
  /-- The range check of `kfree`. -/
  | isFrame (pa : Frame)
  | memset (pa : Frame) (c : UInt8)
  | memmove (dst src : Frame)
  | read (pa : Frame) (off : Nat)
  /-- A user store, or a file or the initial program read into a page. -/
  | write (pa : Frame) (off : Nat) (bytes : List UInt8)
  /-- The `memmove` of `copyout`. -/
  | copy (pa : Frame) (off : Nat) (bytes : List UInt8)
  | getTable (pagetable : Frame)
  | setTable (pagetable : Frame) (T : Table)
  | myproc
  | setMyproc (p : Proc)
  | getProc (c : Slot)
  | setProc (c : Slot) (p : Proc)
  /-- `allocproc` looks at the slot, and takes it if it is `UNUSED`. -/
  | claim (c : Slot)
  | setParent (c : Slot)
  | setInitproc (c : Slot)
  | setRunnable (c : Slot)
  | isInit
  /-- `exit` under `wait_lock`: the children go to init, and the process is a `ZOMBIE`. -/
  | die (status : BitVec 32)
  /-- `wait` looks at the slot, and keeps its lock if it is a `ZOMBIE` child. -/
  | zombieChild (c : Slot)
  | unlockProc (c : Slot)
  /-- The end of `freeproc`. -/
  | setUnused (c : Slot)
  | hold (pa : Frame)
  | unhold (pa : Frame)
  | panic (m : Panic)

@[reducible] def Act.Res : Act → Type
  | .pop => Option Frame
  | .memrefGet _ => Nat
  | .lockKalloc | .isFrame _ | .claim _ | .isInit | .zombieChild _ => Bool
  | .read _ _ => UInt8
  | .getTable _ => Table
  | .myproc | .getProc _ => Proc
  | .panic _ => Empty
  | _ => Unit

/-- The bytes from `off` on are replaced. -/
def splice (p : Page) (off : Nat) (bytes : List UInt8) : Page := fun i =>
  if off ≤ i then (bytes[i - off]?).getD (p i) else p i

namespace Kern

def setProc (s : Kern) (c : Slot) (p : Proc) : Kern := { s with proc := update s.proc c p }

/-- An action by the thread `t`. -/
def exec (s : Kern) (t : Tid) : (a : Act) → Outcome Panic (a.Res × Kern)
  | .pop =>
    match s.freelist with
    | [] => if t = none then .stuck else .ok (none, s)
    | f :: l => .ok (some f, { s with freelist := l })
  | .push pa => .ok ((), { s with freelist := pa :: s.freelist })
  | .acquire =>
    match s.holder with
    | none => .ok ((), { s with holder := some t })
    | some u => if u = t then .halt .acquire else .stuck
  | .release => if s.holder = some t then .ok ((), { s with holder := none }) else .halt .release
  | .memrefGet pa => .ok (s.fr pa, s)
  | .memrefSet pa fq => .ok ((), { s with fr := update s.fr pa fq })
  | .lockKalloc => .ok (s.lockKalloc, s)
  | .setLockKalloc b => .ok ((), { s with lockKalloc := b })
  | .isFrame pa => .ok (s.isFrame pa, s)
  | .memset pa c => .ok ((), { s with mem := update s.mem pa fun _ => c })
  | .memmove dst src => .ok ((), { s with mem := update s.mem dst (s.mem src) })
  | .read pa off => .ok (s.mem pa off, s)
  | .write pa off bytes => .ok ((), { s with mem := update s.mem pa (splice (s.mem pa) off bytes) })
  | .copy pa off bytes => .ok ((), { s with mem := update s.mem pa (splice (s.mem pa) off bytes) })
  | .getTable pt => .ok (s.table pt, s)
  | .setTable pt T => .ok ((), { s with table := update s.table pt T })
  | .myproc =>
    match t with
    | none => .stuck
    | some c => .ok (s.proc c, s)
  | .setMyproc p =>
    match t with
    | none => .stuck
    | some c => .ok ((), s.setProc c p)
  | .getProc c => .ok (s.proc c, s)
  | .setProc c p => .ok ((), s.setProc c p)
  | .claim c =>
    if (s.proc c).state = .unused then .ok (true, s.setProc c { s.proc c with state := .used })
    else .ok (false, s)
  | .setParent c => .ok ((), { s with parent := update s.parent c t })
  | .setInitproc c => .ok ((), { s with initproc := some c })
  | .setRunnable c => .ok ((), s.setProc c { s.proc c with state := .runnable })
  | .isInit => .ok (decide (t ≠ none ∧ s.initproc = t), s)
  | .die status =>
    match t with
    | none => .stuck
    | some c =>
      let s' := s.setProc c { s.proc c with state := .zombie, xstate := status }
      .ok ((), { s' with parent := fun d => if s.parent d = some c then s.initproc else s.parent d })
  | .zombieChild c => .ok (decide (t ≠ none ∧ s.parent c = t ∧ (s.proc c).state = .zombie), s)
  | .unlockProc _ => .ok ((), s)
  | .setUnused c =>
    .ok ((), { s.setProc c { s.proc c with state := .unused, xstate := 0 } with
      parent := update s.parent c none })
  | .hold pa => .ok ((), { s with held := pa :: s.held })
  | .unhold pa => if pa ∈ s.held then .ok ((), { s with held := s.held.erase pa }) else .stuck
  | .panic m => .halt m

end Kern

/-! ## Programs -/

abbrev K := Prog Act Act.Res

def act (a : Act) : K a.Res := Prog.perform a

def pop : K (Option Frame) := act .pop
def push (pa : Frame) : K Unit := act (.push pa)
def memrefLock : K Unit := act .acquire
def memrefUnlock : K Unit := act .release
def memrefGet (pa : Frame) : K Nat := act (.memrefGet pa)
def memrefSet (pa : Frame) (fq : Nat) : K Unit := act (.memrefSet pa fq)
def lockKalloc : K Bool := act .lockKalloc
def setLockKalloc (b : Bool) : K Unit := act (.setLockKalloc b)
def isFrame (pa : Frame) : K Bool := act (.isFrame pa)
def memset (pa : Frame) (c : UInt8) : K Unit := act (.memset pa c)
def memmove (dst src : Frame) : K Unit := act (.memmove dst src)
def read (pa : Frame) (off : Nat) : K UInt8 := act (.read pa off)
def write (pa : Frame) (off : Nat) (bytes : List UInt8) : K Unit := act (.write pa off bytes)
def copy (pa : Frame) (off : Nat) (bytes : List UInt8) : K Unit := act (.copy pa off bytes)
def getTable (pagetable : Frame) : K Table := act (.getTable pagetable)
def setTable (pagetable : Frame) (T : Table) : K Unit := act (.setTable pagetable T)
def myproc : K Proc := act .myproc
def setMyproc (p : Proc) : K Unit := act (.setMyproc p)
def getProc (c : Slot) : K Proc := act (.getProc c)
def setProc (c : Slot) (p : Proc) : K Unit := act (.setProc c p)
def claim (c : Slot) : K Bool := act (.claim c)
def setParent (c : Slot) : K Unit := act (.setParent c)
def setInitproc (c : Slot) : K Unit := act (.setInitproc c)
def setRunnable (c : Slot) : K Unit := act (.setRunnable c)
def isInit : K Bool := act .isInit
def die (status : BitVec 32) : K Unit := act (.die status)
def zombieChild (c : Slot) : K Bool := act (.zombieChild c)
def unlockProc (c : Slot) : K Unit := act (.unlockProc c)
def setUnused (c : Slot) : K Unit := act (.setUnused c)
def hold (pa : Frame) : K Unit := act (.hold pa)
def unhold (pa : Frame) : K Unit := act (.unhold pa)
def panic {α : Type} (m : Panic) : K α := .act (.panic m) Empty.elim

/-- A pointer that the code uses without a check. -/
def deref (p : Option Frame) : K Frame :=
  match p with
  | some f => pure f
  | none => panic .kerneltrap

/-! ### kalloc.c -/

def kalloc : K (Option Frame) := do
  match ← pop with
  | none => pure none
  | some r =>
    if ← lockKalloc then
      memrefLock
      memrefSet r 1
      memrefUnlock
      memset r 5
      pure (some r)
    else
      memrefSet r 1
      memset r 5
      pure (some r)

def kfree (pa : Frame) : K Unit := do
  if ← isFrame pa then
    memrefLock
    let fq ← memrefGet pa
    if 1 < fq then
      memrefSet pa (fq - 1)
      memrefUnlock
    else
      memrefSet pa 0
      memrefUnlock
      memset pa 1
      push pa
  else panic .kfree

/-! ### vm.c -/

/-- One turn of the loop of `walk`, at level 2. -/
def walkDir (pagetable : Frame) (i : Nat) (alloc : Bool) : K Bool := do
  let T ← getTable pagetable
  if (T.dirs.lookup (px 2 i)).isSome then pure true
  else if alloc then
    match ← kalloc with
    | none => pure false
    | some f =>
      memset f 0
      setTable pagetable (T.addDir i f)
      pure true
  else pure false

/-- The other turn, at level 1. -/
def walkSub (pagetable : Frame) (i : Nat) (alloc : Bool) : K Bool := do
  let T ← getTable pagetable
  if reaches T.dirs i then pure true
  else if alloc then
    match ← kalloc with
    | none => pure false
    | some f =>
      memset f 0
      setTable pagetable (T.addSub i f)
      pure true
  else pure false

/-- The leaf entry, or `none` where `walk` returns 0. -/
def walk (pagetable : Frame) (i : Nat) (alloc : Bool) : K (Option (Option Pte)) := do
  if MAXPG ≤ i then panic .walk
  else if ← walkDir pagetable i alloc then
    if ← walkSub pagetable i alloc then
      let T ← getTable pagetable
      pure (T.slot i)
    else pure none
  else pure none

def walkaddr (pagetable : Frame) (i : Nat) : K (Option Frame) := do
  if MAXPG ≤ i then pure none
  else
    match ← walk pagetable i false with
    | some (some pte) => pure (if pte.perm.u then some pte.pa else none)
    | _ => pure none

/-- `*pte = …` after a `walk`. -/
def setPte (pagetable : Frame) (i : Nat) (pte : Pte) : K Unit := do
  let T ← getTable pagetable
  setTable pagetable (T.setPte i pte)

def clearPte (pagetable : Frame) (i : Nat) : K Unit := do
  let T ← getTable pagetable
  setTable pagetable (T.clearPte i)

/-- One page: `size` is `PGSIZE` in all calls for user memory. The result is `false` for -1. -/
def mappages (pagetable : Frame) (i : Nat) (pa : Frame) (perm : Perm) : K Bool := do
  match ← walk pagetable i true with
  | none => pure false
  | some (some _) => panic .mappagesRemap
  | some none =>
    setPte pagetable i ⟨pa, perm⟩
    pure true

/-- `npages` pages from page `i` on. -/
def uvmunmap (pagetable : Frame) (i : Nat) (npages : Nat) (doFree : Bool) : K Unit :=
  match npages with
  | 0 => pure ()
  | n + 1 => do
    match ← walk pagetable i false with
    | none => panic .uvmunmapWalk
    | some none => panic .uvmunmapNotMapped
    | some (some pte) =>
      if pte.perm = {} then panic .uvmunmapNotLeaf
      else
        (if doFree then kfree pte.pa else pure ())
        clearPte pagetable i
        uvmunmap pagetable (i + 1) n doFree

def uvmcreate : K (Option Frame) := do
  match ← kalloc with
  | none => pure none
  | some pagetable =>
    memset pagetable 0
    setTable pagetable .empty
    pure (some pagetable)

def uvmfirst (pagetable : Frame) (src : List UInt8) : K Unit := do
  let mem ← deref (← kalloc)
  memset mem 0
  let _ ← mappages pagetable 0 mem { r := true, w := true, x := true, u := true }
  write mem 0 src

def uvmdealloc (pagetable : Frame) (oldsz newsz : Nat) : K Nat := do
  if oldsz ≤ newsz then pure oldsz
  else
    uvmunmap pagetable (npages newsz) (npages oldsz - npages newsz) true
    pure newsz

/-- The loop of `uvmalloc`: `n` more pages, from page `i` on. -/
def uvmallocLoop (pagetable : Frame) (oldsz newsz : Nat) (xperm : Perm) (n i : Nat) : K Nat :=
  match n with
  | 0 => pure newsz
  | n + 1 => do
    match ← kalloc with
    | none =>
      let _ ← uvmdealloc pagetable (i * PGSIZE) oldsz
      pure 0
    | some mem =>
      memset mem 0
      if ← mappages pagetable i mem { xperm with r := true, u := true } then
        uvmallocLoop pagetable oldsz newsz xperm n (i + 1)
      else
        kfree mem
        let _ ← uvmdealloc pagetable (i * PGSIZE) oldsz
        pure 0

def uvmalloc (pagetable : Frame) (oldsz newsz : Nat) (xperm : Perm) : K Nat :=
  if newsz < oldsz then pure oldsz
  else uvmallocLoop pagetable (npages oldsz * PGSIZE) newsz xperm (npages newsz - npages oldsz) (npages oldsz)

/-- `freewalk` of a level-0 page, the one for the entries `i` with `i / 512 = k`. -/
def freewalkSub (T : Table) (k : Nat) (page : Frame) : K Unit :=
  if T.ptes.keys.any (· / 512 = k) then panic .freewalkLeaf else kfree page

def freewalkSubs (T : Table) (k : Nat) (subs : List (Sigma fun _ : Nat => Frame)) : K Unit :=
  match subs with
  | [] => pure ()
  | e :: es => do
    freewalkSub T (k * 512 + e.1) e.2
    freewalkSubs T k es

/-- `freewalk` of the level-1 pages, each after the pages below it. -/
def freewalkDirs (T : Table) (dirs : List (Sigma fun _ : Nat => Dir)) : K Unit :=
  match dirs with
  | [] => pure ()
  | e :: es => do
    freewalkSubs T e.1 (inOrder e.2.subs)
    kfree e.2.page
    freewalkDirs T es

def freewalk (pagetable : Frame) : K Unit := do
  let T ← getTable pagetable
  freewalkDirs T (inOrder T.dirs)
  kfree pagetable

def uvmfree (pagetable : Frame) (sz : Nat) : K Unit := do
  uvmunmap pagetable 0 (npages sz) true
  freewalk pagetable

/-- `uvmcopy` from page `i` on, with `n` pages to go. -/
def uvmcopyLoop (old new : Frame) (n i : Nat) : K Bool :=
  match n with
  | 0 => pure true
  | n + 1 => do
    match ← walk old i false with
    | none => panic .uvmcopyPte
    | some none => panic .uvmcopyPresent
    | some (some pte) =>
      let perm := { pte.perm with w := false, cow := true }
      setPte old i ⟨pte.pa, perm⟩
      if ← mappages new i pte.pa perm then
        memrefLock
        let fq ← memrefGet pte.pa
        memrefSet pte.pa (fq + 1)
        memrefUnlock
        uvmcopyLoop old new n (i + 1)
      else
        uvmunmap new 0 i true
        pure false

def uvmcopy (old new : Frame) (sz : Nat) : K Bool := uvmcopyLoop old new (npages sz) 0

def uvmclear (pagetable : Frame) (i : Nat) : K Unit := do
  match ← walk pagetable i false with
  | some (some pte) => setPte pagetable i { pte with perm := { pte.perm with u := false } }
  -- `*pte &= ~PTE_U` leaves an invalid entry as it is
  | some none => pure ()
  | none => panic .uvmclear

/-- The loop of `copyout`, which copies at least one byte in each of at most `fuel` turns. -/
def copyoutLoop (pagetable : Frame) (fuel dstva : Nat) (src : List UInt8) : K Bool :=
  match fuel with
  | 0 => pure true
  | fuel + 1 => do
    match ← walkaddr pagetable (dstva / PGSIZE) with
    | none => pure false
    | some pa0 =>
      let n := min (PGSIZE - dstva % PGSIZE) src.length
      copy pa0 (dstva % PGSIZE) (src.take n)
      if src.drop n = [] then pure true
      else copyoutLoop pagetable fuel ((dstva / PGSIZE + 1) * PGSIZE) (src.drop n)

def copyout (pagetable : Frame) (dstva : Nat) (src : List UInt8) : K Bool :=
  if src = [] then pure true else copyoutLoop pagetable src.length dstva src

/-! ### trap.c -/

/-- The flags that `handleCOW` leaves. -/
def Perm.unshare (perm : Perm) : Perm := { perm with cow := false, w := true }

/-- `handleCOW` after its `mappages`. -/
def cowMapped (pte : Pte) (mem : Frame) (fq : Nat) (ok : Bool) : K Bool := do
  if ok then
    memrefSet pte.pa (fq - 1)
    setLockKalloc true
    memrefUnlock
    pure true
  else
    kfree mem
    memrefUnlock
    pure false

/-- `handleCOW` after its `kalloc`. -/
def cowCopy (pagetable : Frame) (i : Nat) (pte : Pte) (fq : Nat) : Option Frame → K Bool
  | none => do
    memrefUnlock
    pure false
  | some mem => do
    memmove mem pte.pa
    uvmunmap pagetable i 1 false
    let ok ← mappages pagetable i mem pte.perm.unshare
    cowMapped pte mem fq ok

/-- The result is `true` for 0. -/
def handleCOW (pagetable : Frame) (va : Nat) : K Bool := do
  if MAXVA ≤ va then pure false
  else
    let i := va / PGSIZE
    match ← walk pagetable i false with
    -- the entry is read before the pointer is tested
    | none => panic .kerneltrap
    | some none => pure false
    | some (some pte) =>
      if i = 0 ∨ pte.perm.cow = false ∨ pte.perm.u = false then pure false
      else
        memrefLock
        setLockKalloc false
        let fq ← memrefGet pte.pa
        if fq = 1 then
          setPte pagetable i ⟨pte.pa, pte.perm.unshare⟩
          setLockKalloc true
          memrefUnlock
          pure true
        else
          let mem ← kalloc
          cowCopy pagetable i pte fq mem

def exit (status : BitVec 32) : K Unit := do
  if ← isInit then panic .initExiting else die status

/-- A user load: without a readable page the process is killed. -/
def load (va : Nat) : K Unit := do
  let pagetable ← deref (← myproc).pagetable
  match ← walkaddr pagetable (va / PGSIZE) with
  | some pa =>
    let _ ← read pa (va % PGSIZE)
    pure ()
  | none => exit (-1)

/-- The leaf entry that the hardware finds for a user access. -/
def translate (pagetable : Frame) (i : Nat) : K (Option Pte) := do
  let T ← getTable pagetable
  pure (if MAXPG ≤ i then none else T.get i)

/-- A user store. A page fault ends with the process killed, or back at the instruction, which is then
the next call. -/
def store (va : Nat) (x : UInt8) : K Unit := do
  let pagetable ← deref (← myproc).pagetable
  match ← translate pagetable (va / PGSIZE) with
  | some pte =>
    if pte.perm.w = true ∧ pte.perm.u = true then write pte.pa (va % PGSIZE) [x]
    else if ← handleCOW pagetable va then pure () else exit (-1)
  | none => if ← handleCOW pagetable va then pure () else exit (-1)

/-- The tick at which `nticks` reaches `interval`. -/
def alarm : K Unit := do
  let p ← myproc
  if p.alarmOn then pure ()
  else
    let context ← deref (← kalloc)
    let trapframe ← deref p.trapframe
    memmove context trapframe
    setMyproc { p with alarmContext := some context, alarmOn := true }

def sigreturn : K Unit := do
  let p ← myproc
  let trapframe ← deref p.trapframe
  let context ← deref p.alarmContext
  memmove trapframe context
  kfree context
  setMyproc { p with alarmOn := false, alarmContext := none }

/-! ### proc.c -/

def procPagetable (trapframe trampoline : Frame) : K (Option Frame) := do
  match ← uvmcreate with
  | none => pure none
  | some pagetable =>
    if ← mappages pagetable TRAMPOLINE trampoline { r := true, x := true } then
      if ← mappages pagetable TRAPFRAME trapframe { r := true, w := true } then pure (some pagetable)
      else
        uvmunmap pagetable TRAMPOLINE 1 false
        uvmfree pagetable 0
        pure none
    else
      uvmfree pagetable 0
      pure none

def procFreepagetable (pagetable : Frame) (sz : Nat) : K Unit := do
  uvmunmap pagetable TRAMPOLINE 1 false
  uvmunmap pagetable TRAPFRAME 1 false
  uvmfree pagetable sz

def freeproc (c : Slot) : K Unit := do
  let p ← getProc c
  (match p.trapframe with
    | some f => kfree f
    | none => pure ())
  setProc c { p with trapframe := none }
  (match p.pagetable with
    | some f => procFreepagetable f p.sz
    | none => pure ())
  setProc c { p with trapframe := none, pagetable := none, sz := 0 }
  setUnused c

def claimSlot (slots : List Slot) : K (Option Slot) :=
  match slots with
  | [] => pure none
  | c :: cs => do if ← claim c then pure (some c) else claimSlot cs

/-- The page of trampoline.S, in the kernel's text below `end`. -/
def trampoline : Frame := 0

def allocproc : K (Option Slot) := do
  match ← claimSlot (List.finRange NPROC) with
  | none => pure none
  | some c =>
    let p ← getProc c
    match ← kalloc with
    | none =>
      setProc c { p with alarmOn := false, trapframe := none }
      freeproc c
      pure none
    | some f =>
      setProc c { p with alarmOn := false, trapframe := some f }
      match ← procPagetable f trampoline with
      | none =>
        setProc c { p with alarmOn := false, trapframe := some f, pagetable := none }
        freeproc c
        pure none
      | some pagetable =>
        setProc c { p with alarmOn := false, trapframe := some f, pagetable := some pagetable }
        pure (some c)

def userinit (initcode : List UInt8) : K Unit := do
  match ← allocproc with
  | none => panic .kerneltrap
  | some c =>
    setInitproc c
    let p ← getProc c
    let pagetable ← deref p.pagetable
    uvmfirst pagetable initcode
    setProc c { p with sz := PGSIZE }
    setRunnable c

/-- `sys_sbrk`. The new size is a `uint64`. -/
def growproc (n : Int) : K Unit := do
  let p ← myproc
  let pagetable ← deref p.pagetable
  let newsz := ((p.sz + n) % 2 ^ 64).toNat
  if 0 < n then
    let sz ← uvmalloc pagetable p.sz newsz { w := true }
    if sz = 0 then pure () else setMyproc { p with sz := sz }
  else if n < 0 then
    let sz ← uvmdealloc pagetable p.sz newsz
    setMyproc { p with sz := sz }
  else pure ()

def fork : K Unit := do
  match ← allocproc with
  | none => pure ()
  | some c =>
    let p ← myproc
    let old ← deref p.pagetable
    let np ← getProc c
    let new ← deref np.pagetable
    if ← uvmcopy old new p.sz then
      setProc c { np with sz := p.sz }
      setParent c
      setRunnable c
    else freeproc c

/-- `wait` over the slots that are left. A call that finds no zombie ends, and is made again. -/
def waitLoop (addr : Nat) (slots : List Slot) : K Unit :=
  match slots with
  | [] => pure ()
  | c :: cs => do
    if ← zombieChild c then
      let pagetable ← deref (← myproc).pagetable
      let pp ← getProc c
      let xstate := (List.range 4).map fun i => UInt8.ofNat (pp.xstate.toNat / 256 ^ i)
      if ← (if addr = 0 then pure true else copyout pagetable addr xstate) then freeproc c
      else unlockProc c
    else waitLoop addr cs

def wait (addr : Nat) : K Unit := waitLoop addr (List.finRange NPROC)

/-! ### exec.c -/

/-- A program header, with the bytes of the file from `ph.off` on. -/
structure ProgHdr where
  /-- `ph.type == ELF_PROG_LOAD`. -/
  load : Bool
  /-- The bits of `flags2perm`. -/
  x : Bool
  w : Bool
  vaddr : UInt64
  memsz : UInt64
  filesz : UInt64
  data : List UInt8

/-- The file that `exec` finds: `ok` is the check of its header, and a header that cannot be read is `none`. -/
structure Elf where
  ok : Bool
  phdrs : List (Option ProgHdr)

/-- `loadseg` with `n` pages to go, from page `k` of the segment on. -/
def loadsegLoop (pagetable : Frame) (i sz : Nat) (data : List UInt8) (n k : Nat) : K Bool :=
  match n with
  | 0 => pure true
  | n + 1 => do
    match ← walkaddr pagetable (i + k) with
    | none => panic .loadseg
    | some pa =>
      let m := min (sz - k * PGSIZE) PGSIZE
      let bytes := (data.drop (k * PGSIZE)).take m
      write pa 0 bytes
      if bytes.length = m then loadsegLoop pagetable i sz data n (k + 1) else pure false

/-- The size is a `uint`. -/
def loadseg (pagetable : Frame) (i filesz : Nat) (data : List UInt8) : K Bool :=
  loadsegLoop pagetable i (filesz % 2 ^ 32) data (npages (filesz % 2 ^ 32)) 0

/-- The segments of a program. The result is the size so far, and whether all went well. -/
def loadProgram (pagetable : Frame) (sz : Nat) (phdrs : List (Option ProgHdr)) : K (Nat × Bool) :=
  match phdrs with
  | [] => pure (sz, true)
  | none :: _ => pure (sz, false)
  | some ph :: rest =>
    if ph.load = false then loadProgram pagetable sz rest
    else if ph.memsz < ph.filesz then pure (sz, false)
    else if ph.vaddr + ph.memsz < ph.vaddr then pure (sz, false)
    else if ph.vaddr.toNat % PGSIZE ≠ 0 then pure (sz, false)
    else do
      let sz1 ← uvmalloc pagetable sz (ph.vaddr + ph.memsz).toNat { x := ph.x, w := ph.w }
      if sz1 = 0 then pure (sz, false)
      else if ← loadseg pagetable (ph.vaddr.toNat / PGSIZE) ph.filesz.toNat ph.data then
        loadProgram pagetable sz1 rest
      else pure (sz1, false)

/-- The argument strings go onto the stack. The result is the stack pointer and `ustack`. -/
def pushArgs (pagetable : Frame) (stackbase : Nat) (argv : List (List UInt8)) (sp : Nat) (ustack : List Nat) :
    K (Option (Nat × List Nat)) :=
  match argv with
  | [] => pure (some (sp, ustack))
  | arg :: rest =>
    if MAXARG ≤ ustack.length then pure none
    else
      let sp := sp - (arg.length + 1)
      let sp := sp - sp % 16
      if sp < stackbase then pure none
      else do
        if ← copyout pagetable sp (arg ++ [0]) then pushArgs pagetable stackbase rest sp (ustack ++ [sp])
        else pure none

def word (x : Nat) : List UInt8 := (List.range 8).map fun i => UInt8.ofNat (x / 256 ^ i)

/-- The whole stack of the new program: the strings, and the pointers to them. -/
def pushStack (pagetable : Frame) (sz : Nat) (argv : List (List UInt8)) : K Bool := do
  match ← pushArgs pagetable (sz - PGSIZE) argv sz [] with
  | none => pure false
  | some (sp, ustack) =>
    let sp := sp - (ustack.length + 1) * 8
    let sp := sp - sp % 16
    if sp < sz - PGSIZE then pure false
    else copyout pagetable sp ((ustack ++ [0]).flatMap word)

def exec (file : Option Elf) (argv : List (List UInt8)) : K Unit :=
  match file with
  | none => pure ()
  | some elf =>
    if elf.ok = false then pure ()
    else do
      let trapframe ← deref (← myproc).trapframe
      match ← procPagetable trapframe trampoline with
      | none => pure ()
      | some pagetable =>
        let (sz, ok) ← loadProgram pagetable 0 elf.phdrs
        if ok = false then procFreepagetable pagetable sz
        else
          let p ← myproc
          let sz := npages sz * PGSIZE
          let sz1 ← uvmalloc pagetable sz (sz + 2 * PGSIZE) { w := true }
          if sz1 = 0 then procFreepagetable pagetable sz
          else
            uvmclear pagetable (npages sz1 - 2)
            if ← pushStack pagetable sz1 argv then
              let oldpagetable ← deref p.pagetable
              setMyproc { p with pagetable := some pagetable, sz := sz1 }
              procFreepagetable oldpagetable p.sz
            else procFreepagetable pagetable sz1

/-- What `sys_exec` finds at the next pointer of `uargv`. -/
inductive Arg where
  /-- `fetchaddr` fails. -/
  | badAddr
  /-- `fetchstr` fails. -/
  | badStr
  | str (s : List UInt8)

def kfreeAll (bufs : List Frame) : K Unit :=
  match bufs with
  | [] => pure ()
  | f :: fs => do
    kfree f
    kfreeAll fs

/-- The loop of `sys_exec`: every argument is read into a page of its own. The pages are returned in
either case. -/
def fetchArgs (args : List Arg) (bufs : List Frame) (argv : List (List UInt8)) :
    K (List Frame × Option (List (List UInt8))) :=
  if MAXARG ≤ bufs.length then pure (bufs, none)
  else
    match args with
    | [] => pure (bufs, some argv)
    | .badAddr :: _ => pure (bufs, none)
    | arg :: rest => do
      match ← kalloc with
      | none => pure (bufs, none)
      | some f =>
        match arg with
        | .str s => if s.length < PGSIZE then fetchArgs rest (bufs ++ [f]) (argv ++ [s]) else pure (bufs ++ [f], none)
        | _ => pure (bufs ++ [f], none)

def sysExec (file : Option Elf) (args : List Arg) : K Unit := do
  let (bufs, argv) ← fetchArgs args [] []
  match argv with
  | some argv =>
    exec file argv
    kfreeAll bufs
  | none => kfreeAll bufs

/-! ## Calls -/

/-- `kalloc` by the rest of the kernel (`pipealloc`, `kvmmake`, `virtio_disk_init`). -/
def allocPage : K Unit := do
  match ← kalloc with
  | none => pure ()
  | some f => hold f

/-- `kfree` by the rest of the kernel (`pipeclose`). -/
def freePage (pa : Frame) : K Unit := do
  unhold pa
  kfree pa

/-- The `copyout` of a system call (`read`, `pipe`, `waitx`, `fstat`) into the memory of its process. -/
def sysCopyout (dst : Nat) (src : List UInt8) : K Unit := do
  let pagetable ← deref (← myproc).pagetable
  let _ ← copyout pagetable dst src
  pure ()

/-- What a thread may do next. -/
inductive Call where
  | userinit (initcode : List UInt8)
  | load (va : Nat)
  | store (va : Nat) (x : UInt8)
  | copyout (dst : Nat) (src : List UInt8)
  | sbrk (n : Int)
  | fork
  | exec (file : Option Elf) (args : List Arg)
  | exit (status : BitVec 32)
  | wait (addr : Nat)
  | alarm
  | sigreturn
  | allocPage
  | freePage (pa : Frame)

def Call.code : Call → K Unit
  | .userinit initcode => Vm.userinit initcode
  | .load va => Vm.load va
  | .store va x => Vm.store va x
  | .copyout dst src => sysCopyout dst src
  | .sbrk n => growproc n
  | .fork => Vm.fork
  | .exec file args => sysExec file args
  | .exit status => Vm.exit status
  | .wait addr => Vm.wait addr
  | .alarm => Vm.alarm
  | .sigreturn => Vm.sigreturn
  | .allocPage => Vm.allocPage
  | .freePage pa => Vm.freePage pa

/-- `main` makes the first process, once. The other calls are those of a process that may run, and the
kernel's own pages may also be allocated before there is one. -/
def enabled (s : Kern) (t : Tid) (u : Call) : Bool :=
  match t with
  | some c => (match u with | .userinit _ => false | _ => true) && decide ((s.proc c).state = .runnable)
  | none =>
    match u with
    | .userinit _ => s.initproc.isNone
    | .allocPage | .freePage _ => true
    | _ => false

def vm : System Tid Call Act.Res Kern Panic where
  exec := Kern.exec
  enabled := enabled
  code := Call.code

abbrev State := Pool Tid Act.Res Kern

/-- The kernel after `kinit`, with its image in the pages below `first`. -/
def boot (first : Frame) : State where
  shared := {
    first
    freelist := (List.range' first (PHYSTOP - first)).reverse
    fr := fun _ => 0
    lockKalloc := true
    holder := none
    mem := fun _ _ => 1
    table := fun _ => .empty
    proc := fun _ => {}
    parent := fun _ => none
    initproc := none
    held := [] }
  todo := fun _ => .ret ()

end Xv6Riscv.Vm
