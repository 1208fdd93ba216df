import Xv6Riscv.Lib.RefCount
import Xv6Riscv.Vm.Tables

/-!
# Who owns which page: the rules of the actions

The *view* of a thread says what it may use without asking another one: the pages it owns alone, its
references to shared pages, a page it is taking off the free list or putting back, the lock, the page
tables and the process entries it works on. No line of the kernel computes with a view.

| in the view | in the code |
| --- | --- |
| `pages` | pages with `fr` 1 that this thread alone uses: user pages that are not copy-on-write, page-table pages, trapframe, `alarmContext`, pages just allocated |
| `refs` | one entry for each copy-on-write PTE of its tables |
| `zero` | a page off the free list whose `fr` is 0 |
| `lock` | `memref.lock` is held; which count was read since, and whether `lock_kalloc` is 0 |
| `self`, `child` | `p = myproc()`, and the process that fork, wait or userinit works on |

`rules` says of each action when a thread may perform it and what it has afterwards. The threads hand pages
to each other in four places: `claim` and `zombieChild` take over what a slot owns, and `setRunnable`,
`setUnused` and `unlockProc` give it back.
-/
namespace Xv6Riscv.Vm
open Threads
open Function (update)

/-- Conditions on runs. -/
structure Cond where
  /-- No `copyout` writes a page that several page tables share. -/
  copyout : Bool
  /-- No process exits while it has a saved alarm context. -/
  alarm : Bool
  /-- `kalloc` always finds a page. -/
  memory : Bool

/-- What the holder of `memref.lock` knows. -/
structure Lock where
  /-- `lock_kalloc` is 0. -/
  shut : Bool
  /-- The last count it read. -/
  seen : Option (Frame × Nat)

structure View where
  pages : Multiset Frame
  refs : Multiset Frame
  zero : Multiset Frame
  lock : Option Lock
  table : Frame → Table
  mem : Frame → Page
  self : Option Proc
  child : Option (Slot × Proc)

def opt (o : Option Frame) : Multiset Frame :=
  match o with
  | none => 0
  | some f => {f}

@[simp] theorem opt_none : opt none = 0 := rfl
@[simp] theorem opt_some (f : Frame) : opt (some f) = {f} := rfl

/-- The pages of the process `p`, and its references, where its page table is as the view `v` says. -/
def View.own (v : View) (p : Proc) : Multiset Frame :=
  opt p.trapframe + opt p.alarmContext +
    match p.pagetable with
    | none => 0
    | some root => root ::ₘ (v.table root).own

def View.shared (v : View) (p : Proc) : Multiset Frame :=
  match p.pagetable with
  | none => 0
  | some root => (v.table root).shared

/-- A slot without a process, and a process with its address space. -/
def Blank (p : Proc) : Prop := p.pagetable = none ∧ p.trapframe = none ∧ p.sz = 0

def Bodied (v : View) (p : Proc) : Prop :=
  ∃ root tf, p.pagetable = some root ∧ p.trapframe = some tf ∧
    (v.table root).Shape (npages p.sz) [TRAPFRAME, TRAMPOLINE]

/-- The process `p` is between two calls. `lost` are pages that nothing refers to any more. -/
structure Settled (k : Cond) (v : View) (p : Proc) : Prop where
  body : p.state = .unused ∧ Blank p ∨ (p.state = .runnable ∨ p.state = .zombie) ∧ Bodied v p
  pages : ∃ lost, v.pages = v.own p + lost ∧ (k.alarm = true → lost = 0)
  refs : v.refs = v.shared p
  alarm : k.alarm = true → p.state ≠ .runnable ∨ p.alarmOn = false → p.alarmContext = none

/-- A thread that is in no call. -/
structure Rest (k : Cond) (t : Tid) (v : View) : Prop where
  zero : v.zero = 0
  lock : v.lock = none
  child : v.child = none
  main : t = none → v.self = none
  empty : v.self = none → v.pages = 0 ∧ v.refs = 0
  settled : ∀ p, v.self = some p → Settled k v p

/-- The thread may run: it is `main`, or its process is alive. -/
def Ready (t : Tid) (v : View) : Prop := t = none ∨ ∃ p, v.self = some p ∧ p.state = .runnable

/-- A page has one owner, and no references besides. -/
structure Valid (v : View) : Prop where
  nodup : v.pages.Nodup
  apart : ∀ f ∈ v.pages, f ∉ v.refs
  below : ∀ f ∈ v.pages + v.refs, f < PHYSTOP

/-! ## The moves of a page -/

/-- A page comes into the view, with the contents it happens to have. -/
def View.gain (v : View) (f : Frame) (T : Table) (x : Page) : View :=
  { v with
    pages := f ::ₘ v.pages
    table := update v.table f T
    mem := update v.mem f x }

/-- `memref.fr[fn(f)] = n`, by the holder of the lock. -/
inductive RefStep (f : Frame) (n : Nat) (v : View) : View → Prop
  | share (l : Lock) (m : Nat) : v.lock = some l → l.seen = some (f, m) → f ∈ v.refs → n = m + 1 →
      RefStep f n v { v with refs := f ::ₘ v.refs, lock := some { l with seen := none } }
  | drop (l : Lock) (m : Nat) (rest : Multiset Frame) : v.lock = some l → l.seen = some (f, m) →
      v.refs = f ::ₘ rest → 1 < m → n = m - 1 →
      RefStep f n v { v with refs := rest, lock := some { l with seen := none } }
  | lastPage (l : Lock) (rest : Multiset Frame) : v.lock = some l → v.pages = f ::ₘ rest → n = 0 →
      RefStep f n v { v with pages := rest, zero := f ::ₘ v.zero, lock := some { l with seen := none } }
  | lastRef (l : Lock) (m : Nat) (rest : Multiset Frame) : v.lock = some l → l.seen = some (f, m) →
      v.refs = f ::ₘ rest → m ≤ 1 → n = 0 →
      RefStep f n v { v with refs := rest, zero := f ::ₘ v.zero, lock := some { l with seen := none } }

/-- A page changes hands with a page-table entry: its owner shares it, or the last reference to it
becomes its owner. -/
inductive Recast (v : View) : View → Prop
  | same : Recast v v
  | share (f : Frame) (rest : Multiset Frame) : v.pages = f ::ₘ rest →
      Recast v { v with pages := rest, refs := f ::ₘ v.refs }
  | own (l : Lock) (f : Frame) (rest : Multiset Frame) : v.lock = some l → l.seen = some (f, 1) →
      v.refs = f ::ₘ rest → Recast v { v with pages := f ::ₘ v.pages, refs := rest }

/-- The thread with the view `v` takes over slot `c`, now `p`, and all that its view `w` has. -/
def View.take (v w : View) (c : Slot) (p : Proc) : View :=
  { v with
    pages := v.pages + w.pages
    refs := v.refs + w.refs
    table := fun f => if f ∈ v.pages + v.refs then v.table f else w.table f
    mem := fun f => if f ∈ v.pages + v.refs then v.mem f else w.mem f
    child := some (c, p) }

/-- What is left in the slot's own view meanwhile. -/
def View.taken (w : View) : View := { w with pages := 0, refs := 0, self := none }

/-- What the slot with process `p` has when it is given `P` and `R` out of the view `v`. -/
def View.give (v : View) (P R : Multiset Frame) (p : Proc) : View :=
  { pages := P, refs := R, zero := 0, lock := none, table := v.table, mem := v.mem, self := some p, child := none }

/-- The slot `c` goes from the view `v` back to its own thread. -/
def HandOver (k : Cond) (c : Slot) (v : View) (ok : Proc → Prop) (next : Proc → Proc) (Q : View → Prop) : Prop :=
  v.lock = none ∧ ∃ p P R P' R', v.child = some (c, p) ∧ ok p ∧ v.pages = P + P' ∧ v.refs = R + R' ∧
    Rest k (some c) (v.give P' R' (next p)) ∧ Q { v with pages := P, refs := R, child := none }

/-- A child starts with the user pages of its parent. -/
def Inherits (t : Tid) (v : View) (p : Proc) : Prop :=
  t ≠ none → ∃ q old new, v.self = some q ∧ q.pagetable = some old ∧ old ∈ v.pages ∧
    (v.table old).Shape (npages q.sz) [TRAPFRAME, TRAMPOLINE] ∧ p.pagetable = some new ∧ p.sz = q.sz ∧
    ∀ i < npages q.sz, (v.table new).get i = (v.table old).get i

/-- The panics that a run can reach: a null pointer, and the exit of init. -/
def Panic.reachable : Panic → Bool
  | .kerneltrap | .initExiting => true
  | _ => false

/-! ## The rules -/

def Act.rule (k : Cond) (t : Tid) : (a : Act) → View → (a.Res → View → Prop) → Prop
  | .pop, v, Q => (k.memory = false → t ≠ none → Q none v) ∧
      ∀ f, f ∉ v.pages → f ∉ v.refs → Q (some f) { v with zero := f ::ₘ v.zero }
  | .push pa, v, Q => ∃ z, v.zero = pa ::ₘ z ∧ Q () { v with zero := z }
  | .acquire, v, Q => v.lock = none ∧ Q () { v with lock := some ⟨false, none⟩ }
  | .release, v, Q => v.lock ≠ none ∧ Q () { v with lock := none }
  | .memrefGet pa, v, Q => ∃ l, v.lock = some l ∧ pa ∈ v.pages + v.refs ∧
      ∀ n, 0 < n → (pa ∈ v.pages → n = 1) → Q n { v with lock := some { l with seen := some (pa, n) } }
  | .memrefSet pa fq, v, Q => (∃ v', RefStep pa fq v v' ∧ Q () v') ∨
      ∃ z, v.zero = pa ::ₘ z ∧ fq = 1 ∧ ∀ T x, Q () ({ v with zero := z }.gain pa T x)
  | .lockKalloc, v, Q => ∀ b, (∀ l, v.lock = some l → l.shut = true → b = false) → Q b v
  | .setLockKalloc b, v, Q => ∃ l, v.lock = some l ∧ Q () { v with lock := some { l with shut := !b } }
  | .isFrame pa, v, Q => pa ∈ v.pages + v.refs ∧ Q true v
  | .memset pa c, v, Q => pa ∈ v.zero ∧ Q () v ∨
      pa ∈ v.pages ∧ Q () { v with mem := update v.mem pa fun _ => c }
  | .memmove dst src, v, Q => dst ∈ v.pages ∧ src ∈ v.pages + v.refs ∧
      Q () { v with mem := update v.mem dst (v.mem src) }
  | .read pa _, v, Q => pa ∈ v.pages + v.refs ∧ ∀ x, Q x v
  | .write pa off bytes, v, Q => pa ∈ v.pages ∧
      Q () { v with mem := update v.mem pa (splice (v.mem pa) off bytes) }
  | .copy pa off bytes, v, Q => pa ∈ v.pages + v.refs ∧ ((k.copyout = true → v.refs.count pa ≤ 1) →
      Q () { v with mem := update v.mem pa (splice (v.mem pa) off bytes) })
  | .getTable pt, v, Q => pt ∈ v.pages ∧ Q (v.table pt) v
  | .setTable pt T, v, Q => ∃ v', Recast v v' ∧ pt ∈ v'.pages ∧
      Q () { v' with table := update v'.table pt T }
  | .myproc, v, Q => ∃ p, v.self = some p ∧ Q p v
  | .setMyproc p, v, Q => ∃ q, v.self = some q ∧ p.state = q.state ∧ Q () { v with self := some p }
  | .getProc c, v, Q => ∃ p, v.child = some (c, p) ∧ Q p v
  | .setProc c p, v, Q => ∃ q, v.child = some (c, q) ∧ p.state = q.state ∧ Q () { v with child := some (c, p) }
  | .claim c, v, Q => v.child = none ∧ Q false v ∧
      ∀ w p, Rest k (some c) w → w.self = some p → p.state = .unused → (∀ f ∈ w.pages, f ∉ v.pages + v.refs) →
        Q true (v.take w c { p with state := .used })
  | .setParent c, v, Q => ∃ p, v.child = some (c, p) ∧ p.state = .used ∧ Q () v
  | .setInitproc _, v, Q => Q () v
  | .setRunnable c, v, Q =>
      HandOver k c v (fun p => p.state = .used ∧ Inherits t v p) (fun p => { p with state := .runnable }) (Q ())
  | .isInit, v, Q => ∀ b, Q b v
  | .die status, v, Q => v.child = none ∧ ∃ p, v.self = some p ∧ ((k.alarm = true → p.alarmContext = none) →
      Rest k t { v with self := some { p with state := .zombie, xstate := status } } ∧
      Q () { v with self := some { p with state := .zombie, xstate := status } })
  | .zombieChild c, v, Q => v.child = none ∧ Q false v ∧
      ∀ w p, Rest k (some c) w → w.self = some p → p.state = .zombie → (∀ f ∈ w.pages, f ∉ v.pages + v.refs) →
        Q true (v.take w c p)
  | .unlockProc c, v, Q => HandOver k c v (fun p => p.state = .zombie) id (Q ())
  | .setUnused c, v, Q => HandOver k c v (fun _ => True) (fun p => { p with state := .unused, xstate := 0 }) (Q ())
  | .hold pa, v, Q => v.lock = none ∧ ∃ rest, v.pages = pa ::ₘ rest ∧ Q () { v with pages := rest }
  | .unhold pa, v, Q => pa ∉ v.pages → pa ∉ v.refs → ∀ T x, Q () (v.gain pa T x)
  | .panic m, _, _ => m.reachable = true

theorem HandOver.mono {k : Cond} {c : Slot} {v : View} {ok : Proc → Prop} {next : Proc → Proc} {Q Q' : View → Prop}
    (hQ : ∀ v, Q v → Q' v) (h : HandOver k c v ok next Q) : HandOver k c v ok next Q' := by
  obtain ⟨hl, p, P, R, P', R', hc, hok, hp, hr, hrest, h⟩ := h
  exact ⟨hl, p, P, R, P', R', hc, hok, hp, hr, hrest, hQ _ h⟩

theorem Act.rule_mono {k : Cond} {t : Tid} {a : Act} {v : View} {Q Q' : a.Res → View → Prop}
    (hQ : ∀ r v', Q r v' → Q' r v') (h : a.rule k t v Q) : a.rule k t v Q' := by
  cases a with
  | setRunnable c => exact HandOver.mono (hQ ()) h
  | unlockProc c => exact HandOver.mono (hQ ()) h
  | setUnused c => exact HandOver.mono (hQ ()) h
  | panic m => exact h
  | _ =>
    simp only [Act.rule] at h ⊢
    grind

/-- The rules of the kernel's actions. -/
def rules (k : Cond) : Rules Tid Act.Res View where
  Ready := Ready
  Valid := Valid
  act := fun t a v Q => a.rule k t v Q
  mono := Act.rule_mono

/-- The condition `k` on an action. -/
def actOk (k : Cond) (s : Kern) (t : Tid) : Act → Prop
  | .pop => k.memory = true → s.freelist ≠ []
  | .copy pa _ _ => k.copyout = true → s.fr pa ≤ 1
  | .die _ => k.alarm = true → ∀ c, t = some c → (s.proc c).alarmContext = none
  | _ => True

end Xv6Riscv.Vm
