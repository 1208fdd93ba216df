import Xv6Riscv.Vm.Runs

/-!
# A store without interruption

What a user store does when the other threads stand still: it writes the byte, or it faults and `handleCOW`
(trap.c:32) gives the process a page of its own, or the process is killed. The results here say that the
store ends, which the rules of `Vm/Views.lean` do not: there a thread may wait for `memref.lock` for ever.
-/
namespace Xv6Riscv.Vm
open Threads Machine Function
variable {α β : Type} {s' : Kern} {f : Frame} {l : List Frame}

variable {c : Slot} {s : Kern} {root : Frame} {va : Nat} {x : UInt8} {pte : Pte} {i : Nat}

/-- The program run by the thread of slot `c`, with nobody in between. -/
def solo {α : Type} (c : Slot) (p : K α) (s : Kern) : Outcome Panic (α × Kern) := p.alone Kern.exec (some c) s

theorem solo_pure (y : α) : solo c (pure y) s = .ok (y, s) := rfl

theorem solo_bind {p : K α} {f : α → K β} {y : α} (h : solo c p s = .ok (y, s')) :
    solo c (p >>= f) s = solo c (f y) s' := by
  unfold solo at h ⊢
  rw [Prog.alone_bind, h, Outcome.bind_ok]

theorem solo_act {a : Act} {r : a.Res} (h : s.exec (some c) a = .ok (r, s')) : solo c (act a) s = .ok (r, s') := by
  change (s.exec (some c) a).bind _ = _
  rw [h]
  rfl

theorem solo_bind_halt {p : K α} {f : α → K β} {m : Panic} (h : solo c p s = .halt m) :
    solo c (p >>= f) s = .halt m := by
  unfold solo at h ⊢
  rw [Prog.alone_bind, h]
  rfl

theorem solo_step {a : Act} {f : a.Res → K β} {r : a.Res} (h : s.exec (some c) a = .ok (r, s')) :
    solo c (act a >>= f) s = solo c (f r) s' := solo_bind (solo_act h)

/-! ## The page table -/

theorem solo_walk (hi : i < MAXPG) (hr : reaches (s.table root).dirs i = true) (alloc : Bool) :
    solo c (walk root i alloc) s = .ok (some ((s.table root).get i), s) := by
  have hdir : ((s.table root).dirs.lookup (px 2 i)).isSome = true := by
    unfold reaches at hr
    cases hd : (s.table root).dirs.lookup (px 2 i) with
    | none =>
      rw [hd] at hr
      cases hr
    | some d => rfl
  have h1 : solo c (walkDir root i alloc) s = .ok (true, s) := by
    refine (solo_step rfl).trans ?_
    rw [if_pos hdir]
    rfl
  have h2 : solo c (walkSub root i alloc) s = .ok (true, s) := by
    refine (solo_step rfl).trans ?_
    rw [if_pos hr]
    rfl
  unfold walk
  rw [if_neg (Nat.not_le.2 hi)]
  refine (solo_bind h1).trans ?_
  refine (solo_bind h2).trans ?_
  refine (solo_step rfl).trans ?_
  simp only [Table.slot, hr, if_true]
  rfl

theorem solo_setPte (pte : Pte) :
    solo c (setPte root i pte) s =
      .ok ((), { s with table := update s.table root ((s.table root).setPte i pte) }) :=
  (solo_step rfl).trans (solo_act rfl)

theorem solo_clearPte :
    solo c (clearPte root i) s =
      .ok ((), { s with table := update s.table root ((s.table root).clearPte i) }) :=
  (solo_step rfl).trans (solo_act rfl)

/-! ## `handleCOW` -/

theorem solo_handleCOW_refuses (hlt : va / PGSIZE < MAXPG) (hget : (s.table root).get (va / PGSIZE) = some pte)
    (hno : va / PGSIZE = 0 ∨ pte.perm.cow = false ∨ pte.perm.u = false) :
    solo c (handleCOW root va) s = .ok (false, s) := by
  have hva : ¬ MAXVA ≤ va := by
    intro hle
    exact absurd (Nat.div_le_div_right hle) (Nat.not_le.2 hlt)
  have hw := solo_walk (c := c) hlt (Table.reaches_of_get hget) false
  unfold handleCOW
  rw [if_neg hva]
  refine (solo_bind hw).trans ?_
  simp only [hget]
  rw [if_pos hno]
  rfl

theorem solo_memrefLock (hh : s.holder = none) : solo c memrefLock s = .ok ((), { s with holder := some (some c) }) :=
  solo_act (by simp [Kern.exec, hh])

theorem solo_memrefUnlock (hh : s.holder = some (some c)) :
    solo c memrefUnlock s = .ok ((), { s with holder := none }) :=
  solo_act (by simp [Kern.exec, hh])

theorem solo_setLockKalloc (b : Bool) :
    solo c (setLockKalloc b) s = .ok ((), { s with lockKalloc := b }) := solo_act rfl

theorem solo_memrefGet (pa : Frame) : solo c (memrefGet pa) s = .ok (s.fr pa, s) := solo_act rfl

theorem solo_memrefSet (pa : Frame) (n : Nat) :
    solo c (memrefSet pa n) s = .ok ((), { s with fr := update s.fr pa n }) := solo_act rfl

theorem solo_memmove (dst src : Frame) :
    solo c (memmove dst src) s = .ok ((), { s with mem := update s.mem dst (s.mem src) }) := solo_act rfl

/-- `kalloc` while `handleCOW` has `memref.lock`. -/
theorem solo_kalloc (hf : s.freelist = f :: l) (hk : s.lockKalloc = false) :
    solo c kalloc s = .ok (some f, { s with
      freelist := l
      fr := update s.fr f 1
      mem := update s.mem f fun _ => 5 }) := by
  have hpop : s.exec (some c) .pop = .ok (some f, { s with freelist := l }) := by simp only [Kern.exec, hf]
  refine (solo_step hpop).trans ?_
  refine (solo_step rfl).trans ?_
  simp only [hk]
  refine (solo_step rfl).trans ?_
  exact solo_step rfl

theorem solo_uvmunmap (hlt : i < MAXPG) (hget : (s.table root).get i = some pte) (hp : pte.perm ≠ {}) :
    solo c (uvmunmap root i 1 false) s =
      .ok ((), { s with table := update s.table root ((s.table root).clearPte i) }) := by
  refine (solo_bind (solo_walk hlt (Table.reaches_of_get hget) false)).trans ?_
  simp only [hget]
  rw [if_neg hp]
  refine (solo_bind (solo_pure ())).trans ?_
  exact solo_bind solo_clearPte

theorem solo_mappages (hlt : i < MAXPG) (hr : reaches (s.table root).dirs i = true)
    (hnone : (s.table root).get i = none) (pa : Frame) (perm : Perm) :
    solo c (mappages root i pa perm) s =
      .ok (true, { s with table := update s.table root ((s.table root).setPte i ⟨pa, perm⟩) }) := by
  refine (solo_bind (solo_walk hlt hr true)).trans ?_
  simp only [hnone]
  exact solo_bind (solo_setPte _)

/-- The page of the last reference stays. -/
def cowLast (s : Kern) (root : Frame) (i : Nat) (pte : Pte) : Kern :=
  { s with
    table := update s.table root ((s.table root).setPte i ⟨pte.pa, pte.perm.unshare⟩)
    lockKalloc := true }

/-- The page `f`, the first on the free list, takes the place of the shared one. -/
def cowCopied (s : Kern) (root : Frame) (i : Nat) (pte : Pte) (f : Frame) (l : List Frame) : Kern :=
  { s with
    freelist := l
    fr := update (update s.fr f 1) pte.pa (s.fr pte.pa - 1)
    mem := update (update s.mem f fun _ => 5) f (update s.mem f (fun _ => 5) pte.pa)
    table := update s.table root (((s.table root).clearPte i).setPte i ⟨f, pte.perm.unshare⟩)
    lockKalloc := true }

theorem solo_kalloc_none (hf : s.freelist = []) : solo c kalloc s = .ok (none, s) := by
  have hpop : s.exec (some c) .pop = .ok (none, s) := by simp [Kern.exec, hf]
  exact solo_step hpop

theorem solo_cowCopy (hlt : i < MAXPG) (hget : (s.table root).get i = some pte)
    (hu : pte.perm.u = true) (hh : s.holder = some (some c)) (hk : s.lockKalloc = false) (hf : s.freelist = f :: l)
    (fq : Nat) : solo c (kalloc >>= cowCopy root i pte fq) s = .ok (true, { s with
          holder := none
          freelist := l
          fr := update (update s.fr f 1) pte.pa (fq - 1)
          mem := update (update s.mem f fun _ => 5) f (update s.mem f (fun _ => 5) pte.pa)
          table := update s.table root (((s.table root).clearPte i).setPte i ⟨f, pte.perm.unshare⟩)
          lockKalloc := true }) := by
  have hreach := Table.reaches_of_get hget
  have hperm : pte.perm ≠ {} := by
    intro he
    rw [he] at hu
    cases hu
  rw [solo_bind (solo_kalloc hf hk)]
  unfold cowCopy
  rw [solo_bind (solo_memmove f pte.pa), solo_bind (solo_uvmunmap hlt ?mapped hperm)]
  case mapped => exact hget
  have hclear : reaches ((s.table root).clearPte i).dirs i = true := hreach
  have hnone : ((s.table root).clearPte i).get i = none := by rw [Table.get_clearPte, if_pos rfl]
  rw [solo_bind (solo_mappages hlt ?hung ?cleared f _), cowMapped, if_pos rfl, solo_bind (solo_memrefSet _ _),
    solo_bind (solo_setLockKalloc true), solo_bind (solo_memrefUnlock ?mine), solo_pure]
  case hung => simpa using hclear
  case cleared => simpa using hnone
  case mine => exact hh
  simp only [update_self, update_idem]

/-- `handleCOW` of a copy-on-write page up to the reference count, if nobody has the lock. -/
theorem solo_handleCOW_cow (hlt : va / PGSIZE < MAXPG) (hget : (s.table root).get (va / PGSIZE) = some pte)
    (hne : va / PGSIZE ≠ 0) (hcow : pte.perm.cow = true) (hu : pte.perm.u = true) (hh : s.holder = none) :
    solo c (handleCOW root va) s = solo c (
      if s.fr pte.pa = 1 then do
        setPte root (va / PGSIZE) ⟨pte.pa, pte.perm.unshare⟩
        setLockKalloc true
        memrefUnlock
        pure true
      else kalloc >>= cowCopy root (va / PGSIZE) pte (s.fr pte.pa))
        { s with holder := some (some c), lockKalloc := false } := by
  have hva : ¬ MAXVA ≤ va := by
    intro hle
    exact absurd (Nat.div_le_div_right hle) (Nat.not_le.2 hlt)
  have hcond : ¬ (va / PGSIZE = 0 ∨ pte.perm.cow = false ∨ pte.perm.u = false) := by simp [hne, hcow, hu]
  unfold handleCOW
  rw [if_neg hva, solo_bind (solo_walk hlt (Table.reaches_of_get hget) false)]
  simp only [hget]
  rw [if_neg hcond, solo_bind (solo_memrefLock hh), solo_bind (solo_setLockKalloc false),
    solo_bind (solo_memrefGet pte.pa)]

section
variable (hlt : va / PGSIZE < MAXPG) (hget : (s.table root).get (va / PGSIZE) = some pte) (hne : va / PGSIZE ≠ 0)
  (hcow : pte.perm.cow = true) (hu : pte.perm.u = true) (hh : s.holder = none)
include hlt hget hne hcow hu hh

theorem solo_handleCOW_last (hfq : s.fr pte.pa = 1) :
    solo c (handleCOW root va) s = .ok (true, cowLast s root (va / PGSIZE) pte) := by
  rw [solo_handleCOW_cow hlt hget hne hcow hu hh, if_pos hfq, solo_bind (solo_setPte _),
    solo_bind (solo_setLockKalloc true), solo_bind (solo_memrefUnlock rfl), solo_pure, cowLast, hh]

theorem solo_handleCOW_copied (hfq : s.fr pte.pa ≠ 1) (hf : s.freelist = f :: l) :
    solo c (handleCOW root va) s = .ok (true, cowCopied s root (va / PGSIZE) pte f l) := by
  rw [solo_handleCOW_cow hlt hget hne hcow hu hh, if_neg hfq, cowCopied, hh]
  exact solo_cowCopy (s := { s with holder := some (some c), lockKalloc := false }) hlt hget hu rfl rfl hf _

/-- Without a free page the fault fails, and `lock_kalloc` is left at 0. -/
theorem solo_handleCOW_full (hfq : s.fr pte.pa ≠ 1) (hf : s.freelist = []) :
    solo c (handleCOW root va) s = .ok (false, { s with lockKalloc := false }) := by
  rw [solo_handleCOW_cow hlt hget hne hcow hu hh, if_neg hfq, solo_bind (solo_kalloc_none ?empty)]
  case empty => exact hf
  rw [cowCopy, solo_bind (solo_memrefUnlock rfl), solo_pure, hh]

/-- **A fault on a copy-on-write page ends with a page of its own**, if nobody has the lock and a page is free. -/
theorem solo_handleCOW (hfree : s.freelist ≠ []) :
    ∃ s' pa, solo c (handleCOW root va) s = .ok (true, s') ∧ s'.proc = s.proc ∧
      (s'.table root).get (va / PGSIZE) = some ⟨pa, pte.perm.unshare⟩ := by
  have hreach := Table.reaches_of_get hget
  by_cases hfq : s.fr pte.pa = 1
  · refine ⟨_, pte.pa, solo_handleCOW_last hlt hget hne hcow hu hh hfq, rfl, ?_⟩
    simp only [cowLast, update_self]
    rw [Table.get_setPte hreach, if_pos rfl]
  · obtain ⟨f, l, hf⟩ := List.exists_cons_of_ne_nil hfree
    refine ⟨_, f, solo_handleCOW_copied hlt hget hne hcow hu hh hfq hf, rfl, ?_⟩
    have hreach' : reaches ((s.table root).clearPte (va / PGSIZE)).dirs (va / PGSIZE) = true := hreach
    simp only [cowCopied, update_self]
    rw [Table.get_setPte hreach', if_pos rfl]

end

/-! ## `store` -/

theorem solo_translate (hlt : i < MAXPG) : solo c (translate root i) s = .ok ((s.table root).get i, s) := by
  refine (solo_step rfl).trans ?_
  rw [if_neg (Nat.not_le.2 hlt)]
  rfl

theorem solo_store_look (hpt : (s.proc c).pagetable = some root) (hlt : va / PGSIZE < MAXPG) :
    solo c (store va x) s = solo c
      (match (s.table root).get (va / PGSIZE) with
        | some pte =>
          if pte.perm.w = true ∧ pte.perm.u = true then write pte.pa (va % PGSIZE) [x]
          else handleCOW root va >>= fun ok => if ok then pure () else exit (-1)
        | none => handleCOW root va >>= fun ok => if ok then pure () else exit (-1)) s := by
  have hmy : solo c myproc s = .ok (s.proc c, s) := solo_act rfl
  have hde : solo c (deref (s.proc c).pagetable) s = .ok (root, s) := by
    rw [hpt]
    rfl
  refine (solo_bind hmy).trans ((solo_bind hde).trans ((solo_bind (solo_translate hlt)).trans ?_))
  cases (s.table root).get (va / PGSIZE) <;> rfl

section
variable (hpt : (s.proc c).pagetable = some root) (hlt : va / PGSIZE < MAXPG)
  (hget : (s.table root).get (va / PGSIZE) = some pte)
include hpt hlt hget

theorem solo_store : solo c (store va x) s = solo c
      (if pte.perm.w = true ∧ pte.perm.u = true then write pte.pa (va % PGSIZE) [x]
        else handleCOW root va >>= fun ok => if ok then pure () else exit (-1)) s := by
  rw [solo_store_look hpt hlt, hget]

theorem solo_store_write (hw : pte.perm.w = true) (hu : pte.perm.u = true) : solo c (store va x) s =
      .ok ((), { s with mem := update s.mem pte.pa (splice (s.mem pte.pa) (va % PGSIZE) [x]) }) := by
  rw [solo_store hpt hlt hget, if_pos ⟨hw, hu⟩]
  exact solo_act rfl

theorem solo_store_fault (hw : pte.perm.w = false) (hne : va / PGSIZE ≠ 0)
    (hcow : pte.perm.cow = true) (hu : pte.perm.u = true) (hh : s.holder = none) (hfree : s.freelist ≠ []) :
    ∃ s' pa, solo c (store va x) s = .ok ((), s') ∧ s'.proc = s.proc ∧
      (s'.table root).get (va / PGSIZE) = some ⟨pa, pte.perm.unshare⟩ := by
  obtain ⟨s', pa, hcw, hproc, hget'⟩ := solo_handleCOW hlt hget hne hcow hu hh hfree
  refine ⟨s', pa, ?_, hproc, hget'⟩
  rw [solo_store hpt hlt hget, if_neg (by simp [hw]), solo_bind hcw]
  rfl

/-- The process is killed, unless it is init: then the kernel panics. -/
theorem solo_store_killed (hw : ¬ (pte.perm.w = true ∧ pte.perm.u = true))
    (hno : va / PGSIZE = 0 ∨ pte.perm.cow = false ∨ pte.perm.u = false) (hinit : s.initproc ≠ some c) :
    ∃ s', solo c (store va x) s = .ok ((), s') ∧
      s'.proc = update s.proc c { s.proc c with state := .zombie, xstate := -1 } ∧ s'.table = s.table := by
  have hii : solo c isInit s = .ok (false, s) := solo_act (by simp [Kern.exec, hinit])
  obtain ⟨σ, hσ, hproc, htable⟩ : ∃ σ, s.exec (some c) (.die (-1)) = .ok ((), σ) ∧
      σ.proc = update s.proc c { s.proc c with state := .zombie, xstate := -1 } ∧ σ.table = s.table :=
    ⟨_, rfl, rfl, rfl⟩
  refine ⟨σ, ?_, hproc, htable⟩
  rw [solo_store hpt hlt hget, if_neg hw, solo_bind (solo_handleCOW_refuses hlt hget hno)]
  change solo c (isInit >>= _) s = _
  rw [solo_bind hii]
  exact solo_act hσ

end

/-! ## As a run of the kernel -/

theorem run_call {t : State} {u : Call} {σ : Kern} (hidle : t.idle (some c)) (hen : enabled t.shared (some c) u = true)
    (h : solo c u.code t.shared = .ok ((), σ)) :
    ∃ n, run vm.step t (callEvents (some c) u n) = .ok { t with shared := σ } := by
  have hstart : vm.step t (.start (some c) u) = .ok { t with todo := update t.todo (some c) u.code } :=
    System.start_eq_ok.2 ⟨hidle, hen, rfl⟩
  have hto : update t.todo (some c) u.code (some c) = u.code := update_self ..
  obtain ⟨n, hn⟩ := vm.run_alone (s := { t with todo := update t.todo (some c) u.code }) u.code hto h
  refine ⟨n, ?_⟩
  rw [callEvents, run, hstart, Outcome.bind_ok, hn, update_idem]
  rw [show (Prog.ret () : K Unit) = t.todo (some c) from hidle.symm, update_eq_self]

end Xv6Riscv.Vm
