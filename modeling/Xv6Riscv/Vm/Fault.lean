import Xv6Riscv.Vm.Solo

/-!
# Store faults: which addresses `handleCOW` can take, and what it leaves behind

`handleCOW` (trap.c:32) reads `*pte` (trap.c:43) before it tests `pte == 0` (trap.c:46). `walk` returns 0 where a
page-table page on the way is missing, and any user program can store to such an address: the kernel then reads
through the null pointer and panics (`store_crashes_kernel`). Where the pages are there, or the address is beyond
`MAXVA`, the checks do what they are for (`handleCOW_safe_iff`).

Under `memref.lock` the fault has `lock_kalloc` cleared. Its exit for a failed `kalloc` (trap.c:59) gives the lock back
and forgets the flag: later calls of `kalloc` write reference counts without the lock (`full_memory_leaves_flag`).
-/
namespace Xv6Riscv.Vm
open Threads Machine Function

variable {c : Slot} {s s' : Kern} {root : Frame} {va i : Nat} {pte : Pte}

/-- The address is on a valid user page that is copy-on-write. -/
structure CowPage (s : Kern) (root : Frame) (va : Nat) (pte : Pte) : Prop where
  range : va < MAXVA
  mapped : (s.table root).get (va / PGSIZE) = some pte
  user : pte.perm.u = true
  cow : pte.perm.cow = true

theorem page_lt (h : va < MAXVA) : va / PGSIZE < MAXPG := Nat.div_lt_div_of_lt_of_dvd (by decide) h

theorem CowPage.unique {q : Pte} (h : CowPage s root va pte) (h' : CowPage s root va q) : q = pte :=
  Option.some.inj (h'.mapped.symm.trans h.mapped)

/-! ## The checks -/

theorem solo_handleCOW_range (h : ¬ va < MAXVA) : solo c (handleCOW root va) s = .ok (false, s) := by
  unfold handleCOW
  rw [if_pos (Nat.not_lt.1 h)]
  rfl

theorem solo_walk_none (hi : i < MAXPG) (hr : reaches (s.table root).dirs i = false) :
    solo c (walk root i false) s = .ok (none, s) := by
  unfold walk
  rw [if_neg (Nat.not_le.2 hi)]
  cases hdir : ((s.table root).dirs.lookup (px 2 i)).isSome with
  | false =>
    have h1 : solo c (walkDir root i false) s = .ok (false, s) := by
      refine (solo_step rfl).trans ?_
      simp only [hdir]
      rfl
    rw [solo_bind h1]
    rfl
  | true =>
    have h1 : solo c (walkDir root i false) s = .ok (true, s) := by
      refine (solo_step rfl).trans ?_
      simp only [hdir]
      rfl
    have h2 : solo c (walkSub root i false) s = .ok (false, s) := by
      refine (solo_step rfl).trans ?_
      simp only [hr]
      rfl
    rw [solo_bind h1]
    simp only [if_true]
    rw [solo_bind h2]
    rfl

theorem solo_handleCOW_null (hva : va < MAXVA) (hr : reaches (s.table root).dirs (va / PGSIZE) = false) :
    solo c (handleCOW root va) s = .halt .kerneltrap := by
  unfold handleCOW
  rw [if_neg (Nat.not_le.2 hva), solo_bind (solo_walk_none (page_lt hva) hr)]
  rfl

/-- So a user store to such an address stops the kernel. -/
theorem solo_store_null {x : UInt8} (hpt : (s.proc c).pagetable = some root) (hva : va < MAXVA)
    (hr : reaches (s.table root).dirs (va / PGSIZE) = false) : solo c (store va x) s = .halt .kerneltrap := by
  have hget : (s.table root).get (va / PGSIZE) = none := by
    cases hg : (s.table root).get (va / PGSIZE) with
    | none => rfl
    | some pte =>
      rw [Table.reaches_of_get hg] at hr
      cases hr
  rw [solo_store_look hpt (page_lt hva), hget]
  exact solo_bind_halt (solo_handleCOW_null hva hr)

theorem solo_handleCOW_other (hva : va < MAXVA) (hr : reaches (s.table root).dirs (va / PGSIZE) = true)
    (hno : ∀ pte, CowPage s root va pte → va / PGSIZE = 0) : solo c (handleCOW root va) s = .ok (false, s) := by
  have hlt := page_lt hva
  cases hget : (s.table root).get (va / PGSIZE) with
  | none =>
    unfold handleCOW
    rw [if_neg (Nat.not_le.2 hva), solo_bind (solo_walk hlt hr false), hget]
    rfl
  | some pte =>
    refine solo_handleCOW_refuses hlt hget ?_
    by_contra hcond
    simp only [not_or, Bool.not_eq_false] at hcond
    exact hcond.1 (hno pte ⟨hva, hget, hcond.2.2, hcond.2.1⟩)

/-- How a fault on a copy-on-write page ends, if nobody has the lock. -/
inductive Served (s : Kern) (root : Frame) (i : Nat) (pte : Pte) : Bool → Kern → Prop
  | last (count : s.fr pte.pa = 1) : Served s root i pte true (cowLast s root i pte)
  | copied (count : s.fr pte.pa ≠ 1) (f : Frame) (l : List Frame) (free : s.freelist = f :: l) :
      Served s root i pte true (cowCopied s root i pte f l)
  | full (count : s.fr pte.pa ≠ 1) (free : s.freelist = []) : Served s root i pte false { s with lockKalloc := false }

theorem CowPage.served (h : CowPage s root va pte) (hne : va / PGSIZE ≠ 0) (hh : s.holder = none) :
    ∃ ok s', solo c (handleCOW root va) s = .ok (ok, s') ∧ Served s root (va / PGSIZE) pte ok s' := by
  have hlt := page_lt h.range
  by_cases hfq : s.fr pte.pa = 1
  · exact ⟨_, _, solo_handleCOW_last hlt h.mapped hne h.cow h.user hh hfq, .last hfq⟩
  · cases hf : s.freelist with
    | nil => exact ⟨_, _, solo_handleCOW_full hlt h.mapped hne h.cow h.user hh hfq hf, .full hfq hf⟩
    | cons f l => exact ⟨_, _, solo_handleCOW_copied hlt h.mapped hne h.cow h.user hh hfq hf, .copied hfq f l hf⟩

/-- With the lock taken, a fault on a copy-on-write page waits; the holder itself would panic. -/
theorem CowPage.waits {u : Tid} (h : CowPage s root va pte) (hne : va / PGSIZE ≠ 0) (hh : s.holder = some u) :
    solo c (handleCOW root va) s = if u = some c then .halt .acquire else .stuck := by
  have hcond : ¬ (va / PGSIZE = 0 ∨ pte.perm.cow = false ∨ pte.perm.u = false) := by simp [hne, h.cow, h.user]
  have hlock : s.exec (some c) .acquire = if u = some c then .halt .acquire else .stuck := by
    simp only [Kern.exec, hh]
  unfold handleCOW
  rw [if_neg (Nat.not_le.2 h.range), solo_bind (solo_walk (page_lt h.range) (Table.reaches_of_get h.mapped) false)]
  simp only [h.mapped]
  rw [if_neg hcond]
  change (s.exec (some c) .acquire).bind _ = _
  rw [hlock]
  split <;> rfl

/-- **Every way through `handleCOW`.** -/
theorem handleCOW_cases (c : Slot) (s : Kern) (root : Frame) (va : Nat) :
    (va < MAXVA ∧ reaches (s.table root).dirs (va / PGSIZE) = false ∧
      solo c (handleCOW root va) s = .halt .kerneltrap) ∨
    ((∀ pte, CowPage s root va pte → va / PGSIZE = 0) ∧
    (va < MAXVA → reaches (s.table root).dirs (va / PGSIZE) = true) ∧
      solo c (handleCOW root va) s = .ok (false, s)) ∨
    ∃ pte, CowPage s root va pte ∧ va / PGSIZE ≠ 0 ∧
      ((∃ u, s.holder = some u ∧ solo c (handleCOW root va) s = if u = some c then .halt .acquire else .stuck) ∨
        s.holder = none ∧ ∃ ok s', solo c (handleCOW root va) s = .ok (ok, s') ∧
          Served s root (va / PGSIZE) pte ok s') := by
  by_cases hva : va < MAXVA
  · cases hr : reaches (s.table root).dirs (va / PGSIZE) with
    | false => exact .inl ⟨hva, rfl, solo_handleCOW_null hva hr⟩
    | true =>
      by_cases hcow : ∃ pte, CowPage s root va pte ∧ va / PGSIZE ≠ 0
      · obtain ⟨pte, hpte, hne⟩ := hcow
        refine .inr (.inr ⟨pte, hpte, hne, ?_⟩)
        cases hh : s.holder with
        | none => exact .inr ⟨rfl, hpte.served hne hh⟩
        | some u => exact .inl ⟨u, rfl, hpte.waits hne hh⟩
      · have hno : ∀ pte, CowPage s root va pte → va / PGSIZE = 0 := fun pte hpte =>
          Classical.not_not.1 fun hne => hcow ⟨pte, hpte, hne⟩
        exact .inr (.inl ⟨hno, fun _ => rfl, solo_handleCOW_other hva hr hno⟩)
  · exact .inr (.inl ⟨fun pte hpte => absurd hpte.range hva, fun h => absurd h hva, solo_handleCOW_range hva⟩)

/-! ## Every address -/

/-- `handleCOW` is safe at `va`: it uses no null pointer and returns when the lock is free, it refuses what is not a
copy-on-write page and changes nothing then, and it serves nothing else. -/
structure Safe (c : Slot) (s : Kern) (root : Frame) (va : Nat) : Prop where
  nonnull : solo c (handleCOW root va) s ≠ .halt .kerneltrap
  returns : s.holder = none → ∃ ok s', solo c (handleCOW root va) s = .ok (ok, s')
  refuses : (¬ ∃ pte, CowPage s root va pte) → solo c (handleCOW root va) s = .ok (false, s)
  serves : ∀ s', solo c (handleCOW root va) s = .ok (true, s') → ∃ pte, CowPage s root va pte

/-- **`handleCOW` is safe at an address if and only if it is beyond `MAXVA` or the page-table pages on its path are
there.** -/
theorem handleCOW_safe_iff (c : Slot) (s : Kern) (root : Frame) (va : Nat) :
    Safe c s root va ↔ (va < MAXVA → reaches (s.table root).dirs (va / PGSIZE) = true) := by
  rcases handleCOW_cases c s root va with ⟨hva, hr, hs⟩ | ⟨-, hr, hs⟩ | ⟨pte, hpte, -, hend⟩
  · constructor
    · intro h
      exact absurd hs h.nonnull
    · intro h
      rw [h hva] at hr
      cases hr
  · refine ⟨fun _ => hr, fun _ => ⟨?_, fun _ => ⟨_, _, hs⟩, fun _ => hs, fun s' hs' => ?_⟩⟩
    · rw [hs]
      nofun
    · rw [hs] at hs'
      cases hs'
  · refine ⟨fun _ _ => Table.reaches_of_get hpte.mapped, fun _ => ⟨?_, fun hh => ?_, fun hno => absurd ⟨pte, hpte⟩ hno,
      fun _ _ => ⟨pte, hpte⟩⟩⟩
    · rcases hend with ⟨u, -, hs⟩ | ⟨-, ok, s', hs, -⟩
      · rw [hs]
        split <;> nofun
      · rw [hs]
        nofun
    · rcases hend with ⟨u, hu, -⟩ | ⟨-, ok, s', hs, -⟩
      · rw [hh] at hu
        cases hu
      · exact ⟨ok, s', hs⟩

/-- **A user store can stop the kernel.** The first process stores at 1 GiB, where its page table has no level-1
page. -/
theorem store_crashes_kernel :
    ∃ s root, Reach vm.step (· = boot (PHYSTOP - 24)) (fun _ _ => True) s ∧
      (s.shared.proc initSlot).pagetable = some root ∧
      s.idle (some initSlot) ∧ enabled s.shared (some initSlot) (.store (2 ^ 30) 0) = true ∧
      solo initSlot (store (2 ^ 30) 0) s.shared = .halt .kerneltrap ∧ ¬ Safe initSlot s.shared root (2 ^ 30) := by
  have hrun : (run vm.step (boot (PHYSTOP - 24)) startRun).isOk = true := by decide +kernel
  have hroot : ((after vm.step (boot (PHYSTOP - 24)) startRun).shared.proc initSlot).pagetable =
      some (PHYSTOP - 2) := by decide +kernel
  have hpath : reaches ((after vm.step (boot (PHYSTOP - 24)) startRun).shared.table (PHYSTOP - 2)).dirs
      (2 ^ 30 / PGSIZE)
      = false := by decide +kernel
  have hcow : solo initSlot (handleCOW _ (2 ^ 30)) _ = _ := solo_handleCOW_null (by decide) hpath
  refine ⟨after vm.step (boot (PHYSTOP - 24)) startRun, PHYSTOP - 2, .of_run (fun _ _ => trivial) startRun (.init rfl)
    (run_eq_after _ hrun), hroot, idle_of_isRet (by decide +kernel), by decide +kernel, ?_, fun h => h.nonnull hcow⟩
  exact solo_store_null hroot (by decide) hpath

/-! ## What a fault leaves behind -/

/-- A fault on page `i`, with the entry `pte`, has changed this entry, at most one free page and the counts of the two
pages. -/
structure Confined (s : Kern) (root : Frame) (i : Nat) (pte : Pte) (s' : Kern) : Prop where
  flag : s'.lockKalloc = true
  unlocked : s'.holder = none
  tables : ∀ f, f ≠ root → s'.table f = s.table f
  dirs : (s'.table root).dirs = (s.table root).dirs
  entries : ∀ j, j ≠ i → (s'.table root).get j = (s.table root).get j
  pages : s'.freelist = s.freelist ∧ s'.fr = s.fr ∧ s'.mem = s.mem ∨
    ∃ f, s.freelist = f :: s'.freelist ∧ (∀ g, g ≠ f → s'.mem g = s.mem g) ∧ ∀ g, g ≠ f → g ≠ pte.pa → s'.fr g = s.fr g
  procs : s'.proc = s.proc ∧ s'.parent = s.parent ∧ s'.initproc = s.initproc ∧ s'.held = s.held ∧ s'.first = s.first

theorem CowPage.confined {ok : Bool} (h : CowPage s root va pte) (hh : s.holder = none)
    (hs : Served s root (va / PGSIZE) pte ok s') (hok : ok = true) : Confined s root (va / PGSIZE) pte s' := by
  have hr := Table.reaches_of_get h.mapped
  cases hs with
  | last _ =>
    refine ⟨rfl, hh, fun f hf => update_of_ne hf _ _, ?_, fun j hj => ?_, .inl ⟨rfl, rfl, rfl⟩, rfl, rfl,
      rfl, rfl, rfl⟩
    · simp only [cowLast, update_self, Table.dirs_setPte]
    · simp only [cowLast, update_self]
      rw [Table.get_setPte hr, if_neg hj]
  | copied _ f l hf =>
    have hr' : reaches ((s.table root).clearPte (va / PGSIZE)).dirs (va / PGSIZE) = true := hr
    refine ⟨rfl, hh, fun g hg => update_of_ne hg _ _, ?_, fun j hj => ?_,
      .inr ⟨f, hf, fun g hg => ?_, fun g hg hpa => ?_⟩, rfl, rfl, rfl, rfl, rfl⟩
    · simp only [cowCopied, update_self, Table.dirs_setPte]
      rfl
    · simp only [cowCopied, update_self]
      rw [Table.get_setPte hr', if_neg hj, Table.get_clearPte, if_neg hj]
    · simp only [cowCopied, update_of_ne hg]
    · simp only [cowCopied, update_of_ne hpa, update_of_ne hg]
  | full _ _ => cases hok

/-- The fault leaves no trace when it fails, and changes no more than it has to when it succeeds. -/
structure Traceless (c : Slot) (s : Kern) (root : Frame) (va : Nat) : Prop where
  failed : ∀ s', solo c (handleCOW root va) s = .ok (false, s') → s' = s
  served : ∀ s', solo c (handleCOW root va) s = .ok (true, s') →
    ∃ pte, CowPage s root va pte ∧ Confined s root (va / PGSIZE) pte s'

/-- The page has to be copied. -/
def NeedsCopy (s : Kern) (root : Frame) (va : Nat) : Prop :=
  ∃ pte, CowPage s root va pte ∧ va / PGSIZE ≠ 0 ∧ s.fr pte.pa ≠ 1

/-- **A fault that gets `memref.lock` leaves no trace unless it finds memory full**: the one bad case is a page that has
to be copied, no free page, and `lock_kalloc` at 1. -/
theorem handleCOW_traceless_iff (c : Slot) {s : Kern} (root : Frame) (va : Nat) (hh : s.holder = none) :
    Traceless c s root va ↔ ¬ (NeedsCopy s root va ∧ s.freelist = [] ∧ s.lockKalloc = true) := by
  rcases handleCOW_cases c s root va with ⟨-, hr, hs⟩ | ⟨hno, -, hs⟩ | ⟨pte, hpte, hne,
    ⟨u, hu, -⟩ | ⟨-, ok, s', hs, hserved⟩⟩
  · refine ⟨fun _ h => ?_, fun _ => ⟨?_, ?_⟩⟩
    · obtain ⟨⟨pte, hpte, -⟩, -⟩ := h
      rw [Table.reaches_of_get hpte.mapped] at hr
      cases hr
    all_goals
      rw [hs]
      nofun
  · refine ⟨fun _ h => ?_, fun _ => ⟨fun s' hs' => ?_, ?_⟩⟩
    · obtain ⟨⟨pte, hpte, hne, -⟩, -⟩ := h
      exact hne (hno pte hpte)
    · rw [hs] at hs'
      cases hs'
      rfl
    · rw [hs]
      nofun
  · rw [hh] at hu
    cases hu
  · constructor
    · rintro h ⟨⟨q, hq, -, hfq⟩, hf, hk⟩
      rw [hpte.unique hq] at hfq
      cases hserved with
      | last count => exact hfq count
      | copied _ f l free =>
        rw [hf] at free
        cases free
      | full _ _ =>
        -- the failing exit leaves the flag at 0
        have := congrArg Kern.lockKalloc (h.failed _ hs)
        rw [hk] at this
        cases this
    · intro h
      refine ⟨fun σ hσ => ?_, fun σ hσ => ⟨pte, hpte, ?_⟩⟩
      · rw [hs] at hσ
        cases hσ
        cases hserved with
        | full count free =>
          have hk : s.lockKalloc = false := by
            by_contra hk
            exact h ⟨⟨pte, hpte, hne, count⟩, free, Bool.not_eq_false _ |>.mp hk⟩
          rw [← hk]
      · rw [hs] at hσ
        cases hσ
        exact hpte.confined hh hserved rfl

/-- The first process stores into a page it shares with its child, and a page is free. -/
theorem handleCOW_traceless_shared : let s := (after vm.step (boot (PHYSTOP - 24)) sharedRun).shared
    NeedsCopy s (PHYSTOP - 2) PGSIZE ∧ Traceless initSlot s (PHYSTOP - 2) PGSIZE := by
  intro s
  obtain ⟨hget, hfr, hfree, hh⟩ : (s.table (PHYSTOP - 2)).get (PGSIZE / PGSIZE) =
      some ⟨PHYSTOP - 8, { r := true, u := true, cow := true }⟩ ∧ s.fr (PHYSTOP - 8) ≠ 1 ∧ s.freelist ≠ [] ∧
      s.holder = none := by decide +kernel
  exact ⟨⟨_, ⟨by decide, hget, rfl, rfl⟩, by decide, hfr⟩, (handleCOW_traceless_iff _ _ _ hh).2 fun h => hfree h.2.1⟩

/-- **With memory full, a store turns the lock of `kalloc` off.** The first process stores into a page it shares with
its child; no page is free. -/
theorem full_memory_leaves_flag :
    ∃ s root s', Reach vm.step (· = boot (PHYSTOP - 14)) (fun _ _ => True) s ∧
      (s.shared.proc initSlot).pagetable = some root ∧
      s.idle (some initSlot) ∧ enabled s.shared (some initSlot) (.store PGSIZE 0) = true ∧
      solo initSlot (handleCOW root PGSIZE) s.shared = .ok (false, s') ∧
      s.shared.lockKalloc = true ∧ s'.lockKalloc = false ∧
      ¬ Traceless initSlot s.shared root PGSIZE := by
  have hrun : (run vm.step (boot (PHYSTOP - 14)) sharedRun).isOk = true := by decide +kernel
  have hroot : ((after vm.step (boot (PHYSTOP - 14)) sharedRun).shared.proc initSlot).pagetable =
      some (PHYSTOP - 2) := by decide +kernel
  have hget : ((after vm.step (boot (PHYSTOP - 14)) sharedRun).shared.table (PHYSTOP - 2)).get (PGSIZE / PGSIZE) =
      some ⟨PHYSTOP - 8, { r := true, u := true, cow := true }⟩ := by decide +kernel
  have hflag : (after vm.step (boot (PHYSTOP - 14)) sharedRun).shared.lockKalloc = true := by decide +kernel
  have hs : solo initSlot (handleCOW _ PGSIZE) _ = _ :=
    solo_handleCOW_full (by decide) hget (by decide) rfl rfl (by decide +kernel) (by decide +kernel) (by decide +kernel)
  refine ⟨after vm.step (boot (PHYSTOP - 14)) sharedRun, PHYSTOP - 2, _, .of_run (fun _ _ => trivial)
    sharedRun (.init rfl)
    (run_eq_after _ hrun), hroot, idle_of_isRet (by decide +kernel), by decide +kernel, hs, hflag, rfl, fun h => ?_⟩
  have := congrArg Kern.lockKalloc (h.failed _ hs)
  cases this

end Xv6Riscv.Vm
