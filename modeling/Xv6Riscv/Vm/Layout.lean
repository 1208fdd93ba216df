import Xv6Riscv.Vm.Accounts

/-!
# The layout of user address spaces

The valid leaf entries of a process are the pages below `PGROUNDUP(sz)` and the two pages at the top, and the pages
of its page table form a tree of its own. `sz` is rounded in different ways by uvmalloc (vm.c:226), uvmdealloc
(vm.c:256), exec (exec.c:49-141) and growproc (proc.c:322), and each of them may undo half of its work. The programs
are followed in `Vm/Space.lean` and `Vm/Exec.lean`; here are the consequences for runs.
-/
namespace Xv6Riscv.Vm
open Multiset Threads Machine

variable {k : Cond} {c d : Slot} {f : Frame} {s : State} {W : Tid → View} {first : Frame}

/-- The pages of the page table of the process in slot `c`, its root first. -/
def Kern.tablePages (s : Kern) (c : Slot) : Multiset Frame :=
  match (s.proc c).pagetable with
  | none => 0
  | some root => root ::ₘ (s.table root).dirPages

/-- The process in slot `c` has the address space that its `sz` says. -/
structure Layout (s : Kern) (c : Slot) : Prop where
  leaves : ∃ root, (s.proc c).pagetable = some root ∧
    ∀ i, ((s.table root).get i).isSome = true ↔ i < npages (s.proc c).sz ∨ i = TRAPFRAME ∨ i = TRAMPOLINE
  /-- No page of the table is used twice in it, or is free. -/
  tree : (s.tablePages c).Nodup
  used : ∀ f ∈ s.tablePages c, f ∉ s.freelist

theorem Kern.tablePages_le (s : Kern) (c : Slot) : s.tablePages c ≤ s.owned c := by
  unfold Kern.tablePages Kern.owned
  cases (s.proc c).pagetable with
  | none => exact Multiset.zero_le _
  | some root =>
    refine le_trans ?_ (le_add_left _ _)
    exact cons_le_cons _ (le_add_right _ _)

section
variable (hinv : Inv k s.shared W) (hwp : ∀ t, (rules k).wp t (s.todo t) (W t) fun _ => Rest k t)
include hinv hwp

theorem Undisturbed.tablePages_le (h : Undisturbed s c) : s.shared.tablePages c ≤ (W (some c)).pages := by
  obtain ⟨⟨lost, hp, -⟩, -⟩ := h.pages hinv hwp
  rw [hp]
  exact (s.shared.tablePages_le c).trans (le_add_right _ _)

theorem Undisturbed.layout (h : Undisturbed s c) (hne : (s.shared.proc c).state ≠ .unused) : Layout s.shared c := by
  have hle := h.tablePages_le hinv hwp
  obtain ⟨root, tf, hroot, -, hshape⟩ := h.shape hinv hwp hne
  refine ⟨⟨root, hroot, fun i => ?_⟩, nodup_of_le hle (hinv.books.valid (some c)).nodup, fun f hf => ?_⟩
  · rw [hshape.dom i]
    simp
  · exact hinv.books.not_free (t := some c) (mem_add.2 (.inl (mem_of_le hle hf)))

/-- A page of a page table is in no other page table, and no process maps it as memory. -/
theorem Undisturbed.tablePages_apart (hc : Undisturbed s c) (hd : Undisturbed s d) (hf : f ∈ s.shared.tablePages c) :
    (d ≠ c → f ∉ s.shared.tablePages d) ∧ ∀ i pte, s.shared.userPte d i = some pte → pte.pa ≠ f := by
  have hmem := mem_of_le (hc.tablePages_le hinv hwp) hf
  refine ⟨fun hne hfd => ?_, fun i pte hpte hpa => ?_⟩
  · have := hinv.books.owner_unique hmem (mem_of_le (hd.tablePages_le hinv hwp) hfd)
    exact hne (Option.some.inj this).symm
  have huser := hd.mem_user hinv hwp hpte
  rw [hpa] at huser
  split_ifs at huser with hcow
  · exact hinv.books.not_ref hmem huser
  -- an owner of the page has it once, as a user page or in the table
  have heq : c = d := Option.some.inj (hinv.books.owner_unique hmem huser)
  subst heq
  obtain ⟨root, hroot, hget, hi, hshape⟩ := hc.user hinv hwp hpte
  obtain ⟨⟨lost, hp, -⟩, -⟩ := hc.pages hinv hwp
  have hlt : i < TRAPFRAME := hi.trans_le hshape.small
  have htwo : f ::ₘ s.shared.tablePages c ≤ (W (some c)).pages := by
    rw [hp]
    refine le_trans ?_ (le_add_right _ _)
    unfold Kern.owned Kern.tablePages
    rw [hroot]
    refine le_trans ?_ (le_add_left _ _)
    change f ::ₘ root ::ₘ (s.shared.table root).dirPages ≤ root ::ₘ (s.shared.table root).own
    rw [cons_swap, Table.own_clear hget]
    refine cons_le_cons _ ?_
    have hpte : ownPte i pte = {f} := by simp [ownPte, hlt, hcow, hpa]
    rw [hpte, singleton_add]
    exact cons_le_cons _ (le_add_right _ _)
  exact (nodup_cons.1 (nodup_of_le htwo (hinv.books.valid (some c)).nodup)).1 hf

end

/-- **User address spaces are laid out as `sz` says**, in every state of every run, for every process that no call
is at work on; page tables share no page; and no run reaches a panic other than the use of a null pointer and
the exit of init. -/
theorem address_space_layout (h : Reach vm.step (· = boot first) (fun _ _ => True) s) :
    (∀ c, Undisturbed s c → (s.shared.proc c).state ≠ .unused → Layout s.shared c) ∧
    (∀ c d f, Undisturbed s c → Undisturbed s d → f ∈ s.shared.tablePages c →
      (d ≠ c → f ∉ s.shared.tablePages d) ∧ ∀ i pte, s.shared.userPte d i = some pte → pte.pa ≠ f) ∧
    ∀ e p, vm.step s e = .halt p → p = .kerneltrap ∨ p = .initExiting := by
  obtain ⟨W, hinv, hwp⟩ := holds_free h
  refine ⟨fun c hc hne => hc.layout hinv hwp hne, fun c d f hc hd hf => hc.tablePages_apart hinv hwp hd hf,
    fun e p hp => ?_⟩
  have hbad := Holds.halt (sound _) ⟨W, hinv, hwp⟩ hp
  cases p with
  | kerneltrap => exact .inl rfl
  | initExiting => exact .inr rfl
  | _ => cases hbad

/-- The child of the first process. -/
theorem layout_after_fork : Layout (after vm.step (boot (PHYSTOP - 24)) forkRun).shared childSlot := by
  have hreach : Reach vm.step (· = boot (PHYSTOP - 24)) (fun _ _ => True)
    (after vm.step (boot (PHYSTOP - 24)) forkRun) :=
    .of_run (fun _ _ => trivial) forkRun (.init rfl) (run_eq_after _ (by decide +kernel))
  have hidle : ∀ t, (after vm.step (boot (PHYSTOP - 24)) forkRun).idle t := quiet_of_isRet (by decide +kernel)
  exact (address_space_layout hreach).1 childSlot ⟨hidle _, by decide +kernel, fun _ q _ => hidle _⟩ (by decide +kernel)

end Xv6Riscv.Vm
