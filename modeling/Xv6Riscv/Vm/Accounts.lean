import Mathlib.Data.Fintype.BigOperators
import Xv6Riscv.Vm.Runs

/-!
# Where the pages are

When no call is at work on a process, its view has exactly the pages that the machine state shows: the
trapframe, the saved alarm context, the page-table pages and the user pages that are not shared, and one
reference for each copy-on-write entry. With all threads between two calls the books of the allocator are then
a statement about the machine state alone.
-/
namespace Xv6Riscv.Vm
open Multiset Threads Machine

variable {k : Cond} {t : Tid} {c d : Slot} {f root : Frame} {i n : Nat} {s : State} {W : Tid → View} {first : Frame}
  {S : List Nat} {T : Table}

/-! ## What the machine state shows -/

/-- The pages that only the process in slot `c` uses. -/
def Kern.owned (s : Kern) (c : Slot) : Multiset Frame :=
  opt (s.proc c).trapframe + opt (s.proc c).alarmContext +
    match (s.proc c).pagetable with
    | none => 0
    | some root => root ::ₘ (s.table root).own

/-- Its copy-on-write pages. -/
def Kern.cowPages (s : Kern) (c : Slot) : Multiset Frame :=
  match (s.proc c).pagetable with
  | none => 0
  | some root => (s.table root).shared

/-- The leaf entry of page `i` below `sz`. -/
def Kern.userPte (s : Kern) (c : Slot) (i : Nat) : Option Pte :=
  if i < npages (s.proc c).sz then (s.proc c).pagetable.bind fun root => (s.table root).get i else none

/-- The number of entries below `sz` with which the process in slot `c` maps the page `f`. -/
def Kern.maps (s : Kern) (c : Slot) (f : Frame) : Nat :=
  ((Finset.range (npages (s.proc c).sz)).filter fun i => (s.userPte c i).map Pte.pa = some f).card

/-- The same over all page tables. -/
def Kern.mappings (s : Kern) (f : Frame) : Nat := ∑ c, s.maps c f

/-- No call is at work on the process in slot `c`: not its own, and neither the `fork` that makes it nor the
`wait` that frees it. -/
structure Undisturbed (s : State) (c : Slot) : Prop where
  idle : s.idle (some c)
  made : (s.shared.proc c).state ≠ .used
  reaped : (s.shared.proc c).state = .zombie → ∀ q, s.shared.parent c = some q → s.idle (some q)

/-! ## What the views then say -/

section
variable (hinv : Inv k s.shared W) (hwp : ∀ t, (rules k).wp t (s.todo t) (W t) fun _ => Rest k t)
include hinv hwp

section
variable (h : Undisturbed s c)
include h

theorem Undisturbed.self : (W (some c)).self = some (s.shared.proc c) := by
  cases hself : (W (some c)).self with
  | some p => rw [hinv.slots.self c p hself]
  | none =>
    obtain ⟨t, p, hc⟩ := hinv.slots.taken c hself
    obtain ⟨rfl, -, hused | ⟨hz, hpar, hne⟩⟩ := hinv.slots.child t c p hc
    · exact absurd hused h.made
    -- the thread that works on a zombie is its parent, and that one is in no call
    obtain ⟨q, rfl⟩ := Option.ne_none_iff_exists'.1 hne
    have hrest := rest_of_idle hwp (h.reaped hz q hpar)
    rw [hrest.child] at hc
    cases hc

theorem Undisturbed.settled : Settled k (W (some c)) (s.shared.proc c) :=
  (rest_of_idle hwp h.idle).settled _ (h.self hinv hwp)

theorem Undisturbed.table (hroot : (s.shared.proc c).pagetable = some root) :
    root ∈ (W (some c)).pages ∧ s.shared.table root = (W (some c)).table root := by
  obtain ⟨lost, hp, -⟩ := (h.settled hinv hwp).pages
  have hmem : root ∈ (W (some c)).pages := by
    rw [hp]
    simp [View.own, hroot]
  exact ⟨hmem, (hinv.knows (some c) root (mem_add.2 (.inl hmem))).1⟩

/-- **The view has what the process owns**, and pages that are lost if no condition excludes it. -/
theorem Undisturbed.pages : (∃ lost, (W (some c)).pages = s.shared.owned c + lost ∧ (k.alarm = true → lost = 0)) ∧
      (W (some c)).refs = s.shared.cowPages c := by
  have hset := h.settled hinv hwp
  obtain ⟨lost, hp, hlost⟩ := hset.pages
  have hown : (W (some c)).own (s.shared.proc c) = s.shared.owned c ∧
    (W (some c)).shared (s.shared.proc c) = s.shared.cowPages c := by
    unfold View.own View.shared Kern.owned Kern.cowPages
    cases hroot : (s.shared.proc c).pagetable with
    | none => exact ⟨rfl, rfl⟩
    | some root => simp only [(h.table hinv hwp hroot).2, and_self]
  exact ⟨⟨lost, by rw [hp, hown.1], hlost⟩, by rw [hset.refs, hown.2]⟩

theorem Undisturbed.shape (hne : (s.shared.proc c).state ≠ .unused) :
    ∃ root tf, (s.shared.proc c).pagetable = some root ∧ (s.shared.proc c).trapframe = some tf ∧
      (s.shared.table root).Shape (npages (s.shared.proc c).sz) [TRAPFRAME, TRAMPOLINE] := by
  rcases (h.settled hinv hwp).body with ⟨hun, -⟩ | ⟨-, root, tf, hroot, htf, hshape⟩
  · exact absurd hun hne
  · rw [← (h.table hinv hwp hroot).2] at hshape
    exact ⟨root, tf, hroot, htf, hshape⟩

theorem Undisturbed.unused (hun : (s.shared.proc c).state = .unused) : Blank (s.shared.proc c) := by
  rcases (h.settled hinv hwp).body with ⟨-, hb⟩ | ⟨hst, -⟩
  · exact hb
  · rw [hun] at hst
    rcases hst with hst | hst <;> cases hst

variable {pte : Pte}

theorem Undisturbed.user (hpte : s.shared.userPte c i = some pte) :
    ∃ root, (s.shared.proc c).pagetable = some root ∧ (s.shared.table root).get i = some pte ∧
      i < npages (s.shared.proc c).sz ∧
      (s.shared.table root).Shape (npages (s.shared.proc c).sz) [TRAPFRAME, TRAMPOLINE] := by
  unfold Kern.userPte at hpte
  split_ifs at hpte with hi
  obtain ⟨root, hroot, hget⟩ := Option.bind_eq_some_iff.1 hpte
  have hne : (s.shared.proc c).state ≠ .unused := by
    intro hun
    rw [(h.unused hinv hwp hun).1] at hroot
    cases hroot
  obtain ⟨root', tf, hroot', -, hshape⟩ := h.shape hinv hwp hne
  rw [hroot] at hroot'
  cases hroot'
  exact ⟨root, hroot, hget, hi, hshape⟩

theorem Undisturbed.mem_user (hpte : s.shared.userPte c i = some pte) :
    if pte.perm.cow = true then pte.pa ∈ (W (some c)).refs else pte.pa ∈ (W (some c)).pages := by
  obtain ⟨root, hroot, hget, hi, hshape⟩ := h.user hinv hwp hpte
  obtain ⟨⟨lost, hp, -⟩, hr⟩ := h.pages hinv hwp
  have hlt : i < TRAPFRAME := hi.trans_le hshape.small
  split_ifs with hcow
  · rw [hr, Kern.cowPages, hroot]
    change pte.pa ∈ (s.shared.table root).shared
    rw [Table.shared_clear hget]
    simp [refPte, hlt, hcow]
  · rw [hp, Kern.owned, hroot]
    change pte.pa ∈ _ + root ::ₘ (s.shared.table root).own + lost
    rw [Table.own_clear hget]
    simp [ownPte, hlt, hcow]

end

end

/-! ## Counting the entries -/

theorem Table.mem_shared : f ∈ T.shared ↔ ∃ i pte, T.get i = some pte ∧ i < TRAPFRAME ∧ pte.perm.cow = true ∧
    pte.pa = f := by
  unfold Table.shared
  rw [Tally.mem_total]
  refine exists_congr fun i => exists_congr fun pte => and_congr_right fun _ => ?_
  unfold refPte
  split_ifs with h
  · simp [h, eq_comm]
  · simp only [notMem_zero, false_iff]
    exact fun h' => h ⟨h'.1, h'.2.1⟩

theorem Table.Shape.count_shared (h : T.Shape n S) (hget : T.get i = some pte) (hi : i < n)
    (hcow : pte.perm.cow = true) : T.shared.count pte.pa = 1 := by
  have hlt : i < TRAPFRAME := hi.trans_le h.small
  have hnot : pte.pa ∉ (T.clearPte i).shared := by
    intro hmem
    obtain ⟨j, q, hq, hj, -, hpa⟩ := Table.mem_shared.1 hmem
    rw [Table.get_clearPte] at hq
    split_ifs at hq with hji
    refine hji (h.inj j i q pte ?_ hi hq hget hpa)
    rcases (h.dom j).1 (by rw [hq]; rfl) with hjn | hjS
    · exact hjn
    · exact absurd (h.above j hjS) (by omega)
  rw [Table.shared_clear hget, count_add, count_eq_zero_of_notMem hnot]
  simp [refPte, hlt, hcow]

theorem Kern.maps_eq_zero {s : Kern} (h : ∀ i pte, s.userPte c i = some pte → pte.pa ≠ f) : s.maps c f = 0 := by
  rw [Kern.maps, Finset.card_eq_zero, Finset.filter_eq_empty_iff]
  intro i _ hi
  obtain ⟨pte, hpte, hpa⟩ := Option.map_eq_some_iff.1 hi
  exact h i pte hpte hpa

section
variable (hinv : Inv k s.shared W) (hwp : ∀ t, (rules k).wp t (s.todo t) (W t) fun _ => Rest k t)
include hinv hwp

theorem Undisturbed.maps_eq_one (h : Undisturbed s c) (hpte : s.shared.userPte c i = some pte) :
    s.shared.maps c pte.pa = 1 := by
  obtain ⟨root, hroot, hget, hi, hshape⟩ := h.user hinv hwp hpte
  rw [Kern.maps, Finset.card_eq_one]
  refine ⟨i, Finset.ext fun j => ?_⟩
  simp only [Finset.mem_filter, Finset.mem_range, Finset.mem_singleton]
  constructor
  · rintro ⟨hj, hmap⟩
    obtain ⟨q, hq, hpa⟩ := Option.map_eq_some_iff.1 hmap
    obtain ⟨root', hroot', hget', -, -⟩ := h.user hinv hwp hq
    rw [hroot] at hroot'
    cases hroot'
    exact hshape.inj j i q pte hj hi hget' hget hpa
  · rintro rfl
    exact ⟨hi, by rw [hpte]; rfl⟩

/-- Where all entries for a frame are copy-on-write, the references of the view are these entries. -/
theorem Undisturbed.maps_eq_count (h : Undisturbed s c)
    (hcow : ∀ i pte, s.shared.userPte c i = some pte → pte.pa = f → pte.perm.cow = true) :
    s.shared.maps c f = (W (some c)).refs.count f := by
  rw [(h.pages hinv hwp).2]
  by_cases hex : ∃ i pte, s.shared.userPte c i = some pte ∧ pte.pa = f
  · obtain ⟨i, pte, hpte, rfl⟩ := hex
    obtain ⟨root, hroot, hget, hi, hshape⟩ := h.user hinv hwp hpte
    rw [h.maps_eq_one hinv hwp hpte, Kern.cowPages, hroot]
    exact (hshape.count_shared hget hi (hcow i pte hpte rfl)).symm
  rw [Kern.maps_eq_zero fun i pte hpte hpa => hex ⟨i, pte, hpte, hpa⟩, eq_comm, count_eq_zero]
  intro hmem
  unfold Kern.cowPages at hmem
  cases hroot : (s.shared.proc c).pagetable with
  | none => simp [hroot] at hmem
  | some root =>
    rw [hroot] at hmem
    obtain ⟨i, pte, hget, hi, -, hpa⟩ := Table.mem_shared.1 hmem
    have hne : (s.shared.proc c).state ≠ .unused := by
      intro hun
      rw [(h.unused hinv hwp hun).1] at hroot
      cases hroot
    obtain ⟨root', tf, hroot', -, hshape⟩ := h.shape hinv hwp hne
    rw [hroot] at hroot'
    cases hroot'
    refine hex ⟨i, pte, ?_, hpa⟩
    have hin : i < npages (s.shared.proc c).sz := by
      rcases (hshape.dom i).1 (by rw [hget]; rfl) with hin | hiS
      · exact hin
      · exact absurd (hshape.above i hiS) (by omega)
    rw [Kern.userPte, if_pos hin, hroot]
    exact hget

/-- A page that a process maps is not on the free list, and nobody takes it off. -/
theorem Undisturbed.mapped_not_free (h : Undisturbed s c) (hpte : s.shared.userPte c i = some pte) :
    pte.pa ∉ s.shared.freelist := by
  refine hinv.books.not_free (t := some c) ?_
  have := h.mem_user hinv hwp hpte
  split_ifs at this
  · exact mem_add.2 (.inr this)
  · exact mem_add.2 (.inl this)

variable (hq : ∀ c, Undisturbed s c)
include hq

theorem mappings_own (hpte : s.shared.userPte c i = some pte) (hcow : pte.perm.cow = false) :
    s.shared.fr pte.pa = 1 ∧ s.shared.mappings pte.pa = 1 := by
  have hmem := (hq c).mem_user hinv hwp hpte
  rw [hcow] at hmem
  have hown := Books.own s.shared.held hmem
  constructor
  · have hcounted := hinv.books.counted pte.pa
    have hplaces := hinv.books.places pte.pa
    have hpos := count_pos.2 hown
    omega
  rw [Kern.mappings, Finset.sum_eq_single c, (hq c).maps_eq_one hinv hwp hpte]
  · intro d _ hd
    refine Kern.maps_eq_zero fun j q hq' hpa => ?_
    have hmem' := (hq d).mem_user hinv hwp hq'
    rw [hpa] at hmem'
    refine hinv.books.page_apart hmem (u := some d) (by simpa using hd) ?_
    split_ifs at hmem'
    · exact mem_add.2 (.inr hmem')
    · exact mem_add.2 (.inl hmem')
  · exact fun hc => absurd (Finset.mem_univ c) hc

theorem mappings_cow (hmain : (W none).refs = 0) (hpte : s.shared.userPte c i = some pte)
    (hcow : pte.perm.cow = true) : s.shared.fr pte.pa = s.shared.mappings pte.pa := by
  have hmem := (hq c).mem_user hinv hwp hpte
  rw [if_pos hcow] at hmem
  have hall : ∀ d j q, s.shared.userPte d j = some q → q.pa = pte.pa → q.perm.cow = true := by
    intro d j q hq' hpa
    by_contra hnc
    have hmem' := (hq d).mem_user hinv hwp hq'
    rw [if_neg hnc, hpa] at hmem'
    exact hinv.books.not_ref hmem' hmem
  have hnot : pte.pa ∉ (s.shared.held : Multiset Frame) + ∑ u, (W u).pages := fun hown =>
    hinv.books.not_shared_of_own hown (mem_sum_of_mem View.refs hmem)
  calc s.shared.fr pte.pa = (∑ u, (W u).refs).count pte.pa := by
        rw [hinv.books.counted pte.pa, count_eq_zero_of_notMem hnot, zero_add]
    _ = ∑ u, (W u).refs.count pte.pa := Multiset.count_sum'
    _ = ∑ d, (W (some d)).refs.count pte.pa := by
        rw [Fintype.sum_option, hmain, count_zero, zero_add]
    _ = s.shared.mappings pte.pa := Finset.sum_congr rfl fun d _ => ((hq d).maps_eq_count hinv hwp (hall d)).symm

end

/-! ## Exact counts -/

/-- What `memref.fr` says when no call is under way. -/
structure CountsExact (s : Kern) : Prop where
  /-- A page has the count 0 just when it is on the free list. -/
  free : ∀ f, s.first ≤ f → f < PHYSTOP → (s.fr f = 0 ↔ f ∈ s.freelist)
  /-- The free list has pages of the allocator, each once. -/
  once : s.freelist.Nodup
  range : ∀ f ∈ s.freelist, s.first ≤ f ∧ f < PHYSTOP
  /-- The count of a page below some `sz` is the number of entries that map it. -/
  mapped : ∀ c i pte, s.userPte c i = some pte → s.fr pte.pa = s.mappings pte.pa

theorem undisturbed_of_quiet (hinv : Inv k s.shared W) (hwp : ∀ t, (rules k).wp t (s.todo t) (W t) fun _ => Rest k t)
    (hq : ∀ t, s.idle t) (c : Slot) : Undisturbed s c where
  idle := hq (some c)
  made := by
    intro hused
    cases hself : (W (some c)).self with
    | none =>
      obtain ⟨t, p, hc⟩ := hinv.slots.taken c hself
      rw [(rest_of_idle hwp (hq t)).child] at hc
      cases hc
    | some p =>
      rw [hinv.slots.self c p hself] at hused
      rcases ((rest_of_idle hwp (hq (some c))).settled p hself).body with ⟨hun, -⟩ | ⟨hrun | hz, -⟩
      · rw [hused] at hun
        cases hun
      · rw [hused] at hrun
        cases hrun
      · rw [hused] at hz
        cases hz
  reaped _ q _ := hq (some q)

theorem quiet_views (hwp : ∀ t, (rules k).wp t (s.todo t) (W t) fun _ => Rest k t) (hinv : Inv k s.shared W)
    (hq : ∀ t, s.idle t) : ∑ t, (W t).zero = 0 ∧ (W none).pages = 0 ∧ (W none).refs = 0 :=
  ⟨Finset.sum_eq_zero fun t _ => (rest_of_idle hwp (hq t)).zero, (rest_of_idle hwp (hq none)).empty hinv.slots.main⟩

theorem countsExact_of_quiet (hinv : Inv k s.shared W) (hwp : ∀ t, (rules k).wp t (s.todo t) (W t) fun _ => Rest k t)
    (hq : ∀ t, s.idle t) : CountsExact s.shared := by
  have hund := undisturbed_of_quiet hinv hwp hq
  obtain ⟨hzero, -, hmain⟩ := quiet_views hwp hinv hq
  have hbooks : Books s.shared.first s.shared.fr s.shared.freelist s.shared.held W := hinv.books
  refine ⟨fun f hlo hhi => ?_, hbooks.free_nodup, fun f hf => ?_, fun c i pte hpte => ?_⟩
  · rw [hbooks.count_eq_zero_iff ⟨hlo, hhi⟩, hzero]
    simp
  · refine hbooks.region_of_pos ?_
    have := count_pos.2 (mem_coe.2 hf)
    omega
  · cases hcow : pte.perm.cow with
    | true => exact mappings_cow hinv hwp hund hmain hpte hcow
    | false =>
      obtain ⟨hfr, hmap⟩ := mappings_own hinv hwp hund hpte hcow
      rw [hfr, hmap]

/-- **Reference counts are exact** (kalloc.c:82, kalloc.c:114, vm.c:306, trap.c:32). In every run, whenever no
thread is inside a call, the counts are the numbers of page-table entries; and at any time a page that an undisturbed
process maps is not on the free list. -/
theorem reference_counts_exact (h : Reach vm.step (· = boot first) (fun _ _ => True) s) :
    ((∀ t, s.idle t) → CountsExact s.shared) ∧
    ∀ c i pte, Undisturbed s c → s.shared.userPte c i = some pte → pte.pa ∉ s.shared.freelist := by
  obtain ⟨W, hinv, hwp⟩ := holds_free h
  exact ⟨fun hq => countsExact_of_quiet hinv hwp hq, fun c i pte hc hpte => hc.mapped_not_free hinv hwp hpte⟩

theorem reference_counts_after_fork :
    ((after vm.step (boot (PHYSTOP - 24)) forkRun).shared.userPte childSlot 0).map
        (fun pte => (after vm.step (boot (PHYSTOP - 24)) forkRun).shared.fr pte.pa) = some 2 ∧
      CountsExact (after vm.step (boot (PHYSTOP - 24)) forkRun).shared := by
  have hreach : Reach vm.step (· = boot (PHYSTOP - 24)) (fun _ _ => True)
    (after vm.step (boot (PHYSTOP - 24)) forkRun) :=
    .of_run (fun _ _ => trivial) forkRun (.init rfl) (run_eq_after _ (by decide +kernel))
  exact ⟨by decide +kernel, (reference_counts_exact hreach).1 (quiet_of_isRet (by decide +kernel))⟩

/-- **A writable page has one user.** In every run, whatever the other threads are doing: a page that an undisturbed
process maps with `PTE_W` has the reference count 1, is mapped by this entry alone, and no other undisturbed process has
it, neither in its memory nor as trapframe, alarm context or page of its page table. -/
theorem writable_unshared (h : Reach vm.step (· = boot first) (fun _ _ => True) s) (hc : Undisturbed s c) {pte : Pte}
    (hpte : s.shared.userPte c i = some pte) (hw : pte.perm.w = true) :
    s.shared.fr pte.pa = 1 ∧ s.shared.maps c pte.pa = 1 ∧
      ∀ d, d ≠ c → Undisturbed s d → pte.pa ∉ s.shared.owned d + s.shared.cowPages d := by
  obtain ⟨W, hinv, hwp⟩ := holds_free h
  obtain ⟨root, -, hget, -, hshape⟩ := hc.user hinv hwp hpte
  have hmem := hc.mem_user hinv hwp hpte
  rw [(hshape.fits i pte hget).sole hw, if_neg Bool.false_ne_true] at hmem
  refine ⟨?_, hc.maps_eq_one hinv hwp hpte, fun d hd hund hin => ?_⟩
  · have hcounted := hinv.books.counted pte.pa
    have hplaces := hinv.books.places pte.pa
    have hpos := count_pos.2 (Books.own s.shared.held hmem)
    omega
  obtain ⟨⟨lost, hp, -⟩, hr⟩ := hund.pages hinv hwp
  refine hinv.books.page_apart hmem (u := some d) (by simpa using hd) ?_
  rw [hp, hr]
  exact (mem_add.1 hin).elim (fun ho => mem_add.2 (.inl (mem_add.2 (.inl ho)))) fun hr => mem_add.2 (.inr hr)

/-- The child stores into a page it shares with its parent, and gets a copy. -/
def copiedRun : List (Event Tid Call) := sharedRun ++ callEvents (some childSlot) (.store PGSIZE 5) 26

theorem writable_unshared_copied : let s := after vm.step (boot (PHYSTOP - 24)) copiedRun
    ∃ pte, s.shared.userPte childSlot 1 = some pte ∧ s.shared.fr pte.pa = 1 ∧
      pte.pa ∉ s.shared.owned initSlot + s.shared.cowPages initSlot := by
  intro s
  have hreach : Reach vm.step (· = boot (PHYSTOP - 24)) (fun _ _ => True) s :=
    .of_run (fun _ _ => trivial) copiedRun (.init rfl) (run_eq_after _ (by decide +kernel))
  have hund : ∀ c, c = initSlot ∨ c = childSlot → Undisturbed s c := by
    rintro c (rfl | rfl) <;> exact ⟨idle_of_isRet (by decide +kernel), by decide +kernel,
      fun hz => absurd hz (by decide +kernel)⟩
  have hw : (s.shared.userPte childSlot 1).map (·.perm.w) = some true := by decide +kernel
  obtain ⟨pte, hpte, hw⟩ := Option.map_eq_some_iff.1 hw
  obtain ⟨hfr, -, hapart⟩ := writable_unshared hreach (hund childSlot (.inr rfl)) hpte hw
  exact ⟨pte, hpte, hfr, hapart initSlot (by decide) (hund _ (.inl rfl))⟩

/-! ## Every page is somewhere -/

/-- Nothing is lost: every page of the allocator is free, or held by the kernel, or in use by a process. -/
structure NoneLost (s : Kern) : Prop where
  accounted : ∀ f, s.first ≤ f → f < PHYSTOP → f ∈ s.freelist ∨ f ∈ s.held ∨
    ∃ c, (s.proc c).state ≠ .unused ∧ f ∈ s.owned c + s.cowPages c
  /-- A slot without a process has nothing. -/
  reaped : ∀ c, (s.proc c).state = .unused → s.owned c = 0 ∧ s.cowPages c = 0
  /-- The pages on the free list are there once and nowhere else. -/
  once : s.freelist.Nodup
  apart : ∀ f ∈ s.freelist, f ∉ s.held ∧ ∀ c, f ∉ s.owned c + s.cowPages c

/-- No process dies while its alarm handler runs: `alarmContext` is freed by `sigreturn` alone. -/
def diesOutsideHandler (s : Kern) (t : Tid) : Act → Prop
  | .die _ => ∀ c, t = some c → (s.proc c).alarmContext = none
  | _ => True

instance (s : Kern) (t : Tid) (a : Act) : Decidable (diesOutsideHandler s t a) :=
  decidable_of_iff
    ((match a with
      | .die _ => decide (∀ c, t = some c → (s.proc c).alarmContext = none)
      | _ => true) = true) <| by
    cases a <;> simp [diesOutsideHandler]

theorem actOk_of_diesOutsideHandler (s : Kern) (t : Tid) (a : Act) (h : diesOutsideHandler s t a) :
    actOk ⟨false, true, false⟩ s t a := by
  cases a with
  | die status => exact fun _ => h
  | _ => first | trivial | exact fun hk => nomatch hk

section
variable (hinv : Inv k s.shared W) (hwp : ∀ t, (rules k).wp t (s.todo t) (W t) fun _ => Rest k t)
  (hk : k.alarm = true)
include hinv hwp hk

theorem Undisturbed.nothing_left
    (h : Undisturbed s c) (hun : (s.shared.proc c).state = .unused) :
    s.shared.owned c = 0 ∧ s.shared.cowPages c = 0 := by
  obtain ⟨hpt, htf, -⟩ := h.unused hinv hwp hun
  have hal : (s.shared.proc c).alarmContext = none :=
    (h.settled hinv hwp).alarm hk (.inl (by rw [hun]; nofun))
  unfold Kern.owned Kern.cowPages
  rw [hpt, htf, hal]
  exact ⟨rfl, rfl⟩

theorem noneLost_of_quiet
    (hq : ∀ t, s.idle t) : NoneLost s.shared := by
  have hund := undisturbed_of_quiet hinv hwp hq
  obtain ⟨hzero, hmainp, hmainr⟩ := quiet_views hwp hinv hq
  have hview : ∀ c, (W (some c)).pages = s.shared.owned c ∧ (W (some c)).refs = s.shared.cowPages c := by
    intro c
    obtain ⟨⟨lost, hp, hlost⟩, hr⟩ := (hund c).pages hinv hwp
    rw [hlost hk, add_zero] at hp
    exact ⟨hp, hr⟩
  have hnone := fun c hun => (hund c).nothing_left hinv hwp hk hun
  refine ⟨fun f hlo hhi => ?_, hnone, hinv.books.free_nodup, fun f hf => ⟨fun hheld => ?_, fun c hc => ?_⟩⟩
  · -- the page is in one column of the books
    have honce := hinv.books.once f
    rw [if_pos ⟨hlo, hhi⟩, hzero, count_zero] at honce
    have huse : ∀ t, f ∈ (W t).pages + (W t).refs → ∃ c, (s.shared.proc c).state ≠ .unused ∧
        f ∈ s.shared.owned c + s.shared.cowPages c := by
      intro t ht
      cases t with
      | none =>
        rw [hmainp, hmainr] at ht
        exact absurd ht (notMem_zero f)
      | some c =>
        rw [(hview c).1, (hview c).2] at ht
        refine ⟨c, fun hun => ?_, ht⟩
        rw [(hnone c hun).1, (hnone c hun).2] at ht
        exact absurd ht (notMem_zero f)
    by_cases hfree : f ∈ s.shared.freelist
    · exact .inl hfree
    have hfree0 : (s.shared.freelist : Multiset Frame).count f = 0 := count_eq_zero_of_notMem hfree
    by_cases hown : f ∈ (s.shared.held : Multiset Frame) + ∑ u, (W u).pages
    · rcases mem_add.1 hown with hheld | hpages
      · exact .inr (.inl hheld)
      · obtain ⟨t, -, ht⟩ := Multiset.mem_sum.1 hpages
        exact .inr (.inr (huse t (mem_add.2 (.inl ht))))
    · have hown0 := count_eq_zero_of_notMem hown
      have hshared : f ∈ ∑ u, (W u).refs := count_pos.1 (by omega)
      obtain ⟨t, -, ht⟩ := Multiset.mem_sum.1 hshared
      exact .inr (.inr (huse t (mem_add.2 (.inr ht))))
  · have hplaces := hinv.books.places f
    have h1 : 0 < (s.shared.freelist : Multiset Frame).count f := count_pos.2 (mem_coe.2 hf)
    have h2 : 0 < (s.shared.held : Multiset Frame).count f := count_pos.2 (mem_coe.2 hheld)
    rw [count_add] at hplaces
    omega
  · rw [← (hview c).1, ← (hview c).2] at hc
    exact hinv.books.not_free hc hf

end

/-- **No page is lost** in a run in which no process dies inside its alarm handler: `freeproc` leaves its slot
with nothing, and between the calls every page is free or in use. -/
theorem no_page_lost (h : Reach vm.step (· = boot first) (nextOk diesOutsideHandler) s) :
    ((∀ t, s.idle t) → NoneLost s.shared) ∧
    ∀ c, Undisturbed s c → (s.shared.proc c).state = .unused → s.shared.owned c = 0 ∧ s.shared.cowPages c = 0 := by
  obtain ⟨W, hinv, hwp⟩ := holds_of_reach actOk_of_diesOutsideHandler h
  exact ⟨fun hq => noneLost_of_quiet hinv hwp rfl hq, fun c hc hun => hc.nothing_left hinv hwp rfl hun⟩

/-- A child with an alarm and its `sigreturn` exits, and its parent reaps it. -/
def reapRun : List (Event Tid Call) :=
  forkRun ++ callEvents (some childSlot) .alarm 9 ++ callEvents (some childSlot) .sigreturn 10 ++
    callEvents (some childSlot) (.exit 0) 2 ++ callEvents (some initSlot) (.wait 0) 71

theorem no_page_lost_after_wait : NoneLost (after vm.step (boot (PHYSTOP - 24)) reapRun).shared := by
  have hreach : Reach vm.step (· = boot (PHYSTOP - 24)) (nextOk diesOutsideHandler)
    (after vm.step (boot (PHYSTOP - 24)) reapRun) :=
    .of_checked reapRun (.init rfl) (by decide +kernel)
  exact (no_page_lost hreach).1 (quiet_of_isRet (by decide +kernel))

/-- The same without the `sigreturn`. -/
def handlerRun : List (Event Tid Call) :=
  forkRun ++ callEvents (some childSlot) .alarm 9 ++ callEvents (some childSlot) (.exit 0) 2 ++
    callEvents (some initSlot) (.wait 0) 71

/-- `freeproc` loses the page of `alarmContext`: the child is gone, nobody has its page, and it is not free. -/
theorem alarm_context_lost :
    ∃ s, Reach vm.step (· = boot (PHYSTOP - 24)) (fun _ _ => True) s ∧ (∀ t, s.idle t) ∧
      (s.shared.proc childSlot).state = .unused ∧
      ∃ f, s.shared.first ≤ f ∧ f < PHYSTOP ∧ f ∉ s.shared.freelist ∧ f ∉ s.shared.held ∧
        ∀ c, (s.shared.proc c).state ≠ .unused → f ∉ s.shared.owned c + s.shared.cowPages c := by
  refine ⟨after vm.step (boot (PHYSTOP - 24)) handlerRun, ?_, quiet_of_isRet (by decide +kernel), by decide +kernel,
    PHYSTOP - 14, by decide +kernel⟩
  exact .of_run (fun _ _ => trivial) handlerRun (.init rfl) (run_eq_after _ (by decide +kernel))

end Xv6Riscv.Vm
