import Xv6Riscv.Fork.Model
import Xv6Riscv.Vm.Accounts
import Xv6Riscv.Vm.Locking

/-!
# A `fork` that fails returns everything

`fork` (proc.c:341) can fail for want of a slot or of the trapframe page, in `proc_pagetable` (proc.c:238) for any page
of the page table, and for any page of the parent in `uvmcopy` (vm.c:305). By then
part of the parent's pages may be shared and counted. The undoing is spread over the three functions and `freeproc`
(proc.c:205), which relies on `sz` being still 0. The steps are in `Vm/Undo.lean`.
-/
namespace Xv6Riscv.Fork
open Multiset Machine Threads Vm Function
open Outcome (bind_ok)
variable {old root tf : Frame} {α β : Type}

variable {c d p : Vm.Slot} {s₀ s s' : Kern} {first : Frame} {σ : State}

/-! ## `freeproc` -/

/-- The slot after `freeproc`. -/
def emptied (q : Vm.Proc) : Vm.Proc :=
  { q with state := .unused, xstate := 0, sz := 0, pagetable := none, trapframe := none }

def freed (s : Kern) (d : Vm.Slot) (q : Vm.Proc) : Kern :=
  { s.setProc d (emptied q) with parent := update s.parent d none }

theorem solo_freeproc {s1 s2 : Kern} (h1 : solo c (match (s.proc d).trapframe with
      | some f => kfree f
      | none => pure ()) s = .ok ((), s1))
    (h2 : solo c (match (s.proc d).pagetable with
      | some f => procFreepagetable f (s.proc d).sz
      | none => pure ()) (s1.setProc d { s.proc d with trapframe := none }) = .ok ((), s2)) :
    solo c (freeproc d) s = .ok ((), freed s2 d (s.proc d)) := by
  refine (solo_step rfl).trans ((solo_bind h1).trans
    ((solo_step rfl).trans ((solo_bind h2).trans ((solo_step rfl).trans ?_))))
  refine (solo_act rfl).trans ?_
  simp only [freed, Kern.setProc, update_self, update_idem, emptied]

theorem drawn_freed {X Y : Multiset Frame} (h : Drawn s₀ s X Y) (d : Vm.Slot) (q : Vm.Proc) :
    Drawn s₀ (freed s d q) X Y :=
  h.congr ⟨rfl, rfl, rfl, rfl, rfl, rfl⟩

theorem within_freed {D : Set Frame} (h : Within D s s') (d : Vm.Slot) (q : Vm.Proc) :
    Within D (freed s d q) (freed s' d q) :=
  { h.setProc d (emptied q) with parent := by simp [freed, h.parent] }

theorem freed_setProc (s : Kern) (d : Vm.Slot) (q q' : Vm.Proc) : freed (s.setProc d q') d q = freed s d q := by
  simp [freed, Kern.setProc]

/-- What a failed call may leave different in the state: tables of pages that were free, and the slot. -/
structure Undone (s₀ s : Kern) (d : Vm.Slot) (q : Vm.Proc) (s' : Kern) : Prop extends Intact s₀ (freed s d q) s' where
  drawn : Drawn s₀ s' 0 0

theorem freeproc_bare (h : Drawn s₀ s 0 0) (htf : (s.proc d).trapframe = none) (hpt : (s.proc d).pagetable = none) :
    ∃ s', solo c (freeproc d) s = .ok ((), s') ∧ Undone s₀ s d (s.proc d) s' := by
  refine ⟨_, solo_freeproc (by rw [htf]; rfl) (by rw [hpt]; rfl), ?_⟩
  rw [freed_setProc]
  exact ⟨.refl _ _, drawn_freed h d _⟩

theorem freeproc_trapframe (g : Ground s₀) (h : Drawn s₀ s {tf} 0) (htf : (s.proc d).trapframe = some tf)
    (hpt : (s.proc d).pagetable = none) : ∃ s', solo c (freeproc d) s = .ok ((), s') ∧ Undone s₀ s d (s.proc d) s' := by
  obtain ⟨s1, hs1, h1, hst1⟩ := h.kfree_page (c := c) g
  refine ⟨_, solo_freeproc (by rw [htf]; exact hs1) (by rw [hpt]; rfl), ?_⟩
  rw [freed_setProc]
  exact ⟨within_freed hst1.intact d _, drawn_freed h1 d _⟩

theorem freeproc_space (g : Ground s₀) (h : Span s₀ s root {tf}) (htf : (s.proc d).trapframe = some tf)
    (hpt : (s.proc d).pagetable = some root) (hsz : (s.proc d).sz = 0) (hroot : root ∈ s₀.freelist)
    (hget : ∀ j, (s.table root).get j = newEntries tf j) :
    ∃ s', solo c (freeproc d) s = .ok ((), s') ∧ Undone s₀ s d (s.proc d) s' := by
  have hd : Drawn s₀ s (tf ::ₘ (root ::ₘ ((s.table root).own + 0))) (s.table root).shared := by
    rw [cons_swap, ← add_cons]
    exact h
  obtain ⟨s1, hs1, h1, hst1⟩ := hd.kfree_page (c := c) g
  have hspan : Span s₀ (s1.setProc d { s.proc d with trapframe := none }) root 0 := by
    change Drawn s₀ _ (root ::ₘ ((s1.table root).own + 0)) (s1.table root).shared
    rw [hst1.tables]
    exact h1.setProc d _
  have hget1 : ∀ j, ((s1.setProc d { s.proc d with trapframe := none }).table root).get j = newEntries tf j := by
    intro j
    change (s1.table root).get j = _
    rw [hst1.tables]
    exact hget j
  obtain ⟨s2, hs2, h2, hin⟩ := hspan.procFreepagetable (c := c) g hget1 hroot
  refine ⟨_, solo_freeproc (by rw [htf]; exact hs1) (by rw [hpt, hsz]; exact hs2), ?_⟩
  refine ⟨?_, drawn_freed h2 d _⟩
  have hw := within_freed ((hst1.intact.setProc d _).trans hin) d (s.proc d)
  rwa [freed_setProc] at hw

/-! ## `allocproc` -/

/-- The slot that `allocproc` takes. -/
def firstUnused (s : Kern) : Option Vm.Slot := (List.finRange NPROC).find? fun d => (s.proc d).state = .unused

def claimed (s : Kern) (d : Vm.Slot) : Kern := s.setProc d { s.proc d with state := .used }

theorem solo_claimSlot (slots : List Vm.Slot) :
    (slots.find? (fun d => (s.proc d).state = .unused) = none → solo c (claimSlot slots) s = .ok (none, s)) ∧
    ∀ d, slots.find? (fun d => (s.proc d).state = .unused) = some d →
      solo c (claimSlot slots) s = .ok (some d, claimed s d) := by
  induction slots with
  | nil => exact ⟨fun _ => rfl, nofun⟩
  | cons e es ih =>
    by_cases he : (s.proc e).state = .unused
    · have hclaim : solo c (claim e) s = .ok (true, claimed s e) := solo_act (by simp [Kern.exec, he, claimed])
      refine ⟨fun h => ?_, fun d h => ?_⟩
      · simp [he] at h
      · rw [List.find?_cons_of_pos (by simpa using he), Option.some.injEq] at h
        subst h
        exact solo_bind hclaim
    · have hclaim : solo c (claim e) s = .ok (false, s) := solo_act (by simp [Kern.exec, he])
      rw [List.find?_cons_of_neg (by simpa using he)]
      exact ⟨fun h => (solo_bind hclaim).trans (ih.1 h), fun d h => (solo_bind hclaim).trans (ih.2 d h)⟩

theorem firstUnused_state (h : firstUnused s = some d) : (s.proc d).state = .unused := by
  simpa using List.find?_some h

/-- The new process of slot `d` has its trapframe and its page table. -/
structure Allocated (s₀ : Kern) (d : Vm.Slot) (root tf : Frame) (s : Kern) : Prop extends
    Intact s₀ (s₀.setProc d
      { s₀.proc d with state := .used, alarmOn := false, trapframe := some tf, pagetable := some root }) s where
  span : Span s₀ s root {tf}
  fresh : root ∈ s₀.freelist
  entries : ∀ j, (s.table root).get j = newEntries tf j

/-- The state as a failed `allocproc` or `fork` leaves it. -/
structure Vacated (s₀ : Kern) (d : Vm.Slot) (old : Option Frame) (s : Kern) : Prop extends
    Within {f | f ∈ s₀.freelist ∨ old = some f} (freed s₀ d { s₀.proc d with alarmOn := false }) s where
  drawn : Drawn s₀ s 0 0
  parents : ∀ f, old = some f → Reflagged (s₀.table f) (s.table f)

/-- `allocproc` has the slot `d`: its pages, or nothing. -/
theorem solo_allocMemory (g : Ground s₀) (hb : Blank (s₀.proc d)) :
    ∃ ok s', solo c (allocMemory d) (claimed s₀ d) = .ok (ok, s') ∧
      (ok = false ∧ Vacated s₀ d none s' ∨ ok = true ∧ ∃ root tf, Allocated s₀ d root tf s') := by
  obtain ⟨hpt, htf, hsz⟩ := hb
  have h0 : Drawn s₀ (claimed s₀ d) 0 0 := (Drawn.refl g).setProc d _
  have hq : (claimed s₀ d).proc d = { s₀.proc d with state := .used } := update_self ..
  unfold allocMemory
  have hget : solo c (getProc d) (claimed s₀ d) = .ok ((claimed s₀ d).proc d, claimed s₀ d) := solo_act rfl
  rw [solo_bind hget, hq]
  rcases h0.kalloc (c := c) g with hs | ⟨tf, s1, hs1, h1, hst1, -, -⟩
  · -- no trapframe
    rw [solo_bind hs]
    obtain ⟨s', hs', hu⟩ := freeproc_bare (c := c) (d := d) (h0.setProc d { s₀.proc d with
      state := .used, alarmOn := false, trapframe := none }) (by simp [Kern.setProc])
        (by simpa [Kern.setProc] using hpt)
    refine ⟨false, s', (solo_step rfl).trans (solo_bind hs'), .inl ⟨rfl, ?_, hu.drawn, by simp⟩⟩
    have hw := hu.toWithin
    rw [freed_setProc, claimed, freed_setProc] at hw
    simp only [Kern.setProc, update_self] at hw
    exact hw.mono fun _ => .inl
  · rw [solo_bind hs1]
    have hset : ∀ (s : Kern) q, solo c (setProc d q) s = .ok ((), s.setProc d q) := fun _ _ => solo_act rfl
    rw [solo_bind (hset _ _)]
    obtain ⟨o, s2, hs2, hin2, hend⟩ := (h1.setProc d { s₀.proc d with
      state := .used, alarmOn := false, trapframe := some tf }).procPagetable (c := c) g tf
    have hw2 := (hst1.intact.setProc d _).trans hin2
    rw [claimed, Kern.setProc_setProc] at hw2
    rw [solo_bind hs2]
    rcases hend with ⟨rfl, h2⟩ | ⟨root, rfl, hroot, h2, hg2⟩
    · -- no page table
      obtain ⟨s', hs', hu⟩ := freeproc_trapframe (c := c) (d := d) g (h2.setProc d { s₀.proc d with
        state := .used, alarmOn := false, trapframe := some tf, pagetable := none }) (by simp [Kern.setProc])
        (by simp [Kern.setProc])
      refine ⟨false, s', (solo_bind (hset _ _)).trans (solo_bind hs'), .inl ⟨rfl, ?_, hu.drawn, by simp⟩⟩
      have hw := (within_freed hw2 d _).trans (freed_setProc s2 d _ _ ▸ hu.toWithin)
      rw [freed_setProc] at hw
      simp only [Kern.setProc, update_self] at hw
      exact hw.mono fun _ => .inl
    · exact ⟨true, _, (solo_bind (hset _ _)).trans rfl, .inr ⟨rfl, root, tf,
        Kern.setProc_setProc s₀ d _ _ ▸ hw2.setProc d _, Drawn.setProc h2 d _, hroot, hg2⟩⟩

/-! ## The parent's pages -/

/-- The parent: its page table, and its user pages, all in use. -/
structure Parent (s₀ : Kern) (p : Vm.Slot) (old : Frame) : Prop where
  pagetable : (s₀.proc p).pagetable = some old
  used : old ∉ s₀.freelist
  small : npages (s₀.proc p).sz ≤ TRAPFRAME
  pages : ∀ j, j < npages (s₀.proc p).sz → ∃ pte, (s₀.table old).get j = some pte ∧ InUse s₀ pte.pa

theorem solo_copyMemory (g : Ground s₀) (h : Allocated s₀ d root tf s) (hp : Parent s₀ p old)
    (hne : p ≠ d) (hsz : (s₀.proc d).sz = 0) : ∃ ok q np s', solo p (copyMemory d) s = .ok ((ok, q, np), s') ∧
      (ok = false → ∃ s'', solo p (freeproc d) s' = .ok ((), s'') ∧ Vacated s₀ d (some old) s'') := by
  have hpp : s.proc p = s₀.proc p := by
    rw [h.proc]
    exact update_of_ne hne _ _
  have hpd : s.proc d =
      { s₀.proc d with state := .used, alarmOn := false, trapframe := some tf, pagetable := some root } := by
    rw [h.proc]
    exact update_self ..
  have hold : s.table old = s₀.table old := h.table old hp.used
  have hor : old ≠ root := by
    rintro rfl
    exact hp.used h.fresh
  obtain ⟨ok, s1, hs1, hb1, hfail⟩ := h.span.uvmcopyLoop (c := p) (i := 0) (n := npages (s₀.proc p).sz) g hor
    (by rw [zero_add]; exact hp.small)
    (fun j hj => by rw [hold]; exact hp.pages j (by omega)) (fun j hj => absurd hj (Nat.not_lt_zero j)) fun j _ hj => by
      rw [h.entries, newEntries, if_neg (by omega), if_neg]
      rintro rfl
      exact absurd hj (by decide)
  refine ⟨ok, s₀.proc p, s.proc d, s1, ?_, fun hok => ?_⟩
  · have hmy : solo p myproc s = .ok (s₀.proc p, s) := by
      rw [← hpp]
      exact solo_act rfl
    have hd1 : solo p (deref (s₀.proc p).pagetable) s = .ok (old, s) := by
      rw [hp.pagetable]
      rfl
    have hgp : solo p (getProc d) s = .ok (s.proc d, s) := solo_act rfl
    have hd2 : solo p (deref (s.proc d).pagetable) s = .ok (root, s) := by
      rw [hpd]
      rfl
    unfold copyMemory
    rw [solo_bind hmy, solo_bind hd1, solo_bind hgp, solo_bind hd2]
    exact solo_bind hs1
  · obtain ⟨hspan, hget⟩ := hfail hok
    have hpd1 : s1.proc d = s.proc d := by rw [hb1.proc]
    obtain ⟨s', hs', hu⟩ := freeproc_space (c := p) (d := d) g hspan (by rw [hpd1, hpd]) (by rw [hpd1, hpd])
      (by rw [hpd1, hpd]; exact hsz) h.fresh fun j => by
        rw [hget, h.entries, newEntries]
        split
        · rw [if_neg (by omega), if_neg]
          rintro rfl
          rename_i hj
          exact absurd hj (by decide)
        · rfl
    refine ⟨s', hs', ?_, hu.drawn, ?_⟩
    · have hw : Within {f | f ∈ s₀.freelist ∨ some old = some f} _ s1 :=
        (h.toWithin.mono fun _ => .inl).trans (hb1.toWithin.mono ?_)
      · have hw := (within_freed hw d _).trans (hu.toWithin.mono fun _ => .inl)
        rw [freed_setProc, hpd1, hpd] at hw
        exact hw
      · rintro f (rfl | rfl)
        · exact .inr rfl
        · exact .inl h.fresh
    · rintro f hf
      cases hf
      rw [hu.table old hp.used, ← hold]
      exact hb1.parents

/-! ## States of a run -/

section
variable (h : Reach vm.step (· = boot first) (fun _ _ => True) σ)
include h

theorem ground_of_reach (hh : σ.shared.holder = none) : Ground σ.shared := by
  obtain ⟨W, hinv, -⟩ := holds_free h
  have hb := hinv.books
  have hpos : ∀ f ∈ σ.shared.freelist, 0 < (σ.shared.freelist : Multiset Frame).count f :=
    fun f hf => count_pos.2 (mem_coe.2 hf)
  refine ⟨hh, coe_nodup.1 hb.free_nodup, fun f hf => ?_, fun f hf => ?_⟩
  · have := hb.places f
    have := hb.counted f
    have := hpos f hf
    omega
  · have := hpos f hf
    have hr := hb.region_of_pos (f := f) (by omega)
    simpa [Kern.isFrame] using hr

/-- A free slot has no pages, whoever is at work elsewhere. -/
theorem blank_of_reach (hd : (σ.shared.proc d).state = .unused) : Blank (σ.shared.proc d) := by
  obtain ⟨W, hinv, -⟩ := holds_free h
  cases hself : (W (some d)).self with
  | none =>
    obtain ⟨t, q, hc⟩ := hinv.slots.taken d hself
    obtain ⟨rfl, -, hst | ⟨hst, -⟩⟩ := hinv.slots.child t d q hc <;> rw [hd] at hst <;> cases hst
  | some q =>
    have hq := hinv.slots.self d q hself
    have hnr : ¬ Ready (some d) (W (some d)) := by
      rintro (hno | ⟨q', hq', hrun⟩)
      · cases hno
      · rw [hself] at hq'
        cases hq'
        rw [← hq, hd] at hrun
        cases hrun
    rw [hq]
    rcases ((hinv.slots.asleep _ hnr).settled q hself).body with ⟨-, hb⟩ | ⟨hst, -⟩
    · exact hb
    · rw [← hq, hd] at hst
      rcases hst with hst | hst <;> cases hst

theorem parent_of_reach (hidle : σ.idle (some p)) (hrun : (σ.shared.proc p).state = .runnable) :
    ∃ old, Parent σ.shared p old := by
  obtain ⟨W, hinv, hwp⟩ := holds_free h
  have hund : Undisturbed σ p := ⟨hidle, by rw [hrun]; nofun, fun hz => by rw [hrun] at hz; cases hz⟩
  obtain ⟨old, tf, hold, -, hshape⟩ := hund.shape hinv hwp (by rw [hrun]; nofun)
  refine ⟨old, hold, ?_, hshape.small, fun j hj => ?_⟩
  · exact hinv.books.not_free (mem_add.2 (.inl (hund.table hinv hwp hold).1))
  obtain ⟨pte, hpte⟩ := hshape.get_some (.inl hj)
  have huser : σ.shared.userPte p j = some pte := by
    unfold Kern.userPte
    rw [if_pos hj, hold]
    exact hpte
  have hmem : pte.pa ∈ (W (some p)).pages + (W (some p)).refs := by
    have := hund.mem_user hinv hwp huser
    split_ifs at this
    · exact mem_add.2 (.inr this)
    · exact mem_add.2 (.inl this)
  refine ⟨pte, hpte, hund.mapped_not_free hinv hwp huser, ?_, ?_⟩
  · have hcount := hinv.books.counted pte.pa
    rcases mem_add.1 hmem with hm | hm
    · have := count_pos.2 (Books.own σ.shared.held hm)
      omega
    · have := count_pos.2 (mem_sum_of_mem View.refs hm)
      omega
  · have := hinv.books.below hmem
    simpa [Kern.isFrame] using this

end

/-! ## Every allocation -/

/-- Whatever the actions answer, the program returns `x`. -/
def Yields {α : Type} (x : α) : K α → Prop
  | .ret y => y = x
  | .act _ next => ∀ r, Yields x (next r)

/-- When an allocation finds no page, the program returns `x` in the end. -/
def FailsTo {α : Type} (x : α) : K α → Prop
  | .ret _ => True
  | .act .pop next => Yields x (next none) ∧ ∀ r, FailsTo x (next r)
  | .act _ next => ∀ r, FailsTo x (next r)

variable {m : K α} {g : α → K β} {x : α} {y : β}

theorem Yields.bind (hm : Yields x m) (hg : Yields y (g x)) : Yields y (m >>= g) := by
  induction m with
  | ret z =>
    cases hm
    exact hg
  | act a next ih => exact fun r => ih r (hm r)

theorem Yields.after (m : K α) (hg : ∀ z, Yields y (g z)) : Yields y (m >>= g) := by
  induction m with
  | ret z => exact hg z
  | act a next ih => exact fun r => ih r

theorem FailsTo.next {a : Act} {next : a.Res → K α} (h : FailsTo x (.act a next)) (r : a.Res) :
    FailsTo x (next r) := by
  cases a with
  | pop => exact h.2 r
  | _ => exact h r

theorem FailsTo.bind (hm : FailsTo x m) (hx : Yields y (g x)) (hg : ∀ z, FailsTo y (g z)) : FailsTo y (m >>= g) := by
  induction m with
  | ret z => exact hg z
  | act a next ih =>
    have hnext : ∀ r, FailsTo y (next r >>= g) := fun r => ih r (hm.next r)
    cases a with
    | pop => exact ⟨Yields.bind hm.1 hx, hnext⟩
    | _ => exact hnext

theorem Yields.fails (h : Yields x m) : FailsTo x m := by
  induction m with
  | ret y => trivial
  | act a next ih =>
    cases a with
    | pop => exact ⟨h none, fun r => ih r (h r)⟩
    | _ => exact fun r => ih r (h r)

theorem FailsTo.of_with (h : FailsWith x m) : FailsTo x m := by
  induction m with
  | ret y => trivial
  | act a next ih =>
    cases a with
    | pop =>
      refine ⟨?_, fun r => ih r (h.2 r)⟩
      rw [h.1]
      exact rfl
    | _ => exact fun r => ih r (h r)

theorem failsTo_mappages {f : Frame} {i : Nat} {perm : Perm} : FailsTo false (mappages root i f perm) :=
  .of_with failsWith_mappages

theorem failsTo_uvmcreate : FailsTo none uvmcreate := by
  refine (FailsTo.of_with failsWith_kalloc).bind rfl fun o => ?_
  cases o with
  | none => trivial
  | some f => exact fun _ _ => trivial

theorem failsTo_procPagetable {tr : Frame} : FailsTo none (procPagetable tf tr) := by
  refine failsTo_uvmcreate.bind rfl fun o => ?_
  cases o with
  | none => trivial
  | some root =>
    have hfail : ∀ m : K Unit, Yields (none : Option Frame) (m >>= fun _ => pure none) := fun m => .after m fun _ => rfl
    refine failsTo_mappages.bind (hfail _) fun ok => ?_
    cases ok with
    | false => exact (hfail _).fails
    | true =>
      refine failsTo_mappages.bind (.after _ fun _ => hfail _) fun ok => ?_
      cases ok with
      | false => exact Yields.fails (.after _ fun _ => hfail _)
      | true => trivial

theorem failsTo_allocMemory (d : Vm.Slot) : FailsTo false (allocMemory d) := by
  have hfail : ∀ q, Yields false (setProc d q >>= fun _ => freeproc d >>= fun _ => pure false) := fun q =>
    .after _ fun _ => .after _ fun _ => rfl
  intro q
  refine (FailsTo.of_with failsWith_kalloc).bind (hfail _) fun o => ?_
  cases o with
  | none => exact (hfail _).fails
  | some f =>
    intro _
    refine failsTo_procPagetable.bind (hfail _) fun o => ?_
    cases o with
    | none => exact (hfail _).fails
    | some root => exact fun _ => trivial

theorem failsTo_uvmcopyLoop (old new : Frame) (n i : Nat) : FailsTo false (uvmcopyLoop old new n i) := by
  induction n generalizing i with
  | zero => trivial
  | succ n ih =>
    have hwalk : ∀ {g : Option (Option Pte) → K Bool}, (∀ o, FailsTo false (g o)) →
      FailsTo false (walk old i false >>= g) := by
      intro g hg
      unfold walk
      split
      · exact fun r => r.elim
      intro T
      change FailsTo false ((if _ then _ else _ : K Bool) >>= _ >>= g)
      split
      · intro T'
        change FailsTo false ((if _ then _ else _ : K Bool) >>= _ >>= g)
        split
        · exact fun T'' => hg _
        · exact hg none
      · exact hg none
    refine hwalk fun o => ?_
    match o with
    | none => exact fun r => r.elim
    | some none => exact fun r => r.elim
    | some (some pte) =>
      intro _ _
      refine failsTo_mappages.bind (.after _ fun _ => rfl) fun ok => ?_
      cases ok with
      | false => exact Yields.fails (.after _ fun _ => rfl)
      | true => exact fun _ _ _ _ => ih (i + 1)

/-! ## `fork` -/

/-- The slot is UNUSED, and all that `freeproc` resets is reset. -/
structure Clean (s : Sys) (d : Vm.Slot) : Prop where
  state : (s.kern.proc d).state = .unused
  memory : Blank (s.kern.proc d)
  exited : (s.kern.proc d).xstate = 0 ∧ s.kern.parent d = none
  alarm : (s.kern.proc d).alarmOn = false
  fields : (s.fields d).free = s.fields d

/-- After a failed `fork` by the process in slot `p`. -/
structure Restored (p : Vm.Slot) (s s' : Sys) : Prop where
  free : s'.kern.freelist.Perm s.kern.freelist
  counts : s'.kern.fr = s.kern.fr
  unlocked : s'.kern.holder = none ∧ s'.kern.lockKalloc = s.kern.lockKalloc
  contents : ∀ f, f ∉ s.kern.freelist → s'.kern.mem f = s.kern.mem f
  /-- The parent's entries may have become copy-on-write, with the same pages. -/
  parents : ∀ root, (s.kern.proc p).pagetable = some root → Reflagged (s.kern.table root) (s'.kern.table root)
  tables : ∀ f, f ∉ s.kern.freelist → (s.kern.proc p).pagetable ≠ some f → s'.kern.table f = s.kern.table f
  others : ∀ d, firstUnused s.kern ≠ some d →
    s'.kern.proc d = s.kern.proc d ∧ s'.kern.parent d = s.kern.parent d ∧ s'.fields d = s.fields d
  chosen : ∀ d, firstUnused s.kern = some d →
    Clean s' d ∧ (s'.fields d).ofile = (s.fields d).ofile ∧ (s'.fields d).cwd = (s.fields d).cwd
  files : s'.fileRef = s.fileRef
  inodes : s'.inodeRef = s.inodeRef
  held : s'.kern.held = s.kern.held ∧ s'.kern.initproc = s.kern.initproc

variable {s : Sys}

theorem onMemory_ok {k : Kern} (h : solo p m s.kern = .ok (x, k)) :
    onMemory p m s = .ok (x, { s with kern := k }) := by
  unfold onMemory
  rw [h]

theorem dupFiles_cases (ofile : Fin NOFILE → Nat) (fds : List (Fin NOFILE)) (ref : Nat → Nat) :
    (∃ ref', dupFiles ofile fds ref = .ok ref') ∨
      dupFiles ofile fds ref = .halt .filedup ∧ ∃ fd, ofile fd ≠ 0 ∧ ref (ofile fd) = 0 := by
  induction fds generalizing ref with
  | nil => exact .inl ⟨ref, rfl⟩
  | cons fd fds ih =>
    unfold dupFiles
    split
    · exact ih ref
    rename_i hfd
    split
    · exact .inr ⟨rfl, fd, hfd, by omega⟩
    refine (ih _).imp_right fun ⟨hhalt, fd', hfd', h0⟩ => ⟨hhalt, fd', hfd', ?_⟩
    by_cases he : ofile fd' = ofile fd
    · rw [he, update_self] at h0
      omega
    · rwa [update_of_ne he] at h0

theorem Vacated.restored {s' : Sys} {o : Option Frame} (hv : Vacated s.kern d o s'.kern)
    (hd : firstUnused s.kern = some d)
    (hp : (s.kern.proc p).pagetable = some old) (ho : o = none ∨ o = some old) (hu : old ∉ s.kern.freelist) {q : Fields}
    (hq : q.ofile = (s.fields d).ofile ∧ q.cwd = (s.fields d).cwd) (hfields : s'.fields = update s.fields d q.free)
    (hfiles : s'.fileRef = s.fileRef) (hinodes : s'.inodeRef = s.inodeRef) : Restored p s s' := by
  have hproc : s'.kern.proc d = emptied { s.kern.proc d with alarmOn := false } := by
    rw [hv.proc]
    exact update_self ..
  have hf : s'.fields d = q.free := by rw [hfields, update_self]
  refine ⟨hv.drawn.returned.1, hv.drawn.returned.2, ⟨hv.drawn.unlocked, hv.drawn.flag⟩, hv.drawn.mem, ?_, ?_, ?_, ?_,
    hfiles, hinodes, hv.held, hv.initproc⟩
  · intro root hroot
    rw [hp] at hroot
    cases hroot
    rcases ho with rfl | rfl
    · rw [hv.table old (by simpa using hu)]
      exact .refl _
    · exact hv.parents old rfl
  · intro f hff hne
    refine hv.table f ?_
    rcases ho with rfl | rfl
    · simpa using hff
    · rw [hp] at hne
      simpa [hff] using hne
  · intro e he
    have hne : e ≠ d := by
      rintro rfl
      exact he hd
    rw [hv.proc, hv.parent, hfields]
    simp [freed, Kern.setProc, update_of_ne hne]
  · intro e he
    rw [hd] at he
    cases he
    refine ⟨⟨by rw [hproc]; rfl, by rw [hproc]; exact ⟨rfl, rfl, rfl⟩, ⟨by rw [hproc]; rfl, ?_⟩,
      by rw [hproc]; rfl, ?_⟩, ?_⟩
    · rw [hv.parent]
      exact update_self ..
    · rw [hf]
      simp [Fields.free]
    · rw [hf]
      exact hq

/-- The system with the slot `d` given out, and the memory `k`. -/
def given (s : Sys) (d : Vm.Slot) (k : Kern) : Sys :=
  { setFields s d ((s.fields d).alloc s.nextpid s.ticks) with nextpid := s.nextpid + 1, kern := k }

theorem fork_cases (g : Ground s.kern) (hpar : Parent s.kern p old)
    (hd : firstUnused s.kern = some d) (hb : Blank (s.kern.proc d)) (hne : p ≠ d) :
    (∃ k o, (o = none ∨ o = some old) ∧ Vacated s.kern d o k ∧
      fork p s = .ok (none, setFields (given s d k) d ((given s d k).fields d).free)) ∨
    (∃ pid s', fork p s = .ok (some pid, s')) ∨
    fork p s = .halt .filedup ∧ ∃ fd, (s.fields p).ofile fd ≠ 0 ∧ s.fileRef ((s.fields p).ofile fd) = 0 := by
  have hclaim := (solo_claimSlot (c := p) (List.finRange NPROC)).2 d hd
  obtain ⟨ok, k1, hk1, hend⟩ := solo_allocMemory (c := p) g hb
  have halloc : allocproc p s = if ok then .ok (some d, given s d k1)
      else .ok (none, setFields (given s d k1) d ((given s d k1).fields d).free) := by
    unfold allocproc
    rw [onMemory_ok hclaim, bind_ok]
    dsimp only
    rw [onMemory_ok (k := k1) (x := ok) hk1, bind_ok]
    rfl
  unfold fork
  rw [halloc]
  rcases hend with ⟨rfl, hv⟩ | ⟨rfl, root, tf, hal⟩
  · exact .inl ⟨k1, none, .inl rfl, hv, rfl⟩
  obtain ⟨ok, q, np, k2, hk2, hfail⟩ := solo_copyMemory g hal hpar hne hb.2.2
  rw [if_pos rfl, bind_ok]
  dsimp only
  rw [onMemory_ok (s := given s d k1) hk2, bind_ok]
  cases ok with
  | false =>
    obtain ⟨k3, hk3, hv⟩ := hfail rfl
    refine .inl ⟨k3, some old, .inr rfl, hv, ?_⟩
    rw [if_neg Bool.false_ne_true, onMemory_ok (s := { given s d k1 with kern := k2 }) hk3, bind_ok]
    rfl
  | true =>
    have hparent : (given s d k1).fields p = s.fields p := update_of_ne hne _ _
    refine .inr ?_
    rw [if_pos rfl, hparent]
    rcases dupFiles_cases (s.fields p).ofile (List.finRange NOFILE) s.fileRef with ⟨ref, href⟩ | ⟨hhalt, hfd⟩
    · refine .inl ?_
      change ∃ pid s', (dupFiles _ _ s.fileRef).bind _ = _
      rw [href, bind_ok]
      obtain ⟨k3, hk3⟩ : ∃ k3, solo p (startChild d q np) k2 = .ok ((), k3) :=
        ⟨_, (solo_step rfl).trans ((solo_step rfl).trans (solo_act rfl))⟩
      exact ⟨_, _, rfl⟩
    · refine .inr ⟨?_, hfd⟩
      change (dupFiles _ _ s.fileRef).bind _ = _
      rw [hhalt]
      rfl

theorem fork_full (hd : firstUnused s.kern = none) : fork p s = .ok (none, s) := by
  have hclaim := (solo_claimSlot (c := p) (List.finRange NPROC)).1 hd
  unfold fork allocproc
  rw [onMemory_ok hclaim]
  rfl

theorem Restored.refl (hh : s.kern.holder = none) (hd : firstUnused s.kern = none) : Restored p s s where
  free := .refl _
  counts := rfl
  unlocked := ⟨hh, rfl⟩
  contents _ _ := rfl
  parents _ _ := .refl _
  tables _ _ _ := rfl
  others _ _ := ⟨rfl, rfl, rfl⟩
  chosen e he := by
    rw [hd] at he
    cases he
  files := rfl
  inodes := rfl
  held := ⟨rfl, rfl⟩

/-- **Every end of `fork`.** -/
theorem fork_ends (h : Reach vm.step (· = boot first) (fun _ _ => True) σ) (hidle : σ.idle (some p))
    (hrun : (σ.shared.proc p).state = .runnable) (hh : σ.shared.holder = none) (hs : s.kern = σ.shared) :
    (∃ s', fork p s = .ok (none, s') ∧ Restored p s s') ∨ (∃ pid s', fork p s = .ok (some pid, s')) ∨
    fork p s = .halt .filedup ∧ ∃ fd, (s.fields p).ofile fd ≠ 0 ∧ s.fileRef ((s.fields p).ofile fd) = 0 := by
  have g := ground_of_reach h hh
  obtain ⟨old, hpar⟩ := parent_of_reach h hidle hrun
  rw [← hs] at g hpar hrun
  cases hd : firstUnused s.kern with
  | none => exact .inl ⟨s, fork_full hd, .refl g.unlocked hd⟩
  | some d =>
    have hun := firstUnused_state hd
    have hb : Blank (s.kern.proc d) := by
      rw [hs] at hun ⊢
      exact blank_of_reach h hun
    have hne : p ≠ d := by
      rintro rfl
      rw [hrun] at hun
      cases hun
    refine (fork_cases g hpar hd hb hne).imp_left fun ⟨k, o, ho, hv, hfork⟩ => ⟨_, hfork, ?_⟩
    refine hv.restored hd hpar.pagetable ho hpar.used (q := (given s d k).fields d) ?_ ?_ rfl rfl
    · simp [given, setFields, Fields.alloc]
    · simp [given, setFields]

/-- The first process, with five free pages: enough for its child's trapframe and the top of its page table. -/
def atStart : State := after vm.step (boot (PHYSTOP - 12)) startRun

def firstSys : Sys where
  kern := atStart.shared
  fields _ := { pid := 1, chan := 0, killed := false, name := [], smask := 0, interval := 0, nticks := 0
                handler := 0, cwd := 1, ofile := fun _ => 0, sched := Slot.newSched 0 }
  nextpid := 2
  ticks := 0
  fileRef _ := 0
  inodeRef _ := 1

end Xv6Riscv.Fork
