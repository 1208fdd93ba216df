import Xv6Riscv.Vm.Fault

/-!
# `memref.lock` and `lock_kalloc`

Whether `kalloc` takes `memref.lock` is decided by a flag that `handleCOW` clears while it has the lock (trap.c:50-76),
so that its own `kalloc` does not take the lock a second time. Any CPU may clear and set the flag around its own
faults, and the flag may have been left at 0 by a fault that failed. The protocol still holds in every interleaving
(`LockProtocol`). The `mappages` of a fault finds the page-table pages that `uvmunmap` has left, so it does not fail,
and the `kfree` after it, which takes the lock again, is not reached.

All of this is read off the views of `Vm/Views.lean`: with its view a thread can finish its program, and a program that
would come to `acquire` with the lock taken cannot be finished.
-/
namespace Xv6Riscv.Vm
open Multiset Threads Machine

variable {k : Cond} {t : Tid} {c : Slot} {α : Type} {v : View} {f root mem : Frame} {i fq : Nat} {pte : Pte}
  {perm : Perm} {s s' : State} {first : Frame}

/-! ## What the rules say of a thread that can go on -/

theorem Valid.anti {v' : View} (h : Valid v) (hp : v'.pages ≤ v.pages) (hr : v'.refs ≤ v.refs) : Valid v' where
  nodup := nodup_of_le hp h.nodup
  apart f hf hfr := h.apart f (mem_of_le hp hf) (mem_of_le hr hfr)
  below f hf := h.below f (mem_of_le (add_le_add hp hr) hf)

/-- The count of a page that is freed becomes 0, and the page is in transit. -/
theorem RefStep.valid {v' : View} (h : RefStep f 0 v v') (hv : Valid v) : Valid v' := by
  cases h with
  | share l m _ _ _ hm => omega
  | drop l m rest _ _ hrefs _ _ => exact hv.anti le_rfl (hrefs ▸ le_cons_self rest f)
  | lastPage l rest _ hpages _ => exact hv.anti (hpages ▸ le_cons_self rest f) le_rfl
  | lastRef l m rest _ _ hrefs _ _ => exact hv.anti le_rfl (hrefs ▸ le_cons_self rest f)

/-- A thread that can run `kfree` does not have the lock, neither before nor after it. -/
theorem Wp.kfree {Q : Unit → View → Prop} (hv : Valid v) (h : Wp k t (kfree f) v Q) :
    v.lock = none ∧ ∃ v', Valid v' ∧ v'.lock = none ∧ Q () v' := by
  obtain ⟨-, h⟩ := h.2 hv
  obtain ⟨hl, h⟩ := h.2 hv
  refine ⟨hl, ?_⟩
  -- the count may be 1, whoever else has references
  obtain ⟨l, -, -, h⟩ := h.2 (hv.anti le_rfl le_rfl)
  rcases (h 1 Nat.one_pos fun _ => rfl).2 (hv.anti le_rfl le_rfl) with ⟨v1, hstep, h⟩ | ⟨z, -, h0, -⟩
  · have hv1 := hstep.valid (hv.anti le_rfl le_rfl)
    obtain ⟨-, h⟩ := h.2 hv1
    rcases h.2 (hv1.anti le_rfl le_rfl) with ⟨-, h⟩ | ⟨-, h⟩
    all_goals
      obtain ⟨z, -, hQ⟩ := h.2 (hv1.anti le_rfl le_rfl)
      refine ⟨_, ?_, ?_, (Rules.wp_ret _ _).1 hQ⟩
      · exact hv1.anti le_rfl le_rfl
      · rfl
  · cases h0

/-- The failing end of `handleCOW` cannot be finished: `kfree` needs the lock free, and `memref_unlock` after it
needs the lock. -/
theorem not_wp_cowMapped {Q : Bool → View → Prop} (hv : Valid v) : ¬ Wp k t (cowMapped pte mem fq false) v Q := by
  intro h
  obtain ⟨-, v', hv', hl, h⟩ := Wp.kfree hv ((Rules.wp_bind _ _ _).1 h)
  exact (h.2 hv').1 hl

/-- A thread that can run `kalloc` has not the lock, or has cleared the flag; and it can go on without a page. -/
theorem Wp.kalloc {Q : Option Frame → View → Prop} (hk : k.memory = false) (ht : t ≠ none) (hv : Valid v)
    (h : Wp k t kalloc v Q) : Unlocked v ∧ Q none v := by
  obtain ⟨hnone, hsome⟩ := h.2 hv
  refine ⟨?_, hnone hk ht⟩
  by_contra hlock
  unfold Unlocked at hlock
  rw [not_or, not_exists] at hlock
  obtain ⟨l, hl⟩ := Option.ne_none_iff_exists'.1 hlock.1
  -- with a page, and the flag at 1, the next action is `acquire`
  have hout : ∀ {R : Multiset Frame}, (∀ g ∈ R, g < PHYSTOP) → PHYSTOP ∉ R :=
    fun hR hmem => absurd (hR _ hmem) (lt_irrefl _)
  have h := hsome PHYSTOP (hout fun g hg => hv.below g (mem_add.2 (.inl hg)))
    (hout fun g hg => hv.below g (mem_add.2 (.inr hg)))
  have h := h.2 (hv.anti le_rfl le_rfl) true fun l' hl' hshut => absurd ⟨hl', hshut⟩ (hlock.2 l')
  have hfree : v.lock = none := (h.2 (hv.anti le_rfl le_rfl)).1
  rw [hl] at hfree
  cases hfree

/-! ## Programs that leave the lock alone -/

/-- With `lock_kalloc` at 0, the program does nothing to the lock and the flag. -/
def KeepsLock : K α → Prop
  | .ret _ => True
  | .act .lockKalloc next => KeepsLock (next false)
  | .act .acquire _ | .act .release _ | .act (.setLockKalloc _) _ => False
  | .act _ next => ∀ r, KeepsLock (next r)

theorem keepsLock_kalloc : KeepsLock kalloc := by
  intro o
  cases o with
  | none => trivial
  | some f => exact fun _ _ => trivial

/-- When a `kalloc` of the program finds no page, the program returns `x`. -/
def FailsWith (x : α) : K α → Prop
  | .ret _ => True
  | .act .pop next => next none = .ret x ∧ ∀ r, FailsWith x (next r)
  | .act _ next => ∀ r, FailsWith x (next r)

theorem FailsWith.next {x : α} {a : Act} {next : a.Res → K α} (h : FailsWith x (.act a next)) (r : a.Res) :
    FailsWith x (next r) := by
  cases a with
  | pop => exact h.2 r
  | _ => exact h r

theorem FailsWith.bind {β : Type} {x : α} {y : β} {p : K α} {g : α → K β} (hp : FailsWith x p) (hx : g x = .ret y)
    (hg : ∀ z, FailsWith y (g z)) : FailsWith y (p >>= g) := by
  induction p with
  | ret z => exact hg z
  | act a next ih =>
    have hnext : ∀ r, FailsWith y (next r >>= g) := fun r => ih r (hp.next r)
    cases a with
    | pop =>
      refine ⟨?_, hnext⟩
      change (next none >>= g) = _
      rw [hp.1]
      exact hx
    | _ => exact hnext

theorem failsWith_kalloc : FailsWith none kalloc := by
  refine ⟨rfl, fun o => ?_⟩
  cases o with
  | none => trivial
  | some f =>
    intro b
    cases b with
    | true => exact fun _ _ _ _ => trivial
    | false => exact fun _ _ => trivial

theorem failsWith_walkDir : FailsWith false (walkDir root i true) := by
  intro T
  change FailsWith false (if _ then _ else _)
  split
  · trivial
  · refine failsWith_kalloc.bind rfl fun o => ?_
    cases o with
    | none => trivial
    | some f => exact fun _ _ => trivial

theorem failsWith_walkSub : FailsWith false (walkSub root i true) := by
  intro T
  change FailsWith false (if _ then _ else _)
  split
  · trivial
  · refine failsWith_kalloc.bind rfl fun o => ?_
    cases o with
    | none => trivial
    | some f => exact fun _ _ => trivial

theorem failsWith_walk : FailsWith none (walk root i true) := by
  unfold walk
  split
  · exact fun r => r.elim
  refine failsWith_walkDir.bind rfl fun b => ?_
  cases b with
  | false => trivial
  | true =>
    refine failsWith_walkSub.bind rfl fun b => ?_
    cases b with
    | false => trivial
    | true => exact fun _ => trivial

theorem failsWith_mappages : FailsWith false (mappages root i f perm) := by
  refine failsWith_walk.bind rfl fun o => ?_
  match o with
  | none => trivial
  | some none => exact fun _ _ => trivial
  | some (some _) => exact fun r => r.elim

/-! ## Runs -/

theorem Kern.exec_lock {s s' : Kern} {a : Act} {r : a.Res} (h : s.exec t a = .ok (r, s')) (h1 : a ≠ .acquire)
    (h2 : a ≠ .release) (h3 : ∀ b, a ≠ .setLockKalloc b) : s'.holder = s.holder ∧ s'.lockKalloc = s.lockKalloc := by
  cases a with
  | acquire => exact absurd rfl h1
  | release => exact absurd rfl h2
  | setLockKalloc b => exact absurd rfl (h3 b)
  | panic m => cases h
  | _ =>
    simp only [Kern.exec] at h
    grind [Kern.setProc]

section
variable (h : Reach vm.step (· = boot first) (fun _ _ => True) s)
include h

theorem wp_of_reach :
    ∃ W, Inv .free s.shared W ∧ ∀ t, Valid (W t) ∧ Wp .free t (s.todo t) (W t) fun _ => Rest .free t := by
  obtain ⟨W, hinv, hwp⟩ := holds_free h
  exact ⟨W, hinv, fun t => ⟨hinv.books.valid t, hwp t⟩⟩

/-- While one thread has the lock, the others change neither the holder nor the flag. -/
theorem others_keep_lock (hh : s.shared.holder = some t)
    {e : Event Tid Call} (hne : e.by ≠ t) (hstep : vm.step s e = .ok s') :
    s'.shared.holder = some t ∧ s'.shared.lockKalloc = s.shared.lockKalloc := by
  cases e with
  | start u call =>
    obtain ⟨-, -, rfl⟩ := System.start_eq_ok.1 hstep
    exact ⟨hh, rfl⟩
  | next u =>
    obtain ⟨a, next, r, σ', htodo, hex, rfl⟩ := System.next_eq_ok.1 hstep
    have hu : t ≠ u := fun he => hne he.symm
    by_cases ha : a = .acquire ∨ a = .release
    · -- the one waits, the other panics
      rcases ha with rfl | rfl
      · have hex : s.shared.exec u .acquire = .ok (r, σ') := hex
        simp only [Kern.exec, hh, if_neg hu] at hex
        cases hex
      · have hex : s.shared.exec u .release = .ok (r, σ') := hex
        simp only [Kern.exec, hh, Option.some.injEq, if_neg hu] at hex
        cases hex
    · rw [not_or] at ha
      by_cases hb : ∃ b, a = .setLockKalloc b
      · -- only the holder of the lock writes the flag
        obtain ⟨b, rfl⟩ := hb
        obtain ⟨W, hinv, hwp⟩ := wp_of_reach h
        obtain ⟨hv, hwu⟩ := hwp u
        rw [htodo] at hwu
        obtain ⟨l, hl, -⟩ := hwu.2 hv
        have hholder := (hinv.locks u).holder.2 (by rw [hl]; simp)
        rw [hh] at hholder
        exact absurd (Option.some.inj hholder) hu
      · have hkeep := Kern.exec_lock hex ha.1 ha.2 (not_exists.1 hb)
        exact ⟨hkeep.1.trans hh, hkeep.2⟩

variable {rest : Bool → K Unit}

/-- Where `handleCOW` comes to its `kalloc`, it has the lock and has cleared the flag. -/
theorem locked_at_kalloc (hat : s.todo (some c) = (kalloc >>= fun o => cowCopy root i pte fq o >>= rest)) :
    s.shared.holder = some (some c) ∧ s.shared.lockKalloc = false := by
  obtain ⟨W, hinv, hwp⟩ := wp_of_reach h
  obtain ⟨hv, hw⟩ := hwp (some c)
  rw [hat] at hw
  obtain ⟨hunlocked, hnone⟩ := Wp.kalloc rfl (Option.some_ne_none c) hv ((Rules.wp_bind _ _ _).1 hw)
  have hlock : (W (some c)).lock ≠ none := (hnone.2 hv).1
  refine ⟨(hinv.locks _).holder.2 hlock, ?_⟩
  rcases hunlocked with hl | ⟨l, hl, hshut⟩
  · exact absurd hl hlock
  · exact (hinv.locks _).shut l hl hshut

/-- The flag stays at 0 to the end of that `kalloc`. -/
theorem shut_inside_kalloc
    {q : K (Option Frame)} (hin : Inside vm (some c) kalloc (fun o => cowCopy root i pte fq o >>= rest) s q s') :
    s'.shared.holder = some (some c) ∧ s'.shared.lockKalloc = false := by
  suffices hkeep : (s'.shared.holder = some (some c) ∧ s'.shared.lockKalloc = false) ∧ KeepsLock q from hkeep.1
  induction hin with
  | enter hat => exact ⟨locked_at_kalloc h hat, keepsLock_kalloc⟩
  | other e hin hne hstep ih =>
    have hkeep := others_keep_lock (hin.reach h) ih.1.1 hne hstep
    exact ⟨⟨hkeep.1, hkeep.2.trans ih.1.2⟩, ih.2⟩
  | @own s₁ a next r σ' hin hex ih =>
    obtain ⟨⟨hholder, hflag⟩, hkeeps⟩ := ih
    by_cases hread : a = .lockKalloc
    · subst hread
      cases hex
      refine ⟨⟨hholder, hflag⟩, ?_⟩
      rw [hflag]
      exact hkeeps
    · have hkeep := Kern.exec_lock hex (by rintro rfl; exact hkeeps) (by rintro rfl; exact hkeeps)
        (by rintro b rfl; exact hkeeps)
      refine ⟨⟨hkeep.1.trans hholder, hkeep.2.trans hflag⟩, ?_⟩
      cases a with
      | lockKalloc => exact absurd rfl hread
      | acquire => exact hkeeps.elim
      | release => exact hkeeps.elim
      | setLockKalloc b => exact hkeeps.elim
      | _ => exact hkeeps r

/-- No thread is at the failing end of `handleCOW`. -/
theorem not_at_kfree : s.todo t ≠ (cowMapped pte mem fq false >>= rest) := by
  intro hat
  obtain ⟨W, -, hwp⟩ := wp_of_reach h
  obtain ⟨hv, hw⟩ := hwp t
  rw [hat] at hw
  exact not_wp_cowMapped hv ((Rules.wp_bind _ _ _).1 hw)

end

/-- **The protocol of `memref.lock`.** -/
structure LockProtocol (s : State) : Prop where
  /-- Nobody is about to acquire the lock it has. -/
  acquire : ∀ t next, s.todo t = .act .acquire next → s.shared.holder ≠ some t
  panic : ∀ e, vm.step s e ≠ .halt .acquire
  /-- From here on the flag is 0 as long as the `kalloc` of a fault goes on. -/
  kalloc : ∀ c root i pte fq rest q s', Inside vm (some c) kalloc (fun o => cowCopy root i pte fq o >>= rest) s q s' →
    s'.shared.holder = some (some c) ∧ s'.shared.lockKalloc = false
  /-- From here on the `mappages` of a fault takes no page and does not fail. -/
  mappages : ∀ c root i pte mem fq rest q s',
    Inside vm (some c) (mappages root i mem pte.perm.unshare) (fun ok => cowMapped pte mem fq ok >>= rest) s q s' →
    (∀ next, q ≠ .act .pop next) ∧ q ≠ .ret false
  kfree : ∀ t pte mem fq rest, s.todo t ≠ (cowMapped pte mem fq false >>= rest)

/-- **No CPU waits for itself**: the protocol holds in every state of every run. -/
theorem lock_protocol (h : Reach vm.step (· = boot first) (fun _ _ => True) s) : LockProtocol s := by
  have hacquire : ∀ t next, s.todo t = .act .acquire next → s.shared.holder ≠ some t := by
    intro t next hat hholder
    obtain ⟨W, hinv, hwp⟩ := wp_of_reach h
    obtain ⟨hv, hw⟩ := hwp t
    rw [hat] at hw
    exact (hinv.locks t).holder.1 hholder (hw.2 hv).1
  refine ⟨hacquire, fun e he => ?_, fun c root i pte fq rest q s' hin => shut_inside_kalloc h hin,
    fun c root i pte mem fq rest q s' hin => ⟨?_, ?_⟩, fun t pte mem fq rest => not_at_kfree h⟩
  · exact nomatch (Holds.halt (sound _) (holds_free h) he : Panic.acquire.reachable = true)
  · -- without a page it would come to `kfree`
    rintro next rfl
    obtain ⟨W, -, hwp⟩ := wp_of_reach (hin.reach h)
    obtain ⟨hv, hw⟩ := hwp (some c)
    have hfails : FailsWith false (.act .pop next) := hin.closed (fun r hq => hq.next r) failsWith_mappages
    rw [hin.todo] at hw
    have hnone : Wp .free (some c) (next none) (W (some c)) _ := (((Rules.wp_bind _ _ _).1 hw).2 hv).1 rfl nofun
    rw [hfails.1] at hnone
    have hend : Wp .free (some c) (cowMapped pte mem fq false >>= rest) (W (some c)) _ := hnone
    exact not_wp_cowMapped hv ((Rules.wp_bind _ _ _).1 hend)
  · rintro rfl
    have hend : s'.todo (some c) = (cowMapped pte mem fq false >>= rest) := hin.todo
    exact not_at_kfree (hin.reach h) hend

/-- The first process has two pages, has forked, and is in the `kalloc` of a store to a shared page. -/
def faultRun : List (Event Tid Call) := sharedRun ++ callEvents (some initSlot) (.store PGSIZE 0) 9

theorem lock_protocol_fault :
    (after vm.step (boot (PHYSTOP - 24)) faultRun).shared.lockKalloc = false ∧
      LockProtocol (after vm.step (boot (PHYSTOP - 24)) faultRun) :=
  ⟨by decide +kernel, lock_protocol (.of_run (fun _ _ => trivial) faultRun (.init rfl)
    (run_eq_after _ (by decide +kernel)))⟩

end Xv6Riscv.Vm
