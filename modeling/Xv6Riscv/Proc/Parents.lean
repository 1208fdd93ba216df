import Xv6Riscv.Proc.Sleep

/-!
# The parent relation

A parent pointer leads to a process that is alive and older: `fork` sets it from the running parent to the slot it has
just allocated, and `exit` moves the children to `init`, the oldest process, before it becomes a ZOMBIE. So following
the pointers ends at `init` (`parent_forest`).
-/
namespace Xv6Riscv.Proc
open Machine
open Function (update update_self update_of_ne)

/-- In `exit`, before the process is a ZOMBIE. -/
def Pc.exiting : Pc → Bool
  | .exitLock _ | .exitReparent _ _ | .exitZombie _ => true
  | _ => false

structure Parents (s : Sys) : Prop where
  older : ∀ p, s.state p ≠ .unused → s.birth p < s.births
  unused : ∀ p, s.state p = .unused → s.parent p = none
  root : s.parent initproc = none ∧ Live (s.state initproc) ∧ s.birth initproc = 0 ∧ (s.pc initproc).exiting = false
  linked : ∀ p, s.state p ≠ .unused → p ≠ initproc → s.parent p = none → ∃ r, s.pc r = .forkParent p
  unlinked : ∀ r np, s.pc r = .forkParent np → s.parent np = none
  up : ∀ p r, s.parent p = some r → Live (s.state r) ∧ s.birth r < s.birth p
  made : ∀ r np, (s.pc r).making = some np → s.birth r < s.birth np
  moved : ∀ r st i, s.pc r = .exitReparent st i → ∀ j < i, s.parent j ≠ some r
  orphaned : ∀ r st, s.pc r = .exitZombie st → ∀ j, s.parent j ≠ some r

namespace Parents
variable {s s' : Sys} {c p q : Nat}

section
variable (h : Parents s)
include h

theorem goto {b : Pc} (ha : ∀ np, s.pc p ≠ .forkParent np) (hb : b.making = none)
    (hmoved : ∀ st i, b = .exitReparent st i → ∀ j < i, s.parent j ≠ some p)
    (horph : ∀ st, b = .exitZombie st → ∀ j, s.parent j ≠ some p) (hinit : b.exiting = true → p ≠ initproc) :
    Parents (goto s p b) where
  older := h.older
  unused := h.unused
  root := by
    refine ⟨h.root.1, h.root.2.1, h.root.2.2.1, ?_⟩
    by_cases e : initproc = p
    · simp only [Proc.goto, e, update_self]
      cases hx : b.exiting with
      | false => rfl
      | true => exact absurd e.symm (hinit hx)
    · simp only [Proc.goto, update_of_ne e]
      exact h.root.2.2.2
  linked q hq hne hpar := by
    obtain ⟨r, hr⟩ := h.linked q hq hne hpar
    have e : r ≠ p := by rintro rfl; exact ha q hr
    exact ⟨r, by simp only [Proc.goto, update_of_ne e]; exact hr⟩
  unlinked r np hr := h.unlinked r np (eq_of_update hr (by rintro rfl; cases hb)).2
  up := h.up
  made r np hr := h.made r np (Table.making_of_update hb hr)
  moved r st i hr := by
    by_cases e : r = p
    · subst e
      simp only [Proc.goto, update_self] at hr
      exact hmoved st i hr
    · simp only [Proc.goto, update_of_ne e] at hr
      exact h.moved r st i hr
  orphaned r st hr := by
    by_cases e : r = p
    · subst e
      simp only [Proc.goto, update_self] at hr
      exact horph st hr
    · simp only [Proc.goto, update_of_ne e] at hr
      exact h.orphaned r st hr

theorem step {a b : Pc} (hat : At s c p a) (ha : a.making = none) (hb : b.making = none)
    (hx : b.exiting = false) : Parents (Proc.goto s p b) := by
  refine h.goto (fun np hnp => ?_) hb ?_ ?_ (fun hx' => ?_)
  · rw [hat.pc] at hnp
    rw [hnp] at ha
    cases ha
  · rintro st i rfl; cases hx
  · rintro st rfl; cases hx
  · rw [hx] at hx'; cases hx'

theorem setState (st : ProcState) (hold : s.state q ≠ .unused) (hnew : st ≠ .unused)
    (hinit : q = initproc → Live st) (hkids : ∀ j, s.parent j = some q → Live st) :
    Parents { s with state := update s.state q st } := by
  have hne : ∀ {r}, update s.state q st r ≠ .unused → s.state r ≠ .unused := by
    intro r hr
    by_cases e : r = q
    · rw [e]; exact hold
    · rwa [update_of_ne e] at hr
  have hlive : ∀ {r}, (r = q → Live st) → Live (s.state r) → Live (update s.state q st r) := by
    intro r hst hr
    by_cases e : r = q
    · rw [e, update_self]
      exact hst e
    · rwa [update_of_ne e]
  exact { h with
    older := fun r hr => h.older r (hne hr)
    unused := fun r hr => h.unused r (eq_of_update hr hnew.symm).2
    root := ⟨h.root.1, hlive (fun e => hinit e.symm) h.root.2.1, h.root.2.2⟩
    linked := fun r hr => h.linked r (hne hr)
    up := fun r r' hr => ⟨hlive (fun e => hkids r (e ▸ hr)) (h.up r r' hr).1, (h.up r r' hr).2⟩ }

theorem setLive (st : ProcState) (hold : s.state q ≠ .unused) (hnew : Live st) :
    Parents { s with state := update s.state q st } :=
  h.setState st hold (by rintro rfl; exact hnew) (fun _ => hnew) fun _ _ => hnew

theorem init_ne (hst : ¬ Live (s.state q)) : initproc ≠ q := by
  rintro rfl
  exact hst h.root.2.1

theorem freeproc (hst : ¬ Live (s.state q)) : Parents (freeproc s q) := by
  have hstate : ∀ {r}, update s.state q .unused r ≠ .unused → r ≠ q ∧ s.state r ≠ .unused :=
    fun hr => of_update (· ≠ ProcState.unused) hr fun hne => hne rfl
  have hpar : ∀ {r r'}, update s.parent q none r = some r' → s.parent r = some r' :=
    fun hr => (eq_of_update hr nofun).2
  have hlive : ∀ {r}, Live (s.state r) → Live (update s.state q .unused r) := by
    intro r hr
    have e : r ≠ q := by rintro rfl; exact hst hr
    rwa [update_of_ne e]
  exact {
    older := fun r hr => h.older r (hstate hr).2
    unused := by
      intro r hr
      by_cases e : r = q
      · subst e; simp only [Proc.freeproc, update_self]
      · simp only [Proc.freeproc, update_of_ne e] at hr ⊢
        exact h.unused r hr
    root := by
      have e := h.init_ne hst
      exact ⟨by simp only [Proc.freeproc, update_of_ne e]; exact h.root.1, hlive h.root.2.1, h.root.2.2⟩
    linked := by
      intro r hr hne hn
      obtain ⟨e, hr⟩ := hstate hr
      simp only [Proc.freeproc, update_of_ne e] at hn
      exact h.linked r hr hne hn
    unlinked := by
      intro r np hr
      by_cases e : np = q
      · subst e; simp only [Proc.freeproc, update_self]
      · simp only [Proc.freeproc, update_of_ne e]
        exact h.unlinked r np hr
    up := fun r r' hr => ⟨hlive (h.up r r' (hpar hr)).1, (h.up r r' (hpar hr)).2⟩
    made := h.made
    moved := fun r st i hr j hj hn => h.moved r st i hr j hj (hpar hn)
    orphaned := fun r st hr j hn => h.orphaned r st hr j (hpar hn) }

theorem wakeSlot (ch : Chan) : Parents (wakeSlot s ch q) := by
  unfold Proc.wakeSlot
  split
  · rename_i hg
    exact { h.setLive (q := q) .runnable (by rw [hg.1]; decide) trivial with }
  · exact h

end

theorem boot : Parents boot where
  older p hp := by
    simp only [Proc.boot] at hp ⊢
    omega
  unused _ _ := rfl
  root := ⟨rfl, trivial, rfl, rfl⟩
  linked p hp hne := by
    simp only [Proc.boot, if_neg hne] at hp
    exact absurd rfl hp
  unlinked _ _ := nofun
  up _ _ := nofun
  made _ _ := nofun
  moved _ _ _ := nofun
  orphaned _ _ := nofun

section
variable (h : Parents s)
include h

theorem alloc (ht : Table s) (hv : Lives s) {i : Nat} (hat : At s c p (.allocproc i))
    (hst : s.state i = .unused) : Parents (Proc.goto (allocate s p i) p (.forkParent i)) := by
  have hrun := (ht.runs_unlocked hat.toRuns (by rw [hat.pc]; rfl)).2
  have hpi : p ≠ i := by rintro rfl; rw [hrun] at hst; cases hst
  have hpar : s.parent i = none := h.unused i hst
  have hinit : initproc ≠ i := h.init_ne (by rw [hst]; exact id)
  have hother : ∀ {r b}, update (update s.pc i .forkret) p (.forkParent i) r = b →
      b ≠ .forkret → b ≠ .forkParent i → s.pc r = b := fun hr h1 h2 =>
    (eq_of_update (eq_of_update hr h2).2 h1).2
  have hlive : ∀ {r}, Live (s.state r) → r ≠ i := by
    rintro r hr rfl
    rw [hst] at hr
    exact hr
  exact {
    older := by
      intro r hr
      by_cases e : r = i
      · subst e; simp only [Proc.goto, allocate, update_self]; omega
      · simp only [Proc.goto, allocate, update_of_ne e] at hr ⊢
        exact Nat.lt_succ_of_lt (h.older r hr)
    unused := fun r hr => h.unused r (eq_of_update hr (by decide)).2
    root := by
      refine ⟨h.root.1, ?_, ?_, ?_⟩
      · simp only [Proc.goto, allocate, update_of_ne hinit]; exact h.root.2.1
      · simp only [Proc.goto, allocate, update_of_ne hinit]; exact h.root.2.2.1
      · by_cases e : initproc = p
        · simp only [Proc.goto, allocate, e, update_self]; rfl
        · simp only [Proc.goto, allocate, update_of_ne e, update_of_ne hinit]
          exact h.root.2.2.2
    linked := by
      intro r hr hne hn
      by_cases e : r = i
      · exact ⟨p, by simp only [Proc.goto, e, update_self]⟩
      simp only [Proc.goto, allocate, update_of_ne e] at hr
      obtain ⟨r', hr'⟩ := h.linked r hr hne hn
      have e1 : r' ≠ p := by rintro rfl; rw [hat.pc] at hr'; cases hr'
      have e2 : r' ≠ i := by
        rintro rfl
        rcases hv.unused r' hst with e2 | e2 <;> rw [e2] at hr' <;> cases hr'
      exact ⟨r', by simp only [Proc.goto, allocate, update_of_ne e1, update_of_ne e2]; exact hr'⟩
    unlinked := by
      intro r np hr
      by_cases e : np = i
      · rw [e]; exact hpar
      · exact h.unlinked r np (hother hr (by simp) fun he => e (Pc.forkParent.inj he))
    up := by
      intro r r' hr
      obtain ⟨hl, hb⟩ := h.up r r' hr
      have e : r ≠ i := by rintro rfl; rw [show s.parent r = some r' from hr] at hpar; cases hpar
      have e' := hlive hl
      simp only [Proc.goto, allocate, update_of_ne e, update_of_ne e']
      exact ⟨hl, hb⟩
    made := by
      intro r np hr
      by_cases e : r = p
      · subst e
        simp only [Proc.goto, update_self] at hr
        cases hr
        simp only [Proc.goto, allocate, update_self, update_of_ne hpi]
        exact h.older r (by rw [hrun]; decide)
      simp only [Proc.goto, allocate, update_of_ne e] at hr
      obtain ⟨e', hold⟩ := of_update (Pc.making · = some np) hr (by simp [Pc.making])
      have hnp : np ≠ i := by
        rintro rfl
        have := ht.made r np hold
        rw [hst] at this
        cases this
      simp only [Proc.goto, allocate, update_of_ne e', update_of_ne hnp]
      exact h.made r np hold
    moved := fun r st j hr => h.moved r st j (hother hr (by simp) (by simp))
    orphaned := fun r st hr => h.orphaned r st (hother hr (by simp) (by simp)) }

theorem setParent (ht : Table s) {np : Nat} (hat : At s c p (.forkParent np)) :
    Parents { Proc.goto s p (.forkRunnable np) with parent := update s.parent np (some p) } := by
  have hrun := (ht.runs_unlocked hat.toRuns (by rw [hat.pc]; rfl)).2
  have hmk : (s.pc p).making = some np := by rw [hat.pc]; rfl
  have hused := ht.made p np hmk
  have hinit : initproc ≠ np := h.init_ne (by rw [hused]; exact id)
  have hkept : ∀ {r j}, r ≠ p → update s.parent np (some p) j = some r → s.parent j = some r :=
    fun hne hj => (eq_of_update hj (by simpa using hne)).2
  exact {
    older := h.older
    unused := by
      intro r hr
      have e : r ≠ np := by rintro rfl; rw [show s.state r = .unused from hr] at hused; cases hused
      simp only [update_of_ne e]
      exact h.unused r hr
    root := by
      refine ⟨by simp only [update_of_ne hinit]; exact h.root.1, h.root.2.1, h.root.2.2.1, ?_⟩
      by_cases e : initproc = p
      · simp only [Proc.goto, e, update_self]; rfl
      · simp only [Proc.goto, update_of_ne e]; exact h.root.2.2.2
    linked := by
      intro r hr hne hn
      obtain ⟨e, hn⟩ := eq_of_update hn (by simp)
      obtain ⟨r', hr'⟩ := h.linked r hr hne hn
      have e' : r' ≠ p := by
        rintro rfl
        rw [hat.pc] at hr'
        exact e (Pc.forkParent.inj hr').symm
      exact ⟨r', by simp only [Proc.goto, update_of_ne e']; exact hr'⟩
    unlinked := by
      intro r np' hr
      obtain ⟨hne, hold⟩ := eq_of_update hr (by simp)
      have e : np' ≠ np := by
        rintro rfl
        exact hne (ht.maker r p np' (by rw [hold]; rfl) hmk)
      simp only [update_of_ne e]
      exact h.unlinked r np' hold
    up := by
      intro r r' hr
      by_cases e : r = np
      · subst e
        simp only [update_self, Option.some.injEq] at hr
        subst hr
        exact ⟨by change Live (s.state p); rw [hrun]; trivial, h.made p r hmk⟩
      · simp only [update_of_ne e] at hr
        exact h.up r r' hr
    made := by
      intro r np' hr
      by_cases e : r = p
      · subst e
        simp only [Proc.goto, update_self] at hr
        cases hr
        exact h.made r np hmk
      · simp only [Proc.goto, update_of_ne e] at hr
        exact h.made r np' hr
    moved := fun r st i hr j hj hn => by
      obtain ⟨hne, hr⟩ := eq_of_update hr (by simp)
      exact h.moved r st i hr j hj (hkept hne hn)
    orphaned := fun r st hr j hn => by
      obtain ⟨hne, hr⟩ := eq_of_update hr (by simp)
      exact h.orphaned r st hr j (hkept hne hn) }

theorem not_init {a : Pc} (hpc : s.pc p = a) (ha : a.exiting = true) : p ≠ initproc := by
  rintro rfl
  have := h.root.2.2.2
  rw [hpc, ha] at this
  cases this

theorem adopt {i : Nat} (hpar : s.parent i = some p) :
    Parents { s with parent := update s.parent i (some initproc) } := by
  have hi : initproc ≠ i := by rintro rfl; rw [h.root.1] at hpar; cases hpar
  have hkept : ∀ {r r'}, update s.parent i (some initproc) r = some r' → r' ≠ initproc →
      s.parent r = some r' := fun hr hne => (eq_of_update hr (by simpa using hne)).2
  exact {
    older := h.older
    unused := by
      intro r hr
      have e : r ≠ i := by rintro rfl; rw [h.unused r hr] at hpar; cases hpar
      simp only [update_of_ne e]
      exact h.unused r hr
    root := ⟨by simp only [update_of_ne hi]; exact h.root.1, h.root.2⟩
    linked := fun r hr hr' hn => h.linked r hr hr' (eq_of_update hn nofun).2
    unlinked := by
      intro r np hr
      have e : np ≠ i := by rintro rfl; rw [h.unlinked r np hr] at hpar; cases hpar
      simp only [update_of_ne e]
      exact h.unlinked r np hr
    up := by
      intro r r' hr
      by_cases e : r = i
      · subst e
        simp only [update_self, Option.some.injEq] at hr
        subst hr
        exact ⟨h.root.2.1, by rw [h.root.2.2.1]; exact Nat.lt_of_le_of_lt (Nat.zero_le _) (h.up r p hpar).2⟩
      · simp only [update_of_ne e] at hr
        exact h.up r r' hr
    made := h.made
    moved := fun r st j hr j' hj hn => h.moved r st j hr j' hj (hkept hn (h.not_init hr rfl))
    orphaned := fun r st hr j hn => h.orphaned r st hr j (hkept hn (h.not_init hr rfl)) }

theorem move (hk : Kernel s) (hm : Move s s') : Parents s' := by
  have ht := hk.table
  cases hm with
  | dispatch c p hc hl hst =>
    exact { h.setLive (q := p) .running (by rw [hst]; decide) trivial with }
  | forkret c p hc hsw hpc =>
    exact { h.goto (p := p) (b := .code) (fun np => by rw [hpc]; nofun) rfl nofun nofun nofun with }
  | wokenUp c p chan k hc hsw hpc =>
    exact { h.goto (p := p) (b := .sleepRelock k) (fun np => by rw [hpc]; nofun) rfl nofun nofun nofun with }
  | yield c p hr hno hl =>
    exact { h.setLive (q := p) .runnable (ht.runs_not_unused hr) trivial with }
  | wakeSlot _ _ chan i | devSlot _ chan i => exact { h.wakeSlot (q := i) chan with }
  | call c p a hat hno hcall =>
    have hb : a.making = none := by cases hcall <;> rfl
    refine h.goto (fun np => by rw [hat.pc]; nofun) hb ?_ ?_ ?_
    · rintro st i rfl; cases hcall
    · rintro st rfl; cases hcall
    · intro hx
      cases hcall with
      | exit status hne => exact hne
      | fork | wait | kill => cases hx
  | scan c p a b hat hscan =>
    exact h.step hat (by cases hscan <;> rfl) (by cases hscan <;> rfl) (by cases hscan <;> rfl)
  | take c p a lk b hat hfree htake =>
    cases htake with
    | code n => exact { h.step hat (b := .code) rfl rfl rfl with }
    | exit status =>
      refine { h.goto (p := p) (b := .exitReparent status 0) (fun np => by rw [hat.pc]; nofun) rfl ?_ nofun ?_ with }
      · rintro st i ⟨⟩ j hj
        exact absurd hj (Nat.not_lt_zero j)
      · exact fun _ => h.not_init hat.pc rfl
    | wait w => exact { h.step hat (b := .waitScan w 0 false) rfl rfl rfl with }
    | sleep k =>
      have hb : k.pc.making = none ∧ k.pc.exiting = false := by cases k <;> exact ⟨rfl, rfl⟩
      exact { h.step hat rfl hb.1 hb.2 with }
  | callSleep _ _ _ _ hat | waitSkip _ _ _ _ _ _ hat | scanned _ _ _ _ _ hat | waitSleep _ _ _ _ hat =>
    exact h.step hat rfl rfl rfl
  | killAwake _ _ _ _ hat | copyTickets _ _ _ hat => exact { h.step hat (b := .code) rfl rfl rfl with }
  | killAsleep c p pid i hat hl hst =>
    have h1 := h.step hat (b := .code) rfl rfl rfl
    exact { h1.setLive (q := i) .runnable (by change s.state i ≠ _; rw [hst]; decide) trivial with }
  | alloc c p i hat hi hl hst => exact h.alloc ht hk.lives hat hst
  | allocFail _ _ i hat _ hst | reap _ _ _ i _ hat _ _ hst =>
    have h1 := h.step hat (b := .code) rfl rfl rfl
    exact { h1.freeproc (q := i) (by change ¬ Live (s.state i); rw [hst]; exact id) with }
  | setParent c p np hat hfree => exact h.setParent ht hat
  | publish c p np hat hl =>
    have hused := ht.made p np (by rw [hat.pc]; rfl)
    have h1 := h.setLive (q := np) .runnable (by rw [hused]; decide) trivial
    exact { h1.goto (p := p) (b := .forkSmask np) (fun np' => by
      rw [hat.pc]
      nofun) rfl nofun nofun nofun with }
  | copySmask c p np hat => exact { h.step hat (b := .forkTickets np) rfl rfl rfl with }
  | keep c p status i hat hne =>
    refine h.goto (fun np => by rw [hat.pc]; nofun) rfl ?_ nofun fun _ => h.not_init hat.pc rfl
    rintro st i' ⟨⟩ j hj
    rcases Nat.lt_succ_iff_lt_or_eq.1 hj with hlt | rfl
    · exact h.moved p status i hat.pc j hlt
    · exact hne
  | adopt c p status i hat hpar =>
    have hinit := h.not_init hat.pc rfl
    have h1 := h.adopt hpar
    refine { h1.goto (p := p) (b := .exitReparent status (i + 1)) (fun np => by
      rw [hat.pc]
      nofun) rfl ?_ nofun (fun _ => hinit) with }
    rintro st i' ⟨⟩ j hj
    by_cases e : j = i
    · subst e
      simp only [update_self]
      exact fun e => hinit (Option.some.inj e).symm
    · simp only [update_of_ne e]
      exact h.moved p status i hat.pc j (by omega)
  | wakeParent c p status i hat hi =>
    refine { h.goto (p := p) (b := .exitZombie status) (fun np => by rw [hat.pc]; nofun) rfl nofun ?_
      (fun _ => h.not_init hat.pc rfl) with }
    rintro st ⟨⟩ j hj
    by_cases hlt : j < i
    · exact h.moved p status i hat.pc j hlt hj
    · rw [h.unused j (ht.bound j (by omega))] at hj
      cases hj
  | die c p status hat hl =>
    have h1 := h.step hat (b := .exitUnlock) rfl rfl rfl
    exact { h1.setState (q := p) .zombie (ht.runs_not_unused hat.toRuns) (by decide)
      (fun e => absurd e (h.not_init hat.pc rfl)) (fun j hj => absurd hj (h.orphaned p status hat.pc j)) with }
  | exitUnlock c p hat => exact { h.step hat (b := .zombie) rfl rfl rfl with }
  | waitReturn c p a hat hin => exact { h.step hat (b := .code) (by cases hin <;> rfl) rfl rfl with }
  | sleepLock c p chan k hat hl => exact { h.step hat (b := .sleepUnlock chan k) rfl rfl rfl with }
  | sleepUnlock c p chan k hat => exact { h.step hat (b := .sleepState chan k) rfl rfl rfl with }
  | sleepState c p chan k hat =>
    have h1 := h.step hat (b := .sleepSched chan k) rfl rfl rfl
    exact { h1.setLive (q := p) .sleeping (ht.runs_not_unused hat.toRuns) trivial with }
  | _ => exact { h with }

end

end Parents

variable {s s' : Sys} {pol : Policy}

theorem Reached.parents (h : Reached pol s) : Kernel s ∧ Parents s :=
  Reached.inv (I := fun s => Kernel s ∧ Parents s) ⟨Kernel.boot, Parents.boot⟩
    (fun _ _ hI hm => ⟨hI.1.move hm, hI.2.move hI.1 hm⟩) h

/-- The `n`-th ancestor. -/
def ancestor (s : Sys) : Nat → Nat → Option Nat
  | 0, p => some p
  | n + 1, p => (s.parent p).bind (ancestor s n)

/-- Following the pointers meets older and older processes. -/
theorem Parents.reaches_init (h : Parents s) (ht : Table s) : ∀ (b p : Nat), s.birth p = b → s.state p ≠ .unused →
    (∀ r, s.pc r ≠ .forkParent p) → ∃ n, ancestor s n p = some initproc := by
  intro b
  induction b using Nat.strongRecOn with
  | ind b ih =>
    intro p hb hst hdone
    by_cases e : p = initproc
    · exact ⟨0, by rw [e]; rfl⟩
    cases hpar : s.parent p with
    | none =>
      obtain ⟨r, hr⟩ := h.linked p hst e hpar
      exact absurd hr (hdone r)
    | some r =>
      obtain ⟨hlive, hlt⟩ := h.up p r hpar
      have hr : s.state r ≠ .unused := by intro hr; rw [hr] at hlive; exact hlive
      have hrdone : ∀ r', s.pc r' ≠ .forkParent r := by
        intro r' hr'
        rw [ht.made r' r (by rw [hr']; rfl)] at hlive
        exact hlive
      obtain ⟨n, hn⟩ := ih (s.birth r) (by omega) r rfl hr hrdone
      exact ⟨n + 1, by rw [ancestor, hpar]; exact hn⟩

/-- **The parent relation is a forest rooted at `init`.** In every state reached (also while `wait_lock` is held): a
process other than `init` that has left the assignment of `np->parent` in its `fork` has a parent, which is neither
UNUSED nor a ZOMBIE; following the parents leads to `init`; and an UNUSED slot has no parent. -/
theorem parent_forest (h : Reached pol s) :
    (∀ p, p ≠ initproc → s.state p ≠ .unused → (∀ r, s.pc r ≠ .forkParent p) →
      ∃ r, s.parent p = some r ∧ s.state r ≠ .unused ∧ s.state r ≠ .zombie) ∧
    (∀ p, s.state p ≠ .unused → (∀ r, s.pc r ≠ .forkParent p) → ∃ n, ancestor s n p = some initproc) ∧
    ∀ p, s.state p = .unused → s.parent p = none := by
  obtain ⟨hk, hp⟩ := h.parents
  refine ⟨?_, fun p hst hdone => hp.reaches_init hk.table _ p rfl hst hdone, hp.unused⟩
  intro p hne hst hdone
  cases hpar : s.parent p with
  | none =>
    obtain ⟨r, hr⟩ := hp.linked p hst hne hpar
    exact absurd hr (hdone r)
  | some r =>
    have hlive := (hp.up p r hpar).1
    refine ⟨r, rfl, ?_, ?_⟩
    · intro hr; rw [hr] at hlive; exact hlive
    · intro hr; rw [hr] at hlive; exact hlive

theorem parent_forest_of_one : ∃ n, ancestor (after (fun s e => step s .other e) boot forkOne) n 1 = some initproc := by
  have hr : Reached .other (after (fun s e => step s .other e) boot forkOne) :=
    Reach.of_checked _ (.init rfl) (by decide +kernel)
  refine (parent_forest hr).2.1 1 (by decide +kernel) fun r hpc => ?_
  exact hr.table.not_making (q := 1) (by decide +kernel) r (by rw [hpc]; rfl)

end Xv6Riscv.Proc
