import Xv6Riscv.Proc.Cpus
import Mathlib.Data.List.Nodup

/-!
# Who holds the spin locks

A CPU holds a lock only while the thread it runs is at a place that has it, and such a thread is not preempted. So two
threads that are both inside the critical section of a lock are the same thread (`Locks.exclusive`).
-/
namespace Xv6Riscv.Proc
open Machine List
open Function (update update_self update_of_ne)

/-- The lock, other than `p->lock`, that a thread has at this place. -/
def Pc.needs : Pc → Option Lk
  | .exitReparent _ _ | .exitZombie _ | .exitUnlock | .waitScan _ _ _ | .waitKids _ _ => some .wait
  | .sleepLock _ k | .sleepUnlock _ k => some k.lk
  | _ => none

/-- A thread may have this lock here. -/
def Pc.Keeps (a : Pc) (lk : Lk) : Prop := a = .code ∧ lk ≠ .wait ∨ a.needs = some lk

variable {a b : Pc}

theorem Pc.Keeps.of_needs {lk lk' : Lk} (h : a.Keeps lk') (ha : a.needs = some lk) : lk' = lk := by
  rcases h with ⟨rfl, -⟩ | h
  · cases ha
  · exact Option.some.inj (h.symm.trans ha)

theorem At.needs {s : Sys} {c p : Nat} (h : At s c p a) : (s.pc p).needs = a.needs := by rw [h.pc]

structure Locks (s : Sys) : Prop where
  nodup : (s.locks.map (·.lk)).Nodup
  held : ∀ p lk, (s.pc p).needs = some lk → ∃ c, (s.cpc c = .run p ∧ s.sw p = .on) ∧ Holds s (.cpu c) lk
  owner : ∀ h ∈ s.locks, ∀ c, h.owner = .cpu c → ∃ p, (s.cpc c = .run p ∧ s.sw p = .on) ∧ (s.pc p).Keeps h.lk

namespace Locks
variable {s s' : Sys} {c p q : Nat} {lk : Lk}

/-! ## What the invariant gives -/

section
variable (h : Locks s)
include h

theorem owner_unique {o o' : Owner} (ho : Holds s o lk) (ho' : Holds s o' lk) : o = o' := by
  obtain ⟨x, hx, hlk, rfl⟩ := ho
  obtain ⟨y, hy, hlk', rfl⟩ := ho'
  have hxy : x = y := inj_on_of_nodup_map h.nodup hx hy (hlk.trans hlk'.symm)
  rw [hxy]

theorem keeps (hr : Runs s c p) {x : Hold} (hx : x ∈ s.locks) (ho : x.owner = .cpu c) : (s.pc p).Keeps x.lk := by
  obtain ⟨q, ⟨hc, -⟩, hk⟩ := h.owner x hx c ho
  rw [hr.cpc] at hc
  cases hc
  exact hk

theorem noLocks (hr : Runs s c p) (hn : (s.pc p).needs = none) (hne : s.pc p ≠ .code) : NoLocks s (.cpu c) := by
  intro x hx ho
  rcases h.keeps hr hx ho with hk | hk
  · exact hne hk.1
  · rw [hn] at hk; cases hk

theorem only (hr : Runs s c p) (hn : (s.pc p).needs = some lk) {x : Hold} (hx : x ∈ s.locks)
    (ho : x.owner = .cpu c) : x.lk = lk :=
  (h.keeps hr hx ho).of_needs hn

theorem holds (ht : Table s) (hr : Runs s c p) (hn : (s.pc p).needs = some lk) : Holds s (.cpu c) lk := by
  obtain ⟨c', hc', hh⟩ := h.held p lk hn
  rwa [ht.one c c' p hr.cpc hc'.1]

/-- **Mutual exclusion.** Two threads that need the same lock where they are are one thread. -/
theorem exclusive (hp : (s.pc p).needs = some lk) (hq : (s.pc q).needs = some lk) : p = q := by
  obtain ⟨c, hc, hh⟩ := h.held p lk hp
  obtain ⟨c', hc', hh'⟩ := h.held q lk hq
  cases h.owner_unique hh hh'
  exact CpuPc.run.inj (hc.1.symm.trans hc'.1)

theorem not_free (hp : (s.pc p).needs = some lk) : ¬ Free s lk := by
  obtain ⟨c, -, x, hx, hlk, -⟩ := h.held p lk hp
  exact fun hf => hf x hx hlk

theorem not_unused (ht : Table s) (hp : (s.pc p).needs = some lk) : s.state p ≠ .unused := by
  obtain ⟨c, hc, -⟩ := h.held p lk hp
  exact ht.runs_not_unused ⟨hc.1, hc.2⟩

/-! ## Moves -/

theorem switch (hl : s'.locks = s.locks) (hpc : s'.pc = s.pc)
    (hon : ∀ c p, s.cpc c = .run p ∧ s.sw p = .on → ((s.pc p).needs ≠ none ∨ ¬ NoLocks s (.cpu c)) →
      s'.cpc c = .run p ∧ s'.sw p = .on) : Locks s' where
  nodup := by rw [hl]; exact h.nodup
  held p lk hp := by
    rw [hpc] at hp
    obtain ⟨c, hc, hh⟩ := h.held p lk hp
    refine ⟨c, hon c p hc (.inl (by rw [hp]; nofun)), ?_⟩
    rw [Holds, hl]
    exact hh
  owner x hx c ho := by
    rw [hl] at hx
    obtain ⟨p, hc, hk⟩ := h.owner x hx c ho
    rw [hpc]
    exact ⟨p, hon c p hc (.inr fun hno => hno x hx ho), hk⟩

theorem resume (hc : s.cpc c = .run p) (hsw : s.sw p = .back) (ha : (s.pc p).needs = none) (hb : b.needs = none) :
    Locks (Proc.goto { s with sw := update s.sw p .on, plock := update s.plock p none } p b) where
  nodup := h.nodup
  held q lk hq := by
    obtain ⟨hne, hq⟩ := of_update (Pc.needs · = some lk) hq (by simp [hb])
    simp only [Proc.goto, update_of_ne hne]
    exact h.held q lk hq
  owner x hx c' ho := by
    obtain ⟨q, hq, hk⟩ := h.owner x hx c' ho
    have hne : q ≠ p := by rintro rfl; rw [hq.2] at hsw; cases hsw
    refine ⟨q, ?_, ?_⟩
    · simp only [Proc.goto, update_of_ne hne]
      exact hq
    · simp only [Proc.goto, update_of_ne hne]
      exact hk

theorem quit (hone : ∀ c', s.cpc c' = .run p → c' = c) (hn : (s.pc p).needs = none)
    (hno : NoLocks s (.cpu c)) : Locks { s with sw := update s.sw p .out } := by
  refine h.switch rfl rfl fun c' q hq hneed => ⟨hq.1, ?_⟩
  have hqp : q ≠ p := by
    rintro rfl
    rw [hone c' hq.1] at hneed
    exact hneed.elim (fun h => h hn) fun h => h hno
  simp only [update_of_ne hqp]
  exact hq.2

section
variable (ht : Table s)
include ht

/-- The owner of a lock keeps it when `p`, which runs on CPU `c`, goes to `b`. -/
theorem owner_goto {c' : Nat} {x : Hold} (hr : Runs s c p) (hkeep : x.owner = .cpu c → b.Keeps x.lk) (hx : x ∈ s.locks)
    (ho : x.owner = .cpu c') : ∃ q, (s.cpc c' = .run q ∧ s.sw q = .on) ∧ (update s.pc p b q).Keeps x.lk := by
  obtain ⟨q, hc, hk⟩ := h.owner x hx c' ho
  refine ⟨q, hc, ?_⟩
  by_cases e : q = p
  · subst e
    rw [ht.one c' c q hc.1 hr.cpc] at ho
    rw [update_self]
    exact hkeep ho
  · rwa [update_of_ne e]

theorem goto (hr : Runs s c p) (hkeep : ∀ x ∈ s.locks, x.owner = .cpu c → b.Keeps x.lk)
    (hneed : ∀ lk, b.needs = some lk → Holds s (.cpu c) lk) : Locks (goto s p b) where
  nodup := h.nodup
  held q lk hq := by
    by_cases e : q = p
    · subst e
      simp only [Proc.goto, update_self] at hq
      exact ⟨c, ⟨hr.cpc, hr.sw⟩, hneed lk hq⟩
    · simp only [Proc.goto, update_of_ne e] at hq
      exact h.held q lk hq
  owner x hx _ ho := h.owner_goto ht hr (hkeep x hx) hx ho

theorem goto_quiet (hr : Runs s c p) (hno : NoLocks s (.cpu c))
    (hb : b.needs = none) : Locks (Proc.goto s p b) :=
  h.goto ht hr (fun x hx ho => absurd ho (hno x hx)) fun lk hlk => by rw [hb] at hlk; cases hlk

theorem goto_free (hat : At s c p a) (ha : a.needs = none) (hne : a ≠ .code)
    (hb : b.needs = none) : Locks (Proc.goto s p b) :=
  h.goto_quiet ht hat.toRuns (h.noLocks hat.toRuns (hat.needs.trans ha) (by rw [hat.pc]; exact hne)) hb

theorem goto_same (hr : Runs s c p) (hn : (s.pc p).needs = some lk)
    (hb : b.needs = some lk) : Locks (Proc.goto s p b) :=
  h.goto ht hr (fun x hx ho => .inr (by rw [h.only hr hn hx ho]; exact hb)) fun lk' hlk => by
    rw [hb] at hlk
    cases hlk
    exact h.holds ht hr hn

theorem take (hr : Runs s c p) (hfree : Free s lk)
    (hkeep : ∀ x ∈ s.locks, x.owner = .cpu c → b.Keeps x.lk) (hb : b.Keeps lk) :
    Locks (Proc.goto (acquire s (.cpu c) lk) p b) where
  nodup := by
    simp only [Proc.goto, acquire, map_cons, nodup_cons]
    refine ⟨?_, h.nodup⟩
    intro hm
    obtain ⟨x, hx, hlk⟩ := mem_map.1 hm
    exact hfree x hx hlk
  held q lk' hq := by
    by_cases e : q = p
    · subst e
      simp only [Proc.goto, update_self] at hq
      rw [← hb.of_needs hq]
      exact ⟨c, ⟨hr.cpc, hr.sw⟩, _, mem_cons_self .., rfl, rfl⟩
    · simp only [Proc.goto, update_of_ne e] at hq
      obtain ⟨c', hc, x, hx, hxl⟩ := h.held q lk' hq
      exact ⟨c', hc, x, mem_cons_of_mem _ hx, hxl⟩
  owner x hx c' ho := by
    rcases mem_cons.1 hx with rfl | hold
    · cases ho
      refine ⟨p, ⟨hr.cpc, hr.sw⟩, ?_⟩
      simp only [Proc.goto, update_self]
      exact hb
    exact h.owner_goto ht hr (hkeep x hold) hold ho

end

theorem release {o : Owner} (ho : Holds s o lk) (hneed : ∀ p c, Runs s c p → o = .cpu c →
    (s.pc p).needs ≠ some lk) : Locks (release s lk) where
  nodup := by
    have := (filter_sublist (p := fun x : Hold => x.lk ≠ lk) (l := s.locks)).map (·.lk)
    exact h.nodup.sublist this
  held p lk' hp := by
    change (s.pc p).needs = some lk' at hp
    obtain ⟨c, hc, x, hx, hxl, hxo⟩ := h.held p lk' hp
    refine ⟨c, hc, x, mem_filter.2 ⟨hx, ?_⟩, hxl, hxo⟩
    have hne : x.lk ≠ lk := by
      intro e
      have hoc := h.owner_unique ho ⟨x, hx, e, hxo⟩
      exact hneed p c ⟨hc.1, hc.2⟩ hoc (by rw [hp, ← hxl, e])
    simpa using hne
  owner x hx c hxo := h.owner x (mem_of_mem_filter hx) c hxo

theorem release_goto (ht : Table s) (hr : Runs s c p) (hn : (s.pc p).needs = some lk)
    (hb : b.needs = none) : Locks (Proc.goto (Proc.release s lk) p b) where
  nodup := by
    have := (filter_sublist (p := fun x : Hold => x.lk ≠ lk) (l := s.locks)).map (·.lk)
    exact h.nodup.sublist this
  held q lk' hq := by
    obtain ⟨hne, hq⟩ := of_update (Pc.needs · = some lk') hq (by simp [hb])
    obtain ⟨c', hc, x, hx, hxl, hxo⟩ := h.held q lk' hq
    refine ⟨c', hc, x, mem_filter.2 ⟨hx, ?_⟩, hxl, hxo⟩
    have hlk : x.lk ≠ lk := by
      intro e
      exact hne (h.exclusive (hq.trans (by rw [← hxl, e])) hn)
    simpa using hlk
  owner x hx c' ho := by
    have hlk : x.lk ≠ lk := by simpa using (mem_filter.1 hx).2
    have hold : x ∈ s.locks := mem_of_mem_filter hx
    obtain ⟨q, hc, hk⟩ := h.owner x hold c' ho
    have hne : q ≠ p := by
      rintro rfl
      rw [ht.one c' c q hc.1 hr.cpc] at ho
      exact hlk (h.only hr hn hold ho)
    exact ⟨q, hc, by simp only [Proc.goto, update_of_ne hne]; exact hk⟩

theorem fresh (hq : ∀ c, s.cpc c ≠ .run q) (hb : b.needs = none) : Locks (Proc.goto s q b) where
  nodup := h.nodup
  held p lk hp := h.held p lk (of_update (Pc.needs · = some lk) hp (by simp [hb])).2
  owner x hx c ho := by
    obtain ⟨p, hc, hk⟩ := h.owner x hx c ho
    have hne : p ≠ q := by rintro rfl; exact hq c hc.1
    exact ⟨p, hc, by simp only [Proc.goto, update_of_ne hne]; exact hk⟩

end

@[simp] theorem wakes_lk (x : Hold) (o : Owner) (ch : Chan) : (x.wakes o ch).lk = x.lk := by
  unfold Hold.wakes; split <;> rfl

@[simp] theorem wakes_owner (x : Hold) (o : Owner) (ch : Chan) : (x.wakes o ch).owner = x.owner := by
  unfold Hold.wakes; split <;> rfl

theorem wakes (h : Locks s) (o : Owner) (ch : Chan) : Locks { s with locks := s.locks.map (·.wakes o ch) } where
  nodup := by
    have : (s.locks.map (·.wakes o ch)).map (·.lk) = s.locks.map (·.lk) := by simp [Function.comp_def]
    rw [this]
    exact h.nodup
  held p lk hp := by
    obtain ⟨c, hc, x, hx, hxl, hxo⟩ := h.held p lk hp
    exact ⟨c, hc, _, mem_map_of_mem hx, by rw [wakes_lk, hxl], by rw [wakes_owner, hxo]⟩
  owner y hy c ho := by
    obtain ⟨x, hx, rfl⟩ := mem_map.1 hy
    rw [wakes_owner] at ho
    rw [wakes_lk]
    exact h.owner x hx c ho

theorem boot : Locks boot where
  nodup := nodup_nil
  held _ _ := nofun
  owner _ := nofun

theorem scheduler (h : Locks s) {a : CpuPc} (hc : ∀ p, s.cpc c ≠ .run p) (hcpc : s'.cpc = update s.cpc c a)
    (hl : s'.locks = s.locks) (hpc : s'.pc = s.pc) (hsw : s'.sw = s.sw) : Locks s' := by
  refine h.switch hl hpc fun c' q hq _ => ?_
  have hne : c' ≠ c := by rintro rfl; exact hc q hq.1
  rw [hcpc, hsw, update_of_ne hne]
  exact hq

theorem move (h : Locks s) (ht : Table s) (hm : Move s s') : Locks s' := by
  cases hm with
  | idle => exact h
  | select c a hc | ret c a hc | rel c a hc =>
    exact h.scheduler (fun q e => by rw [e] at hc; cases hc) rfl rfl rfl rfl
  | dispatch c p hc hl hst =>
    refine h.switch rfl rfl fun c' q hq _ => ?_
    have hne : c' ≠ c := by rintro rfl; rw [hq.1] at hc; cases hc
    have hqp : q ≠ p := by rintro rfl; exact ht.not_run_of_free hl (by rw [hst]; decide) hq.1
    simp only [dispatch, update_of_ne hne, update_of_ne hqp]
    exact hq
  | swtch c p hc hsw =>
    refine h.switch rfl rfl fun c' q hq _ => ?_
    have hqp : q ≠ p := by rintro rfl; rw [hq.2] at hsw; cases hsw
    have hne : c' ≠ c := by rintro rfl; rw [hq.1] at hc; exact hqp (CpuPc.run.inj hc)
    simp only [swtch, setCpc, update_of_ne hne, update_of_ne hqp]
    exact hq
  | forkret c p hc hsw hpc => exact h.resume hc hsw (by rw [hpc]; rfl) rfl
  | wokenUp c p chan k hc hsw hpc => exact { h.resume hc hsw (b := .sleepRelock k) (by rw [hpc]; rfl) rfl with }
  | yielded c p hc hsw hy =>
    refine h.switch rfl rfl fun c' q hq _ => ⟨hq.1, ?_⟩
    have hqp : q ≠ p := by rintro rfl; rw [hq.2] at hsw; cases hsw
    simp only [update_of_ne hqp]
    exact hq.2
  | yield c p hr hno hl =>
    have hn : (s.pc p).needs = none := by
      by_contra hn
      obtain ⟨lk, hlk⟩ := Option.ne_none_iff_exists'.1 hn
      obtain ⟨x, hx, -, ho⟩ := h.holds ht hr hlk
      exact hno x hx ho
    exact { h.quit (fun c' hc' => ht.one c' c p hc' hr.cpc) hn hno with }
  | wakeSkip | devWakeup | callWakeup | setkilled | trace | settickets => exact { h with }
  | wakeSlot | devSlot =>
    unfold wakeSlot
    split <;> exact { h with }
  | wakeDone c p chan i => exact { h.wakes (.cpu c) chan with }
  | devDone d chan i => exact { h.wakes (.dev d) chan with }
  | devAcquire d n hfree =>
    refine ⟨nodup_cons.2 ⟨fun hm => ?_, h.nodup⟩, fun p lk hp => ?_, fun x hx c ho => ?_⟩
    · obtain ⟨x, hx, hlk⟩ := mem_map.1 hm
      exact hfree x hx hlk
    · obtain ⟨c, hc, x, hx, hxl⟩ := h.held p lk hp
      exact ⟨c, hc, x, mem_cons_of_mem _ hx, hxl⟩
    · rcases mem_cons.1 hx with rfl | hold
      · cases ho
      · exact h.owner x hold c ho
  | devRelease d n hh => exact h.release hh (by simp)
  | call c p a hat hno hcall => exact h.goto_quiet ht hat.toRuns hno (by cases hcall <;> rfl)
  | scan c p a b hat hscan =>
    exact h.goto_free ht hat (by cases hscan <;> rfl) (by cases hscan <;> simp) (by cases hscan <;> rfl)
  | take c p a lk b hat hfree htake =>
    refine h.take ht hat.toRuns hfree ?_ ?_
    · intro x hx ho
      have hk := h.keeps hat.toRuns hx ho
      rw [hat.pc] at hk
      cases htake with
      | code n => exact hk
      | exit | wait | sleep => rcases hk with ⟨hk, -⟩ | hk <;> cases hk
    · cases htake with
      | code n => exact .inl ⟨rfl, by simp⟩
      | exit | wait => exact .inr rfl
      | sleep k =>
        cases k with
        | code n => exact .inl ⟨rfl, by rintro ⟨⟩⟩
        | wait w => exact .inr rfl
  | release c p n hat hh =>
    refine h.release hh fun q c' hr' hcc hn => ?_
    cases hcc
    have hqp : q = p := CpuPc.run.inj (hr'.cpc.symm.trans hat.cpc)
    rw [hqp, hat.pc] at hn
    cases hn
  | callSleep c p chan n hat hh honly =>
    refine h.goto ht hat.toRuns (fun x hx ho => .inr (by rw [honly x hx ho]; rfl)) ?_
    rintro lk ⟨⟩
    exact hh
  | killAwake _ _ _ _ hat | killAsleep _ _ _ _ hat | allocFail _ _ _ hat | copyTickets _ _ _ hat =>
    exact { h.goto_free ht hat (b := .code) rfl (by simp) rfl with }
  | alloc c p i hat hi hl hst =>
    have haway : ∀ c, s.cpc c ≠ .run i := fun c => ht.not_run_of_free hl (by rw [hst]; decide)
    have hne : p ≠ i := by rintro rfl; exact haway c hat.cpc
    have h1 := h.fresh haway (b := .forkret) rfl
    have ht1 : Table (Proc.goto s i .forkret) :=
      ht.goto (ht.window_none hl (by rw [hst]; decide)).symm (by rintro np ⟨⟩)
    have hat1 : At (Proc.goto s i .forkret) c p (.allocproc i) :=
      ⟨⟨hat.cpc, hat.sw⟩, hat.wake, by simp only [Proc.goto, update_of_ne hne]; exact hat.pc⟩
    exact { h1.goto_free ht1 hat1 (b := .forkParent i) rfl (by simp) rfl with }
  | setParent c p np hat => exact { h.goto_free ht hat (b := .forkRunnable np) rfl (by simp) rfl with }
  | publish c p np hat => exact { h.goto_free ht hat (b := .forkSmask np) rfl (by simp) rfl with }
  | copySmask c p np hat => exact { h.goto_free ht hat (b := .forkTickets np) rfl (by simp) rfl with }
  | keep _ _ _ _ hat | waitSkip _ _ _ _ _ _ hat | scanned _ _ _ _ _ hat | waitSleep _ _ _ _ hat =>
    exact h.goto_same ht hat.toRuns hat.needs rfl
  | adopt c p status i hat => exact { h.goto_same ht hat.toRuns hat.needs (b := .exitReparent status (i + 1)) rfl with }
  | wakeParent c p status i hat => exact { h.goto_same ht hat.toRuns hat.needs (b := .exitZombie status) rfl with }
  | die c p status hat => exact { h.goto_same ht hat.toRuns hat.needs (b := .exitUnlock) rfl with }
  | exitUnlock c p hat =>
    have h1 := h.release_goto ht hat.toRuns hat.needs (b := .zombie) rfl
    have hpc : (Proc.goto (Proc.release s .wait) p .zombie).pc p = .zombie := update_self ..
    exact h1.quit (fun c' hc' => ht.one c' c p hc' hat.cpc) (by rw [hpc]; rfl)
      (h1.noLocks ⟨hat.cpc, hat.sw⟩ (by rw [hpc]; rfl) (by rw [hpc]; simp))
  | reap c p w i havekids hat => exact { h.release_goto ht hat.toRuns hat.needs (b := .code) rfl with }
  | waitReturn c p a hat hin => exact h.release_goto ht hat.toRuns (by rw [hat.pc]; cases hin <;> rfl) rfl
  | sleepLock c p chan k hat => exact { h.goto_same ht hat.toRuns hat.needs (b := .sleepUnlock chan k) rfl with }
  | sleepUnlock c p chan k hat => exact h.release_goto ht hat.toRuns hat.needs rfl
  | sleepState c p chan k hat =>
    have hno := h.noLocks hat.toRuns hat.needs (by rw [hat.pc]; simp)
    have h1 := h.goto_quiet ht hat.toRuns (b := .sleepSched chan k) hno rfl
    have hpc : (Proc.goto s p (.sleepSched chan k)).pc p = .sleepSched chan k := update_self ..
    exact { h1.quit (fun c' hc' => ht.one c' c p hc' hat.cpc) (by rw [hpc]; rfl) hno with }

end Locks

end Xv6Riscv.Proc
