import Xv6Riscv.Proc.Lives
import Xv6Riscv.Proc.Locks

/-!
# No lost wakeup

`sleep(chan, lk)` takes `p->lock` before it gives up `lk`, so a process that is inside `sleep` and no longer holds
`lk` is found by a `wakeup(chan)` that is called with `lk` held: either it has not been switched away, and the scan
waits for its lock, or it is SLEEPING on `chan`. It cannot enter `sleep(chan, lk)` again behind the scan, for want of
`lk`. -/
namespace Xv6Riscv.Proc
open Machine
open Function (update update_self update_of_ne)

/-- Process `q` is in `sleep(chan, lk)`, has released `lk`, and has not been woken. -/
def Asleep (s : Sys) (q : Nat) (ch : Chan) (lk : Lk) : Prop :=
  ∃ k : Kont, k.lk = lk ∧ (s.pc q = .sleepState ch k ∨ s.pc q = .sleepSched ch k ∧ s.state q = .sleeping)

/-- The places where a process that has released `lk` is in `sleep`. -/
def Pc.inSleep : Pc → Bool
  | .sleepState _ _ | .sleepSched _ _ => true
  | _ => false

/-- A SLEEPING process is in `sleep`, on its `p->chan`. -/
def SleepOk (s : Sys) : Prop := ∀ q, s.state q = .sleeping → ∃ k, s.pc q = .sleepSched (s.chan q) k

/-- Nobody falls asleep, and sleepers stay where they are. -/
structure Calm (s s' : Sys) : Prop where
  pc : ∀ q, (s'.pc q).inSleep = true → s'.pc q = s.pc q
  state : ∀ q, s'.state q = .sleeping → s.state q = .sleeping ∧ s'.chan q = s.chan q ∧ s'.pc q = s.pc q

variable {s s' : Sys} {c p q : Nat} {ch : Chan} {lk : Lk}

theorem SleepOk.chan (h : SleepOk s) {k : Kont} (hst : s.state q = .sleeping) (hpc : s.pc q = .sleepSched ch k) :
    s.chan q = ch := by
  obtain ⟨k', hk⟩ := h q hst
  rw [hpc] at hk
  cases hk
  rfl

theorem Calm.asleep (h : Calm s s') (ha : Asleep s' q ch lk) : Asleep s q ch lk := by
  obtain ⟨k, hk, ha⟩ := ha
  refine ⟨k, hk, ?_⟩
  rcases ha with ha | ⟨ha, hst⟩
  · rw [← h.pc q (by rw [ha]; rfl)]
    exact .inl ha
  · rw [← h.pc q (by rw [ha]; rfl)]
    exact .inr ⟨ha, (h.state q hst).1⟩

theorem Calm.sleepOk (h : Calm s s') (hc : SleepOk s) : SleepOk s' := by
  intro q hst
  obtain ⟨hst, hchan, hpc⟩ := h.state q hst
  rw [hchan, hpc]
  exact hc q hst

theorem Calm.goto {b : Pc} (h : Calm s s') (hst : s'.state p ≠ .sleeping) (hb : b.inSleep = false) :
    Calm s (goto s' p b) where
  pc q hq := by
    by_cases e : q = p
    · subst e
      simp only [Proc.goto, update_self, hb] at hq
      cases hq
    · simp only [Proc.goto, update_of_ne e] at hq ⊢
      exact h.pc q hq
  state q hq := by
    have e : q ≠ p := by rintro rfl; exact hst hq
    simp only [Proc.goto, update_of_ne e]
    exact h.state q hq

theorem Calm.refl (s : Sys) : Calm s s := ⟨fun _ _ => rfl, fun _ h => ⟨h, rfl, rfl⟩⟩

theorem Calm.of_state (st : ProcState) (h : st ≠ .sleeping) :
    Calm s { s with state := update s.state q st } where
  pc _ _ := rfl
  state _ hr := ⟨(eq_of_update hr h.symm).2, rfl, rfl⟩

theorem update_ne_sleeping {st : ProcState} (h : st ≠ .sleeping) (hp : s.state p ≠ .sleeping) :
    update s.state q st p ≠ .sleeping := by
  by_cases e : p = q
  · subst e; rwa [update_self]
  · rwa [update_of_ne e]

theorem Calm.wakeSlot (s : Sys) (ch : Chan) (i : Nat) : Calm s (wakeSlot s ch i) := by
  unfold Proc.wakeSlot
  split
  · exact { Calm.of_state (s := s) (q := i) .runnable (by decide) with }
  · exact Calm.refl s

theorem Calm.freeproc (s : Sys) (i : Nat) : Calm s (freeproc s i) where
  pc _ _ := rfl
  state r hr := by
    obtain ⟨hne, hr⟩ := eq_of_update hr nofun
    simp only [Proc.freeproc, update_of_ne hne]
    exact ⟨hr, trivial, trivial⟩

/-- The only ways into `sleep`. -/
inductive Dozes (s : Sys) : Sys → Prop
  | unlock (c p : Nat) (chan : Chan) (k : Kont) : At s c p (.sleepUnlock chan k) →
      Dozes s (goto (release s k.lk) p (.sleepState chan k))
  | sched (c p : Nat) (chan : Chan) (k : Kont) : At s c p (.sleepState chan k) →
      Dozes s { goto s p (.sleepSched chan k) with
        chan := update s.chan p chan
        state := update s.state p .sleeping
        sw := update s.sw p .out }

section
variable (ht : Table s) (hm : Move s s')
include ht hm

theorem Move.calm_or_dozes : Calm s s' ∨ Dozes s s' := by
  have hrefl := Calm.refl s
  have awake : ∀ {c p a}, At s c p a → s.state p ≠ .sleeping := by
    intro c p a hat hst
    rcases ht.runs_state hat.toRuns with e | e <;> rw [hst] at e <;> cases e
  have back : ∀ {c p}, s.cpc c = .run p → s.sw p = .back → s.state p ≠ .sleeping := by
    intro c p hc hsw hst
    have hrun := ht.here c p hc
    rw [hsw] at hrun
    cases hst.symm.trans hrun.2
  cases hm with
  | sleepUnlock c p chan k hat => exact .inr (.unlock c p chan k hat)
  | sleepState c p chan k hat => exact .inr (.sched c p chan k hat)
  | dispatch c p hc hl hst => exact .inl { Calm.of_state (s := s) (q := p) .running (by decide) with }
  | forkret c p hc hsw => exact .inl { hrefl.goto (p := p) (b := .code) (back hc hsw) rfl with }
  | wokenUp c p chan k hc hsw hpc =>
    have h1 := hrefl.goto (p := p) (b := .sleepRelock k) (back hc hsw) rfl
    refine .inl { h1 with state := fun r hr => ⟨hr, ?_, (h1.state r hr).2.2⟩ }
    have hne : r ≠ p := by rintro rfl; exact back hc hsw hr
    simp only [update_of_ne hne]
  | yield c p => exact .inl { Calm.of_state (s := s) (q := p) .runnable (by decide) with }
  | wakeSlot _ _ chan i | devSlot _ chan i => exact .inl { Calm.wakeSlot s chan i with }
  | call c p a hat hno hcall => exact .inl (hrefl.goto (awake hat) (by cases hcall <;> rfl))
  | scan c p a b hat hscan => exact .inl (hrefl.goto (awake hat) (by cases hscan <;> rfl))
  | take c p a lk b hat hfree htake =>
    have hb : b.inSleep = false := by
      cases htake with
      | sleep k => cases k <;> rfl
      | _ => rfl
    exact .inl { hrefl.goto (awake hat) hb with }
  | callSleep _ _ _ _ hat | keep _ _ _ _ hat | waitSkip _ _ _ _ _ _ hat | scanned _ _ _ _ _ hat
  | waitSleep _ _ _ _ hat => exact .inl (hrefl.goto (awake hat) rfl)
  | killAwake _ _ _ _ hat | copyTickets _ _ _ hat | waitReturn _ _ _ hat =>
    exact .inl { hrefl.goto (b := .code) (awake hat) rfl with }
  | killAsleep c p pid i hat =>
    have h1 := Calm.of_state (s := s) (q := i) .runnable (by decide)
    exact .inl { h1.goto (b := .code) (update_ne_sleeping (by decide) (awake hat)) rfl with }
  | alloc c p i hat =>
    have h1 := Calm.of_state (s := s) (q := i) .used (by decide)
    have h2 := h1.goto (p := i) (b := .forkret) (by simp only [update_self]; decide) rfl
    exact .inl { h2.goto (b := .forkParent i) (update_ne_sleeping (by decide) (awake hat)) rfl with }
  | allocFail _ _ i hat | reap _ _ _ i _ hat =>
    exact .inl { (Calm.freeproc s i).goto (b := .code) (update_ne_sleeping (by decide) (awake hat)) rfl with }
  | setParent c p np hat => exact .inl { hrefl.goto (b := .forkRunnable np) (awake hat) rfl with }
  | publish c p np hat =>
    have h1 := Calm.of_state (s := s) (q := np) .runnable (by decide)
    exact .inl { h1.goto (b := .forkSmask np) (update_ne_sleeping (by decide) (awake hat)) rfl with }
  | copySmask c p np hat => exact .inl { hrefl.goto (b := .forkTickets np) (awake hat) rfl with }
  | adopt c p status i hat => exact .inl { hrefl.goto (b := .exitReparent status (i + 1)) (awake hat) rfl with }
  | wakeParent c p status i hat => exact .inl { hrefl.goto (b := .exitZombie status) (awake hat) rfl with }
  | die c p status hat =>
    have h1 := Calm.of_state (s := s) (q := p) .zombie (by decide)
    exact .inl { h1.goto (b := .exitUnlock) (update_ne_sleeping (by decide) (awake hat)) rfl with }
  | exitUnlock c p hat => exact .inl { hrefl.goto (b := .zombie) (awake hat) rfl with }
  | sleepLock c p chan k hat => exact .inl { hrefl.goto (b := .sleepUnlock chan k) (awake hat) rfl with }
  | _ => exact .inl { hrefl with }

theorem Move.asleep (ha : Asleep s' q ch lk) : Asleep s q ch lk ∨ Free s' lk := by
  rcases hm.calm_or_dozes ht with hcalm | hdoze
  · exact .inl (hcalm.asleep ha)
  obtain ⟨k', hk, ha⟩ := ha
  cases hdoze with
  | unlock c p chan k hat =>
    by_cases e : q = p
    · subst e
      simp only [goto, update_self] at ha
      rcases ha with ha | ⟨ha, -⟩ <;> cases ha
      refine .inr fun x hx => ?_
      rw [← hk]
      simpa using (List.mem_filter.1 hx).2
    · simp only [goto, update_of_ne e] at ha
      exact .inl ⟨k', hk, ha⟩
  | sched c p chan k hat =>
    by_cases e : q = p
    · subst e
      simp only [goto, update_self] at ha
      rcases ha with ha | ⟨ha, -⟩ <;> cases ha
      exact .inl ⟨k', hk, .inl hat.pc⟩
    · simp only [goto, update_of_ne e] at ha
      exact .inl ⟨k', hk, ha⟩

theorem Move.sleepOk (h : SleepOk s) : SleepOk s' := by
  rcases hm.calm_or_dozes ht with hcalm | hdoze
  · exact hcalm.sleepOk h
  intro q hst
  cases hdoze with
  | unlock c p chan k hat =>
    have e : q ≠ p := by
      rintro rfl
      rcases ht.runs_state hat.toRuns with e | e <;> cases e.symm.trans hst
    simp only [goto, update_of_ne e]
    exact h q hst
  | sched c p chan k hat =>
    by_cases e : q = p
    · subst e
      simp only [goto, update_self]
      exact ⟨k, rfl⟩
    · simp only [goto, update_of_ne e] at hst ⊢
      exact h q hst

end

theorem Asleep.state (ht : Table s) (ha : Asleep s q ch lk) (hl : s.plock q = none) :
    s.state q = .sleeping ∧ ∃ k : Kont, k.lk = lk ∧ s.pc q = .sleepSched ch k := by
  obtain ⟨k, hk, ha | ha⟩ := ha
  · obtain ⟨c, hc, hon⟩ := ht.window q (by rw [ha]; nofun)
    have := (ht.runs_locked ⟨hc, hon⟩ (by rw [ha]; rfl)).1
    rw [hl] at this
    cases this
  · exact ⟨ha.2, k, hk, ha.1⟩

theorem Asleep.not_unused (ht : Table s) (ha : Asleep s q ch lk) : s.state q ≠ .unused := by
  obtain ⟨k, -, ha | ha⟩ := ha
  · obtain ⟨c, hc, hon⟩ := ht.window q (by rw [ha]; nofun)
    exact ht.runs_not_unused ⟨hc, hon⟩
  · rw [ha.2]; decide

/-! ## The scan -/

/-- Behind the scan of a `wakeup(chan)`, nobody is left in `sleep(chan, lk)` for a lock `lk` that its caller holds. -/
structure Wakeups (s : Sys) : Prop where
  sleep : SleepOk s
  done : ∀ x ∈ s.locks, ∀ ch ∈ x.woke, ∀ q, ¬ Asleep s q ch x.lk
  scan : ∀ c p ch i, s.cpc c = .run p → s.wake p = some (ch, i) → ∀ x ∈ s.locks, x.owner = .cpu c →
    ∀ q < i, ¬ Asleep s q ch x.lk
  dscan : ∀ d ch i, s.dwake d = some (ch, i) → ∀ x ∈ s.locks, x.owner = .dev d → ∀ q < i, ¬ Asleep s q ch x.lk

namespace Wakeups

theorem of_asleep (h : Wakeups s) (ht : Table s) (hm : Move s s')
    (hdone : ∀ x ∈ s'.locks, ∀ ch ∈ x.woke, ∀ q, Asleep s q ch x.lk → ¬ Asleep s' q ch x.lk)
    (hscan : ∀ c p ch i, s'.cpc c = .run p → s'.wake p = some (ch, i) → ∀ x ∈ s'.locks, x.owner = .cpu c →
      ∀ q < i, Asleep s q ch x.lk → ¬ Asleep s' q ch x.lk)
    (hdscan : ∀ d ch i, s'.dwake d = some (ch, i) → ∀ x ∈ s'.locks, x.owner = .dev d →
      ∀ q < i, Asleep s q ch x.lk → ¬ Asleep s' q ch x.lk) : Wakeups s' := by
  have hback : ∀ {x q ch}, x ∈ s'.locks → Asleep s' q ch x.lk → Asleep s q ch x.lk := fun hx ha =>
    (hm.asleep ht ha).resolve_right fun hfree => hfree _ hx rfl
  exact {
    sleep := hm.sleepOk ht h.sleep
    done := fun x hx ch hch q ha => hdone x hx ch hch q (hback hx ha) ha
    scan := fun c p ch i hc hw x hx ho q hq ha => hscan c p ch i hc hw x hx ho q hq (hback hx ha) ha
    dscan := fun d ch i hw x hx ho q hq ha => hdscan d ch i hw x hx ho q hq (hback hx ha) ha }

theorem frame (h : Wakeups s) (ht : Table s) (hm : Move s s') (hlocks : ∀ x ∈ s'.locks, x ∈ s.locks)
    (hrun : ∀ c p ch i, s'.cpc c = .run p → s'.wake p = some (ch, i) → ¬ NoLocks s (.cpu c) →
      s.cpc c = .run p ∧ s.wake p = some (ch, i) ∨ i = 0)
    (hdev : ∀ d ch i, s'.dwake d = some (ch, i) → s.dwake d = some (ch, i) ∨ i = 0) : Wakeups s' := by
  refine h.of_asleep ht hm ?_ ?_ ?_
  · exact fun x hx ch hch q ha => absurd ha (h.done x (hlocks x hx) ch hch q)
  · intro c p ch i hc hw x hx ho q hq ha
    rcases hrun c p ch i hc hw fun hno => hno x (hlocks x hx) ho with ⟨hc, hw⟩ | rfl
    · exact absurd ha (h.scan c p ch i hc hw x (hlocks x hx) ho q hq)
    · exact absurd hq (Nat.not_lt_zero q)
  · intro d ch i hw x hx ho q hq ha
    rcases hdev d ch i hw with hw | rfl
    · exact absurd ha (h.dscan d ch i hw x (hlocks x hx) ho q hq)
    · exact absurd hq (Nat.not_lt_zero q)

variable {i : Nat}

theorem slot (h : Wakeups s) (ht : Table s) (hl : s.plock i = none) : ¬ Asleep (wakeSlot s ch i) i ch lk := by
  intro ha
  have ha0 := (Calm.wakeSlot s ch i).asleep ha
  obtain ⟨hst, k, -, hpc⟩ := ha0.state ht hl
  have hslot : wakeSlot s ch i = ready s i := if_pos ⟨hst, h.sleep.chan hst hpc⟩
  rw [hslot] at ha
  obtain ⟨k', -, ha | ⟨-, ha⟩⟩ := ha
  · rw [show (ready s i).pc i = s.pc i from rfl, hpc] at ha
    cases ha
  · simp only [ready, update_self] at ha
    cases ha

theorem boot : Wakeups boot where
  sleep q hq := by
    simp only [Proc.boot] at hq
    split at hq <;> cases hq
  done _ := nofun
  scan _ _ _ _ := nofun
  dscan _ _ _ := nofun

section
variable (h : Wakeups s) (ht : Table s) (hm : Move s s')
include h ht hm

theorem advance (hlocks : s'.locks = s.locks) (hnext : ∀ lk, ¬ Asleep s' i ch lk)
    (hrun : ∀ c p ch' j, s'.cpc c = .run p → s'.wake p = some (ch', j) →
      s.cpc c = .run p ∧ (s.wake p = some (ch', j) ∨ s.wake p = some (ch, i) ∧ ch' = ch ∧ j = i + 1))
    (hdev : ∀ d ch' j, s'.dwake d = some (ch', j) →
      s.dwake d = some (ch', j) ∨ s.dwake d = some (ch, i) ∧ ch' = ch ∧ j = i + 1) : Wakeups s' := by
  refine h.of_asleep ht hm ?_ ?_ ?_
  · exact fun x hx ch' hch q ha => absurd ha (h.done x (hlocks ▸ hx) ch' hch q)
  · intro c p ch' j hc hw x hx ho q hq hold ha
    obtain ⟨hc, hw0 | ⟨hw0, rfl, rfl⟩⟩ := hrun c p ch' j hc hw
    · exact h.scan c p ch' j hc hw0 x (hlocks ▸ hx) ho q hq hold
    · rcases Nat.lt_succ_iff_lt_or_eq.1 hq with hlt | rfl
      · exact h.scan c p ch' i hc hw0 x (hlocks ▸ hx) ho q hlt hold
      · exact hnext x.lk ha
  · intro d ch' j hw x hx ho q hq hold ha
    obtain hw0 | ⟨hw0, rfl, rfl⟩ := hdev d ch' j hw
    · exact h.dscan d ch' j hw0 x (hlocks ▸ hx) ho q hq hold
    · rcases Nat.lt_succ_iff_lt_or_eq.1 hq with hlt | rfl
      · exact h.dscan d ch' i hw0 x (hlocks ▸ hx) ho q hlt hold
      · exact hnext x.lk ha

theorem finish {o : Owner} (hi : NPROC ≤ i) (hlocks : s'.locks = s.locks.map (·.wakes o ch))
    (hscan : ∀ x ∈ s.locks, x.owner = o → ∀ q < i, ¬ Asleep s q ch x.lk)
    (hrun : ∀ c p ch' j, s'.cpc c = .run p → s'.wake p = some (ch', j) → s.cpc c = .run p ∧ s.wake p = some (ch', j))
    (hdev : ∀ d ch' j, s'.dwake d = some (ch', j) → s.dwake d = some (ch', j)) : Wakeups s' := by
  have hold : ∀ {y}, y ∈ s'.locks → ∃ x ∈ s.locks, y.lk = x.lk ∧ y.owner = x.owner ∧
      (y.woke = x.woke ∨ x.owner = o ∧ y.woke = ch :: x.woke) := by
    intro y hy
    rw [hlocks] at hy
    obtain ⟨x, hx, rfl⟩ := List.mem_map.1 hy
    refine ⟨x, hx, Locks.wakes_lk .., Locks.wakes_owner .., ?_⟩
    unfold Hold.wakes
    split
    · rename_i ho; exact .inr ⟨ho, rfl⟩
    · exact .inl rfl
  -- nobody sleeps outside of the table
  have hall : ∀ x ∈ s.locks, x.owner = o → ∀ q, ¬ Asleep s q ch x.lk := by
    intro x hx ho q ha
    have hlt := ht.lt (ha.not_unused ht)
    exact hscan x hx ho q (by omega) ha
  refine h.of_asleep ht hm (fun y hy ch' hch q ha => ?_) (fun c p ch' j hc hw y hy ho q hq ha => ?_)
    fun d ch' j hw y hy ho q hq ha => ?_
  · obtain ⟨x, hx, hlk, -, hw | ⟨ho, hw⟩⟩ := hold hy <;> rw [hw] at hch <;> rw [hlk] at ha
    · exact absurd ha (h.done x hx ch' hch q)
    · rcases List.mem_cons.1 hch with rfl | hch
      · exact absurd ha (hall x hx ho q)
      · exact absurd ha (h.done x hx ch' hch q)
  · obtain ⟨x, hx, hlk, hxo, -⟩ := hold hy
    obtain ⟨hc, hw⟩ := hrun c p ch' j hc hw
    rw [hlk] at ha
    exact absurd ha (h.scan c p ch' j hc hw x hx (hxo ▸ ho) q hq)
  · obtain ⟨x, hx, hlk, hxo, -⟩ := hold hy
    rw [hlk] at ha
    exact absurd ha (h.dscan d ch' j (hdev d ch' j hw) x hx (hxo ▸ ho) q hq)

theorem lock {o : Owner} (hlocks : s'.locks = ⟨lk, o, []⟩ :: s.locks)
    (hrun : ∀ c p ch' j, s'.cpc c = .run p → s'.wake p = some (ch', j) →
      s.cpc c = .run p ∧ s.wake p = some (ch', j) ∧ o ≠ .cpu c)
    (hdev : ∀ d ch' j, s'.dwake d = some (ch', j) → s.dwake d = some (ch', j) ∧ o ≠ .dev d) : Wakeups s' := by
  have hold : ∀ {y}, y ∈ s'.locks → y = ⟨lk, o, []⟩ ∨ y ∈ s.locks := by
    intro y hy
    rw [hlocks] at hy
    exact List.mem_cons.1 hy
  refine h.of_asleep ht hm (fun y hy ch' hch q ha => ?_) (fun c p ch' j hc hw y hy ho q hq ha => ?_)
    fun d ch' j hw y hy ho q hq ha => ?_
  · rcases hold hy with rfl | hx
    · cases hch
    · exact absurd ha (h.done y hx ch' hch q)
  · obtain ⟨hc, hw, hne⟩ := hrun c p ch' j hc hw
    rcases hold hy with rfl | hx
    · exact absurd ho hne
    · exact absurd ha (h.scan c p ch' j hc hw y hx ho q hq)
  · obtain ⟨hw, hne⟩ := hdev d ch' j hw
    rcases hold hy with rfl | hx
    · exact absurd ho hne
    · exact absurd ha (h.dscan d ch' j hw y hx ho q hq)

end

theorem run_of_setCpc {a : CpuPc} {c' : Nat} (h : update s.cpc c a c' = .run q) (ha : ∀ p, a ≠ .run p) :
    s.cpc c' = .run q := by
  by_cases e : c' = c
  · subst e
    rw [update_self] at h
    exact absurd h (ha q)
  · rwa [update_of_ne e] at h

section
variable {scans : Nat → Option (Chan × Nat)} {ch₀ ch' : Chan} {i j : Nat}

theorem starts (h : update scans p (some (ch₀, 0)) q = some (ch', j)) : scans q = some (ch', j) ∨ j = 0 := by
  by_cases e : q = p
  · subst e
    rw [update_self, Option.some.injEq, Prod.mk.injEq] at h
    exact .inr h.2.symm
  · rw [update_of_ne e] at h
    exact .inl h

theorem advances (hw : scans p = some (ch₀, i)) (h : update scans p (some (ch₀, i + 1)) q = some (ch', j)) :
    scans q = some (ch', j) ∨ scans q = some (ch₀, i) ∧ ch' = ch₀ ∧ j = i + 1 := by
  by_cases e : q = p
  · subst e
    rw [update_self, Option.some.injEq, Prod.mk.injEq] at h
    exact .inr ⟨hw, h.1.symm, h.2.symm⟩
  · rw [update_of_ne e] at h
    exact .inl h

theorem ends (h : update scans p none q = some (ch', j)) : scans q = some (ch', j) :=
  (eq_of_update h nofun).2

end

theorem move (h : Wakeups s) (ht : Table s) (hl : Locks s) (hv : Lives s) (hm : Move s s') : Wakeups s' := by
  have hm' := hm
  have hsame : ∀ {f : Nat → CpuPc}, (∀ c p, f c = .run p → s.cpc c = .run p) → ∀ c p ch i, f c = .run p →
      s.wake p = some (ch, i) → ¬ NoLocks s (.cpu c) → s.cpc c = .run p ∧ s.wake p = some (ch, i) ∨ i = 0 :=
    fun hf c p ch i hc hw _ => .inl ⟨hf c p hc, hw⟩
  cases hm with
  | dispatch c p hc hlk hst =>
    refine h.frame ht hm' (fun _ => id) (fun c' q ch i hc' hw hno => ?_) fun _ _ _ => .inl
    by_cases e : c' = c
    · subst e
      refine absurd (fun x hx ho => ?_) hno
      obtain ⟨r, hr, -⟩ := hl.owner x hx c' ho
      rw [hc] at hr
      cases hr.1
    · simp only [dispatch, update_of_ne e] at hc'
      exact .inl ⟨hc', hw⟩
  | wakeSkip c p chan hr hw =>
    have hp := hv.wake p (by rw [hw]; simp)
    refine h.advance ht hm' rfl (i := p) (?_ : ∀ lk, ¬ Asleep _ p chan lk) ?_ fun _ _ _ => .inl
    · rintro lk ⟨k, -, ha | ⟨ha, -⟩⟩ <;> change s.pc p = _ at ha <;> rw [ha] at hp <;> cases hp
    · exact fun _ _ _ _ hc' hw' => ⟨hc', advances hw hw'⟩
  | wakeSlot c p chan i hr hw hne hlk =>
    refine h.advance ht hm' (wakeSlot_locks chan i) (fun lk => h.slot ht hlk) ?_ ?_
    · intro c' q ch' j hc' hw'
      rw [wakeSlot_cpc] at hc'
      exact ⟨hc', advances hw hw'⟩
    · intro d ch' j hd
      rw [wakeSlot_dwake] at hd
      exact .inl hd
  | wakeDone c p chan i hr hw hi =>
    exact h.finish ht hm' (o := .cpu c) hi rfl (h.scan c p chan i hr.cpc hw) (fun _ _ _ _ hc' hw' => ⟨hc', ends hw'⟩)
      fun _ _ _ => id
  | devSlot d chan i hw hlk =>
    refine h.advance ht hm' (wakeSlot_locks chan i) (fun lk => h.slot ht hlk) ?_ ?_
    · intro c' q ch' j hc' hw'
      rw [wakeSlot_cpc] at hc'
      rw [wakeSlot_wake] at hw'
      exact ⟨hc', .inl hw'⟩
    · exact fun _ _ _ => advances hw
  | devDone d chan i hw hi =>
    exact h.finish ht hm' (o := .dev d) hi rfl (h.dscan d chan i hw) (fun _ _ _ _ hc hw => ⟨hc, hw⟩) fun _ _ _ => ends
  | devAcquire d n hfree hd =>
    refine h.lock ht hm' rfl (fun _ _ _ _ hc hw => ⟨hc, hw, by simp⟩) fun d' ch' j hd' => ⟨hd', ?_⟩
    rintro ⟨⟩
    rw [show s.dwake d = some (ch', j) from hd'] at hd
    cases hd
  | devWakeup d chan hd =>
    exact h.frame ht hm' (fun _ => id) (hsame fun _ _ => id) fun _ _ _ => starts
  | take c p a lk b hat hfree htake =>
    refine h.lock ht hm' rfl (fun c' q ch' j hc' hw' => ⟨hc', hw', ?_⟩) fun _ _ _ hd => ⟨hd, by simp⟩
    rintro ⟨⟩
    have hqp : q = p := CpuPc.run.inj ((show s.cpc c = .run q from hc').symm.trans hat.cpc)
    rw [hqp] at hw'
    cases hat.wake.symm.trans hw'
  | select c a hc ha =>
    have hrun : ∀ p, a ≠ .run p := by rintro p rfl; cases ha
    exact h.frame ht hm' (fun _ => id) (hsame fun _ _ hq => run_of_setCpc hq hrun) fun _ _ _ => .inl
  | ret | rel | swtch =>
    exact h.frame ht hm' (fun _ => id) (hsame fun _ _ hq => run_of_setCpc hq (by simp)) fun _ _ _ => .inl
  | devRelease | release | exitUnlock | reap | waitReturn | sleepUnlock =>
    exact h.frame ht hm' (fun _ => List.mem_of_mem_filter) (hsame fun _ _ => id) fun _ _ _ => .inl
  | callWakeup | adopt | wakeParent =>
    exact h.frame ht hm' (fun _ => id) (fun _ _ _ _ hc hw _ => (starts hw).imp_left (.intro hc)) fun _ _ _ => .inl
  | _ => exact h.frame ht hm' (fun _ => id) (hsame fun _ _ => id) fun _ _ _ => .inl

end Wakeups

/-- The invariants that the later results start from. -/
structure Kernel (s : Sys) : Prop where
  table : Table s
  lives : Lives s
  locks : Locks s
  wakeups : Wakeups s

variable {pol : Policy}

theorem Kernel.boot : Kernel boot := ⟨.boot, .boot, .boot, .boot⟩

theorem Kernel.move (h : Kernel s) (hm : Move s s') : Kernel s' :=
  ⟨h.table.move hm, h.lives.move h.table hm, h.locks.move h.table hm, h.wakeups.move h.table h.locks h.lives hm⟩

theorem Reached.kernel (h : Reached pol s) : Kernel s := Reached.inv Kernel.boot (fun _ _ => Kernel.move) h

theorem wakeSlot_state (h : (wakeSlot s ch i).state q ≠ s.state q) : s.state q = .sleeping ∧ s.chan q = ch := by
  unfold wakeSlot at h
  split at h
  · rename_i hg
    by_cases e : q = i
    · rw [e]; exact hg
    · simp only [ready, update_of_ne e] at h
      exact absurd rfl h
  · exact absurd rfl h

/-- **No lost wakeup.** In every state reached, for every lock `lk` that is held and every channel whose `wakeup` its
holder has called and seen return since it took `lk`: a process that is SLEEPING on this channel called `sleep` with
another lock. And a step of a `wakeup(chan)` changes the state of no process but those SLEEPING on `chan`. -/
theorem no_lost_wakeup (h : Reached pol s) :
    (∀ x ∈ s.locks, ∀ ch ∈ x.woke, ∀ q, s.state q = .sleeping → s.chan q = ch →
      ∃ k, s.pc q = .sleepSched ch k ∧ k.lk ≠ x.lk) ∧
    (∀ c p ch i ok s', s.cpc c = .run p → s.sw p = .on → s.wake p = some (ch, i) →
      step s pol (.thread c (.next ok)) = .ok s' → ∀ q, s'.state q ≠ s.state q → s.state q = .sleeping ∧
        s.chan q = ch) ∧
    ∀ d ch i s', s.dwake d = some (ch, i) → step s pol (.dev d .next) = .ok s' →
      ∀ q, s'.state q ≠ s.state q → s.state q = .sleeping ∧ s.chan q = ch := by
  have hk := h.kernel
  refine ⟨?_, ?_, ?_⟩
  · intro x hx ch hch q hst hchan
    obtain ⟨k, hpc⟩ := hk.wakeups.sleep q hst
    rw [hchan] at hpc
    exact ⟨k, hpc, fun hlk => hk.wakeups.done x hx ch hch q ⟨k, hlk, .inr ⟨hpc, hst⟩⟩⟩
  · intro c p ch i ok s' hc hsw hw hs q hne
    simp only [step, threadStep, hc, hsw, hw, wakeup] at hs
    split at hs
    · split at hs
      · cases hs; exact absurd rfl hne
      · split at hs <;> cases hs
        exact wakeSlot_state hne
    · cases hs; exact absurd rfl hne
  · intro d ch i s' hw hs q hne
    simp only [step, devStep, hw] at hs
    split at hs
    · split at hs <;> cases hs
      exact wakeSlot_state hne
    · cases hs; exact absurd rfl hne

/-- `init` sleeps on a channel with lock 5, and an interrupt handler that has the lock wakes it up. -/
def sleepAndWake : List Event :=
  startInit ++ [Event.thread 0 (.acquire 5), .thread 0 (.sleep (.obj 7) 5)] ++
    List.replicate 4 (Event.thread 0 (.next true)) ++
    [Event.sched 0 0, .sched 0 0, .dev 0 (.acquire 5), .dev 0 (.wakeup (.obj 7))] ++
    List.replicate 65 (Event.dev 0 .next)

theorem no_lost_wakeup_of_init :
    ∃ x ∈ (after (fun s e => step s .other e) boot sleepAndWake).locks, Chan.obj 7 ∈ x.woke ∧
      ∀ q, (after (fun s e => step s .other e) boot sleepAndWake).state q = .sleeping →
        (after (fun s e => step s .other e) boot sleepAndWake).chan q = .obj 7 →
        ∃ k, (after (fun s e => step s .other e) boot sleepAndWake).pc q = .sleepSched (.obj 7) k ∧ k.lk ≠ x.lk := by
  have hr : Reached .other (after (fun s e => step s .other e) boot sleepAndWake) :=
    Reach.of_checked _ (.init rfl) (by decide +kernel)
  have hw : ∃ x ∈ (after (fun s e => step s .other e) boot sleepAndWake).locks, Chan.obj 7 ∈ x.woke := by
    decide +kernel
  obtain ⟨x, hx, hch⟩ := hw
  exact ⟨x, hx, hch, (no_lost_wakeup hr).1 x hx (.obj 7) hch⟩

end Xv6Riscv.Proc
