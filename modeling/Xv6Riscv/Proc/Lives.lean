import Xv6Riscv.Proc.Cpus

/-!
# The state of a process and where its thread is

A slot that is UNUSED has no thread, a USED one has a thread that has not started, and a ZOMBIE's thread has left for
good.
-/
namespace Xv6Riscv.Proc
open Machine
open Function (update update_self update_of_ne update_eq_self_iff)

/-- The states of a process that can run again. -/
def Live : ProcState → Prop
  | .sleeping | .runnable | .running => True
  | _ => False

/-- The thread is at the end of `exit`. -/
def Pc.dead : Pc → Bool
  | .exitUnlock | .zombie => true
  | _ => false

/-- The places a thread calls `wakeup` from. -/
def Pc.wakes : Pc → Bool
  | .code | .exitReparent _ _ | .exitZombie _ => true
  | _ => false

structure Lives (s : Sys) : Prop where
  unused : ∀ p, s.state p = .unused → s.pc p = .forkret ∨ s.pc p = .zombie
  used : ∀ p, s.state p = .used → s.pc p = .forkret
  zombie : ∀ p, s.state p = .zombie → (s.pc p).dead = true
  live : ∀ p, Live (s.state p) → (s.pc p).dead = false
  wake : ∀ p, s.wake p ≠ none → (s.pc p).wakes = true

/-- The same for one slot. -/
structure Fits (st : ProcState) (b : Pc) (w : Option (Chan × Nat)) : Prop where
  unused : st = .unused → b = .forkret ∨ b = .zombie
  used : st = .used → b = .forkret
  zombie : st = .zombie → b.dead = true
  live : Live st → b.dead = false
  wake : w ≠ none → b.wakes = true

theorem Fits.of_live {st : ProcState} {b : Pc} {w : Option (Chan × Nat)} (hst : Live st) (hb : b.dead = false)
    (hw : w ≠ none → b.wakes = true) : Fits st b w := by
  cases st with
  | unused | used | zombie => cases hst
  | sleeping | runnable | running => exact ⟨nofun, nofun, nofun, fun _ => hb, hw⟩

namespace Lives
variable {s s' : Sys} {c p q : Nat}

section
variable (h : Lives s)
include h

theorem fits (p : Nat) : Fits (s.state p) (s.pc p) (s.wake p) :=
  ⟨h.unused p, h.used p, h.zombie p, h.live p, h.wake p⟩

theorem slot (hq : Fits (s'.state q) (s'.pc q) (s'.wake q))
    (hne : ∀ r, r ≠ q → s'.state r = s.state r ∧ s'.pc r = s.pc r ∧ s'.wake r = s.wake r) : Lives s' := by
  have hall : ∀ r, Fits (s'.state r) (s'.pc r) (s'.wake r) := by
    intro r
    by_cases e : r = q
    · rw [e]
      exact hq
    · obtain ⟨hst, hpc, hw⟩ := hne r e
      rw [hst, hpc, hw]
      exact h.fits r
  exact ⟨fun r => (hall r).unused, fun r => (hall r).used, fun r => (hall r).zombie, fun r => (hall r).live,
    fun r => (hall r).wake⟩

theorem wake_none (hp : (s.pc p).wakes = false) : s.wake p = none := by
  by_contra hne
  have := h.wake p hne
  rw [hp] at this
  cases this

theorem goto {b : Pc} (hst : s.state p = .running) (hb : b.dead = false)
    (hw : s.wake p = none ∨ b.wakes = true) : Lives (goto s p b) := by
  refine h.slot (q := p) ?_ fun r e => ⟨rfl, update_of_ne e .., rfl⟩
  simp only [Proc.goto, update_self, hst]
  exact .of_live trivial hb hw.resolve_left

theorem setLive (st : ProcState) (hold : Live (s.state q) ∨ s.state q = .used) (hnew : Live st) :
    Lives { s with state := update s.state q st } := by
  have hpc : (s.pc q).dead = false := by
    rcases hold with hold | hold
    · exact h.live q hold
    · rw [h.used q hold]; rfl
  refine h.slot (q := q) ?_ fun r e => ⟨update_of_ne e .., rfl, rfl⟩
  simp only [update_self]
  exact .of_live hnew hpc (h.wake q)

theorem freeproc (hpc : s.pc q = .forkret ∨ s.pc q = .zombie) : Lives (freeproc s q) := by
  refine h.slot (q := q) ?_ fun r e => ⟨update_of_ne e .., rfl, rfl⟩
  simp only [Proc.freeproc, update_self]
  exact ⟨fun _ => hpc, nofun, nofun, nofun, h.wake q⟩

theorem setBoth (st : ProcState) {b : Pc} (hw : s.wake q = none)
    (hok : st = .used ∧ b = .forkret ∨ st = .zombie ∧ b.dead = true) :
    Lives { s with state := update s.state q st, pc := update s.pc q b } := by
  refine h.slot (q := q) ?_ fun r e => ⟨update_of_ne e .., update_of_ne e .., rfl⟩
  simp only [update_self]
  rcases hok with ⟨rfl, hb⟩ | ⟨rfl, hb⟩
  · exact ⟨nofun, fun _ => hb, nofun, nofun, absurd hw⟩
  · exact ⟨nofun, nofun, fun _ => hb, nofun, absurd hw⟩

theorem setWake (f : Option (Chan × Nat)) (hp : (s.pc p).wakes = true) : Lives { s with wake := update s.wake p f } :=
  h.slot (q := p) { h.fits p with wake := fun _ => hp } fun _ e => ⟨rfl, rfl, update_of_ne e ..⟩

theorem wakeSlot (ch : Chan) : Lives (wakeSlot s ch q) := by
  unfold Proc.wakeSlot
  split
  · rename_i hg
    exact { h.setLive .runnable (.inl (by rw [hg.1]; trivial)) trivial with }
  · exact h

end

theorem boot : Lives boot where
  unused _ _ := .inl rfl
  used _ _ := rfl
  zombie p hp := by
    simp only [Proc.boot] at hp
    split at hp <;> cases hp
  live _ _ := rfl
  wake _ h := absurd rfl h

theorem move (h : Lives s) (ht : Table s) (hm : Move s s') : Lives s' := by
  -- a thread that holds none of its locks is RUNNING
  have hrun : ∀ {c p a}, At s c p a → a.window = none → s.state p = .running := fun hat ha =>
    (ht.runs_unlocked hat.toRuns (by rw [hat.pc]; exact ha)).2
  -- it stays so when another slot gets a new state
  have hkeep : ∀ {c p a i st}, At s c p a → a.window = none → s.state i ≠ .running →
      update s.state i st p = .running := by
    intro c p a i st hat ha hi
    have hne : p ≠ i := by rintro rfl; exact hi (hrun hat ha)
    rw [update_of_ne hne]
    exact hrun hat ha
  cases hm with
  | dispatch c p hc hl hst =>
    exact { h.setLive (q := p) .running (.inl (by rw [hst]; trivial)) trivial with }
  | forkret c p hc hsw hpc =>
    have hst := ht.here c p hc
    rw [hsw] at hst
    exact { h.goto (b := .code) hst.2 rfl (.inr rfl) with }
  | wokenUp c p chan k hc hsw hpc =>
    have hst := ht.here c p hc
    rw [hsw] at hst
    exact { h.goto (b := .sleepRelock k) hst.2 rfl (.inl (h.wake_none (by rw [hpc]; rfl))) with }
  | yield c p hr hno hl =>
    have hst := (ht.runs_unlocked hr (ht.window_of_free hr hl)).2
    exact { h.setLive (q := p) .runnable (.inl (by rw [hst]; trivial)) trivial with }
  | wakeSkip c p chan hr hw => exact h.setWake _ (h.wake p (by rw [hw]; simp))
  | wakeSlot c p chan i hr hw hne hl =>
    have hp := h.wake p (by rw [hw]; simp)
    have h1 := (h.wakeSlot (q := i) chan).setWake (p := p) (some (chan, i + 1)) (by rw [wakeSlot_pc]; exact hp)
    rw [wakeSlot_wake] at h1
    exact h1
  | wakeDone c p chan i hr hw hi => exact { h.setWake none (h.wake p (by rw [hw]; simp)) with }
  | devSlot d chan i hw hl => exact { h.wakeSlot (q := i) chan with }
  | call c p a hat hno hcall => exact h.goto (hrun hat rfl) (by cases hcall <;> rfl) (.inl hat.wake)
  | scan c p a b hat hscan =>
    exact h.goto (hrun hat (by cases hscan <;> rfl)) (by cases hscan <;> rfl) (.inl hat.wake)
  | take c p a lk b hat hfree htake =>
    have hb : a.window = none ∧ b.dead = false := by
      cases htake with
      | sleep k => cases k <;> exact ⟨rfl, rfl⟩
      | _ => exact ⟨rfl, rfl⟩
    exact { h.goto (hrun hat hb.1) hb.2 (.inl hat.wake) with }
  | callWakeup c p chan hat => exact h.setWake _ (by rw [hat.pc]; rfl)
  | callSleep _ _ _ _ hat | keep _ _ _ _ hat | waitSkip _ _ _ _ _ _ hat | scanned _ _ _ _ _ hat
  | waitSleep _ _ _ _ hat => exact h.goto (hrun hat rfl) rfl (.inl hat.wake)
  | killAwake _ _ _ _ hat | copyTickets _ _ _ hat =>
    exact { h.goto (b := .code) (hrun hat rfl) rfl (.inl hat.wake) with }
  | killAsleep c p pid i hat hl hst =>
    have h1 := h.setLive (q := i) .runnable (.inl (by rw [hst]; trivial)) trivial
    exact { h1.goto (b := .code) (hkeep hat rfl (by rw [hst]; simp)) rfl (.inl hat.wake) with }
  | alloc c p i hat hi hl hst =>
    have hw : s.wake i = none := h.wake_none (by rcases h.unused i hst with e | e <;> rw [e] <;> rfl)
    have h1 := h.setBoth (q := i) .used (b := .forkret) hw (.inl ⟨rfl, rfl⟩)
    exact { h1.goto (b := .forkParent i) (hkeep hat rfl (by rw [hst]; simp)) rfl (.inl hat.wake) with }
  | allocFail c p i hat hl hst =>
    have h1 := h.freeproc (h.unused i hst)
    exact { h1.goto (b := .code) (hkeep hat rfl (by rw [hst]; simp)) rfl (.inl hat.wake) with }
  | setParent c p np hat => exact { h.goto (b := .forkRunnable np) (hrun hat rfl) rfl (.inl hat.wake) with }
  | publish c p np hat hl =>
    have hused := ht.made p np (by rw [hat.pc]; rfl)
    have h1 := h.setLive (q := np) .runnable (.inr hused) trivial
    exact { h1.goto (b := .forkSmask np) (hkeep hat rfl (by rw [hused]; simp)) rfl (.inl hat.wake) with }
  | copySmask c p np hat => exact { h.goto (b := .forkTickets np) (hrun hat rfl) rfl (.inl hat.wake) with }
  | adopt c p status i hat hpar =>
    have h1 := h.goto (b := .exitReparent status (i + 1)) (hrun hat rfl) rfl (.inl hat.wake)
    exact { h1.setWake (p := p) (some (.proc initproc, 0)) (by simp only [Proc.goto, update_self]; rfl) with }
  | wakeParent c p status i hat hi =>
    have h1 := h.goto (b := .exitZombie status) (hrun hat rfl) rfl (.inl hat.wake)
    exact { h1.setWake (p := p) (some (parentChan (s.parent p), 0))
      (by simp only [Proc.goto, update_self]; rfl) with }
  | die c p status hat hl => exact { h.setBoth .zombie (b := .exitUnlock) hat.wake (.inr ⟨rfl, rfl⟩) with }
  | exitUnlock c p hat =>
    have hst := (ht.runs_locked hat.toRuns (by rw [hat.pc]; rfl)).2
    have h1 := h.setBoth .zombie (b := .zombie) hat.wake (.inr ⟨rfl, rfl⟩)
    rw [show update s.state p .zombie = s.state from update_eq_self_iff.2 hst.symm] at h1
    exact { h1 with }
  | reap c p w i havekids hat hpar hl hst =>
    -- the zombie's lock is free, so its thread has left
    have hpc : s.pc i = .zombie := by
      have hdead := h.zombie i hst
      cases hpi : s.pc i <;> rw [hpi] at hdead <;> first | rfl | cases hdead
      obtain ⟨c', hc', hon⟩ := ht.window i (by rw [hpi]; rintro ⟨⟩)
      have := (ht.runs_locked ⟨hc', hon⟩ (by rw [hpi]; rfl)).1
      rw [hl] at this
      cases this
    have h1 := h.freeproc (q := i) (.inr hpc)
    exact { h1.goto (b := .code) (hkeep hat rfl (by rw [hst]; simp)) rfl (.inl hat.wake) with }
  | waitReturn c p a hat hin =>
    exact { h.goto (b := .code) (hrun hat (by cases hin <;> rfl)) rfl (.inl hat.wake) with }
  | sleepLock c p chan k hat hl => exact { h.goto (b := .sleepUnlock chan k) (hrun hat rfl) rfl (.inl hat.wake) with }
  | sleepUnlock c p chan k hat =>
    have hst := (ht.runs_locked hat.toRuns (by rw [hat.pc]; rfl)).2
    exact { h.goto (b := .sleepState chan k) hst rfl (.inl hat.wake) with }
  | sleepState c p chan k hat =>
    have hst := (ht.runs_locked hat.toRuns (by rw [hat.pc]; rfl)).2
    have h1 := h.goto (b := .sleepSched chan k) hst rfl (.inl hat.wake)
    have h2 := h1.setLive (q := p) .sleeping (.inl (by change Live (s.state p); rw [hst]; trivial)) trivial
    exact { h2 with }
  | _ => exact { h with }

end Lives

end Xv6Riscv.Proc
