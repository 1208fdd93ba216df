import Xv6Riscv.Slot.Model

/-!
# What a slot carries over to its next process

`allocproc` sets half of the fields and relies on `freeproc` and `exit` for the others. Two ways lead around them:
`freeproc` leaves `alarmContext` as it is, and `kill(0)` finds the first UNUSED slot, whose pid is 0. Without these, the
process that `allocproc` returns depends on `ticks` and `nextpid` only (`slot_carries_nothing`).
-/
namespace Xv6Riscv.Slot
open Machine

/-- The fields of an UNUSED slot that `allocproc` does not set are as at boot. -/
structure Blank (q : Proc) : Prop where
  pid : q.pid = 0
  parent : q.parent = none
  chan : q.chan = 0
  killed : q.killed = false
  xstate : q.xstate = 0
  interval : q.interval = 0
  handler : q.handler = 0
  alarmContext : q.alarmContext = 0
  ofile : q.ofile = fun _ => 0
  cwd : q.cwd = 0

/-- What `freeproc` does not reset has been reset in `exit`. -/
structure Departed (q : Proc) : Prop where
  alarmContext : q.alarmContext = 0
  ofile : q.ofile = fun _ => 0
  cwd : q.cwd = 0

structure Clean (s : Sys) : Prop where
  unused : ∀ i, (s.proc i).state = .unused → Blank (s.proc i)
  zombie : ∀ i, (s.proc i).state = .zombie → Departed (s.proc i)

/-- A process does not exit with a saved context pending. -/
def exitsSettled (s : Sys) : Event → Bool
  | .exit p _ => (s.proc p).alarmContext = 0
  | _ => true

/-- `kill` is not called with the pid of the UNUSED slots. -/
def Event.killsSome : Event → Bool
  | .kill _ pid => pid ≠ 0
  | _ => true

variable {s s' : Sys} {i p : Nat} {q : Proc}

theorem Blank.freeproc (h : Departed q) : Blank (freeproc q) where
  pid := rfl
  parent := rfl
  chan := rfl
  killed := rfl
  xstate := rfl
  interval := rfl
  handler := rfl
  alarmContext := h.alarmContext
  ofile := h.ofile
  cwd := h.cwd

theorem Blank.departed (h : Blank q) : Departed q := ⟨h.alarmContext, h.ofile, h.cwd⟩

theorem Departed.wakeup (h : Departed (s.proc i)) (p : Option Nat) (chan : Nat) :
    Departed ((wakeup s p chan).proc i) := by
  simp only [Slot.wakeup]
  split
  · exact { h with }
  · exact h

theorem Departed.reparent (h : Departed (s.proc i)) (p : Nat) : Departed ((reparent s p).proc i) := by
  simp only [Slot.reparent]
  split
  · exact { h with }
  · exact h

theorem allocproc_some (h : allocproc s = some (i, q)) :
    (s.proc i).state = .unused ∧ q = { s.proc i with
      pid := s.nextpid, state := .used, smask := 0, nticks := 0, alarmOn := false, sched := newSched s.ticks } := by
  obtain ⟨j, hj, e⟩ := Option.map_eq_some_iff.1 h
  cases e
  exact ⟨by simpa using List.find?_some hj, rfl⟩

namespace Clean

theorem boot (root : Nat) : Clean (boot root) := by
  refine ⟨fun i hi => ?_, fun i hi => ?_⟩
  all_goals simp only [Slot.boot] at hi ⊢; split at hi
  · cases hi
  · rename_i e
    rw [if_neg e]
    exact ⟨rfl, rfl, rfl, rfl, rfl, rfl, rfl, rfl, rfl, rfl⟩
  · cases hi
  · cases hi

section
variable (h : Clean s)
include h

theorem of_slots (hs : ∀ i, s'.proc i = s.proc i ∨
    ((s'.proc i).state = .unused → Blank (s'.proc i)) ∧ ((s'.proc i).state = .zombie → Departed (s'.proc i))) :
    Clean s' where
  unused i hi := by
    rcases hs i with e | e
    · rw [e] at hi ⊢
      exact h.unused i hi
    · exact e.1 hi
  zombie i hi := by
    rcases hs i with e | e
    · rw [e] at hi ⊢
      exact h.zombie i hi
    · exact e.2 hi

theorem setProc (hu : q.state = .unused → Blank q) (hz : q.state = .zombie → Departed q) : Clean (setProc s i q) := by
  refine h.of_slots fun j => ?_
  simp only [Slot.setProc]
  by_cases e : j = i
  · subst e
    rw [Function.update_self]
    exact .inr ⟨hu, hz⟩
  · exact .inl (Function.update_of_ne e _ _)

theorem setLive (t : ProcState) (hq : q.state = t) (ht : t ≠ .unused ∧ t ≠ .zombie) : Clean (Slot.setProc s i q) :=
  h.setProc (fun e => absurd (hq.symm.trans e) ht.1) fun e => absurd (hq.symm.trans e) ht.2

theorem wakeup (p : Option Nat) (chan : Nat) : Clean (wakeup s p chan) := by
  refine h.of_slots fun i => ?_
  simp only [Slot.wakeup]
  split
  · exact .inr ⟨nofun, nofun⟩
  · exact .inl rfl

theorem reparent (p : Nat) : Clean (reparent s p) := by
  refine h.of_slots fun i => ?_
  simp only [Slot.reparent]
  split
  · rename_i hp
    refine .inr ⟨fun hi => ?_, fun hi => ?_⟩
    · rw [(h.unused i hi).parent] at hp
      cases hp
    · exact { h.zombie i hi with }
  · exact .inl rfl

theorem withPid (n : BitVec 32) : Clean { s with nextpid := n } := { h with }

theorem fork (p : Nat) (mem : Bool) : Clean (fork s p mem) := by
  unfold Slot.fork
  cases ha : allocproc s with
  | none => exact h
  | some r =>
    obtain ⟨i, np⟩ := r
    dsimp only
    split
    · exact withPid (h.setLive .runnable rfl (by decide)) _
    obtain ⟨hst, hnp⟩ := allocproc_some ha
    have hdep : Departed np := by
      rw [hnp]
      exact { (h.unused i hst).departed with }
    exact withPid (h.setProc (fun _ => .freeproc hdep) nofun) _

theorem call {ticks : BitVec 32} {a : Call} (hst : (s.proc p).state = .running)
    (hq : call ticks (s.proc p) a = .ok q) : Clean (Slot.setProc s p q) := by
  have hlive : q.state ≠ .unused ∧ q.state ≠ .zombie := by
    cases a <;> simp only [Slot.call, sysSigreturn, usertrapAlarm] at hq <;> (repeat' split at hq) <;> cases hq <;>
      simp [hst]
  exact h.setLive _ rfl hlive

theorem kill {pid : BitVec 32} (hpid : pid ≠ 0) : Clean (kill s pid) := by
  unfold Slot.kill
  cases hi : slotOf s pid with
  | none => exact h
  | some i =>
    have hfound : (s.proc i).pid = pid := by simpa using List.find?_some hi
    refine h.setProc (fun hst => ?_) (fun hst => ?_)
    · dsimp only at hst
      split at hst
      · cases hst
      · exact absurd ((h.unused i hst).pid.symm.trans hfound).symm hpid
    · dsimp only at hst
      split at hst
      · cases hst
      · exact { h.zombie i hst with }

theorem setSched (i : Nat) (sched : Sched) : Clean (Slot.setProc s i { s.proc i with sched := sched }) :=
  h.setProc (fun hst => { h.unused i hst with }) fun hst => { h.zombie i hst with }

theorem sysSetPriority (p : Nat) (sp pid : BitVec 32) : Clean (sysSetPriority s p sp pid) := by
  unfold Slot.sysSetPriority
  cases slotOf s pid with
  | none => exact h
  | some i =>
    dsimp only
    split
    · exact (h.setSched i _).setLive .runnable rfl (by decide)
    · exact h.setSched i _

theorem exit {status : BitVec 32} (hst : (s.proc p).state = .running)
    (hctx : (s.proc p).alarmContext = 0) (hs : exit s p status = .ok s') : Clean s' := by
  unfold Slot.exit at hs
  split at hs
  · cases hs
  dsimp only at hs
  have h1 : Clean (Slot.setProc s p { s.proc p with ofile := fun _ => 0, cwd := 0 }) :=
    h.setLive .running hst (by decide)
  have hp : Departed ((Slot.setProc s p { s.proc p with ofile := fun _ => 0, cwd := 0 }).proc p) := by
    simp only [Slot.setProc, Function.update_self]
    exact ⟨hctx, rfl, rfl⟩
  cases hs
  refine Clean.setProc ?_ nofun fun _ => ?_
  all_goals split
  · exact ((h1.reparent p).wakeup _ _).wakeup _ _
  · exact h1.wakeup _ _
  · exact { ((hp.reparent p).wakeup _ _).wakeup _ _ with }
  · exact { hp.wakeup _ _ with }

theorem wait (hs : wait s p i = .ok s') : Clean s' := by
  unfold Slot.wait at hs
  split at hs
  · rename_i hg
    cases hs
    exact h.setProc (fun _ => .freeproc (h.zombie i hg.2.2)) nofun
  · cases hs

theorem step {e : Event} (hexit : exitsSettled s e = true) (hkill : e.killsSome = true)
    (hs : step s e = .ok s') : Clean s' := by
  cases e with
  | tick => cases hs; exact { h with }
  | account i sched => cases hs; exact h.setSched i sched
  | dispatch p =>
    simp only [Slot.step] at hs
    split at hs <;> cases hs
    exact h.setLive .running rfl (by decide)
  | call p a =>
    simp only [Slot.step] at hs
    split at hs
    · rename_i hst
      obtain ⟨q, hq, hs⟩ := Outcome.bind_eq_ok.1 hs
      cases hs
      exact h.call hst hq
    · cases hs
  | fork p mem =>
    simp only [Slot.step] at hs
    split at hs <;> cases hs
    exact h.fork p mem
  | exit p status =>
    simp only [Slot.step] at hs
    split at hs
    · rename_i hst
      exact h.exit hst (by simpa [exitsSettled] using hexit) hs
    · cases hs
  | wait p i =>
    simp only [Slot.step] at hs
    split at hs
    · exact h.wait hs
    · cases hs
  | kill p pid =>
    simp only [Slot.step] at hs
    split at hs <;> cases hs
    exact h.kill (by simpa [Event.killsSome] using hkill)
  | setPriority p sp pid =>
    simp only [Slot.step] at hs
    split at hs <;> cases hs
    exact h.sysSetPriority p sp pid
  | wakeup p chan => cases hs; exact h.wakeup p chan

end

end Clean

/-! ## Two histories -/

/-- The states agree on everything but slot `i`. -/
def Agree (i : Nat) (s₁ s₂ : Sys) : Prop :=
  (∀ j < NPROC, j ≠ i → s₁.proc j = s₂.proc j) ∧ s₁.ticks = s₂.ticks ∧ s₁.nextpid = s₂.nextpid

instance (i : Nat) (s₁ s₂ : Sys) : Decidable (Agree i s₁ s₂) := inferInstanceAs (Decidable (_ ∧ _))

/-- The process that `allocproc` returns, but for its pid, does not depend on who had the slot before. -/
def CarriesNothing (allowed : Sys → Event → Prop) : Prop :=
  ∀ root s₁ s₂ i q₁ q₂, Reach step (· = boot root) allowed s₁ → Reach step (· = boot root) allowed s₂ →
    Agree i s₁ s₂ → allocproc s₁ = some (i, q₁) → allocproc s₂ = some (i, q₂) → { q₁ with pid := q₂.pid } = q₂

/-- What `allocproc` returns for a blank slot. -/
def newborn (ticks pid : BitVec 32) : Proc := { zero with state := .used, pid := pid, sched := newSched ticks }

theorem allocproc_clean (h : Clean s) (ha : allocproc s = some (i, q)) : q = newborn s.ticks s.nextpid := by
  obtain ⟨hst, rfl⟩ := allocproc_some ha
  obtain ⟨-, hparent, hchan, hkilled, hxstate, hinterval, hhandler, hctx, hofile, hcwd⟩ := h.unused i hst
  simp only [newborn, zero, hparent, hchan, hkilled, hxstate, hinterval, hhandler, hctx, hofile, hcwd]

variable {root₁ root₂ : Nat} {s₁ s₂ : Sys} {i₁ i₂ : Nat} {q₁ q₂ : Proc}

/-- The runs in which no process exits with a saved context pending and `kill` is not called with pid 0. -/
def Orderly (s : Sys) (e : Event) : Prop := exitsSettled s e = true ∧ e.killsSome = true

instance (s : Sys) (e : Event) : Decidable (Orderly s e) := inferInstanceAs (Decidable (_ ∧ _))

theorem clean_of_orderly {root : Nat} (h : Reach step (· = boot root) Orderly s) : Clean s :=
  Reach.inv (by rintro _ rfl; exact Clean.boot root) (fun _ _ _ hI ha hs => hI.step ha.1 ha.2 hs) h

/-- **Slots carry nothing over.** After any two orderly runs that end at the same `ticks`, whoever had the slots before
and whatever system calls were made on other pids, `allocproc` returns the same process, but for its pid: it is not
killed, and it has no pending alarm context. -/
theorem slot_carries_nothing (h₁ : Reach step (· = boot root₁) Orderly s₁) (h₂ : Reach step (· = boot root₂) Orderly s₂)
    (hticks : s₁.ticks = s₂.ticks) (ha₁ : allocproc s₁ = some (i₁, q₁)) (ha₂ : allocproc s₂ = some (i₂, q₂)) :
    { q₁ with pid := q₂.pid } = q₂ ∧ q₁.killed = false ∧ q₁.alarmContext = 0 := by
  rw [allocproc_clean (clean_of_orderly h₁) ha₁, allocproc_clean (clean_of_orderly h₂) ha₂, hticks]
  exact ⟨rfl, rfl, rfl⟩

/-- A child sets an alarm, is interrupted as `timers` says, exits and is waited for. -/
def childLife (timers : List Event) : List Event :=
  [.dispatch 0, .fork 0 true, .dispatch 1, .call 1 (.sigalarm 1 64)] ++ timers ++ [.exit 1 0, .wait 0 1]

theorem slot_carries_nothing_after_child :
    ∃ q₁ q₂, allocproc (boot 1) = some (1, q₁) ∧ allocproc (after step (boot 1) (childLife [])) = some (1, q₂) ∧
      { q₁ with pid := q₂.pid } = q₂ := by
  have hr : Reach step (· = boot 1) Orderly (after step (boot 1) (childLife [])) :=
    Reach.of_checked _ (.init rfl) (by decide +kernel)
  obtain ⟨r₁, h₁⟩ : ∃ q₁, allocproc (boot 1) = some (1, q₁) := ⟨_, rfl⟩
  obtain ⟨r₂, h₂⟩ : ∃ q₂, allocproc (after step (boot 1) (childLife [])) = some (1, q₂) := ⟨_, rfl⟩
  exact ⟨r₁, r₂, h₁, h₂, (slot_carries_nothing (.init rfl) hr (by decide +kernel) h₁ h₂).1⟩

/-- Either condition alone is not enough: after `kill(0)` the next process in slot 1 is killed from its start, and after
the exit of a process in its alarm handler the next one has its `alarmContext`. -/
theorem slot_carries_over :
    ¬ CarriesNothing (fun s e => exitsSettled s e = true) ∧ ¬ CarriesNothing (fun _ e => e.killsSome = true) := by
  refine ⟨fun h => ?_, fun h => ?_⟩
  · have := h 1 _ _ 1 _ _ (Reach.of_checked [.dispatch 0, .kill 0 0] (.init rfl) (by decide +kernel))
      (Reach.of_checked [.dispatch 0] (.init rfl) (by decide +kernel)) (by decide +kernel) rfl rfl
    revert this
    decide +kernel
  · have := h 1 _ _ 1 _ _ (Reach.of_checked (childLife [.call 1 (.timer 4096)]) (.init rfl) (by decide +kernel))
      (Reach.of_checked (childLife []) (.init rfl) (by decide +kernel)) (by decide +kernel) rfl rfl
    revert this
    decide +kernel

end Xv6Riscv.Slot
