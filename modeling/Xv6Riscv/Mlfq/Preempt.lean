import Xv6Riscv.Mlfq.Slices

/-!
# Preemption for higher priority (trap.c:206-216)

After a user-mode tick the loop of `usertrap` looks for a process in `queue[i]`, `i < p->pr`. The queues are
filled by `scheduler` only, so a process that became RUNNABLE since its last pass (a new child, or one
woken by an interrupt) is not seen.
-/
namespace Xv6Riscv.Mlfq
open Machine SlotArray

variable {s s' : Sys} {e : Event} {p c i : Nat}

/-! ## The queues are packed in every state -/

def AllPacked (s : Sys) : Prop := ∀ i, Packed (s.queue i)

theorem step_queue (hs : step s e = .ok s') (he : e ≠ .sched) : s'.queue = s.queue := by
  have hpre : ∀ (t : Sys) (p i : Nat), (preempt t p i).queue = t.queue := by
    intro t p i
    unfold preempt
    split <;> rfl
  cases e with
  | sched => exact absurd rfl he
  | utick =>
    obtain ⟨p, -, hs⟩ := utick_eq_ok hs
    have hbump := (bumpAll_spec (s.setProc p fun q => { q with rticks := q.rticks + 1 })).2.1
    simp only [usertrap, exit] at hs
    split at hs
    · split at hs <;> cases hs
      exact hbump
    · split at hs <;> cases hs
      · exact hbump
      · exact (hpre _ _ _).trans hbump
  | ktick =>
    cases hs
    unfold kerneltrap
    split <;> exact (bumpAll_spec s).2.1
  | resume =>
    obtain ⟨p, i, -, rfl⟩ := resume_eq_ok hs
    exact hpre s p i
  | wakeup c =>
    obtain ⟨-, rfl⟩ := wakeup_eq_ok hs
    rfl
  | call call =>
    obtain ⟨p, -, hs⟩ := call_eq_ok hs
    cases call <;> simp only [doCall, exit] at hs
    case sleep => cases hs; rfl
    case exit | start | free => split at hs <;> cases hs; rfl
    case alloc =>
      cases hs
      unfold allocproc
      split <;> rfl
    case kill =>
      cases hs
      unfold kill
      split <;> rfl

theorem Reach.allPacked {allowed : Sys → Event → Prop} (hr : Reach step Boot allowed s) : AllPacked s := by
  refine Reach.inv (I := AllPacked) (fun s hb i => ?_) (fun s e s' h _ hs => ?_) hr
  · rw [hb.queue i]
    exact packed_iff.2 ⟨[], NPROC, rfl⟩
  by_cases he : e = .sched
  · subst he
    exact fun i => sched_queue hs (fun _ _ _ _ => packed_push _ _) (fun _ _ => packed_remove _) (h i)
  · intro i
    rw [step_queue hs he]
    exact h i

/-! ## The tick -/

theorem AllPacked.listed_nil (h : AllPacked s) (ho : occupied s i = false) : listed (s.queue i) = [] := by
  refine listed_of_head (h i) fun hne => ?_
  have hidx : (s.queue i).findIdx (· == none) = 0 := by
    simpa [occupied] using ho
  cases hq : s.queue i with
  | nil =>
    rw [hq] at hne
    exact absurd rfl hne
  | cons x q =>
    rw [hq, List.findIdx_cons] at hidx
    cases x with
    | none => rfl
    | some c => cases hidx

/-- A process goes back to user mode without having yielded: it has only counted its tick, and there is nobody in
the queues of higher priority. -/
theorem usertrap_stays (h : usertrap s p = .ok s') (hpc : s'.pc = .running p) :
    (∀ c, (s'.proc c).state = (s.proc c).state ∧ (s'.proc c).pr = (s.proc c).pr) ∧
      ∀ k < (s.proc p).pr, occupied s k = false := by
  obtain ⟨-, hqueue, hproc⟩ := bumpAll_spec (s.setProc p fun q => { q with rticks := q.rticks + 1 })
  have hsame : ∀ c, ((bumpAll (s.setProc p fun q => { q with rticks := q.rticks + 1 })).proc c).state =
      (s.proc c).state ∧
      ((bumpAll (s.setProc p fun q => { q with rticks := q.rticks + 1 })).proc c).pr = (s.proc c).pr := by
    intro c
    obtain ⟨w, hw⟩ := hproc c
    rw [hw]
    by_cases hc : c = p
    · subst hc
      rw [setProc_self]
      exact ⟨rfl, rfl⟩
    · rw [setProc_ne _ _ _ _ hc]
      exact ⟨rfl, rfl⟩
  simp only [usertrap] at h
  generalize bumpAll (s.setProc p fun q => { q with rticks := q.rticks + 1 }) = s1 at h hqueue hsame
  split at h
  · simp only [exit] at h
    split at h
    · cases h
    · cases h
      cases hpc
  split at h
  · cases h
    cases hpc
  cases h
  unfold preempt at hpc ⊢
  split at hpc
  next => cases hpc
  next hnone =>
    refine ⟨fun c => ?_, fun k hk => ?_⟩
    · by_cases hc : c = p
      · subst hc
        rw [setProc_self]
        exact hsame c
      · rw [setProc_ne _ _ _ _ hc]
        exact hsame c
    · have hfree := List.find?_eq_none.1 hnone k (List.mem_range.2 ((hsame p).2 ▸ hk))
      have hocc : occupied s1 k = occupied s k := by rw [occupied, occupied, hqueue, setProc_queue]
      simpa [hocc] using hfree

/-- **Preemption for higher priority.** When a user-mode tick is over and the process goes on without having
yielded, no RUNNABLE process has a smaller `pr` exactly when each RUNNABLE process with a smaller `pr` was in the
queue of its level at the tick. -/
theorem preempts_iff (hr : Reach step Boot (fun _ _ => True) s) (hpc : s.pc = .running p)
    (hs : step s .utick = .ok s') (hstay : s'.pc = .running p) :
    (∀ c < NPROC, (s'.proc c).state = .runnable → (s'.proc p).pr ≤ (s'.proc c).pr) ↔
      ∀ c < NPROC, (s.proc c).state = .runnable → (s.proc c).pr < (s.proc p).pr → Listed s c := by
  have hpacked := Reach.allPacked hr
  simp only [step, hpc] at hs
  split at hs
  · obtain ⟨hsame, hocc⟩ := usertrap_stays hs hstay
    constructor
    · intro h c hc hst hlt
      have hle := h c hc ((hsame c).1.trans hst)
      rw [(hsame c).2, (hsame p).2] at hle
      omega
    intro h c hc hst
    rw [(hsame c).1] at hst
    rw [(hsame c).2, (hsame p).2]
    by_contra hlt
    have hlt : (s.proc c).pr < (s.proc p).pr := by omega
    have hm := h c hc hst hlt
    rw [Listed, hpacked.listed_nil (hocc _ hlt)] at hm
    cases hm
  · cases hs

/-- The first process and two children go down to level 1, the first one to level 2; then the first child runs. -/
def threeLevels : List Event :=
  round ++ [.call .alloc, .call (.start 1), .call .alloc, .call (.start 2), .utick] ++ round ++ [.utick] ++ round ++
    [.utick] ++ round ++ [.sched, .resume, .utick, .utick] ++ round ++ [.sched, .resume]

/-- The first child goes on after its tick: one process waits at its own level, another one below. -/
theorem preempts_iff_threeLevels : ∃ s s', s.pc = .running 1 ∧ step s .utick = .ok s' ∧ s'.pc = .running 1 ∧
    ((s'.proc 2).state = .runnable ∧ (s'.proc 2).pr = 1) ∧ ((s'.proc 0).state = .runnable ∧ (s'.proc 0).pr = 2) ∧
    ∀ c < NPROC, (s'.proc c).state = .runnable → (s'.proc 1).pr ≤ (s'.proc c).pr := by
  have hrun : checked step (fun _ _ => True) booted threeLevels = true ∧
      (after step booted threeLevels).pc = .running 1 ∧ (step (after step booted threeLevels) .utick).isOk = true ∧
      (after step (after step booted threeLevels) [.utick]).pc = .running 1 ∧
      (((after step (after step booted threeLevels) [.utick]).proc 2).state = .runnable ∧
        ((after step (after step booted threeLevels) [.utick]).proc 2).pr = 1) ∧
      (((after step (after step booted threeLevels) [.utick]).proc 0).state = .runnable ∧
        ((after step (after step booted threeLevels) [.utick]).proc 0).pr = 2) ∧
      ∀ c < NPROC, ((after step booted threeLevels).proc c).state = .runnable →
        ((after step booted threeLevels).proc c).pr < ((after step booted threeLevels).proc 1).pr → False := by
    decide +kernel
  obtain ⟨hok, hpc, htick, hstay, htwo, hzero, hnone⟩ := hrun
  have hr : Reach step Boot (fun _ _ => True) (after step booted threeLevels) :=
    Reach.of_checked threeLevels (.init booted_boot) hok
  have hs := step_eq_after step htick
  exact ⟨_, _, hpc, hs, hstay, htwo, hzero,
    (preempts_iff hr hpc hs hstay).2 fun c hc hst hlt => (hnone c hc hst hlt).elim⟩

/-- The first process, at level 1, makes a child. -/
def childBorn : List Event := demotion ++ [Event.call .alloc, .call (.start 1)]

/-- **A child is not seen.** The child is RUNNABLE at level 0; at the next tick its parent goes on at level 1. -/
theorem child_not_seen : ∃ s s', Reach step Boot (fun _ _ => True) s ∧ s.pc = .running 0 ∧
    step s .utick = .ok s' ∧ s'.pc = .running 0 ∧
    ¬∀ c < NPROC, (s'.proc c).state = .runnable → (s'.proc 0).pr ≤ (s'.proc c).pr := by
  have hrun : checked step (fun _ _ => True) booted childBorn = true ∧ (after step booted childBorn).pc = .running 0 ∧
      (step (after step booted childBorn) .utick).isOk = true ∧
      (after step (after step booted childBorn) [.utick]).pc = .running 0 ∧
      ((after step (after step booted childBorn) [.utick]).proc 1).state = .runnable ∧
      ((after step (after step booted childBorn) [.utick]).proc 1).pr <
        ((after step (after step booted childBorn) [.utick]).proc 0).pr := by decide +kernel
  obtain ⟨hok, hpc, htick, hstay, hst, hlt⟩ := hrun
  refine ⟨_, _, Reach.of_checked childBorn (.init booted_boot) hok, hpc, step_eq_after step htick, hstay, ?_⟩
  intro h
  have := h 1 (by decide) hst
  omega

end Xv6Riscv.Mlfq
