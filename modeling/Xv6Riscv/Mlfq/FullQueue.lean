import Xv6Riscv.Mlfq.Runs

/-!
# What a full queue loses

With all `NPROC` processes RUNNABLE at one level the queue of that level has no null slot. `dequeue_proc`
then leaves the last entry twice, and `queue_proc` finds no slot for the process that was taken out.
-/
namespace Xv6Riscv.Mlfq
open Machine SlotArray

def booted : Sys where
  proc c := { state := if c = 0 then .runnable else .unused, pid := if c = 0 then 1 else 0, killed := false
              rticks := 0, wticks := 0, pr := 0, resume := none }
  queue _ := List.replicate NPROC none
  nextpid := 2
  pc := .enqueue 0

theorem booted_boot : Boot booted where
  init := ⟨rfl, rfl, rfl⟩
  others c hc := by simp [booted, hc]
  queue _ := rfl
  nextpid := rfl
  pc := rfl

/-! ## The full queue -/

/-- One round of the scheduler: the three loops, up to the switch. -/
def round : List Event := List.replicate 327 .sched

/-- The first process runs and sleeps, and is woken before the next round begins. -/
def nap : List Event := [.call .sleep, .wakeup 0]

/-- The first process fills the table with children. It sleeps and is woken in front of the round that puts all
processes in one queue, and again when that round has taken it out; the next enqueue loop ends. -/
def crowd : List Event :=
  round ++ (List.range (NPROC - 1)).flatMap (fun n => [.call .alloc, .call (.start (n + 1))]) ++ nap ++ round ++ nap ++
    List.replicate NPROC .sched

/-- **A full queue loses a process.** All `NPROC` processes are RUNNABLE at level 0; the one the scheduler
takes sleeps and is woken before the next enqueue loop. At the end of that loop the queue has an entry twice,
and the process is RUNNABLE at level 0 and missing from the queue. -/
theorem full_queue_loses_process : ∃ s, Reach step Boot (fun _ _ => True) s ∧ s.pc = .enqueue NPROC ∧
    ¬ (listed (s.queue 0)).Nodup ∧
    ∃ c < NPROC, (s.proc c).state = .runnable ∧ (s.proc c).pr = 0 ∧ c ∉ listed (s.queue 0) := by
  -- the queue has become 1, 2, ..., 63, 63
  have hrun : checked step (fun _ _ => True) booted crowd = true ∧ (after step booted crowd).pc = .enqueue NPROC ∧
      listed ((after step booted crowd).queue 0) = (List.range 63).map (· + 1) ++ [63] ∧
      ((after step booted crowd).proc 0).state = .runnable ∧ ((after step booted crowd).proc 0).pr = 0 := by
    decide +kernel
  obtain ⟨hok, hpc, hqueue, hst, hpr⟩ := hrun
  refine ⟨_, Reach.of_checked crowd (.init booted_boot) hok, hpc, ?_, 0, by decide, hst, hpr, ?_⟩
  · rw [hqueue]
    decide
  · rw [hqueue]
    decide

/-! ## A run of allowed events -/

instance (s : Sys) (i : Nat) : Decidable (Full s i) := inferInstanceAs (Decidable (∀ c < NPROC, _))

/-- A test for `Allowed`. -/
def allowed (s : Sys) : Event → Bool
  | .sched =>
    match s.pc with
    | .age i _ | .select i _ => ¬ Full s i
    | _ => true
  | .wakeup c =>
    match s.pc with
    | .enqueue k => k ≤ c
    | .running _ => true
    | _ => false
  | .call .alloc => ∀ c < NPROC, (s.proc c).state ≠ .unused → (s.proc c).pid ≠ s.nextpid
  | _ => true

theorem Allowed.of_allowed {s : Sys} {e : Event} (h : allowed s e = true) : Allowed s e := by
  constructor
  case dequeue =>
    rintro rfl i j (hp | hp) <;> simpa [allowed, hp] using h
  case wakeup =>
    rintro c rfl
    cases hp : s.pc <;> simp_all [allowed]
  case fork =>
    rintro rfl
    simpa [allowed] using h

/-- The first process makes a child, uses up its slice and waits at level 1 until aging brings it back to level 0;
meanwhile the child has run and sleeps. The first process runs, wakes the child and is preempted. -/
def longWait : List Event :=
  round ++ [.call .alloc, .call (.start 1), .utick] ++ round ++ [.call .sleep] ++ List.replicate NPROC .sched ++
    List.replicate 30 .ktick ++ List.replicate 263 .sched ++ [.resume, .wakeup 1, .ktick] ++ List.replicate NPROC .sched

/-- The exactness theorem at work: at the end of the next enqueue loop both are in the queue of level 0. -/
theorem queues_exact_longWait : ∃ s, Reach step Boot Allowed s ∧ s.pc = .enqueue NPROC ∧ ∀ c < 2, c ∈ listed (s.queue 0) := by
  have hrun : checked step (fun s e => allowed s e = true) booted longWait = true ∧
      (after step booted longWait).pc = .enqueue NPROC ∧
      ∀ c < 2, ((after step booted longWait).proc c).state = .runnable ∧ ((after step booted longWait).proc c).pr = 0 := by
    decide +kernel
  obtain ⟨hok, hpc, hboth⟩ := hrun
  have hr : Reach step Boot Allowed _ :=
    (Reach.of_checked _ (.init booted_boot) hok).mono fun _ _ => Allowed.of_allowed
  have hexact := (queues_exact hr).1 hpc 0 NPR_pos
  exact ⟨_, hr, hpc, fun c hc => (hexact.2.2.2 c).2 ⟨hc.trans (by decide), hboth c hc⟩⟩

end Xv6Riscv.Mlfq
