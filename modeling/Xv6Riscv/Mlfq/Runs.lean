import Xv6Riscv.Mlfq.Exact

/-!
# Runs of the MLFQ scheduler

The three loops of `scheduler`, the traps and the calls of the running process keep the queues exact.
-/
namespace Xv6Riscv.Mlfq
open Machine SlotArray List
open Outcome (bind_eq_ok)
variable {s s' : Sys} {c i j p : Nat}

/-- What holds where. The selection loop starts at the first slot of a level and stops there: under the
invariant the first entry it sees is RUNNABLE. -/
def PcOk (s : Sys) : Prop :=
  match s.pc with
  | .enqueue k => k ≤ NPROC ∧ Complete s k
  | .age i _ => 0 < i ∧ Complete s NPROC
  | .select i j => j = 0 ∧ Complete s NPROC ∧ ∀ k < NPR, k < i → listed (s.queue k) = []
  | .running p => p < NPROC ∧ (s.proc p).state = .running

structure Inv (s : Sys) : Prop where
  lists : Lists s
  pc : PcOk s

/-- The events the exactness theorem covers: no dequeue while all slots are RUNNABLE at that level; no
wakeup of a process that the enqueue loop has passed, until the selection is over; no pid handed out that
a process still has. -/
structure Allowed (s : Sys) (e : Event) : Prop where
  dequeue : e = .sched → ∀ i j, s.pc = .age i j ∨ s.pc = .select i j → ¬ Full s i
  wakeup : ∀ c, e = .wakeup c → match s.pc with
    | .enqueue k => k ≤ c
    | .running _ => True
    | _ => False
  fork : e = .call .alloc → ∀ c < NPROC, (s.proc c).state ≠ .unused → (s.proc c).pid ≠ s.nextpid

/-! ## The scheduler -/

theorem queueProc_proc (h : queueProc s p = .ok s') : s'.proc = s.proc ∧ s'.pc = s.pc ∧ (s.proc p).pr < NPR := by
  simp only [queueProc] at h
  split at h
  next hlt =>
    cases h
    exact ⟨rfl, rfl, hlt⟩
  next => cases h

theorem dequeueProc_proc (h : dequeueProc s p = .ok s') : s'.proc = s.proc ∧ s'.pc = s.pc := by
  simp only [dequeueProc] at h
  split at h
  · cases h
    exact ⟨rfl, rfl⟩
  · cases h

section
variable {P : List (Option Nat) → Prop}

theorem setQueue_queue {q : List (Option Nat)} (h : P (s.queue i)) (hq : P (s.queue j) → P q) :
    P ((s.setQueue j q).queue i) := by
  by_cases hi : i = j
  · subst hi
    rw [setQueue_self]
    exact hq h
  · rw [setQueue_ne _ _ _ hi]
    exact h

theorem queueProc_queue (hs : queueProc s p = .ok s') (hpush : ∀ same q, P q → P (push same p q))
    (h : P (s.queue i)) : P (s'.queue i) := by
  simp only [queueProc] at hs
  split at hs <;> cases hs
  exact setQueue_queue h (hpush _ _)

theorem dequeueProc_queue (hs : dequeueProc s p = .ok s') (hremove : ∀ same q, P q → P (remove same q))
    (h : P (s.queue i)) : P (s'.queue i) := by
  simp only [dequeueProc] at hs
  split at hs <;> cases hs
  exact setQueue_queue h (hremove _ _)

end

/-- Where an iteration goes that leaves the table and the queues alone. -/
inductive Hop (s : Sys) : Pc → Pc → Prop
  | skip {k : Nat} (slot : k < NPROC) (state : (s.proc k).state ≠ .runnable) : Hop s (.enqueue k) (.enqueue (k + 1))
  | enqueued {k : Nat} (last : ¬ k < NPROC) : Hop s (.enqueue k) (.age 1 0)
  | stay {i j : Nat} (level : i < NPR) (place : j < NPROC) : Hop s (.age i j) (.age i (j + 1))
  | level {i j : Nat} (level : i < NPR) : Hop s (.age i j) (.age (i + 1) 0)
  | aged {i j : Nat} (last : ¬ i < NPR) : Hop s (.age i j) (.select 0 0)
  | empty {i j : Nat} (level : i < NPR) (entry : j < NPROC → s.entry i j = none) :
      Hop s (.select i j) (.select (i + 1) 0)
  | round {i j : Nat} : Hop s (.select i j) (.enqueue 0)

/-- What one iteration of the scheduler does: it moves on, queues a process, ages one, or takes one from its
queue and runs it if it is RUNNABLE. -/
inductive SchedStep (s : Sys) : Sys → Prop
  | move {pc : Pc} (hop : Hop s s.pc pc) : SchedStep s (s.goto pc)
  | queue {k : Nat} {s₁ : Sys} (pc : s.pc = .enqueue k) (state : (s.proc k).state = .runnable)
      (queued : queueProc s k = .ok s₁) (slot : k < NPROC) : SchedStep s (s₁.goto (.enqueue (k + 1)))
  | age {i j fp : Nat} {s₁ s₂ : Sys} (pc : s.pc = .age i j) (entry : s.entry i j = some fp)
      (waited : 30 ≤ (s.proc fp).wticks.toInt) (gone : dequeueProc s fp = .ok s₁)
      (queued : queueProc (s₁.setProc fp promote) fp = .ok s₂) (level : i < NPR) (place : j < NPROC) :
      SchedStep s (s₂.goto (.age i (j + 1)))
  | drop {i j fp : Nat} {s₁ : Sys} (gone : dequeueProc s fp = .ok s₁) (state : (s₁.proc fp).state ≠ .runnable)
      (entry : s.entry i j = some fp) (pc : s.pc = .select i j) (level : i < NPR) (place : j < NPROC) :
      SchedStep s (s₁.goto (.select i (j + 1)))
  | run {i j fp : Nat} {s₁ : Sys} (gone : dequeueProc s fp = .ok s₁) (state : (s₁.proc fp).state = .runnable)
      (entry : s.entry i j = some fp) (pc : s.pc = .select i j) (level : i < NPR) : SchedStep s (schedule s₁ fp)

theorem Hop.idle {a b : Pc} (h : Hop s a b) : b ≠ .running p := by
  cases h <;> nofun

theorem sched_cases (h : step s .sched = .ok s') : SchedStep s s' := by
  have move : ∀ {pc}, Hop s s.pc pc → SchedStep s (s.goto pc) := .move
  simp only [step] at h
  cases hpc : s.pc <;> simp only [hpc, enqueueStep, ageStep, selectStep] at h move
  case enqueue k =>
    split at h
    · rename_i hk
      obtain ⟨s1, h1, h⟩ := bind_eq_ok.1 h
      cases h
      split at h1
      · rename_i hst; exact .queue hpc hst h1 hk
      · rename_i hst; cases h1; exact move (.skip hk hst)
    · rename_i hk; cases h; exact move (.enqueued hk)
  case age i j =>
    split at h
    · rename_i hi
      split at h
      · rename_i hj
        repeat' split at h
        · rename_i fp hentry hw
          obtain ⟨s1, h1, h⟩ := bind_eq_ok.1 h
          obtain ⟨s2, h2, h⟩ := bind_eq_ok.1 h
          cases h
          exact .age hpc hentry hw h1 h2 hi hj
        all_goals cases h; exact move (.stay hi hj)
      · cases h; exact move (.level hi)
    · rename_i hi; cases h; exact move (.aged hi)
  case select i j =>
    split at h
    · rename_i hi
      split at h
      · rename_i hj
        split at h
        · rename_i fp hentry
          obtain ⟨s1, h1, h⟩ := bind_eq_ok.1 h
          split at h <;> cases h
          · rename_i hst; exact .run h1 hst hentry hpc hi
          · rename_i hst; exact .drop h1 hst hentry hpc hi hj
        · rename_i hentry; cases h; exact move (.empty hi fun _ => hentry)
      · rename_i hj; cases h; exact move (.empty hi fun hlt => absurd hlt hj)
    · cases h; exact move .round
  case running => cases h

theorem Lists.goto {pc : Pc} (h : Lists s) : Lists (s.goto pc) :=
  Agrees.lists (s := s) (.of_eq rfl rfl) h

variable {k fp : Nat}

theorem mem_of_entry (h : s.entry i j = some fp) : some fp ∈ s.queue i := by
  unfold Sys.entry at h
  rw [getD_eq_getElem?_getD] at h
  cases hget : (s.queue i)[j]? with
  | none => simp [hget] at h
  | some x =>
    rw [hget, Option.getD_some] at h
    exact h ▸ mem_of_getElem? hget

theorem Lists.entry (h : Lists s) (hi : i < NPR) (he : s.entry i j = some fp) :
    fp < NPROC ∧ (s.proc fp).state = .runnable ∧ (s.proc fp).pr = i ∧ Listed s fp := by
  have hm := mem_of_entry he
  obtain ⟨hn, hst, hpr⟩ := (h.level i hi).sound fp (mem_listed.2 hm)
  exact ⟨hn, hst, hpr, by rw [Listed, hpr]; exact mem_listed.2 hm⟩

theorem Level.empty (h : Level s i) (he : s.entry i 0 = none) : listed (s.queue i) = [] := by
  have hp := h.packed
  rw [Packed] at hp
  cases hlist : listed (s.queue i) with
  | nil => rfl
  | cons c l =>
    rw [hlist, map_cons, cons_append] at hp
    rw [Sys.entry, hp] at he
    cases he

theorem sched_queue {P : List (Option Nat) → Prop} (hs : step s .sched = .ok s')
    (hpush : ∀ same p q, p < NPROC ∨ (∃ j, some p ∈ s.queue j) → P q → P (push same p q))
    (hremove : ∀ same q, P q → P (remove same q)) (h : P (s.queue i)) : P (s'.queue i) := by
  cases sched_cases hs with
  | move => exact h
  | queue _ _ hq hk =>
    rw [goto_queue]
    exact queueProc_queue hq (fun same q => hpush same _ q (.inl hk)) h
  | @age j _ fp s1 _ _ hentry _ hd hq =>
    have hgone := dequeueProc_queue hd hremove h
    rw [goto_queue]
    exact queueProc_queue (s := s1.setProc fp promote) hq
      (fun same q => hpush same _ q (.inr ⟨j, mem_of_entry hentry⟩)) hgone
  | drop hd | run hd =>
    have hgone := dequeueProc_queue hd hremove h
    exact hgone

theorem Hop.inv {pc : Pc} (hi : Inv s) (h : Hop s s.pc pc) : Inv (s.goto pc) := by
  have hpc := hi.pc
  unfold PcOk at hpc
  refine ⟨hi.lists.goto, ?_⟩
  generalize s.pc = a at h hpc
  cases h with
  | skip hk hst =>
    refine ⟨hk, fun c hck hcst => ?_⟩
    rcases Nat.lt_succ_iff_lt_or_eq.1 hck with hck | rfl
    · exact hpc.2 c hck hcst
    · exact absurd hcst hst
  | enqueued hk =>
    obtain rfl := Nat.le_antisymm hpc.1 (Nat.not_lt.1 hk)
    exact ⟨Nat.one_pos, hpc.2⟩
  | stay => exact hpc
  | level => exact ⟨Nat.succ_pos _, hpc.2⟩
  | aged => exact ⟨rfl, hpc.2, fun k _ hk => absurd hk (Nat.not_lt_zero k)⟩
  | empty _ he =>
    obtain ⟨rfl, hc, hbelow⟩ := hpc
    refine ⟨rfl, hc, fun k hk hki => ?_⟩
    rcases Nat.lt_succ_iff_lt_or_eq.1 hki with hki | rfl
    · exact hbelow k hk hki
    · exact (hi.lists.level k hk).empty (he (by decide))
  | round => exact ⟨Nat.zero_le _, fun c hc => absurd hc (Nat.not_lt_zero c)⟩

theorem schedStep_inv (hi : Inv s) (ha : Allowed s .sched) (h : step s .sched = .ok s') : Inv s' := by
  have hl := hi.lists
  have hpc := hi.pc
  unfold PcOk at hpc
  cases sched_cases h with
  | move hop => exact hop.inv hi
  | queue hq hst h1 hk =>
    rw [hq] at hpc
    obtain ⟨hl1, hproc, _, hself, hold⟩ := queueProc_spec hl hk hst h1
    refine ⟨hl1.goto, hk, ?_⟩
    intro c hck hcst
    rw [goto_proc, hproc] at hcst
    rcases Nat.lt_succ_iff_lt_or_eq.1 hck with hck | rfl
    · exact hold c (hpc.2 c hck hcst)
    · exact hself
  | @age i j fp s1 s2 hq he _ h1 h3 hlt =>
    rw [hq] at hpc
    obtain ⟨hn, hst, hpr, hlisted⟩ := hl.entry hlt he
    obtain ⟨hl1, hproc1, _, hgone, hold1⟩ := dequeueProc_spec hl hn hlisted
      (by rw [hpr]; exact (hl.level i hlt).none_mem_of_not_full (ha.dequeue rfl i j (.inl hq))) h1
    -- between the two calls the process is in no queue, so its level may change
    have hl2 : Lists (s1.setProc fp promote) := by
      refine hl1.setProc_pid hgone hn (by simp [hproc1, hst]) ?_ rfl
      have hne : (s.proc fp).pr ≠ 0 := by omega
      rw [hproc1]
      simp only [promote, if_neg hne]
      omega
    have hst2 : ((s1.setProc fp promote).proc fp).state = .runnable := by
      rw [setProc_self, hproc1]; exact hst
    obtain ⟨hl3, hproc3, _, hself, hold3⟩ := queueProc_spec hl2 hn hst2 h3
    refine ⟨hl3.goto, hpc.1, ?_⟩
    intro c hcn hcst
    by_cases e : c = fp
    · subst e; exact hself
    · rw [goto_proc, hproc3, setProc_ne _ _ _ _ e, hproc1] at hcst
      refine hold3 c ?_
      rw [Listed, setProc_queue, setProc_ne _ _ _ _ e]
      exact hold1 c e (hpc.2 c hcn hcst)
  | drop h1 hst he _ hlt =>
    -- an entry is RUNNABLE
    rw [(dequeueProc_proc h1).1] at hst
    exact absurd (hl.entry hlt he).2.1 hst
  | @run i j fp s1 h1 _ he hq hlt =>
    obtain ⟨hn, hst, hpr, hlisted⟩ := hl.entry hlt he
    obtain ⟨hl1, hproc1, _, hgone, _⟩ := dequeueProc_spec hl hn hlisted
      (by rw [hpr]; exact (hl.level i hlt).none_mem_of_not_full (ha.dequeue rfl i j (.inr hq))) h1
    refine ⟨?_, hn, by simp [schedule]⟩
    exact (hl1.setProc_pid hgone hn (by simp [hproc1, hst]) (hl1.pr fp hn) rfl).goto

/-! ## Traps and calls -/

theorem NPR_pos : 0 < NPR := by decide

theorem bumpAll_spec (s : Sys) : (bumpAll s).pc = s.pc ∧ (bumpAll s).queue = s.queue ∧
    ∀ c, ∃ w, (bumpAll s).proc c = { s.proc c with wticks := w } := by
  suffices h : ∀ (l : List (Option Nat)) (t : Sys), (l.foldl bump t).pc = t.pc ∧ (l.foldl bump t).queue = t.queue ∧
      ∀ c, ∃ w, (l.foldl bump t).proc c = { t.proc c with wticks := w } from h _ s
  intro l
  induction l with
  | nil => exact fun t => ⟨rfl, rfl, fun c => ⟨_, rfl⟩⟩
  | cons x l ih =>
    intro t
    have hone : (bump t x).pc = t.pc ∧ (bump t x).queue = t.queue ∧
        ∀ c, ∃ w, (bump t x).proc c = { t.proc c with wticks := w } := by
      unfold bump
      split
      next fp =>
        split
        next =>
          refine ⟨rfl, rfl, fun c => ?_⟩
          by_cases hc : c = fp
          · subst hc
            exact ⟨_, setProc_self ..⟩
          · exact ⟨_, setProc_ne _ _ _ _ hc⟩
        next => exact ⟨rfl, rfl, fun c => ⟨_, rfl⟩⟩
      next => exact ⟨rfl, rfl, fun c => ⟨_, rfl⟩⟩
    obtain ⟨hpc, hq, hproc⟩ := ih (bump t x)
    refine ⟨hpc.trans hone.1, hq.trans hone.2.1, fun c => ?_⟩
    obtain ⟨w, hw⟩ := hproc c
    obtain ⟨v, hv⟩ := hone.2.2 c
    exact ⟨w, hw.trans (by rw [hv])⟩

theorem bumpAll_agrees (s : Sys) : Agrees s (bumpAll s) ∧ (bumpAll s).pc = s.pc := by
  obtain ⟨hpc, hqueue, hproc⟩ := bumpAll_spec s
  refine ⟨⟨fun c => ?_, fun c => ?_, fun c => ?_, hqueue⟩, hpc⟩ <;> obtain ⟨w, hw⟩ := hproc c <;> rw [hw]

theorem Agrees.pcOk (h : Agrees s s') (hpc : s'.pc = s.pc) (hok : PcOk s) : PcOk s' := by
  unfold PcOk at hok ⊢
  rw [hpc]
  cases hs : s.pc <;> rw [hs] at hok
  case enqueue | age => exact ⟨hok.1, h.complete hok.2⟩
  case select => exact ⟨hok.1, h.complete hok.2.1, by rw [h.queue]; exact hok.2.2⟩
  case running => exact ⟨hok.1, by rw [h.state]; exact hok.2⟩

theorem Agrees.inv (h : Agrees s s') (hpc : s'.pc = s.pc) (hi : Inv s) : Inv s' :=
  ⟨h.lists hi.lists, h.pcOk hpc hi.pc⟩

theorem sched_inv {st : ProcState} (hl : Lists s) (hp : p < NPROC)
    (hr : (s.proc p).state = .running) : Inv (sched s p st) := by
  refine ⟨Lists.goto ?_, Nat.zero_le _, fun c hc => absurd hc (Nat.not_lt_zero c)⟩
  exact hl.setProc_pid (hl.unlisted (by simp [hr])) hp (by simp [hr]) (hl.pr p hp) rfl

section
variable (hi : Inv s) (hpc : s.pc = .running p) (hp : p < NPROC) (hr : (s.proc p).state = .running)
include hi hpc hp hr

theorem Inv.setRunning {f : Proc → Proc} (hst : (f (s.proc p)).state = .running)
    (hpr : (f (s.proc p)).pr < NPR) (hpid : (f (s.proc p)).pid = (s.proc p).pid) :
    Inv (s.setProc p f) ∧ ((s.setProc p f).proc p).state = .running := by
  have hst' : ((s.setProc p f).proc p).state = .running := by rw [setProc_self]; exact hst
  refine ⟨⟨?_, ?_⟩, hst'⟩
  · exact hi.lists.setProc_pid (hi.lists.unlisted (by simp [hr])) hp (by simp [hr]) hpr hpid
  · simp only [PcOk, setProc_pc, hpc]
    exact ⟨hp, hst'⟩

theorem preempt_inv : Inv (preempt s p i) := by
  unfold preempt
  split
  · obtain ⟨h1, h2⟩ := hi.setRunning (f := fun q => { q with resume := some (_ + 1) }) hpc hp hr hr
      (hi.lists.pr p hp) rfl
    exact sched_inv h1.lists hp h2
  · exact (hi.setRunning hpc hp hr hr (hi.lists.pr p hp) rfl).1

theorem usertrap_inv (h : usertrap s p = .ok s') : Inv s' := by
  unfold usertrap at h
  simp only at h
  obtain ⟨hi1, hr1⟩ := hi.setRunning (f := fun q => { q with rticks := q.rticks + 1 }) hpc hp hr hr
    (hi.lists.pr p hp) rfl
  obtain ⟨hag, hpc2⟩ := bumpAll_agrees (s.setProc p fun q => { q with rticks := q.rticks + 1 })
  generalize bumpAll (s.setProc p fun q => { q with rticks := q.rticks + 1 }) = s2 at *
  have hi2 := hag.inv hpc2 hi1
  have hr2 : (s2.proc p).state = .running := by rw [hag.state]; exact hr1
  have hpc3 : s2.pc = .running p := hpc2.trans hpc
  split at h
  · unfold exit at h
    split at h
    · cases h
    · cases h
      exact sched_inv hi2.lists hp hr2
  · split at h
    · cases h
      have hlt := hi2.lists.pr p hp
      obtain ⟨hi3, hr3⟩ := hi2.setRunning (f := fun q =>
        { q with rticks := 0, pr := if q.pr = 4 then q.pr else q.pr + 1, resume := some 0 }) hpc3 hp hr2 hr2
        (by simp only [NPR] at hlt ⊢; split_ifs <;> omega) rfl
      exact sched_inv hi3.lists hp hr3
    · cases h
      exact preempt_inv hi2 hpc3 hp hr2

end

/-- A slot in use that is neither RUNNABLE nor running changes while a process runs. -/
theorem Inv.setOther {f : Proc → Proc} (hi : Inv s) (hpc : s.pc = .running p)
    (hne : c ≠ p) (hl : Lists (s.setProc c f)) : Inv (s.setProc c f) := by
  have hok := hi.pc
  simp only [PcOk, hpc] at hok
  refine ⟨hl, ?_⟩
  simp only [PcOk, setProc_pc, hpc, setProc_ne _ _ _ _ hne.symm]
  exact hok

/-- `wake` of a sleeping process, when a loop that has passed its slot does not matter. -/
theorem wake_inv (hi : Inv s) (hc : c < NPROC)
    (hok : (s.proc c).state = .sleeping → match s.pc with
      | .enqueue k => k ≤ c
      | .running _ => True
      | _ => False) : Inv (wake s c) := by
  by_cases hs : (s.proc c).state = .sleeping
  · have hlists : Lists (wake s c) :=
      hi.lists.setProc_pid (hi.lists.unlisted (by simp [hs])) hc (by simp [hs]) (hi.lists.pr c hc) rfl
    refine ⟨hlists, ?_⟩
    have hpc := hi.pc
    have hw := hok hs
    unfold PcOk at hpc ⊢
    rw [wake, setProc_pc]
    cases hq : s.pc <;> rw [hq] at hpc hw
    case enqueue => exact ⟨hpc.1, hpc.2.setProc (.inl hw)⟩
    case age | select => exact hw.elim
    case running p =>
      have hne : p ≠ c := by
        rintro rfl
        exact absurd (hpc.2.symm.trans hs) (by decide)
      simp only [setProc_ne _ _ _ _ hne]
      exact hpc
  · refine Agrees.inv (.setProc ?_ rfl rfl) rfl hi
    simp [hs]

theorem doCall_inv {c : Call} (hi : Inv s) (hpc : s.pc = .running p) (hp : p < NPROC) (hr : (s.proc p).state = .running)
    (hpid : c = .alloc → ∀ c < NPROC, (s.proc c).state ≠ .unused → (s.proc c).pid ≠ s.nextpid)
    (h : doCall s p c = .ok s') : Inv s' := by
  -- another slot, in use and not RUNNABLE
  have other : ∀ {d : Nat} {st : ProcState}, (s.proc d).state = st → st ≠ .running → d ≠ p := by
    rintro d st hd hst rfl
    exact hst (hd.symm.trans hr)
  cases c with
  | sleep => cases h; exact sched_inv hi.lists hp hr
  | exit =>
    simp only [doCall, exit] at h
    split at h
    · cases h
    · cases h; exact sched_inv hi.lists hp hr
  | alloc =>
    simp only [doCall, allocproc] at h
    cases hslot : unusedSlot fun c => (s.proc c).state with
    | none => rw [hslot] at h; cases h; exact hi
    | some d =>
      rw [hslot] at h
      cases h
      obtain ⟨hd, hu⟩ := unusedSlot_some hslot
      have hne : d ≠ p := other hu (by decide)
      have hi1 : Inv { s with nextpid := s.nextpid + 1 } := Agrees.inv (s := s) (.of_eq rfl rfl) rfl hi
      refine hi1.setOther hpc hne (hi1.lists.setProc (hi1.lists.unlisted (by simp [hu])) NPR_pos (.inr ?_))
      exact fun b hb _ hub => hpid rfl b hb hub
  | start d =>
    simp only [doCall] at h
    split at h
    · rename_i hd
      cases h
      refine hi.setOther hpc (other hd.2 (by decide)) ?_
      exact hi.lists.setProc_pid (hi.lists.unlisted (by simp [hd.2])) hd.1 (by simp [hd.2]) (hi.lists.pr d hd.1) rfl
    · cases h
  | free d =>
    simp only [doCall] at h
    split at h
    · rename_i hd
      cases h
      have hidle : (s.proc d).state ≠ .runnable ∧ d ≠ p := by
        rcases hd.2 with hd | hd
        · exact ⟨by simp [hd], other hd (by decide)⟩
        · exact ⟨by simp [hd], other hd (by decide)⟩
      refine hi.setOther hpc hidle.2 ?_
      exact hi.lists.setProc (hi.lists.unlisted hidle.1) NPR_pos (.inl rfl)
    · cases h
  | kill pid =>
    simp only [doCall, kill] at h
    split at h
    · rename_i d hd
      cases h
      have hdn := mem_range.1 (List.mem_of_find?_eq_some hd)
      have hi1 : Inv (s.setProc d fun q => { q with killed := true }) := Agrees.inv (.setProc rfl rfl rfl) rfl hi
      exact wake_inv hi1 hdn (fun _ => by rw [setProc_pc, hpc]; trivial)
    · cases h; exact hi

/-! ## Runs -/

theorem utick_eq_ok (h : step s .utick = .ok s') : ∃ p, s.pc = .running p ∧ usertrap s p = .ok s' := by
  simp only [step] at h
  repeat' split at h
  on_goal 1 => exact ⟨_, ‹_›, h⟩
  all_goals cases h

theorem resume_eq_ok (h : step s .resume = .ok s') : ∃ p i, s.pc = .running p ∧ s' = preempt s p i := by
  simp only [step] at h
  repeat' split at h
  all_goals cases h
  exact ⟨_, _, ‹_›, rfl⟩

theorem wakeup_eq_ok (h : step s (.wakeup c) = .ok s') : c < NPROC ∧ s' = wake s c := by
  simp only [step] at h
  split at h <;> cases h
  rename_i hc
  exact ⟨hc.1, rfl⟩

theorem call_eq_ok {a : Call} (h : step s (.call a) = .ok s') : ∃ p, s.pc = .running p ∧ doCall s p a = .ok s' := by
  simp only [step] at h
  repeat' split at h
  on_goal 1 => exact ⟨_, ‹_›, h⟩
  all_goals cases h

theorem Inv.step {e : Event} (hi : Inv s) (ha : Allowed s e) (h : Mlfq.step s e = .ok s') : Inv s' := by
  have hpc := hi.pc
  unfold PcOk at hpc
  cases e with
  | sched => exact schedStep_inv hi ha h
  | utick =>
    obtain ⟨p, hq, h⟩ := utick_eq_ok h
    rw [hq] at hpc
    exact usertrap_inv hi hq hpc.1 hpc.2 h
  | ktick =>
    cases h
    obtain ⟨hag, hpc'⟩ := bumpAll_agrees s
    have hi' := hag.inv hpc' hi
    unfold kerneltrap
    split
    · rename_i p hq
      rw [hq] at hpc
      exact sched_inv hi'.lists hpc.1 (by rw [hag.state]; exact hpc.2)
    · exact hi'
  | resume =>
    obtain ⟨p, i, hq, rfl⟩ := resume_eq_ok h
    rw [hq] at hpc
    exact preempt_inv hi hq hpc.1 hpc.2
  | wakeup c =>
    obtain ⟨hc, rfl⟩ := wakeup_eq_ok h
    exact wake_inv hi hc fun _ => ha.wakeup c rfl
  | call c =>
    obtain ⟨p, hq, h⟩ := call_eq_ok h
    rw [hq] at hpc
    exact doCall_inv hi hq hpc.1 hpc.2 (fun hc => ha.fork (by rw [hc])) h

theorem Boot.inv (h : Boot s) : Inv s where
  lists := by
    have hempty : ∀ i, listed (s.queue i) = [] := by intro i; rw [h.queue]; exact listed_replicate NPROC
    refine ⟨fun i _ => ⟨?_, ?_, ?_, ?_⟩, ?_, ?_⟩
    · rw [h.queue]; exact length_replicate
    · exact packed_iff.2 ⟨[], NPROC, by rw [h.queue]; rfl⟩
    · rw [hempty]; exact nodup_nil
    · rw [hempty]; exact fun c hc => by cases hc
    · intro c _
      by_cases e : c = 0
      · subst e; rw [h.init.2.2]; decide
      · rw [(h.others c e).2]; decide
    · intro c _ d _ hc hd _
      have hz : ∀ c, (s.proc c).state ≠ .unused → c = 0 := fun c hu => by
        by_contra e
        exact hu (h.others c e).1
      rw [hz c hc, hz d hd]
  pc := by
    simp only [PcOk, h.pc]
    exact ⟨Nat.zero_le _, fun c hc => absurd hc (Nat.not_lt_zero c)⟩

theorem Reach.mlfq_inv (h : Reach Mlfq.step Boot Allowed s) : Inv s :=
  h.inv (fun _ => Boot.inv) (fun _ _ _ hi ha he => hi.step ha he)

/-- **The run queues are exact.** In every run of allowed events: whenever the enqueue loop has just ended,
every level is a list of entries followed by null slots only, without duplicates, and holds exactly the
RUNNABLE processes of that level; and a process the selection switches to is RUNNABLE, with no RUNNABLE
process at a smaller level. -/
theorem queues_exact {s : Sys} (h : Reach step Boot Allowed s) :
    (s.pc = .enqueue NPROC → ∀ i < NPR, (s.queue i).length = NPROC ∧ Packed (s.queue i) ∧
      (listed (s.queue i)).Nodup ∧
      ∀ c, c ∈ listed (s.queue i) ↔ c < NPROC ∧ (s.proc c).state = .runnable ∧ (s.proc c).pr = i) ∧
    ∀ s' p, Allowed s .sched → step s .sched = .ok s' → s'.pc = .running p →
      (s.proc p).state = .runnable ∧
        ∀ c < NPROC, (s.proc c).state = .runnable → (s.proc p).pr ≤ (s.proc c).pr := by
  have hi := Reach.mlfq_inv h
  have hpc := hi.pc
  unfold PcOk at hpc
  constructor
  · intro hq i hlt
    rw [hq] at hpc
    have hlev := hi.lists.level i hlt
    refine ⟨hlev.length, hlev.packed, hlev.nodup, fun c => ⟨hlev.sound c, ?_⟩⟩
    rintro ⟨hc, hst, rfl⟩
    exact hpc.2 c hc hst
  · intro s' p ha hs hrun
    -- only the selection loop ends in a running process
    cases sched_cases hs with
    | move hop => exact absurd hrun hop.idle
    | queue | age | drop => cases hrun
    | run _ _ he hq hlt =>
      cases hrun
      rw [hq] at hpc
      obtain ⟨-, hst, hpr, -⟩ := hi.lists.entry hlt he
      refine ⟨hst, fun c hcn hcst => ?_⟩
      by_contra hless
      have hm := hpc.2.1 c hcn hcst
      rw [Listed, hpc.2.2 _ (hi.lists.pr c hcn) (by omega)] at hm
      cases hm

end Xv6Riscv.Mlfq
