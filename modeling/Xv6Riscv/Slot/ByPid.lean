import Xv6Riscv.Slot.Fresh

/-!
# System calls that name a pid: `kill` (proc.c:905) and `sys_set_priority` (sysproc.c:154)

Both scan the table for the pid and do not look at the state. A slot that is in use has a pid of its own as long as
`nextpid` has not come round to one that is still taken (`Numbered`). A free slot has pid 0, so a call with pid 0
finds the first free slot: it marks the slot and reports success.
-/
namespace Xv6Riscv.Slot
open Machine Function

variable {s s' : Sys} {p i j : Nat} {pid sp : BitVec 32}

/-! ## What the calls return -/

def killRet (s : Sys) (pid : BitVec 32) : BitVec 32 :=
  match slotOf s pid with
  | none => -1
  | some _ => 0

/-- `old_sp`. -/
def setPriorityRet (s : Sys) (pid : BitVec 32) : BitVec 32 :=
  match slotOf s pid with
  | none => -1
  | some i => (s.proc i).sched.staticP

/-! ## Pids -/

def InUse (s : Sys) (i : Nat) : Prop := (s.proc i).state ≠ .unused

instance (s : Sys) (i : Nat) : Decidable (InUse s i) := inferInstanceAs (Decidable (_ ≠ _))

/-- Slots in use have different pids, none of them 0; the others have pid 0. -/
structure Numbered (s : Sys) : Prop where
  free : ∀ i, ¬ InUse s i → (s.proc i).pid = 0
  used : ∀ i, InUse s i → (s.proc i).pid ≠ 0
  one : ∀ i j, InUse s i → InUse s j → (s.proc i).pid = (s.proc j).pid → i = j
  bound : ∀ i, NPROC ≤ i → ¬ InUse s i

/-- The pids and the uses are as before. -/
structure Kept (s s' : Sys) : Prop where
  pid : ∀ i, (s'.proc i).pid = (s.proc i).pid
  use : ∀ i, InUse s' i ↔ InUse s i
  next : s'.nextpid = s.nextpid

/-- What a step does to the pids. -/
inductive Pids (s s' : Sys) : Event → Prop
  | keep (e : Event) : Kept s s' → Pids s s' e
  | take (p i : Nat) (q : Proc) : i < NPROC → ¬ InUse s i → q.state ≠ .unused → q.pid = s.nextpid →
      s' = { setProc s i q with nextpid := s.nextpid + 1 } → Pids s s' (.fork p true)
  | fail (p i : Nat) (q : Proc) : ¬ InUse s i → q.state = .unused → q.pid = 0 →
      s' = { setProc s i q with nextpid := s.nextpid + 1 } → Pids s s' (.fork p false)
  | free (p i : Nat) (q : Proc) : q.state = .unused → q.pid = 0 → s' = setProc s i q → Pids s s' (.wait p i)

theorem setProc_self (s : Sys) (i : Nat) (q : Proc) : (setProc s i q).proc i = q := update_self ..

theorem setProc_ne (s : Sys) (q : Proc) (hj : j ≠ i) : (setProc s i q).proc j = s.proc j := update_of_ne hj ..

theorem inUse_ne (s : Sys) (q : Proc) (hj : j ≠ i) : InUse (setProc s i q) j ↔ InUse s j := by
  rw [InUse, setProc_ne s q hj, InUse]

namespace Kept

theorem refl (s : Sys) : Kept s s := ⟨fun _ => rfl, fun _ => Iff.rfl, rfl⟩

theorem trans {s₁ : Sys} (h : Kept s s₁) (h' : Kept s₁ s') : Kept s s' :=
  ⟨fun i => (h'.pid i).trans (h.pid i), fun i => (h'.use i).trans (h.use i), h'.next.trans h.next⟩

variable {q : Proc}

theorem setProc (hpid : q.pid = (s.proc i).pid) (hst : q.state ≠ .unused ↔ InUse s i) : Kept s (setProc s i q) := by
  refine ⟨fun j => ?_, fun j => ?_, rfl⟩
  all_goals
    by_cases hj : j = i
    · subst hj
      simp only [InUse, Slot.setProc, update_self]
      assumption
    · simp only [InUse, Slot.setProc, update_of_ne hj]

theorem wakeup (s : Sys) (p : Option Nat) (chan : Nat) : Kept s (wakeup s p chan) := by
  refine ⟨fun j => ?_, fun j => ?_, rfl⟩ <;> simp only [InUse, Slot.wakeup] <;> split <;> simp_all

theorem reparent (s : Sys) (p : Nat) : Kept s (reparent s p) := by
  refine ⟨fun j => ?_, fun j => ?_, rfl⟩ <;> simp only [InUse, Slot.reparent] <;> split <;> simp

theorem kill (s : Sys) (pid : BitVec 32) : Kept s (kill s pid) := by
  unfold Slot.kill
  split
  · exact .refl s
  dsimp only
  refine .setProc rfl ?_
  dsimp only
  split
  next h => simp [InUse, h]
  next => rfl

theorem sysSetPriority (hst : (s.proc p).state = .running) : Kept s (sysSetPriority s p sp pid) := by
  unfold Slot.sysSetPriority
  split
  · exact .refl s
  dsimp only
  have h1 : ∀ (i : Nat) (sched : Sched), Kept s (Slot.setProc s i { s.proc i with sched := sched }) :=
    fun i sched => .setProc rfl Iff.rfl
  split
  · refine (h1 _ _).trans (.setProc rfl ?_)
    -- the caller was RUNNING, so its slot is in use
    refine iff_of_true (by simp) (((h1 _ _).use p).2 ?_)
    simp [InUse, hst]
  · exact h1 _ _

theorem exit {status : BitVec 32} (hst : (s.proc p).state = .running) (h : exit s p status = .ok s') : Kept s s' := by
  unfold Slot.exit at h
  split at h
  · cases h
  dsimp only at h
  cases h
  have hp : InUse s p := by simp [InUse, hst]
  have h1 : Kept s (Slot.setProc s p { s.proc p with ofile := fun _ => 0, cwd := 0 }) := .setProc rfl Iff.rfl
  have h3 : ∀ {s₃ : Sys}, Kept s s₃ → ∀ sched, Kept s
      (Slot.setProc s₃ p { s₃.proc p with xstate := status, state := .zombie, sched := sched }) := fun h₃ sched =>
    h₃.trans (.setProc rfl (iff_of_true (by simp) ((h₃.use p).2 hp)))
  refine h3 ?_ _
  split
  · exact ((h1.trans (.reparent _ p)).trans (.wakeup _ _ _)).trans (.wakeup _ _ _)
  · exact h1.trans (.wakeup _ _ _)

end Kept

theorem call_inUse {ticks : BitVec 32} {q' : Proc} {a : Call} (hst : q.state = .running)
    (h : call ticks q a = .ok q') : q'.pid = q.pid ∧ q'.state ≠ .unused := by
  cases a <;> simp only [call, sysSigreturn, usertrapAlarm] at h <;> (repeat' split at h) <;> cases h <;> simp [hst]

theorem fork_pids (p : Nat) (mem : Bool) : Pids s (fork s p mem) (.fork p mem) := by
  unfold fork
  split
  · exact .keep _ (.refl s)
  rename_i i np ha
  obtain ⟨hst, rfl⟩ := allocproc_some ha
  have hi : i < NPROC := by
    obtain ⟨j, hj, he⟩ := Option.map_eq_some_iff.1 ha
    cases he
    exact List.mem_range.1 (List.mem_of_find?_eq_some hj)
  have hfree : ¬ InUse s i := by simp [InUse, hst]
  cases mem with
  | true => exact .take p i _ hi hfree (by simp) rfl rfl
  | false => exact .fail p i _ hfree rfl rfl rfl

theorem step_pids {e : Event} (hs : step s e = .ok s') : Pids s s' e := by
  cases e with
  | tick => cases hs; exact .keep _ ⟨fun _ => rfl, fun _ => Iff.rfl, rfl⟩
  | account i sched => cases hs; exact .keep _ (.setProc rfl Iff.rfl)
  | dispatch p =>
    simp only [step] at hs
    split at hs <;> cases hs
    next hst => exact .keep _ (.setProc rfl (iff_of_true (by simp) (by simp [InUse, hst])))
  | call p a =>
    simp only [step] at hs
    split at hs
    next hst =>
      obtain ⟨q, hq, hs⟩ := Outcome.bind_eq_ok.1 hs
      cases hs
      obtain ⟨hpid, huse⟩ := call_inUse hst hq
      exact .keep _ (.setProc hpid (iff_of_true huse (by simp [InUse, hst])))
    next => cases hs
  | fork p mem =>
    simp only [step] at hs
    split at hs <;> cases hs
    exact fork_pids p mem
  | exit p status =>
    simp only [step] at hs
    split at hs
    next hst => exact .keep _ (.exit hst hs)
    next => cases hs
  | wait p i =>
    simp only [step, wait] at hs
    split at hs
    · split at hs <;> cases hs
      exact .free p i _ rfl rfl rfl
    · cases hs
  | kill p pid =>
    simp only [step] at hs
    split at hs <;> cases hs
    exact .keep _ (.kill s pid)
  | setPriority p sp pid =>
    simp only [step] at hs
    split at hs <;> cases hs
    next hst => exact .keep _ (.sysSetPriority hst)
  | wakeup p chan => cases hs; exact .keep _ (.wakeup s p chan)

/-! ## Runs -/

/-- `allocpid` returns a pid that no slot has. -/
def FreshPid (s : Sys) : Event → Prop
  | .fork _ _ => s.nextpid ≠ 0 ∧ ∀ i < NPROC, InUse s i → (s.proc i).pid ≠ s.nextpid
  | _ => True

instance (s : Sys) (e : Event) : Decidable (FreshPid s e) := by
  cases e <;> unfold FreshPid <;> infer_instance

namespace Numbered

theorem boot (root : Nat) : Numbered (boot root) := by
  have huse : ∀ i, InUse (Slot.boot root) i ↔ i = 0 := by
    intro i
    by_cases hi : i = 0 <;> simp [InUse, Slot.boot, initproc, zero, hi]
  refine ⟨fun i hi => ?_, fun i hi => ?_, fun i j hi hj _ => ?_, fun i hi => ?_⟩
  · rw [huse] at hi
    simp [Slot.boot, initproc, hi, zero]
  · rw [huse] at hi
    subst hi
    simp [Slot.boot, initproc]
  · rw [huse] at hi hj
    rw [hi, hj]
  · rw [huse]
    rintro rfl
    exact absurd hi (by decide)

section
variable (h : Numbered s)
include h

theorem kept (hk : Kept s s') : Numbered s' where
  free i hi := (hk.pid i).trans (h.free i (mt (hk.use i).2 hi))
  used i hi := (hk.pid i).symm ▸ h.used i ((hk.use i).1 hi)
  one i j hi hj he := h.one i j ((hk.use i).1 hi) ((hk.use j).1 hj) (by rw [← hk.pid i, ← hk.pid j, he])
  bound i hi := mt (hk.use i).1 (h.bound i hi)

theorem withPid (n : BitVec 32) : Numbered { s with nextpid := n } := { h with }

theorem take (hi : i < NPROC) (hq : q.state ≠ .unused) (hpid : q.pid ≠ 0)
    (hnew : ∀ j < NPROC, InUse s j → (s.proc j).pid ≠ q.pid) : Numbered (setProc s i q) := by
  have hself : InUse (setProc s i q) i := by rwa [InUse, setProc_self]
  have hdiff : ∀ j, j ≠ i → InUse (setProc s i q) j → (s.proc j).pid ≠ q.pid := fun j hj hu =>
    have hu := (inUse_ne s q hj).1 hu
    hnew j (Nat.lt_of_not_le fun hge => h.bound j hge hu) hu
  refine ⟨fun j hj => ?_, fun j hj => ?_, fun j k hj hk he => ?_, fun j hj => ?_⟩
  · have hji : j ≠ i := fun he => hj (he ▸ hself)
    rw [setProc_ne s q hji]
    exact h.free j (mt (inUse_ne s q hji).2 hj)
  · by_cases hji : j = i
    · rw [hji, setProc_self]
      exact hpid
    · rw [setProc_ne s q hji]
      exact h.used j ((inUse_ne s q hji).1 hj)
  · by_cases hji : j = i <;> by_cases hki : k = i
    · rw [hji, hki]
    · subst hji
      rw [setProc_self, setProc_ne s q hki] at he
      exact absurd he.symm (hdiff k hki hk)
    · subst hki
      rw [setProc_self, setProc_ne s q hji] at he
      exact absurd he (hdiff j hji hj)
    · rw [setProc_ne s q hji, setProc_ne s q hki] at he
      exact h.one j k ((inUse_ne s q hji).1 hj) ((inUse_ne s q hki).1 hk) he
  · have hji : j ≠ i := by omega
    exact mt (inUse_ne s q hji).1 (h.bound j hj)

theorem clear (hq : q.state = .unused) (hpid : q.pid = 0) : Numbered (setProc s i q) := by
  have hself : ¬ InUse (setProc s i q) i := by rw [InUse, setProc_self]; exact fun hne => hne hq
  have hne : ∀ j, InUse (setProc s i q) j → j ≠ i := fun j hj he => hself (he ▸ hj)
  refine ⟨fun j hj => ?_, fun j hj => ?_, fun j k hj hk he => ?_, fun j hj => ?_⟩
  · by_cases hji : j = i
    · rw [hji, setProc_self]
      exact hpid
    · rw [setProc_ne s q hji]
      exact h.free j (mt (inUse_ne s q hji).2 hj)
  · rw [setProc_ne s q (hne j hj)]
    exact h.used j ((inUse_ne s q (hne j hj)).1 hj)
  · rw [setProc_ne s q (hne j hj), setProc_ne s q (hne k hk)] at he
    exact h.one j k ((inUse_ne s q (hne j hj)).1 hj) ((inUse_ne s q (hne k hk)).1 hk) he
  · exact fun hu => h.bound j hj ((inUse_ne s q (hne j hu)).1 hu)

theorem step {e : Event} (he : FreshPid s e) (hs : step s e = .ok s') : Numbered s' := by
  cases step_pids hs with
  | keep _ hk => exact h.kept hk
  | take p i q hi hfree hq hpid heq =>
    subst heq
    obtain ⟨hne, hnew⟩ := he
    exact (h.take hi hq (hpid ▸ hne) (hpid ▸ hnew)).withPid _
  | fail p i q hfree hq hpid heq =>
    subst heq
    exact (h.clear hq hpid).withPid _
  | free p i q hq hpid heq =>
    subst heq
    exact h.clear hq hpid

end

end Numbered

variable {root n : Nat}

theorem numbered_of_fresh (h : Reach step (· = boot root) FreshPid s) : Numbered s :=
  Reach.inv (by rintro _ rfl; exact .boot root) (fun _ _ _ hI he hs => hI.step he hs) h

/-! ### As long as the counter has not come round -/

def Event.isFork : Event → Bool
  | .fork _ _ => true
  | _ => false

/-- The pids in use are below `nextpid`, which counts the calls of `fork`. -/
structure Below (s : Sys) (n : Nat) : Prop where
  next : s.nextpid.toNat ≤ n
  two : 2 ≤ s.nextpid.toNat
  used : ∀ i, InUse s i → (s.proc i).pid.toNat < s.nextpid.toNat

theorem Below.fresh (h : Below s n) (e : Event) : FreshPid s e := by
  cases e with
  | fork p mem =>
    refine ⟨fun h0 => ?_, fun i _ hu he => ?_⟩
    · have := h.two
      rw [h0] at this
      exact absurd this (by decide)
    · have := h.used i hu
      rw [he] at this
      exact absurd this (Nat.lt_irrefl _)
  | _ => exact trivial

/-- A slot changes: it becomes free, or gets a pid below the next one. -/
theorem Below.setProc {i : Nat} {m : BitVec 32} (h : Below s n) (hm : s.nextpid.toNat ≤ m.toNat)
    (hn : m.toNat ≤ n) (hq : q.state ≠ .unused → q.pid.toNat < m.toNat) :
    Below { setProc s i q with nextpid := m } n := by
  refine ⟨hn, h.two.trans hm, fun j hu => ?_⟩
  change ((Slot.setProc s i q).proc j).pid.toNat < m.toNat
  by_cases hj : j = i
  · subst hj
    rw [setProc_self]
    exact hq fun hun => hu (by rw [← hun]; exact congrArg Proc.state (setProc_self s j q))
  · rw [setProc_ne s q hj]
    exact (h.used j ((inUse_ne s q hj).1 hu)).trans_le hm

theorem Below.step {e : Event} (h : Below s n) (hn : n + e.isFork.toNat < 2 ^ 32) (hs : step s e = .ok s') :
    Below s' (n + e.isFork.toNat) := by
  have hwide : Below s (n + e.isFork.toNat) := { h with next := h.next.trans (Nat.le_add_right ..) }
  cases step_pids hs with
  | keep _ hk =>
    refine ⟨hk.next ▸ hwide.next, hk.next ▸ h.two, fun i hu => ?_⟩
    rw [hk.pid i, hk.next]
    exact h.used i ((hk.use i).1 hu)
  | take p i q hi hfree hq hpid heq | fail p i q hfree hq hpid heq =>
    subst heq
    have hsucc : (s.nextpid + 1).toNat = s.nextpid.toNat + 1 := by
      have := h.next
      rw [BitVec.toNat_add]
      exact Nat.mod_eq_of_lt (by simp [Event.isFork] at hn ⊢; omega)
    refine hwide.setProc (by omega) (hsucc ▸ Nat.succ_le_succ h.next) fun hu => ?_
    first | exact absurd hq hu | rw [hpid, hsucc]; exact Nat.lt_succ_self _
  | free p i q hq hpid heq =>
    subst heq
    exact hwide.setProc le_rfl hwide.next fun hu => absurd hq hu

/-- In a run with fewer than `2 ^ 32 - 2` calls of `fork` every pid is fresh. -/
theorem fresh_of_few_forks {es : List Event} (hes : es.countP Event.isFork < 2 ^ 32 - 2)
    (hs : run step (boot root) es = .ok s) : Reach step (· = boot root) FreshPid s := by
  suffices h : ∀ (es : List Event) (s₀ : Sys) (n : Nat), n + es.countP Event.isFork < 2 ^ 32 →
      Reach step (· = boot root) FreshPid s₀ → Below s₀ n → run step s₀ es = .ok s →
      Reach step (· = boot root) FreshPid s by
    refine h es (boot root) 2 (by omega) (.init rfl) ⟨by simp [boot], by simp [boot], fun i hu => ?_⟩ hs
    have hi : i = 0 := by
      by_contra hi
      exact hu (by simp [boot, initproc, hi, zero])
    subst hi
    simp [boot, initproc]
  intro es
  induction es with
  | nil =>
    intro s₀ n _ hr _ hs
    cases hs
    exact hr
  | cons e es ih =>
    intro s₀ n hn hr hb hs
    obtain ⟨s₁, h₁, hs⟩ := Outcome.bind_eq_ok.1 hs
    have hcount : (e :: es).countP Event.isFork = es.countP Event.isFork + e.isFork.toNat := by
      rw [List.countP_cons]
      cases e.isFork <;> rfl
    rw [hcount] at hn
    exact ih s₁ _ (by omega) (.step e hr (hb.fresh e) h₁) (hb.step (by omega) h₁) hs

/-! ## The calls -/

/-- `kill` acts on the process with this pid, and reports failure when there is none. -/
def Kills (s : Sys) (pid : BitVec 32) : Prop :=
  ((∀ i < NPROC, InUse s i → (s.proc i).pid ≠ pid) → killRet s pid = -1 ∧ kill s pid = s) ∧
  ∀ i < NPROC, InUse s i → (s.proc i).pid = pid →
    killRet s pid = 0 ∧ kill s pid = setProc s i
      { s.proc i with
        killed := true, state := if (s.proc i).state = .sleeping then .runnable else (s.proc i).state }

/-- Process `p` calls `yield` if `b`. -/
def yieldIf (b : Bool) (s : Sys) (p : Nat) : Sys :=
  if b then setProc s p { s.proc p with state := .runnable } else s

/-- `set_priority`, called by process `p`, acts on the process with this pid, and reports failure when there is none.
The priority fields are all it writes; when the number gets smaller the caller then gives up the CPU. -/
def Prioritizes (s : Sys) (p : Nat) (sp pid : BitVec 32) : Prop :=
  ((∀ i < NPROC, InUse s i → (s.proc i).pid ≠ pid) →
    setPriorityRet s pid = -1 ∧ sysSetPriority s p sp pid = s) ∧
  ∀ i < NPROC, InUse s i → (s.proc i).pid = pid →
    setPriorityRet s pid = (s.proc i).sched.staticP ∧
    sysSetPriority s p sp pid = yieldIf (sp.slt (s.proc i).sched.staticP)
      (setProc s i { s.proc i with
        sched := { (s.proc i).sched with staticP := sp, niceness := 5, pbsRtime := 0, stime := 0, wtime := 0 } }) p

theorem slotOf_none (h : ∀ i < NPROC, (s.proc i).pid ≠ pid) : slotOf s pid = none := by
  rw [slotOf, List.find?_eq_none]
  intro i hi
  simpa using h i (List.mem_range.1 hi)

theorem slotOf_of_pid (h : ∃ i < NPROC, (s.proc i).pid = pid) :
    ∃ i < NPROC, slotOf s pid = some i ∧ (s.proc i).pid = pid := by
  cases hf : slotOf s pid with
  | none =>
    obtain ⟨i, hi, he⟩ := h
    have := List.find?_eq_none.1 hf i (List.mem_range.2 hi)
    simp [he] at this
  | some i =>
    exact ⟨i, List.mem_range.1 (List.mem_of_find?_eq_some hf), rfl, by simpa using List.find?_some hf⟩

namespace Numbered

/-- The pid is not the one of the free slots. -/
def Named (s : Sys) (pid : BitVec 32) : Prop := pid ≠ 0 ∨ ∀ i < NPROC, InUse s i

section
variable (h : Numbered s)
include h

theorem slotOf_unused (hn : Named s pid) (hno : ∀ i < NPROC, InUse s i → (s.proc i).pid ≠ pid) :
    slotOf s pid = none := by
  refine slotOf_none fun i hi he => ?_
  by_cases hu : InUse s i
  · exact hno i hi hu he
  · rcases hn with hne | hall
    · exact hne (he.symm.trans (h.free i hu))
    · exact hu (hall i hi)

theorem slotOf_used (hi : i < NPROC) (hu : InUse s i) (he : (s.proc i).pid = pid) : slotOf s pid = some i := by
  obtain ⟨j, hj, hf, hpid⟩ := slotOf_of_pid ⟨i, hi, he⟩
  have huj : InUse s j := by
    by_contra hu'
    exact h.used i hu (he.trans (hpid.symm.trans (h.free j hu')))
  rw [hf, h.one j i huj hu (hpid.trans he.symm)]

theorem kills (hn : Named s pid) : Kills s pid := by
  refine ⟨fun hno => ?_, fun i hi hu he => ?_⟩
  · rw [killRet, kill, h.slotOf_unused hn hno]
    exact ⟨rfl, rfl⟩
  · rw [killRet, kill, h.slotOf_used hi hu he]
    exact ⟨rfl, rfl⟩

theorem prioritizes (hn : Named s pid) (p : Nat) (sp : BitVec 32) : Prioritizes s p sp pid := by
  refine ⟨fun hno => ?_, fun i hi hu he => ?_⟩
  · rw [setPriorityRet, sysSetPriority, h.slotOf_unused hn hno]
    exact ⟨rfl, rfl⟩
  · rw [setPriorityRet, sysSetPriority, h.slotOf_used hi hu he]
    exact ⟨rfl, rfl⟩

theorem slotOf_zero (hn : ¬ Named s pid) :
    (∃ i, slotOf s pid = some i) ∧ ∀ i < NPROC, InUse s i → (s.proc i).pid ≠ pid := by
  simp only [Named, not_or, not_not, not_forall] at hn
  obtain ⟨rfl, i, hi, hu⟩ := hn
  obtain ⟨j, -, hf, -⟩ := slotOf_of_pid ⟨i, hi, h.free i hu⟩
  exact ⟨⟨j, hf⟩, fun k _ hk => h.used k hk⟩

theorem kills_iff : Kills s pid ↔ Named s pid := by
  refine ⟨fun hk => ?_, h.kills⟩
  by_contra hn
  obtain ⟨⟨i, hf⟩, hno⟩ := h.slotOf_zero hn
  have hret := (hk.1 hno).1
  rw [killRet, hf] at hret
  cases hret

end

theorem sysSetPriority_staticP (hf : slotOf s pid = some i) :
    ((sysSetPriority s p sp pid).proc i).sched.staticP = sp := by
  simp only [sysSetPriority, hf]
  split
  · by_cases hp : i = p
    · subst hp
      simp [setProc]
    · simp [setProc, update_of_ne hp]
  · simp [setProc]

theorem prioritizes_iff (h : Numbered s) : (∀ p sp, Prioritizes s p sp pid) ↔ Named s pid := by
  refine ⟨fun hp => ?_, fun hn p sp => h.prioritizes hn p sp⟩
  by_contra hn
  obtain ⟨⟨i, hf⟩, hno⟩ := h.slotOf_zero hn
  -- a priority that the free slot does not have
  have hsame := ((hp 0 ((s.proc i).sched.staticP + 1)).1 hno).2
  have hval : ((sysSetPriority s 0 ((s.proc i).sched.staticP + 1) pid).proc i).sched.staticP
      = (s.proc i).sched.staticP + 1 := sysSetPriority_staticP hf
  rw [hsame] at hval
  simp at hval

end Numbered

/-- As long as `allocpid` returns pids that no slot has, no two slots in use have the same pid, and `kill` and
`set_priority` act on the process with the given pid only, exactly when the pid is not 0 or the table is full. -/
theorem calls_by_pid {root : Nat} (h : Reach step (· = boot root) FreshPid s) :
    (∀ i j, InUse s i → InUse s j → (s.proc i).pid = (s.proc j).pid → i = j) ∧
    ∀ pid : BitVec 32, (Kills s pid ↔ pid ≠ 0 ∨ ∀ i < NPROC, InUse s i) ∧
      ((∀ p sp, Prioritizes s p sp pid) ↔ pid ≠ 0 ∨ ∀ i < NPROC, InUse s i) :=
  have hn := numbered_of_fresh h
  ⟨hn.one, fun _ => ⟨hn.kills_iff, hn.prioritizes_iff⟩⟩

theorem calls_by_pid_child :
    let s := after step (boot 1) [.dispatch 0, .fork 0 true]
    Kills s 2 ∧ killRet s 2 = 0 ∧ Prioritizes s 0 70 7 ∧ setPriorityRet s 7 = -1 := by
  have hr : Reach step (· = boot 1) FreshPid (after step (boot 1) [.dispatch 0, .fork 0 true]) :=
    Reach.of_checked _ (.init rfl) (by decide +kernel)
  obtain ⟨-, h⟩ := calls_by_pid hr
  exact ⟨(h 2).1.2 (.inl (by decide)), by decide +kernel, (h 7).2.2 (.inl (by decide)) 0 70, by decide +kernel⟩

/-- **A pid names one process.** In every run with fewer than `2 ^ 32 - 2` calls of `fork`, failed ones included, the
slots in use have different pids, none of them 0, and `kill` and `set_priority` act on the process with the pid. -/
theorem pid_names_process {root : Nat} {es : List Event} (hes : es.countP Event.isFork < 2 ^ 32 - 2)
    (hs : run step (boot root) es = .ok s) :
    Numbered s ∧ ∀ pid : BitVec 32, pid ≠ 0 → Kills s pid ∧ ∀ p sp, Prioritizes s p sp pid :=
  have hn := numbered_of_fresh (fresh_of_few_forks hes hs)
  ⟨hn, fun _ hpid => ⟨hn.kills (.inl hpid), hn.prioritizes (.inl hpid)⟩⟩

theorem pid_names_process_child : Numbered (after step (boot 1) [.dispatch 0, .fork 0 true, .fork 0 false]) :=
  (pid_names_process (by decide) (run_eq_after step (by decide +kernel))).1

/-! ### Where it fails -/

/-- The first process has tried to fork without memory for a child. -/
def starved (n : BitVec 32) : Sys where
  proc i :=
    if i = initproc then { (boot 1).proc initproc with state := .running }
    else if i = 1 then freeproc { zero with sched := newSched 0 }
    else zero
  ticks := 0
  nextpid := n

theorem sys_eq {s₁ s₂ : Sys} (hproc : ∀ i, s₁.proc i = s₂.proc i) (hticks : s₁.ticks = s₂.ticks)
    (hnext : s₁.nextpid = s₂.nextpid) : s₁ = s₂ := by
  cases s₁
  cases s₂
  simp only [Sys.mk.injEq]
  exact ⟨funext hproc, hticks, hnext⟩

/-- Every further attempt only takes a pid. -/
theorem starved_fork (n : BitVec 32) : step (starved n) (.fork 0 false) = .ok (starved (n + 1)) := by
  have hfork : fork (starved n) 0 false = starved (n + 1) := by
    refine sys_eq (fun i => ?_) rfl rfl
    by_cases hi : i = 1
    · subst hi
      rfl
    · exact update_of_ne hi ..
  rw [step, hfork]
  rfl

theorem starved_forks (n : BitVec 32) (m : Nat) :
    run step (starved n) (List.replicate m (.fork 0 false)) = .ok (starved (n + BitVec.ofNat 32 m)) := by
  induction m generalizing n with
  | zero => simp [run]
  | succ m ih =>
    rw [List.replicate_succ, run, starved_fork, Outcome.bind_ok, ih, BitVec.ofNat_add, BitVec.add_assoc,
      BitVec.add_comm 1]
    rfl

/-- `kill(0)` returns 0 and marks a slot that is not in use, `set_priority(10, 0)` returns the priority of this slot
and writes to it. And after `2 ^ 32 - 1` failed calls of `fork` the next child gets the pid of the first process. -/
theorem free_slot_found :
    (∃ s, run step (boot 1) [.dispatch 0] = .ok s ∧ (∀ i < NPROC, InUse s i → (s.proc i).pid ≠ 0) ∧
      killRet s 0 = 0 ∧ ((kill s 0).proc 1).killed = true ∧
      setPriorityRet s 0 = 0 ∧ ((sysSetPriority s 0 10 0).proc 1).sched.staticP = 10) ∧
    ∃ es s, run step (boot 1) es = .ok s ∧ InUse s 0 ∧ InUse s 1 ∧ (s.proc 0).pid = (s.proc 1).pid := by
  refine ⟨⟨_, rfl, by decide +kernel⟩, [.dispatch 0, .fork 0 false] ++ List.replicate (2 ^ 32 - 2) (.fork 0 false)
    ++ [.fork 0 true], fork (starved 1) 0 true, ?_, by decide +kernel, by decide +kernel, by decide +kernel⟩
  have hone : run step (boot 1) [.dispatch 0, .fork 0 false] = .ok (starved 3) := by
    refine congrArg Outcome.ok (sys_eq (fun i => ?_) rfl rfl)
    change update (update (boot 1).proc 0 _) 1 _ i = _
    by_cases h1 : i = 1
    · subst h1
      rfl
    rw [update_of_ne h1]
    by_cases h0 : i = 0
    · subst h0
      rfl
    · simp [boot, starved, initproc, h0, h1]
  have hlast : run step (starved 1) [.fork 0 true] = .ok (fork (starved 1) 0 true) := rfl
  rw [run_append, run_append, hone, Outcome.bind_ok, starved_forks, Outcome.bind_ok]
  have hwrap : (3 : BitVec 32) + BitVec.ofNat 32 (2 ^ 32 - 2) = 1 := by decide
  rw [hwrap, hlast]

end Xv6Riscv.Slot
