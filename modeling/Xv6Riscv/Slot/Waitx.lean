import Xv6Riscv.Slot.Model
import Xv6Riscv.User.Copy

/-!
# `sys_waitx` (sysproc.c:181) and `waitx` (proc.c:511)

A call frees the child first and copies out last. `sys_waitx` copies its two local variables to the addresses of the
caller whatever `waitx` returned, also when it has set neither, and does not take the child back when a copy fails.
`waitx_all_or_nothing` says for which tables and addresses neither can be seen.
-/
namespace Xv6Riscv.Slot
open Machine User

/-- The bytes of an `int` in memory. -/
def bytes (v : BitVec 32) : List (BitVec 8) :=
  [v.extractLsb' 0 8, v.extractLsb' 8 8, v.extractLsb' 16 8, v.extractLsb' 24 8]

/-- What `waitx` leaves: its result, `*wtime` and `*rtime`, the process table and the memory. -/
structure Waited where
  ret : BitVec 32
  wtime : BitVec 32
  rtime : BitVec 32
  sys : Sys
  mem : Memory

section
variable (pt : PageMap) (p addr addr1 addr2 : Nat) (wtime rtime : BitVec 32) (s : Sys) (mem : Memory)

/-- The slot at which the scan for exited children stops. -/
def zombieChild : Option Nat :=
  (List.range NPROC).find? fun i => (s.proc i).parent = some p ∧ (s.proc i).state = .zombie

/-- `havekids` after a scan that found no exited child. -/
def haveKids : Bool := (List.range NPROC).any fun i => (s.proc i).parent = some p

/-- `np->etime - np->ctime - np->rtime`. -/
def waitTime (np : Proc) : BitVec 32 := np.sched.etime - np.sched.ctime - np.sched.rtime

/-- One pass of the loop of `waitx`, called by process `p` with the variables `wtime` and `rtime`; `none` when it
sleeps, after which the next pass starts with whatever the table is then. -/
def waitx : Option Waited :=
  match zombieChild p s with
  | some i =>
    let np := s.proc i
    let out := if addr ≠ 0 then copyout pt addr (bytes np.xstate) mem else (true, mem)
    if out.1 then some ⟨np.pid, waitTime np, np.sched.rtime, setProc s i (freeproc np), out.2⟩
    else some ⟨-1, waitTime np, np.sched.rtime, s, out.2⟩
  | none => if !haveKids p s || (s.proc p).killed then some ⟨-1, wtime, rtime, s, mem⟩ else none

/-- The two copies of `sys_waitx` after the call of `waitx`. -/
def copyTimes (w : Waited) : BitVec 32 × Sys × Memory :=
  let out1 := copyout pt addr1 (bytes w.wtime) w.mem
  if out1.1 then
    let out2 := copyout pt addr2 (bytes w.rtime) out1.2
    if out2.1 then (w.ret, w.sys, out2.2) else (-1, w.sys, out2.2)
  else (-1, w.sys, out1.2)

/-- `wtime` and `rtime` are what the stack holds where the two variables are: nothing initialises them. -/
def sysWaitx : Option (BitVec 32 × Sys × Memory) :=
  (waitx pt p addr wtime rtime s mem).map (copyTimes pt addr1 addr2)

/-! ## What was asked for -/

def statusStores (np : Proc) : List ((Nat × Nat) × BitVec 8) :=
  if addr ≠ 0 then stores pt addr (bytes np.xstate) else []

/-- The stores of the status and the two times of an exited child. -/
def reported (np : Proc) : List ((Nat × Nat) × BitVec 8) :=
  statusStores pt addr np ++ (stores pt addr1 (bytes (waitTime np)) ++ stores pt addr2 (bytes np.sched.rtime))

/-- The status is stored completely, or not wanted. -/
def StatusFits : Prop := addr = 0 ∨ Mapped pt addr 4

/-- A child is freed and all of it reported, or nothing happens and the call returns -1. -/
def AllOrNothing (res : BitVec 32 × Sys × Memory) : Prop :=
  (∃ i, wait s p i = .ok res.2.1 ∧ res.1 = (s.proc i).pid ∧
    StatusFits pt addr ∧ Mapped pt addr1 4 ∧ Mapped pt addr2 4 ∧
    res.2.2 = Paged.apply mem (reported pt addr addr1 addr2 (s.proc i))) ∨
  res = (-1, s, mem)

/-- The first byte at `va` is not mapped, so that a `copyout` to it stores nothing. -/
def Refused (va : Nat) : Prop := pt.walkaddr (va / Vm.PGSIZE) = none

/-- With an exited child: the addresses are all good, or the first two are refused. Without: the call sleeps, or
`addr1` is refused. -/
def Ready : Prop :=
  (zombieChild p s).isSome ∧
      (StatusFits pt addr ∧ Mapped pt addr1 4 ∧ Mapped pt addr2 4 ∨ addr ≠ 0 ∧ Refused pt addr ∧ Refused pt addr1) ∨
    zombieChild p s = none ∧ (haveKids p s = true ∧ (s.proc p).killed = false ∨ Refused pt addr1)

instance : Decidable (StatusFits pt addr) := inferInstanceAs (Decidable (_ ∨ _))
instance : Decidable (Refused pt addr) := inferInstanceAs (Decidable (_ = _))
instance : Decidable (Ready pt p addr addr1 addr2 s) := inferInstanceAs (Decidable (_ ∨ _))

end

/-! ## The copies -/

variable {pt : PageMap} {p addr addr1 addr2 : Nat} {wtime rtime : BitVec 32} {s : Sys} {mem : Memory}

theorem stores_eq_nil_iff (va : Nat) (v : BitVec 32) : stores pt va (bytes v) = [] ↔ Refused pt va :=
  Paged.writes_eq_nil_iff ..

theorem not_mapped_of_refused {va : Nat} (h : Refused pt va) : ¬ Mapped pt va 4 := by
  intro hmap
  have hfirst := hmap 0 (by decide)
  rw [Nat.add_zero, show pt.walkaddr (va / Vm.PGSIZE) = none from h] at hfirst
  exact absurd hfirst (by decide)

/-- The stores that `copyTimes` comes to. -/
def timeStores (pt : PageMap) (addr1 addr2 : Nat) (wtime rtime : BitVec 32) : List ((Nat × Nat) × BitVec 8) :=
  stores pt addr1 (bytes wtime) ++ if Mapped pt addr1 4 then stores pt addr2 (bytes rtime) else []

theorem copyTimes_eq (w : Waited) :
    copyTimes pt addr1 addr2 w =
      (if Mapped pt addr1 4 ∧ Mapped pt addr2 4 then w.ret else -1, w.sys,
        Paged.apply w.mem (timeStores pt addr1 addr2 w.wtime w.rtime)) := by
  rw [copyTimes, timeStores]
  simp only [copyout_eq, Paged.apply_append]
  change (if decide (Mapped pt addr1 4) = true then _ else _) = _
  by_cases h1 : Mapped pt addr1 4
  · by_cases h2 : Mapped pt addr2 4
    · simp [h1, h2, bytes]
    · simp [h1, h2, bytes]
  · simp [h1]

theorem timeStores_eq_nil_iff : timeStores pt addr1 addr2 wtime rtime = [] ↔ Refused pt addr1 := by
  rw [timeStores, List.append_eq_nil_iff, stores_eq_nil_iff]
  refine ⟨And.left, fun h => ⟨h, if_neg (not_mapped_of_refused h)⟩⟩

/-! ## The passes of `waitx` -/

variable {i : Nat}

theorem zombieChild_wait (h : zombieChild p s = some i) : wait s p i = .ok (setProc s i (freeproc (s.proc i))) := by
  have hmem := List.mem_range.1 (List.mem_of_find?_eq_some h)
  have hchild := List.find?_some h
  rw [wait, if_pos ⟨hmem, of_decide_eq_true hchild⟩]

theorem wait_ne (h : wait s p i = .ok s) : False := by
  rw [wait] at h
  split at h
  · next hchild =>
    have hsame : setProc s i (freeproc (s.proc i)) = s := Outcome.ok.inj h
    have hstate := congrArg (fun t => (t.proc i).state) hsame
    simp only [setProc, Function.update_self, hchild.2.2] at hstate
    exact absurd hstate (by simp [freeproc])
  · exact absurd h (by simp)

theorem statusCopy_eq (np : Proc) :
    (if addr ≠ 0 then copyout pt addr (bytes np.xstate) mem else (true, mem)) =
      (decide (StatusFits pt addr), Paged.apply mem (statusStores pt addr np)) := by
  rw [statusStores]
  by_cases h : addr = 0
  · simp [h, StatusFits]
  · rw [if_pos h, if_pos h, copyout_eq]
    simp [h, StatusFits, bytes]

theorem sysWaitx_sleeps (hz : zombieChild p s = none) (hsleep : haveKids p s = true ∧ (s.proc p).killed = false) :
    sysWaitx pt p addr addr1 addr2 wtime rtime s mem = none := by
  rw [sysWaitx, waitx, hz]
  simp [hsleep]

/-- Without an exited child and without a reason to sleep. -/
theorem sysWaitx_none (hz : zombieChild p s = none) (hret : ¬ (haveKids p s = true ∧ (s.proc p).killed = false)) :
    sysWaitx pt p addr addr1 addr2 wtime rtime s mem =
      some (-1, s, Paged.apply mem (timeStores pt addr1 addr2 wtime rtime)) := by
  have hpass : waitx pt p addr wtime rtime s mem = some ⟨-1, wtime, rtime, s, mem⟩ := by
    rw [waitx, hz]
    refine if_pos ?_
    cases hk : haveKids p s <;> cases hd : (s.proc p).killed <;> simp_all
  rw [sysWaitx, hpass, Option.map_some, copyTimes_eq, ite_self]

/-- The exited child stays: its status could not be stored. -/
theorem sysWaitx_kept (hz : zombieChild p s = some i) (hfits : ¬ StatusFits pt addr) :
    sysWaitx pt p addr addr1 addr2 wtime rtime s mem = some (-1, s, Paged.apply mem (statusStores pt addr (s.proc i) ++
        timeStores pt addr1 addr2 (waitTime (s.proc i)) (s.proc i).sched.rtime)) := by
  rw [sysWaitx, waitx, hz]
  simp only [statusCopy_eq, hfits, decide_false, Bool.false_eq_true, if_false, Option.map_some, copyTimes_eq,
    ite_self, Paged.apply_append]

/-- The exited child is freed, before the times are copied. -/
theorem sysWaitx_freed (hz : zombieChild p s = some i) (hfits : StatusFits pt addr) :
    sysWaitx pt p addr addr1 addr2 wtime rtime s mem =
      some (if Mapped pt addr1 4 ∧ Mapped pt addr2 4 then (s.proc i).pid else -1, setProc s i (freeproc (s.proc i)),
        Paged.apply mem (statusStores pt addr (s.proc i) ++
          timeStores pt addr1 addr2 (waitTime (s.proc i)) (s.proc i).sched.rtime)) := by
  rw [sysWaitx, waitx, hz]
  simp only [statusCopy_eq, hfits, decide_true, if_true, Option.map_some, copyTimes_eq, Paged.apply_append]

/-! ## All or nothing -/

section
variable (pt p addr addr1 addr2 s)

/-- Whatever the memory and the stack hold, a call that returns has done all or nothing. -/
def Sound : Prop :=
  ∀ wtime rtime mem res, sysWaitx pt p addr addr1 addr2 wtime rtime s mem = some res →
    AllOrNothing pt p addr addr1 addr2 s mem res

end

/-- A call that frees nothing and cannot have freed anything must store nothing. -/
theorem stores_nil_of_sound {ws : List ((Nat × Nat) × BitVec 8)} (h : Sound pt p addr addr1 addr2 s)
    (hcall : ∀ mem, sysWaitx pt p addr addr1 addr2 0 0 s mem = some (-1, s, Paged.apply mem ws)) : ws = [] := by
  by_contra hne
  have : Nontrivial (BitVec 8) := ⟨0, 1, by decide⟩
  obtain ⟨mem, hmem⟩ := Paged.exists_apply_ne hne
  rcases h 0 0 mem _ (hcall mem) with ⟨i, hwait, -⟩ | hres
  · exact wait_ne hwait
  · exact hmem (congrArg (fun res => res.2.2) hres)

theorem statusStores_eq_nil_iff (np : Proc) : statusStores pt addr np = [] ↔ addr = 0 ∨ Refused pt addr := by
  rw [statusStores]
  by_cases h : addr = 0
  · simp [h]
  · rw [if_pos h, stores_eq_nil_iff]
    simp [h]

theorem ready_of_sound (h : Sound pt p addr addr1 addr2 s) : Ready pt p addr addr1 addr2 s := by
  cases hz : zombieChild p s with
  | none =>
    refine .inr ⟨hz, ?_⟩
    by_cases hsleep : haveKids p s = true ∧ (s.proc p).killed = false
    · exact .inl hsleep
    · exact .inr (timeStores_eq_nil_iff.1 (stores_nil_of_sound h fun _ => sysWaitx_none hz hsleep))
  | some i =>
    refine .inl ⟨hz ▸ rfl, ?_⟩
    by_cases hfits : StatusFits pt addr
    · -- the child is freed, so that it must have been reported
      rcases h 0 0 (fun _ => 0) _ (sysWaitx_freed hz hfits) with ⟨j, -, -, -, h1, h2, -⟩ | hres
      · exact .inl ⟨hfits, h1, h2⟩
      · have hsame : setProc s i (freeproc (s.proc i)) = s := congrArg (fun res => res.2.1) hres
        exact (wait_ne ((zombieChild_wait hz).trans (congrArg Outcome.ok hsame))).elim
    · have hnil := List.append_eq_nil_iff.1 (stores_nil_of_sound h fun _ => sysWaitx_kept hz hfits)
      have hwanted : addr ≠ 0 := fun h0 => hfits (.inl h0)
      exact .inr ⟨hwanted, ((statusStores_eq_nil_iff _).1 hnil.1).resolve_left hwanted,
        timeStores_eq_nil_iff.1 hnil.2⟩

theorem sound_of_ready (h : Ready pt p addr addr1 addr2 s) : Sound pt p addr addr1 addr2 s := by
  intro wtime rtime mem res hcall
  rcases h with ⟨hsome, hgood⟩ | ⟨hz, hnone⟩
  · obtain ⟨i, hz⟩ := Option.isSome_iff_exists.1 hsome
    rcases hgood with ⟨hfits, h1, h2⟩ | ⟨hwanted, h0, h1⟩
    · rw [sysWaitx_freed hz hfits] at hcall
      obtain rfl := Option.some.inj hcall
      refine .inl ⟨i, zombieChild_wait hz, if_pos ⟨h1, h2⟩, hfits, h1, h2, ?_⟩
      rw [reported, timeStores, if_pos h1]
    · have hfits : ¬ StatusFits pt addr := fun hf => hf.elim hwanted (not_mapped_of_refused h0)
      rw [sysWaitx_kept hz hfits, timeStores_eq_nil_iff.2 h1, (statusStores_eq_nil_iff _).2 (.inr h0)] at hcall
      exact .inr (Option.some.inj hcall).symm
  · by_cases hsleep : haveKids p s = true ∧ (s.proc p).killed = false
    · rw [sysWaitx_sleeps hz hsleep] at hcall
      exact absurd hcall (by simp)
    · rw [sysWaitx_none hz hsleep, timeStores_eq_nil_iff.2 (hnone.resolve_left hsleep)] at hcall
      exact .inr (Option.some.inj hcall).symm

/-- **`waitx` is all or nothing exactly when the addresses are all good, or bad from their first bytes on**, as
`Ready` says for each outcome of the scan. -/
theorem waitx_all_or_nothing (pt : PageMap) (p addr addr1 addr2 : Nat) (s : Sys) :
    Sound pt p addr addr1 addr2 s ↔ Ready pt p addr addr1 addr2 s :=
  ⟨ready_of_sound, sound_of_ready⟩

/-- Process 0 has one page, number 0. -/
def onePage : PageMap := firstPage

/-- The child in slot 1 has run for 3 of its 10 ticks and has exited with status 7. -/
def oneExited : Sys :=
  setProc (boot 1) 1 { zero with
    state := .zombie, pid := 2, parent := some 0, xstate := 7
    sched := { newSched 20 with etime := 30, rtime := 3 } }

theorem waitx_all_or_nothing_reported :
    Sound onePage 0 8 16 24 oneExited ∧ Ready onePage 0 8 16 24 oneExited :=
  have hready : Ready onePage 0 8 16 24 oneExited := by decide +kernel
  ⟨(waitx_all_or_nothing onePage 0 8 16 24 oneExited).2 hready, hready⟩

/-- A process without children gets -1, and what was on the stack is stored at `addr1`; a process whose `addr2` is bad
gets -1, and its child is gone. -/
theorem waitx_does_half :
    (∃ res, sysWaitx onePage 0 0 16 4096 0xdeadbeef 0 (boot 1) (fun _ => 0) = some res ∧
      res.1 = -1 ∧ zombieChild 0 (boot 1) = none ∧ haveKids 0 (boot 1) = false ∧ res.2.2 (5, 16) = 0xef) ∧
    ∃ res, sysWaitx onePage 0 0 16 4096 0 0 oneExited (fun _ => 0) = some res ∧
      res.1 = -1 ∧ (oneExited.proc 1).state = .zombie ∧ (res.2.1.proc 1).state = .unused := by
  refine ⟨⟨_, sysWaitx_none ?_ ?_, rfl, ?_, ?_, ?_⟩, _, sysWaitx_freed (i := 1) ?_ ?_, ?_, ?_, ?_⟩
  all_goals decide +kernel

end Xv6Riscv.Slot
