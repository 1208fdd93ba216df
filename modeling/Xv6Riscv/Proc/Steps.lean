import Xv6Riscv.Proc.Model

/-!
# What one step can do

`Move s s'` lists the ways the state changes, each with what the step found. `step_move` reads them off the step
function once; the invariants are then proved by cases on `Move`.
-/
namespace Xv6Riscv.Proc
open Machine
open Function (update update_self update_of_ne)

section
variable {α : Type} {f : Nat → α} {i j : Nat} {a b : α}

/-- What the new value is not was there before, at another place. -/
theorem of_update (P : α → Prop) (h : P (update f i b j)) (hb : ¬ P b) : j ≠ i ∧ P (f j) := by
  by_cases e : j = i
  · rw [e, update_self] at h
    exact absurd h hb
  · rw [update_of_ne e] at h
    exact ⟨e, h⟩

theorem eq_of_update (h : update f i b j = a) (hne : a ≠ b) : j ≠ i ∧ f j = a := of_update (· = a) h hne.symm

end

/-- The CPU is in `scheduler` and holds no lock. -/
def CpuPc.idle : CpuPc → Bool
  | .loop | .scan _ | .pick _ => true
  | _ => false

variable (s : Sys)

/-- CPU `c` runs the thread of `p`, which is not on its way into or out of `swtch`. -/
structure Runs (c p : Nat) : Prop where
  cpc : s.cpc c = .run p
  sw : s.sw p = .on

/-- CPU `c` runs the thread of `p`, which is at `a` and not in `wakeup`. -/
structure At (c p : Nat) (a : Pc) : Prop extends Runs s c p where
  wake : s.wake p = none
  pc : s.pc p = a

/-- The entry points of the system calls that take locks. -/
inductive Call (p : Nat) : Pc → Prop
  | fork : Call p (.allocproc 0)
  | exit (status : BitVec 32) : p ≠ initproc → Call p (.exitLock status)
  | wait (w : Wait) : Call p (.waitLock w)
  | kill (pid : BitVec 32) : Call p (.kill pid 0)

/-- A scan over the table goes on or gives up. -/
inductive Scan : Pc → Pc → Prop
  | kill (pid : BitVec 32) (i : Nat) : Scan (.kill pid i) (.kill pid (i + 1))
  | nokill (pid : BitVec 32) (i : Nat) : Scan (.kill pid i) .code
  | alloc (i : Nat) : Scan (.allocproc i) (.allocproc (i + 1))
  | noalloc (i : Nat) : Scan (.allocproc i) .code

/-- Taking lock `lk` leads from one place to another. -/
inductive Takes : Pc → Lk → Pc → Prop
  | code (n : Nat) : Takes .code (.obj n) .code
  | exit (status : BitVec 32) : Takes (.exitLock status) .wait (.exitReparent status 0)
  | wait (w : Wait) : Takes (.waitLock w) .wait (.waitScan w 0 false)
  | sleep (k : Kont) : Takes (.sleepRelock k) k.lk k.pc

/-- In `wait`, with `wait_lock` held. -/
inductive InWait : Pc → Prop
  | scan (w : Wait) (i : Nat) (havekids : Bool) : InWait (.waitScan w i havekids)
  | kids (w : Wait) (havekids : Bool) : InWait (.waitKids w havekids)

/-- `resume` of a thread that was in `yield`. -/
inductive Yielded : Pc → Prop
  | mk {a : Pc} : a ≠ .forkret → a ≠ .zombie → (∀ ch k, a ≠ .sleepSched ch k) → Yielded a

inductive Move : Sys → Prop
  | idle : Move s
  | select (c : Nat) (a : CpuPc) : (s.cpc c).idle = true → a.idle = true → Move (setCpc s c a)
  | dispatch (c p : Nat) : s.cpc c = .pick p → s.plock p = none → s.state p = .runnable → Move (dispatch s c p)
  | ret (c p : Nat) : s.cpc c = .ret p →
      Move { setCpc s c (.rel p) with cproc := update s.cproc c none }
  | rel (c p : Nat) : s.cpc c = .rel p →
      Move { setCpc s c .loop with plock := update s.plock p none }
  | swtch (c p : Nat) : s.cpc c = .run p → s.sw p = .out → Move (swtch s c p)
  | forkret (c p : Nat) : s.cpc c = .run p → s.sw p = .back → s.pc p = .forkret →
      Move (goto { s with sw := update s.sw p .on, plock := update s.plock p none } p .code)
  | wokenUp (c p : Nat) (chan : Chan) (k : Kont) : s.cpc c = .run p → s.sw p = .back →
      s.pc p = .sleepSched chan k →
      Move { s with
        sw := update s.sw p .on, plock := update s.plock p none
        pc := update s.pc p (.sleepRelock k), chan := update s.chan p .null }
  | yielded (c p : Nat) : s.cpc c = .run p → s.sw p = .back → Yielded (s.pc p) →
      Move { s with sw := update s.sw p .on, plock := update s.plock p none }
  | yield (c p : Nat) : Runs s c p → NoLocks s (.cpu c) → s.plock p = none →
      Move { ready s p with plock := update s.plock p (some c), sw := update s.sw p .out }
  | wakeSkip (c p : Nat) (chan : Chan) : Runs s c p → s.wake p = some (chan, p) →
      Move { s with wake := update s.wake p (some (chan, p + 1)) }
  | wakeSlot (c p : Nat) (chan : Chan) (i : Nat) : Runs s c p → s.wake p = some (chan, i) → i ≠ p →
      s.plock i = none → Move { wakeSlot s chan i with wake := update s.wake p (some (chan, i + 1)) }
  | wakeDone (c p : Nat) (chan : Chan) (i : Nat) : Runs s c p → s.wake p = some (chan, i) → NPROC ≤ i →
      Move { s with wake := update s.wake p none, locks := s.locks.map (·.wakes (.cpu c) chan) }
  | devSlot (d : Nat) (chan : Chan) (i : Nat) : s.dwake d = some (chan, i) → s.plock i = none →
      Move { wakeSlot s chan i with dwake := update s.dwake d (some (chan, i + 1)) }
  | devDone (d : Nat) (chan : Chan) (i : Nat) : s.dwake d = some (chan, i) → NPROC ≤ i →
      Move { s with dwake := update s.dwake d none, locks := s.locks.map (·.wakes (.dev d) chan) }
  | devAcquire (d n : Nat) : Free s (.obj n) → s.dwake d = none → Move (acquire s (.dev d) (.obj n))
  | devRelease (d n : Nat) : Holds s (.dev d) (.obj n) → Move (release s (.obj n))
  | devWakeup (d : Nat) (chan : Chan) : s.dwake d = none →
      Move { s with dwake := update s.dwake d (some (chan, 0)) }
  | call (c p : Nat) (a : Pc) : At s c p .code → NoLocks s (.cpu c) → Call p a → Move (goto s p a)
  | scan (c p : Nat) (a b : Pc) : At s c p a → Scan a b → Move (goto s p b)
  | take (c p : Nat) (a : Pc) (lk : Lk) (b : Pc) : At s c p a → Free s lk → Takes a lk b →
      Move (goto (acquire s (.cpu c) lk) p b)
  | release (c p n : Nat) : At s c p .code → Holds s (.cpu c) (.obj n) → Move (release s (.obj n))
  | callWakeup (c p : Nat) (chan : Chan) : At s c p .code →
      Move { s with wake := update s.wake p (some (chan, 0)) }
  | callSleep (c p : Nat) (chan : Chan) (n : Nat) : At s c p .code → Holds s (.cpu c) (.obj n) →
      (∀ h ∈ s.locks, h.owner = .cpu c → h.lk = .obj n) → Move (goto s p (.sleepLock chan (.code n)))
  | setkilled (c p : Nat) : At s c p .code → Move { s with killed := update s.killed p true }
  | trace (c p : Nat) (mask : BitVec 32) : At s c p .code →
      Move { s with smask := update s.smask p mask, traced := update s.traced p true }
  | settickets (c p : Nat) (tk : BitVec 32) : At s c p .code →
      Move { s with
        tickets := update s.tickets p (s.tickets p + tk), ticketed := update s.ticketed p true }
  | killAwake (c p : Nat) (pid : BitVec 32) (i : Nat) : At s c p (.kill pid i) →
      Move (goto { s with killed := update s.killed i true } p .code)
  | killAsleep (c p : Nat) (pid : BitVec 32) (i : Nat) : At s c p (.kill pid i) → s.plock i = none →
      s.state i = .sleeping → Move (goto (ready { s with killed := update s.killed i true } i) p .code)
  | alloc (c p i : Nat) : At s c p (.allocproc i) → i < NPROC → s.plock i = none → s.state i = .unused →
      Move (goto (allocate s p i) p (.forkParent i))
  | allocFail (c p i : Nat) : At s c p (.allocproc i) → s.plock i = none → s.state i = .unused →
      Move (goto (freeproc { s with nextpid := s.nextpid + 1 } i) p .code)
  | setParent (c p np : Nat) : At s c p (.forkParent np) → Free s .wait →
      Move { goto s p (.forkRunnable np) with parent := update s.parent np (some p) }
  | publish (c p np : Nat) : At s c p (.forkRunnable np) → s.plock np = none →
      Move (goto (ready s np) p (.forkSmask np))
  | copySmask (c p np : Nat) : At s c p (.forkSmask np) →
      Move { goto s p (.forkTickets np) with smask := update s.smask np (s.smask p) }
  | copyTickets (c p np : Nat) : At s c p (.forkTickets np) →
      Move { goto s p .code with tickets := update s.tickets np (s.tickets p) }
  | keep (c p : Nat) (status : BitVec 32) (i : Nat) : At s c p (.exitReparent status i) → s.parent i ≠ some p →
      Move (goto s p (.exitReparent status (i + 1)))
  | adopt (c p : Nat) (status : BitVec 32) (i : Nat) : At s c p (.exitReparent status i) → s.parent i = some p →
      Move { goto s p (.exitReparent status (i + 1)) with
        parent := update s.parent i (some initproc)
        wake := update s.wake p (some (.proc initproc, 0)) }
  | wakeParent (c p : Nat) (status : BitVec 32) (i : Nat) : At s c p (.exitReparent status i) → NPROC ≤ i →
      Move { goto s p (.exitZombie status) with
        wake := update s.wake p (some (parentChan (s.parent p), 0)) }
  | die (c p : Nat) (status : BitVec 32) : At s c p (.exitZombie status) → s.plock p = none →
      Move { goto s p .exitUnlock with
        plock := update s.plock p (some c)
        xstate := update s.xstate p status
        state := update s.state p .zombie
        exited := s.exited ++ [⟨s.birth p, s.pid p, status⟩] }
  | exitUnlock (c p : Nat) : At s c p .exitUnlock →
      Move { goto (Proc.release s .wait) p .zombie with sw := update s.sw p .out }
  | waitSkip (c p : Nat) (w : Wait) (i : Nat) (havekids havekids' : Bool) : At s c p (.waitScan w i havekids) →
      ¬ (s.parent i = some p ∧ s.state i = .zombie) → Move (goto s p (.waitScan w (i + 1) havekids'))
  | reap (c p : Nat) (w : Wait) (i : Nat) (havekids : Bool) : At s c p (.waitScan w i havekids) →
      s.parent i = some p → s.plock i = none → s.state i = .zombie →
      Move { goto (Proc.release (freeproc s i) .wait) p .code with
        reaped := s.reaped ++ [⟨⟨s.birth i, s.pid i, s.xstate i⟩, s.parent i, p⟩] }
  | waitReturn (c p : Nat) (a : Pc) : At s c p a → InWait a → Move (goto (Proc.release s .wait) p .code)
  | scanned (c p : Nat) (w : Wait) (i : Nat) (havekids : Bool) : At s c p (.waitScan w i havekids) → NPROC ≤ i →
      Move (goto s p (.waitKids w havekids))
  | waitSleep (c p : Nat) (w : Wait) (havekids : Bool) : At s c p (.waitKids w havekids) →
      Move (goto s p (.sleepLock (.proc p) (.wait w)))
  | sleepLock (c p : Nat) (chan : Chan) (k : Kont) : At s c p (.sleepLock chan k) → s.plock p = none →
      Move { goto s p (.sleepUnlock chan k) with plock := update s.plock p (some c) }
  | sleepUnlock (c p : Nat) (chan : Chan) (k : Kont) : At s c p (.sleepUnlock chan k) →
      Move (goto (Proc.release s k.lk) p (.sleepState chan k))
  | sleepState (c p : Nat) (chan : Chan) (k : Kont) : At s c p (.sleepState chan k) →
      Move { goto s p (.sleepSched chan k) with
        chan := update s.chan p chan
        state := update s.state p .sleeping
        sw := update s.sw p .out }

variable {s} {s' : Sys} {pol : Policy} {c p : Nat}

/-! ## A slot of `wakeup` changes the state and nothing else -/

section
variable (chan : Chan) (i : Nat)

@[simp] theorem wakeSlot_pc : (wakeSlot s chan i).pc = s.pc := by unfold wakeSlot; split <;> rfl

@[simp] theorem wakeSlot_parent : (wakeSlot s chan i).parent = s.parent := by unfold wakeSlot; split <;> rfl

@[simp] theorem wakeSlot_locks : (wakeSlot s chan i).locks = s.locks := by unfold wakeSlot; split <;> rfl

@[simp] theorem wakeSlot_cpc : (wakeSlot s chan i).cpc = s.cpc := by unfold wakeSlot; split <;> rfl

@[simp] theorem wakeSlot_wake : (wakeSlot s chan i).wake = s.wake := by unfold wakeSlot; split <;> rfl

@[simp] theorem wakeSlot_dwake : (wakeSlot s chan i).dwake = s.dwake := by unfold wakeSlot; split <;> rfl

end

/-! ## Reading the moves off the step function -/

variable {cand i d q : Nat}

theorem schedStep_move (hs : schedStep s pol c cand = .ok s') : Move s s' := by
  have hselect : ∀ a, (s.cpc c).idle = true → a.idle = true → setCpc s c a = s' → Move s s' := by
    rintro a hidle ha rfl
    exact .select c a hidle ha
  unfold schedStep at hs
  cases hpc : s.cpc c <;> rw [hpc] at hs hselect
  case loop =>
    cases pol <;> simp only at hs
    · cases hs; exact hselect _ rfl rfl rfl
    · split at hs <;> cases hs
      · exact hselect _ rfl rfl rfl
      · exact .idle
  case scan i =>
    simp only at hs
    repeat' split at hs
    all_goals cases hs
    all_goals exact hselect _ rfl rfl rfl
  case pick p =>
    simp only at hs
    split at hs
    · rename_i hl
      split at hs <;> cases hs
      · rename_i hst; exact .dispatch c p hpc hl hst
      · exact hselect _ rfl rfl rfl
    · cases hs
  case run p => cases hs
  case ret p => cases hs; exact .ret c p hpc
  case rel p => cases hs; exact .rel c p hpc

theorem resume_move (hc : s.cpc c = .run p) (hsw : s.sw p = .back) (hs : resume s p = .ok s') : Move s s' := by
  unfold resume at hs
  split at hs
  · rename_i hpc; cases hs; exact .forkret c p hc hsw hpc
  · rename_i ch k hpc; cases hs; exact .wokenUp c p ch k hc hsw hpc
  · cases hs
  · rename_i h1 h2 h3
    cases hs
    exact .yielded c p hc hsw ⟨h1, h3, h2⟩

theorem wakeup_move {chan : Chan} (hr : Runs s c p) (hw : s.wake p = some (chan, i))
    (hs : wakeup s c p chan i = .ok s') : Move s s' := by
  unfold wakeup at hs
  split at hs
  · split at hs
    · rename_i hi; cases hs; subst hi; exact .wakeSkip c i chan hr hw
    · rename_i hi
      split at hs
      · rename_i hl; cases hs; exact .wakeSlot c p chan i hr hw hi hl
      · cases hs
  · rename_i hi; cases hs; exact .wakeDone c p chan i hr hw (by omega)

variable {a : Act}

theorem codeStep_move (hat : At s c p .code) (hs : codeStep s c p a = .ok s') : Move s s' := by
  unfold codeStep at hs
  split at hs
  · unfold lockThen at hs
    split at hs <;> cases hs
    rename_i hfree
    exact .take c p _ _ _ hat hfree (.code _)
  · split at hs <;> cases hs
    rename_i hh
    exact .release c p _ hat hh
  · cases hs; exact .callWakeup c p _ hat
  · split at hs
    · rename_i hh
      split at hs <;> cases hs
      rename_i honly
      exact .callSleep c p _ _ hat hh honly
    · cases hs
  · split at hs <;> cases hs
    rename_i hno
    exact .call c p _ hat hno .fork
  · split at hs
    · rename_i hno
      split at hs <;> cases hs
      rename_i hp
      exact .call c p _ hat hno (.exit _ hp)
    · cases hs
  · split at hs <;> cases hs
    rename_i hno
    exact .call c p _ hat hno (.wait _)
  · split at hs <;> cases hs
    rename_i hno
    exact .call c p _ hat hno (.kill _)
  · split at hs <;> cases hs
    exact .setkilled c p hat
  · cases hs; exact .trace c p _ hat
  · cases hs; exact .settickets c p _ hat
  · cases hs
  · cases hs

theorem killScan_move {pid : BitVec 32} (hat : At s c p (.kill pid i))
    (hs : killScan s p pid i = .ok s') : Move s s' := by
  unfold killScan at hs
  split at hs
  · split at hs
    · rename_i hl
      split at hs
      · split at hs <;> cases hs
        · rename_i hst; exact .killAsleep c p pid i hat hl hst
        · exact .killAwake c p pid i hat
      · cases hs; exact .scan c p _ _ hat (.kill pid i)
    · cases hs
  · cases hs; exact .scan c p _ _ hat (.nokill pid i)

variable {ok havekids : Bool}

theorem allocproc_move (hat : At s c p (.allocproc i)) (hs : allocproc s p i ok = .ok s') : Move s s' := by
  unfold allocproc at hs
  split at hs
  · rename_i hi
    split at hs
    · rename_i hl
      split at hs
      · rename_i hst
        split at hs <;> cases hs
        · exact .alloc c p i hat hi hl hst
        · exact .allocFail c p i hat hl hst
      · cases hs; exact .scan c p _ _ hat (.alloc i)
    · cases hs
  · cases hs; exact .scan c p _ _ hat (.noalloc i)

theorem exitReparent_move {status : BitVec 32} (hat : At s c p (.exitReparent status i))
    (hs : exitReparent s p status i = .ok s') : Move s s' := by
  unfold exitReparent at hs
  split at hs
  · split at hs
    · rename_i hpar; cases hs; exact .adopt c p status i hat hpar
    · rename_i hpar; cases hs; exact .keep c p status i hat hpar
  · rename_i hi; cases hs; exact .wakeParent c p status i hat (by omega)

theorem waitScan_move {w : Wait} (hat : At s c p (.waitScan w i havekids))
    (hs : waitScan s p w i havekids ok = .ok s') : Move s s' := by
  unfold waitScan at hs
  split at hs
  · split at hs
    · rename_i hpar
      split at hs
      · rename_i hl
        split at hs
        · rename_i hst
          split at hs <;> cases hs
          · exact .reap c p w i havekids hat hpar hl hst
          · exact .waitReturn c p _ hat (.scan w i havekids)
        · rename_i hst
          cases hs
          exact .waitSkip c p w i havekids true hat fun h => hst h.2
      · cases hs
    · rename_i hpar
      cases hs
      exact .waitSkip c p w i havekids havekids hat fun h => hpar h.1
  · rename_i hi; cases hs; exact .scanned c p w i havekids hat (by omega)

theorem waitKids_move {w : Wait} (hat : At s c p (.waitKids w havekids))
    (hs : waitKids s p w havekids = .ok s') : Move s s' := by
  unfold waitKids at hs
  split at hs
  · cases hs
  · split at hs <;> cases hs
    · exact .waitReturn c p _ hat (.kids w havekids)
    · exact .waitSleep c p w havekids hat

theorem lockThen_move {a b : Pc} {lk : Lk} (hat : At s c p a) (hab : Takes a lk b)
    (hs : lockThen s c p lk b = .ok s') : Move s s' := by
  unfold lockThen at hs
  split at hs <;> cases hs
  rename_i hfree
  exact .take c p a lk b hat hfree hab

theorem pcStep_move (hr : Runs s c p) (hw : s.wake p = none) (hs : pcStep s c p ok = .ok s') : Move s s' := by
  unfold pcStep at hs
  cases hpc : s.pc p <;> rw [hpc] at hs
  case forkret | code | zombie | sleepSched => cases hs
  case kill => exact killScan_move ⟨hr, hw, hpc⟩ hs
  case allocproc => exact allocproc_move ⟨hr, hw, hpc⟩ hs
  case forkParent np =>
    simp only [forkParent] at hs
    split at hs <;> cases hs
    rename_i hfree
    exact .setParent c p np ⟨hr, hw, hpc⟩ hfree
  case forkRunnable np =>
    simp only [forkRunnable] at hs
    split at hs <;> cases hs
    rename_i hl
    exact .publish c p np ⟨hr, hw, hpc⟩ hl
  case forkSmask np => cases hs; exact .copySmask c p np ⟨hr, hw, hpc⟩
  case forkTickets np => cases hs; exact .copyTickets c p np ⟨hr, hw, hpc⟩
  case exitLock status => exact lockThen_move ⟨hr, hw, hpc⟩ (.exit status) hs
  case exitReparent => exact exitReparent_move ⟨hr, hw, hpc⟩ hs
  case exitZombie status =>
    simp only [exitZombie] at hs
    split at hs <;> cases hs
    rename_i hl
    exact .die c p status ⟨hr, hw, hpc⟩ hl
  case exitUnlock => cases hs; exact .exitUnlock c p ⟨hr, hw, hpc⟩
  case waitLock w => exact lockThen_move ⟨hr, hw, hpc⟩ (.wait w) hs
  case waitScan => exact waitScan_move ⟨hr, hw, hpc⟩ hs
  case waitKids => exact waitKids_move ⟨hr, hw, hpc⟩ hs
  case sleepLock chan k =>
    simp only at hs
    split at hs <;> cases hs
    rename_i hl
    exact .sleepLock c p chan k ⟨hr, hw, hpc⟩ hl
  case sleepUnlock chan k => cases hs; exact .sleepUnlock c p chan k ⟨hr, hw, hpc⟩
  case sleepState chan k => cases hs; exact .sleepState c p chan k ⟨hr, hw, hpc⟩
  case sleepRelock k => exact lockThen_move ⟨hr, hw, hpc⟩ (.sleep k) hs

theorem yield_move (hr : Runs s c p) (hs : yield s c p = .ok s') : Move s s' := by
  unfold yield at hs
  split at hs <;> cases hs
  rename_i hg
  exact .yield c p hr hg.1 hg.2

theorem threadStep_move (hc : s.cpc c = .run p) (hs : threadStep s c p a = .ok s') : Move s s' := by
  unfold threadStep at hs
  cases hsw : s.sw p with
  | off => rw [hsw] at hs; cases hs
  | out => rw [hsw] at hs; cases hs; exact .swtch c p hc hsw
  | back => rw [hsw] at hs; exact resume_move hc hsw hs
  | on =>
    rw [hsw] at hs
    simp only at hs
    split at hs
    · exact yield_move ⟨hc, hsw⟩ hs
    · split at hs
      · rename_i hw; exact wakeup_move ⟨hc, hsw⟩ hw hs
      · rename_i hw; exact pcStep_move ⟨hc, hsw⟩ hw hs
    · split at hs
      · rename_i hg; exact codeStep_move ⟨⟨hc, hsw⟩, hg.1, hg.2⟩ hs
      · cases hs

theorem devStep_move {a : DevAct} (hs : devStep s d a = .ok s') : Move s s' := by
  cases a <;> simp only [devStep] at hs <;> split at hs
  case h_2 chan i hw =>
    split at hs
    · split at hs <;> cases hs
      rename_i hl
      exact .devSlot d chan i hw hl
    · rename_i hi; cases hs; exact .devDone d chan i hw (by omega)
  all_goals cases hs
  case acquire.isTrue.refl n hg => exact .devAcquire d n hg.1 hg.2
  case release.isTrue.refl n hg => exact .devRelease d n hg.1
  case wakeup.isTrue.refl chan hw => exact .devWakeup d chan hw

theorem step_move {e : Event} (hs : step s pol e = .ok s') : Move s s' := by
  cases e with
  | sched c cand =>
    simp only [step] at hs
    split at hs
    · exact schedStep_move hs
    · cases hs
  | thread c a =>
    simp only [step] at hs
    split at hs
    · rename_i hc; exact threadStep_move hc hs
    · cases hs
  | dev d a => exact devStep_move hs

/-! ## Who gets onto a CPU -/

theorem pcStep_cpc (hs : pcStep s c p ok = .ok s') : s'.cpc = s.cpc := by
  unfold pcStep at hs
  cases hpc : s.pc p <;> rw [hpc] at hs <;>
    simp only [killScan, allocproc, forkParent, forkRunnable, lockThen, exitReparent, exitZombie, waitScan, waitKids,
      reduceCtorEq] at hs <;> (repeat' split at hs) <;> cases hs <;> rfl

theorem codeStep_cpc (hs : codeStep s c p a = .ok s') : s'.cpc = s.cpc := by
  cases a <;> simp only [codeStep, lockThen, reduceCtorEq] at hs <;> (repeat' split at hs) <;> cases hs <;> rfl

theorem wakeup_cpc {chan : Chan} (hs : wakeup s c p chan i = .ok s') : s'.cpc = s.cpc := by
  unfold wakeup at hs
  repeat' split at hs
  all_goals cases hs
  · rfl
  · exact wakeSlot_cpc chan i
  · rfl

theorem resume_cpc (hs : resume s p = .ok s') : s'.cpc = s.cpc := by
  unfold resume at hs
  split at hs <;> cases hs <;> rfl

theorem threadStep_cpc (hs : threadStep s c p a = .ok s') : s'.cpc = s.cpc ∨ s'.cpc = update s.cpc c (.ret p) := by
  unfold threadStep at hs
  split at hs
  · cases hs
  · cases hs
    exact .inr rfl
  · exact .inl (resume_cpc hs)
  split at hs
  · unfold yield at hs
    split at hs <;> cases hs
    exact .inl rfl
  · split at hs
    · exact .inl (wakeup_cpc hs)
    · exact .inl (pcStep_cpc hs)
  · split at hs
    · exact .inl (codeStep_cpc hs)
    · cases hs

theorem devStep_cpc {a : DevAct} (hs : devStep s d a = .ok s') : s'.cpc = s.cpc := by
  cases a <;> simp only [devStep] at hs <;> (repeat' split at hs) <;> cases hs <;> first | rfl | exact wakeSlot_cpc _ _

theorem schedStep_run {c' : Nat} (hs : schedStep s pol c cand = .ok s') (hr : s'.cpc c' = .run q)
    (hne : s.cpc c' ≠ .run q) : c' = c ∧ s.cpc c = .pick q ∧ s.state q = .runnable := by
  have hset : ∀ {a : CpuPc} {f : Nat → CpuPc}, f = update s.cpc c a → (∀ q, a ≠ .run q) → f c' ≠ .run q := by
    rintro a f rfl ha hf
    by_cases e : c' = c
    · rw [e, update_self] at hf
      exact ha q hf
    · rw [update_of_ne e] at hf
      exact hne hf
  unfold schedStep at hs
  cases hc : s.cpc c with
  | pick p =>
    rw [hc] at hs
    simp only at hs
    split at hs
    · split at hs <;> cases hs
      · rename_i hst
        by_cases e : c' = c
        · subst e
          simp only [dispatch, update_self, CpuPc.run.injEq] at hr
          subst hr
          exact ⟨rfl, rfl, hst⟩
        · simp only [dispatch, update_of_ne e] at hr
          exact absurd hr hne
      · exact absurd hr (hset rfl fun _ => nofun)
    · cases hs
  | _ =>
    rw [hc] at hs
    simp only at hs
    repeat' split at hs
    all_goals cases hs
    all_goals first | exact absurd hr hne | exact absurd hr (hset rfl fun _ => nofun)

theorem step_run {e : Event} {c : Nat} (hs : step s pol e = .ok s') (hr : s'.cpc c = .run q)
    (hne : s.cpc c ≠ .run q) : s.state q = .runnable ∧ s.cpc c = .pick q ∧ ∃ cand, e = .sched c cand := by
  cases e with
  | sched c' cand =>
    simp only [step] at hs
    split at hs
    · obtain ⟨rfl, hpick, hst⟩ := schedStep_run hs hr hne
      exact ⟨hst, hpick, cand, rfl⟩
    · cases hs
  | thread c' a =>
    simp only [step] at hs
    split at hs
    · rcases threadStep_cpc hs with h | h <;> rw [h] at hr
      · exact absurd hr hne
      by_cases e : c = c'
      · rw [e, update_self] at hr
        cases hr
      · rw [update_of_ne e] at hr
        exact absurd hr hne
    · cases hs
  | dev d a =>
    rw [devStep_cpc hs] at hr
    exact absurd hr hne

/-! ## Runs -/

/-- The states of all runs. -/
def Reached (pol : Policy) (s : Sys) : Prop :=
  Reach (fun s e => step s pol e) (· = boot) (fun _ _ => True) s

theorem Reached.inv {I : Sys → Prop} (h0 : I boot) (hm : ∀ s s', I s → Move s s' → I s') (h : Reached pol s) : I s :=
  Reach.inv (by rintro _ rfl; exact h0) (fun s _ s' hI _ hs => hm s s' hI (step_move hs)) h

end Xv6Riscv.Proc
