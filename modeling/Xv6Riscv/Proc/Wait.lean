import Xv6Riscv.Proc.Parents

/-!
# Waiting for a child

`exit` wakes the parent before it becomes a ZOMBIE, but it does both with `wait_lock` held, and the parent needs
`wait_lock` to look again: while the lock is free, no process sleeps in `wait` beside a ZOMBIE child
(`Waiting.asleep`). A ZOMBIE is freed by the one `wait` that reports it (`History`).
-/
namespace Xv6Riscv.Proc
open Machine List
open Function (update update_self update_of_ne update_apply)

/-- The channel and the caller of the `sleep` a thread is in. -/
def Pc.sleepsOn : Pc → Option (Chan × Kont)
  | .sleepLock ch k | .sleepUnlock ch k | .sleepState ch k | .sleepSched ch k => some (ch, k)
  | _ => none

/-- How many slots `wait` has looked at, up to the point where it gives up `wait_lock` in `sleep`. -/
def Pc.seen : Pc → Option Nat
  | .waitScan _ i _ => some i
  | .waitKids _ _ | .sleepLock _ (.wait _) | .sleepUnlock _ (.wait _) => some NPROC
  | _ => none

theorem Pc.seen_needs {a : Pc} {n : Nat} (h : a.seen = some n) : a.needs = some .wait := by
  cases a with
  | sleepLock ch k => cases k <;> first | rfl | cases h
  | sleepUnlock ch k => cases k <;> first | rfl | cases h
  | _ => first | rfl | cases h

/-- The caller of `sleep` in `wait` sleeps on its own slot. -/
def OwnChan (s : Sys) : Prop := ∀ p ch w, (s.pc p).sleepsOn = some (ch, .wait w) → ch = .proc p

/-- There is no ZOMBIE child among the slots that `wait` has looked at. -/
def Seen (s : Sys) : Prop :=
  ∀ p n, (s.pc p).seen = some n → ∀ j < n, s.parent j = some p → s.state j ≠ .zombie

/-- Once `exit` is past `wakeup(p->parent)`, this is on record at `wait_lock`. -/
def ParentWoken (s : Sys) : Prop :=
  ∀ r st, s.pc r = .exitZombie st → (∃ i, s.wake r = some (parentChan (s.parent r), i)) ∨
    s.wake r = none ∧ ∃ x ∈ s.locks, x.lk = .wait ∧ parentChan (s.parent r) ∈ x.woke

/-- Only `init` can sleep beside a ZOMBIE child, which `reparent` has just moved there. -/
def ZombieSeen (s : Sys) : Prop :=
  ∀ p z, Asleep s p (.proc p) .wait → s.parent z = some p → s.state z = .zombie →
    p = initproc ∧ ∃ r st i k, s.pc r = .exitReparent st i ∧ s.wake r = some (.proc initproc, k) ∧ k ≤ initproc

variable {s s' : Sys} {i p : Nat}

theorem wakeSlot_zombie {ch : Chan} {z : Nat} : (wakeSlot s ch i).state z = .zombie ↔ s.state z = .zombie := by
  unfold wakeSlot
  split
  · simp only [ready, update_apply]
    grind
  · rfl

theorem OwnChan.move (h : OwnChan s) (hm : Move s s') : OwnChan s' := by
  unfold OwnChan at h
  intro q ch w hq
  cases hm with
  | idle => exact h q ch w hq
  | call c p a hat hno hcall =>
    simp only [goto, update_apply] at hq
    cases hcall <;> grind [Pc.sleepsOn]
  | scan c p a b hat hscan =>
    simp only [goto, update_apply] at hq
    cases hscan <;> grind [Pc.sleepsOn]
  | take c p a lk b hat hfree htake =>
    simp only [goto, acquire, update_apply] at hq
    cases htake with
    | sleep k => cases k <;> grind [Pc.sleepsOn, Kont.pc]
    | _ => grind [Pc.sleepsOn]
  | wakeSlot | devSlot => exact h q ch w (by simpa using hq)
  | _ =>
    simp only [goto, release, ready, acquire, setCpc, dispatch, swtch, freeproc, allocate, update_apply] at hq
    grind [Pc.sleepsOn, At]

theorem Seen.move (h : Seen s) (hk : Kernel s) (hm : Move s s') : Seen s' := by
  -- while one process changes parents or becomes a ZOMBIE, no other is in its scan
  have alone : ∀ {p q n}, (s.pc p).needs = some .wait → (s.pc q).seen = some n → q = p := fun hp hq =>
    hk.locks.exclusive (Pc.seen_needs hq) hp
  unfold Seen at h
  intro q n hq j hj hpar
  cases hm with
  | idle => exact h q n hq j hj hpar
  | die _ p _ hat | adopt _ p _ _ hat | reap _ p _ _ _ hat =>
    simp only [goto, release, freeproc, update_apply] at hq
    have := alone (p := p) (q := q) (n := n) hat.needs
    grind [Pc.seen]
  | setParent c p np hat hfree =>
    simp only [goto, update_apply] at hq
    have : ∀ n, (s.pc q).seen ≠ some n := fun n hn => hk.locks.not_free (Pc.seen_needs hn) hfree
    grind [Pc.seen]
  | call c p a hat hno hcall =>
    simp only [goto, update_apply] at hq
    cases hcall <;> grind [Pc.seen, goto]
  | scan c p a b hat hscan =>
    simp only [goto, update_apply] at hq
    cases hscan <;> grind [Pc.seen, goto]
  | take c p a lk b hat hfree htake =>
    simp only [goto, acquire, update_apply] at hq
    cases htake with
    | sleep k => cases k <;> grind [Pc.seen, Kont.pc, goto, acquire]
    | _ => grind [Pc.seen, goto, acquire]
  | wakeSlot | devSlot => exact mt wakeSlot_zombie.1 (h q n (by simpa using hq) j hj (by simpa using hpar))
  | waitSkip c p w i havekids havekids' hat hskip =>
    simp only [goto, update_apply] at hq hpar ⊢
    have hlast : j < i + 1 → j < i ∨ j = i := fun hj => by omega
    grind [Pc.seen, At]
  | scanned c p w i havekids hat hi =>
    simp only [goto, update_apply] at hq hpar ⊢
    have hall : j < NPROC → j < i := fun hj => by omega
    grind [Pc.seen, At]
  | sleepLock c p chan k hat =>
    simp only [goto, update_apply] at hq hpar ⊢
    cases k <;> grind [Pc.seen, At]
  | _ =>
    simp only [goto, release, ready, acquire, setCpc, dispatch, swtch, freeproc, allocate, update_apply]
      at hq hpar ⊢
    grind [Pc.seen, At]

theorem ParentWoken.move (h : ParentWoken s) (hk : Kernel s) (hm : Move s s') : ParentWoken s' := by
  have alone : ∀ {p r t}, (s.pc p).needs = some .wait → s.pc r = .exitZombie t → r = p := fun hp hr =>
    hk.locks.exclusive (by rw [hr]; rfl) hp
  -- a record at a lock stays there until the lock is released
  have recorded : ∀ {o ch r}, (∃ x ∈ s.locks, x.lk = .wait ∧ parentChan (s.parent r) ∈ x.woke) →
      ∃ x ∈ s.locks.map (·.wakes o ch), x.lk = .wait ∧ parentChan (s.parent r) ∈ x.woke := by
    rintro o ch r ⟨x, hx, hlk, hwoke⟩
    refine ⟨_, mem_map_of_mem hx, by simpa using hlk, ?_⟩
    unfold Hold.wakes
    split
    · exact mem_cons_of_mem _ hwoke
    · exact hwoke
  unfold ParentWoken at h
  intro r t hr
  cases hm with
  | idle => exact h r t hr
  | wakeDone c p chan i hrun hw hi =>
    by_cases e : r = p
    · subst e
      refine .inr ⟨by simp, ?_⟩
      obtain ⟨x, hx, hlk, ho⟩ := hk.locks.holds hk.table hrun (by rw [hr]; rfl)
      rcases h r t hr with ⟨j, hj⟩ | ⟨hnone, -⟩
      · rw [hw] at hj
        cases hj
        exact ⟨_, mem_map_of_mem hx, by simpa using hlk, by simp [Hold.wakes, ho]⟩
      · rw [hw] at hnone
        cases hnone
    · rcases h r t hr with hj | ⟨hnone, hx⟩
      · exact .inl (by simpa [update_of_ne e] using hj)
      · exact .inr ⟨by simpa [update_of_ne e] using hnone, recorded hx⟩
  | devDone d chan i hw hi => exact (h r t hr).imp id fun hx => ⟨hx.1, recorded hx.2⟩
  | adopt _ p _ _ hat | reap _ p _ _ _ hat | exitUnlock _ p hat =>
    simp only [goto, release, freeproc, update_apply] at hr
    have := alone (p := p) (r := r) (t := t) hat.needs
    grind
  | setParent c p np hat hfree =>
    simp only [goto, update_apply] at hr
    have : s.pc r ≠ .exitZombie t := fun hn => hk.locks.not_free (by rw [hn]; rfl) hfree
    grind
  | waitReturn c p a hat ha =>
    simp only [goto, release, update_apply] at hr
    have := alone (p := p) (r := r) (t := t) (by rw [hat.pc]; cases ha <;> rfl)
    grind
  | sleepUnlock c p chan k hat =>
    have hne : r ≠ p := by
      rintro rfl
      simp [goto] at hr
    simp only [goto, release, update_of_ne hne] at hr
    refine (h r t hr).imp_right ?_
    rintro ⟨hnone, x, hx, hlk, hwoke⟩
    refine ⟨hnone, x, mem_filter.2 ⟨hx, ?_⟩, hlk, hwoke⟩
    cases k with
    | code n => simp [hlk, Kont.lk]
    | wait w => exact absurd (alone (by rw [hat.pc]; rfl) hr) hne
  | allocFail c p i hat hl hst =>
    simp only [goto, freeproc, update_apply] at hr ⊢
    have hne : s.pc r = .exitZombie t → r ≠ i := by
      rintro hz rfl
      exact hk.locks.not_unused hk.table (by rw [hz]; rfl) hst
    grind
  | call c p a hat hno hcall =>
    simp only [goto, update_apply] at hr
    cases hcall <;> grind [goto]
  | scan c p a b hat hscan =>
    simp only [goto, update_apply] at hr
    cases hscan <;> grind [goto]
  | take c p a lk b hat hfree htake =>
    simp only [goto, acquire, update_apply] at hr
    cases htake with
    | sleep k => cases k <;> grind [Kont.pc, goto, acquire]
    | _ => grind [goto, acquire]
  | wakeSlot c p chan i hrun hw =>
    simp only [wakeSlot_pc, wakeSlot_parent, wakeSlot_locks, update_apply] at hr ⊢
    grind
  | devSlot d chan i => simpa using h r t (by simpa using hr)
  | _ =>
    simp only [goto, release, ready, acquire, setCpc, dispatch, swtch, allocate, update_apply] at hr ⊢
    grind [At]

theorem ZombieSeen.move (h : ZombieSeen s) (hseen : Seen s) (hwoken : ParentWoken s) (hk : Kernel s)
    (hp : Parents s) (hm : Move s s') : ZombieSeen s' := by
  have ht := hk.table
  have alone : ∀ {p r t i}, (s.pc p).needs = some .wait → s.pc r = .exitReparent t i → r = p := fun hp hr =>
    hk.locks.exclusive (by rw [hr]; rfl) hp
  intro q z ha hpar hz
  rcases hm.calm_or_dozes ht with hcalm | hdoze
  case inr =>
    obtain ⟨k', hk', ha⟩ := ha
    cases hdoze with
    | unlock c p chan k hat =>
      by_cases e : q = p
      · -- the whole scan, and no `wait_lock` released since
        subst e
        simp only [goto, release, update_self, Pc.sleepState.injEq, reduceCtorEq, false_and, or_false] at ha
        obtain ⟨rfl, rfl⟩ := ha
        cases k with
        | code n => cases hk'
        | wait w =>
          refine absurd hz (hseen q NPROC (by rw [hat.pc]; rfl) z (ht.lt ?_) hpar)
          exact hz.trans_ne (by decide)
      · simp only [goto, release, update_of_ne e] at ha
        have := h q z ⟨k', hk', ha⟩ hpar hz
        simp only [goto, release, update_apply]
        grind [At]
    | sched c p chan k hat =>
      have hold : Asleep s q (.proc q) .wait := by
        refine ⟨k', hk', ?_⟩
        simp only [goto, update_apply] at ha
        grind [At]
      simp only [goto, update_apply] at hz ⊢
      have := h q z hold hpar
      grind [At]
  have hold := hcalm.asleep ha
  have hq := h q z hold
  cases hm with
  | idle => exact hq hpar hz
  | die c p status hat hl =>
    simp only [goto, update_apply] at hpar hz ⊢
    by_cases e : z = p
    · subst e
      rcases hwoken z status hat.pc with ⟨i, hi⟩ | ⟨-, x, hx, hlk, hwoke⟩
      · rw [hat.wake] at hi
        cases hi
      · rw [hpar] at hwoke
        exact absurd (hlk ▸ hold) (hk.wakeups.done x hx _ hwoke q)
    · grind [At]
  | adopt c p status i hat hi =>
    have hinit : q = initproc := by
      simp only [goto, update_apply] at hpar hz
      grind
    exact ⟨hinit, p, status, i + 1, 0, by simp [goto], by simp, Nat.zero_le _⟩
  | setParent c p np hat hfree =>
    have hused := ht.made p np (by rw [hat.pc]; rfl)
    simp only [goto, update_apply] at hpar hz ⊢
    grind [At]
  | wakeSlot c p chan i hrun hw hne hl =>
    obtain ⟨rfl, r, t, j, k, hr, hk', hle⟩ := hq (by simpa using hpar) (wakeSlot_zombie.1 hz)
    by_cases e : r = p
    · subst e
      rw [hw] at hk'
      cases hk'
      have hne' : i ≠ initproc := by
        rintro rfl
        exact hk.wakeups.slot ht hl ha
      exact ⟨rfl, r, t, j, i + 1, by simpa using hr, by simp, by omega⟩
    · exact ⟨rfl, r, t, j, k, by simpa using hr, by simpa [update_of_ne e] using hk', hle⟩
  | wakeSkip c p chan hrun hw =>
    obtain ⟨rfl, r, t, j, k, hr, hk', hle⟩ := hq hpar hz
    by_cases e : r = p
    · subst e
      rw [hw] at hk'
      cases hk'
      have hne : r ≠ initproc := by
        rintro rfl
        have := hp.root.2.2.2
        rw [hr] at this
        cases this
      exact ⟨rfl, r, t, j, r + 1, hr, by simp, by omega⟩
    · exact ⟨rfl, r, t, j, k, hr, by simpa [update_of_ne e] using hk', hle⟩
  | wakeDone c p chan i hrun hw hi =>
    obtain ⟨rfl, r, t, j, k, hr, hk', hle⟩ := hq hpar hz
    have hinit : initproc < NPROC := by decide
    have e : r ≠ p := by
      rintro rfl
      rw [hw] at hk'
      cases hk'
      omega
    exact ⟨rfl, r, t, j, k, hr, by simpa [update_of_ne e] using hk', hle⟩
  | reap c p w i havekids hat =>
    simp only [goto, release, freeproc, update_apply] at hpar hz ⊢
    grind [At]
  | alloc c p i hat hi hl hst =>
    have hne : ∀ r t j, s.pc r = .exitReparent t j → r ≠ i := by
      rintro r t j hr rfl
      exact hk.locks.not_unused ht (by rw [hr]; rfl) hst
    simp only [goto, allocate, update_apply] at hpar hz ⊢
    grind [At]
  | call c p a hat hno hcall =>
    simp only [goto, update_apply] at hpar hz ⊢
    cases hcall <;> grind [At]
  | scan c p a b hat hscan =>
    simp only [goto, update_apply] at hpar hz ⊢
    cases hscan <;> grind [At]
  | take c p a lk b hat hfree htake =>
    simp only [goto, acquire, update_apply] at hpar hz ⊢
    cases htake <;> grind [At]
  | devSlot d chan i => simpa using hq (by simpa using hpar) (wakeSlot_zombie.1 hz)
  | _ =>
    simp only [goto, release, ready, acquire, setCpc, dispatch, swtch, freeproc, update_apply]
      at hpar hz ⊢
    grind [At]

structure Waiting (s : Sys) : Prop where
  own : OwnChan s
  seen : Seen s
  woken : ParentWoken s
  zombie : ZombieSeen s

theorem Waiting.boot : Waiting boot where
  own _ _ _ := nofun
  seen _ _ := nofun
  woken _ _ := nofun
  zombie _ _ _ := nofun

theorem Waiting.move (h : Waiting s) (hk : Kernel s) (hp : Parents s) (hm : Move s s') : Waiting s' :=
  ⟨h.own.move hm, h.seen.move hk hm, h.woken.move hk hm, h.zombie.move h.seen h.woken hk hp hm⟩

/-! ## Exits and what `wait` returned -/

structure History (s : Sys) : Prop where
  old : ∀ e ∈ s.exited, e.birth < s.births
  distinct : ∀ p q, s.state p ≠ .unused → s.state q ≠ .unused → s.birth p = s.birth q → p = q
  zombie : ∀ p, s.state p = .zombie → ⟨s.birth p, s.pid p, s.xstate p⟩ ∈ s.exited
  alive : ∀ p, s.state p ≠ .unused → s.state p ≠ .zombie → ∀ e ∈ s.exited, e.birth ≠ s.birth p
  once : (s.exited.map (·.birth)).Nodup
  delivered : ∀ r ∈ s.reaped, r.exit ∈ s.exited ∧ r.parent = some r.caller
  reapedOnce : (s.reaped.map (·.exit.birth)).Nodup
  gone : ∀ p, s.state p ≠ .unused → ∀ r ∈ s.reaped, r.exit.birth ≠ s.birth p

namespace History

theorem boot : History boot where
  old _ := nofun
  distinct p q hp hq _ := by
    simp only [Proc.boot] at hp hq
    grind
  zombie p hp := by
    simp only [Proc.boot] at hp
    split at hp <;> cases hp
  alive _ _ _ _ := nofun
  once := nodup_nil
  delivered _ := nofun
  reapedOnce := nodup_nil
  gone _ _ _ := nofun

section
variable (h : History s)
include h

theorem setState {q : Nat} (st : ProcState) (hold : s.state q ≠ .unused ∧ s.state q ≠ .zombie)
    (hnew : st ≠ .unused ∧ st ≠ .zombie) : History { s with state := update s.state q st } := by
  have hun : ∀ {p}, update s.state q st p ≠ .unused → s.state p ≠ .unused := by
    intro p hp
    by_cases e : p = q
    · rw [e]; exact hold.1
    · rwa [update_of_ne e] at hp
  have hzo : ∀ {p}, update s.state q st p = .zombie ↔ s.state p = .zombie := by
    intro p
    by_cases e : p = q
    · subst e
      rw [update_self]
      exact ⟨fun e => absurd e hnew.2, fun e => absurd e hold.2⟩
    · rw [update_of_ne e]
  exact { h with
    distinct := fun p r hp hr => h.distinct p r (hun hp) (hun hr)
    zombie := fun p hp => h.zombie p (hzo.1 hp)
    alive := fun p hp hz => h.alive p (hun hp) (mt hzo.2 hz)
    gone := fun p hp => h.gone p (hun hp) }

theorem alloc (hp : Parents s) : History (allocate s p i) := by
  have hold : ∀ {q}, q ≠ i → update s.state i .used q ≠ .unused →
      s.state q ≠ .unused ∧ s.birth q < s.births := by
    intro q e hq
    rw [update_of_ne e] at hq
    exact ⟨hq, hp.older q hq⟩
  refine { h with
    old := fun e he => Nat.lt_succ_of_lt (h.old e he), distinct := ?_, zombie := ?_, alive := ?_, gone := ?_ }
  · intro q r hq hr
    simp only [allocate] at hq hr ⊢
    have := h.distinct q r
    grind
  · intro q hq
    obtain ⟨e, hq⟩ := eq_of_update hq (by decide)
    simp only [allocate, update_of_ne e]
    exact h.zombie q hq
  · intro q hq hz x hx
    have := h.old x hx
    simp only [allocate, update_apply] at hq hz ⊢
    split
    · omega
    · rename_i e
      simp only [e, if_false] at hq hz
      exact h.alive q hq hz x hx
  · intro q hq r hr
    have := h.old _ (h.delivered r hr).1
    simp only [allocate, update_apply] at hq ⊢
    split
    · omega
    · rename_i e
      simp only [e, if_false] at hq
      exact h.gone q hq r hr

theorem freeproc (i : Nat) : History (freeproc s i) := by
  have hold : ∀ {q}, (Proc.freeproc s i).state q ≠ .unused → q ≠ i := by
    rintro q hq rfl
    exact hq (by simp [Proc.freeproc])
  refine { h with distinct := ?_, zombie := ?_, alive := ?_, gone := ?_ }
  · intro q r hq hr
    have hqi := hold hq
    have hri := hold hr
    simp only [Proc.freeproc, update_of_ne hqi, update_of_ne hri] at hq hr
    exact h.distinct q r hq hr
  · intro q hq
    have e := hold (hq.trans_ne (by decide))
    simp only [Proc.freeproc, update_of_ne e] at hq ⊢
    exact h.zombie q hq
  · intro q hq hz
    have e := hold hq
    simp only [Proc.freeproc, update_of_ne e] at hq hz
    exact h.alive q hq hz
  · intro q hq
    have e := hold hq
    simp only [Proc.freeproc, update_of_ne e] at hq
    exact h.gone q hq

theorem die (hp : Parents s) (status : BitVec 32) (hst : s.state p = .running) : History { s with
      xstate := update s.xstate p status
      state := update s.state p .zombie
      exited := s.exited ++ [⟨s.birth p, s.pid p, status⟩] } := by
  have hrun : s.state p ≠ .unused ∧ s.state p ≠ .zombie := by rw [hst]; decide
  have hnew := h.alive p hrun.1 hrun.2
  have hun : ∀ {q}, update s.state p .zombie q ≠ .unused → s.state q ≠ .unused := by
    intro q hq
    by_cases e : q = p
    · rw [e]; exact hrun.1
    · rwa [update_of_ne e] at hq
  refine { h with
    old := ?_, distinct := fun q r hq hr => h.distinct q r (hun hq) (hun hr), zombie := ?_, alive := ?_, once := ?_
    delivered := fun r hr => ⟨mem_append_left _ (h.delivered r hr).1, (h.delivered r hr).2⟩
    gone := fun q hq => h.gone q (hun hq) }
  · intro e he
    rcases mem_append.1 he with he | he
    · exact h.old e he
    · rw [mem_singleton.1 he]
      exact hp.older p hrun.1
  · intro q hq
    by_cases e : q = p
    · subst e
      simp
    · simp only [update_of_ne e] at hq ⊢
      exact mem_append_left _ (h.zombie q hq)
  · intro q hq hz e he
    have hne : q ≠ p := by
      rintro rfl
      exact hz (by simp)
    simp only [update_of_ne hne] at hz
    rcases mem_append.1 he with he | he
    · exact h.alive q (hun hq) hz e he
    · rw [mem_singleton.1 he]
      exact fun hb => hne (h.distinct q p (hun hq) hrun.1 hb.symm)
  · rw [map_append, nodup_append]
    refine ⟨h.once, by simp, ?_⟩
    intro b hb b' hb'
    obtain ⟨e, he, rfl⟩ := mem_map.1 hb
    rw [map_singleton, mem_singleton] at hb'
    rw [hb']
    exact hnew e he

/-- `wait` returns a ZOMBIE child, and its slot is free. -/
theorem reap (hst : s.state i = .zombie) (hpar : s.parent i = some p) : History { Proc.freeproc s i with
      reaped := s.reaped ++ [⟨⟨s.birth i, s.pid i, s.xstate i⟩, s.parent i, p⟩] } := by
  have hi : s.state i ≠ .unused := hst.trans_ne (by decide)
  have h1 := h.freeproc i
  refine { h1 with delivered := ?_, reapedOnce := ?_, gone := ?_ }
  · intro r hr
    rcases mem_append.1 hr with hr | hr
    · exact h.delivered r hr
    · rw [mem_singleton.1 hr]
      exact ⟨h.zombie i hst, hpar⟩
  · rw [map_append, nodup_append]
    refine ⟨h.reapedOnce, by simp, ?_⟩
    intro b hb b' hb'
    obtain ⟨r, hr, rfl⟩ := mem_map.1 hb
    rw [map_singleton, mem_singleton] at hb'
    rw [hb']
    exact h.gone i hi r hr
  · intro q hq r hr
    rcases mem_append.1 hr with hr | hr
    · exact h1.gone q hq r hr
    have hne : q ≠ i := by
      rintro rfl
      exact hq (by simp [Proc.freeproc])
    simp only [Proc.freeproc, update_of_ne hne] at hq
    rw [mem_singleton.1 hr]
    exact fun hb => hne (h.distinct q i hq hi hb.symm)

theorem move (hk : Kernel s) (hp : Parents s) (hm : Move s s') : History s' := by
  have ht := hk.table
  cases hm with
  | dispatch c p hc hl hst => exact { h.setState (q := p) .running (by rw [hst]; decide) (by decide) with }
  | yield c p hr hno hl =>
    have hst := (ht.runs_unlocked hr (ht.window_of_free hr hl)).2
    exact { h.setState (q := p) .runnable (by rw [hst]; decide) (by decide) with }
  | wakeSlot _ _ _ i | devSlot _ _ i =>
    unfold wakeSlot
    split
    · rename_i hg
      exact { h.setState (q := i) .runnable (by rw [hg.1]; decide) (by decide) with }
    · exact { h with }
  | killAsleep c p pid i hat hl hst =>
    exact { h.setState (q := i) .runnable (by rw [hst]; decide) (by decide) with }
  | alloc c p i hat hi hl hst => exact { h.alloc hp (p := p) (i := i) with }
  | allocFail c p i hat hl hst => exact { h.freeproc i with }
  | publish c p np hat hl =>
    have hused := ht.made p np (by rw [hat.pc]; rfl)
    exact { h.setState (q := np) .runnable (by rw [hused]; decide) (by decide) with }
  | die c p status hat hl =>
    have hst := (ht.runs_unlocked hat.toRuns (by rw [hat.pc]; rfl)).2
    exact { h.die hp status hst with }
  | reap c p w i havekids hat hpar hl hst => exact { h.reap hst hpar with }
  | sleepState c p chan k hat =>
    have hst := (ht.runs_locked hat.toRuns (by rw [hat.pc]; rfl)).2
    exact { h.setState (q := p) .sleeping (by rw [hst]; decide) (by decide) with }
  | _ => exact { h with }

end

end History

variable {pol : Policy}

theorem Reached.history (h : Reached pol s) : (Kernel s ∧ Parents s) ∧ Waiting s ∧ History s :=
  Reached.inv (I := fun s => (Kernel s ∧ Parents s) ∧ Waiting s ∧ History s)
    ⟨⟨Kernel.boot, Parents.boot⟩, Waiting.boot, History.boot⟩
    (fun _ _ ⟨⟨hk, hp⟩, hw, hh⟩ hm => ⟨⟨hk.move hm, hp.move hk hm⟩, hw.move hk hp hm, hh.move hk hp hm⟩) h

/-- A `copyout` that fails ends `wait` with the ZOMBIE as it was. -/
theorem waitScan_copyout_fails {c : Nat} {w : Wait} {havekids : Bool} (ht : Table s)
    (hat : At s c p (.waitScan w i havekids)) (hpar : s.parent i = some p) (hst : s.state i = .zombie)
    (hs : step s pol (.thread c (.next false)) = .ok s') : s' = goto (release s .wait) p .code := by
  have hi : i < NPROC := ht.lt (hst.trans_ne (by decide))
  simp only [step, hat.cpc, threadStep, hat.sw, hat.wake, pcStep, hat.pc, waitScan, if_pos hi, if_pos hpar,
    if_pos hst] at hs
  split at hs
  · simpa using hs.symm
  · cases hs

/-- **The exit status is delivered once and never overlooked.** In every state reached: no process has exited or has
been returned by `wait` twice; what `wait` returned are the pid and the status of an exit, and its caller was the
parent; a `wait` whose `copyout` fails leaves the ZOMBIE in place; and while `wait_lock` is free, no process sleeps
in `wait` with a ZOMBIE child. -/
theorem exit_delivered_once (h : Reached pol s) :
    (s.exited.map (·.birth)).Nodup ∧ (s.reaped.map (·.exit.birth)).Nodup ∧
    (∀ r ∈ s.reaped, r.exit ∈ s.exited ∧ r.parent = some r.caller) ∧
    (∀ c p w i havekids s', At s c p (.waitScan w i havekids) → s.parent i = some p → s.state i = .zombie →
      step s pol (.thread c (.next false)) = .ok s' →
      s'.state i = .zombie ∧ s'.parent i = some p ∧ s'.pid i = s.pid i ∧ s'.xstate i = s.xstate i ∧
        s'.reaped = s.reaped ∧ Free s' .wait) ∧
    (Free s .wait → ∀ p z ch w, s.state p = .sleeping → s.pc p = .sleepSched ch (.wait w) → s.parent z = some p →
      s.state z ≠ .zombie) := by
  obtain ⟨⟨hk, hp⟩, hw, hh⟩ := h.history
  refine ⟨hh.once, hh.reapedOnce, hh.delivered, ?_, ?_⟩
  · intro c p w i havekids s' hat hpar hst hs
    rw [waitScan_copyout_fails hk.table hat hpar hst hs]
    refine ⟨hst, hpar, rfl, rfl, rfl, fun x hx => ?_⟩
    simpa using (mem_filter.1 hx).2
  · intro hfree p z ch w hst hpc hpar hz
    obtain rfl := hw.own p ch w (by rw [hpc]; rfl)
    obtain ⟨-, r, t, i, k, hr, -⟩ := hw.zombie p z ⟨.wait w, rfl, .inr ⟨hpc, hst⟩⟩ hpar hz
    exact hk.locks.not_free (by rw [hr]; rfl) hfree

/-- The child of `init` exits with status 7 on the second CPU, and `init` waits for it. -/
def exitAndWait : List Event :=
  forkOne ++ [Event.sched 1 1, .sched 1 1, .thread 1 (.next true), .thread 1 (.exit 7)] ++
    List.replicate 134 (Event.thread 1 (.next true)) ++ [Event.sched 1 0, .sched 1 0, .thread 0 (.wait .wait)] ++
    List.replicate 3 (Event.thread 0 (.next true))

theorem exit_delivered_once_to_init :
    (after (fun s e => step s .other e) boot exitAndWait).reaped = [⟨⟨1, 2, 7⟩, some initproc, initproc⟩] ∧
      ⟨1, 2, 7⟩ ∈ (after (fun s e => step s .other e) boot exitAndWait).exited := by
  have hr : Reached .other (after (fun s e => step s .other e) boot exitAndWait) :=
    Reach.of_checked _ (.init rfl) (by decide +kernel)
  have he : (after (fun s e => step s .other e) boot exitAndWait).reaped = [⟨⟨1, 2, 7⟩, some initproc, initproc⟩] := by
    decide +kernel
  refine ⟨he, ((exit_delivered_once hr).2.2.1 ⟨⟨1, 2, 7⟩, some initproc, initproc⟩ ?_).1⟩
  rw [he]
  exact mem_singleton.2 rfl

end Xv6Riscv.Proc
