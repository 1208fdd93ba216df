import Xv6Riscv.Lib.Mutex
import Xv6Riscv.Pipes.Model

/-!
# Pipes are queues

Three things hold in every state: the lock is held by the process that is inside (`Locked`), the ends are closed once
and the page is freed after both (`Ends`), and the ring holds the bytes that were pushed and not yet delivered
(`Flow`). A process that is somewhere in its call makes demands on the rest of the system (`Quiet`, `Claim`), and a
step that asks for no more than the one before keeps them.
-/
namespace Xv6Riscv.Pipes
open Machine Mutex RingBuffer Function

variable {τ : Type} {s s' : Sys τ} {t u : τ} {pc : Pc} {e : End}

/-! ## Places -/

/-- The process holds `pi->lock`. -/
def Pc.holds : Pc → Bool
  | .writeLoop .. | .writeEnd .. | .readWait .. | .readCopy .. | .readEnd .. | .closeEnd .. | .closeTest => true
  | _ => false

/-- The process has closed an end and not yet returned. -/
def Pc.ending : Pc → Bool
  | .closeTest | .closeFree => true
  | _ => false

/-- What a process at this place relies on: nobody else takes bytes out while it copies, and after the end of the
file there is no byte left. -/
def Claim (pi : Pipe) (delivered : List Byte) : Pc → Prop
  | .readCopy _ got => got <:+ delivered ∧ (got = [] → pi.nread = pi.nwrite → pi.writeopen = false)
  | .readEnd n got => got <:+ delivered ∧ (0 < n → got = [] → pi.nread = pi.nwrite ∧ pi.writeopen = false)
  | .readReturn n r => 0 < n → r = 0 → pi.nread = pi.nwrite ∧ pi.writeopen = false
  | _ => True

section
variable (pc : Pc) (e : End)

@[simp] theorem Pc.woken_holds : (pc.woken e).holds = pc.holds := by
  cases pc <;> cases e <;> rfl

@[simp] theorem Pc.woken_refers : (pc.woken e).refers = pc.refers := by
  cases pc <;> cases e <;> rfl

@[simp] theorem Pc.woken_closes : (pc.woken e).closes = pc.closes := by
  cases pc <;> cases e <;> rfl

@[simp] theorem Pc.woken_ending : (pc.woken e).ending = pc.ending := by
  cases pc <;> cases e <;> rfl

@[simp] theorem Pc.woken_eq_closeFree : pc.woken e = .closeFree ↔ pc = .closeFree := by
  cases pc <;> cases e <;> simp [Pc.woken]

end

@[simp] theorem claim_woken (pi : Pipe) (l : List Byte) (pc : Pc) (e : End) :
    Claim pi l (pc.woken e) ↔ Claim pi l pc := by
  cases pc <;> cases e <;> rfl

theorem Claim.of_out {pi pi' : Pipe} {l l' : List Byte} (h : Claim pi l pc) (hout : pc.holds = false)
    (heof : pi.nread = pi.nwrite ∧ pi.writeopen = false → pi'.nread = pi'.nwrite ∧ pi'.writeopen = false) :
    Claim pi' l' pc := by
  cases pc with
  | readCopy n got => cases hout
  | readEnd n got => cases hout
  | readReturn n r => exact fun hn hr => heof (h hn hr)
  | _ => trivial

/-- A place with no more demands on the ends of the pipe than another. -/
structure Quiet (pc pc' : Pc) : Prop where
  refers : ∀ e, pc'.refers = some e → pc.refers = some e
  closes : ∀ e, pc'.closes = some e → pc.closes = some e
  ending : pc'.ending = true → pc.ending = true
  free : pc' = .closeFree → pc = .closeFree

theorem Quiet.refl : Quiet pc pc := ⟨fun _ => id, fun _ => id, id, id⟩

theorem Quiet.woken : Quiet pc (pc.woken e) := ⟨by simp, by simp, by simp, by simp⟩

theorem Quiet.of_none {pc' : Pc} (hr : pc'.refers = none) (hc : pc'.closes = none) (he : pc'.ending = false) :
    Quiet pc pc' := by
  refine ⟨by simp [hr], by simp [hc], by simp [he], ?_⟩
  rintro rfl
  simp [Pc.ending] at he

/-! ## The invariant -/

/-- The lock is held by the process that is inside. -/
def Locked (s : Sys τ) : Prop := Excl s.lock fun t => (s.pc t).holds

/-- Who refers to an end finds it open, only one process closes it, and the page is freed when both are closed. -/
structure Ends (s : Sys τ) : Prop where
  isOpen : ∀ t e, (s.pc t).refers = some e → s.pipe.isOpen e = true
  closer : ∀ t u e, (s.pc t).closes = some e → (s.pc u).refers = some e → u = t
  alone : ∀ t u, (s.pc t).ending = true → (s.pc u).ending = true → t = u
  free : ∀ t, s.pc t = .closeFree → ∀ e, s.pipe.isOpen e = false
  gone : s.freed = true → (∀ e, s.pipe.isOpen e = false) ∧ ∀ t, (s.pc t).ending = false

/-- The ring holds what was pushed and not delivered. -/
structure Flow (s : Sys τ) : Prop where
  ring : ∃ q, s.pushed = s.delivered ++ q ∧ Queued s.pipe.data s.pipe.nread s.pipe.nwrite q
  claims : ∀ t, Claim s.pipe s.delivered (s.pc t)

structure Inv (s : Sys τ) : Prop where
  locked : Locked s
  ends : Ends s
  flow : Flow s

theorem Ends.of_quiet (h : Ends s) (hopen : ∀ e, s'.pipe.isOpen e = s.pipe.isOpen e) (hfreed : s'.freed = s.freed)
    (hq : ∀ u, Quiet (s.pc u) (s'.pc u)) : Ends s' where
  isOpen t e hr := by
    rw [hopen]
    exact h.isOpen t e ((hq t).refers e hr)
  closer t u e hc hr := h.closer t u e ((hq t).closes e hc) ((hq u).refers e hr)
  alone t u ht hu := h.alone t u ((hq t).ending ht) ((hq u).ending hu)
  free t ht e := by
    rw [hopen]
    exact h.free t ((hq t).free ht) e
  gone hf := by
    obtain ⟨hclosed, hnone⟩ := h.gone (hfreed ▸ hf)
    refine ⟨fun e => by rw [hopen, hclosed], fun t => ?_⟩
    by_contra hending
    have := (hq t).ending (by simpa using hending)
    rw [hnone t] at this
    cases this

theorem Inv.wakeup (h : Inv s) (e : End) : Inv (s.wakeup e) where
  locked := by simpa [Locked, Sys.wakeup] using h.locked
  ends := h.ends.of_quiet (fun _ => rfl) rfl fun _ => .woken
  flow := ⟨h.flow.ring, fun t => by simpa [Sys.wakeup] using h.flow.claims t⟩

variable [DecidableEq τ]

theorem Sys.acquire_eq_ok : s.acquire t pc = .ok s' ↔ s.lock = none ∧ s' = { s with lock := some t }.goto t pc := by
  unfold Sys.acquire
  cases s.lock with
  | none => simp [eq_comm]
  | some u => by_cases hu : u = t <;> simp [hu]

theorem Sys.release_eq_ok : s.release t pc = .ok s' ↔ s.lock = some t ∧ s' = { s with lock := none }.goto t pc := by
  unfold Sys.release
  by_cases hl : s.lock = some t <;> simp [hl, eq_comm]

theorem Sys.holds_goto (s : Sys τ) (t : τ) (pc : Pc) :
    (fun u => ((s.goto t pc).pc u).holds) = update (fun u => (s.pc u).holds) t pc.holds := by
  funext u
  by_cases hu : u = t
  · subst hu
    simp [Sys.goto]
  · simp [Sys.goto, update_of_ne hu]

theorem Locked.goto {s₁ : Sys τ} (h : Excl s₁.lock (update (fun u => (s₁.pc u).holds) t pc.holds)) :
    Locked (s₁.goto t pc) := by
  unfold Locked
  rw [Sys.holds_goto]
  exact h

theorem quiet_goto (hq : Quiet (s.pc t) pc) (u : τ) : Quiet (s.pc u) ((s.goto t pc).pc u) := by
  by_cases hu : u = t
  · subst hu
    simpa [Sys.goto] using hq
  · simpa [Sys.goto, update_of_ne hu] using Quiet.refl

theorem claims_goto {pi : Pipe} {l : List Byte} (hc : Claim pi l pc) (hother : ∀ u, u ≠ t → Claim pi l (s.pc u))
    (u : τ) : Claim pi l ((s.goto t pc).pc u) := by
  by_cases hu : u = t
  · subst hu
    simpa [Sys.goto] using hc
  · simpa [Sys.goto, update_of_ne hu] using hother u hu

/-! ## Steps -/

theorem Inv.goto (h : Inv s) (hq : Quiet (s.pc t) pc) (hh : pc.holds = (s.pc t).holds)
    (hc : Claim s.pipe s.delivered pc) : Inv (s.goto t pc) where
  locked := .goto (h.locked.stay hh.symm)
  ends := h.ends.of_quiet (fun _ => rfl) rfl (quiet_goto hq)
  flow := ⟨h.flow.ring, claims_goto hc fun u _ => h.flow.claims u⟩

theorem Inv.acquire (h : Inv s) (hs : s.acquire t pc = .ok s') (hq : Quiet (s.pc t) pc) (hh : pc.holds = true)
    (hc : Claim s.pipe s.delivered pc) : Inv s' := by
  obtain ⟨hlock, rfl⟩ := Sys.acquire_eq_ok.1 hs
  refine ⟨.goto ?_, h.ends.of_quiet (fun _ => rfl) rfl (quiet_goto hq), h.flow.ring,
    claims_goto hc fun u _ => h.flow.claims u⟩
  have hfree := h.locked
  rw [Locked, hlock] at hfree
  rw [hh]
  exact hfree.enter

theorem Inv.release (h : Inv s) (hs : s.release t pc = .ok s') (hq : Quiet (s.pc t) pc) (hh : pc.holds = false)
    (hc : Claim s.pipe s.delivered pc) : Inv s' := by
  obtain ⟨hlock, rfl⟩ := Sys.release_eq_ok.1 hs
  refine ⟨.goto ?_, h.ends.of_quiet (fun _ => rfl) rfl (quiet_goto hq), h.flow.ring,
    claims_goto hc fun u _ => h.flow.claims u⟩
  have hheld := h.locked
  rw [Locked, hlock] at hheld
  rw [hh]
  exact hheld.leave

theorem pipesize_dvd : PIPESIZE ∣ 2 ^ 32 := ⟨2 ^ 23, by decide⟩

theorem pipesize_lt : PIPESIZE < 2 ^ 32 := by decide

theorem Inv.push {user : Nat → Byte} {n : Int} {i : Nat} (h : Inv s) (hpc : s.pc t = .writeLoop user n i)
    (hroom : s.pipe.nwrite ≠ s.pipe.nread + BitVec.ofNat 32 PIPESIZE) (ch : Byte) :
    Inv ({ s with pipe := s.pipe.push ch, pushed := s.pushed ++ [ch] }.goto t (.writeLoop user n (i + 1))) := by
  have hin : (s.pc t).holds = true := by rw [hpc]; rfl
  have hopen : s.pipe.writeopen = true := h.ends.isOpen t .write (by rw [hpc]; rfl)
  obtain ⟨q, hq, hring⟩ := h.flow.ring
  have hlen : q.length < PIPESIZE := lt_of_le_of_ne hring.bound (mt (hring.full_iff pipesize_lt).2 hroom)
  refine ⟨.goto (h.locked.stay hin), ?_, ?_⟩
  · exact h.ends.of_quiet (fun e => by cases e <;> rfl) rfl fun u =>
      quiet_goto (s := s) (by rw [hpc]; exact ⟨fun _ => id, fun _ => id, id, nofun⟩) u
  refine ⟨⟨q ++ [ch], by simp [Sys.goto, hq], hring.push pipesize_dvd hlen ch⟩, claims_goto trivial fun u hu => ?_⟩
  -- a reader that saw the end of the file saw the write end closed
  refine (h.flow.claims u).of_out (h.locked.outside hin hu) fun heof => ?_
  rw [hopen] at heof
  cases heof.2

theorem Inv.pop {n : Int} {got : List Byte} (h : Inv s) (hpc : s.pc t = .readCopy n got)
    (hne : s.pipe.nread ≠ s.pipe.nwrite) :
    Inv ({ s with pipe := s.pipe.pop.2, delivered := s.delivered ++ [s.pipe.pop.1] }.goto t
      (.readCopy n (got ++ [s.pipe.pop.1]))) := by
  have hin : (s.pc t).holds = true := by rw [hpc]; rfl
  obtain ⟨q, hq, hring⟩ := h.flow.ring
  obtain ⟨q', rfl, hring'⟩ := hring.pop pipesize_lt hne
  refine ⟨.goto (h.locked.stay hin), ?_, ?_⟩
  · exact h.ends.of_quiet (fun e => by cases e <;> rfl) rfl fun u =>
      quiet_goto (s := s) (by rw [hpc]; exact ⟨fun _ => id, fun _ => id, id, nofun⟩) u
  have hgot := h.flow.claims t
  rw [hpc] at hgot
  obtain ⟨l, hl⟩ := hgot.1
  refine ⟨⟨q', by simp [Sys.goto, hq, Pipe.pop], hring'⟩, claims_goto ⟨⟨l, ?_⟩, by simp⟩ fun u hu => ?_⟩
  · rw [← List.append_assoc, hl]
    rfl
  · exact (h.flow.claims u).of_out (h.locked.outside hin hu) fun heof => absurd heof.1 hne

@[simp] theorem Pipe.close_isOpen (pi : Pipe) (e e' : End) : (pi.close e).isOpen e' = (pi.isOpen e' && e' != e) := by
  cases e <;> cases e' <;> simp [Pipe.close, Pipe.isOpen]

theorem Inv.close (h : Inv s) (hpc : s.pc t = .closeEnd e) (e' : End) :
    Inv (({ s with pipe := s.pipe.close e }.wakeup e').goto t .closeTest) := by
  have hin : (s.pc t).holds = true := by rw [hpc]; rfl
  have hopen : s.pipe.isOpen e = true := h.ends.isOpen t e (by rw [hpc]; rfl)
  have hother : ∀ {u}, u ≠ t → (s.pc u).ending = false := by
    intro u hu
    have hout := h.locked.outside hin hu
    cases hpu : s.pc u with
    | closeTest =>
      rw [hpu] at hout
      cases hout
    | closeFree =>
      have hclosed := h.ends.free u hpu e
      rw [hopen] at hclosed
      cases hclosed
    | _ => rfl
  have hwoken := (h.wakeup e').locked
  refine ⟨.goto (hwoken.stay ((Pc.woken_holds _ _).trans hin)), ?_, ?_⟩
  · have hlive : s.freed = false := by
      by_contra hf
      have hclosed := (h.ends.gone (by simpa using hf)).1 e
      rw [hopen] at hclosed
      cases hclosed
    have hpc' : ∀ u, u ≠ t → (({ s with pipe := s.pipe.close e }.wakeup e').goto t .closeTest).pc u
      = (s.pc u).woken e' := by
      intro u hu
      simp [Sys.goto, Sys.wakeup, update_of_ne hu]
    have hpt : (({ s with pipe := s.pipe.close e }.wakeup e').goto t .closeTest).pc t = .closeTest := by simp [Sys.goto]
    refine ⟨fun u e'' hr => ?_, fun u v e'' hc hr => ?_, fun u v hu hv => ?_, fun u hu => ?_, fun hf => ?_⟩
    · by_cases hu : u = t
      · subst hu
        rw [hpt] at hr
        cases hr
      rw [hpc' u hu, Pc.woken_refers] at hr
      have hne : e'' ≠ e := by
        rintro rfl
        exact hu (h.ends.closer t u e'' (by rw [hpc]; rfl) hr)
      have := h.ends.isOpen u e'' hr
      simp [Sys.goto, Sys.wakeup, this, hne]
    · by_cases hu : u = t
      · subst hu
        rw [hpt] at hc
        cases hc
      by_cases hv : v = t
      · subst hv
        rw [hpt] at hr
        cases hr
      · rw [hpc' u hu, Pc.woken_closes] at hc
        rw [hpc' v hv, Pc.woken_refers] at hr
        exact h.ends.closer u v e'' hc hr
    · have honly : ∀ x, ((({ s with pipe := s.pipe.close e }.wakeup e').goto t .closeTest).pc x).ending = true →
        x = t := by
        intro x hx
        by_contra hne
        rw [hpc' x hne, Pc.woken_ending, hother hne] at hx
        cases hx
      rw [honly u hu, honly v hv]
    · by_cases hne : u = t
      · subst hne
        rw [hpt] at hu
        cases hu
      · rw [hpc' u hne, Pc.woken_eq_closeFree] at hu
        have := hother hne
        rw [hu] at this
        cases this
    · rw [hlive] at hf
      cases hf
  · refine ⟨?_, claims_goto trivial fun u hu => ?_⟩
    · have hring := h.flow.ring
      cases e <;> exact hring
    refine (claim_woken _ _ _ _).2 ((h.flow.claims u).of_out (h.locked.outside hin hu) ?_)
    rintro ⟨heq, hw⟩
    cases e with
    | read => exact ⟨heq, hw⟩
    | write => exact ⟨heq, rfl⟩

theorem Inv.last (h : Inv s) (hpc : s.pc t = .closeTest) (hboth : s.pipe.readopen = false ∧ s.pipe.writeopen = false)
    (hs : s.release t .closeFree = .ok s') : Inv s' := by
  have hclosed : ∀ e, s.pipe.isOpen e = false := by
    intro e
    cases e with
    | read => exact hboth.1
    | write => exact hboth.2
  have hnone : ∀ u e, (s.pc u).refers ≠ some e := by
    intro u e hr
    have := h.ends.isOpen u e hr
    rw [hclosed] at this
    cases this
  obtain ⟨hlock, rfl⟩ := Sys.release_eq_ok.1 hs
  have hending : ∀ u, (({ s with lock := none }.goto t .closeFree).pc u).ending = (s.pc u).ending := by
    intro u
    by_cases hu : u = t
    · subst hu
      simp [Sys.goto, hpc, Pc.ending]
    · simp [Sys.goto, update_of_ne hu]
  have hrefers : ∀ u e, (({ s with lock := none }.goto t .closeFree).pc u).refers ≠ some e := by
    intro u e
    by_cases hu : u = t
    · subst hu
      simp [Sys.goto, Pc.refers]
    · simpa [Sys.goto, update_of_ne hu] using hnone u e
  refine ⟨.goto ?_, ⟨fun u e hr => absurd hr (hrefers u e), fun u v e _ hr => absurd hr (hrefers v e), ?_,
    fun _ _ => hclosed, ?_⟩, h.flow.ring, claims_goto trivial fun u _ => h.flow.claims u⟩
  · have hheld := h.locked
    rw [Locked, hlock] at hheld
    exact hheld.leave
  · intro u v hu hv
    rw [hending] at hu hv
    exact h.ends.alone u v hu hv
  · intro hf
    have := (h.ends.gone hf).2 t
    rw [hpc] at this
    cases this

theorem Inv.kfree (h : Inv s) (hpc : s.pc t = .closeFree) : Inv ({ s with freed := true }.goto t .idle) := by
  have hclosed := h.ends.free t hpc
  have hq : ∀ u, Quiet (s.pc u) (({ s with freed := true }.goto t .idle).pc u) :=
    quiet_goto (s := s) (.of_none rfl rfl rfl)
  have hnone : ∀ u, (({ s with freed := true }.goto t .idle).pc u).ending = false := by
    intro u
    by_cases hu : u = t
    · subst hu
      simp [Sys.goto, Pc.ending]
    · by_contra hend
      have := h.ends.alone u t ((hq u).ending (by simpa using hend)) (by rw [hpc]; rfl)
      exact hu this
  refine ⟨.goto (h.locked.stay (by rw [hpc]; rfl)), ⟨fun u e hr => h.ends.isOpen u e ((hq u).refers e hr),
    fun u v e hc hr => h.ends.closer u v e ((hq u).closes e hc) ((hq v).refers e hr), fun u v hu _ => ?_,
      fun _ _ => hclosed,
    fun _ => ⟨hclosed, hnone⟩⟩, h.flow.ring, claims_goto trivial fun u _ => h.flow.claims u⟩
  rw [hnone] at hu
  cases hu

theorem Pc.refers_of_closes (h : pc.closes = some e) : pc.refers = some e := by
  cases pc <;> first | exact h | cases h

omit [DecidableEq τ] in
/-- Who makes a call finds the end open, and nobody about to close it. -/
theorem Referenced.entry {c : Call} (h : Referenced s (.start t c)) (hr : c.entry.refers = some e) :
    s.pipe.isOpen e = true ∧ ∀ u, (s.pc u).closes ≠ some e := by
  cases c with
  | write user n =>
    cases hr
    exact h
  | read n =>
    cases hr
    exact h
  | close e' =>
    cases hr
    exact ⟨h.1, fun u hc => h.2 u (Pc.refers_of_closes hc)⟩

omit [DecidableEq τ] in
theorem Referenced.closer {c : Call} (h : Referenced s (.start t c)) (hc : c.entry.closes = some e) :
    ∀ u, (s.pc u).refers ≠ some e := by
  cases c with
  | write user n => cases hc
  | read n => cases hc
  | close e' =>
    cases hc
    exact h.2

theorem Inv.start {c : Call} (h : Inv s) (hidle : s.pc t = .idle) (hok : Referenced s (.start t c)) :
    Inv (s.goto t c.entry) := by
  have hpc : ∀ u, u ≠ t → (s.goto t c.entry).pc u = s.pc u := fun u hu => by simp [Sys.goto, update_of_ne hu]
  have hpt : (s.goto t c.entry).pc t = c.entry := by simp [Sys.goto]
  have hend : c.entry.ending = false := by cases c <;> rfl
  have hquiet : ∀ u, ((s.goto t c.entry).pc u).ending = true → u ≠ t ∧ (s.pc u).ending = true := by
    intro u hu
    by_cases hut : u = t
    · subst hut
      rw [hpt, hend] at hu
      cases hu
    · rw [hpc u hut] at hu
      exact ⟨hut, hu⟩
  refine ⟨.goto (h.locked.stay (by rw [hidle]; cases c <;> rfl)), ⟨fun u e hr => ?_, fun u v e hc hr => ?_, ?_, ?_, ?_⟩,
    h.flow.ring, claims_goto (by cases c <;> trivial) fun u _ => h.flow.claims u⟩
  · by_cases hu : u = t
    · subst hu
      rw [hpt] at hr
      exact (hok.entry hr).1
    · rw [hpc u hu] at hr
      exact h.ends.isOpen u e hr
  · by_cases hu : u = t
    · subst hu
      rw [hpt] at hc
      by_contra hv
      rw [hpc v hv] at hr
      exact hok.closer hc v hr
    · rw [hpc u hu] at hc
      by_cases hv : v = t
      · subst hv
        rw [hpt] at hr
        exact absurd hc ((hok.entry hr).2 u)
      · rw [hpc v hv] at hr
        exact h.ends.closer u v e hc hr
  · intro u v hu hv
    exact h.ends.alone u v (hquiet u hu).2 (hquiet v hv).2
  · intro u hu
    have hut := (hquiet u (by rw [hu]; rfl)).1
    rw [hpc u hut] at hu
    exact h.ends.free u hu
  · intro hf
    obtain ⟨hclosed, hnone⟩ := h.ends.gone hf
    refine ⟨hclosed, fun u => ?_⟩
    by_contra hu
    have := (hquiet u (by simpa using hu)).2
    rw [hnone] at this
    cases this

theorem Quiet.of_same {pc₀ pc' : Pc} (hpc : pc₀ = pc) (hr : pc'.refers = pc.refers) (hc : pc'.closes = pc.closes)
    (he : pc'.ending = false) : Quiet pc₀ pc' := by
  subst hpc
  refine ⟨by simp [hr], by simp [hc], by simp [he], ?_⟩
  rintro rfl
  simp [Pc.ending] at he

section
variable (h : Inv s) (hpc : s.pc t = pc)
include h hpc

theorem Inv.pipewrite (hs : pipewrite s t pc = .ok s') : Inv s' := by
  cases pc with
  | writeEntry user n => exact h.acquire hs (.of_same hpc rfl rfl rfl) rfl trivial
  | writeWoken user n i => exact h.acquire hs (.of_same hpc rfl rfl rfl) rfl trivial
  | writeLoop user n i =>
    simp only [Pipes.pipewrite] at hs
    split_ifs at hs with hn hstop hfull
    · exact h.release hs (.of_none rfl rfl rfl) rfl trivial
    · have hpc' : (s.wakeup .read).pc t = .writeLoop user n i := by simp [Sys.wakeup, hpc, Pc.woken]
      exact (h.wakeup .read).release hs (.of_same hpc' rfl rfl rfl) rfl trivial
    · cases hs
      exact h.push hpc hfull (user i)
    · cases hs
      exact h.goto (.of_same hpc rfl rfl rfl) (by rw [hpc]; rfl) trivial
  | writeEnd i =>
    exact (h.wakeup .read).release hs (.of_none rfl rfl rfl) rfl trivial
  | _ => cases hs

theorem Inv.piperead (hs : piperead s t pc = .ok s') : Inv s' := by
  have hclaim := h.flow.claims t
  rw [hpc] at hclaim
  cases pc with
  | readEntry n => exact h.acquire hs (.of_same hpc rfl rfl rfl) rfl trivial
  | readWoken n => exact h.acquire hs (.of_same hpc rfl rfl rfl) rfl trivial
  | readWait n =>
    simp only [Pipes.piperead] at hs
    split_ifs at hs with hempty hkill
    · exact h.release hs (.of_none rfl rfl rfl) rfl fun _ hr => by cases hr
    · exact h.release hs (.of_same hpc rfl rfl rfl) rfl trivial
    · cases hs
      refine h.goto (.of_same hpc rfl rfl rfl) (by rw [hpc]; rfl) ⟨List.nil_suffix, fun _ heq => ?_⟩
      by_contra hw
      exact hempty ⟨heq, by simpa using hw⟩
  | readCopy n got =>
    simp only [Pipes.piperead] at hs
    split_ifs at hs with hn hempty
    · cases hs
      refine h.goto (.of_same hpc rfl rfl rfl) (by rw [hpc]; rfl) ⟨hclaim.1, fun _ hgot => ?_⟩
      exact ⟨hempty, hclaim.2 hgot hempty⟩
    · cases hs
      exact h.pop hpc hempty
    · cases hs
      refine h.goto (.of_same hpc rfl rfl rfl) (by rw [hpc]; rfl) ⟨hclaim.1, fun hpos hgot => ?_⟩
      rw [hgot] at hn
      exact absurd hpos hn
  | readEnd n got =>
    refine (h.wakeup .write).release hs (.of_none rfl rfl rfl) rfl fun hpos hr => hclaim.2 hpos ?_
    simpa using hr
  | _ => cases hs

theorem Inv.pipeclose (hs : pipeclose s t pc = .ok s') : Inv s' := by
  cases pc with
  | closeEntry e => exact h.acquire hs (.of_same hpc rfl rfl rfl) rfl trivial
  | closeEnd e =>
    cases e <;> cases hs
    · exact h.close hpc .write
    · exact h.close hpc .read
  | closeTest =>
    simp only [Pipes.pipeclose] at hs
    split_ifs at hs with hboth
    · exact h.last hpc hboth hs
    · exact h.release hs (.of_none rfl rfl rfl) rfl trivial
  | closeFree =>
    cases hs
    exact h.kfree hpc
  | _ => cases hs

theorem Inv.next (hs : next s t pc = .ok s') : Inv s' := by
  cases pc with
  | idle | writeSleep user n i | readSleep n => cases hs
  | writeReturn r | readReturn n r =>
    cases hs
    exact h.goto (.of_none rfl rfl rfl) (by rw [hpc]; rfl) trivial
  | writeEntry user n | writeLoop user n i | writeWoken user n i | writeEnd i => exact h.pipewrite hpc hs
  | readEntry n | readWait n | readWoken n | readCopy n got | readEnd n got => exact h.piperead hpc hs
  | closeEntry e | closeEnd e | closeTest | closeFree => exact h.pipeclose hpc hs

end

theorem Inv.step {ev : Event τ} (h : Inv s) (hok : Referenced s ev) (hs : step s ev = .ok s') : Inv s' := by
  cases ev with
  | start t c =>
    simp only [Pipes.step] at hs
    split at hs
    · rename_i hidle
      cases hs
      exact h.start hidle hok
    · cases hs
  | next t =>
    simp only [Pipes.step] at hs
    split_ifs at hs
    exact h.next rfl hs
  | kill t =>
    cases hs
    have hinv : Inv { s with killed := update s.killed t true } :=
      ⟨h.locked, ⟨h.ends.isOpen, h.ends.closer, h.ends.alone, h.ends.free, h.ends.gone⟩, h.flow.ring, h.flow.claims⟩
    refine hinv.goto ⟨by simp, by simp, by simp, by simp⟩ (by simp) ?_
    simpa using h.flow.claims t

omit [DecidableEq τ] in
theorem Inv.live (h : Inv s) (ht : (s.pc t).touches = true) : s.freed = false := by
  by_contra hf
  obtain ⟨hclosed, hnone⟩ := h.ends.gone (by simpa using hf)
  have hrefers : ∀ e, (s.pc t).refers ≠ some e := by
    intro e hr
    have := h.ends.isOpen t e hr
    rw [hclosed] at this
    cases this
  have hend := hnone t
  -- a step that uses the pipe is one of a call with a reference, or of the last one to close an end
  cases hpc : s.pc t <;> rw [hpc] at ht hend hrefers <;> simp_all [Pc.touches, Pc.ending, Pc.refers]

theorem acquire_ne_halt {p : Panic} (h : Inv s) (ht : (s.pc t).holds = false) : s.acquire t pc ≠ .halt p := by
  have hlock := mt (h.locked t).1 (by simp [ht])
  unfold Sys.acquire
  cases hl : s.lock with
  | none => nofun
  | some u =>
    have hu : u ≠ t := by
      rintro rfl
      exact hlock hl
    simp [hu]

theorem release_ne_halt {p : Panic} (h : Inv s) (ht : (s.pc t).holds = true) : s.release t pc ≠ .halt p := by
  simp [Sys.release, (h.locked t).2 ht]

theorem Inv.no_panic {ev : Event τ} {p : Panic} (h : Inv s) : Pipes.step s ev ≠ .halt p := by
  cases ev with
  | start t c =>
    simp only [Pipes.step]
    split <;> nofun
  | kill t => nofun
  | next t =>
    have hrel : ∀ {e pc'}, (s.pc t).holds = true → (s.wakeup e).release t pc' ≠ .halt p := fun ht =>
      release_ne_halt (h.wakeup _) (by simpa [Sys.wakeup] using ht)
    simp only [Pipes.step]
    split_ifs with hf
    · simp only [Bool.and_eq_true] at hf
      rw [h.live hf.2] at hf
      cases hf.1
    cases hpc : s.pc t with
    | writeEntry user n | writeWoken user n i | readEntry n | readWoken n | closeEntry e =>
      exact acquire_ne_halt h (by rw [hpc]; rfl)
    | writeEnd i | readEnd n got => exact hrel (by rw [hpc]; rfl)
    | writeLoop user n i =>
      simp only [Pipes.next, Pipes.pipewrite]
      split_ifs
      · exact release_ne_halt h (by rw [hpc]; rfl)
      · exact hrel (by rw [hpc]; rfl)
      · nofun
      · nofun
    | readWait n =>
      simp only [Pipes.next, Pipes.piperead]
      split_ifs
      · exact release_ne_halt h (by rw [hpc]; rfl)
      · exact release_ne_halt h (by rw [hpc]; rfl)
      · nofun
    | readCopy n got =>
      simp only [Pipes.next, Pipes.piperead]
      split_ifs <;> nofun
    | closeTest =>
      simp only [Pipes.next, Pipes.pipeclose]
      split_ifs <;> exact release_ne_halt h (by rw [hpc]; rfl)
    | closeEnd e => cases e <;> nofun
    | _ => nofun

omit [DecidableEq τ] in
theorem Init.inv (h : Init s) : Inv s where
  locked := fun t => by simp [h.lock, h.idle, Pc.holds]
  ends := by
    refine ⟨fun t e hr => h.isOpen e, fun t u e hc => ?_, fun t u ht => ?_, fun t ht => ?_, fun hf => ?_⟩
    · simp [h.idle, Pc.closes] at hc
    · simp [h.idle, Pc.ending] at ht
    · simp [h.idle] at ht
    · simp [h.freed] at hf
  flow := by
    refine ⟨⟨[], by simp [h.pushed, h.delivered], ?_⟩, fun t => by simp [h.idle, Claim]⟩
    rw [h.counters]
    exact .empty _ _

theorem inv_of_reach (h : Reach step Init Referenced s) : Inv s :=
  h.inv (fun _ h => h.inv) fun _ _ _ h hok hs => h.step hok hs

/-- **Pipes are FIFO and lossless.** Whatever the interleaving, and wherever the counters start and wrap: the bytes
delivered are a prefix of the bytes pushed; the bytes in between are counted by `nwrite - nread`, and at most
`PIPESIZE`; a reader that asked for bytes and is about to return 0 has found the write end closed and everything
delivered; what one call has copied out so far are the last bytes that were delivered; and nothing panics or uses a
freed pipe. -/
theorem pipe_fifo (h : Reach step Init Referenced s) :
    s.delivered <+: s.pushed ∧
    s.pushed.length = s.delivered.length + (s.pipe.nwrite - s.pipe.nread).toNat ∧
    (s.pipe.nwrite - s.pipe.nread).toNat ≤ PIPESIZE ∧
    (∀ t n, s.pc t = .readReturn n 0 → 0 < n → s.pipe.writeopen = false ∧ s.delivered = s.pushed) ∧
    (∀ t n got, s.pc t = .readEnd n got → got <:+ s.delivered) ∧
    ∀ ev p, step s ev ≠ .halt p := by
  have hinv := inv_of_reach h
  obtain ⟨q, hq, hring⟩ := hinv.flow.ring
  have hlen := hring.length_eq pipesize_lt
  refine ⟨⟨q, hq.symm⟩, by rw [hq, List.length_append, hlen], by rw [hlen]; exact hring.bound, ?_, ?_, ?_⟩
  · intro t n hpc hn
    have hc := hinv.flow.claims t
    rw [hpc] at hc
    obtain ⟨heq, hw⟩ := hc hn rfl
    refine ⟨hw, ?_⟩
    rw [hq, (hring.eq_nil_iff pipesize_lt).1 heq, List.append_nil]
  · intro t n got hpc
    have hc := hinv.flow.claims t
    rw [hpc] at hc
    exact hc.1
  · exact fun ev p => hinv.no_panic

/-- A new pipe whose counters are about to wrap. -/
def fresh : Sys (Fin 2) where
  pipe := { data := fun _ => 0, nread := 0xFFFFFFFF, nwrite := 0xFFFFFFFF, readopen := true, writeopen := true }
  lock := none
  freed := false
  killed := fun _ => false
  pc := fun _ => .idle
  pushed := []
  delivered := []

theorem fresh_init : Init fresh := ⟨rfl, fun e => by cases e <;> rfl, rfl, rfl, fun _ => rfl, rfl, rfl⟩

/-- A byte is written, the write end is closed, and two reads find the byte and the end of the file. -/
def wrapRun : List (Event (Fin 2)) :=
  Event.start 0 (.write (fun _ => 7) 1) :: List.replicate 5 (Event.next 0) ++
    Event.start 0 (.close .write) :: List.replicate 3 (Event.next 0) ++
    Event.start 1 (.read 4) :: List.replicate 6 (Event.next 1) ++
    Event.start 1 (.read 4) :: List.replicate 4 (Event.next 1)

theorem pipe_fifo_wraps :
    (after step fresh wrapRun).pc 1 = .readReturn 4 0 ∧ (after step fresh wrapRun).pipe.nwrite = 0 ∧
      (after step fresh wrapRun).pipe.writeopen = false ∧
      (after step fresh wrapRun).delivered = (after step fresh wrapRun).pushed := by
  have hreach : Reach step Init Referenced (after step fresh wrapRun) :=
    Reach.of_checked wrapRun (.init fresh_init) (by decide +kernel)
  have hpc : (after step fresh wrapRun).pc 1 = .readReturn 4 0 := rfl
  obtain ⟨-, -, -, heof, -⟩ := pipe_fifo hreach
  exact ⟨hpc, by decide +kernel, heof 1 4 hpc (by decide)⟩

end Xv6Riscv.Pipes
