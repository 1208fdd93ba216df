import Xv6Riscv.Log.Recovery

/-!
# Crash atomicity

A group is committed when no operation is running, so an operation is in one group with all its writes or in
none (`Ops`). Together with the disk invariant: whenever recovery completes, the home blocks are those of the
committed groups (`crash_atomic`). An operation that ends while others of its group still run returns before
the commit, and a crash may still lose it (`returned_not_durable`).
-/
namespace Xv6Riscv.Log
open Machine Layout List

/-- The current group is not committed yet. -/
def Pc.filling : Pc → Bool
  | .idle | .writeLog _ | .writeHead => true
  | _ => false

/-- Between the last `end_op` of a group and the end of its commit. -/
def Pc.commit : Pc → Bool
  | .writeLog _ | .writeHead | .install false _ | .clear false | .done => true
  | _ => false

theorem Pc.eq_idle {q : Pc} (hr : q.recovering = false) (hc : q.commit = false) : q = .idle := by
  cases q with
  | idle => rfl
  | install recovering _ | clear recovering => cases recovering <;> simp_all [recovering, commit]
  | _ => simp_all [recovering, commit]

structure Ops (s : Sys) : Prop where
  outstanding : s.outstanding = s.active.length
  committing : s.committing = s.pc.commit
  idle : s.pc ≠ .idle → s.active = []
  none : s.pc.recovering = true → s.ended = []
  nodup : s.active.Nodup
  apart : ∀ o ∈ s.active, o ∉ s.ended ∧ o ∉ s.durable
  fresh : ∀ o, s.nextop ≤ o → o ∉ s.active ∧ o ∉ s.ended ∧ o ∉ s.durable ∧ writesOf o s.all = [] ∧ Absent s o
  current : ∀ o, o ∉ s.active → o ∉ s.ended → writesOf o s.cur = []
  pending : s.pc.filling = true → ∀ o, o ∈ s.active ∨ o ∈ s.ended → writesOf o s.cur = writesOf o s.all ∧ Absent s o
  committed : s.pc.filling = false → ∀ o ∈ s.ended, Present s o
  whole : ∀ o, Present s o ∨ Absent s o
  durable : ∀ o ∈ s.durable, Present s o

theorem writesOf_append (o : Nat) (ws vs : List Write) : writesOf o (ws ++ vs) = writesOf o ws ++ writesOf o vs :=
  filter_append ..

theorem writesOf_other {o : Nat} {w : Write} (h : w.op ≠ o) : writesOf o [w] = [] := by simp [writesOf, h]

variable {g : Geometry} {d : Nat → Bytes} {s s' : Sys}

section
variable (h : Ops s)
include h

/-- `begin_op` finds the commit over by the flag alone. -/
theorem Ops.admits (hr : s.pc.recovering = false) (hc : s.committing = false) : s.pc = .idle :=
  Pc.eq_idle hr (h.committing ▸ hc)

theorem beginOp_ops (hs : beginOp s = .ok s') : Ops s' := by
  unfold beginOp at hs
  split at hs
  on_goal 2 => cases hs
  rename_i hguard
  cases hs
  obtain ⟨ha, he, hd, hw, habs⟩ := h.fresh s.nextop (Nat.le_refl _)
  exact {
    outstanding := by simp [h.outstanding]
    committing := h.committing
    idle := fun hpc => absurd (h.admits hguard.1 hguard.2.1) hpc
    none := h.none
    nodup := nodup_cons.2 ⟨ha, h.nodup⟩
    apart := by
      intro o ho
      rcases mem_cons.1 ho with rfl | ho
      · exact ⟨he, hd⟩
      · exact h.apart o ho
    fresh := by
      intro o ho
      obtain ⟨h1, h2, h3, h4, h5⟩ := h.fresh o (by simp only at ho; omega)
      refine ⟨?_, h2, h3, h4, h5⟩
      simp only [mem_cons, not_or]
      exact ⟨by simp only at ho; omega, h1⟩
    current := fun o ho => h.current o fun hm => ho (mem_cons_of_mem _ hm)
    pending := by
      intro hf o ho
      by_cases e : o = s.nextop
      · subst e
        exact ⟨(h.current _ ha he).trans hw.symm, habs⟩
      · refine h.pending hf o (ho.imp_left fun ho => ?_)
        exact (mem_cons.1 ho).resolve_left e
    committed := h.committed
    whole := h.whole
    durable := h.durable }

theorem logWrite_ops {o b : Nat} {v : Bytes} (hpc : s.pc = .idle) (hs : logWrite g s o b v = .ok s') :
    Ops s' := by
  obtain ⟨hguard, -, rfl⟩ := logWrite_eq_ok hs
  -- the other operations have the writes they had
  have hother : ∀ p, p ≠ o → ∀ ws, writesOf p (ws ++ [⟨o, b, v⟩]) = writesOf p ws := by
    intro p hp ws
    rw [writesOf_append, writesOf_other (w := ⟨o, b, v⟩) (Ne.symm hp), append_nil]
  have hpending := h.pending (by rw [hpc]; rfl)
  have hne : ∀ p, p ∈ s.ended ∨ p ∈ s.durable → p ≠ o := by
    rintro p hp rfl
    have := h.apart p hguard.1
    exact hp.elim this.1 this.2
  have hpresent : ∀ p, p ≠ o → Present s p → writesOf p (s.all ++ [⟨o, b, v⟩]) = [] ∨
      ∃ gr ∈ s.groups, writesOf p gr = writesOf p (s.all ++ [⟨o, b, v⟩]) := by
    intro p hp hpres
    rw [hother p hp]
    exact hpres
  exact {
    outstanding := h.outstanding
    committing := h.committing
    idle := fun hq => absurd hpc hq
    none := h.none
    nodup := h.nodup
    apart := h.apart
    fresh := by
      intro p hp
      obtain ⟨h1, h2, h3, h4, h5⟩ := h.fresh p hp
      have hpo : p ≠ o := by rintro rfl; exact h1 hguard.1
      exact ⟨h1, h2, h3, (hother p hpo _).trans h4, h5⟩
    current := by
      intro p hp he
      have hpo : p ≠ o := by rintro rfl; exact hp hguard.1
      exact (hother p hpo _).trans (h.current p hp he)
    pending := by
      intro _ p hp
      obtain ⟨h1, h2⟩ := hpending p hp
      exact ⟨by rw [writesOf_append, writesOf_append, h1], h2⟩
    committed := fun hf => by rw [hpc] at hf; cases hf
    whole := by
      intro p
      by_cases e : p = o
      · subst e; exact .inr (hpending p (.inl hguard.1)).2
      · exact (h.whole p).imp_left (hpresent p e)
    durable := fun p hp => hpresent p (hne p (.inr hp)) (h.durable p hp) }

theorem endOp_ops {o : Nat} (hpc : s.pc = .idle) (hcur : s.lh = [] → s.cur = [])
    (hs : endOp s o = .ok s') : Ops s' := by
  obtain ⟨ho, hs⟩ := endOp_eq_ok hs
  have hlen : s.active.length - 1 = (s.active.erase o).length := (length_erase_of_mem ho).symm
  have hmem : ∀ p, p ∈ s.active.erase o ∨ p ∈ s.ended ++ [o] ↔ p ∈ s.active ∨ p ∈ s.ended := by
    intro p
    by_cases e : p = o
    · subst e; simp [ho]
    · simp [e]
  have hpending := h.pending (by rw [hpc]; rfl)
  have hfresh : ∀ p, s.nextop ≤ p → p ∉ s.active.erase o ∧ p ∉ s.ended ++ [o] ∧ p ∉ s.durable ∧
      writesOf p s.all = [] ∧ Absent s p := by
    intro p hp
    obtain ⟨h1, h2, h3, h4, h5⟩ := h.fresh p hp
    have hpo : p ≠ o := by rintro rfl; exact h1 ho
    exact ⟨fun hm => h1 (mem_of_mem_erase hm), by simp [h2, hpo], h3, h4, h5⟩
  have hapart : ∀ p ∈ s.active.erase o, p ∉ s.ended ++ [o] ∧ p ∉ s.durable := by
    intro p hp
    obtain ⟨hpo, hp⟩ := h.nodup.mem_erase_iff.1 hp
    exact ⟨by simp [(h.apart p hp).1, hpo], (h.apart p hp).2⟩
  have hcurrent : ∀ p, p ∉ s.active.erase o → p ∉ s.ended ++ [o] → writesOf p s.cur = [] := by
    intro p h1 h2
    have := not_or.2 ⟨h1, h2⟩
    rw [hmem, not_or] at this
    exact h.current p this.1 this.2
  obtain ⟨hzero, rfl⟩ | ⟨-, rfl⟩ := hs
  · have hnil : s.active.erase o = [] := by
      rw [h.outstanding, hlen] at hzero
      exact length_eq_zero_iff.1 hzero
    exact {
      outstanding := by rw [hnil]; exact hzero
      committing := by split <;> rfl
      idle := fun _ => hnil
      none := fun hq => by
        split at hq <;> cases hq
      nodup := h.nodup.erase o
      apart := hapart
      fresh := hfresh
      current := hcurrent
      pending := fun _ p hp => hpending p ((hmem p).1 hp)
      committed := by
        -- nothing was logged, so the operation wrote nothing
        intro hf p hp
        have hlh : s.lh = [] := by
          by_contra hne
          have : 0 < s.lh.length := length_pos_iff.2 hne
          simp [this, Pc.filling] at hf
        have h1 := (hpending p ((hmem p).1 (.inr hp))).1
        rw [hcur hlh] at h1
        exact .inl h1.symm
      whole := h.whole
      durable := h.durable }
  · exact {
      outstanding := by rw [h.outstanding]; exact hlen
      committing := h.committing
      idle := fun hq => absurd hpc hq
      none := fun hq => by rw [hpc] at hq; cases hq
      nodup := h.nodup.erase o
      apart := hapart
      fresh := hfresh
      current := hcurrent
      pending := fun _ p hp => hpending p ((hmem p).1 hp)
      committed := fun hf => by rw [hpc] at hf; cases hf
      whole := h.whole
      durable := h.durable }

/-- The header write moves the pending operations to a committed group. -/
theorem writeHeadStep_ops (hpc : s.pc = .writeHead) : Ops (writeHeadStep g s) := by
  have hact : s.active = [] := h.idle (by rw [hpc]; nofun)
  have hpending := h.pending (by rw [hpc]; rfl)
  have hpresent : ∀ o, Present s o → Present (writeHeadStep g s) o := by
    intro o ho
    refine ho.imp_right ?_
    rintro ⟨gr, hm, hgr⟩
    exact ⟨gr, mem_append_left _ hm, hgr⟩
  have hcur : ∀ o, o ∉ s.ended → writesOf o s.cur = [] := by
    intro o ho
    exact h.current o (by rw [hact]; simp) ho
  have habsent : ∀ o, o ∉ s.ended → Absent s o → Absent (writeHeadStep g s) o := by
    intro o ho habs gr hm
    rcases mem_append.1 hm with hm | hm
    · exact habs gr hm
    · rw [mem_singleton.1 hm]; exact hcur o ho
  have hended : ∀ o ∈ s.ended, Present (writeHeadStep g s) o := by
    intro o ho
    exact .inr ⟨s.cur, mem_append_right _ (mem_singleton.2 rfl), (hpending o (.inr ho)).1⟩
  exact {
    outstanding := h.outstanding
    committing := h.committing.trans (by rw [hpc]; rfl)
    idle := fun _ => hact
    none := nofun
    nodup := h.nodup
    apart := h.apart
    fresh := by
      intro o ho
      obtain ⟨h1, h2, h3, h4, h5⟩ := h.fresh o ho
      exact ⟨h1, h2, h3, h4, habsent o h2 h5⟩
    current := fun _ _ _ => rfl
    pending := nofun
    committed := fun _ => hended
    whole := by
      intro o
      by_cases ho : o ∈ s.ended
      · exact .inl (hended o ho)
      · exact (h.whole o).imp (hpresent o) (habsent o ho)
    durable := fun o ho => hpresent o (h.durable o ho) }

theorem Ops.goto {disk : Nat → Bytes} {cache : Nat → Option Bytes} {pins lh : List Nat} {pc : Pc}
    (hact : s.active = []) (hfill : pc.filling = s.pc.filling) (hrec : pc.recovering = s.pc.recovering)
    (hcom : pc.commit = s.pc.commit) :
    Ops { s with disk := disk, cache := cache, pins := pins, lh := lh, pc := pc } :=
  { h with
    committing := h.committing.trans hcom.symm
    idle := fun _ => hact
    none := fun hr => h.none (hrec ▸ hr)
    pending := fun hf => h.pending (hfill ▸ hf)
    committed := fun hf => h.committed (hfill ▸ hf) }

theorem diskStep_ops (hcur : s.pc = .done → s.cur = []) (hs : diskStep g s = .ok s') : Ops s' := by
  have hact : s.active = [] := h.idle fun hq => by
    rw [diskStep, hq] at hs
    cases hs
  unfold diskStep at hs
  cases hq : s.pc <;> rw [hq] at hs <;> simp only at hs
  case idle => cases hs
  case writeLog => split at hs <;> cases hs <;> exact h.goto hact (by rw [hq]; rfl) (by rw [hq]; rfl) (by rw [hq]; rfl)
  case writeHead =>
    cases hs
    exact writeHeadStep_ops h hq
  case install recovering _ =>
    split at hs <;> cases hs <;> cases recovering <;>
      exact h.goto hact (by rw [hq]; rfl) (by rw [hq]; rfl) (by rw [hq]; rfl)
  case clear recovering =>
    cases hs
    cases recovering with
    | false => exact h.goto hact (by rw [hq]; rfl) (by rw [hq]; rfl) (by rw [hq]; rfl)
    | true =>
      have hend : s.ended = [] := h.none (by rw [hq]; rfl)
      exact { h with
        committing := h.committing.trans (by rw [hq]; rfl)
        idle := fun _ => hact
        none := nofun
        pending := by
          rintro - o (ho | ho)
          · rw [show (clearStep g s true).active = [] from hact] at ho; cases ho
          · rw [show (clearStep g s true).ended = [] from hend] at ho; cases ho
        committed := nofun }
  case done =>
    cases hs
    exact { h with
      committing := rfl
      idle := fun _ => hact
      none := nofun
      apart := by
        intro o ho
        rw [show (doneStep s).active = [] from hact] at ho
        cases ho
      fresh := by
        intro o ho
        obtain ⟨h1, h2, h3, h4, h5⟩ := h.fresh o ho
        exact ⟨h1, nofun, by simp [doneStep, h2, h3], h4, h5⟩
      current := fun o _ _ => by rw [show (doneStep s).cur = [] from hcur hq]; rfl
      pending := by
        rintro - o (ho | ho)
        · rw [show (doneStep s).active = [] from hact] at ho; cases ho
        · cases ho
      committed := nofun
      durable := by
        intro o ho
        rcases mem_append.1 ho with ho | ho
        · exact h.durable o ho
        · exact h.committed (by rw [hq]; rfl) o ho }
  case recover =>
    cases hs
    exact h.goto hact (by rw [hq]; rfl) (by rw [hq]; rfl) (by rw [hq]; rfl)

theorem crash_ops : Ops (crash s) where
  outstanding := rfl
  committing := rfl
  idle _ := rfl
  none _ := rfl
  nodup := nodup_nil
  apart := nofun
  fresh o ho := by
    obtain ⟨_, _, h3, h4, h5⟩ := h.fresh o ho
    exact ⟨nofun, nofun, h3, h4, h5⟩
  current _ _ _ := rfl
  pending := nofun
  committed := nofun
  whole := h.whole
  durable := h.durable

end

theorem boot_ops : Ops (boot d) where
  outstanding := rfl
  committing := rfl
  idle _ := rfl
  none _ := rfl
  nodup := nodup_nil
  apart := nofun
  fresh _ _ := ⟨nofun, nofun, nofun, rfl, nofun⟩
  current _ _ _ := rfl
  pending := nofun
  committed := nofun
  whole _ := .inl (.inl rfl)
  durable := nofun

/-! ## Runs -/

theorem Inv.cur_nil (h : Inv g d s) (hpc : s.pc = .idle ∧ s.lh = [] ∨ s.pc = .done) : s.cur = [] := by
  have hok := h.pc
  unfold PcOk at hok
  rcases hpc with ⟨hpc, hlh⟩ | hpc
  · rw [hpc] at hok
    apply eq_nil_iff_forall_not_mem.2
    intro w hw
    have := hok.writes w hw
    rw [hlh] at this
    cases this
  · rw [hpc] at hok
    exact hok.writes

theorem Ops.running {o : Nat} (h : Ops s) (hm : o ∈ s.active) : s.pc = .idle := by
  by_contra hne
  rw [h.idle hne] at hm
  cases hm

theorem step_inv {e : Event} (h : Inv g d s ∧ Ops s) (hs : step g s e = .ok s') : Inv g d s' ∧ Ops s' := by
  obtain ⟨hi, ho⟩ := h
  cases e with
  | beginOp =>
    refine ⟨?_, beginOp_ops ho hs⟩
    simp only [step, beginOp] at hs
    split at hs
    · cases hs; exact ⟨⟨hi.cached.clean, hi.cached.pinned⟩, hi.pc⟩
    · cases hs
  | logWrite o b v =>
    have hpc := ho.running (logWrite_eq_ok hs).1.1
    exact ⟨logWrite_inv hi hpc hs, logWrite_ops ho hpc hs⟩
  | endOp o =>
    have hpc := ho.running (endOp_eq_ok hs).1
    exact ⟨endOp_inv hi hpc hs, endOp_ops ho hpc (fun hlh => hi.cur_nil (.inl ⟨hpc, hlh⟩)) hs⟩
  | disk => exact ⟨diskStep_inv hi hs, diskStep_ops ho (fun hpc => hi.cur_nil (.inr hpc)) hs⟩
  | read b =>
    cases hs
    have hc := hi.cached.bread b
    exact ⟨⟨⟨hc.clean, hc.pinned⟩, hi.pc⟩, { ho with }⟩
  | evict b =>
    simp only [step] at hs
    split at hs
    · cases hs
    rename_i hb
    cases hs
    refine ⟨⟨⟨?_, ?_⟩, hi.pc⟩, { ho with }⟩
    · intro c hc v hv
      by_cases e : c = b
      · subst e; simp at hv
      · simp only [Function.update_of_ne e] at hv
        exact hi.cached.clean c hc v hv
    · intro c hc
      have hne : c ≠ b := by rintro rfl; exact hb hc
      simp only [Function.update_of_ne hne]
      exact hi.cached.pinned c hc
  | crash =>
    cases hs
    exact ⟨crash_inv hi, crash_ops ho⟩

theorem reach_inv (hd : readHead (d g.start) = []) (h : Reach (step g) (· = boot d) (fun _ _ => True) s) :
    Inv g d s ∧ Ops s :=
  h.inv (I := fun s => Inv g d s ∧ Ops s) (by rintro s rfl; exact ⟨boot_inv hd, boot_ops⟩)
    (fun _ _ _ hI _ he => step_inv hI he)

/-- **Crash atomicity.** Whatever happened before, crashes at any point included: when the last write of
`recover_from_log` is done, the home blocks hold exactly the effect of the committed groups; every operation
of a group whose committing `end_op` returned is in one of them with all its writes; and every operation is in
one with all its writes, or in none with any. -/
theorem crash_atomic (hd : readHead (d g.start) = [])
    (h : Reach (step g) (· = boot d) (fun _ _ => True) s) (hpc : s.pc = .clear true)
    (hs : step g s .disk = .ok s') :
    (∀ b, g.Home b → s'.disk b = applyGroups d s'.groups b) ∧
      (∀ o ∈ s'.durable, Present s' o) ∧ ∀ o, Present s' o ∨ Absent s' o := by
  obtain ⟨hi, ho⟩ := step_inv (reach_inv hd h) hs
  refine ⟨fun b hb => ?_, ho.durable, ho.whole⟩
  have hpc' : s'.pc = .idle := by
    simp only [step, diskStep, hpc] at hs
    cases hs
    rfl
  have hok := hi.pc
  rw [PcOk, hpc'] at hok
  exact hok.cons.rest b hb (by simp)

/-! ### Two crashes -/

/-- The log of the image `mkfs` makes: blocks 2 to 31. -/
def smallLog : Geometry := ⟨2, LOGSIZE, by decide, by decide⟩

def zeroDisk : Nat → Bytes := fun _ _ => 0

def ones : Bytes := fun _ => 1

/-- One operation writes block 100; the machine stops right after the header write, and recovers. -/
def crashAfterHeader : List Event :=
  [.disk, .disk, .disk, .beginOp, .logWrite 0 100 ones, .endOp 0, .disk, .disk, .disk, .crash, .disk, .disk, .disk]

theorem crash_atomic_committed :
    ∃ s', step smallLog (after (step smallLog) (boot zeroDisk) crashAfterHeader) .disk = .ok s' ∧
    s'.disk 100 = ones := by
  have hr : Reach (step smallLog) (· = boot zeroDisk) (fun _ _ => True)
      (after (step smallLog) (boot zeroDisk) crashAfterHeader) :=
    Reach.of_run (fun _ _ => trivial) crashAfterHeader (.init rfl) rfl
  have hs : step smallLog (after (step smallLog) (boot zeroDisk) crashAfterHeader) .disk =
      .ok (after (step smallLog) (boot zeroDisk) (crashAfterHeader ++ [.disk])) := rfl
  obtain ⟨hdisk, _, _⟩ := crash_atomic (by decide +kernel) hr (by decide +kernel) hs
  exact ⟨_, rfl, hdisk 100 (by decide)⟩

/-- Two operations share a group; the first one writes block 100 and its `end_op` returns; then the machine stops. -/
def crashInGroup : List Event :=
  [.disk, .disk, .disk, .beginOp, .beginOp, .logWrite 0 100 ones, .endOp 0, .crash, .disk, .disk]

/-- `end_op` returned, and the operation is gone. -/
theorem returned_not_durable : ¬ ∀ (g : Geometry) (d : Nat → Bytes) (s s' : Sys), readHead (d g.start) = [] →
    Reach (step g) (· = boot d) (fun _ _ => True) s → s.pc = .clear true → step g s .disk = .ok s' →
    ∀ o ∈ s'.returned, Present s' o := by
  intro h
  have hr : Reach (step smallLog) (· = boot zeroDisk) (fun _ _ => True)
      (after (step smallLog) (boot zeroDisk) crashInGroup) :=
    Reach.of_run (fun _ _ => trivial) crashInGroup (.init rfl) rfl
  have hp := h smallLog zeroDisk _ (after (step smallLog) (boot zeroDisk) (crashInGroup ++ [.disk]))
    (by decide +kernel) hr (by decide +kernel) rfl 0 (by decide +kernel)
  rcases hp with hp | ⟨gr, hm, _⟩
  · cases hp
  · cases hm

/-! ### Commit and recovery come to their end -/

/-- The disk steps up to `idle`. -/
def left (g : Geometry) (s : Sys) : Nat :=
  match s.pc with
  | .idle => 0
  | .done => 1
  | .clear _ => 2
  | .install _ tail => s.lh.length - tail + 3
  | .writeHead => s.lh.length + 4
  | .writeLog tail => s.lh.length - tail + s.lh.length + 5
  | .recover => (readHead (bread s g.start).1).length + 4

/-- The committed groups, and the one whose commit has begun. -/
def begun (s : Sys) : List (List Write) :=
  match s.pc with
  | .writeLog _ | .writeHead => s.groups ++ [s.cur]
  | _ => s.groups

theorem diskStep_left (g : Geometry) (s : Sys) :
    s.pc = .idle ∨ ∃ s', step g s .disk = .ok s' ∧ begun s' = begun s ∧ left g s' < left g s := by
  simp only [step, diskStep, begun, left]
  cases hq : s.pc with
  | idle => exact .inl rfl
  | writeLog tail | install r tail =>
    refine .inr ?_
    dsimp only
    cases hb : s.lh[tail]? with
    | none =>
      refine ⟨_, rfl, rfl, ?_⟩
      dsimp only
      omega
    | some b =>
      have htail := (List.getElem?_eq_some_iff.1 hb).1
      refine ⟨_, rfl, rfl, ?_⟩
      simp only [writeLogStep, installStep, bread, bwrite]
      omega
  | clear r =>
    refine .inr ⟨_, rfl, ?_⟩
    cases r <;> exact ⟨rfl, by simp [clearStep]⟩
  | writeHead | done | recover =>
    refine .inr ⟨_, rfl, rfl, ?_⟩
    simp [writeHeadStep, doneStep, recoverStep, bread, bwrite]

/-- **Commit and recovery complete.** From every state reached, crashes included, the disk steps come to `idle` within
the bound `left`, and the home blocks then hold the effect of the committed groups and of the one whose commit had
begun. -/
theorem log_settles (hd : readHead (d g.start) = []) (h : Reach (step g) (· = boot d) (fun _ _ => True) s) :
    ∃ n ≤ left g s, ∃ s', run (step g) s (replicate n .disk) = .ok s' ∧ s'.pc = .idle ∧
      ∀ b, g.Home b → s'.disk b = applyGroups d (begun s) b := by
  let I t := Reach (step g) (· = boot d) (fun _ _ => True) t ∧ begun t = begun s
  have hstep t (ht : I t) : t.pc = .idle ∨ ∃ t', step g t .disk = .ok t' ∧ I t' ∧ left g t' < left g t :=
    (diskStep_left g t).imp_right fun ⟨t', hs, hb, hlt⟩ => ⟨t', hs, ⟨ht.1.step .disk trivial hs, hb.trans ht.2⟩, hlt⟩
  obtain ⟨n, hn, s', hr, ⟨hreach, hb⟩, hpc⟩ := run_ends hstep ⟨h, rfl⟩ le_rfl
  refine ⟨n, hn, s', hr, hpc, fun b hhome => ?_⟩
  have hok := (reach_inv hd hreach).1.pc
  rw [PcOk, hpc] at hok
  rw [← hb, begun, hpc]
  exact hok.cons.rest b hhome (by simp)

/-- In the middle of the commit of one write of block 100. -/
theorem log_settles_commit :
    let s := after (step smallLog) (boot zeroDisk) (crashAfterHeader.take 7)
    ∃ n ≤ left smallLog s, ∃ s', run (step smallLog) s (replicate n .disk) = .ok s' ∧ s'.disk 100 = ones := by
  obtain ⟨n, hn, s', hr, -, hb⟩ := log_settles (g := smallLog) (d := zeroDisk) (by decide +kernel)
    (Reach.of_run (fun _ _ => trivial) (crashAfterHeader.take 7) (.init rfl) rfl)
  exact ⟨n, hn, s', hr, hb 100 (by decide)⟩

end Xv6Riscv.Log
