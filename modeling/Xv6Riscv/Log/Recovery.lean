import Xv6Riscv.Log.Model

/-!
# What the disk holds between two writes

`Consistent g A d L`: recovery from disk `d` would install the blocks `L` of its header and arrive at the home
blocks `A`. This holds at every point of `commit` and of `recover_from_log`, with `A` the effect of the groups
committed so far: the header write is where `A` and `L` change together.
-/
namespace Xv6Riscv.Log
open Machine Layout Function List
variable {b i : Nat} {L : List Nat}

structure Consistent (g : Geometry) (A d : Nat → Bytes) (L : List Nat) : Prop where
  header : readHead (d g.start) = L
  room : L.length < g.size
  home : ∀ b ∈ L, g.Home b
  logged : ∀ i b, L[i]? = some b → d (g.start + i + 1) = A b
  rest : ∀ b, g.Home b → b ∉ L → d b = A b

/-- The cache agrees with the disk but for the pinned blocks, which are there with contents `V`. -/
structure Cached (s : Sys) (V : Nat → Bytes) : Prop where
  clean : ∀ b, b ∉ s.pins → ∀ v, s.cache b = some v → v = s.disk b
  pinned : ∀ b ∈ s.pins, s.cache b = some (V b)

/-! ## The header block -/

theorem readHead_writeHead (blk : Bytes) (lh : List Nat) (hlen : lh.length ≤ LOGSIZE) (hlt : ∀ b ∈ lh, b < 2 ^ 32) :
    readHead (writeHead blk lh) = lh := by
  have hn : getLE 4 (writeHead blk lh) 0 = lh.length := by
    rw [writeHead, getLE_congr 4 fun k _ hk => putInts_of_lt _ lh hk, getLE_setLE]
    simp only [LOGSIZE, MAXOPBLOCKS] at hlen
    omega
  have hint : (BitVec.ofNat 32 lh.length).toInt.toNat = lh.length := by
    simp only [LOGSIZE, MAXOPBLOCKS] at hlen
    rw [BitVec.toInt_eq_toNat_of_lt (by rw [BitVec.toNat_ofNat]; omega), BitVec.toNat_ofNat]
    omega
  rw [readHead, hn, hint, writeHead]
  exact getInts_putInts _ 4 lh hlt

/-! ## Buffers -/

section
variable {s : Sys} {V : Nat → Bytes}

theorem Cached.bread (h : Cached s V) (b : Nat) : Cached (bread s b).2 V where
  clean c hc v hv := by
    by_cases e : c = b
    · subst e
      simp only [Log.bread, update_self, Option.some.injEq] at hv
      subst hv
      cases hcache : s.cache c with
      | none => rfl
      | some w => exact h.clean c hc w hcache
    · simp only [Log.bread, update_of_ne e] at hv
      exact h.clean c hc v hv
  pinned c hc := by
    by_cases e : c = b
    · subst e
      simp only [Log.bread, update_self, h.pinned c hc, Option.getD_some]
    · simp only [Log.bread, update_of_ne e]
      exact h.pinned c hc

theorem Cached.bread_clean (h : Cached s V) (hb : b ∉ s.pins) : (Log.bread s b).1 = s.disk b := by
  cases hcache : s.cache b with
  | none => simp [Log.bread, hcache]
  | some v => simp only [Log.bread, hcache, Option.getD_some]; exact h.clean b hb v hcache

theorem Cached.bread_pinned (h : Cached s V) (hb : b ∈ s.pins) : (Log.bread s b).1 = V b := by
  simp [Log.bread, h.pinned b hb]

theorem Cached.bwrite (h : Cached s V) {v : Bytes} (hv : b ∈ s.pins → v = V b) : Cached (bwrite s b v) V where
  clean c hc w hw := by
    by_cases e : c = b
    · subst e
      simp only [Log.bwrite, update_self, Option.some.injEq] at hw ⊢
      exact hw.symm
    · simp only [Log.bwrite, update_of_ne e] at hw ⊢
      exact h.clean c hc w hw
  pinned c hc := by
    by_cases e : c = b
    · subst e
      simp only [Log.bwrite, update_self, hv hc]
    · simp only [Log.bwrite, update_of_ne e]
      exact h.pinned c hc

end

/-! ## Disk writes -/

theorem Geometry.not_home (g : Geometry) (h : i < g.size) : ¬ g.Home (g.start + i) := by
  simp only [Geometry.Home]
  omega

variable {A d : Nat → Bytes} {g : Geometry}

theorem Consistent.log_slot (h : Consistent g A d L) (hi : L[i]? = some b) : ¬ g.Home (g.start + i + 1) := by
  obtain ⟨hlt, _⟩ := List.getElem?_eq_some_iff.1 hi
  have := h.room
  exact g.not_home (i := i + 1) (by omega)

theorem Consistent.write_log (h : Consistent g A d []) (v : Bytes)
    (hi : i + 1 < g.size) : Consistent g A (update d (g.start + i + 1) v) [] where
  header := by rw [update_of_ne (by omega)]; exact h.header
  room := h.room
  home := h.home
  logged i b hb := by simp at hb
  rest b hb hn := by
    have hne : b ≠ g.start + i + 1 := by rintro rfl; exact g.not_home hi hb
    rw [update_of_ne hne]
    exact h.rest b hb hn

theorem Consistent.commit {V : Nat → Bytes} (h : Consistent g A d [])
    (hlen : L.length ≤ LOGSIZE) (hroom : L.length < g.size) (hhome : ∀ b ∈ L, g.Home b ∧ b < 2 ^ 32)
    (hlog : ∀ i b, L[i]? = some b → d (g.start + i + 1) = V b) (hrest : ∀ b, b ∉ L → V b = A b) (blk : Bytes) :
    Consistent g V (update d g.start (writeHead blk L)) L where
  header := by
    rw [update_self]
    exact readHead_writeHead blk L hlen fun b hb => (hhome b hb).2
  room := hroom
  home b hb := (hhome b hb).1
  logged i b hb := by
    rw [update_of_ne (by omega)]
    exact hlog i b hb
  rest b hb hn := by
    have hne : b ≠ g.start := by rintro rfl; exact g.not_home g.pos hb
    rw [update_of_ne hne, hrest b hn]
    exact h.rest b hb (by simp)

/-- Installing a logged block leaves the disk consistent, with or without the other blocks installed. -/
theorem Consistent.install (h : Consistent g A d L) (hb : b ∈ L) : Consistent g A (update d b (A b)) L where
  header := by
    have hne : g.start ≠ b := by rintro rfl; exact g.not_home g.pos (h.home _ hb)
    rw [update_of_ne hne]
    exact h.header
  room := h.room
  home := h.home
  logged i c hc := by
    have hne : g.start + i + 1 ≠ b := by rintro rfl; exact h.log_slot hc (h.home _ hb)
    rw [update_of_ne hne]
    exact h.logged i c hc
  rest c hc hn := by
    have hne : c ≠ b := by rintro rfl; exact hn hb
    rw [update_of_ne hne]
    exact h.rest c hc hn

theorem Consistent.clear (h : Consistent g A d L)
    (hall : ∀ b, g.Home b → d b = A b) (blk : Bytes) : Consistent g A (update d g.start (writeHead blk [])) [] where
  header := by
    rw [update_self]
    exact readHead_writeHead blk [] (Nat.zero_le _) (by simp)
  room := Nat.lt_of_le_of_lt (Nat.zero_le _) h.room
  home b hb := by simp at hb
  logged i b hb := by simp at hb
  rest b hb _ := by
    have hne : b ≠ g.start := by rintro rfl; exact g.not_home g.pos hb
    rw [update_of_ne hne]
    exact hall b hb

/-! ## The invariant -/

/-- While operations run, and up to the commit: the header is empty and the modified blocks are pinned. `A` is
the state after the committed groups. -/
structure Logging (g : Geometry) (A disk : Nat → Bytes) (pins lh : List Nat) (cur : List Write) : Prop where
  cons : Consistent g A disk []
  pinned : pins = lh
  nodup : lh.Nodup
  home : ∀ b ∈ lh, g.Home b ∧ b < 2 ^ 32
  len : lh.length ≤ LOGSIZE
  room : lh.length < g.size
  writes : ∀ w ∈ cur, w.block ∈ lh

/-- The first `tail` blocks of `lh` are in the log. -/
def Logged (g : Geometry) (V disk : Nat → Bytes) (lh : List Nat) (tail : Nat) : Prop :=
  ∀ i b, i < tail → lh[i]? = some b → disk (g.start + i + 1) = V b

/-- `install_trans` in front of `tail`; only a commit has pinned blocks to release. -/
structure Installing (g : Geometry) (A disk : Nat → Bytes) (pins lh : List Nat) (cur : List Write)
    (recovering : Bool) (tail : Nat) : Prop where
  cons : Consistent g A disk lh
  writes : cur = []
  pinned : pins = if recovering then [] else lh.drop tail
  nodup : recovering = false → lh.Nodup
  installed : ∀ i b, i < tail → lh[i]? = some b → disk b = A b

/-- Nothing is logged or pinned, and recovery would install `L`. -/
structure Restarting (g : Geometry) (A disk : Nat → Bytes) (pins lh : List Nat) (cur : List Write)
    (L : List Nat) : Prop where
  cons : Consistent g A disk L
  writes : cur = []
  empty : lh = []
  pinned : pins = []

def PcOk (g : Geometry) (d : Nat → Bytes) (s : Sys) : Prop :=
  let A := applyGroups d s.groups
  let V := applyWrites A s.cur
  match s.pc with
  | .idle => Logging g A s.disk s.pins s.lh s.cur
  | .writeLog tail => Logging g A s.disk s.pins s.lh s.cur ∧ Logged g V s.disk s.lh tail
  | .writeHead => Logging g A s.disk s.pins s.lh s.cur ∧ Logged g V s.disk s.lh s.lh.length
  | .install recovering tail => Installing g A s.disk s.pins s.lh s.cur recovering tail
  | .clear _ => (∃ L, Restarting g A s.disk s.pins s.lh s.cur L) ∧ ∀ b, g.Home b → s.disk b = A b
  | .done => Restarting g A s.disk s.pins s.lh s.cur []
  | .recover => ∃ L, Restarting g A s.disk s.pins s.lh s.cur L

structure Inv (g : Geometry) (d : Nat → Bytes) (s : Sys) : Prop where
  cached : Cached s (applyWrites (applyGroups d s.groups) s.cur)
  pc : PcOk g d s

/-! ## Steps of `commit` and of recovery -/

theorem applyWrites_of_not_mem (A : Nat → Bytes) : ∀ {ws : List Write}, (∀ w ∈ ws, w.block ≠ b) →
    applyWrites A ws b = A b := by
  intro ws
  induction ws generalizing A with
  | nil => exact fun _ => rfl
  | cons w ws ih =>
    intro h
    have hne : b ≠ w.block := (h w (mem_cons_self ..)).symm
    have hstep : applyWrites A (w :: ws) b = applyWrites (update A w.block w.data) ws b := rfl
    rw [hstep, ih _ fun v hv => h v (mem_cons_of_mem _ hv), update_of_ne hne]

theorem applyGroups_append (d : Nat → Bytes) (gs : List (List Write)) (ws : List Write) :
    applyGroups d (gs ++ [ws]) = applyWrites (applyGroups d gs) ws := by
  simp [applyGroups]

section
variable {g : Geometry} {A disk : Nat → Bytes} {pins lh : List Nat} {cur : List Write}

/-- From wherever the machine stops, recovery would arrive at the committed groups. -/
theorem PcOk.consistent {s : Sys} (h : PcOk g d s) : ∃ L, Consistent g (applyGroups d s.groups) s.disk L := by
  unfold PcOk at h
  split at h
  · exact ⟨[], h.cons⟩
  · exact ⟨[], h.1.cons⟩
  · exact ⟨[], h.1.cons⟩
  · exact ⟨s.lh, h.cons⟩
  · obtain ⟨⟨L, hL⟩, _⟩ := h
    exact ⟨L, hL.cons⟩
  · exact ⟨[], h.cons⟩
  · obtain ⟨L, hL⟩ := h
    exact ⟨L, hL.cons⟩

theorem Logging.log_not_pinned (h : Logging g A disk pins lh cur) (hi : i < g.size) : g.start + i ∉ pins := by
  intro hm
  rw [h.pinned] at hm
  exact g.not_home hi (h.home _ hm).1

theorem Logging.log_slot (h : Logging g A disk pins lh cur) (hi : lh[i]? = some b) : i + 1 < g.size := by
  obtain ⟨hlt, _⟩ := List.getElem?_eq_some_iff.1 hi
  have := h.room
  omega

end

variable {g : Geometry} {d : Nat → Bytes} {s s' : Sys}

section
variable (hc : Cached s (applyWrites (applyGroups d s.groups) s.cur))
include hc

section
variable (hl : Logging g (applyGroups d s.groups) s.disk s.pins s.lh s.cur)
include hl

theorem writeLogStep_inv {tail : Nat}
    (hlog : Logged g (applyWrites (applyGroups d s.groups) s.cur) s.disk s.lh tail) (hb : s.lh[tail]? = some b) :
    Inv g d (writeLogStep g s tail b) := by
  have hslot := hl.log_slot hb
  have hpin : b ∈ (bread s (g.start + tail + 1)).2.pins := by
    change b ∈ s.pins
    rw [hl.pinned]
    exact mem_of_getElem? hb
  have hc1 := hc.bread (g.start + tail + 1)
  have hsrc := hc1.bread_pinned hpin
  have hc2 := (hc1.bread b).bwrite (b := g.start + tail + 1) (v := (bread (bread s (g.start + tail + 1)).2 b).1)
    (fun hm => absurd hm (hl.log_not_pinned hslot))
  have hdisk : (writeLogStep g s tail b).disk = update s.disk (g.start + tail + 1)
      (applyWrites (applyGroups d s.groups) s.cur b) := by rw [← hsrc]; rfl
  refine ⟨⟨hc2.clean, hc2.pinned⟩, ⟨?_, hl.pinned, hl.nodup, hl.home, hl.len, hl.room, hl.writes⟩, ?_⟩
  · exact hl.cons.write_log _ hslot
  intro i c hi hic
  rw [hdisk]
  by_cases e : i = tail
  · subst e
    have hbc : b = c := Option.some.inj (hb.symm.trans hic)
    rw [update_self, hbc]
    rfl
  · rw [update_of_ne (by omega)]
    exact hlog i c (by omega) hic

theorem writeHeadStep_inv
    (hlog : Logged g (applyWrites (applyGroups d s.groups) s.cur) s.disk s.lh s.lh.length) :
    Inv g d (writeHeadStep g s) := by
  have hgroups : applyGroups d (writeHeadStep g s).groups = applyWrites (applyGroups d s.groups) s.cur :=
    applyGroups_append d s.groups s.cur
  have hc2 := (hc.bread g.start).bwrite (b := g.start) (v := writeHead (bread s g.start).1 s.lh)
    (fun hm => absurd hm (hl.log_not_pinned g.pos))
  constructor
  · rw [hgroups]
    exact ⟨hc2.clean, hc2.pinned⟩
  have hcommit := hl.cons.commit (V := applyWrites (applyGroups d s.groups) s.cur) hl.len hl.room hl.home
    (fun i b hb => hlog i b (List.getElem?_eq_some_iff.1 hb).1 hb)
    (fun b hb => applyWrites_of_not_mem _ fun w hw e => hb (e ▸ hl.writes w hw)) (bread s g.start).1
  change Installing g (applyGroups d (writeHeadStep g s).groups) _ _ _ _ _ _
  rw [hgroups]
  exact ⟨hcommit, rfl, hl.pinned, fun _ => hl.nodup, fun i b hi => absurd hi (Nat.not_lt_zero i)⟩

end

theorem installStep_inv {recovering : Bool} {tail : Nat}
    (hi : Installing g (applyGroups d s.groups) s.disk s.pins s.lh s.cur recovering tail)
    (hb : s.lh[tail]? = some b) : Inv g d (installStep g s recovering tail b) := by
  have hmem := mem_of_getElem? hb
  have hsub : ∀ c ∈ s.pins, c ∈ s.lh := by
    intro c hcp
    rw [hi.pinned] at hcp
    split at hcp
    · cases hcp
    · exact mem_of_mem_drop hcp
  have hlbuf : (bread s (g.start + tail + 1)).1 = applyGroups d s.groups b := by
    rw [hc.bread_clean fun hm => hi.cons.log_slot hb (hi.cons.home _ (hsub _ hm))]
    exact hi.cons.logged tail b hb
  have hV : applyWrites (applyGroups d s.groups) s.cur = applyGroups d s.groups := by rw [hi.writes]; rfl
  have hc2 := ((hc.bread (g.start + tail + 1)).bread b).bwrite (b := b) (v := (bread s (g.start + tail + 1)).1)
    (fun _ => by rw [hV]; exact hlbuf)
  -- `bunpin`: the block that loses its pin is on the disk now
  have hpins : (installStep g s recovering tail b).pins = if recovering then [] else s.lh.drop (tail + 1) := by
    change (if recovering then s.pins else s.pins.erase b) = _
    rw [hi.pinned]
    split
    · rfl
    · rw [← getElem_cons_drop (List.getElem?_eq_some_iff.1 hb).1, (List.getElem?_eq_some_iff.1 hb).2,
        erase_cons_head]
  have hout : ∀ c, c ∉ (installStep g s recovering tail b).pins → c ∉ s.pins ∨ c = b := by
    intro c hcn
    by_cases e : c = b
    · exact .inr e
    refine .inl fun hcp => hcn ?_
    change c ∈ if recovering then s.pins else s.pins.erase b
    split
    · exact hcp
    · exact (mem_erase_of_ne e).2 hcp
  constructor
  · constructor
    · intro c hcn v hv
      rcases hout c hcn with hcn | rfl
      · exact hc2.clean c hcn v hv
      · simp only [installStep, bwrite, update_self, Option.some.injEq] at hv ⊢
        exact hv.symm
    · intro c hcp
      apply hc2.pinned c
      change c ∈ s.pins
      by_cases hr : recovering = true
      · rw [hpins, if_pos hr] at hcp; cases hcp
      · rw [hpins, if_neg hr] at hcp
        rw [hi.pinned, if_neg hr]
        exact drop_subset_drop_left s.lh (Nat.le_succ tail) hcp
  · have hdisk : (installStep g s recovering tail b).disk = update s.disk b (applyGroups d s.groups b) := by
      rw [← hlbuf]; rfl
    refine ⟨?_, hi.writes, hpins, hi.nodup, ?_⟩
    · rw [hdisk]
      exact hi.cons.install hmem
    intro i c hic hget
    rw [hdisk]
    by_cases e : c = b
    · subst e; rw [update_self]; rfl
    rw [update_of_ne e]
    have hne : i ≠ tail := by
      rintro rfl
      exact e (Option.some.inj (hget.symm.trans hb))
    exact hi.installed i c (by omega) hget

theorem clearStep_inv {recovering : Bool} (hr : Restarting g (applyGroups d s.groups) s.disk s.pins s.lh s.cur L)
    (hall : ∀ b, g.Home b → s.disk b = applyGroups d s.groups b) : Inv g d (clearStep g s recovering) := by
  have hc2 := (hc.bread g.start).bwrite (b := g.start) (v := writeHead (bread s g.start).1 s.lh)
    (fun hm => by rw [show (bread s g.start).2.pins = [] from hr.pinned] at hm; cases hm)
  have hdisk : Consistent g (applyGroups d s.groups)
      (update s.disk g.start (writeHead (bread s g.start).1 s.lh)) [] := by
    rw [hr.empty]
    exact hr.cons.clear hall _
  refine ⟨⟨hc2.clean, hc2.pinned⟩, ?_⟩
  cases recovering with
  | true =>
    have hlh : (clearStep g s true).lh = [] := hr.empty
    have hcur : (clearStep g s true).cur = [] := hr.writes
    refine ⟨hdisk, hr.pinned.trans hr.empty.symm, ?_, ?_, ?_, ?_, ?_⟩
    · rw [hlh]; exact nodup_nil
    · rw [hlh]; simp
    · rw [hlh]; exact Nat.zero_le _
    · rw [hlh]; exact g.pos
    · rw [hcur]; simp
  | false => exact ⟨hdisk, hr.writes, hr.empty, hr.pinned⟩

end

theorem Restarting.logging {disk : Nat → Bytes} {pins lh : List Nat} {cur : List Write}
    (h : Restarting g A disk pins lh cur []) : Logging g A disk pins lh cur := by
  obtain ⟨hcons, rfl, rfl, rfl⟩ := h
  exact ⟨hcons, rfl, nodup_nil, by simp, Nat.zero_le _, g.pos, by simp⟩

theorem recoverStep_inv (hc : Cached s (applyWrites (applyGroups d s.groups) s.cur))
    (hr : Restarting g (applyGroups d s.groups) s.disk s.pins s.lh s.cur L) : Inv g d (recoverStep g s) := by
  have hc1 := hc.bread g.start
  have hbuf : (bread s g.start).1 = s.disk g.start := hc.bread_clean (by rw [hr.pinned]; simp)
  have hlh : (recoverStep g s).lh = L := by
    rw [← hr.cons.header, ← hbuf]
    rfl
  refine ⟨⟨hc1.clean, hc1.pinned⟩, ?_, hr.writes, hr.pinned, nofun, fun i b hi => absurd hi (Nat.not_lt_zero i)⟩
  rw [hlh]
  exact hr.cons

theorem diskStep_inv (h : Inv g d s) (hs : diskStep g s = .ok s') : Inv g d s' := by
  obtain ⟨hc, hpc⟩ := h
  unfold PcOk at hpc
  unfold diskStep at hs
  cases hq : s.pc <;> rw [hq] at hpc hs
  case idle => cases hs
  case writeLog tail =>
    simp only at hs
    cases hb : s.lh[tail]? <;> rw [hb] at hs <;> cases hs
    case some b => exact writeLogStep_inv hc hpc.1 hpc.2 hb
    case none =>
      have hlen := List.getElem?_eq_none_iff.1 hb
      exact ⟨⟨hc.clean, hc.pinned⟩, hpc.1, fun i b hi => hpc.2 i b (Nat.lt_of_lt_of_le hi hlen)⟩
  case writeHead =>
    cases hs
    exact writeHeadStep_inv hc hpc.1 hpc.2
  case install recovering tail =>
    simp only at hs
    cases hb : s.lh[tail]? <;> rw [hb] at hs <;> cases hs
    case some b => exact installStep_inv hc hpc hb
    case none =>
      have hlen := List.getElem?_eq_none_iff.1 hb
      have hpins : s.pins = [] := by
        rw [hpc.pinned]
        split
        · rfl
        · exact drop_eq_nil_of_le hlen
      refine ⟨⟨hc.clean, hc.pinned⟩, ⟨s.lh, hpc.cons, hpc.writes, rfl, hpins⟩, ?_⟩
      intro b hhome
      by_cases hm : b ∈ s.lh
      · obtain ⟨i, hi⟩ := mem_iff_getElem?.1 hm
        exact hpc.installed i b (Nat.lt_of_lt_of_le (List.getElem?_eq_some_iff.1 hi).1 hlen) hi
      · exact hpc.cons.rest b hhome hm
  case clear =>
    cases hs
    obtain ⟨⟨L, hL⟩, hall⟩ := hpc
    exact clearStep_inv hc hL hall
  case done =>
    cases hs
    exact ⟨⟨hc.clean, hc.pinned⟩, hpc.logging⟩
  case recover =>
    cases hs
    obtain ⟨L, hL⟩ := hpc
    exact recoverStep_inv hc hL

/-! ## Operations -/

theorem applyWrites_append (A : Nat → Bytes) (ws : List Write) (w : Write) :
    applyWrites A (ws ++ [w]) = update (applyWrites A ws) w.block w.data := by
  simp [applyWrites]

section
variable {o : Nat} {v : Bytes}

theorem logWrite_eq_ok (hs : logWrite g s o b v = .ok s') :
    (o ∈ s.active ∧ g.Home b ∧ b < 2 ^ 32) ∧ ¬ (s.lh.length ≥ LOGSIZE ∨ s.lh.length ≥ g.size - 1) ∧
      s' = { s with
        cache := update s.cache b (some v)
        lh := if b ∈ s.lh then s.lh else s.lh ++ [b]
        pins := if b ∈ s.lh then s.pins else s.pins ++ [b]
        cur := s.cur ++ [⟨o, b, v⟩], all := s.all ++ [⟨o, b, v⟩] } := by
  unfold logWrite at hs
  split at hs
  on_goal 2 => cases hs
  rename_i hguard
  split at hs
  · cases hs
  rename_i hroom
  split at hs <;> cases hs
  exact ⟨hguard, hroom, rfl⟩

theorem endOp_eq_ok (hs : endOp s o = .ok s') : o ∈ s.active ∧
    (s.outstanding - 1 = 0 ∧ s' = { s with
      outstanding := s.outstanding - 1, active := s.active.erase o, ended := s.ended ++ [o]
      committing := true, pc := if 0 < s.lh.length then .writeLog 0 else .done } ∨
    s.outstanding - 1 ≠ 0 ∧ s' = { s with
      outstanding := s.outstanding - 1, active := s.active.erase o, ended := s.ended ++ [o]
      returned := s.returned ++ [o] }) := by
  unfold endOp at hs
  split at hs
  on_goal 2 => cases hs
  rename_i hm
  simp only at hs
  split at hs
  · cases hs
  split at hs <;> cases hs
  · rename_i h0; exact ⟨hm, .inl ⟨h0, rfl⟩⟩
  · rename_i h0; exact ⟨hm, .inr ⟨h0, rfl⟩⟩

theorem logWrite_inv (h : Inv g d s) (hpc : s.pc = .idle) (hs : logWrite g s o b v = .ok s') : Inv g d s' := by
  obtain ⟨hguard, hroom, rfl⟩ := logWrite_eq_ok hs
  have hl : Logging g (applyGroups d s.groups) s.disk s.pins s.lh s.cur := by
    have := h.pc
    rw [PcOk, hpc] at this
    exact this
  have hV := applyWrites_append (applyGroups d s.groups) s.cur ⟨o, b, v⟩
  -- the block is pinned now, whether it was before or not
  have hmem : ∀ c, c ∈ (if b ∈ s.lh then s.lh else s.lh ++ [b]) ↔ c ∈ s.lh ∨ c = b := by
    intro c
    split
    · rename_i hb
      exact ⟨.inl, fun hc => hc.elim id fun e => e ▸ hb⟩
    · simp
  have hpins : (if b ∈ s.lh then s.pins else s.pins ++ [b]) = if b ∈ s.lh then s.lh else s.lh ++ [b] := by
    rw [hl.pinned]
  constructor
  · constructor
    · intro c hc w hw
      simp only [hpins, hmem, not_or] at hc
      simp only [update_of_ne hc.2] at hw
      exact h.cached.clean c (by rw [hl.pinned]; exact hc.1) w hw
    · intro c hc
      simp only [hpins, hmem] at hc
      simp only [hV]
      by_cases e : c = b
      · subst e; simp only [update_self]
      · simp only [update_of_ne e]
        exact h.cached.pinned c (by rw [hl.pinned]; exact hc.resolve_right e)
  · simp only [PcOk, hpc]
    refine ⟨hl.cons, hpins, ?_, ?_, ?_, ?_, ?_⟩
    · split
      · exact hl.nodup
      rename_i hb
      refine nodup_append.2 ⟨hl.nodup, by simp, ?_⟩
      intro a ha c hc hac
      rw [mem_singleton.1 hc] at hac
      exact hb (hac ▸ ha)
    · intro c hc
      rcases (hmem c).1 hc with hc | rfl
      · exact hl.home c hc
      · exact hguard.2
    · split
      · exact hl.len
      · rw [length_append, length_singleton]; omega
    · split
      · exact hl.room
      · rw [length_append, length_singleton]; omega
    · intro w hw
      rw [hmem]
      rcases mem_append.1 hw with hw | hw
      · exact .inl (hl.writes w hw)
      · rw [mem_singleton.1 hw]; exact .inr rfl

theorem endOp_inv (h : Inv g d s) (hpc : s.pc = .idle) (hs : endOp s o = .ok s') : Inv g d s' := by
  have hl : Logging g (applyGroups d s.groups) s.disk s.pins s.lh s.cur := by
    have := h.pc
    rw [PcOk, hpc] at this
    exact this
  obtain ⟨-, ⟨-, rfl⟩ | ⟨-, rfl⟩⟩ := endOp_eq_ok hs
  · refine ⟨⟨h.cached.clean, h.cached.pinned⟩, ?_⟩
    by_cases hn : 0 < s.lh.length
    · simp only [PcOk, hn, if_true]
      exact ⟨hl, fun i b hi => absurd hi (Nat.not_lt_zero i)⟩
    have hlh : s.lh = [] := length_eq_zero_iff.1 (by omega)
    have hcur : s.cur = [] := eq_nil_iff_forall_not_mem.2 fun w hw => by
      have := hl.writes w hw
      rw [hlh] at this
      cases this
    simp only [PcOk, hn, if_false]
    exact ⟨hl.cons, hcur, hlh, hl.pinned.trans hlh⟩
  · refine ⟨⟨h.cached.clean, h.cached.pinned⟩, ?_⟩
    simp only [PcOk, hpc]
    exact hl

end

theorem crash_inv (h : Inv g d s) : Inv g d (crash s) := by
  obtain ⟨L, hL⟩ := h.pc.consistent
  exact ⟨⟨nofun, nofun⟩, L, hL, rfl, rfl, rfl⟩

theorem boot_inv (hd : readHead (d g.start) = []) : Inv g d (boot d) :=
  ⟨⟨nofun, nofun⟩, [], ⟨hd, g.pos, by simp, by simp, fun _ _ _ => rfl⟩, rfl, rfl, rfl⟩

end Xv6Riscv.Log
