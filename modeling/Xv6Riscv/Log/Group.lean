import Xv6Riscv.Log.Crash
import Mathlib.Algebra.Order.BigOperators.Group.List
import Mathlib.Algebra.Order.Group.Nat
import Mathlib.Data.List.Dedup

/-!
# Group commit: the header, the pins and the room in the log

`begin_op` reserves `MAXOPBLOCKS` blocks of a log of `LOGSIZE` for each operation (log.c:133). `log_write` stops the
machine when the header has `log.size - 1` blocks (log.c:219), one less than the reservations may add up to, because the
header block is one of the `log.size` blocks. So three operations that use their reservations do not fit
(`three_full_operations_too_big`), and operations that stay one below them do (`log_has_room`).

The pins are exact at every point of a commit (`group_commit_exact`): `install_trans` takes them back block by block.
-/
namespace Xv6Riscv.Log
open Machine Layout List
variable {b o : Nat} {v : Bytes} {e : Event} {p : Panic}

/-! ## Room -/

/-- The distinct blocks among the writes of one operation. -/
def blocksOf (o : Nat) (ws : List Write) : List Nat := ((writesOf o ws).map (·.block)).dedup

/-- Every operation logs at most `k` distinct blocks. -/
def Within (k : Nat) (s : Sys) : Event → Prop
  | .logWrite o b v => (blocksOf o (s.all ++ [⟨o, b, v⟩])).length ≤ k
  | _ => True

theorem mem_blocksOf {ws : List Write} : b ∈ blocksOf o ws ↔ ∃ w ∈ writesOf o ws, w.block = b := by
  simp [blocksOf]

theorem blocksOf_append_other {p : Nat} (h : p ≠ o) (ws : List Write) :
    blocksOf p (ws ++ [⟨o, b, v⟩]) = blocksOf p ws := by
  rw [blocksOf, writesOf_append, writesOf_other (w := ⟨o, b, v⟩) (Ne.symm h), append_nil, blocksOf]

theorem blocksOf_append_self (o b : Nat) (v : Bytes) (ws : List Write) :
    (blocksOf o (ws ++ [⟨o, b, v⟩])).length = (blocksOf o ws).length + if b ∈ blocksOf o ws then 0 else 1 := by
  have hw : writesOf o (ws ++ [⟨o, b, v⟩]) = writesOf o ws ++ [⟨o, b, v⟩] := by
    simp [writesOf]
  have hcard : ∀ l : List Nat, (l ++ [b]).dedup.length = l.dedup.length + if b ∈ l.dedup then 0 else 1 := by
    intro l
    rw [(perm_append_singleton b l).dedup.length_eq]
    by_cases hb : b ∈ l
    · rw [dedup_cons_of_mem hb, if_pos (mem_dedup.2 hb), Nat.add_zero]
    · rw [dedup_cons_of_notMem hb, if_neg (fun h => hb (mem_dedup.1 h)), length_cons]
  simp only [blocksOf, hw, map_append, map_cons, map_nil]
  exact hcard _

/-- What some operations may still log, at `k` blocks each. -/
def reserved (k : Nat) (active : List Nat) (all : List Write) : Nat :=
  (active.map fun o => k - (blocksOf o all).length).sum

theorem reserved_le (k : Nat) (active : List Nat) (all : List Write) : reserved k active all ≤ active.length * k := by
  have := sum_le_card_nsmul (active.map fun o => k - (blocksOf o all).length) k (by simp)
  simpa [reserved] using this

theorem reserved_erase (k : Nat) {active : List Nat} (h : o ∈ active) (all : List Write) :
    k - (blocksOf o all).length + reserved k (active.erase o) all = reserved k active all :=
  sum_map_erase (fun p => k - (blocksOf p all).length) h

theorem reserved_append (k : Nat) {active : List Nat} (h : o ∉ active) (all : List Write) (b : Nat)
    (v : Bytes) : reserved k active (all ++ [⟨o, b, v⟩]) = reserved k active all := by
  unfold reserved
  congr 1
  apply map_congr_left
  intro p hp
  have hne : p ≠ o := by rintro rfl; exact h hp
  rw [blocksOf_append_other hne]

/-- The blocks logged and those still to come leave the last block of the log free. -/
structure Room (s : Sys) : Prop where
  empty : s.pc = .idle → s.active = [] → s.lh = []
  fits : s.active ≠ [] → s.lh.length + reserved (MAXOPBLOCKS - 1) s.active s.all + 2 ≤ LOGSIZE

variable {g : Geometry} {d : Nat → Bytes} {s s' : Sys}

theorem Room.of_no_operation (h : s.active = []) (hlh : s.pc = .idle → s.lh = []) : Room s :=
  ⟨fun hpc _ => hlh hpc, fun hne => absurd h hne⟩

theorem beginOp_room (ho : Ops s) (hr : Room s) (hs : beginOp s = .ok s') : Room s' := by
  unfold beginOp at hs
  split at hs
  on_goal 2 => cases hs
  rename_i hguard
  cases hs
  refine ⟨fun _ hnil => absurd hnil (cons_ne_nil _ _), fun _ => ?_⟩
  have hnew : blocksOf s.nextop s.all = [] := by
    rw [blocksOf, (ho.fresh s.nextop (Nat.le_refl _)).2.2.2.1]
    rfl
  have hle := reserved_le (MAXOPBLOCKS - 1) s.active s.all
  obtain ⟨hrec, hc, hguard⟩ := hguard
  have hout := ho.outstanding
  simp only [reserved, map_cons, sum_cons, hnew, length_nil] at hle ⊢
  simp only [LOGSIZE, MAXOPBLOCKS] at hguard hle ⊢
  -- the first operation of a group finds an empty header; for the others the reservation of ten leaves one each
  by_cases hnil : s.active = []
  · have := hr.empty (ho.admits hrec hc) hnil
    simp [hnil, this]
  · have : 0 < s.active.length := length_pos_iff.2 hnil
    omega

/-- A block that is new in the header is new to the operation, which pays for it. -/
theorem logWrite_room (ho : Ops s) (hr : Room s) (hpc : s.pc = .idle)
    (hcur : ∀ w ∈ s.cur, w.block ∈ s.lh) (hw : Within (MAXOPBLOCKS - 1) s (.logWrite o b v))
    (hs : logWrite g s o b v = .ok s') : Room s' := by
  obtain ⟨hguard, -, rfl⟩ := logWrite_eq_ok hs
  have hact : s.active ≠ [] := ne_nil_of_mem hguard.1
  refine ⟨fun _ hnil => absurd hnil hact, fun _ => ?_⟩
  have hfits := hr.fits hact
  have hgone : o ∉ s.active.erase o := fun hm => (ho.nodup.mem_erase_iff.1 hm).1 rfl
  have hothers := reserved_append (MAXOPBLOCKS - 1) hgone s.all b v
  have hself := blocksOf_append_self o b v s.all
  -- an operation's own blocks are in the header
  have hmem : b ∈ blocksOf o s.all → b ∈ s.lh := by
    intro hb
    obtain ⟨w, hwo, rfl⟩ := mem_blocksOf.1 hb
    rw [← (ho.pending (by rw [hpc]; rfl) o (.inl hguard.1)).1] at hwo
    exact hcur w (mem_of_mem_filter hwo)
  have hlen : (if b ∈ s.lh then s.lh else s.lh ++ [b]).length ≤
      s.lh.length + if b ∈ blocksOf o s.all then 0 else 1 := by
    by_cases hb : b ∈ s.lh
    · rw [if_pos hb]; omega
    · rw [if_neg hb, if_neg fun h => hb (hmem h), length_append, length_singleton]
  simp only [Within] at hw
  rw [← reserved_erase _ hguard.1] at hfits
  dsimp only
  rw [← reserved_erase _ hguard.1, hothers]
  omega

theorem endOp_room (ho : Ops s) (hr : Room s) (hs : endOp s o = .ok s') : Room s' := by
  obtain ⟨hm, hs⟩ := endOp_eq_ok hs
  have hlen := length_erase_of_mem hm
  have hfits := hr.fits (ne_nil_of_mem hm)
  rw [← reserved_erase _ hm] at hfits
  have hout := ho.outstanding
  obtain ⟨hzero, rfl⟩ | ⟨hzero, rfl⟩ := hs
  · have hnil : s.active.erase o = [] := length_eq_zero_iff.1 (by omega)
    refine .of_no_operation hnil fun hq => ?_
    split at hq <;> cases hq
  · refine ⟨fun _ hnil => ?_, fun _ => ?_⟩
    · rw [show s.active.erase o = [] from hnil, length_nil] at hlen
      omega
    · change s.lh.length + reserved (MAXOPBLOCKS - 1) (s.active.erase o) s.all + 2 ≤ LOGSIZE
      omega

theorem diskStep_room (hi : Inv g d s) (ho : Ops s) (hs : diskStep g s = .ok s') : Room s' := by
  have hok := hi.pc
  unfold PcOk at hok
  have hact : s.active = [] := ho.idle fun hq => by
    rw [diskStep, hq] at hs
    cases hs
  unfold diskStep at hs
  cases hq : s.pc <;> rw [hq] at hs hok <;> simp only at hs
  case idle => cases hs
  case writeLog | install => split at hs <;> cases hs <;> exact .of_no_operation hact (by rintro ⟨⟩)
  case writeHead | recover => cases hs; exact .of_no_operation hact (by rintro ⟨⟩)
  case clear =>
    cases hs
    obtain ⟨⟨L, hL⟩, -⟩ := hok
    exact .of_no_operation hact fun _ => hL.empty
  case done => cases hs; exact .of_no_operation hact fun _ => hok.empty

theorem step_room (hi : Inv g d s) (ho : Ops s) (hr : Room s) (hw : Within (MAXOPBLOCKS - 1) s e)
    (hs : step g s e = .ok s') : Room s' := by
  cases e with
  | beginOp => exact beginOp_room ho hr hs
  | logWrite o b v =>
    have hpc := ho.running (logWrite_eq_ok hs).1.1
    have hl := hi.pc
    rw [PcOk, hpc] at hl
    exact logWrite_room ho hr hpc hl.writes hw hs
  | endOp o => exact endOp_room ho hr hs
  | disk => exact diskStep_room hi ho hs
  | read b => cases hs; exact ⟨hr.empty, hr.fits⟩
  | evict b =>
    simp only [step] at hs
    split at hs
    · cases hs
    · cases hs; exact ⟨hr.empty, hr.fits⟩
  | crash => cases hs; exact .of_no_operation rfl (by rintro ⟨⟩)

theorem step_halt (hs : step g s e = .halt p) :
    (∃ o b v, e = .logWrite o b v ∧ logWrite g s o b v = .halt p) ∨ ∃ o, e = .endOp o ∧ endOp s o = .halt p := by
  cases e with
  | logWrite o b v => exact .inl ⟨o, b, v, rfl, hs⟩
  | endOp o => exact .inr ⟨o, rfl, hs⟩
  | beginOp => simp only [step, beginOp] at hs; split at hs <;> cases hs
  | disk =>
    simp only [step, diskStep] at hs
    split at hs <;> first | cases hs | (split at hs <;> cases hs)
  | read b => cases hs
  | evict b => simp only [step] at hs; split at hs <;> cases hs
  | crash => cases hs

theorem logWrite_halt (hs : logWrite g s o b v = .halt p) :
    o ∈ s.active ∧ (p = .tooBig ∧ (s.lh.length ≥ LOGSIZE ∨ s.lh.length ≥ g.size - 1) ∨ p = .outsideOfTrans) := by
  unfold logWrite at hs
  split at hs
  on_goal 2 => cases hs
  rename_i hguard
  split at hs
  · rename_i hfull
    cases hs
    exact ⟨hguard.1, .inl ⟨rfl, hfull⟩⟩
  · split at hs <;> cases hs
    exact ⟨hguard.1, .inr rfl⟩

theorem endOp_halt (hs : endOp s o = .halt p) : o ∈ s.active ∧ s.committing = true ∧ p = .committing := by
  unfold endOp at hs
  split at hs
  on_goal 2 => cases hs
  rename_i hm
  split at hs
  · rename_i hc
    cases hs
    exact ⟨hm, hc, rfl⟩
  · simp only at hs
    split at hs <;> cases hs

/-- **The operations fit in the log.** With a log area of `LOGSIZE` blocks, and in every run in which each operation
logs at most `MAXOPBLOCKS - 1` distinct blocks, any number of times each, no `log_write` finds the header full. -/
theorem log_has_room (hd : readHead (d g.start) = []) (hsize : g.size = LOGSIZE)
    (h : Reach (step g) (· = boot d) (Within (MAXOPBLOCKS - 1)) s) (e : Event) : step g s e ≠ .halt .tooBig := by
  have hinv : (Inv g d s ∧ Ops s) ∧ Room s := by
    refine h.inv (I := fun s => (Inv g d s ∧ Ops s) ∧ Room s) ?_ ?_
    · rintro s rfl
      exact ⟨⟨boot_inv hd, boot_ops⟩, .of_no_operation rfl nofun⟩
    · intro s e s' hI hw he
      exact ⟨step_inv hI.1 he, step_room hI.1.1 hI.1.2 hI.2 hw he⟩
  intro hs
  rcases step_halt hs with ⟨o, b, v, -, hs⟩ | ⟨o, -, hs⟩
  · obtain ⟨hm, ⟨-, hfull⟩ | hp⟩ := logWrite_halt hs
    · have hfits := hinv.2.fits (ne_nil_of_mem hm)
      omega
    · cases hp
  · cases (endOp_halt hs).2.2

instance (k : Nat) (s : Sys) (e : Event) : Decidable (Within k s e) := by
  cases e <;> simp only [Within] <;> infer_instance

/-- Recovery, `n` operations begin, and `m` blocks are logged, `k` by each operation. -/
def fill (n k m : Nat) : List Event :=
  List.replicate 3 Event.disk ++ List.replicate n Event.beginOp ++
    (List.range m).map fun i => Event.logWrite (i / k) (100 + i) ones

theorem log_has_room_of_three :
    step smallLog (after (step smallLog) (boot zeroDisk) (fill 3 9 27)) (.logWrite 2 126 ones) ≠ .halt .tooBig := by
  have hr : Reach (step smallLog) (· = boot zeroDisk) (Within (MAXOPBLOCKS - 1))
      (after (step smallLog) (boot zeroDisk) (fill 3 9 27)) :=
    Reach.of_checked _ (.init rfl) (by decide +kernel)
  exact log_has_room (by decide +kernel) rfl hr _

/-- Three operations are admitted together, and the last one's tenth block is one too many. -/
theorem three_full_operations_too_big : ¬ ∀ (g : Geometry) (d : Nat → Bytes) (s : Sys) (e : Event),
    readHead (d g.start) = [] → g.size = LOGSIZE → Reach (step g) (· = boot d) (Within MAXOPBLOCKS) s →
    Within MAXOPBLOCKS s e → step g s e ≠ .halt .tooBig := by
  intro h
  have hr : Reach (step smallLog) (· = boot zeroDisk) (Within MAXOPBLOCKS)
      (after (step smallLog) (boot zeroDisk) (fill 3 10 29)) :=
    Reach.of_checked _ (.init rfl) (by decide +kernel)
  refine h smallLog zeroDisk _ (.logWrite 2 129 ones) (by decide +kernel) rfl hr (by decide +kernel) ?_
  rw [step, logWrite, if_pos (by decide +kernel), if_pos (by decide +kernel)]

/-! ## Pins and the commit -/

/-- The blocks of the header that `install_trans` has not written home yet. -/
def uninstalled (s : Sys) : List Nat :=
  match s.pc with
  | .idle | .writeLog _ | .writeHead => s.lh
  | .install false tail => s.lh.drop tail
  | _ => []

theorem Inv.pins_eq (h : Inv g d s) : s.pins = uninstalled s := by
  have hok := h.pc
  unfold PcOk at hok
  unfold uninstalled
  cases hq : s.pc <;> rw [hq] at hok
  case idle | done => exact hok.pinned
  case writeLog | writeHead => exact hok.1.pinned
  case install recovering _ => cases recovering <;> exact hok.pinned
  case clear =>
    obtain ⟨⟨L, hL⟩, -⟩ := hok
    exact hL.pinned
  case recover =>
    obtain ⟨L, hL⟩ := hok
    exact hL.pinned

theorem Inv.bread_home (h : Inv g d s) (hrec : s.pc.recovering = false) (hb : g.Home b) :
    (bread s b).1 = applyWrites (applyGroups d s.groups) s.cur b := by
  by_cases hp : b ∈ s.pins
  · exact h.cached.bread_pinned hp
  rw [h.cached.bread_clean hp]
  rw [h.pins_eq] at hp
  -- a block that is not pinned is not part of the current group, or it is installed
  have hlogging : Logging g (applyGroups d s.groups) s.disk s.pins s.lh s.cur → b ∉ s.lh →
      s.disk b = applyWrites (applyGroups d s.groups) s.cur b := by
    intro hl hn
    have hnew : ∀ w ∈ s.cur, w.block ≠ b := fun w hw e => hn (e ▸ hl.writes w hw)
    rw [applyWrites_of_not_mem _ hnew]
    exact hl.cons.rest b hb (by simp)
  have hok := h.pc
  unfold PcOk at hok
  unfold uninstalled at hp
  cases hq : s.pc <;> rw [hq] at hok hp hrec
  case idle => exact hlogging hok hp
  case writeLog | writeHead => exact hlogging hok.1 hp
  case install recovering tail =>
    cases recovering with
    | true => cases hrec
    | false =>
      rw [hok.writes]
      by_cases hm : b ∈ s.lh
      · obtain ⟨i, hi⟩ := mem_iff_getElem?.1 hm
        refine hok.installed i b ?_ hi
        by_contra hle
        exact hp (mem_of_getElem? (i := i - tail) (by rw [List.getElem?_drop, Nat.add_sub_cancel' (by omega), hi]))
      · exact hok.cons.rest b hb hm
  case clear =>
    obtain ⟨⟨L, hL⟩, hall⟩ := hok
    rw [hL.writes]
    exact hall b hb
  case done =>
    rw [hok.writes]
    exact hok.cons.rest b hb (by simp)
  case recover => cases hrec

/-- What the disk invariant does not say: the header is free of duplicates, also on the disk, where recovery reads
it. -/
structure Book (g : Geometry) (s : Sys) : Prop where
  nodup : s.lh.Nodup
  header : (readHead (s.disk g.start)).Nodup

theorem diskStep_book (hi : Inv g d s) (hi' : Inv g d s') (hb : Book g s) (hs : diskStep g s = .ok s') : Book g s' := by
  have hok := hi.pc
  have hok' := hi'.pc
  unfold PcOk at hok hok'
  unfold diskStep at hs
  cases hq : s.pc <;> rw [hq] at hs hok <;> simp only at hs
  case idle => cases hs
  case writeLog tail =>
    split at hs <;> cases hs
    · refine ⟨hb.nodup, ?_⟩
      change (readHead (Function.update s.disk (g.start + tail + 1) _ g.start)).Nodup
      rw [Function.update_of_ne (by omega)]
      exact hb.header
    · exact ⟨hb.nodup, hb.header⟩
  case writeHead =>
    cases hs
    refine ⟨hb.nodup, ?_⟩
    rw [hok'.cons.header]
    exact hb.nodup
  case install recovering tail =>
    split at hs <;> cases hs
    · rename_i b hget
      refine ⟨hb.nodup, ?_⟩
      have hne : g.start ≠ b := by
        rintro rfl
        exact g.not_home g.pos (hok.cons.home _ (mem_of_getElem? hget))
      change (readHead (Function.update s.disk b _ g.start)).Nodup
      rw [Function.update_of_ne hne]
      exact hb.header
    · exact ⟨nodup_nil, hb.header⟩
  case clear recovering =>
    cases hs
    refine ⟨hb.nodup, ?_⟩
    cases recovering <;> (rw [hok'.cons.header]; exact nodup_nil)
  case done =>
    cases hs
    exact ⟨hb.nodup, hb.header⟩
  case recover =>
    cases hs
    obtain ⟨L, hL⟩ := hok
    refine ⟨?_, hb.header⟩
    change (readHead (bread s g.start).1).Nodup
    rw [hi.cached.bread_clean (by rw [hL.pinned]; simp)]
    exact hb.header

theorem step_book (hi : Inv g d s) (hi' : Inv g d s') (hb : Book g s) (hs : step g s e = .ok s') : Book g s' := by
  cases e with
  | beginOp =>
    simp only [step, beginOp] at hs
    split at hs <;> cases hs
    exact ⟨hb.nodup, hb.header⟩
  | logWrite o b v =>
    obtain ⟨-, -, rfl⟩ := logWrite_eq_ok hs
    refine ⟨?_, hb.header⟩
    split
    · exact hb.nodup
    · rename_i hn
      exact List.Nodup.append hb.nodup (nodup_singleton b) (by simpa using hn)
  | endOp o =>
    obtain ⟨-, ⟨-, rfl⟩ | ⟨-, rfl⟩⟩ := endOp_eq_ok hs <;> exact ⟨hb.nodup, hb.header⟩
  | disk => exact diskStep_book hi hi' hb hs
  | read b => cases hs; exact ⟨hb.nodup, hb.header⟩
  | evict b =>
    simp only [step] at hs
    split at hs <;> cases hs
    exact ⟨hb.nodup, hb.header⟩
  | crash => cases hs; exact ⟨nodup_nil, hb.header⟩

theorem Pc.commit_not_recovering : ∀ {q : Pc}, q.commit = true → q.recovering = false
  | .writeLog _, _ | .writeHead, _ | .install false _, _ | .clear false, _ | .done, _ => rfl

/-- The header write moves the current group to the committed ones, and nothing else is written during a commit. -/
theorem diskStep_writes (hc : s.pc.commit = true) (hs : diskStep g s = .ok s') :
    applyWrites (applyGroups d s'.groups) s'.cur = applyWrites (applyGroups d s.groups) s.cur ∧
      s'.pc.recovering = false := by
  unfold diskStep at hs
  cases hq : s.pc <;> rw [hq] at hs hc <;> simp only at hs
  case idle | recover => cases hc
  case writeLog => split at hs <;> cases hs <;> exact ⟨rfl, rfl⟩
  case writeHead =>
    cases hs
    exact ⟨applyGroups_append d s.groups s.cur, rfl⟩
  case install recovering _ =>
    cases recovering with
    | true => cases hc
    | false => split at hs <;> cases hs <;> exact ⟨rfl, rfl⟩
  case clear recovering =>
    cases hs
    cases recovering <;> exact ⟨rfl, rfl⟩
  case done => cases hs; exact ⟨rfl, rfl⟩

/-- During a commit nothing changes what a process reads from a home block. -/
theorem bread_during_commit (hi : Inv g d s) (hi' : Inv g d s') (ho : Ops s) (hc : s.pc.commit = true)
    (he : e ≠ .crash) (hs : step g s e = .ok s') (hb : g.Home b) : (bread s' b).1 = (bread s b).1 := by
  have hidle : s.pc ≠ .idle := by intro hq; rw [hq] at hc; cases hc
  have hact := ho.idle hidle
  have hrec := Pc.commit_not_recovering hc
  have hview : applyWrites (applyGroups d s'.groups) s'.cur = applyWrites (applyGroups d s.groups) s.cur ∧
      s'.pc.recovering = false := by
    cases e with
    | beginOp =>
      simp only [step, beginOp] at hs
      split at hs
      · rename_i hguard; exact absurd (ho.admits hguard.1 hguard.2.1) hidle
      · cases hs
    | logWrite o b v => rw [step, logWrite, if_neg (by simp [hact])] at hs; cases hs
    | endOp o => rw [step, endOp, if_neg (by simp [hact])] at hs; cases hs
    | disk => exact diskStep_writes hc hs
    | read b => cases hs; exact ⟨rfl, hrec⟩
    | evict b =>
      simp only [step] at hs
      split at hs <;> cases hs
      exact ⟨rfl, hrec⟩
    | crash => exact absurd rfl he
  rw [hi'.bread_home hview.2 hb, hi.bread_home hrec hb, hview.1]

theorem reach_book (hd : readHead (d g.start) = []) (h : Reach (step g) (· = boot d) (fun _ _ => True) s) :
    (Inv g d s ∧ Ops s) ∧ Book g s := by
  refine h.inv (I := fun s => (Inv g d s ∧ Ops s) ∧ Book g s) ?_ ?_
  · rintro s rfl
    refine ⟨⟨boot_inv hd, boot_ops⟩, nodup_nil, ?_⟩
    rw [show (boot d).disk = d from rfl, hd]
    exact nodup_nil
  · intro s e s' hI _ he
    have hI' := step_inv hI.1 he
    exact ⟨hI', step_book hI.1.1 hI'.1 hI.2 he⟩

/-- **Group commit.** In every state of every run, crashes included: the header has no block twice; a buffer has one
pin if its block is in the header and not yet installed, and none otherwise; when a commit ends there are no pins and
the header is empty; while `log.committing` is set no operation runs or is admitted, and whatever happens (but for a
crash) leaves the contents of all home blocks; and the panic in `end_op` is unreachable. -/
theorem group_commit_exact (hd : readHead (d g.start) = [])
    (h : Reach (step g) (· = boot d) (fun _ _ => True) s) :
    s.lh.Nodup ∧ (∀ b, s.pins.count b = if b ∈ uninstalled s then 1 else 0) ∧
      (s.pc = .done → s.pins = [] ∧ s.lh = []) ∧
      (s.committing = true → s.outstanding = 0 ∧ s.active = [] ∧ beginOp s = .stuck ∧
        ∀ e s', e ≠ .crash → step g s e = .ok s' → ∀ b, g.Home b → (bread s' b).1 = (bread s b).1) ∧
      ∀ e, step g s e ≠ .halt .committing := by
  obtain ⟨⟨hi, ho⟩, hb⟩ := reach_book hd h
  have hidle : s.committing = true → s.pc ≠ .idle := by
    intro hc hq
    rw [ho.committing, hq] at hc
    cases hc
  refine ⟨hb.nodup, fun b => ?_, fun hq => ?_, fun hc => ⟨?_, ho.idle (hidle hc), ?_, ?_⟩, ?_⟩
  · have hnodup : (uninstalled s).Nodup := by
      unfold uninstalled
      split
      · exact hb.nodup
      · exact hb.nodup
      · exact hb.nodup
      · exact hb.nodup.sublist (drop_sublist _ _)
      · exact nodup_nil
    rw [hi.pins_eq]
    exact hnodup.count
  · have hok := hi.pc
    rw [PcOk, hq] at hok
    exact ⟨hok.pinned, hok.empty⟩
  · rw [ho.outstanding, ho.idle (hidle hc), length_nil]
  · rw [beginOp, if_neg fun hguard => by simp [hc] at hguard]
  · intro e s' he hs b hhome
    rw [ho.committing] at hc
    exact bread_during_commit hi (step_inv ⟨hi, ho⟩ hs).1 ho hc he hs hhome
  · intro e hs
    rcases step_halt hs with ⟨o, b, v, -, hs⟩ | ⟨o, -, hs⟩
    · obtain ⟨-, ⟨hp, -⟩ | hp⟩ := logWrite_halt hs <;> cases hp
    · obtain ⟨hm, hc, -⟩ := endOp_halt hs
      rw [ho.idle (hidle hc)] at hm
      cases hm

/-- One operation logs two blocks and the commit has installed the first of them. -/
def installedOne : List Event :=
  List.replicate 3 Event.disk ++ [Event.beginOp, .logWrite 0 100 ones, .logWrite 0 101 ones, .endOp 0] ++
    List.replicate 5 Event.disk

theorem group_commit_exact_installing :
    (after (step smallLog) (boot zeroDisk) installedOne).committing = true ∧
      (after (step smallLog) (boot zeroDisk) installedOne).outstanding = 0 := by
  have hr : Reach (step smallLog) (· = boot zeroDisk) (fun _ _ => True)
      (after (step smallLog) (boot zeroDisk) installedOne) :=
    Reach.of_checked _ (.init rfl) (by decide +kernel)
  have hc : (after (step smallLog) (boot zeroDisk) installedOne).committing = true := by decide +kernel
  exact ⟨hc, ((group_commit_exact (by decide +kernel) hr).2.2.2.1 hc).1⟩

/-- Block 100 is still in the header, without a pin. -/
theorem unpinned_before_clear : ¬ ∀ (g : Geometry) (d : Nat → Bytes) (s : Sys), readHead (d g.start) = [] →
    Reach (step g) (· = boot d) (fun _ _ => True) s → s.pc.recovering = false →
    ∀ b, s.pins.count b = s.lh.count b := by
  intro h
  have hr : Reach (step smallLog) (· = boot zeroDisk) (fun _ _ => True)
      (after (step smallLog) (boot zeroDisk) installedOne) :=
    Reach.of_checked _ (.init rfl) (by decide +kernel)
  have hcount := h smallLog zeroDisk _ (by decide +kernel) hr (by decide +kernel) 100
  revert hcount
  decide +kernel

end Xv6Riscv.Log
