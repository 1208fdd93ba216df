import Mathlib.Data.List.Perm.Subperm
import Xv6Riscv.Mlfq.Model

/-!
# The run queues are exact

`Lists` says what the queues hold at every moment: each is a packed table without duplicates, of RUNNABLE
processes of its own level. `Complete s k` says that no RUNNABLE process among the first `k` slots is missing.
Both are invariants of the runs of `Allowed` (`Inv.step`).
-/
namespace Xv6Riscv.Mlfq
open Machine SlotArray List

/-! ## Small lemmas -/

section
variable (s : Sys) (c d i : Nat) (f : Proc → Proc) (q : List (Option Nat)) (pc : Pc)

@[simp] theorem setProc_self : (s.setProc c f).proc c = f (s.proc c) := by simp [Sys.setProc]
theorem setProc_ne (h : d ≠ c) : (s.setProc c f).proc d = s.proc d := by simp [Sys.setProc, h]
@[simp] theorem setProc_queue : (s.setProc c f).queue = s.queue := rfl
@[simp] theorem setProc_pc : (s.setProc c f).pc = s.pc := rfl
@[simp] theorem setQueue_proc : (s.setQueue i q).proc = s.proc := rfl
@[simp] theorem setQueue_self : (s.setQueue i q).queue i = q := by simp [Sys.setQueue]
theorem setQueue_ne {j : Nat} (h : j ≠ i) : (s.setQueue i q).queue j = s.queue j := by simp [Sys.setQueue, h]
@[simp] theorem goto_proc : (s.goto pc).proc = s.proc := rfl
@[simp] theorem goto_queue : (s.goto pc).queue = s.queue := rfl
@[simp] theorem goto_pc : (s.goto pc).pc = pc := rfl

end

/-- `c` is in the queue of its level. -/
def Listed (s : Sys) (c : Nat) : Prop := c ∈ listed (s.queue (s.proc c).pr)

/-- What one level of the queues looks like. -/
structure Level (s : Sys) (i : Nat) : Prop where
  length : (s.queue i).length = NPROC
  packed : Packed (s.queue i)
  nodup : (listed (s.queue i)).Nodup
  sound : ∀ c ∈ listed (s.queue i), c < NPROC ∧ (s.proc c).state = .runnable ∧ (s.proc c).pr = i

structure Lists (s : Sys) : Prop where
  level : ∀ i < NPR, Level s i
  pr : ∀ c < NPROC, (s.proc c).pr < NPR
  pid : ∀ c < NPROC, ∀ d < NPROC, (s.proc c).state ≠ .unused → (s.proc d).state ≠ .unused →
    (s.proc c).pid = (s.proc d).pid → c = d

/-- No RUNNABLE process among the first `k` slots is missing from the queues. -/
def Complete (s : Sys) (k : Nat) : Prop := ∀ c < k, (s.proc c).state = .runnable → Listed s c

/-- All slots are RUNNABLE at level `i`. -/
def Full (s : Sys) (i : Nat) : Prop := ∀ c < NPROC, (s.proc c).state = .runnable ∧ (s.proc c).pr = i

/-! ## Updates of one process -/

/-- The two states differ in fields the queues do not depend on. -/
structure Agrees (s s' : Sys) : Prop where
  state : ∀ c, (s'.proc c).state = (s.proc c).state
  pid : ∀ c, (s'.proc c).pid = (s.proc c).pid
  pr : ∀ c, (s'.proc c).pr = (s.proc c).pr
  queue : s'.queue = s.queue

variable {s s' : Sys}

theorem Agrees.of_eq (hp : s'.proc = s.proc) (hq : s'.queue = s.queue) : Agrees s s' :=
  ⟨fun c => by rw [hp], fun c => by rw [hp], fun c => by rw [hp], hq⟩

variable {c : Nat} {f : Proc → Proc}

theorem Agrees.setProc (hs : (f (s.proc c)).state = (s.proc c).state)
    (hp : (f (s.proc c)).pid = (s.proc c).pid) (hr : (f (s.proc c)).pr = (s.proc c).pr) : Agrees s (s.setProc c f) := by
  have h : ∀ {β : Type} (g : Proc → β), g (f (s.proc c)) = g (s.proc c) →
      ∀ d, g ((s.setProc c f).proc d) = g (s.proc d) := by
    intro β g hg d
    by_cases e : d = c
    · subst e; rw [setProc_self, hg]
    · rw [setProc_ne _ _ _ _ e]
  exact ⟨h Proc.state hs, h Proc.pid hp, h Proc.pr hr, rfl⟩

theorem Agrees.lists (h : Agrees s s') (hl : Lists s) : Lists s' where
  level i hi := by
    have hlev := hl.level i hi
    refine ⟨?_, ?_, ?_, ?_⟩
    · rw [h.queue]; exact hlev.length
    · rw [h.queue]; exact hlev.packed
    · rw [h.queue]; exact hlev.nodup
    · intro c hc
      rw [h.queue] at hc
      rw [h.state, h.pr]
      exact hlev.sound c hc
  pr c hc := by rw [h.pr]; exact hl.pr c hc
  pid c hc d hd := by rw [h.state, h.state, h.pid, h.pid]; exact hl.pid c hc d hd

theorem Agrees.complete (h : Agrees s s') {k : Nat} (hc : Complete s k) : Complete s' k := by
  intro c hck hst
  rw [h.state] at hst
  rw [Listed, h.queue, h.pr]
  exact hc c hck hst

/-- `c` is in no queue. -/
def Unlisted (s : Sys) (c : Nat) : Prop := ∀ i < NPR, c ∉ listed (s.queue i)

theorem Lists.unlisted (h : Lists s) (hidle : (s.proc c).state ≠ .runnable) : Unlisted s c :=
  fun i hi hm => hidle ((h.level i hi).sound c hm).2.1

theorem Lists.setProc (h : Lists s) (hout : Unlisted s c)
    (hpr : (f (s.proc c)).pr < NPR) (hpid : (f (s.proc c)).state = .unused ∨
      ∀ d < NPROC, d ≠ c → (s.proc d).state ≠ .unused → (s.proc d).pid ≠ (f (s.proc c)).pid) :
    Lists (s.setProc c f) where
  level i hi := by
    have hlev := h.level i hi
    refine ⟨hlev.length, hlev.packed, hlev.nodup, fun d hd => ?_⟩
    have hne : d ≠ c := by rintro rfl; exact hout i hi hd
    rw [setProc_ne _ _ _ _ hne]
    exact hlev.sound d hd
  pr d hd := by
    by_cases e : d = c
    · subst e; rw [setProc_self]; exact hpr
    · rw [setProc_ne _ _ _ _ e]; exact h.pr d hd
  pid a ha b hb hua hub hab := by
    by_cases ea : a = c
    · by_cases eb : b = c
      · rw [ea, eb]
      subst ea
      rw [setProc_self] at hua hab
      rw [setProc_ne _ _ _ _ eb] at hub hab
      rcases hpid with h1 | h1
      · exact absurd h1 hua
      · exact absurd hab.symm (h1 b hb eb hub)
    · rw [setProc_ne _ _ _ _ ea] at hua hab
      by_cases eb : b = c
      · subst eb
        rw [setProc_self] at hub hab
        rcases hpid with h1 | h1
        · exact absurd h1 hub
        · exact absurd hab (h1 a ha ea hua)
      · rw [setProc_ne _ _ _ _ eb] at hub hab
        exact h.pid a ha b hb hua hub hab

theorem Lists.setProc_pid (h : Lists s) (hout : Unlisted s c)
    (hc : c < NPROC) (hused : (s.proc c).state ≠ .unused) (hpr : (f (s.proc c)).pr < NPR)
    (hpid : (f (s.proc c)).pid = (s.proc c).pid) : Lists (s.setProc c f) := by
  refine h.setProc hout hpr (.inr ?_)
  intro d hd hne hu heq
  rw [hpid] at heq
  exact hne (h.pid d hd c hc hu hused heq)

theorem Complete.setProc {k : Nat} (h : Complete s k)
    (hc : k ≤ c ∨ (f (s.proc c)).state ≠ .runnable) : Complete (s.setProc c f) k := by
  intro d hd hst
  have hne : d ≠ c := by
    rintro rfl
    rcases hc with hc | hc
    · omega
    · rw [setProc_self] at hst; exact hc hst
  rw [setProc_ne _ _ _ _ hne] at hst
  rw [Listed, setProc_queue, setProc_ne _ _ _ _ hne]
  exact h d hd hst

/-! ## `queue_proc` and `dequeue_proc` -/

theorem Lists.any_samePid (h : Lists s) {i p : Nat} (hi : i < NPR) (hp : p < NPROC)
    (hu : (s.proc p).state ≠ .unused) : (listed (s.queue i)).any (samePid s p) = true ↔ p ∈ listed (s.queue i) := by
  simp only [any_eq_true, samePid, beq_iff_eq]
  constructor
  · rintro ⟨d, hd, heq⟩
    obtain ⟨hdn, hst, _⟩ := (h.level i hi).sound d hd
    rwa [h.pid p hp d hdn hu (by simp [hst]) heq.symm]
  · intro hm
    exact ⟨p, hm, rfl⟩

theorem Level.none_mem {i p : Nat} (h : Level s i) (hp : p < NPROC) (hn : p ∉ listed (s.queue i)) :
    none ∈ s.queue i := by
  have hsub : listed (s.queue i) ⊆ (List.range NPROC).erase p := by
    intro c hc
    have hne : c ≠ p := by rintro rfl; exact hn hc
    exact (mem_erase_of_ne hne).2 (mem_range.2 (h.sound c hc).1)
  have hlen := (subperm_of_subset h.nodup hsub).length_le
  rw [length_erase_of_mem (mem_range.2 hp), length_range] at hlen
  have hpacked := h.packed
  rw [Packed, h.length] at hpacked
  rw [hpacked]
  have hpos : NPROC - (listed (s.queue i)).length ≠ 0 := by omega
  simp [hpos]

theorem Level.setQueue_ne {i j : Nat} {q : List (Option Nat)} (h : Level s j) (hne : j ≠ i) :
    Level (s.setQueue i q) j := by
  have e : (s.setQueue i q).queue j = s.queue j := Mlfq.setQueue_ne _ _ _ hne
  exact ⟨by rw [e]; exact h.length, by rw [e]; exact h.packed, by rw [e]; exact h.nodup, by rw [e]; exact h.sound⟩

/-- `queue_proc` of a RUNNABLE process: it is in its queue afterwards, and nothing else moves. -/
theorem queueProc_spec {p : Nat} (h : Lists s) (hp : p < NPROC)
    (hst : (s.proc p).state = .runnable) (hs : queueProc s p = .ok s') :
    Lists s' ∧ s'.proc = s.proc ∧ s'.pc = s.pc ∧ Listed s' p ∧ ∀ c, Listed s c → Listed s' c := by
  have hi := h.pr p hp
  have hu : (s.proc p).state ≠ .unused := by simp [hst]
  have hlev := h.level _ hi
  have hany := h.any_samePid hi hp hu
  simp only [queueProc, hi, if_true] at hs
  cases hs
  -- the new table of the level, with `p` in it exactly once
  generalize hr : push (samePid s p) p (s.queue (s.proc p).pr) = r
  have hnew : Packed r ∧ (listed r).Nodup ∧ ∀ c, c ∈ listed r ↔ c ∈ listed (s.queue (s.proc p).pr) ∨ c = p := by
    by_cases hm : p ∈ listed (s.queue (s.proc p).pr)
    · have hq : r = s.queue (s.proc p).pr := by
        by_cases hn : none ∈ s.queue (s.proc p).pr
        · have hpush := push_spec (samePid s p) p hlev.packed hn
          rw [hr, if_pos (hany.2 hm)] at hpush
          have hlen : r.length = (s.queue (s.proc p).pr).length := by rw [← hr]; simp
          have h1 := hpush.1
          have h2 := hlev.packed
          rw [h1, h2, hpush.2, hlen, ← h2]
        · rw [← hr]; exact push_full _ _ hn
      rw [hq]
      refine ⟨hlev.packed, hlev.nodup, fun c => ⟨.inl, ?_⟩⟩
      rintro (hc | rfl)
      · exact hc
      · exact hm
    · have hpush := push_spec (samePid s p) p hlev.packed (hlev.none_mem hp hm)
      rw [hr, if_neg (fun hc => hm (hany.1 hc))] at hpush
      refine ⟨hpush.1, ?_, fun c => ?_⟩
      · rw [hpush.2]
        refine nodup_append.2 ⟨hlev.nodup, by simp, ?_⟩
        intro a ha b hb hab
        rw [mem_singleton.1 hb] at hab
        exact hm (hab ▸ ha)
      · rw [hpush.2]; simp
  obtain ⟨hpacked, hnodup, hmem⟩ := hnew
  refine ⟨⟨?_, h.pr, h.pid⟩, rfl, rfl, ?_, ?_⟩
  · intro j hj
    by_cases e : j = (s.proc p).pr
    · subst e
      refine ⟨?_, ?_, ?_, ?_⟩ <;> rw [setQueue_self]
      · rw [← hr, length_push]; exact hlev.length
      · exact hpacked
      · exact hnodup
      · intro c hc
        rcases (hmem c).1 hc with hc | rfl
        · exact hlev.sound c hc
        · exact ⟨hp, hst, rfl⟩
    · exact (h.level j hj).setQueue_ne e
  · rw [Listed, setQueue_proc, setQueue_self]
    exact (hmem p).2 (.inr rfl)
  · intro c hc
    rw [Listed, setQueue_proc]
    by_cases e : (s.proc c).pr = (s.proc p).pr
    · rw [Listed, e] at hc
      rw [e, setQueue_self]
      exact (hmem c).2 (.inl hc)
    · rw [setQueue_ne _ _ _ e]; exact hc

theorem Level.none_mem_of_not_full {i : Nat} (h : Level s i) (hfull : ¬ Full s i) : none ∈ s.queue i := by
  simp only [Full, not_forall] at hfull
  obtain ⟨c, hc, hnot⟩ := hfull
  exact h.none_mem hc fun hmc => hnot ((h.sound c hmc).2)

theorem Lists.listed_remove {p : Nat} (h : Lists s) (hp : p < NPROC) (hm : Listed s p)
    (hnone : none ∈ s.queue (s.proc p).pr) :
    listed (remove (samePid s p) (s.queue (s.proc p).pr)) = (listed (s.queue (s.proc p).pr)).erase p := by
  have hlev := h.level _ (h.pr p hp)
  have hst := (hlev.sound p hm).2.1
  rw [(remove_spec (samePid s p) hlev.packed hnone).2.2, erase_eq_eraseP']
  apply eraseP_congr
  intro c hc
  obtain ⟨hcn, hcst, _⟩ := hlev.sound c hc
  simp only [samePid]
  rw [Bool.eq_iff_iff, beq_iff_eq, beq_iff_eq]
  constructor
  · intro heq
    exact h.pid c hcn p hp (by simp [hcst]) (by simp [hst]) heq
  · rintro rfl; rfl

/-- `dequeue_proc` of a queued process, when its queue is not full: it is in no queue afterwards. -/
theorem dequeueProc_spec {p : Nat} (h : Lists s) (hp : p < NPROC) (hm : Listed s p)
    (hnone : none ∈ s.queue (s.proc p).pr) (hs : dequeueProc s p = .ok s') :
    Lists s' ∧ s'.proc = s.proc ∧ s'.pc = s.pc ∧ Unlisted s' p ∧ ∀ c, c ≠ p → Listed s c → Listed s' c := by
  have hi := h.pr p hp
  have hlev := h.level _ hi
  have herase := h.listed_remove hp hm hnone
  have hpacked := (remove_spec (samePid s p) hlev.packed hnone).1
  simp only [dequeueProc, hi, if_true] at hs
  cases hs
  generalize hr : remove (samePid s p) (s.queue (s.proc p).pr) = r at herase hpacked
  have hmem : ∀ c, c ∈ listed r ↔ c ≠ p ∧ c ∈ listed (s.queue (s.proc p).pr) := by
    intro c
    rw [herase, hlev.nodup.mem_erase_iff]
  refine ⟨⟨?_, h.pr, h.pid⟩, rfl, rfl, ?_, ?_⟩
  · intro j hj
    by_cases e : j = (s.proc p).pr
    · subst e
      refine ⟨?_, ?_, ?_, ?_⟩ <;> rw [setQueue_self]
      · rw [← hr, length_remove]; exact hlev.length
      · exact hpacked
      · rw [herase]; exact hlev.nodup.erase p
      · intro c hc
        exact hlev.sound c ((hmem c).1 hc).2
    · exact (h.level j hj).setQueue_ne e
  · intro j hj hpj
    by_cases e : j = (s.proc p).pr
    · subst e
      rw [setQueue_self] at hpj
      exact ((hmem p).1 hpj).1 rfl
    · rw [setQueue_ne _ _ _ e] at hpj
      exact e ((h.level j hj).sound p hpj).2.2.symm
  · intro c hne hc
    rw [Listed, setQueue_proc]
    by_cases e : (s.proc c).pr = (s.proc p).pr
    · rw [Listed, e] at hc
      rw [e, setQueue_self]
      exact (hmem c).2 ⟨hne, hc⟩
    · rw [setQueue_ne _ _ _ e]; exact hc

end Xv6Riscv.Mlfq
