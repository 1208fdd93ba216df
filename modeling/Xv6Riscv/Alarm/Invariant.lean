import Xv6Riscv.Alarm.Steps

/-!
# The ownership invariant along a run

`Inv` survives every event, with no condition on what user programs do. It is checked on the
elementary steps of `Micro` and lifted by `step_path`.
-/
namespace Xv6Riscv.Alarm
open Machine List
variable {a b c : Nat} {s s' : Sys} {as : List Nat} {l : Label}

/-! ## Ownership moves -/

theorem ref_null (hb : b ≠ 0) : ref 0 b = 0 := if_neg hb.symm

theorem owners_popped (h : s.freelist = a :: as) (b : Nat) : owners (popped s a as) b + ref a b = owners s b := by
  simp only [owners, popped, setPage_freelist, setPage_held, setPage_proc, h, count_cons,
    beq_iff_eq, ref]
  omega

theorem owners_pushed (s : Sys) (a b : Nat) : owners (pushed s a) b = owners s b + ref a b := by
  simp only [owners, pushed, setPage_freelist, setPage_held, setPage_proc, count_cons, beq_iff_eq, ref]
  omega

theorem owners_claimed (s : Sys) (c b : Nat) : owners (claimed s c) b = owners s b :=
  owners_setProc_eq _ _ _ _ rfl rfl

theorem owners_stillborn_le (hc : c < NPROC) (hb : b ≠ 0) :
    owners ((claimed s c).setProc c cleared) b ≤ owners s b := by
  have h1 := owners_setProc (claimed s c) c b cleared (x := 0)
    (y := ((claimed s c).proc c).alarmContext) hc rfl rfl
  have h2 := owners_claimed s c b
  have h3 := ref_null hb
  omega

theorem owners_born_le (hc : c < NPROC) (hf : s.freelist = a :: as) : owners (born s c a as) b ≤ owners s b := by
  have h1 := owners_popped (s := claimed s c) hf b
  have h2 := owners_setProc (popped (claimed s c) a as) c b (fun q => { q with trapframe := a })
    (x := a) (y := ((popped (claimed s c) a as).proc c).alarmContext) hc rfl rfl
  have h3 := owners_claimed s c b
  simp only [born]
  omega

theorem owners_delivered_le {p : Nat} (hp : p < NPROC)
    (hf : s.freelist = a :: as) : owners (delivered s p a as) b ≤ owners s b := by
  -- the page contents, the history and the counter of ticks do not count
  let t := s.setProc p fun q => { q with nticks := q.nticks + 1 }
  have ht : owners t b = owners s b := owners_setProc_eq _ _ _ _ rfl rfl
  have h1 := owners_popped (s := t) hf b
  have h2 := owners_setProc (popped t a as) p b (fun q => { q with alarmContext := a, alarmOn := true })
    (x := ((popped t a as).proc p).trapframe) (y := a) hp rfl rfl
  have h3 : owners (delivered s p a as) b = owners ((popped t a as).setProc p
    fun q => { q with alarmContext := a, alarmOn := true }) b := rfl
  omega

theorem owners_returned {p : Nat} (hp : p < NPROC) (hb : b ≠ 0) : owners (returned s p) b = owners s b := by
  let t := s.setTf p (s.page (s.proc p).alarmContext)
  have h1 := owners_pushed t (s.proc p).alarmContext b
  have h2 := owners_setProc (pushed t (s.proc p).alarmContext) p b
    (fun q => { q with alarmOn := false, nticks := 0, alarmContext := 0 })
    (x := (s.proc p).trapframe) (y := 0) hp rfl rfl
  have h3 := ref_null hb
  have h4 : owners t b = owners s b := rfl
  have h5 : (pushed t (s.proc p).alarmContext).proc p = s.proc p := rfl
  rw [h5] at h2
  change owners ((pushed t (s.proc p).alarmContext).setProc p _) b = owners s b
  omega

theorem owners_death (hc : c < NPROC) (hb : b ≠ 0) :
    owners ((pushed s (s.proc c).trapframe).setProc c cleared) b = owners s b := by
  have h1 := owners_pushed s (s.proc c).trapframe b
  have h2 := owners_setProc (pushed s (s.proc c).trapframe) c b cleared
    (x := 0) (y := (s.proc c).alarmContext) hc rfl rfl
  have h3 := ref_null hb
  rw [pushed_proc] at h2
  omega

section
variable (hm : Micro s l s')
include hm

theorem Micro.owners_le (hb : b ≠ 0) : owners s' b ≤ owners s b := by
  cases hm with
  | field hc hk => exact (owners_setProc_eq _ _ _ _ hk.trapframe hk.alarmContext).le
  | frame => exact le_rfl
  | @kget a as hf =>
    simp only [owners, popped, setPage_freelist, setPage_proc, hf, count_cons]
    omega
  | @kput a ha =>
    have := count_pos_iff.2 ha
    simp only [owners, pushed, setPage_freelist, setPage_held, setPage_proc, count_cons, count_erase,
      beq_iff_eq]
    split_ifs with e
    · subst e; omega
    · omega
  | death hc hu => exact (owners_death hc hb).le
  | stillborn hc hu => exact owners_stillborn_le hc hb
  | birth hc hu hf => exact owners_born_le hc hf
  | alarm hp hu hoff hf => exact owners_delivered_le hp hf
  | sigreturn hp hu hctx => exact (owners_returned hp hb).le

/-! ## `Inv` -/

/-- What an elementary step does to the slots: identity and trapframe pointer stay, the slot becomes
`UNUSED`, or it is a birth, which takes a fresh identity and a non-null trapframe. -/
theorem Micro.slot (h0 : 0 ∉ s.freelist) (c : Nat) : (s'.proc c).state = .unused ∨
    ((s.proc c).state ≠ .unused ∧ (s'.proc c).gen = (s.proc c).gen ∧ (s'.proc c).trapframe = (s.proc c).trapframe) ∨
    (l = .birth c ∧ (s'.proc c).gen = s.births ∧ (s'.proc c).trapframe ≠ 0) := by
  have hw := hm.wrote c
  generalize s'.proc c = q at hw
  by_cases hu : q.state = .unused
  · exact .inl hu
  refine .inr ?_
  cases hw with
  | same => exact .inl ⟨hu, rfl, rfl⟩
  | field hk => exact .inl ⟨fun h => hu (hk.unused.2 h), hk.gen, hk.trapframe⟩
  | death | stillborn => simp [cleared] at hu
  | @birth a as _ hf =>
    have ha : a ≠ 0 := fun e => h0 (by simp [hf, e])
    exact .inr ⟨rfl, by simp [born, claimed], by simpa [born] using ha⟩
  | alarm hup => exact .inl ⟨hup, by simp [delivered], by simp [delivered]⟩
  | sigreturn hup => exact .inl ⟨hup, by simp [returned], by simp [returned]⟩

/-- Only a birth, an alarm and a `sigreturn` of its own change the alarm fields of a live slot. -/
theorem Micro.alarm_fields (c : Nat) : (s'.proc c).state = .unused ∨ l = .birth c ∨ l = .alarm c ∨ l = .sigreturn c ∨
      (s'.proc c).alarmOn = (s.proc c).alarmOn ∧ (s'.proc c).alarmContext = (s.proc c).alarmContext := by
  have hw := hm.wrote c
  generalize s'.proc c = q at hw
  cases hw with
  | same | birth | alarm | sigreturn => simp
  | field hk => simp [hk.alarmOn, hk.alarmContext]
  | death | stillborn => simp [cleared]

theorem Micro.births : s.births ≤ s'.births ∧ ∀ c, l = .birth c → s'.births = s.births + 1 := by
  cases hm <;> simp [born, claimed, popped, pushed, delivered, returned]

theorem Micro.nonnull (h : Inv s) : 0 ∉ s'.freelist ∧ 0 ∉ s'.held := by
  obtain ⟨hf0, hh0⟩ := h.nonnull
  cases hm with
  | field | frame | stillborn => exact ⟨hf0, hh0⟩
  | @kget a as hf =>
    rw [hf] at hf0
    simp only [mem_cons, not_or] at hf0
    exact ⟨hf0.2, by simpa using ⟨hf0.1, hh0⟩⟩
  | @kput a ha =>
    have ha0 : (0 : Nat) ≠ a := fun e => hh0 (e ▸ ha)
    exact ⟨by simpa [pushed] using ⟨ha0, hf0⟩, fun hm => hh0 (mem_of_mem_erase hm)⟩
  | @death c hc hu =>
    have ht := h.trapframe c hc hu
    exact ⟨by simpa [pushed] using ⟨Ne.symm ht, hf0⟩, hh0⟩
  | birth _ _ hf | alarm _ _ _ hf =>
    rw [hf] at hf0
    exact ⟨fun hm => hf0 (mem_cons_of_mem _ hm), hh0⟩
  | sigreturn hp hu hctx => exact ⟨by simpa [returned, pushed] using ⟨Ne.symm hctx, hf0⟩, hh0⟩

end

theorem Inv.micro (h : Inv s) (hm : Micro s l s') : Inv s' where
  unique a ha := (hm.owners_le ha).trans (h.unique a ha)
  nonnull := hm.nonnull h
  trapframe c hc hu := by
    rcases hm.slot h.nonnull.1 c with h' | ⟨hl, _, ht⟩ | ⟨_, _, ht⟩
    · exact absurd h' hu
    · rw [ht]; exact h.trapframe c hc hl
    · exact ht
  gen c hc hu := by
    rcases hm.slot h.nonnull.1 c with h' | ⟨hl, hg, _⟩ | ⟨hl, hg, _⟩
    · exact absurd h' hu
    · rw [hg]; exact (h.gen c hc hl).trans_le hm.births.1
    · rw [hg, hm.births.2 c hl]; exact Nat.lt_succ_self _
  gen_inj c hc d hd huc hud e := by
    rcases hm.slot h.nonnull.1 c with h' | ⟨hlc, hgc, _⟩ | ⟨hlc, hgc, _⟩
    · exact absurd h' huc
    · rcases hm.slot h.nonnull.1 d with h' | ⟨hld, hgd, _⟩ | ⟨hld, hgd, _⟩
      · exact absurd h' hud
      · exact h.gen_inj c hc d hd hlc hld (by omega)
      · have := h.gen c hc hlc; omega
    · rcases hm.slot h.nonnull.1 d with h' | ⟨hld, hgd, _⟩ | ⟨hld, hgd, _⟩
      · exact absurd h' hud
      · have := h.gen d hd hld; omega
      · rw [hlc] at hld; cases hld; rfl

theorem Inv.step {e : Event} (h : Inv s) (he : Alarm.step s e = .ok s') : Inv s' := by
  obtain ⟨ls, hpath, -⟩ := step_path h he
  exact hpath.inv (fun _ _ _ _ hi hm => hi.micro hm) h

theorem Boot.inv (h : Boot s) : Inv s where
  unique a ha := by
    -- only slot 0 refers to a page
    have hslot : ∑ c ∈ Finset.range NPROC, slotOwns (s.proc c) a = ref (s.proc 0).trapframe a := by
      rw [Finset.sum_eq_single_of_mem 0 (Finset.mem_range.2 (by decide))]
      · simp [slotOwns, h.init_alarm.2, ref_null ha]
      · intro c _ e
        obtain ⟨_, ht, _, hctx⟩ := h.others c e
        simp [slotOwns, ht, hctx, ref_null ha]
    have hcount := nodup_iff_count_le_one.1 h.pages a
    simp only [count_cons, count_append, beq_iff_eq] at hcount
    simp only [owners, hslot, ref]
    exact hcount
  nonnull := by
    have := h.nonnull
    simp only [mem_cons, mem_append] at this
    exact ⟨fun hm => this 0 (.inr (.inl hm)) rfl, fun hm => this 0 (.inr (.inr hm)) rfl⟩
  trapframe c _ hu := by
    by_cases e : c = 0
    · subst e; exact h.nonnull _ (mem_cons_self ..)
    · exact absurd (h.others c e).1 hu
  gen c _ hu := by
    by_cases e : c = 0
    · subst e; rw [h.init_gen.1, h.init_gen.2]; exact Nat.one_pos
    · exact absurd (h.others c e).1 hu
  gen_inj c _ d _ huc hud _ := by
    have hz : ∀ c, (s.proc c).state ≠ .unused → c = 0 := fun c hu => by
      by_contra e
      exact hu (h.others c e).1
    rw [hz c huc, hz d hud]

theorem Reach.alarm_inv {allowed : Sys → Event → Prop} (h : Reach Alarm.step Boot allowed s) : Inv s :=
  h.inv (fun _ => Boot.inv) (fun _ _ _ hi _ he => hi.step he)

end Xv6Riscv.Alarm
