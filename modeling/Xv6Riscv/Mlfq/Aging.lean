import Xv6Riscv.Mlfq.Runs

/-!
# One pass of the aging loop (proc.c:731)

The loop walks over `queue[i][0..NPROC)` while `dequeue_proc` moves the entries behind an aged process one
slot down: the process right behind it is not looked at in this pass. `agingPass` is the loop without an
interrupt in it; `aging_levels` says what it does to the queues, in terms of `SlotArray.sweep`.
-/
namespace Xv6Riscv.Mlfq
open Machine SlotArray List
open Outcome (bind_eq_ok bind_ok)

/-- `fp->wticks >= 30` -/
def aged (s : Sys) (c : Nat) : Bool := 30 ≤ (s.proc c).wticks.toInt

/-- The aging loop from its first iteration to the selection loop, with no interrupt in between. -/
def agingPass (s : Sys) : Outcome Panic Sys :=
  run step (s.goto (.age 1 0)) (List.replicate ((NPR - 1) * (NPROC + 1) + 1) .sched)

/-- What a pass is for: each aged process of a level above 0 goes to the tail of the level below, in the order
they were queued, and everybody else stays. -/
structure AgesAll (s s' : Sys) : Prop where
  ends : s'.pc = .select 0 0
  lists : Lists s'
  lowest : listed (s'.queue 0) = listed (s.queue 0) ++ (listed (s.queue 1)).filter (aged s)
  level : ∀ i, 0 < i → i + 1 < NPR → listed (s'.queue i) =
    (listed (s.queue i)).filter (fun c => !aged s c) ++ (listed (s.queue (i + 1))).filter (aged s)
  highest : listed (s'.queue (NPR - 1)) = (listed (s.queue (NPR - 1))).filter fun c => !aged s c
  up : ∀ i, 0 < i → i < NPR → ∀ c ∈ listed (s.queue i), aged s c = true →
    s'.proc c = { s.proc c with pr := i - 1, wticks := 0 }
  stays : ∀ c, (∀ i, 0 < i → i < NPR → c ∈ listed (s.queue i) → aged s c = false) → s'.proc c = s.proc c

/-! ## One iteration -/

variable {s s' : Sys} {i j c : Nat}

theorem queueProc_listed (h : Lists s) (hc : c < NPROC) (hst : (s.proc c).state = .runnable)
    (hout : c ∉ listed (s.queue (s.proc c).pr)) (hs : queueProc s c = .ok s') :
    listed (s'.queue (s.proc c).pr) = listed (s.queue (s.proc c).pr) ++ [c] ∧
      ∀ k, k ≠ (s.proc c).pr → s'.queue k = s.queue k := by
  have hi := h.pr c hc
  have hlev := h.level _ hi
  have hany := h.any_samePid hi hc (by simp [hst])
  simp only [queueProc, hi, if_true] at hs
  cases hs
  constructor
  · rw [setQueue_self, (push_spec (samePid s c) c hlev.packed (hlev.none_mem hc hout)).2,
      if_neg (fun hm => hout (hany.1 hm))]
  · intro k hk
    exact setQueue_ne _ _ _ hk

theorem age_one {done rest : List Nat} (h : Lists s) (hi0 : 0 < i) (hi : i < NPR) (hnone : none ∈ s.queue i)
    (hl : listed (s.queue i) = done ++ c :: rest) :
    ∃ s', (dequeueProc s c).bind (fun s1 => queueProc (s1.setProc c promote) c) = .ok s' ∧ Lists s' ∧
      s'.proc = Function.update s.proc c { s.proc c with pr := i - 1, wticks := 0 } ∧ s'.pc = s.pc ∧
      listed (s'.queue i) = done ++ rest ∧ none ∈ s'.queue i ∧
      listed (s'.queue (i - 1)) = listed (s.queue (i - 1)) ++ [c] ∧
      ∀ k, k ≠ i → k ≠ i - 1 → s'.queue k = s.queue k := by
  have hm : c ∈ listed (s.queue i) := by simp [hl]
  obtain ⟨hc, hst, hpr⟩ := (h.level i hi).sound c hm
  have hlisted : Listed s c := by rw [Listed, hpr]; exact hm
  have hne : i - 1 ≠ i := by omega
  subst hpr
  have hdeq : dequeueProc s c = .ok (s.setQueue (s.proc c).pr (remove (samePid s c) (s.queue (s.proc c).pr))) := by
    rw [dequeueProc, if_pos hi]
  obtain ⟨hl1, hproc1, -, hgone, -⟩ := dequeueProc_spec h hc hlisted hnone hdeq
  have herase : (listed (s.queue (s.proc c).pr)).erase c = done ++ rest := by
    have hnodup := (h.level _ hi).nodup
    rw [hl] at hnodup ⊢
    have hcd : c ∉ done := fun hcd => (nodup_append.1 hnodup).2.2 c hcd c (mem_cons_self ..) rfl
    rw [erase_append_right _ hcd, erase_cons_head]
  have hrem := h.listed_remove hc hlisted hnone
  have hnone1 := (remove_spec (samePid s c) (h.level _ hi).packed hnone).2.1
  rw [herase] at hrem
  generalize remove (samePid s c) (s.queue (s.proc c).pr) = r at hdeq hl1 hproc1 hgone hrem hnone1
  have hpromote : promote (s.proc c) = { s.proc c with pr := (s.proc c).pr - 1, wticks := 0 } := by
    rw [promote, if_neg (by omega)]
  -- between the two calls the process is in no queue, so its level may change
  have hl2 : Lists ((s.setQueue (s.proc c).pr r).setProc c promote) := by
    refine hl1.setProc_pid hgone hc (by simp [hst]) ?_ rfl
    rw [setQueue_proc, hpromote]
    show (s.proc c).pr - 1 < NPR
    omega
  have hself : ((s.setQueue (s.proc c).pr r).setProc c promote).proc c =
      { s.proc c with pr := (s.proc c).pr - 1, wticks := 0 } := by
    rw [setProc_self, setQueue_proc, hpromote]
  have hlow : (s.proc c).pr - 1 < NPR := by omega
  obtain ⟨s2, hq⟩ : ∃ s2, queueProc ((s.setQueue (s.proc c).pr r).setProc c promote) c = .ok s2 := by
    rw [queueProc, hself, if_pos hlow]
    exact ⟨_, rfl⟩
  have hspec := queueProc_spec hl2 hc (by rw [hself]; exact hst) hq
  have hlist := queueProc_listed hl2 hc (by rw [hself]; exact hst)
    (by rw [hself, setProc_queue]; exact hgone _ hlow) hq
  rw [hself, setProc_queue, setQueue_ne _ _ _ hne] at hlist
  refine ⟨s2, by rw [hdeq]; exact hq, hspec.1, ?_, hspec.2.2.1, ?_, ?_, hlist.1, ?_⟩
  · rw [hspec.2.1]
    exact congrArg (Function.update s.proc c) hpromote
  · rw [hlist.2 _ hne.symm, setQueue_self, hrem]
  · rw [hlist.2 _ hne.symm, setQueue_self]
    exact hnone1
  · intro k hk hk'
    rw [hlist.2 k hk', setQueue_ne _ _ _ hk]

/-! ## One level -/

/-- The state in the middle of a pass that began in `s₀`, when the processes in `up` have gone up. -/
structure Mid (s₀ s : Sys) (up : List Nat) : Prop where
  lists : Lists s
  proc : ∀ c, s.proc c = if c ∈ up then { s₀.proc c with pr := (s₀.proc c).pr - 1, wticks := 0 } else s₀.proc c

variable {s₀ : Sys} {up : List Nat}

theorem Mid.aged_eq (h : Mid s₀ s up) (hc : c ∉ up) : aged s c = aged s₀ c := by
  rw [aged, h.proc, if_neg hc, aged]

theorem Level.entry_eq (h : Level s i) (j : Nat) : s.entry i j = (listed (s.queue i))[j]? := by
  have hp := h.packed
  rw [Sys.entry, hp, listed_packed, getD_eq_getElem?_getD, List.getElem?_append, length_map]
  split
  next hj => simp [hj]
  next hj =>
    have hnone : (listed (s.queue i))[j]? = none := List.getElem?_eq_none (Nat.le_of_not_lt hj)
    rw [hnone, List.getElem?_replicate]
    split <;> rfl

theorem Level.length_le (h : Level s i) : (listed (s.queue i)).length ≤ NPROC := by
  rw [← h.length]
  exact length_filterMap_le ..

/-- What is left of level `i` from slot `j` on: the loop has looked at `done`, and takes from `todo` what
`sweep` says. -/
theorem level_run (hi0 : 0 < i) (hi : i < NPR) : ∀ (n : Nat) {j : Nat} {s : Sys} {up : List Nat} (done todo : List Nat),
    j + n = NPROC → s.pc = .age i j → Mid s₀ s up → listed (s.queue i) = done ++ todo → done.length ≤ j →
    (todo ≠ [] → done.length = j) → (none ∈ s.queue i ∨ ∀ c ∈ todo, aged s₀ c = false) → (∀ c ∈ todo, c ∉ up) →
    ∃ s', run step s (List.replicate n .sched) = .ok s' ∧ s'.pc = .age i NPROC ∧
      Mid s₀ s' (up ++ (sweep (aged s₀) false todo).1) ∧ listed (s'.queue i) = done ++ (sweep (aged s₀) false todo).2 ∧
      listed (s'.queue (i - 1)) = listed (s.queue (i - 1)) ++ (sweep (aged s₀) false todo).1 ∧
      ∀ k, k ≠ i → k ≠ i - 1 → s'.queue k = s.queue k := by
  intro n
  induction n with
  | zero =>
    intro j s up done todo hj hpc hmid hl hle hlen _ _
    have htodo : todo = [] := by
      by_contra hne
      have hbound := (hmid.lists.level i hi).length_le
      have hpos := length_pos_of_ne_nil hne
      rw [hl, length_append, hlen hne] at hbound
      omega
    subst htodo
    have hjn : j = NPROC := by omega
    rw [hjn] at hpc
    refine ⟨s, rfl, hpc, ?_, hl, ?_, fun _ _ _ => rfl⟩
    · simpa [sweep] using hmid
    · simp [sweep]
  | succ n ih =>
    intro j s up done todo hj hpc hmid hl hle hlen hfull hup
    have hlev := hmid.lists.level i hi
    have hjlt : j < NPROC := by omega
    have hstep : step s .sched = ageStep s i j := by simp only [step, hpc]
    cases todo with
    | nil =>
      -- past the last entry
      have hentry : s.entry i j = none := by
        rw [hlev.entry_eq, hl, append_nil, List.getElem?_eq_none hle]
      have hnext : step s .sched = .ok (s.goto (.age i (j + 1))) := by
        rw [hstep, ageStep, if_pos hi, if_pos hjlt, hentry]
      obtain ⟨s', hrun, hrest⟩ := ih done [] (j := j + 1) (s := s.goto (.age i (j + 1))) (by omega) rfl
        ⟨hmid.lists.goto, hmid.proc⟩ hl (by omega) (fun h => absurd rfl h) (.inr (by simp)) (by simp)
      refine ⟨s', ?_, hrest⟩
      rw [replicate_succ, run, hnext]
      exact hrun
    | cons c rest =>
      have hentry : s.entry i j = some c := by
        rw [hlev.entry_eq, hl, ← hlen (by simp)]
        simp
      have hcup := hup c (mem_cons_self ..)
      have hold := hmid.aged_eq hcup
      by_cases hc : aged s₀ c = true
      · -- `c` goes up; the loop leaves the slot that the next entry has just moved to
        have hnone : none ∈ s.queue i := by
          rcases hfull with h | h
          · exact h
          · rw [h c (mem_cons_self ..)] at hc
            cases hc
        obtain ⟨s1, h1, hl1, hproc1, hpc1, hi1, hnone1, hlow1, hother1⟩ := age_one hmid.lists hi0 hi hnone hl
        have hpr : (s.proc c).pr = i := (hlev.sound c (by simp [hl])).2.2
        have hnext : step s .sched = .ok (s1.goto (.age i (j + 1))) := by
          rw [hstep, ageStep, if_pos hi, if_pos hjlt, hentry]
          show (if 30 ≤ (s.proc c).wticks.toInt then _ else _) = _
          rw [if_pos (of_decide_eq_true (hold.trans hc))]
          obtain ⟨t, ht, ht'⟩ := bind_eq_ok.1 h1
          rw [ht, bind_ok, ht', bind_ok]
        have hmid1 : Mid s₀ (s1.goto (.age i (j + 1))) (up ++ [c]) := by
          refine ⟨hl1.goto, fun d => ?_⟩
          have hd := hmid.proc d
          rw [goto_proc, hproc1]
          by_cases e : d = c
          · subst e
            rw [if_neg hcup] at hd
            rw [Function.update_self, if_pos (by simp), ← hpr, hd]
          · rw [Function.update_of_ne e, hd]
            simp [e]
        have hrest : ∀ d ∈ rest, d ∉ up ++ [c] := by
          intro d hd hm
          rcases mem_append.1 hm with hm | hm
          · exact hup d (mem_cons_of_mem _ hd) hm
          · obtain rfl := mem_singleton.1 hm
            have hnodup := hlev.nodup
            rw [hl] at hnodup
            exact (nodup_cons.1 (nodup_append.1 hnodup).2.1).1 hd
        have hdone := hlen (by simp)
        have hsweep : sweep (aged s₀) false (c :: rest) =
            (c :: (sweep (aged s₀) true rest).1, (sweep (aged s₀) true rest).2) := by rw [sweep, if_pos hc]
        obtain ⟨s', hrun, hpc', hmid', hi', hlow', hother'⟩ :
            ∃ s', run step (s1.goto (.age i (j + 1))) (List.replicate n .sched) = .ok s' ∧ s'.pc = .age i NPROC ∧
              Mid s₀ s' (up ++ [c] ++ (sweep (aged s₀) true rest).1) ∧
              listed (s'.queue i) = done ++ (sweep (aged s₀) true rest).2 ∧
              listed (s'.queue (i - 1)) = listed (s1.queue (i - 1)) ++ (sweep (aged s₀) true rest).1 ∧
              ∀ k, k ≠ i → k ≠ i - 1 → s'.queue k = s1.queue k := by
          cases rest with
          | nil =>
            rw [append_nil] at hi1
            exact ih done [] (by omega) rfl hmid1 (by rw [append_nil]; exact hi1) (by omega)
              (fun h => absurd rfl h) (.inr (by simp)) (by simp)
          | cons d l =>
            obtain ⟨s', h1, h2, h3, h4, h5, h6⟩ := ih (done ++ [d]) l (s := s1.goto (.age i (j + 1)))
              (by omega) rfl hmid1 (by rw [append_assoc]; exact hi1)
              (by rw [length_append, length_singleton]; omega)
              (fun _ => by rw [length_append, length_singleton]; omega) (.inl hnone1)
              (fun e he => hrest e (mem_cons_of_mem _ he))
            refine ⟨s', h1, h2, h3, ?_, h5, h6⟩
            rw [h4, append_assoc]
            rfl
        refine ⟨s', ?_, hpc', ?_, ?_, ?_, ?_⟩
        · rw [replicate_succ, run, hnext]
          exact hrun
        · rw [hsweep]
          simpa using hmid'
        · rw [hi', hsweep]
        · rw [hlow', hlow1, hsweep]
          simp
        · intro k hk hk'
          rw [hother' k hk hk', hother1 k hk hk']
      · have hnext : step s .sched = .ok (s.goto (.age i (j + 1))) := by
          rw [hstep, ageStep, if_pos hi, if_pos hjlt, hentry]
          show (if 30 ≤ (s.proc c).wticks.toInt then _ else _) = _
          rw [if_neg (fun h => hc (hold.symm.trans (decide_eq_true h)))]
        have hsweep : sweep (aged s₀) false (c :: rest) =
            ((sweep (aged s₀) false rest).1, c :: (sweep (aged s₀) false rest).2) := by rw [sweep, if_neg hc]
        obtain ⟨s', hrun, hpc', hmid', hi', hrest⟩ := ih (done ++ [c]) rest (s := s.goto (.age i (j + 1)))
          (by omega) rfl ⟨hmid.lists.goto, hmid.proc⟩ (by rw [append_assoc]; exact hl)
          (by rw [length_append, length_singleton]; have := hlen (by simp); omega)
          (fun _ => by rw [length_append, length_singleton, hlen (by simp)])
          (hfull.imp_right fun h d hd => h d (mem_cons_of_mem _ hd))
          (fun d hd => hup d (mem_cons_of_mem _ hd))
        rw [hsweep]
        refine ⟨s', ?_, hpc', hmid', ?_, hrest⟩
        · rw [replicate_succ, run, hnext]
          exact hrun
        · rw [hi', append_assoc]
          rfl

/-! ## All levels -/

/-- The processes that a pass takes from level `k`, and those it leaves there. -/
def taken (s : Sys) (k : Nat) : List Nat := (sweep (aged s) false (listed (s.queue k))).1
def kept (s : Sys) (k : Nat) : List Nat := (sweep (aged s) false (listed (s.queue k))).2

theorem mem_taken (h : c ∈ taken s i) : c ∈ listed (s.queue i) ∧ aged s c = true :=
  mem_filter.1 ((sweep_sublist ..).subset h)

/-- The processes taken from the levels up to `m`. -/
def ups (s : Sys) (m : Nat) : List Nat := (List.range' 1 m).flatMap (taken s)

theorem mem_ups {m : Nat} : c ∈ ups s m ↔ ∃ k, 0 < k ∧ k ≤ m ∧ c ∈ taken s k := by
  rw [ups, mem_flatMap]
  constructor
  · rintro ⟨k, hk, hc⟩
    have := mem_range'_1.1 hk
    exact ⟨k, by omega, by omega, hc⟩
  · rintro ⟨k, hk0, hk, hc⟩
    exact ⟨k, mem_range'_1.2 (by omega), hc⟩

theorem Lists.level_unique (h : Lists s) (hi : i < NPR) (hj : j < NPR) (hci : c ∈ listed (s.queue i))
    (hcj : c ∈ listed (s.queue j)) : i = j :=
  ((h.level i hi).sound c hci).2.2.symm.trans ((h.level j hj).sound c hcj).2.2

/-- No level from which a process is taken is full. -/
def Roomy (s : Sys) : Prop :=
  ∀ i, 0 < i → i < NPR → none ∈ s.queue i ∨ ∀ c ∈ listed (s.queue i), aged s c = false

/-- The queues when the loop is done with the levels up to `m`. -/
def afterLevel (s : Sys) (m k : Nat) : List Nat :=
  (if 0 < k ∧ k ≤ m then kept s k else listed (s.queue k)) ++ if k < m then taken s (k + 1) else []

theorem levels_run (h : Lists s) (hroom : Roomy s) : ∀ m < NPR, ∃ s',
    run step (s.goto (.age 1 0)) (List.replicate (m * (NPROC + 1)) .sched) = .ok s' ∧ s'.pc = .age (m + 1) 0 ∧
      Mid s s' (ups s m) ∧ (∀ k ≤ m, listed (s'.queue k) = afterLevel s m k) ∧ ∀ k, m < k → s'.queue k = s.queue k := by
  intro m
  induction m with
  | zero =>
    intro _
    refine ⟨s.goto (.age 1 0), by rw [Nat.zero_mul]; rfl, rfl, ⟨h.goto, fun c => ?_⟩, ?_, fun _ _ => rfl⟩
    · simp [ups]
    · intro k hk
      obtain rfl : k = 0 := by omega
      simp [afterLevel]
  | succ m ih =>
    intro hm
    obtain ⟨s1, hrun1, hpc1, hmid1, hlist1, hrest1⟩ := ih (by omega)
    have hq := hrest1 (m + 1) (by omega)
    have hfresh : ∀ c ∈ listed (s.queue (m + 1)), c ∉ ups s m := by
      intro c hc hup
      obtain ⟨k, -, hk, hck⟩ := mem_ups.1 hup
      have := h.level_unique hm (by omega) hc (mem_taken hck).1
      omega
    obtain ⟨s2, hrun2, hpc2, hmid2, hi2, hlow2, hother2⟩ := level_run (i := m + 1) (by omega) hm NPROC []
      (listed (s.queue (m + 1))) (Nat.zero_add _) hpc1 hmid1 (by rw [hq]; rfl) (Nat.le_refl _) (fun _ => rfl)
      (by rw [hq]; exact hroom (m + 1) (by omega) hm) hfresh
    have hnext : step s2 .sched = .ok (s2.goto (.age (m + 2) 0)) := by
      simp only [step, hpc2]
      rw [ageStep, if_pos hm, if_neg (Nat.lt_irrefl _)]
    refine ⟨s2.goto (.age (m + 2) 0), ?_, rfl, ⟨hmid2.lists.goto, ?_⟩, ?_, ?_⟩
    · rw [Nat.succ_mul, replicate_add, run_append, hrun1, bind_ok, replicate_succ', run_append,
        hrun2, bind_ok, run, hnext]
      rfl
    · intro c
      have hups : ups s (m + 1) = ups s m ++ taken s (m + 1) := by
        rw [ups, List.range'_concat, flatMap_append, flatMap_singleton]
        simp [ups, Nat.add_comm]
      rw [hups]
      exact hmid2.proc c
    · intro k hk
      rw [goto_queue]
      by_cases hself : k = m + 1
      · subst hself
        rw [hi2, afterLevel, if_pos (by omega), if_neg (by omega)]
        simp [kept]
      by_cases hlow : k = m
      · subst hlow
        rw [Nat.add_sub_cancel] at hlow2
        rw [hlow2, hlist1 k (Nat.le_refl _), afterLevel, afterLevel, if_neg (Nat.lt_irrefl k),
          if_pos (Nat.lt_succ_self k), append_nil]
        have hiff : (0 < k ∧ k ≤ k) ↔ (0 < k ∧ k ≤ k + 1) := by omega
        simp only [hiff]
        rfl
      · rw [hother2 k hself (by omega), hlist1 k (by omega), afterLevel, afterLevel, if_pos (by omega : k < m),
          if_pos (by omega : k < m + 1)]
        have hiff : (0 < k ∧ k ≤ m) ↔ (0 < k ∧ k ≤ m + 1) := by omega
        simp only [hiff]
    · intro k hk
      rw [goto_queue, hother2 k (by omega) (by omega)]
      exact hrest1 k (by omega)

/-- The whole pass: each level keeps what the sweep leaves and gets what it takes from the level above. -/
theorem aging_levels (h : Lists s) (hroom : Roomy s) : ∃ s', agingPass s = .ok s' ∧ s'.pc = .select 0 0 ∧
    Mid s s' (ups s (NPR - 1)) ∧ ∀ k < NPR, listed (s'.queue k) = afterLevel s (NPR - 1) k := by
  obtain ⟨s1, hrun, hpc, hmid, hlist, -⟩ := levels_run h hroom (NPR - 1) (by decide)
  have hnext : step s1 .sched = .ok (s1.goto (.select 0 0)) := by
    simp only [step, hpc]
    rw [ageStep, if_neg (by decide)]
  refine ⟨s1.goto (.select 0 0), ?_, rfl, ⟨hmid.lists.goto, hmid.proc⟩, fun k hk => hlist k (by omega)⟩
  rw [agingPass, replicate_succ', run_append, hrun, bind_ok, run, hnext]
  rfl

/-! ## When everybody is aged -/

/-- No two neighbours of a level are aged, and no process of a full level is. -/
def Sparse (s : Sys) : Prop :=
  ∀ i, 0 < i → i < NPR → Spaced (aged s) (listed (s.queue i)) ∧
    (none ∈ s.queue i ∨ ∀ c ∈ listed (s.queue i), aged s c = false)

theorem Sparse.taken (h : Sparse s) (hi0 : 0 < i) (hi : i < NPR) : taken s i = (listed (s.queue i)).filter (aged s) :=
  (sweep_eq_filter_iff _ false _).2 ⟨nofun, (h i hi0 hi).1⟩

theorem Sparse.kept (h : Sparse s) (hi0 : 0 < i) (hi : i < NPR) :
    kept s i = (listed (s.queue i)).filter fun c => !aged s c :=
  sweep_snd_eq_filter _ false _ (h.taken hi0 hi)

theorem Sparse.agesAll (h : Lists s) (hs : Sparse s) : ∃ s', agingPass s = .ok s' ∧ AgesAll s s' := by
  obtain ⟨s', hrun, hpc, hmid, hlist⟩ := aging_levels h fun i hi0 hi => (hs i hi0 hi).2
  refine ⟨s', hrun, hpc, hmid.lists, ?_, ?_, ?_, ?_, ?_⟩
  · rw [hlist 0 (by decide), afterLevel, if_neg (by omega), if_pos (by decide), hs.taken (by omega) (by decide)]
  · intro i hi0 hi
    rw [hlist i (by omega), afterLevel, if_pos ⟨hi0, by omega⟩, if_pos (by omega), hs.kept hi0 (by omega),
      hs.taken (by omega) hi]
  · rw [hlist _ (by decide), afterLevel, if_pos (by decide), if_neg (by decide), append_nil,
      hs.kept (by decide) (by decide)]
  · intro i hi0 hi c hc hage
    have hup : c ∈ ups s (NPR - 1) := by
      rw [mem_ups]
      refine ⟨i, hi0, by omega, ?_⟩
      rw [hs.taken hi0 hi]
      exact mem_filter.2 ⟨hc, hage⟩
    rw [hmid.proc, if_pos hup, ((h.level i hi).sound c hc).2.2]
  · intro c hc
    have hup : c ∉ ups s (NPR - 1) := by
      intro hup
      obtain ⟨k, hk0, hk, hck⟩ := mem_ups.1 hup
      obtain ⟨hm, hage⟩ := mem_taken hck
      rw [hc k hk0 (by omega) hm] at hage
      cases hage
    rw [hmid.proc, if_neg hup]

/-! ## A full level stays full -/

theorem sched_full (hs : step s .sched = .ok s') (h : none ∉ s.queue i) : none ∉ s'.queue i :=
  sched_queue hs (fun _ _ _ _ hq => by rw [push_full _ _ hq]; exact hq) (fun _ _ => remove_none _) h

theorem run_sched_full (n : Nat) (hs : run step s (List.replicate n .sched) = .ok s') (h : none ∉ s.queue i) :
    none ∉ s'.queue i := by
  induction n generalizing s with
  | zero =>
    cases hs
    exact h
  | succ n ih =>
    obtain ⟨s1, h1, hs⟩ := bind_eq_ok.1 hs
    exact ih hs (sched_full h1 h)

theorem Level.length_of_full (h : Level s i) (hfull : none ∉ s.queue i) : (listed (s.queue i)).length = NPROC := by
  have hp := h.packed
  rw [Packed, h.length] at hp
  have hzero : NPROC - (listed (s.queue i)).length = 0 := by
    by_contra hne
    apply hfull
    rw [hp]
    simp [hne]
  have := h.length_le
  omega

/-! ## When somebody is passed over -/

/-- The entries that a pass has aged stand in a queue with a null slot. -/
theorem AgesAll.roomy (h : Lists s) (hrun : agingPass s = .ok s') (ha : AgesAll s s') : Roomy s := by
  intro i hi0 hi
  by_cases hnone : none ∈ s.queue i
  · exact .inl hnone
  refine .inr fun c hc => ?_
  by_contra hage
  have hlev := h.level i hi
  have hlen := (ha.lists.level i hi).length_of_full (run_sched_full (s := s.goto (.age 1 0)) _ hrun hnone)
  -- every process stands in this level, so none comes from above
  have hall : ∀ d < NPROC, d ∈ listed (s.queue i) := by
    intro d hd
    by_contra hout
    exact hnone (hlev.none_mem hd hout)
  have hshort : ((listed (s.queue i)).filter fun c => !aged s c).length < NPROC := by
    refine lt_of_lt_of_le (length_filter_lt_length_iff_exists.2 ⟨c, hc, ?_⟩) hlev.length_le
    simpa using hage
  by_cases htop : i + 1 < NPR
  · have hempty : listed (s.queue (i + 1)) = [] := by
      rw [eq_nil_iff_forall_not_mem]
      intro d hd
      have := h.level_unique htop hi hd (hall d ((h.level _ htop).sound d hd).1)
      omega
    rw [ha.level i hi0 htop, hempty, filter_nil, append_nil] at hlen
    omega
  · obtain rfl : i = NPR - 1 := by omega
    rw [ha.highest] at hlen
    omega

theorem AgesAll.sparse (h : Lists s) (hrun : agingPass s = .ok s') (ha : AgesAll s s') : Sparse s := by
  have hroom := ha.roomy h hrun
  obtain ⟨t, ht, -, hmid, -⟩ := aging_levels h hroom
  obtain rfl : t = s' := by
    rw [ht] at hrun
    exact Outcome.ok.inj hrun
  intro i hi0 hi
  refine ⟨((sweep_eq_filter_iff (aged s) false _).1 ?_).2, hroom i hi0 hi⟩
  have hall : (listed (s.queue i)).filter (aged s) ⊆ taken s i := by
    intro c hc
    obtain ⟨hm, hage⟩ := mem_filter.1 hc
    -- a process that was not taken still has its ticks
    have hup : c ∈ ups s (NPR - 1) := by
      by_contra hup
      have hp := ha.up i hi0 hi c hm hage
      rw [hmid.proc, if_neg hup] at hp
      rw [aged, hp] at hage
      exact absurd hage (by simp)
    obtain ⟨k, -, hk, hck⟩ := mem_ups.1 hup
    obtain rfl := h.level_unique hi (by omega) hm (mem_taken hck).1
    exact hck
  have hnodup := (h.level i hi).nodup.filter (aged s)
  exact (sweep_sublist ..).eq_of_length_le (subperm_of_subset hnodup hall).length_le

/-- **One aging pass.** From queues that satisfy the invariant, a run of the aging loop ages everybody exactly
when no two neighbours of a level 1 to 4 have waited 30 ticks, and nobody in a level that holds all `NPROC`
processes has. -/
theorem aging_exact (h : Lists s) : (∃ s', agingPass s = .ok s' ∧ AgesAll s s') ↔ Sparse s := by
  constructor
  · rintro ⟨s', hrun, ha⟩
    exact ha.sparse h hrun
  · exact Sparse.agesAll h

/-- The first `n` processes wait at level 1, each for the ticks `w`. -/
def waiting (n : Nat) (w : Nat → BitVec 32) : Sys where
  proc c := { state := if c < n then .runnable else .unused, pid := BitVec.ofNat 32 (c + 1), killed := false
              rticks := 0, wticks := w c, pr := if c < n then 1 else 0, resume := none }
  queue i := if i = 1 then (List.range n).map some ++ List.replicate (NPROC - n) none else List.replicate NPROC none
  nextpid := BitVec.ofNat 32 (n + 1)
  pc := .enqueue NPROC

variable {w : Nat → BitVec 32}

theorem waiting_listed (n : Nat) : listed ((waiting n w).queue 1) = List.range n := listed_packed _ _

theorem waiting_empty (n : Nat) (hi : i ≠ 1) : (waiting n w).queue i = List.replicate NPROC none := if_neg hi

theorem waiting_lists {n : Nat} (hn : n < NPROC) : Lists (waiting n w) where
  level i _ := by
    by_cases hi : i = 1
    · subst hi
      refine ⟨?_, packed_iff.2 ⟨_, _, rfl⟩, ?_, ?_⟩
      · simp [waiting]
        omega
      · rw [waiting_listed]
        exact nodup_range
      · intro c hc
        rw [waiting_listed, mem_range] at hc
        exact ⟨by omega, if_pos hc, if_pos hc⟩
    · refine ⟨?_, ?_, ?_, ?_⟩ <;> rw [waiting_empty n hi]
      · simp
      · exact packed_iff.2 ⟨[], NPROC, rfl⟩
      · simp
      · simp
  pr c _ := by
    show (if c < n then 1 else 0) < NPR
    split <;> decide
  pid c hc d hd _ _ he := by
    have := congrArg BitVec.toNat he
    simp only [waiting, BitVec.toNat_ofNat, NPROC] at this hc hd
    omega

/-- Four processes wait, every other one for 30 ticks. -/
def spaced : Sys := waiting 4 fun c => if c % 2 = 0 then 30 else 0

/-- The aged ones go down to level 0, and the two others close up. -/
theorem aging_exact_spaced : Sparse spaced ∧ ∃ s', agingPass spaced = .ok s' ∧
    listed (s'.queue 0) = [0, 2] ∧ listed (s'.queue 1) = [1, 3] := by
  have hs : Sparse spaced := by
    intro i hi0 hi
    by_cases h1 : i = 1
    · subst h1
      refine ⟨?_, .inl (by decide)⟩
      unfold Spaced
      decide
    · rw [spaced, waiting_empty 4 h1]
      exact ⟨.nil, .inl (by simp [NPROC])⟩
  obtain ⟨s', hrun, ha⟩ := (aging_exact (waiting_lists (by decide))).2 hs
  refine ⟨hs, s', hrun, ?_, ?_⟩
  · rw [ha.lowest]
    decide
  · rw [ha.level 1 (by decide) (by decide)]
    decide

/-- **Of two neighbours one is passed over.** -/
theorem aging_passes_over : ∃ s, Lists s ∧ ¬∃ s', agingPass s = .ok s' ∧ AgesAll s s' := by
  refine ⟨waiting 2 fun _ => 30, waiting_lists (by decide), ?_⟩
  rintro ⟨s', hrun, ha⟩
  have hs := (ha.sparse (waiting_lists (by decide)) hrun 1 (by decide) (by decide)).1
  exact (isChain_cons_cons.1 hs).1 ⟨rfl, rfl⟩

end Xv6Riscv.Mlfq
