import Xv6Riscv.Vm.Isolation
import Xv6Riscv.Vm.Solo

/-!
# What stores may do after forks

`uvmcopy` (vm.c:306) takes `PTE_W` off every page and marks it copy-on-write, whether it was writable or not, and
`handleCOW` (trap.c:32) gives `PTE_W` to every copy-on-write page with `PTE_U`, except to page 0. So a page of
program text becomes writable, and page 0 of a process whose first page was writable does not get its
`PTE_W` back (`fork_changes_permissions`).

For the other pages (`Restorable`) a store still does what it did before the forks (`fork_preserves_stores`).
-/
namespace Xv6Riscv.Vm
open Multiset Threads Machine Function
variable {pr : Proc} {M : Slot → Prop}

variable {k : Cond} {t : Tid} {c p q : Slot} {i : Nat} {s s₀ s' : State} {W : Tid → View} {first : Frame} {q₀ : Perm}
  {v : View} {e e' : Nat → Option Perm} {va : Nat} {x : UInt8}

/-! ## The flags of one page -/

/-- The flags of the page in a process of the family: as they were, or as `fork` leaves them. -/
def Kin (q₀ : Perm) (e : Option Perm) : Prop := e = some q₀ ∨ e = some q₀.share

/-- The pages that `handleCOW` treats as they were before the fork: those that the user cannot reach, and the
writable ones, but of page 0 the ones that are not writable. -/
def Restorable (i : Nat) (q₀ : Perm) : Prop := q₀.u = false ∨ i ≠ 0 ∧ q₀.w = true ∨ i = 0 ∧ q₀.w = false

/-- The call leaves the image of its process as `exec` or `sbrk` made it. -/
def keepsImage : Call → Bool
  | .exec _ _ | .sbrk _ => false
  | _ => true

theorem Perm.share_share (q : Perm) : q.share.share = q.share := rfl

/-- A fault undoes the `share` of a writable page. -/
theorem Perm.unshare_share (hcow : q₀.cow = false) (hw : q₀.w = true) : q₀.share.unshare = q₀ := by
  cases q₀
  simp_all [Perm.share, Perm.unshare]

theorem Flags.kin {u : Call} (hcow : q₀.cow = false) (hres : Restorable i q₀) (hu : keepsImage u = true)
    (h : Flags u e e') (hk : Kin q₀ (e i)) : Kin q₀ (e' i) := by
  cases u with
  | exec file args => cases hu
  | sbrk n => cases hu
  | fork =>
    obtain ⟨m, h⟩ := h
    rw [h i]
    split_ifs
    · rcases hk with hk | hk <;> rw [hk]
      · exact .inr rfl
      · exact .inr (congrArg some q₀.share_share)
    · exact hk
  | store va x =>
    rcases h with h | ⟨hne, q, hq, hqc, hqu, h⟩
    · rwa [h]
    rw [h, update_apply]
    split_ifs with hi
    · -- the fault is on this page: it was shared, and writable before
      subst hi
      rw [hq] at hk
      rcases hk with hk | hk <;> cases hk
      · rw [hcow] at hqc
        cases hqc
      rcases hres with hu0 | ⟨-, hw⟩ | ⟨h0, -⟩
      · rw [show q₀.share.u = q₀.u from rfl, hu0] at hqu
        cases hqu
      · exact .inl (congrArg some (Perm.unshare_share hcow hw))
      · exact absurd h0 hne
    · exact hk
  | _ =>
    rw [show e' = e from h]
    exact hk

/-! ## A process and its descendants -/

/-- The processes that descend from the one in slot `p` since `s₀`, with any interleaving of what they and the others
do. They make no call that changes the image. -/
inductive Family (p : Slot) (s₀ : State) : State → (Slot → Prop) → Prop
  | init : Family p s₀ s₀ (· = p)
  | step {s s' : State} {M : Slot → Prop} (e : Event Tid Call) : Family p s₀ s M →
      (∀ c u, e = .start (some c) u → M c → keepsImage u = true) → vm.step s e = .ok s' →
      Family p s₀ s' fun c => (s'.shared.proc c).state = .runnable ∧
        (M c ∨ ∃ q, M q ∧ e = .next (some q) ∧ Bears s q c ∧ s'.idle (some q))

/-- What a thread keeps to: it can rest, and a process of the family has the page as the family has it. -/
def FamilyGoal (k : Cond) (i : Nat) (q₀ : Perm) (M : Slot → Prop) (t : Tid) (v : View) : Prop :=
  Rest k t v ∧ ∀ c p, t = some c → M c → v.self = some p → p.state = .runnable → Kin q₀ (v.flags p i)

theorem Bears.child_idle {goal : Tid → View → Prop} (hinv : Inv k s.shared W)
    (hwp : ∀ t, (rules k).wp t (s.todo t) (W t) fun _ => goal t) (hb : Bears s q c) : s.idle (some c) ∧ q ≠ c := by
  obtain ⟨next, hnext⟩ := hb
  have ht := hwp (some q)
  rw [hnext] at ht
  obtain ⟨-, p, -, -, -, -, hchild, -⟩ := ht.2 (hinv.books.valid (some q))
  have hnone := (hinv.slots.child (some q) c p hchild).2.1
  have hnot : ¬ Ready (some c) (W (some c)) := by
    rintro (h | ⟨p', hself, -⟩)
    · cases h
    · rw [hnone] at hself
      cases hself
  refine ⟨?_, ?_⟩
  · have hc := hwp (some c)
    unfold Pool.idle
    cases hp : s.todo (some c) with
    | ret x => rfl
    | act a next =>
      rw [hp] at hc
      exact absurd hc.1 hnot
  · rintro rfl
    exact hnot ht.1

theorem Inv.lt_npages (hinv : Inv k s.shared W) (hset : Settled k (W (some c)) pr)
    (hself : (W (some c)).self = some pr) (hi : i < TRAPFRAME) (hp : perms s.shared c i ≠ none) : i < npages pr.sz := by
  rw [hinv.perms_eq hset hself] at hp
  cases hroot : pr.pagetable with
  | none => simp [View.flags, userPerm, hroot] at hp
  | some root =>
    rw [View.flags_eq hroot] at hp
    have hshape := hset.shape hroot
    cases hget : ((W (some c)).table root).get i with
    | none => simp [hget] at hp
    | some pte =>
      rcases (hshape.dom i).1 (by rw [hget]; rfl) with h | h
      · exact h
      · exact absurd (hshape.above i h) (by omega)

theorem FamilyGoal.perms (hinv : Inv k s.shared W) (h : FamilyGoal k i q₀ M (some c) (W (some c)))
    (hM : M c) (hrun : (s.shared.proc c).state = .runnable) :
    ∃ pr, (W (some c)).self = some pr ∧ s.shared.proc c = pr ∧ Settled k (W (some c)) pr ∧
      Kin q₀ (perms s.shared c i) := by
  obtain hnone | ⟨pr, hself, hst⟩ := hinv.ready hrun
  · cases hnone
  · have hset := h.1.settled pr hself
    refine ⟨pr, hself, hinv.slots.self c pr hself, hset, ?_⟩
    rw [hinv.perms_eq hset hself]
    exact h.2 c pr rfl hM hself hst

theorem family_start {u : Call} (hcow : q₀.cow = false) (hres : Restorable i q₀)
    (hkeep : ∀ c, t = some c → M c → keepsImage u = true) (h : Holds (rules k) (Inv k) (FamilyGoal k i q₀ M) s)
    (hstep : vm.step s (.start t u) = .ok s') : Holds (rules k) (Inv k) (FamilyGoal k i q₀ M) s' := by
  obtain ⟨-, hen, -⟩ := System.start_eq_ok.1 hstep
  refine h.start (fun W hinv hgoal => ?_) (fun _ _ => rfl) hstep
  cases t with
  | none => exact Rules.wp_mono (start_sound hinv hen hgoal.1) fun _ v hv => ⟨hv, nofun⟩
  | some c =>
    obtain ⟨hu, root, tf, lost, hcalm⟩ := hinv.calm hgoal.1 hen
    refine Rules.wp_mono (hcalm.wp_call hu) fun _ v hend => ⟨hend.rest, ?_⟩
    rintro _ p' ⟨⟩ hM hself' -
    obtain ⟨p'', hself'', -, hflags⟩ := hend.self
    rw [hself'] at hself''
    cases hself''
    exact hflags.kin hcow hres (hkeep c rfl hM) (hgoal.2 c _ rfl hM hcalm.self hcalm.state)

theorem family_next (hM : ∀ c, M c → (s.shared.proc c).state = .runnable)
    (h : Holds (rules .free) (Inv .free) (FamilyGoal .free i q₀ M) s) (hstep : vm.step s (.next t) = .ok s') :
    Holds (rules .free) (Inv .free) (FamilyGoal .free i q₀ M) s' := by
  refine h.next ((sound .free).mono fun s t a (_ : True) => actOk_free s t a) (fun W hinv u _ _ hnr v hrest =>
    ⟨hrest, ?_⟩) ?_ hstep
  · rintro c p rfl hMc - -
    exact absurd (hinv.ready (hM c hMc)) hnr
  · simp only [nextOk]
    cases s.todo t <;> trivial

/-- The child of a member has the page as its parent has it. -/
theorem family_born (hi : i < TRAPFRAME) (hM : ∀ c, M c → (s.shared.proc c).state = .runnable)
    (h : Holds (rules .free) (Inv .free) (FamilyGoal .free i q₀ M) s) (hMq : M q) (hb : Bears s q c)
    (hstep : vm.step s (.next (some q)) = .ok s') (hidle : s'.idle (some q)) :
    s'.idle (some c) ∧ Kin q₀ (perms s'.shared c i) := by
  have hborn := (birth h hb hstep).2.1
  have h' := family_next hM h hstep
  obtain ⟨W, hinv, hwp⟩ := h
  obtain ⟨hci, hne⟩ := hb.child_idle hinv hwp
  obtain ⟨next, hnext⟩ := hb
  obtain ⟨a, next', r, σ', hp, hex, rfl⟩ := System.next_eq_ok.1 hstep
  rw [hnext] at hp
  cases hp
  cases hex
  obtain ⟨W', hinv', hwp'⟩ := h'
  have hq : (s.shared.setProc c { s.shared.proc c with state := .runnable }).proc q = s.shared.proc q := by
    simp [Kern.setProc, update_of_ne hne]
  have hgoal := rest_of_idle hwp' hidle
  obtain ⟨pr, hself, hpr, hset, hkin⟩ := hgoal.perms hinv' hMq (by
    rw [hq]
    exact hM q hMq)
  have hlt : i < npages (s.shared.proc q).sz := by
    have hlt' := hinv'.lt_npages hset hself hi (by rcases hkin with h | h <;> rw [h] <;> simp)
    rw [← hq]
    rwa [hpr]
  refine ⟨?_, by rwa [hborn i hlt]⟩
  change update s.todo (some q) _ (some c) = _
  rw [update_of_ne (by simpa using hne.symm)]
  exact hci

/-- **The family keeps the page.** -/
theorem Family.holds (hcow : q₀.cow = false) (hres : Restorable i q₀) (hi : i < TRAPFRAME)
    (h₀ : Holds (rules .free) (Inv .free) (Rest .free) s₀) (hidle : s₀.idle (some p))
    (hrun : (s₀.shared.proc p).state = .runnable) (hq₀ : perms s₀.shared p i = some q₀) (h : Family p s₀ s M) :
    (∀ c, M c → (s.shared.proc c).state = .runnable) ∧ Holds (rules .free) (Inv .free) (FamilyGoal .free i q₀ M) s := by
  induction h with
  | init =>
    refine ⟨fun c hc => by rwa [hc], ?_⟩
    obtain ⟨W, hinv, hwp⟩ := h₀
    refine ⟨W, hinv, fun t => ?_⟩
    by_cases ht : t = some p
    · subst ht
      have hrest := rest_of_idle hwp hidle
      rw [show s₀.todo (some p) = .ret () from hidle]
      refine ⟨hrest, ?_⟩
      rintro _ pr - rfl hself -
      rw [← hinv.perms_eq (hrest.settled pr hself) hself]
      exact .inl hq₀
    · refine Rules.wp_mono (hwp t) fun _ v hv => ⟨hv, ?_⟩
      rintro c _ rfl rfl
      exact absurd rfl ht
  | @step s s' M e hfam hkeep hstep ih =>
    obtain ⟨hM, h⟩ := ih
    refine ⟨fun c hc => hc.1, ?_⟩
    cases e with
    | start t u =>
      refine (family_start hcow hres (fun c ht hMc => hkeep c u (by rw [ht]) hMc) h hstep).mono fun t v hv => ⟨hv.1, ?_⟩
      rintro c pr rfl ⟨-, hMc | ⟨q, -, he, -⟩⟩ hself hst
      · exact hv.2 c pr rfl hMc hself hst
      · cases he
    | next t =>
      obtain ⟨W', hinv', hwp'⟩ := family_next hM h hstep
      refine ⟨W', hinv', fun u => ?_⟩
      by_cases hnew : ∃ c q, u = some c ∧ M q ∧ t = some q ∧ Bears s q c ∧ s'.idle (some q)
      · -- a child that is born in this step
        obtain ⟨c, q, rfl, hMq, rfl, hb, hidle'⟩ := hnew
        obtain ⟨hci, hkin⟩ := family_born hi hM h hMq hb hstep hidle'
        have hgoal := rest_of_idle hwp' hci
        rw [show s'.todo (some c) = .ret () from hci]
        refine ⟨hgoal.1, ?_⟩
        rintro _ pr ⟨⟩ - hself -
        rw [← hinv'.perms_eq (hgoal.1.settled pr hself) hself]
        exact hkin
      · refine Rules.wp_mono (hwp' u) fun _ v hv => ⟨hv.1, ?_⟩
        rintro c pr rfl ⟨-, hMc | ⟨q, hMq, he, hb, hidle'⟩⟩ hself hst
        · exact hv.2 c pr rfl hMc hself hst
        · cases he
          exact absurd ⟨c, q, rfl, hMq, rfl, hb, hidle'⟩ hnew

/-! ## How a store ends -/

/-- A permitted store leaves its process alive, with the page as it was before the forks. -/
theorem Stored.permitted {pr' : Proc} {v' : View} (hk : k.memory = true) (hcow : q₀.cow = false)
    (hres : Restorable (va / PGSIZE) q₀)
    (hw : q₀.w = true) (hu : q₀.u = true) (hkin : Kin q₀ (v.flags pr (va / PGSIZE))) (hrun : pr.state = .runnable)
    (h : Stored k va x v pr v' pr') : pr'.state = .runnable ∧ v'.flags pr' (va / PGSIZE) = some q₀ := by
  have hne : va / PGSIZE ≠ 0 := by
    rcases hres with h | ⟨h, -⟩ | ⟨-, h⟩
    · rw [hu] at h
      cases h
    · exact h
    · rw [hw] at h
      cases h
  cases h with
  | written q hq hqw hqu hflags _ _ hp =>
    subst hp
    refine ⟨hrun, ?_⟩
    rw [hflags]
    rcases hkin with h | h
    · exact h
    · rw [h] at hq
      cases hq
      cases hqw
  | retry q hq hnot _ hqc hqu hflags _ hp =>
    subst hp
    refine ⟨hrun, ?_⟩
    rw [hflags, update_self]
    rcases hkin with h | h
    · rw [h] at hq
      cases hq
      exact absurd ⟨hw, hu⟩ hnot
    · rw [h] at hq
      cases hq
      rw [Perm.unshare_share hcow hw]
  | killed hno _ _ _ =>
    exfalso
    rcases hkin with h | h
    · exact (hno _ h).1 ⟨hw, hu⟩
    · rw [(hno _ h).2 hne rfl hu] at hk
      cases hk

/-- A store that is not permitted kills its process, and the flags stay. -/
theorem Stored.forbidden {pr' : Proc} {v' : View} (hcow : q₀.cow = false) (hres : Restorable (va / PGSIZE) q₀)
    (hno : ¬ (q₀.w = true ∧ q₀.u = true)) (hkin : Kin q₀ (v.flags pr (va / PGSIZE)))
    (h : Stored k va x v pr v' pr') : pr'.state = .zombie ∧ v'.flags pr' = v.flags pr := by
  cases h with
  | written q hq hqw hqu _ _ _ _ =>
    exfalso
    rcases hkin with h | h <;> rw [h] at hq <;> cases hq
    · exact hno ⟨hqw, hqu⟩
    · cases hqw
  | retry q hq _ hne hqc hqu _ _ _ =>
    exfalso
    rcases hkin with h | h <;> rw [h] at hq <;> cases hq
    · rw [hcow] at hqc
      cases hqc
    rcases hres with h | ⟨-, h⟩ | ⟨h, -⟩
    · rw [show q₀.share.u = q₀.u from rfl, h] at hqu
      cases hqu
    · exact hno ⟨h, hqu⟩
    · exact hne h
  | killed _ hflags _ hz => exact ⟨hz, hflags⟩

/-! ## Stores that run alone -/

/-- A store to a writable page is seen by its process. -/
theorem solo_store_observed {σ : Kern} {root : Frame} {pte : Pte} (hpt : (σ.proc c).pagetable = some root)
    (hlt : va / PGSIZE < MAXPG) (hget : (σ.table root).get (va / PGSIZE) = some pte) (hw : pte.perm.w = true)
    (hu : pte.perm.u = true) :
    ∃ σ', solo c (store va x) σ = .ok ((), σ') ∧ σ'.proc = σ.proc ∧ σ'.table = σ.table ∧ observed σ' c va = some x := by
  refine ⟨_, solo_store_write hpt hlt hget hw hu, rfl, rfl, ?_⟩
  unfold observed userByte
  simp [hpt, hget, hu, splice]

/-- Two stores in a row: if the first one faults, the second one writes. -/
theorem run_store_twice {root : Frame} {pte : Pte} (hidle : s.idle (some c))
    (hrun : (s.shared.proc c).state = .runnable)
    (hpt : (s.shared.proc c).pagetable = some root) (hlt : va / PGSIZE < MAXPG)
    (hget : (s.shared.table root).get (va / PGSIZE) = some pte) (hu : pte.perm.u = true)
    (hw : pte.perm.w = true ∨ pte.perm.cow = true ∧ va / PGSIZE ≠ 0) (hh : s.shared.holder = none)
    (hfree : s.shared.freelist ≠ []) :
    ∃ n m s', run vm.step s (callEvents (some c) (.store va x) n ++ callEvents (some c) (.store va x) m) = .ok s' ∧
      (s'.shared.proc c).state = .runnable ∧ observed s'.shared c va = some x := by
  have hen : ∀ {σ : Kern}, σ.proc = s.shared.proc → enabled σ (some c) (.store va x) = true := by
    intro σ hσ
    simp [enabled, hσ, hrun]
  -- the first store leaves a writable page
  obtain ⟨σ₁, pte₁, h₁, hproc₁, hget₁, hw₁, hu₁⟩ : ∃ σ₁ pte₁, solo c (store va x) s.shared = .ok ((), σ₁) ∧
      σ₁.proc = s.shared.proc ∧ (σ₁.table root).get (va / PGSIZE) = some pte₁ ∧ pte₁.perm.w = true ∧
        pte₁.perm.u = true := by
    by_cases hpw : pte.perm.w = true
    · obtain ⟨σ₁, h₁, hproc, htable, -⟩ := solo_store_observed (x := x) hpt hlt hget hpw hu
      exact ⟨σ₁, pte, h₁, hproc, by rw [htable]; exact hget, hpw, hu⟩
    · obtain ⟨hcow, hne⟩ := hw.resolve_left hpw
      obtain ⟨σ₁, pa, h₁, hproc, hget'⟩ := solo_store_fault (x := x) hpt hlt hget (by simpa using hpw) hne
        hcow hu hh hfree
      exact ⟨σ₁, _, h₁, hproc, hget', rfl, hu⟩
  obtain ⟨n, hn⟩ := run_call hidle (hen rfl) h₁
  have hpt₁ : (σ₁.proc c).pagetable = some root := by rw [hproc₁]; exact hpt
  obtain ⟨σ₂, h₂, hproc₂, -, hobs⟩ := solo_store_observed (x := x) hpt₁ hlt hget₁ hw₁ hu₁
  obtain ⟨m, hm⟩ := run_call (t := { s with shared := σ₁ }) (c := c) hidle (hen hproc₁) h₂
  refine ⟨n, m, { s with shared := σ₂ }, ?_, ?_, hobs⟩
  · rw [run_append, hn, Outcome.bind_ok, hm]
  · rw [hproc₂, hproc₁]
    exact hrun

/-! ## Fork and stores -/

/-- What the process in slot `c` can do with the page `i`, which had the flags `q₀` before the forks. -/
structure StoresKept (i : Nat) (q₀ : Perm) (s : State) (c : Slot) : Prop where
  /-- The flags are those from before, or those with write access taken away. -/
  flags : Kin q₀ (perms s.shared c i)
  /-- A store that was permitted does not kill the process and leaves the page writable, if a page is found. When the
  lock is free it does end, and the byte is there when the instruction has been tried again. -/
  permitted : q₀.w = true → q₀.u = true → ∀ va x, va / PGSIZE = i →
    (∀ s', During vm findsPage (some c) (.store va x) s s' → s'.idle (some c) →
      (s'.shared.proc c).state = .runnable ∧ perms s'.shared c i = some q₀) ∧
    (s.shared.holder = none → s.shared.freelist ≠ [] →
      ∃ n m s', run vm.step s (callEvents (some c) (.store va x) n ++ callEvents (some c) (.store va x) m) = .ok s' ∧
        (s'.shared.proc c).state = .runnable ∧ observed s'.shared c va = some x)
  /-- A store that was not permitted kills the process, and no flags change. -/
  forbidden : ¬ (q₀.w = true ∧ q₀.u = true) → ∀ va x, va / PGSIZE = i →
    (∀ s', During vm (fun _ _ _ => True) (some c) (.store va x) s s' → s'.idle (some c) →
      (s'.shared.proc c).state = .zombie ∧ perms s'.shared c = perms s.shared c) ∧
    (s.shared.initproc ≠ some c →
      ∃ n s', run vm.step s (callEvents (some c) (.store va x) n) = .ok s' ∧ (s'.shared.proc c).state = .zombie)

/-- **Forks keep what stores may do** to a restorable page, in the process and in its descendants, under any
interleaving. -/
theorem fork_preserves_stores {M : Slot → Prop} (h₀ : Reach vm.step (· = boot first) (fun _ _ => True) s₀)
    (hidle₀ : s₀.idle (some p)) (hrun₀ : (s₀.shared.proc p).state = .runnable) (hq₀ : perms s₀.shared p i = some q₀)
    (hcow : q₀.cow = false) (hi : i < npages (s₀.shared.proc p).sz) (hres : Restorable i q₀) (hfam : Family p s₀ s M)
    (hc : M c) (hidle : s.idle (some c)) : StoresKept i q₀ s c := by
  have hholds₀ := holds_free h₀
  have hlt : i < TRAPFRAME := by
    obtain ⟨W, hinv, hwp⟩ := hholds₀
    obtain hnone | ⟨pr, hself, -⟩ := hinv.ready hrun₀
    · cases hnone
    have hset := (rest_of_idle hwp hidle₀).settled pr hself
    rw [hinv.slots.self p pr hself] at hi
    rcases hset.body with ⟨-, hb⟩ | ⟨-, root, tf, -, -, hshape⟩
    · rw [hb.2.2] at hi
      exact absurd hi (Nat.not_lt_zero i)
    · exact hi.trans_le hshape.small
  obtain ⟨hM, hgoal⟩ := hfam.holds hcow hres hlt hholds₀ hidle₀ hrun₀ hq₀
  have hholds : Holds (rules .free) (Inv .free) (Rest .free) s := hgoal.mono fun t v hv => hv.1
  obtain ⟨W, hinv, hwp⟩ := hgoal
  obtain ⟨pr, hself, hpr, hset, hkin⟩ := (rest_of_idle hwp hidle).perms hinv hc (hM c hc)
  -- the entry of the page
  obtain ⟨q, hq⟩ : ∃ q, perms s.shared c i = some q := by
    rcases hkin with h | h
    · exact ⟨_, h⟩
    · exact ⟨_, h⟩
  obtain ⟨pte, hbind, hperm⟩ := Option.map_eq_some_iff.1 hq
  obtain ⟨root, hroot, hget⟩ := Option.bind_eq_some_iff.1 hbind
  have hpg : i < MAXPG := hlt.trans (by decide)
  refine ⟨hkin, fun hw hu va x hva => ⟨fun s' hd hi' => ?_, fun hh hfree => ?_⟩, fun hno va x hva =>
    ⟨fun s' hd hi' => ?_, fun hinit => ?_⟩⟩
  · subst hva
    obtain ⟨v, v', pr, pr', h, hst, hst', hf, hf', -⟩ :=
      stored_of_during (k := Cond.free.pages) (fun s t a ha => actOk_pages (actOk_free s t a) ha) (holds_pages hholds)
        hd hi'
    rw [hst', hf']
    exact h.permitted rfl hcow hres hw hu (by rw [← hf]; exact hkin) hst
  · subst hva
    refine run_store_twice hidle (hM c hc) hroot hpg hget ?_ ?_ hh hfree
    · rw [hperm]
      rcases hkin with h | h <;> rw [h] at hq <;> cases hq <;> exact hu
    rw [hperm]
    rcases hkin with h | h <;> rw [h] at hq <;> cases hq
    · exact .inl hw
    refine .inr ⟨rfl, ?_⟩
    rcases hres with h | ⟨h, -⟩ | ⟨-, h⟩
    · rw [hu] at h
      cases h
    · exact h
    · rw [hw] at h
      cases h
  · subst hva
    obtain ⟨v, v', pr, pr', h, -, hst', hf, hf', -⟩ :=
      stored_of_during (fun s t a _ => actOk_free s t a) hholds hd hi'
    rw [hst', hf', hf]
    exact h.forbidden hcow hres hno (by rw [← hf]; exact hkin)
  · subst hva
    have hpte : ¬ (pte.perm.w = true ∧ pte.perm.u = true) ∧
        (va / PGSIZE = 0 ∨ pte.perm.cow = false ∨ pte.perm.u = false) := by
      rw [hperm]
      rcases hkin with h | h <;> rw [h] at hq <;> cases hq
      · exact ⟨hno, .inr (.inl hcow)⟩
      refine ⟨by simp [Perm.share], ?_⟩
      rcases hres with h | ⟨-, hw⟩ | ⟨h, -⟩
      · exact .inr (.inr h)
      · have hu : q₀.u = false := by simpa [hw] using hno
        exact .inr (.inr hu)
      · exact .inl h
    obtain ⟨σ, hσ, hproc, -⟩ := solo_store_killed (x := x) hroot hpg hget hpte.1 hpte.2 hinit
    obtain ⟨n, hn⟩ := run_call (u := .store va x) hidle (by simp [enabled, hM c hc]) hσ
    refine ⟨n, { s with shared := σ }, hn, ?_⟩
    rw [hproc, update_self]

/-! ## A child that stores -/

/-- The events of a run in which the process in slot `p` stays alive and the family's image stays. -/
def familyRun (p : Slot) : State → List (Event Tid Call) → Bool
  | _, [] => true
  | s, e :: es =>
    (match e with
      | .start _ u => keepsImage u
      | .next _ => true) &&
    match vm.step s e with
    | .ok s' => decide ((s'.shared.proc p).state = .runnable) && familyRun p s' es
    | _ => false

theorem Family.run (es : List (Event Tid Call)) {s : State} (h : Family p s₀ s M) (hp : M p)
    (hr : familyRun p s es = true) : ∃ s' M', Machine.run vm.step s es = .ok s' ∧ Family p s₀ s' M' ∧ M' p := by
  induction es generalizing s M with
  | nil => exact ⟨s, M, rfl, h, hp⟩
  | cons e es ih =>
    simp only [familyRun, Bool.and_eq_true] at hr
    obtain ⟨hkeep, hr⟩ := hr
    cases hs : vm.step s e with
    | stuck => simp [hs] at hr
    | halt m => simp [hs] at hr
    | ok s₁ =>
      simp only [hs, Bool.and_eq_true, decide_eq_true_eq] at hr
      have hfam : Family p s₀ s₁ _ := .step e h (fun c u he _ => by subst he; exact hkeep) hs
      obtain ⟨s', M', hrun, h', hp'⟩ := ih hfam ⟨hr.1, .inl hp⟩ hr.2
      exact ⟨s', M', by rw [Machine.run, hs, Outcome.bind_ok, hrun], h', hp'⟩

/-- The next action of `q` is `setRunnable c`, as a test. -/
def bears (s : State) (q c : Slot) : Bool :=
  match s.todo (some q) with
  | .act (.setRunnable d) _ => decide (d = c)
  | _ => false

theorem bears_of_test : bears s q c = true → Bears s q c := by
  unfold bears Bears
  intro h
  split at h
  · rename_i d next hn
    rw [decide_eq_true_eq] at h
    subst h
    exact ⟨next, hn⟩
  · cases h

/-- The first process with one more page, and the same after its `fork` up to the last action. -/
def grown : State := after vm.step (boot (PHYSTOP - 24)) grownRun
def forking : State := after vm.step grown (callEvents (some initSlot) .fork 93)

theorem child_stores_kept :
    StoresKept 1 { r := true, w := true, u := true } (after vm.step forking [.next (some initSlot)]) childSlot := by
  have hreach : Reach vm.step (· = boot (PHYSTOP - 24)) (fun _ _ => True) grown :=
    .of_run (fun _ _ => trivial) grownRun (.init rfl) (run_eq_after _ (by decide +kernel))
  have hinit : Family initSlot grown grown (· = initSlot) := .init
  obtain ⟨s₁, M₁, hrun, hfam, hp⟩ := hinit.run (callEvents (some initSlot) .fork 93) rfl (by decide +kernel)
  have hs₁ : s₁ = forking := by
    rw [forking, after, hrun]
  subst hs₁
  have hstep : vm.step forking (.next (some initSlot)) = .ok (after vm.step forking [.next (some initSlot)]) :=
    step_eq_after _ (by decide +kernel)
  have hidle : ∀ t, (after vm.step forking [.next (some initSlot)]).idle t := quiet_of_isRet (by decide +kernel)
  have hb : Bears forking initSlot childSlot := bears_of_test (by decide +kernel)
  exact fork_preserves_stores hreach (quiet_of_isRet (by decide +kernel) _) (by decide +kernel) (by decide +kernel) rfl
    (by decide +kernel) (.inr (.inl ⟨by decide, rfl⟩))
    (hfam.step (.next (some initSlot)) (by rintro _ _ ⟨⟩) hstep)
    ⟨by decide +kernel, .inr ⟨initSlot, hp, rfl, hb, hidle _⟩⟩ (hidle _)

/-! ## The pages that are not kept -/

/-- A program with its text in page 1: `R|X`. -/
def textElf : Elf := ⟨true, [some ⟨true, true, false, 4096, 100, 0, []⟩]⟩

def textRun : List (Event Tid Call) := startRun ++ callEvents (some initSlot) (.exec (some textElf) []) 168

/-- **`fork` changes what stores may do.** A child is killed by a store to page 0, which was writable before the
fork; and a child can write to a page of text, which was not. -/
theorem fork_changes_permissions :
    (perms (after vm.step (boot (PHYSTOP - 24)) startRun).shared initSlot 0 =
      some { r := true, w := true, x := true, u := true } ∧
      ∃ s, run vm.step (boot (PHYSTOP - 24))
          (forkRun ++ callEvents (some childSlot) (.store 0 7) 7) = .ok s ∧
        s.shared.freelist ≠ [] ∧ (s.shared.proc childSlot).state = .zombie) ∧
    (perms (after vm.step (boot (PHYSTOP - 24)) textRun).shared initSlot 1 =
      some { r := true, w := false, x := true, u := true } ∧
      ∃ s, run vm.step (boot (PHYSTOP - 24))
          (textRun ++ callEvents (some initSlot) .fork 122 ++ callEvents (some childSlot) (.store 4096 7) 26) = .ok s ∧
        perms s.shared childSlot 1 = some { r := true, w := true, x := true, u := true }) := by
  refine ⟨⟨by decide +kernel, _, run_eq_after _ (by decide +kernel), by decide +kernel, by decide +kernel⟩,
    by decide +kernel, _, run_eq_after _ (by decide +kernel), by decide +kernel⟩

end Xv6Riscv.Vm
