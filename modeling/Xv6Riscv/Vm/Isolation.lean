import Xv6Riscv.Vm.Runs

/-!
# Copy-on-write isolation

After `fork` parent and child map the same pages, and each should go on as if it had a copy of its own. A user
store to a shared page faults and `handleCOW` (trap.c:32) makes the copy. `copyout` (vm.c:360) writes through
the physical address instead and asks nobody: a `read` or `wait` into a page that is still shared shows up in
the memory of the other process (`copyout_breaks_isolation`).

With no such `copyout`, no process changes the memory of another one (`isolation`). While there is memory for the
copies, each process has moreover the memory it would have if `fork` had copied every page (`Eager`, `Shows`). The
stores have to keep off two kinds of pages for that, since `handleCOW` does not treat them as they were before the
fork: page 0 where it was writable, and other pages that were not.
-/
namespace Xv6Riscv.Vm
open Multiset Threads Machine

variable {k : Cond} {t : Tid} {c q : Slot} {f root : Frame} {i : Nat} {s s' : State} {σ σ' : Kern} {W : Tid → View}
  {first : Frame} {p : Proc} {v : View} {ok : Kern → Tid → Act → Prop}

/-- What the process in slot `c` finds at the addresses of its memory. -/
def observed (s : Kern) (c : Slot) : Nat → Option UInt8 := userByte s.table s.mem (s.proc c)

/-- The flags of its pages. -/
def perms (s : Kern) (c : Slot) : Nat → Option Perm := userPerm s.table (s.proc c)

/-! ## The view of a process knows its memory -/

theorem Settled.space (h : Settled k v p) (hroot : p.pagetable = some root) : ∃ P, Space v root P 0 := by
  obtain ⟨lost, hp, -⟩ := h.pages
  refine ⟨opt p.trapframe + opt p.alarmContext + lost, ?_, ?_⟩
  · rw [hp, View.own, hroot]
    simp only [cons_add, add_cons]
    rw [add_right_comm, add_comm _ (v.table root).own, add_assoc]
  · rw [h.refs, View.shared, hroot, add_zero]

theorem Settled.shape (h : Settled k v p) (hroot : p.pagetable = some root) :
    (v.table root).Shape (npages p.sz) [TRAPFRAME, TRAMPOLINE] := by
  rcases h.body with ⟨-, hb, -⟩ | ⟨-, root', tf, hroot', -, hshape⟩
  · rw [hb] at hroot
    cases hroot
  · rw [hroot] at hroot'
    cases hroot'
    exact hshape

theorem Inv.table_of_self (h : Inv k σ W) (hset : Settled k (W (some c)) p) (hroot : p.pagetable = some root) :
    σ.table root = (W (some c)).table root := by
  obtain ⟨P, hs⟩ := hset.space hroot
  exact (h.knows (some c) root (mem_add.2 (.inl hs.mem_root))).1

theorem Inv.perms_eq (h : Inv k σ W) (hset : Settled k (W (some c)) p) (hself : (W (some c)).self = some p) :
    perms σ c = (W (some c)).flags p := by
  unfold perms
  rw [h.slots.self c p hself]
  unfold View.flags userPerm
  cases hroot : p.pagetable with
  | none => rfl
  | some root => simp only [Option.bind_some, h.table_of_self hset hroot]

/-- What the process finds is what its view says, where no `copyout` may write a shared page. -/
theorem Inv.observed_eq (hk : k.copyout = true) (h : Inv k σ W) (hset : Settled k (W (some c)) p)
    (hself : (W (some c)).self = some p) : observed σ c = (W (some c)).image p := by
  unfold observed
  rw [h.slots.self c p hself]
  funext va
  unfold View.image userByte
  cases hroot : p.pagetable with
  | none => rfl
  | some root =>
    obtain ⟨P, hs⟩ := hset.space hroot
    simp only [Option.bind_some, h.table_of_self hset hroot]
    cases hget : ((W (some c)).table root).get (va / PGSIZE) with
    | none => rfl
    | some pte =>
      simp only [Option.bind_some]
      split_ifs with hu
      · have hlt := (((hset.shape hroot).fits _ _ hget).user hu).trans_le (hset.shape hroot).small
        rw [(h.knows (some c) pte.pa (hs.mem_of_get hget hlt)).2 hk]
      · rfl

/-! ## The steps of the others -/

variable {goal : Tid → View → Prop}

theorem Holds.other (hok : ∀ s t a, ok s t a → actOk k s t a) (hinv : Inv k s.shared W)
    (hwp : ∀ t, (rules k).wp t (s.todo t) (W t) fun _ => goal t) (hrun : (s.shared.proc q).state = .runnable)
    (hne : t ≠ some q) (hguard : nextOk (U := Call) ok s (.next t)) (hstep : vm.step s (.next t) = .ok s') :
    ∃ W', Inv k s'.shared W' ∧ W' (some q) = W (some q) := by
  obtain ⟨a, next, r, σ', hp, hex, rfl⟩ := System.next_eq_ok.1 hstep
  have ht := hwp t
  simp only [nextOk, hp] at ht hguard
  obtain ⟨W', hinv', -, hother⟩ := exec_sound hinv ht.1 (ht.2 (hinv.books.valid t)) (hok _ _ _ hguard) hex
  refine ⟨W', hinv', ?_⟩
  rcases hother (some q) hne.symm with heq | ⟨hnot, -⟩
  · exact heq
  · exact absurd (hinv.ready hrun) hnot

/-- What another thread does leaves the memory of an idle process alone. -/
theorem observed_of_other (hok : ∀ s t a, ok s t a → actOk k s t a) (hk : k.copyout = true)
    (h : Holds (rules k) (Inv k) (Rest k) s) (hrun : (s.shared.proc q).state = .runnable) (hidle : s.idle (some q))
    {e : Event Tid Call} (hne : e.by ≠ some q) (hguard : nextOk ok s e) (hstep : vm.step s e = .ok s') :
    observed s'.shared q = observed s.shared q ∧ perms s'.shared q = perms s.shared q := by
  obtain ⟨W, hinv, hwp⟩ := h
  cases e with
  | start t u =>
    obtain ⟨-, -, rfl⟩ := System.start_eq_ok.1 hstep
    exact ⟨rfl, rfl⟩
  | next t =>
    obtain ⟨W', hinv', hsame⟩ := Holds.other hok hinv hwp hrun hne hguard hstep
    have hrest := rest_of_idle hwp hidle
    obtain hnone | ⟨p, hself, -⟩ := hinv.ready hrun
    · cases hnone
    · have hset := hrest.settled p hself
      rw [hinv.observed_eq hk hset hself, hinv.perms_eq hset hself, ← hsame]
      rw [← hsame] at hset hself
      exact ⟨hinv'.observed_eq hk hset hself, hinv'.perms_eq hset hself⟩

/-! ## The own calls -/

/-- What the call `u` of the process in slot `q`, made in `σ`, leaves in its view. -/
def Done (k : Cond) (σ : Kern) (q : Slot) (u : Call) (v' : View) : Prop :=
  Rest k (some q) v' ∧ ∃ p', v'.self = some p' ∧ Effect u (observed σ q) (v'.image p') ∧
    Flags u (perms σ q) (v'.flags p')

theorem wp_done (hk : k.copyout = true) {u : Call} (hinv : Inv k σ W) (hrest : Rest k (some q) (W (some q)))
    (hen : enabled σ (some q) u = true) : Wp k (some q) u.code (W (some q)) fun _ => Done k σ q u := by
  obtain ⟨hu, root, tf, lost, hcalm⟩ := hinv.calm hrest hen
  have hset := hrest.settled _ hcalm.self
  refine Rules.wp_mono (hcalm.wp_call hu) fun _ v' hend => ⟨hend.rest, ?_⟩
  rw [hinv.observed_eq hk hset hcalm.self, hinv.perms_eq hset hcalm.self]
  exact hend.self

/-- What a call is proved to leave in the view of its process is there when the call is over. -/
theorem goal_of_during (hok : ∀ s t a, ok s t a → actOk k s t a) (h : Holds (rules k) (Inv k) (Rest k) s) {u : Call}
    (hd : During vm ok (some q) u s s') (hidle : s'.idle (some q)) {G : View → Prop}
    (hcall : ∀ W, Inv k s.shared W → Rest k (some q) (W (some q)) → Wp k (some q) u.code (W (some q)) fun _ => G) :
    ∃ W, Inv k s'.shared W ∧ G (W (some q)) := by
  obtain ⟨W, hinv, hwp⟩ := h.of_during ((sound k).mono hok) hcall hd
  have hgoal := rest_of_idle hwp hidle
  rw [Function.update_self] at hgoal
  exact ⟨W, hinv, hgoal⟩

/-- **A call does what its interface says**, whatever the other threads do meanwhile. -/
theorem effect_of_during (hok : ∀ s t a, ok s t a → actOk k s t a) (hk : k.copyout = true)
    (h : Holds (rules k) (Inv k) (Rest k) s) {u : Call} (hd : During vm ok (some q) u s s') (hidle : s'.idle (some q)) :
    Effect u (observed s.shared q) (observed s'.shared q) ∧ Flags u (perms s.shared q) (perms s'.shared q) := by
  have hen : enabled s.shared (some q) u = true := hd.enabled
  obtain ⟨W, hinv, hrest, p, hself, heff, hflags⟩ := goal_of_during hok h hd hidle fun _ hinv hrest =>
    wp_done hk hinv hrest hen
  have hset := hrest.settled p hself
  rw [hinv.observed_eq hk hset hself, hinv.perms_eq hset hself]
  exact ⟨heff, hflags⟩

/-- How a store ends, in terms of views of its process before and after. -/
theorem stored_of_during {va : Nat} {x : UInt8} (hok : ∀ s t a, ok s t a → actOk k s t a)
    (h : Holds (rules k) (Inv k) (Rest k) s) (hd : During vm ok (some q) (.store va x) s s') (hidle : s'.idle (some q)) :
    ∃ v v' p p', Stored k va x v p v' p' ∧ p.state = .runnable ∧ (s'.shared.proc q).state = p'.state ∧
      perms s.shared q = v.flags p ∧ perms s'.shared q = v'.flags p' ∧
      (k.copyout = true → observed s.shared q = v.image p ∧ observed s'.shared q = v'.image p') := by
  have hen : enabled s.shared (some q) (.store va x) = true := hd.enabled
  obtain ⟨W, hinv, hrest, v, p, p', hself, hst, hp, hflags, himage⟩ := goal_of_during hok h hd hidle
    (G := fun v' => Rest k (some q) v' ∧ ∃ v p p', v'.self = some p' ∧ Stored k va x v p v' p' ∧ p.state = .runnable ∧
      perms s.shared q = v.flags p ∧ (k.copyout = true → observed s.shared q = v.image p)) <| by
    intro W hinv hrest
    obtain ⟨-, root, tf, lost, hcalm⟩ := hinv.calm hrest hen
    have hset := hrest.settled _ hcalm.self
    refine hcalm.wp_store va fun v' p' hr hself hst => ⟨hr, W (some q), _, p', hself, hst, hcalm.state, ?_, fun hk => ?_⟩
    · exact hinv.perms_eq hset hcalm.self
    · exact hinv.observed_eq hk hset hcalm.self
  have hset := hrest.settled p' hself
  refine ⟨v, W (some q), p, p', hst, hp, ?_, hflags, hinv.perms_eq hset hself, fun hk => ⟨himage hk, ?_⟩⟩
  · rw [hinv.slots.self q p' hself]
  · exact hinv.observed_eq hk hset hself

/-! ## Births -/

/-- The next action of `q` is the end of its `fork`: the child in slot `c` becomes runnable. -/
def Bears (s : State) (q c : Slot) : Prop := ∃ next, s.todo (some q) = .act (.setRunnable c) next

/-- Above `sz` there are no user pages. -/
theorem Table.Shape.no_byte {T : Table} {n i : Nat} {S : List Nat} (h : T.Shape n S) (hi : ¬ i < n)
    (byte : Pte → UInt8) : ((T.get i).bind fun pte => if pte.perm.u then some (byte pte) else none) = none := by
  cases hg : T.get i with
  | none => rfl
  | some pte =>
    have hu : pte.perm.u ≠ true := fun hu => hi ((h.fits _ _ hg).user hu)
    simp [hu]

/-- **A child starts with the pages of its parent.** -/
theorem birth (h : Holds (rules k) (Inv k) goal s) (hb : Bears s q c)
    (hstep : vm.step s (.next (some q)) = .ok s') : observed s'.shared c = observed s'.shared q ∧
      (∀ i < npages (s.shared.proc q).sz, perms s'.shared c i = perms s'.shared q i) ∧
      ∀ i f, perms s'.shared c i = some f → f.u = true → i < npages (s.shared.proc q).sz := by
  obtain ⟨W, hinv, hwp⟩ := h
  obtain ⟨next, hnext⟩ := hb
  obtain ⟨a, next', r, σ', hp, hex, rfl⟩ := System.next_eq_ok.1 hstep
  rw [hnext] at hp
  cases hp
  cases hex
  have ht := hwp (some q)
  rw [hnext] at ht
  obtain ⟨-, p, P, R, P', R', hchild, ⟨-, hin⟩, hpages, -, hrest, -⟩ := ht.2 (hinv.books.valid (some q))
  obtain ⟨pq, old, new, hself, hold, hmem, hshape, hnew, hsz, hget⟩ := hin nofun
  have hpc : s.shared.proc c = p := (hinv.slots.child (some q) c p hchild).1
  have hpq : s.shared.proc q = pq := hinv.slots.self q pq hself
  have hcq : q ≠ c := by
    rintro rfl
    rw [(hinv.slots.child (some q) q p hchild).2.1] at hself
    cases hself
  -- both tables are as the view of the parent says
  have hT : s.shared.table old = (W (some q)).table old := (hinv.knows (some q) old (mem_add.2 (.inl hmem))).1
  have hset := hrest.settled _ rfl
  obtain ⟨Pc, hs⟩ := hset.space hnew
  have hnewT : s.shared.table new = (W (some q)).table new := by
    refine (hinv.knows (some q) new (mem_add.2 (.inl ?_))).1
    rw [hpages]
    exact mem_add.2 (.inr hs.mem_root)
  have hshapec : ((W (some q)).table new).Shape (npages p.sz) [TRAPFRAME, TRAMPOLINE] := hset.shape hnew
  have hc' : (s.shared.setProc c { s.shared.proc c with state := .runnable }).proc c
    = { p with state := .runnable } := by
    simp [Kern.setProc, hpc]
  have hq' : (s.shared.setProc c { s.shared.proc c with state := .runnable }).proc q = pq := by
    simp [Kern.setProc, Function.update_of_ne hcq, hpq]
  rw [hsz] at hshapec
  refine ⟨funext fun va => ?_, fun i hi => ?_, fun i f hi hu => ?_⟩
  · unfold observed userByte
    simp only [hc', hq', hnew, hold, Option.bind_some]
    change (((s.shared.table new).get (va / PGSIZE)).bind _ : Option UInt8)
      = ((s.shared.table old).get (va / PGSIZE)).bind _
    rw [hnewT, hT]
    by_cases hi : va / PGSIZE < npages pq.sz
    · rw [hget _ hi]
    · exact (hshapec.no_byte hi _).trans (hshape.no_byte hi _).symm
  · rw [hpq] at hi
    unfold perms userPerm
    simp only [hc', hq', hnew, hold, Option.bind_some]
    change ((s.shared.table new).get i).map _ = ((s.shared.table old).get i).map _
    rw [hnewT, hT, hget i hi]
  · unfold perms userPerm at hi
    simp only [hc', hnew, Option.bind_some] at hi
    obtain ⟨pte, hpte, rfl⟩ := Option.map_eq_some_iff.1 hi
    rw [hpq]
    exact (hshapec.fits i pte (hnewT ▸ hpte)).user hu

/-! ## With a `fork` that copies -/

/-- The memory of a process in a kernel whose `fork` copies every page: what it finds there, and which pages its
stores may change. -/
structure Eager where
  byte : Nat → Option UInt8
  writable : Nat → Bool

namespace Eager
variable {m : Eager} {b b' : Nat → Option UInt8} {e e' : Nat → Option Perm}

/-- A store to `va` is performed, otherwise the process is killed. -/
def May (m : Eager) (va : Nat) : Prop := m.byte va ≠ none ∧ m.writable (va / PGSIZE) = true

def store (m : Eager) (va : Nat) (x : UInt8) : Eager := { m with byte := Function.update m.byte va (some x) }

/-- What the other calls do. The pages that `exec` and `sbrk` add are new in either kernel (`fresh`: an `exec` has
succeeded). -/
def Does (u : Call) (fresh : Prop) (m m' : Eager) : Prop :=
  Effect u m.byte m'.byte ∧
  match u with
  | .exec _ _ => m'.writable = m.writable ∨ fresh
  | .sbrk _ => ∀ va, m'.byte va ≠ none →
      m'.writable (va / PGSIZE) = if m.byte va = none then true else m.writable (va / PGSIZE)
  | _ => m'.writable = m.writable

/-- The bytes are the same, and so is what stores may do to a page that is not copy-on-write. -/
def Fits (m : Eager) (b : Nat → Option UInt8) (e : Nat → Option Perm) : Prop :=
  b = m.byte ∧ ∀ i f, e i = some f → f.u = true → f.cow = true ∧ f.w = false ∨ f.cow = false ∧ f.w = m.writable i

/-- No page is copy-on-write. -/
def Plain (e : Nat → Option Perm) : Prop := ∀ i f, e i = some f → f.u = true → f.cow = false

theorem Fits.does {u : Call} (h : Fits m b e) (hu : ∀ va x, u ≠ .store va x) (heff : Effect u b b')
    (hflags : Flags u e e') (hb : ∀ va, b va ≠ none ↔ ∃ f, e (va / PGSIZE) = some f ∧ f.u = true)
    (hb' : ∀ va, b' va ≠ none ↔ ∃ f, e' (va / PGSIZE) = some f ∧ f.u = true) :
    ∃ m', Does u (Plain e') m m' ∧ Fits m' b' e' := by
  obtain ⟨rfl, hfits⟩ := h
  cases u with
  | store va x => exact absurd rfl (hu va x)
  | fork =>
    obtain ⟨n, hshare⟩ := hflags
    refine ⟨⟨b', m.writable⟩, ⟨heff, rfl⟩, rfl, fun i f hi hf => ?_⟩
    rw [hshare i] at hi
    split_ifs at hi
    · obtain ⟨f₀, -, rfl⟩ := Option.map_eq_some_iff.1 hi
      exact .inl ⟨rfl, rfl⟩
    · exact hfits i f hi hf
  | exec file args =>
    rcases hflags with rfl | hplain
    · exact ⟨⟨b', m.writable⟩, ⟨heff, .inl rfl⟩, rfl, hfits⟩
    · refine ⟨⟨b', fun i => (e' i).elim false Perm.w⟩, ⟨heff, .inr hplain⟩, rfl, fun i f hi hf => ?_⟩
      exact .inr ⟨hplain i f hi hf, by simp [hi]⟩
  | sbrk n =>
    refine ⟨⟨b', fun i => if e i = none then true else m.writable i⟩, ⟨heff, fun va hva => ?_⟩, rfl, fun i f hi hf => ?_⟩
    · obtain ⟨f, hf, hfu⟩ := (hb' va).1 hva
      by_cases hnone : e (va / PGSIZE) = none
      · have hold : m.byte va = none := by
          by_contra hne
          obtain ⟨g, hg, -⟩ := (hb va).1 hne
          rw [hnone] at hg
          cases hg
        simp [hnone, hold]
      · obtain hsame | hgone | ⟨hnone', -⟩ := hflags (va / PGSIZE)
        · simp [hnone, (hb va).2 ⟨f, hsame ▸ hf, hfu⟩]
        · rw [hgone] at hf
          cases hf
        · exact absurd hnone' hnone
    · obtain hsame | hgone | ⟨hnone, hnew⟩ := hflags i
      · rw [hsame] at hi
        simp only [hi, reduceCtorEq, if_false]
        exact hfits i f hi hf
      · rw [hgone] at hi
        cases hi
      · rw [hnew] at hi
        cases hi
        exact .inr ⟨rfl, by simp [hnone]⟩
  | _ =>
    rw [show e' = e from hflags]
    exact ⟨⟨b', m.writable⟩, ⟨heff, rfl⟩, rfl, hfits⟩

end Eager

theorem observed_ne_none {σ : Kern} {va : Nat} :
    observed σ c va ≠ none ↔ ∃ f, perms σ c (va / PGSIZE) = some f ∧ f.u = true := by
  unfold observed perms userByte userPerm
  cases (σ.proc c).pagetable.bind fun root => (σ.table root).get (va / PGSIZE) with
  | none => simp
  | some pte => simp

/-- The process in slot `c` has the memory `m`, only that pages are still to be copied. -/
def Shows (m : Eager) (σ : Kern) (c : Slot) : Prop := m.Fits (observed σ c) (perms σ c)

/-- A store to the page needs no copy. -/
def Writable (σ : Kern) (c : Slot) (i : Nat) : Prop := ∃ f, perms σ c i = some f ∧ f.w = true ∧ f.u = true

/-- If the page is copy-on-write, `handleCOW` treats it as it was: page 0 not writable, other pages writable. -/
def Restores (m : Eager) (σ : Kern) (c : Slot) (i : Nat) : Prop :=
  ∀ f, perms σ c i = some f → f.u = true → f.cow = true → (m.writable i = true ↔ i ≠ 0)

/-- A store ends as in a kernel that copies: it is performed, at once or when it is tried again and the page is writable,
or it kills the process. -/
def EndsAs (m : Eager) (va : Nat) (x : UInt8) (c : Slot) (σ σ' : Kern) : Prop :=
  (m.May va → (σ'.proc c).state = .runnable ∧
    (Writable σ c (va / PGSIZE) ∧ Shows (m.store va x) σ' c ∨
      ¬ Writable σ c (va / PGSIZE) ∧ Writable σ' c (va / PGSIZE) ∧ Shows m σ' c)) ∧
  (¬ m.May va → (σ'.proc c).state = .zombie)

/-- A call does what its interface says, and what it does in a kernel that copies. -/
def ActsAs (u : Call) (c : Slot) (σ σ' : Kern) : Prop :=
  Effect u (observed σ c) (observed σ' c) ∧ ∀ m, Shows m σ c → (∀ va x, u ≠ .store va x) →
    ∃ m', m.Does u (Eager.Plain (perms σ' c)) m' ∧ Shows m' σ' c

theorem shows_of_store {m : Eager} {va : Nat} {x : UInt8} (hok : ∀ s t a, ok s t a → actOk k s t a)
    (hk : k.copyout = true) (hm : k.memory = true) (h : Holds (rules k) (Inv k) (Rest k) s)
    (hd : During vm ok (some q) (.store va x) s s') (hidle : s'.idle (some q)) (hshows : Shows m s.shared q)
    (hres : Restores m s.shared q (va / PGSIZE)) : EndsAs m va x q s.shared s'.shared := by
  obtain ⟨v, v', p, p', hst, hp, hp', hflags, hflags', himage⟩ := stored_of_during hok h hd hidle
  obtain ⟨hold, hnew⟩ := himage hk
  obtain ⟨hbyte, hfits⟩ := hshows
  have hbytes : m.byte va ≠ none ↔ ∃ f, v.flags p (va / PGSIZE) = some f ∧ f.u = true := by
    rw [← hbyte, ← hflags]
    exact observed_ne_none
  unfold EndsAs Shows Writable
  unfold Restores at hres
  rw [hp', hnew, hflags']
  rw [hold] at hbyte
  rw [hflags] at hfits hres ⊢
  cases hst with
  | written f hf hw hu hsame hne heq hpp =>
    subst hpp
    obtain ⟨-, hno⟩ | ⟨-, hwr⟩ := hfits _ f hf hu
    · rw [hw] at hno
      cases hno
    have hmay : m.May va := ⟨hbytes.2 ⟨f, hf, hu⟩, hwr ▸ hw⟩
    refine ⟨fun _ => ⟨hp, .inl ⟨⟨f, hf, hw, hu⟩, ?_⟩⟩, fun hnot => absurd hmay hnot⟩
    rw [heq, hsame, hbyte]
    exact ⟨rfl, hfits⟩
  | retry f hf hnw hpage hcow hu hflag heq hpp =>
    subst hpp
    have hwr := (hres f hf hu hcow).2 hpage
    have hmay : m.May va := ⟨hbytes.2 ⟨f, hf, hu⟩, hwr⟩
    refine ⟨fun _ => ⟨hp, .inr ⟨?_, ⟨f.unshare, ?_, rfl, hu⟩, heq.trans hbyte, fun i g hi hgu => ?_⟩⟩,
      fun hnot => absurd hmay hnot⟩
    · rintro ⟨g, hg, hgw, hgu⟩
      rw [hf] at hg
      cases hg
      exact hnw ⟨hgw, hgu⟩
    · rw [hflag, Function.update_self]
    · rw [hflag, Function.update_apply] at hi
      split_ifs at hi with hpg
      · cases hi
        rw [hpg, hwr]
        exact .inr ⟨rfl, rfl⟩
      · exact hfits i g hi hgu
  | killed hno _ _ hz =>
    refine ⟨fun hmay => ?_, fun _ => hz⟩
    obtain ⟨f, hf, hu⟩ := hbytes.1 hmay.1
    obtain ⟨hcow, -⟩ | ⟨-, hwr⟩ := hfits _ f hf hu
    · rw [(hno f hf).2 ((hres f hf hu hcow).1 hmay.2) hcow hu] at hm
      cases hm
    · exact absurd ⟨hwr.trans hmay.2, hu⟩ (hno f hf).1

/-! ## Isolation -/

/-- `copyout` writes no page that is shared. -/
def copiesUnshared (s : Kern) (_ : Tid) : Act → Prop
  | .copy pa _ _ => s.fr pa ≤ 1
  | _ => True

instance (s : Kern) (t : Tid) (a : Act) : Decidable (copiesUnshared s t a) :=
  decidable_of_iff
    ((match a with
      | .copy pa _ _ => decide (s.fr pa ≤ 1)
      | _ => true) = true) <| by
    cases a <;> simp [copiesUnshared]

theorem actOk_of_copiesUnshared (s : Kern) (t : Tid) (a : Act) (h : copiesUnshared s t a) :
    actOk ⟨true, false, false⟩ s t a := by
  cases a with
  | copy pa off bytes => exact fun _ => h
  | _ => first | trivial | exact fun hk => nomatch hk

/-- The memory of the processes is as if `fork` had made a copy. -/
structure Isolated (ok : Kern → Tid → Act → Prop) (s : State) : Prop where
  /-- No step of another thread changes what a process finds in its memory, or what its stores may do. -/
  others : ∀ e s' q, nextOk ok s e → vm.step s e = .ok s' → e.by ≠ some q → s.idle (some q) →
    (s.shared.proc q).state = .runnable →
    observed s'.shared q = observed s.shared q ∧ perms s'.shared q = perms s.shared q
  /-- Its own calls change it as their interface says, and as in a kernel that copies. -/
  calls : ∀ q u s', During vm ok (some q) u s s' → s'.idle (some q) → ActsAs u q s.shared s'.shared
  /-- So do its stores, if `kalloc` finds a page. -/
  stores : ∀ q va x s' m, During vm (fun s t a => ok s t a ∧ findsPage s t a) (some q) (.store va x) s s' →
    s'.idle (some q) → Shows m s.shared q → Restores m s.shared q (va / PGSIZE) → EndsAs m va x q s.shared s'.shared
  /-- A child starts with what its parent finds, and that is what the parent found when it called `fork`. -/
  births : ∀ q c s₁ s₂, During vm ok (some q) .fork s s₁ → Bears s₁ q c → nextOk (U := Call) ok s₁ (.next (some q)) →
    vm.step s₁ (.next (some q)) = .ok s₂ → observed s₂.shared c = observed s₂.shared q ∧
      (s₂.idle (some q) → observed s₂.shared c = observed s.shared q ∧
        ∀ m, Shows m s.shared q → Shows m s₂.shared c)

/-- **Copy-on-write isolation**, in runs where `copyout` writes no shared page. -/
theorem isolation (h : Reach vm.step (· = boot first) (nextOk copiesUnshared) s) : Isolated copiesUnshared s := by
  have hholds := holds_of_reach actOk_of_copiesUnshared h
  have hcalls : ∀ q u s', During vm copiesUnshared (some q) u s s' → s'.idle (some q) → ActsAs u q s.shared s'.shared := by
    intro q u s' hd hidle
    obtain ⟨heff, hflags⟩ := effect_of_during actOk_of_copiesUnshared rfl hholds hd hidle
    exact ⟨heff, fun m hm hu => hm.does hu heff hflags (fun _ => observed_ne_none) fun _ => observed_ne_none⟩
  constructor
  case calls => exact hcalls
  case others =>
    intro e s' q hg hstep hne hidle hrun
    exact observed_of_other actOk_of_copiesUnshared rfl hholds hrun hidle hne hg hstep
  case stores =>
    intro q va x s' m hd hidle hm hres
    exact shows_of_store (fun s t a ha => actOk_pages (actOk_of_copiesUnshared s t a ha.1) ha.2) rfl rfl
      (holds_pages hholds) hd hidle hm hres
  case births =>
    intro q c s₁ s₂ hd hb hg hstep
    have hreach₁ : Holds (rules ⟨true, false, false⟩) (Inv _) (Rest _) s₁ :=
      holds_of_reach actOk_of_copiesUnshared (hd.reach h)
    obtain ⟨hborn, hperms, huser⟩ := birth hreach₁ hb hstep
    refine ⟨hborn, fun hidle => ?_⟩
    have hbusy : ¬ s₁.idle (some q) := by
      obtain ⟨next, hnext⟩ := hb
      unfold Pool.idle
      rw [hnext]
      nofun
    obtain ⟨heff, heager⟩ := hcalls q .fork s₂ (.step _ hd hbusy hg hstep) hidle
    refine ⟨hborn.trans heff, fun m hm => ?_⟩
    obtain ⟨m', ⟨hbyte, hwr⟩, hm'⟩ := heager m hm nofun
    obtain rfl : m' = m := by
      cases m
      cases m'
      cases hbyte
      cases hwr
      rfl
    refine ⟨hborn.trans hm'.1, fun i f hi hu => hm'.2 i f ?_ hu⟩
    rw [← hperms i (huser i f hi hu)]
    exact hi

/-- Parent and child share the page of initcode. -/
theorem isolation_after_fork :
    observed (after vm.step (boot (PHYSTOP - 24)) forkRun).shared childSlot 0 = some 1 ∧
      Isolated copiesUnshared (after vm.step (boot (PHYSTOP - 24)) forkRun) := by
  have hreach : Reach vm.step (· = boot (PHYSTOP - 24)) (nextOk copiesUnshared)
    (after vm.step (boot (PHYSTOP - 24)) forkRun) :=
    .of_checked forkRun (.init rfl) (by decide +kernel)
  exact ⟨by decide +kernel, isolation hreach⟩

/-- The parent reads a byte from a file into a page that it shares with its child, up to the `memmove`. -/
def copyoutRun : List (Event Tid Call) := forkRun ++ callEvents (some initSlot) (.copyout 0 [9]) 4

/-- **`copyout` breaks isolation**: the child, in no call, finds another byte in its memory. -/
theorem copyout_breaks_isolation :
    ∃ s e s', Reach vm.step (· = boot (PHYSTOP - 24)) (fun _ _ => True) s ∧ vm.step s e = .ok s' ∧
      e.by ≠ some childSlot ∧ s.idle (some childSlot) ∧ (s.shared.proc childSlot).state = .runnable ∧
      observed s.shared childSlot 0 = some 1 ∧ observed s'.shared childSlot 0 = some 9 := by
  refine ⟨after vm.step (boot (PHYSTOP - 24)) copyoutRun, .next (some initSlot),
    after vm.step (after vm.step (boot (PHYSTOP - 24)) copyoutRun) [.next (some initSlot)], ?_,
    step_eq_after _ (by decide +kernel), by decide, ?_, by decide +kernel, by decide +kernel, by decide +kernel⟩
  · exact .of_run (fun _ _ => trivial) copyoutRun (.init rfl) (run_eq_after _ (by decide +kernel))
  · exact idle_of_isRet (by decide +kernel)

end Xv6Riscv.Vm
