import Xv6Riscv.Alarm.Pages

/-!
# What a step can do

Every event is a short sequence of elementary steps (`Micro`): a write of fields that carry no
ownership, a write of a process's own trapframe, a page moving between the free list and the rest of
the kernel, a birth, a death, an alarm delivery, a `sigreturn`. `step_path` says so once; the
invariants of this development are then checked on the elementary steps only.
-/
namespace Xv6Riscv.Alarm
open Machine List
open Outcome (bind_eq_ok bind_ok)
variable {s s' : Sys} {p : Nat} {env : Env} {n : Sysno}

/-- A slot update that leaves the page pointers, the alarm flag and the identity alone. -/
structure Keeps (q q' : Proc) : Prop where
  gen : q'.gen = q.gen
  trapframe : q'.trapframe = q.trapframe
  alarmOn : q'.alarmOn = q.alarmOn
  alarmContext : q'.alarmContext = q.alarmContext
  unused : q'.state = .unused ↔ q.state = .unused

/-- A successful `allocproc`. -/
def born (s : Sys) (c a : Nat) (as : List Nat) : Sys :=
  (popped (claimed s c) a as).setProc c fun q => { q with trapframe := a }

/-- An alarm delivered with the page `a`. -/
def delivered (s : Sys) (p a : Nat) (as : List Nat) : Sys :=
  let q := s.proc p
  let s := popped (s.setProc p fun q => { q with nticks := q.nticks + 1 }) a as
  let saved := s.tf p
  let s := (s.setPage a saved).setProc p fun q => { q with alarmContext := a, alarmOn := true }
  let s := { s with last := Function.update s.last q.gen (a, saved) }
  s.setTf p { s.tf p with epc := q.handler }

/-- `sys_sigreturn` up to its return value. -/
def returned (s : Sys) (p : Nat) : Sys :=
  (pushed (s.setTf p (s.page (s.proc p).alarmContext)) (s.proc p).alarmContext).setProc p fun q =>
    { q with alarmOn := false, nticks := 0, alarmContext := 0 }

/-- The elementary steps an invariant may have to know about by name. -/
inductive Label where
  | tau
  | sigreturn (p : Nat)
  | birth (c : Nat)
  | death (c : Nat)
  | alarm (p : Nat)
deriving DecidableEq

inductive Micro (s : Sys) : Label → Sys → Prop
  | field {c : Nat} {f : Proc → Proc} (hc : c < NPROC) (h : Keeps (s.proc c) (f (s.proc c))) :
      Micro s .tau (s.setProc c f)
  | frame {c : Nat} {t : Trapframe} (hc : c < NPROC) (h : (s.proc c).state ≠ .unused) :
      Micro s .tau (s.setTf c t)
  | kget {a : Nat} {as : List Nat} (h : s.freelist = a :: as) :
      Micro s .tau { popped s a as with held := a :: s.held }
  | kput {a : Nat} (h : a ∈ s.held) : Micro s .tau (pushed { s with held := s.held.erase a } a)
  | death {c : Nat} (hc : c < NPROC) (h : (s.proc c).state ≠ .unused) :
      Micro s (.death c) ((pushed s (s.proc c).trapframe).setProc c cleared)
  | stillborn {c : Nat} (hc : c < NPROC) (h : (s.proc c).state = .unused) :
      Micro s .tau ((claimed s c).setProc c cleared)
  | birth {c a : Nat} {as : List Nat} (hc : c < NPROC) (h : (s.proc c).state = .unused)
      (hf : s.freelist = a :: as) : Micro s (.birth c) (born s c a as)
  | alarm {p a : Nat} {as : List Nat} (hp : p < NPROC) (h : (s.proc p).state ≠ .unused)
      (hoff : (s.proc p).alarmOn = false) (hf : s.freelist = a :: as) :
      Micro s (.alarm p) (delivered s p a as)
  | sigreturn {p : Nat} (hp : p < NPROC) (h : (s.proc p).state ≠ .unused)
      (hctx : (s.proc p).alarmContext ≠ 0) : Micro s (.sigreturn p) (returned s p)

/-- A sequence of elementary steps. -/
inductive Path : Sys → List Label → Sys → Prop
  | nil (s : Sys) : Path s [] s
  | cons {s s' s'' : Sys} {l : Label} {ls : List Label} : Micro s l s' → Path s' ls s'' →
      Path s (l :: ls) s''

theorem Path.one {l : Label} (h : Micro s l s') : Path s [l] s' := .cons h (.nil _)

variable {ls ms : List Label}

theorem Path.append {s'' : Sys} (h : Path s ls s') (h' : Path s' ms s'') : Path s (ls ++ ms) s'' := by
  induction h with
  | nil => exact h'
  | cons hm _ ih => exact .cons hm (ih h')

theorem Path.append_all {s'' : Sys} {P : Label → Prop} (h : Path s ls s') (hl : ∀ l ∈ ls, P l)
    (h' : Path s' ms s'') (hm : ∀ l ∈ ms, P l) : ∃ ks, Path s ks s'' ∧ ∀ l ∈ ks, P l :=
  ⟨_, h.append h', fun l hk => (mem_append.1 hk).elim (hl l) (hm l)⟩

/-- An invariant of the elementary steps with labels in `ls` survives the sequence. -/
theorem Path.inv {I : Sys → Prop} (h : Path s ls s')
    (hI : ∀ s l s', l ∈ ls → I s → Micro s l s' → I s') (h0 : I s) : I s' := by
  induction h with
  | nil => exact h0
  | cons hm _ ih =>
    exact ih (fun s l s' hl => hI s l s' (mem_cons_of_mem _ hl))
      (hI _ _ _ (mem_cons_self ..) h0 hm)

/-! ## The functions of the model as paths -/

theorem setProc_setProc (s : Sys) (c : Nat) (f g : Proc → Proc) :
    (s.setProc c f).setProc c g = s.setProc c fun q => g (f q) := by
  simp [Sys.setProc]

theorem kalloc_nil (h : s.freelist = []) : kalloc s = none := by simp [kalloc, h]

theorem kalloc_cons {a : Nat} {as : List Nat} (h : s.freelist = a :: as) :
    kalloc s = some (a, popped s a as) := by simp [kalloc, h]

theorem kfree_ok {a : Nat} (h : kfree s a = .ok s') : a ≠ 0 ∧ s' = pushed s a := by
  unfold kfree at h
  split at h
  · cases h
  · rename_i h0
    cases h
    exact ⟨h0, rfl⟩

theorem freeproc_path {c : Nat} (hc : c < NPROC) (hs : (s.proc c).state ≠ .unused)
    (ht : (s.proc c).trapframe ≠ 0) (h : freeproc s c = .ok s') : Path s [.death c] s' := by
  unfold freeproc at h
  rw [if_pos ht] at h
  obtain ⟨s1, h1, h2⟩ := bind_eq_ok.1 h
  obtain ⟨_, rfl⟩ := kfree_ok h1
  cases h2
  exact .one (.death hc hs)

theorem exit_path (hp : p < NPROC) (hs : (s.proc p).state ≠ .unused) (h : exit s p = .ok s') : Path s [.tau] s' := by
  unfold exit at h
  split at h
  · cases h
  · cases h
    exact .one (.field hp ⟨rfl, rfl, rfl, rfl, by simp [hs]⟩)

theorem usertrapret_path (hp : p < NPROC) : Path s [.tau] (usertrapret s p) :=
  .one (.field hp ⟨rfl, rfl, rfl, rfl, Iff.rfl⟩)

theorem usertrapTail_path (hp : p < NPROC) (hs : (s.proc p).state ≠ .unused)
    (h : usertrapTail s p = .ok s') : Path s [.tau] s' := by
  unfold usertrapTail at h
  split at h
  · exact exit_path hp hs h
  · cases h
    exact usertrapret_path hp

/-- What an elementary step makes of slot `c`; the others it leaves as they are. -/
inductive Wrote (s : Sys) (c : Nat) : Label → Proc → Prop
  | same (l : Label) : Wrote s c l (s.proc c)
  | field {q : Proc} (h : Keeps (s.proc c) q) : Wrote s c .tau q
  | death : Wrote s c (.death c) (cleared (s.proc c))
  | stillborn (h : (s.proc c).state = .unused) : Wrote s c .tau (cleared ((claimed s c).proc c))
  | birth {a : Nat} {as : List Nat} (h : (s.proc c).state = .unused) (hf : s.freelist = a :: as) :
      Wrote s c (.birth c) ((born s c a as).proc c)
  | alarm {a : Nat} {as : List Nat} (h : (s.proc c).state ≠ .unused) :
      Wrote s c (.alarm c) ((delivered s c a as).proc c)
  | sigreturn (h : (s.proc c).state ≠ .unused) : Wrote s c (.sigreturn c) ((returned s c).proc c)

theorem Micro.wrote {l : Label} (hm : Micro s l s') (c : Nat) : Wrote s c l (s'.proc c) := by
  have other : s'.proc c = s.proc c → Wrote s c l (s'.proc c) := fun h => h ▸ .same l
  cases hm with
  | frame | kget | kput => exact .same _
  | @field d f hd hk =>
    by_cases e : c = d
    · subst e; rw [setProc_self]; exact .field hk
    · exact other (setProc_ne _ _ _ _ e)
  | @death d hd hu =>
    by_cases e : c = d
    · subst e; rw [setProc_self]; exact .death
    · exact other (setProc_ne _ _ _ _ e)
  | @stillborn d hd hu =>
    by_cases e : c = d
    · subst e; rw [setProc_self]; exact .stillborn hu
    · exact other ((setProc_ne _ _ _ _ e).trans (claimed_ne _ _ _ e))
  | @birth d a as hd hu hf =>
    by_cases e : c = d
    · subst e; exact .birth hu hf
    · exact other ((setProc_ne _ _ _ _ e).trans (claimed_ne _ _ _ e))
  | @alarm d a as hd hu =>
    by_cases e : c = d
    · subst e; exact .alarm hu
    · exact other (by simp [delivered, setProc_ne _ _ _ _ e])
  | @sigreturn d hd hu =>
    by_cases e : c = d
    · subst e; exact .sigreturn hu
    · exact other (by simp [returned, setProc_ne _ _ _ _ e])

theorem Path.alive (h : Path s ls s')
    (hp : (s.proc p).state ≠ .unused) (hd : .death p ∉ ls) : (s'.proc p).state ≠ .unused := by
  refine h.inv (I := fun s => (s.proc p).state ≠ .unused) ?_ hp
  intro s l s' hl hp hm
  have hw := hm.wrote p
  generalize s'.proc p = q at hw
  cases hw with
  | same => exact hp
  | field hk => exact fun hu => hp (hk.unused.1 hu)
  | death => exact absurd hl hd
  | stillborn hu | birth hu => exact absurd hu hp
  | alarm => simpa [delivered, popped] using hp
  | sigreturn => simpa [returned, pushed] using hp

/-- Which elementary steps a system call of `p` with number `n` may take from `s`. -/
def CallLabel (s : Sys) (p : Nat) (n : Sysno) : Label → Prop
  | .tau => True
  | .sigreturn q => q = p ∧ n = .sigreturn
  | .birth c => n = .fork ∧ unusedSlot s.state = some c
  | .death c => (s.proc c).state = .unused ∨ (s.proc c).state = .zombie
  | .alarm _ => False

/-- `allocproc` returns a slot it found `UNUSED`, after a birth; or no slot, after no lasting birth. -/
theorem allocproc_path {ptOk : Bool} {r : Option Nat × Sys} (h0 : 0 ∉ s.freelist) (h : allocproc s ptOk = .ok r) :
    (∃ ls, Path s ls r.2 ∧ ∀ l ∈ ls, l = .tau ∨ ∃ c, unusedSlot s.state = some c ∧ (l = .birth c ∨ l = .death c)) ∧
      ∀ c, r.1 = some c → unusedSlot s.state = some c ∧ c < NPROC ∧ (r.2.proc c).state ≠ .unused ∧
        (r.2.proc c).trapframe ≠ 0 := by
  unfold allocproc at h
  split at h
  · cases h
    exact ⟨⟨[], .nil _, by simp⟩, by simp⟩
  rename_i c hslot
  obtain ⟨hc, hu⟩ := unusedSlot_some hslot
  cases hf : s.freelist with
  | nil =>
    -- no page for the trapframe: `freeproc` finds `trapframe = 0` and only clears the slot
    have hk : kalloc (claimed s c) = none := kalloc_nil hf
    simp only [hk, freeproc, setProc_self, ne_eq, not_true_eq_false, if_false, bind_ok,
      setProc_setProc] at h
    cases h
    exact ⟨⟨[.tau], .one (.stillborn hc hu), by simp⟩, by simp⟩
  | cons a as =>
    have ha : a ≠ 0 := fun e => h0 (by simp [hf, e])
    have hk : kalloc (claimed s c) = some (a, popped (claimed s c) a as) := kalloc_cons hf
    have hb : Path s [.birth c] (born s c a as) := .one (.birth hc hu hf)
    have hst : ((born s c a as).proc c).state ≠ .unused := by simp [born, popped, claimed]
    have htf : ((born s c a as).proc c).trapframe ≠ 0 := by simpa [born] using ha
    simp only [hk] at h
    cases ptOk with
    | true =>
      cases h
      refine ⟨⟨[.birth c], hb, by simp [hslot]⟩, ?_⟩
      intro c' hc'
      cases hc'
      exact ⟨hslot, hc, hst, htf⟩
    | false =>
      obtain ⟨s1, h1, h2⟩ := bind_eq_ok.1 h
      cases h2
      exact ⟨⟨[.birth c, .death c], hb.append (freeproc_path hc hst htf h1), by simp [hslot]⟩, by simp⟩

variable {r : BitVec 64 × Sys}

theorem fork_path (h0 : 0 ∉ s.freelist)
    (h : fork s p env = .ok r) : ∃ ls, Path s ls r.2 ∧ ∀ l ∈ ls, CallLabel s p .fork l := by
  obtain ⟨⟨oc, s1⟩, h1, h2⟩ := bind_eq_ok.1 h
  obtain ⟨⟨ls, hp, hl⟩, hc⟩ := allocproc_path h0 h1
  have hl' : ∀ l ∈ ls, CallLabel s p .fork l := by
    intro l hm
    rcases hl l hm with rfl | ⟨c, hu, rfl | rfl⟩
    · trivial
    · exact ⟨rfl, hu⟩
    · exact .inl (unusedSlot_some hu).2
  cases oc with
  | none => cases h2; exact ⟨ls, hp, hl'⟩
  | some c =>
    obtain ⟨hu, hcn, hst, htf⟩ := hc c rfl
    simp only at h2
    split at h2
    · cases h2
      have p1 : Path s1 [.tau] (s1.setTf c ((s1.tf p).set .a0 0)) := .one (.frame hcn hst)
      have p2 : Path (s1.setTf c ((s1.tf p).set .a0 0)) [.tau]
          ((s1.setTf c ((s1.tf p).set .a0 0)).setProc c fun q => { q with state := .runnable }) :=
        .one (.field hcn ⟨rfl, rfl, rfl, rfl, by simpa using hst⟩)
      exact hp.append_all hl' (p1.append (p2.append (usertrapret_path hcn))) (by simp [CallLabel])
    · obtain ⟨s2, h3, h4⟩ := bind_eq_ok.1 h2
      cases h4
      exact hp.append_all hl' (freeproc_path hcn hst htf h3) (by simp [CallLabel, show (s.proc c).state = .unused from (unusedSlot_some hu).2])

theorem wait_path (ht : ∀ c < NPROC, (s.proc c).state ≠ .unused → (s.proc c).trapframe ≠ 0)
    (h : wait s env = .ok r) : ∃ ls, Path s ls r.2 ∧ ∀ l ∈ ls, CallLabel s p n l := by
  unfold wait at h
  split at h
  · rename_i c _
    split at h
    · rename_i hz
      obtain ⟨s1, h1, h2⟩ := bind_eq_ok.1 h
      cases h2
      have hu : (s.proc c).state ≠ .unused := by simp [hz.2]
      refine ⟨_, freeproc_path hz.1 hu (ht c hz.1 hu) h1, ?_⟩
      intro l hm
      rw [mem_singleton.1 hm]
      exact .inr hz.2
    · cases h; exact ⟨[], .nil _, by simp⟩
  · cases h; exact ⟨[], .nil _, by simp⟩

theorem kill_path {pid : BitVec 32} : ∃ ls, Path s ls (kill s pid).2 ∧ ∀ l ∈ ls, CallLabel s p n l := by
  unfold kill
  split
  · rename_i c hc
    have hm := mem_range.1 (List.mem_of_find?_eq_some hc)
    refine ⟨[.tau], Path.one (.field hm (f := fun q => { q with
      killed := true, state := if q.state = .sleeping then .runnable else q.state })
      ⟨rfl, rfl, rfl, rfl, ?_⟩), by simp [CallLabel]⟩
    split
    · rename_i hsl; simp [hsl]
    · rfl
  · exact ⟨[], .nil _, by simp⟩

theorem exec_path (hp : p < NPROC) (hs : (s.proc p).state ≠ .unused) :
    ∃ ls, Path s ls (exec s p env).2 ∧ ∀ l ∈ ls, CallLabel s p n l := by
  unfold exec
  split
  · exact ⟨[], .nil _, by simp⟩
  · exact ⟨[.tau], .one (.frame hp hs), by simp [CallLabel]⟩

theorem sysSigreturn_path (hp : p < NPROC) (hs : (s.proc p).state ≠ .unused) (h : sysSigreturn s p = .ok r) :
    ∃ ls, Path s ls r.2 ∧ ∀ l ∈ ls, CallLabel s p .sigreturn l := by
  unfold sysSigreturn at h
  simp only at h
  split at h
  · cases h
  rename_i hctx
  obtain ⟨s1, h1, h2⟩ := bind_eq_ok.1 h
  obtain ⟨_, rfl⟩ := kfree_ok h1
  cases h2
  exact ⟨[.sigreturn p], .one (.sigreturn hp hs hctx), by simp [CallLabel]⟩

/-- What `syscall` does before it stores the result in `a0`. -/
theorem syscall_path {r : Bool × Sys} (h0 : 0 ∉ s.freelist)
    (ht : ∀ c < NPROC, (s.proc c).state ≠ .unused → (s.proc c).trapframe ≠ 0) (hp : p < NPROC)
    (hs : (s.proc p).state = .running) (h : syscall s p env = .ok r) :
    ∃ ls, Path s ls r.2 ∧ ∀ l ∈ ls, CallLabel s p (s.tf p).sysno l := by
  have hu : (s.proc p).state ≠ .unused := by simp [hs]
  -- the result goes to the caller's own trapframe, which the call has not freed
  have ret : ∀ {x : BitVec 64 × Sys} {ls : List Label}, Path s ls x.2 →
      (∀ l ∈ ls, CallLabel s p (s.tf p).sysno l) →
      ∃ ms, Path s ms (x.2.setTf p ((x.2.tf p).set .a0 x.1)) ∧
        ∀ l ∈ ms, CallLabel s p (s.tf p).sysno l := by
    intro x ls hpath hl
    have hd : Label.death p ∉ ls := by
      intro hm
      have := hl _ hm
      simp [CallLabel, hs] at this
    exact hpath.append_all hl (.one (.frame hp (hpath.alive hu hd))) (by simp [CallLabel])
  unfold syscall at h
  split at h
  · rename_i hn
    obtain ⟨x, h1, h2⟩ := bind_eq_ok.1 h
    cases h2
    obtain ⟨ls, hpath, hl⟩ := fork_path h0 h1
    exact ret hpath (by rwa [hn])
  · obtain ⟨s1, h1, h2⟩ := bind_eq_ok.1 h
    cases h2
    exact ⟨[.tau], exit_path hp hu h1, by simp [CallLabel]⟩
  · obtain ⟨x, h1, h2⟩ := bind_eq_ok.1 h
    cases h2
    obtain ⟨ls, hpath, hl⟩ := wait_path ht h1
    exact ret hpath hl
  · cases h
    obtain ⟨ls, hpath, hl⟩ := kill_path
    exact ret hpath hl
  · cases h
    obtain ⟨ls, hpath, hl⟩ := exec_path hp hu
    exact ret hpath hl
  · cases h
    have hpath : Path s [.tau] (s.setProc p _) := .one (.field hp (f := fun q => { q with
      interval := ((s.tf p).reg .a0).setWidth 32, handler := (s.tf p).reg .a1 })
      ⟨rfl, rfl, rfl, rfl, Iff.rfl⟩)
    exact ret (x := sysSigalarm s p) hpath (by simp [CallLabel])
  · rename_i hn
    obtain ⟨x, h1, h2⟩ := bind_eq_ok.1 h
    cases h2
    obtain ⟨ls, hpath, hl⟩ := sysSigreturn_path hp hu h1
    exact ret hpath (by rwa [hn])
  · cases h
    exact ret (x := (env.ret, s)) (.nil s) (by simp)
  · cases h
    exact ret (x := (minusOne, s)) (.nil s) (by simp)

/-- Which elementary steps an event may take from `s`. -/
def StepLabel (s : Sys) (e : Event) : Label → Prop
  | .tau => True
  | .sigreturn p => ∃ env, e = .ecall p env ∧ (s.proc p).killed = false ∧
      (s.proc p).user.sysno = .sigreturn
  | .birth c => ∃ p env, e = .ecall p env ∧ (s.proc p).killed = false ∧
      (s.proc p).user.sysno = .fork ∧ unusedSlot s.state = some c
  | .death c => (s.proc c).state = .unused ∨ (s.proc c).state = .zombie
  | .alarm p => e = .tick p ∧ fires (s.proc p)

theorem uservec_path (hp : p < NPROC) (hs : (s.proc p).state ≠ .unused) :
    Path s [.tau] (uservec s p) := .one (.frame hp hs)

theorem ecall_path (hi : Inv s) (hp : p < NPROC) (hs : (s.proc p).state = .running) (h : ecall s p env = .ok s') :
    ∃ ls, Path s ls s' ∧ ∀ l ∈ ls, StepLabel s (.ecall p env) l := by
  have hu : (s.proc p).state ≠ .unused := by simp [hs]
  have hin := uservec_path hp hu
  unfold ecall at h
  simp only at h
  split at h
  · exact ⟨_, hin.append (exit_path hp hu h), by simp [StepLabel]⟩
  rename_i hk
  obtain ⟨⟨b, s2⟩, h1, h2⟩ := bind_eq_ok.1 h
  -- `epc += 4` is a second write to the trapframe; the call number is still the user's
  have hpc : Path (uservec s p) [.tau] (skipEcall (uservec s p) p) := .one (.frame hp hu)
  have hno : ((skipEcall (uservec s p) p).tf p).sysno = (s.proc p).user.sysno := by
    simp [skipEcall, uservec, Trapframe.sysno]
  obtain ⟨ls, hpath, hl⟩ := syscall_path (s := skipEcall (uservec s p) p) hi.nonnull.1 hi.trapframe
    hp hs h1
  rw [hno] at hl
  have hlab : ∀ l ∈ [Label.tau] ++ ([.tau] ++ ls), StepLabel s (.ecall p env) l := by
    intro l hm
    simp only [cons_append, nil_append, mem_cons] at hm
    rcases hm with rfl | rfl | hm
    · trivial
    · trivial
    have hcall := hl l hm
    cases l with
    | tau => trivial
    | sigreturn q =>
      obtain ⟨rfl, hn⟩ := hcall
      exact ⟨env, rfl, by simpa [uservec] using hk, hn⟩
    | birth c => exact ⟨p, env, rfl, by simpa [uservec] using hk, hcall⟩
    | death c => exact hcall
    | alarm q => exact hcall.elim
  have hall := hin.append (hpc.append hpath)
  cases b with
  | false => cases h2; exact ⟨_, hall, hlab⟩
  | true =>
    have hd : Label.death p ∉ ls := by
      intro hm
      have := hl _ hm
      simp [CallLabel, skipEcall, uservec, hs] at this
    exact hall.append_all hlab (usertrapTail_path hp (hpath.alive hu hd) h2) (by simp [StepLabel])

section
variable (hp : p < NPROC) (hs : (s.proc p).state ≠ .unused)
include hp hs

/-- The alarm branch either leaves the process's pages alone or delivers an alarm. -/
theorem usertrapAlarm_path (h : usertrapAlarm s p = .ok s') :
    ∃ ls, Path s ls s' ∧ ∀ l ∈ ls, l = .tau ∨ l = .alarm p ∧ fires (s.proc p) := by
  unfold usertrapAlarm at h
  simp only at h
  split at h
  · cases h; exact ⟨[], .nil _, by simp⟩
  rename_i hoff
  split at h
  · rename_i hfire
    cases hf : s.freelist with
    | nil =>
      rw [kalloc_nil (by exact hf)] at h
      cases h
    | cons a as =>
      rw [kalloc_cons (by exact hf)] at h
      cases h
      exact ⟨[.alarm p], .one (.alarm hp hs (by simpa using hoff) hf), by simpa [fires, hoff] using hfire⟩
  · cases h
    exact ⟨[.tau], .one (.field hp ⟨rfl, rfl, rfl, rfl, Iff.rfl⟩), by simp⟩

theorem tick_path (h : tick s p = .ok s') : ∃ ls, Path s ls s' ∧ ∀ l ∈ ls, StepLabel s (.tick p) l := by
  obtain ⟨s1, h1, h2⟩ := bind_eq_ok.1 h
  obtain ⟨ls, hpath, hl⟩ := usertrapAlarm_path (s := uservec s p) hp hs h1
  have hd : Label.death p ∉ ls := by
    intro hm
    rcases hl _ hm with h | ⟨h, _⟩ <;> cases h
  have hall := ((uservec_path hp hs).append hpath).append
    (usertrapTail_path hp (hpath.alive hs hd) h2)
  refine ⟨_, hall, ?_⟩
  intro l hm
  simp only [mem_append, mem_singleton] at hm
  rcases hm with (rfl | hm) | rfl
  · trivial
  · rcases hl l hm with rfl | ⟨rfl, hf⟩
    · trivial
    · exact ⟨rfl, hf⟩
  · trivial

theorem trap_path {kills : Bool} (h : trap s p kills = .ok s') : ∃ ls, Path s ls s' ∧ ∀ l ∈ ls, l = .tau := by
  cases kills with
  | false => exact ⟨_, (uservec_path hp hs).append (usertrapTail_path hp hs h), by simp⟩
  | true =>
    have hk : Path (uservec s p) [.tau] ((uservec s p).setProc p fun q => { q with killed := true }) :=
      .one (.field hp ⟨rfl, rfl, rfl, rfl, Iff.rfl⟩)
    have hs' : (((uservec s p).setProc p fun q => { q with killed := true }).proc p).state ≠ .unused := by
      simpa [uservec] using hs
    exact ⟨_, (uservec_path hp hs).append (hk.append (usertrapTail_path hp hs' h)), by simp⟩

end

/-- **Every event is a sequence of elementary steps.** -/
theorem step_path {e : Event} (hi : Inv s) (h : step s e = .ok s') :
    ∃ ls, Path s ls s' ∧ ∀ l ∈ ls, StepLabel s e l := by
  have tau : (∃ ls, Path s ls s' ∧ ∀ l ∈ ls, l = Label.tau) →
      ∃ ls, Path s ls s' ∧ ∀ l ∈ ls, StepLabel s e l := by
    rintro ⟨ls, hpath, hl⟩
    refine ⟨ls, hpath, fun l hm => ?_⟩
    rw [hl l hm]
    trivial
  cases e <;> simp only [step, isRunning, decide_eq_true_eq] at h
  case user p u =>
    split at h <;> cases h
    rename_i hr
    exact tau ⟨[.tau], .one (.field hr.1 ⟨rfl, rfl, rfl, rfl, Iff.rfl⟩), by simp⟩
  case ecall p env =>
    split at h
    · rename_i hr; exact ecall_path hi hr.1 hr.2 h
    · cases h
  case tick p =>
    split at h
    · rename_i hr; exact tick_path hr.1 (by simp [hr.2]) h
    · cases h
  case trap p kills =>
    split at h
    · rename_i hr; exact tau (trap_path hr.1 (by simp [hr.2]) h)
    · cases h
  case resched p st =>
    split at h <;> cases h
    rename_i hr
    have hne : ∀ st : ProcState, live st → st ≠ .unused := by rintro st hl rfl; simp [live] at hl
    exact tau ⟨[.tau], .one (.field hr.1 ⟨rfl, rfl, rfl, rfl, by simp [hne _ hr.2.1, hne _ hr.2.2]⟩), by simp⟩
  case kget =>
    cases hf : s.freelist with
    | nil => rw [kalloc_nil hf] at h; cases h
    | cons a as =>
      rw [kalloc_cons hf] at h
      cases h
      exact tau ⟨[.tau], .one (.kget hf), by simp⟩
  case kput a =>
    split at h
    · rename_i hm
      obtain ⟨_, rfl⟩ := kfree_ok h
      exact tau ⟨[.tau], .one (.kput hm), by simp⟩
    · cases h

end Xv6Riscv.Alarm
