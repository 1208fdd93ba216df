import Mathlib.Data.List.Perm.Subperm
import Xv6Riscv.Virtio.Invariant

/-!
# The virtio disk: what each step keeps
-/
namespace Xv6Riscv.Virtio
open Machine Mutex Owners RingBuffer Function List

variable {τ β δ : Type} [DecidableEq τ] {s s' : Sys τ β δ} {t u : τ} {pc : Pc β} {r : Rw β}
  {c : Idx} {i : Nat} {pend used : List Nat}

/-! ## Threads that move -/

theorem holds_update (f : τ → Pc β) (t : τ) (pc : Pc β) :
    (fun u => (update f t pc u).holds) = update (fun u => (f u).holds) t pc.holds :=
  funext fun u => apply_update (fun _ => Pc.holds) f t pc u

theorem chain_update (f : τ → Pc β) (t : τ) (pc : Pc β) :
    (fun u => (update f t pc u).chain) = update (fun u => (f u).chain) t pc.chain :=
  funext fun u => apply_update (fun _ => Pc.chain) f t pc u

theorem same_update (hsame : Pc.Same (s.pc t) pc) : ∀ u, Pc.Same (s.pc u) (update s.pc t pc u) :=
  (forall_update_iff _ fun u pc => Pc.Same (s.pc u) pc).2 ⟨hsame, fun _ _ => .refl⟩

theorem alike_update (hsame : Pc.Alike (s.pc t) pc) : ∀ u, Pc.Alike (s.pc u) (update s.pc t pc u) :=
  (forall_update_iff _ fun u pc => Pc.Alike (s.pc u) pc).2 ⟨hsame, fun _ _ => .refl⟩

theorem handling_update {used : List Nat} (hne : pc ≠ .intrHandle) (h : ∀ u, s.pc u = .intrHandle → used ≠ []) :
    ∀ u, update s.pc t pc u = .intrHandle → used ≠ [] :=
  (forall_update_iff _ fun _ (pc : Pc β) => pc = .intrHandle → used ≠ []).2
    ⟨fun hpc => absurd hpc hne, fun u _ => h u⟩

theorem Sys.acquire_eq_ok : s.acquire t pc = .ok s' ↔ s.lock = none ∧ s' = { s with lock := some t }.goto t pc := by
  unfold Sys.acquire
  cases s.lock with
  | none => simp [eq_comm]
  | some u => by_cases hu : u = t <;> simp [hu]

theorem Sys.release_eq_ok : s.release t pc = .ok s' ↔ s.lock = some t ∧ s' = { s with lock := none }.goto t pc := by
  unfold Sys.release
  by_cases hl : s.lock = some t <;> simp [hl, eq_comm]

theorem Inv.moveOne {l : Option τ} (h : Inv s)
    (hlock : Excl l (update (fun u => (s.pc u).holds) t pc.holds))
    (hsame : Pc.Same (s.pc t) pc) (hgood : Good s.disk s.owned pc)
    (hh : pc = .intrHandle → s.disk.usedIdx ≠ s.disk.used.idx) :
    Inv { s with lock := l, pc := update s.pc t pc } := by
  refine h.move ?_ (same_update hsame) ?_ ?_
  · rw [holds_update]
    exact hlock
  · exact (forall_update_iff _ fun u pc => Good s.disk s.owned pc).2 ⟨hgood, fun u _ => h.goods u⟩
  · exact (forall_update_iff _ fun u (pc : Pc β) => pc = .intrHandle → s.pc u = .intrHandle ∨ _).2
      ⟨fun hpc => .inr (hh hpc), fun u _ hpc => .inl hpc⟩

theorem Inv.goto (h : Inv s) (hsame : Pc.Same (s.pc t) pc) (hh : pc.holds = (s.pc t).holds)
    (hgood : Good s.disk s.owned pc)
    (hhandle : pc = .intrHandle → s.disk.usedIdx ≠ s.disk.used.idx) : Inv (s.goto t pc) :=
  h.moveOne (h.locked.stay hh.symm) hsame hgood hhandle

theorem Inv.acquire (h : Inv s) (hs : s.acquire t pc = .ok s') (hsame : Pc.Same (s.pc t) pc) (hh : pc.holds = true)
    (hgood : Good s.disk s.owned pc) (hne : pc ≠ .intrHandle) : Inv s' := by
  obtain ⟨hlock, rfl⟩ := Sys.acquire_eq_ok.1 hs
  refine h.moveOne (l := some t) ?_ hsame hgood fun hpc => absurd hpc hne
  have hfree := h.locked
  rw [hlock] at hfree
  rw [hh]
  exact hfree.enter

theorem Inv.release (h : Inv s) (hs : s.release t pc = .ok s') (hsame : Pc.Same (s.pc t) pc) (hh : pc.holds = false)
    (hgood : Good s.disk s.owned pc) (hne : pc ≠ .intrHandle) : Inv s' := by
  obtain ⟨hlock, rfl⟩ := Sys.release_eq_ok.1 hs
  refine h.moveOne (l := none) ?_ hsame hgood fun hpc => absurd hpc hne
  have hheld := h.locked
  rw [hlock] at hheld
  rw [hh]
  exact hheld.leave

omit [DecidableEq τ] in
theorem Inv.wakeup [DecidableEq β] (h : Inv s) (ch : Chan β) : Inv (s.wakeup ch) := by
  refine h.move (l := s.lock) (by simpa using h.locked) (fun u => Pc.same_woken)
    (fun u => good_woken (h.goods u)) fun u hu => ?_
  rcases Pc.woken_cases ch (s.pc u) with hw | ⟨r, -, hw⟩ | ⟨r, c, -, hw⟩
  · rw [hw] at hu
    exact .inl hu
  · rw [hw] at hu
    cases hu
  · rw [hw] at hu
    cases hu

/-- **A thread inside goes on**, and the others find what they rely on as it was. -/
theorem Inv.inside (h : Inv s) (pc : Pc β) (hin : (s.pc t).holds = true) (hholds : pc.holds = true)
    (hreq : ∀ r, pc.req? = some r → (s.pc t).req? = some r) (hlock : s'.lock = s.lock) (hpc : s'.pc = update s.pc t pc)
    (hchains : Owned NUM s'.disk.free (update (fun u => (s.pc u).chain) t pc.chain))
    (hdesc : ∀ u, u ≠ t → ∀ j ∈ (s.pc u).chain, s'.disk.desc j = s.disk.desc j)
    (hops : ∀ u, u ≠ t → ∀ j ∈ (s.pc u).chain, s'.disk.ops j = s.disk.ops j)
    (hinfo : ∀ u, u ≠ t → ∀ j ∈ (s.pc u).chain, (s'.disk.info j).b = (s.disk.info j).b)
    (hgood : Good s'.disk s'.owned pc) (hflight : ∃ pend used, Flight s' pend used) (hlogs : Logs s') : Inv s' := by
  have hrw : ∀ u r, (update s.pc t pc u).req? = some r → (s.pc u).req? = some r :=
    (forall_update_iff _ fun u (pc : Pc β) => ∀ r, pc.req? = some r → (s.pc u).req? = some r).2
      ⟨hreq, fun _ _ _ => id⟩
  refine ⟨?_, ?_, ?_, ?_, hflight, hlogs⟩
  · rw [hlock, hpc, holds_update, hholds]
    exact h.locked.stay hin
  · rw [hpc, chain_update]
    exact hchains
  · rw [hpc]
    refine (forall_update_iff _ fun u pc => Good s'.disk s'.owned pc).2 ⟨hgood, fun u hu => ?_⟩
    exact (h.goods u).frame (h.locked.outside hin hu) (hdesc u hu) (hops u hu) (hinfo u hu)
  · rw [hpc]
    exact fun u v r r' hu hv => h.bufs u v r r' (hrw u r hu) (hrw v r' hv)

/-! ## A thread inside that writes to its own -/

omit [DecidableEq τ] in
theorem Inv.room (h : Inv s) (hf : Flight s pend used) (hi : i ∈ (s.pc t).chain) (hw : (s.pc t).waits = none) :
    i ∉ pend ++ s.taken ++ s.performed ++ used ∧ (pend ++ s.taken ++ s.performed ++ used).length < NUM := by
  have hnot : i ∉ pend ++ s.taken ++ s.performed ++ used := by
    intro hmem
    obtain ⟨u, r, c, hwu, rfl, -⟩ := hf.owner hmem
    have := h.chains.apart t u c.i0 hi (head_mem_chain hwu)
    subst this
    rw [hw] at hwu
    cases hwu
  refine ⟨hnot, ?_⟩
  have hnodup : (i :: (pend ++ s.taken ++ s.performed ++ used)).Nodup := nodup_cons.2 ⟨hnot, hf.nodup⟩
  have hsub : ∀ j ∈ i :: (pend ++ s.taken ++ s.performed ++ used), j ∈ List.range NUM := by
    intro j hj
    rw [mem_range]
    rcases mem_cons.1 hj with rfl | hj
    · exact h.chains.lt t j hi
    · obtain ⟨u, r, c, hwu, rfl, -⟩ := hf.owner hj
      exact h.chains.lt u c.i0 (head_mem_chain hwu)
  have hlen := (subperm_of_subset hnodup hsub).length_le
  rw [length_cons, length_range] at hlen
  omega

/-- **A thread inside** allocates or frees descriptors, and writes to its own, to what goes with them and to
`b->disk` of its buffer, or to a place of the available ring that is not in use. -/
theorem Inv.own {disk : Disk β} {owned : β → Bool} (h : Inv s) (hin : (s.pc t).holds = true)
    (hw : (s.pc t).waits = none) (hsame : Pc.Alike (s.pc t) pc) (hholds : pc.holds = true) (hne : pc ≠ .intrHandle)
    (hchains : Owned NUM disk.free (update (fun u => (s.pc u).chain) t pc.chain))
    (hused : disk.used = s.disk.used) (hidx : disk.usedIdx = s.disk.usedIdx)
    (havail : ∀ q : List (BitVec 16), ((s.pc t).chain ≠ [] → q.length < NUM) →
      Queued s.disk.avail.ring s.availSeen s.disk.avail.idx q → Queued disk.avail.ring s.availSeen disk.avail.idx q)
    (hdesc : ∀ u, u ≠ t → ∀ j ∈ (s.pc u).chain, disk.desc j = s.disk.desc j)
    (hops : ∀ u, u ≠ t → ∀ j ∈ (s.pc u).chain, disk.ops j = s.disk.ops j)
    (hinfo : ∀ u, u ≠ t → ∀ j ∈ (s.pc u).chain, disk.info j = s.disk.info j)
    (howned : ∀ b, (∀ r, (s.pc t).req? = some r → r.b ≠ b) → owned b = s.owned b)
    (hgood : Good disk owned pc) : Inv { s with disk := disk, owned := owned, pc := update s.pc t pc } := by
  obtain ⟨pend, used, hf⟩ := h.flight
  have hwait : ∀ u r c, (s.pc u).waits = some (r, c) → owned r.b = s.owned r.b ∧ disk.info c.i0 = s.disk.info c.i0 := by
    intro u r c hwu
    have hu : u ≠ t := by
      rintro rfl
      rw [hw] at hwu
      cases hwu
    refine ⟨howned r.b fun r' hr' heq => ?_, hinfo u hu c.i0 (head_mem_chain hwu)⟩
    exact hu (h.bufs t u r' r hr' (Pc.rw_of_waits hwu) heq)
  have hwaits : ∀ u, (update s.pc t pc u).waits = (s.pc u).waits := fun u => (alike_update hsame u).waits
  refine h.inside pc hin hholds hsame.rw rfl rfl hchains hdesc hops (fun u hu j hj => by rw [hinfo u hu j hj]) hgood
    ⟨pend, used, ?_⟩ ?_
  · refine ⟨havail _ (fun hc => ?_) hf.availRing, ?_, hf.nodup, fun head => ?_, fun head hh => ?_, hf.begun,
      hf.handled, ?_⟩
    · obtain ⟨i, hi⟩ := exists_mem_of_ne_nil _ hc
      have := (h.room hf hi hw).2
      simp only [length_append, length_map] at this ⊢
      omega
    · simp only [hused, hidx]
      exact hf.usedRing
    · rw [hf.mem head]
      simp only [hwaits]
      constructor
      · rintro ⟨u, r, c, hwu, hc, ho⟩
        exact ⟨u, r, c, hwu, hc, by rw [(hwait u r c hwu).1, ho]⟩
      · rintro ⟨u, r, c, hwu, hc, ho⟩
        exact ⟨u, r, c, hwu, hc, by rw [← (hwait u r c hwu).1, ho]⟩
    · obtain ⟨u, r, c, hwu, rfl, -⟩ := hf.owner (i := head) (by simp only [mem_append] at hh ⊢; tauto)
      simp only [(hwait u r c hwu).2]
      exact hf.status c.i0 hh
    · exact handling_update hne hf.handling
  · have hl := h.logs.pcs (l := s.lock) (alike_update hsame)
    refine { hl with handled := fun u k => ?_ }
    rw [hl.handled u k]
    simp only [hwaits]
    refine and_congr_right fun _ => not_congr (and_congr_right fun _ => ?_)
    constructor
    · rintro ⟨r, c, hwu, ho⟩
      exact ⟨r, c, hwu, by rw [(hwait u r c hwu).1, ho]⟩
    · rintro ⟨r, c, hwu, ho⟩
      exact ⟨r, c, hwu, by rw [← (hwait u r c hwu).1, ho]⟩

/-! ## Descriptors come and go -/

omit [DecidableEq τ] in
theorem Inv.clear {desc : Nat → Desc β} (h : Inv s) (hin : (s.pc t).holds = true) (hpc : s.pc t = .rwAlloc r)
    (hdesc : ∀ i, s.disk.free i = false → desc i = s.disk.desc i) :
    Inv { s with disk := { s.disk with desc := desc } } where
  locked := h.locked
  chains := h.chains
  goods u := by
    by_cases hu : u = t
    · subst hu
      simp only [hpc]
      trivial
    · exact (h.goods u).frame (h.locked.outside hin hu) (fun i hi => hdesc i (h.chains.taken hi)) (fun _ _ => rfl)
        fun _ _ => rfl
  bufs := h.bufs
  flight := by
    obtain ⟨pend, used, hf⟩ := h.flight
    exact ⟨pend, used, { hf with }⟩
  logs := { h.logs with }

theorem Inv.undone [DecidableEq β] (h : Inv s) (hpc : s.pc t = .rwAlloc r) {s₁ : Sys τ β δ} (hu : Undone s s₁)
    (hs : s₁.sleep t (.rwAllocSleep r) = .ok s') : Inv s' := by
  obtain ⟨desc, hdesc, heq⟩ := hu.eq
  have hin : (s.pc t).holds = true := by rw [hpc]; rfl
  have hclear := h.clear hin hpc hdesc
  have hsame : Pc.Same (.rwAlloc r) (.rwAllocSleep r) := ⟨⟨rfl, rfl, fun _ => id⟩, rfl⟩
  rcases heq with rfl | rfl
  · exact hclear.release hs (by simp only [hpc]; exact hsame) rfl trivial nofun
  · refine (hclear.wakeup .free).release hs ?_ rfl trivial nofun
    simp only [Sys.wakeup, hpc]
    exact hsame

theorem Inv.alloc (h : Inv s) (hpc : s.pc t = .rwAlloc r) (hg : Given s c s') : Inv (s'.goto t (.rwFirst r c)) := by
  obtain rfl := hg.eq
  refine h.own (by rw [hpc]; rfl) (by rw [hpc]; rfl) (by rw [hpc]; exact ⟨rfl, rfl, fun _ => id⟩) rfl nofun ?_ rfl rfl
    (fun _ _ hq => hq) (fun _ _ _ _ => rfl) (fun _ _ _ _ => rfl) (fun _ _ _ _ => rfl) (fun _ _ => rfl) trivial
  exact h.chains.give (by rw [hpc]; rfl) hg.nodup hg.bound hg.free

section
variable [DecidableEq β]

theorem wakeup_goto (s : Sys τ β δ) (t : τ) (ch : Chan β) (hh : pc.holds = true) :
    (s.wakeup ch).goto t pc = (s.goto t pc).wakeup ch := by
  have hpc : update (fun u => (s.pc u).woken ch) t pc = fun u => (update s.pc t pc u).woken ch := by
    funext u
    by_cases hu : u = t
    · subst hu
      simp [Pc.woken_of_holds hh]
    · simp [update_of_ne hu]
  simp only [Sys.wakeup, Sys.goto, hpc]

theorem dropWhile_first : c.list.dropWhile (· ≠ c.i0) = [c.i0, c.i1, c.i2] := by
  simp [Idx.list]

theorem dropWhile_second (h : c.list.Nodup) : c.list.dropWhile (· ≠ c.i1) = [c.i1, c.i2] := by
  have h01 : c.i0 ≠ c.i1 := by
    intro he
    simp [Idx.list, he] at h
  simp [Idx.list, h01]

theorem dropWhile_third (h : c.list.Nodup) : c.list.dropWhile (· ≠ c.i2) = [c.i2] := by
  have h02 : c.i0 ≠ c.i2 := by
    intro he
    simp [Idx.list, he] at h
  have h12 : c.i1 ≠ c.i2 := by
    intro he
    simp [Idx.list, he] at h
  simp [Idx.list, h02, h12]

theorem Inv.freeOne {l : List Nat} (h : Inv s) (hpc : s.pc t = .rwFree r c i) (hchain : (s.pc t).chain = i :: l)
    (hsame : Pc.Alike (.rwFree r c i) pc) (hh : pc.holds = true) (hne : pc ≠ .intrHandle) (hl : pc.chain = l)
    (hgood : ∀ desc : Nat → Desc β, (∀ j, j ≠ i → desc j = s.disk.desc j) →
      Good { s.disk with desc := desc, free := update s.disk.free i true } s.owned pc) :
    ∃ s₁, freeDesc s i = .ok s₁ ∧ Inv (s₁.goto t pc) := by
  have hi : i ∈ (s.pc t).chain := by simp [hchain]
  refine ⟨_, freeDesc_eq_ok.2 ⟨h.chains.lt t i hi, h.chains.taken hi, rfl⟩, ?_⟩
  rw [wakeup_goto _ _ _ hh]
  refine Inv.wakeup (s := ((s.setDesc i .cleared).setFree i true).goto t pc) ?_ .free
  refine h.own (by rw [hpc]; rfl) (by rw [hpc]; rfl) (by rw [hpc]; exact hsame) hh hne ?_ rfl rfl
    (fun _ _ hq => hq) ?_ (fun _ _ _ _ => rfl) (fun _ _ _ _ => rfl) (fun _ _ => rfl) ?_
  · rw [hl]
    exact h.chains.drop hchain
  · exact fun u hu j hj => update_of_ne (h.chains.ne_of_ne hi hj hu) _ _
  · exact hgood _ fun j hj => update_of_ne hj _ _

theorem ofNat_toNat_of_lt {w j : Nat} (hw : 8 ≤ 2 ^ w) (hj : j < NUM) : (BitVec.ofNat w j).toNat = j := by
  exact Nat.mod_eq_of_lt (lt_of_lt_of_le hj hw)

/-- **One turn of `free_chain`.** -/
theorem Inv.freeChain (h : Inv s) (hpc : s.pc t = .rwFree r c i) :
    ∃ s₁, freeDesc s i = .ok s₁ ∧
      Inv (s₁.goto t (if (s.disk.desc i).flags &&& VRING_DESC_F_NEXT ≠ 0#16 then .rwFree r c (s.disk.desc i).next.toNat
        else .rwRelease r)) := by
  have hg := h.goods t
  rw [hpc] at hg
  obtain ⟨hfirst, hsecond, hthird, hi, hnodup, hlt⟩ := hg
  have h12 : c.i1 ≠ c.i0 ∧ c.i2 ≠ c.i0 ∧ c.i2 ≠ c.i1 := by
    have hnd := hnodup
    simp only [Idx.list, nodup_cons, mem_cons, not_mem_nil, or_false, not_or] at hnd
    exact ⟨Ne.symm hnd.1.1, Ne.symm hnd.1.2, Ne.symm hnd.2.1⟩
  have hchain : (s.pc t).chain = c.list.dropWhile (· ≠ i) := by rw [hpc]; rfl
  rcases hi with rfl | rfl | rfl
  · -- the first descriptor goes on to the second
    rw [hfirst rfl]
    have hnext : (if (Rw.first c : Desc β).flags &&& VRING_DESC_F_NEXT ≠ 0#16 then .rwFree r c
      (Rw.first c : Desc β).next.toNat
        else .rwRelease r) = Pc.rwFree r c c.i1 := by
      have hto : (Rw.first c : Desc β).next.toNat = c.i1 :=
        ofNat_toNat_of_lt (by decide) (hlt c.i1 (by simp [Idx.list]))
      rw [hto]
      exact if_pos (show VRING_DESC_F_NEXT &&& VRING_DESC_F_NEXT ≠ 0#16 by decide)
    rw [hnext]
    refine h.freeOne hpc (hchain.trans dropWhile_first) ⟨rfl, rfl, fun _ => id⟩
      rfl (by simp) (dropWhile_second hnodup) fun desc hd => ?_
    refine ⟨fun he => absurd he h12.1, fun _ => ?_, ?_, .inr (.inl rfl), hnodup, hlt⟩
    · exact (hd _ h12.1).trans (hsecond (.inl rfl))
    · exact (hd _ h12.2.1).trans hthird
  · rw [hsecond (.inr rfl)]
    have hnext : (if (r.second c).flags &&& VRING_DESC_F_NEXT ≠ 0#16 then .rwFree r c (r.second c).next.toNat
        else .rwRelease r) = Pc.rwFree r c c.i2 := by
      have hto : (r.second c).next.toNat = c.i2 := ofNat_toNat_of_lt (by decide) (hlt c.i2 (by simp [Idx.list]))
      have hflags : (r.second c).flags &&& VRING_DESC_F_NEXT ≠ 0#16 := by
        simp only [Rw.second]
        cases r.write <;> decide
      rw [hto, if_pos hflags]
    rw [hnext]
    refine h.freeOne hpc (hchain.trans (dropWhile_second hnodup)) ⟨rfl, rfl, fun _ => id⟩
      rfl (by simp) (dropWhile_third hnodup) fun desc hd => ?_
    refine ⟨fun he => absurd he h12.2.1, fun he => ?_, ?_, .inr (.inr rfl), hnodup, hlt⟩
    · rcases he with he | he
      · exact absurd he h12.2.1
      · exact absurd he h12.2.2
    · exact (hd _ h12.2.2).trans hthird
  · rw [hthird]
    have hnext : (if (Rw.third c : Desc β).flags &&& VRING_DESC_F_NEXT ≠ 0#16 then .rwFree r c
      (Rw.third c : Desc β).next.toNat
        else .rwRelease r) = Pc.rwRelease r :=
      if_neg (show ¬ VRING_DESC_F_WRITE &&& VRING_DESC_F_NEXT ≠ 0#16 by decide)
    rw [hnext]
    exact h.freeOne hpc (hchain.trans (dropWhile_third hnodup)) ⟨rfl, rfl, fun _ => id⟩ rfl (by simp) rfl fun _ _ => trivial

end

/-! ## Requests are published, handled and over -/

/-- The state behind `avail->idx += 1`. -/
def Sys.notified (s : Sys τ β δ) (t : τ) (r : Rw β) (c : Idx) : Sys τ β δ :=
  { s with
    request := update s.request c.i0 (some (t, s.calls t)), published := s.published ++ [(t, s.calls t)]
    disk := { s.disk with avail := { s.disk.avail with idx := s.disk.avail.idx + 1#16 } }
    pc := update s.pc t (.rwWait r c) }

omit [DecidableEq τ] in
theorem filterMap_request {x : Option (τ × Nat)} {l : List Nat} (hl : i ∉ l) :
    l.filterMap (update s.request i x) = l.filterMap s.request := by
  refine filterMap_congr fun j hj => update_of_ne ?_ _ _
  rintro rfl
  exact hl hj

theorem Flight.notify (hf : Flight s pend used) (hw : (s.pc t).waits = none) (howned : s.owned r.b = true)
    (hring : s.disk.avail.ring (slot s.disk.avail.idx) = BitVec.ofNat 16 c.i0)
    (hnot : c.i0 ∉ pend ++ s.taken ++ s.performed ++ used)
    (hroom : (pend ++ s.taken ++ s.performed ++ used).length < NUM) :
    Flight (s.notified t r c) (pend ++ [c.i0]) used := by
  have hperm : (pend ++ [c.i0] ++ s.taken ++ s.performed ++ used).Perm
    (c.i0 :: (pend ++ s.taken ++ s.performed ++ used)) := by
    simp only [append_assoc, singleton_append]
    exact perm_middle
  have hsplit : c.i0 ∉ pend ∧ c.i0 ∉ used := by
    simp only [mem_append, not_or] at hnot
    exact ⟨hnot.1.1.1, hnot.2⟩
  refine ⟨?_, hf.usedRing, ?_, fun head => ?_, hf.status, ?_, ?_, ?_⟩
  · have hpub := hf.availRing.publish (by simp only [length_append] at hroom; rw [length_map]; omega)
    rw [hring] at hpub
    simpa [Sys.notified] using hpub
  · exact hperm.nodup_iff.2 (nodup_cons.2 ⟨hnot, hf.nodup⟩)
  · refine hperm.mem_iff.trans ?_
    rw [mem_cons, hf.mem head]
    constructor
    · rintro (rfl | ⟨u, r', c', hwu, hc, ho⟩)
      · exact ⟨t, r, c, by simp [Sys.notified, Pc.waits], rfl, howned⟩
      have hu : u ≠ t := by
        rintro rfl
        rw [hw] at hwu
        cases hwu
      exact ⟨u, r', c', by simpa [Sys.notified, update_of_ne hu] using hwu, hc, ho⟩
    · rintro ⟨u, r', c', hwu, hc, ho⟩
      by_cases hu : u = t
      · subst hu
        simp only [Sys.notified, update_self, Pc.waits, Option.some.injEq, Prod.mk.injEq] at hwu
        left
        rw [← hc, hwu.2]
      · exact .inr ⟨u, r', c', by simpa [Sys.notified, update_of_ne hu] using hwu, hc, ho⟩
  · simp [Sys.notified, filterMap_request hsplit.1, hf.begun]
  · simp [Sys.notified, filterMap_request hsplit.2, hf.handled]
  · exact handling_update nofun hf.handling

theorem Logs.notify (h : Logs s) (hpc : s.pc t = .rwNotify r c) (howned : s.owned r.b = true)
    (hapart : ∀ u r' c', u ≠ t → (s.pc u).waits = some (r', c') → c'.i0 ≠ c.i0) : Logs (s.notified t r c) := by
  have hcalls := h.calling t r (by rw [hpc]; rfl)
  have hunpub : (t, s.calls t) ∉ s.published := by
    rw [h.published, hpc]
    simp [Pc.fresh]
  refine ⟨fun u r' c' hwu => ?_, fun u r' hr => ?_, fun u k => ?_, ?_, fun u k => ?_, h.handledNodup⟩
  · by_cases hu : u = t
    · subst hu
      simp only [Sys.notified, update_self, Pc.waits, Option.some.injEq, Prod.mk.injEq] at hwu
      simp [Sys.notified, ← hwu.2]
    · simp only [Sys.notified, update_of_ne hu] at hwu
      simp only [Sys.notified, update_of_ne (hapart u r' c' hu hwu)]
      exact h.request u r' c' hwu
  · by_cases hu : u = t
    · rw [hu]
      exact hcalls
    · simp only [Sys.notified, update_of_ne hu] at hr
      exact h.calling u r' hr
  · have hpub := h.published u k
    by_cases hu : u = t
    · subst hu
      simp only [Sys.notified, hpc, Pc.fresh, mem_append, hpub, mem_singleton, Prod.mk.injEq, true_and,
        update_self, Bool.false_eq_true, and_false, and_true, not_false_eq_true]
      omega
    · simp [Sys.notified, hpub, hu]
  · simp only [Sys.notified, nodup_append]
    refine ⟨h.publishedNodup, nodup_singleton _, fun q hq q' hq' he => ?_⟩
    rw [mem_singleton] at hq'
    rw [he, hq'] at hq
    exact hunpub hq
  · have hh := h.handled u k
    by_cases hu : u = t
    · subst hu
      -- the new request is published and on its way; the others were so before
      have hk : (u, k) ∈ s.published → k ≠ s.calls u := by
        rintro hq rfl
        exact hunpub hq
      have hex : (∃ r' c', some (r, c) = some (r', c') ∧ s.owned r'.b = true) ↔ True := by
        simp only [iff_true]
        exact ⟨r, c, rfl, howned⟩
      have hnone : (s.pc u).waits = none := by rw [hpc]; rfl
      simp only [Sys.notified, hh, update_self, Pc.waits, mem_append, mem_singleton, Prod.mk.injEq,
        true_and, hex]
      tauto
    · simp [Sys.notified, hh, hu]

theorem Inv.notify (h : Inv s) (hpc : s.pc t = .rwNotify r c) : Inv (s.notified t r c) := by
  have hin : (s.pc t).holds = true := by rw [hpc]; rfl
  have hw : (s.pc t).waits = none := by rw [hpc]; rfl
  have hi : c.i0 ∈ (s.pc t).chain := by rw [hpc]; simp [Pc.chain, Idx.list]
  have hg := h.goods t
  rw [hpc] at hg
  obtain ⟨⟨hform, hb, howned⟩, hring⟩ := hg
  obtain ⟨pend, used, hf⟩ := h.flight
  obtain ⟨hnot, hroom⟩ := h.room hf hi hw
  refine h.inside (.rwWait r c) hin rfl (by rw [hpc]; exact fun _ => id) rfl rfl
    (h.chains.keep (by rw [hpc]; rfl)) (fun _ _ _ _ => rfl) (fun _ _ _ _ => rfl) (fun _ _ _ _ => rfl)
    ⟨{ hform with }, hb⟩ ⟨pend ++ [c.i0], used, hf.notify hw howned hring hnot hroom⟩
    (h.logs.notify hpc howned fun u r' c' hu hwu => ?_)
  exact h.chains.ne_of_ne hi (head_mem_chain hwu) hu

theorem Inv.leave (h : Inv s) (hpc : s.pc t = .rwWait r c) (howned : s.owned r.b = false) :
    Inv (s.goto t (.rwClear r c)) := by
  have hin : (s.pc t).holds = true := by rw [hpc]; rfl
  have hg := h.goods t
  rw [hpc] at hg
  obtain ⟨pend, used, hf⟩ := h.flight
  have hfresh : ∀ u, (update s.pc t (.rwClear r c) u).fresh = (s.pc u).fresh :=
    (forall_update_iff _ fun u (pc : Pc β) => pc.fresh = (s.pc u).fresh).2 ⟨by rw [hpc]; rfl, fun _ _ => rfl⟩
  have hrw : ∀ u, (update s.pc t (.rwClear r c) u).req? = (s.pc u).req? :=
    (forall_update_iff _ fun u (pc : Pc β) => pc.req? = (s.pc u).req?).2 ⟨by rw [hpc]; rfl, fun _ _ => rfl⟩
  -- the threads that still wait are those that waited and whose buffer the device has
  have hwaits : ∀ u r' c', (update s.pc t (.rwClear r c) u).waits = some (r', c') →
    (s.pc u).waits = some (r', c') := by
    refine (forall_update_iff _ fun u (pc : Pc β) => ∀ r' c', pc.waits = some (r', c') →
      (s.pc u).waits = some (r', c')).2 ⟨nofun, fun _ _ _ _ => id⟩
  have hstill : ∀ u r' c', (s.pc u).waits = some (r', c') → s.owned r'.b = true →
      (update s.pc t (.rwClear r c) u).waits = some (r', c') := by
    intro u r' c' hwu ho
    have hu : u ≠ t := by
      rintro rfl
      rw [hpc] at hwu
      cases hwu
      rw [howned] at ho
      cases ho
    rw [update_of_ne hu]
    exact hwu
  refine h.inside (.rwClear r c) hin rfl (by rw [hpc]; exact fun _ => id) rfl rfl
    (h.chains.keep (by rw [hpc]; rfl)) (fun _ _ _ _ => rfl) (fun _ _ _ _ => rfl) (fun _ _ _ _ => rfl) hg.1
    ⟨pend, used, ?_⟩ ?_
  · refine { hf with mem := fun head => (hf.mem head).trans ?_, handling := handling_update nofun hf.handling }
    · constructor
      · rintro ⟨u, r', c', hwu, hc, ho⟩
        exact ⟨u, r', c', hstill u r' c' hwu ho, hc, ho⟩
      · rintro ⟨u, r', c', hwu, hc, ho⟩
        exact ⟨u, r', c', hwaits u r' c' hwu, hc, ho⟩
  · refine ⟨fun u r' c' hwu => h.logs.request u r' c' (hwaits u r' c' hwu), fun u r' hr => ?_, fun u k => ?_,
      h.logs.publishedNodup, fun u k => (h.logs.handled u k).trans ?_, h.logs.handledNodup⟩
    · simp only [Sys.goto, hrw] at hr
      exact h.logs.calling u r' hr
    · simp only [Sys.goto, hfresh]
      exact h.logs.published u k
    · refine and_congr_right fun _ => not_congr (and_congr_right fun _ => ?_)
      constructor
      · rintro ⟨r', c', hwu, ho⟩
        exact ⟨r', c', hstill u r' c' hwu ho, ho⟩
      · rintro ⟨r', c', hwu, ho⟩
        exact ⟨r', c', hwaits u r' c' hwu, ho⟩

variable [DecidableEq β]

/-- The state behind `disk.used_idx += 1`, but for the wakeup. -/
def Sys.answered (s : Sys τ β δ) (t : τ) (id : Nat) (b : β) : Sys τ β δ :=
  { s with
    owned := update s.owned b false, handled := s.handled ++ (s.request id).toList
    disk := { s.disk with usedIdx := s.disk.usedIdx + 1#16 }
    pc := update s.pc t .intrLoop }

theorem answered_waits (hpc : s.pc t = .intrHandle) (id : Nat) (b : β) (u : τ) :
    ((s.answered t id b).pc u).waits = (s.pc u).waits :=
  (forall_update_iff _ fun u (pc : Pc β) => pc.waits = (s.pc u).waits).2 ⟨by rw [hpc]; rfl, fun _ _ => rfl⟩ u

theorem answered_owned (h : Inv s) (hu : (s.pc u).waits = some (r, c)) {v : τ} {r' : Rw β} {c' : Idx}
    (hv : (s.pc v).waits = some (r', c')) : update s.owned r.b false r'.b = true ↔ v ≠ u ∧ s.owned r'.b = true := by
  by_cases hvu : v = u
  · subst hvu
    rw [hu] at hv
    cases hv
    simp
  · have hb : r'.b ≠ r.b := fun he => hvu (h.bufs u v r r' (Pc.rw_of_waits hu) (Pc.rw_of_waits hv) he.symm)
    simp [update_of_ne hb, hvu]

theorem Flight.answer (h : Inv s) (hf : Flight s pend (c.i0 :: used)) (hpc : s.pc t = .intrHandle)
    (hu : (s.pc u).waits = some (r, c))
    (hring : Queued s.disk.used.ring (s.disk.usedIdx + 1#16) s.disk.used.idx (used.map (BitVec.ofNat 32))) :
    Flight (s.answered t c.i0 r.b) pend used := by
  have hperm : (pend ++ s.taken ++ s.performed ++ c.i0 :: used).Perm
    (c.i0 :: (pend ++ s.taken ++ s.performed ++ used)) :=
    perm_middle
  have hnodup := nodup_cons.1 (hperm.nodup_iff.1 hf.nodup)
  refine ⟨hf.availRing, hring, hnodup.2, fun head => ?_, fun head hh => ?_, hf.begun, ?_, fun v hv => ?_⟩
  · have hold := (hperm.mem_iff (a := head)).symm.trans (hf.mem head)
    rw [mem_cons] at hold
    constructor
    · intro hmem
      obtain ⟨v, r', c', hwv, hc, ho⟩ := hold.1 (.inr hmem)
      have hvu : v ≠ u := by
        rintro rfl
        rw [hu] at hwv
        cases hwv
        rw [hc] at hnodup
        exact hnodup.1 hmem
      exact ⟨v, r', c', by rw [answered_waits hpc, hwv], hc, (answered_owned h hu hwv).2 ⟨hvu, ho⟩⟩
    · rintro ⟨v, r', c', hwv, hc, ho⟩
      rw [answered_waits hpc] at hwv
      obtain ⟨hvu, ho⟩ := (answered_owned h hu hwv).1 ho
      rcases hold.2 ⟨v, r', c', hwv, hc, ho⟩ with he | hmem
      · have hmem := head_mem_chain hwv
        rw [hc, he] at hmem
        exact absurd (h.chains.apart u v _ (head_mem_chain hu) hmem) hvu
      · exact hmem
  · exact hf.status head (by simp only [mem_append, mem_cons] at hh ⊢; tauto)
  · have hreq := h.logs.request u r c hu
    have hold := hf.handled
    simp [Sys.answered, hreq, hold]
  · by_cases hvt : v = t
    · subst hvt
      simp [Sys.answered] at hv
    · simp only [Sys.answered, update_of_ne hvt] at hv
      have hout := h.locked.outside (t := t) (u := v) (by simp only [hpc]; rfl) hvt
      simp only [hv] at hout
      cases hout

theorem Logs.answer (h : Inv s) (hpc : s.pc t = .intrHandle) (hu : (s.pc u).waits = some (r, c))
    (howned : s.owned r.b = true) : Logs (s.answered t c.i0 r.b) := by
  have hreq := h.logs.request u r c hu
  have hrw : ∀ v r', ((s.answered t c.i0 r.b).pc v).req? = some r' → (s.pc v).req? = some r' :=
    (forall_update_iff _ fun v (pc : Pc β) => ∀ r', pc.req? = some r' → (s.pc v).req? = some r').2
    ⟨nofun, fun _ _ _ => id⟩
  have hfresh : ∀ v, ((s.answered t c.i0 r.b).pc v).fresh = (s.pc v).fresh :=
    (forall_update_iff _ fun v (pc : Pc β) => pc.fresh = (s.pc v).fresh).2 ⟨by rw [hpc]; rfl, fun _ _ => rfl⟩
  have hnew : (u, s.calls u) ∉ s.handled := by
    rw [h.logs.handled]
    rintro ⟨-, hnot⟩
    exact hnot ⟨rfl, r, c, hu, howned⟩
  have hhandled : (s.answered t c.i0 r.b).handled = s.handled ++ [(u, s.calls u)] := by simp [Sys.answered, hreq]
  refine ⟨fun v r' c' hv => ?_, fun v r' hr => h.logs.calling v r' (hrw v r' hr), fun v k => ?_, h.logs.publishedNodup,
    fun v k => ?_, ?_⟩
  · rw [answered_waits hpc] at hv
    exact h.logs.request v r' c' hv
  · simp only [hfresh]
    exact h.logs.published v k
  · have hpub : (u, s.calls u) ∈ s.published := by
      have hfr : (s.pc u).fresh = false := by
        cases hp : s.pc u <;> rw [hp] at hu <;> first | rfl | cases hu
      rw [h.logs.published, hfr]
      simpa using h.logs.calling u r (Pc.rw_of_waits hu)
    rw [hhandled, mem_append, mem_singleton, h.logs.handled]
    simp only [answered_waits hpc]
    change _ ↔ (v, k) ∈ s.published ∧ ¬ (k = s.calls v ∧ ∃ r' c', (s.pc v).waits = some (r', c') ∧
      update s.owned r.b false r'.b = true)
    have hex : (∃ r' c', (s.pc v).waits = some (r', c') ∧ update s.owned r.b false r'.b = true) ↔
        v ≠ u ∧ ∃ r' c', (s.pc v).waits = some (r', c') ∧ s.owned r'.b = true := by
      constructor
      · rintro ⟨r', c', hv, ho⟩
        exact ⟨((answered_owned h hu hv).1 ho).1, r', c', hv, ((answered_owned h hu hv).1 ho).2⟩
      · rintro ⟨hvu, r', c', hv, ho⟩
        exact ⟨r', c', hv, (answered_owned h hu hv).2 ⟨hvu, ho⟩⟩
    rw [hex]
    by_cases hvu : v = u
    · subst hvu
      by_cases hk : k = s.calls v
      · subst hk
        simp [hpub]
      · simp [hk]
    · simp [hvu]
  · rw [hhandled, nodup_append]
    refine ⟨h.logs.handledNodup, nodup_singleton _, fun q hq q' hq' he => ?_⟩
    rw [mem_singleton] at hq'
    rw [he, hq'] at hq
    exact hnew hq

/-- **The interrupt handler** takes an entry from the used ring and releases the thread whose request it is. -/
theorem Inv.answer (h : Inv s) (hpc : s.pc t = .intrHandle) :
    ∃ u r c, (s.pc u).waits = some (r, c) ∧ s.owned r.b = true ∧ (s.disk.used.ring (slot s.disk.usedIdx)).toNat = c.i0 ∧
      c.i0 < NUM ∧ (s.disk.info c.i0).status = 0 ∧ (s.disk.info c.i0).b = some r.b ∧ Inv (s.answered t c.i0 r.b) := by
  have hin : (s.pc t).holds = true := by rw [hpc]; rfl
  obtain ⟨pend, used, hf⟩ := h.flight
  cases hused : used with
  | nil => exact absurd hused (hf.handling t hpc)
  | cons id used' =>
    subst hused
    obtain ⟨u, r, c, hu, rfl, howned⟩ := hf.owner (i := id) (by simp)
    have hlt := h.chains.lt u c.i0 (head_mem_chain hu)
    have hne : s.disk.usedIdx ≠ s.disk.used.idx := by
      intro he
      have := (hf.usedRing.eq_nil_iff (by decide)).1 he
      simp at this
    obtain ⟨q, hq, hring⟩ := hf.usedRing.pop (by decide) hne
    simp only [map_cons, List.cons.injEq] at hq
    obtain ⟨hid, rfl⟩ := hq
    refine ⟨u, r, c, hu, howned, ?_, hlt, hf.status c.i0 (by simp), (h.formatted hu).2, ?_⟩
    · rw [← hid]
      exact ofNat_toNat_of_lt (by decide) hlt
    · exact h.inside .intrLoop hin rfl (by rintro _ ⟨⟩) rfl rfl (h.chains.keep (by rw [hpc]; rfl)) (fun _ _ _ _ => rfl)
        (fun _ _ _ _ => rfl) (fun _ _ _ _ => rfl) trivial ⟨pend, used', Flight.answer h hf hpc hu hring⟩
        (Logs.answer h hpc hu howned)

end Xv6Riscv.Virtio
