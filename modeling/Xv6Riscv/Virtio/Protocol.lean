import Xv6Riscv.Virtio.Steps

/-!
# The virtio disk: the protocol

The device moves a head from one place to the next: from the available ring to its own, from there to the heads it
has performed, and on to the used ring. With the steps of the threads this is every step.
-/
namespace Xv6Riscv.Virtio
open Machine Mutex Owners RingBuffer Function List

section
variable {τ β δ : Type} {s s' : Sys τ β δ} {t u : τ} {pc : Pc β} {r : Rw β}
  {c : Idx} {i : Nat} {pend used : List Nat}

/-! ## The device -/

theorem Inv.take (h : Inv s) (hs : deviceTake s = .ok s') : Inv s' := by
  unfold deviceTake at hs
  split_ifs at hs with hne
  cases hs
  obtain ⟨pend, used, hf⟩ := h.flight
  obtain ⟨q, hq, hring⟩ := hf.availRing.pop (by decide) hne
  cases hpend : pend with
  | nil =>
    rw [hpend] at hq
    cases hq
  | cons head pend' =>
    subst hpend
    simp only [map_cons, List.cons.injEq] at hq
    obtain ⟨hhead, rfl⟩ := hq
    obtain ⟨u, r, c, hu, rfl, howned⟩ := hf.owner (i := head) (by simp)
    have hreq := h.logs.request u r c hu
    have hto : (s.disk.avail.ring (slot s.availSeen)).toNat = c.i0 := by
      rw [← hhead]
      exact ofNat_toNat_of_lt (by decide) (h.chains.lt u c.i0 (head_mem_chain hu))
    have hperm : (pend' ++ (s.taken ++ [c.i0]) ++ s.performed ++ used).Perm
        (c.i0 :: pend' ++ s.taken ++ s.performed ++ used) := by
      rw [perm_iff_count]
      intro x
      simp only [count_append, count_cons, count_nil]
      omega
    rw [hto, hreq]
    have hold := hf.begun
    rw [filterMap_cons, hreq] at hold
    refine { h with flight := ⟨pend', used, ?_⟩, logs := { h.logs with } }
    exact { hf with
      availRing := hring, nodup := hperm.nodup_iff.2 hf.nodup, begun := by simp [hold]
      mem := fun head => hperm.mem_iff.trans (hf.mem head) }

theorem Formatted.chainAt (hf : Formatted s.disk r c) (hlt : ∀ i ∈ c.list, i < NUM) :
    chainAt s.disk c.i0 = some (r.op, r.b, c.i0) := by
  have h1 : (Rw.first c : Desc β).next.toNat = c.i1 := ofNat_toNat_of_lt (by decide) (hlt c.i1 (by simp [Idx.list]))
  have h2 : (r.second c).next.toNat = c.i2 := ofNat_toNat_of_lt (by decide) (hlt c.i2 (by simp [Idx.list]))
  unfold Virtio.chainAt
  simp only [hf.first, h1, hf.second, h2, hf.third]
  simp only [Rw.first, Rw.second, Rw.third, hf.op]
  rw [if_pos]
  refine ⟨trivial, trivial, trivial, ?_, trivial, trivial⟩
  cases hwr : r.write with
  | true => exact .inl ⟨by simp, by simp [Rw.op, hwr]⟩
  | false => exact .inr ⟨by simp, by simp [Rw.op, hwr]⟩

theorem Inv.chainAt (h : Inv s) (hw : (s.pc u).waits = some (r, c)) : chainAt s.disk c.i0 = some (r.op, r.b, c.i0) := by
  refine (h.formatted hw).1.chainAt ?_
  rw [← Pc.chain_of_waits hw]
  exact h.chains.lt u

theorem Inv.perform [DecidableEq β] {head : Nat} (h : Inv s) (hs : devicePerform s head = .ok s') : Inv s' := by
  unfold devicePerform at hs
  split_ifs at hs with hmem
  obtain ⟨pend, used, hf⟩ := h.flight
  obtain ⟨u, r, c, hu, rfl, howned⟩ := hf.owner (i := head) (by simp [hmem])
  rw [h.chainAt hu] at hs
  simp only at hs
  have hperm : (pend ++ s.taken.erase c.i0 ++ (s.performed ++ [c.i0]) ++ used).Perm
      (pend ++ s.taken ++ s.performed ++ used) := by
    rw [perm_iff_count]
    intro x
    have herase := (perm_cons_erase hmem).count_eq x
    simp only [count_append, count_cons, count_nil] at herase ⊢
    omega
  -- whatever was transferred, only the status of this request changes in what the threads look at
  obtain ⟨data, sectors, rfl⟩ : ∃ data sectors, s' = { s.setInfo c.i0 { s.disk.info c.i0 with status := 0 } with
      data := data, sectors := sectors, taken := s.taken.erase c.i0, performed := s.performed ++ [c.i0] } := by
    split_ifs at hs <;> cases hs <;> exact ⟨_, _, rfl⟩
  refine { h with goods := fun v => ?_, flight := ⟨pend, used, ?_⟩, logs := { h.logs with } }
  · refine (h.goods v).congr rfl rfl rfl fun i => ?_
    by_cases hi : i = c.i0
    · subst hi
      simp [Sys.setInfo]
    · simp [Sys.setInfo, update_of_ne hi]
  · refine { hf with
      nodup := hperm.nodup_iff.2 hf.nodup, mem := fun head => hperm.mem_iff.trans (hf.mem head)
      status := fun head hh => ?_ }
    by_cases hc : head = c.i0
    · subst hc
      simp [Sys.setInfo]
    · simp only [Sys.setInfo, update_of_ne hc]
      refine hf.status head ?_
      simp only [mem_append, mem_singleton] at hh ⊢
      tauto

theorem Inv.append {head : Nat} (h : Inv s) (hs : deviceAppend s head = .ok s') : Inv s' := by
  unfold deviceAppend at hs
  split_ifs at hs with hmem
  cases hs
  obtain ⟨pend, used, hf⟩ := h.flight
  obtain ⟨u, r, c, hu, rfl, howned⟩ := hf.owner (i := head) (by simp [hmem])
  have hreq := h.logs.request u r c hu
  have hperm : (pend ++ s.taken ++ s.performed.erase c.i0 ++ (used ++ [c.i0])).Perm
      (pend ++ s.taken ++ s.performed ++ used) := by
    rw [perm_iff_count]
    intro x
    have herase := (perm_cons_erase hmem).count_eq x
    simp only [count_append, count_cons, count_nil] at herase ⊢
    omega
  -- this head is not in the used ring, so there is room for it
  have hroom : used.length < NUM := by
    have hsub : ∀ j ∈ pend ++ s.taken ++ s.performed ++ used, j ∈ List.range NUM := by
      intro j hj
      obtain ⟨v, r', c', hv, rfl, -⟩ := hf.owner hj
      exact mem_range.2 (h.chains.lt v c'.i0 (head_mem_chain hv))
    have hlen := (subperm_of_subset hf.nodup hsub).length_le
    have hpos := length_pos_of_mem hmem
    simp only [length_append, length_range] at hlen
    omega
  refine { h with
    goods := fun v => (h.goods v).congr rfl rfl rfl fun _ => rfl
    flight := ⟨pend, used ++ [c.i0], hf.availRing, ?_, hperm.nodup_iff.2 hf.nodup,
      fun head => hperm.mem_iff.trans (hf.mem head), fun head hh => ?_, hf.begun, ?_, fun _ _ => by simp⟩
    logs := { h.logs with } }
  · have hpush := hf.usedRing.push ⟨2 ^ 13, by decide⟩ (by simpa using hroom) (BitVec.ofNat 32 c.i0)
    simpa using hpush
  · refine hf.status head ?_
    simp only [mem_append, mem_singleton] at hh ⊢
    rcases hh with hh | hh | rfl
    · exact .inl (mem_of_mem_erase hh)
    · exact .inr hh
    · exact .inl hmem
  · simp [hf.handled, hreq]

/-! ## Calls begin -/

section
variable [DecidableEq τ]

theorem Inv.start (h : Inv s) (hpc : s.pc t = .idle) (hex : ∀ u r', (s.pc u).req? = some r' → r'.b ≠ r.b) :
    Inv ({ s with calls := update s.calls t (s.calls t + 1) }.goto t (.rwEntry r)) := by
  obtain ⟨pend, used, hf⟩ := h.flight
  have hw : (s.pc t).waits = none := by rw [hpc]; rfl
  have hwaits : ∀ u, (update s.pc t (.rwEntry r) u).waits = (s.pc u).waits :=
    (forall_update_iff _ fun u (pc : Pc β) => pc.waits = (s.pc u).waits).2 ⟨hw.symm, fun _ _ => rfl⟩
  have hcalls : ∀ u, (s.pc u).waits ≠ none → update s.calls t (s.calls t + 1) u = s.calls u := by
    intro u hu
    refine update_of_ne ?_ _ _
    rintro rfl
    exact hu hw
  have hpf := hf.pcs (l := s.lock) hwaits (handling_update nofun hf.handling)
  refine ⟨?_, ?_, ?_, ?_, ⟨pend, used, { hpf with }⟩, ?_⟩
  · simp only [Sys.goto, holds_update]
    exact h.locked.stay (by rw [hpc]; rfl)
  · simp only [Sys.goto, chain_update]
    exact h.chains.keep (by rw [hpc]; rfl)
  · exact (forall_update_iff _ fun u (pc : Pc β) => Good _ _ pc).2 ⟨trivial, fun u _ => h.goods u⟩
  · intro u v r₁ r₂ hu hv hb
    by_cases hut : u = t <;> by_cases hvt : v = t
    · rw [hut, hvt]
    · subst hut
      simp only [Sys.goto, update_self, update_of_ne hvt] at hu hv
      cases hu
      exact absurd hb.symm (hex v r₂ hv)
    · subst hvt
      simp only [Sys.goto, update_self, update_of_ne hut] at hu hv
      cases hv
      exact absurd hb (hex u r₁ hu)
    · simp only [Sys.goto, update_of_ne hut, update_of_ne hvt] at hu hv
      exact h.bufs u v r₁ r₂ hu hv hb
  · refine ⟨fun u r' c' hwu => ?_, fun u r' hr => ?_, fun u k => ?_, h.logs.publishedNodup, fun u k => ?_,
      h.logs.handledNodup⟩
    · simp only [Sys.goto, hwaits] at hwu
      simp only [Sys.goto, hcalls u (by rw [hwu]; simp)]
      exact h.logs.request u r' c' hwu
    · by_cases hu : u = t
      · subst hu
        simp [Sys.goto]
      · simp only [Sys.goto, update_of_ne hu] at hr ⊢
        exact h.logs.calling u r' hr
    · have hpub := h.logs.published u k
      by_cases hu : u = t
      · subst hu
        simp only [hpc, Pc.fresh, Bool.false_eq_true, and_false, not_false_eq_true, and_true] at hpub
        simp only [Sys.goto, update_self, Pc.fresh, and_true, hpub]
        omega
      · simp only [Sys.goto, update_of_ne hu]
        exact hpub
    · have hh := h.logs.handled u k
      simp only [Sys.goto, hwaits]
      by_cases hu : u = t
      · subst hu
        simp only [hw, reduceCtorEq, false_and, exists_false, and_false] at hh ⊢
        exact hh
      · simp only [update_of_ne hu]
        exact hh

/-! ## Every step -/

theorem Inv.write {disk : Disk β} {owned : β → Bool} {pc₀ : Pc β} (h : Inv s) (hpc : s.pc t = pc₀)
    (hin : pc₀.holds = true) (hw : pc₀.waits = none)
    (hsame : Pc.Same pc₀ pc) (hholds : pc.holds = true) (hne : pc ≠ .intrHandle) (hfree : disk.free = s.disk.free)
    (hused : disk.used = s.disk.used) (hidx : disk.usedIdx = s.disk.usedIdx) (havail : disk.avail = s.disk.avail)
    (hdesc : ∀ j, j ∉ pc₀.chain → disk.desc j = s.disk.desc j)
    (hops : ∀ j, j ∉ pc₀.chain → disk.ops j = s.disk.ops j)
    (hinfo : ∀ j, j ∉ pc₀.chain → disk.info j = s.disk.info j)
    (howned : ∀ b, (∀ r, pc₀.req? = some r → r.b ≠ b) → owned b = s.owned b)
    (hgood : Good disk owned pc) : Inv { s with disk := disk, owned := owned, pc := update s.pc t pc } := by
  subst hpc
  have hother : ∀ {u j}, u ≠ t → j ∈ (s.pc u).chain → j ∉ (s.pc t).chain :=
    fun hu hj => h.chains.not_mem hj (Ne.symm hu)
  refine h.own hin hw hsame.toAlike hholds hne ?_ hused hidx (fun q _ hq => by rw [havail]; exact hq)
    (fun u hu j hj => hdesc j (hother hu hj)) (fun u hu j hj => hops j (hother hu hj))
    (fun u hu j hj => hinfo j (hother hu hj)) howned hgood
  rw [hfree]
  exact h.chains.keep hsame.chain

variable [DecidableEq β]

theorem update_of_not_mem {α : Type} {f : Nat → α} {l : List Nat} {x : α} (hi : i ∈ l) :
    ∀ j, j ∉ l → update f i x j = f j := by
  intro j hj
  refine update_of_ne ?_ _ _
  rintro rfl
  exact hj hi

theorem Inv.rw (h : Inv s) (hpc : s.pc t = pc) (hs : virtioDiskRw s t pc = .ok s') : Inv s' := by
  have hnodup := h.chains.nodup t
  have hlt := h.chains.lt t
  have hg := h.goods t
  rw [hpc] at hg
  simp only [hpc] at hnodup hlt
  cases pc with
  | rwEntry r => exact h.acquire hs (by rw [hpc]; exact ⟨⟨rfl, rfl, fun _ => id⟩, rfl⟩) rfl trivial (by simp)
  | rwAllocWoken r => exact h.acquire hs (by rw [hpc]; exact ⟨⟨rfl, rfl, fun _ => id⟩, rfl⟩) rfl trivial (by simp)
  | rwWoken r c => exact h.acquire hs (by rw [hpc]; exact ⟨⟨rfl, rfl, fun _ => id⟩, rfl⟩) rfl hg (by simp)
  | rwRelease r => exact h.release hs (by rw [hpc]; exact ⟨⟨rfl, rfl, by rintro _ ⟨⟩⟩, rfl⟩) rfl trivial (by simp)
  | rwAlloc r =>
    simp only [virtioDiskRw] at hs
    rcases alloc3Desc_spec s with ⟨c, s₁, he, hgiven⟩ | ⟨s₁, he, hundone⟩
    · rw [he, Outcome.bind_ok] at hs
      cases hs
      exact h.alloc hpc hgiven
    · rw [he, Outcome.bind_ok] at hs
      exact h.undone hpc hundone hs
  | rwFirst r c =>
    cases hs
    refine h.write hpc rfl rfl ⟨⟨rfl, rfl, fun _ => id⟩, rfl⟩ rfl (by simp) rfl rfl rfl rfl
      ?_ ?_ (fun _ _ => rfl) (fun _ _ => rfl) ⟨update_self .., update_self ..⟩
    · exact update_of_not_mem (by simp [Pc.chain, Idx.list])
    · exact update_of_not_mem (by simp [Pc.chain, Idx.list])
  | rwSecond r c =>
    cases hs
    have h01 : c.i0 ≠ c.i1 := by
      intro he
      simp [Pc.chain, Idx.list, he] at hnodup
    refine h.write hpc rfl rfl ⟨⟨rfl, rfl, fun _ => id⟩, rfl⟩ rfl (by simp) rfl rfl rfl rfl
      ?_ (fun _ _ => rfl) (fun _ _ => rfl) (fun _ _ => rfl) ⟨hg.1, ?_, update_self ..⟩
    · exact update_of_not_mem (by simp [Pc.chain, Idx.list])
    · exact (update_of_ne h01 _ _).trans hg.2
  | rwThird r c =>
    cases hs
    have h02 : c.i0 ≠ c.i2 := by
      intro he
      simp [Pc.chain, Idx.list, he] at hnodup
    have h12 : c.i1 ≠ c.i2 := by
      intro he
      simp [Pc.chain, Idx.list, he] at hnodup
    refine h.write hpc rfl rfl ⟨⟨rfl, rfl, fun _ => id⟩, rfl⟩ rfl (by simp) rfl rfl rfl rfl
      ?_ (fun _ _ => rfl) ?_ (fun _ _ => rfl) ⟨hg.1, ?_, ?_, update_self ..⟩
    · exact update_of_not_mem (by simp [Pc.chain, Idx.list])
    · exact update_of_not_mem (by simp [Pc.chain, Idx.list])
    · exact (update_of_ne h02 _ _).trans hg.2.1
    · exact (update_of_ne h12 _ _).trans hg.2.2
  | rwRecord r c =>
    cases hs
    refine h.write hpc rfl rfl ⟨⟨rfl, rfl, fun _ => id⟩, rfl⟩ rfl (by simp) rfl rfl rfl rfl
      (fun _ _ => rfl) (fun _ _ => rfl) ?_ ?_
        ⟨{ hg with }, by simp [Sys.setInfo], update_self ..⟩
    · exact update_of_not_mem (by simp [Pc.chain, Idx.list])
    · intro b hb
      exact update_of_ne (Ne.symm (hb r rfl)) _ _
  | rwRing r c =>
    cases hs
    refine h.own (by rw [hpc]; rfl) (by rw [hpc]; rfl) (by rw [hpc]; exact ⟨rfl, rfl, fun _ => id⟩)
      rfl (by simp) ?_ rfl rfl ?_ (fun _ _ _ _ => rfl) (fun _ _ _ _ => rfl) (fun _ _ _ _ => rfl) (fun _ _ => rfl)
      ⟨⟨{ hg.1 with }, hg.2⟩, update_self ..⟩
    · exact h.chains.keep (by rw [hpc]; rfl)
    · intro q hroom hq
      exact hq.stage ⟨2 ^ 13, by decide⟩ (hroom (by rw [hpc]; simp [Pc.chain, Idx.list])) _
  | rwNotify r c =>
    cases hs
    exact h.notify hpc
  | rwWait r c =>
    simp only [virtioDiskRw] at hs
    split_ifs at hs with howned
    · exact h.release hs (by rw [hpc]; exact ⟨⟨rfl, rfl, fun _ => id⟩, rfl⟩) rfl hg (by simp)
    · cases hs
      exact h.leave hpc (by simpa using howned)
  | rwClear r c =>
    cases hs
    refine h.write hpc rfl rfl ⟨⟨rfl, rfl, fun _ => id⟩, dropWhile_first⟩ rfl (by simp) rfl rfl rfl rfl
      (fun _ _ => rfl) (fun _ _ => rfl) ?_ (fun _ _ => rfl) ⟨fun _ => hg.first, fun _ => hg.second, hg.third,
        .inl rfl, hnodup, hlt⟩
    exact update_of_not_mem (by simp [Pc.chain, Idx.list])
  | rwFree r c i =>
    obtain ⟨s₁, hfree, hinv⟩ := h.freeChain hpc
    simp only [virtioDiskRw, hfree, Outcome.bind_ok] at hs
    cases hs
    exact hinv
  | _ => cases hs

theorem Inv.intr (h : Inv s) (hpc : s.pc t = pc) (hs : virtioDiskIntr s t pc = .ok s') : Inv s' := by
  cases pc with
  | intrEntry => exact h.acquire hs (by rw [hpc]; exact ⟨⟨rfl, rfl, fun _ => id⟩, rfl⟩) rfl trivial nofun
  | intrLoop =>
    simp only [virtioDiskIntr] at hs
    split_ifs at hs with hne
    · cases hs
      exact h.goto (by rw [hpc]; exact ⟨⟨rfl, rfl, fun _ => id⟩, rfl⟩) (by rw [hpc]; rfl) trivial fun _ => hne
    · exact h.release hs (by rw [hpc]; exact ⟨⟨rfl, rfl, fun _ => id⟩, rfl⟩) rfl trivial nofun
  | intrHandle =>
    obtain ⟨u, r, c, hu, howned, hid, hlt, hstatus, hb, hinv⟩ := h.answer hpc
    simp only [virtioDiskIntr, hid, hstatus, hb, ne_eq, not_true_eq_false, if_false, ge_iff_le, not_le.2 hlt] at hs
    cases hs
    have heq := wakeup_goto { s with
      owned := update s.owned r.b false, handled := s.handled ++ (s.request c.i0).toList
      disk := { s.disk with usedIdx := s.disk.usedIdx + 1#16 } } t (.buf r.b) (show Pc.intrLoop.holds = true from rfl)
    exact heq ▸ hinv.wakeup (.buf r.b)
  | _ => cases hs

theorem Inv.step {ev : Event τ β} (h : Inv s) (hok : Exclusive s ev) (hs : step s ev = .ok s') : Inv s' := by
  cases ev with
  | rw t r =>
    simp only [Virtio.step] at hs
    split at hs
    · rename_i hidle
      cases hs
      exact h.start hidle hok
    · cases hs
  | intr t =>
    simp only [Virtio.step] at hs
    split at hs
    · rename_i hidle
      cases hs
      exact h.goto (by rw [hidle]; exact ⟨⟨rfl, rfl, fun _ => id⟩, rfl⟩) (by rw [hidle]; rfl) trivial nofun
    · cases hs
  | next t =>
    simp only [Virtio.step] at hs
    split at hs
    · rename_i hpc
      exact h.intr hpc hs
    · rename_i hpc
      exact h.intr hpc hs
    · rename_i hpc
      exact h.intr hpc hs
    · exact h.rw rfl hs
  | kill t =>
    cases hs
    refine h.goto Pc.same_killed Pc.holds_killed (good_killed (h.goods t)) fun he => ?_
    have hpc : s.pc t = .intrHandle := by
      cases hp : s.pc t <;> rw [hp] at he <;> cases he
    obtain ⟨pend, used, hf⟩ := h.flight
    intro heq
    have := (hf.usedRing.eq_nil_iff (by decide)).1 heq
    exact hf.handling t hpc (by simpa using this)
  | take => exact h.take hs
  | perform head => exact h.perform hs
  | append head => exact h.append hs

omit [DecidableEq τ] [DecidableEq β] in
theorem Init.inv (h : Init s) : Inv s where
  locked t := by simp [h.lock, h.idle, Pc.holds]
  chains := by
    refine ⟨fun t => ?_, fun t i hi => ?_, fun t u i hi => ?_, fun i hi => ?_⟩
    · simp [h.idle, Pc.chain]
    · simp [h.idle, Pc.chain] at hi
    · simp [h.idle, Pc.chain] at hi
    · simp [h.free i hi, h.idle, Pc.chain]
  goods t := by simp [h.idle, Good]
  bufs t u r r' hr := by simp [h.idle, Pc.req?] at hr
  flight := by
    refine ⟨[], [], ?_, ?_, ?_, fun head => ?_, ?_, ?_, ?_, fun t ht => ?_⟩
    · rw [h.avail]
      exact .empty _ _
    · rw [h.used]
      exact .empty _ _
    · simp [h.taken, h.performed]
    · simp [h.taken, h.performed, h.idle, Pc.waits]
    · simp [h.performed]
    · simp [h.published, h.begun]
    · simp [h.appended, h.handled]
    · simp [h.idle] at ht
  logs := by
    refine ⟨fun t r c hw => ?_, fun t r hr => ?_, fun t k => ?_, ?_, fun t k => ?_, ?_⟩
    · simp [h.idle, Pc.waits] at hw
    · simp [h.idle, Pc.req?] at hr
    · simp only [h.published, h.calls, h.idle, Pc.fresh, not_mem_nil, false_iff]
      omega
    · simp [h.published]
    · simp [h.published, h.handled]
    · simp [h.handled]

theorem inv_of_reach (h : Reach step Init Exclusive s) : Inv s :=
  h.inv (fun _ h => h.inv) fun _ _ _ h hok hs => h.step hok hs

/-! ## No panic -/

variable {p : Panic}

omit [DecidableEq β] in
theorem acquire_ne_halt (h : Inv s) (ht : (s.pc t).holds = false) : s.acquire t pc ≠ .halt p := by
  have hlock := mt (h.locked t).1 (by simp [ht])
  unfold Sys.acquire
  cases hl : s.lock with
  | none => nofun
  | some u =>
    have hu : u ≠ t := by
      rintro rfl
      exact hlock hl
    simp [hu]

omit [DecidableEq β] in
theorem release_ne_halt (h : Inv s) (ht : (s.pc t).holds = true) : s.release t pc ≠ .halt p := by
  simp [Sys.release, (h.locked t).2 ht]

theorem Inv.rw_no_panic (h : Inv s) (hpc : s.pc t = pc) : virtioDiskRw s t pc ≠ .halt p := by
  cases pc with
  | rwEntry r | rwAllocWoken r | rwWoken r c => exact acquire_ne_halt h (by rw [hpc]; rfl)
  | rwRelease r => exact release_ne_halt h (by rw [hpc]; rfl)
  | rwAlloc r =>
    simp only [virtioDiskRw]
    rcases alloc3Desc_spec s with ⟨c, s₁, he, hgiven⟩ | ⟨s₁, he, hundone⟩
    · rw [he]
      simp
    obtain ⟨desc, hdesc, heq⟩ := hundone.eq
    have hclear := h.clear (by rw [hpc]; rfl) hpc hdesc
    rw [he, Outcome.bind_ok]
    rcases heq with rfl | rfl
    · exact release_ne_halt hclear (by simp only [hpc]; rfl)
    · exact release_ne_halt (hclear.wakeup .free) (by simp only [Sys.wakeup, hpc]; rfl)
  | rwWait r c =>
    simp only [virtioDiskRw]
    split_ifs
    · exact release_ne_halt h (by rw [hpc]; rfl)
    · simp
  | rwFree r c i =>
    obtain ⟨s₁, hfree, -⟩ := h.freeChain hpc
    simp only [virtioDiskRw, hfree, Outcome.bind_ok]
    simp
  | _ => simp [virtioDiskRw]

theorem Inv.intr_no_panic (h : Inv s) (hpc : s.pc t = pc) : virtioDiskIntr s t pc ≠ .halt p := by
  cases pc with
  | intrEntry => exact acquire_ne_halt h (by rw [hpc]; rfl)
  | intrLoop =>
    simp only [virtioDiskIntr]
    split_ifs
    · simp
    · exact release_ne_halt h (by rw [hpc]; rfl)
  | intrHandle =>
    obtain ⟨u, r, c, hu, howned, hid, hlt, hstatus, hb, -⟩ := h.answer hpc
    simp only [virtioDiskIntr, hid, hstatus, hb, ne_eq, not_true_eq_false, if_false, ge_iff_le, not_le.2 hlt]
    simp
  | _ => simp [virtioDiskIntr]

theorem Inv.no_panic {ev : Event τ β} (h : Inv s) : Virtio.step s ev ≠ .halt p := by
  cases ev with
  | rw t r =>
    simp only [Virtio.step]
    split <;> simp
  | intr t =>
    simp only [Virtio.step]
    split <;> simp
  | next t =>
    simp only [Virtio.step]
    split
    · rename_i hpc
      exact h.intr_no_panic hpc
    · rename_i hpc
      exact h.intr_no_panic hpc
    · rename_i hpc
      exact h.intr_no_panic hpc
    · exact h.rw_no_panic rfl
  | kill t => simp [Virtio.step]
  | take =>
    simp only [Virtio.step, deviceTake]
    split_ifs <;> simp
  | perform head =>
    simp only [Virtio.step, devicePerform]
    split_ifs with hmem
    · obtain ⟨pend, used, hf⟩ := h.flight
      obtain ⟨u, r, c, hu, rfl, -⟩ := hf.owner (i := head) (by simp [hmem])
      rw [h.chainAt hu]
      simp
    · simp
  | append head =>
    simp only [Virtio.step, deviceAppend]
    split_ifs <;> simp

end

/-! ## The protocol -/

theorem Inv.request_inj (h : Inv s) (hf : Flight s pend used) {i j : Nat} {q : τ × Nat}
    (hi : i ∈ pend ++ s.taken ++ s.performed ++ used) (hj : j ∈ pend ++ s.taken ++ s.performed ++ used)
    (hqi : s.request i = some q) (hqj : s.request j = some q) : i = j := by
  obtain ⟨u, r, c, hu, rfl, -⟩ := hf.owner hi
  obtain ⟨v, r', c', hv, rfl, -⟩ := hf.owner hj
  rw [h.logs.request u r c hu] at hqi
  rw [h.logs.request v r' c' hv, ← hqi] at hqj
  cases hqj
  rw [hu] at hv
  cases hv
  rfl

theorem Inv.used_nodup (h : Inv s) (hf : Flight s pend used) : (used.filterMap s.request).Nodup := by
  have hnodup : used.Nodup := hf.nodup.of_append_right
  refine pairwise_filterMap.2 (List.Pairwise.imp_of_mem (fun {i j} hi hj hne q hqi q' hqj he => ?_) hnodup)
  subst he
  exact hne (h.request_inj hf (by simp [hi]) (by simp [hj]) hqi hqj)

theorem Inv.published_of_not_fresh (h : Inv s) (hr : (s.pc t).req? = some r) (hfresh : (s.pc t).fresh = false) :
    (t, s.calls t) ∈ s.published := by
  rw [h.logs.published, hfresh]
  simpa using h.logs.calling t r hr

theorem Pc.fresh_of_waits {x : Rw β × Idx} (h : pc.waits = some x) : pc.fresh = false := by
  cases pc <;> first | rfl | cases h

theorem Inv.on_its_way (h : Inv s) (hf : Flight s pend used) {q : τ × Nat}
    (hi : i ∈ pend ++ s.taken ++ s.performed ++ used)
    (hq : s.request i = some q) : q ∈ s.published ∧ q ∉ s.handled := by
  obtain ⟨u, r, c, hu, rfl, howned⟩ := hf.owner hi
  rw [h.logs.request u r c hu] at hq
  cases hq
  refine ⟨h.published_of_not_fresh (Pc.rw_of_waits hu) (Pc.fresh_of_waits hu), fun hh => ?_⟩
  exact ((h.logs.handled u _).1 hh).2 ⟨rfl, r, c, hu, howned⟩

theorem Inv.appended (h : Inv s) : s.appended.Nodup ∧ ∀ q ∈ s.appended, q ∈ s.begun := by
  obtain ⟨pend, used, hf⟩ := h.flight
  have hbegun : ∀ q ∈ s.published, (∀ i ∈ pend, s.request i ≠ some q) → q ∈ s.begun := by
    intro q hq hnot
    rw [hf.begun, mem_append, mem_filterMap] at hq
    rcases hq with hq | ⟨i, hi, hreq⟩
    · exact hq
    · exact absurd hreq (hnot i hi)
  rw [hf.handled]
  refine ⟨nodup_append.2 ⟨h.logs.handledNodup, h.used_nodup hf, ?_⟩, fun q hq => ?_⟩
  · rintro q hq q' hq' rfl
    obtain ⟨i, hi, hreq⟩ := mem_filterMap.1 hq'
    exact (h.on_its_way hf (by simp [hi]) hreq).2 hq
  rcases mem_append.1 hq with hq | hq
  · refine hbegun q ((h.logs.handled q.1 q.2).1 hq).1 fun i hi hreq => ?_
    exact (h.on_its_way hf (by simp [hi]) hreq).2 hq
  obtain ⟨i, hi, hreq⟩ := mem_filterMap.1 hq
  refine hbegun q (h.on_its_way hf (by simp [hi]) hreq).1 fun j hj hreq' => ?_
  -- a head in the available ring is not in the used ring
  have hij := h.request_inj hf (by simp [hi]) (by simp [hj]) hreq hreq'
  subst hij
  have hnodup := hf.nodup
  rw [append_assoc, append_assoc] at hnodup
  exact (nodup_append.1 hnodup).2.2 i hj i (by simp [hi]) rfl

end

variable {τ β δ : Type} [DecidableEq τ] [DecidableEq β] {s : Sys τ β δ}

/-- **The virtio disk protocol.** In every state, whatever the interleaving of the threads and the device: chains of
descriptors are disjoint, and a descriptor is free when it is in no chain; requests are taken and handled in the order
in which they were put into the rings, none is left out, and none is appended or handled twice; a thread waits until
its own request is handled, and no longer; the device finds in a chain the request that was made; and nothing panics. -/
theorem virtio_protocol (h : Reach step Init Exclusive s) :
    (∀ t, (s.pc t).chain.Nodup) ∧ (∀ t u, t ≠ u → (s.pc t).chain.Disjoint (s.pc u).chain) ∧
    (∀ i < NUM, s.disk.free i = true ↔ ∀ t, i ∉ (s.pc t).chain) ∧
    (s.begun <+: s.published ∧ s.published.length = s.begun.length + (s.disk.avail.idx - s.availSeen).toNat) ∧
    (s.handled <+: s.appended ∧ s.appended.length = s.handled.length + (s.disk.used.idx - s.disk.usedIdx).toNat) ∧
    (s.published.Nodup ∧ s.appended.Nodup ∧ ∀ q ∈ s.appended, q ∈ s.begun) ∧
    (∀ t r c, (s.pc t).waits = some (r, c) → (s.owned r.b = false ↔ (t, s.calls t) ∈ s.handled)) ∧
    (∀ t r, (s.pc t).req? = some r → (s.pc t).waits = none → (s.pc t).fresh = false → (t, s.calls t) ∈ s.handled) ∧
    (∀ head ∈ s.taken, ∃ t r c, (s.pc t).waits = some (r, c) ∧ c.i0 = head ∧
    chainAt s.disk head = some (r.op, r.b, head)) ∧ ∀ ev p, step s ev ≠ .halt p := by
  have hinv := inv_of_reach h
  obtain ⟨pend, used, hf⟩ := hinv.flight
  have hsome : ∀ l : List Nat, (∀ i ∈ l, i ∈ pend ++ s.taken ++ s.performed ++ used) →
    (l.filterMap s.request).length = l.length := by
    refine fun l hl => filterMap_length_eq_length.2 fun i hi => ?_
    obtain ⟨u, r, c, hu, rfl, -⟩ := hf.owner (hl i hi)
    rw [hinv.logs.request u r c hu]
    rfl
  refine ⟨hinv.chains.nodup, fun t u htu i hi hj => htu (hinv.chains.apart u t i hj hi), hinv.chains.free_iff,
    ⟨⟨_, hf.begun.symm⟩, ?_⟩,
    ⟨⟨_, hf.handled.symm⟩, ?_⟩, ⟨hinv.logs.publishedNodup, hinv.appended⟩, fun t r c hw => ?_,
    fun t r hr hw hfresh => ?_, fun head hh => ?_, fun ev p => hinv.no_panic⟩
  · have hlen := hf.availRing.length_eq (by decide)
    rw [hlen, hf.begun, length_append, hsome pend (fun i hi => by simp [hi]), length_map]
  · have hlen := hf.usedRing.length_eq (by decide)
    rw [hlen, hf.handled, length_append, hsome used (fun i hi => by simp [hi]), length_map]
  · rw [hinv.logs.handled]
    have hpub := hinv.published_of_not_fresh (Pc.rw_of_waits hw) (Pc.fresh_of_waits hw)
    simp [hpub, hw]
  · rw [hinv.logs.handled]
    refine ⟨hinv.published_of_not_fresh hr hfresh, ?_⟩
    rintro ⟨-, r', c', hw', -⟩
    rw [hw] at hw'
    cases hw'
  · obtain ⟨u, r, c, hu, rfl, -⟩ := hf.owner (i := head) (by simp [hh])
    exact ⟨u, r, c, hu, rfl, hinv.chainAt hu⟩

/-- A disk with nothing to do, and indices that are about to wrap. -/
def quiet : Sys (Fin 2) Bool Nat where
  disk :=
    { desc := fun _ => .cleared, avail := ⟨fun _ => 0, 0xFFFF⟩, used := ⟨fun _ => 0, 0xFFFF⟩
      free := fun _ => true, usedIdx := 0xFFFF
      info := fun _ => ⟨none, 0⟩, ops := fun _ => ⟨0, 0, 0⟩ }
  lock := none
  owned := fun _ => false
  data := fun _ => 0
  sectors := fun _ => 7
  availSeen := 0xFFFF
  taken := []
  performed := []
  pc := fun _ => .idle
  calls := fun _ => 0
  request := fun _ => none
  published := []
  begun := []
  appended := []
  handled := []

theorem quiet_init : Init quiet :=
  ⟨fun _ _ => rfl, rfl, rfl, rfl, fun _ => rfl, rfl, rfl, fun _ => rfl, rfl, rfl, rfl, rfl⟩

/-- A block is read: the thread 0 publishes its request and sleeps, the device performs it, the thread 1 handles the
interrupt, and the thread 0 frees its descriptors. -/
def readRun : List (Event (Fin 2) Bool) :=
  Event.rw 0 ⟨true, false, 5⟩ :: List.replicate 9 (Event.next 0) ++ [Event.take, .perform 0, .append 0, .intr 1] ++
    List.replicate 4 (Event.next 1) ++ List.replicate 6 (Event.next 0)

theorem virtio_protocol_read :
    (after step quiet readRun).pc 0 = .rwRelease ⟨true, false, 5⟩ ∧ (after step quiet readRun).data true = 7 ∧
      (0, 1) ∈ (after step quiet readRun).handled ∧ (after step quiet readRun).disk.free 0 = true := by
  have hreach : Reach step Init Exclusive (after step quiet readRun) :=
    Reach.of_checked readRun (.init quiet_init) (by decide +kernel)
  have hpc : (after step quiet readRun).pc 0 = .rwRelease ⟨true, false, 5⟩ := rfl
  have hcalls : (after step quiet readRun).calls 0 = 1 := by decide +kernel
  obtain ⟨-, -, hfree, -, -, -, -, hdone, -, -⟩ := virtio_protocol hreach
  have hhandled := hdone 0 ⟨true, false, 5⟩ (by rw [hpc]; rfl) (by rw [hpc]; rfl) (by rw [hpc]; rfl)
  refine ⟨hpc, by decide +kernel, hhandled, (hfree 0 (by decide)).2 fun t => ?_⟩
  match t with
  | 0 =>
    rw [hpc]
    simp [Pc.chain]
  | 1 => decide +kernel

end Xv6Riscv.Virtio
