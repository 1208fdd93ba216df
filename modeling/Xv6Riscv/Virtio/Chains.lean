import Xv6Riscv.Lib.Mutex
import Xv6Riscv.Virtio.Model

/-!
# Descriptors and their owners

What a thread has, by the place it is at: the lock (`holds`), the descriptors that it has allocated (`chain`), its call
(`req?`), whether the call has yet to be published (`fresh`), and whether it waits for the device (`waits`). Being woken
changes none of it. `alloc3_desc` and `free_desc` get one specification each.
-/
namespace Xv6Riscv.Virtio
open Machine Mutex RingBuffer Function

variable {τ β δ : Type} [DecidableEq β] {s s' : Sys τ β δ} {t u : τ} {pc : Pc β} {r : Rw β} {c : Idx} {i : Nat}
  {ch : Chan β}

/-! ## Places -/

namespace Pc

/-- The thread holds `disk.vdisk_lock`. -/
def holds : Pc β → Bool
  | .idle | .rwEntry _ | .rwAllocSleep _ | .rwAllocWoken _ | .rwSleep _ _ | .rwWoken _ _ | .intrEntry => false
  | _ => true

/-- The descriptors that the thread has allocated. -/
def chain : Pc β → List Nat
  | .rwFirst _ c | .rwSecond _ c | .rwThird _ c | .rwRecord _ c | .rwRing _ c | .rwNotify _ c => c.list
  | .rwWait _ c | .rwSleep _ c | .rwWoken _ c | .rwClear _ c => c.list
  | .rwFree _ c i => c.list.dropWhile (· ≠ i)
  | _ => []

/-- The request is published, and the thread waits for it. -/
def waits : Pc β → Option (Rw β × Idx)
  | .rwWait r c | .rwSleep r c | .rwWoken r c => some (r, c)
  | _ => none

/-- The request is not yet published. -/
def fresh : Pc β → Bool
  | .rwEntry _ | .rwAlloc _ | .rwAllocSleep _ | .rwAllocWoken _ => true
  | .rwFirst _ _ | .rwSecond _ _ | .rwThird _ _ | .rwRecord _ _ | .rwRing _ _ | .rwNotify _ _ => true
  | _ => false

/-- Two places of a call that do not differ in how far the request is, except that the call may be over. -/
structure Alike (pc pc' : Pc β) : Prop where
  waits : pc'.waits = pc.waits
  fresh : pc'.fresh = pc.fresh
  rw : ∀ r, pc'.req? = some r → pc.req? = some r

/-- Nor in the descriptors. -/
structure Same (pc pc' : Pc β) : Prop extends Alike pc pc' where
  chain : pc'.chain = pc.chain

theorem woken_cases (ch : Chan β) (pc : Pc β) :
    pc.woken ch = pc ∨ (∃ r, pc = .rwAllocSleep r ∧ pc.woken ch = .rwAllocWoken r) ∨
      ∃ r c, pc = .rwSleep r c ∧ pc.woken ch = .rwWoken r c := by
  cases pc with
  | rwAllocSleep r =>
    cases ch with
    | free => exact .inr (.inl ⟨r, rfl, rfl⟩)
    | buf b => exact .inl rfl
  | rwSleep r c =>
    cases ch with
    | free => exact .inl rfl
    | buf b =>
      by_cases hb : r.b = b
      · exact .inr (.inr ⟨r, c, rfl, by simp [woken, hb]⟩)
      · exact .inl (by simp [woken, hb])
  | _ => exact .inl rfl

omit [DecidableEq β] in
theorem Alike.refl : Alike pc pc := ⟨rfl, rfl, fun _ => id⟩

omit [DecidableEq β] in
theorem Same.refl : Same pc pc := ⟨.refl, rfl⟩

theorem same_woken : Same pc (pc.woken ch) := by
  rcases woken_cases ch pc with h | ⟨r, rfl, h⟩ | ⟨r, c, rfl, h⟩ <;> rw [h] <;> exact ⟨⟨rfl, rfl, fun _ => id⟩, rfl⟩

@[simp] theorem holds_woken : (pc.woken ch).holds = pc.holds := by
  rcases woken_cases ch pc with h | ⟨r, rfl, h⟩ | ⟨r, c, rfl, h⟩ <;> rw [h] <;> rfl

omit [DecidableEq β] in
theorem same_killed : Same pc pc.killed := by
  cases pc <;> exact ⟨⟨rfl, rfl, fun _ => id⟩, rfl⟩

omit [DecidableEq β] in
@[simp] theorem holds_killed : pc.killed.holds = pc.holds := by
  cases pc <;> rfl

theorem woken_of_holds (h : pc.holds = true) : pc.woken ch = pc := by
  rcases woken_cases ch pc with h' | ⟨r, rfl, -⟩ | ⟨r, c, rfl, -⟩
  · exact h'
  · cases h
  · cases h

end Pc

/-! ## `alloc_desc` and `free_desc` -/

omit [DecidableEq β] in
theorem allocDesc_eq_some (h : allocDesc s = some (i, s')) :
    i < NUM ∧ s.disk.free i = true ∧ s' = s.setFree i false := by
  unfold allocDesc at h
  cases hf : (List.range NUM).find? s.disk.free with
  | none =>
    rw [hf] at h
    cases h
  | some j =>
    rw [hf] at h
    cases h
    exact ⟨List.mem_range.1 (List.mem_of_find?_eq_some hf), List.find?_some hf, rfl⟩

theorem freeDesc_eq_ok : freeDesc s i = .ok s' ↔ i < NUM ∧ s.disk.free i = false ∧
    s' = ((s.setDesc i .cleared).setFree i true).wakeup .free := by
  unfold freeDesc
  by_cases hi : i ≥ NUM
  · simp [hi]
  · by_cases hf : s.disk.free i <;> simp [hi, hf, eq_comm]
    omega

/-- The thread was given three free descriptors. -/
structure Given (s : Sys τ β δ) (c : Idx) (s' : Sys τ β δ) : Prop where
  nodup : c.list.Nodup
  bound : ∀ i ∈ c.list, i < NUM
  free : ∀ i ∈ c.list, s.disk.free i = true
  eq : s' = { s with disk := { s.disk with free := fun i => if i ∈ c.list then false else s.disk.free i } }

/-- There were too few: the descriptors of no chain were cleared, and perhaps sleepers woken. -/
structure Undone (s s' : Sys τ β δ) : Prop where
  eq : ∃ desc, (∀ i, s.disk.free i = false → desc i = s.disk.desc i) ∧
    (s' = { s with disk := { s.disk with desc := desc } } ∨
    s' = { s with disk := { s.disk with desc := desc } }.wakeup .free)

omit [DecidableEq β] in
theorem setFree_self {b : Bool} (h : s.disk.free i = b) : s.setFree i b = s := by
  simp [Sys.setFree, ← h]

omit [DecidableEq β] in
theorem setFree_comm {j : Nat} (hij : i ≠ j) (a b : Bool) :
    (s.setFree i a).setFree j b = (s.setFree j b).setFree i a := by
  simp [Sys.setFree, update_comm hij]

theorem Pc.woken_woken : (pc.woken ch).woken ch = pc.woken ch := by
  rcases Pc.woken_cases ch pc with h | ⟨r, -, h⟩ | ⟨r, c, -, h⟩
  · rw [h, h]
  · rw [h]
    rfl
  · rw [h]
    rfl

theorem freeDesc_undo (hi : i < NUM) (hfree : s.disk.free i = true) :
    freeDesc (s.setFree i false) i = .ok ((s.setDesc i .cleared).wakeup .free) := by
  rw [freeDesc_eq_ok]
  refine ⟨hi, by simp [Sys.setFree], ?_⟩
  have hself := setFree_self (s := s.setDesc i .cleared) hfree
  rw [← hself]
  simp [Sys.setFree, Sys.setDesc]

/-- **`alloc3_desc`** gives three free descriptors, or none and changes nothing that matters. -/
theorem alloc3Desc_spec (s : Sys τ β δ) :
    (∃ c s', alloc3Desc s = .ok (some c, s') ∧ Given s c s') ∨ ∃ s', alloc3Desc s = .ok (none, s') ∧ Undone s s' := by
  unfold alloc3Desc
  cases h0 : allocDesc s with
  | none => exact .inr ⟨s, rfl, ⟨s.disk.desc, fun _ _ => rfl, .inl rfl⟩⟩
  | some x =>
    obtain ⟨i0, s1⟩ := x
    obtain ⟨hi0, hf0, rfl⟩ := allocDesc_eq_some h0
    simp only
    cases h1 : allocDesc (s.setFree i0 false) with
    | none =>
      simp only [freeDesc_undo hi0 hf0, Outcome.bind_ok]
      refine .inr ⟨_, rfl, ⟨_, fun i hi => ?_, .inr rfl⟩⟩
      have hne : i ≠ i0 := by
        rintro rfl
        rw [hf0] at hi
        cases hi
      simp [update_of_ne hne]
    | some x =>
      obtain ⟨i1, s2⟩ := x
      obtain ⟨hi1, hf1, rfl⟩ := allocDesc_eq_some h1
      have h10 : i1 ≠ i0 := by
        rintro rfl
        simp [Sys.setFree] at hf1
      have hf1' : s.disk.free i1 = true := by simpa [Sys.setFree, update_of_ne h10] using hf1
      simp only
      cases h2 : allocDesc ((s.setFree i0 false).setFree i1 false) with
      | none =>
        have hu0 := freeDesc_undo (s := s.setFree i1 false) (i := i0) hi0
          (by simpa [Sys.setFree, update_of_ne (Ne.symm h10)] using hf0)
        have hu1 := freeDesc_undo (s := (s.setDesc i0 .cleared).wakeup .free) hi1 hf1'
        rw [setFree_comm (Ne.symm h10)]
        simp only [hu0, Outcome.bind_ok]
        refine .inr ⟨_, congrArg (fun x => Outcome.bind x _) hu1,
          ⟨update (update s.disk.desc i0 .cleared) i1 .cleared, fun i hi => ?_, .inr ?_⟩⟩
        · have hne0 : i ≠ i0 := by
            rintro rfl
            rw [hf0] at hi
            cases hi
          have hne1 : i ≠ i1 := by
            rintro rfl
            rw [hf1'] at hi
            cases hi
          rw [update_of_ne hne1, update_of_ne hne0]
        · simp only [Sys.wakeup, Sys.setDesc, Pc.woken_woken]
      | some x =>
        obtain ⟨i2, s3⟩ := x
        obtain ⟨hi2, hf2, rfl⟩ := allocDesc_eq_some h2
        have h21 : i2 ≠ i1 := by
          rintro rfl
          simp [Sys.setFree] at hf2
        have h20 : i2 ≠ i0 := by
          rintro rfl
          simp [Sys.setFree, update_of_ne h21] at hf2
        have hf2' : s.disk.free i2 = true := by
          simpa [Sys.setFree, update_of_ne h21, update_of_ne h20] using hf2
        refine .inl ⟨_, _, rfl, ?_, ?_, ?_, ?_⟩
        · simp [Idx.list, Ne.symm h10, Ne.symm h20, Ne.symm h21]
        · simp [Idx.list, hi0, hi1, hi2]
        · simp [Idx.list, hf0, hf1', hf2']
        have hfree : update (update (update s.disk.free i0 false) i1 false) i2 false =
            fun i => if i ∈ (Idx.mk i0 i1 i2).list then false else s.disk.free i := by
          funext i
          simp only [update_apply, Idx.list, List.mem_cons, List.not_mem_nil, or_false]
          grind
        simp only [Sys.setFree, hfree]

end Xv6Riscv.Virtio
