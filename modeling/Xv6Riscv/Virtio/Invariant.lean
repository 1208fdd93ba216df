import Mathlib.Data.List.Nodup
import Xv6Riscv.Lib.Owners
import Xv6Riscv.Virtio.Chains

/-!
# The virtio disk: the invariant

A head that was published is in one of four places until its request is handled: in the available ring, with the
device and not performed, with the device and performed, or in the used ring (`Flight`). These are the heads of the
threads that wait for a buffer with `b->disk` set. The histories of the requests follow from that (`Logs`). What a
thread in the middle of its call has already written is still there (`Good`): the descriptors are its own.
-/
namespace Xv6Riscv.Virtio
open Machine Mutex Owners RingBuffer

variable {τ β δ : Type} {s s' : Sys τ β δ} {t u : τ} {pc : Pc β} {r : Rw β} {c : Idx} {i : Nat} {pend used : List Nat}

/-- The chain of a request, as the device finds it. -/
structure Formatted (d : Disk β) (r : Rw β) (c : Idx) : Prop where
  op : d.ops c.i0 = r.op
  first : d.desc c.i0 = Rw.first c
  second : d.desc c.i1 = r.second c
  third : d.desc c.i2 = Rw.third c

/-- What a thread at this place has written. -/
def Good (d : Disk β) (owned : β → Bool) : Pc β → Prop
  | .rwSecond r c => d.ops c.i0 = r.op ∧ d.desc c.i0 = Rw.first c
  | .rwThird r c => d.ops c.i0 = r.op ∧ d.desc c.i0 = Rw.first c ∧ d.desc c.i1 = r.second c
  | .rwRecord r c => Formatted d r c
  | .rwRing r c => Formatted d r c ∧ (d.info c.i0).b = some r.b ∧ owned r.b = true
  | .rwNotify r c => (Formatted d r c ∧ (d.info c.i0).b = some r.b ∧ owned r.b = true) ∧
      d.avail.ring (slot d.avail.idx) = BitVec.ofNat 16 c.i0
  | .rwWait r c | .rwSleep r c | .rwWoken r c => Formatted d r c ∧ (d.info c.i0).b = some r.b
  | .rwClear r c => Formatted d r c
  | .rwFree r c i => (i = c.i0 → d.desc c.i0 = Rw.first c) ∧ (i = c.i0 ∨ i = c.i1 → d.desc c.i1 = r.second c) ∧
      d.desc c.i2 = Rw.third c ∧ (i = c.i0 ∨ i = c.i1 ∨ i = c.i2) ∧ c.list.Nodup ∧ ∀ j ∈ c.list, j < NUM
  | _ => True

/-- The heads that are on their way: `pend` are in the available ring, and `used` in the used ring. -/
structure Flight (s : Sys τ β δ) (pend used : List Nat) : Prop where
  availRing : Queued s.disk.avail.ring s.availSeen s.disk.avail.idx (pend.map (BitVec.ofNat 16))
  usedRing : Queued s.disk.used.ring s.disk.usedIdx s.disk.used.idx (used.map (BitVec.ofNat 32))
  nodup : (pend ++ s.taken ++ s.performed ++ used).Nodup
  mem : ∀ h, h ∈ pend ++ s.taken ++ s.performed ++ used ↔
    ∃ t r c, (s.pc t).waits = some (r, c) ∧ c.i0 = h ∧ s.owned r.b = true
  status : ∀ h ∈ s.performed ++ used, (s.disk.info h).status = 0
  begun : s.published = s.begun ++ pend.filterMap s.request
  handled : s.appended = s.handled ++ used.filterMap s.request
  handling : ∀ t, s.pc t = .intrHandle → used ≠ []

/-- The calls that were published are those begun, but for calls that are not so far; those that were handled are
the ones published, but for those that are on their way. -/
structure Logs (s : Sys τ β δ) : Prop where
  request : ∀ t r c, (s.pc t).waits = some (r, c) → s.request c.i0 = some (t, s.calls t)
  calling : ∀ t r, (s.pc t).req? = some r → 1 ≤ s.calls t
  published : ∀ t k, (t, k) ∈ s.published ↔ 1 ≤ k ∧ k ≤ s.calls t ∧ ¬ (k = s.calls t ∧ (s.pc t).fresh = true)
  publishedNodup : s.published.Nodup
  handled : ∀ t k, (t, k) ∈ s.handled ↔
    (t, k) ∈ s.published ∧ ¬ (k = s.calls t ∧ ∃ r c, (s.pc t).waits = some (r, c) ∧ s.owned r.b = true)
  handledNodup : s.handled.Nodup

structure Inv (s : Sys τ β δ) : Prop where
  locked : Excl s.lock fun t => (s.pc t).holds
  chains : Owned NUM s.disk.free fun t => (s.pc t).chain
  goods : ∀ t, Good s.disk s.owned (s.pc t)
  bufs : ∀ t u r r', (s.pc t).req? = some r → (s.pc u).req? = some r' → r.b = r'.b → u = t
  flight : ∃ pend used, Flight s pend used
  logs : Logs s

/-! ## Frames -/

variable {d d' : Disk β} {owned : β → Bool}

section
variable (h : Good d owned pc)
include h

theorem Good.frame {owned' : β → Bool} (hout : pc.holds = false)
    (hdesc : ∀ i ∈ pc.chain, d'.desc i = d.desc i) (hops : ∀ i ∈ pc.chain, d'.ops i = d.ops i)
    (hinfo : ∀ i ∈ pc.chain, (d'.info i).b = (d.info i).b) : Good d' owned' pc := by
  have key : ∀ (r : Rw β) (c : Idx), pc.chain = c.list → Formatted d r c ∧ (d.info c.i0).b = some r.b →
      Formatted d' r c ∧ (d'.info c.i0).b = some r.b := by
    rintro r c hc ⟨hf, hb⟩
    have h0 : c.i0 ∈ pc.chain := by simp [hc, Idx.list]
    have h1 : c.i1 ∈ pc.chain := by simp [hc, Idx.list]
    have h2 : c.i2 ∈ pc.chain := by simp [hc, Idx.list]
    exact ⟨⟨by rw [hops _ h0, hf.op], by rw [hdesc _ h0, hf.first], by rw [hdesc _ h1, hf.second],
      by rw [hdesc _ h2, hf.third]⟩, by rw [hinfo _ h0, hb]⟩
  cases pc with
  | rwSleep r c => exact key r c rfl h
  | rwWoken r c => exact key r c rfl h
  | idle | rwEntry r | rwAllocSleep r | rwAllocWoken r | intrEntry => trivial
  | _ => cases hout

theorem Good.congr (hdesc : d'.desc = d.desc) (hops : d'.ops = d.ops)
    (havail : d'.avail = d.avail) (hinfo : ∀ i, (d'.info i).b = (d.info i).b) : Good d' owned pc := by
  have key : ∀ {r : Rw β} {c : Idx}, Formatted d r c → Formatted d' r c := fun hf =>
    ⟨by rw [hops, hf.op], by rw [hdesc, hf.first], by rw [hdesc, hf.second], by rw [hdesc, hf.third]⟩
  cases pc with
  | rwRecord r c => exact key h
  | rwRing r c => exact ⟨key h.1, by rw [hinfo, h.2.1], h.2.2⟩
  | rwNotify r c => exact ⟨⟨key h.1.1, by rw [hinfo, h.1.2.1], h.1.2.2⟩, by rw [havail, h.2]⟩
  | rwWait r c | rwSleep r c | rwWoken r c => exact ⟨key h.1, by rw [hinfo, h.2]⟩
  | rwClear r c => exact key h
  | rwSecond r c => exact ⟨by rw [hops, h.1], by rw [hdesc, h.2]⟩
  | rwThird r c => exact ⟨by rw [hops, h.1], by rw [hdesc, h.2.1], by rw [hdesc, h.2.2]⟩
  | rwFree r c i =>
    simp only [Good, hdesc]
    exact h
  | _ => trivial

theorem good_woken [DecidableEq β] {ch : Chan β} : Good d owned (pc.woken ch) := by
  rcases Pc.woken_cases ch pc with hw | ⟨r, rfl, hw⟩ | ⟨r, c, rfl, hw⟩
  · rwa [hw]
  · rw [hw]
    trivial
  · rw [hw]
    exact h

theorem good_killed : Good d owned pc.killed := by
  cases pc <;> exact h

end

theorem Flight.owner (h : Flight s pend used) {i : Nat} (hi : i ∈ pend ++ s.taken ++ s.performed ++ used) :
    ∃ t r c, (s.pc t).waits = some (r, c) ∧ c.i0 = i ∧ s.owned r.b = true := (h.mem i).1 hi

section
variable (h : pc.waits = some (r, c))
include h

theorem Pc.chain_of_waits : pc.chain = c.list := by
  cases pc <;> cases h <;> rfl

theorem Pc.rw_of_waits : pc.req? = some r := by
  cases pc <;> cases h <;> rfl

theorem head_mem_chain : c.i0 ∈ pc.chain := by
  rw [Pc.chain_of_waits h]
  simp [Idx.list]

end

theorem Inv.formatted (h : Inv s) (hw : (s.pc u).waits = some (r, c)) :
    Formatted s.disk r c ∧ (s.disk.info c.i0).b = some r.b := by
  have hg := h.goods u
  cases hp : s.pc u <;> rw [hp] at hw hg <;> cases hw <;> exact hg

variable {l : Option τ} {f : τ → Pc β}

theorem Flight.pcs (h : Flight s pend used)
    (hw : ∀ u, (f u).waits = (s.pc u).waits) (hh : ∀ u, f u = .intrHandle → used ≠ []) :
    Flight { s with lock := l, pc := f } pend used := by
  refine { h with mem := fun head => ?_, handling := hh }
  simp only [hw]
  exact h.mem head

theorem Logs.pcs (h : Logs s) (hsame : ∀ u, Pc.Alike (s.pc u) (f u)) : Logs { s with lock := l, pc := f } := by
  refine { h with
    request := fun t r c hw => h.request t r c ?_, calling := fun t r hr => h.calling t r ((hsame t).rw r hr)
    published := fun t k => ?_, handled := fun t k => ?_ }
  · rwa [(hsame t).waits] at hw
  · simp only [(hsame t).fresh]
    exact h.published t k
  · simp only [(hsame t).waits]
    exact h.handled t k

/-- **Threads move** to places where they have the same, and the lock changes hands. -/
theorem Inv.move (h : Inv s) (hlock : Excl l fun u => (f u).holds)
    (hsame : ∀ u, Pc.Same (s.pc u) (f u)) (hgood : ∀ u, Good s.disk s.owned (f u))
    (hh : ∀ u, f u = .intrHandle → s.pc u = .intrHandle ∨ s.disk.usedIdx ≠ s.disk.used.idx) :
    Inv { s with lock := l, pc := f } where
  locked := hlock
  chains := by
    have hchain : (fun u => (f u).chain) = fun u => (s.pc u).chain := funext fun u => (hsame u).chain
    simp only [hchain]
    exact h.chains
  goods := hgood
  bufs t u r r' ht hu := h.bufs t u r r' ((hsame t).rw r ht) ((hsame u).rw r' hu)
  flight := by
    obtain ⟨pend, used, hf⟩ := h.flight
    refine ⟨pend, used, hf.pcs (fun u => (hsame u).waits) fun u hu hnil => ?_⟩
    rcases hh u hu with hold | hne
    · exact hf.handling u hold hnil
    · have heq := hf.usedRing
      rw [hnil] at heq
      exact hne ((heq.eq_nil_iff (by decide)).2 rfl)
  logs := h.logs.pcs fun u => (hsame u).toAlike

end Xv6Riscv.Virtio
