import Xv6Riscv.Alarm.Model
import Xv6Riscv.Lib.Count

/-!
# Pages have one owner

`owners s a` counts who refers to page `a`: the free list, the rest of the kernel, and the slots
(as a trapframe or as a saved context, also a stale one that `freeproc` left behind). No event ever
gives a page a second owner, so a saved context stays intact while its handler runs.
-/
namespace Xv6Riscv.Alarm
open Machine Finset

/-- One pointer counted as a reference to page `a`. -/
def ref (x a : Nat) : Nat := if x = a then 1 else 0

/-- What one slot refers to. -/
def slotOwns (q : Proc) (a : Nat) : Nat := ref q.trapframe a + ref q.alarmContext a

def owners (s : Sys) (a : Nat) : Nat :=
  s.freelist.count a + s.held.count a + ∑ c ∈ range NPROC, slotOwns (s.proc c) a

structure Inv (s : Sys) : Prop where
  unique : ∀ a, a ≠ 0 → owners s a ≤ 1
  nonnull : 0 ∉ s.freelist ∧ 0 ∉ s.held
  trapframe : ∀ c < NPROC, (s.proc c).state ≠ .unused → (s.proc c).trapframe ≠ 0
  gen : ∀ c < NPROC, (s.proc c).state ≠ .unused → (s.proc c).gen < s.births
  gen_inj : ∀ c < NPROC, ∀ d < NPROC, (s.proc c).state ≠ .unused → (s.proc d).state ≠ .unused →
    (s.proc c).gen = (s.proc d).gen → c = d

/-! ## Small lemmas -/

section
variable (s : Sys) (p q a b : Nat) (f : Proc → Proc) (t : Trapframe)

@[simp] theorem setProc_self : (s.setProc p f).proc p = f (s.proc p) := by simp [Sys.setProc]
theorem setProc_ne (h : q ≠ p) : (s.setProc p f).proc q = s.proc q := by simp [Sys.setProc, h]
@[simp] theorem setProc_page : (s.setProc p f).page = s.page := rfl
@[simp] theorem setProc_freelist : (s.setProc p f).freelist = s.freelist := rfl
@[simp] theorem setProc_held : (s.setProc p f).held = s.held := rfl
@[simp] theorem setProc_births : (s.setProc p f).births = s.births := rfl
@[simp] theorem setProc_last : (s.setProc p f).last = s.last := rfl
@[simp] theorem setPage_self : (s.setPage a t).page a = t := by simp [Sys.setPage]
theorem setPage_ne (h : b ≠ a) : (s.setPage a t).page b = s.page b := by simp [Sys.setPage, h]
@[simp] theorem setPage_proc : (s.setPage a t).proc = s.proc := rfl
@[simp] theorem setPage_freelist : (s.setPage a t).freelist = s.freelist := rfl
@[simp] theorem setPage_held : (s.setPage a t).held = s.held := rfl
@[simp] theorem setPage_births : (s.setPage a t).births = s.births := rfl
@[simp] theorem setPage_last : (s.setPage a t).last = s.last := rfl
@[simp] theorem setTf_proc : (s.setTf p t).proc = s.proc := rfl
@[simp] theorem setTf_freelist : (s.setTf p t).freelist = s.freelist := rfl
@[simp] theorem setTf_held : (s.setTf p t).held = s.held := rfl
@[simp] theorem setTf_births : (s.setTf p t).births = s.births := rfl
@[simp] theorem setTf_last : (s.setTf p t).last = s.last := rfl
@[simp] theorem setTf_tf : (s.setTf p t).tf p = t := by simp [Sys.tf, Sys.setTf]

@[simp] theorem popped_proc (as : List Nat) : (popped s a as).proc = s.proc := rfl
@[simp] theorem pushed_proc : (pushed s a).proc = s.proc := rfl
theorem claimed_ne (h : q ≠ p) : (claimed s p).proc q = s.proc q := setProc_ne _ _ _ _ h

@[simp] theorem owners_setPage : owners (s.setPage a t) b = owners s b := rfl
@[simp] theorem owners_setTf : owners (s.setTf p t) b = owners s b := rfl

theorem owners_setProc {x y : Nat} (hp : p < NPROC) (hx : (f (s.proc p)).trapframe = x)
    (hy : (f (s.proc p)).alarmContext = y) :
    owners (s.setProc p f) a + (ref (s.proc p).trapframe a + ref (s.proc p).alarmContext a) =
      owners s a + (ref x a + ref y a) := by
  have := Count.sum_update (range NPROC) s.proc (slotOwns · a) (mem_range.2 hp) (f (s.proc p))
  subst hx hy
  simp only [owners, Sys.setProc, slotOwns] at this ⊢
  omega

theorem owners_setProc_eq (ht : (f (s.proc p)).trapframe = (s.proc p).trapframe)
    (hc : (f (s.proc p)).alarmContext = (s.proc p).alarmContext) : owners (s.setProc p f) a = owners s a := by
  by_cases hp : p < NPROC
  · have := owners_setProc s p a f hp ht hc
    omega
  · simp only [owners, Sys.setProc]
    rw [Count.sum_update_of_not_mem _ _ (slotOwns · a) (by simpa using hp)]

theorem slotOwns_le_owners (hp : p < NPROC) : slotOwns (s.proc p) a ≤ owners s a := by
  have := Count.le_sum (range NPROC) (fun c => slotOwns (s.proc c) a) (mem_range.2 hp)
  simp only [owners]
  omega

end

theorem Inv.ne_of_slots {s : Sys} (h : Inv s) {p q a b : Nat} (hp : p < NPROC) (hq : q < NPROC)
    (hne : p ≠ q) (ha : 0 < slotOwns (s.proc p) a) (hb : 0 < slotOwns (s.proc q) b) (h0 : a ≠ 0) : a ≠ b := by
  rintro rfl
  have h1 := h.unique a h0
  have h2 := Count.add_le_sum (range NPROC) (fun c => slotOwns (s.proc c) a) (mem_range.2 hp)
    (mem_range.2 hq) hne
  simp only [owners] at h1
  omega

theorem Inv.not_mem_freelist {s : Sys} (h : Inv s) {p a : Nat} (hp : p < NPROC)
    (ha : 0 < slotOwns (s.proc p) a) (h0 : a ≠ 0) : a ∉ s.freelist ∧ a ∉ s.held := by
  have h1 := h.unique a h0
  have h2 := Count.le_sum (range NPROC) (fun c => slotOwns (s.proc c) a) (mem_range.2 hp)
  simp only [owners] at h1
  constructor
  · intro hm
    have := List.count_pos_iff.2 hm
    omega
  · intro hm
    have := List.count_pos_iff.2 hm
    omega

theorem slotOwns_ctx {q : Proc} : 0 < slotOwns q q.alarmContext := by simp [slotOwns, ref]
theorem slotOwns_tf {q : Proc} : 0 < slotOwns q q.trapframe := by simp [slotOwns, ref]

end Xv6Riscv.Alarm
