import Xv6Riscv.Proc.Sleep

/-!
# The locks of the process table do not deadlock

No thread waits for a lock while it has a `p->lock`, and with `wait_lock` it waits for a `p->lock` only.
-/
namespace Xv6Riscv.Proc
open Machine
variable {s : Sys} {pol : Policy} {c p : Nat}

/-- CPU `c` can take its next step. -/
def Goes (pol : Policy) (s : Sys) (c : Nat) : Prop :=
  (step s pol (.sched c 0)).isOk = true ∨ (step s pol (.thread c (.next true))).isOk = true

theorem Kernel.lock_goes (h : Kernel s) (hc : c < NCPU) (hl : s.plock p = some c) : Goes pol s c := by
  rcases h.table.lock p c hl with hr | hr | hr
  · have hh := h.table.here c p hr
    refine .inr ?_
    simp only [step, hr, threadStep]
    cases hsw : s.sw p with
    | on =>
      -- between `acquire(&p->lock)` and `sched` a thread is not in `wakeup`
      have hwake : s.wake p = none := by
        by_contra hw
        have := h.lives.wake p hw
        cases hpc : s.pc p <;> simp_all [Here, Pc.window, Pc.wakes]
      simp only [hwake, pcStep]
      cases hpc : s.pc p <;> simp_all [Here, Pc.window, Outcome.isOk]
    | out => rfl
    | off =>
      rw [hsw] at hh
      exact hh.elim
    | back =>
      -- RUNNING, so it is not a process that has called `exit`
      rw [hsw] at hh
      have hlive := h.lives.live p (by rw [hh.2]; trivial)
      simp only [resume]
      cases hpc : s.pc p <;> simp_all [Outcome.isOk, Pc.dead]
  · exact .inl (by simp [step, hc, schedStep, hr, Outcome.isOk])
  · exact .inl (by simp [step, hc, schedStep, hr, Outcome.isOk])

theorem Kernel.wait_goes (h : Kernel s) {x : Hold} (hx : x ∈ s.locks) (hlk : x.lk = .wait) (ho : x.owner = .cpu c)
    (hfree : ∀ i, s.plock i = none) : Goes pol s c := by
  obtain ⟨p, ⟨hc, hsw⟩, hk⟩ := h.locks.owner x hx c ho
  rw [hlk] at hk
  have hn : (s.pc p).needs = some .wait := hk.resolve_left fun hcode => hcode.2 rfl
  refine .inr ?_
  simp only [step, hc, threadStep, hsw]
  cases hw : s.wake p with
  | some w =>
    simp only [wakeup, hfree, if_true]
    split_ifs <;> rfl
  | none =>
    simp only [pcStep]
    cases hpc : s.pc p with
    | exitUnlock | sleepUnlock => rfl
    | exitZombie | sleepLock =>
      simp only [exitZombie, hfree, if_true]
      rfl
    | exitReparent | waitScan | waitKids =>
      simp only [exitReparent, waitScan, waitKids, hfree, if_true, ne_eq, not_true, and_false, if_false]
      split_ifs <;> rfl
    | _ =>
      rw [hpc] at hn
      cases hn

/-- **No deadlock over the locks of the process table.** In every state reached the CPU that has a `p->lock` can take
its next step, and so can the CPU that has `wait_lock` when no `p->lock` is held. -/
theorem locks_progress (h : Reached pol s) : (∀ p, ∀ c < NCPU, s.plock p = some c → Goes pol s c) ∧
    ∀ x ∈ s.locks, ∀ c, x.lk = .wait → x.owner = .cpu c → (∀ p, s.plock p = none) → Goes pol s c :=
  ⟨fun _ _ hc hl => h.kernel.lock_goes hc hl, fun _ hx _ hlk ho hfree => h.kernel.wait_goes hx hlk ho hfree⟩

theorem locks_progress_dispatched :
    let s := after (fun s e => step s .other e) boot [.sched 0 0, .sched 0 0]
    s.plock initproc = some 0 ∧ Goes .other s 0 :=
  ⟨by decide +kernel, (locks_progress (Reach.of_checked _ (.init rfl) (by decide +kernel))).1 initproc 0 (by decide)
    (by decide +kernel)⟩

end Xv6Riscv.Proc
