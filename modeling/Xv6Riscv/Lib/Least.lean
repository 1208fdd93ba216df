import Mathlib.Order.Lattice

/-!
# The least element of a scan

A loop over `0, 1, ..` keeps one index of those that satisfy `P`, the one with the smallest key.
-/
namespace Xv6Riscv.Scan

variable {β : Type*} [LinearOrder β] {P : Nat → Prop} {key : Nat → β} {n p : Nat}

/-- Of the indices below `n` with `P`, `p` has the smallest key. -/
structure Least (P : Nat → Prop) (key : Nat → β) (n p : Nat) : Prop where
  lt : p < n
  sat : P p
  least : ∀ q < n, P q → q ≠ p → key p < key q

namespace Least

theorem skip (h : Least P key n p) (hn : ¬ P n) : Least P key (n + 1) p where
  lt := Nat.lt_succ_of_lt h.lt
  sat := h.sat
  least q hq hPq hne := by
    rcases Nat.lt_succ_iff_lt_or_eq.1 hq with hq | rfl
    · exact h.least q hq hPq hne
    · exact absurd hPq hn

theorem keep (h : Least P key n p) (hn : key p < key n) : Least P key (n + 1) p where
  lt := Nat.lt_succ_of_lt h.lt
  sat := h.sat
  least q hq hPq hne := by
    rcases Nat.lt_succ_iff_lt_or_eq.1 hq with hq | rfl
    · exact h.least q hq hPq hne
    · exact hn

theorem take (h : Least P key n p) (hP : P n) (hn : key n < key p) : Least P key (n + 1) n where
  lt := Nat.lt_succ_self n
  sat := hP
  least q hq hPq hne := by
    have hq := Nat.lt_of_le_of_ne (Nat.lt_succ_iff.1 hq) hne
    by_cases hqp : q = p
    · exact hqp ▸ hn
    · exact hn.trans (h.least q hq hPq hqp)

theorem first (h : ∀ q < n, ¬ P q) (hP : P n) : Least P key (n + 1) n where
  lt := Nat.lt_succ_self n
  sat := hP
  least q hq hPq hne := absurd hPq (h q (Nat.lt_of_le_of_ne (Nat.lt_succ_iff.1 hq) hne))

end Least

end Xv6Riscv.Scan
