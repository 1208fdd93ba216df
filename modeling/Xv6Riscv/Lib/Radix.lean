import Mathlib.Data.Option.Basic
import Mathlib.Tactic.SplitIfs

/-!
# Radix trees laid out in pages

A tree of pages: the page `p` has below its index `i` the page `child p i`, or none. `node` follows a path of
indices from the root, the last one first. In a tree different paths lead to different pages; then an
operation that changes one entry of one page changes the path through that entry and no other.
-/
namespace Xv6Riscv.Radix

variable {P I : Type*} {child child' : P → I → Option P} {root p q : P} {i : I} {depth : Nat} {path path' : List I}

/-- The page at the end of a path. -/
def node (child : P → I → Option P) (root : P) : List I → Option P
  | [] => some root
  | i :: path => (node child root path).bind fun p => child p i

@[simp] theorem node_nil : node child root [] = some root := rfl

@[simp] theorem node_cons : node child root (i :: path) = (node child root path).bind fun p => child p i := rfl

theorem node_cons_of (h : node child root path = some p) : node child root (i :: path) = child p i := by simp [h]

theorem node_tail (h : node child root (i :: path) = some p) :
    ∃ q, node child root path = some q ∧ child q i = some p :=
  Option.bind_eq_some_iff.1 h

/-- Down to `depth`, different paths lead to different pages. -/
def Tree (child : P → I → Option P) (root : P) (depth : Nat) : Prop :=
  ∀ path path' p, path.length ≤ depth → path'.length ≤ depth → node child root path = some p →
    node child root path' = some p → path = path'

theorem node_congr (h : ∀ path p, path.length < depth → node child root path = some p → child' p = child p) :
    ∀ path, path.length ≤ depth → node child' root path = node child root path := by
  intro path
  induction path with
  | nil => simp
  | cons i path ih =>
    intro hlen
    rw [List.length_cons] at hlen
    have hpath := ih (by omega)
    rw [node_cons, node_cons, hpath]
    cases hp : node child root path with
    | none => rfl
    | some p => simp [h path p (by omega) hp]

theorem Tree.congr (ht : Tree child root depth)
    (h : ∀ path p, path.length < depth → node child root path = some p → child' p = child p) :
    Tree child' root depth := by
  intro path path' p hlen hlen' hp hp'
  rw [node_congr h path hlen] at hp
  rw [node_congr h path' hlen'] at hp'
  exact ht path path' p hlen hlen' hp hp'

/-- The page `q` is hung below the index `i` of the page `p`, which had none there. -/
structure Hangs (child child' : P → I → Option P) (root : P) (depth : Nat) (p : P) (i : I) (q : P) : Prop where
  before : child p i = none
  after : child' p i = some q
  bare : ∀ j, child' q j = none
  row : ∀ j, j ≠ i → child' p j = child p j
  others : ∀ path r, path.length < depth → node child root path = some r → r ≠ p → r ≠ q → child' r = child r

section
variable (ht : Tree child root depth) (h : Hangs child child' root depth p i q) (hp : node child root path = some p)
  (hlen : path.length < depth) (hq : ∀ path', path'.length ≤ depth → node child root path' ≠ some q)
include ht h hp hlen hq

/-- A page that is new to the tree comes in at one path, and the other paths stay. -/
theorem node_hang [DecidableEq I] :
    ∀ path', path'.length ≤ depth →
      node child' root path' = if path' = i :: path then some q else node child root path' := by
  intro path'
  induction path' with
  | nil => simp
  | cons j path' ih =>
    intro hlen'
    rw [List.length_cons] at hlen'
    rw [node_cons, ih (by omega)]
    by_cases hnew : path' = i :: path
    · -- below the new page there is nothing, and there was nothing before
      subst hnew
      have hne : j :: i :: path ≠ i :: path := fun he => by simpa using congrArg List.length he
      have hnone : node child root (j :: i :: path) = none := by
        rw [node_cons, node_cons_of hp, h.before]
        rfl
      rw [if_pos rfl, if_neg hne, hnone]
      exact h.bare j
    rw [if_neg hnew]
    cases hr : node child root path' with
    | none =>
      have hne : j :: path' ≠ i :: path := by
        rintro ⟨⟩
        rw [hr] at hp
        cases hp
      simp [hr, hne]
    | some r =>
      have hrq : r ≠ q := by
        rintro rfl
        exact hq path' (by omega) hr
      rw [node_cons_of hr]
      change child' r j = _
      by_cases hrp : r = p
      · subst hrp
        have hpath : path' = path := ht path' path r (by omega) (by omega) hr hp
        subst hpath
        by_cases hj : j = i
        · subst hj
          simp [h.after]
        · simp [hj, h.row j hj]
      · have hne : j :: path' ≠ i :: path := by
          rintro ⟨⟩
          rw [hr] at hp
          exact hrp (Option.some.inj hp)
        rw [if_neg hne, h.others path' r (by omega) hr hrp hrq]

theorem Tree.hang [DecidableEq I] : Tree child' root depth := by
  intro a b r ha hb har hbr
  rw [node_hang ht h hp hlen hq a ha] at har
  rw [node_hang ht h hp hlen hq b hb] at hbr
  split_ifs at har hbr with h1 h2 h2
  · rw [h1, h2]
  · cases har
    exact absurd hbr (hq b hb)
  · cases hbr
    exact absurd har (hq a ha)
  · exact ht a b r ha hb har hbr

end

end Xv6Riscv.Radix
