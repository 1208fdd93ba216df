import Xv6Riscv.Lib.Tally
import Xv6Riscv.Vm.Model

/-!
# What a page table holds

The pages that hang on a page table are of three kinds. Its directories and the user pages that are not
copy-on-write belong to it alone (`own`). A copy-on-write entry is one of possibly many references to its
page (`shared`). The entries for the trampoline and the trapframe, above the user memory, hold nothing.
-/
namespace Xv6Riscv.Vm
open Tally

/-- What the entry `pte` of page `i` owns, and what it refers to. -/
def ownPte (i : Nat) (pte : Pte) : Multiset Frame := if i < TRAPFRAME ∧ pte.perm.cow = false then {pte.pa} else 0
def refPte (i : Nat) (pte : Pte) : Multiset Frame := if i < TRAPFRAME ∧ pte.perm.cow = true then {pte.pa} else 0

def Dir.pages (d : Dir) : Multiset Frame := d.page ::ₘ total (fun _ f => {f}) d.subs

namespace Table

def dirPages (T : Table) : Multiset Frame := total (fun _ d => d.pages) T.dirs
def own (T : Table) : Multiset Frame := T.dirPages + total ownPte T.ptes
def shared (T : Table) : Multiset Frame := total refPte T.ptes

variable {T : Table} {i j : Nat} {pte : Pte} {f : Frame}

/-! ## Entries -/

theorem reaches_of_get (h : T.get i = some pte) : reaches T.dirs i = true :=
  T.hung i (AList.lookup_isSome.1 (by rw [show T.ptes.lookup i = some pte from h]; rfl))

theorem slot_of_get (h : T.get i = some pte) : T.slot i = some (some pte) := by
  rw [slot, if_pos (reaches_of_get h), h]

@[simp] theorem dirs_setPte (T : Table) (i : Nat) (pte : Pte) : (T.setPte i pte).dirs = T.dirs := by
  unfold setPte
  split <;> rfl

@[simp] theorem dirs_clearPte (T : Table) (i : Nat) : (T.clearPte i).dirs = T.dirs := rfl

theorem get_setPte (h : reaches T.dirs i = true) (pte : Pte) (j : Nat) :
    (T.setPte i pte).get j = if j = i then some pte else T.get j := by
  rw [setPte, dif_pos h]
  split_ifs with hj
  · subst hj
    exact AList.lookup_insert _
  · exact AList.lookup_insert_ne hj

theorem get_clearPte (T : Table) (i j : Nat) : (T.clearPte i).get j = if j = i then none else T.get j := by
  split_ifs with hj
  · subst hj
    exact AList.lookup_erase _ _
  · exact AList.lookup_erase_ne hj

theorem clearPte_of_get_none (h : T.get i = none) : T.clearPte i = T := by
  have hp : T.ptes.erase i = T.ptes := erase_of_notMem (AList.lookup_eq_none.1 h)
  unfold clearPte
  congr

theorem clearPte_setPte (h : reaches T.dirs i = true) (pte : Pte) : (T.setPte i pte).clearPte i = T.clearPte i := by
  rw [setPte, dif_pos h]
  have hp : (T.ptes.insert i pte).erase i = T.ptes.erase i := by
    simp [AList.erase, AList.entries_insert]
  unfold clearPte
  congr

/-! ## Pages -/

@[simp] theorem own_empty : Table.empty.own = 0 := rfl
@[simp] theorem shared_empty : Table.empty.shared = 0 := rfl
@[simp] theorem get_empty (i : Nat) : Table.empty.get i = none := rfl

theorem own_clear (h : T.get i = some pte) : T.own = ownPte i pte + (T.clearPte i).own := by
  unfold own
  rw [total_erase ownPte h, add_left_comm]
  rfl

theorem shared_clear (h : T.get i = some pte) : T.shared = refPte i pte + (T.clearPte i).shared :=
  total_erase refPte h

section
variable (h : reaches T.dirs i = true)
include h

theorem own_setPte (pte : Pte) : (T.setPte i pte).own = ownPte i pte + (T.clearPte i).own := by
  have hget : (T.setPte i pte).get i = some pte := by rw [get_setPte h, if_pos rfl]
  rw [own_clear hget, clearPte_setPte h]

theorem shared_setPte (pte : Pte) : (T.setPte i pte).shared = refPte i pte + (T.clearPte i).shared := by
  have hget : (T.setPte i pte).get i = some pte := by rw [get_setPte h, if_pos rfl]
  rw [shared_clear hget, clearPte_setPte h]

theorem own_setPte_new (hn : T.get i = none) (pte : Pte) : (T.setPte i pte).own = ownPte i pte + T.own := by
  rw [own_setPte h, clearPte_of_get_none hn]

theorem shared_setPte_new (hn : T.get i = none) (pte : Pte) : (T.setPte i pte).shared = refPte i pte + T.shared := by
  rw [shared_setPte h, clearPte_of_get_none hn]

end

/-! ## Directories -/

theorem own_addDir (h : T.dirs.lookup (px 2 i) = none) (f : Frame) : (T.addDir i f).own = f ::ₘ T.own := by
  have hk : px 2 i ∉ T.dirs := AList.lookup_eq_none.1 h
  rw [addDir, dif_pos h]
  simp only [own, dirPages, total_insert_of_notMem _ hk, Dir.pages, total_empty]
  simp [Multiset.cons_add]

section
variable (T : Table) (i : Nat) (f : Frame)

@[simp] theorem ptes_addDir : (T.addDir i f).ptes = T.ptes := by
  unfold addDir
  split <;> rfl

@[simp] theorem get_addDir (j : Nat) : (T.addDir i f).get j = T.get j := by
  simp [get]

@[simp] theorem shared_addDir : (T.addDir i f).shared = T.shared := by
  simp [shared]

end

variable {d : Dir}

section
variable (h : T.dirs.lookup (px 2 i) = some d)
include h

theorem addSub_eq (f : Frame) :
    (T.addSub i f).dirs = T.dirs.insert (px 2 i) { d with subs := d.subs.insert (px 1 i) f } ∧
      (T.addSub i f).ptes = T.ptes := by
  unfold addSub
  split
  · rename_i hn
    rw [h] at hn
    cases hn
  · rename_i d' hd
    rw [h] at hd
    cases hd
    exact ⟨rfl, rfl⟩

theorem own_addSub (hn : reaches T.dirs i = false) (f : Frame) :
    (T.addSub i f).own = f ::ₘ T.own := by
  obtain ⟨hd, hp⟩ := addSub_eq h f
  have hk : px 1 i ∉ d.subs := by simpa [reaches, h, AList.lookup_eq_none] using hn
  simp only [own, dirPages, hd, hp]
  rw [total_insert, total_erase _ h]
  simp only [Dir.pages, total_insert_of_notMem _ hk, Multiset.singleton_add, Multiset.cons_add]
  rw [Multiset.cons_swap]

theorem get_addSub (f : Frame) (j : Nat) : (T.addSub i f).get j = T.get j := by
  rw [get, (addSub_eq h f).2, get]

theorem shared_addSub (f : Frame) : (T.addSub i f).shared = T.shared := by
  rw [shared, (addSub_eq h f).2, shared]

theorem reaches_addSub_self (f : Frame) :
    reaches (T.addSub i f).dirs i = true := by
  rw [(addSub_eq h f).1]
  simp [reaches, AList.lookup_insert]

end

/-! ## The shape of an address space -/

/-- An entry that fits into an address space of `n` user pages: a user page lies among them, and a writable
one is not shared. -/
structure Fits (n i : Nat) (pte : Pte) : Prop where
  leaf : pte.perm.r = true
  user : pte.perm.u = true → i < n
  sole : pte.perm.w = true → pte.perm.cow = false

/-- The user pages are those below page `n`, no two of them the same, and the entries above them are those
of `S`. -/
structure Shape (T : Table) (n : Nat) (S : List Nat) : Prop where
  small : n ≤ TRAPFRAME
  above : ∀ i ∈ S, TRAPFRAME ≤ i
  dom : ∀ i, (T.get i).isSome = true ↔ i < n ∨ i ∈ S
  fits : ∀ i pte, T.get i = some pte → Fits n i pte
  inj : ∀ i j p q, i < n → j < n → T.get i = some p → T.get j = some q → p.pa = q.pa → i = j

namespace Shape

variable {n a : Nat} {S : List Nat} {T' : Table}

theorem perm_ne (h : T.Shape n S) (hget : T.get i = some pte) : pte.perm ≠ {} := by
  intro he
  have := (h.fits i pte hget).leaf
  rw [he] at this
  cases this

theorem get_none (h : T.Shape n S) (hn : n ≤ i) (hS : i ∉ S) : T.get i = none := by
  rw [← Option.not_isSome_iff_eq_none, h.dom]
  rintro (hi | hi)
  · omega
  · exact hS hi

theorem get_some (h : T.Shape n S) (hi : i < n ∨ i ∈ S) : ∃ pte, T.get i = some pte :=
  Option.isSome_iff_exists.1 ((h.dom i).2 hi)

theorem congr (h : T.Shape n S) (hget : ∀ j, T'.get j = T.get j) : T'.Shape n S where
  small := h.small
  above := h.above
  dom j := by rw [hget]; exact h.dom j
  fits j pte := by rw [hget]; exact h.fits j pte
  inj i j p q := by rw [hget, hget]; exact h.inj i j p q

theorem empty : Table.empty.Shape 0 [] where
  small := Nat.zero_le _
  above := nofun
  dom := by simp
  fits := nofun
  inj _ _ _ _ hi := absurd hi (Nat.not_lt_zero _)

section
variable (h : T.Shape n S)
include h

theorem map_user (hreach : reaches T.dirs n = true) (hn : n < TRAPFRAME) (hfit : Fits (n + 1) n pte)
    (hnew : ∀ j q, j < n → T.get j = some q → q.pa ≠ pte.pa) : (T.setPte n pte).Shape (n + 1) S where
  small := hn
  above := h.above
  dom j := by
    rw [get_setPte hreach]
    split_ifs with hj
    · simp [hj]
    · rw [h.dom]
      have : j < n ↔ j < n + 1 := by omega
      rw [this]
  fits j p hp := by
    rw [get_setPte hreach] at hp
    split_ifs at hp with hj
    · cases hp
      rwa [hj]
    · have hf := h.fits j p hp
      exact ⟨hf.leaf, fun hu => Nat.lt_succ_of_lt (hf.user hu), hf.sole⟩
  inj i j p q hi hj hp hq hpa := by
    rw [get_setPte hreach] at hp hq
    split_ifs at hp hq with hin hjn hjn
    · rw [hin, hjn]
    · cases hp
      exact absurd hpa.symm (hnew j q (by omega) hq)
    · cases hq
      exact absurd hpa (hnew i p (by omega) hp)
    · exact h.inj i j p q (by omega) (by omega) hp hq hpa

theorem replace_get (hi : i < n) (hfit : Fits n i pte)
    (hget : ∀ j, T'.get j = if j = i then some pte else T.get j)
    (hnew : ∀ j q, j < n → j ≠ i → T.get j = some q → q.pa ≠ pte.pa) : T'.Shape n S where
  small := h.small
  above := h.above
  dom j := by
    rw [hget]
    split_ifs with hj
    · simp [hj, hi]
    · exact h.dom j
  fits j p hp := by
    rw [hget] at hp
    split_ifs at hp with hj
    · cases hp
      rwa [hj]
    · exact h.fits j p hp
  inj a b p q ha hb hp hq hpa := by
    rw [hget] at hp hq
    split_ifs at hp hq with hai hbi hbi
    · rw [hai, hbi]
    · cases hp
      exact absurd hpa.symm (hnew b q hb hbi hq)
    · cases hq
      exact absurd hpa (hnew a p ha hai hp)
    · exact h.inj a b p q ha hb hp hq hpa

theorem replace (hreach : reaches T.dirs i = true) (hi : i < n) (hfit : Fits n i pte)
    (hnew : ∀ j q, j < n → j ≠ i → T.get j = some q → q.pa ≠ pte.pa) : (T.setPte i pte).Shape n S :=
  h.replace_get hi hfit (get_setPte hreach pte) hnew

theorem map_special (hreach : reaches T.dirs i = true) (hi : TRAPFRAME ≤ i) (hfit : Fits n i pte) :
    (T.setPte i pte).Shape n (i :: S) where
  small := h.small
  above := by
    intro j hj
    rcases List.mem_cons.1 hj with rfl | hj
    · exact hi
    · exact h.above j hj
  dom j := by
    rw [get_setPte hreach]
    split_ifs with hj
    · simp [hj]
    · rw [h.dom]
      simp [hj]
  fits j p hp := by
    rw [get_setPte hreach] at hp
    split_ifs at hp with hj
    · cases hp
      rwa [hj]
    · exact h.fits j p hp
  inj a b p q ha hb := by
    have := h.small
    rw [get_setPte hreach, get_setPte hreach, if_neg (by omega), if_neg (by omega)]
    exact h.inj a b p q ha hb

theorem unmap (ha : a ≤ n)
    (hget : ∀ j, T'.get j = if a ≤ j ∧ j < n then none else T.get j) : T'.Shape a S where
  small := ha.trans h.small
  above := h.above
  dom j := by
    rw [hget]
    split_ifs with hj
    · have hS : j ∉ S := fun hS => by
        have := h.above j hS
        have := h.small
        omega
      have : ¬ j < a := by omega
      simp [hS, this]
    · rw [h.dom]
      have : j < n ↔ j < a := by omega
      rw [this]
  fits j p hp := by
    rw [hget] at hp
    split_ifs at hp with hj
    have hf := h.fits j p hp
    exact ⟨hf.leaf, fun hu => by have := hf.user hu; omega, hf.sole⟩
  inj i j p q hi hj := by
    rw [hget, hget, if_neg (by omega), if_neg (by omega)]
    exact h.inj i j p q (by omega) (by omega)

end

theorem clear_special (h : T.Shape n (i :: S)) (hi : i ∉ S) : (T.clearPte i).Shape n S where
  small := h.small
  above j hj := h.above j (List.mem_cons_of_mem _ hj)
  dom j := by
    rw [get_clearPte]
    split_ifs with hj
    · have : ¬ j < n := by
        have := h.above i List.mem_cons_self
        have := h.small
        omega
      simp [hj ▸ hi, this]
    · rw [h.dom]
      simp [hj]
  fits j p hp := by
    rw [get_clearPte] at hp
    split_ifs at hp
    exact h.fits j p hp
  inj a b p q ha hb := by
    have := h.small
    have := h.above i List.mem_cons_self
    rw [get_clearPte, get_clearPte, if_neg (by omega), if_neg (by omega)]
    exact h.inj a b p q ha hb

end Shape

theorem bare (h : ∀ j, T.get j = none) : T.ptes = ∅ := by
  have hk : T.ptes.keys = [] := by
    rw [List.eq_nil_iff_forall_not_mem]
    intro j hj
    exact (AList.lookup_eq_none.1 (h j)) (AList.mem_keys.2 hj)
  apply AList.ext
  simpa [AList.keys, List.keys] using hk

theorem own_bare (h : ∀ j, T.get j = none) : T.own = T.dirPages := by
  simp [own, bare h]

theorem shared_bare (h : ∀ j, T.get j = none) : T.shared = 0 := by
  simp [shared, bare h]

end Table
end Xv6Riscv.Vm
