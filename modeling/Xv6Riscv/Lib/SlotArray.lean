import Mathlib.Data.List.Chain

/-!
# Lists kept in a fixed array of slots

A C table of pointers in which the entries come first and the null slots last (`Packed`). `push` stores
an entry in the first null slot unless the table already has it; `remove` closes the gap of an entry by
moving every later slot one place down. The last slot is read and never written by such a loop, so a
full table keeps a second copy of its last entry: `remove_spec` asks for a null slot, and
`remove_none` says what happens without one.
-/
namespace Xv6Riscv.SlotArray
open List

variable {α : Type} (same : α → Bool)

/-- The entries, in the order of their slots. -/
def listed (q : List (Option α)) : List α := q.filterMap id

/-- No null slot before an entry. -/
def Packed (q : List (Option α)) : Prop :=
  q = (listed q).map some ++ List.replicate (q.length - (listed q).length) none

/-- Store `x` in the first null slot, unless an entry before it is the same. -/
def push (x : α) : List (Option α) → List (Option α)
  | [] => []
  | none :: q => some x :: q
  | some y :: q => if same y then some y :: q else some y :: push x q

/-- `for(j = i + 1; j < n; j++) q[j-1] = q[j]` on the slots from `i` on, the first of them `x`. -/
def shift (x : Option α) : List (Option α) → List (Option α)
  | [] => [x]
  | y :: q => y :: shift y q

/-- Close the gap of the first entry that is the same. -/
def remove : List (Option α) → List (Option α)
  | [] => []
  | x :: q => if x.any same then shift x q else x :: remove q

/-! ## Packed tables -/

theorem listed_append (q r : List (Option α)) : listed (q ++ r) = listed q ++ listed r :=
  filterMap_append

@[simp] theorem listed_map_some (l : List α) : listed (l.map some) = l := by
  induction l with
  | nil => rfl
  | cons x l ih => simp [listed]

@[simp] theorem listed_replicate (k : Nat) : listed (List.replicate k (none : Option α)) = [] := by
  induction k with
  | zero => rfl
  | succ k ih => simp [listed]

theorem listed_packed (l : List α) (k : Nat) : listed (l.map some ++ List.replicate k none) = l := by
  rw [listed_append, listed_map_some, listed_replicate, append_nil]

variable {q : List (Option α)}

theorem packed_iff : Packed q ↔ ∃ (l : List α) (k : Nat), q = l.map some ++ List.replicate k none := by
  constructor
  · intro h
    exact ⟨_, _, h⟩
  · rintro ⟨l, k, rfl⟩
    simp [Packed, listed_packed]

variable {x c : α}

theorem mem_listed : x ∈ listed q ↔ some x ∈ q := by
  simp [listed]

/-! ## `push` -/

@[simp] theorem length_push (x : α) : ∀ q, (push same x q).length = q.length
  | [] => rfl
  | none :: q => rfl
  | some y :: q => by
    simp only [push]
    split
    · rfl
    · simp [length_push x q]

theorem push_full (x : α) : ∀ {q : List (Option α)}, none ∉ q → push same x q = q
  | [], _ => rfl
  | none :: q, h => absurd (mem_cons_self ..) h
  | some y :: q, h => by
    simp only [push]
    rw [push_full x fun hm => h (mem_cons_of_mem _ hm), ite_self]

theorem mem_listed_push : ∀ {q : List (Option α)}, c ∈ listed (push same x q) → c ∈ listed q ∨ c = x
  | [], h => .inl h
  | none :: q, h => by
    rcases mem_cons.1 h with h | h
    · exact .inr h
    · exact .inl h
  | some y :: q, h => by
    simp only [push] at h
    split at h
    · exact .inl h
    · rcases mem_cons.1 h with rfl | h
      · exact .inl (mem_cons_self ..)
      · exact (mem_listed_push h).imp_left (mem_cons_of_mem _)

theorem push_eq (x : α) (k : Nat) (l : List α) :
    push same x (l.map some ++ List.replicate (k + 1) none) =
      if l.any same then l.map some ++ List.replicate (k + 1) none
      else (l ++ [x]).map some ++ List.replicate k none := by
  induction l with
  | nil => simp [replicate_succ, push]
  | cons y l ih =>
    simp only [map_cons, cons_append, push, ih, any_cons, Bool.or_eq_true]
    by_cases hy : same y = true
    · simp [hy]
    · by_cases hl : l.any same = true <;> simp [hy, hl]

theorem push_spec (x : α) (hq : Packed q) (hn : none ∈ q) : Packed (push same x q) ∧
      listed (push same x q) = if (listed q).any same then listed q else listed q ++ [x] := by
  obtain ⟨l, k, rfl⟩ := packed_iff.1 hq
  obtain ⟨k, rfl⟩ : ∃ m, k = m + 1 := by
    cases k with
    | zero => simp at hn
    | succ k => exact ⟨k, rfl⟩
  rw [push_eq]
  split
  · rename_i hl
    exact ⟨hq, by rw [listed_packed, if_pos hl]⟩
  · rename_i hl
    exact ⟨packed_iff.2 ⟨l ++ [x], k, rfl⟩, by rw [listed_packed, listed_packed, if_neg hl]⟩

/-! ## `remove` -/

@[simp] theorem length_shift (x : Option α) (q : List (Option α)) : (shift x q).length = q.length + 1 := by
  induction q generalizing x with
  | nil => rfl
  | cons y q ih => simp [shift, ih]

@[simp] theorem length_remove : ∀ q, (remove same q).length = q.length
  | [] => rfl
  | x :: q => by
    simp only [remove]
    split
    · simp
    · simp [length_remove q]

theorem mem_shift (x : Option α) (q : List (Option α)) (h : c ∈ listed (shift x q)) : c ∈ listed (x :: q) := by
  rw [mem_listed] at h ⊢
  induction q generalizing x with
  | nil => exact h
  | cons y q ih =>
    rcases mem_cons.1 h with h | h
    · exact mem_cons_of_mem _ (h ▸ mem_cons_self ..)
    · exact mem_cons_of_mem _ (ih y h)

/-- `remove` adds nothing; on a full table it leaves the last entry twice. -/
theorem mem_listed_remove (h : c ∈ listed (remove same q)) : c ∈ listed q := by
  induction q with
  | nil => exact h
  | cons x q ih =>
    simp only [remove] at h
    split at h
    · exact mem_shift x q h
    rw [mem_listed] at h ih ⊢
    rw [mem_listed] at ih
    rcases mem_cons.1 h with h | h
    · exact h ▸ mem_cons_self ..
    · exact mem_cons_of_mem _ (ih h)

theorem shift_append_none (x : Option α) (q : List (Option α)) : shift x (q ++ [none]) = q ++ [none, none] := by
  induction q generalizing x with
  | nil => rfl
  | cons y q ih => simp [shift, ih]

theorem remove_eq (k : Nat) (l : List α) : ∃ m, remove same (l.map some ++ List.replicate (k + 1) none) =
      (l.eraseP same).map some ++ List.replicate (m + 1) none := by
  induction l with
  | nil =>
    have hnone : ∀ j, remove same (List.replicate j none) = List.replicate j none := by
      intro j
      induction j with
      | zero => rfl
      | succ j ih => simp [replicate_succ, remove, ih]
    exact ⟨k, by simpa using hnone (k + 1)⟩
  | cons y l ih =>
    simp only [map_cons, cons_append, remove, Option.any_some, eraseP_cons]
    by_cases hy : same y = true
    · refine ⟨k + 1, ?_⟩
      rw [if_pos hy, hy, cond_true, replicate_succ', ← append_assoc, shift_append_none,
        append_assoc]
      simp [replicate_succ']
    · obtain ⟨m, hm⟩ := ih
      rw [if_neg hy, hm]
      exact ⟨m, by simp [hy]⟩

theorem eraseP_congr {p q : α → Bool} : ∀ {l : List α}, (∀ x ∈ l, p x = q x) → l.eraseP p = l.eraseP q
  | [], _ => rfl
  | x :: l, h => by
    rw [eraseP_cons, eraseP_cons, h x (mem_cons_self ..),
      eraseP_congr fun y hy => h y (mem_cons_of_mem _ hy)]

theorem remove_spec (hq : Packed q) (hn : none ∈ q) :
    Packed (remove same q) ∧ none ∈ remove same q ∧ listed (remove same q) = (listed q).eraseP same := by
  obtain ⟨l, k, rfl⟩ := packed_iff.1 hq
  obtain ⟨k, rfl⟩ : ∃ m, k = m + 1 := by
    cases k with
    | zero => simp at hn
    | succ k => exact ⟨k, rfl⟩
  obtain ⟨m, hm⟩ := remove_eq same k l
  rw [hm]
  exact ⟨packed_iff.2 ⟨_, _, rfl⟩, by simp, by rw [listed_packed, listed_packed]⟩

theorem remove_none (h : none ∉ q) : none ∉ remove same q := by
  have hshift : ∀ (q : List (Option α)) (x : Option α), none ∉ x :: q → none ∉ shift x q := by
    intro q
    induction q with
    | nil => exact fun x h => h
    | cons y q ih =>
      intro x h
      rw [shift, mem_cons, not_or]
      have hq : none ∉ y :: q := fun hm => h (mem_cons_of_mem _ hm)
      exact ⟨fun hy => hq (hy ▸ mem_cons_self ..), ih y hq⟩
  induction q with
  | nil => exact h
  | cons x q ih =>
    rw [remove]
    split
    · exact hshift q x h
    · rw [mem_cons, not_or] at h ⊢
      exact ⟨h.1, ih h.2⟩

/-- With or without a null slot, the tables stay packed. -/
theorem packed_of_none (h : none ∉ q) : Packed q := by
  refine packed_iff.2 ⟨listed q, 0, ?_⟩
  induction q with
  | nil => rfl
  | cons x q ih =>
    cases x with
    | none => exact absurd (mem_cons_self ..) h
    | some y => exact congrArg (some y :: ·) (ih fun hm => h (mem_cons_of_mem _ hm))

theorem packed_push (x : α) (h : Packed q) : Packed (push same x q) := by
  by_cases hn : none ∈ q
  · exact (push_spec same x h hn).1
  · rw [push_full same x hn]
    exact h

theorem packed_remove (h : Packed q) : Packed (remove same q) := by
  by_cases hn : none ∈ q
  · exact (remove_spec same h hn).1
  · exact packed_of_none (remove_none same hn)

theorem listed_of_head (h : Packed q) (h0 : q.head? ≠ none → q.head? = some none) : listed q = [] := by
  obtain ⟨l, k, rfl⟩ := packed_iff.1 h
  cases l with
  | nil => rw [listed_packed]
  | cons x l => exact absurd (h0 (by simp)) (by simp)

/-! ## A loop that removes the entries it has an index for

`for(j = 0; j < n; j++) if(p(q[j])) remove(q[j]);` moves the entry after a removed one to the slot the loop has
just left, so it is not looked at. -/

/-- The entries such a loop takes and those it leaves; `skip` says that the entry before was taken. -/
def sweep (p : α → Bool) : Bool → List α → List α × List α
  | _, [] => ([], [])
  | true, c :: l => ((sweep p false l).1, c :: (sweep p false l).2)
  | false, c :: l =>
    if p c then (c :: (sweep p true l).1, (sweep p true l).2) else ((sweep p false l).1, c :: (sweep p false l).2)

theorem sweep_sublist (p : α → Bool) (skip : Bool) (l : List α) : ((sweep p skip l).1).Sublist (l.filter p) := by
  induction l generalizing skip with
  | nil => simp [sweep]
  | cons c l ih =>
    cases skip with
    | true => exact (ih false).trans ((sublist_cons_self c l).filter p)
    | false =>
      by_cases hc : p c = true
      · rw [sweep, if_pos hc, filter_cons_of_pos hc]
        exact (ih true).cons_cons c
      · rw [sweep, if_neg hc, filter_cons_of_neg hc]
        exact ih false

/-- No two neighbours are to be taken. -/
def Spaced (p : α → Bool) (l : List α) : Prop := l.IsChain fun a b => ¬(p a = true ∧ p b = true)

theorem spaced_cons {p : α → Bool} {l : List α} :
    Spaced p (c :: l) ↔ (p c = true → ∀ d ∈ l.head?, ¬p d = true) ∧ Spaced p l := by
  cases l with
  | nil => simp [Spaced]
  | cons d l => simp [Spaced]

/-- The loop takes all it should exactly when no two of them are neighbours. -/
theorem sweep_eq_filter_iff (p : α → Bool) (skip : Bool) (l : List α) :
    (sweep p skip l).1 = l.filter p ↔ (skip = true → ∀ d ∈ l.head?, ¬p d = true) ∧ Spaced p l := by
  induction l generalizing skip with
  | nil => simp [sweep, Spaced]
  | cons c l ih =>
    rw [spaced_cons]
    by_cases hc : p c = true
    · cases skip with
      | true =>
        -- `c` is left although it should be taken
        have hle := (sweep_sublist p false l).length_le
        constructor
        · intro h
          rw [sweep, filter_cons_of_pos hc] at h
          have hlen : (sweep p false l).1.length = (l.filter p).length + 1 := congrArg List.length h
          omega
        · intro h
          exact absurd hc (h.1 rfl c rfl)
      | false =>
        rw [sweep, if_pos hc, filter_cons_of_pos hc, cons_inj_right, ih true]
        simp [hc]
    · have hkeep : (sweep p skip (c :: l)).1 = (sweep p false l).1 := by
        cases skip with
        | true => rfl
        | false => rw [sweep, if_neg hc]
      rw [hkeep, filter_cons_of_neg hc, ih false]
      simp [hc]

theorem sweep_snd_eq_filter (p : α → Bool) (skip : Bool) (l : List α) (h : (sweep p skip l).1 = l.filter p) :
    (sweep p skip l).2 = l.filter fun c => !p c := by
  induction l generalizing skip with
  | nil => rfl
  | cons c l ih =>
    by_cases hc : p c = true
    · cases skip with
      | true => exact absurd hc (((sweep_eq_filter_iff p true (c :: l)).1 h).1 rfl c rfl)
      | false =>
        rw [sweep, if_pos hc, filter_cons_of_pos hc, cons_inj_right] at h
        rw [sweep, if_pos hc, filter_cons_of_neg (by simp [hc])]
        exact ih true h
    · have hkeep : sweep p skip (c :: l) = ((sweep p false l).1, c :: (sweep p false l).2) := by
        cases skip with
        | true => rfl
        | false => rw [sweep, if_neg hc]
      rw [hkeep, filter_cons_of_neg hc] at h
      rw [hkeep, filter_cons_of_pos (by simp [hc])]
      exact congrArg (c :: ·) (ih false h)

end Xv6Riscv.SlotArray
