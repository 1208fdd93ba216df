import Mathlib.Logic.Function.Basic
import Mathlib.Logic.Nontrivial.Basic

/-!
# Copies through a page table

A page table maps page numbers to frames, a memory is a function on the bytes of the frames. `copyOut` and `copyIn`
are the loops a kernel copies with: one page at a time, cut at the page boundaries, given up at the first page that
is not mapped. `copyOut_eq` and `copyIn_eq` say what they do byte by byte: `writes` is the list of the stores that are
made, `reads` the list of the bytes that are fetched, both up to the first byte of an unmapped page.
-/
namespace Xv6Riscv.Paged
open Function List

variable {φ β : Type*} (size : Nat) (page : Nat → Option φ)

/-- The `n` bytes from `va` on are all on mapped pages. -/
def Mapped (va n : Nat) : Prop := ∀ k < n, (page ((va + k) / size)).isSome

instance (va n : Nat) : Decidable (Mapped size page va n) := inferInstanceAs (Decidable (∀ k < n, _))

theorem mapped_succ (va n : Nat) :
    Mapped size page va (n + 1) ↔ (page (va / size)).isSome ∧ Mapped size page (va + 1) n := by
  constructor
  · intro h
    refine ⟨h 0 (Nat.zero_lt_succ n), fun k hk => ?_⟩
    have hnext := h (k + 1) (Nat.succ_lt_succ hk)
    rwa [Nat.add_comm k 1, ← Nat.add_assoc] at hnext
  · rintro ⟨hfirst, hrest⟩ k hk
    cases k with
    | zero => exact hfirst
    | succ k =>
      rw [Nat.add_comm k 1, ← Nat.add_assoc]
      exact hrest k (Nat.lt_of_succ_lt_succ hk)

theorem mapped_zero (va : Nat) : Mapped size page va 0 := fun k hk => absurd hk (Nat.not_lt_zero k)

variable {P o va n fuel k : Nat}

theorem page_offset (h : o < size) : (P * size + o) / size = P ∧ (P * size + o) % size = o := by
  rw [Nat.div_mod_unique (Nat.zero_lt_of_lt h)]
  exact ⟨by rw [Nat.mul_comm, Nat.add_comm], h⟩

/-! ## Stores -/

/-- The stores that a copy of these bytes to `va` makes. -/
def writes : Nat → List β → List ((φ × Nat) × β)
  | _, [] => []
  | va, b :: bs =>
    match page (va / size) with
    | none => []
    | some f => ((f, va % size), b) :: writes (va + 1) bs

theorem writes_length_eq_iff (va : Nat) (src : List β) :
    (writes size page va src).length = src.length ↔ Mapped size page va src.length := by
  induction src generalizing va with
  | nil => exact ⟨fun _ => mapped_zero size page va, fun _ => rfl⟩
  | cons b bs ih =>
    rw [length_cons, mapped_succ, ← ih, writes]
    cases page (va / size) with
    | none => simp
    | some f => simp

theorem writes_length_le (va : Nat) (src : List β) : (writes size page va src).length ≤ src.length := by
  induction src generalizing va with
  | nil => exact Nat.le_refl 0
  | cons b bs ih =>
    rw [writes]
    cases page (va / size) with
    | none => exact Nat.zero_le _
    | some f => exact Nat.succ_le_succ (ih (va + 1))

theorem mapped_add (va m n : Nat) :
    Mapped size page va (m + n) ↔ Mapped size page va m ∧ Mapped size page (va + m) n := by
  induction m generalizing va with
  | zero => simp [Mapped]
  | succ m ih => rw [Nat.succ_add, mapped_succ, mapped_succ, ih, and_assoc, Nat.add_assoc, Nat.add_comm 1 m]

theorem writes_append (va : Nat) (l l' : List β) :
    writes size page va (l ++ l') =
      writes size page va l ++ if Mapped size page va l.length then writes size page (va + l.length) l' else [] := by
  induction l generalizing va with
  | nil => simp [writes, mapped_zero]
  | cons b bs ih =>
    rw [cons_append, writes, writes]
    simp only [length_cons, mapped_succ]
    cases page (va / size) with
    | none => simp
    | some f => simp [ih, Nat.add_assoc, Nat.add_comm 1]

theorem writes_eq_nil_iff (va : Nat) (b : β) (bs : List β) :
    writes size page va (b :: bs) = [] ↔ page (va / size) = none := by
  rw [writes]
  cases page (va / size) with
  | none => simp
  | some f => simp

section Out
variable [DecidableEq φ]

/-- The stores `ws`, in their order. -/
def apply (m : φ × Nat → β) (ws : List ((φ × Nat) × β)) : φ × Nat → β :=
  ws.foldl (fun m w => Function.update m w.1 w.2) m

@[simp] theorem apply_nil (m : φ × Nat → β) : apply m [] = m := rfl

@[simp] theorem apply_cons (m : φ × Nat → β) (w : (φ × Nat) × β) (ws : List ((φ × Nat) × β)) :
    apply m (w :: ws) = apply (update m w.1 w.2) ws := rfl

theorem apply_append (m : φ × Nat → β) (vs ws : List ((φ × Nat) × β)) :
    apply m (vs ++ ws) = apply (apply m vs) ws := foldl_append

/-- Some memory is changed by any stores at all: what they leave in the first byte they write does not depend on what
was there. -/
theorem exists_apply_ne [Nontrivial β] {ws : List ((φ × Nat) × β)} (h : ws ≠ []) :
    ∃ m : φ × Nat → β, apply m ws ≠ m := by
  obtain ⟨w, rest, rfl⟩ := exists_cons_of_ne_nil h
  obtain ⟨b, hb⟩ := exists_ne (apply (fun _ => w.2) (w :: rest) w.1)
  refine ⟨update (fun _ => w.2) w.1 b, fun heq => hb ?_⟩
  have hat := congrFun heq w.1
  rw [apply_cons, update_idem, update_self, ← apply_cons (fun _ => w.2)] at hat
  exact hat.symm

/-- A block move of `bs` into the frame `f`, from offset `o` on. -/
def fill (m : φ × Nat → β) (f : φ) : Nat → List β → φ × Nat → β
  | _, [] => m
  | o, b :: bs => fill (Function.update m (f, o) b) f (o + 1) bs

/-- The loop of a copy to the pages of `page`: whether all of `src` was copied, and the memory after it. -/
def copyOut : Nat → Nat → List β → (φ × Nat → β) → Bool × (φ × Nat → β)
  | 0, _, _, m => (true, m)
  | fuel + 1, va, src, m =>
    if src.isEmpty then (true, m)
    else
      match page (va / size) with
      | none => (false, m)
      | some f =>
        let n := min (size - va % size) src.length
        copyOut fuel ((va / size + 1) * size) (src.drop n) (fill m f (va % size) (src.take n))

variable {f : φ}

theorem writes_page (hpage : page P = some f) (bs rest : List β) (m : φ × Nat → β)
    (hfit : o + bs.length ≤ size) : apply m (writes size page (P * size + o) (bs ++ rest)) =
        apply (fill m f o bs) (writes size page (P * size + (o + bs.length)) rest) ∧
      (writes size page (P * size + o) (bs ++ rest)).length =
        bs.length + (writes size page (P * size + (o + bs.length)) rest).length := by
  induction bs generalizing o m with
  | nil => exact ⟨rfl, (Nat.zero_add _).symm⟩
  | cons b bs ih =>
    rw [length_cons] at hfit
    obtain ⟨hdiv, hmod⟩ := page_offset size (P := P) (show o < size by omega)
    have hfirst : writes size page (P * size + o) (b :: bs ++ rest) =
        ((f, o), b) :: writes size page (P * size + (o + 1)) (bs ++ rest) := by
      rw [cons_append, writes, hdiv, hmod, hpage, Nat.add_assoc]
    have hnext : o + (b :: bs).length = o + 1 + bs.length := by rw [length_cons]; omega
    obtain ⟨hmem, hlen⟩ := ih (update m (f, o) b) (show o + 1 + bs.length ≤ size by omega)
    rw [hfirst, hnext]
    refine ⟨hmem, ?_⟩
    rw [length_cons, hlen, length_cons]
    omega

/-- The stores of the first page are one block move. The next ones start on the next page, unless nothing is left. -/
theorem writes_first (hsize : 0 < size) (hpage : page (va / size) = some f) (src : List β)
    (m : φ × Nat → β) (hn : n = min (size - va % size) src.length) : apply m (writes size page va src) =
        apply (fill m f (va % size) (src.take n)) (writes size page ((va / size + 1) * size) (src.drop n)) ∧
      (writes size page va src).length = n + (writes size page ((va / size + 1) * size) (src.drop n)).length := by
  have hva : va / size * size + va % size = va := Nat.div_add_mod' va size
  have hmod := Nat.mod_lt va hsize
  have htake : (src.take n).length = n := by rw [length_take]; omega
  have hsplit := writes_page size page hpage (src.take n) (src.drop n) m
    (show va % size + (src.take n).length ≤ size by omega)
  have hrest : writes size page (va / size * size + (va % size + n)) (src.drop n) =
      writes size page ((va / size + 1) * size) (src.drop n) := by
    by_cases hall : n = src.length
    · rw [hall, drop_length, writes, writes]
    · have hend : va % size + n = size := by omega
      rw [hend, Nat.succ_mul]
  rwa [take_append_drop, hva, htake, hrest] at hsplit

/-- **A copy through the page table stores the bytes of `src` up to the first unmapped page**, and succeeds when that
is all of them. -/
theorem copyOut_eq (hsize : 0 < size) {src : List β} (m : φ × Nat → β) (hfuel : src.length ≤ fuel) :
    copyOut size page fuel va src m =
      (decide ((writes size page va src).length = src.length), apply m (writes size page va src)) := by
  induction fuel generalizing va src m with
  | zero =>
    obtain rfl := length_eq_zero_iff.1 (Nat.le_zero.1 hfuel)
    rfl
  | succ fuel ih =>
    rw [copyOut]
    cases src with
    | nil => rfl
    | cons b bs =>
      rw [if_neg (by simp)]
      cases hpage : page (va / size) with
      | none => simp [writes, hpage]
      | some f =>
        have hmod := Nat.mod_lt va hsize
        generalize hn : min (size - va % size) (b :: bs).length = n
        have hdrop : ((b :: bs).drop n).length = (b :: bs).length - n := length_drop
        obtain ⟨hmem, hlen⟩ := writes_first size page hsize hpage (b :: bs) m hn.symm
        simp only [ih _ (show ((b :: bs).drop n).length ≤ fuel by omega)]
        rw [hmem, hlen, hdrop]
        congr 2
        simp only [eq_iff_iff]
        omega

end Out

/-! ## Loads -/

section In
variable (m : φ × Nat → β)

/-- The loop of a copy from the pages of `page`: whether all `len` bytes were copied, and those that were. -/
def copyIn : Nat → Nat → Nat → Bool × List β
  | 0, _, _ => (true, [])
  | fuel + 1, va, len =>
    if len = 0 then (true, [])
    else
      match page (va / size) with
      | none => (false, [])
      | some f =>
        let n := min (size - va % size) len
        let rest := copyIn fuel ((va / size + 1) * size) (len - n)
        (rest.1, (List.range' (va % size) n).map (fun o => m (f, o)) ++ rest.2)

/-- The byte at an address. -/
def load (va : Nat) : Option β := (page (va / size)).map fun f => m (f, va % size)

/-- The bytes that a copy of `n` bytes from `va` fetches. -/
def reads : Nat → Nat → List β
  | _, 0 => []
  | va, n + 1 =>
    match load size page m va with
    | none => []
    | some b => b :: reads (va + 1) n

theorem reads_length_le (va n : Nat) : (reads size page m va n).length ≤ n := by
  induction n generalizing va with
  | zero => exact Nat.le_refl 0
  | succ n ih =>
    rw [reads]
    cases load size page m va with
    | none => exact Nat.zero_le _
    | some b => exact Nat.succ_le_succ (ih (va + 1))

theorem reads_length_eq_iff (va n : Nat) : (reads size page m va n).length = n ↔ Mapped size page va n := by
  induction n generalizing va with
  | zero => exact ⟨fun _ => mapped_zero size page va, fun _ => rfl⟩
  | succ n ih =>
    rw [mapped_succ, ← ih, reads, load]
    cases page (va / size) with
    | none => simp
    | some f => simp

theorem reads_take (va : Nat) {n k : Nat} (h : k ≤ n) : (reads size page m va n).take k = reads size page m va k := by
  induction k generalizing va n with
  | zero => rfl
  | succ k ih =>
    obtain ⟨n, rfl⟩ := Nat.exists_eq_succ_of_ne_zero (Nat.ne_of_gt (Nat.zero_lt_of_lt h))
    rw [reads, reads]
    cases load size page m va with
    | none => rfl
    | some b => rw [take_succ_cons, ih (va + 1) (Nat.le_of_succ_le_succ h)]

theorem reads_eq_of_load (va : Nat) {l : List β} (h : ∀ k < l.length, load size page m (va + k) = l[k]?) :
    reads size page m va l.length = l := by
  induction l generalizing va with
  | nil => rfl
  | cons b bs ih =>
    have hfirst := h 0 (Nat.zero_lt_succ _)
    have hrest := ih (va + 1) fun k hk => by
      rw [Nat.add_assoc, Nat.add_comm 1, h (k + 1) (Nat.succ_lt_succ hk), getElem?_cons_succ]
    rw [length_cons, reads, show load size page m va = some b from hfirst]
    exact congrArg (b :: ·) hrest

theorem load_of_reads {va n k : Nat} (hk : k < (reads size page m va n).length) :
    load size page m (va + k) = (reads size page m va n)[k]? := by
  induction n generalizing va k with
  | zero => exact absurd hk (Nat.not_lt_zero k)
  | succ n ih =>
    rw [reads] at hk ⊢
    cases hload : load size page m va with
    | none =>
      rw [hload] at hk
      exact absurd hk (Nat.not_lt_zero k)
    | some b =>
      rw [hload] at hk
      cases k with
      | zero => exact hload
      | succ k =>
        have hnext := ih (Nat.lt_of_succ_lt_succ hk)
        rwa [Nat.add_assoc, Nat.add_comm 1 k] at hnext

theorem reads_page (hpage : page P = some f) (k n : Nat) (hfit : o + k ≤ size) :
    reads size page m (P * size + o) (k + n) =
      (List.range' o k).map (fun o => m (f, o)) ++ reads size page m (P * size + (o + k)) n := by
  induction k generalizing o with
  | zero => rw [Nat.zero_add]; rfl
  | succ k ih =>
    obtain ⟨hdiv, hmod⟩ := page_offset size (P := P) (show o < size by omega)
    have hload : load size page m (P * size + o) = some (m (f, o)) := by rw [load, hdiv, hmod, hpage]; rfl
    have hnext := ih (show o + 1 + k ≤ size by omega)
    rw [Nat.add_right_comm, reads, hload, Nat.add_assoc (P * size), hnext, List.range'_succ, map_cons,
      cons_append, Nat.add_assoc o, Nat.add_comm 1 k]

theorem reads_first (hsize : 0 < size) (hpage : page (va / size) = some f) (len : Nat)
    (hn : n = min (size - va % size) len) :
    reads size page m va len = (List.range' (va % size) n).map (fun o => m (f, o)) ++
      reads size page m ((va / size + 1) * size) (len - n) := by
  have hva : va / size * size + va % size = va := Nat.div_add_mod' va size
  have hmod := Nat.mod_lt va hsize
  have hsplit := reads_page size page m hpage n (len - n) (show va % size + n ≤ size by omega)
  have hrest : reads size page m (va / size * size + (va % size + n)) (len - n) =
      reads size page m ((va / size + 1) * size) (len - n) := by
    by_cases hall : n = len
    · rw [hall, Nat.sub_self, reads, reads]
    · have hend : va % size + n = size := by omega
      rw [hend, Nat.succ_mul]
  rwa [hva, show n + (len - n) = len by omega, hrest] at hsplit

/-- **A copy through the page table fetches the bytes up to the first unmapped page**, and succeeds when that is all
of them. -/
theorem copyIn_eq (hsize : 0 < size) {len : Nat} (hfuel : len ≤ fuel) : copyIn size page m fuel va len =
      (decide ((reads size page m va len).length = len), reads size page m va len) := by
  induction fuel generalizing va len with
  | zero =>
    obtain rfl := Nat.le_zero.1 hfuel
    rfl
  | succ fuel ih =>
    rw [copyIn]
    by_cases hlen : len = 0
    · subst hlen
      rfl
    rw [if_neg hlen]
    cases hpage : page (va / size) with
    | none =>
      obtain ⟨len, rfl⟩ := Nat.exists_eq_succ_of_ne_zero hlen
      simp [reads, load, hpage]
    | some f =>
      have hmod := Nat.mod_lt va hsize
      generalize hn : min (size - va % size) len = n
      simp only [ih (show len - n ≤ fuel by omega)]
      rw [reads_first size page m hsize hpage len hn.symm, length_append, length_map, length_range']
      congr 2
      simp only [eq_iff_iff]
      omega

end In

/-! ## Loads after stores -/

/-- A copy that does not get to the end is one of the bytes up to a page that is not mapped. -/
theorem writes_prefix (va : Nat) (src : List β) (hn : n = (writes size page va src).length) :
    writes size page va (src.take n) = writes size page va src ∧ (n < src.length → page ((va + n) / size) = none) := by
  subst hn
  induction src generalizing va with
  | nil => exact ⟨rfl, nofun⟩
  | cons b bs ih =>
    rw [writes]
    cases hpage : page (va / size) with
    | none => exact ⟨rfl, fun _ => hpage⟩
    | some f =>
      obtain ⟨htake, hnone⟩ := ih (va + 1)
      simp only [length_cons, take_succ_cons, writes, hpage, htake, true_and]
      intro hlt
      rw [← hnone (Nat.lt_of_succ_lt_succ hlt), Nat.add_assoc, Nat.add_comm 1]

/-- **What is read after a copy**, when no frame is mapped twice: the bytes that were stored, and the old ones
elsewhere. -/
theorem load_writes [DecidableEq φ] (hinj : ∀ i j f, page i = some f → page j = some f → i = j) (m : φ × Nat → β)
    (va : Nat) (src : List β) (a : Nat) : load size page (apply m (writes size page va src)) a =
      if va ≤ a ∧ a < va + (writes size page va src).length then src[a - va]? else load size page m a := by
  induction src generalizing va m with
  | nil =>
    rw [if_neg (by simp [writes])]
    rfl
  | cons b bs ih =>
    rw [writes]
    cases hpage : page (va / size) with
    | none => rw [if_neg (by simp), apply_nil]
    | some f =>
      have hone : load size page (update m (f, va % size) b) a = if a = va then some b else load size page m a := by
        unfold load
        split_ifs with ha
        · simp [ha, hpage]
        cases ha' : page (a / size) with
        | none => rfl
        | some g =>
          have hne : (g, a % size) ≠ (f, va % size) := by
            intro he
            obtain ⟨rfl, hmod⟩ := Prod.mk.inj he
            refine ha ?_
            rw [← Nat.div_add_mod a size, ← Nat.div_add_mod va size, hmod, hinj _ _ g ha' hpage]
          simp [update_of_ne hne]
      simp only [apply_cons, ih, length_cons, hone]
      by_cases ha : a = va
      · subst ha
        rw [if_neg (by omega), if_pos rfl, if_pos (by omega), Nat.sub_self]
        rfl
      · rw [if_neg ha]
        by_cases hin : va + 1 ≤ a ∧ a < va + 1 + (writes size page (va + 1) bs).length
        · rw [if_pos hin, if_pos (by omega), show a - va = a - (va + 1) + 1 by omega, getElem?_cons_succ]
        · rw [if_neg hin, if_neg (by omega)]

end Xv6Riscv.Paged
