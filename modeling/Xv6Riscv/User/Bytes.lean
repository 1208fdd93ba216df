import Xv6Riscv.PageTable.Words
import Xv6Riscv.User.Copy

/-!
# The copies between kernel and user memory, on 64-bit addresses

| here | there |
| --- | --- |
| `walkaddr` | vm.c:109 |
| `copyoutLoop`, `copyinLoop` | vm.c:361, vm.c:388 |
| `copyinstrPage`, `copyinstrLoop` | vm.c:427, vm.c:415 |

`pageMap` is the table as the copies see it. An address wraps only behind a page from `MAXVA` on, where they give up,
so they do the same as the loops of `Lib/Paged.lean` on numbers.
-/
namespace Xv6Riscv.User
open List
open PageTable (PGROUNDDOWN PGROUNDDOWN_toNat)

abbrev Byte := BitVec 8

/-- A page below `MAXVA` with a valid entry that has `PTE_U`. -/
def UserPage (T : Vm.Table) (i : Nat) : Prop := i < Vm.MAXPG ∧ ∃ pte, T.get i = some pte ∧ pte.perm.u = true

/-- The frame of a page, or `none` for 0. -/
def frame (T : Vm.Table) (i : Nat) : Option Vm.Frame :=
  (T.get i).bind fun pte => if pte.perm.u then some pte.pa else none

def walkaddr (T : Vm.Table) (va : BitVec 64) : Option Vm.Frame :=
  if Vm.MAXVA ≤ va.toNat then none else frame T (va.toNat / Vm.PGSIZE)

variable (T : Vm.Table)

def copyoutLoop : Nat → BitVec 64 → List Byte → Memory → Bool × Memory
  | 0, _, _, mem => (true, mem)
  | turns + 1, dstva, src, mem =>
    if src.isEmpty then (true, mem)
    else
      let va0 := PGROUNDDOWN dstva
      match walkaddr T va0 with
      | none => (false, mem)
      | some pa0 =>
        let n := min (PageTable.PGSIZE - (dstva - va0)).toNat src.length
        copyoutLoop turns (va0 + PageTable.PGSIZE) (src.drop n) (Paged.fill mem pa0 (dstva - va0).toNat (src.take n))

/-- `copyout`, which takes a byte in each turn at least. -/
def copyoutTo (dstva : BitVec 64) (src : List Byte) (mem : Memory) : Bool × Memory :=
  copyoutLoop T src.length dstva src mem

def copyinLoop (mem : Memory) : Nat → BitVec 64 → Nat → Bool × List Byte
  | 0, _, _ => (true, [])
  | turns + 1, srcva, len =>
    if len = 0 then (true, [])
    else
      let va0 := PGROUNDDOWN srcva
      match walkaddr T va0 with
      | none => (false, [])
      | some pa0 =>
        let n := min (PageTable.PGSIZE - (srcva - va0)).toNat len
        let rest := copyinLoop mem turns (va0 + PageTable.PGSIZE) (len - n)
        (rest.1, (range' (srcva - va0).toNat n).map (fun o => mem (pa0, o)) ++ rest.2)

/-- `copyin`: the result, and the bytes that reach `dst`. -/
def copyinFrom (mem : Memory) (srcva : BitVec 64) (len : Nat) : Bool × List Byte := copyinLoop T mem len srcva len

/-- The inner loop of `copyinstr` at the offset `o` of a page: `got_null`, and the bytes it stores. -/
def copyinstrPage (mem : Memory) (pa0 : Vm.Frame) : Nat → Nat → Bool × List Byte
  | 0, _ => (false, [])
  | n + 1, o =>
    if mem (pa0, o) = 0 then (true, [0])
    else
      let rest := copyinstrPage mem pa0 n (o + 1)
      (rest.1, mem (pa0, o) :: rest.2)

def copyinstrLoop (mem : Memory) : Nat → BitVec 64 → Nat → Bool × List Byte
  | 0, _, _ => (false, [])
  | turns + 1, srcva, max =>
    if max = 0 then (false, [])
    else
      let va0 := PGROUNDDOWN srcva
      match walkaddr T va0 with
      | none => (false, [])
      | some pa0 =>
        let n := min (PageTable.PGSIZE - (srcva - va0)).toNat max
        let page := copyinstrPage mem pa0 n (srcva - va0).toNat
        if page.1 then page
        else
          let rest := copyinstrLoop mem turns (va0 + PageTable.PGSIZE) (max - n)
          (rest.1, page.2 ++ rest.2)

/-- `copyinstr`: `true` for 0, and the bytes that are stored from `dst` on. -/
def copyinstr (mem : Memory) (srcva max : BitVec 64) : Bool × List Byte :=
  copyinstrLoop T mem max.toNat srcva max.toNat

/-! ## The loops on numbers -/

/-- The table as the copies see it. -/
def pageMap : PageMap where
  walkaddr i := if Vm.MAXPG ≤ i then none else frame T i
  below_maxva _ h := if_pos h

variable {T} {va : BitVec 64}

theorem walkaddr_isSome_iff {i : Nat} : ((pageMap T).walkaddr i).isSome ↔ UserPage T i := by
  unfold pageMap UserPage frame
  dsimp only
  split_ifs with h
  · simp [h]
  · cases T.get i <;> simp [Nat.lt_of_not_le h]

theorem round_spec (T : Vm.Table) (va : BitVec 64) :
    walkaddr T (PGROUNDDOWN va) = (pageMap T).walkaddr (va.toNat / Vm.PGSIZE) ∧
    (va - PGROUNDDOWN va).toNat = va.toNat % Vm.PGSIZE ∧
    (PageTable.PGSIZE - (va - PGROUNDDOWN va)).toNat = Vm.PGSIZE - va.toNat % Vm.PGSIZE := by
  have hdown := PGROUNDDOWN_toNat va
  have hsize : PageTable.PGSIZE.toNat = 4096 := rfl
  have hmax : Vm.MAXVA ≤ va.toNat / 4096 * 4096 ↔ Vm.MAXPG ≤ va.toNat / 4096 := by
    rw [Vm.MAXPG, Vm.MAXVA, Vm.PGSIZE]
    omega
  refine ⟨?_, ?_, ?_⟩
  · simp only [walkaddr, pageMap, hdown, hmax, Vm.PGSIZE, Nat.mul_div_cancel _ (show 0 < 4096 by decide)]
  · rw [Vm.PGSIZE]
    bv_omega
  · rw [Vm.PGSIZE]
    bv_omega

theorem next_toNat {f : Vm.Frame} (h : (pageMap T).walkaddr (va.toNat / Vm.PGSIZE) = some f) :
    (PGROUNDDOWN va + PageTable.PGSIZE).toNat = (va.toNat / Vm.PGSIZE + 1) * Vm.PGSIZE := by
  have hlt : va.toNat / Vm.PGSIZE < Vm.MAXPG := (walkaddr_isSome_iff.1 (by rw [h]; rfl)).1
  have hsize : PageTable.PGSIZE.toNat = 4096 := rfl
  rw [Vm.MAXPG, Vm.MAXVA, Vm.PGSIZE] at hlt
  rw [BitVec.toNat_add, PGROUNDDOWN_toNat, hsize, Vm.PGSIZE]
  omega

theorem copyoutLoop_eq (turns : Nat) (src : List Byte) (mem : Memory) :
    copyoutLoop T turns va src mem = Paged.copyOut Vm.PGSIZE (pageMap T).walkaddr turns va.toNat src mem := by
  induction turns generalizing va src mem with
  | zero => rfl
  | succ turns ih =>
    obtain ⟨hwalk, hoff, hn⟩ := round_spec T va
    rw [copyoutLoop, Paged.copyOut]
    simp only [hwalk, hoff, hn]
    cases hf : (pageMap T).walkaddr (va.toNat / Vm.PGSIZE) with
    | none => rfl
    | some f => simp only [ih, next_toNat hf]

theorem copyinLoop_eq (mem : Memory) (turns len : Nat) :
    copyinLoop T mem turns va len = Paged.copyIn Vm.PGSIZE (pageMap T).walkaddr mem turns va.toNat len := by
  induction turns generalizing va len with
  | zero => rfl
  | succ turns ih =>
    obtain ⟨hwalk, hoff, hn⟩ := round_spec T va
    rw [copyinLoop, Paged.copyIn]
    simp only [hwalk, hoff, hn]
    cases hf : (pageMap T).walkaddr (va.toNat / Vm.PGSIZE) with
    | none => rfl
    | some f => simp only [ih, next_toNat hf]

theorem copyoutTo_eq (src : List Byte) (mem : Memory) :
    copyoutTo T va src mem = copyout (pageMap T) va.toNat src mem := copyoutLoop_eq ..

theorem copyinFrom_eq (mem : Memory) (len : Nat) :
    copyinFrom T mem va len = copyin (pageMap T) mem va.toNat len := copyinLoop_eq ..

/-! ## `copyout` and `copyin` -/

/-- All pages that `len` bytes from `va` on meet are user pages. -/
def UserRange (T : Vm.Table) (va : BitVec 64) (len : Nat) : Prop :=
  ∀ k < len, UserPage T ((va.toNat + k) / Vm.PGSIZE)

theorem mapped_iff {len : Nat} : Mapped (pageMap T) va.toNat len ↔ UserRange T va len :=
  forall₂_congr fun _ _ => walkaddr_isSome_iff

/-- The table maps no physical page twice. -/
def Apart (T : Vm.Table) : Prop := ∀ i j p q, T.get i = some p → T.get j = some q → p.pa = q.pa → i = j

theorem Apart.frames (h : Apart T) (i j : Nat) (f : Vm.Frame) (hi : (pageMap T).walkaddr i = some f)
    (hj : (pageMap T).walkaddr j = some f) : i = j := by
  have hget : ∀ {i}, (pageMap T).walkaddr i = some f → ∃ p, T.get i = some p ∧ p.pa = f := by
    intro i hi
    unfold pageMap frame at hi
    dsimp only at hi
    split_ifs at hi
    obtain ⟨p, hp, hpa⟩ := Option.bind_eq_some_iff.1 hi
    split_ifs at hpa
    exact ⟨p, hp, Option.some.inj hpa⟩
  obtain ⟨p, hp, rfl⟩ := hget hi
  obtain ⟨q, hq, hpq⟩ := hget hj
  exact h i j p q hp hq hpq.symm

theorem copyoutTo_result (src : List Byte) (mem : Memory) :
    ((copyoutTo T va src mem).1 = true ↔ UserRange T va src.length) ∧
      (copyoutTo T va src mem).2 = Paged.apply mem (stores (pageMap T) va.toNat src) := by
  rw [copyoutTo_eq, copyout_eq]
  exact ⟨decide_eq_true_iff.trans mapped_iff, rfl⟩

theorem copyinFrom_result (mem : Memory) (len : Nat) : ((copyinFrom T mem va len).1 = true ↔ UserRange T va len) ∧
      (copyinFrom T mem va len).2 = Paged.reads Vm.PGSIZE (pageMap T).walkaddr mem va.toNat len := by
  rw [copyinFrom_eq, copyin, Paged.copyIn_eq _ _ _ (by decide) (Nat.le_refl _)]
  exact ⟨decide_eq_true_iff.trans ((Paged.reads_length_eq_iff ..).trans mapped_iff), rfl⟩

/-- **`copyout` and `copyin` are inverse and local.** A `copyout` that fails is one of a part of the string, up to the
first page that is not a user page. -/
theorem copyout_copyin (hT : Apart T) (va : BitVec 64) (src : List Byte) (mem : Memory) :
    let out := copyoutTo T va src mem
    (out.1 = true ↔ UserRange T va src.length) ∧
    (∀ mem, (copyinFrom T mem va src.length).1 = true ↔ UserRange T va src.length) ∧
    (out.1 = true → copyinFrom T out.2 va src.length = (true, src)) ∧
    (∀ a, ¬ (va.toNat ≤ a ∧ a < va.toNat + src.length) → byte (pageMap T) out.2 a = byte (pageMap T) mem a) ∧
    (out.1 = false → ∃ n < src.length, UserRange T va n ∧ ¬ UserPage T ((va.toNat + n) / Vm.PGSIZE) ∧
      copyoutTo T va (src.take n) mem = (true, out.2)) := by
  intro out
  obtain ⟨hiff, hmem⟩ : (out.1 = true ↔ _) ∧ out.2 = _ := copyoutTo_result src mem
  have hload := Paged.load_writes Vm.PGSIZE (pageMap T).walkaddr hT.frames mem va.toNat src
  have hlen := Paged.writes_length_eq_iff Vm.PGSIZE (pageMap T).walkaddr va.toNat src
  have hle := Paged.writes_length_le Vm.PGSIZE (pageMap T).walkaddr va.toNat src
  refine ⟨hiff, fun mem => (copyinFrom_result mem _).1, fun hall => ?_, fun a ha => ?_, fun hbad => ?_⟩
  · have hrange := hiff.1 hall
    refine Prod.ext ((copyinFrom_result _ _).1.2 hrange) ?_
    rw [(copyinFrom_result _ _).2, hmem]
    refine Paged.reads_eq_of_load _ _ _ _ fun k hk => ?_
    have hall := hlen.2 (mapped_iff.2 hrange)
    rw [stores, hload, if_pos (by omega), Nat.add_sub_cancel_left]
  · rw [hmem]
    exact (hload a).trans (if_neg (by omega))
  generalize hn : (Paged.writes Vm.PGSIZE (pageMap T).walkaddr va.toNat src).length = n at hlen hle
  obtain ⟨htake, hnone⟩ := Paged.writes_prefix Vm.PGSIZE (pageMap T).walkaddr va.toNat src hn.symm
  have hlt : n < src.length := by
    refine Nat.lt_of_le_of_ne hle fun heq => ?_
    rw [hiff.2 (mapped_iff.1 (hlen.1 heq))] at hbad
    cases hbad
  have hnlen : (src.take n).length = n := by simp [hle]
  have hrange : UserRange T va n := by
    refine mapped_iff.1 ?_
    have := (Paged.writes_length_eq_iff Vm.PGSIZE (pageMap T).walkaddr va.toNat (src.take n)).1
    rw [htake, hn, hnlen] at this
    exact this rfl
  refine ⟨n, hlt, hrange, fun hpage => ?_, Prod.ext ((copyoutTo_result _ mem).1.2 (by rwa [hnlen])) ?_⟩
  · have := walkaddr_isSome_iff.2 hpage
    rw [hnone hlt] at this
    cases this
  · rw [(copyoutTo_result _ mem).2, hmem, stores, htake, stores]

/-- Page 0 is mapped, to page 5. -/
def zeroPage : Vm.Table where
  dirs := AList.singleton 0 ⟨1, AList.singleton 0 2⟩
  ptes := AList.singleton 0 ⟨5, { u := true }⟩
  hung i hi := by
    obtain rfl : i = 0 := by simpa [AList.singleton] using hi
    decide

theorem zeroPage_apart : Apart zeroPage := by
  have hget : ∀ {i p}, zeroPage.get i = some p → i = 0 := by
    intro i p h
    have hi : i ∈ zeroPage.ptes := AList.lookup_isSome.1 (by rw [show zeroPage.ptes.lookup i = some p from h]; rfl)
    simpa [zeroPage, AList.singleton] using hi
  exact fun i j p q hi hj _ => (hget hi).trans (hget hj).symm

/-- The second byte is behind the page. -/
theorem copyout_copyin_end : (copyoutTo zeroPage 4095 [7, 8] fun _ => 0).1 = false ∧ ∃ n < 2,
    copyoutTo zeroPage 4095 ([7, 8].take n) (fun _ => 0) = (true, (copyoutTo zeroPage 4095 [7, 8] fun _ => 0).2) := by
  have hfail : (copyoutTo zeroPage 4095 [7, 8] fun _ => 0).1 = false := by decide +kernel
  obtain ⟨n, hn, -, -, h⟩ := (copyout_copyin zeroPage_apart 4095 [7, 8] fun _ => 0).2.2.2.2 hfail
  exact ⟨hfail, n, hn, h⟩

/-! ## `copyinstr` -/

/-- The bytes up to the first NUL. -/
def upto : List Byte → Bool × List Byte
  | [] => (false, [])
  | b :: bs =>
    if b = 0 then (true, [0])
    else
      let rest := upto bs
      (rest.1, b :: rest.2)

theorem upto_append (l l' : List Byte) :
    upto (l ++ l') = if (upto l).1 then upto l else ((upto l').1, (upto l).2 ++ (upto l').2) := by
  induction l with
  | nil => rfl
  | cons b bs ih =>
    by_cases hb : b = 0
    · simp [upto, hb]
    · simp only [cons_append, upto, hb, if_false, ih]
      split_ifs <;> rfl

theorem copyinstrPage_eq (mem : Memory) (pa0 : Vm.Frame) (n o : Nat) :
    copyinstrPage mem pa0 n o = upto ((range' o n).map fun o => mem (pa0, o)) := by
  induction n generalizing o with
  | zero => rfl
  | succ n ih => rw [copyinstrPage, ih, range'_succ, map_cons, upto]

theorem copyinstrLoop_eq (mem : Memory) {turns max : Nat} (h : max ≤ turns) :
    copyinstrLoop T mem turns va max = upto (Paged.reads Vm.PGSIZE (pageMap T).walkaddr mem va.toNat max) := by
  induction turns generalizing va max with
  | zero =>
    obtain rfl := Nat.le_zero.1 h
    rfl
  | succ turns ih =>
    obtain ⟨hwalk, hoff, hn⟩ := round_spec T va
    rw [copyinstrLoop]
    cases max with
    | zero => rfl
    | succ max =>
      simp only [hwalk, hoff, hn, Nat.succ_ne_zero, if_false]
      cases hf : (pageMap T).walkaddr (va.toNat / Vm.PGSIZE) with
      | none => simp [Paged.reads, Paged.load, hf, upto]
      | some f =>
        have hmod := Nat.mod_lt va.toNat (show 0 < Vm.PGSIZE by decide)
        rw [Paged.reads_first _ _ _ (by decide) hf (max + 1) rfl, upto_append, ← copyinstrPage_eq,
          ih (by omega), next_toNat hf]

/-- The string at `va` ends at distance `k`, and all of it is in user pages. -/
def NulAt (T : Vm.Table) (mem : Memory) (va : BitVec 64) (k : Nat) : Prop :=
  UserRange T va (k + 1) ∧ byte (pageMap T) mem (va.toNat + k) = some 0

theorem upto_spec (l : List Byte) :
    ((upto l).1 = true → ∃ k, l[k]? = some 0 ∧ (∀ j < k, l[j]? ≠ some 0) ∧ (upto l).2 = l.take (k + 1)) ∧
      ((upto l).1 = false → 0 ∉ l ∧ (upto l).2 = l) := by
  induction l with
  | nil => exact ⟨nofun, fun _ => ⟨not_mem_nil, rfl⟩⟩
  | cons b bs ih =>
    by_cases hb : b = 0
    · subst hb
      exact ⟨fun _ => ⟨0, rfl, nofun, rfl⟩, nofun⟩
    simp only [upto, if_neg hb]
    refine ⟨fun h => ?_, fun h => ?_⟩
    · obtain ⟨k, hk, hlt, htake⟩ := ih.1 h
      refine ⟨k + 1, hk, fun j hj => ?_, by rw [htake, take_succ_cons]⟩
      cases j with
      | zero => simpa using hb
      | succ j => exact hlt j (by omega)
    · obtain ⟨hno, hall⟩ := ih.2 h
      exact ⟨fun hm => (mem_cons.1 hm).elim (fun h0 => hb h0.symm) hno, by rw [hall]⟩

/-- **`copyinstr` is a copy byte by byte.** It returns 0 when there is a NUL among the first `max` bytes and all pages up
to it are user pages, and has then stored the bytes up to the first NUL. -/
theorem copyinstr_spec (T : Vm.Table) (mem : Memory) (srcva max : BitVec 64) :
    let r := copyinstr T mem srcva max
    (r.1 = true ↔ ∃ k < max.toNat, NulAt T mem srcva k) ∧
    (r.1 = true → ∃ k < max.toNat, NulAt T mem srcva k ∧ (∀ j < k, ¬ NulAt T mem srcva j) ∧ r.2.length = k + 1 ∧
      ∀ j < k + 1, byte (pageMap T) mem (srcva.toNat + j) = r.2[j]?) ∧
    (r.1 = false → r.2.length ≤ max.toNat) := by
  have hr : copyinstr T mem srcva max = _ := copyinstrLoop_eq mem (Nat.le_refl _)
  have hle := Paged.reads_length_le Vm.PGSIZE (pageMap T).walkaddr mem srcva.toNat max.toNat
  have htake := @Paged.reads_take _ _ Vm.PGSIZE (pageMap T).walkaddr mem srcva.toNat max.toNat
  have hbyte := @Paged.load_of_reads _ _ Vm.PGSIZE (pageMap T).walkaddr mem srcva.toNat max.toNat
  rw [hr]
  generalize Paged.reads Vm.PGSIZE (pageMap T).walkaddr mem srcva.toNat max.toNat = bs at hle htake hbyte ⊢
  -- the bytes before the first page that is not a user page
  have hrange : ∀ k, k ≤ max.toNat → (UserRange T srcva k ↔ k ≤ bs.length) := by
    intro k hk
    rw [← mapped_iff, Mapped, ← Paged.reads_length_eq_iff _ _ mem, ← htake hk, length_take]
    omega
  have hnul : ∀ k < max.toNat, (NulAt T mem srcva k ↔ bs[k]? = some 0) := by
    intro k hk
    rw [NulAt, hrange _ hk]
    constructor
    · exact fun ⟨hlt, h0⟩ => (hbyte hlt).symm.trans h0
    · intro h0
      have hlt := (List.getElem?_eq_some_iff.1 h0).1
      exact ⟨hlt, (hbyte hlt).trans h0⟩
  obtain ⟨hyes, hno⟩ := upto_spec bs
  have hfound : (upto bs).1 = true → ∃ k < max.toNat, NulAt T mem srcva k ∧ (∀ j < k, ¬ NulAt T mem srcva j) ∧
      (upto bs).2.length = k + 1 ∧ ∀ j < k + 1, byte (pageMap T) mem (srcva.toNat + j) = (upto bs).2[j]? := by
    intro h
    obtain ⟨k, hk, hlt, htake⟩ := hyes h
    have hkl := (List.getElem?_eq_some_iff.1 hk).1
    refine ⟨k, by omega, (hnul k (by omega)).2 hk, fun j hj => ?_, by rw [htake, length_take]; omega, fun j hj => ?_⟩
    · rw [hnul j (by omega)]
      exact hlt j hj
    · rw [htake, getElem?_take_of_lt hj]
      exact hbyte (by omega)
  refine ⟨⟨fun h => ?_, fun ⟨k, hk, h0⟩ => ?_⟩, hfound, fun h => by rwa [(hno h).2]⟩
  · obtain ⟨k, hk, h0, -⟩ := hfound h
    exact ⟨k, hk, h0⟩
  · by_contra hne
    exact (hno (by simpa using hne)).1 (mem_of_getElem? ((hnul k hk).1 h0))

end Xv6Riscv.User
