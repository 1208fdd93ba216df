import Mathlib.Computability.Language

/-!
# The pattern matcher of `grep` (user/grep.c:71-105)

`lang re` says which texts have a match of `re` at their beginning, as a product of languages. Strings are lists of
bytes without the NUL behind them.
-/
namespace Xv6Riscv.Grep
open Computability

abbrev Byte := BitVec 8

/-- `*`, `.`, `^`, `$` -/
def STAR : Byte := 0x2a
def DOT : Byte := 0x2e
def CARET : Byte := 0x5e
def DOLLAR : Byte := 0x24

mutual

def matchhere (re text : List Byte) : Bool :=
  match re with
  | [] => true
  | c :: re =>
    if re.head? = some STAR then matchstar c re.tail text
    else if c = DOLLAR ∧ re = [] then text.isEmpty
    else
      match text with
      | [] => false
      | x :: text => (c = DOT || c = x) && matchhere re text
termination_by (re.length, text.length)

def matchstar (c : Byte) (re text : List Byte) : Bool :=
  matchhere re text ||
    match text with
    | [] => false
    | x :: text => (x = c || c = DOT) && matchstar c re text
termination_by (re.length, text.length + 1)

end

/-- The loop of `match`. -/
def matchFrom (re : List Byte) : List Byte → Bool
  | [] => matchhere re []
  | x :: text => matchhere re (x :: text) || matchFrom re text

/-- `match` -/
def matchRe (re text : List Byte) : Bool :=
  if re.head? = some CARET then matchhere re.tail text else matchFrom re text

/-! ## The language of a pattern -/

/-- The texts of one character that `c` stands for. -/
def one (c : Byte) : Language Byte := {w | ∃ x, w = [x] ∧ (c = DOT ∨ c = x)}

def lang : List Byte → Language Byte
  | [] => ⊤
  | c :: re =>
    if re.head? = some STAR then (one c)∗ * lang re.tail
    else if c = DOLLAR ∧ re = [] then 1
    else one c * lang re
termination_by re => re.length

/-- Without `^` a match may begin anywhere. -/
def language (re : List Byte) : Language Byte :=
  if re.head? = some CARET then lang re.tail else ⊤ * lang re

variable {c x : Byte} {re text : List Byte} {L : Language Byte}

theorem nil_mem_one_mul : [] ∉ one c * L := by
  rintro ⟨_, ⟨x, rfl, -⟩, b, -, h⟩
  cases h

theorem cons_mem_one_mul : x :: text ∈ one c * L ↔ (c = DOT ∨ c = x) ∧ text ∈ L := by
  constructor
  · rintro ⟨_, ⟨y, rfl, hc⟩, b, hb, h⟩
    cases h
    exact ⟨hc, hb⟩
  · rintro ⟨hc, hL⟩
    exact Language.append_mem_mul (a := [x]) ⟨x, rfl, hc⟩ hL

/-- No occurrence, or one and then some. -/
theorem mem_star_mul : text ∈ (one c)∗ * L ↔ text ∈ L ∨ text ∈ one c * ((one c)∗ * L) := by
  conv_lhs => rw [← Language.one_add_self_mul_kstar_eq_kstar, add_mul, one_mul, mul_assoc]
  exact Iff.rfl

theorem matchstar_iff (h : ∀ text, matchhere re text = true ↔ text ∈ lang re) :
    matchstar c re text = true ↔ text ∈ (one c)∗ * lang re := by
  induction text with
  | nil =>
    rw [matchstar, mem_star_mul]
    simp [h, nil_mem_one_mul]
  | cons x text ih =>
    rw [matchstar, mem_star_mul, cons_mem_one_mul, ← ih]
    simp [h, or_comm, eq_comm (a := x)]

theorem matchhere_iff : matchhere re text = true ↔ text ∈ lang re := by
  induction hn : re.length using Nat.strong_induction_on generalizing re text with
  | _ n ih =>
    cases re with
    | nil =>
      rw [matchhere, lang]
      exact iff_of_true rfl trivial
    | cons c re =>
      unfold matchhere lang
      split_ifs with hstar hend
      · exact matchstar_iff fun text => ih re.tail.length (by rw [← hn, List.length_cons, List.length_tail]; omega) rfl
      · simp [Language.mem_one]
      cases text with
      | nil => simp [nil_mem_one_mul]
      | cons x text =>
        rw [cons_mem_one_mul, ← ih re.length (by simp [← hn]) rfl]
        simp

theorem cons_mem_top_mul : x :: text ∈ ⊤ * L ↔ x :: text ∈ L ∨ text ∈ ⊤ * L := by
  constructor
  · rintro ⟨a, -, b, hb, h⟩
    cases a with
    | nil =>
      cases h
      exact .inl hb
    | cons y a =>
      cases h
      exact .inr (Language.append_mem_mul trivial hb)
  · rintro (h | ⟨a, -, b, hb, rfl⟩)
    · exact Language.append_mem_mul (a := []) trivial h
    · exact Language.append_mem_mul (a := x :: a) trivial hb

theorem matchFrom_iff : matchFrom re text = true ↔ text ∈ ⊤ * lang re := by
  induction text with
  | nil =>
    rw [matchFrom, matchhere_iff]
    constructor
    · exact fun h => Language.append_mem_mul (a := []) trivial h
    · rintro ⟨a, -, b, hb, h⟩
      obtain ⟨-, rfl⟩ := List.append_eq_nil_iff.1 h
      exact hb
  | cons x text ih => rw [matchFrom, cons_mem_top_mul, Bool.or_eq_true, matchhere_iff, ih]

/-- **The matcher decides the language of the pattern.** -/
theorem matchRe_iff (re text : List Byte) : matchRe re text = true ↔ text ∈ language re := by
  unfold matchRe language
  split_ifs
  · exact matchhere_iff
  · exact matchFrom_iff

end Xv6Riscv.Grep
