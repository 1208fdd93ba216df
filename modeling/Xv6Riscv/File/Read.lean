import Xv6Riscv.Blocks.Splice
import Xv6Riscv.Pipes.Model

/-!
# `fileread` and what it stores in user memory

| here | there |
| --- | --- |
| `pipereadLoop`, `piperead` | pipe.c:116, pipe.c:106: with `pi->lock` held, from the last look at the `while` on |
| `consoleread` | console.c:80; `input` are the characters that come to the front of `cons.buf` during the call |
| `fileread` | file.c:107 |

A read is its return value and the list of the bytes it stores, with their places in physical memory (`Store`).
`none` is a call that sleeps. The count of a pipe and of the console is an `int`, that of `readi` a `uint`, so
a negative one is a large one there.
-/
namespace Xv6Riscv.File
open Blocks List
open User (PageMap Memory Mapped stores firstPage)
open Pipes (Pipe Byte)

abbrev Store := (Nat × Nat) × Byte

/-- The result of `copyout` and its stores. -/
def copyout (pt : PageMap) (dstva : Nat) (src : List Byte) : Bool × List Store :=
  (Mapped pt dstva src.length, stores pt dstva src)

theorem copyout_spec (pt : PageMap) (dstva : Nat) (src : List Byte) (mem : Memory) :
    User.copyout pt dstva src mem = ((copyout pt dstva src).1, Paged.apply mem (copyout pt dstva src).2) :=
  User.copyout_eq pt dstva src mem

/-! ## The three kinds of files -/

/-- The loop of `piperead` with `n` iterations to go. -/
def pipereadLoop (pt : PageMap) (addr : Nat) : Nat → Nat → Pipe → Nat × List Store × Pipe
  | 0, i, pi => (i, [], pi)
  | n + 1, i, pi =>
    if pi.nread = pi.nwrite then (i, [], pi)
    else
      let out := copyout pt (addr + i) [pi.pop.1]
      if out.1 then
        let r := pipereadLoop pt addr n (i + 1) pi.pop.2
        (r.1, out.2 ++ r.2.1, r.2.2)
      else (i, out.2, pi.pop.2)

def piperead (pt : PageMap) (addr : Nat) (n : Int) (killed : Bool) (pi : Pipe) : Option (Int × List Store × Pipe) :=
  if pi.nread = pi.nwrite ∧ pi.writeopen then if killed then some (-1, [], pi) else none
  else
    let r := pipereadLoop pt addr n.toNat 0 pi
    some (r.1, r.2.1, r.2.2)

/-- `C('D')` -/
def CTRL_D : Byte := 4

/-- The loop of `consoleread` with `n` characters to go and `done` of them stored. -/
def consoleread (pt : PageMap) (dst : Nat) (killed : Bool) : Nat → Nat → List Byte → Option (Int × List Store)
  | 0, done, _ => some (done, [])
  | _ + 1, _, [] => if killed then some (-1, []) else none
  | n + 1, done, c :: input =>
    if c = CTRL_D then some (done, [])
    else
      let out := copyout pt (dst + done) [c]
      if out.1 = false then some (done, out.2)
      else if c = 10 then some (done + 1, out.2)
      else (consoleread pt dst killed n (done + 1) input).map fun r => (r.1, out.2 ++ r.2)

variable (sb : Super) (pt : PageMap) (addr : Nat)

inductive Kind where
  | pipe (pi : Pipe)
  | device (major : Int)
  | inode (x : Nat) (off : BitVec 32)

/-- `struct file` -/
structure Open where
  readable : Bool
  kind : Kind

/-- `CONSOLE`, the only entry of `devsw` with a `read`. -/
def CONSOLE : Int := 1

def fileread (s : St) (killed : Bool) (input : List Byte) (n : BitVec 32) (f : Open) :
    Except Panic (Option (Int × List Store)) :=
  if f.readable = false then .ok (some (-1, []))
  else
    match f.kind with
    | .pipe pi => .ok ((piperead pt addr n.toInt killed pi).map fun r => (r.1, r.2.1))
    | .device major => .ok (if major = CONSOLE then consoleread pt addr killed n.toInt.toNat 0 input else some (-1, []))
    | .inode x off => do
      let s ← ilock sb s x
      let r ← readi sb s x (fun tot => copyout pt (addr + tot)) off n
      .ok (some (r.1, r.2.1))

/-! ## Stores -/

variable {pt addr} {n i : Nat} {pi : Pipe}

theorem stores_cons (a : Nat) (b : Byte) (bs : List Byte) :
    stores pt a (b :: bs) = if Mapped pt a 1 then stores pt a [b] ++ stores pt (a + 1) bs else [] := by
  have hm : Mapped pt a 1 ↔ (pt.walkaddr (a / Vm.PGSIZE)).isSome :=
    (Paged.mapped_succ ..).trans (and_iff_left (Paged.mapped_zero _ _ _))
  simp only [stores, Paged.writes, hm]
  cases pt.walkaddr (a / Vm.PGSIZE) <;> simp

theorem stores_length_le (pt : PageMap) (a : Nat) (src : List Byte) : (stores pt a src).length ≤ src.length :=
  Paged.writes_length_le ..

/-! ## `piperead` -/

/-- The bytes that were put in and not taken out. -/
def avail (pi : Pipe) : Nat := (pi.nwrite - pi.nread).toNat

/-- The next `k` bytes of the ring. -/
def front (pi : Pipe) : Nat → List Byte
  | 0 => []
  | k + 1 => pi.pop.1 :: front pi.pop.2 k

@[simp] theorem front_length (k : Nat) : (front pi k).length = k := by
  induction k generalizing pi with
  | zero => rfl
  | succ k ih => exact congrArg (· + 1) ih

/-- The pipe without its next `k` bytes. -/
def skip (pi : Pipe) (k : Nat) : Pipe := { pi with nread := pi.nread + BitVec.ofNat 32 k }

theorem skip_succ (k : Nat) : skip pi.pop.2 k = skip pi (k + 1) := by
  unfold skip Pipe.pop
  rw [Nat.add_comm k 1, BitVec.ofNat_add, ← BitVec.add_assoc]

theorem avail_pop (h : pi.nread ≠ pi.nwrite) : avail pi = avail pi.pop.2 + 1 := by
  unfold avail Pipe.pop
  bv_omega

theorem avail_eq_zero (h : pi.nread = pi.nwrite) : avail pi = 0 := by
  unfold avail
  rw [h, BitVec.sub_self]
  rfl

theorem skip_zero (pi : Pipe) : skip pi 0 = pi := by simp [skip]

/-- **What the loop does.** It takes the bytes it stores, and one more if that one cannot be stored. -/
theorem pipereadLoop_eq {m : Nat} (hm : m = min n (avail pi)) :
    pipereadLoop pt addr n i pi =
      let ws := stores pt (addr + i) (front pi m)
      (i + ws.length, ws, skip pi (if ws.length = m then m else ws.length + 1)) := by
  induction n generalizing i pi m with
  | zero =>
    obtain rfl : m = 0 := by omega
    simp [pipereadLoop, front, stores, Paged.writes, skip_zero]
  | succ n ih =>
    rw [pipereadLoop]
    by_cases he : pi.nread = pi.nwrite
    · rw [avail_eq_zero he, Nat.min_zero] at hm
      subst hm
      simp [he, front, stores, Paged.writes, skip_zero]
    have hav := avail_pop he
    obtain ⟨m, rfl⟩ : ∃ k, m = k + 1 := ⟨min n (avail pi.pop.2), by omega⟩
    rw [if_neg he, front, stores_cons, ih (show m = min n (avail pi.pop.2) by omega)]
    by_cases hmap : Mapped pt (addr + i) 1
    · have hlen : (stores pt (addr + i) [pi.pop.1]).length = 1 := (Paged.writes_length_eq_iff ..).2 hmap
      simp only [copyout, length_singleton, hmap, decide_true, if_true, length_append, hlen, skip_succ,
        Nat.add_assoc, Nat.add_comm 1, Nat.add_right_cancel_iff]
      split <;> rfl
    · have hnil : stores pt (addr + i) [pi.pop.1] = [] := by rw [stores_cons, if_neg hmap]
      simp [copyout, hmap, hnil, ← skip_succ, skip_zero]

/-- The next `i` bytes of the pipe are in the buffer, and no others were taken. -/
structure Consumed (pt : PageMap) (addr : Nat) (pi : Pipe) (i : Nat) (ws : List Store) (pi' : Pipe) : Prop where
  available : i ≤ avail pi
  stored : ws = stores pt addr (front pi i)
  complete : ws.length = i
  advanced : pi' = skip pi i

/-- **`piperead` consumes what it reports** when the part of the buffer that the bytes of the pipe go to is mapped, and
only then: the byte that it cannot store is taken out and not counted. -/
theorem piperead_consumes {n r : Int} {killed : Bool} {ws : List Store} {pi' : Pipe}
    (h : piperead pt addr n killed pi = some (r, ws, pi')) :
    (0 ≤ r → Consumed pt addr pi r.toNat ws pi') ↔ Mapped pt addr (min n.toNat (avail pi)) := by
  unfold piperead at h
  split at h
  · next hwait =>
    rw [avail_eq_zero hwait.1, Nat.min_zero]
    split at h <;> cases h
    exact iff_of_true nofun (Paged.mapped_zero _ _ _)
  have hle : min n.toNat (avail pi) ≤ avail pi := Nat.min_le_right ..
  rw [pipereadLoop_eq rfl] at h
  generalize min n.toNat (avail pi) = m at h hle ⊢
  have hiff : (stores pt addr (front pi m)).length = m ↔ Mapped pt addr m := by
    have := Paged.writes_length_eq_iff Vm.PGSIZE pt.walkaddr addr (front pi m)
    rwa [front_length] at this
  cases h
  simp only [← hiff, Nat.zero_add, Nat.add_zero, Int.toNat_natCast]
  constructor
  · intro hc
    by_contra hne
    have hskip := congrArg Pipe.nread (hc (Int.natCast_nonneg _)).advanced
    rw [if_neg hne, skip, skip, BitVec.ofNat_add] at hskip
    bv_omega
  · intro heq _
    rw [if_pos heq, heq]
    exact ⟨hle, rfl, heq, rfl⟩

def twoBytes : Pipe := ⟨fun _ => 7, 0, 2, true, true⟩

theorem piperead_consumes_two : ∃ ws pi', piperead firstPage 0 2 false twoBytes = some (2, ws, pi') ∧
    Consumed firstPage 0 twoBytes 2 ws pi' :=
  ⟨_, _, rfl, (piperead_consumes (n := 2) (r := 2) (show piperead _ _ _ false _ = _ from rfl)).2 (by decide) (by decide)⟩

/-- The second byte has no place in the buffer: the call returns 1, and 2 bytes are gone. -/
theorem piperead_loses_byte :
    (piperead firstPage 4095 2 false twoBytes).map (fun r => (r.1, r.2.1, r.2.2.nread)) =
      some (1, [((5, 4095), 7)], 2) := by
  decide

/-! ## The bounds of a read -/

/-- At most `max(n, 0)` bytes are stored, and what is returned is -1 or a number of bytes up to there. -/
def Within (n : Int) (r : Int × List Store) : Prop := r.2.length ≤ n.toNat ∧ (r.1 = -1 ∨ 0 ≤ r.1 ∧ r.1 ≤ n.toNat)

theorem piperead_within {n r : Int} {killed : Bool} {ws : List Store} {pi' : Pipe}
    (h : piperead pt addr n killed pi = some (r, ws, pi')) : Within n (r, ws) := by
  unfold piperead at h
  split at h
  · split at h <;> cases h
    exact ⟨Nat.zero_le _, .inl rfl⟩
  have hle := stores_length_le pt (addr + 0) (front pi (min n.toNat (avail pi)))
  rw [front_length] at hle
  rw [pipereadLoop_eq rfl] at h
  cases h
  simp only [Within, Nat.zero_add]
  omega

theorem consoleread_within {killed : Bool} {done : Nat} {input : List Byte} {r : Int × List Store}
    (h : consoleread pt addr killed n done input = some r) :
    r.2.length ≤ n ∧ (r.1 = -1 ∨ 0 ≤ r.1 ∧ r.1 ≤ (done + n : Nat)) := by
  induction n generalizing done input r with
  | zero =>
    cases h
    exact ⟨Nat.le_refl 0, .inr ⟨Int.natCast_nonneg _, Int.le_refl _⟩⟩
  | succ n ih =>
    cases input with
    | nil =>
      rw [consoleread] at h
      split at h <;> cases h
      exact ⟨Nat.zero_le _, .inl rfl⟩
    | cons c input =>
      have hone := stores_length_le pt (addr + done) [c]
      rw [length_singleton] at hone
      rw [consoleread] at h
      dsimp only at h
      split_ifs at h
      · cases h
        exact ⟨Nat.zero_le _, .inr (by omega)⟩
      · cases h
        exact ⟨hone.trans (by omega), .inr (by omega)⟩
      · cases h
        exact ⟨hone.trans (by omega), .inr (by omega)⟩
      · obtain ⟨r', hr', rfl⟩ := Option.map_eq_some_iff.1 h
        obtain ⟨hlen, hret⟩ := ih hr'
        have happ : (stores pt (addr + done) [c] ++ r'.2).length = _ := length_append
        exact ⟨happ.trans_le (by omega), by omega⟩

/-! ## `readi` -/

theorem mapped_add (a m n : Nat) : Mapped pt a (m + n) ↔ Mapped pt a m ∧ Mapped pt (a + m) n := Paged.mapped_add ..

/-- `either_copyout` with `user_dst` 1. -/
theorem copyout_streams : Streams fun tot => copyout pt (addr + tot) := by
  refine ⟨fun tot => ?_, fun tot l l' => ?_⟩
  · simp [copyout, stores, Paged.writes, show Mapped pt (addr + tot) 0 from Paged.mapped_zero _ _ _]
  have happ : stores pt (addr + tot) (l ++ l') = stores pt (addr + tot) l ++
      if Mapped pt (addr + tot) l.length then stores pt (addr + tot + l.length) l' else [] := Paged.writes_append ..
  simp only [copyout, length_append, mapped_add, happ]
  by_cases hmap : Mapped pt (addr + tot) l.length <;> simp [hmap, Nat.add_assoc]

variable {sb} {s : St} {x : Nat}

/-- The bytes of `l` are too many when the count is negative, unless the first of them has no place. -/
theorem within_iff {n : Int} {l : List Byte} (hle : 0 ≤ n → l.length ≤ n.toNat) :
    Within n (if Mapped pt addr l.length then (l.length : Int) else -1, stores pt addr l) ↔
      ¬ (n < 0 ∧ l ≠ [] ∧ Mapped pt addr 1) := by
  have hlen := stores_length_le pt addr l
  cases l with
  | nil => exact iff_of_true ⟨Nat.zero_le _, .inr (by simp [Mapped, Paged.Mapped])⟩ fun hn => hn.2.1 rfl
  | cons b bs =>
    by_cases hneg : n < 0
    · have hzero : n.toNat = 0 := Int.toNat_of_nonpos (Int.le_of_lt hneg)
      rw [stores_cons] at hlen ⊢
      by_cases hone : Mapped pt addr 1
      · have h1 : (stores pt addr [b]).length = 1 := (Paged.writes_length_eq_iff ..).2 hone
        refine iff_of_false (fun hw => ?_) (not_not.2 ⟨hneg, by simp, hone⟩)
        have := hw.1
        rw [if_pos hone, length_append, h1, hzero] at this
        omega
      · have hall : ¬ Mapped pt addr (b :: bs).length :=
          fun hm => hone ((mapped_add addr 1 bs.length).1 (Nat.add_comm _ 1 ▸ hm)).1
        rw [if_neg hone, if_neg hall]
        exact iff_of_true ⟨Nat.zero_le _, .inl rfl⟩ fun hn => hone hn.2.2
    · have hle := hle (by omega)
      refine iff_of_true ⟨hlen.trans hle, ?_⟩ fun hn => hneg hn.1
      split <;> omega

theorem ilock_mem {s' : St} (h : ilock sb s x = .ok s') : s'.mem x = s.inode sb x := by
  unfold ilock at h
  unfold Fs.inode
  dsimp only at h
  split_ifs at h with _ hv
  · cases h
    rw [if_pos hv]
  · cases h
    rw [if_neg hv]
    exact Function.update_self ..

/-- A negative count, cast to `uint`, does not wrap at this offset, and there is something to read. -/
def ReadsAll (sb : Super) (s : St) (pt : PageMap) (addr : Nat) (n : BitVec 32) (f : Open) : Prop :=
  f.readable = true ∧ ∃ x off, f.kind = .inode x off ∧ n.toInt < 0 ∧ (off.toNat : Int) < -n.toInt ∧
    off.toNat < (s.inode sb x).size ∧ Mapped pt addr 1

/-- **A read stays within its count**, unless the count is negative and the file is an inode with something to read at
an offset smaller than `-n`: then all of it is read. -/
theorem fileread_within {killed : Bool} {input : List Byte} {n : BitVec 32} {f : Open} {r : Int × List Store}
    (h : Inv sb s) (hr : fileread sb pt addr s killed input n f = .ok (some r)) :
    Within n.toInt r ↔ ¬ ReadsAll sb s pt addr n f := by
  have hsafe : ¬ (∃ x off, f.kind = .inode x off) → ¬ ReadsAll sb s pt addr n f :=
    fun hno ⟨_, x, off, hk, _⟩ => hno ⟨x, off, hk⟩
  unfold fileread at hr
  split at hr
  · next hread =>
    cases hr
    exact iff_of_true ⟨Nat.zero_le _, .inl rfl⟩ fun hall => by simp [hall.1] at hread
  next hread =>
  cases hk : f.kind with
  | pipe pi =>
    simp only [hk] at hr hsafe
    obtain ⟨⟨r1, ws, pi'⟩, hp, rfl⟩ := Option.map_eq_some_iff.1 (Except.ok.inj hr)
    exact iff_of_true (piperead_within hp) (hsafe nofun)
  | device major =>
    simp only [hk] at hr hsafe
    refine iff_of_true ?_ (hsafe nofun)
    have hr := Except.ok.inj hr
    split at hr
    · have hc := consoleread_within hr
      rwa [Nat.zero_add] at hc
    · cases hr
      exact ⟨Nat.zero_le _, .inl rfl⟩
  | inode x off =>
    simp only [hk] at hr
    have hlock := ilock_spec (x := x) h
    cases hl : ilock sb s x with
    | error p => simp [hl, Bind.bind, Except.bind] at hr
    | ok s1 =>
      rw [hl] at hr hlock
      obtain ⟨hinv, hv, -⟩ := hlock
      have hsize := congrArg Inode.size (ilock_mem hl)
      generalize hm : (if (off + n).toNat < off.toNat then 0 else min n.toNat ((s1.mem x).size - off.toNat)) = m
      simp only [Bind.bind, Except.bind, copyout_streams.readi_eq (hinv.busy hv).2 off n hm.symm] at hr
      cases hr
      have hlen : (s1.bytes x off.toNat m).length = m := by simp [St.bytes]
      have hadd := BitVec.toNat_add off n
      have hint := BitVec.toInt_eq_toNat_cond n
      have hw := @within_iff pt addr n.toInt (s1.bytes x off.toNat m)
      rw [hlen] at hw
      simp only [copyout, hlen, decide_eq_true_eq, Nat.add_zero]
      rw [hw (by intro; split at hint <;> split at hm <;> omega), not_iff_not, ReadsAll]
      have hnil : s1.bytes x off.toNat m ≠ [] ↔ 0 < m := by rw [← length_pos_iff, hlen]
      rw [hnil]
      constructor
      · rintro ⟨hneg, hpos, hone⟩
        refine ⟨by simpa using hread, x, off, hk, hneg, ?_, ?_, hone⟩ <;> split at hint <;> split at hm <;> omega
      rintro ⟨-, x', off', hk', hneg, hwrap, hin, hone⟩
      rw [hk] at hk'
      cases hk'
      refine ⟨hneg, ?_, hone⟩
      split at hint <;> split at hm <;> omega

theorem writtenFile_inv : Inv smallDisk writtenFile := reach_inv writtenFile_reach

theorem fileread_within_written :
    ∃ r, fileread smallDisk firstPage 4090 writtenFile false [] 20 ⟨true, .inode 1 0⟩ = .ok (some r) ∧ Within 20 r := by
  have hrun : (fileread smallDisk firstPage 4090 writtenFile false [] 20 ⟨true, .inode 1 0⟩).toOption.join.isSome := by
    decide +kernel
  cases hr : fileread smallDisk firstPage 4090 writtenFile false [] 20 ⟨true, .inode 1 0⟩ with
  | error p => rw [hr] at hrun; cases hrun
  | ok o =>
    rw [hr] at hrun
    obtain ⟨r, rfl⟩ := Option.isSome_iff_exists.1 hrun
    exact ⟨r, rfl, (fileread_within writtenFile_inv hr).2 fun hall => by simp [ReadsAll] at hall⟩

/-- `read(fd, buf, -1)` at the beginning of a file of 1500 bytes. -/
theorem fileread_reads_all :
    ((fileread smallDisk firstPage 0 writtenFile false [] (-1) ⟨true, .inode 1 0⟩).toOption.map fun r =>
      r.map fun r => (r.1, r.2.length)) = some (some (1500, 1500)) := by
  decide +kernel

end Xv6Riscv.File
