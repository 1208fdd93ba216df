import Xv6Riscv.Blocks.Ownership
import Xv6Riscv.User.Copy

/-!
# `writei` as a splice of bytes

A file is the sequence of bytes at `St.byte`, as long as its size. `writei` puts source bytes in place chunk by chunk.
A chunk that `either_copyin` gives up has changed the buffer already, and the loop leaves without `log_write`. The bytes
that had arrived stay in the buffer cache. If the block is in the log header for another reason, they get to the disk
with it; otherwise they go when the buffer is evicted.
-/
namespace Xv6Riscv.Blocks
open Layout Machine Function List

/-! ## Where the bytes come from -/

/-- `user_src` and `src`: an address of the kernel or one of the process. -/
inductive Src where
  | kernel (mem : Nat → BitVec 8) (src : Nat)
  | user (pt : User.PageMap) (mem : User.Memory) (src : Nat)

/-- Byte `k` of the source, if its page is mapped. -/
def Src.byte : Src → Nat → Option (BitVec 8)
  | .kernel mem src, k => some (mem (src + k))
  | .user pt mem src, k => User.byte pt mem (src + k)

/-- `either_copyin` (proc.c:963) of `m` bytes from `src + tot`. -/
def Src.eitherCopyin (tot m : Nat) : Src → Source
  | .kernel mem src => ⟨fun k => mem (src + tot + k), true, 0⟩
  | .user pt mem src =>
    let r := User.copyin pt mem (src + tot) m
    ⟨fun k => r.2.getD k 0, r.1, r.2.length⟩

/-- The chunks of a `writei` of `n` bytes at `off`. -/
def Src.chunks (src : Src) (off n tot : Nat) : Source := src.eitherCopyin tot (chunk (n - tot) (off + tot))

/-- How many bytes of a chunk of `m` arrive. -/
def Source.got (c : Source) (m : Nat) : Nat := if c.ok then m else min c.part m

theorem Source.got_le (c : Source) (m : Nat) : c.got m ≤ m := by
  unfold Source.got
  split <;> omega

variable {m k len a b r base : Nat}

theorem Src.byte_of_got (src : Src) {tot : Nat} (hk : k < (src.eitherCopyin tot m).got m) :
    src.byte (tot + k) = some ((src.eitherCopyin tot m).data k) := by
  cases src with
  | kernel mem src => rw [Src.byte, ← Nat.add_assoc]; rfl
  | user pt mem src =>
    obtain ⟨hle, hok⟩ := User.copyin_result pt mem (src + tot) m
    have hlen : k < (User.copyin pt mem (src + tot) m).2.length := by
      change k < if (User.copyin pt mem (src + tot) m).1 = true then m else
        min (User.copyin pt mem (src + tot) m).2.length m at hk
      split at hk
      · next h => rwa [hok.1 h]
      · omega
    rw [Src.byte, ← Nat.add_assoc, User.copyin_byte pt hlen, List.getElem?_eq_getElem hlen]
    exact congrArg some (getD_eq_getElem _ _ hlen).symm

/-! ## The bytes of a file -/

variable {sb : Super} {s s' t : St} {x n off tot : Nat}

def St.byte (s : St) (x k : Nat) : BitVec 8 := s.disk (s.addr x (k / BSIZE)) (k % BSIZE)

theorem Keeps.byte (h : Keeps s s' x) (h0 : s.addr x (k / BSIZE) ≠ 0) : s'.byte x k = s.byte x k :=
  congrFun (h _ h0) _

theorem Filled.addr {size : Nat} (h : Filled s x size) (hk : k < size) : s.addr x (k / BSIZE) ≠ 0 :=
  h _ (Nat.lt_of_le_of_lt (Nat.div_mul_le_self k BSIZE) hk)

/-- A chunk of `m` bytes, or the part of it that arrives, is put in the block of `off`. -/
abbrev St.arrive (s : St) (x off : Nat) (c : Source) (m : Nat) : St :=
  s.setBuf (s.addr x (off / BSIZE)) (c.copy (s.disk (s.addr x (off / BSIZE))) (off % BSIZE) m)

section
variable (h : Busy sb s x) (h0 : s.addr x (off / BSIZE) ≠ 0) (c : Source)
include h h0 c

theorem Busy.arrive (m : Nat) : Busy sb (s.arrive x off c m) x ∧ Grows s (s.arrive x off c m) x :=
  ⟨(h.writeData h0 _).1.relog s.lh, (h.writeData h0 _).2⟩

theorem Busy.byte_copy (hm : m ≤ BSIZE - off % BSIZE) (hk : s.addr x (k / BSIZE) ≠ 0) :
    (s.arrive x off c m).byte x k = if off ≤ k ∧ k < off + c.got m then c.data (k - off) else s.byte x k := by
  have hgot := c.got_le m
  rw [St.byte, (h.arrive h0 c m).2.2 _ hk]
  by_cases hbn : k / BSIZE = off / BSIZE
  · have hself : (s.arrive x off c m).disk (s.addr x (off / BSIZE)) =
        c.copy (s.disk (s.addr x (off / BSIZE))) (off % BSIZE) m := update_self ..
    have hiff : (off % BSIZE ≤ k % BSIZE ∧ k % BSIZE < off % BSIZE + c.got m) ↔ (off ≤ k ∧ k < off + c.got m) := by
      unfold BSIZE at *
      omega
    have hsub : k % BSIZE - off % BSIZE = k - off := by
      unfold BSIZE at *
      omega
    rw [hbn, hself, St.byte, hbn, Source.copy]
    rw [hsub]
    exact if_congr hiff rfl rfl
  · have hne : s.addr x (k / BSIZE) ≠ s.addr x (off / BSIZE) := fun heq => hbn (h.addr_inj h0 heq)
    have hout : ¬ (off ≤ k ∧ k < off + c.got m) := by
      unfold BSIZE at *
      omega
    rw [if_neg hout]
    exact congrFun (update_of_ne hne ..) _

end

/-- `len` bytes of a source, from its byte `tot` on, are put in place at `off`; the rest of the content stays. -/
structure Moved (byte : Nat → Option (BitVec 8)) (x : Nat) (s s' : St) (off tot len : Nat) : Prop where
  written : ∀ k < len, byte (tot + k) = some (s'.byte x (off + k))
  kept : ∀ k, s.addr x (k / BSIZE) ≠ 0 → k < off ∨ off + len ≤ k → s'.byte x k = s.byte x k

variable {byte : Nat → Option (BitVec 8)}

theorem Moved.of_keeps (h : Keeps s s' x) : Moved byte x s s' off tot 0 where
  written k hk := absurd hk (Nat.not_lt_zero k)
  kept _ h0 _ := h.byte h0

theorem Moved.trans {tot' : Nat} (h : Moved byte x s s' off tot m) (h' : Moved byte x s' t (off + m) tot' len)
    (htot : tot' = tot + m) (hg : Grows s s' x) (hf : Filled s' x (off + m)) : Moved byte x s t off tot (m + len) where
  written k hk := by
    by_cases hlt : k < m
    · rw [h'.kept (off + k) (hf.addr (by omega)) (.inl (by omega))]
      exact h.written k hlt
    · have hnext := h'.written (k - m) (by omega)
      rwa [htot, show tot + m + (k - m) = tot + k by omega, show off + m + (k - m) = off + k by omega] at hnext
  kept k h0 hout := by
    have h1 : s'.addr x (k / BSIZE) ≠ 0 := by rw [hg.2 _ h0]; exact h0
    rw [h'.kept k h1 (by omega), h.kept k h0 (by omega)]

theorem Busy.moved_copy {c : Source} (h : Busy sb s x)
    (hf : Filled s x off) (h0 : s.addr x (off / BSIZE) ≠ 0) (hm : m ≤ BSIZE - off % BSIZE)
    (hc : ∀ k < c.got m, byte (tot + k) = some (c.data k)) : Moved byte x s (s.arrive x off c m) off tot (c.got m) where
  written k hk := by
    have hgot := c.got_le m
    rw [h.byte_copy h0 c hm ((hf.chunk h0 hm).addr (by omega)), if_pos (by omega), Nat.add_sub_cancel_left]
    exact hc k hk
  kept k hk hout := by rw [h.byte_copy h0 c hm hk, if_neg (by omega)]

/-! ## The log -/

/-- What `bread` finds in `t` is what it finds in `s`, or for a block whose buffer was evicted what is at its home on
the disk. The buffers of the blocks in the log header are pinned; a commit writes them home as they are. -/
def Evicts (home : Nat → Bytes) (s t : St) : Prop :=
  ∃ disk, t = { s with disk := disk } ∧ ∀ b, disk b = s.disk b ∨ b ∉ s.lh ∧ disk b = home b

theorem Evicts.refl (home : Nat → Bytes) (s : St) : Evicts home s s := ⟨s.disk, rfl, fun _ => .inl rfl⟩

variable {home : Nat → Bytes}

/-- An eviction of blocks that, except for `a`, are at home as in the buffers. -/
theorem Evicts.eq_or (h : Evicts home s t)
    (hclean : ∀ b ∉ s.lh, b ≠ a → home b = s.disk b) : t = s ∨ a ∉ s.lh ∧ t = s.setBuf a (home a) := by
  obtain ⟨disk, rfl, hdisk⟩ := h
  have hrest : ∀ b ≠ a, disk b = s.disk b := by
    intro b hb
    obtain hsame | ⟨hout, hhome⟩ := hdisk b
    · exact hsame
    · exact hhome.trans (hclean b hout hb)
  obtain hsame | ⟨hout, hhome⟩ := hdisk a
  · have hall : disk = s.disk := funext fun b => by
      by_cases hb : b = a
      · rwa [hb]
      · exact hrest b hb
    exact .inl (by rw [hall])
  · exact .inr ⟨hout, by rw [St.setBuf, eq_update_iff.2 ⟨hhome, hrest⟩]⟩

/-- What changed on the way from `s` to `s'` is in the header by then. -/
structure Logs (s s' : St) : Prop where
  mono : s.lh ⊆ s'.lh
  disk : ∀ b ∉ s'.lh, s'.disk b = s.disk b

theorem Logs.refl (s : St) : Logs s s := ⟨Subset.refl _, fun _ _ => rfl⟩

theorem Logs.trans (h : Logs s s') (h' : Logs s' t) : Logs s t where
  mono := Subset.trans h.mono h'.mono
  disk b hb := (h'.disk b hb).trans (h.disk b fun hin => hb (h'.mono hin))

theorem Logs.setBlock (s : St) (b : Nat) (data : Bytes) : Logs s (s.setBlock b data) where
  mono := subset_cons_self ..
  disk _ hc := update_of_ne (ne_of_not_mem_cons hc) ..

theorem balloc_logs (sb : Super) (s : St) : Logs s (balloc sb s).2 := by
  unfold balloc
  split
  · exact { Logs.refl s with }
  · exact { (Logs.setBlock s ..).trans (.setBlock ..) with }

theorem bslot_logs (sb : Super) (s : St) (x k : Nat) : Logs s (bslot sb s x k).2 := by
  simp only [bslot]
  split_ifs
  · exact balloc_logs sb s
  · exact { balloc_logs sb s with }
  · exact .refl s

theorem bentry_logs (sb : Super) (s : St) (a k : Nat) : Logs s (bentry sb s a k).2 := by
  simp only [bentry]
  split_ifs
  · exact balloc_logs sb s
  · exact (balloc_logs sb s).trans (.setBlock ..)
  · exact .refl s

theorem bmap_logs {bn : Nat} (h : bmap sb s x bn = .ok (a, s')) : Logs s s' := by
  unfold bmap at h
  by_cases hlt : bn < NDIRECT
  · rw [if_pos hlt] at h
    obtain rfl := congrArg Prod.snd (Except.ok.inj h)
    exact bslot_logs ..
  · simp only [if_neg hlt] at h
    split at h
    · obtain rfl := congrArg Prod.snd (Except.ok.inj h)
      by_cases hfull : (bslot sb s x NDIRECT).1 = 0
      · rw [if_pos hfull]
        exact bslot_logs ..
      · rw [if_neg hfull]
        exact (bslot_logs ..).trans (bentry_logs ..)
    · cases h

/-! ## The loop of `writei` -/

/-- Where the first chunk from `tot` on starts that `either_copyin` gives up. -/
def Src.fails (src : Src) (off n tot : Nat) : Option Nat :=
  if tot < n then
    if (src.chunks off n tot).ok then src.fails off n (tot + chunk (n - tot) (off + tot)) else some tot
  else none
termination_by n - tot
decreasing_by
  have hleft : 0 < n - tot := by omega
  have := chunk_pos (off + tot) hleft
  omega

theorem Src.fails_ge {src : Src} (h : src.fails off n tot = some r) : tot ≤ r ∧ tot < n := by
  induction hleft : n - tot using Nat.strong_induction_on generalizing tot with
  | _ left ih =>
    rw [Src.fails] at h
    by_cases hlt : tot < n
    · have hpos : 0 < chunk (n - tot) (off + tot) := chunk_pos _ (by omega)
      rw [if_pos hlt] at h
      split at h
      · have hnext := ih _ (by omega) h rfl
        omega
      · have := Option.some.inj h
        omega
    · rw [if_neg hlt] at h
      cases h

/-- How the loop leaves, at `off` and `tot`: with all bytes written or no block left, or with a chunk of which a part
has arrived. `s` is the state before the loop, `s1` the one with the complete chunks only. -/
inductive Leaves (src : Nat → Source) (n x : Nat) (s s1 : St) (off tot : Nat) : St → Prop
  | stopped (h : tot < n → s.addr x (off / BSIZE) = 0) : Leaves src n x s s1 off tot s1
  | torn (hlt : tot < n) (hfail : (src tot).ok = false) (h0 : s1.addr x (off / BSIZE) ≠ 0) :
    Leaves src n x s s1 off tot (s1.arrive x off (src tot) (chunk (n - tot) off))

theorem Leaves.of_grows {src : Nat → Source} {s1 : St} (h : Leaves src n x s' s1 off tot t) (hg : Grows s s' x) :
    Leaves src n x s s1 off tot t := by
  cases h with
  | stopped h =>
    refine .stopped fun hlt => ?_
    by_contra hne
    exact hne ((hg.2 _ hne).symm.trans (h hlt))
  | torn hlt hfail h0 => exact .torn hlt hfail h0

theorem Leaves.busy {src : Nat → Source} {s1 : St} (h : Leaves src n x s s1 off tot t) (hb : Busy sb s1 x) :
    Busy sb t x ∧ Grows s1 t x := by
  cases h with
  | stopped _ => exact ⟨hb, .refl _ x⟩
  | torn _ _ h0 => exact hb.arrive h0 ..

/-- What the loop has done when it leaves after `len` more bytes. -/
structure Wrote (sb : Super) (src : Src) (base n x : Nat) (s : St) (tot len : Nat) (s' s1 : St) : Prop where
  le : tot + len ≤ n
  busy : Busy sb s1 x
  grows : Grows s s1 x
  filled : Filled s1 x (base + tot + len)
  moved : Moved src.byte x s s1 (base + tot) tot len
  logs : Logs s s1
  fails : src.fails base n tot = src.fails base n (tot + len)
  leaves : Leaves (src.chunks base n) n x s s1 (base + tot + len) (tot + len) s'

/-- The iterations after a complete chunk of `m` bytes. -/
theorem Wrote.step {src : Src} {s1 : St}
    (h : Wrote sb src base n x s' (tot + m) len t s1) (hg : Grows s s' x) (hf : Filled s' x (base + tot + m))
    (hm : Moved src.byte x s s' (base + tot) tot m) (hl : Logs s s')
    (hok : src.fails base n tot = src.fails base n (tot + m)) :
    Wrote sb src base n x s tot (m + len) t s1 := by
  obtain ⟨hle, hbusy, hgrows, hfilled, hmoved, hlogs, hfails, hleaves⟩ := h
  rw [← Nat.add_assoc base] at hfilled hmoved hleaves
  have hsum : base + tot + (m + len) = base + tot + m + len := (Nat.add_assoc ..).symm
  have hsum' : tot + (m + len) = tot + m + len := (Nat.add_assoc ..).symm
  constructor
  case le => omega
  case busy => exact hbusy
  case grows => exact hg.trans hgrows
  case filled => exact hsum ▸ hfilled
  case moved => exact hm.trans hmoved rfl hg hf
  case logs => exact hl.trans hlogs
  case fails => rw [hok, hfails, hsum']
  case leaves =>
    rw [hsum, hsum']
    exact hleaves.of_grows hg

theorem writeLoop_wrote (src : Src) (h : Busy sb s x) (ho : Filled s x (base + tot)) (htot : tot ≤ n)
    (hmax : base + n ≤ MAXFILE * BSIZE) :
    ∃ len s' s1, writeLoop sb x n (src.chunks base n) s (base + tot) tot = .ok (base + tot + len, tot + len, s') ∧
      Wrote sb src base n x s tot len s' s1 := by
  induction hleft : n - tot using Nat.strong_induction_on generalizing s tot with
  | _ left ih =>
    rw [writeLoop]
    by_cases hlt : tot < n
    · have hbn : (base + tot) / BSIZE < MAXFILE := by
        apply Nat.div_lt_of_lt_mul
        rw [Nat.mul_comm]
        omega
      obtain ⟨a, s1, hrun, hbusy, hgrows, haddr, hkeeps⟩ := bmap_spec h hbn
      have hlogs := bmap_logs hrun
      rw [if_pos hlt, hrun]
      simp only [Bind.bind, Except.bind]
      by_cases ha : a = 0
      · -- no block left, so that there was none for this chunk before
        have hnone : s.addr x ((base + tot) / BSIZE) = 0 := by
          by_contra hne
          rw [bmap_of_addr hne] at hrun
          exact hne ((congrArg Prod.fst (Except.ok.inj hrun)).trans ha)
        rw [if_pos ha]
        exact ⟨0, s1, s1, rfl, htot, hbusy, hgrows, ho.mono hgrows, .of_keeps hkeeps, hlogs, rfl,
          .stopped fun _ => hnone⟩
      rw [if_neg ha]
      obtain rfl := haddr ha
      have hend : chunk (n - tot) (base + tot) ≤ BSIZE - (base + tot) % BSIZE := Nat.min_le_right _ _
      have hpos : 0 < chunk (n - tot) (base + tot) := chunk_pos _ (by omega)
      have hle : chunk (n - tot) (base + tot) ≤ n - tot := Nat.min_le_left _ _
      by_cases hok : (src.chunks base n tot).ok
      · have hmoved := hbusy.moved_copy (c := src.chunks base n tot) (ho.mono hgrows) ha hend
          fun k hk => src.byte_of_got hk
        obtain ⟨hbusy2, hgrows2⟩ := hbusy.writeData ha ((src.chunks base n tot).copy
          (s1.disk (s1.addr x ((base + tot) / BSIZE))) ((base + tot) % BSIZE) (chunk (n - tot) (base + tot)))
        have hnext := ((ho.mono hgrows).chunk ha hend).mono hgrows2
        rw [Source.got, if_pos hok] at hmoved
        obtain ⟨len, s', s3, hloop, hwrote⟩ := ih (n - (tot + chunk (n - tot) (base + tot))) (by omega) hbusy2
          (by rw [← Nat.add_assoc]; exact hnext) (by omega) rfl
        rw [if_pos hok, Nat.add_assoc base, hloop]
        refine ⟨chunk (n - tot) (base + tot) + len, s', s3, ?_, ?_⟩
        · simp only [Nat.add_assoc]
        · refine hwrote.step (hgrows.trans hgrows2) hnext ?_ (hlogs.trans (.setBlock ..)) ?_
          · have hkept : Moved src.byte x s s1 (base + tot) tot 0 := .of_keeps hkeeps
            have hall := hkept.trans hmoved rfl hgrows (ho.mono hgrows)
            rw [Nat.zero_add] at hall
            exact ⟨hall.written, hall.kept⟩
          · rw [Src.fails, if_pos hlt, if_pos hok]
      · rw [if_neg hok]
        exact ⟨0, _, s1, rfl, htot, hbusy, hgrows, ho.mono hgrows, .of_keeps hkeeps, hlogs, rfl,
          .torn hlt (Bool.not_eq_true _ ▸ hok) ha⟩
    · rw [if_neg hlt]
      exact ⟨0, s, s, rfl, htot, h, .refl s x, ho, .of_keeps (.refl s x), .refl s, rfl, .stopped fun h => absurd h hlt⟩

/-! ## Reading back -/

/-- The bytes of the file from `off` on. -/
def St.bytes (s : St) (x off len : Nat) : List (BitVec 8) := (List.range len).map fun k => s.byte x (off + k)

theorem St.bytes_append (s : St) (x off m len : Nat) :
    s.bytes x off m ++ s.bytes x (off + m) len = s.bytes x off (m + len) := by
  unfold St.bytes
  rw [range_add, map_append, map_map]
  simp only [Function.comp_def, Nat.add_assoc]

theorem St.bytes_chunk (hm : m ≤ BSIZE - off % BSIZE) :
    ((List.range m).map fun k => s.disk (s.addr x (off / BSIZE)) (off % BSIZE + k)) = s.bytes x off m := by
  refine map_congr_left fun k hk => ?_
  have hlt := mem_range.1 hk
  have hdiv : (off + k) / BSIZE = off / BSIZE := by
    unfold BSIZE at *
    omega
  have hmod : (off + k) % BSIZE = off % BSIZE + k := by
    unfold BSIZE at *
    omega
  rw [St.byte, hdiv, hmod]

/-- One `either_copyout` stores what two of them store one after the other. -/
structure Streams {β : Type} (dst : Nat → List (BitVec 8) → Bool × List β) : Prop where
  nil : ∀ tot, dst tot [] = (true, [])
  append : ∀ tot l l', dst tot (l ++ l') = if (dst tot l).1 then
    ((dst (tot + l.length) l').1, (dst tot l).2 ++ (dst (tot + l.length) l').2) else dst tot l

section Reading
variable {β : Type} {dst : Nat → List (BitVec 8) → Bool × List β}

theorem Streams.readLoop_eq (hd : Streams dst) (hf : Filled s x (s.mem x).size) (out : List β) (htot : tot ≤ n)
    (h : off + (n - tot) ≤ (s.mem x).size) :
    readLoop sb x n dst s off tot out = .ok (if (dst tot (s.bytes x off (n - tot))).1 then (n : Int) else -1,
      out ++ (dst tot (s.bytes x off (n - tot))).2, s) := by
  induction hleft : n - tot using Nat.strong_induction_on generalizing off tot out with
  | _ left ih =>
    subst hleft
    rw [readLoop]
    by_cases hlt : tot < n
    · have haddr : s.addr x (off / BSIZE) ≠ 0 := hf.addr (by omega)
      have hpos : 0 < chunk (n - tot) off := chunk_pos off (by omega)
      have hle : chunk (n - tot) off ≤ n - tot := Nat.min_le_left _ _
      have hend : chunk (n - tot) off ≤ BSIZE - off % BSIZE := Nat.min_le_right _ _
      generalize chunk (n - tot) off = m at hpos hle hend ⊢
      have hrest : n - tot = m + (n - (tot + m)) := by omega
      have hlen : (s.bytes x off m).length = m := by simp [St.bytes]
      rw [if_pos hlt, bmap_of_addr haddr]
      simp only [Bind.bind, Except.bind, if_neg haddr, St.bytes_chunk hend]
      rw [hrest, ← St.bytes_append, hd.append, hlen]
      cases hok : (dst tot (s.bytes x off m)).1 with
      | true =>
        simp only [if_true]
        rw [ih _ (by omega) _ (by omega) (by omega) rfl, append_assoc]
      | false => simp [hok]
    · obtain rfl : tot = n := by omega
      rw [if_neg hlt, Nat.sub_self, St.bytes, range_zero, map_nil, hd.nil]
      exact congrArg (fun l => Except.ok ((tot : Int), l, s)) (append_nil out).symm

/-- What a read gives to `either_copyout` is what `[off, off + n)` shares with the file. -/
theorem Streams.readi_eq (hd : Streams dst) (hf : Filled s x (s.mem x).size) (off n : BitVec 32)
    (hm : m = if (off + n).toNat < off.toNat then 0 else min n.toNat ((s.mem x).size - off.toNat)) :
    readi sb s x dst off n = .ok (if (dst 0 (s.bytes x off.toNat m)).1 then (m : Int) else -1,
      (dst 0 (s.bytes x off.toNat m)).2, s) := by
  have hadd := BitVec.toNat_add off n
  unfold readi
  by_cases hbad : (s.mem x).size < off.toNat ∨ (off + n).toNat < off.toNat
  · obtain rfl : m = 0 := by split at hm <;> omega
    rw [if_pos hbad, St.bytes, range_zero, map_nil, hd.nil]
    rfl
  · have hlen : (if (s.mem x).size < (off + n).toNat then (s.mem x).size - off.toNat else n.toNat) = m := by
      split at hm <;> split <;> omega
    have hle : off.toNat + (m - 0) ≤ (s.mem x).size := by split at hm <;> omega
    simp only [if_neg hbad, hlen]
    exact hd.readLoop_eq hf [] (Nat.zero_le _) hle

end Reading

/-- `readi` to a writable destination returns exactly the bytes that `[off, off + n)` shares with the file. -/
def ReadsBack (sb : Super) (s : St) (x : Nat) : Prop :=
  ∀ off n : BitVec 32, off.toNat ≤ (off + n).toNat →
    readi sb s x (fun _ data => (true, data)) off n =
      .ok ((min n.toNat ((s.mem x).size - off.toNat) : Nat),
        s.bytes x off.toNat (min n.toNat ((s.mem x).size - off.toNat)), s)

theorem Filled.readsBack (hf : Filled s x (s.mem x).size) : ReadsBack sb s x := by
  intro off n hwrap
  have hd : Streams fun (_ : Nat) (data : List (BitVec 8)) => (true, data) := ⟨fun _ => rfl, fun _ _ _ => rfl⟩
  exact hd.readi_eq hf off n (if_neg (Nat.not_lt.2 hwrap)).symm

/-! ## The end of `writei` -/

theorem Busy.keeps_iupdate (h : Busy sb s x) : Keeps s (Blocks.iupdate sb s x) x := by
  intro bn h0
  rw [h.iupdate.2.2.2 bn h0]
  exact iupdate_disk h.lt (h.held.data h.lt (h.addr_mem h0)).le

@[simp] theorem growTo_disk (s : St) (x off : Nat) : (s.growTo x off).disk = s.disk := by
  unfold St.growTo
  split <;> rfl

theorem Busy.keeps_finish (h : Busy sb s x) (hmax : off ≤ MAXFILE * BSIZE) :
    Keeps s (Blocks.iupdate sb (s.growTo x off) x) x := by
  obtain ⟨hbusy, haddr, -⟩ := h.growTo hmax
  intro bn h0
  rw [hbusy.keeps_iupdate bn (by rw [haddr]; exact h0), haddr, growTo_disk]

theorem growTo_setBuf (b : Nat) (data : Bytes) : (s.setBuf b data).growTo x off = (s.growTo x off).setBuf b data := by
  unfold St.growTo
  change (if (s.mem x).size < off then _ else _) = _
  split <;> rfl

theorem Busy.readsBack_finish (h : Busy sb s x) (hs : Filled s x (s.mem x).size) (ho : Filled s x off)
    (hmax : off ≤ MAXFILE * BSIZE) : ReadsBack sb (Blocks.iupdate sb (s.growTo x off) x) x := by
  have hvalid := (h.growTo hmax).1.iupdate.1.valid
  exact ((h.finish hs ho hmax).busy hvalid).2.readsBack

theorem finish_disk (hb : b ≠ sb.iblock x) : (iupdate sb (s.growTo x off) x).disk b = s.disk b :=
  (update_of_ne hb ..).trans (congrFun (growTo_disk s x off) b)

theorem finish_lh : (iupdate sb (s.growTo x off) x).lh = sb.iblock x :: s.lh := by
  unfold iupdate St.growTo
  split <;> rfl

/-- With its old block back, nothing of a chunk is left after `writei`. -/
theorem setBuf_finish (hb : b ≠ sb.iblock x) (data : Bytes) :
    (iupdate sb ((s.setBuf b data).growTo x off) x).setBuf b (s.disk b) = iupdate sb (s.growTo x off) x := by
  rw [growTo_setBuf, ← growTo_disk s x off]
  unfold iupdate St.setBlock St.setBuf
  simp only [update_of_ne hb.symm]
  rw [update_comm hb, update_idem, ← update_comm hb, update_eq_self]

/-! ## The splice -/

/-- The file in `t` is the one in `s` with `r` source bytes put in place at `off`. -/
structure Spliced (byte : Nat → Option (BitVec 8)) (x off r : Nat) (s t : St) : Prop where
  size : (t.mem x).size = max (s.mem x).size (off + r)
  written : ∀ k < r, byte k = some (t.byte x (off + k))
  kept : ∀ k < (s.mem x).size, k < off ∨ off + r ≤ k → t.byte x k = s.byte x k

/-- The calls that `writei` turns down. -/
def Rejected (s : St) (x : Nat) (off n : BitVec 32) : Prop :=
  (s.mem x).size < off.toNat ∨ (off + n).toNat < off.toNat ∨ MAXFILE * BSIZE < (off + n).toNat

/-- As far as they fall on the old content, the bytes that arrive of the first chunk that `either_copyin` gives up are
those that are there. -/
def Harmless (s : St) (x : Nat) (src : Src) (off n : Nat) : Prop :=
  ∀ r ∈ src.fails off n 0, ∀ k < (src.chunks off n r).got (chunk (n - r) (off + r)), off + r + k < (s.mem x).size →
    src.byte (r + k) = some (s.byte x (off + r + k))

/-- With `g` bytes beyond the `r` that are counted, the file is a splice if these bytes are those that were there. -/
theorem Busy.spliced_iff {src : Src} {g : Nat} (hb : Busy sb s' x) (hg : Grows s s' x) (hf : Filled s' x (off + r))
    (hs : Filled s x (s.mem x).size) (hmax : off + r ≤ MAXFILE * BSIZE) (hm : Moved src.byte x s s' off 0 (r + g)) :
    Spliced src.byte x off r s (Blocks.iupdate sb (s'.growTo x (off + r)) x) ↔
      ∀ k < g, off + r + k < (s.mem x).size → src.byte (r + k) = some (s.byte x (off + r + k)) := by
  have hkeeps := hb.keeps_finish hmax
  have hold : ∀ k < (s.mem x).size, s'.addr x (k / BSIZE) ≠ 0 := fun k hk => (hs.mono hg).addr hk
  have hnew : ∀ k < g, src.byte (r + k) = some (s'.byte x (off + r + k)) := by
    intro k hk
    have hw := hm.written (r + k) (by omega)
    rwa [Nat.zero_add, ← Nat.add_assoc] at hw
  constructor
  · intro hsp k hk hsize
    rw [hnew k hk, ← hkeeps.byte (hold _ hsize), hsp.kept _ hsize (.inr (Nat.le_add_right ..))]
  intro hharm
  constructor
  case size =>
    change ((s'.growTo x (off + r)).mem x).size = _
    rw [(hb.growTo hmax).2.2, hg.1]
  case written =>
    intro k hk
    have hw := hm.written k (by omega)
    rwa [Nat.zero_add, ← hkeeps.byte (hf.addr (by omega))] at hw
  case kept =>
    intro k hk hout
    rw [hkeeps.byte (hold k hk)]
    by_cases hin : off + r ≤ k ∧ k < off + r + g
    · obtain ⟨j, rfl⟩ := Nat.exists_eq_add_of_le hin.1
      exact Option.some.inj ((hnew j (by omega)).symm.trans (hharm j (by omega) hk))
    · exact hm.kept k (hs.addr hk) (by omega)

section
variable {src : Src} {r : Nat} {s1 : St}

section
variable (h : Wrote sb src off n x s 0 r t s1) (hs : Filled s x (s.mem x).size) (hmax : off + r ≤ MAXFILE * BSIZE)
include h hs hmax

theorem Wrote.spliced : Spliced src.byte x off r s (iupdate sb (s1.growTo x (off + r)) x) :=
  (h.busy.spliced_iff (g := 0) h.grows h.filled hs hmax h.moved).2 fun _ hk => absurd hk (Nat.not_lt_zero _)

/-- The file is a splice when the loop leaves, unless it leaves with a chunk that does harm. -/
theorem Wrote.spliced_iff :
    Spliced src.byte x off r s (iupdate sb (t.growTo x (off + r)) x) ↔ Harmless s x src off n := by
  have hf : Filled s1 x (off + r) := h.filled
  have hfails := h.fails
  have hleaves := h.leaves
  have hmoved := h.moved
  simp only [Nat.add_zero, Nat.zero_add] at hfails hleaves hmoved
  cases hleaves with
  | stopped hstop =>
    refine iff_of_true (h.spliced hs hmax) fun q hq k hk hsize => ?_
    obtain ⟨hle, hlt⟩ := Src.fails_ge (hfails ▸ hq)
    exact absurd (hstop hlt) (hs.addr (by omega))
  | torn hlt hfail h0 =>
    have hend : chunk (n - r) (off + r) ≤ BSIZE - (off + r) % BSIZE := Nat.min_le_right _ _
    have hcopy := h.busy.moved_copy (c := src.chunks off n r) hf h0 hend fun k hk => src.byte_of_got hk
    have hall := hmoved.trans hcopy (Nat.zero_add r).symm h.grows hf
    obtain ⟨hb, hg⟩ := h.busy.arrive h0 (src.chunks off n r) (chunk (n - r) (off + r))
    have hself : src.fails off n 0 = some r := by
      rw [hfails, Src.fails, if_pos hlt, hfail]
      rfl
    rw [hb.spliced_iff (h.grows.trans hg) (hf.mono hg) hs hmax hall, Harmless, hself]
    simp only [Option.mem_def, Option.some.injEq, forall_eq']

end

/-- An eviction leaves the file as it is, or takes the torn chunk away. -/
theorem Wrote.evicts (h : Wrote sb src off n x s 0 r t s1) (hclean : ∀ b ∉ s.lh, home b = s.disk b)
    (he : Evicts home (iupdate sb (t.growTo x (off + r)) x) s') :
    s' = iupdate sb (t.growTo x (off + r)) x ∨ s' = iupdate sb (s1.growTo x (off + r)) x := by
  -- what is not logged is at home as after the last complete chunk
  have hhome : ∀ b ∉ sb.iblock x :: s1.lh, b ≠ sb.iblock x ∧ home b = s1.disk b := by
    intro b hb
    obtain ⟨hne, hout⟩ := not_or.1 (mt mem_cons.2 hb)
    exact ⟨hne, (hclean b fun hin => hout (h.logs.mono hin)).trans (h.logs.disk b hout).symm⟩
  have hrest : ∀ {t : St} {a : Nat}, t.lh = s1.lh → (∀ b ≠ a, t.disk b = s1.disk b) →
      ∀ b ∉ (iupdate sb (t.growTo x (off + r)) x).lh, b ≠ a → home b = (iupdate sb (t.growTo x (off + r)) x).disk b := by
    intro t a hlh hdisk b hb hne
    rw [finish_lh, hlh] at hb
    rw [(hhome b hb).2, finish_disk (hhome b hb).1, hdisk b hne]
  have hleaves := h.leaves
  simp only [Nat.add_zero, Nat.zero_add] at hleaves
  cases hleaves with
  | stopped hstop =>
    obtain hsame | ⟨hout, -⟩ := he.eq_or (hrest (a := sb.iblock x) rfl fun _ _ => rfl)
    · exact .inl hsame
    · exact absurd mem_cons_self hout
  | torn hlt hfail h0 =>
    obtain hsame | ⟨hout, hback⟩ := he.eq_or (hrest rfl fun b hb => update_of_ne hb ..)
    · exact .inl hsame
    · rw [finish_lh] at hout
      obtain ⟨hblock, hold⟩ := hhome _ hout
      rw [hold, setBuf_finish hblock] at hback
      exact .inr hback

end

/-- `writei` of a call that is not turned down. -/
theorem writei_spliced (h : Inv sb s) (hv : s.valid x = true) (src : Src) {off n : BitVec 32}
    (hclean : ∀ b ∉ s.lh, home b = s.disk b) (hgood : ¬ Rejected s x off n) :
    ∃ m ≤ n.toNat, ∃ s', writei sb s x (src.chunks off.toNat n.toNat) off n = .ok ((m : Int), s') ∧
      ((∀ t, Evicts home s' t → Spliced src.byte x off.toNat m s t) ↔ Harmless s x src off.toNat n.toNat) ∧
      ∀ t, Evicts home s' t → ReadsBack sb t x := by
  obtain ⟨hbusy, hfilled⟩ := h.busy hv
  obtain ⟨hstart, hwrap, hbig⟩ : off.toNat ≤ (s.mem x).size ∧ off.toNat ≤ (off + n).toNat ∧
      (off + n).toNat ≤ MAXFILE * BSIZE := by
    unfold Rejected at hgood
    omega
  have hsum : off.toNat + n.toNat ≤ MAXFILE * BSIZE := by
    have hadd := BitVec.toNat_add off n
    omega
  have hoff : Filled s x (off.toNat + 0) := fun bn hbn => hfilled bn (by omega)
  obtain ⟨m, s2, s1, hloop, hw⟩ := writeLoop_wrote src hbusy hoff (Nat.zero_le _) hsum
  simp only [Nat.add_zero, Nat.zero_add] at hloop
  have hle : m ≤ n.toNat := Nat.zero_add m ▸ hw.le
  have hmax : off.toNat + m ≤ MAXFILE * BSIZE := by omega
  have hbad : ¬ ((s.mem x).size < off.toNat ∨ (off + n).toNat < off.toNat) := by omega
  refine ⟨m, hle, iupdate sb (s2.growTo x (off.toNat + m)) x, ?_, ?_, fun t he => ?_⟩
  · rw [writei, if_neg hbad, if_neg (Nat.not_lt.2 hbig), hloop]
    rfl
  · rw [← hw.spliced_iff hfilled hmax]
    refine ⟨fun hall => hall _ (.refl ..), fun hsp t he => ?_⟩
    obtain rfl | rfl := hw.evicts hclean he
    · exact hsp
    · exact hw.spliced hfilled hmax
  · have hs1 : Filled s1 x (s1.mem x).size := hw.grows.1 ▸ hfilled.mono hw.grows
    obtain ⟨hbusy2, hgrows2⟩ := hw.leaves.busy hw.busy
    obtain rfl | rfl := hw.evicts hclean he
    · exact hbusy2.readsBack_finish (hgrows2.1 ▸ hs1.mono hgrows2) (hw.filled.mono hgrows2) hmax
    · exact hw.busy.readsBack_finish hs1 hw.filled hmax

/-- **`writei` splices the bytes it counts into the file**, as `bread` finds it then and after any eviction, exactly
when no harm is done by the first chunk that is given up. A call that is turned down changes nothing, and `readi`
returns the bytes of the file before and after. Before the call, a block that is not in the log header is at home as in
the buffer cache. -/
theorem writei_splices (h : Inv sb s) (hv : s.valid x = true) (src : Src) (off n : BitVec 32)
    (home : Nat → Bytes) (hclean : ∀ b ∉ s.lh, home b = s.disk b) :
    ∃ r s', writei sb s x (src.chunks off.toNat n.toNat) off n = .ok (r, s') ∧
      (Rejected s x off n → r = -1 ∧ s' = s ∧ ∀ t, Evicts home s' t → t = s) ∧
      (¬ Rejected s x off n → ∃ m ≤ n.toNat, r = (m : Int) ∧
        ((∀ t, Evicts home s' t → Spliced src.byte x off.toNat m s t) ↔ Harmless s x src off.toNat n.toNat)) ∧
      ReadsBack sb s x ∧ ∀ t, Evicts home s' t → ReadsBack sb t x := by
  have hback : ReadsBack sb s x := (h.busy hv).2.readsBack
  by_cases hbad : Rejected s x off n
  · have hrun : writei sb s x (src.chunks off.toNat n.toNat) off n = .ok (-1, s) := by
      unfold writei
      by_cases hstart : (s.mem x).size < off.toNat ∨ (off + n).toNat < off.toNat
      · exact if_pos hstart
      · unfold Rejected at hbad
        rw [if_neg hstart, if_pos (by omega)]
    have hsame : ∀ t, Evicts home s t → t = s := by
      intro t he
      obtain heq | ⟨hout, heq⟩ := he.eq_or (a := 0) fun b hb _ => hclean b hb
      · exact heq
      · rw [heq, hclean 0 hout, St.setBuf, update_eq_self]
    exact ⟨-1, s, hrun, fun _ => ⟨rfl, rfl, hsame⟩, fun hgood => absurd hbad hgood, hback, fun t he => hsame t he ▸ hback⟩
  · obtain ⟨m, hle, s', hrun, hiff, hrb⟩ := writei_spliced h hv src hclean hbad
    exact ⟨m, s', hrun, fun hrej => absurd hrej hbad, fun _ => ⟨m, hle, rfl, hiff⟩, hback, hrb⟩

/-- A source in the memory of a process that has page 0 only; all its bytes are 9. -/
def lastBytes (src : Nat) : Src := .user User.firstPage (fun _ => 9) src

/-- The file, with these blocks in the log header. -/
def logging (lh : List Nat) : St := { writtenFile with lh := lh }

/-- 600 bytes are to be written at the end of the file, while its first block is in the log header. The second chunk is
given up after two bytes, which no block of the old file gets. -/
theorem writei_splices_written :
    (lastBytes 3546).fails 1500 600 0 = some 548 ∧ Harmless (logging [4]) 1 (lastBytes 3546) 1500 600 ∧
    ∃ s', writei smallDisk (logging [4]) 1 ((lastBytes 3546).chunks 1500 600) 1500 600 = .ok (548, s') ∧
      ∀ t, Evicts (update writtenFile.disk 4 fun _ => 0) s' t →
        Spliced (lastBytes 3546).byte 1 1500 548 (logging [4]) t := by
  have hharm : Harmless (logging [4]) 1 (lastBytes 3546) 1500 600 := by
    unfold Harmless
    decide +kernel
  have hret : (writei smallDisk (logging [4]) 1 ((lastBytes 3546).chunks 1500 600) 1500 600).toOption.map (·.1) =
      some 548 := by decide +kernel
  obtain ⟨r, s', hrun, -, hgood, -⟩ := writei_splices (s := logging [4]) { reach_inv writtenFile_reach with } (x := 1)
    (by decide +kernel) (lastBytes 3546) 1500 600 (update writtenFile.disk 4 fun _ => 0)
    fun b hb => update_of_ne (ne_of_not_mem_cons hb) ..
  obtain ⟨m, -, rfl, hiff⟩ := hgood (by unfold Rejected; decide +kernel)
  rw [show writei smallDisk (logging [4]) 1 ((lastBytes 3546).chunks 1500 600) 1500 600 = _ from hrun] at hret
  obtain rfl : m = 548 := Int.ofNat.inj (Option.some.inj hret)
  exact ⟨by decide +kernel, hharm, s', hrun, hiff.2 hharm⟩

/-- Four bytes are to be written at the start of the file, from the last two bytes of the last page of the process.
The call returns 0, and the first two bytes of the file are other ones. `writei` does not log their block, but if it was
in the log header before, its buffer is pinned and the bytes get to the disk. -/
theorem torn_chunk_seen :
    writtenFile.bytes 1 0 4 = [7, 7, 7, 7] ∧ writtenFile.addr 1 0 = 4 ∧ ∀ lh ∈ [[], [4]],
      (writei smallDisk (logging lh) 1 ((lastBytes 4094).chunks 0 4) 0 4).toOption.map
        (fun r => (r.1, r.2.bytes 1 0 4, r.2.lh)) = some (0, [9, 9, 7, 7], smallDisk.iblock 1 :: lh) := by
  decide +kernel

end Xv6Riscv.Blocks
