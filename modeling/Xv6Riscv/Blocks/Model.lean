import Xv6Riscv.Basic
import Xv6Riscv.Lib.Bytes
import Xv6Riscv.Lib.Machine

/-!
# Disk blocks and inode contents (`fs.c`)

| here | there |
| --- | --- |
| `Fs.disk` | the blocks as `bread` returns them: the buffer cache over the disk |
| `Fs.mem`, `Fs.ref`, `Fs.valid` | `itable`, by inode number |
| `balloc`, `bfree`, `bmap`, `itrunc`, `readi`, `writei` | `fs.c:66`, `:92`, `:383`, `:426`, `:472`, `:506` |
| `ialloc`, `iupdate`, `iget`, `ilock`, `iput` | `fs.c:199`, `:226`, `:247`, `:293`, `:337` |
| `Op`, `step` | calls of these functions, one after the other |

The blocks are byte arrays, and the bitmap, the on-disk inodes and the indirect blocks are read from them at
the offsets the C structures have. A transfer from or to the memory of a process may fail at any
chunk. `calls` is a history variable: the calls of `balloc`, each with the state it was made in.
-/
namespace Xv6Riscv.Blocks
open Layout Machine
open Function (update)

/-! ## `fs.h` -/

def BSIZE : Nat := 1024
def NDIRECT : Nat := 12
def NINDIRECT : Nat := BSIZE / 4
def MAXFILE : Nat := NDIRECT + NINDIRECT
/-- A `struct dinode` has 64 bytes. -/
def IPB : Nat := BSIZE / 64
def BPB : Nat := BSIZE * 8

/-- `struct superblock`, for a disk whose regions do not overlap and whose block numbers fit an `int`.
The data blocks are the last `nblocks` ones. -/
structure Super where
  size : Nat
  nblocks : Nat
  ninodes : Nat
  inodestart : Nat
  bmapstart : Nat
  inodes_fit : ∀ i < ninodes, i / IPB + inodestart < bmapstart
  bitmap_fits : ∀ b < size, b / BPB + bmapstart < size - nblocks
  fits : size + BPB ≤ 2 ^ 31

namespace Super

/-- `IBLOCK(i, sb)` -/
def iblock (sb : Super) (i : Nat) : Nat := i / IPB + sb.inodestart

/-- `BBLOCK(b, sb)` -/
def bblock (sb : Super) (b : Nat) : Nat := b / BPB + sb.bmapstart

/-- The first block after the bitmap. -/
def dataStart (sb : Super) : Nat := sb.size - sb.nblocks

def Data (sb : Super) (b : Nat) : Prop := sb.dataStart ≤ b ∧ b < sb.size

instance (sb : Super) (b : Nat) : Decidable (sb.Data b) := inferInstanceAs (Decidable (_ ∧ _))

end Super

/-- The fields that `struct inode` and `struct dinode` share. -/
structure Inode where
  type : BitVec 16
  major : BitVec 16
  minor : BitVec 16
  nlink : BitVec 16
  size : Nat
  /-- `addrs[NDIRECT+1]` -/
  addrs : List Nat
deriving DecidableEq, Repr

def Inode.setAddrs (ip : Inode) (addrs : List Nat) : Inode := { ip with addrs := addrs }
def Inode.setSize (ip : Inode) (size : Nat) : Inode := { ip with size := size }
def Inode.setNumbers (ip : Inode) (major minor nlink : BitVec 16) : Inode :=
  { ip with major := major, minor := minor, nlink := nlink }
def Inode.setType (ip : Inode) (type : BitVec 16) : Inode := { ip with type := type }

/-- All fields zero but the type. -/
def Inode.fresh (type : BitVec 16) : Inode := ⟨type, 0, 0, 0, 0, List.replicate (NDIRECT + 1) 0⟩

/-- The `struct dinode` at offset `o`. -/
def getDinode (b : Bytes) (o : Nat) : Inode where
  type := .ofNat 16 (getLE 2 b o)
  major := .ofNat 16 (getLE 2 b (o + 2))
  minor := .ofNat 16 (getLE 2 b (o + 4))
  nlink := .ofNat 16 (getLE 2 b (o + 6))
  size := getLE 4 b (o + 8)
  addrs := getInts b (o + 12) (NDIRECT + 1)

def putDinode (b : Bytes) (o : Nat) (ip : Inode) : Bytes :=
  let b := setLE 2 b o ip.type.toNat
  let b := setLE 2 b (o + 2) ip.major.toNat
  let b := setLE 2 b (o + 4) ip.minor.toNat
  let b := setLE 2 b (o + 6) ip.nlink.toNat
  let b := setLE 4 b (o + 8) ip.size
  putInts b (o + 12) ip.addrs

structure Fs where
  disk : Nat → Bytes
  mem : Nat → Inode
  ref : Nat → Nat
  valid : Nat → Bool

/-- A call of `balloc`: the state it was made in, and the block it returned. -/
structure Call where
  fs : Fs
  block : Nat

structure St extends Fs where
  calls : List Call
  /-- The blocks that were given to `log_write`. -/
  lh : List Nat

/-- The panics of these functions. -/
inductive Panic where
  | freeingFree | outOfRange | noInodes | ilock | noType
deriving DecidableEq, Repr

/-- The buffer of a block is changed. -/
def St.setBuf (s : St) (b : Nat) (data : Bytes) : St := { s with disk := update s.disk b data }
/-- The same, with `log_write`. -/
def St.setBlock (s : St) (b : Nat) (data : Bytes) : St := { s.setBuf b data with lh := b :: s.lh }
def St.setMem (s : St) (x : Nat) (ip : Inode) : St := { s with mem := update s.mem x ip }
def St.setRef (s : St) (x n : Nat) : St := { s with ref := update s.ref x n }
def St.setValid (s : St) (x : Nat) (v : Bool) : St := { s with valid := update s.valid x v }
/-- `ip->addrs[k] = addr` -/
def St.setAddr (s : St) (x k addr : Nat) : St := s.setMem x ((s.mem x).setAddrs ((s.mem x).addrs.set k addr))

variable (sb : Super)

/-! ## Blocks -/

/-- The first block whose bit in the bitmap is clear (the loops of `balloc`). -/
def firstFree (disk : Nat → Bytes) : Option Nat :=
  (List.range ((sb.size + BPB - 1) / BPB)).findSome? fun k =>
    ((List.range (min BPB (sb.size - k * BPB))).find? fun bi =>
      !testBit (disk (sb.bblock (k * BPB))) bi).map (k * BPB + ·)

/-- `balloc` (`fs.c:66`): 0 when the disk is full, otherwise a block of zeros. -/
def balloc (s : St) : Nat × St :=
  match firstFree sb s.disk with
  | none => (0, { s with calls := ⟨s.toFs, 0⟩ :: s.calls })
  | some b =>
    let s' := s.setBlock (sb.bblock b) (setBit (s.disk (sb.bblock b)) (b % BPB))
    (b, { s'.setBlock b (fun _ => 0) with calls := ⟨s.toFs, b⟩ :: s.calls })

def bfree (s : St) (b : Nat) : Except Panic St :=
  if testBit (s.disk (sb.bblock b)) (b % BPB) then
    .ok (s.setBlock (sb.bblock b) (clearBit (s.disk (sb.bblock b)) (b % BPB)))
  else .error .freeingFree

/-! ## The inode table -/

/-- The inode on the disk. -/
def dinode (disk : Nat → Bytes) (x : Nat) : Inode := getDinode (disk (sb.iblock x)) (64 * (x % IPB))

def iupdate (s : St) (x : Nat) : St :=
  s.setBlock (sb.iblock x) (putDinode (s.disk (sb.iblock x)) (64 * (x % IPB)) (s.mem x))

/-- The entries of `itable` in use. -/
def Fs.inUse (s : Fs) : Nat := ((List.range sb.ninodes).filter fun x => 0 < s.ref x).length

def iget (s : St) (x : Nat) : Except Panic St :=
  if 0 < s.ref x then .ok (s.setRef x (s.ref x + 1))
  else if s.inUse sb < NINODE then .ok ((s.setRef x 1).setValid x false)
  else .error .noInodes

def ialloc (s : St) (type : BitVec 16) : Except Panic (Option Nat × St) := do
  match (List.range sb.ninodes).find? fun x => x ≠ 0 ∧ (dinode sb s.disk x).type = 0 with
  | none => .ok (none, s)
  | some x =>
    let s := s.setBlock (sb.iblock x) (putDinode (s.disk (sb.iblock x)) (64 * (x % IPB)) (.fresh type))
    let s ← iget sb s x
    .ok (some x, s)

def ilock (s : St) (x : Nat) : Except Panic St :=
  if s.ref x < 1 then .error .ilock
  else if s.valid x then .ok s
  else
    let s := (s.setMem x (dinode sb s.disk x)).setValid x true
    if (s.mem x).type = 0 then .error .noType else .ok s

/-! ## The content of an inode -/

/-- The address in `ip->addrs[k]`, allocating a block if there is none (`fs.c:389`, `:401`). -/
def bslot (s : St) (x k : Nat) : Nat × St :=
  let addr := (s.mem x).addrs.getD k 0
  if addr = 0 then
    let (addr, s) := balloc sb s
    if addr = 0 then (0, s) else (addr, s.setAddr x k addr)
  else (addr, s)

/-- The entry `k` of the indirect block `a`, allocating a block if there is none (`fs.c:409`). -/
def bentry (s : St) (a k : Nat) : Nat × St :=
  let addr := getLE 4 (s.disk a) (4 * k)
  if addr = 0 then
    let (addr, s) := balloc sb s
    if addr = 0 then (0, s) else (addr, s.setBlock a (setLE 4 (s.disk a) (4 * k) addr))
  else (addr, s)

def bmap (s : St) (x bn : Nat) : Except Panic (Nat × St) :=
  if bn < NDIRECT then .ok (bslot sb s x bn)
  else if bn - NDIRECT < NINDIRECT then
    let (a, s) := bslot sb s x NDIRECT
    .ok (if a = 0 then (0, s) else bentry sb s a (bn - NDIRECT))
  else .error .outOfRange

/-- One round of the first loop of `itrunc`. -/
def freeSlot (x : Nat) (s : St) (k : Nat) : Except Panic St :=
  let addr := (s.mem x).addrs.getD k 0
  if addr = 0 then .ok s else (bfree sb s addr).map (·.setAddr x k 0)

/-- One round of the second loop of `itrunc`. -/
def freeEntry (s : St) (addr : Nat) : Except Panic St := if addr = 0 then .ok s else bfree sb s addr

/-- The second half of `itrunc`: the indirect block and the blocks listed there. -/
def freeIndirect (x : Nat) (s : St) : Except Panic St := do
  let a := (s.mem x).addrs.getD NDIRECT 0
  if a = 0 then .ok s else
    let s ← (getInts (s.disk a) 0 NINDIRECT).foldlM (freeEntry sb) s
    let s ← bfree sb s a
    .ok (s.setAddr x NDIRECT 0)

def itrunc (s : St) (x : Nat) : Except Panic St := do
  let s ← (List.range NDIRECT).foldlM (freeSlot sb x) s
  let s ← freeIndirect sb x s
  .ok (iupdate sb (s.setMem x ((s.mem x).setSize 0)) x)

def iput (s : St) (x : Nat) : Except Panic St := do
  let s ← if s.ref x = 1 ∧ s.valid x ∧ (s.mem x).nlink = 0 then do
      let s ← itrunc sb s x
      let s := iupdate sb (s.setMem x ((s.mem x).setType 0)) x
      Except.ok (s.setValid x false)
    else .ok s
  .ok (s.setRef x (s.ref x - 1))

/-- The chunk at `off` when `left` bytes are left: it ends with its block. -/
def chunk (left off : Nat) : Nat := min left (BSIZE - off % BSIZE)

theorem chunk_pos {left : Nat} (off : Nat) (h : 0 < left) : 0 < chunk left off := by
  have : off % BSIZE < BSIZE := Nat.mod_lt _ (by decide)
  unfold chunk
  omega

/-- The loop of `readi`; `dst tot data` is `either_copyout` of the chunk at `tot`: whether it succeeds, and what it
stores. -/
def readLoop {β : Type} (x n : Nat) (dst : Nat → List (BitVec 8) → Bool × List β) (s : St) (off tot : Nat)
    (out : List β) : Except Panic (Int × List β × St) :=
  if tot < n then do
    let (addr, s) ← bmap sb s x (off / BSIZE)
    if addr = 0 then .ok (tot, out, s) else
      let m := chunk (n - tot) off
      let (ok, new) := dst tot ((List.range m).map fun k => s.disk addr (off % BSIZE + k))
      if ok then readLoop x n dst s (off + m) (tot + m) (out ++ new) else .ok (-1, out ++ new, s)
  else .ok (tot, out, s)
termination_by n - tot
decreasing_by
  have hleft : 0 < n - tot := by omega
  have := chunk_pos off hleft
  omega

def readi {β : Type} (s : St) (x : Nat) (dst : Nat → List (BitVec 8) → Bool × List β) (off n : BitVec 32) :
    Except Panic (Int × List β × St) :=
  let size := (s.mem x).size
  if size < off.toNat ∨ (off + n).toNat < off.toNat then .ok (0, [], s)
  else
    let n := if size < (off + n).toNat then size - off.toNat else n.toNat
    readLoop sb x n dst s off.toNat 0 []

/-- What `either_copyin` does with one chunk: the bytes, and how many of them arrive if it fails. -/
structure Source where
  data : Bytes
  ok : Bool
  part : Nat

/-- The block after a chunk of `m` bytes arrived at `o`. -/
def Source.copy (src : Source) (b : Bytes) (o m : Nat) : Bytes := fun k =>
  if o ≤ k ∧ k < o + (if src.ok then m else min src.part m) then src.data (k - o) else b k

/-- The loop of `writei`. -/
def writeLoop (x n : Nat) (src : Nat → Source) (s : St) (off tot : Nat) : Except Panic (Nat × Nat × St) :=
  if tot < n then do
    let (addr, s) ← bmap sb s x (off / BSIZE)
    if addr = 0 then .ok (off, tot, s) else
      let m := chunk (n - tot) off
      let data := (src tot).copy (s.disk addr) (off % BSIZE) m
      if (src tot).ok then writeLoop x n src (s.setBlock addr data) (off + m) (tot + m)
      else .ok (off, tot, s.setBuf addr data)
  else .ok (off, tot, s)
termination_by n - tot
decreasing_by
  have hleft : 0 < n - tot := by omega
  have := chunk_pos off hleft
  omega

def writei (s : St) (x : Nat) (src : Nat → Source) (off n : BitVec 32) : Except Panic (Int × St) := do
  if (s.mem x).size < off.toNat ∨ (off + n).toNat < off.toNat then .ok (-1, s)
  else if MAXFILE * BSIZE < (off + n).toNat then .ok (-1, s)
  else
    let (off, tot, s) ← writeLoop sb x n.toNat src s off.toNat 0
    let s := if (s.mem x).size < off then s.setMem x ((s.mem x).setSize off) else s
    .ok (tot, iupdate sb s x)

/-! ## Operations -/

inductive Op where
  | ialloc (type : BitVec 16)
  /-- A directory entry is followed, or a reference duplicated. -/
  | iget (x : Nat)
  | iput (x : Nat)
  | readi (x : Nat) (dst : Nat → List (BitVec 8) → Bool × List (BitVec 8)) (off n : BitVec 32)
  | writei (x : Nat) (src : Nat → Source) (off n : BitVec 32)
  | itrunc (x : Nat)
  /-- `create`, `link` and `unlink` change these fields of a locked inode and call `iupdate`. -/
  | iupdate (x : Nat) (major minor nlink : BitVec 16)

/-- An operation on an inode locks it first. -/
def exec (s : St) : Op → Except Panic St
  | .ialloc type => (ialloc sb s type).map (·.2)
  | .iget x => iget sb s x
  | .iput x => iput sb s x
  | .readi x dst off n => do
    let s ← ilock sb s x
    (readi sb s x dst off n).map (·.2.2)
  | .writei x src off n => do
    let s ← ilock sb s x
    (writei sb s x src off n).map (·.2)
  | .itrunc x => do
    let s ← ilock sb s x
    itrunc sb s x
  | .iupdate x major minor nlink => do
    let s ← ilock sb s x
    .ok (iupdate sb (s.setMem x ((s.mem x).setNumbers major minor nlink)) x)

/-- Only inode numbers of the disk are looked up, and only references that are held are dropped. -/
def enabled (s : St) : Op → Bool
  | .iget x => 0 < x && x < sb.ninodes
  | .iput x => 0 < s.ref x
  | _ => true

def step (s : St) (op : Op) : Outcome Panic St :=
  if enabled sb s op then
    match exec sb s op with
    | .ok s' => .ok s'
    | .error p => .halt p
  else .stuck

/-- The machine after `fsinit`, with an empty inode table. -/
def boot (disk : Nat → Bytes) : St where
  disk := disk
  mem _ := ⟨0, 0, 0, 0, 0, []⟩
  ref _ := 0
  valid _ := false
  calls := []
  lh := []

end Xv6Riscv.Blocks
