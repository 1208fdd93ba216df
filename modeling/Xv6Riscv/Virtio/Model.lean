import Mathlib.Data.Fintype.Basic
import Xv6Riscv.Lib.Machine
import Xv6Riscv.Lib.Ring

/-!
# The virtio disk: the model

| here | there |
| --- | --- |
| `Desc`, `Avail`, `Used`, `BlkReq` | `struct virtq_desc`, `virtq_avail`, `virtq_used`, `virtio_blk_req` (virtio.h:53-96) |
| `Disk` | `struct disk` (virtio_disk.c:22) |
| `allocDesc`, `freeDesc`, `alloc3Desc` | virtio_disk.c:157, 170, 202 |
| `virtioDiskRw`, the loop of `free_chain` in it | virtio_disk.c:216, 186 |
| `virtioDiskIntr` | virtio_disk.c:295 |
| `deviceTake`, `devicePerform`, `deviceAppend` | the device: it takes the heads in the available ring one after the other, performs what it has taken in any order, and appends the heads to the used ring in any order |
| `Exclusive` | bio.c: `bread` and `bwrite` call `virtio_disk_rw` with the sleep lock of the buffer held |

Threads are processes in `virtio_disk_rw` and processors in `virtio_disk_intr`, each at some point of its call
(`Pc`). What a step writes is not looked at by anyone else before the step ends: the device looks at descriptors only
after `avail->idx` was incremented. An address in a descriptor says what it points to. The device's registers are
left out: it may look at the available ring, and the interrupt may come, at any time. The fields of `Sys` from
`calls` on are history variables.
-/
namespace Xv6Riscv.Virtio
open Machine RingBuffer
open Function (update)

def NUM : Nat := 8
def BSIZE : Nat := 1024

instance : NeZero NUM := ⟨by decide⟩

def VRING_DESC_F_NEXT : BitVec 16 := 1
def VRING_DESC_F_WRITE : BitVec 16 := 2
def VIRTIO_BLK_T_IN : BitVec 32 := 0
def VIRTIO_BLK_T_OUT : BitVec 32 := 1

/-- What an address points to: nothing, `disk.ops[i]`, `b->data` or `disk.info[i].status`. -/
inductive Addr (β : Type) where
  | null
  | op (i : Nat)
  | data (b : β)
  | status (i : Nat)
deriving DecidableEq

structure Desc (β : Type) where
  addr : Addr β
  len : Nat
  flags : BitVec 16
  next : BitVec 16
deriving DecidableEq

/-- A descriptor as `free_desc` leaves it. -/
def Desc.cleared {β : Type} : Desc β := { addr := .null, len := 0, flags := 0, next := 0 }

structure Avail where
  ring : Fin NUM → BitVec 16
  idx : BitVec 16

/-- The ids in the used ring. -/
structure Used where
  ring : Fin NUM → BitVec 32
  idx : BitVec 16

structure BlkReq where
  type : BitVec 32
  reserved : BitVec 32
  sector : BitVec 64
deriving DecidableEq

structure Info (β : Type) where
  b : Option β
  status : BitVec 8

structure Disk (β : Type) where
  desc : Nat → Desc β
  avail : Avail
  used : Used
  free : Nat → Bool
  /-- `disk.used_idx`. -/
  usedIdx : BitVec 16
  info : Nat → Info β
  ops : Nat → BlkReq

/-- The arguments of `virtio_disk_rw`, with `b->blockno`. -/
structure Rw (β : Type) where
  b : β
  write : Bool
  blockno : BitVec 32

/-- `idx[0]`, `idx[1]`, `idx[2]`. -/
structure Idx where
  i0 : Nat
  i1 : Nat
  i2 : Nat
deriving DecidableEq

def Idx.list (c : Idx) : List Nat := [c.i0, c.i1, c.i2]

inductive Pc (β : Type) where
  | idle
  /-- `virtio_disk_rw`: in front of `acquire`, at `alloc3_desc`, asleep on `&disk.free[0]`, at the `acquire` in
  `sleep`. -/
  | rwEntry (r : Rw β)
  | rwAlloc (r : Rw β)
  | rwAllocSleep (r : Rw β)
  | rwAllocWoken (r : Rw β)
  /-- In front of the assignments for the first, second and third descriptor, of those to `b->disk` and `info`, of
  the one to the ring, and of the increment. -/
  | rwFirst (r : Rw β) (c : Idx)
  | rwSecond (r : Rw β) (c : Idx)
  | rwThird (r : Rw β) (c : Idx)
  | rwRecord (r : Rw β) (c : Idx)
  | rwRing (r : Rw β) (c : Idx)
  | rwNotify (r : Rw β) (c : Idx)
  /-- At `while(b->disk == 1)`, asleep on `b`, at the `acquire` in `sleep`. -/
  | rwWait (r : Rw β) (c : Idx)
  | rwSleep (r : Rw β) (c : Idx)
  | rwWoken (r : Rw β) (c : Idx)
  /-- Behind the loop, at the descriptor `i` in the loop of `free_chain`, in front of `release`. -/
  | rwClear (r : Rw β) (c : Idx)
  | rwFree (r : Rw β) (c : Idx) (i : Nat)
  | rwRelease (r : Rw β)
  /-- `virtio_disk_intr`: in front of `acquire`, at the `while`, in the loop. -/
  | intrEntry
  | intrLoop
  | intrHandle

/-- What a thread sleeps on: `&disk.free[0]`, or a buffer. -/
inductive Chan (β : Type) where
  | free
  | buf (b : β)

variable {τ β δ : Type} [DecidableEq τ] [DecidableEq β]

def Pc.woken (ch : Chan β) : Pc β → Pc β
  | .rwAllocSleep r =>
    match ch with
    | .free => .rwAllocWoken r
    | .buf _ => .rwAllocSleep r
  | .rwSleep r c =>
    match ch with
    | .free => .rwSleep r c
    | .buf b => if r.b = b then .rwWoken r c else .rwSleep r c
  | pc => pc

structure Sys (τ β δ : Type) where
  disk : Disk β
  /-- Who holds `disk.vdisk_lock`. -/
  lock : Option τ
  /-- `b->disk` and `b->data`. -/
  owned : β → Bool
  data : β → δ
  /-- The blocks on the disk, by their first sector. -/
  sectors : BitVec 64 → δ
  /-- The device: how far it has looked in the available ring, the heads it has taken, and those it has performed. -/
  availSeen : BitVec 16
  taken : List Nat
  performed : List Nat
  pc : τ → Pc β
  /-- How many calls of `virtio_disk_rw` each thread has begun: a request is a thread and the number of its call. -/
  calls : τ → Nat
  /-- The request of a head, and the requests that were published, taken, appended to the used ring and handled. -/
  request : Nat → Option (τ × Nat)
  published : List (τ × Nat)
  begun : List (τ × Nat)
  appended : List (τ × Nat)
  handled : List (τ × Nat)

inductive Panic where
  | freeDesc1 | freeDesc2 | intrStatus | acquire | release
  /-- No panics of the kernel: a pointer or an index that is none, and a chain that the device cannot read. -/
  | pointer
  | chain
deriving DecidableEq, Repr

namespace Sys
variable (s : Sys τ β δ)

def goto (t : τ) (pc : Pc β) : Sys τ β δ := { s with pc := update s.pc t pc }

/-- `acquire(&disk.vdisk_lock)`, and on to `pc`. -/
def acquire (t : τ) (pc : Pc β) : Outcome Panic (Sys τ β δ) :=
  match s.lock with
  | none => .ok ({ s with lock := some t }.goto t pc)
  | some u => if u = t then .halt .acquire else .stuck

/-- `release(&disk.vdisk_lock)`, and on to `pc`. -/
def release (t : τ) (pc : Pc β) : Outcome Panic (Sys τ β δ) :=
  if s.lock = some t then .ok ({ s with lock := none }.goto t pc) else .halt .release

/-- `sleep` up to `sched`: `pc` is a place where the process sleeps. -/
def sleep (t : τ) (pc : Pc β) : Outcome Panic (Sys τ β δ) := s.release t pc

omit [DecidableEq τ] in
def wakeup (ch : Chan β) : Sys τ β δ := { s with pc := fun u => (s.pc u).woken ch }

omit [DecidableEq τ] in
def setDesc (i : Nat) (d : Desc β) : Sys τ β δ :=
  { s with disk := { s.disk with desc := update s.disk.desc i d } }

omit [DecidableEq τ] in
def setFree (i : Nat) (free : Bool) : Sys τ β δ :=
  { s with disk := { s.disk with free := update s.disk.free i free } }

omit [DecidableEq τ] in
def setInfo (i : Nat) (info : Info β) : Sys τ β δ :=
  { s with disk := { s.disk with info := update s.disk.info i info } }

end Sys

/-! ## Descriptors -/

omit [DecidableEq τ] [DecidableEq β] in
def allocDesc (s : Sys τ β δ) : Option (Nat × Sys τ β δ) :=
  match (List.range NUM).find? s.disk.free with
  | some i => some (i, s.setFree i false)
  | none => none

omit [DecidableEq τ] in
def freeDesc (s : Sys τ β δ) (i : Nat) : Outcome Panic (Sys τ β δ) :=
  if i ≥ NUM then .halt .freeDesc1
  else if s.disk.free i then .halt .freeDesc2
  else .ok (((s.setDesc i .cleared).setFree i true).wakeup .free)

omit [DecidableEq τ] in
/-- `none` for -1. -/
def alloc3Desc (s : Sys τ β δ) : Outcome Panic (Option Idx × Sys τ β δ) :=
  match allocDesc s with
  | none => .ok (none, s)
  | some (i0, s) =>
    match allocDesc s with
    | none => (freeDesc s i0).bind fun s => .ok (none, s)
    | some (i1, s) =>
      match allocDesc s with
      | none => (freeDesc s i0).bind fun s => (freeDesc s i1).bind fun s => .ok (none, s)
      | some (i2, s) => .ok (some ⟨i0, i1, i2⟩, s)

/-! ## Requests -/

/-- `b->blockno * (BSIZE / 512)`, a product of 32 bits. -/
def Rw.sector (r : Rw β) : BitVec 64 := (r.blockno * 2).setWidth 64

def Rw.op (r : Rw β) : BlkReq :=
  { type := if r.write then VIRTIO_BLK_T_OUT else VIRTIO_BLK_T_IN, reserved := 0, sector := r.sector }

/-- The three descriptors. -/
def Rw.first (c : Idx) : Desc β :=
  { addr := .op c.i0, len := 16, flags := VRING_DESC_F_NEXT, next := BitVec.ofNat 16 c.i1 }

def Rw.second (r : Rw β) (c : Idx) : Desc β :=
  { addr := .data r.b, len := BSIZE
    flags := (if r.write then 0 else VRING_DESC_F_WRITE) ||| VRING_DESC_F_NEXT, next := BitVec.ofNat 16 c.i2 }

def Rw.third (c : Idx) : Desc β :=
  { addr := .status c.i0, len := 1, flags := VRING_DESC_F_WRITE, next := 0 }

/-- What `virtio_disk_rw` does next. -/
def virtioDiskRw (s : Sys τ β δ) (t : τ) : Pc β → Outcome Panic (Sys τ β δ)
  | .rwEntry r => s.acquire t (.rwAlloc r)
  | .rwAlloc r =>
    (alloc3Desc s).bind fun (idx, s) =>
      match idx with
      | some c => .ok (s.goto t (.rwFirst r c))
      | none => s.sleep t (.rwAllocSleep r)
  | .rwAllocWoken r => s.acquire t (.rwAlloc r)
  | .rwFirst r c =>
    let s := { s with disk := { s.disk with ops := update s.disk.ops c.i0 r.op } }
    .ok ((s.setDesc c.i0 (Rw.first c)).goto t (.rwSecond r c))
  | .rwSecond r c => .ok ((s.setDesc c.i1 (r.second c)).goto t (.rwThird r c))
  | .rwThird r c =>
    .ok (((s.setInfo c.i0 { s.disk.info c.i0 with status := 0xff }).setDesc c.i2 (Rw.third c)).goto t (.rwRecord r c))
  | .rwRecord r c =>
    let s := { s with owned := update s.owned r.b true }
    .ok ((s.setInfo c.i0 { s.disk.info c.i0 with b := some r.b }).goto t (.rwRing r c))
  | .rwRing r c =>
    let avail := s.disk.avail
    let avail := { avail with ring := update avail.ring (slot avail.idx) (BitVec.ofNat 16 c.i0) }
    .ok ({ s with disk := { s.disk with avail := avail } }.goto t (.rwNotify r c))
  | .rwNotify r c =>
    let s := { s with
      request := update s.request c.i0 (some (t, s.calls t)), published := s.published ++ [(t, s.calls t)] }
    .ok ({ s with disk := { s.disk with avail := { s.disk.avail with idx := s.disk.avail.idx + 1#16 } } }.goto t
      (.rwWait r c))
  | .rwWait r c => if s.owned r.b then s.sleep t (.rwSleep r c) else .ok (s.goto t (.rwClear r c))
  | .rwWoken r c => s.acquire t (.rwWait r c)
  | .rwClear r c => .ok ((s.setInfo c.i0 { s.disk.info c.i0 with b := none }).goto t (.rwFree r c c.i0))
  | .rwFree r c i =>
    let flag := (s.disk.desc i).flags
    let nxt := (s.disk.desc i).next
    (freeDesc s i).bind fun s =>
      .ok (s.goto t (if flag &&& VRING_DESC_F_NEXT ≠ 0#16 then .rwFree r c nxt.toNat else .rwRelease r))
  | .rwRelease _ => s.release t .idle
  | _ => .stuck

/-- What `virtio_disk_intr` does next. -/
def virtioDiskIntr (s : Sys τ β δ) (t : τ) : Pc β → Outcome Panic (Sys τ β δ)
  | .intrEntry => s.acquire t .intrLoop
  | .intrLoop => if s.disk.usedIdx ≠ s.disk.used.idx then .ok (s.goto t .intrHandle) else s.release t .idle
  | .intrHandle =>
    let id := (s.disk.used.ring (slot s.disk.usedIdx)).toNat
    if id ≥ NUM then .halt .pointer
    else if (s.disk.info id).status ≠ 0 then .halt .intrStatus
    else
      match (s.disk.info id).b with
      | none => .halt .pointer
      | some b =>
        let s := { s with owned := update s.owned b false, handled := s.handled ++ (s.request id).toList }
        let s := s.wakeup (.buf b)
        .ok ({ s with disk := { s.disk with usedIdx := s.disk.usedIdx + 1#16 } }.goto t .intrLoop)
  | _ => .stuck

/-! ## The device -/

omit [DecidableEq τ] [DecidableEq β] in
/-- The device takes the next head from the available ring. -/
def deviceTake (s : Sys τ β δ) : Outcome Panic (Sys τ β δ) :=
  if s.availSeen ≠ s.disk.avail.idx then
    let head := (s.disk.avail.ring (slot s.availSeen)).toNat
    .ok { s with
      availSeen := s.availSeen + 1#16, taken := s.taken ++ [head], begun := s.begun ++ (s.request head).toList }
  else .stuck

/-- What the device finds at a head: the command, the buffer, and where the status goes. -/
def chainAt (d : Disk β) (head : Nat) : Option (BlkReq × β × Nat) :=
  let d0 := d.desc head
  let d1 := d.desc d0.next.toNat
  let d2 := d.desc d1.next.toNat
  match d0.addr, d1.addr, d2.addr with
  | .op i, .data b, .status j =>
    if d0.len = 16 ∧ d0.flags = VRING_DESC_F_NEXT ∧ d1.len = BSIZE ∧
        (d1.flags = VRING_DESC_F_NEXT ∧ (d.ops i).type = VIRTIO_BLK_T_OUT ∨
          d1.flags = VRING_DESC_F_WRITE ||| VRING_DESC_F_NEXT ∧ (d.ops i).type = VIRTIO_BLK_T_IN) ∧
        d2.len = 1 ∧ d2.flags = VRING_DESC_F_WRITE then some (d.ops i, b, j)
    else none
  | _, _, _ => none

omit [DecidableEq τ] in
/-- The device performs the request at a head that it has taken, and sets the status. -/
def devicePerform (s : Sys τ β δ) (head : Nat) : Outcome Panic (Sys τ β δ) :=
  if head ∈ s.taken then
    match chainAt s.disk head with
    | none => .halt .chain
    | some (op, b, j) =>
      let s := if op.type = VIRTIO_BLK_T_OUT then { s with sectors := update s.sectors op.sector (s.data b) }
        else { s with data := update s.data b (s.sectors op.sector) }
      .ok { s.setInfo j { s.disk.info j with status := 0 } with
        taken := s.taken.erase head, performed := s.performed ++ [head] }
  else .stuck

omit [DecidableEq τ] [DecidableEq β] in
/-- The device appends a head to the used ring. -/
def deviceAppend (s : Sys τ β δ) (head : Nat) : Outcome Panic (Sys τ β δ) :=
  if head ∈ s.performed then
    let used := s.disk.used
    let used := { ring := update used.ring (slot used.idx) (BitVec.ofNat 32 head), idx := used.idx + 1#16 }
    .ok { s with
      disk := { s.disk with used := used }, performed := s.performed.erase head
      appended := s.appended ++ (s.request head).toList }
  else .stuck

/-! ## Steps -/

inductive Event (τ β : Type) where
  | rw (t : τ) (r : Rw β)
  | intr (t : τ)
  | next (t : τ)
  /-- `kill` wakes a thread, wherever it sleeps. -/
  | kill (t : τ)
  | take
  | perform (head : Nat)
  | append (head : Nat)

def Pc.killed : Pc β → Pc β
  | .rwAllocSleep r => .rwAllocWoken r
  | .rwSleep r c => .rwWoken r c
  | pc => pc

def step (s : Sys τ β δ) : Event τ β → Outcome Panic (Sys τ β δ)
  | .rw t r =>
    match s.pc t with
    | .idle => .ok ({ s with calls := update s.calls t (s.calls t + 1) }.goto t (.rwEntry r))
    | _ => .stuck
  | .intr t =>
    match s.pc t with
    | .idle => .ok (s.goto t .intrEntry)
    | _ => .stuck
  | .next t =>
    match s.pc t with
    | .intrEntry => virtioDiskIntr s t .intrEntry
    | .intrLoop => virtioDiskIntr s t .intrLoop
    | .intrHandle => virtioDiskIntr s t .intrHandle
    | pc => virtioDiskRw s t pc
  | .kill t => .ok (s.goto t (s.pc t).killed)
  | .take => deviceTake s
  | .perform head => devicePerform s head
  | .append head => deviceAppend s head

/-- The buffer of a call. -/
def Pc.req? : Pc β → Option (Rw β)
  | .rwEntry r | .rwAlloc r | .rwAllocSleep r | .rwAllocWoken r | .rwRelease r => some r
  | .rwFirst r _ | .rwSecond r _ | .rwThird r _ | .rwRecord r _ | .rwRing r _ | .rwNotify r _ => some r
  | .rwWait r _ | .rwSleep r _ | .rwWoken r _ | .rwClear r _ | .rwFree r _ _ => some r
  | .idle | .intrEntry | .intrLoop | .intrHandle => none

/-- Who calls `virtio_disk_rw` holds the lock of the buffer: no two calls are on one buffer. -/
def Exclusive (s : Sys τ β δ) : Event τ β → Prop
  | .rw _ r => ∀ u r', (s.pc u).req? = some r' → r'.b ≠ r.b
  | _ => True

omit [DecidableEq τ] in
instance [Fintype τ] (s : Sys τ β δ) (ev : Event τ β) : Decidable (Exclusive s ev) :=
  match ev with
  | .rw _ r =>
    decidable_of_iff (∀ u, ((s.pc u).req?.all fun r' => decide (r'.b ≠ r.b)) = true)
      (by simp [Exclusive, Option.all_eq_true])
  | .intr _ | .next _ | .kill _ | .take | .perform _ | .append _ => isTrue trivial

/-- After `virtio_disk_init`: all descriptors are free and the rings are empty, wherever they begin. -/
structure Init (s : Sys τ β δ) : Prop where
  free : ∀ i < NUM, s.disk.free i = true
  avail : s.availSeen = s.disk.avail.idx
  used : s.disk.usedIdx = s.disk.used.idx
  lock : s.lock = none
  idle : ∀ t, s.pc t = .idle
  taken : s.taken = []
  performed : s.performed = []
  calls : ∀ t, s.calls t = 0
  published : s.published = []
  begun : s.begun = []
  appended : s.appended = []
  handled : s.handled = []

end Xv6Riscv.Virtio
