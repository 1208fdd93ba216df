import Xv6Riscv.Basic
import Xv6Riscv.Lib.Bytes
import Xv6Riscv.Lib.Machine

/-!
# The write-ahead log: the model

| here | there |
| --- | --- |
| `bread`, `bwrite` | bio.c: a buffer is read through the cache, and written to the disk |
| `readHead`, `writeHead` | `read_head`, `write_head` (log.c:88, log.c:104), on the bytes of the header block |
| `beginOp`, `endOp`, `logWrite` | log.c:125, log.c:144, log.c:214 |
| `diskStep` | the next disk write (or the next step between two) of `commit` (log.c:192) and `recover_from_log` (log.c:116) |
| `crash` | the machine restarts: memory is lost, the disk is not |

A buffer leaves the cache only when its reference count is zero; `pins` are the blocks that `log_write` pinned.
That `bget` panics when all buffers are in use is left out: a panic stops the machine, as a crash does.
The operations do not hold a buffer from one event to the next. The fields after `pc` are history variables.
-/
namespace Xv6Riscv.Log
open Machine Layout
open Function (update)

/-- `log.start` and `log.size`: the header block and the log blocks after it. -/
structure Geometry where
  start : Nat
  size : Nat
  pos : 0 < size
  fits : start + size ≤ 2 ^ 32

/-- The home blocks: everything but the log. -/
def Geometry.Home (g : Geometry) (b : Nat) : Prop := b < g.start ∨ g.start + g.size ≤ b

instance (g : Geometry) (b : Nat) : Decidable (g.Home b) := inferInstanceAs (Decidable (_ ∨ _))

/-- One `log_write`: the operation, the block and its new contents. -/
structure Write where
  op : Nat
  block : Nat
  data : Bytes

inductive Pc where
  | idle
  /-- `write_log`, `write_head`, `install_trans(recovering)`, and the second `write_head`. -/
  | writeLog (tail : Nat)
  | writeHead
  | install (recovering : Bool) (tail : Nat)
  | clear (recovering : Bool)
  /-- `commit` has returned to `end_op`. -/
  | done
  /-- `recover_from_log`, in front of `read_head`. -/
  | recover
deriving DecidableEq, Repr

/-- `initlog` has not returned: no process has made a system call yet. -/
def Pc.recovering : Pc → Bool
  | .recover | .install true _ | .clear true => true
  | _ => false

structure Sys where
  disk : Nat → Bytes
  cache : Nat → Option Bytes
  pins : List Nat
  /-- `log.lh.block[0 .. log.lh.n-1]`. -/
  lh : List Nat
  outstanding : Nat
  committing : Bool
  pc : Pc
  /-- Operations are numbered as they begin. -/
  nextop : Nat
  active : List Nat
  /-- The operations of the current group that have called `end_op`. -/
  ended : List Nat
  /-- The writes of the current group, and all groups committed so far. -/
  cur : List Write
  groups : List (List Write)
  all : List Write
  /-- The operations whose `end_op` returned, and those whose group's committing `end_op` returned. -/
  returned : List Nat
  durable : List Nat

inductive Panic where
  | tooBig | outsideOfTrans | committing
deriving DecidableEq, Repr

/-! ## Buffers and the header block -/

def bread (s : Sys) (b : Nat) : Bytes × Sys :=
  let v := (s.cache b).getD (s.disk b)
  (v, { s with cache := update s.cache b (some v) })

/-- `memmove` into the buffer of `b`, then `bwrite`. -/
def bwrite (s : Sys) (b : Nat) (v : Bytes) : Sys :=
  { s with disk := update s.disk b v, cache := update s.cache b (some v) }

/-- `lh->n`, an `int`, and `lh->block[0 .. n-1]`. -/
def readHead (blk : Bytes) : List Nat := getInts blk 4 (BitVec.ofNat 32 (getLE 4 blk 0)).toInt.toNat

def writeHead (blk : Bytes) (lh : List Nat) : Bytes := putInts (setLE 4 blk 0 lh.length) 4 lh

/-! ## Operations -/

/-- `begin_op`, when it does not have to sleep. -/
def beginOp (s : Sys) : Outcome Panic Sys :=
  if s.pc.recovering = false ∧ s.committing = false ∧ s.lh.length + (s.outstanding + 1) * MAXOPBLOCKS ≤ LOGSIZE then
    .ok { s with outstanding := s.outstanding + 1, active := s.nextop :: s.active, nextop := s.nextop + 1 }
  else .stuck

/-- An operation modifies the buffer of a home block and calls `log_write`. -/
def logWrite (g : Geometry) (s : Sys) (o b : Nat) (v : Bytes) : Outcome Panic Sys :=
  if o ∈ s.active ∧ g.Home b ∧ b < 2 ^ 32 then
    if s.lh.length ≥ LOGSIZE ∨ s.lh.length ≥ g.size - 1 then .halt .tooBig
    else if s.outstanding < 1 then .halt .outsideOfTrans
    else .ok { s with
      cache := update s.cache b (some v)
      lh := if b ∈ s.lh then s.lh else s.lh ++ [b]
      pins := if b ∈ s.lh then s.pins else s.pins ++ [b]
      cur := s.cur ++ [⟨o, b, v⟩], all := s.all ++ [⟨o, b, v⟩] }
  else .stuck

/-- `end_op` up to the commit. -/
def endOp (s : Sys) (o : Nat) : Outcome Panic Sys :=
  if o ∈ s.active then
    if s.committing then .halt .committing
    else
      let s := { s with outstanding := s.outstanding - 1, active := s.active.erase o, ended := s.ended ++ [o] }
      if s.outstanding = 0 then
        .ok { s with committing := true, pc := if 0 < s.lh.length then .writeLog 0 else .done }
      else .ok { s with returned := s.returned ++ [o] }
  else .stuck

/-! ## Commit and recovery -/

def writeLogStep (g : Geometry) (s : Sys) (tail b : Nat) : Sys :=
  let (_, s) := bread s (g.start + tail + 1)
  let (src, s) := bread s b
  { bwrite s (g.start + tail + 1) src with pc := .writeLog (tail + 1) }

/-- The real commit. -/
def writeHeadStep (g : Geometry) (s : Sys) : Sys :=
  let (buf, s) := bread s g.start
  { bwrite s g.start (writeHead buf s.lh) with
    pc := .install false 0, groups := s.groups ++ [s.cur], cur := [] }

def installStep (g : Geometry) (s : Sys) (recovering : Bool) (tail b : Nat) : Sys :=
  let (lbuf, s) := bread s (g.start + tail + 1)
  let (_, s) := bread s b
  { bwrite s b lbuf with
    pins := if recovering then s.pins else s.pins.erase b, pc := .install recovering (tail + 1) }

def clearStep (g : Geometry) (s : Sys) (recovering : Bool) : Sys :=
  let (buf, s) := bread s g.start
  { bwrite s g.start (writeHead buf s.lh) with pc := if recovering then .idle else .done }

def doneStep (s : Sys) : Sys :=
  { s with committing := false, pc := .idle, ended := []
           returned := s.returned ++ s.ended, durable := s.durable ++ s.ended }

def recoverStep (g : Geometry) (s : Sys) : Sys :=
  let (buf, s) := bread s g.start
  { s with lh := readHead buf, pc := .install true 0 }

def diskStep (g : Geometry) (s : Sys) : Outcome Panic Sys :=
  match s.pc with
  | .idle => .stuck
  | .writeLog tail =>
    match s.lh[tail]? with
    | some b => .ok (writeLogStep g s tail b)
    | none => .ok { s with pc := .writeHead }
  | .writeHead => .ok (writeHeadStep g s)
  | .install recovering tail =>
    match s.lh[tail]? with
    | some b => .ok (installStep g s recovering tail b)
    | none => .ok { s with lh := [], pc := .clear recovering }
  | .clear recovering => .ok (clearStep g s recovering)
  | .done => .ok (doneStep s)
  | .recover => .ok (recoverStep g s)

/-- Memory is lost, the kernel boots again. -/
def crash (s : Sys) : Sys :=
  { s with cache := fun _ => none, pins := [], lh := [], outstanding := 0, committing := false
           pc := .recover, active := [], ended := [], cur := [] }

/-! ## The machine -/

inductive Event where
  | beginOp
  | logWrite (o b : Nat) (v : Bytes)
  | endOp (o : Nat)
  | disk
  /-- Any process reads a block; a buffer that is not pinned is recycled. -/
  | read (b : Nat)
  | evict (b : Nat)
  | crash

def step (g : Geometry) (s : Sys) : Event → Outcome Panic Sys
  | .beginOp => beginOp s
  | .logWrite o b v => logWrite g s o b v
  | .endOp o => endOp s o
  | .disk => diskStep g s
  | .read b => .ok (bread s b).2
  | .evict b => if b ∈ s.pins then .stuck else .ok { s with cache := update s.cache b none }
  | .crash => .ok (crash s)

/-- The kernel boots for the first time, from an image with an empty log. -/
def boot (d : Nat → Bytes) : Sys where
  disk := d
  cache _ := none
  pins := []
  lh := []
  outstanding := 0
  committing := false
  pc := .recover
  nextop := 0
  active := []
  ended := []
  cur := []
  groups := []
  all := []
  returned := []
  durable := []

/-! ## The abstract disk -/

/-- What the home blocks should hold after some writes. -/
def applyWrites (d : Nat → Bytes) (ws : List Write) : Nat → Bytes :=
  ws.foldl (fun d w => update d w.block w.data) d

def applyGroups (d : Nat → Bytes) (gs : List (List Write)) : Nat → Bytes := gs.foldl applyWrites d

/-- The writes of one operation. -/
def writesOf (o : Nat) (ws : List Write) : List Write := ws.filter (·.op = o)

/-- All writes of operation `o` are in one committed group. -/
def Present (s : Sys) (o : Nat) : Prop :=
  writesOf o s.all = [] ∨ ∃ gr ∈ s.groups, writesOf o gr = writesOf o s.all

/-- No write of operation `o` is in a committed group. -/
def Absent (s : Sys) (o : Nat) : Prop := ∀ gr ∈ s.groups, writesOf o gr = []

end Xv6Riscv.Log
