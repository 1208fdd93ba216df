import Mathlib.Logic.Function.Basic
import Xv6Riscv.Basic
import Xv6Riscv.Lib.Machine

/-!
# Directories, link counts and inode references (`fs.c`, `sysfile.c`, `file.c`)

One system call is one step: the calls run inside `begin_op`/`end_op` and hold the sleep locks of the
inodes they change. The in-memory copy of an inode is written back by `iupdate` after every change, so
a valid copy and the disk inode are one record here; the table entry itself keeps `ref` and `valid`.

| here | there |
| --- | --- |
| `Inode` | `struct dinode` (fs.h:32), the content of a directory as its list of `struct dirent` |
| `Fs.ref`, `Fs.valid` | `itable.inode[]` (fs.c:176), keyed by inode number |
| `iget`, `idup`, `ilock`, `iput` | fs.c:247, 282, 293, 337 |
| `ialloc` | fs.c:199 |
| `dirlookup`, `dirlink` | fs.c:552, 580 |
| `skipelem`, `namex` | fs.c:623, 652 |
| `sysLink`, `sysUnlink`, `create`, `sysOpen`, ... | sysfile.c:124, 189, 246, 305 |
| `filealloc`, `filedup`, `fileclose` | file.c:30, 48, 60 |

The content of a regular file (and with it `O_TRUNC`), `minor`, the flags and offset of an open file,
pipes and the device numbers other than `major` have no part in the name space and are left out.
Whether a block is free for a growing directory is decided by the environment.
-/
namespace Xv6Riscv.Dir
open Function (update)

def NFILE : Nat := 100
def NOFILE : Nat := 16
def NDEV : Nat := 10
def ROOTINO : Nat := 1
def DIRSIZ : Nat := 14
/-- `MAXFILE*BSIZE / sizeof(struct dirent)`: the entries a directory has room for. -/
def MAXENTS : Nat := (12 + 256) * 1024 / 16

def O_RDONLY : Nat := 0x000
def O_CREATE : Nat := 0x200

/-- A path element, at most `DIRSIZ` characters without `'/'` and without a NUL. -/
abbrev Name := List Char

def dot : Name := ['.']
def dotdot : Name := ['.', '.']

/-- `short type` of an inode; 0 is free. -/
inductive IType where
  | free | dir | file | device
deriving DecidableEq, Repr

/-- `struct dirent` (fs.h:56); `inum` 0 marks an empty slot. -/
structure Dirent where
  inum : Nat
  name : Name
deriving DecidableEq, Repr

def Dirent.empty : Dirent := ⟨0, []⟩

/-- `struct dinode` with a directory's content; `nlink` is a signed 16-bit field. -/
structure Inode where
  type : IType
  major : Int
  nlink : BitVec 16
  ents : List Dirent
deriving DecidableEq, Repr

/-- `struct file` of an inode or a device; a free entry has `ref` 0. -/
structure File where
  ref : Nat
  ip : Option Nat
deriving DecidableEq, Repr

structure Fs where
  ninodes : Nat
  inode : Nat → Inode
  ref : Nat → Nat
  valid : Nat → Bool
  /-- `p->cwd`; a slot without one has no process. -/
  cwd : Nat → Option Nat
  ofile : Nat → Nat → Option Nat
  file : Nat → File

/-- Process `p` moves to another directory, or ends. -/
def Fs.setCwd (s : Fs) (p : Nat) (x : Option Nat) : Fs := { s with cwd := update s.cwd p x }

/-- Entry `f` of the file table changes. -/
def Fs.setFile (s : Fs) (f : Nat) (e : File) : Fs := { s with file := update s.file f e }

/-- Descriptor `fd` of process `p` changes. -/
def Fs.setFd (s : Fs) (p fd : Nat) (f : Option Nat) : Fs :=
  { s with ofile := update s.ofile p (update (s.ofile p) fd f) }

/-- The panics of these functions, and a wait for a lock the caller itself holds. -/
inductive Panic where
  | noInodes | ilock | noType | notDir | nlink | fileclose | filedup | initExiting | deadlock
deriving DecidableEq, Repr

abbrev M := StateT Fs (Except Panic)

/-! ## The inode table -/

/-- `ip->…`: the fields of a locked inode. -/
def load (x : Nat) : M Inode := fun s => .ok (s.inode x, s)

/-- A change of an inode followed by its `iupdate`. -/
def store (x : Nat) (i : Inode) : M Unit := fun s =>
  .ok ((), { s with inode := update s.inode x i })

/-- The table entries in use. -/
def Fs.inUse (s : Fs) : Nat := ((List.range s.ninodes).filter fun x => 0 < s.ref x).length

/-- fs.c:247. A recycled table entry is not valid until the first `ilock`. -/
def iget (x : Nat) : M Nat := fun s =>
  if 0 < s.ref x then .ok (x, { s with ref := update s.ref x (s.ref x + 1) })
  else if s.inUse < NINODE then
    .ok (x, { s with ref := update s.ref x 1, valid := update s.valid x false })
  else .error .noInodes

def idup (x : Nat) : M Nat := fun s =>
  .ok (x, { s with ref := update s.ref x (s.ref x + 1) })

def ilock (x : Nat) : M Unit := fun s =>
  if s.ref x < 1 then .error .ilock
  else if s.valid x then .ok ((), s)
  else if (s.inode x).type = .free then .error .noType
  else .ok ((), { s with valid := update s.valid x true })

/-- `itrunc(ip); ip->type = 0; iupdate(ip)` -/
def Inode.freed (i : Inode) : Inode := { i with type := .free, ents := [] }

/-- fs.c:337. The last reference to an inode without links frees it. -/
def iput (x : Nat) : M Unit := fun s =>
  if s.ref x = 1 ∧ s.valid x ∧ (s.inode x).nlink = 0 then
    .ok ((), { s with
      inode := update s.inode x (s.inode x).freed
      valid := update s.valid x false
      ref := update s.ref x (s.ref x - 1) })
  else .ok ((), { s with ref := update s.ref x (s.ref x - 1) })

/-- fs.c:366; the lock is not part of the state. -/
def iunlockput (x : Nat) : M Unit := iput x

/-- The first free inode, by number. -/
def Fs.firstFree (s : Fs) : Option Nat :=
  (List.range s.ninodes).find? fun x => x ≠ 0 ∧ (s.inode x).type = .free

def ialloc (ty : IType) : M (Option Nat) := do
  match (← get).firstFree with
  | none => pure none
  | some x =>
    store x ⟨ty, 0, 0, []⟩
    let ip ← iget x
    pure (some ip)

/-- A directory whose content was rewritten. -/
def Inode.setEnts (i : Inode) (ents : List Dirent) : Inode := { i with ents := ents }
/-- `ip->nlink++` -/
def Inode.inc (i : Inode) : Inode := { i with nlink := i.nlink + 1 }
/-- `ip->nlink--` -/
def Inode.dec (i : Inode) : Inode := { i with nlink := i.nlink - 1 }

/-! ## Directory content -/

/-- The first entry called `name` (`namecmp` compares at most `DIRSIZ` characters, all of a name). -/
def slotOf (ents : List Dirent) (name : Name) : Option Nat :=
  ents.findIdx? fun e => e.inum ≠ 0 ∧ e.name = name

/-- fs.c:552, with the slot as `*poff`. -/
def dirlookup (dp : Nat) (name : Name) : M (Option (Nat × Nat)) := do
  let i ← load dp
  if i.type ≠ .dir then throw .notDir
  else match slotOf i.ents name with
    | none => pure none
    | some k =>
      let ip ← iget (i.ents.getD k .empty).inum
      pure (some (ip, k))

/-- The write at the end of `dirlink`: an empty slot, or the end of the directory if `writei` finds
room there. `full` says that `balloc` returned 0. -/
def addEntry (ents : List Dirent) (e : Dirent) (full : Bool) : Option (List Dirent) :=
  match ents.findIdx? fun e => e.inum = 0 with
  | some k => some (ents.set k e)
  | none => if full ∨ MAXENTS ≤ ents.length then none else some (ents ++ [e])

/-- fs.c:580; `true` is the return value 0. `de.inum` is an unsigned short. -/
def dirlink (dp : Nat) (name : Name) (inum : Nat) (full : Bool) : M Bool := do
  match ← dirlookup dp name with
  | some (ip, _) =>
    iput ip
    pure false
  | none =>
    let i ← load dp
    match addEntry i.ents ⟨inum % 2 ^ 16, name⟩ full with
    | none => pure false
    | some ents =>
      store dp (i.setEnts ents)
      pure true

/-- sysfile.c:174 -/
def isdirempty (ents : List Dirent) : Bool := (ents.drop 2).all fun e => e.inum = 0

/-! ## Paths -/

/-- fs.c:623: the next element of a path and what follows it. -/
def skipelem (path : List Char) : Option (Name × List Char) :=
  match path.dropWhile (· = '/') with
  | [] => none
  | s => some ((s.takeWhile (· ≠ '/')).take DIRSIZ, (s.dropWhile (· ≠ '/')).dropWhile (· = '/'))

/-- The word a path starts with, and its other words. -/
def words : List Char → List Char × List (List Char)
  | [] => ([], [])
  | ch :: path =>
    let (w, ws) := words path
    if ch = '/' then ([], if w = [] then ws else w :: ws) else (ch :: w, ws)

/-- The elements that the calls of `skipelem` in `namex` produce one after the other. -/
def elems (path : List Char) : List Name :=
  let (w, ws) := words path
  (if w = [] then ws else w :: ws).map (List.take DIRSIZ)

/-- The loop of fs.c:661, over the remaining elements. With `parent` it stops one level early and
also returns the final element. -/
def namexLoop (parent : Bool) (ip : Nat) : List Name → M (Option (Nat × Name))
  | [] =>
    if parent then do
      iput ip
      pure none
    else pure (some (ip, []))
  | name :: rest => do
    ilock ip
    let i ← load ip
    if i.type ≠ .dir then
      iunlockput ip
      pure none
    else if parent ∧ rest = [] then pure (some (ip, name))
    else match ← dirlookup ip name with
      | none =>
        iunlockput ip
        pure none
      | some (next, _) =>
        iunlockput ip
        namexLoop parent next rest

/-- fs.c:652, for a process whose current directory is `cwd`. -/
def namex (cwd : Nat) (parent : Bool) (path : List Char) : M (Option (Nat × Name)) := do
  let ip ← if path.head? = some '/' then iget ROOTINO else idup cwd
  namexLoop parent ip (elems path)

def namei (cwd : Nat) (path : List Char) : M (Option (Nat × Name)) := namex cwd false path
def nameiparent (cwd : Nat) (path : List Char) : M (Option (Nat × Name)) := namex cwd true path

/-! ## System calls

`cwd` is the current directory of the calling process. A call returns what the C function returns. -/

/-- sysfile.c:149-156: the new entry of `sysLink`. -/
def linkInto (cwd : Nat) (new : List Char) (ip : Nat) (full : Bool) : M Bool := do
  match ← nameiparent cwd new with
  | none => pure false
  | some (dp, name) =>
    ilock dp
    let linked ← dirlink dp name ip full
    iunlockput dp
    pure linked

def sysLink (cwd : Nat) (old new : List Char) (full : Bool) : M Int := do
  match ← namei cwd old with
  | none => pure (-1)
  | some (ip, _) =>
    ilock ip
    let i ← load ip
    if i.type = .dir then
      iunlockput ip
      pure (-1)
    else
      store ip i.inc
      let linked ← linkInto cwd new ip full
      if linked then
        iput ip
        pure 0
      else
        -- the label `bad`
        ilock ip
        let i ← load ip
        store ip i.dec
        iunlockput ip
        pure (-1)

def sysUnlink (cwd : Nat) (path : List Char) : M Int := do
  match ← nameiparent cwd path with
  | none => pure (-1)
  | some (dp, name) =>
    ilock dp
    if name = dot ∨ name = dotdot then
      iunlockput dp
      pure (-1)
    else match ← dirlookup dp name with
      | none =>
        iunlockput dp
        pure (-1)
      | some (ip, k) =>
        -- `ilock(ip)` would wait for the lock of `dp`
        if ip = dp then throw .deadlock
        else
          ilock ip
          let i ← load ip
          if i.nlink.toInt < 1 then throw .nlink
          else if i.type = .dir ∧ ¬ isdirempty i.ents then
            iunlockput ip
            iunlockput dp
            pure (-1)
          else
            let d ← load dp
            let d := d.setEnts (d.ents.set k .empty)
            store dp (if i.type = .dir then d.dec else d)
            iunlockput dp
            let i ← load ip
            store ip i.dec
            iunlockput ip
            pure 0

/-- Where `balloc` returns 0 during `create`: for `"."`, for `".."`, for the new entry. -/
structure Full where
  dot : Bool := false
  dotdot : Bool := false
  entry : Bool := false
deriving DecidableEq, Repr

/-- sysfile.c:274-288: the entries of a new inode `ip` in `dp`. -/
def enterNew (dp : Nat) (name : Name) (ip : Nat) (ty : IType) (full : Full) : M Bool := do
  if ty = .dir then
    if ← dirlink ip dot ip full.dot then
      if ← dirlink ip dotdot dp full.dotdot then
        if ← dirlink dp name ip full.entry then
          let d ← load dp
          store dp d.inc
          pure true
        else pure false
      else pure false
    else pure false
  else dirlink dp name ip full.entry

/-- sysfile.c:266-301: `create` for a name that is not in the locked directory `dp`. -/
def createNew (dp : Nat) (name : Name) (ty : IType) (major : Int) (full : Full) : M (Option Nat) := do
  match ← ialloc ty with
  | none =>
    iunlockput dp
    pure none
  | some ip =>
    ilock ip
    let i ← load ip
    store ip { i with major := major, nlink := 1 }
    let entered ← enterNew dp name ip ty full
    if entered then
      iunlockput dp
      pure (some ip)
    else
      -- the label `fail`
      let i ← load ip
      store ip { i with nlink := 0 }
      iunlockput ip
      iunlockput dp
      pure none

def create (cwd : Nat) (path : List Char) (ty : IType) (major : Int) (full : Full) : M (Option Nat) := do
  match ← nameiparent cwd path with
  | none => pure none
  | some (dp, name) =>
    ilock dp
    match ← dirlookup dp name with
    | some (ip, _) =>
      iunlockput dp
      ilock ip
      let i ← load ip
      if ty = .file ∧ (i.type = .file ∨ i.type = .device) then pure (some ip)
      else
        iunlockput ip
        pure none
    | none => createNew dp name ty major full

def filealloc : M (Option Nat) := fun s =>
  match (List.range NFILE).find? fun f => (s.file f).ref = 0 with
  | none => .ok (none, s)
  | some f => .ok (some f, s.setFile f ⟨1, none⟩)

/-- sysfile.c:40 -/
def fdalloc (p f : Nat) : M (Option Nat) := fun s =>
  match (List.range NOFILE).find? fun fd => s.ofile p fd = none with
  | none => .ok (none, s)
  | some fd => .ok (some fd, s.setFd p fd (some f))

def filedup (f : Nat) : M Unit := fun s =>
  if (s.file f).ref < 1 then .error .filedup
  else .ok ((), s.setFile f ⟨(s.file f).ref + 1, (s.file f).ip⟩)

/-- file.c:60. The last close of a file drops its inode reference. -/
def fileclose (f : Nat) : M Unit := do
  let e := (← get).file f
  if e.ref < 1 then throw .fileclose
  else if 1 < e.ref then
    modify (·.setFile f ⟨e.ref - 1, e.ip⟩)
  else
    modify (·.setFile f ⟨0, none⟩)
    match e.ip with
    | none => pure ()
    | some ip => iput ip

/-- sysfile.c:340-362: a file table entry and a descriptor for the locked inode. -/
def opened (p ip : Nat) : M Int := do
  let i ← load ip
  if i.type = .device ∧ (i.major < 0 ∨ (NDEV : Int) ≤ i.major) then
    iunlockput ip
    pure (-1)
  else match ← filealloc with
    | none =>
      iunlockput ip
      pure (-1)
    | some f =>
      match ← fdalloc p f with
      | none =>
        fileclose f
        iunlockput ip
        pure (-1)
      | some fd =>
        modify (·.setFile f ⟨1, some ip⟩)
        pure fd

def sysOpen (p cwd : Nat) (path : List Char) (omode : Nat) (full : Full) : M Int := do
  if omode &&& O_CREATE ≠ 0 then
    match ← create cwd path .file 0 full with
    | none => pure (-1)
    | some ip => opened p ip
  else
    match ← namei cwd path with
    | none => pure (-1)
    | some (ip, _) =>
      ilock ip
      let i ← load ip
      if i.type = .dir ∧ omode ≠ O_RDONLY then
        iunlockput ip
        pure (-1)
      else opened p ip

/-- sysfile.c:374 and 390: `create` and drop the reference. -/
def sysMake (cwd : Nat) (path : List Char) (ty : IType) (major : Int) (full : Full) : M Int := do
  match ← create cwd path ty major full with
  | none => pure (-1)
  | some ip =>
    iunlockput ip
    pure 0

/-- sysfile.c:374 -/
def sysMkdir (cwd : Nat) (path : List Char) (full : Full) : M Int := sysMake cwd path .dir 0 full

/-- sysfile.c:390 -/
def sysMknod (cwd : Nat) (path : List Char) (major : Int) (full : Full) : M Int :=
  sysMake cwd path .device major full

/-- sysfile.c:410 -/
def sysChdir (p cwd : Nat) (path : List Char) : M Int := do
  match ← namei cwd path with
  | none => pure (-1)
  | some (ip, _) =>
    ilock ip
    let i ← load ip
    if i.type ≠ .dir then
      iunlockput ip
      pure (-1)
    else
      iput cwd
      modify (·.setCwd p (some ip))
      pure 0

/-- exec.c:36-43 and 79: the inode operations of `exec`, whether or not the image is accepted. -/
def sysExec (cwd : Nat) (path : List Char) : M Int := do
  match ← namei cwd path with
  | none => pure (-1)
  | some (ip, _) =>
    ilock ip
    iunlockput ip
    pure 0

/-- Take a descriptor out of the table of `p` and close it. -/
def closeFd (p fd f : Nat) : M Unit := do
  modify (·.setFd p fd none)
  fileclose f

/-- sysfile.c:98 -/
def sysClose (p fd : Nat) : M Int := do
  if NOFILE ≤ fd then pure (-1)
  else match (← get).ofile p fd with
    | none => pure (-1)
    | some f =>
      closeFd p fd f
      pure 0

/-- proc.c:426: the first `n` descriptors of an exiting process. -/
def closeAll (p : Nat) : Nat → M Unit
  | 0 => pure ()
  | n + 1 => do
    closeAll p n
    match (← get).ofile p n with
    | none => pure ()
    | some f => closeFd p n f

/-- proc.c:418, as far as files are concerned; the first process must not exit. -/
def exit (p cwd : Nat) : M Int := do
  if p = 0 then throw .initExiting
  else
    closeAll p NOFILE
    iput cwd
    modify (·.setCwd p none)
    pure 0

/-- The first `n` descriptors of a forking process, duplicated for the child `q`. -/
def dupAll (p q : Nat) : Nat → M Unit
  | 0 => pure ()
  | n + 1 => do
    dupAll p q n
    match (← get).ofile p n with
    | none => pure ()
    | some f =>
      filedup f
      modify (·.setFd q n (some f))

/-- proc.c:342, as far as files are concerned. -/
def fork (p q cwd : Nat) : M Int := do
  dupAll p q NOFILE
  let c ← idup cwd
  modify (·.setCwd q (some c))
  pure 0

/-! ## The machine -/

inductive Call where
  | open (path : List Char) (omode : Nat) (full : Full)
  | mkdir (path : List Char) (full : Full)
  | mknod (path : List Char) (major : Int) (full : Full)
  | link (old new : List Char) (full : Bool)
  | unlink (path : List Char)
  | chdir (path : List Char)
  | exec (path : List Char)
  | close (fd : Nat)
  | exit
  | fork (q : Nat)
deriving DecidableEq, Repr

/-- A call made by process `p`, whose current directory is `cwd`. -/
def Call.body (p cwd : Nat) : Call → M Int
  | .open path omode full => sysOpen p cwd path omode full
  | .mkdir path full => sysMkdir cwd path full
  | .mknod path major full => sysMknod cwd path major full
  | .link old new full => sysLink cwd old new full
  | .unlink path => sysUnlink cwd path
  | .chdir path => sysChdir p cwd path
  | .exec path => sysExec cwd path
  | .close fd => sysClose p fd
  | .exit => Dir.exit p cwd
  | .fork q => Dir.fork p q cwd

/-- A call is possible for a process that runs; `fork` finds an unused slot. -/
def Call.enabled (s : Fs) (p : Nat) : Call → Bool
  | .fork q => p < NPROC ∧ q < NPROC ∧ s.cwd q = none
  | _ => p < NPROC

def step (s : Fs) (e : Nat × Call) : Machine.Outcome Panic Fs :=
  match s.cwd e.1 with
  | none => .stuck
  | some cwd =>
    if e.2.enabled s e.1 then
      match e.2.body e.1 cwd s with
      | .ok (_, s') => .ok s'
      | .error p => .halt p
    else .stuck

/-- The state of `userinit` on a disk with these inodes: one process, in the root directory. -/
def boot (ninodes : Nat) (inode : Nat → Inode) : Fs where
  ninodes := ninodes
  inode := inode
  ref := update (fun _ => 0) ROOTINO 1
  valid := fun _ => false
  cwd := update (fun _ => none) 0 (some ROOTINO)
  ofile := fun _ _ => none
  file := fun _ => ⟨0, none⟩

end Xv6Riscv.Dir
