import Xv6.Block
import Xv6.Lib.Prog
import Xv6.Log.GroupCommit

/-!
# The state of the file system code

The disk is seen through the buffer cache and already cut into its areas: the inode table, the free
bit map and the data blocks (`Volume`). On top of it stand the inode cache, the file table and the
part of the process table that `file.c` and `sysfile.c` use (`Kernel`). Pointers into the three
tables are indices.
-/

namespace Xv6.Fs

open Function

/-! ## Panics -/

inductive Panic
  | log (e : Log.LogPanic)
  | outOfBlocks
  | freeingFreeBlock
  | iallocNoInodes
  | igetNoInodes
  | ilock
  | ilockNoType
  | iunlock
  | bmapOutOfRange
  | dirlookupNotDir
  | dirlookupRead
  | dirlinkRead
  | dirlink
  | isdiremptyReadi
  | unlinkNlink
  | unlinkWritei
  | createDots
  | createDirlink
  | filedup
  | fileclose
  | fileread
  | filewrite
  | shortFilewrite
  | initExiting
  /-- The kernel follows a null pointer and takes a page fault. -/
  | trap
  deriving DecidableEq

/-! ## The disk -/

inductive FType
  | free
  | dir
  | file
  | dev
  deriving DecidableEq

structure Dinode where
  type : FType
  major : Int16
  minor : Int16
  nlink : Int16
  /-- In bytes. -/
  size : ℕ
  /-- The entries up to `NDIRECT` are used, the last one for the indirect block. -/
  addrs : ℕ → ℕ

def Dinode.zero : Dinode := ⟨.free, 0, 0, 0, 0, fun _ => 0⟩

structure Superblock where
  size : ℕ
  nblocks : ℕ
  ninodes : ℕ
  nlog : ℕ
  logstart : ℕ
  inodestart : ℕ
  bmapstart : ℕ

def IBLOCK (i : ℕ) (sb : Superblock) : ℕ := i / IPB + sb.inodestart

def BBLOCK (b : ℕ) (sb : Superblock) : ℕ := b / BPB + sb.bmapstart

def Superblock.datastart (sb : Superblock) : ℕ := sb.size - sb.nblocks

/-- The areas of the disk, and the log: the blocks of the open transaction and the number of
operations it counts. -/
structure Volume where
  bitmap : ℕ → Bool
  dinode : ℕ → Dinode
  data : ℕ → Block
  lh : List ℕ
  outstanding : ℕ

/-! ## The kernel's tables -/

structure Inode (P : Type) where
  dev : ℕ
  inum : ℕ
  ref : ℕ
  /-- The process that holds the sleep lock. -/
  lock : Option P
  /-- Has the copy below been read from disk? -/
  valid : Bool
  d : Dinode

inductive FdType
  | none
  | pipe
  | inode
  deriving DecidableEq

structure File where
  type : FdType
  ref : ℕ
  readable : Bool
  writable : Bool
  ip : Option ℕ
  off : ℕ

/-- The state of a process. An exited process is unused at once: reaping it in `wait` does not
concern the file system. -/
inductive ProcState
  | unused
  | embryo
  | running
  deriving DecidableEq

structure Proc where
  state : ProcState
  ofile : ℕ → Option ℕ
  cwd : Option ℕ
  /-- Set while the process is past the start of `iput(curproc->cwd)` and has not yet replaced
  `cwd`. The code has no such field; it names a stretch of `sys_chdir` and `exit`. -/
  leaving : Bool

structure Kernel (P : Type) where
  vol : Volume
  icache : ℕ → Inode P
  ftable : ℕ → File
  proc : P → Proc

section Updates

variable {P : Type} [DecidableEq P]

def Kernel.setInode (s : Kernel P) (k : ℕ) (ip : Inode P) : Kernel P :=
  { s with icache := update s.icache k ip }

def Kernel.setFile (s : Kernel P) (f : ℕ) (fl : File) : Kernel P :=
  { s with ftable := update s.ftable f fl }

def Kernel.setProc (s : Kernel P) (p : P) (pr : Proc) : Kernel P :=
  { s with proc := update s.proc p pr }

variable (s : Kernel P)

omit [DecidableEq P] in
@[simp] theorem setInode_vol (k ip) : (s.setInode k ip).vol = s.vol := rfl

omit [DecidableEq P] in
@[simp] theorem setInode_icache (k ip) :
    (s.setInode k ip).icache = update s.icache k ip := rfl

omit [DecidableEq P] in
@[simp] theorem setInode_ftable (k ip) : (s.setInode k ip).ftable = s.ftable := rfl

omit [DecidableEq P] in
@[simp] theorem setInode_proc (k ip) : (s.setInode k ip).proc = s.proc := rfl

omit [DecidableEq P] in
@[simp] theorem setFile_vol (f fl) : (s.setFile f fl).vol = s.vol := rfl

omit [DecidableEq P] in
@[simp] theorem setFile_icache (f fl) : (s.setFile f fl).icache = s.icache := rfl

omit [DecidableEq P] in
@[simp] theorem setFile_ftable (f fl) :
    (s.setFile f fl).ftable = update s.ftable f fl := rfl

omit [DecidableEq P] in
@[simp] theorem setFile_proc (f fl) : (s.setFile f fl).proc = s.proc := rfl

@[simp] theorem setProc_vol (p pr) : (s.setProc p pr).vol = s.vol := rfl

@[simp] theorem setProc_icache (p pr) : (s.setProc p pr).icache = s.icache := rfl

@[simp] theorem setProc_ftable (p pr) : (s.setProc p pr).ftable = s.ftable := rfl

@[simp] theorem setProc_proc (p pr) : (s.setProc p pr).proc = update s.proc p pr := rfl

end Updates

/-! ## The monads of the model -/

abbrev VolM := StateT Volume (Except Panic)

/-- Code that works on a locked inode, whose copy in the cache it changes, and on the disk. -/
abbrev InodeM := StateT (Dinode × Volume) (Except Panic)

abbrev Kern (P : Type) := StateT (Kernel P) (Except Panic)

/-- Where a process asks for the sleep lock of an inode: in `ilock`, in `iput`, or in the `iput`
with which `create` and `unlink` drop the directory they have just unlocked, while the inode of the
entry is still locked. -/
inductive LockSite
  | ilock
  | iput
  | iputParent
  deriving DecidableEq

/-- What a process may have to wait for: room in the log, or the sleep lock of a cache entry. -/
inductive Request
  | log
  | inode (site : LockSite) (k : ℕ)
  deriving DecidableEq

abbrev Task (P α : Type) := Conc.Prog (Kernel P) Panic Request α

abbrev act {P α : Type} (f : Kern P α) : Task P α := Conc.Prog.lift f

def onVol {α : Type} (m : VolM α) : InodeM α := fun s =>
  match m s.2 with
  | .ok (a, v) => .ok (a, (s.1, v))
  | .error e => .error e

def onInode {P α : Type} (k : ℕ) (m : InodeM α) : Kern P α := fun s =>
  match m ((s.icache k).d, s.vol) with
  | .ok (a, (d, v)) => .ok (a, { s.setInode k { s.icache k with d := d } with vol := v })
  | .error e => .error e

def onDisk {P α : Type} (m : VolM α) : Kern P α := fun s =>
  match m s.vol with
  | .ok (a, v) => .ok (a, { s with vol := v })
  | .error e => .error e

end Xv6.Fs
