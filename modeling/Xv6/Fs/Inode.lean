import Xv6.Fs.Name

/-!
# The inode cache, directories and paths

The upper half of `fs.c`, as tasks: a step is a section under `icache.lock`, or a stretch of code
between two operations on inode sleep locks. `arbiter` says when a process gets past `begin_op` and
`acquiresleep`.
-/

namespace Xv6.Fs

open Conc

variable {P : Type} [DecidableEq P] (sb : Superblock)

/-- `begin_op` returns when the log has room, `acquiresleep` when nobody holds the lock. -/
def arbiter : Arbiter P (Kernel P) Request where
  ready _ r s :=
    match r with
    | .log => s.vol.hasRoom
    | .inode _ k => (s.icache k).lock.isNone
  grant p r s :=
    match r with
    | .log => { s with vol := { s.vol with outstanding := s.vol.outstanding + 1 } }
    | .inode _ k => s.setInode k { s.icache k with lock := some p }

def beginOp : Task P Unit := Prog.request .log

def endOp : Task P Unit := act fun s => .ok ((), { s with vol := s.vol.endOp })

/-! ## Cache entries -/

/-- Find the entry for inode `inum`, or recycle a free one, and count the reference. -/
def iget (dev inum : ℕ) : Kern P ℕ := fun s =>
  match (List.range NINODE).find? fun k =>
      0 < (s.icache k).ref && (s.icache k).dev = dev && (s.icache k).inum = inum with
  | some k => .ok (k, s.setInode k { s.icache k with ref := (s.icache k).ref + 1 })
  | none =>
    match (List.range NINODE).find? fun k => (s.icache k).ref = 0 with
    | some k =>
      .ok (k, s.setInode k { s.icache k with dev := dev, inum := inum, ref := 1, valid := false })
    | none => .error .igetNoInodes

def ialloc (dev : ℕ) (type : FType) : Kern P ℕ := do
  let inum ← onDisk (iallocDisk sb type)
  iget dev inum

def idup (k : ℕ) : Kern P ℕ := fun s =>
  .ok (k, s.setInode k { s.icache k with ref := (s.icache k).ref + 1 })

def iload (k : ℕ) : Kern P Unit := fun s =>
  if (s.icache k).valid then .ok ((), s)
  else if (s.vol.dinode (s.icache k).inum).type = .free then .error .ilockNoType
  else .ok ((), s.setInode k
    { s.icache k with valid := true, d := s.vol.dinode (s.icache k).inum })

def ilock (k : ℕ) : Task P Unit := do
  act fun s => if (s.icache k).ref < 1 then .error .ilock else .ok ((), s)
  Prog.request (.inode .ilock k)
  act (iload k)

def iunlock (p : P) (k : ℕ) : Task P Unit :=
  act fun s =>
    if (s.icache k).lock ≠ some p ∨ (s.icache k).ref < 1 then .error .iunlock
    else .ok ((), s.setInode k { s.icache k with lock := none })

/-- The test of `iput`: no links, and no reference but the one being dropped. -/
def iputTest (k : ℕ) : Kern P Bool := fun s =>
  .ok ((s.icache k).valid && (s.icache k).d.nlink = 0 && (s.icache k).ref = 1, s)

def iputFree (k : ℕ) : Kern P Unit := fun s =>
  match onInode k (do
      itrunc sb (s.icache k).inum
      modify fun (d, v) => ({ d with type := .free }, v)
      iupdate sb (s.icache k).inum) s with
  | .ok (_, s) => .ok ((), s.setInode k { s.icache k with valid := false })
  | .error e => .error e

def iputLocked (k : ℕ) : Task P Unit := do
  let free ← act (iputTest k)
  let _ ← if free then act (iputFree sb k) else pure ()
  act fun s => .ok ((), s.setInode k { s.icache k with lock := none })
  act fun s => .ok ((), s.setInode k { s.icache k with ref := (s.icache k).ref - 1 })

def iputFrom (site : LockSite) (k : ℕ) : Task P Unit := do
  Prog.request (.inode site k)
  iputLocked sb k

/-- Drop a reference to the entry. If it was the last one and the inode has no links, free the inode
on disk. -/
def iput (k : ℕ) : Task P Unit := iputFrom sb .iput k

def iunlockput (p : P) (k : ℕ) : Task P Unit := do
  iunlock p k
  iput sb k

def iunlockputParent (p : P) (k : ℕ) : Task P Unit := do
  iunlock p k
  iputFrom sb .iputParent k

/-! ## Directories -/

/-- Look for an entry in the directory; the entry's inode, referenced, and its offset. -/
def dirlookup (dp : ℕ) (name : Str) : Kern P (Option (ℕ × ℕ)) := do
  match ← onInode dp (dirfind sb name) with
  | some (inum, off) => do
    let s ← get
    let ip ← iget (s.icache dp).dev inum
    return some (ip, off)
  | none => return none

/-- Write a new entry `(name, inum)` into the directory. `false` is the result `-1`. -/
def dirlink (dp : ℕ) (name : Str) (inum : ℕ) : Task P Bool := do
  match ← act (dirlookup sb dp name) with
  | some (ip, _) => do
    iput sb ip
    return false
  | none => do
    act fun s => onInode dp (dirAppend sb (s.icache dp).inum name inum) s
    return true

/-! ## Paths -/

def typeOf (k : ℕ) : Task P FType := act fun s => .ok ((s.icache k).d.type, s)

def namexLoop (p : P) (parent : Bool) : ℕ → ℕ → Str → Str → Task P (Option (ℕ × Str))
  | 0, _, _, _ => return none
  | fuel + 1, ip, path, name =>
    match skipelem path with
    | none =>
      if parent then do
        iput sb ip
        return none
      else return some (ip, name)
    | some (name, path) => do
      ilock ip
      let t ← typeOf ip
      if t ≠ .dir then do
        iunlockput sb p ip
        return none
      else if parent ∧ path.headD 0 = 0 then do
        iunlock p ip
        return some (ip, name)
      else do
        match ← act (dirlookup sb ip name) with
        | none => do
          iunlockput sb p ip
          return none
        | some (next, _) => do
          iunlockput sb p ip
          namexLoop p parent fuel next path name

def idupCwd (p : P) : Kern P ℕ := fun s =>
  match (s.proc p).cwd with
  | some k => idup k s
  | none => .error .trap

/-- Look up the inode for a path name. With `parent`, the inode of the parent and the final path
element. -/
def namex (p : P) (path : Str) (parent : Bool) : Task P (Option (ℕ × Str)) := do
  let ip ← act (if path.headD 0 = SLASH then iget ROOTDEV ROOTINO else idupCwd p)
  namexLoop sb p parent (path.length + 1) ip path []

def namei (p : P) (path : Str) : Task P (Option ℕ) := do
  let r ← namex sb p path false
  return r.map Prod.fst

def nameiparent (p : P) (path : Str) : Task P (Option (ℕ × Str)) := namex sb p path true

end Xv6.Fs
