import Xv6.Fs.State

/-!
# Blocks and inode contents

The lower half of `fs.c`: the block allocator, the inode table, and the contents of an inode. The
functions that take a locked `struct inode *ip` run in `InodeM`, whose state is the cached copy of
that inode and the disk.
-/

namespace Xv6.Fs

open Function

variable (sb : Superblock)

/-! ## The log, as the operations see it -/

/-- Record block `b` in the open transaction, once. -/
def logWrite (b : ℕ) : VolM Unit := fun v =>
  if LOGSIZE ≤ v.lh.length ∨ sb.nlog - 1 ≤ v.lh.length then .error (.log .tooBig)
  else if v.outstanding < 1 then .error (.log .outsideTrans)
  else .ok ((), { v with lh := if b ∈ v.lh then v.lh else v.lh ++ [b] })

/-- `begin_op` waits while this operation might exhaust the log space. -/
def Volume.hasRoom (v : Volume) : Bool :=
  v.lh.length + (v.outstanding + 1) * MAXOPBLOCKS ≤ LOGSIZE

def Volume.endOp (v : Volume) : Volume :=
  { v with
    outstanding := v.outstanding - 1
    lh := if v.outstanding - 1 = 0 then [] else v.lh }

/-! ## The group commit behind the log

The header and the count of a volume are those of the log when nobody commits, and what an operation
does to them in one step is a run of the group commit.
-/

section GroupCommit

variable {sb} {P : Type} {v : Volume} {g : Log.GState P} {p : P} {o : ℕ}

/-- Nobody commits, and the log has the header and the count of `v`. -/
structure Volume.Sees (v : Volume) (g : Log.GState P) : Prop where
  lh : g.lh = v.lh
  outstanding : g.outstanding = v.outstanding
  committing : g.committing = false
  panic : g.panic = none

variable [DecidableEq P]

theorem logWrite_run (h : v.Sees g) (hp : g.pc p = .inOp o) (b : ℕ) :
    (∀ v', logWrite sb b v = .ok ((), v') → ∃ g',
      Lts.run (Log.gstep sb.nlog) g [.logWrite p b, .record p] = some g' ∧ v'.Sees g' ∧
        g'.pc p = .inOp o) ∧
    ∀ e, logWrite sb b v = .error (.log e) →
      Log.gstep sb.nlog g (.logWrite p b) = some { g with panic := some e } := by
  have hbig : (LOGSIZE ≤ g.lh.length ∨ (sb.nlog : ℤ) - 1 ≤ g.lh.length) ↔
      (LOGSIZE ≤ v.lh.length ∨ sb.nlog - 1 ≤ v.lh.length) := by
    rw [h.lh]
    omega
  have hin : g.outstanding < 1 ↔ v.outstanding < 1 := by
    rw [h.outstanding]
    omega
  have hfirst : Log.gstep sb.nlog g (.logWrite p b) =
      some (Log.logWriteTest sb.nlog g p o b) := by
    simp [Log.gstep, h.panic, hp]
  unfold Log.logWriteTest at hfirst
  simp only [hbig, hin] at hfirst
  unfold logWrite
  split
  next hc =>
    rw [if_pos hc] at hfirst
    exact ⟨fun v' hv => (by cases hv), fun e he => (by cases he; exact hfirst)⟩
  next hc =>
    rw [if_neg hc] at hfirst
    split
    next ho =>
      rw [if_pos ho] at hfirst
      exact ⟨fun v' hv => (by cases hv), fun e he => (by cases he; exact hfirst)⟩
    next ho =>
      rw [if_neg ho] at hfirst
      refine ⟨fun v' hv => ?_, fun e he => (by cases he)⟩
      cases hv
      refine ⟨Log.record (g.goto p (.logging o b)) p o b, ?_,
        ⟨?_, h.outstanding, h.committing, h.panic⟩, ?_⟩
      · rw [Lts.run, hfirst, Option.bind_some]
        simp [Lts.run, Log.gstep, Log.GState.goto, h.panic]
      · simp [Log.record, Log.GState.goto, h.lh]
      · simp [Log.record, Log.GState.goto]

end GroupCommit

/-! ## Blocks -/

def bzero (b : ℕ) : VolM Unit := do
  modify fun v => { v with data := update v.data b Block.zero }
  logWrite sb b

def balloc : VolM ℕ := do
  let v ← get
  match (List.range sb.size).find? fun b => !v.bitmap b with
  | some b => do
    set { v with bitmap := update v.bitmap b true }
    logWrite sb (BBLOCK b sb)
    bzero sb b
    return b
  | none => throw .outOfBlocks

def bfree (b : ℕ) : VolM Unit := do
  let v ← get
  if v.bitmap b then do
    set { v with bitmap := update v.bitmap b false }
    logWrite sb (BBLOCK b sb)
  else throw .freeingFreeBlock

/-! ## Inodes -/

def iallocDisk (type : FType) : VolM ℕ := do
  let v ← get
  match (List.range' 1 (sb.ninodes - 1)).find? fun i => (v.dinode i).type = .free with
  | some i => do
    set { v with dinode := update v.dinode i { Dinode.zero with type := type } }
    logWrite sb (IBLOCK i sb)
    return i
  | none => throw .iallocNoInodes

def iupdate (inum : ℕ) : InodeM Unit := do
  onVol (logWrite sb (IBLOCK inum sb))
  modify fun (d, v) => (d, { v with dinode := update v.dinode inum d })

def addrAlloc (i : ℕ) : InodeM ℕ := do
  let (d, _) ← get
  if d.addrs i = 0 then do
    let addr ← onVol (balloc sb)
    modify fun (d, v) => ({ d with addrs := update d.addrs i addr }, v)
    return addr
  else return d.addrs i

def indirectAlloc (ind bn : ℕ) : InodeM ℕ := do
  let (_, v) ← get
  if (v.data ind).word bn = 0 then do
    let addr ← onVol (balloc sb)
    modify fun (d, v) =>
      (d, { v with data := update v.data ind ((v.data ind).setWord bn addr) })
    onVol (logWrite sb ind)
    return addr
  else return (v.data ind).word bn

/-- The disk block of the `bn`-th block of the inode, allocated if there is no such block. -/
def bmap (bn : ℕ) : InodeM ℕ :=
  if bn < NDIRECT then addrAlloc sb bn
  else if bn - NDIRECT < NINDIRECT then do
    let ind ← addrAlloc sb NDIRECT
    indirectAlloc sb ind (bn - NDIRECT)
  else throw .bmapOutOfRange

def itruncDirect : List ℕ → InodeM Unit
  | [] => return
  | i :: is => do
    let (d, _) ← get
    if d.addrs i ≠ 0 then do
      onVol (bfree sb (d.addrs i))
      modify fun (d, v) => ({ d with addrs := update d.addrs i 0 }, v)
      itruncDirect is
    else itruncDirect is

def itruncIndirect (a : Block) : List ℕ → InodeM Unit
  | [] => return
  | j :: js =>
    if a.word j ≠ 0 then do
      onVol (bfree sb (a.word j))
      itruncIndirect a js
    else itruncIndirect a js

def itruncLast : InodeM Unit := do
  let (d, v) ← get
  if d.addrs NDIRECT ≠ 0 then do
    itruncIndirect sb (v.data (d.addrs NDIRECT)) (List.range NINDIRECT)
    onVol (bfree sb (d.addrs NDIRECT))
    modify fun (d, v) => ({ d with addrs := update d.addrs NDIRECT 0 }, v)
  else return

def itrunc (inum : ℕ) : InodeM Unit := do
  itruncDirect sb (List.range NDIRECT)
  itruncLast sb
  modify fun (d, v) => ({ d with size := 0 }, v)
  iupdate sb inum

/-! ## Inode content -/

def blit (b : Block) (lo : ℕ) (src : List UInt8) : Block := fun i =>
  if i < lo then b i else src.getD (i - lo) (b i)

def readLoop : ℕ → ℕ → ℕ → InodeM (List UInt8)
  | 0, _, _ => return []
  | fuel + 1, off, n =>
    if n = 0 then return []
    else do
      let addr ← bmap sb (off / BSIZE)
      let (_, v) ← get
      let m := min n (BSIZE - off % BSIZE)
      let bytes := (List.range m).map fun i => v.data addr (off % BSIZE + i)
      let rest ← readLoop fuel (off + m) (n - m)
      return bytes ++ rest

/-- Read data from an inode that is not a device. `none` is the result `-1`, and `2 ^ 32 ≤ off + n`
says that the unsigned sum `off + n` wraps. -/
def readi (off n : ℕ) : InodeM (Option (List UInt8)) := do
  let (d, _) ← get
  if d.size < off ∨ 2 ^ 32 ≤ off + n then return none
  else do
    let n := if d.size < off + n then d.size - off else n
    let bytes ← readLoop sb n off n
    return some bytes

def writeLoop : ℕ → ℕ → List UInt8 → InodeM Unit
  | 0, _, _ => return
  | fuel + 1, off, src =>
    if src = [] then return
    else do
      let addr ← bmap sb (off / BSIZE)
      let m := min src.length (BSIZE - off % BSIZE)
      modify fun (d, v) => (d, { v with
        data := update v.data addr (blit (v.data addr) (off % BSIZE) (src.take m)) })
      onVol (logWrite sb addr)
      writeLoop fuel (off + m) (src.drop m)

def writei (inum off : ℕ) (src : List UInt8) : InodeM (Option ℕ) := do
  let (d, _) ← get
  if d.size < off ∨ 2 ^ 32 ≤ off + src.length then return none
  else if MAXFILE * BSIZE < off + src.length then return none
  else do
    writeLoop sb src.length off src
    if 0 < src.length ∧ d.size < off + src.length then do
      modify fun (d, v) => ({ d with size := off + src.length }, v)
      iupdate sb inum
      return some src.length
    else return some src.length

end Xv6.Fs
