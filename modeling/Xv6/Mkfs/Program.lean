import Xv6.Fs.Format
import Xv6.Fs.Name

/-!
# `mkfs`

The program that builds the first disk image, on the sectors of the image file. Structures are
written through `xshort` and `xint`, so that their bytes are little-endian whatever the host; here
they are written byte by byte in the first place. The input files are given by their names and
contents.
-/

namespace Xv6.Mkfs

open Fs

/-! ## Layout -/

def NINODES : ℕ := 200

def nbitmap : ℕ := FSSIZE / (BSIZE * 8) + 1

def ninodeblocks : ℕ := NINODES / IPB + 1

def nlog : ℕ := LOGSIZE

def nmeta : ℕ := 2 + nlog + ninodeblocks + nbitmap

def nblocks : ℕ := FSSIZE - nmeta

def sb : Superblock where
  size := FSSIZE
  nblocks := nblocks
  ninodes := NINODES
  nlog := nlog
  logstart := 2
  inodestart := 2 + nlog
  bmapstart := 2 + nlog + ninodeblocks

def sbBlock : Block :=
  ((((((Block.zero.setWord 0 sb.size).setWord 1 sb.nblocks).setWord 2 sb.ninodes).setWord 3
    sb.nlog).setWord 4 sb.logstart).setWord 5 sb.inodestart).setWord 6 sb.bmapstart

/-! ## Sectors -/

inductive Exit
  /-- `perror("read")`: a sector beyond the end of the image file. -/
  | read
  /-- `assert(rootino == ROOTINO)` -/
  | rootino
  /-- `assert(index(argv[i], '/') == 0)` -/
  | slash
  /-- `assert(fbn < MAXFILE)` -/
  | fbn
  /-- `assert(used < BSIZE*8)` -/
  | used
  deriving DecidableEq

structure Mk where
  disk : Disk
  nsect : ℕ
  freeinode : ℕ
  freeblock : ℕ

def Mk.empty : Mk := ⟨fun _ => Block.zero, 0, 1, nmeta⟩

abbrev MkM := StateT Mk (Except Exit)

def wsect (sec : ℕ) (buf : Block) : MkM Unit :=
  modify fun m =>
    { m with
      disk := Function.update m.disk sec buf
      nsect := max m.nsect (sec + 1) }

def rsect (sec : ℕ) : MkM Block := fun m =>
  if sec < m.nsect then .ok (m.disk sec, m) else .error .read

/-! ## Inodes and blocks -/

def winode (inum : ℕ) (ip : Block) : MkM Unit := do
  let buf ← rsect (IBLOCK inum sb)
  wsect (IBLOCK inum sb) (putDinode buf (inum % IPB) ip)

def rinode (inum : ℕ) : MkM Block := do
  let buf ← rsect (IBLOCK inum sb)
  return dinodeAt buf (inum % IPB)

def newDinode (type : FType) : Block :=
  ((Block.zero.setHalf 0 type.code).setHalf 3 1).setWord 2 0

def ialloc (type : FType) : MkM ℕ := do
  let m ← get
  set { m with freeinode := m.freeinode + 1 }
  winode m.freeinode (newDinode type)
  return m.freeinode

def setBit (buf : Block) (i : ℕ) : Block :=
  Function.update buf (i / 8) (UInt8.ofNat ((buf (i / 8)).toNat ||| 1 <<< (i % 8)))

def balloc (used : ℕ) : MkM Unit :=
  if used < BSIZE * 8 then wsect sb.bmapstart ((List.range used).foldl setBit Block.zero)
  else throw .used

def nextBlock : MkM ℕ := do
  let m ← get
  set { m with freeblock := m.freeblock + 1 }
  return m.freeblock

def addrBlock (din : Block) (i : ℕ) : MkM Block :=
  if din.word (3 + i) = 0 then do
    let b ← nextBlock
    return din.setWord (3 + i) b
  else return din

def entryBlock (ind j : ℕ) : MkM ℕ := do
  let indirect ← rsect ind
  if indirect.word j = 0 then do
    let b ← nextBlock
    wsect ind (indirect.setWord j b)
    return (indirect.setWord j b).word j
  else return indirect.word j

def fileBlock (din : Block) (fbn : ℕ) : MkM (ℕ × Block) :=
  if fbn < NDIRECT then do
    let din ← addrBlock din fbn
    return (din.word (3 + fbn), din)
  else do
    let din ← addrBlock din NDIRECT
    let x ← entryBlock (din.word (3 + NDIRECT)) (fbn - NDIRECT)
    return (x, din)

def appendChunk (din : Block) (off : ℕ) (p : List UInt8) : MkM Block := do
  let (x, din) ← fileBlock din (off / BSIZE)
  let buf ← rsect x
  wsect x (blit buf (off - off / BSIZE * BSIZE) p)
  return din

def appendLoop : ℕ → Block → ℕ → List UInt8 → MkM (Block × ℕ)
  | 0, din, off, _ => return (din, off)
  | fuel + 1, din, off, p =>
    if p = [] then return (din, off)
    else if off / BSIZE < MAXFILE then do
      let n1 := min p.length ((off / BSIZE + 1) * BSIZE - off)
      let din ← appendChunk din off (p.take n1)
      appendLoop fuel din (off + n1) (p.drop n1)
    else throw .fbn

def iappend (inum : ℕ) (p : List UInt8) : MkM Unit := do
  let din ← rinode inum
  let (din, off) ← appendLoop p.length din (din.word 2) p
  winode inum (din.setWord 2 off)

/-! ## `main` -/

def copyLoop (inum : ℕ) : ℕ → List UInt8 → MkM Unit
  | 0, _ => return
  | fuel + 1, bs =>
    if bs = [] then return
    else do
      iappend inum (bs.take BSIZE)
      copyLoop inum fuel (bs.drop BSIZE)

def entryName (arg : Str) : Str := if arg.headD 0 = 95 then arg.tail else arg

abbrev HostFile := Str × List UInt8

def addFile (rootino : ℕ) (file : HostFile) : MkM Unit :=
  if SLASH ∈ file.1 then throw .slash
  else do
    let inum ← ialloc .file
    iappend rootino (direntBytes inum (entryName file.1))
    copyLoop inum file.2.length file.2

def addFiles (rootino : ℕ) : List HostFile → MkM Unit
  | [] => return
  | file :: files => do
    addFile rootino file
    addFiles rootino files

def fixRoot (rootino : ℕ) : MkM Unit := do
  let din ← rinode rootino
  winode rootino (din.setWord 2 ((din.word 2 / BSIZE + 1) * BSIZE))

def zeroSects : List ℕ → MkM Unit
  | [] => return
  | i :: is => do
    wsect i Block.zero
    zeroSects is

def main (files : List HostFile) : MkM Unit := do
  zeroSects (List.range FSSIZE)
  wsect 1 sbBlock
  let rootino ← ialloc .dir
  if rootino = ROOTINO then do
    iappend rootino (direntBytes rootino DOT)
    iappend rootino (direntBytes rootino DOTDOT)
    addFiles rootino files
    fixRoot rootino
    let m ← get
    balloc m.freeblock
  else throw .rootino

def mkfs (files : List HostFile) : Except Exit Mk :=
  match main files Mk.empty with
  | .ok (_, m) => .ok m
  | .error e => .error e

end Xv6.Mkfs
