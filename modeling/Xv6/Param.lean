import Mathlib.Tactic

/-!
# Kernel and file system constants

The values of `param.h`, `fs.h`, `stat.h` and `fcntl.h` that the modelled code reads.
-/

namespace Xv6

/-! ## `param.h` -/

def NPROC : ℕ := 64

def NOFILE : ℕ := 16

def NFILE : ℕ := 100

def NINODE : ℕ := 50

def NDEV : ℕ := 10

def ROOTDEV : ℕ := 1

def MAXOPBLOCKS : ℕ := 10

def LOGSIZE : ℕ := MAXOPBLOCKS * 3

def NBUF : ℕ := MAXOPBLOCKS * 3

def FSSIZE : ℕ := 1000

/-! ## `fs.h` -/

def ROOTINO : ℕ := 1

def BSIZE : ℕ := 512

def NDIRECT : ℕ := 12

def NINDIRECT : ℕ := BSIZE / 4

def MAXFILE : ℕ := NDIRECT + NINDIRECT

def IPB : ℕ := BSIZE / 64

def BPB : ℕ := BSIZE * 8

def DIRSIZ : ℕ := 14

def DIRENTSZ : ℕ := 2 + DIRSIZ

/-! ## `fcntl.h` and `file.h` -/

def O_RDONLY : ℕ := 0x000

def O_WRONLY : ℕ := 0x001

def O_RDWR : ℕ := 0x002

def O_CREATE : ℕ := 0x200

def CONSOLE : Int16 := 1

end Xv6
