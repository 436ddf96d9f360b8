import Xv6.Vm.Memory

/-!
# Processes and their pages

The calls with which a process changes its own memory, `sbrk` and `exec`, each as one step of the
process that makes it.
-/

namespace Xv6.Vm

open Fs (FdType)

/-! ## State -/

def MAXARG : ℕ := 32

inductive ProcState
  | unused
  | embryo
  | alive
  | zombie
  deriving DecidableEq

structure Proc where
  state : ProcState
  kstack : ℕ
  pgdir : ℕ
  /-- Size of the process memory, in bytes. -/
  sz : ℕ
  parent : Option ℕ
  ofile : ℕ → Option ℕ
  eip : ℕ
  esp : ℕ
  cwd : ℕ
  name : List UInt8

structure File where
  type : FdType
  ref : ℕ
  readable : Bool
  writable : Bool
  pipe : ℕ

inductive FsCall
  | beginOp
  | namei (ip : ℕ)
  | ilock (ip : ℕ)
  | iunlockput (ip : ℕ)
  | endOp
  deriving DecidableEq

structure Kernel where
  mem : Mem
  kpgdir : ℕ
  /-- The stacks on which the other processors started. -/
  cpuStacks : List ℕ
  proc : ℕ → Proc
  ftable : ℕ → File
  initproc : ℕ
  /-- The calls of the file system by `exec`, the last one first. -/
  fs : List FsCall

abbrev KernM := StateT Kernel (Except Panic)

def Kernel.setProc (s : Kernel) (p : ℕ) (pr : Proc) : Kernel :=
  { s with proc := Function.update s.proc p pr }

def onMem {α : Type} (f : MemM α) : KernM α := fun s =>
  match f s.mem with
  | .ok (a, m) => .ok (a, { s with mem := m })
  | .error e => .error e

def modifyProc (p : ℕ) (f : Proc → Proc) : KernM Unit := modify fun s => s.setProc p (f (s.proc p))

def callFs (c : FsCall) : KernM Unit := modify fun s => { s with fs := c :: s.fs }

variable (img : KernelImage)

/-! ## Processes -/

def growproc (p : ℕ) (n : ℤ) : KernM Bool := do
  let s ← get
  let sz := (s.proc p).sz
  let newsz := (((sz : ℤ) + n) % 2 ^ 32).toNat
  if 0 < n then do
    let sz ← onMem (allocuvm img (s.proc p).pgdir sz newsz)
    if sz = 0 then return false
    else do
      modifyProc p fun pr => { pr with sz := sz }
      return true
  else if n < 0 then do
    let sz ← onMem (deallocuvm img (s.proc p).pgdir sz newsz)
    if sz = 0 then return false
    else do
      modifyProc p fun pr => { pr with sz := sz }
      return true
  else return true

def sysSbrk (p : ℕ) (n : ℤ) : KernM (Option ℕ) := do
  let s ← get
  let addr := (s.proc p).sz
  if ← growproc img p n then return some addr
  else return none

/-! ## `exec` -/

def ELF_MAGIC : ℕ := 0x464C457F

def ELF_PROG_LOAD : ℕ := 1

def ELFHDRSZ : ℕ := 52

def PROGHDRSZ : ℕ := 32

def ofBytes (bytes : List UInt8) : Block := fun i => bytes.getD i 0

structure Proghdr where
  type : ℕ
  off : ℕ
  vaddr : ℕ
  filesz : ℕ
  memsz : ℕ
  deriving DecidableEq

def proghdr (bytes : List UInt8) : Proghdr where
  type := (ofBytes bytes).word 0
  off := (ofBytes bytes).word 1
  vaddr := (ofBytes bytes).word 2
  filesz := (ofBytes bytes).word 4
  memsz := (ofBytes bytes).word 5

def loadSegments (file : ReadFile) (pgdir : ℕ) : ℕ → ℕ → ℕ → MemM (Option ℕ)
  | 0, _, sz => return some sz
  | n + 1, off, sz =>
    let bytes := file off PROGHDRSZ
    let ph := proghdr bytes
    if bytes.length ≠ PROGHDRSZ then return none
    else if ph.type ≠ ELF_PROG_LOAD then
      loadSegments file pgdir n ((off + PROGHDRSZ) % 2 ^ 32) sz
    else if ph.memsz < ph.filesz then return none
    else if (ph.vaddr + ph.memsz) % 2 ^ 32 < ph.vaddr then return none
    else do
      let sz ← allocuvm img pgdir sz ((ph.vaddr + ph.memsz) % 2 ^ 32)
      if sz = 0 then return none
      else if ph.vaddr % PGSIZE ≠ 0 then return none
      else if ← loaduvm img file pgdir ph.vaddr ph.off ph.filesz then
        loadSegments file pgdir n ((off + PROGHDRSZ) % 2 ^ 32) sz
      else return none

def pushed (sp n : ℕ) : ℕ := (sp + 2 ^ 32 - n) % 2 ^ 32 / 4 * 4

def wordBytes (w : ℕ) : List UInt8 :=
  [UInt8.ofNat w, UInt8.ofNat (w / 256), UInt8.ofNat (w / 65536), UInt8.ofNat (w / 16777216)]

/-- Push the argument strings; `ustack` has the addresses so far. The stack pointer and all
addresses, or `none` for `goto bad`. -/
def pushArgs (null : MemM ℕ) (pgdir : ℕ) :
    List (List UInt8) → ℕ → List ℕ → MemM (Option (ℕ × List ℕ))
  | [], sp, ustack => return some (sp, ustack)
  | arg :: args, sp, ustack =>
    if MAXARG ≤ ustack.length then return none
    else do
      let sp := pushed sp (arg.length + 1)
      if ← copyout img null pgdir (arg.length + 1) sp (arg ++ [0]) then
        pushArgs null pgdir args sp (ustack ++ [sp])
      else return none

/-- What lies below the strings: a fake return address, `argc`, the address of the array of
arguments, and the array. -/
def frame (sp : ℕ) (ustack : List ℕ) : List UInt8 :=
  ([0xffffffff, ustack.length, (sp + 2 ^ 32 - (ustack.length + 1) * 4) % 2 ^ 32] ++ ustack ++
    [0]).flatMap wordBytes

def framePtr (sp argc : ℕ) : ℕ := (sp + 2 ^ 32 - (3 + argc + 1) * 4) % 2 ^ 32

def pushStack (null : MemM ℕ) (pgdir : ℕ) (argv : List (List UInt8)) (sz : ℕ) :
    MemM (Option ℕ) := do
  match ← pushArgs img null pgdir argv sz [] with
  | none => return none
  | some (sp, ustack) => do
    let bytes := frame sp ustack
    let sp := framePtr sp ustack.length
    if ← copyout img null pgdir bytes.length sp bytes then return some sp
    else return none

/-- Two pages at the next page boundary, the first one inaccessible. The new size, or `none` for
`goto bad`. -/
def allocStack (pgdir sz : ℕ) : MemM (Option ℕ) := do
  let sz := PGROUNDUP sz
  let sz ← allocuvm img pgdir sz (sz + 2 * PGSIZE)
  if sz = 0 then return none
  else do
    clearpteu img pgdir (sz - 2 * PGSIZE)
    return some sz

def loadProgram (file : ReadFile) : MemM (Option (ℕ × ℕ)) := do
  let hdr := file 0 ELFHDRSZ
  if hdr.length ≠ ELFHDRSZ then return none
  else if (ofBytes hdr).word 0 ≠ ELF_MAGIC then return none
  else do
    let pgdir ← setupkvm img
    if pgdir = 0 then return none
    else do
      match ← loadSegments img file pgdir ((ofBytes hdr).half 22) ((ofBytes hdr).word 7) 0 with
      | none => do
        freevm img pgdir
        return none
      | some sz => return some (pgdir, sz)

def makeStack (null : MemM ℕ) (pgdir sz : ℕ) (argv : List (List UInt8)) :
    MemM (Option (ℕ × ℕ)) := do
  match ← allocStack img pgdir sz with
  | none => do
    freevm img pgdir
    return none
  | some sz => do
    match ← pushStack img null pgdir argv sz with
    | none => do
      freevm img pgdir
      return none
    | some sp => return some (sz, sp)

def lastElem : List UInt8 → List UInt8 → List UInt8
  | last, [] => last
  | last, c :: s => if c = 47 then lastElem s s else lastElem last s

/-- `exec(path, argv)`, with what `namei(path)` finds and what the kernel reads at the null pointer;
`false` is the result -1. -/
def execWith (null : MemM ℕ) (p : ℕ) (path : List UInt8) (file : Option (ℕ × ReadFile))
    (argv : List (List UInt8)) : KernM Bool := do
  callFs .beginOp
  match file with
  | none => do
    callFs .endOp
    return false
  | some (ip, file) => do
    callFs (.namei ip)
    callFs (.ilock ip)
    match ← onMem (loadProgram img file) with
    | none => do
      callFs (.iunlockput ip)
      callFs .endOp
      return false
    | some (pgdir, sz) => do
      callFs (.iunlockput ip)
      callFs .endOp
      match ← onMem (makeStack img null pgdir sz argv) with
      | none => return false
      | some (sz, sp) => do
        modifyProc p fun pr => { pr with name := (lastElem path path).take 15 }
        let s ← get
        let oldpgdir := (s.proc p).pgdir
        modifyProc p fun pr =>
          { pr with pgdir := pgdir, sz := sz, eip := (ofBytes (file 0 ELFHDRSZ)).word 6
                    esp := sp }
        onMem (freevm img oldpgdir)
        return true

def exec (p : ℕ) (path : List UInt8) (file : Option (ℕ × ReadFile)) (argv : List (List UInt8)) :
    KernM Bool := do
  let s ← get
  execWith img (loadNull img (s.proc p).pgdir) p path file argv

end Xv6.Vm
