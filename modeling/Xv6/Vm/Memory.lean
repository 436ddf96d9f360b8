import Xv6.Fs.Volume
import Xv6.Lib.StateExcept

/-!
# Physical memory and page tables

`kalloc.c` and `vm.c`, on the contents of the pages. The free list is threaded through the free
pages themselves, and page directories and page tables are pages of 1024 words. A page is known by
its kernel address; addresses are 32-bit numbers, and 0 is the null pointer.

A function of `MemM` stops with a `Panic` where the C code calls `panic`, and where it would follow
a pointer that leads to none of the pages that the allocator hands out.
-/

namespace Xv6.Vm

open Function

open Fs (blit)

/-! ## `memlayout.h` and `mmu.h` -/

def EXTMEM : ℕ := 0x100000

def PHYSTOP : ℕ := 0xE000000

def DEVSPACE : ℕ := 0xFE000000

def KERNBASE : ℕ := 0x80000000

def KERNLINK : ℕ := KERNBASE + EXTMEM

def PGSIZE : ℕ := 4096

def NPDENTRIES : ℕ := 1024

def NPTENTRIES : ℕ := 1024

def PTE_P : ℕ := 1

def PTE_W : ℕ := 2

def PTE_U : ℕ := 4

def P2V (a : ℕ) : ℕ := (a + KERNBASE) % 2 ^ 32

def V2P (v : ℕ) : ℕ := v - KERNBASE

def PDX (va : ℕ) : ℕ := va / 2 ^ 22 % 1024

def PTX (va : ℕ) : ℕ := va / 2 ^ 12 % 1024

def PGADDR (d t o : ℕ) : ℕ := (d * 2 ^ 22 + t * 2 ^ 12 + o) % 2 ^ 32

def PGROUNDUP (sz : ℕ) : ℕ := (sz + PGSIZE - 1) / PGSIZE * PGSIZE

def PGROUNDDOWN (a : ℕ) : ℕ := a / PGSIZE * PGSIZE

def PTE_ADDR (pte : ℕ) : ℕ := pte / PGSIZE * PGSIZE

def PTE_FLAGS (pte : ℕ) : ℕ := pte % PGSIZE

def Present (pte : ℕ) : Prop := pte % 2 = 1

instance : DecidablePred Present := fun pte => inferInstanceAs (Decidable (pte % 2 = 1))

def User (pte : ℕ) : Prop := pte / 4 % 2 = 1

instance : DecidablePred User := fun pte => inferInstanceAs (Decidable (pte / 4 % 2 = 1))

def pageOf (pte : ℕ) : ℕ := P2V (PTE_ADDR pte)

structure KernelImage where
  data : ℕ
  kend : ℕ
  aligned : data % PGSIZE = 0
  above : KERNLINK < data
  below : data < KERNBASE + PHYSTOP
  data_le : data ≤ kend

def smallImage : KernelImage where
  data := 0x80108000
  kend := 0x80110000
  aligned := by decide
  above := by decide
  below := by decide
  data_le := by decide

/-! ## State -/

inductive Panic
  | kfree
  | remap
  | phystop
  | inituvm
  | loaduvmAlign
  | loaduvmExist
  | freevm
  | clearpteu
  | copyuvmExist
  | copyuvmPresent
  | userinit
  | initExiting
  | filedup
  | fileclose
  /-- A pointer that leads to none of the allocator's pages. -/
  | trap
  /-- A load through the null pointer, where that is taken for an error. -/
  | null
  /-- A loop that goes on after more rounds than there are pages. -/
  | endless
  deriving DecidableEq

structure Mem where
  page : ℕ → Block
  freelist : ℕ
  freelist_lt : freelist < 2 ^ 32

abbrev MemM := StateT Mem (Except Panic)

variable (img : KernelImage)

def IsPage (v : ℕ) : Prop := v % PGSIZE = 0 ∧ img.kend ≤ v ∧ KERNBASE ≤ v ∧ V2P v < PHYSTOP

instance : DecidablePred (IsPage img) := fun v =>
  inferInstanceAs (Decidable (v % PGSIZE = 0 ∧ img.kend ≤ v ∧ KERNBASE ≤ v ∧ V2P v < PHYSTOP))

theorem IsPage.lt {img : KernelImage} {v : ℕ} (h : IsPage img v) : v < 2 ^ 32 := by
  obtain ⟨-, -, hlow, hhigh⟩ := h
  unfold V2P KERNBASE PHYSTOP at *
  omega

/-! ## `kalloc.c` -/

def kfree (v : ℕ) : MemM Unit := fun m =>
  if h : IsPage img v then
    let junk : Block := fun _ => 1
    .ok ((), ⟨update m.page v (junk.setWord 0 m.freelist), v, h.lt⟩)
  else .error .kfree

def kalloc : MemM ℕ := fun m =>
  if m.freelist = 0 then .ok (0, m)
  else if IsPage img m.freelist then
    .ok (m.freelist, ⟨m.page, (m.page m.freelist).word 0, Block.word_lt ..⟩)
  else .error .trap

/-! ## Entries -/

def setEntry (pg i w : ℕ) : MemM Unit :=
  modify fun m => { m with page := update m.page pg ((m.page pg).setWord i w) }

def zeroPage (v : ℕ) : MemM Unit :=
  modify fun m => { m with page := update m.page v Block.zero }

def copyTo (v off : ℕ) (bytes : List UInt8) : MemM Unit := fun m =>
  if IsPage img v then
    .ok ((), { m with page := update m.page v (blit (m.page v) off bytes) })
  else .error .trap

/-- The page table and the index of the entry for virtual address `va`; with `alloc`, a missing page
table is created. -/
def walkpgdir (pgdir va : ℕ) (alloc : Bool) : MemM (Option (ℕ × ℕ)) := do
  let m ← get
  let pde := (m.page pgdir).word (PDX va)
  if Present pde then return some (pageOf pde, PTX va)
  else if alloc then do
    let pgtab ← kalloc img
    if pgtab = 0 then return none
    else do
      zeroPage pgtab
      setEntry pgdir (PDX va) (V2P pgtab ||| PTE_P ||| PTE_W ||| PTE_U)
      return some (pgtab, PTX va)
  else return none

/-- The loop of `mappages`, which ends on the page `last`; `false` is the result -1. It must be over
within `fuel` rounds. -/
def mapLoop (pgdir last perm : ℕ) : ℕ → ℕ → ℕ → MemM Bool
  | 0, _, _ => throw .endless
  | fuel + 1, a, pa => do
    match ← walkpgdir img pgdir a true with
    | none => return false
    | some (pgtab, j) => do
      let m ← get
      if Present ((m.page pgtab).word j) then throw .remap
      else do
        setEntry pgtab j (pa ||| perm ||| PTE_P)
        if a = last then return true
        else mapLoop pgdir last perm fuel ((a + PGSIZE) % 2 ^ 32) ((pa + PGSIZE) % 2 ^ 32)

def mappages (pgdir va size pa perm : ℕ) : MemM Bool :=
  let a := PGROUNDDOWN va
  let last := PGROUNDDOWN ((va + size + 2 ^ 32 - 1) % 2 ^ 32)
  mapLoop img pgdir last perm (NPDENTRIES * NPTENTRIES) a pa

/-! ## Freeing -/

/-- The loop of `deallocuvm`, which must be over within `fuel` rounds. Where there is no page table
it goes on at the next directory entry. -/
def deallocLoop (pgdir oldsz : ℕ) : ℕ → ℕ → MemM Unit
  | 0, _ => throw .endless
  | fuel + 1, a =>
    if a < oldsz then do
      match ← walkpgdir img pgdir a false with
      | none =>
        let a := (PGADDR (PDX a + 1) 0 0 + 2 ^ 32 - PGSIZE) % 2 ^ 32
        deallocLoop pgdir oldsz fuel ((a + PGSIZE) % 2 ^ 32)
      | some (pgtab, j) => do
        let m ← get
        let pte := (m.page pgtab).word j
        if Present pte then
          if PTE_ADDR pte = 0 then throw .kfree
          else do
            kfree img (pageOf pte)
            setEntry pgtab j 0
            deallocLoop pgdir oldsz fuel ((a + PGSIZE) % 2 ^ 32)
        else deallocLoop pgdir oldsz fuel ((a + PGSIZE) % 2 ^ 32)
    else return

def deallocuvm (pgdir oldsz newsz : ℕ) : MemM ℕ :=
  if oldsz ≤ newsz then return oldsz
  else do
    deallocLoop img pgdir oldsz (oldsz / PGSIZE + 2) (PGROUNDUP newsz)
    return newsz

def freeTables (pgdir : ℕ) : List ℕ → MemM Unit
  | [] => return
  | i :: is => do
    let m ← get
    let pde := (m.page pgdir).word i
    if Present pde then do
      kfree img (pageOf pde)
      freeTables pgdir is
    else freeTables pgdir is

def freevm (pgdir : ℕ) : MemM Unit :=
  if pgdir = 0 then throw .freevm
  else do
    let _ ← deallocuvm img pgdir KERNBASE 0
    freeTables img pgdir (List.range NPDENTRIES)
    kfree img pgdir

/-! ## Address spaces -/

structure Kmap where
  virt : ℕ
  phys_start : ℕ
  phys_end : ℕ
  perm : ℕ

def kmap : List Kmap :=
  [⟨KERNBASE, 0, EXTMEM, PTE_W⟩,
   ⟨KERNLINK, V2P KERNLINK, V2P img.data, 0⟩,
   ⟨img.data, V2P img.data, PHYSTOP, PTE_W⟩,
   ⟨DEVSPACE, DEVSPACE, 0, PTE_W⟩]

def mapKernel (pgdir : ℕ) : List Kmap → MemM Bool
  | [] => return true
  | k :: ks => do
    if ← mappages img pgdir k.virt ((k.phys_end + 2 ^ 32 - k.phys_start) % 2 ^ 32) k.phys_start
        k.perm then
      mapKernel pgdir ks
    else return false

def setupkvm : MemM ℕ := do
  let pgdir ← kalloc img
  if pgdir = 0 then return 0
  else do
    zeroPage pgdir
    if DEVSPACE < P2V PHYSTOP then throw .phystop
    else if ← mapKernel img pgdir (kmap img) then return pgdir
    else do
      freevm img pgdir
      return 0

def allocLoop (pgdir oldsz newsz : ℕ) : ℕ → ℕ → MemM Bool
  | 0, _ => return true
  | n + 1, a => do
    let mem ← kalloc img
    if mem = 0 then do
      let _ ← deallocuvm img pgdir newsz oldsz
      return false
    else do
      zeroPage mem
      if ← mappages img pgdir a PGSIZE (V2P mem) (PTE_W ||| PTE_U) then
        allocLoop pgdir oldsz newsz n (a + PGSIZE)
      else do
        let _ ← deallocuvm img pgdir newsz oldsz
        kfree img mem
        return false

/-- Allocate page tables and memory to grow a process from `oldsz` to `newsz`. Returns the new size
or 0 on error. -/
def allocuvm (pgdir oldsz newsz : ℕ) : MemM ℕ :=
  if KERNBASE ≤ newsz then return 0
  else if newsz < oldsz then return oldsz
  else do
    let a := PGROUNDUP oldsz
    if ← allocLoop img pgdir oldsz newsz ((newsz - a + PGSIZE - 1) / PGSIZE) a then return newsz
    else return 0

def copyLoop (pgdir d : ℕ) : ℕ → ℕ → MemM Bool
  | 0, _ => return true
  | n + 1, i => do
    match ← walkpgdir img pgdir i false with
    | none => throw .copyuvmExist
    | some (pgtab, j) => do
      let m ← get
      let pte := (m.page pgtab).word j
      if Present pte then do
        let mem ← kalloc img
        if mem = 0 then return false
        else do
          modify fun m => { m with page := update m.page mem (m.page (pageOf pte)) }
          if ← mappages img d i PGSIZE (V2P mem) (PTE_FLAGS pte) then
            copyLoop pgdir d n (i + PGSIZE)
          else do
            kfree img mem
            return false
      else throw .copyuvmPresent

def copyuvm (pgdir sz : ℕ) : MemM ℕ := do
  let d ← setupkvm img
  if d = 0 then return 0
  else if ← copyLoop img pgdir d ((sz + PGSIZE - 1) / PGSIZE) 0 then return d
  else do
    freevm img d
    return 0

/-! ## Access to user memory -/

abbrev ReadFile := ℕ → ℕ → List UInt8

def loadLoop (file : ReadFile) (pgdir addr offset sz : ℕ) : ℕ → ℕ → MemM Bool
  | 0, _ => return true
  | n + 1, i => do
    match ← walkpgdir img pgdir (addr + i) false with
    | none => throw .loaduvmExist
    | some (pgtab, j) => do
      let m ← get
      let k := min (sz - i) PGSIZE
      let bytes := (file ((offset + i) % 2 ^ 32) k).take k
      copyTo img (pageOf ((m.page pgtab).word j)) 0 bytes
      if bytes.length = k then loadLoop file pgdir addr offset sz n (i + PGSIZE)
      else return false

def loaduvm (file : ReadFile) (pgdir addr offset sz : ℕ) : MemM Bool :=
  if addr % PGSIZE ≠ 0 then throw .loaduvmAlign
  else loadLoop img file pgdir addr offset sz ((sz + PGSIZE - 1) / PGSIZE) 0

def clearpteu (pgdir uva : ℕ) : MemM Unit := do
  match ← walkpgdir img pgdir uva false with
  | none => throw .clearpteu
  | some (pgtab, j) => do
    let m ← get
    let pte := (m.page pgtab).word j
    setEntry pgtab j (if User pte then pte - PTE_U else pte)

/-- What the kernel reads at virtual address 0, where the running process has its first page. -/
def loadNull (cur : ℕ) : MemM ℕ := do
  match ← walkpgdir img cur 0 false with
  | none => throw .trap
  | some (pgtab, j) => do
    let m ← get
    let pte := (m.page pgtab).word j
    if Present pte then return (m.page (pageOf pte)).word 0
    else throw .trap

def loadPte (null : MemM ℕ) (pgdir uva : ℕ) : MemM ℕ := do
  match ← walkpgdir img pgdir uva false with
  | none => null
  | some (pgtab, j) => do
    let m ← get
    return (m.page pgtab).word j

def uva2ka (null : MemM ℕ) (pgdir uva : ℕ) : MemM ℕ := do
  let pte ← loadPte img null pgdir uva
  if ¬ Present pte then return 0
  else if ¬ User pte then return 0
  else return pageOf pte

/-- Copy bytes to user address `va` in page directory `pgdir`; `fuel` bounds the iterations and
`false` is the result -1. -/
def copyout (null : MemM ℕ) (pgdir : ℕ) : ℕ → ℕ → List UInt8 → MemM Bool
  | 0, _, _ => return true
  | fuel + 1, va, bytes =>
    if bytes = [] then return true
    else do
      let va0 := PGROUNDDOWN va
      let pa0 ← uva2ka img null pgdir va0
      if pa0 = 0 then return false
      else do
        let n := min (PGSIZE - (va - va0)) bytes.length
        copyTo img pa0 (va - va0) (bytes.take n)
        copyout null pgdir fuel ((va0 + PGSIZE) % 2 ^ 32) (bytes.drop n)

end Xv6.Vm
