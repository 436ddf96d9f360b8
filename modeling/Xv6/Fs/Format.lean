import Xv6.Fs.Volume

/-!
# The on-disk format

How the kernel reads the sectors of a disk: the superblock (`readsb`), the inodes (`ilock`), the
free map (`balloc`), and the volume that the rest of the model works on (`volumeOf`). A `struct
dinode` in memory is the block of its 64 bytes: the four shorts are half words 0 to 3, the size is
word 2 and `addrs[i]` is word `3 + i`.
-/

namespace Xv6.Fs

abbrev Disk := ℕ → Block

def DINODESZ : ℕ := 64

/-! ## Types of inodes -/

def FType.code : FType → ℕ
  | .free => 0
  | .dir => 1
  | .file => 2
  | .dev => 3

def FType.ofCode : ℕ → FType
  | 0 => .free
  | 1 => .dir
  | 2 => .file
  | _ => .dev

/-! ## Reading a disk -/

def dinodeOf (dip : Block) : Dinode where
  type := .ofCode (dip.half 0)
  major := Int16.ofNat (dip.half 1)
  minor := Int16.ofNat (dip.half 2)
  nlink := Int16.ofNat (dip.half 3)
  size := dip.word 2
  addrs k := if k ≤ NDIRECT then dip.word (3 + k) else 0

def dinodeAt (buf : Block) (i : ℕ) : Block := fun k => buf (DINODESZ * i + k)

def putDinode (buf : Block) (i : ℕ) (ip : Block) : Block := fun k =>
  if DINODESZ * i ≤ k ∧ k < DINODESZ * i + DINODESZ then ip (k - DINODESZ * i) else buf k

def bitAt (buf : Block) (bi : ℕ) : Bool := (buf (bi / 8)).toNat.testBit (bi % 8)

def readsb (disk : Disk) : Superblock where
  size := (disk 1).word 0
  nblocks := (disk 1).word 1
  ninodes := (disk 1).word 2
  nlog := (disk 1).word 3
  logstart := (disk 1).word 4
  inodestart := (disk 1).word 5
  bmapstart := (disk 1).word 6

def volumeOf (sb : Superblock) (disk : Disk) : Volume where
  bitmap b := bitAt (disk (BBLOCK b sb)) (b % BPB)
  dinode i := if i < sb.ninodes then dinodeOf (dinodeAt (disk (IBLOCK i sb)) (i % IPB))
    else Dinode.zero
  data b := if sb.datastart ≤ b then disk b else Block.zero
  lh := []
  outstanding := 0

/-! ## Writing inodes -/

theorem dinodeOf_congr {a b : Block} (h : ∀ k < DINODESZ, a k = b k) : dinodeOf a = dinodeOf b := by
  have hh : ∀ i < 4, a.half i = b.half i := fun i hi =>
    Block.half_congr fun k hk => h _ (by unfold DINODESZ; omega)
  have hw : ∀ i < 16, a.word i = b.word i := fun i hi =>
    Block.word_congr fun k hk => h _ (by unfold DINODESZ; omega)
  unfold dinodeOf
  rw [hh 0 (by omega), hh 1 (by omega), hh 2 (by omega), hh 3 (by omega), hw 2 (by omega)]
  congr 1
  funext k
  split
  next hk =>
    unfold NDIRECT at hk
    exact hw _ (by omega)
  next => rfl

theorem dinodeOf_putDinode_self (buf : Block) (i : ℕ) (ip : Block) :
    dinodeOf (dinodeAt (putDinode buf i ip) i) = dinodeOf ip := by
  refine dinodeOf_congr fun k hk => ?_
  unfold dinodeAt putDinode
  rw [if_pos (by omega), Nat.add_sub_cancel_left]

theorem dinodeOf_putDinode_of_ne (buf : Block) {i j : ℕ} (hij : j ≠ i) (ip : Block) :
    dinodeOf (dinodeAt (putDinode buf i ip) j) = dinodeOf (dinodeAt buf j) := by
  refine dinodeOf_congr fun k hk => ?_
  unfold dinodeAt putDinode
  rw [if_neg]
  unfold DINODESZ at hk ⊢
  omega

theorem dinodeOf_setAddr (din : Block) {i b : ℕ} (hi : i ≤ NDIRECT) (hb : b < 2 ^ 32) :
    dinodeOf (din.setWord (3 + i) b) =
      { dinodeOf din with addrs := Function.update (dinodeOf din).addrs i b } := by
  have hh : ∀ j < 4, (din.setWord (3 + i) b).half j = din.half j := fun j hj =>
    Block.half_congr fun k hk => din.setWord_of_lt (by omega)
  unfold dinodeOf
  rw [hh 0 (by omega), hh 1 (by omega), hh 2 (by omega), hh 3 (by omega),
    Block.word_setWord_of_ne _ _ (by omega)]
  congr 1
  funext k
  by_cases hk : k = i
  · subst hk
    rw [Function.update_self, if_pos hi, Block.word_setWord_self _ _ hb]
  · rw [Function.update_of_ne hk, Block.word_setWord_of_ne _ _ (by omega)]

theorem dinodeOf_setSize (din : Block) {n : ℕ} (hn : n < 2 ^ 32) :
    dinodeOf (din.setWord 2 n) = { dinodeOf din with size := n } := by
  have hh : ∀ j < 4, (din.setWord 2 n).half j = din.half j := fun j hj =>
    Block.half_congr fun k hk => din.setWord_of_lt (by omega)
  unfold dinodeOf
  rw [hh 0 (by omega), hh 1 (by omega), hh 2 (by omega), hh 3 (by omega),
    Block.word_setWord_self _ _ hn]
  congr 1
  funext k
  rw [Block.word_setWord_of_ne _ _ (by omega)]

end Xv6.Fs
