import Xv6.Fs.Runs

/-!
# The disk stays consistent

What the invariant says about the disk in every run that starts from a consistent one.

1. `blocksOwned_of_reach`: each block in use belongs to one position of one inode, and no block is
   lost. The bit map has to mark the blocks below the data area (`metadata_taken`).
2. `noHole_of_reach`: no inode has a hole, so `readi` never allocates, and the copies of inodes in
   the cache are the inodes on disk. Blocks must not be shared or unmarked (`unmarked_hole`).
-/

namespace Xv6.Fs

open Conc

variable {P : Type} [DecidableEq P] [Fintype P] {sb : Superblock} {K : Set ℕ} {v : Volume}
  {init : P}

/-! ## Blocks -/

structure BlocksMarked (sb : Superblock) (v : Volume) : Prop where
  /-- A block that an allocated inode holds is in the data area and marked. -/
  marked : ∀ i, (v.dinode i).type ≠ .free → ∀ k < NPOS, blockAt v.data (v.dinode i) k ≠ 0 →
    blockAt v.data (v.dinode i) k ∈ dataArea sb ∧ v.bitmap (blockAt v.data (v.dinode i) k) = true
  /-- It occurs once over all allocated inodes and all positions. -/
  once : ∀ i j, (v.dinode i).type ≠ .free → (v.dinode j).type ≠ .free → ∀ k < NPOS, ∀ l < NPOS,
    blockAt v.data (v.dinode i) k ≠ 0 →
    blockAt v.data (v.dinode i) k = blockAt v.data (v.dinode j) l → i = j ∧ k = l

structure BlocksOwned (sb : Superblock) (v : Volume) : Prop extends BlocksMarked sb v where
  /-- A marked block of the data area occurs in some allocated inode. -/
  held : ∀ b ∈ dataArea sb, v.bitmap b = true →
    ∃ i, (v.dinode i).type ≠ .free ∧ ∃ k < NPOS, blockAt v.data (v.dinode i) k = b

theorem BlocksMarked.volInv (h : BlocksMarked sb v) (hlow : ∀ b < sb.datastart, v.bitmap b = true)
    (hhole : ∀ i, (v.dinode i).type ≠ .free → NoHole v.data (v.dinode i))
    (hcover : ∀ b ∈ K, v.bitmap b = true → ∃ x, ownMap v.data v.dinode x = some b) :
    VolInv sb K v v.dinode where
  owns := by
    refine ⟨?_, ?_, fun {b} => hcover b⟩
    · rintro ⟨i, k⟩ b hx
      obtain ⟨ht, hk, rfl, h0⟩ := ownMap_eq_some.mp hx
      exact h.marked i ht k hk h0
    · rintro ⟨i, k⟩ ⟨j, l⟩ b hx hy
      obtain ⟨ht, hk, rfl, h0⟩ := ownMap_eq_some.mp hx
      obtain ⟨ht', hl, hb, -⟩ := ownMap_eq_some.mp hy
      obtain ⟨rfl, rfl⟩ := h.once i j ht ht' k hk l hl h0 hb.symm
      rfl
  low := hlow
  noHole := hhole

theorem BlocksOwned.cover (hsb : sb.WF) (h : BlocksOwned sb v) {b : ℕ} (hb : b ∈ dataArea sb)
    (hu : v.bitmap b = true) : ∃ x, ownMap v.data v.dinode x = some b := by
  obtain ⟨i, ht, k, hk, rfl⟩ := h.held b hb hu
  have hpos := hsb.start_pos
  have hge := hb.1
  exact ⟨(i, k), ownMap_eq_some.mpr ⟨ht, hk, rfl, by omega⟩⟩

theorem VolInv.blocksMarked (h : VolInv sb K v v.dinode) : BlocksMarked sb v where
  marked _ ht _ hk h0 := h.used ht hk h0
  once _ _ hi hj _ hk _ hl h0 hb := h.inj hi hk hj hl hb h0

theorem VolInv.blocksOwned (h : VolInv sb (dataArea sb) v v.dinode) : BlocksOwned sb v where
  toBlocksMarked := h.blocksMarked
  held b hb hu := by
    obtain ⟨⟨i, k⟩, hx⟩ := h.owns.cover hb hu
    obtain ⟨ht, hk, hb, -⟩ := ownMap_eq_some.mp hx
    exact ⟨i, ht, k, hk, hb⟩

/-- **Block ownership.** If it holds of the disk at boot, whose bit map also marks every block below
the data area and whose inodes have no holes, it holds after every sequence of calls that return. -/
theorem blocksOwned_of_reach {s : Kernel P} (hsb : sb.WF) (hown : BlocksOwned sb v)
    (hlow : ∀ b < sb.datastart, v.bitmap b = true)
    (hhole : ∀ i, (v.dinode i).type ≠ .free → NoHole v.data (v.dinode i))
    (h : Lts.Reach (callStep sb init) (fun _ _ => True) (boot v init) s) :
    BlocksOwned sb s.vol := by
  have hv : VolInv sb (dataArea sb) v v.dinode :=
    hown.volInv hlow hhole fun _ hb hu => hown.cover hsb hb hu
  have h0 : SystemInv sb (dataArea sb) True False False (bootSystem v init) :=
    bootSystem_inv (w := ⟨fun _ => 0, 0⟩) False.elim (fun _ => hv) False.elim False.elim False.elim
  obtain ⟨w, hI⟩ := callReach_inv (fun _ => hsb) h0 h
  exact (hI.vol trivial).blocksOwned

/-- Calls that take blocks and give them back. -/
theorem blocksOwned_of_reach_unlink : ∃ s : Kernel (Fin 1),
    Lts.Reach (callStep sb0 0) (fun _ _ => True) (boot bareDisk 0) s ∧
    s.vol.bitmap 60 = true ∧ s.vol.bitmap 61 = false ∧ BlocksOwned sb0 s.vol := by
  obtain ⟨s, -, hs, hq⟩ := Lts.exists_reach (callStep sb0 (0 : Fin 1)) (boot bareDisk 0)
    [(0, .mkdir (some [97])), (0, .mkdir (some [98])), (0, .unlink (some [98]))]
    (fun s => s.vol.bitmap 60 = true ∧ s.vol.bitmap 61 = false)
    (by decide +kernel) (Lts.RunOk.trivial _ _)
  obtain ⟨h60, h61⟩ := of_decide_eq_true hq
  exact ⟨s, hs, h60, h61, blocksOwned_of_reach sb0_wf bareDisk_inv.blocksOwned bareDisk_inv.low
    bareDisk_inv.noHole hs⟩

def unmarkedDisk : Volume := { bareDisk with bitmap := fun b => b = 0 ∨ b = 59 }

theorem unmarkedDisk_owned : BlocksOwned sb0 unmarkedDisk where
  marked i ht k hk h0 := by
    have h59 : blockAt unmarkedDisk.data (unmarkedDisk.dinode i) k = 59 :=
      (bareDisk_block ht h0).2.2
    rw [h59]
    exact ⟨⟨by decide, by decide⟩, by decide⟩
  once := bareDisk_inv.blocksOwned.once
  held b hb hu := by
    obtain rfl | rfl := of_decide_eq_true hu
    · cases hb.1
    · exact ⟨ROOTINO, by decide, 0, by decide, rfl⟩

/-- On such a disk `mkdir` takes the block of the superblock for a directory. -/
theorem metadata_taken : BlocksOwned sb0 unmarkedDisk ∧
    (∀ i, NoHole unmarkedDisk.data (unmarkedDisk.dinode i)) ∧ ∃ s : Kernel (Fin 1),
      Lts.Reach (callStep sb0 0) (fun _ _ => True) (boot unmarkedDisk 0) s ∧
      ¬ BlocksOwned sb0 s.vol := by
  refine ⟨unmarkedDisk_owned, bareDisk_noHole, ?_⟩
  obtain ⟨s, -, hs, hq⟩ := Lts.exists_reach (callStep sb0 (0 : Fin 1)) (boot unmarkedDisk 0)
    [(0, .mkdir (some [97]))]
    (fun s => (s.vol.dinode 2).type ≠ .free ∧ blockAt s.vol.data (s.vol.dinode 2) 0 = 1)
    (by decide +kernel) (Lts.RunOk.trivial _ _)
  obtain ⟨ht, hb⟩ := of_decide_eq_true hq
  refine ⟨s, hs, fun hown => ?_⟩
  obtain ⟨hd, -⟩ := hown.marked 2 ht 0 (by decide) (by rw [hb]; decide)
  rw [hb] at hd
  exact absurd hd.1 (by decide)

/-! ## Holes and copies of inodes -/

/-- **No holes, and write-through inodes.** From a consistent disk, which may have lost blocks, in
every state of every interleaving: no allocated inode has a hole; `readi` on it returns and changes
nothing, whatever the state of the bit map and the log, even one in which any `log_write` would
panic; and the copy of an inode in an unlocked valid entry in use is the inode on disk. -/
theorem noHole_of_reach {s : System P} (hsb : sb.WF) (hmark : BlocksMarked sb v)
    (hlow : ∀ b < sb.datastart, v.bitmap b = true)
    (hhole : ∀ i, (v.dinode i).type ≠ .free → NoHole v.data (v.dinode i))
    (h : Lts.Reach (sysStep sb init) (fun _ _ => True) (bootSystem v init) s) :
    (∀ i, (s.st.vol.dinode i).type ≠ .free → NoHole s.st.vol.data (s.st.vol.dinode i) ∧
      ∀ off n v', v'.data = s.st.vol.data → ∃ r,
        readi sb off n (s.st.vol.dinode i, v') = .ok (r, (s.st.vol.dinode i, v'))) ∧
    ∀ k, 0 < (s.st.icache k).ref → (s.st.icache k).valid = true → (s.st.icache k).lock = none →
      (s.st.icache k).d = s.st.vol.dinode (s.st.icache k).inum := by
  have hv : VolInv sb ∅ v v.dinode := hmark.volInv hlow hhole fun _ hb => hb.elim
  have h0 : SystemInv sb ∅ True False False (bootSystem v init) :=
    bootSystem_inv (w := ⟨fun _ => 0, 0⟩) False.elim (fun _ => hv) False.elim False.elim False.elim
  obtain ⟨w, γ, hI, -⟩ := sysReach_inv (fun _ => hsb) h0 h
  refine ⟨fun i hi => ?_, fun k hk hval _ => (hI.coh k hk hval).full trivial⟩
  have hno := (hI.vol trivial).noHole i hi
  exact ⟨hno, fun off n v' hd => ⟨_, readi_eq (by rwa [hd]) off n⟩⟩

/-- A file that has been written to, and is open. -/
theorem noHole_of_reach_write : ∃ s : System (Fin 1),
    Lts.Reach (sysStep sb0 0) (fun _ _ => True) (bootSystem bareDisk 0) s ∧
    ((s.st.icache 1).valid = true ∧ (s.st.icache 1).inum = 2 ∧ (s.st.vol.dinode 2).size = 600) ∧
    (s.st.icache 1).d = s.st.vol.dinode (s.st.icache 1).inum := by
  obtain ⟨s, -, hs, hq⟩ := Lts.exists_reach (callStep sb0 (0 : Fin 1)) (boot bareDisk 0)
    [(0, .open (some ([97], 514))), (0, .write 0 (List.replicate 600 7) (.int 0))]
    (fun s => 0 < (s.icache 1).ref ∧ (s.icache 1).lock.isNone ∧
      (s.icache 1).valid = true ∧ (s.icache 1).inum = 2 ∧ (s.vol.dinode 2).size = 600)
    (by decide +kernel) (Lts.RunOk.trivial _ _)
  obtain ⟨href, hlock, hfacts⟩ := of_decide_eq_true hq
  have hreach := sysReach_of_callReach hs
  exact ⟨⟨s, fun _ => none⟩, hreach, hfacts, (noHole_of_reach sb0_wf bareDisk_inv.blocksMarked
    bareDisk_inv.low bareDisk_inv.noHole hreach).2 1 href hfacts.1
    (Option.isNone_iff_eq_none.mp hlock)⟩

def unmarkedIndirect : Volume :=
  { bareDisk with
    bitmap := fun b => b < 61
    dinode := Function.update bareDisk.dinode 2 { Dinode.zero with
      type := .file
      nlink := 1
      size := 14 * BSIZE
      addrs := fun k => if k < NDIRECT then 60 else if k = NDIRECT then 61 else 0 }
    data := Function.update bareDisk.data 61 fun _ => 60 }

theorem unmarkedIndirect_noHole (i : ℕ) :
    NoHole unmarkedIndirect.data (unmarkedIndirect.dinode i) := by
  intro n hn
  by_cases hi : i = 2
  · subst hi
    have hlt : n * 512 < 14 * 512 := hn
    have hall : ∀ n < 14, n < MAXFILE ∧
        blockAt unmarkedIndirect.data (unmarkedIndirect.dinode 2) (filePos n) ≠ 0 := by
      decide +kernel
    exact hall n (by omega)
  · have hsame : unmarkedIndirect.dinode i = bareDisk.dinode i := Function.update_of_ne hi ..
    rw [hsame] at hn ⊢
    obtain ⟨hlt, hb⟩ := bareDisk_noHole i n hn
    refine ⟨hlt, ?_⟩
    have hne : (bareDisk.dinode i).addrs NDIRECT ≠ 61 := by
      by_cases hr : i = ROOTINO
      · rw [hr]
        decide
      · simp [bareDisk, hr, Dinode.zero]
    exact (blockAt_update_of_ne _ hne _).trans_ne hb

/-- On such a disk `mkdir` takes the indirect block and zeroes it, which leaves the file with a
hole. -/
theorem unmarked_hole : (∀ i, NoHole unmarkedIndirect.data (unmarkedIndirect.dinode i)) ∧
    ∃ s : System (Fin 1),
      Lts.Reach (sysStep sb0 0) (fun _ _ => True) (bootSystem unmarkedIndirect 0) s ∧
      (s.st.vol.dinode 2).type ≠ .free ∧ ¬ NoHole s.st.vol.data (s.st.vol.dinode 2) := by
  refine ⟨unmarkedIndirect_noHole, ?_⟩
  obtain ⟨s, -, hs, hq⟩ := Lts.exists_reach (callStep sb0 (0 : Fin 1)) (boot unmarkedIndirect 0)
    [(0, .mkdir (some [97]))]
    (fun s => (s.vol.dinode 2).type ≠ .free ∧ 13 * BSIZE < (s.vol.dinode 2).size ∧
      blockAt s.vol.data (s.vol.dinode 2) (filePos 13) = 0)
    (by decide +kernel) (Lts.RunOk.trivial _ _)
  obtain ⟨ht, hlt, h0⟩ := of_decide_eq_true hq
  exact ⟨⟨s, fun _ => none⟩, sysReach_of_callReach hs, ht, fun hno => (hno 13 hlt).2 h0⟩

end Xv6.Fs
