import Xv6.Fs.Consistency
import Xv6.Mkfs.Lookup

/-!
# From `mkfs` to the running kernel

The image of `mkfs` meets the invariant of the file system, so that what the invariant says holds
in every run of a kernel that is booted from it.
-/

namespace Xv6.Mkfs

open Function Fs

variable {files : List HostFile} {m m₀ : Mk}

theorem Made.volInv (h : Made files m₀ m) (hn : files.length + 2 ≤ NINODES)
    (hmod : DIRENTSZ * (files.length + 2) % BSIZE ≠ 0) :
    VolInv sb (dataArea sb) (volumeOf sb m.disk) (volumeOf sb m.disk).dinode := by
  have hinv := h.built.vol
  -- only the size of the root directory has changed since the last append
  have htype : ∀ i, ((volumeOf sb m.disk).dinode i).type = (m₀.view.dinode i).type := by
    intro i
    rw [h.dinode]
    by_cases hi : i = ROOTINO
    · rw [hi, update_self]
    · rw [update_of_ne hi]
  have hmap : ownMap (volumeOf sb m.disk).data (volumeOf sb m.disk).dinode =
      ownMap m₀.view.data m₀.view.dinode := by
    funext x
    unfold ownMap
    rw [htype, h.blockAt_eq]
  have hbit : ∀ b < FSSIZE, (volumeOf sb m.disk).bitmap b = m₀.view.bitmap b := fun b hb =>
    h.bitmap b (hb.trans (by decide))
  refine ⟨?_, fun b hb => ?_, fun i ht => ?_⟩
  · rw [hmap]
    refine ⟨fun hx => ?_, hinv.owns.inj, fun hb hu => hinv.owns.cover hb ?_⟩
    · obtain ⟨hb, hu⟩ := hinv.owns.mem hx
      exact ⟨hb, by rwa [hbit _ hb.2]⟩
    · rwa [hbit _ hb.2] at hu
  · rw [hbit b (hb.trans (by decide))]
    exact hinv.low b hb
  · rw [htype] at ht
    exact (h.consistent hn hmod).noHole i (h.used_iff.mpr ht)

/-- **A kernel on an image of `mkfs`.** However many calls processes make, no block is shared, used
while free or lost, and no inode gets a hole. -/
theorem image_stays_consistent {P : Type} [DecidableEq P] [Fintype P] {init : P} {s : Kernel P}
    (hm : mkfs files = .ok m) (hn : files.length + 2 ≤ NINODES)
    (hmod : DIRENTSZ * (files.length + 2) % BSIZE ≠ 0)
    (h : Lts.Reach (callStep (readsb m.disk) init) (fun _ _ => True)
      (boot (volumeOf (readsb m.disk) m.disk) init) s) :
    BlocksOwned (readsb m.disk) s.vol ∧
      ∀ i, (s.vol.dinode i).type ≠ .free → NoHole s.vol.data (s.vol.dinode i) := by
  obtain ⟨m₀, hmade⟩ := mkfs_made hm hn
  rw [hmade.readsb_eq] at h ⊢
  have h0 : SystemInv sb (dataArea sb) True False False (bootSystem (volumeOf sb m.disk) init) :=
    bootSystem_inv (w := ⟨fun _ => 0, 0⟩) False.elim (fun _ => hmade.volInv hn hmod) False.elim
      False.elim False.elim
  obtain ⟨w, hI⟩ := callReach_inv (fun _ => sb_wf) h0 h
  exact ⟨(hI.vol trivial).blocksOwned, (hI.vol trivial).noHole⟩

def twoCalls : List (Fin 1 × Call (Fin 1)) :=
  [(0, .mkdir (some [47, 100])), (0, .unlink (some [47, 99, 97, 116]))]

def twoCallsDone (disk : ℕ → Block) : Bool :=
  (Lts.run (callStep sb 0) (boot (volumeOf sb disk) 0) twoCalls).any fun s =>
    (s.vol.dinode 4).type = .dir ∧ (s.vol.dinode 2).type = .free

theorem image_stays_consistent_two : ∃ m s, mkfs twoFiles = .ok m ∧
    Lts.run (callStep (readsb m.disk) 0) (boot (volumeOf (readsb m.disk) m.disk) 0) twoCalls =
      some s ∧
    (s.vol.dinode 4).type = .dir ∧ (s.vol.dinode 2).type = .free ∧
    BlocksOwned (readsb m.disk) s.vol ∧
    ∀ i, (s.vol.dinode i).type ≠ .free → NoHole s.vol.data (s.vol.dinode i) := by
  obtain ⟨m, m₀, hm, hmade⟩ := mkfs_returns twoFiles (by decide) twoFiles_takes (by decide)
  have hdone : (mkfs twoFiles).toOption.any (fun m => twoCallsDone m.disk) = true := by
    decide +kernel
  rw [hm] at hdone
  obtain ⟨s, hrun, hr, hq⟩ := Lts.exists_reach (callStep sb (0 : Fin 1))
    (boot (volumeOf sb m.disk) 0) twoCalls _ hdone (Lts.RunOk.trivial _ _)
  rw [← hmade.readsb_eq] at hrun hr
  have hq := of_decide_eq_true hq
  exact ⟨m, s, hm, hrun, hq.1, hq.2, image_stays_consistent hm (by decide) (by decide) hr⟩

end Xv6.Mkfs
