import Xv6.Fs.Volume
import Xv6.Lib.Ownership
import Xv6.Lib.StateExcept

/-!
# Who owns which block

The block numbers an inode holds are counted by position: `addrs[0..NDIRECT]`, then the entries of
the indirect block (`blockAt`). `VolInv` is the consistency of the disk with respect to a table of
inodes, which is the one on disk except that an inode being written stands there with its copy in
memory: every allocated inode owns its blocks exclusively, the bitmap marks them, and no inode has a
hole.

1. Specifications of the allocator: what a call that returns has done.
2. `bmap_inv`: `bmap` keeps `VolInv` and only adds blocks to its inode (`Grows`).
3. `itrunc_inv`: `itrunc` keeps `VolInv` and leaves its inode without blocks.
-/

namespace Xv6.Fs

open Function StateExcept Ownership

/-! ## Positions -/

def NPOS : ℕ := NDIRECT + 1 + NINDIRECT

/-- The block number at position `k` of an inode. -/
def blockAt (data : ℕ → Block) (d : Dinode) (k : ℕ) : ℕ :=
  if k ≤ NDIRECT then d.addrs k
  else if d.addrs NDIRECT = 0 then 0
  else (data (d.addrs NDIRECT)).word (k - (NDIRECT + 1))

def filePos (n : ℕ) : ℕ := if n < NDIRECT then n else n + 1

theorem filePos_lt {n : ℕ} (h : n < MAXFILE) : filePos n < NPOS := by
  unfold filePos NPOS
  unfold MAXFILE at h
  split <;> omega

theorem filePos_ne (n : ℕ) : filePos n ≠ NDIRECT := by
  unfold filePos
  split <;> omega

theorem filePos_inj {n m : ℕ} (h : filePos n = filePos m) : n = m := by
  unfold filePos at h
  split at h <;> split at h <;> omega

variable {k : ℕ}

theorem blockAt_addrs (data : ℕ → Block) (d : Dinode) (hk : k ≤ NDIRECT) :
    blockAt data d k = d.addrs k := if_pos hk

variable {d : Dinode}

theorem blockAt_indirect (data : ℕ → Block) (h : d.addrs NDIRECT ≠ 0) (j : ℕ) :
    blockAt data d (NDIRECT + 1 + j) = (data (d.addrs NDIRECT)).word j := by
  unfold blockAt
  rw [if_neg (by omega), if_neg h, Nat.add_sub_cancel_left]

theorem blockAt_of_zero (data : ℕ → Block) (h : d.addrs NDIRECT = 0)
    (hk : NDIRECT < k) : blockAt data d k = 0 := by
  unfold blockAt
  rw [if_neg (by omega), if_pos h]

variable {data : ℕ → Block}

theorem blockAt_update_of_ne {b : ℕ} (x : Block) (h : d.addrs NDIRECT ≠ b) (k : ℕ) :
    blockAt (update data b x) d k = blockAt data d k := by
  unfold blockAt
  rw [update_of_ne h]

def ownMap (data : ℕ → Block) (view : ℕ → Dinode) : ℕ × ℕ → Option ℕ := fun x =>
  if (view x.1).type ≠ .free ∧ x.2 < NPOS ∧ blockAt data (view x.1) x.2 ≠ 0 then
    some (blockAt data (view x.1) x.2)
  else none

variable {i : ℕ} {view : ℕ → Dinode}

theorem ownMap_eq_some {b : ℕ} :
    ownMap data view (i, k) = some b ↔
      (view i).type ≠ .free ∧ k < NPOS ∧ blockAt data (view i) k = b ∧ b ≠ 0 := by
  unfold ownMap
  dsimp only
  split
  next h =>
    rw [Option.some_inj]
    constructor
    · rintro rfl
      exact ⟨h.1, h.2.1, rfl, h.2.2⟩
    · exact fun h => h.2.2.1
  next h =>
    constructor
    · intro h
      cases h
    · rintro ⟨h1, h2, rfl, h3⟩
      exact absurd ⟨h1, h2, h3⟩ h

theorem ownMap_eq_none (h : blockAt data (view i) k = 0) : ownMap data view (i, k) = none := by
  unfold ownMap
  rw [if_neg]
  exact fun hc => hc.2.2 h

theorem ownMap_free (h : (view i).type = .free) (k : ℕ) : ownMap data view (i, k) = none := by
  unfold ownMap
  rw [if_neg]
  exact fun hc => hc.1 h

theorem ownMap_congr {data' : ℕ → Block} {view' : ℕ → Dinode} (ht : (view' i).type = (view i).type)
    (hb : blockAt data' (view' i) k = blockAt data (view i) k) :
    ownMap data' view' (i, k) = ownMap data view (i, k) := by
  unfold ownMap
  dsimp only
  rw [ht, hb]

/-! ## The invariant -/

def dataArea (sb : Superblock) : Set ℕ := {b | sb.datastart ≤ b ∧ b < sb.size}

/-- A nonzero block for every block index below `ceil(size / BSIZE)`. -/
def NoHole (data : ℕ → Block) (d : Dinode) : Prop :=
  ∀ n, n * BSIZE < d.size → n < MAXFILE ∧ blockAt data d (filePos n) ≠ 0

/-- What the layout of the disk has to satisfy: block numbers are 32-bit, and the data area does not
start at block 0, whose number stands for "no block". -/
structure Superblock.WF (sb : Superblock) : Prop where
  start_pos : 0 < sb.datastart
  size_le : sb.size ≤ 2 ^ 32

/-- The consistency of the disk, with `view` as its inode table. Marked blocks of the set `K` belong
to somebody: with all of the data area for `K` no block is lost, with the empty set any may be. -/
structure VolInv (sb : Superblock) (K : Set ℕ) (v : Volume) (view : ℕ → Dinode) : Prop where
  owns : Owns (dataArea sb) K (ownMap v.data view) v.bitmap
  low : ∀ b < sb.datastart, v.bitmap b = true
  noHole : ∀ i, (view i).type ≠ .free → NoHole v.data (view i)

abbrev viewWith (v : Volume) (inum : ℕ) (d : Dinode) : ℕ → Dinode :=
  update v.dinode inum d

variable {K : Set ℕ}

section

variable {sb : Superblock} {v v' : Volume} {view : ℕ → Dinode} {i k b : ℕ} {d d' : Dinode}

theorem VolInv.used (h : VolInv sb K v view) (ht : (view i).type ≠ .free) (hk : k < NPOS)
    (hb : blockAt v.data (view i) k ≠ 0) :
    blockAt v.data (view i) k ∈ dataArea sb ∧ v.bitmap (blockAt v.data (view i) k) = true :=
  h.owns.mem (ownMap_eq_some.mpr ⟨ht, hk, rfl, hb⟩)

theorem VolInv.inj (h : VolInv sb K v view) {j l : ℕ} (hi : (view i).type ≠ .free) (hk : k < NPOS)
    (hj : (view j).type ≠ .free) (hl : l < NPOS)
    (hb : blockAt v.data (view i) k = blockAt v.data (view j) l)
    (h0 : blockAt v.data (view i) k ≠ 0) : i = j ∧ k = l :=
  Prod.mk.inj (h.owns.inj (ownMap_eq_some.mpr ⟨hi, hk, rfl, h0⟩)
    (ownMap_eq_some.mpr ⟨hj, hl, hb.symm, h0⟩))

theorem VolInv.free_mem (h : VolInv sb K v view) (hb : b < sb.size) (hu : v.bitmap b = false) :
    b ∈ dataArea sb := by
  refine ⟨?_, hb⟩
  by_contra hlt
  have := h.low b (by omega)
  rw [hu] at this
  cases this

theorem VolInv.indirect_ne_free (h : VolInv sb K v view) (ht : (view i).type ≠ .free) (hb : b ≠ 0)
    (hu : v.bitmap b = false) : (view i).addrs NDIRECT ≠ b := by
  rintro rfl
  have hk : NDIRECT < NPOS := by decide
  have := (h.used ht hk hb).2
  rw [blockAt_addrs _ _ le_rfl, hu] at this
  cases this

theorem VolInv.indirect_ne (h : VolInv sb K v view) (hi : (view i).type ≠ .free) (hk : k < NPOS)
    (hkn : k ≠ NDIRECT) (h0 : blockAt v.data (view i) k ≠ 0) {j : ℕ}
    (hj : (view j).type ≠ .free) : (view j).addrs NDIRECT ≠ blockAt v.data (view i) k := by
  intro e
  have := h.inj (l := NDIRECT) hi hk hj (by decide) (by rw [← e, blockAt_addrs _ _ le_rfl]) h0
  exact hkn this.2

theorem VolInv.congr_view {view' : ℕ → Dinode} (h : VolInv sb K v view)
    (ht : ∀ j, (view' j).type = (view j).type) (ha : ∀ j, (view' j).addrs = (view j).addrs)
    (hn : ∀ j, (view' j).type ≠ .free → NoHole v.data (view' j)) : VolInv sb K v view' := by
  have hown : ownMap v.data view' = ownMap v.data view := by
    funext ⟨j, l⟩
    apply ownMap_congr (ht j)
    unfold blockAt
    rw [ha j]
  exact ⟨by rw [hown]; exact h.owns, h.low, hn⟩

/-! ## The allocator -/

variable {u : Unit}

theorem logWrite_ok (h : logWrite sb b v = .ok (u, v')) : ∃ lh, v' = { v with lh := lh } := by
  unfold logWrite at h
  split at h
  · cases h
  split at h
  · cases h
  · exact ⟨_, (Prod.mk.inj (Except.ok.inj h)).2.symm⟩

theorem balloc_ok (h : balloc sb v = .ok (b, v')) :
    b < sb.size ∧ v.bitmap b = false ∧ ∃ lh, v' = { v with
      bitmap := update v.bitmap b true
      data := update v.data b Block.zero
      lh := lh } := by
  unfold balloc at h
  rw [get_bind] at h
  cases hc : (List.range sb.size).find? fun b => !v.bitmap b with
  | none =>
    rw [hc] at h
    cases h
  | some c =>
    rw [hc] at h
    dsimp only at h
    rw [set_bind] at h
    obtain ⟨_, v1, h1, h⟩ := bind_ok.mp h
    obtain ⟨_, v2, h2, h⟩ := bind_ok.mp h
    obtain ⟨rfl, rfl⟩ := pure_ok h
    obtain ⟨lh, rfl⟩ := logWrite_ok h1
    unfold bzero at h2
    rw [modify_bind] at h2
    obtain ⟨lh', rfl⟩ := logWrite_ok h2
    have hmem := List.mem_of_find?_eq_some hc
    have hfree := List.find?_some hc
    exact ⟨List.mem_range.mp hmem, by simpa using hfree, lh', rfl⟩

theorem bfree_ok (h : bfree sb b v = .ok (u, v')) :
    ∃ lh, v' = { v with bitmap := update v.bitmap b false, lh := lh } := by
  unfold bfree at h
  rw [get_bind] at h
  split at h
  · rw [set_bind] at h
    obtain ⟨lh, rfl⟩ := logWrite_ok h
    exact ⟨lh, rfl⟩
  · cases h

variable {s : Dinode × Volume}

theorem onVol_ok {α : Type} {m : VolM α} {a : α}
    (h : onVol m (d, v) = .ok (a, s)) : ∃ v', m v = .ok (a, v') ∧ s = (d, v') := by
  unfold onVol at h
  split at h
  next a' v' hm =>
    cases h
    exact ⟨v', hm, rfl⟩
  next => cases h

variable {inum : ℕ}

theorem iupdate_ok (h : iupdate sb inum (d, v) = .ok (u, s)) :
    ∃ lh, s = (d, { v with dinode := update v.dinode inum d, lh := lh }) := by
  unfold iupdate at h
  obtain ⟨_, s1, h1, h⟩ := bind_ok.mp h
  obtain ⟨v1, hl, rfl⟩ := onVol_ok h1
  obtain ⟨lh, rfl⟩ := logWrite_ok hl
  cases h
  exact ⟨lh, rfl⟩

theorem iallocDisk_ok {type : FType} (h : iallocDisk sb type v = .ok (i, v')) :
    (v.dinode i).type = .free ∧ 0 < i ∧ i < sb.ninodes ∧ ∃ lh, v' = { v with
      dinode := update v.dinode i { Dinode.zero with type := type }
      lh := lh } := by
  unfold iallocDisk at h
  rw [get_bind] at h
  cases hc : (List.range' 1 (sb.ninodes - 1)).find? fun i => (v.dinode i).type = .free with
  | none =>
    rw [hc] at h
    cases h
  | some c =>
    rw [hc] at h
    dsimp only at h
    rw [set_bind] at h
    obtain ⟨_, v1, h1, h⟩ := bind_ok.mp h
    obtain ⟨rfl, rfl⟩ := pure_ok h
    obtain ⟨lh, rfl⟩ := logWrite_ok h1
    have hmem := List.mem_of_find?_eq_some hc
    rw [List.mem_range'_1] at hmem
    exact ⟨by simpa using List.find?_some hc, by omega, by omega, lh, rfl⟩

/-! ## `bmap` -/

theorem addrAlloc_of_ne (h : d.addrs inum ≠ 0) :
    addrAlloc sb inum (d, v) = .ok (d.addrs inum, (d, v)) := by
  unfold addrAlloc
  rw [get_bind]
  dsimp only
  rw [if_neg h, pure_apply]

theorem addrAlloc_ok {a : ℕ} (h : addrAlloc sb k (d, v) = .ok (a, s)) (h0 : d.addrs k = 0) :
    ∃ v', balloc sb v = .ok (a, v') ∧
      s = ({ d with addrs := update d.addrs k a }, v') := by
  unfold addrAlloc at h
  rw [get_bind] at h
  dsimp only at h
  rw [if_pos h0] at h
  obtain ⟨a', s1, h1, h⟩ := bind_ok.mp h
  obtain ⟨v', hb, rfl⟩ := onVol_ok h1
  rw [modify_bind] at h
  obtain ⟨rfl, rfl⟩ := pure_ok h
  exact ⟨v', hb, rfl⟩

theorem indirectAlloc_of_ne {ind bn : ℕ} (h : (v.data ind).word bn ≠ 0) :
    indirectAlloc sb ind bn (d, v) = .ok ((v.data ind).word bn, (d, v)) := by
  unfold indirectAlloc
  rw [get_bind]
  dsimp only
  rw [if_neg h, pure_apply]

theorem indirectAlloc_ok {ind bn a : ℕ}
    (h : indirectAlloc sb ind bn (d, v) = .ok (a, s)) (h0 : (v.data ind).word bn = 0) :
    ∃ v' lh, balloc sb v = .ok (a, v') ∧ s = (d, { v' with
      data := update v'.data ind ((v'.data ind).setWord bn a)
      lh := lh }) := by
  unfold indirectAlloc at h
  rw [get_bind] at h
  dsimp only at h
  rw [if_pos h0] at h
  obtain ⟨a', s1, h1, h⟩ := bind_ok.mp h
  obtain ⟨v', hb, rfl⟩ := onVol_ok h1
  rw [modify_bind] at h
  obtain ⟨_, s2, h2, h⟩ := bind_ok.mp h
  obtain ⟨v2, hl, rfl⟩ := onVol_ok h2
  obtain ⟨lh, rfl⟩ := logWrite_ok hl
  obtain ⟨rfl, rfl⟩ := pure_ok h
  exact ⟨v', lh, hb, rfl⟩

structure Grows (inum : ℕ) (d : Dinode) (v : Volume) (d' : Dinode) (v' : Volume) : Prop where
  same : d' = { d with addrs := d'.addrs }
  dinode : v'.dinode = v.dinode
  bits : ∀ b, v.bitmap b = true → v'.bitmap b = true
  keep : ∀ k < NPOS, blockAt v.data d k ≠ 0 → blockAt v'.data d' k = blockAt v.data d k
  others : ∀ j, j ≠ inum → (v.dinode j).type ≠ .free → ∀ k,
    blockAt v'.data (v.dinode j) k = blockAt v.data (v.dinode j) k
  data : ∀ b, b ≠ 0 → v.bitmap b = true → b ≠ d'.addrs NDIRECT → v'.data b = v.data b
  fresh : ∀ k < NPOS, blockAt v.data d k = 0 → blockAt v'.data d' k ≠ 0 →
    blockAt v'.data d' k ≠ d'.addrs NDIRECT →
      v'.bitmap (blockAt v'.data d' k) = true ∧ v'.data (blockAt v'.data d' k) = Block.zero

theorem Grows.refl (inum : ℕ) (d : Dinode) (v : Volume) : Grows inum d v d v :=
  ⟨rfl, rfl, fun _ h => h, fun _ _ _ => rfl, fun _ _ _ _ => rfl, fun _ _ _ _ => rfl,
    fun _ _ h0 h => absurd h0 h⟩

theorem Grows.ne_indirect (h : Grows inum d v d' v') {b : ℕ} (h0 : b ≠ 0)
    (hb : b ≠ d'.addrs NDIRECT) : b ≠ d.addrs NDIRECT := by
  rintro rfl
  have := h.keep NDIRECT (by decide) (by rwa [blockAt_addrs _ _ le_rfl])
  rw [blockAt_addrs _ _ le_rfl, blockAt_addrs _ _ le_rfl] at this
  exact hb this.symm

theorem Grows.trans {d1 : Dinode} {v1 : Volume} (h1 : Grows inum d v d1 v1)
    (h2 : Grows inum d1 v1 d' v') : Grows inum d v d' v' := by
  refine ⟨?_, h2.dinode.trans h1.dinode, fun b hb => h2.bits b (h1.bits b hb), ?_, ?_, ?_, ?_⟩
  · rw [h2.same, h1.same]
  · intro k hk h0
    have hk1 := h1.keep k hk h0
    rw [h2.keep k hk (hk1 ▸ h0), hk1]
  · intro j hj ht k
    have := h2.others j hj (h1.dinode ▸ ht) k
    rw [h1.dinode] at this
    rw [this, h1.others j hj ht k]
  · intro b h0 hb hne
    rw [h2.data b h0 (h1.bits b hb) hne, h1.data b h0 hb (h2.ne_indirect h0 hne)]
  · intro k hk h0 hk' hne
    by_cases hk1 : blockAt v1.data d1 k = 0
    · exact h2.fresh k hk hk1 hk' hne
    · rw [h2.keep k hk hk1] at hne ⊢
      obtain ⟨hbit, hzero⟩ := h1.fresh k hk h0 hk1 (h2.ne_indirect hk1 hne)
      exact ⟨h2.bits _ hbit, by rw [h2.data _ hk1 hbit hne, hzero]⟩

end

section Bmap

variable {sb : Superblock} {v v' : Volume} {inum k a : ℕ} {d : Dinode}

theorem viewWith_type {d' : Dinode} (ht : d'.type = d.type) (j : ℕ) :
    (viewWith v inum d' j).type = (viewWith v inum d j).type := by
  unfold viewWith
  by_cases hj : j = inum
  · subst hj
    rw [update_self, update_self, ht]
  · rw [update_of_ne hj, update_of_ne hj]

theorem VolInv.resize (h : VolInv sb K v (viewWith v inum d)) {n : ℕ}
    (hn : NoHole v.data { d with size := n }) :
    VolInv sb K v (viewWith v inum { d with size := n }) := by
  have htype : ∀ j, (viewWith v inum { d with size := n } j).type = (viewWith v inum d j).type :=
    viewWith_type rfl
  refine h.congr_view htype (fun j => ?_) fun j hj => ?_
  · by_cases hji : j = inum
    · subst hji
      rw [viewWith, viewWith, update_self, update_self]
    · rw [viewWith, viewWith, update_of_ne hji, update_of_ne hji]
  · rw [htype] at hj
    by_cases hji : j = inum
    · subst hji
      rw [viewWith, update_self]
      exact hn
    · have hold := h.noHole j hj
      rw [viewWith, update_of_ne hji] at hold ⊢
      exact hold

theorem VolInv.take (h : VolInv sb K v (viewWith v inum d)) (hsb : sb.WF) (ht : d.type ≠ .free)
    (hk : k < NPOS) (h0 : blockAt v.data d k = 0) (ha : a < sb.size) (hu : v.bitmap a = false)
    {d' : Dinode} {data' : ℕ → Block} {lh : List ℕ} (hs : d' = { d with addrs := d'.addrs })
    (hself : ∀ l < NPOS, blockAt data' d' l = if l = k then a else blockAt v.data d l)
    (hother : ∀ j, j ≠ inum → (v.dinode j).type ≠ .free → ∀ l,
      blockAt data' (v.dinode j) l = blockAt v.data (v.dinode j) l) :
    VolInv sb K { v with bitmap := update v.bitmap a true, data := data', lh := lh }
      (viewWith v inum d') := by
  have harea := h.free_mem ha hu
  have hapos : a ≠ 0 := by
    have := hsb.start_pos
    have := harea.1
    omega
  have ht' : d'.type = d.type := by rw [hs]
  have hown : ownMap data' (viewWith v inum d') =
      update (ownMap v.data (viewWith v inum d)) (inum, k) (some a) := by
    funext ⟨j, l⟩
    by_cases hj : j = inum
    · subst hj
      by_cases hl : l = k
      · subst hl
        rw [update_self, ownMap_eq_some, viewWith, update_self]
        exact ⟨ht' ▸ ht, hk, by rw [hself l hk, if_pos rfl], hapos⟩
      · rw [update_of_ne fun e => hl (Prod.mk.inj e).2]
        by_cases hlN : l < NPOS
        · apply ownMap_congr (viewWith_type ht' j)
          rw [viewWith, viewWith, update_self, update_self, hself l hlN,
            if_neg hl]
        · unfold ownMap
          rw [if_neg fun hc => hlN hc.2.1, if_neg fun hc => hlN hc.2.1]
    · rw [update_of_ne fun e => hj (Prod.mk.inj e).1]
      by_cases hjt : (v.dinode j).type = .free
      · rw [ownMap_free, ownMap_free]
        · rwa [viewWith, update_of_ne hj]
        · rwa [viewWith, update_of_ne hj]
      · apply ownMap_congr (viewWith_type ht' j)
        rw [viewWith, viewWith, update_of_ne hj, update_of_ne hj,
          hother j hj hjt]
  refine ⟨?_, fun b hb => ?_, fun i hi n hn => ?_⟩
  · show Owns (dataArea sb) K (ownMap data' (viewWith v inum d')) _
    rw [hown]
    apply h.owns.take _ harea hu
    apply ownMap_eq_none
    rwa [viewWith, update_self]
  · have hba : b ≠ a := by
      rintro rfl
      have := h.low b hb
      rw [hu] at this
      cases this
    show update v.bitmap a true b = true
    rw [update_of_ne hba]
    exact h.low b hb
  · rw [viewWith_type ht'] at hi
    have hold := h.noHole i hi n
    by_cases hj : i = inum
    · subst hj
      rw [viewWith, update_self] at hold hn ⊢
      rw [hs] at hn
      obtain ⟨hn, hb⟩ := hold hn
      refine ⟨hn, ?_⟩
      show blockAt data' d' (filePos n) ≠ 0
      rw [hself _ (filePos_lt hn)]
      split
      · exact hapos
      · exact hb
    · rw [viewWith, update_of_ne hj] at hold hn hi ⊢
      obtain ⟨hn, hb⟩ := hold hn
      exact ⟨hn, by rwa [hother i hj hi]⟩

theorem VolInv.takeAddr (lh : List ℕ) (v' : Volume) (h : VolInv sb K v (viewWith v inum d))
    (hsb : sb.WF) (ht : d.type ≠ .free) (hk : k ≤ NDIRECT) (h0 : d.addrs k = 0) (hlt : a < sb.size)
    (hfree : v.bitmap a = false) (hv' : v' = { v with
      bitmap := update v.bitmap a true
      data := update v.data a Block.zero
      lh := lh }) :
    VolInv sb K v' (viewWith v' inum { d with addrs := update d.addrs k a }) ∧
      Grows inum d v { d with addrs := update d.addrs k a } v' ∧ a ≠ 0 ∧
      ∀ l < NPOS, blockAt v'.data { d with addrs := update d.addrs k a } l =
        if l = k then a else blockAt v.data d l := by
  subst hv'
  have hkN : k < NPOS := by unfold NPOS; omega
  have hapos : a ≠ 0 := by
    have := hsb.start_pos
    have := (h.free_mem hlt hfree).1
    omega
  have hview : ∀ j, j ≠ inum → (v.dinode j).type ≠ .free → (v.dinode j).addrs NDIRECT ≠ a := by
    intro j hj hjt
    have := h.indirect_ne_free (i := j) (by rwa [viewWith, update_of_ne hj]) hapos hfree
    rwa [viewWith, update_of_ne hj] at this
  have hind : d.addrs NDIRECT ≠ a := by
    have := h.indirect_ne_free (i := inum) (by rwa [viewWith, update_self]) hapos hfree
    rwa [viewWith, update_self] at this
  have hself : ∀ l < NPOS, blockAt (update v.data a Block.zero)
      { d with addrs := update d.addrs k a } l =
      if l = k then a else blockAt v.data d l := by
    intro l _
    by_cases hl : l ≤ NDIRECT
    · rw [blockAt_addrs _ _ hl, blockAt_addrs _ _ hl]
      exact update_apply ..
    · rw [if_neg (by omega)]
      obtain ⟨m, rfl⟩ : ∃ m, l = NDIRECT + 1 + m := ⟨l - (NDIRECT + 1), by omega⟩
      by_cases hkN : k = NDIRECT
      · -- a new indirect block is zeroed, so its entries are empty
        subst hkN
        have hnew : ({ d with addrs := update d.addrs NDIRECT a } : Dinode).addrs NDIRECT =
          a := by simp
        rw [blockAt_of_zero _ h0 (by omega), blockAt_indirect _ (by rwa [hnew]), hnew,
          update_self, Block.word_zero]
      · unfold blockAt
        simp only [if_neg hl, update_of_ne (Ne.symm hkN), update_of_ne hind]
  have hother : ∀ j, j ≠ inum → (v.dinode j).type ≠ .free → ∀ l,
      blockAt (update v.data a Block.zero) (v.dinode j) l =
        blockAt v.data (v.dinode j) l :=
    fun j hj hjt l => blockAt_update_of_ne _ (hview j hj hjt) l
  refine ⟨?_, ⟨rfl, rfl, fun b hb => ?_, fun l hl hl0 => ?_, hother, fun b _ hbu _ => ?_,
    fun l hl hl0 hl' _ => ?_⟩, hapos, hself⟩
  · exact h.take hsb ht hkN (by rwa [blockAt_addrs _ _ hk]) hlt hfree rfl hself hother
  · exact (update_apply ..).trans (by split <;> simp_all)
  · show blockAt (update v.data a Block.zero) _ l = _
    rw [hself l hl, if_neg]
    rintro rfl
    exact hl0 (by rwa [blockAt_addrs _ _ hk])
  · apply update_of_ne
    rintro rfl
    rw [hfree] at hbu
    cases hbu
  · dsimp only at hl' ⊢
    rw [hself l hl] at hl' ⊢
    split at hl'
    next hlk =>
      rw [if_pos hlk]
      exact ⟨update_self .., update_self ..⟩
    next => exact absurd hl0 hl'

variable {s : Dinode × Volume}

theorem addrAlloc_inv (h : VolInv sb K v (viewWith v inum d)) (hsb : sb.WF) (ht : d.type ≠ .free)
    (hk : k ≤ NDIRECT) (hr : addrAlloc sb k (d, v) = .ok (a, s)) :
    VolInv sb K s.2 (viewWith s.2 inum s.1) ∧ Grows inum d v s.1 s.2 ∧ a ≠ 0 ∧ s.1.addrs k = a := by
  by_cases h0 : d.addrs k = 0
  swap
  · rw [addrAlloc_of_ne h0] at hr
    cases hr
    exact ⟨h, Grows.refl .., h0, rfl⟩
  obtain ⟨v1, hb, rfl⟩ := addrAlloc_ok hr h0
  obtain ⟨hlt, hfree, lh, hv1⟩ := balloc_ok hb
  obtain ⟨hinv, hg, ha, -⟩ := h.takeAddr lh v1 hsb ht hk h0 hlt hfree hv1
  exact ⟨hinv, hg, ha, update_self ..⟩

theorem VolInv.takeEntry {j : ℕ} (lh : List ℕ) (v' : Volume) (h : VolInv sb K v (viewWith v inum d))
    (hsb : sb.WF) (ht : d.type ≠ .free) (hj : j < NINDIRECT) (hind : d.addrs NDIRECT ≠ 0)
    (h0 : (v.data (d.addrs NDIRECT)).word j = 0) (hlt : a < sb.size) (hfree : v.bitmap a = false)
    (hv' : v' = { v with
      bitmap := update v.bitmap a true
      data := update (update v.data a Block.zero) (d.addrs NDIRECT)
        ((update v.data a Block.zero (d.addrs NDIRECT)).setWord j a)
      lh := lh }) :
    VolInv sb K v' (viewWith v' inum d) ∧ Grows inum d v d v' ∧ a ≠ 0 ∧
      ∀ l < NPOS, blockAt v'.data d l =
        if l = NDIRECT + 1 + j then a else blockAt v.data d l := by
  subst hv'
  have hpos := blockAt_indirect v.data hind j
  have hkN : NDIRECT + 1 + j < NPOS := by unfold NPOS; omega
  have htv : (viewWith v inum d inum).type ≠ .free := by rwa [viewWith, update_self]
  have harea := h.free_mem hlt hfree
  have hapos : a ≠ 0 := by
    have := hsb.start_pos
    have := harea.1
    omega
  have hne : d.addrs NDIRECT ≠ a := by
    have := h.indirect_ne_free htv hapos hfree
    rwa [viewWith, update_self] at this
  have hne' : ∀ i, i ≠ inum → (v.dinode i).type ≠ .free →
      (v.dinode i).addrs NDIRECT ≠ a ∧ (v.dinode i).addrs NDIRECT ≠ d.addrs NDIRECT := by
    intro i hi hit
    have hit' : (viewWith v inum d i).type ≠ .free := by rwa [viewWith, update_of_ne hi]
    refine ⟨?_, fun e => ?_⟩
    · have := h.indirect_ne_free hit' hapos hfree
      rwa [viewWith, update_of_ne hi] at this
    · have := h.inj (k := NDIRECT) (l := NDIRECT) htv (by decide) hit' (by decide)
        (by rw [blockAt_addrs _ _ le_rfl, blockAt_addrs _ _ le_rfl, viewWith, update_self,
          update_of_ne hi, e])
        (by rwa [blockAt_addrs _ _ le_rfl, viewWith, update_self])
      exact hi this.1.symm
  have hself : ∀ l < NPOS, blockAt (update (update v.data a Block.zero)
      (d.addrs NDIRECT) ((update v.data a Block.zero (d.addrs NDIRECT)).setWord j a)) d l =
      if l = NDIRECT + 1 + j then a else blockAt v.data d l := by
    intro l hl
    rw [update_of_ne hne]
    by_cases hlD : l ≤ NDIRECT
    · rw [blockAt_addrs _ _ hlD, blockAt_addrs _ _ hlD, if_neg (by omega)]
    · obtain ⟨m, rfl⟩ : ∃ m, l = NDIRECT + 1 + m := ⟨l - (NDIRECT + 1), by omega⟩
      rw [blockAt_indirect _ hind, blockAt_indirect _ hind, update_self]
      by_cases hm : m = j
      · subst hm
        rw [if_pos rfl, Block.word_setWord_self]
        have := hsb.size_le
        omega
      · rw [if_neg (by omega), Block.word_setWord_of_ne _ _ hm]
  have hother : ∀ i, i ≠ inum → (v.dinode i).type ≠ .free → ∀ l,
      blockAt (update (update v.data a Block.zero) (d.addrs NDIRECT)
        ((update v.data a Block.zero (d.addrs NDIRECT)).setWord j a)) (v.dinode i) l =
        blockAt v.data (v.dinode i) l := by
    intro i hi hit l
    rw [blockAt_update_of_ne _ (hne' i hi hit).2, blockAt_update_of_ne _ (hne' i hi hit).1]
  refine ⟨?_, ⟨rfl, rfl, fun b hb => ?_, fun l hl hl0 => ?_, hother, fun b _ hbu hbd => ?_,
    fun l hl hl0 hl' _ => ?_⟩, hapos, hself⟩
  · exact h.take hsb ht hkN (hpos.trans h0) hlt hfree rfl hself hother
  · exact (update_apply ..).trans (by split <;> simp_all)
  · show blockAt (update _ _ _) d l = _
    rw [hself l hl, if_neg]
    rintro rfl
    exact hl0 (hpos.trans h0)
  · show update (update v.data a Block.zero) _ _ b = v.data b
    rw [update_of_ne hbd, update_of_ne]
    rintro rfl
    rw [hfree] at hbu
    cases hbu
  · dsimp only at hl' ⊢
    rw [hself l hl] at hl' ⊢
    split at hl'
    next hlk =>
      rw [if_pos hlk]
      refine ⟨update_self .., ?_⟩
      rw [update_of_ne hne.symm, update_self]
    next => exact absurd hl0 hl'

theorem indirectAlloc_inv {j : ℕ} (h : VolInv sb K v (viewWith v inum d)) (hsb : sb.WF)
    (ht : d.type ≠ .free) (hj : j < NINDIRECT) (hind : d.addrs NDIRECT ≠ 0)
    (hr : indirectAlloc sb (d.addrs NDIRECT) j (d, v) = .ok (a, s)) :
    VolInv sb K s.2 (viewWith s.2 inum s.1) ∧ Grows inum d v s.1 s.2 ∧ a ≠ 0 ∧
      blockAt s.2.data s.1 (NDIRECT + 1 + j) = a ∧
      (blockAt v.data d (NDIRECT + 1 + j) ≠ 0 → s = (d, v)) := by
  have hpos := blockAt_indirect v.data hind j
  by_cases h0 : (v.data (d.addrs NDIRECT)).word j = 0
  swap
  · rw [indirectAlloc_of_ne h0] at hr
    cases hr
    exact ⟨h, Grows.refl .., h0, hpos, fun _ => rfl⟩
  obtain ⟨v1, lh, hb, rfl⟩ := indirectAlloc_ok hr h0
  obtain ⟨hlt, hfree, lh1, rfl⟩ := balloc_ok hb
  obtain ⟨hinv, hg, ha, hself⟩ := h.takeEntry lh _ hsb ht hj hind h0 hlt hfree rfl
  have hat := (hself (NDIRECT + 1 + j) (by unfold NPOS; omega)).trans (if_pos rfl)
  exact ⟨hinv, hg, ha, hat, fun hc => absurd (hpos.trans h0) hc⟩

/-- **`bmap`.** It keeps the invariant, adds blocks at most, and returns the block of the file;
where there was one already, nothing changes. -/
theorem bmap_inv {bn : ℕ} (h : VolInv sb K v (viewWith v inum d)) (hsb : sb.WF)
    (ht : d.type ≠ .free) (hr : bmap sb bn (d, v) = .ok (a, s)) :
    VolInv sb K s.2 (viewWith s.2 inum s.1) ∧ Grows inum d v s.1 s.2 ∧ bn < MAXFILE ∧ a ≠ 0 ∧
      blockAt s.2.data s.1 (filePos bn) = a ∧
      (blockAt v.data d (filePos bn) ≠ 0 → s = (d, v)) := by
  unfold bmap at hr
  split at hr
  next hbn =>
    have hp : filePos bn = bn := if_pos hbn
    have hmax : bn < MAXFILE := by unfold MAXFILE; omega
    obtain ⟨h1, h2, h3, h4⟩ := addrAlloc_inv h hsb ht hbn.le hr
    refine ⟨h1, h2, hmax, h3, ?_, fun hc => ?_⟩
    · rw [hp, blockAt_addrs _ _ hbn.le, h4]
    · rw [hp, blockAt_addrs _ _ hbn.le] at hc
      rw [addrAlloc_of_ne hc] at hr
      exact (Prod.mk.inj (Except.ok.inj hr)).2.symm
  next hbn =>
    split at hr
    next hj =>
      have hp : filePos bn = NDIRECT + 1 + (bn - NDIRECT) := by
        unfold filePos
        rw [if_neg hbn]
        omega
      have hmax : bn < MAXFILE := by unfold MAXFILE; omega
      obtain ⟨ind, s1, h1, h2⟩ := bind_ok.mp hr
      obtain ⟨hv1, hg1, hind, hadd⟩ := addrAlloc_inv h hsb ht le_rfl h1
      obtain ⟨d1, v1⟩ := s1
      dsimp only at hv1 hg1 hadd
      subst hadd
      have ht1 : d1.type ≠ .free := by rw [hg1.same]; exact ht
      obtain ⟨hv2, hg2, ha, hat, hsame⟩ := indirectAlloc_inv hv1 hsb ht1 hj hind h2
      refine ⟨hv2, hg1.trans hg2, hmax, ha, by rw [hp, hat], fun hc => ?_⟩
      rw [hp] at hc
      have hnz : d.addrs NDIRECT ≠ 0 := fun e => hc (blockAt_of_zero _ e (by omega))
      rw [addrAlloc_of_ne hnz] at h1
      obtain ⟨-, e⟩ := Prod.mk.inj (Except.ok.inj h1)
      cases e
      exact hsame hc
    next => cases hr

theorem bmap_of_ne {bn : ℕ} (hbn : bn < MAXFILE) (h : blockAt v.data d (filePos bn) ≠ 0) :
    bmap sb bn (d, v) = .ok (blockAt v.data d (filePos bn), (d, v)) := by
  unfold bmap
  by_cases hd : bn < NDIRECT
  · rw [if_pos hd]
    have hp : filePos bn = bn := if_pos hd
    rw [hp, blockAt_addrs _ _ hd.le] at h ⊢
    exact addrAlloc_of_ne h
  · have hj : bn - NDIRECT < NINDIRECT := by unfold MAXFILE at hbn; omega
    have hp : filePos bn = NDIRECT + 1 + (bn - NDIRECT) := by
      unfold filePos
      rw [if_neg hd]
      omega
    have hind : d.addrs NDIRECT ≠ 0 := fun e => h (blockAt_of_zero _ e (by omega))
    rw [if_neg hd, if_pos hj, bind_eq (addrAlloc_of_ne hind), hp, blockAt_indirect _ hind]
    apply indirectAlloc_of_ne
    rwa [hp, blockAt_indirect _ hind] at h

end Bmap

/-! ## `itrunc` -/

section Itrunc

variable {sb : Superblock} {v : Volume} {inum : ℕ} {d : Dinode}

theorem ownMap_clear_addr (data : ℕ → Block) {i : ℕ} (hi : i < NDIRECT) :
    ownMap data (viewWith v inum { d with addrs := update d.addrs i 0 }) =
      update (ownMap data (viewWith v inum d)) (inum, i) none := by
  funext ⟨j, l⟩
  by_cases hj : j = inum
  · subst hj
    by_cases hl : l = i
    · subst hl
      rw [update_self]
      apply ownMap_eq_none
      rw [viewWith, update_self, blockAt_addrs _ _ hi.le]
      exact update_self ..
    · rw [update_of_ne fun e => hl (Prod.mk.inj e).2]
      refine ownMap_congr (viewWith_type (by rfl) j) ?_
      rw [viewWith, viewWith, update_self, update_self]
      unfold blockAt
      simp only [update_of_ne hl, update_of_ne hi.ne']
  · rw [update_of_ne fun e => hj (Prod.mk.inj e).1]
    refine ownMap_congr (viewWith_type (by rfl) j) ?_
    rw [viewWith, viewWith, update_of_ne hj, update_of_ne hj]

variable {s : Dinode × Volume} {u : Unit}

theorem itruncDirect_inv {is : List ℕ} (his : ∀ i ∈ is, i < NDIRECT) (ht : d.type ≠ .free)
    (h : Owns (dataArea sb) K (ownMap v.data (viewWith v inum d)) v.bitmap)
    (hr : itruncDirect sb is (d, v) = .ok (u, s)) :
    Owns (dataArea sb) K (ownMap v.data (viewWith v inum s.1)) s.2.bitmap ∧
      s.1 = { d with addrs := s.1.addrs } ∧ s.2.data = v.data ∧ s.2.dinode = v.dinode ∧
      (∀ i, s.1.addrs i = if i ∈ is then 0 else d.addrs i) ∧
      ∀ b < sb.datastart, s.2.bitmap b = v.bitmap b := by
  induction is generalizing d v with
  | nil =>
    obtain ⟨-, rfl⟩ := pure_ok hr
    exact ⟨h, rfl, rfl, rfl, fun i => by simp, fun _ _ => rfl⟩
  | cons i is ih =>
    have hi := his i List.mem_cons_self
    have his' : ∀ j ∈ is, j < NDIRECT := fun j hj => his j (List.mem_cons_of_mem i hj)
    unfold itruncDirect at hr
    rw [get_bind] at hr
    dsimp only at hr
    by_cases h0 : d.addrs i ≠ 0
    · rw [if_pos h0] at hr
      obtain ⟨_, s1, h1, hr⟩ := bind_ok.mp hr
      obtain ⟨v1, hb, rfl⟩ := onVol_ok h1
      obtain ⟨lh, rfl⟩ := bfree_ok hb
      rw [modify_bind] at hr
      dsimp only at hr
      have hown : ownMap v.data (viewWith v inum d) (inum, i) = some (d.addrs i) := by
        rw [ownMap_eq_some, viewWith, update_self, blockAt_addrs _ _ hi.le]
        exact ⟨ht, hi.trans (by decide), rfl, h0⟩
      have harea := (h.mem hown).1
      have h' := h.release hown
      rw [← ownMap_clear_addr v.data hi] at h'
      have ht' : ({ d with addrs := update d.addrs i 0 } : Dinode).type ≠ .free := ht
      obtain ⟨ho, hd, hdata, hdi, ha, hlow⟩ := ih his' ht' h' hr
      refine ⟨ho, hd, hdata, hdi, fun j => ?_, fun b hb => ?_⟩
      · rw [ha j]
        by_cases hj : j ∈ is
        · rw [if_pos hj, if_pos (List.mem_cons_of_mem i hj)]
        · rw [if_neg hj]
          by_cases hji : j = i
          · subst hji
            rw [if_pos List.mem_cons_self]
            exact update_self ..
          · rw [if_neg fun hc => (List.mem_cons.mp hc).elim hji hj]
            exact update_of_ne hji ..
      · rw [hlow b hb]
        have := harea.1
        exact update_of_ne (by omega) ..
    · rw [if_neg h0] at hr
      obtain ⟨ho, hd, hdata, hdi, ha, hlow⟩ := ih his' ht h hr
      refine ⟨ho, hd, hdata, hdi, fun j => ?_, hlow⟩
      rw [ha j]
      by_cases hj : j ∈ is
      · rw [if_pos hj, if_pos (List.mem_cons_of_mem i hj)]
      · rw [if_neg hj]
        by_cases hji : j = i
        · subst hji
          rw [if_pos List.mem_cons_self]
          exact not_not.mp h0
        · rw [if_neg fun hc => (List.mem_cons.mp hc).elim hji hj]

def dropEntries (own : ℕ × ℕ → Option ℕ) (inum : ℕ) (js : List ℕ) : ℕ × ℕ → Option ℕ := fun x =>
  if x.1 = inum ∧ NDIRECT < x.2 ∧ x.2 - (NDIRECT + 1) ∈ js then none else own x

theorem dropEntries_cons (own : ℕ × ℕ → Option ℕ) (inum j : ℕ) (js : List ℕ) :
    dropEntries own inum (j :: js) =
      dropEntries (update own (inum, NDIRECT + 1 + j) none) inum js := by
  funext ⟨i, l⟩
  unfold dropEntries
  dsimp only
  by_cases hx : i = inum ∧ NDIRECT < l ∧ l - (NDIRECT + 1) ∈ js
  · rw [if_pos hx, if_pos ⟨hx.1, hx.2.1, List.mem_cons_of_mem j hx.2.2⟩]
  · rw [if_neg hx]
    by_cases hj : i = inum ∧ l = NDIRECT + 1 + j
    · obtain ⟨rfl, rfl⟩ := hj
      rw [update_self, if_pos]
      exact ⟨rfl, by omega, by simp⟩
    · rw [update_of_ne fun e => hj (Prod.mk.inj e), if_neg]
      rintro ⟨hi, hl, hmem⟩
      rcases List.mem_cons.mp hmem with e | hmem
      · exact hj ⟨hi, by omega⟩
      · exact hx ⟨hi, hl, hmem⟩

theorem itruncIndirect_inv {js : List ℕ} {a : Block} {own : ℕ × ℕ → Option ℕ} (hjs : js.Nodup)
    (h : Owns (dataArea sb) K own v.bitmap)
    (hown : ∀ j ∈ js, own (inum, NDIRECT + 1 + j) = if a.word j = 0 then none else some (a.word j))
    (hr : itruncIndirect sb a js (d, v) = .ok (u, s)) :
    Owns (dataArea sb) K (dropEntries own inum js) s.2.bitmap ∧
      s.1 = d ∧ s.2.data = v.data ∧ s.2.dinode = v.dinode ∧
      ∀ b < sb.datastart, s.2.bitmap b = v.bitmap b := by
  induction js generalizing v own with
  | nil =>
    obtain ⟨-, rfl⟩ := pure_ok hr
    refine ⟨?_, rfl, rfl, rfl, fun _ _ => rfl⟩
    have : dropEntries own inum [] = own := by
      funext x
      exact if_neg fun hc => List.not_mem_nil hc.2.2
    rwa [this]
  | cons j js ih =>
    have hj := hown j List.mem_cons_self
    have hnd := List.nodup_cons.mp hjs
    -- the later entries are at other positions
    have hrest : ∀ j' ∈ js, update own (inum, NDIRECT + 1 + j) none
        (inum, NDIRECT + 1 + j') = if a.word j' = 0 then none else some (a.word j') := by
      intro j' hj'
      have hne : j' ≠ j := fun e => hnd.1 (e ▸ hj')
      have hne' : (inum, NDIRECT + 1 + j') ≠ (inum, NDIRECT + 1 + j) := fun e => by
        have := (Prod.mk.inj e).2
        omega
      rw [update_of_ne hne', hown j' (List.mem_cons_of_mem j hj')]
    unfold itruncIndirect at hr
    rw [dropEntries_cons]
    by_cases h0 : a.word j = 0
    · rw [if_neg (not_not.mpr h0)] at hr
      rw [if_pos h0] at hj
      have hsame : update own (inum, NDIRECT + 1 + j) none = own := by
        rw [← hj, update_eq_self]
      rw [hsame] at hrest ⊢
      exact ih hnd.2 h hrest hr
    · rw [if_pos h0] at hr
      rw [if_neg h0] at hj
      obtain ⟨_, s1, h1, hr⟩ := bind_ok.mp hr
      obtain ⟨v1, hb, rfl⟩ := onVol_ok h1
      obtain ⟨lh, rfl⟩ := bfree_ok hb
      obtain ⟨ho, hd, hdata, hdi, hlow⟩ := ih hnd.2 (h.release hj) hrest hr
      refine ⟨ho, hd, hdata, hdi, fun b hb => ?_⟩
      have := (h.mem hj).1.1
      rw [hlow b hb]
      exact update_of_ne (by omega) ..

theorem blockAt_eq_zero {data : ℕ → Block} (h : ∀ i ≤ NDIRECT, d.addrs i = 0) (k : ℕ) :
    blockAt data d k = 0 := by
  by_cases hk : k ≤ NDIRECT
  · rw [blockAt_addrs _ _ hk, h k hk]
  · exact blockAt_of_zero _ (h _ le_rfl) (by omega)

theorem ownMap_empty {data : ℕ → Block} {view : ℕ → Dinode} {d' : Dinode}
    (h : d'.type = .free ∨ ∀ k, blockAt data d' k = 0) :
    ownMap data (update view inum d') =
      fun x => if x.1 = inum then none else ownMap data view x := by
  funext ⟨j, l⟩
  by_cases hj : j = inum
  · subst hj
    rw [if_pos rfl]
    rcases h with h | h
    · exact ownMap_free (by rwa [update_self]) l
    · exact ownMap_eq_none (by rw [update_self]; exact h l)
  · rw [if_neg hj]
    apply ownMap_congr <;> rw [update_of_ne hj]

theorem itruncLast_inv (ht : d.type ≠ .free) (hdir : ∀ i < NDIRECT, d.addrs i = 0)
    (h : Owns (dataArea sb) K (ownMap v.data (viewWith v inum d)) v.bitmap)
    (hr : itruncLast sb (d, v) = .ok (u, s)) :
    Owns (dataArea sb) K (fun x => if x.1 = inum then none else ownMap v.data v.dinode x)
        s.2.bitmap ∧
      s.1 = { d with addrs := s.1.addrs } ∧ (∀ i ≤ NDIRECT, s.1.addrs i = 0) ∧
      s.2.data = v.data ∧ s.2.dinode = v.dinode ∧
      ∀ b < sb.datastart, s.2.bitmap b = v.bitmap b := by
  unfold itruncLast at hr
  rw [get_bind] at hr
  dsimp only at hr
  by_cases h0 : d.addrs NDIRECT = 0
  · rw [if_neg (not_not.mpr h0)] at hr
    obtain ⟨-, rfl⟩ := pure_ok hr
    have hz : ∀ i ≤ NDIRECT, d.addrs i = 0 := fun i hi =>
      (Nat.lt_or_eq_of_le hi).elim (hdir i) fun e => e ▸ h0
    rw [viewWith, ownMap_empty (.inr (blockAt_eq_zero hz))] at h
    exact ⟨h, rfl, hz, rfl, rfl, fun _ _ => rfl⟩
  rw [if_pos h0] at hr
  obtain ⟨_, ⟨d2, v2⟩, h2, hr⟩ := bind_ok.mp hr
  have hentries : ∀ j ∈ List.range NINDIRECT,
      ownMap v.data (viewWith v inum d) (inum, NDIRECT + 1 + j) =
        if (v.data (d.addrs NDIRECT)).word j = 0 then none
        else some ((v.data (d.addrs NDIRECT)).word j) := by
    intro j hj
    have hj := List.mem_range.mp hj
    have hat := blockAt_indirect v.data h0 j
    split
    next e =>
      apply ownMap_eq_none
      rw [viewWith, update_self, hat, e]
    next e =>
      rw [ownMap_eq_some, viewWith, update_self]
      exact ⟨ht, by unfold NPOS; omega, hat, e⟩
  obtain ⟨ho, rfl, hdata, hdi, hlow⟩ := itruncIndirect_inv List.nodup_range h hentries h2
  dsimp only at ho hdata hdi hlow
  obtain ⟨_, s3, h3, hr⟩ := bind_ok.mp hr
  obtain ⟨v3, hb, rfl⟩ := onVol_ok h3
  obtain ⟨lh, rfl⟩ := bfree_ok hb
  cases hr
  have hlast : dropEntries (ownMap v.data (viewWith v inum d2)) inum (List.range NINDIRECT)
      (inum, NDIRECT) = some (d2.addrs NDIRECT) := by
    unfold dropEntries
    rw [if_neg fun hc => lt_irrefl _ hc.2.1, ownMap_eq_some, viewWith, update_self]
    exact ⟨ht, by decide, blockAt_addrs _ _ le_rfl, h0⟩
  have hz : ∀ i ≤ NDIRECT, update d2.addrs NDIRECT 0 i = 0 := by
    intro i hi
    rcases Nat.lt_or_eq_of_le hi with hlt | rfl
    · rw [update_of_ne hlt.ne, hdir i hlt]
    · exact update_self ..
  refine ⟨?_, rfl, hz, hdata, hdi, fun b hb => ?_⟩
  · have hfin := ho.release hlast
    convert hfin using 1
    funext ⟨j, l⟩
    dsimp only
    by_cases hj : j = inum
    · -- direct positions were empty, the others have just been emptied
      subst hj
      rw [if_pos rfl]
      rcases Nat.lt_trichotomy l NDIRECT with hl | rfl | hl
      · rw [update_of_ne fun e => hl.ne (Prod.mk.inj e).2]
        unfold dropEntries
        rw [if_neg fun hc => absurd hc.2.1 (by dsimp only; omega), ownMap_eq_none]
        rw [viewWith, update_self, blockAt_addrs _ _ hl.le, hdir l hl]
      · rw [update_self]
      · rw [update_of_ne fun e => hl.ne' (Prod.mk.inj e).2]
        unfold dropEntries
        dsimp only
        by_cases hlN : l < NPOS
        · rw [if_pos ⟨rfl, hl, List.mem_range.mpr (by unfold NPOS at hlN; omega)⟩]
        · split
          · rfl
          · unfold ownMap
            rw [if_neg fun hc => hlN hc.2.1]
    · rw [if_neg hj, update_of_ne fun e => hj (Prod.mk.inj e).1]
      unfold dropEntries
      rw [if_neg fun hc => hj hc.1]
      apply ownMap_congr <;> rw [viewWith, update_of_ne hj]
  · have hge : sb.datastart ≤ d2.addrs NDIRECT := (ho.mem hlast).1.1
    rw [← hlow b hb]
    exact update_of_ne (by dsimp only; omega) ..

/-- **`itrunc`.** The inode ends up without blocks, on disk as in memory, its blocks are free, and
the rest of the disk is as before. -/
theorem itrunc_inv (h : VolInv sb K v (viewWith v inum d)) (ht : d.type ≠ .free)
    (hr : itrunc sb inum (d, v) = .ok (u, s)) :
    VolInv sb K s.2 s.2.dinode ∧ s.1 = { d with size := 0, addrs := s.1.addrs } ∧
      (∀ i ≤ NDIRECT, s.1.addrs i = 0) ∧ s.2.data = v.data ∧
      s.2.dinode = update v.dinode inum s.1 ∧
      ∀ k < NPOS, blockAt v.data d k ≠ 0 → blockAt v.data d k ∈ K →
        s.2.bitmap (blockAt v.data d k) = false := by
  unfold itrunc at hr
  obtain ⟨_, ⟨d1, v1⟩, h1, hr⟩ := bind_ok.mp hr
  obtain ⟨ho1, hd1, hdata1, hdi1, ha1, hlow1⟩ :=
    itruncDirect_inv (fun i hi => List.mem_range.mp hi) ht h.owns h1
  dsimp only at ho1 hd1 hdata1 hdi1 ha1 hlow1
  have hdir : ∀ i < NDIRECT, d1.addrs i = 0 := by
    intro i hi
    rw [ha1, if_pos (List.mem_range.mpr hi)]
  obtain ⟨_, ⟨d2, v2⟩, h2, hr⟩ := bind_ok.mp hr
  have ho₁' : Owns (dataArea sb) K (ownMap v1.data (viewWith v1 inum d1)) v1.bitmap := by
    rw [hdata1, viewWith, hdi1]
    exact ho1
  obtain ⟨ho2, hd2, hz, hdata2, hdi2, hlow2⟩ :=
    itruncLast_inv (by rw [hd1]; exact ht) hdir ho₁' h2
  dsimp only at ho2 hd2 hz hdata2 hdi2 hlow2
  rw [hdata1, hdi1] at ho2
  have hdata := hdata2.trans hdata1
  have hdi := hdi2.trans hdi1
  rw [modify_bind] at hr
  obtain ⟨lh, rfl⟩ := iupdate_ok hr
  dsimp only
  have hempty : ∀ k, blockAt v.data { d2 with size := 0 } k = 0 := blockAt_eq_zero hz
  have hown : ownMap v2.data (update v2.dinode inum { d2 with size := 0 }) =
      fun x => if x.1 = inum then none else ownMap v.data v.dinode x := by
    rw [hdata, hdi, ownMap_empty (.inr hempty)]
  refine ⟨⟨?_, fun b hb => ?_, fun j hj n hn => ?_⟩, by rw [hd2, hd1], hz, hdata, by rw [hdi], ?_⟩
  · show Owns _ _ (ownMap v2.data (update v2.dinode inum _)) v2.bitmap
    rw [hown]
    exact ho2
  · show v2.bitmap b = true
    rw [hlow2 b hb, hlow1 b hb]
    exact h.low b hb
  · by_cases hji : j = inum
    · subst hji
      rw [update_self] at hn
      exact absurd hn (Nat.not_lt_zero _)
    · rw [update_of_ne hji] at hj hn ⊢
      show n < MAXFILE ∧ blockAt v2.data _ _ ≠ 0
      rw [hdi] at hj hn ⊢
      have := h.noHole j (by rwa [viewWith, update_of_ne hji]) n
      rw [viewWith, update_of_ne hji] at this
      rw [hdata]
      exact this hn
  · intro k hk hb hK
    have hdrop : Owns (dataArea sb) K
        (fun x => if x.1 = inum then none else ownMap v.data (viewWith v inum d) x) v2.bitmap := by
      convert ho2 using 1
      funext ⟨j, l⟩
      dsimp only
      by_cases hj : j = inum
      · rw [if_pos hj, if_pos hj]
      · rw [if_neg hj, if_neg hj]
        apply ownMap_congr <;> rw [viewWith, update_of_ne hj]
    refine h.owns.free_of_dropped hdrop (x := (inum, k)) ?_ rfl hK
    rw [ownMap_eq_some, viewWith, update_self]
    exact ⟨ht, hk, rfl, hb⟩

end Itrunc

/-! ## New inodes -/

theorem VolInv.alloc {sb : Superblock} {v : Volume} (h : VolInv sb K v v.dinode)
    (hi : (v.dinode i).type = .free) (d : Dinode) (ha : d.addrs = fun _ => 0) (hs : d.size = 0)
    (lh : List ℕ) :
    VolInv sb K { v with dinode := update v.dinode i d, lh := lh }
      (update v.dinode i d) := by
  refine ⟨?_, h.low, fun j hj => ?_⟩
  · have hown : ownMap v.data (update v.dinode i d) = ownMap v.data v.dinode := by
      rw [ownMap_empty (.inr (blockAt_eq_zero fun _ _ => by rw [ha]))]
      funext ⟨j, n⟩
      dsimp only
      split
      next hj => rw [hj, ownMap_free hi]
      next => rfl
    rw [hown]
    exact h.owns
  · by_cases hji : j = i
    · subst hji
      rw [update_self]
      intro n hn
      rw [hs] at hn
      exact absurd hn (Nat.not_lt_zero _)
    · rw [update_of_ne hji] at hj ⊢
      exact h.noHole j hj

end Xv6.Fs
