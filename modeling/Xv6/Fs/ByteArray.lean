import Xv6.Fs.Runs

/-!
# An inode is a byte array

`Content` says what `readi` and `writei` have done when they return. Here is when `writei` returns.

1. `Spare c m v`: the header of the log has room for `c` blocks and for the blocks of the bit map
   that `m` allocations need. Writing a block that is in the header is free.
2. `bmap_returns`, `writeLoop_returns`, `writei_returns`: with as many free blocks as blocks are
   missing (`absent`), and with room in the log, `writei` returns.
3. `inode_byte_array`: on the contents, `readi` is `take` and `drop`, and `writei` replaces a range.
-/

namespace Xv6.Fs

open Function StateExcept Ownership

/-! ## Room in the log -/

def logCapacity (sb : Superblock) : ℕ := min LOGSIZE (sb.nlog - 1)

def bitmapBlocks (sb : Superblock) : Finset ℕ := (Finset.range sb.size).image (BBLOCK · sb)

/-- Inside a transaction, with room for `c` blocks and for the bits of `m` blocks. `log_write`
panics when the header is full even if the block is in it, hence `<`. -/
structure Spare (sb : Superblock) (c m : ℕ) (v : Volume) : Prop where
  inside : 0 < v.outstanding
  room : v.lh.length + c + min m (bitmapBlocks sb \ v.lh.toFinset).card < logCapacity sb

def freeBlocks (sb : Superblock) (v : Volume) : Finset ℕ :=
  (Finset.range sb.size).filter fun b => v.bitmap b = false

section Spare

variable {sb : Superblock} {K : Set ℕ} {v v' : Volume} {b c m : ℕ}

theorem Spare.congr (h : Spare sb c m v) (ho : v'.outstanding = v.outstanding) (hl : v'.lh = v.lh) :
    Spare sb c m v' := by
  refine ⟨?_, ?_⟩
  · rw [ho]
    exact h.inside
  · rw [hl]
    exact h.room

theorem Spare.mono {c' m' : ℕ} (h : Spare sb c m v) (hc : c' ≤ c) (hm : m' ≤ m) :
    Spare sb c' m' v := by
  refine ⟨h.inside, ?_⟩
  have := h.room
  omega

theorem Spare.logWrite_eq (h : Spare sb c m v) :
    logWrite sb b v = .ok ((), { v with lh := if b ∈ v.lh then v.lh else v.lh ++ [b] }) := by
  have hroom := h.room
  have hin := h.inside
  unfold logCapacity at hroom
  unfold logWrite
  rw [if_neg (by omega), if_neg (by omega)]

theorem Spare.logWrite_mem (h : Spare sb c m v) (hb : b ∈ v.lh) :
    logWrite sb b v = .ok ((), v) := by
  rw [h.logWrite_eq, if_pos hb]

theorem sdiff_append (B : Finset ℕ) (l : List ℕ) (b : ℕ) :
    B \ (l ++ [b]).toFinset = (B \ l.toFinset).erase b := by
  ext x
  simp only [Finset.mem_sdiff, List.mem_toFinset, List.mem_append, List.mem_singleton,
    Finset.mem_erase]
  tauto

structure Logged (b : ℕ) (v v' : Volume) : Prop where
  mem : b ∈ v'.lh
  subset : v.lh ⊆ v'.lh
  same : v' = { v with lh := v'.lh }

theorem logged_ite : Logged b v { v with lh := if b ∈ v.lh then v.lh else v.lh ++ [b] } := by
  refine ⟨?_, ?_, rfl⟩
  · dsimp only
    split
    · assumption
    · exact List.mem_append_right _ (List.mem_singleton_self b)
  · dsimp only
    split
    · exact List.Subset.refl _
    · exact List.subset_append_left _ _

theorem Spare.logWrite (h : Spare sb (c + 1) m v) :
    ∃ v', logWrite sb b v = .ok ((), v') ∧ Spare sb c m v' ∧ Logged b v v' := by
  refine ⟨_, h.logWrite_eq, ⟨h.inside, ?_⟩, logged_ite⟩
  have hroom := h.room
  dsimp only
  by_cases hb : b ∈ v.lh
  · rw [if_pos hb]
    omega
  · rw [if_neg hb, sdiff_append, List.length_append, List.length_singleton]
    have hle := Finset.card_erase_le (s := bitmapBlocks sb \ v.lh.toFinset) (a := b)
    omega

theorem Spare.logWrite_bit (h : Spare sb c (m + 1) v) (hb : b ∈ bitmapBlocks sb) :
    ∃ v', Fs.logWrite sb b v = .ok ((), v') ∧ Spare sb c m v' ∧ Logged b v v' := by
  refine ⟨_, h.logWrite_eq, ⟨h.inside, ?_⟩, logged_ite⟩
  have hroom := h.room
  dsimp only
  by_cases hmem : b ∈ v.lh
  · rw [if_pos hmem]
    omega
  · have hin : b ∈ bitmapBlocks sb \ v.lh.toFinset :=
      Finset.mem_sdiff.mpr ⟨hb, fun hc => hmem (List.mem_toFinset.mp hc)⟩
    have hpos := Finset.card_pos.mpr ⟨b, hin⟩
    rw [if_neg hmem, sdiff_append, List.length_append, List.length_singleton,
      Finset.card_erase_of_mem hin]
    omega

theorem balloc_returns (hfree : (freeBlocks sb v).Nonempty) (h : Spare sb (c + 1) (m + 1) v) :
    ∃ b v', balloc sb v = .ok (b, v') ∧ Spare sb c m v' ∧ b ∈ v'.lh ∧ v.lh ⊆ v'.lh ∧
      (freeBlocks sb v').card + 1 = (freeBlocks sb v).card := by
  cases hc : (List.range sb.size).find? fun b => !v.bitmap b with
  | none =>
    exfalso
    obtain ⟨b, hb⟩ := hfree
    obtain ⟨hlt, hbit⟩ := Finset.mem_filter.mp hb
    have := List.find?_eq_none.mp hc b (List.mem_range.mpr (Finset.mem_range.mp hlt))
    rw [hbit] at this
    exact this rfl
  | some b =>
    have hlt : b < sb.size := List.mem_range.mp (List.mem_of_find?_eq_some hc)
    have hbit : v.bitmap b = false := by simpa using List.find?_some hc
    have hbb : BBLOCK b sb ∈ bitmapBlocks sb :=
      Finset.mem_image_of_mem _ (Finset.mem_range.mpr hlt)
    let v0 : Volume := { v with bitmap := update v.bitmap b true }
    have h0 : Spare sb (c + 1) (m + 1) v0 := h.congr rfl rfl
    obtain ⟨v1, hw1, hs1, hl1⟩ := h0.logWrite_bit hbb
    let v2 : Volume := { v1 with data := update v1.data b Block.zero }
    have hs2 : Spare sb (c + 1) m v2 := hs1.congr rfl rfl
    obtain ⟨v3, hw3, hs3, hl3⟩ := Spare.logWrite (b := b) hs2
    refine ⟨b, v3, ?_, hs3, hl3.mem, fun x hx => hl3.subset (hl1.subset hx), ?_⟩
    · unfold balloc
      rw [get_bind, hc]
      dsimp only
      rw [set_bind, bind_eq hw1]
      unfold bzero
      have hz : (modify fun v => { v with data := update v.data b Block.zero } :
          VolM PUnit) v1 = .ok ((), v2) := rfl
      rw [bind_eq ((bind_eq hz).trans hw3), pure_apply]
    · have hbits : v3.bitmap = update v.bitmap b true := by
        rw [hl3.same]
        show v1.bitmap = _
        rw [hl1.same]
      have herase : freeBlocks sb v3 = (freeBlocks sb v).erase b := by
        ext x
        unfold freeBlocks
        rw [hbits, Finset.mem_erase, Finset.mem_filter, Finset.mem_filter]
        by_cases hx : x = b
        · subst hx
          rw [update_self]
          simp
        · rw [update_of_ne hx]
          tauto
      rw [herase, Finset.card_erase_add_one]
      exact Finset.mem_filter.mpr ⟨Finset.mem_range.mpr hlt, hbit⟩

end Spare

/-! ## The blocks that are missing -/

/-- The positions of block numbers that `bmap(ip, bn)` looks at. -/
def slots (bn : ℕ) : Finset ℕ := if bn < NDIRECT then {bn} else {NDIRECT, bn + 1}

def touched (off n : ℕ) : Finset ℕ := (Finset.range n).image fun i => (off + i) / BSIZE

def absent (data : ℕ → Block) (d : Dinode) (A : Finset ℕ) : Finset ℕ :=
  A.filter fun k => blockAt data d k = 0

def indirectCost (A : Finset ℕ) (d : Dinode) (v : Volume) : ℕ :=
  if (∃ k ∈ absent v.data d A, NDIRECT < k) ∧
    (d.addrs NDIRECT = 0 ∨ d.addrs NDIRECT ∉ v.lh) then 1 else 0

/-- Enough free blocks for the positions `A`, and room in the log for their bits, for the indirect
block and for `c` blocks more. -/
structure Supply (sb : Superblock) (A : Finset ℕ) (c : ℕ) (d : Dinode) (v : Volume) : Prop where
  free : (absent v.data d A).card ≤ (freeBlocks sb v).card
  spare : Spare sb (c + indirectCost A d v) (absent v.data d A).card v

def AtHand (sb : Superblock) (A : Finset ℕ) (c a : ℕ) (d : Dinode) (v : Volume) : Prop :=
  a ∈ v.lh ∧ Supply sb A c d v ∨ Supply sb A (c + 1) d v

section Supply

variable {sb : Superblock} {K : Set ℕ} {A : Finset ℕ} {c k : ℕ} {d d' : Dinode} {v v' : Volume}

theorem Supply.mono {c' : ℕ} (h : Supply sb A c d v) (hc : c' ≤ c) : Supply sb A c' d v :=
  ⟨h.free, h.spare.mono (by omega) le_rfl⟩

theorem indirectCost_le (hd : d.addrs NDIRECT ≠ 0 → d'.addrs NDIRECT = d.addrs NDIRECT)
    (hl : v.lh ⊆ v'.lh) (habs : absent v'.data d' A ⊆ absent v.data d A) :
    indirectCost A d' v' ≤ indirectCost A d v := by
  unfold indirectCost
  by_cases h : (∃ k ∈ absent v'.data d' A, NDIRECT < k) ∧
      (d'.addrs NDIRECT = 0 ∨ d'.addrs NDIRECT ∉ v'.lh)
  · obtain ⟨⟨k, hk, hlt⟩, hind⟩ := h
    have hind' : d.addrs NDIRECT = 0 ∨ d.addrs NDIRECT ∉ v.lh := by
      by_cases h0 : d.addrs NDIRECT = 0
      · exact .inl h0
      · rw [hd h0] at hind
        exact .inr fun hmem => hind.resolve_left h0 (hl hmem)
    rw [if_pos ⟨⟨k, hk, hlt⟩, hind⟩, if_pos ⟨⟨k, habs hk, hlt⟩, hind'⟩]
  · rw [if_neg h]
    exact Nat.zero_le _

theorem indirectCost_of_mem (h0 : d.addrs NDIRECT ≠ 0) (h : d.addrs NDIRECT ∈ v.lh) :
    indirectCost A d v = 0 := if_neg fun hc => hc.2.elim h0 fun hn => hn h

theorem indirectCost_of_absent (hk : k ∈ absent v.data d A) (hlt : NDIRECT < k)
    (h : d.addrs NDIRECT = 0 ∨ d.addrs NDIRECT ∉ v.lh) : indirectCost A d v = 1 :=
  if_pos ⟨⟨k, hk, hlt⟩, h⟩

theorem indirectCost_le_one : indirectCost A d v ≤ 1 := by
  unfold indirectCost
  split <;> omega

theorem absent_subset (h : ∀ k ∈ A, blockAt v.data d k ≠ 0 → blockAt v'.data d' k ≠ 0) :
    absent v'.data d' A ⊆ absent v.data d A := by
  intro k hk
  obtain ⟨hA, h0⟩ := Finset.mem_filter.mp hk
  refine Finset.mem_filter.mpr ⟨hA, ?_⟩
  by_contra hne
  exact h k hA hne h0

theorem absent_take {a : ℕ} (hA : A ⊆ Finset.range NPOS) (ha : a ≠ 0)
    (hself : ∀ l < NPOS, blockAt v'.data d' l = if l = k then a else blockAt v.data d l) :
    absent v'.data d' A = (absent v.data d A).erase k := by
  ext l
  unfold absent
  rw [Finset.mem_erase, Finset.mem_filter, Finset.mem_filter]
  by_cases hl : l ∈ A
  · rw [hself l (Finset.mem_range.mp (hA hl))]
    by_cases hlk : l = k
    · rw [if_pos hlk]
      tauto
    · rw [if_neg hlk]
      tauto
  · tauto

theorem mem_absent (hk : k ∈ A) (h0 : blockAt v.data d k = 0) : k ∈ absent v.data d A :=
  Finset.mem_filter.mpr ⟨hk, h0⟩

theorem card_absent_take {a : ℕ} (hA : A ⊆ Finset.range NPOS) (hk : k ∈ A) (ha : a ≠ 0)
    (h0 : blockAt v.data d k = 0)
    (hself : ∀ l < NPOS, blockAt v'.data d' l = if l = k then a else blockAt v.data d l) :
    (absent v'.data d' A).card + 1 = (absent v.data d A).card := by
  rw [absent_take hA ha hself]
  exact Finset.card_erase_add_one (mem_absent hk h0)

end Supply

section Bmap

variable {sb : Superblock} {K : Set ℕ} {A : Finset ℕ} {c k inum : ℕ} {d : Dinode} {v : Volume}

theorem onVol_eq {α : Type} {x : VolM α} {a : α} {v' : Volume} (h : x v = .ok (a, v')) :
    onVol x (d, v) = .ok (a, (d, v')) := by
  unfold onVol
  rw [h]

section

variable (h : VolInv sb K v (viewWith v inum d)) (hsb : sb.WF) (ht : d.type ≠ .free)
  (hA : A ⊆ Finset.range NPOS)

include h hsb ht hA

theorem addrAlloc_take (hk : k ≤ NDIRECT) (hkA : k ∈ A) (h0 : d.addrs k = 0)
    (hfree : (absent v.data d A).card ≤ (freeBlocks sb v).card)
    (hs : Spare sb (c + 1) (absent v.data d A).card v) :
    ∃ a d' v', addrAlloc sb k (d, v) = .ok (a, (d', v')) ∧ a ∈ v'.lh ∧ v.lh ⊆ v'.lh ∧
      d'.addrs = update d.addrs k a ∧ absent v'.data d' A ⊆ absent v.data d A ∧
      (absent v'.data d' A).card ≤ (freeBlocks sb v').card ∧
      Spare sb c (absent v'.data d' A).card v' := by
  have hat : blockAt v.data d k = 0 := by rw [blockAt_addrs _ _ hk, h0]
  obtain ⟨m, hm⟩ := Nat.exists_eq_add_of_lt (Finset.card_pos.mpr ⟨k, mem_absent hkA hat⟩)
  have hne : (freeBlocks sb v).Nonempty := Finset.card_pos.mp (by omega)
  obtain ⟨a, v', hb, hsp, hmem, hsub, hcard⟩ :=
    balloc_returns hne (hs.mono le_rfl (show m + 1 ≤ _ by omega))
  obtain ⟨hlt, hbit, lh, hv'⟩ := balloc_ok hb
  obtain ⟨-, -, ha, hself⟩ := h.takeAddr lh v' hsb ht hk h0 hlt hbit hv'
  have habs := card_absent_take hA hkA ha hat hself
  have hless : absent v'.data { d with addrs := update d.addrs k a } A ⊆ absent v.data d A := by
    rw [absent_take hA ha hself]
    exact Finset.erase_subset _ _
  refine ⟨a, { d with addrs := update d.addrs k a }, v', ?_, hmem, hsub, rfl, hless, by omega,
    hsp.mono le_rfl (by omega)⟩
  unfold addrAlloc
  rw [get_bind]
  dsimp only
  rw [if_pos h0, bind_eq (onVol_eq hb), modify_bind, pure_apply]

theorem addrAlloc_direct (hk : k < NDIRECT) (hkA : k ∈ A) (hs : Supply sb A (c + 1) d v) :
    ∃ a d' v', addrAlloc sb k (d, v) = .ok (a, (d', v')) ∧ v.lh ⊆ v'.lh ∧
      AtHand sb A c a d' v' := by
  by_cases h0 : d.addrs k = 0
  swap
  · exact ⟨_, d, v, addrAlloc_of_ne h0, List.Subset.refl _, .inr hs⟩
  have hspare := hs.spare
  rw [add_right_comm] at hspare
  obtain ⟨a, d', v', hr, hmem, hsub, hd', habs, hfree, hsp⟩ :=
    addrAlloc_take h hsb ht hA hk.le hkA h0 hs.free hspare
  have hcost : indirectCost A d' v' ≤ indirectCost A d v :=
    indirectCost_le (fun _ => by rw [hd', update_of_ne hk.ne']) hsub habs
  exact ⟨a, d', v', hr, hsub, .inl ⟨hmem, hfree, hsp.mono (by omega) le_rfl⟩⟩

theorem addrAlloc_indirect (hkA : NDIRECT ∈ A) (hk : k ∈ A)
    (hlt : NDIRECT < k) (hs : Supply sb A c d v) :
    ∃ a d' v', addrAlloc sb NDIRECT (d, v) = .ok (a, (d', v')) ∧ v.lh ⊆ v'.lh ∧
      Supply sb A c d' v' := by
  by_cases h0 : d.addrs NDIRECT = 0
  swap
  · exact ⟨_, d, v, addrAlloc_of_ne h0, List.Subset.refl _, hs⟩
  -- without the indirect block all its entries are missing
  have hnone : blockAt v.data d k = 0 := by
    rw [blockAt, if_neg (by omega), if_pos h0]
  have hspare := hs.spare
  rw [indirectCost_of_absent (mem_absent hk hnone) hlt (.inl h0)] at hspare
  obtain ⟨a, d', v', hr, hmem, hsub, hd', -, hfree, hsp⟩ :=
    addrAlloc_take h hsb ht hA le_rfl hkA h0 hs.free hspare
  obtain ⟨-, -, ha, hat⟩ := addrAlloc_inv h hsb ht le_rfl hr
  have hcost : indirectCost A d' v' = 0 :=
    indirectCost_of_mem (by rw [hat]; exact ha) (by rw [hat]; exact hmem)
  refine ⟨a, d', v', hr, hsub, hfree, ?_⟩
  rw [hcost]
  exact hsp

theorem indirectAlloc_returns {j : ℕ} (hj : j < NINDIRECT)
    (hjA : NDIRECT + 1 + j ∈ A) (hind : d.addrs NDIRECT ≠ 0) (hs : Supply sb A (c + 1) d v) :
    ∃ a d' v', indirectAlloc sb (d.addrs NDIRECT) j (d, v) = .ok (a, (d', v')) ∧ v.lh ⊆ v'.lh ∧
      AtHand sb A c a d' v' := by
  by_cases h0 : (v.data (d.addrs NDIRECT)).word j = 0
  swap
  · exact ⟨_, d, v, indirectAlloc_of_ne h0, List.Subset.refl _, .inr hs⟩
  have hat : blockAt v.data d (NDIRECT + 1 + j) = 0 := (blockAt_indirect v.data hind j).trans h0
  obtain ⟨m, hm⟩ := Nat.exists_eq_add_of_lt (Finset.card_pos.mpr ⟨_, mem_absent hjA hat⟩)
  have hfree := hs.free
  have hne : (freeBlocks sb v).Nonempty := Finset.card_pos.mp (by omega)
  have hspare : Spare sb (c + indirectCost A d v + 1) (m + 1) v :=
    hs.spare.mono (by omega) (by omega)
  obtain ⟨a, v1, hb, hsp, hmem, hsub, hcard⟩ := balloc_returns hne hspare
  obtain ⟨hlt, hbit, lh, hv1⟩ := balloc_ok hb
  -- the entry is written into the indirect block
  let v2 : Volume := { v1 with
    data := update v1.data (d.addrs NDIRECT) ((v1.data (d.addrs NDIRECT)).setWord j a) }
  have hsp2 : Spare sb (c + indirectCost A d v) m v2 := hsp.congr rfl rfl
  obtain ⟨v3, hw, hsp3, hl⟩ : ∃ v3, logWrite sb (d.addrs NDIRECT) v2 = .ok ((), v3) ∧
      Spare sb c m v3 ∧ Logged (d.addrs NDIRECT) v2 v3 := by
    by_cases hin : d.addrs NDIRECT ∈ v.lh
    · refine ⟨v2, hsp2.logWrite_mem (hsub hin), hsp2.mono (by omega) le_rfl, hsub hin, ?_, rfl⟩
      exact List.Subset.refl _
    · have hcost : indirectCost A d v = 1 :=
        indirectCost_of_absent (mem_absent hjA hat) (by omega) (.inr hin)
      rw [hcost] at hsp2
      exact hsp2.logWrite
  have hv3 : v3 = { v with
      bitmap := update v.bitmap a true
      data := update (update v.data a Block.zero) (d.addrs NDIRECT)
        ((update v.data a Block.zero (d.addrs NDIRECT)).setWord j a)
      lh := v3.lh } := by
    rw [hl.same]
    show ({ v2 with lh := v3.lh } : Volume) = _
    unfold v2
    rw [hv1]
  obtain ⟨-, -, ha, hself⟩ := h.takeEntry v3.lh v3 hsb ht hj hind h0 hlt hbit hv3
  have habs := card_absent_take hA hjA ha hat hself
  have hfree3 : freeBlocks sb v3 = freeBlocks sb v1 := by
    unfold freeBlocks
    rw [hl.same]
  refine ⟨a, d, v3, ?_, fun x hx => hl.subset (hsub hx), .inl ⟨hl.subset hmem, ?_, ?_⟩⟩
  · unfold indirectAlloc
    rw [get_bind]
    dsimp only
    rw [if_pos h0, bind_eq (onVol_eq hb), modify_bind]
    exact bind_eq (onVol_eq hw)
  · rw [hfree3]
    omega
  · rw [indirectCost_of_mem hind hl.mem]
    exact hsp3.mono le_rfl (by omega)

theorem bmap_returns {bn : ℕ} (hbn : bn < MAXFILE) (hbnA : slots bn ⊆ A)
    (hs : Supply sb A (c + 1) d v) :
    ∃ a d' v', bmap sb bn (d, v) = .ok (a, (d', v')) ∧ v.lh ⊆ v'.lh ∧ AtHand sb A c a d' v' := by
  unfold bmap
  by_cases hd : bn < NDIRECT
  · rw [if_pos hd]
    refine addrAlloc_direct h hsb ht hA hd (hbnA ?_) hs
    rw [slots, if_pos hd]
    exact Finset.mem_singleton_self bn
  · have hj : bn - NDIRECT < NINDIRECT := by unfold MAXFILE at hbn; omega
    rw [slots, if_neg hd] at hbnA
    rw [if_neg hd, if_pos hj]
    obtain ⟨ind, d1, v1, h1, hsub1, hs1⟩ :=
      addrAlloc_indirect h hsb ht hA (hbnA (by simp)) (hbnA (by simp)) (k := bn + 1) (by omega) hs
    obtain ⟨hv1, hg1, hind, hadd⟩ := addrAlloc_inv h hsb ht le_rfl h1
    dsimp only at hv1 hg1 hadd
    subst hadd
    have ht1 : d1.type ≠ .free := by rw [hg1.same]; exact ht
    have hslot : NDIRECT + 1 + (bn - NDIRECT) = bn + 1 := by omega
    rw [bind_eq h1]
    obtain ⟨a, d2, v2, h2, hsub2, hs2⟩ :=
      indirectAlloc_returns hv1 hsb ht1 hA hj (hslot ▸ hbnA (by simp)) hind hs1
    exact ⟨a, d2, v2, h2, fun x hx => hsub2 (hsub1 hx), hs2⟩

end

end Bmap

/-! ## `writei` returns -/

section Write

variable {sb : Superblock} {K : Set ℕ} {A : Finset ℕ} {c e inum off : ℕ} {d : Dinode} {v : Volume}

theorem touched_step (off : ℕ) {n m : ℕ} (hn : 0 < n) (hm : m = min n (BSIZE - off % BSIZE)) :
    touched off n = insert (off / BSIZE) (touched (off + m) (n - m)) ∧
      off / BSIZE ∉ touched (off + m) (n - m) := by
  have hB : off % BSIZE < BSIZE := Nat.mod_lt _ (by decide)
  have hsame : ∀ i < m, (off + i) / BSIZE = off / BSIZE := fun i hi =>
    (div_mod_add off i (by omega)).1
  have hmem : ∀ {o l bn : ℕ}, bn ∈ touched o l ↔ ∃ i < l, (o + i) / BSIZE = bn := by
    intro o l bn
    unfold touched
    simp only [Finset.mem_image, Finset.mem_range]
  constructor
  · ext bn
    rw [Finset.mem_insert, hmem, hmem]
    constructor
    · rintro ⟨i, hi, rfl⟩
      by_cases him : i < m
      · exact .inl (hsame i him)
      · refine .inr ⟨i - m, by omega, ?_⟩
        rw [Nat.add_assoc, Nat.add_sub_cancel' (by omega)]
    · rintro (rfl | ⟨i, hi, rfl⟩)
      · exact ⟨0, hn, rfl⟩
      · exact ⟨m + i, by omega, by rw [Nat.add_assoc]⟩
  · rw [hmem]
    rintro ⟨i, hi, hdiv⟩
    -- the rest starts at the boundary of the next block
    have hnext : (off / BSIZE + 1) * BSIZE ≤ off + m + i := by
      have := Nat.mod_add_div' off BSIZE
      rw [Nat.add_mul]
      omega
    have := (Nat.le_div_iff_mul_le (by decide : 0 < BSIZE)).mpr hnext
    omega

theorem AtHand.logWrite {a : ℕ} (v' : Volume) (h : AtHand sb A c a d v)
    (hv' : ∀ k ∈ A, blockAt v.data d k ≠ 0 → blockAt v'.data d k ≠ 0)
    (hsame : v' = { v with data := v'.data }) :
    ∃ v'', Fs.logWrite sb a v' = .ok ((), v'') ∧ v'' = { v' with lh := v''.lh } ∧
      v.lh ⊆ v''.lh ∧ Supply sb A c d v'' := by
  have hsub := absent_subset hv'
  have habs := Finset.card_le_card hsub
  have hlh : v'.lh = v.lh := by rw [hsame]
  have hout : v'.outstanding = v.outstanding := by rw [hsame]
  have hfree : freeBlocks sb v' = freeBlocks sb v := by
    unfold freeBlocks
    rw [hsame]
  have hcost : indirectCost A d v' ≤ indirectCost A d v :=
    indirectCost_le (fun _ => rfl) (by rw [hlh]; exact List.Subset.refl _) hsub
  rcases h with ⟨hmem, hs⟩ | hs
  · have hsp : Spare sb (c + indirectCost A d v) _ v' := hs.spare.congr hout hlh
    refine ⟨v', hsp.logWrite_mem (hlh ▸ hmem), rfl, by rw [hlh]; exact List.Subset.refl _, ?_,
      hsp.mono (by omega) habs⟩
    rw [hfree]
    exact habs.trans hs.free
  · have hsp : Spare sb (c + 1 + indirectCost A d v) _ v' := hs.spare.congr hout hlh
    rw [add_right_comm] at hsp
    obtain ⟨v'', hw, hsp', hl⟩ := Spare.logWrite (b := a) hsp
    have hdata : v''.data = v'.data := by rw [hl.same]
    have hbits : freeBlocks sb v'' = freeBlocks sb v' := by
      unfold freeBlocks
      rw [hl.same]
    have hcost' : indirectCost A d v'' ≤ indirectCost A d v' :=
      indirectCost_le (fun _ => rfl) hl.subset (by rw [hdata])
    refine ⟨v'', hw, hl.same, hlh ▸ hl.subset, ?_, ?_⟩
    · rw [hdata, hbits, hfree]
      exact habs.trans hs.free
    · rw [hdata]
      exact hsp'.mono (by omega) habs

/-- The blocks of `T` that are missing or not in the header. -/
def unlogged (T : Finset ℕ) (d : Dinode) (v : Volume) : Finset ℕ :=
  T.filter fun bn => blockAt v.data d (filePos bn) = 0 ∨ blockAt v.data d (filePos bn) ∉ v.lh

theorem unlogged_subset {T : Finset ℕ} {d' : Dinode} {v' : Volume} (hT : ∀ bn ∈ T, bn < MAXFILE)
    (hkeep : ∀ k < NPOS, blockAt v.data d k ≠ 0 → blockAt v'.data d' k = blockAt v.data d k)
    (hl : v.lh ⊆ v'.lh) : unlogged T d' v' ⊆ unlogged T d v := by
  intro bn hbn
  obtain ⟨hmem, h⟩ := Finset.mem_filter.mp hbn
  refine Finset.mem_filter.mpr ⟨hmem, ?_⟩
  by_contra hc
  rw [not_or, not_not] at hc
  rw [hkeep _ (filePos_lt (hT bn hmem)) hc.1] at h
  exact h.elim hc.1 fun hn => hn (hl hc.2)

theorem bmap_atHand {bn : ℕ} {T : Finset ℕ} (h : VolInv sb K v (viewWith v inum d)) (hsb : sb.WF)
    (ht : d.type ≠ .free) (hA : A ⊆ Finset.range NPOS) (hbn : bn < MAXFILE) (hbnA : slots bn ⊆ A)
    (hnot : bn ∉ T) (hs : Supply sb A (e + (unlogged (insert bn T) d v).card) d v) :
    ∃ a d' v', bmap sb bn (d, v) = .ok (a, (d', v')) ∧ v.lh ⊆ v'.lh ∧
      AtHand sb A (e + (unlogged T d v).card) a d' v' := by
  unfold unlogged at hs
  rw [Finset.filter_insert] at hs
  split at hs
  next hnew =>
    rw [Finset.card_insert_of_notMem fun hc => hnot (Finset.mem_filter.mp hc).1] at hs
    exact bmap_returns h hsb ht hA hbn hbnA hs
  next hold =>
    rw [not_or, not_not] at hold
    exact ⟨_, d, v, bmap_of_ne hbn hold.1, List.Subset.refl _, .inl ⟨hold.2, hs⟩⟩

theorem writeLoop_returns {fuel : ℕ} {src : List UInt8} (hf : src.length ≤ fuel)
    (h : VolInv sb K v (viewWith v inum d)) (hsb : sb.WF) (ht : d.type ≠ .free)
    (hA : A ⊆ Finset.range NPOS) (hT : ∀ bn ∈ touched off src.length, bn < MAXFILE ∧ slots bn ⊆ A)
    (hs : Supply sb A (e + (unlogged (touched off src.length) d v).card) d v) :
    ∃ d' v', writeLoop sb fuel off src (d, v) = .ok ((), (d', v')) ∧ Supply sb A e d' v' := by
  induction fuel generalizing off src d v with
  | zero => exact ⟨d, v, rfl, hs.mono (by omega)⟩
  | succ fuel ih =>
    unfold writeLoop
    by_cases hn : src = []
    · rw [if_pos hn]
      exact ⟨d, v, rfl, hs.mono (by omega)⟩
    have hpos : 0 < src.length := List.length_pos_iff.mpr hn
    have hB : off % BSIZE < BSIZE := Nat.mod_lt _ (by decide)
    obtain ⟨m, hm⟩ : ∃ m, m = min src.length (BSIZE - off % BSIZE) := ⟨_, rfl⟩
    obtain ⟨hstep, hnot⟩ := touched_step off hpos hm
    have hlen : (src.drop m).length = src.length - m := List.length_drop
    have htake : (src.take m).length = m := List.length_take_of_le (by omega)
    rw [hstep] at hs
    obtain ⟨hbn, hslots⟩ := hT (off / BSIZE) (by rw [hstep]; exact Finset.mem_insert_self _ _)
    obtain ⟨a, d1, v1, hmap, hlh, hs1⟩ := bmap_atHand h hsb ht hA hbn hslots hnot hs
    obtain ⟨hv1, hg, -, ha, hat, -⟩ := bmap_inv h hsb ht hmap
    dsimp only at hv1 hg hat
    have ht1 : d1.type ≠ .free := by rw [hg.same]; exact ht
    have hback : Backed v1.data d1 off := ⟨hbn, by rw [hat]; exact ha⟩
    -- the bytes are written; no block number changes
    obtain ⟨v2, hv2⟩ : ∃ v2 : Volume, v2 = { v1 with
      data := update v1.data a (blit (v1.data a) (off % BSIZE) (src.take m)) } := ⟨_, rfl⟩
    have hblit : v2 = { v1 with
        data := update v1.data (blockAt v1.data d1 (filePos (off / BSIZE)))
          (blit (v1.data (blockAt v1.data d1 (filePos (off / BSIZE)))) (off % BSIZE) (src.take m))
        lh := v1.lh } := by
      rw [hv2, hat]
    obtain ⟨hinv, hw⟩ := blit_inv off (src.take m) v1.lh v2 hv1 ht1 hback (by omega) hblit
    obtain ⟨v3, hlog, hv3, hlh3, hs3⟩ := hs1.logWrite v2
      (fun k hk h0 => by rw [hw.keep k (Finset.mem_range.mp (hA hk)) h0]; exact h0) (by rw [hv2])
    have hinv3 : VolInv sb K v3 (viewWith v3 inum d1) := by
      rw [hv3]
      exact ⟨hinv.owns, hinv.low, hinv.noHole⟩
    rw [if_neg hn, bind_eq hmap]
    dsimp only
    rw [← hm, modify_bind]
    dsimp only
    rw [← hv2, bind_eq (onVol_eq hlog)]
    have hT' : ∀ bn ∈ touched (off + m) (src.length - m), bn < MAXFILE ∧ slots bn ⊆ A :=
      fun bn hbn => hT bn (hstep ▸ Finset.mem_insert_of_mem hbn)
    rw [← hlen] at hT' hs3
    refine ih (by omega) hinv3 ht1 hT' (hs3.mono (Nat.add_le_add_left (Finset.card_le_card ?_) _))
    refine unlogged_subset (fun bn hbn => (hT' bn hbn).1) (fun k hk h0 => ?_)
      fun x hx => hlh3 (hlh hx)
    have hkeep := hg.keep k hk h0
    rw [hv3, ← hkeep]
    exact hw.keep k hk (by rw [hkeep]; exact h0)

def slotsOf (off n : ℕ) : Finset ℕ := (touched off n).biUnion slots

def missing (data : ℕ → Block) (d : Dinode) (off n : ℕ) : ℕ := (absent data d (slotsOf off n)).card

/-- The header has room for the blocks that hold the bytes and are missing or not in it, for the
indirect block if an entry of it is missing, for the bits of the blocks to allocate, and for the
block of the inode. -/
def LogRoom (sb : Superblock) (v : Volume) (d : Dinode) (off n : ℕ) : Prop :=
  0 < v.outstanding ∧
    v.lh.length + (unlogged (touched off n) d v).card + indirectCost (slotsOf off n) d v +
      min (missing v.data d off n) (bitmapBlocks sb \ v.lh.toFinset).card + 1 ≤ logCapacity sb

theorem slots_subset {bn : ℕ} (h : bn < MAXFILE) : slots bn ⊆ Finset.range NPOS := by
  intro k hk
  unfold slots at hk
  unfold MAXFILE at h
  rw [Finset.mem_range]
  unfold NPOS
  split at hk <;> simp at hk <;> omega

theorem touched_lt {n : ℕ} (h : off + n ≤ MAXFILE * BSIZE) : ∀ bn ∈ touched off n,
    bn < MAXFILE := by
  intro bn hbn
  obtain ⟨i, hi, rfl⟩ := Finset.mem_image.mp hbn
  have := Finset.mem_range.mp hi
  exact Nat.div_lt_of_lt_mul (by rw [Nat.mul_comm]; omega)

theorem slotsOf_subset {n : ℕ} (h : off + n ≤ MAXFILE * BSIZE) :
    slotsOf off n ⊆ Finset.range NPOS :=
  Finset.biUnion_subset.mpr fun bn hbn => slots_subset (touched_lt h bn hbn)

theorem missing_le {n : ℕ} (h : off + n ≤ MAXFILE * BSIZE) : missing v.data d off n ≤ NPOS := by
  have hsub : absent v.data d (slotsOf off n) ⊆ Finset.range NPOS :=
    (Finset.filter_subset _ _).trans (slotsOf_subset h)
  have hle := Finset.card_le_card hsub
  rwa [Finset.card_range] at hle

/-- **`writei` returns.** -/
theorem writei_returns {src : List UInt8} (h : VolInv sb K v v.dinode) (hsb : sb.WF)
    (hd : v.dinode inum = d) (ht : d.type ≠ .free) (hoff : off ≤ d.size)
    (hmax : off + src.length ≤ MAXFILE * BSIZE)
    (hfree : missing v.data d off src.length ≤ (freeBlocks sb v).card)
    (hlog : LogRoom sb v d off src.length) :
    ∃ d' v', writei sb inum off src (d, v) = .ok (some src.length, (d', v')) := by
  have hview : viewWith v inum d = v.dinode := by
    rw [viewWith, ← hd, update_eq_self]
  have hA := slotsOf_subset hmax
  -- the unit for the inode is not among those of the loop: `log_write` only needs that one is left
  have hs : Supply sb (slotsOf off src.length)
      (0 + (unlogged (touched off src.length) d v).card) d v := by
    refine ⟨hfree, hlog.1, ?_⟩
    have hroom := hlog.2
    unfold missing at hroom
    omega
  obtain ⟨d1, v1, hloop, hs1⟩ := writeLoop_returns le_rfl (by rwa [hview]) hsb ht hA
    (fun bn hbn => ⟨touched_lt hmax bn hbn, Finset.subset_biUnion_of_mem slots hbn⟩) hs
  have hlarge : MAXFILE * BSIZE < 2 ^ 32 := by decide
  unfold writei
  rw [get_bind]
  dsimp only
  rw [if_neg (by omega), if_neg (by omega), bind_eq hloop]
  split
  · rw [modify_bind]
    unfold iupdate
    dsimp only
    exact ⟨_, _, bind_eq ((bind_eq (onVol_eq hs1.spare.logWrite_eq)).trans rfl)⟩
  · exact ⟨d1, v1, rfl⟩

end Write

/-! ## The byte array -/

def contents (v : Volume) (d : Dinode) : List UInt8 := (List.range d.size).map (byteAt v.data d)

/-- What `writei` has to do: in memory and on disk the inode has the new contents, and no other
inode is affected. -/
structure Written (sb : Superblock) (K : Set ℕ) (inum off : ℕ) (src : List UInt8) (d : Dinode)
    (v : Volume) (d' : Dinode) (v' : Volume) : Prop where
  contents : contents v' d' =
    (contents v d).take off ++ src ++ (contents v d).drop (off + src.length)
  same : d' = { d with size := max d.size (off + src.length), addrs := d'.addrs }
  disk : v'.dinode = update v.dinode inum d'
  others : ∀ j, j ≠ inum → (v.dinode j).type ≠ .free →
    Fs.contents v' (v'.dinode j) = Fs.contents v (v.dinode j)
  inv : VolInv sb K v' v'.dinode

section ByteArray

variable {sb : Superblock} {K : Set ℕ} {inum off n : ℕ} {src : List UInt8} {d d' : Dinode}
  {v v' : Volume}

theorem length_contents (v : Volume) (d : Dinode) : (contents v d).length = d.size := by
  unfold contents
  rw [List.length_map, List.length_range]

theorem getElem_contents {m : ℕ} (h : m < (contents v d).length) :
    (contents v d)[m] = byteAt v.data d m := by
  simp only [contents, List.getElem_map, List.getElem_range]

theorem readi_contents (h : NoHole v.data d) (hoff : off ≤ d.size) (hlt : off + n < 2 ^ 32) :
    readi sb off n (d, v) = .ok (some (((contents v d).drop off).take n), (d, v)) := by
  rw [readi_eq h, if_neg (by omega)]
  congr 3
  refine List.ext_getElem ?_ fun i h1 h2 => ?_
  · rw [List.length_map, List.length_range, List.length_take, List.length_drop, length_contents]
  · rw [List.getElem_map, List.getElem_range, List.getElem_take, List.getElem_drop,
      getElem_contents]

theorem contents_splice (hsize : d'.size = max d.size (off + src.length)) (hoff : off ≤ d.size)
    (hin : ∀ i < src.length, byteAt v'.data d' (off + i) = src.getD i 0)
    (hout : ∀ m < d.size, m < off ∨ off + src.length ≤ m →
      byteAt v'.data d' m = byteAt v.data d m) :
    contents v' d' = (contents v d).take off ++ src ++ (contents v d).drop (off + src.length) := by
  have htake : ((contents v d).take off).length = off :=
    List.length_take_of_le (by rw [length_contents]; exact hoff)
  refine List.ext_getElem ?_ fun m h1 h2 => ?_
  · rw [List.length_append, List.length_append, htake, List.length_drop, length_contents,
      length_contents]
    omega
  rw [length_contents] at h1
  rw [getElem_contents]
  by_cases hm : m < off
  · rw [List.getElem_append_left (by rw [List.length_append]; omega),
      List.getElem_append_left (by omega), List.getElem_take, getElem_contents,
      hout m (by omega) (.inl hm)]
  by_cases hm' : m < off + src.length
  · rw [List.getElem_append_left (by rw [List.length_append]; omega),
      List.getElem_append_right (by omega)]
    have := hin (m - off) (by omega)
    rw [Nat.add_sub_cancel' (by omega), List.getD_eq_getElem?_getD,
      List.getElem?_eq_getElem (by omega), Option.getD_some] at this
    rw [this]
    congr 1
    omega
  · rw [List.getElem_append_right (by rw [List.length_append]; omega), List.getElem_drop,
      getElem_contents, hout m (by omega) (.inr (by omega))]
    congr 1
    rw [List.length_append]
    omega

theorem writei_written (h : VolInv sb K v v.dinode) (hsb : sb.WF) (hd : v.dinode inum = d)
    (ht : d.type ≠ .free) (hr : writei sb inum off src (d, v) = .ok (some src.length, (d', v'))) :
    Written sb K inum off src d v d' v' := by
  rcases writei_inv h hsb hd ht hr with ⟨hnone, -⟩ | ⟨-, hoff, hinv, hdisk, hsame, v1, hdata, hw⟩
  · cases hnone
  dsimp only at hinv hdisk hsame hdata
  have hnohole : NoHole v.data d := hd ▸ h.noHole inum (hd ▸ ht)
  refine ⟨contents_splice (by rw [hsame]) hoff (fun i hi => ?_) (fun m hm hout => ?_), hsame, hdisk,
    fun j hj hjt => ?_, hinv⟩
  · have := hw.written i hi
    rwa [hdata] at this
  · have := hw.kept m hout (hnohole.backed hm)
    rwa [hdata] at this
  · rw [hdisk, update_of_ne hj]
    refine List.map_congr_left fun m hm => ?_
    have := hw.otherBytes j hj hjt m ((h.noHole j hjt).backed (List.mem_range.mp hm))
    rwa [hdata] at this

/-- **`readi` and `writei` implement a byte array.** -/
theorem inode_byte_array (h : VolInv sb K v v.dinode) (hsb : sb.WF) (hd : v.dinode inum = d)
    (ht : d.type = .file ∨ d.type = .dir) (off n : ℕ) (src : List UInt8) :
    (off ≤ d.size → off + n < 2 ^ 32 →
      readi sb off n (d, v) = .ok (some (((contents v d).drop off).take n), (d, v))) ∧
    (d.size < off ∨ 2 ^ 32 ≤ off + n → readi sb off n (d, v) = .ok (none, (d, v))) ∧
    (off ≤ d.size → off + src.length ≤ MAXFILE * BSIZE →
      missing v.data d off src.length ≤ (freeBlocks sb v).card →
      LogRoom sb v d off src.length →
      ∃ d' v', writei sb inum off src (d, v) = .ok (some src.length, (d', v')) ∧
        Written sb K inum off src d v d' v') ∧
    (d.size < off ∨ 2 ^ 32 ≤ off + src.length ∨ MAXFILE * BSIZE < off + src.length →
      writei sb inum off src (d, v) = .ok (none, (d, v))) := by
  have ht' : d.type ≠ .free := by rcases ht with ht | ht <;> rw [ht] <;> decide
  have hnohole : NoHole v.data d := hd ▸ h.noHole inum (hd ▸ ht')
  refine ⟨readi_contents hnohole, fun hc => ?_, fun hoff hmax hfree hlog => ?_, fun hc => ?_⟩
  · rw [readi_eq hnohole, if_pos hc]
  · obtain ⟨d', v', hr⟩ := writei_returns h hsb hd ht' hoff hmax hfree hlog
    exact ⟨d', v', hr, writei_written h hsb hd ht' hr⟩
  · unfold writei
    rw [get_bind]
    dsimp only
    by_cases h1 : d.size < off ∨ 2 ^ 32 ≤ off + src.length
    · rw [if_pos h1]
      rfl
    · rw [if_neg h1, if_pos (by omega)]
      rfl

end ByteArray

def openDisk : Volume := { bareDisk with outstanding := 1 }

theorem openDisk_inv : VolInv sb0 (dataArea sb0) openDisk openDisk.dinode :=
  ⟨bareDisk_inv.owns, bareDisk_inv.low, bareDisk_inv.noHole⟩

theorem card_touched_le (off : ℕ) {n : ℕ} (hn : 0 < n) :
    (touched off n).card ≤ (off + n - 1) / BSIZE + 1 - off / BSIZE := by
  have hsub : touched off n ⊆ Finset.Ico (off / BSIZE) ((off + n - 1) / BSIZE + 1) := by
    intro bn hbn
    obtain ⟨i, hi, rfl⟩ := Finset.mem_image.mp hbn
    have hlt := Finset.mem_range.mp hi
    refine Finset.mem_Ico.mpr ⟨Nat.div_le_div_right (by omega), Nat.lt_succ_of_le ?_⟩
    exact Nat.div_le_div_right (by omega)
  exact (Finset.card_le_card hsub).trans (Nat.card_Ico _ _).le

theorem logRoom_of_le {sb : Superblock} {v : Volume} {d : Dinode} {off n a b : ℕ}
    (hin : 0 < v.outstanding) (ha : (touched off n).card ≤ a) (hb : (bitmapBlocks sb).card ≤ b)
    (h : v.lh.length + a + 1 + b + 1 ≤ logCapacity sb) : LogRoom sb v d off n := by
  have hdata : (unlogged (touched off n) d v).card ≤ a := (Finset.card_filter_le _ _).trans ha
  have hbits : (bitmapBlocks sb \ v.lh.toFinset).card ≤ b :=
    (Finset.card_le_card Finset.sdiff_subset).trans hb
  have hind : indirectCost (slotsOf off n) d v ≤ 1 := indirectCost_le_one
  refine ⟨hin, ?_⟩
  omega

theorem bitmapBlocks_sb0 : (bitmapBlocks sb0).card ≤ 1 := by
  refine Finset.card_le_one_iff_subset_singleton.mpr ⟨58, fun b hb => ?_⟩
  obtain ⟨x, hx, rfl⟩ := Finset.mem_image.mp hb
  have hlt : x < 1000 := Finset.mem_range.mp hx
  rw [Finset.mem_singleton]
  show x / 4096 + 58 = 58
  omega

/-- Twenty-six blocks are appended to the root directory: with the indirect block, the block of the
bit map and that of the inode the header is full. -/
theorem inode_byte_array_append : ∃ d' v',
    writei sb0 ROOTINO BSIZE (List.replicate (26 * BSIZE) 1) (bareRoot, openDisk) =
        .ok (some (26 * BSIZE), (d', v')) ∧
      Written sb0 (dataArea sb0) ROOTINO BSIZE (List.replicate (26 * BSIZE) 1) bareRoot openDisk
        d' v' := by
  have hlen : (List.replicate (26 * BSIZE) (1 : UInt8)).length = 26 * BSIZE := List.length_replicate
  have hmax : BSIZE + 26 * BSIZE ≤ MAXFILE * BSIZE := by decide
  have hfree : missing openDisk.data bareRoot BSIZE (26 * BSIZE) ≤ (freeBlocks sb0 openDisk).card :=
    (missing_le hmax).trans (by decide +kernel)
  have hlog : LogRoom sb0 openDisk bareRoot BSIZE (26 * BSIZE) := by
    refine logRoom_of_le (by decide) ((card_touched_le BSIZE (by decide)).trans
      (show _ ≤ 26 by decide)) bitmapBlocks_sb0 (by decide)
  obtain ⟨-, -, h, -⟩ := inode_byte_array openDisk_inv sb0_wf
    (show openDisk.dinode ROOTINO = bareRoot from rfl) (.inr rfl) BSIZE 0
    (List.replicate (26 * BSIZE) 1)
  rw [hlen] at h
  exact h le_rfl hmax hfree hlog

/-- A write of 28 blocks does not fit in a transaction. -/
theorem writei_too_big : VolInv sb0 (dataArea sb0) openDisk openDisk.dinode ∧ sb0.WF ∧
    openDisk.dinode ROOTINO = bareRoot ∧ BSIZE ≤ bareRoot.size ∧
    BSIZE + (List.replicate (28 * BSIZE) (0 : UInt8)).length ≤ MAXFILE * BSIZE ∧
    missing openDisk.data bareRoot BSIZE (28 * BSIZE) ≤ (freeBlocks sb0 openDisk).card ∧
    openDisk.lh = [] ∧ writei sb0 ROOTINO BSIZE (List.replicate (28 * BSIZE) 0)
      (bareRoot, openDisk) = .error (.log .tooBig) := by
  refine ⟨openDisk_inv, sb0_wf, rfl, le_rfl, ?_, ?_, rfl, ?_⟩
  · rw [List.length_replicate]
    decide
  · exact (missing_le (by decide)).trans (by decide +kernel)
  · have hpanic : (match writei sb0 ROOTINO BSIZE (List.replicate (28 * BSIZE) 0)
        (bareRoot, openDisk) with
      | .ok _ => none
      | .error e => some e) = some (.log .tooBig) := by decide +kernel
    generalize writei sb0 ROOTINO BSIZE (List.replicate (28 * BSIZE) 0) (bareRoot, openDisk) = r
      at hpanic ⊢
    cases r with
    | ok _ => cases hpanic
    | error e => rw [Option.some.inj hpanic]

end Xv6.Fs
