import Xv6.Fs.Ownership

/-!
# The bytes of an inode

`byteAt` is byte `m` of an inode. On a consistent disk `readi` returns the bytes it is asked for and
changes nothing (`readi_eq`), and `writei` changes exactly the bytes it is given and, past the end,
the size (`writei_inv`): no other inode is affected.
-/

namespace Xv6.Fs

open Function StateExcept Ownership

def byteAt (data : ℕ → Block) (d : Dinode) (m : ℕ) : UInt8 :=
  data (blockAt data d (filePos (m / BSIZE))) (m % BSIZE)

section

variable {sb : Superblock} {v : Volume} {d : Dinode}

def Backed (data : ℕ → Block) (d : Dinode) (m : ℕ) : Prop :=
  m / BSIZE < MAXFILE ∧ blockAt data d (filePos (m / BSIZE)) ≠ 0

theorem NoHole.backed {data : ℕ → Block} (h : NoHole data d) {m : ℕ} (hm : m < d.size) :
    Backed data d m :=
  h (m / BSIZE) (lt_of_le_of_lt (Nat.div_mul_le_self m BSIZE) hm)

theorem NoHole.size_le {data : ℕ → Block} (h : NoHole data d) : d.size ≤ MAXFILE * BSIZE := by
  by_contra hlt
  exact absurd (h MAXFILE (not_le.mp hlt)).1 (lt_irrefl _)

theorem div_mod_add (off i : ℕ) (h : off % BSIZE + i < BSIZE) :
    (off + i) / BSIZE = off / BSIZE ∧ (off + i) % BSIZE = off % BSIZE + i := by
  have hB : (0 : ℕ) < BSIZE := by decide
  have hsplit : off + i = off % BSIZE + i + BSIZE * (off / BSIZE) := by
    have := Nat.mod_add_div off BSIZE
    omega
  constructor
  · rw [hsplit, Nat.add_mul_div_left _ _ hB, Nat.div_eq_of_lt h, Nat.zero_add]
  · rw [hsplit, Nat.add_mul_mod_self_left, Nat.mod_eq_of_lt h]

/-! ## Reading -/

theorem readLoop_eq {fuel off n : ℕ} (hf : n ≤ fuel) (hb : ∀ i < n, Backed v.data d (off + i)) :
    readLoop sb fuel off n (d, v) =
      .ok ((List.range n).map fun i => byteAt v.data d (off + i), (d, v)) := by
  induction fuel generalizing off n with
  | zero =>
    obtain rfl : n = 0 := by omega
    rfl
  | succ fuel ih =>
    unfold readLoop
    by_cases hn : n = 0
    · subst hn
      rfl
    have h0 := hb 0 (by omega)
    rw [Nat.add_zero] at h0
    have hB : off % BSIZE < BSIZE := Nat.mod_lt _ (by decide)
    -- one block is read, the induction hypothesis reads the rest
    obtain ⟨m, hm⟩ : ∃ m, m = min n (BSIZE - off % BSIZE) := ⟨_, rfl⟩
    have hmn : m ≤ n := by omega
    have hb' : ∀ i < n - m, Backed v.data d (off + m + i) := fun i hi => by
      rw [Nat.add_assoc]
      exact hb (m + i) (by omega)
    have ih' := ih (by omega) hb'
    rw [if_neg hn, bind_eq (bmap_of_ne h0.1 h0.2), get_bind]
    dsimp only
    rw [← hm, bind_eq ih', pure_apply]
    have hhead : ((List.range m).map fun i =>
        v.data (blockAt v.data d (filePos (off / BSIZE))) (off % BSIZE + i)) =
        (List.range m).map fun i => byteAt v.data d (off + i) := by
      apply List.map_congr_left
      intro i hi
      have hi := List.mem_range.mp hi
      obtain ⟨h1, h2⟩ := div_mod_add off i (by omega)
      unfold byteAt
      rw [h1, h2]
    have hsplit : List.range n = List.range m ++ (List.range (n - m)).map (m + ·) := by
      rw [← List.range_add, Nat.add_sub_cancel' hmn]
    rw [hhead, hsplit, List.map_append, List.map_map]
    congr 3
    apply List.map_congr_left
    intro i _
    rw [Function.comp_apply, Nat.add_assoc]

/-- **`readi`.** On an inode without holes it returns the bytes of the range that lie in the file,
and changes nothing. -/
theorem readi_eq (h : NoHole v.data d) (off n : ℕ) :
    readi sb off n (d, v) = .ok (if d.size < off ∨ 2 ^ 32 ≤ off + n then none
      else some ((List.range (min n (d.size - off))).map fun i => byteAt v.data d (off + i)),
      (d, v)) := by
  unfold readi
  rw [get_bind]
  dsimp only
  by_cases hc : d.size < off ∨ 2 ^ 32 ≤ off + n
  · rw [if_pos hc, if_pos hc, pure_apply]
  · rw [if_neg hc, if_neg hc]
    have hn : (if d.size < off + n then d.size - off else n) = min n (d.size - off) := by
      split <;> omega
    rw [hn, bind_eq (readLoop_eq le_rfl fun i hi => h.backed (by omega)), pure_apply]

/-! ## Writing -/

structure Wrote (inum off : ℕ) (src : List UInt8) (d : Dinode) (v : Volume) (d' : Dinode)
    (v' : Volume) : Prop where
  same : d' = { d with addrs := d'.addrs }
  dinode : v'.dinode = v.dinode
  keep : ∀ k < NPOS, blockAt v.data d k ≠ 0 → blockAt v'.data d' k = blockAt v.data d k
  others : ∀ j, j ≠ inum → (v.dinode j).type ≠ .free → ∀ k,
    blockAt v'.data (v.dinode j) k = blockAt v.data (v.dinode j) k
  otherBytes : ∀ j, j ≠ inum → (v.dinode j).type ≠ .free → ∀ m, Backed v.data (v.dinode j) m →
    byteAt v'.data (v.dinode j) m = byteAt v.data (v.dinode j) m
  backed : ∀ i < src.length, Backed v'.data d' (off + i)
  written : ∀ i < src.length, byteAt v'.data d' (off + i) = src.getD i 0
  kept : ∀ m, m < off ∨ off + src.length ≤ m → Backed v.data d m →
    byteAt v'.data d' m = byteAt v.data d m
  addrs : (∀ i < src.length, Backed v.data d (off + i)) → d' = d
  fresh : ∀ m, m < off ∨ off + src.length ≤ m → ¬ Backed v.data d m → Backed v'.data d' m →
    byteAt v'.data d' m = 0

theorem Wrote.backed_of {inum off m : ℕ} {src : List UInt8} {d' : Dinode} {v' : Volume}
    (h : Wrote inum off src d v d' v') (hm : Backed v.data d m) : Backed v'.data d' m :=
  ⟨hm.1, by rw [h.keep _ (filePos_lt hm.1) hm.2]; exact hm.2⟩

theorem Wrote.noHole {inum off : ℕ} {src : List UInt8} {d' : Dinode} {v' : Volume}
    (h : Wrote inum off src d v d' v') (h' : NoHole v'.data d') (hoff : off ≤ d.size) :
    NoHole v'.data { d' with size := off + src.length } := by
  intro n hn
  have hB : (0 : ℕ) < BSIZE := by decide
  show n < MAXFILE ∧ blockAt v'.data d' (filePos n) ≠ 0
  dsimp only at hn
  by_cases hold : n * BSIZE < d.size
  · exact h' n (by rw [h.same]; exact hold)
  · have := h.backed (n * BSIZE - off) (by omega)
    rw [Nat.add_sub_cancel' (by omega)] at this
    unfold Backed at this
    rwa [Nat.mul_div_cancel _ hB] at this

theorem Wrote.nil (inum off : ℕ) (d : Dinode) (v : Volume) : Wrote inum off [] d v d v where
  same := rfl
  dinode := rfl
  keep _ _ _ := rfl
  others _ _ _ _ := rfl
  otherBytes _ _ _ _ _ := rfl
  backed i hi := absurd hi (Nat.not_lt_zero i)
  written i hi := absurd hi (Nat.not_lt_zero i)
  kept _ _ _ := rfl
  addrs _ := rfl
  fresh _ _ hb hb' := absurd hb' hb

theorem Wrote.append {inum off : ℕ} {src1 src2 : List UInt8} {d₁ d2 : Dinode} {v₁ v2 : Volume}
    (h1 : Wrote inum off src1 d v d₁ v₁) (h2 : Wrote inum (off + src1.length) src2 d₁ v₁ d2 v2) :
    Wrote inum off (src1 ++ src2) d v d2 v2 := by
  have hlen : (src1 ++ src2).length = src1.length + src2.length := List.length_append
  have hother : ∀ j, j ≠ inum → (v.dinode j).type ≠ .free → ∀ k,
      blockAt v2.data (v.dinode j) k = blockAt v₁.data (v.dinode j) k := by
    intro j hj ht k
    have := h2.others j hj (h1.dinode ▸ ht) k
    rwa [h1.dinode] at this
  constructor
  · rw [h2.same, h1.same]
  · exact h2.dinode.trans h1.dinode
  · intro k hk h0
    have := h1.keep k hk h0
    rw [h2.keep k hk (this ▸ h0), this]
  · intro j hj ht k
    rw [hother j hj ht k, h1.others j hj ht k]
  · intro j hj ht m hm
    have hm' : Backed v₁.data (v.dinode j) m := ⟨hm.1, by rw [h1.others j hj ht]; exact hm.2⟩
    have := h2.otherBytes j hj (h1.dinode ▸ ht) m (by rwa [h1.dinode])
    rw [h1.dinode] at this
    rw [this, h1.otherBytes j hj ht m hm]
  · intro i hi
    by_cases hi1 : i < src1.length
    · exact h2.backed_of (h1.backed i hi1)
    · have := h2.backed (i - src1.length) (by omega)
      rwa [Nat.add_assoc, Nat.add_sub_cancel' (by omega)] at this
  · intro i hi
    by_cases hi1 : i < src1.length
    · rw [h2.kept _ (.inl (by omega)) (h1.backed i hi1), h1.written i hi1]
      simp only [List.getD_eq_getElem?_getD, List.getElem?_append_left hi1]
    · have := h2.written (i - src1.length) (by omega)
      rw [Nat.add_assoc, Nat.add_sub_cancel' (by omega)] at this
      rw [this]
      simp only [List.getD_eq_getElem?_getD, List.getElem?_append_right (not_lt.mp hi1)]
  · intro m hm hb
    rw [h2.kept m (by omega) (h1.backed_of hb), h1.kept m (by omega) hb]
  · intro hb
    have e1 : d₁ = d := h1.addrs fun i hi => hb i (by omega)
    rw [h2.addrs fun i hi => ?_, e1]
    apply h1.backed_of
    rw [Nat.add_assoc]
    exact hb (src1.length + i) (by omega)
  · intro m hm hb hb2
    by_cases hb1 : Backed v₁.data d₁ m
    · rw [h2.kept m (by omega) hb1, h1.fresh m (by omega) hb hb1]
    · exact h2.fresh m (by omega) hb1 hb2

end

section

variable {sb : Superblock} {K : Set ℕ} {v v₁ : Volume} {inum : ℕ} {d d₁ : Dinode}

theorem Grows.byteAt_eq (hg : Grows inum d v d₁ v₁) (h : VolInv sb K v (viewWith v inum d))
    (h1 : VolInv sb K v₁ (viewWith v₁ inum d₁)) (htd : d.type ≠ .free) {j m : ℕ}
    (ht : (viewWith v inum d j).type ≠ .free) (hm : Backed v.data (viewWith v inum d j) m) :
    byteAt v₁.data (viewWith v₁ inum d₁ j) m = byteAt v.data (viewWith v inum d j) m := by
  have hk := filePos_lt hm.1
  have htype : (viewWith v₁ inum d₁ j).type = (viewWith v inum d j).type := by
    rw [viewWith, hg.dinode]
    exact viewWith_type (by rw [hg.same]) j
  have hpos : blockAt v₁.data (viewWith v₁ inum d₁ j) (filePos (m / BSIZE)) =
      blockAt v.data (viewWith v inum d j) (filePos (m / BSIZE)) := by
    by_cases hj : j = inum
    · subst hj
      have h0 := hm.2
      rw [viewWith, update_self] at h0
      rw [viewWith, update_self, viewWith, update_self, hg.keep _ hk h0]
    · rw [viewWith, update_of_ne hj] at ht
      rw [viewWith, update_of_ne hj, viewWith, update_of_ne hj, hg.dinode,
        hg.others j hj ht]
  -- the block of the byte is not the indirect block, the only one in use that may have changed
  have htd1 : (viewWith v₁ inum d₁ inum).type ≠ .free := by
    rw [viewWith, update_self, hg.same]
    exact htd
  have hne := h1.indirect_ne (htype ▸ ht) hk (filePos_ne _) (hpos ▸ hm.2) htd1
  rw [hpos, viewWith, update_self] at hne
  have hbit := (h.used ht hk hm.2).2
  unfold byteAt
  rw [hpos, hg.data _ hm.2 hbit hne.symm]

theorem blit_apply (b : Block) (lo : ℕ) (src : List UInt8) (i : ℕ) :
    blit b lo src i = if lo ≤ i ∧ i < lo + src.length then src.getD (i - lo) 0 else b i := by
  unfold blit
  by_cases hlo : i < lo
  · rw [if_pos hlo, if_neg (by omega)]
  · rw [if_neg hlo]
    by_cases hi : i < lo + src.length
    · rw [if_pos ⟨by omega, hi⟩]
      simp only [List.getD_eq_getElem?_getD]
      rw [List.getElem?_eq_getElem (by omega)]
      rfl
    · rw [if_neg (by omega), List.getD_eq_getElem?_getD, List.getElem?_eq_none (by omega)]
      rfl

theorem blit_inv (off : ℕ) (src : List UInt8) (lh : List ℕ) (v' : Volume)
    (h : VolInv sb K v (viewWith v inum d)) (ht : d.type ≠ .free) (hb : Backed v.data d off)
    (hlen : off % BSIZE + src.length ≤ BSIZE)
    (hv' : v' = { v with
      data := update v.data (blockAt v.data d (filePos (off / BSIZE)))
        (blit (v.data (blockAt v.data d (filePos (off / BSIZE)))) (off % BSIZE) src)
      lh := lh }) :
    VolInv sb K v' (viewWith v' inum d) ∧ Wrote inum off src d v d v' := by
  subst hv'
  obtain ⟨a, ha⟩ : ∃ a, a = blockAt v.data d (filePos (off / BSIZE)) := ⟨_, rfl⟩
  rw [← ha]
  have hk := filePos_lt hb.1
  have hself : viewWith v inum d inum = d := update_self ..
  have hti : (viewWith v inum d inum).type ≠ .free := by rwa [hself]
  have hb0 : blockAt v.data (viewWith v inum d inum) (filePos (off / BSIZE)) ≠ 0 := by
    rw [hself]
    exact hb.2
  -- the block written is no indirect block, so no block number changes
  have hat : ∀ j, (viewWith v inum d j).type ≠ .free → ∀ k,
      blockAt (update v.data a (blit (v.data a) (off % BSIZE) src))
        (viewWith v inum d j) k = blockAt v.data (viewWith v inum d j) k := by
    intro j hj k
    apply blockAt_update_of_ne
    have := h.indirect_ne hti hk (filePos_ne _) hb0 hj
    rwa [hself, ← ha] at this
  have hother : ∀ j, j ≠ inum → viewWith v inum d j = v.dinode j := fun j hj =>
    update_of_ne hj ..
  -- bytes of other blocks keep their value
  have hbyte : ∀ j m, (viewWith v inum d j).type ≠ .free → Backed v.data (viewWith v inum d j) m →
      (j = inum → m / BSIZE ≠ off / BSIZE) →
      byteAt (update v.data a (blit (v.data a) (off % BSIZE) src))
        (viewWith v inum d j) m = byteAt v.data (viewWith v inum d j) m := by
    intro j m hj hm hne
    unfold byteAt
    rw [hat j hj, update_of_ne]
    intro e
    rw [ha] at e
    have := h.inj hj (filePos_lt hm.1) hti hk (by rw [hself]; exact e) hm.2
    exact hne this.1 (filePos_inj this.2)
  have hbyteSelf : ∀ m, m / BSIZE = off / BSIZE →
      byteAt (update v.data a (blit (v.data a) (off % BSIZE) src)) d m =
        if off ≤ m ∧ m < off + src.length then src.getD (m - off) 0 else byteAt v.data d m := by
    intro m hm
    have hd := hat inum hti (filePos (m / BSIZE))
    rw [hself] at hd
    have hsplit : off ≤ m ∧ m < off + src.length ↔
        off % BSIZE ≤ m % BSIZE ∧ m % BSIZE < off % BSIZE + src.length := by
      have h1 := Nat.mod_add_div m BSIZE
      have h2 := Nat.mod_add_div off BSIZE
      rw [hm] at h1
      omega
    have hsub : m - off = m % BSIZE - off % BSIZE := by
      have h1 := Nat.mod_add_div m BSIZE
      have h2 := Nat.mod_add_div off BSIZE
      rw [hm] at h1
      omega
    unfold byteAt
    rw [hd, hm, ← ha, update_self, blit_apply, hsub]
    simp only [hsplit]
  refine ⟨⟨?_, h.low, fun j hj n hn => ?_⟩, ⟨rfl, rfl, fun k _ _ => ?_, fun j hj hjt k => ?_,
    fun j hj hjt m hm => ?_, fun i hi => ?_, fun i hi => ?_, fun m hm hbm => ?_, fun _ => rfl,
    fun m _ hb hb' => ?_⟩⟩
  · have hown : ownMap (update v.data a (blit (v.data a) (off % BSIZE) src))
        (viewWith v inum d) = ownMap v.data (viewWith v inum d) := by
      funext ⟨j, k⟩
      by_cases hj : (viewWith v inum d j).type = .free
      · rw [ownMap_free hj, ownMap_free hj]
      · exact ownMap_congr rfl (hat j hj k)
    show Owns _ _ (ownMap (update v.data a _) (viewWith v inum d)) v.bitmap
    rw [hown]
    exact h.owns
  · have := h.noHole j hj n hn
    exact ⟨this.1, by rw [hat j hj]; exact this.2⟩
  · have := hat inum hti k
    rwa [hself] at this
  · have := hat j (by rwa [hother j hj]) k
    rwa [hother j hj] at this
  · have := hbyte j m (by rwa [hother j hj]) (by rwa [hother j hj]) fun e => absurd e hj
    rwa [hother j hj] at this
  · have hdm := div_mod_add off i (by omega)
    have := hat inum hti (filePos (off / BSIZE))
    rw [hself] at this
    refine ⟨by rw [hdm.1]; exact hb.1, ?_⟩
    rw [hdm.1, this]
    exact hb.2
  · have hdm := div_mod_add off i (by omega)
    show byteAt (update v.data a _) d (off + i) = _
    rw [hbyteSelf _ hdm.1, if_pos ⟨by omega, by omega⟩, Nat.add_sub_cancel_left]
  · show byteAt (update v.data a _) d m = _
    by_cases hmo : m / BSIZE = off / BSIZE
    · rw [hbyteSelf m hmo, if_neg (by omega)]
    · have := hbyte inum m hti (by rwa [hself]) fun _ => hmo
      rwa [hself] at this
  · have := hat inum hti (filePos (m / BSIZE))
    rw [hself] at this
    exact absurd ⟨hb'.1, by rw [← this]; exact hb'.2⟩ hb

theorem Grows.byteAt_fresh (hg : Grows inum d v d₁ v₁)
    (h1 : VolInv sb K v₁ (viewWith v₁ inum d₁)) (htd : d.type ≠ .free) {m : ℕ}
    (hb : ¬ Backed v.data d m) (hb1 : Backed v₁.data d₁ m) : byteAt v₁.data d₁ m = 0 := by
  have hk := filePos_lt hb1.1
  have hself : viewWith v₁ inum d₁ inum = d₁ := update_self ..
  have ht1 : (viewWith v₁ inum d₁ inum).type ≠ .free := by
    rw [hself, hg.same]
    exact htd
  have hne := h1.indirect_ne ht1 hk (filePos_ne _) (by rw [hself]; exact hb1.2) ht1
  rw [hself] at hne
  have h0 : blockAt v.data d (filePos (m / BSIZE)) = 0 := by
    by_contra h0
    exact hb ⟨hb1.1, h0⟩
  unfold byteAt
  rw [(hg.fresh _ hk h0 hb1.2 hne.symm).2]
  rfl

theorem Wrote.of_grows {off : ℕ} {src : List UInt8} {v2 : Volume} (hg : Grows inum d v d₁ v₁)
    (h₁ : VolInv sb K v₁ (viewWith v₁ inum d₁))
    (hbytes : ∀ j m, (viewWith v inum d j).type ≠ .free → Backed v.data (viewWith v inum d j) m →
      byteAt v₁.data (viewWith v₁ inum d₁ j) m = byteAt v.data (viewWith v inum d j) m)
    (ht : d.type ≠ .free) (haddr : (∀ i < src.length, Backed v.data d (off + i)) → d₁ = d)
    (h : Wrote inum off src d₁ v₁ d₁ v2) : Wrote inum off src d v d₁ v2 := by
  have hself : viewWith v inum d inum = d := update_self ..
  have hself1 : viewWith v₁ inum d₁ inum = d₁ := update_self ..
  have hother : ∀ j, j ≠ inum → viewWith v inum d j = v.dinode j := fun j hj =>
    update_of_ne hj ..
  have hother1 : ∀ j, j ≠ inum → viewWith v₁ inum d₁ j = v.dinode j := fun j hj => by
    rw [viewWith, update_of_ne hj, hg.dinode]
  constructor
  · exact hg.same
  · exact h.dinode.trans hg.dinode
  · intro k hk h0
    have := hg.keep k hk h0
    rw [h.keep k hk (this ▸ h0), this]
  · intro j hj hjt k
    have := h.others j hj (hg.dinode ▸ hjt) k
    rw [hg.dinode] at this
    rw [this, hg.others j hj hjt k]
  · intro j hj hjt m hm
    have h1 := hbytes j m (by rwa [hother j hj]) (by rwa [hother j hj])
    rw [hother j hj, hother1 j hj] at h1
    have h2 := h.otherBytes j hj (hg.dinode ▸ hjt) m
    rw [hg.dinode] at h2
    rw [h2 ⟨hm.1, by rw [hg.others j hj hjt]; exact hm.2⟩, h1]
  · exact h.backed
  · exact h.written
  · intro m hm hb
    have h1 := hbytes inum m (by rwa [hself]) (by rwa [hself])
    rw [hself, hself1] at h1
    rw [h.kept m hm ⟨hb.1, by rw [hg.keep _ (filePos_lt hb.1) hb.2]; exact hb.2⟩, h1]
  · exact haddr
  · intro m hm hb hb2
    by_cases hb1 : Backed v₁.data d₁ m
    · rw [h.kept m hm hb1, hg.byteAt_fresh h₁ ht hb hb1]
    · exact h.fresh m hm hb1 hb2

theorem VolInv.writeChunk {off a : ℕ} {src : List UInt8} (lh : List ℕ) (v2 : Volume)
    (h : VolInv sb K v (viewWith v inum d)) (ht : d.type ≠ .free)
    (h1 : VolInv sb K v₁ (viewWith v₁ inum d₁)) (hg : Grows inum d v d₁ v₁)
    (hbn : off / BSIZE < MAXFILE) (ha : a ≠ 0)
    (hat : blockAt v₁.data d₁ (filePos (off / BSIZE)) = a)
    (hsame : blockAt v.data d (filePos (off / BSIZE)) ≠ 0 → d₁ = d) (hpos : 0 < src.length)
    (hlen : off % BSIZE + src.length ≤ BSIZE) (hv2 : v2 = { v₁ with
      data := update v₁.data a (blit (v₁.data a) (off % BSIZE) src)
      lh := lh }) :
    VolInv sb K v2 (viewWith v2 inum d₁) ∧ Wrote inum off src d v d₁ v2 := by
  have ht1 : d₁.type ≠ .free := by rw [hg.same]; exact ht
  have hback : Backed v₁.data d₁ off := ⟨hbn, by rw [hat]; exact ha⟩
  obtain ⟨hv₂', hw⟩ := blit_inv off src lh v2 h1 ht1 hback hlen (by rw [hat]; exact hv2)
  refine ⟨hv₂', Wrote.of_grows hg h1 (fun j m => hg.byteAt_eq h h1 ht) ht (fun hb => ?_) hw⟩
  have h0 := hb 0 hpos
  exact hsame h0.2

theorem writeLoop_inv {fuel off : ℕ} {src : List UInt8} (hf : src.length ≤ fuel)
    (h : VolInv sb K v (viewWith v inum d)) (hsb : sb.WF) (ht : d.type ≠ .free) {u : Unit}
    {s : Dinode × Volume} (hr : writeLoop sb fuel off src (d, v) = .ok (u, s)) :
    VolInv sb K s.2 (viewWith s.2 inum s.1) ∧ Wrote inum off src d v s.1 s.2 := by
  induction fuel generalizing off src d v with
  | zero =>
    obtain rfl : src = [] := List.length_eq_zero_iff.mp (by omega)
    obtain ⟨-, rfl⟩ := pure_ok hr
    exact ⟨h, Wrote.nil ..⟩
  | succ fuel ih =>
    unfold writeLoop at hr
    by_cases hn : src = []
    · subst hn
      obtain ⟨-, rfl⟩ := pure_ok hr
      exact ⟨h, Wrote.nil ..⟩
    rw [if_neg hn] at hr
    have hpos : 0 < src.length := List.length_pos_iff.mpr hn
    have hB : off % BSIZE < BSIZE := Nat.mod_lt _ (by decide)
    obtain ⟨m, hm⟩ : ∃ m, m = min src.length (BSIZE - off % BSIZE) := ⟨_, rfl⟩
    obtain ⟨a, ⟨d₁, v₁⟩, h1, hr⟩ := bind_ok.mp hr
    obtain ⟨hv1, hg, hbn, ha, hat, hsame⟩ := bmap_inv h hsb ht h1
    dsimp only at hv1 hg hat hsame
    rw [modify_bind] at hr
    obtain ⟨_, s2, h2, hr⟩ := bind_ok.mp hr
    obtain ⟨v2, hl, rfl⟩ := onVol_ok h2
    obtain ⟨lh, hv2⟩ := logWrite_ok hl
    dsimp only at hr hv2
    rw [← hm] at hr hv2
    have htake : (src.take m).length = m := by
      rw [List.length_take]
      omega
    obtain ⟨hv₂', hw1⟩ := h.writeChunk lh v2 ht hv1 hg hbn ha hat
      (fun h0 => (Prod.mk.inj (hsame h0)).1) (by rw [htake]; omega) (by rw [htake]; omega) hv2
    have ht1 : d₁.type ≠ .free := by rw [hg.same]; exact ht
    obtain ⟨hv', hw2⟩ := ih (by rw [List.length_drop]; omega) hv₂' ht1 hr
    refine ⟨hv', ?_⟩
    have := hw1.append (by rwa [htake])
    rwa [List.take_append_drop] at this

/-- **`writei`.** On a consistent disk it either refuses and changes nothing, or writes all the
bytes: afterwards the disk is consistent, the inode on disk is the one in memory, and no other inode
has changed. -/
theorem writei_inv {off : ℕ} {src : List UInt8} (h : VolInv sb K v v.dinode) (hsb : sb.WF)
    (hd : v.dinode inum = d) (ht : d.type ≠ .free) {r : Option ℕ} {s : Dinode × Volume}
    (hr : writei sb inum off src (d, v) = .ok (r, s)) :
    (r = none ∧ s = (d, v)) ∨
    (r = some src.length ∧ off ≤ d.size ∧ VolInv sb K s.2 s.2.dinode ∧
      s.2.dinode = update v.dinode inum s.1 ∧
      s.1 = { d with size := max d.size (off + src.length), addrs := s.1.addrs } ∧
      ∃ v₁, v₁.data = s.2.data ∧ Wrote inum off src d v { s.1 with size := d.size } v₁) := by
  have hview : viewWith v inum d = v.dinode := by
    rw [viewWith, ← hd, update_eq_self]
  unfold writei at hr
  rw [get_bind] at hr
  dsimp only at hr
  split at hr
  · obtain ⟨rfl, rfl⟩ := pure_ok hr
    exact .inl ⟨rfl, rfl⟩
  next hc =>
  split at hr
  · obtain ⟨rfl, rfl⟩ := pure_ok hr
    exact .inl ⟨rfl, rfl⟩
  next hmax =>
  obtain ⟨_, ⟨d₁, v₁⟩, h1, hr⟩ := bind_ok.mp hr
  obtain ⟨hv1, hw⟩ := writeLoop_inv le_rfl (by rwa [hview]) hsb ht h1
  dsimp only at hv1 hw
  have hoff : off ≤ d.size := by omega
  right
  split at hr
  next hgrow =>
    rw [modify_bind] at hr
    obtain ⟨_, s2, h2, hr⟩ := bind_ok.mp hr
    obtain ⟨rfl, rfl⟩ := pure_ok hr
    obtain ⟨lh, rfl⟩ := iupdate_ok h2
    dsimp only
    refine ⟨rfl, hoff, ?_, by rw [← hw.dinode], ?_, v₁, rfl, ?_⟩
    · have hold := hv1.noHole inum (by rw [viewWith, update_self, hw.same]; exact ht)
      rw [viewWith, update_self] at hold
      have hinv := hv1.resize (hw.noHole hold hoff)
      exact ⟨hinv.owns, hinv.low, hinv.noHole⟩
    · rw [hw.same]
      dsimp only
      congr 1
      omega
    · have : ({ d₁ with size := d.size } : Dinode) = d₁ := by rw [hw.same]
      show Wrote inum off src d v { d₁ with size := d.size } v₁
      rw [this]
      exact hw
  next hgrow =>
    obtain ⟨rfl, rfl⟩ := pure_ok hr
    have hnohole := h.noHole inum (by rw [hd]; exact ht)
    rw [hd] at hnohole
    have hd1 : d₁ = d := hw.addrs fun i hi => hnohole.backed (by omega)
    subst hd1
    have hview1 : viewWith v₁ inum d₁ = v₁.dinode := by rw [viewWith, hw.dinode, ← hd,
      update_eq_self]
    have hmaxeq : max d₁.size (off + src.length) = d₁.size := by omega
    refine ⟨rfl, hoff, by rwa [hview1] at hv1, hw.dinode.trans hview.symm, ?_, v₁, rfl, hw⟩
    rw [hmaxeq]

end

end Xv6.Fs
