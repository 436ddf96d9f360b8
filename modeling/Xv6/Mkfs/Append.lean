import Xv6.Mkfs.Program
import Xv6.Fs.Content

/-!
# Appending to a file

`mkfs` hands out blocks in increasing order, so that the blocks in use are those below `freeblock`.
`Mk.view` is the image as the kernel would see it with exactly these blocks marked, and it is
consistent whenever `mkfs` is between two appends.

1. What writing a data block or an inode does to the view.
2. `Exact`: an inode has the blocks that its size needs, and no others. `blocksFor` counts them.
3. `appendChunk_decides`, `appendLoop_decides`: appending returns exactly if the file does not get
   too long and there are enough blocks, and then writes the bytes (`Wrote`).
-/

namespace Xv6.Mkfs

open Function Fs StateExcept

/-! ## The view -/

theorem sb_wf : sb.WF := ⟨by decide, by norm_num [sb, FSSIZE]⟩

theorem sb_datastart : sb.datastart = nmeta := rfl

/-- The image as the kernel would see it, with the blocks that have been handed out marked. -/
def Mk.view (m : Mk) : Volume :=
  ⟨fun b => b < m.freeblock, (volumeOf sb m.disk).dinode, (volumeOf sb m.disk).data, [], 0⟩

theorem view_bitmap (m : Mk) (b : ℕ) : m.view.bitmap b = decide (b < m.freeblock) := rfl

theorem view_data (m : Mk) {b : ℕ} (hb : nmeta ≤ b) : m.view.data b = m.disk b := if_pos hb

theorem iblock_lt {i : ℕ} (hi : i < NINODES) : IBLOCK i sb < nmeta := by
  have hdiv : i / 8 < 25 := Nat.div_lt_of_lt_mul hi
  show i / 8 + 32 < 59
  omega

theorem view_dinode (m : Mk) {i : ℕ} (hi : i < NINODES) :
    m.view.dinode i = dinodeOf (dinodeAt (m.disk (IBLOCK i sb)) (i % IPB)) := if_pos hi

theorem view_write (m : Mk) {x : ℕ} (hx : nmeta ≤ x) (buf : Block) (n : ℕ) :
    Mk.view { m with disk := update m.disk x buf, nsect := n } =
      { m.view with data := update m.view.data x buf } := by
  have hinode : (volumeOf sb (update m.disk x buf)).dinode =
      (volumeOf sb m.disk).dinode := by
    funext i
    unfold volumeOf
    dsimp only
    split
    next hi =>
      have hlt := iblock_lt hi
      rw [update_of_ne (by omega)]
    next => rfl
  have hdata : (volumeOf sb (update m.disk x buf)).data =
      update (volumeOf sb m.disk).data x buf := by
    funext b
    by_cases hb : b = x
    · subst hb
      rw [update_self]
      exact (if_pos hx).trans (update_self ..)
    · rw [update_of_ne hb]
      unfold volumeOf
      dsimp only
      rw [update_of_ne hb]
  unfold Mk.view
  simp only [hinode, hdata]

variable {inum : ℕ}

theorem view_winode (m : Mk) (hi : inum < NINODES) (ip : Block) (n : ℕ) :
    Mk.view { m with
      disk := update m.disk (IBLOCK inum sb)
        (putDinode (m.disk (IBLOCK inum sb)) (inum % IPB) ip)
      nsect := n } =
      { m.view with dinode := update m.view.dinode inum (dinodeOf ip) } := by
  have hlt := iblock_lt hi
  have hdata : (volumeOf sb (update m.disk (IBLOCK inum sb)
      (putDinode (m.disk (IBLOCK inum sb)) (inum % IPB) ip))).data = (volumeOf sb m.disk).data := by
    funext b
    unfold volumeOf
    dsimp only
    split
    next hb =>
      rw [sb_datastart] at hb
      rw [update_of_ne (by omega)]
    next => rfl
  have hinode : (volumeOf sb (update m.disk (IBLOCK inum sb)
      (putDinode (m.disk (IBLOCK inum sb)) (inum % IPB) ip))).dinode =
      update (volumeOf sb m.disk).dinode inum (dinodeOf ip) := by
    funext i
    by_cases hin : i = inum
    · subst hin
      rw [update_self]
      refine (if_pos hi).trans ?_
      rw [update_self, dinodeOf_putDinode_self]
    · rw [update_of_ne hin]
      unfold volumeOf
      dsimp only
      split
      next hlt =>
        by_cases hb : IBLOCK i sb = IBLOCK inum sb
        · -- another inode of the same block
          rw [hb, update_self, dinodeOf_putDinode_of_ne]
          intro hmod
          have hdiv : i / IPB = inum / IPB := Nat.add_right_cancel hb
          apply hin
          rw [← Nat.div_add_mod i IPB, hdiv, hmod, Nat.div_add_mod]
        · rw [update_of_ne hb]
      next => rfl
  unfold Mk.view
  simp only [hinode, hdata]

theorem view_nextBlock (m : Mk) :
    Mk.view { m with freeblock := m.freeblock + 1 } =
      { m.view with bitmap := update m.view.bitmap m.freeblock true } := by
  have hbits : (fun b => decide (b < m.freeblock + 1)) =
      update m.view.bitmap m.freeblock true := by
    funext b
    by_cases hb : b = m.freeblock
    · subst hb
      rw [update_self]
      exact decide_eq_true (Nat.lt_succ_self _)
    · rw [update_of_ne hb, view_bitmap]
      exact decide_eq_decide.mpr (by omega)
  exact congrArg (fun bits => { m.view with bitmap := bits }) hbits

/-! ## Sectors -/

variable {sec : ℕ} {m : Mk}

theorem rsect_eq (h : sec < m.nsect) : rsect sec m = .ok (m.disk sec, m) :=
  if_pos h

theorem rsect_error (h : m.nsect ≤ sec) : rsect sec m = .error .read :=
  if_neg (by omega)

theorem wsect_eq (h : sec < m.nsect) (buf : Block) :
    wsect sec buf m = .ok ((), { m with disk := update m.disk sec buf }) := by
  have hmax : max m.nsect (sec + 1) = m.nsect := by omega
  show Except.ok ((), { m with
    disk := update m.disk sec buf
    nsect := max m.nsect (sec + 1) }) = _
  rw [hmax]

theorem winode_eq (h : IBLOCK inum sb < m.nsect) (ip : Block) :
    winode inum ip m = .ok ((), { m with
      disk := update m.disk (IBLOCK inum sb)
        (putDinode (m.disk (IBLOCK inum sb)) (inum % IPB) ip) }) := by
  unfold winode
  rw [bind_eq (rsect_eq h), wsect_eq h]

theorem rinode_eq (h : IBLOCK inum sb < m.nsect) :
    rinode inum m = .ok (dinodeAt (m.disk (IBLOCK inum sb)) (inum % IPB), m) := by
  unfold rinode
  rw [bind_eq (rsect_eq h)]
  rfl

/-! ## The blocks of a file -/

def blocksFor (n : ℕ) : ℕ := (n + BSIZE - 1) / BSIZE + if NDIRECT * BSIZE < n then 1 else 0

structure Exact (data : ℕ → Block) (d : Dinode) (n : ℕ) : Prop where
  blocks : ∀ i < MAXFILE, blockAt data d (filePos i) ≠ 0 ↔ i * BSIZE < n
  indirect : d.addrs NDIRECT ≠ 0 ↔ NDIRECT * BSIZE < n

theorem blocksFor_mono {a b : ℕ} (h : a ≤ b) : blocksFor a ≤ blocksFor b := by
  unfold blocksFor BSIZE NDIRECT
  split <;> split <;> omega

variable {off n : ℕ}

theorem blocksFor_within (h0 : off % BSIZE ≠ 0) (hn : off % BSIZE + n ≤ BSIZE) :
    blocksFor (off + n) = blocksFor off := by
  unfold blocksFor
  unfold BSIZE at *
  unfold NDIRECT
  split <;> split <;> omega

theorem blocksFor_next (h0 : off % BSIZE = 0) (hpos : 0 < n) (hn : n ≤ BSIZE) :
    blocksFor (off + n) = blocksFor off + if off / BSIZE = NDIRECT then 2 else 1 := by
  unfold blocksFor
  unfold BSIZE at *
  unfold NDIRECT
  split <;> split <;> split <;> omega

structure Writing (inum : ℕ) (din : Block) (m : Mk) : Prop where
  nsect : m.nsect = FSSIZE
  low : nmeta ≤ m.freeblock
  high : m.freeblock ≤ FSSIZE
  super : m.disk 1 = sbBlock
  blank : ∀ b, m.freeblock ≤ b → m.disk b = Block.zero
  vol : VolInv sb (dataArea sb) m.view (viewWith m.view inum (dinodeOf din))
  type : (dinodeOf din).type ≠ .free

structure Appending (inum : ℕ) (din : Block) (off : ℕ) (m : Mk) : Prop
    extends Writing inum din m where
  exact : Exact m.view.data (dinodeOf din) off

section Take

variable {inum off i j x : ℕ} {din : Block} {m : Mk}

theorem addrs_eq (din : Block) (hi : i ≤ NDIRECT) : (dinodeOf din).addrs i = din.word (3 + i) :=
  if_pos hi

theorem next_free (hroom : m.freeblock < FSSIZE) :
    m.freeblock < sb.size ∧ m.view.bitmap m.freeblock = false :=
  ⟨hroom, decide_eq_false (lt_irrefl _)⟩

theorem one_ne_of_meta (hx : nmeta ≤ x) : 1 ≠ x := by
  have hmeta : 1 < nmeta := by decide
  omega

theorem Writing.update_zero (h : Writing inum din m) :
    update m.view.data m.freeblock Block.zero = m.view.data := by
  rw [← h.blank _ le_rfl, ← view_data m h.low, update_eq_self]

theorem Writing.block_mem (h : Writing inum din m) (hi : i < NPOS)
    (h0 : blockAt m.view.data (dinodeOf din) i ≠ 0) :
    nmeta ≤ blockAt m.view.data (dinodeOf din) i ∧
      blockAt m.view.data (dinodeOf din) i < m.freeblock := by
  have hself : viewWith m.view inum (dinodeOf din) inum = dinodeOf din := update_self ..
  have hused := h.vol.used (i := inum) (k := i) (by rw [hself]; exact h.type) hi
    (by rw [hself]; exact h0)
  rw [hself] at hused
  exact ⟨hused.1.1, of_decide_eq_true hused.2⟩

theorem Writing.indirect_mem (h : Writing inum din m) (hind : (dinodeOf din).addrs NDIRECT ≠ 0) :
    nmeta ≤ (dinodeOf din).addrs NDIRECT ∧ (dinodeOf din).addrs NDIRECT < m.freeblock := by
  have hmem := h.block_mem (i := NDIRECT) (by decide) (by rwa [blockAt_addrs _ _ le_rfl])
  rwa [blockAt_addrs _ _ le_rfl] at hmem

theorem Writing.takeAddr (h : Writing inum din m) (hi : i ≤ NDIRECT)
    (h0 : (dinodeOf din).addrs i = 0) (hroom : m.freeblock < FSSIZE) :
    Writing inum (din.setWord (3 + i) m.freeblock) { m with freeblock := m.freeblock + 1 } ∧
      Grows inum (dinodeOf din) m.view (dinodeOf (din.setWord (3 + i) m.freeblock))
        (Mk.view { m with freeblock := m.freeblock + 1 }) ∧ m.freeblock ≠ 0 ∧
      ∀ l < NPOS, blockAt m.view.data (dinodeOf (din.setWord (3 + i) m.freeblock)) l =
        if l = i then m.freeblock else blockAt m.view.data (dinodeOf din) l := by
  obtain ⟨hlt, hfree⟩ := next_free hroom
  have h32 : m.freeblock < 2 ^ 32 := hroom.trans (by norm_num [FSSIZE])
  have hv : Mk.view { m with freeblock := m.freeblock + 1 } = { m.view with
      bitmap := update m.view.bitmap m.freeblock true
      data := update m.view.data m.freeblock Block.zero
      lh := [] } := by
    rw [view_nextBlock, h.update_zero]
    rfl
  obtain ⟨hvol, hgrows, hne, hself⟩ := h.vol.takeAddr [] _ sb_wf h.type hi h0 hlt hfree hv
  rw [← dinodeOf_setAddr din hi h32] at hvol hgrows hself
  refine ⟨⟨h.nsect, h.low.trans (Nat.le_succ _), hroom, h.super, fun b hb =>
    h.blank b ?_, hvol, ?_⟩,
    hgrows, hne, hself⟩
  · exact (Nat.le_succ _).trans hb
  · rw [dinodeOf_setAddr din hi h32]
    exact h.type

theorem Writing.takeEntry (h : Writing inum din m) (hj : j < NINDIRECT)
    (hind : (dinodeOf din).addrs NDIRECT ≠ 0)
    (h0 : (m.view.data ((dinodeOf din).addrs NDIRECT)).word j = 0) (hroom : m.freeblock < FSSIZE)
    {m1 : Mk} (hm1 : m1 = { m with
      disk := update m.disk ((dinodeOf din).addrs NDIRECT)
        ((m.disk ((dinodeOf din).addrs NDIRECT)).setWord j m.freeblock)
      freeblock := m.freeblock + 1 }) :
    Writing inum din m1 ∧ Grows inum (dinodeOf din) m.view (dinodeOf din) m1.view ∧
      m.freeblock ≠ 0 ∧ ∀ l < NPOS, blockAt m1.view.data (dinodeOf din) l =
        if l = NDIRECT + 1 + j then m.freeblock else blockAt m.view.data (dinodeOf din) l := by
  obtain ⟨hlt, hfree⟩ := next_free hroom
  obtain ⟨hmeta, hused⟩ := h.indirect_mem hind
  have hv : m1.view = { m.view with
      bitmap := update m.view.bitmap m.freeblock true
      data := update (update m.view.data m.freeblock Block.zero)
        ((dinodeOf din).addrs NDIRECT)
        ((update m.view.data m.freeblock Block.zero
          ((dinodeOf din).addrs NDIRECT)).setWord j m.freeblock)
      lh := [] } := by
    have hwrite := view_write m hmeta
      ((m.disk ((dinodeOf din).addrs NDIRECT)).setWord j m.freeblock) m.nsect
    have hnext := view_nextBlock { m with
      disk := update m.disk ((dinodeOf din).addrs NDIRECT)
        ((m.disk ((dinodeOf din).addrs NDIRECT)).setWord j m.freeblock) }
    rw [hwrite] at hnext
    rw [hm1, h.update_zero, view_data m hmeta]
    exact hnext
  obtain ⟨hvol, hgrows, hne, hself⟩ :=
    h.vol.takeEntry [] _ sb_wf h.type hj hind h0 hlt hfree hv
  refine ⟨⟨?_, ?_, ?_, ?_, fun b hb => ?_, hvol, h.type⟩, hgrows, hne, hself⟩
  · rw [hm1]
    exact h.nsect
  · rw [hm1]
    exact h.low.trans (Nat.le_succ _)
  · rw [hm1]
    exact hroom
  · rw [hm1]
    exact (update_of_ne (one_ne_of_meta hmeta) ..).trans h.super
  · rw [hm1] at hb ⊢
    have hne : b ≠ (dinodeOf din).addrs NDIRECT := by
      rintro rfl
      exact absurd hb (by dsimp only; omega)
    exact (update_of_ne hne ..).trans (h.blank b ((Nat.le_succ _).trans hb))

end Take

/-! ## One block -/

def extra (off : ℕ) : ℕ := if off % BSIZE ≠ 0 then 0 else if off / BSIZE = NDIRECT then 2 else 1

theorem blocksFor_chunk (hpos : 0 < n) (hn : off % BSIZE + n ≤ BSIZE) :
    blocksFor (off + n) = blocksFor off + extra off := by
  unfold extra
  split
  next h0 => exact blocksFor_within h0 hn
  next h0 => exact blocksFor_next (by omega) hpos (by omega)

structure Found (inum off : ℕ) (din : Block) (m : Mk) (x : ℕ) (din₁ : Block) (m₁ : Mk) : Prop
    extends Writing inum din₁ m₁ where
  grows : Grows inum (dinodeOf din) m.view (dinodeOf din₁) m₁.view
  ne : x ≠ 0
  block : blockAt m₁.view.data (dinodeOf din₁) (filePos (off / BSIZE)) = x
  same : off % BSIZE ≠ 0 → dinodeOf din₁ = dinodeOf din
  only : ∀ l < NPOS, blockAt m₁.view.data (dinodeOf din₁) l ≠ 0 ↔
    blockAt m.view.data (dinodeOf din) l ≠ 0 ∨ l = filePos (off / BSIZE) ∨
      l = NDIRECT ∧ NDIRECT ≤ off / BSIZE
  freeblock : m₁.freeblock = m.freeblock + extra off
  freeinode : m₁.freeinode = m.freeinode

section FileBlock

variable {inum off i j x : ℕ} {din : Block} {m : Mk}

theorem Appending.block_ne_zero (h : Appending inum din off m) (hf : off / BSIZE < MAXFILE) :
    blockAt m.view.data (dinodeOf din) (filePos (off / BSIZE)) ≠ 0 ↔ off % BSIZE ≠ 0 := by
  rw [h.exact.blocks _ hf]
  unfold BSIZE
  omega

theorem addrBlock_of_ne (h : (dinodeOf din).addrs i ≠ 0) (hi : i ≤ NDIRECT) :
    addrBlock din i m = .ok (din, m) := by
  rw [addrs_eq din hi] at h
  unfold addrBlock
  rw [if_neg h]
  rfl

theorem addrBlock_of_eq (h : (dinodeOf din).addrs i = 0) (hi : i ≤ NDIRECT) :
    addrBlock din i m =
      .ok (din.setWord (3 + i) m.freeblock, { m with freeblock := m.freeblock + 1 }) := by
  rw [addrs_eq din hi] at h
  unfold addrBlock
  rw [if_pos h]
  rfl

theorem entryBlock_of_ne {ind : ℕ} (hind : ind < m.nsect) (h : (m.disk ind).word j ≠ 0) :
    entryBlock ind j m = .ok ((m.disk ind).word j, m) := by
  unfold entryBlock
  rw [bind_eq (rsect_eq hind), if_neg h]
  rfl

theorem entryBlock_of_eq {ind : ℕ} (hind : ind < m.nsect) (h : (m.disk ind).word j = 0)
    (h32 : m.freeblock < 2 ^ 32) :
    entryBlock ind j m = .ok (m.freeblock, { m with
      disk := update m.disk ind ((m.disk ind).setWord j m.freeblock)
      freeblock := m.freeblock + 1 }) := by
  have hnext : nextBlock m = .ok (m.freeblock, { m with freeblock := m.freeblock + 1 }) := rfl
  unfold entryBlock
  rw [bind_eq (rsect_eq hind), if_pos h, bind_eq hnext]
  rw [bind_eq (wsect_eq (m := { m with freeblock := m.freeblock + 1 }) hind _), pure_apply,
    Block.word_setWord_self _ _ h32]

theorem filePos_direct (h : i < NDIRECT) : filePos i = i := if_pos h

theorem filePos_indirect (h : NDIRECT ≤ i) : filePos i = NDIRECT + 1 + (i - NDIRECT) := by
  unfold filePos
  rw [if_neg (by omega)]
  omega

theorem Appending.indirect_ne_zero (h : Appending inum din off m) (hlt : NDIRECT * BSIZE < off) :
    (dinodeOf din).addrs NDIRECT ≠ 0 := h.exact.indirect.mpr hlt

theorem Appending.found_there (h : Appending inum din off m) (hf : off / BSIZE < MAXFILE)
    (h0 : off % BSIZE ≠ 0) :
    ∃ x, fileBlock din (off / BSIZE) m = .ok ((x, din), m) ∧ Found inum off din m x din m := by
  have hb := (h.block_ne_zero hf).mpr h0
  have hind : NDIRECT ≤ off / BSIZE → (dinodeOf din).addrs NDIRECT ≠ 0 := fun hd =>
    h.indirect_ne_zero (by unfold BSIZE NDIRECT at *; omega)
  refine ⟨blockAt m.view.data (dinodeOf din) (filePos (off / BSIZE)), ?_, h.toWriting,
    Grows.refl ..,
    hb, rfl, fun _ => rfl, fun l hl => ⟨.inl, ?_⟩, ?_, rfl⟩
  · unfold fileBlock
    by_cases hd : off / BSIZE < NDIRECT
    · rw [filePos_direct hd, blockAt_addrs _ _ hd.le] at hb ⊢
      rw [if_pos hd, bind_eq (addrBlock_of_ne hb hd.le), addrs_eq din hd.le]
      rfl
    · have hne := hind (by omega)
      obtain ⟨hmeta, hlt⟩ := h.indirect_mem hne
      have hsect : din.word (3 + NDIRECT) < m.nsect := by
        rw [← addrs_eq din le_rfl, h.nsect]
        exact hlt.trans_le h.high
      rw [filePos_indirect (by omega), blockAt_indirect _ hne, view_data m hmeta,
        addrs_eq din le_rfl] at hb ⊢
      rw [if_neg hd, bind_eq (addrBlock_of_ne hne le_rfl), bind_eq (entryBlock_of_ne hsect hb)]
      rfl
  · rintro (hl | rfl | ⟨rfl, hd⟩)
    · exact hl
    · exact hb
    · rw [blockAt_addrs _ _ le_rfl]
      exact hind hd
  · unfold extra
    rw [if_pos h0]
    rfl

theorem Appending.found_direct (h : Appending inum din off m) (hd : off / BSIZE < NDIRECT)
    (h0 : off % BSIZE = 0) (hroom : m.freeblock < FSSIZE) :
    ∃ x din1 m1, fileBlock din (off / BSIZE) m = .ok ((x, din1), m1) ∧
      Found inum off din m x din1 m1 := by
  have hmax : off / BSIZE < MAXFILE := by unfold MAXFILE; omega
  have hz : (dinodeOf din).addrs (off / BSIZE) = 0 := by
    have hb := (h.block_ne_zero hmax).not.mpr (not_not.mpr h0)
    rw [filePos_direct hd, blockAt_addrs _ _ hd.le, not_not] at hb
    exact hb
  have h32 : m.freeblock < 2 ^ 32 := hroom.trans (by norm_num [FSSIZE])
  obtain ⟨hwr, hgrows, hne, hself⟩ := h.takeAddr hd.le hz hroom
  refine ⟨m.freeblock, din.setWord (3 + off / BSIZE) m.freeblock,
    { m with freeblock := m.freeblock + 1 }, ?_, hwr, hgrows, hne, ?_, fun hc => absurd h0 hc,
    fun l hl => ?_, ?_, rfl⟩
  · unfold fileBlock
    rw [if_pos hd, bind_eq (addrBlock_of_eq hz hd.le), Block.word_setWord_self _ _ h32]
    rfl
  · rw [filePos_direct hd]
    exact (hself _ (by unfold NPOS; omega)).trans (if_pos rfl)
  · show blockAt m.view.data _ l ≠ 0 ↔ _
    rw [hself l hl, filePos_direct hd]
    split
    next hl => exact iff_of_true hne (.inr (.inl hl))
    next hl =>
      constructor
      · exact .inl
      · rintro (hb | hb | ⟨-, hb⟩)
        · exact hb
        · exact absurd hb hl
        · omega
  · unfold extra
    rw [if_neg (not_not.mpr h0), if_neg (by omega)]

theorem Appending.found_entry (h : Appending inum din off m) (hd : NDIRECT < off / BSIZE)
    (hf : off / BSIZE < MAXFILE) (h0 : off % BSIZE = 0) (hroom : m.freeblock < FSSIZE) :
    ∃ x din1 m1, fileBlock din (off / BSIZE) m = .ok ((x, din1), m1) ∧
      Found inum off din m x din1 m1 := by
  have hind := h.indirect_ne_zero (by unfold BSIZE NDIRECT at *; omega)
  obtain ⟨hmeta, hlt⟩ := h.indirect_mem hind
  have hz : (m.view.data ((dinodeOf din).addrs NDIRECT)).word (off / BSIZE - NDIRECT) = 0 := by
    have hb := (h.block_ne_zero hf).not.mpr (not_not.mpr h0)
    rw [filePos_indirect hd.le, blockAt_indirect _ hind, not_not] at hb
    exact hb
  have h32 : m.freeblock < 2 ^ 32 := hroom.trans (by norm_num [FSSIZE])
  have hj : off / BSIZE - NDIRECT < NINDIRECT := by unfold MAXFILE at hf; omega
  obtain ⟨hwr, hgrows, hne, hself⟩ := h.takeEntry hj hind hz hroom rfl
  refine ⟨m.freeblock, din, _, ?_, hwr, hgrows, hne, ?_, fun _ => rfl, fun l hl => ?_, ?_, rfl⟩
  · rw [view_data m hmeta] at hz
    unfold fileBlock
    rw [if_neg (by omega), bind_eq (addrBlock_of_ne hind le_rfl), ← addrs_eq din le_rfl,
      bind_eq (entryBlock_of_eq (by rw [h.nsect]; exact hlt.trans_le h.high) hz h32)]
    rfl
  · rw [filePos_indirect hd.le]
    exact (hself _ (by unfold NPOS; omega)).trans (if_pos rfl)
  · rw [hself l hl, filePos_indirect hd.le]
    split
    next hl => exact iff_of_true hne (.inr (.inl hl))
    next hl =>
      constructor
      · exact .inl
      · rintro (hb | hb | ⟨rfl, -⟩)
        · exact hb
        · exact absurd hb hl
        · rwa [blockAt_addrs _ _ le_rfl]
  · unfold extra
    rw [if_neg (not_not.mpr h0), if_neg (by omega)]

theorem Appending.found_indirect (h : Appending inum din off m) (hd : off / BSIZE = NDIRECT)
    (h0 : off % BSIZE = 0) (hroom : m.freeblock + 1 < FSSIZE) :
    ∃ x din1 m1, fileBlock din (off / BSIZE) m = .ok ((x, din1), m1) ∧
      Found inum off din m x din1 m1 := by
  have hoff : off = NDIRECT * BSIZE := by unfold BSIZE NDIRECT at *; omega
  have hz : (dinodeOf din).addrs NDIRECT = 0 := by
    by_contra hne
    exact absurd (h.exact.indirect.mp hne) (by omega)
  have h32 : m.freeblock + 1 < 2 ^ 32 := hroom.trans (by norm_num [FSSIZE])
  obtain ⟨hwr, hgrows, hne, hself⟩ := h.takeAddr le_rfl hz (by omega)
  have hind : (dinodeOf (din.setWord (3 + NDIRECT) m.freeblock)).addrs NDIRECT = m.freeblock := by
    rw [addrs_eq _ le_rfl, Block.word_setWord_self _ _ (by omega)]
  have hblank : m.disk m.freeblock = Block.zero := h.blank _ le_rfl
  have hz1 : (Mk.view { m with freeblock := m.freeblock + 1 }).data
      ((dinodeOf (din.setWord (3 + NDIRECT) m.freeblock)).addrs NDIRECT) = Block.zero := by
    rw [hind]
    exact (view_data m h.low).trans hblank
  obtain ⟨hwr2, hgrows2, hne2, hself2⟩ :=
    hwr.takeEntry (j := 0) (by decide) (by rwa [hind]) (by rw [hz1]; rfl) hroom rfl
  refine ⟨m.freeblock + 1, din.setWord (3 + NDIRECT) m.freeblock, _, ?_, hwr2,
    hgrows.trans hgrows2, hne2, ?_, fun hc => absurd h0 hc, fun l hl => ?_, ?_, rfl⟩
  · unfold fileBlock
    rw [if_neg (by omega), bind_eq (addrBlock_of_eq hz le_rfl), ← addrs_eq _ le_rfl, hind, hd,
      Nat.sub_self]
    rw [bind_eq (entryBlock_of_eq (by rw [hwr.nsect]; omega) (by rw [hblank]; rfl) h32)]
    rfl
  · rw [hd, filePos_indirect le_rfl]
    exact (hself2 _ (by decide)).trans (if_pos (by rw [Nat.sub_self]))
  · rw [hself2 l hl, hd, filePos_indirect le_rfl, Nat.sub_self]
    split
    next hl => exact iff_of_true hne2 (.inr (.inl hl))
    next hl2 =>
      change blockAt m.view.data (dinodeOf (din.setWord (3 + NDIRECT) m.freeblock)) l ≠ 0 ↔ _
      rw [hself l hl]
      split
      next hl1 => exact iff_of_true hne (.inr (.inr ⟨hl1, le_rfl⟩))
      next hl1 =>
        constructor
        · exact .inl
        · rintro (hb | hb | ⟨hb, -⟩)
          · exact hb
          · exact absurd hb hl2
          · exact absurd hb hl1
  · unfold extra
    rw [if_neg (not_not.mpr h0), if_pos hd]

/-- **`fileBlock`.** With enough blocks left, it finds or adds the block of `off`. -/
theorem Appending.found (h : Appending inum din off m) (hf : off / BSIZE < MAXFILE)
    (hroom : m.freeblock + extra off ≤ FSSIZE) :
    ∃ x din1 m1, fileBlock din (off / BSIZE) m = .ok ((x, din1), m1) ∧
      Found inum off din m x din1 m1 := by
  unfold extra at hroom
  split at hroom
  next h0 =>
    obtain ⟨x, hx, hfound⟩ := h.found_there hf h0
    exact ⟨x, din, m, hx, hfound⟩
  next h0 =>
    rw [not_not] at h0
    split at hroom
    next hd => exact h.found_indirect hd h0 (by omega)
    next hd =>
      by_cases hlt : off / BSIZE < NDIRECT
      · exact h.found_direct hlt h0 (by omega)
      · exact h.found_entry (by omega) hf h0 (by omega)

theorem appendChunk_beyond {x : ℕ} {din1 : Block} {m1 : Mk}
    (hx : fileBlock din (off / BSIZE) m = .ok ((x, din1), m1)) (hlt : m1.nsect ≤ x)
    (p : List UInt8) : appendChunk din off p m = .error .read := by
  unfold appendChunk
  rw [bind_eq hx]
  exact bind_error (rsect_error hlt)

theorem Appending.not_found (h : Appending inum din off m) (hf : off / BSIZE < MAXFILE)
    (hroom : ¬ m.freeblock + extra off ≤ FSSIZE) (p : List UInt8) :
    appendChunk din off p m = .error .read := by
  have hhigh := h.high
  have hnsect := h.nsect
  have h32 : m.freeblock + 1 < 2 ^ 32 := lt_of_le_of_lt (Nat.succ_le_succ hhigh)
    (by norm_num [FSSIZE])
  unfold extra at hroom
  split at hroom
  · omega
  next h0 =>
    rw [not_not] at h0
    have hz := (h.block_ne_zero hf).not.mpr (not_not.mpr h0)
    rw [not_not] at hz
    by_cases hlt : off / BSIZE < NDIRECT
    · rw [if_neg (by omega)] at hroom
      rw [filePos_direct hlt, blockAt_addrs _ _ hlt.le] at hz
      have hx : fileBlock din (off / BSIZE) m =
          .ok ((m.freeblock, din.setWord (3 + off / BSIZE) m.freeblock),
            { m with freeblock := m.freeblock + 1 }) := by
        unfold fileBlock
        rw [if_pos hlt, bind_eq (addrBlock_of_eq hz hlt.le),
          Block.word_setWord_self _ _ (by omega)]
        rfl
      exact appendChunk_beyond hx (by dsimp only; omega) p
    by_cases hd : off / BSIZE = NDIRECT
    · rw [if_pos hd] at hroom
      have hind : (dinodeOf din).addrs NDIRECT = 0 := by
        by_contra hne
        have := h.exact.indirect.mp hne
        unfold BSIZE NDIRECT at *
        omega
      have hword : (din.setWord (3 + NDIRECT) m.freeblock).word (3 + NDIRECT) = m.freeblock :=
        Block.word_setWord_self _ _ (by omega)
      by_cases hfull : m.freeblock = FSSIZE
      · -- not even the indirect block fits
        unfold appendChunk fileBlock
        rw [if_neg hlt, bind_error]
        rw [bind_eq (addrBlock_of_eq hind le_rfl), hword]
        exact bind_error (bind_error (rsect_error (by dsimp only; omega)))
      · have hx : fileBlock din (off / BSIZE) m =
            .ok ((m.freeblock + 1, din.setWord (3 + NDIRECT) m.freeblock), { m with
              disk := update m.disk m.freeblock
                ((m.disk m.freeblock).setWord 0 (m.freeblock + 1))
              freeblock := m.freeblock + 1 + 1 }) := by
          unfold fileBlock
          rw [if_neg hlt, bind_eq (addrBlock_of_eq hind le_rfl), hword, hd, Nat.sub_self]
          rw [bind_eq (entryBlock_of_eq (by dsimp only; omega)
            (by rw [h.blank _ le_rfl]; rfl) h32)]
          rfl
        exact appendChunk_beyond hx (by dsimp only; omega) p
    · rw [if_neg hd] at hroom
      have hind := h.indirect_ne_zero (by unfold BSIZE NDIRECT at *; omega)
      obtain ⟨hmeta, hmem⟩ := h.indirect_mem hind
      rw [filePos_indirect (by omega), blockAt_indirect _ hind, view_data m hmeta] at hz
      have hx : fileBlock din (off / BSIZE) m = .ok ((m.freeblock, din), { m with
          disk := update m.disk ((dinodeOf din).addrs NDIRECT)
            ((m.disk ((dinodeOf din).addrs NDIRECT)).setWord (off / BSIZE - NDIRECT) m.freeblock)
          freeblock := m.freeblock + 1 }) := by
        unfold fileBlock
        rw [if_neg hlt, bind_eq (addrBlock_of_ne hind le_rfl), ← addrs_eq din le_rfl,
          bind_eq (entryBlock_of_eq (by omega) hz (by omega))]
        rfl
      exact appendChunk_beyond hx (by dsimp only; omega) p

end FileBlock

variable {din : Block}

theorem Found.indirect_ne {x : ℕ} {din1 : Block} {m1 : Mk} (h : Found inum off din m x din1 m1)
    (hf : off / BSIZE < MAXFILE) : (dinodeOf din1).addrs NDIRECT ≠ x := by
  have hself : viewWith m1.view inum (dinodeOf din1) inum = dinodeOf din1 := update_self ..
  have ht : (viewWith m1.view inum (dinodeOf din1) inum).type ≠ .free := by
    rw [hself]
    exact h.type
  have hne := h.vol.indirect_ne ht (filePos_lt hf) (filePos_ne _)
    (by rw [hself, h.block]; exact h.ne) ht
  rwa [hself, h.block] at hne

theorem Exact.next {data data' : ℕ → Block} {d d' : Dinode} (h : Exact data d off)
    (hpos : 0 < n) (hn : off % BSIZE + n ≤ BSIZE)
    (hb : ∀ l < NPOS, blockAt data' d' l ≠ 0 ↔ blockAt data d l ≠ 0 ∨ l = filePos (off / BSIZE) ∨
      l = NDIRECT ∧ NDIRECT ≤ off / BSIZE) : Exact data' d' (off + n) := by
  refine ⟨fun i hi => ?_, ?_⟩
  · rw [hb _ (filePos_lt hi), h.blocks i hi]
    have hind := filePos_ne i
    have hpos : filePos i = filePos (off / BSIZE) ↔ i = off / BSIZE :=
      ⟨filePos_inj, fun e => by rw [e]⟩
    rw [hpos]
    unfold BSIZE at *
    omega
  · have hd := hb NDIRECT (by decide)
    rw [blockAt_addrs _ _ le_rfl, blockAt_addrs _ _ le_rfl, h.indirect] at hd
    rw [hd]
    have hne := (filePos_ne (off / BSIZE)).symm
    unfold BSIZE NDIRECT at *
    omega

structure Appended (inum off : ℕ) (p : List UInt8) (din : Block) (m : Mk) (din' : Block) (m' : Mk) :
    Prop extends Appending inum din' (off + p.length) m' where
  wrote : Wrote inum off p (dinodeOf din) m.view (dinodeOf din') m'.view
  freeblock : m'.freeblock + blocksFor off = m.freeblock + blocksFor (off + p.length)
  freeinode : m'.freeinode = m.freeinode

variable {p : List UInt8}

theorem appendChunk_decides (h : Appending inum din off m) (hf : off / BSIZE < MAXFILE)
    (hpos : 0 < p.length) (hlen : off % BSIZE + p.length ≤ BSIZE) :
    Decides (appendChunk din off p) m
      (m.freeblock + blocksFor (off + p.length) ≤ FSSIZE + blocksFor off)
      fun din' m' => Appended inum off p din m din' m' := by
  have hchunk := blocksFor_chunk hpos hlen
  refine ⟨fun hroom => ?_, fun hroom => ⟨_, h.not_found hf (by omega) p⟩⟩
  obtain ⟨x, din1, m1, hx, hfound⟩ := h.found hf (by omega)
  have hxmem : nmeta ≤ x ∧ x < m1.freeblock := by
    have hmem := hfound.block_mem (filePos_lt hf) (by rw [hfound.block]; exact hfound.ne)
    rwa [hfound.block] at hmem
  have hsect : x < m1.nsect := by
    rw [hfound.nsect]
    exact hxmem.2.trans_le hfound.high
  have hmod : off - off / BSIZE * BSIZE = off % BSIZE := by
    have := Nat.div_add_mod' off BSIZE
    omega
  obtain ⟨m2, hm2⟩ : ∃ m2, m2 = { m1 with
    disk := update m1.disk x (blit (m1.disk x) (off % BSIZE) p) } := ⟨_, rfl⟩
  have hview : m2.view = { m1.view with
      data := update m1.view.data x (blit (m1.view.data x) (off % BSIZE) p)
      lh := [] } := by
    rw [hm2, view_data m1 hxmem.1]
    exact view_write m1 hxmem.1 _ m1.nsect
  have hsame : blockAt m.view.data (dinodeOf din) (filePos (off / BSIZE)) ≠ 0 →
      dinodeOf din1 = dinodeOf din := fun hb => hfound.same ((h.block_ne_zero hf).mp hb)
  obtain ⟨hvol, hwrote⟩ := h.vol.writeChunk [] _ h.type hfound.vol hfound.grows hf hfound.ne
    hfound.block hsame hpos hlen hview
  have hblocks : ∀ l, blockAt m2.view.data (dinodeOf din1) l =
      blockAt m1.view.data (dinodeOf din1) l := by
    rw [hview]
    exact blockAt_update_of_ne _ (hfound.indirect_ne hf)
  refine ⟨din1, m2, ?_, ⟨⟨?_, ?_, ?_, ?_, fun b hb => ?_, hvol, hfound.type⟩, ?_⟩, hwrote, ?_, ?_⟩
  · unfold appendChunk
    rw [bind_eq hx]
    dsimp only
    rw [bind_eq (rsect_eq hsect), hmod, bind_eq (wsect_eq hsect _), hm2]
    rfl
  · rw [hm2]
    exact hfound.nsect
  · rw [hm2]
    exact hfound.low
  · rw [hm2]
    exact hfound.high
  · rw [hm2]
    exact (update_of_ne (one_ne_of_meta hxmem.1) ..).trans hfound.super
  · rw [hm2] at hb ⊢
    dsimp only at hb ⊢
    rw [update_of_ne (by omega)]
    exact hfound.blank b hb
  · exact h.exact.next hpos hlen fun l hl => by rw [hblocks, hfound.only l hl]
  · have hfb := hfound.freeblock
    rw [hm2]
    dsimp only
    omega
  · rw [hm2]
    exact hfound.freeinode

/-! ## The loop -/

theorem Appending.appended_nil (h : Appending inum din off m) : Appended inum off [] din m din m :=
  ⟨h, Wrote.nil .., rfl, rfl⟩

theorem Appended.append {q : List UInt8} {din1 din2 : Block} {m1 m2 : Mk}
    (h1 : Appended inum off p din m din1 m1)
    (h2 : Appended inum (off + p.length) q din1 m1 din2 m2) :
    Appended inum off (p ++ q) din m din2 m2 := by
  have hlen : off + (p ++ q).length = off + p.length + q.length := by
    rw [List.length_append, Nat.add_assoc]
  refine ⟨?_, h1.wrote.append h2.wrote, ?_, h2.freeinode.trans h1.freeinode⟩
  · rw [hlen]
    exact h2.toAppending
  · have hf1 := h1.freeblock
    have hf2 := h2.freeblock
    rw [hlen]
    omega

/-- **The loop of `iappend`.** It returns exactly if the file does not get too long and there are
enough blocks; then it has written the bytes. -/
theorem appendLoop_decides {fuel : ℕ} (hfuel : p.length ≤ fuel) (h : Appending inum din off m) :
    Decides (appendLoop fuel din off p) m
      ((p = [] ∨ off + p.length ≤ MAXFILE * BSIZE) ∧
        m.freeblock + blocksFor (off + p.length) ≤ FSSIZE + blocksFor off)
      fun r m' => r.2 = off + p.length ∧ Appended inum off p din m r.1 m' := by
  induction fuel generalizing din off m p with
  | zero =>
    obtain rfl : p = [] := List.length_eq_zero_iff.mp (by omega)
    exact (Decides.pure ⟨rfl, h.appended_nil⟩).congr
      (iff_of_true trivial ⟨.inl rfl, Nat.add_le_add_right h.high _⟩)
  | succ fuel ih =>
    unfold appendLoop
    by_cases hp : p = []
    · subst hp
      exact (Decides.pure ⟨rfl, h.appended_nil⟩).congr
        (iff_of_true trivial ⟨.inl rfl, Nat.add_le_add_right h.high _⟩)
    have hpos : 0 < p.length := List.length_pos_iff.mpr hp
    rw [if_neg hp]
    by_cases hf : off / BSIZE < MAXFILE
    swap
    · rw [if_neg hf]
      refine Decides.throw _ fun hc => ?_
      have hmax := hc.1.resolve_left hp
      unfold BSIZE at *
      omega
    rw [if_pos hf]
    obtain ⟨n, hn⟩ : ∃ n, n = min p.length ((off / BSIZE + 1) * BSIZE - off) := ⟨_, rfl⟩
    rw [← hn]
    have hn1 : 0 < n ∧ n ≤ p.length ∧ off % BSIZE + n ≤ BSIZE := by
      unfold BSIZE at *
      omega
    have htake : (p.take n).length = n := by
      rw [List.length_take]
      omega
    have hdrop : (p.drop n).length = p.length - n := List.length_drop
    have hchunk := appendChunk_decides (p := p.take n) h hf (by omega) (by omega)
    have hmono := blocksFor_mono (show off + n ≤ off + p.length by omega)
    refine (hchunk.bind (D := (p.drop n = [] ∨ off + p.length ≤ MAXFILE * BSIZE) ∧
      m.freeblock + blocksFor (off + p.length) ≤ FSSIZE + blocksFor off)
      fun din1 m1 h1 => ?_).congr ?_
    · have hfb := h1.freeblock
      have happ := h1.toAppending
      rw [htake] at hfb happ
      have hlen : off + n + (p.drop n).length = off + p.length := by omega
      refine ((ih (by omega) happ).congr ?_).mono fun r m2 h2 => ?_
      · rw [hlen]
        refine and_congr_right fun _ => ?_
        omega
      · refine ⟨h2.1.trans hlen, ?_⟩
        have happend := h1.append (q := p.drop n) (by rw [htake]; exact h2.2)
        rwa [List.take_append_drop] at happend
    · rw [htake, ← List.length_eq_zero_iff, hdrop]
      unfold MAXFILE NINDIRECT BSIZE NDIRECT at *
      constructor
      · rintro ⟨-, hl, hr⟩
        exact ⟨.inr (by omega), hr⟩
      · rintro ⟨hl, hr⟩
        have hl := hl.resolve_left hp
        exact ⟨by omega, .inr hl, hr⟩

end Xv6.Mkfs
