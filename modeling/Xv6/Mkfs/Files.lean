import Xv6.Mkfs.Append
import Xv6.Fs.Dir

/-!
# Inodes and files of the image

1. `Ready`: what holds of the image between two appends.
2. `iappend_decides`, `copyLoop_decides`: appending bytes to a file returns exactly if the file does
   not get too long and there are enough blocks, and then the file has the bytes at its end
   (`Grew`).
3. `ialloc_decides`: a new inode is empty (`Allocated`).
-/

namespace Xv6.Mkfs

open Function Fs StateExcept

/-! ## The invariant -/

def content (v : Volume) (i : ℕ) : List UInt8 :=
  (List.range (v.dinode i).size).map (byteAt v.data (v.dinode i))

theorem length_content (v : Volume) (i : ℕ) : (content v i).length = (v.dinode i).size := by
  rw [content, List.length_map, List.length_range]

structure Ready (m : Mk) : Prop where
  nsect : m.nsect = FSSIZE
  low : nmeta ≤ m.freeblock
  high : m.freeblock ≤ FSSIZE
  super : m.disk 1 = sbBlock
  blank : ∀ b, m.freeblock ≤ b → m.disk b = Block.zero
  vol : VolInv sb (dataArea sb) m.view m.view.dinode
  first : 0 < m.freeinode
  unused : ∀ i, i = 0 ∨ m.freeinode ≤ i → m.view.dinode i = Dinode.zero
  exact : ∀ i, (m.view.dinode i).type ≠ .free →
    Exact m.view.data (m.view.dinode i) (m.view.dinode i).size
  tail : ∀ i, (m.view.dinode i).type ≠ .free → ∀ k, (m.view.dinode i).size ≤ k →
    Backed m.view.data (m.view.dinode i) k → byteAt m.view.data (m.view.dinode i) k = 0

structure Grew (inum : ℕ) (p : List UInt8) (m m' : Mk) : Prop extends Ready m' where
  freeinode : m'.freeinode = m.freeinode
  freeblock : m'.freeblock + blocksFor (m.view.dinode inum).size =
    m.freeblock + blocksFor ((m.view.dinode inum).size + p.length)
  self : content m'.view inum = content m.view inum ++ p
  kind : (m'.view.dinode inum).type = (m.view.dinode inum).type
  links : (m'.view.dinode inum).nlink = (m.view.dinode inum).nlink
  others : ∀ j, j ≠ inum → m'.view.dinode j = m.view.dinode j ∧
    ((m.view.dinode j).type ≠ .free → content m'.view j = content m.view j)

section Iappend

variable {inum off : ℕ} {din : Block} {m m' : Mk} {p : List UInt8}

theorem iblock_lt_nsect (h : m.nsect = FSSIZE) (hi : inum < NINODES) :
    IBLOCK inum sb < m.nsect := by
  rw [h]
  exact (iblock_lt hi).trans (by decide)

theorem iblock_ne (hi : inum < NINODES) {b : ℕ} (hb : b = 1 ∨ nmeta ≤ b) : b ≠ IBLOCK inum sb := by
  have hlt := iblock_lt hi
  have hge : 32 ≤ IBLOCK inum sb := Nat.le_add_left 32 _
  omega

theorem Ready.appending (h : Ready m)
    (ht : (m.view.dinode inum).type ≠ .free) (hdin : dinodeOf din = m.view.dinode inum) :
    Appending inum din (m.view.dinode inum).size m where
  nsect := h.nsect
  low := h.low
  high := h.high
  super := h.super
  blank := h.blank
  vol := by
    rw [viewWith, hdin, update_eq_self]
    exact h.vol
  type := by rwa [hdin]
  exact := by
    rw [hdin]
    exact h.exact inum ht

theorem content_append {v v' : Volume} {d' : Dinode}
    (hw : Wrote inum (v.dinode inum).size p (v.dinode inum) v d' v')
    (hno : NoHole v.data (v.dinode inum)) :
    (List.range ((v.dinode inum).size + p.length)).map (byteAt v'.data d') =
      content v inum ++ p := by
  rw [List.range_add, List.map_append, List.map_map, content]
  congr 1
  · refine List.map_congr_left fun k hk => ?_
    have hlt := List.mem_range.mp hk
    exact hw.kept k (.inl hlt) (hno.backed hlt)
  · refine List.ext_getElem (by simp) fun k h1 h2 => ?_
    have hlt : k < p.length := h2
    simp only [List.getElem_map, List.getElem_range, Function.comp_apply]
    rw [hw.written k hlt, List.getD_eq_getElem?_getD, List.getElem?_eq_getElem hlt,
      Option.getD_some]

theorem Appended.end_lt {din' : Block} (h : Appended inum off p din m din' m')
    (hoff : off < 2 ^ 32) : off + p.length < 2 ^ 32 := by
  by_cases hp : p = []
  · subst hp
    exact hoff
  · have hpos : 0 < p.length := List.length_pos_iff.mpr hp
    have hback := (h.wrote.backed (p.length - 1) (by omega)).1
    unfold MAXFILE NINDIRECT BSIZE NDIRECT at hback
    omega

theorem Appended.written_back {n : ℕ} {din' : Block}
    (h : Appended inum (m.view.dinode inum).size p din m din' m') (hi : inum < NINODES)
    (hn : n < 2 ^ 32) :
    Mk.view { m' with
      disk := update m'.disk (IBLOCK inum sb)
        (putDinode (m'.disk (IBLOCK inum sb)) (inum % IPB) (din'.setWord 2 n)) } =
      { m'.view with
        dinode := update m.view.dinode inum { dinodeOf din' with size := n } } := by
  rw [← dinodeOf_setSize _ hn, ← h.wrote.dinode]
  exact view_winode m' hi _ m'.nsect

theorem Ready.grew {din' : Block} {m'' : Mk} (h : Ready m)
    (ht : (m.view.dinode inum).type ≠ .free) (hdin : dinodeOf din = m.view.dinode inum)
    (happ : Appended inum (m.view.dinode inum).size p din m din' m')
    (hview : m''.view = { m'.view with
      dinode := update m.view.dinode inum
        { dinodeOf din' with size := (m.view.dinode inum).size + p.length } })
    (hn : m''.nsect = m'.nsect) (hb : m''.freeblock = m'.freeblock)
    (hf : m''.freeinode = m'.freeinode)
    (hdisk : ∀ b, b = 1 ∨ nmeta ≤ b → m''.disk b = m'.disk b) : Grew inum p m m'' := by
  have hw := happ.wrote
  rw [hdin] at hw
  have hother : ∀ j, j ≠ inum → m''.view.dinode j = m.view.dinode j := fun j hj => by
    rw [hview]
    exact update_of_ne hj ..
  have hself : m''.view.dinode inum =
      { dinodeOf din' with size := (m.view.dinode inum).size + p.length } := by
    rw [hview]
    exact update_self ..
  have hdata : m''.view.data = m'.view.data := by rw [hview]
  have htype : (dinodeOf din').type = (m.view.dinode inum).type := by rw [hw.same]
  have hlinks : (dinodeOf din').nlink = (m.view.dinode inum).nlink := by rw [hw.same]
  have hblock : ∀ j, j ≠ inum → (m.view.dinode j).type ≠ .free → ∀ k,
      blockAt m''.view.data (m''.view.dinode j) k = blockAt m.view.data (m.view.dinode j) k := by
    intro j hj hjt k
    rw [hother j hj, hdata]
    exact hw.others j hj hjt k
  constructor
  · constructor
    · exact hn.trans happ.nsect
    · rw [hb]
      exact happ.low
    · rw [hb]
      exact happ.high
    · rw [hdisk 1 (.inl rfl)]
      exact happ.super
    · intro b hbb
      rw [hb] at hbb
      rw [hdisk b (.inr (happ.low.trans hbb))]
      exact happ.blank b hbb
    · have hold := happ.vol.noHole inum (by rw [viewWith, update_self]; exact happ.type)
      rw [viewWith, update_self] at hold
      have hinv := happ.vol.resize (hw.noHole hold le_rfl)
      rw [viewWith, hw.dinode] at hinv
      rw [hview]
      exact ⟨hinv.owns, hinv.low, hinv.noHole⟩
    · rw [hf, happ.freeinode]
      exact h.first
    · intro i hi
      rw [hf, happ.freeinode] at hi
      have hne : i ≠ inum := by
        rintro rfl
        rw [h.unused i hi] at ht
        exact ht rfl
      rw [hother i hne]
      exact h.unused i hi
    · intro i hi
      by_cases hne : i = inum
      · subst hne
        rw [hself, hdata]
        exact ⟨happ.exact.blocks, happ.exact.indirect⟩
      · have hsame := hother i hne
        rw [hsame] at hi
        have hold := h.exact i hi
        refine ⟨fun k hk => ?_, ?_⟩
        · rw [hblock i hne hi, hsame]
          exact hold.blocks k hk
        · rw [hsame]
          exact hold.indirect
    · intro i hi k hk hback
      by_cases hne : i = inum
      · subst hne
        rw [hself, hdata] at hback ⊢
        rw [hself] at hk
        by_cases hold : Backed m.view.data (m.view.dinode i) k
        · exact (hw.kept k (.inr hk) hold).trans (h.tail i ht k (by dsimp only at hk; omega) hold)
        · exact hw.fresh k (.inr hk) hold hback
      · have hsame := hother i hne
        rw [hsame] at hi hk
        have hold : Backed m.view.data (m.view.dinode i) k :=
          ⟨hback.1, by rw [← hblock i hne hi]; exact hback.2⟩
        rw [hsame, hdata, hw.otherBytes i hne hi k hold]
        exact h.tail i hi k hk hold
  · exact hf.trans happ.freeinode
  · rw [hb]
    exact happ.freeblock
  · have hno := h.vol.noHole inum ht
    rw [← content_append hw hno]
    unfold content
    rw [hself, hdata]
    rfl
  · rw [hself]
    exact htype
  · rw [hself]
    exact hlinks
  · intro j hj
    refine ⟨hother j hj, fun hjt => ?_⟩
    unfold content
    rw [hother j hj, hdata]
    refine List.map_congr_left fun k hk => hw.otherBytes j hj hjt k ?_
    exact (h.vol.noHole j hjt).backed (List.mem_range.mp hk)

/-- **`iappend`.** It returns exactly if the file does not get too long and there are enough blocks;
then the inode has the bytes at its end. -/
theorem iappend_decides (h : Ready m) (hi : inum < NINODES)
    (ht : (m.view.dinode inum).type ≠ .free) (p : List UInt8) :
    Decides (iappend inum p) m
      ((p = [] ∨ (m.view.dinode inum).size + p.length ≤ MAXFILE * BSIZE) ∧
        m.freeblock + blocksFor ((m.view.dinode inum).size + p.length) ≤
          FSSIZE + blocksFor (m.view.dinode inum).size)
      fun _ m' => Grew inum p m m' := by
  have hsect := iblock_lt_nsect h.nsect hi
  obtain ⟨din, hdin⟩ : ∃ din, din = dinodeAt (m.disk (IBLOCK inum sb)) (inum % IPB) := ⟨_, rfl⟩
  have hd : dinodeOf din = m.view.dinode inum := by rw [hdin, view_dinode m hi]
  have hsize : din.word 2 = (m.view.dinode inum).size := by rw [← hd]; rfl
  have hread : rinode inum m = .ok (din, m) := by rw [rinode_eq hsect, hdin]
  have hloop := appendLoop_decides (p := p) le_rfl (h.appending ht hd)
  rw [← hsize] at hloop
  unfold iappend
  refine .bind_left hread ?_
  rw [← hsize]
  refine hloop.bind_right fun r m₁ h1 => ?_
  obtain ⟨hoff, happ⟩ := h1
  have hn : r.2 < 2 ^ 32 := by
    rw [hoff]
    exact happ.end_lt (Block.word_lt _ _)
  rw [hsize] at hoff happ
  have hsect1 := iblock_lt_nsect happ.nsect hi
  refine .of_eq (winode_eq hsect1 _) trivial ?_
  have hview := happ.written_back hi hn
  rw [hoff] at hview ⊢
  exact h.grew ht hd happ hview rfl rfl rfl fun b hb => update_of_ne (iblock_ne hi hb) ..

end Iappend

/-! ## Copying a file -/

section Copy

variable {inum : ℕ} {m m₁ m₂ : Mk} {p q : List UInt8}

theorem Ready.grew_nil (h : Ready m) : Grew inum [] m m where
  toReady := h
  freeinode := rfl
  freeblock := rfl
  self := (List.append_nil _).symm
  kind := rfl
  links := rfl
  others _ _ := ⟨rfl, fun _ => rfl⟩

theorem Grew.size (h : Grew inum p m m₁) :
    (m₁.view.dinode inum).size = (m.view.dinode inum).size + p.length := by
  rw [← length_content, h.self, List.length_append, length_content]

theorem Grew.append (h1 : Grew inum p m m₁) (h2 : Grew inum q m₁ m₂) : Grew inum (p ++ q) m m₂ where
  toReady := h2.toReady
  freeinode := h2.freeinode.trans h1.freeinode
  freeblock := by
    have hf1 := h1.freeblock
    have hf2 := h2.freeblock
    rw [h1.size] at hf2
    rw [List.length_append, ← Nat.add_assoc]
    omega
  self := by rw [h2.self, h1.self, List.append_assoc]
  kind := h2.kind.trans h1.kind
  links := h2.links.trans h1.links
  others j hj := by
    obtain ⟨hd1, hc1⟩ := h1.others j hj
    obtain ⟨hd2, hc2⟩ := h2.others j hj
    exact ⟨hd2.trans hd1, fun ht => (hc2 (by rwa [hd1])).trans (hc1 ht)⟩

theorem copyLoop_decides {fuel : ℕ} (hfuel : p.length ≤ fuel) (h : Ready m) (hi : inum < NINODES)
    (ht : (m.view.dinode inum).type ≠ .free) :
    Decides (copyLoop inum fuel p) m
      ((p = [] ∨ (m.view.dinode inum).size + p.length ≤ MAXFILE * BSIZE) ∧
        m.freeblock + blocksFor ((m.view.dinode inum).size + p.length) ≤
          FSSIZE + blocksFor (m.view.dinode inum).size)
      fun _ m' => Grew inum p m m' := by
  induction fuel generalizing m p with
  | zero =>
    obtain rfl : p = [] := List.length_eq_zero_iff.mp (by omega)
    exact .of_eq rfl ⟨.inl rfl, Nat.add_le_add_right h.high _⟩ h.grew_nil
  | succ fuel ih =>
    unfold copyLoop
    by_cases hp : p = []
    · subst hp
      exact .of_eq rfl ⟨.inl rfl, Nat.add_le_add_right h.high _⟩ h.grew_nil
    have hpos : 0 < p.length := List.length_pos_iff.mpr hp
    have hB : 0 < BSIZE := by decide
    have htake : (p.take BSIZE).length = min BSIZE p.length := List.length_take
    have hdrop : (p.drop BSIZE).length = p.length - BSIZE := List.length_drop
    obtain ⟨n, hn⟩ : ∃ n, n = (m.view.dinode inum).size := ⟨_, rfl⟩
    have hchunk := iappend_decides h hi ht (p.take BSIZE)
    rw [if_neg hp]
    rw [← hn] at hchunk ⊢
    have hmono := blocksFor_mono (show n + (p.take BSIZE).length ≤ n + p.length by omega)
    refine (hchunk.bind (D := (p.drop BSIZE = [] ∨ n + p.length ≤ MAXFILE * BSIZE) ∧
      m.freeblock + blocksFor (n + p.length) ≤ FSSIZE + blocksFor n) fun u m₁ h1 => ?_).congr ?_
    · have hsize := h1.size
      have hfb := h1.freeblock
      rw [← hn] at hsize hfb
      have hlen : (m₁.view.dinode inum).size + (p.drop BSIZE).length = n + p.length := by omega
      refine ((ih (by omega) h1.toReady (by rw [h1.kind]; exact ht)).congr ?_).mono
        fun _ m₂ h2 => ?_
      · rw [hlen, hsize]
        refine and_congr_right fun _ => ?_
        omega
      · have happend := h1.append h2
        rwa [List.take_append_drop] at happend
    · rw [htake] at hmono
      rw [← List.length_eq_zero_iff, ← List.length_eq_zero_iff, ← List.length_eq_zero_iff, htake,
        hdrop]
      omega

end Copy

/-! ## New inodes -/

theorem dinodeOf_newDinode (type : FType) :
    dinodeOf (newDinode type) = { Dinode.zero with type := type, nlink := 1 } := by
  have hw : ∀ k, ((Block.zero.setHalf 0 type.code).setHalf 3 1).word (3 + k) = 0 := fun k => by
    refine Eq.trans (Block.word_congr fun t _ => ?_) (Block.word_zero (3 + k))
    unfold Block.setHalf
    rw [if_neg (by omega), if_neg (by omega), if_neg (by omega), if_neg (by omega)]
  unfold newDinode
  rw [dinodeOf_setSize _ (by norm_num)]
  unfold dinodeOf
  simp only [hw, ite_self]
  cases type <;> rfl

structure Allocated (type : FType) (m m' : Mk) : Prop extends Ready m' where
  freeinode : m'.freeinode = m.freeinode + 1
  freeblock : m'.freeblock = m.freeblock
  view : m'.view = { m.view with
    dinode := update m.view.dinode m.freeinode
      { Dinode.zero with type := type, nlink := 1 } }

theorem exact_zero (data : ℕ → Block) {d : Dinode} (ha : d.addrs = fun _ => 0) :
    Exact data d 0 := by
  refine ⟨fun i hi => ?_, ?_⟩
  · rw [blockAt_eq_zero fun _ _ => by rw [ha]]
    omega
  · rw [ha]
    dsimp only
    omega

theorem Ready.allocated {m m' : Mk} {type : FType} (h : Ready m)
    (hview : m'.view = { m.view with
      dinode := update m.view.dinode m.freeinode
        { Dinode.zero with type := type, nlink := 1 } })
    (hn : m'.nsect = m.nsect) (hf : m'.freeinode = m.freeinode + 1)
    (hb : m'.freeblock = m.freeblock)
    (hdisk : ∀ b, b = 1 ∨ nmeta ≤ b → m'.disk b = m.disk b) : Allocated type m m' := by
  have hself : m'.view.dinode m.freeinode = { Dinode.zero with type := type, nlink := 1 } := by
    rw [hview]
    exact update_self ..
  have hother : ∀ j, j ≠ m.freeinode → m'.view.dinode j = m.view.dinode j := fun j hj => by
    rw [hview]
    exact update_of_ne hj ..
  have hdata : m'.view.data = m.view.data := by rw [hview]
  have hfirst := h.first
  refine ⟨⟨hn.trans h.nsect, ?_, ?_, ?_, fun b hbb => ?_, ?_, by omega, fun i hi => ?_,
    fun i hi => ?_, fun i hi k hk hback => ?_⟩, hf, hb, hview⟩
  · rw [hb]
    exact h.low
  · rw [hb]
    exact h.high
  · rw [hdisk 1 (.inl rfl)]
    exact h.super
  · rw [hb] at hbb
    rw [hdisk b (.inr (h.low.trans hbb))]
    exact h.blank b hbb
  · rw [hview]
    exact h.vol.alloc (by rw [h.unused _ (.inr le_rfl)]; rfl) _ rfl rfl []
  · rw [hother i (by omega)]
    exact h.unused i (by omega)
  · by_cases hne : i = m.freeinode
    · subst hne
      rw [hself]
      exact exact_zero _ rfl
    · rw [hother i hne] at hi ⊢
      rw [hdata]
      exact h.exact i hi
  · by_cases hne : i = m.freeinode
    · subst hne
      rw [hself] at hback
      exact absurd (blockAt_eq_zero (fun _ _ => rfl) _) hback.2
    · rw [hother i hne] at hi hk hback ⊢
      rw [hdata] at hback ⊢
      exact h.tail i hi k hk hback

theorem ialloc_decides {m : Mk} (h : Ready m) (hi : m.freeinode < NINODES) (type : FType) :
    Decides (ialloc type) m True fun i m' => i = m.freeinode ∧ Allocated type m m' := by
  obtain ⟨m₁, hm1⟩ : ∃ m₁, m₁ = { m with freeinode := m.freeinode + 1 } := ⟨_, rfl⟩
  have hsect : IBLOCK m.freeinode sb < m₁.nsect := by
    rw [hm1]
    exact iblock_lt_nsect h.nsect hi
  have hview := view_winode m₁ hi (newDinode type) m₁.nsect
  rw [dinodeOf_newDinode] at hview
  have hrun : ialloc type m = .ok (m.freeinode, { m₁ with
      disk := update m₁.disk (IBLOCK m.freeinode sb)
        (putDinode (m₁.disk (IBLOCK m.freeinode sb)) (m.freeinode % IPB) (newDinode type)) }) := by
    unfold ialloc
    rw [get_bind, set_bind, ← hm1, bind_eq (winode_eq hsect _)]
    rfl
  refine .of_eq hrun trivial ⟨rfl, ?_⟩
  subst hm1
  exact h.allocated hview rfl rfl rfl fun b hb => update_of_ne (iblock_ne hi hb) ..

end Xv6.Mkfs
