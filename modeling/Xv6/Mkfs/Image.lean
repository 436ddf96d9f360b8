import Xv6.Mkfs.Files

/-!
# The image that `mkfs` builds

1. `Built`: while files are added, the root directory has an entry for each of them, and there is
   one inode with the contents of each. It is known exactly when adding a file returns.
2. `main_decides`: when `mkfs` exits with status 0, and what the image then is (`Made`).
3. `consistent_iff`: it is consistent exactly if there are inodes for all files and the entries of
   the root directory do not end at the end of a block: `mkfs` rounds the size of the directory up
   to the next block even then.
-/

namespace Xv6.Mkfs

open Function Fs StateExcept

/-! ## Adding files -/

def rootBytes (files : List HostFile) : List UInt8 :=
  direntBytes ROOTINO DOT ++ direntBytes ROOTINO DOTDOT ++
    (files.zipIdx 2).flatMap fun f => direntBytes f.2 (entryName f.1.1)

/-- The blocks that are handed out for the files, with the metadata. -/
def blocksUsed (files : List HostFile) : ℕ :=
  nmeta + blocksFor (DIRENTSZ * (files.length + 2)) + (files.map fun f => blocksFor f.2.length).sum

theorem rootBytes_concat (files : List HostFile) (file : HostFile) :
    rootBytes (files ++ [file]) =
      rootBytes files ++ direntBytes (files.length + 2) (entryName file.1) := by
  unfold rootBytes
  rw [List.zipIdx_append, List.flatMap_append, List.append_assoc, Nat.add_comm files.length]
  simp

theorem length_rootBytes (files : List HostFile) :
    (rootBytes files).length = DIRENTSZ * (files.length + 2) := by
  induction files using List.reverseRecOn with
  | nil => rfl
  | append_singleton files file ih =>
    rw [rootBytes_concat, List.length_append, ih, length_direntBytes, List.length_append]
    rfl

theorem blocksUsed_concat (files : List HostFile) (file : HostFile) :
    blocksUsed (files ++ [file]) + blocksFor (DIRENTSZ * (files.length + 2)) =
      blocksUsed files + blocksFor (DIRENTSZ * (files.length + 2) + DIRENTSZ) +
        blocksFor file.2.length := by
  have hlen : DIRENTSZ * ((files ++ [file]).length + 2) =
      DIRENTSZ * (files.length + 2) + DIRENTSZ := by
    rw [List.length_append]
    rfl
  unfold blocksUsed
  rw [hlen, List.map_append, List.sum_append]
  simp only [List.map_cons, List.map_nil, List.sum_singleton]
  omega

theorem blocksUsed_append_le (files more : List HostFile) :
    blocksUsed files ≤ blocksUsed (files ++ more) := by
  have hmono : blocksFor (DIRENTSZ * (files.length + 2)) ≤
      blocksFor (DIRENTSZ * ((files ++ more).length + 2)) := by
    refine blocksFor_mono (Nat.mul_le_mul_left _ ?_)
    rw [List.length_append]
    omega
  unfold blocksUsed
  rw [List.map_append, List.sum_append]
  omega

structure Built (files : List HostFile) (m : Mk) : Prop extends Ready m where
  freeinode : m.freeinode = files.length + 2
  freeblock : m.freeblock = blocksUsed files
  rootType : (m.view.dinode ROOTINO).type = .dir
  rootLink : (m.view.dinode ROOTINO).nlink = 1
  root : content m.view ROOTINO = rootBytes files
  file : ∀ j f, files[j]? = some f →
    (m.view.dinode (j + 2)).type = .file ∧ content m.view (j + 2) = f.2

section AddFile

variable {files : List HostFile} {file : HostFile} {m m₁ m₂ m₃ : Mk}

theorem Built.rootSize (h : Built files m) :
    (m.view.dinode ROOTINO).size = DIRENTSZ * (files.length + 2) := by
  rw [← length_content, h.root, length_rootBytes]

theorem Built.concat (h : Built files m) (h1 : Allocated .file m m₁)
    (h2 : Grew ROOTINO (direntBytes (files.length + 2) (entryName file.1)) m₁ m₂)
    (h3 : Grew (files.length + 2) file.2 m₂ m₃) : Built (files ++ [file]) m₃ := by
  have hnew : m₁.view.dinode (files.length + 2) =
      { Dinode.zero with type := .file, nlink := 1 } := by
    rw [h1.view, h.freeinode]
    exact update_self ..
  have hold : ∀ i, i ≠ files.length + 2 → m₁.view.dinode i = m.view.dinode i := fun i hi => by
    rw [h1.view, h.freeinode]
    exact update_of_ne hi ..
  have hkept : ∀ i, i ≠ files.length + 2 → content m₁.view i = content m.view i := fun i hi => by
    unfold content
    rw [hold i hi, h1.view]
  have hroot : ROOTINO ≠ files.length + 2 := by
    unfold ROOTINO
    omega
  have hne : files.length + 2 ≠ ROOTINO := hroot.symm
  have hsize1 : (m₁.view.dinode ROOTINO).size = DIRENTSZ * (files.length + 2) := by
    rw [hold _ hroot, h.rootSize]
  have hnew2 := (h2.others _ hne).1.trans hnew
  have hempty : content m₂.view (files.length + 2) = [] := by
    unfold content
    rw [hnew2]
    rfl
  refine ⟨h3.toReady, ?_, ?_, ?_, ?_, ?_, fun j f hj => ?_⟩
  · rw [h3.freeinode, h2.freeinode, h1.freeinode, h.freeinode, List.length_append]
    rfl
  · have hb2 := h2.freeblock
    have hb3 := h3.freeblock
    rw [hsize1, length_direntBytes, h1.freeblock, h.freeblock] at hb2
    rw [hnew2] at hb3
    have hzero : blocksFor 0 = 0 := rfl
    have hsum := blocksUsed_concat files file
    simp only [Dinode.zero, hzero, Nat.zero_add] at hb3
    omega
  · rw [(h3.others _ hroot).1, h2.kind, hold _ hroot, h.rootType]
  · rw [(h3.others _ hroot).1, h2.links, hold _ hroot, h.rootLink]
  · have ht : (m₂.view.dinode ROOTINO).type ≠ .free := by
      rw [h2.kind, hold _ hroot, h.rootType]
      decide
    rw [(h3.others _ hroot).2 ht, h2.self, hkept _ hroot, h.root, rootBytes_concat]
  · by_cases hlast : j = files.length
    · subst hlast
      rw [List.getElem?_concat_length] at hj
      cases hj
      rw [h3.kind, h3.self, hempty, hnew2]
      exact ⟨rfl, rfl⟩
    · have hlt : j < files.length := by
        have := (List.getElem?_eq_some_iff.mp hj).1
        rw [List.length_append, List.length_singleton] at this
        omega
      rw [List.getElem?_append_left hlt] at hj
      obtain ⟨htype, hbytes⟩ := h.file j f hj
      have hj1 : j + 2 ≠ files.length + 2 := by omega
      have hj2 : j + 2 ≠ ROOTINO := by
        unfold ROOTINO
        omega
      have ht1 : (m₁.view.dinode (j + 2)).type = .file := by rw [hold _ hj1, htype]
      have ht2 : (m₂.view.dinode (j + 2)).type = .file := by rw [(h2.others _ hj2).1, ht1]
      refine ⟨by rw [(h3.others _ hj1).1, ht2], ?_⟩
      rw [(h3.others _ hj1).2 (by rw [ht2]; decide), (h2.others _ hj2).2 (by rw [ht1]; decide),
        hkept _ hj1, hbytes]

theorem rootSize_le {n : ℕ} (hn : n + 2 < NINODES) :
    DIRENTSZ * (n + 2) + DIRENTSZ ≤ MAXFILE * BSIZE := by
  have hsz : DIRENTSZ = 16 := rfl
  have hmax : MAXFILE * BSIZE = 71680 := rfl
  have hlt : n + 2 < 200 := hn
  rw [hsz, hmax]
  omega

def Takes (file : HostFile) : Prop := SLASH ∉ file.1 ∧ file.2.length ≤ MAXFILE * BSIZE

theorem addFile_decides (h : Built files m) (hn : files.length + 2 < NINODES) :
    Decides (addFile ROOTINO file) m (Takes file ∧ blocksUsed (files ++ [file]) ≤ FSSIZE)
      fun _ m' => Built (files ++ [file]) m' := by
  unfold addFile
  by_cases hslash : SLASH ∈ file.1
  · rw [if_pos hslash]
    exact .throw _ fun hC => hC.1.1 hslash
  rw [if_neg hslash]
  have hroot : ROOTINO ≠ files.length + 2 := by
    unfold ROOTINO
    omega
  obtain ⟨inum, m₁, hrun, rfl, h1⟩ :=
    (ialloc_decides h.toReady (by rw [h.freeinode]; exact hn) .file).1 trivial
  refine .bind_left hrun ?_
  have hdinode : m₁.view.dinode = update m.view.dinode (files.length + 2)
      { Dinode.zero with type := .file, nlink := 1 } := by rw [h1.view, h.freeinode]
  have hroot1 : m₁.view.dinode ROOTINO = m.view.dinode ROOTINO := by
    rw [hdinode]
    exact update_of_ne hroot ..
  have hnew1 : m₁.view.dinode (files.length + 2) =
      { Dinode.zero with type := .file, nlink := 1 } := by
    rw [hdinode]
    exact update_self ..
  have hentry := iappend_decides h1.toReady (show ROOTINO < NINODES by decide)
    (by rw [hroot1, h.rootType]; decide) (direntBytes m.freeinode (entryName file.1))
  rw [hroot1, h.rootSize, length_direntBytes, h1.freeblock, h.freeblock] at hentry
  refine (hentry.bind (D := Takes file ∧ blocksUsed (files ++ [file]) ≤ FSSIZE)
    fun _ m₂ h2 => ?_).congr ?_
  · have hnew2 : m₂.view.dinode (files.length + 2) =
        { Dinode.zero with type := .file, nlink := 1 } := by
      rw [(h2.others _ hroot.symm).1, hnew1]
    have hb2 := h2.freeblock
    rw [hroot1, h.rootSize, length_direntBytes, h1.freeblock, h.freeblock] at hb2
    have hcopy := copyLoop_decides (p := file.2) le_rfl h2.toReady hn
      (by rw [hnew2]; decide)
    rw [h.freeinode] at h2 ⊢
    refine (hcopy.congr ?_).mono fun _ m₃ h3 => h.concat h1 h2 h3
    have hsum := blocksUsed_concat files file
    have hzero : blocksFor 0 = 0 := rfl
    have hlen := List.length_eq_zero_iff (l := file.2)
    rw [hnew2]
    simp only [Dinode.zero, hzero, Nat.zero_add, Takes, ← hlen, hslash, not_false_eq_true, true_and]
    omega
  · have hsum := blocksUsed_concat files file
    exact ⟨fun hC => hC.2, fun hC => ⟨⟨.inr (rootSize_le hn), by omega⟩, hC⟩⟩

/-- **Adding files.** -/
theorem addFiles_decides (more : List HostFile) (h : Built files m)
    (hn : files.length + more.length + 2 ≤ NINODES) :
    Decides (addFiles ROOTINO more) m
      ((∀ file ∈ more, Takes file) ∧ blocksUsed (files ++ more) ≤ FSSIZE)
      fun _ m' => Built (files ++ more) m' := by
  induction more generalizing files m with
  | nil =>
    rw [List.append_nil]
    refine .of_eq rfl ⟨by simp, ?_⟩ h
    rw [← h.freeblock]
    exact h.high
  | cons file more ih =>
    rw [List.length_cons] at hn
    have hassoc : files ++ file :: more = (files ++ [file]) ++ more := by simp
    have hle := blocksUsed_append_le (files ++ [file]) more
    unfold addFiles
    refine ((addFile_decides h (by omega)).bind fun _ m₁ h1 =>
      ih h1 (by rw [List.length_append, List.length_singleton]; omega)).congr ?_ |>.mono ?_
    · rw [hassoc, List.forall_mem_cons]
      constructor
      · rintro ⟨⟨htakes, -⟩, hall, hsum⟩
        exact ⟨⟨htakes, hall⟩, hsum⟩
      · rintro ⟨⟨htakes, hall⟩, hsum⟩
        exact ⟨⟨htakes, hle.trans hsum⟩, hall, hsum⟩
    · intro _ m' hbuilt
      rwa [hassoc]

end AddFile

/-! ## The start -/

theorem zeroSects_eq (n k freeinode freeblock : ℕ) :
    zeroSects (List.range' n k) ⟨fun _ => Block.zero, n, freeinode, freeblock⟩ =
      .ok ((), ⟨fun _ => Block.zero, n + k, freeinode, freeblock⟩) := by
  induction k generalizing n with
  | zero => rfl
  | succ k ih =>
    have hw : wsect n Block.zero ⟨fun _ => Block.zero, n, freeinode, freeblock⟩ =
        .ok ((), ⟨fun _ => Block.zero, n + 1, freeinode, freeblock⟩) := by
      have hmax : max n (n + 1) = n + 1 := by omega
      show Except.ok ((), Mk.mk (update (fun _ => Block.zero) n Block.zero)
        (max n (n + 1)) freeinode freeblock) = _
      rw [hmax]
      congr
      exact update_eq_self n _
    rw [List.range'_succ, zeroSects, bind_eq hw, ih, Nat.add_right_comm, Nat.add_assoc]

def bareImage : Mk := ⟨update (fun _ => Block.zero) 1 sbBlock, FSSIZE, 1, nmeta⟩

theorem bareImage_dinode (i : ℕ) : bareImage.view.dinode i = Dinode.zero := by
  by_cases hi : i < NINODES
  · rw [view_dinode _ hi]
    unfold bareImage
    dsimp only
    rw [update_of_ne (iblock_ne hi (.inl rfl)).symm]
    unfold dinodeOf Dinode.zero
    congr 1
    funext k
    split <;> rfl
  · exact if_neg hi

theorem bareImage_ready : Ready bareImage := by
  have hfree : ∀ i, (bareImage.view.dinode i).type = .free := fun i => by
    rw [bareImage_dinode]
    rfl
  have hdisk : bareImage.disk = update (fun _ => Block.zero) 1 sbBlock := rfl
  refine ⟨rfl, le_rfl, by decide, by rw [hdisk, update_self], fun b hb => ?_,
    ⟨⟨?_, ?_, ?_⟩, fun b hb => decide_eq_true hb, fun i ht => absurd (hfree i) ht⟩, by decide,
    fun i _ => bareImage_dinode i, fun i ht => absurd (hfree i) ht,
    fun i ht => absurd (hfree i) ht⟩
  · rw [hdisk, update_of_ne (one_ne_of_meta hb).symm]
  · rintro ⟨i, k⟩ b hown
    rw [ownMap_free (hfree i)] at hown
    cases hown
  · rintro ⟨i, k⟩ y b hown
    rw [ownMap_free (hfree i)] at hown
    cases hown
  · intro b hb hused
    have hlt : b < nmeta := of_decide_eq_true hused
    exact absurd hb.1 (by rw [sb_datastart]; omega)

theorem built_nil : ∃ m m₁ m₂, ialloc .dir bareImage = .ok (ROOTINO, m) ∧
    iappend ROOTINO (direntBytes ROOTINO DOT) m = .ok ((), m₁) ∧
    iappend ROOTINO (direntBytes ROOTINO DOTDOT) m₁ = .ok ((), m₂) ∧ Built [] m₂ := by
  obtain ⟨inum, m, hrun, rfl, h⟩ :=
    (ialloc_decides bareImage_ready (by decide) .dir).1 trivial
  have hroot : m.view.dinode ROOTINO = { Dinode.zero with type := .dir, nlink := 1 } := by
    rw [h.view]
    exact update_self (ROOTINO : ℕ) _ bareImage.view.dinode
  have hb : m.freeblock = nmeta := h.freeblock
  obtain ⟨_, m₁, hrun1, h1⟩ := (iappend_decides h.toReady (show ROOTINO < NINODES by decide)
    (by rw [hroot]; decide) (direntBytes ROOTINO DOT)).1 (by rw [hroot, hb]; decide)
  have hsize1 : (m₁.view.dinode ROOTINO).size = DIRENTSZ := by
    rw [h1.size, hroot]
    rfl
  have hb1 : m₁.freeblock = nmeta + 1 := by
    have hfb := h1.freeblock
    rw [hroot, hb] at hfb
    exact hfb
  obtain ⟨_, m₂, hrun2, h2⟩ := (iappend_decides h1.toReady (show ROOTINO < NINODES by decide)
    (by rw [h1.kind, hroot]; decide) (direntBytes ROOTINO DOTDOT)).1
      (by rw [hsize1, hb1]; decide)
  refine ⟨m, m₁, m₂, hrun, hrun1, hrun2, h2.toReady, ?_, ?_, ?_, ?_, ?_, fun j f hj => ?_⟩
  · rw [h2.freeinode, h1.freeinode, h.freeinode]
    rfl
  · have hfb := h2.freeblock
    rw [hsize1, hb1] at hfb
    exact Nat.add_right_cancel hfb
  · rw [h2.kind, h1.kind, hroot]
  · rw [h2.links, h1.links, hroot]
  · rw [h2.self, h1.self]
    unfold content
    rw [hroot]
    rfl
  · cases hj

/-! ## The end -/

theorem bitAt_setBit (buf : Block) (i b : ℕ) :
    bitAt (setBit buf i) b = (bitAt buf b || decide (b = i)) := by
  unfold bitAt setBit
  by_cases hdiv : b / 8 = i / 8
  · have hbyte : (buf (i / 8)).toNat ||| 1 <<< (i % 8) < 2 ^ 8 := by
      refine Nat.or_lt_two_pow (UInt8.toNat_lt _) ?_
      rw [Nat.one_shiftLeft]
      exact Nat.pow_lt_pow_right (by norm_num) (by omega)
    have hbit : (i % 8 = b % 8) ↔ b = i := by omega
    rw [hdiv, update_self, UInt8.toNat_ofNat', Nat.mod_eq_of_lt hbyte, Nat.testBit_or,
      Nat.one_shiftLeft, Nat.testBit_two_pow, decide_eq_decide.mpr hbit]
  · have hne : b ≠ i := fun h => hdiv (by rw [h])
    rw [update_of_ne hdiv, decide_eq_false hne, Bool.or_false]

theorem bitAt_foldl (used b : ℕ) :
    bitAt ((List.range used).foldl setBit Block.zero) b = decide (b < used) := by
  induction used with
  | zero => exact Nat.zero_testBit _
  | succ used ih =>
    rw [List.range_succ, List.foldl_append, List.foldl_cons, List.foldl_nil, bitAt_setBit, ih,
      ← Bool.decide_or]
    exact decide_eq_decide.mpr (by omega)

def roundUp (n : ℕ) : ℕ := (n / BSIZE + 1) * BSIZE

structure Made (files : List HostFile) (m₀ m : Mk) : Prop where
  built : Built files m₀
  super : m.disk 1 = sbBlock
  freeinode : m.freeinode = m₀.freeinode
  freeblock : m.freeblock = m₀.freeblock
  data : (volumeOf sb m.disk).data = m₀.view.data
  dinode : (volumeOf sb m.disk).dinode = update m₀.view.dinode ROOTINO
    { m₀.view.dinode ROOTINO with size := roundUp (m₀.view.dinode ROOTINO).size }
  bitmap : ∀ b < nbitmap * BPB, (volumeOf sb m.disk).bitmap b = m₀.view.bitmap b

section Made

variable {files : List HostFile} {m m₀ : Mk}

theorem fixRoot_eq (h : Built files m) (hn : files.length + 2 ≤ NINODES) :
    ∃ m₁, fixRoot ROOTINO m = .ok ((), m₁) ∧ m₁.freeinode = m.freeinode ∧
      m₁.freeblock = m.freeblock ∧ m₁.nsect = m.nsect ∧ m₁.disk 1 = m.disk 1 ∧
      m₁.view = { m.view with
        dinode := update m.view.dinode ROOTINO
          { m.view.dinode ROOTINO with size := roundUp (m.view.dinode ROOTINO).size } } := by
  have hsect := iblock_lt_nsect h.nsect (show ROOTINO < NINODES by decide)
  obtain ⟨din, hdin⟩ :
      ∃ din, din = dinodeAt (m.disk (IBLOCK ROOTINO sb)) (ROOTINO % IPB) := ⟨_, rfl⟩
  have hd : dinodeOf din = m.view.dinode ROOTINO := by rw [hdin, view_dinode m (by decide)]
  have hsize : din.word 2 = (m.view.dinode ROOTINO).size := by
    rw [← hd]
    rfl
  have hlt : roundUp (m.view.dinode ROOTINO).size < 2 ^ 32 := by
    have h16 : DIRENTSZ = 16 := rfl
    have h200 : files.length + 2 ≤ 200 := hn
    rw [h.rootSize, h16]
    unfold roundUp BSIZE
    omega
  have hview := view_winode m (show ROOTINO < NINODES by decide)
    (din.setWord 2 (roundUp (din.word 2))) m.nsect
  rw [hsize, dinodeOf_setSize _ hlt, hd] at hview
  have hrun : fixRoot ROOTINO m = winode ROOTINO (din.setWord 2 (roundUp (din.word 2))) m := by
    unfold fixRoot
    rw [bind_eq (rinode_eq hsect), hdin]
    rfl
  rw [hsize, winode_eq hsect] at hrun
  refine ⟨_, hrun, rfl, rfl, rfl, ?_, hview⟩
  dsimp only
  rw [update_of_ne (iblock_ne (by decide) (.inl rfl))]

theorem bmapstart_ne_iblock {i : ℕ} (hi : i < NINODES) : IBLOCK i sb ≠ sb.bmapstart := by
  have hdiv : i / 8 < 25 := Nat.div_lt_of_lt_mul hi
  have hblock : IBLOCK i sb = i / 8 + 32 := rfl
  have hmap : sb.bmapstart = 58 := rfl
  omega

theorem volumeOf_bmap (disk : Disk) (buf : Block) :
    (volumeOf sb (update disk sb.bmapstart buf)).data = (volumeOf sb disk).data ∧
    (volumeOf sb (update disk sb.bmapstart buf)).dinode = (volumeOf sb disk).dinode ∧
    ∀ b < nbitmap * BPB,
      (volumeOf sb (update disk sb.bmapstart buf)).bitmap b = bitAt buf b := by
  refine ⟨?_, ?_, fun b hb => ?_⟩
  · funext b
    unfold volumeOf
    dsimp only
    split
    next hb =>
      have hlt : sb.bmapstart < sb.datastart := by decide
      rw [update_of_ne (by omega)]
    next => rfl
  · funext i
    unfold volumeOf
    dsimp only
    split
    next hi => rw [update_of_ne (bmapstart_ne_iblock hi)]
    next => rfl
  · have hlt : b < BPB := hb
    have hblock : BBLOCK b sb = sb.bmapstart := by
      unfold BBLOCK
      rw [Nat.div_eq_of_lt hlt, Nat.zero_add]
    unfold volumeOf
    dsimp only
    rw [hblock, update_self, Nat.mod_eq_of_lt hlt]

theorem Built.made (h : Built files m) (hn : files.length + 2 ≤ NINODES) :
    ∃ m₁ m', fixRoot ROOTINO m = .ok ((), m₁) ∧ balloc m₁.freeblock m₁ = .ok ((), m') ∧
      Made files m m' := by
  obtain ⟨m₁, hrun, hi, hb, hs, hsuper, hview⟩ := fixRoot_eq h hn
  have hused : m₁.freeblock < BSIZE * 8 := by
    rw [hb]
    exact h.high.trans_lt (by decide)
  have hsect : sb.bmapstart < m₁.nsect := by
    rw [hs, h.nsect]
    decide
  obtain ⟨hdata, hdinode, hbits⟩ :=
    volumeOf_bmap m₁.disk ((List.range m₁.freeblock).foldl setBit Block.zero)
  have hwrite : balloc m₁.freeblock m₁ = .ok ((), { m₁ with
      disk := update m₁.disk sb.bmapstart
        ((List.range m₁.freeblock).foldl setBit Block.zero) }) := by
    unfold balloc
    rw [if_pos hused, wsect_eq hsect]
  refine ⟨m₁, _, hrun, hwrite, h, ?_, hi, hb, ?_, ?_, fun b hbb => ?_⟩
  · have hne : 1 ≠ sb.bmapstart := by decide
    dsimp only
    rw [update_of_ne hne, hsuper, h.super]
  · have hd : m₁.view.data = m.view.data := by rw [hview]
    rw [hdata]
    exact hd
  · rw [hdinode]
    exact congrArg Volume.dinode hview
  · rw [hbits b hbb, bitAt_foldl, hb]
    rfl

/-- **`mkfs`.** With inodes for all files it exits with status 0 exactly if it takes every file and
there are enough blocks. -/
theorem main_decides (hn : files.length + 2 ≤ NINODES) :
    Decides (main files) Mk.empty ((∀ file ∈ files, Takes file) ∧ blocksUsed files ≤ FSSIZE)
      fun _ m => ∃ m₀, Made files m₀ m := by
  obtain ⟨m, m₁, m₂, halloc, hdot, hdotdot, hbuilt⟩ := built_nil
  have hzero := zeroSects_eq 0 FSSIZE 1 nmeta
  rw [← List.range_eq_range', Nat.zero_add] at hzero
  have hsuper : wsect 1 sbBlock ⟨fun _ => Block.zero, FSSIZE, 1, nmeta⟩ = .ok ((), bareImage) :=
    wsect_eq (m := ⟨fun _ => Block.zero, FSSIZE, 1, nmeta⟩) (by decide) sbBlock
  have hadd := addFiles_decides files hbuilt (by rw [List.length_nil]; omega)
  rw [List.nil_append] at hadd
  unfold main
  refine .bind_left hzero (.bind_left hsuper (.bind_left halloc ?_))
  rw [if_pos rfl]
  refine .bind_left hdot (.bind_left hdotdot (hadd.bind_right fun _ m₃ h3 => ?_))
  obtain ⟨m4, m', hfix, hballoc, hmade⟩ := h3.made hn
  have hget : (get : MkM Mk) m4 = .ok (m4, m4) := rfl
  refine .bind_left hfix (.bind_left hget ?_)
  exact .of_eq hballoc trivial ⟨m₃, hmade⟩

theorem mkfs_eq_ok : mkfs files = .ok m ↔ main files Mk.empty = .ok ((), m) := by
  unfold mkfs
  cases main files Mk.empty with
  | error e =>
    constructor
    · intro h
      cases h
    · intro h
      cases h
  | ok r =>
    constructor
    · intro h
      rw [← Except.ok.inj h]
    · intro h
      rw [Except.ok.inj h]

end Made

/-! ## Counting inodes -/

def SameInodes (m m' : Mk) : Prop := m'.freeinode = m.freeinode

instance : IsPreorder Mk SameInodes where
  refl _ := rfl
  trans _ _ _ h1 h2 := Eq.trans h2 h1

section Inodes

theorem wsect_same (sec : ℕ) (buf : Block) : Along SameInodes (wsect sec buf) :=
  .modify fun _ => rfl

theorem rsect_same (sec : ℕ) : Along SameInodes (rsect sec) := by
  intro m buf m' h
  unfold rsect at h
  split at h
  · rw [(Prod.mk.inj (Except.ok.inj h)).2]
    exact refl_of SameInodes m'
  · cases h

theorem winode_same (inum : ℕ) (ip : Block) : Along SameInodes (winode inum ip) :=
  (rsect_same _).bind fun _ => wsect_same _ _

theorem rinode_same (inum : ℕ) : Along SameInodes (rinode inum) :=
  (rsect_same _).bind fun _ => .pure _

theorem nextBlock_same : Along SameInodes nextBlock := by
  intro m b m' h
  rw [← (Prod.mk.inj (Except.ok.inj h)).2]
  rfl

theorem addrBlock_same (din : Block) (i : ℕ) : Along SameInodes (addrBlock din i) :=
  (nextBlock_same.bind fun _ => .pure _).ite (.pure _)

theorem entryBlock_same (ind j : ℕ) : Along SameInodes (entryBlock ind j) :=
  (rsect_same _).bind fun _ =>
    (nextBlock_same.bind fun _ => (wsect_same _ _).bind fun _ => .pure _).ite (.pure _)

theorem fileBlock_same (din : Block) (fbn : ℕ) : Along SameInodes (fileBlock din fbn) :=
  ((addrBlock_same _ _).bind fun _ => .pure _).ite
    ((addrBlock_same _ _).bind fun _ => (entryBlock_same _ _).bind fun _ => .pure _)

theorem appendChunk_same (din : Block) (off : ℕ) (p : List UInt8) :
    Along SameInodes (appendChunk din off p) :=
  (fileBlock_same _ _).bind fun _ => (rsect_same _).bind fun _ => (wsect_same _ _).bind fun _ =>
    Along.pure _

theorem appendLoop_same (fuel : ℕ) (din : Block) (off : ℕ) (p : List UInt8) :
    Along SameInodes (appendLoop fuel din off p) := by
  induction fuel generalizing din off p with
  | zero => exact Along.pure _
  | succ fuel ih =>
    exact (Along.pure _).ite
      (((appendChunk_same _ _ _).bind fun _ => ih _ _ _).ite (Along.throw _))

theorem iappend_same (inum : ℕ) (p : List UInt8) : Along SameInodes (iappend inum p) :=
  (rinode_same _).bind fun _ => (appendLoop_same _ _ _ _).bind fun _ => winode_same _ _

theorem copyLoop_same (inum fuel : ℕ) (p : List UInt8) :
    Along SameInodes (copyLoop inum fuel p) := by
  induction fuel generalizing p with
  | zero => exact Along.pure _
  | succ fuel ih => exact (Along.pure _).ite ((iappend_same _ _).bind fun _ => ih _)

theorem zeroSects_same (is : List ℕ) : Along SameInodes (zeroSects is) := by
  induction is with
  | nil => exact .pure _
  | cons i is ih => exact (wsect_same _ _).bind fun _ => ih

theorem fixRoot_same (rootino : ℕ) : Along SameInodes (fixRoot rootino) :=
  (rinode_same _).bind fun _ => winode_same _ _

theorem balloc_same (used : ℕ) : Along SameInodes (balloc used) :=
  (wsect_same _ _).ite (.throw _)

theorem ialloc_count {type : FType} {m m' : Mk} {i : ℕ} (h : ialloc type m = .ok (i, m')) :
    m'.freeinode = m.freeinode + 1 := by
  unfold ialloc at h
  rw [get_bind, set_bind] at h
  obtain ⟨_, m₁, hw, hret⟩ := bind_ok.mp h
  rw [(pure_ok hret).2]
  exact winode_same _ _ _ _ _ hw

theorem addFile_count {rootino : ℕ} {file : HostFile} {m m' : Mk} {u : Unit}
    (h : addFile rootino file m = .ok (u, m')) : m'.freeinode = m.freeinode + 1 := by
  unfold addFile at h
  split at h
  · cases h
  · obtain ⟨inum, m₁, h1, h⟩ := bind_ok.mp h
    obtain ⟨_, m₂, h2, h3⟩ := bind_ok.mp h
    rw [copyLoop_same _ _ _ _ _ _ h3, iappend_same _ _ _ _ _ h2, ialloc_count h1]

theorem addFiles_count {rootino : ℕ} {files : List HostFile} {m m' : Mk} {u : Unit}
    (h : addFiles rootino files m = .ok (u, m')) : m'.freeinode = m.freeinode + files.length := by
  induction files generalizing m with
  | nil => rw [(pure_ok h).2, List.length_nil, Nat.add_zero]
  | cons file files ih =>
    obtain ⟨_, m₁, h1, h2⟩ := bind_ok.mp h
    rw [ih h2, addFile_count h1, List.length_cons]
    omega

theorem mkfs_count {files : List HostFile} {m : Mk} (h : mkfs files = .ok m) :
    m.freeinode = files.length + 2 := by
  have hrun := mkfs_eq_ok.mp h
  unfold main at hrun
  obtain ⟨_, m₁, h1, hrun⟩ := bind_ok.mp hrun
  obtain ⟨_, m₂, h2, hrun⟩ := bind_ok.mp hrun
  obtain ⟨rootino, m₃, h3, hrun⟩ := bind_ok.mp hrun
  split at hrun
  · obtain ⟨_, m4, h4, hrun⟩ := bind_ok.mp hrun
    obtain ⟨_, m5, h5, hrun⟩ := bind_ok.mp hrun
    obtain ⟨_, m6, h6, hrun⟩ := bind_ok.mp hrun
    obtain ⟨_, m7, h7, hrun⟩ := bind_ok.mp hrun
    rw [get_bind] at hrun
    have hstart : m₁.freeinode = 1 := zeroSects_same _ _ _ _ h1
    rw [balloc_same _ _ _ _ hrun, fixRoot_same _ _ _ _ h7, addFiles_count h6,
      iappend_same _ _ _ _ _ h5, iappend_same _ _ _ _ _ h4, ialloc_count h3,
      wsect_same _ _ _ _ _ h2, hstart]
    omega
  · cases hrun

end Inodes

/-! ## Consistency -/

def Mk.UsedInode (m : Mk) (i : ℕ) : Prop := 0 < i ∧ i < m.freeinode

def Mk.Belongs (m : Mk) (b i : ℕ) : Prop :=
  b ≠ 0 ∧ ∃ k < NPOS, blockAt (volumeOf sb m.disk).data ((volumeOf sb m.disk).dinode i) k = b

structure Consistent (m : Mk) : Prop where
  inodes : ∀ i, m.UsedInode i → i < sb.ninodes
  /-- The blocks that have been handed out are those from `nmeta` to `freeblock`. -/
  handed : nmeta ≤ m.freeblock ∧ m.freeblock ≤ sb.size
  blocks : ∀ b i, m.UsedInode i → m.Belongs b i → nmeta ≤ b ∧ b < sb.size
  noHole : ∀ i, m.UsedInode i →
    NoHole (volumeOf sb m.disk).data ((volumeOf sb m.disk).dinode i)
  disjoint : ∀ b i j, m.UsedInode i → m.UsedInode j → m.Belongs b i → m.Belongs b j → i = j
  bitmap : ∀ b < nbitmap * BPB,
    (volumeOf sb m.disk).bitmap b = true ↔ b < nmeta ∨ ∃ i, m.UsedInode i ∧ m.Belongs b i

section Consistent

variable {files : List HostFile} {m m₀ : Mk}

theorem Built.type_ne_free {i : ℕ} (h : Built files m) :
    (m.view.dinode i).type ≠ .free ↔ m.UsedInode i := by
  constructor
  · intro ht
    by_contra hused
    refine ht ?_
    rw [h.unused i (by unfold Mk.UsedInode at hused; omega)]
    rfl
  · rintro ⟨hpos, hlt⟩
    rw [h.freeinode] at hlt
    by_cases hroot : i = ROOTINO
    · rw [hroot, h.rootType]
      decide
    · obtain ⟨j, rfl⟩ : ∃ j, i = j + 2 := ⟨i - 2, by unfold ROOTINO at hroot; omega⟩
      have hj : j < files.length := by omega
      rw [(h.file j _ (List.getElem?_eq_getElem hj)).1]
      decide

theorem Made.blockAt_eq (h : Made files m₀ m) (i k : ℕ) :
    blockAt (volumeOf sb m.disk).data ((volumeOf sb m.disk).dinode i) k =
      blockAt m₀.view.data (m₀.view.dinode i) k := by
  rw [h.data, h.dinode]
  by_cases hi : i = ROOTINO
  · subst hi
    rw [update_self]
    rfl
  · rw [update_of_ne hi]

theorem Made.used_iff {i : ℕ} (h : Made files m₀ m) :
    m.UsedInode i ↔ (m₀.view.dinode i).type ≠ .free := by
  rw [h.built.type_ne_free]
  unfold Mk.UsedInode
  rw [h.freeinode]

theorem Made.belongs_iff {b i : ℕ} (h : Made files m₀ m) (hi : m.UsedInode i) :
    m.Belongs b i ↔ ∃ k, ownMap m₀.view.data m₀.view.dinode (i, k) = some b := by
  have ht := h.used_iff.mp hi
  unfold Mk.Belongs
  simp only [ownMap_eq_some, h.blockAt_eq]
  constructor
  · rintro ⟨h0, k, hk, hb⟩
    exact ⟨k, ht, hk, hb, h0⟩
  · rintro ⟨k, -, hk, hb, h0⟩
    exact ⟨h0, k, hk, hb⟩

theorem Made.noHole_root (h : Made files m₀ m) (hn : files.length + 2 ≤ NINODES) :
    NoHole (volumeOf sb m.disk).data ((volumeOf sb m.disk).dinode ROOTINO) ↔
      DIRENTSZ * (files.length + 2) % BSIZE ≠ 0 := by
  have hsize : ((volumeOf sb m.disk).dinode ROOTINO).size =
      roundUp (DIRENTSZ * (files.length + 2)) := by
    rw [h.dinode, update_self, h.built.rootSize]
  have hexact := (h.built.exact ROOTINO (by rw [h.built.rootType]; decide)).blocks
  have hmax : DIRENTSZ * (files.length + 2) / BSIZE < MAXFILE := by
    have h16 : DIRENTSZ = 16 := rfl
    have h200 : files.length + 2 ≤ 200 := hn
    have h140 : MAXFILE = 140 := rfl
    rw [h16, h140]
    unfold BSIZE
    omega
  rw [h.built.rootSize] at hexact
  unfold NoHole
  simp only [h.blockAt_eq, hsize]
  generalize DIRENTSZ * (files.length + 2) = n at *
  unfold roundUp
  constructor
  · intro hno hmod
    have hlast := (hno (n / BSIZE) (by unfold BSIZE; omega)).2
    rw [hexact _ hmax] at hlast
    unfold BSIZE at *
    omega
  · intro hmod i hi
    have hle : i ≤ n / BSIZE := by
      unfold BSIZE at *
      omega
    refine ⟨by omega, (hexact i (by omega)).mpr ?_⟩
    unfold BSIZE at *
    omega

theorem Made.consistent (h : Made files m₀ m) (hn : files.length + 2 ≤ NINODES)
    (hmod : DIRENTSZ * (files.length + 2) % BSIZE ≠ 0) : Consistent m := by
  have hinv := h.built.vol
  refine ⟨fun i hi => ?_, ?_, fun b i hi hb => ?_, fun i hi => ?_, fun b i j hi hj hbi hbj => ?_,
    fun b hb => ?_⟩
  · have hlt := hi.2
    rw [h.freeinode, h.built.freeinode] at hlt
    exact hlt.trans_le hn
  · rw [h.freeblock]
    exact ⟨h.built.low, h.built.high⟩
  · obtain ⟨k, hown⟩ := (h.belongs_iff hi).mp hb
    exact (hinv.owns.mem hown).1
  · by_cases hroot : i = ROOTINO
    · rw [hroot]
      exact (h.noHole_root hn).mpr hmod
    · have hold := hinv.noHole i (h.used_iff.mp hi)
      rwa [h.data, h.dinode, update_of_ne hroot]
  · obtain ⟨k, hown⟩ := (h.belongs_iff hi).mp hbi
    obtain ⟨l, hown'⟩ := (h.belongs_iff hj).mp hbj
    exact (Prod.mk.inj (hinv.owns.inj hown hown')).1
  · rw [h.bitmap b hb]
    constructor
    · intro hset
      by_cases hmeta : b < nmeta
      · exact .inl hmeta
      · have hlt : b < m₀.freeblock := of_decide_eq_true hset
        have harea : b ∈ dataArea sb :=
          ⟨Nat.le_of_not_lt hmeta, hlt.trans_le h.built.high⟩
        obtain ⟨⟨i, k⟩, hown⟩ := hinv.owns.cover harea hset
        have hi := h.used_iff.mpr (ownMap_eq_some.mp hown).1
        exact .inr ⟨i, hi, (h.belongs_iff hi).mpr ⟨k, hown⟩⟩
    · rintro (hmeta | ⟨i, hi, hb⟩)
      · exact hinv.low b hmeta
      · obtain ⟨k, hown⟩ := (h.belongs_iff hi).mp hb
        exact (hinv.owns.mem hown).2

theorem Made.not_consistent (h : Made files m₀ m) (hn : files.length + 2 ≤ NINODES)
    (hmod : DIRENTSZ * (files.length + 2) % BSIZE = 0) : ¬ Consistent m := by
  intro hc
  have hroot : m.UsedInode ROOTINO := by
    refine ⟨by decide, ?_⟩
    rw [h.freeinode, h.built.freeinode]
    exact Nat.lt_add_left _ (by decide)
  exact (h.noHole_root hn).mp (hc.noHole ROOTINO hroot) hmod

theorem mkfs_made (h : mkfs files = .ok m) (hn : files.length + 2 ≤ NINODES) :
    ∃ m₀, Made files m₀ m := ((main_decides hn).of_ok (mkfs_eq_ok.mp h)).2

theorem mkfs_returns (files : List HostFile) (hn : files.length + 2 ≤ NINODES)
    (hfiles : ∀ file ∈ files, Takes file) (hblocks : blocksUsed files ≤ FSSIZE) :
    ∃ m m₀, mkfs files = .ok m ∧ Made files m₀ m := by
  obtain ⟨_, m, hrun, m₀, hmade⟩ := (main_decides hn).1 ⟨hfiles, hblocks⟩
  exact ⟨m, m₀, mkfs_eq_ok.mpr hrun, hmade⟩

/-- **Consistency of the image.** An image with which `mkfs` exits with status 0 is consistent
exactly if there are inodes for all files and the entries of the root directory do not end at the
end of a block. -/
theorem consistent_iff (h : mkfs files = .ok m) :
    Consistent m ↔ files.length ≤ NINODES - 2 ∧ DIRENTSZ * (files.length + 2) % BSIZE ≠ 0 := by
  by_cases hn : files.length + 2 ≤ NINODES
  · obtain ⟨m₀, hmade⟩ := mkfs_made h hn
    constructor
    · intro hc
      exact ⟨by omega, fun hmod => hmade.not_consistent hn hmod hc⟩
    · exact fun hC => hmade.consistent hn hC.2
  · constructor
    · intro hc
      have hlast := hc.inodes (files.length + 1) ⟨by omega, by rw [mkfs_count h]; omega⟩
      exact absurd hlast (by show ¬ (_ < NINODES); omega)
    · intro hC
      have htwo : 2 ≤ NINODES := by decide
      omega

end Consistent

def twoFiles : List HostFile := [([95, 99, 97, 116], [1, 2, 3]), ([82], [])]

theorem twoFiles_takes : ∀ file ∈ twoFiles, Takes file := by
  refine List.forall_mem_cons.mpr ⟨?_, List.forall_mem_singleton.mpr ?_⟩
  · exact ⟨by decide, by decide⟩
  · exact ⟨by decide, by decide⟩

theorem consistent_two : ∃ m, mkfs twoFiles = .ok m ∧ Consistent m := by
  obtain ⟨m, m₀, hrun, -⟩ := mkfs_returns twoFiles (by decide) twoFiles_takes (by decide)
  exact ⟨m, hrun, (consistent_iff hrun).mpr (by decide)⟩

/-- Thirty files: with `"."` and `".."` the root directory has 32 entries, just one block, and the
size is rounded up to two. -/
theorem thirty_files_hole : ∃ m, mkfs (List.replicate 30 ([97], [])) = .ok m ∧ ¬ Consistent m := by
  have hfiles : ∀ file ∈ List.replicate 30 (([97], []) : HostFile), Takes file := by
    intro file hf
    rw [List.eq_of_mem_replicate hf]
    exact ⟨by decide, by decide⟩
  obtain ⟨m, m₀, hrun, hmade⟩ := mkfs_returns _ (by decide) hfiles (by decide)
  exact ⟨m, hrun, hmade.not_consistent (by decide) (by decide)⟩

end Xv6.Mkfs
