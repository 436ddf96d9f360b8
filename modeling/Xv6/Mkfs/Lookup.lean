import Mathlib.Data.List.GetD
import Xv6.Mkfs.Image
import Xv6.Fs.Lookup

/-!
# The kernel on an image of `mkfs`

`mkfs` and the kernel encode the disk independently of each other. Here the kernel boots on the
image that `mkfs` has made of files that fit (`Fits`) and are well named (`WellNamed`): it finds
each file and reads its contents (`lookup_image`).

1. The entries of the root directory, one after the other in its bytes.
2. Which of them `dirlookup` takes for a given name.
3. The walk of `namei` and the contents of the inode it finds.
-/

namespace Xv6.Mkfs

open Fs Conc

/-! ## The entries of the root directory -/

def entries (files : List HostFile) : List (ℕ × Str) :=
  (ROOTINO, DOT) :: (ROOTINO, DOTDOT) ::
    (files.zipIdx 2).map fun f => (f.2, entryName f.1.1)

theorem rootBytes_eq (files : List HostFile) :
    rootBytes files = (entries files).flatMap fun e => direntBytes e.1 e.2 := by
  unfold rootBytes entries
  rw [List.flatMap_cons, List.flatMap_cons, List.flatMap_map, List.append_assoc]

theorem length_entries (files : List HostFile) : (entries files).length = files.length + 2 := by
  unfold entries
  rw [List.length_cons, List.length_cons, List.length_map, List.length_zipIdx]

theorem entries_file {files : List HostFile} {j : ℕ} {f : HostFile} (h : files[j]? = some f) :
    (entries files)[j + 2]? = some (j + 2, entryName f.1) := by
  unfold entries
  rw [List.getElem?_cons_succ, List.getElem?_cons_succ, List.getElem?_map, List.getElem?_zipIdx, h,
    Nat.add_comm 2]
  rfl

theorem getD_flatMap {es : List (ℕ × Str)} {t i : ℕ} {e : ℕ × Str} (h : es[t]? = some e)
    (hi : i < DIRENTSZ) :
    (es.flatMap fun e => direntBytes e.1 e.2).getD (DIRENTSZ * t + i) 0 =
      (direntBytes e.1 e.2).getD i 0 := by
  induction es generalizing t with
  | nil => cases h
  | cons e' es ih =>
    have hlen := length_direntBytes e'.1 e'.2
    rw [List.flatMap_cons]
    cases t with
    | zero =>
      cases h
      rw [Nat.mul_zero, Nat.zero_add, List.getD_append _ _ _ _ (by omega)]
    | succ t =>
      rw [List.getElem?_cons_succ] at h
      rw [List.getD_append_right _ _ _ _ (by rw [Nat.mul_succ]; omega), hlen, ← ih h]
      congr 1
      rw [Nat.mul_succ]
      omega

section Root

variable {files : List HostFile} {m m₀ : Mk}

theorem Made.byteAt_root (h : Made files m₀ m) (k : ℕ) :
    byteAt (volumeOf sb m.disk).data ((volumeOf sb m.disk).dinode ROOTINO) k =
      byteAt m₀.view.data (m₀.view.dinode ROOTINO) k := by
  unfold byteAt
  rw [h.blockAt_eq, h.data]

theorem Made.direntAt_entry (h : Made files m₀ m) {t : ℕ} {e : ℕ × Str}
    (he : (entries files)[t]? = some e) :
    direntAt (volumeOf sb m.disk).data ((volumeOf sb m.disk).dinode ROOTINO) (DIRENTSZ * t) =
      direntBytes e.1 e.2 := by
  refine direntAt_of_bytes (length_direntBytes ..) fun i hi => ?_
  have ht : t < files.length + 2 := by
    rw [← length_entries]
    exact (List.getElem?_eq_some_iff.mp he).1
  have hlt : DIRENTSZ * t + i < (m₀.view.dinode ROOTINO).size := by
    rw [h.built.rootSize]
    calc DIRENTSZ * t + i < DIRENTSZ * (t + 1) := by rw [Nat.mul_succ]; omega
      _ ≤ DIRENTSZ * (files.length + 2) := Nat.mul_le_mul_left _ ht
  have hcontent : (content m₀.view ROOTINO).getD (DIRENTSZ * t + i) 0 =
      byteAt m₀.view.data (m₀.view.dinode ROOTINO) (DIRENTSZ * t + i) := by
    unfold content
    rw [List.getD_eq_getElem?_getD, List.getElem?_map, List.getElem?_range hlt]
    rfl
  rw [h.byteAt_root, ← hcontent, h.built.root, rootBytes_eq, getD_flatMap he hi]

theorem Made.direntAt_blank (h : Made files m₀ m) {t : ℕ} (ht : files.length + 2 ≤ t)
    (hno : NoHole (volumeOf sb m.disk).data ((volumeOf sb m.disk).dinode ROOTINO))
    (hle : DIRENTSZ * t + DIRENTSZ ≤ ((volumeOf sb m.disk).dinode ROOTINO).size) :
    direntAt (volumeOf sb m.disk).data ((volumeOf sb m.disk).dinode ROOTINO) (DIRENTSZ * t) =
      zeroDirent := by
  refine direntAt_of_bytes rfl fun i hi => ?_
  have hback : Backed m₀.view.data (m₀.view.dinode ROOTINO) (DIRENTSZ * t + i) := by
    have hmade := hno.backed (m := DIRENTSZ * t + i) (by omega)
    unfold Backed at hmade ⊢
    rwa [h.blockAt_eq] at hmade
  have hzero : zeroDirent.getD i 0 = 0 := by
    unfold zeroDirent
    rw [List.getD_eq_getElem?_getD, List.getElem?_replicate]
    split <;> rfl
  rw [h.byteAt_root, hzero]
  refine h.built.tail ROOTINO (by rw [h.built.rootType]; decide) _ ?_ hback
  rw [h.built.rootSize]
  exact (Nat.mul_le_mul_left _ ht).trans (Nat.le_add_right _ _)

end Root

/-! ## Which entry has a name -/

/-- What the input files have to fit in: the inodes, the longest file, the disk, and the root
directory, whose entries must not end at the end of a block. -/
structure Fits (files : List HostFile) : Prop where
  count : files.length ≤ NINODES - 2
  lengths : ∀ f ∈ files, f.2.length ≤ MAXFILE * BSIZE
  blocks : blocksUsed files ≤ FSSIZE
  ends : DIRENTSZ * (files.length + 2) % BSIZE ≠ 0

structure WellNamed (files : List HostFile) : Prop where
  names : ∀ f ∈ files, IsName (entryName f.1)
  distinct : (files.map fun f => (entryName f.1).take DIRSIZ).Nodup

theorem Fits.inodes {files : List HostFile} (h : Fits files) : files.length + 2 ≤ NINODES := by
  have hcount := h.count
  have htwo : 2 ≤ NINODES := by decide
  omega

theorem WellNamed.takes {files : List HostFile} (hn : WellNamed files) (hf : Fits files) :
    ∀ f ∈ files, Takes f := by
  intro f hmem
  refine ⟨fun hslash => ?_, hf.lengths f hmem⟩
  have hentry := (hn.names f hmem).slash
  unfold entryName at hentry
  split at hentry
  next hhead =>
    cases hf1 : f.1 with
    | nil =>
      rw [hf1] at hslash
      cases hslash
    | cons c t =>
      rw [hf1] at hslash hentry hhead
      rw [List.mem_cons] at hslash
      rcases hslash with rfl | hslash
      · cases hhead
      · exact hentry hslash
  next => exact hentry hslash

theorem eq_of_take_eq {name e : Str} (he : e.length < DIRSIZ)
    (h : name.take DIRSIZ = e.take DIRSIZ) : name = e := by
  rw [List.take_of_length_le he.le] at h
  have hlen := congrArg List.length h
  rw [List.length_take] at hlen
  rwa [List.take_of_length_le (by omega)] at h

section Hit

variable {name : Str} {i : ℕ} {e : Str}

theorem nameHit_direntBytes (hname : 0 ∉ name) (he : 0 ∉ e) (hi : 0 < i) (hlt : i < 2 ^ 16) :
    nameHit (name.take DIRSIZ) (deInum (direntBytes i e)) (deName (direntBytes i e)) = true ↔
      name.take DIRSIZ = e.take DIRSIZ := by
  have htake : 0 ∉ name.take DIRSIZ := fun h => hname (List.mem_of_mem_take h)
  have hne : i ≠ 0 := hi.ne'
  unfold nameHit
  rw [deInum_direntBytes, Nat.mod_eq_of_lt hlt, deName_direntBytes, Bool.and_eq_true,
    decide_eq_true_eq, decide_eq_true_eq, namecmp_eq_zero, strncpy_strncpy,
    strncpy_eq_iff _ htake he, List.take_take, Nat.min_self]
  exact and_iff_right hne

end Hit

section Lookup

variable {files : List HostFile} {m m₀ : Mk} {name : Str}

theorem entries_cases {t : ℕ} {e : ℕ × Str} (h : (entries files)[t]? = some e) :
    (e.1 = ROOTINO ∧ (e.2 = DOT ∨ e.2 = DOTDOT)) ∨
      ∃ j f, t = j + 2 ∧ files[j]? = some f ∧ e = (j + 2, entryName f.1) := by
  match t with
  | 0 =>
    cases h
    exact .inl ⟨rfl, .inl rfl⟩
  | 1 =>
    cases h
    exact .inl ⟨rfl, .inr rfl⟩
  | j + 2 =>
    have hj : j < files.length := by
      have hlen := (List.getElem?_eq_some_iff.mp h).1
      rw [length_entries] at hlen
      omega
    have hf := List.getElem?_eq_getElem hj
    rw [entries_file hf] at h
    exact .inr ⟨j, _, rfl, hf, (Option.some.inj h).symm⟩

theorem Made.hit_iff (h : Made files m₀ m) (hfit : Fits files) (hnames : WellNamed files)
    (hname : IsName name) {t : ℕ}
    (ht : DIRENTSZ * t + DIRENTSZ ≤ ((volumeOf sb m.disk).dinode ROOTINO).size) :
    hitAt (volumeOf sb m.disk).data ((volumeOf sb m.disk).dinode ROOTINO)
        (nameHit (name.take DIRSIZ)) (DIRENTSZ * t) = true ↔
      ∃ j f, t = j + 2 ∧ files[j]? = some f ∧
        name.take DIRSIZ = (entryName f.1).take DIRSIZ := by
  unfold hitAt
  by_cases hlt : t < files.length + 2
  · obtain ⟨e, he⟩ : ∃ e, (entries files)[t]? = some e :=
      ⟨_, List.getElem?_eq_getElem (by rw [length_entries]; exact hlt)⟩
    rw [h.direntAt_entry he]
    rcases entries_cases he with ⟨hroot, hdots⟩ | ⟨j, f, rfl, hf, rfl⟩
    · -- the entries `"."` and `".."`
      have hnul : 0 ∉ e.2 := by rcases hdots with hd | hd <;> rw [hd] <;> decide
      have hshort : e.2.length < DIRSIZ := by rcases hdots with hd | hd <;> rw [hd] <;> decide
      rw [nameHit_direntBytes hname.nul hnul (by rw [hroot]; decide) (by rw [hroot]; decide)]
      constructor
      · intro htake
        have heq := eq_of_take_eq hshort htake
        rcases hdots with hd | hd
        · exact absurd (heq.trans hd) hname.dot
        · exact absurd (heq.trans hd) hname.dotdot
      · rintro ⟨j, f, rfl, hf, -⟩
        rw [entries_file hf] at he
        rw [← Option.some.inj he] at hroot
        exact absurd hroot (by unfold ROOTINO; omega)
    · have hmem := List.mem_of_getElem? hf
      have hj : j < files.length := (List.getElem?_eq_some_iff.mp hf).1
      have hsmall : j + 2 < 2 ^ 16 := by
        have hle : files.length + 2 ≤ 200 := hfit.inodes
        omega
      rw [nameHit_direntBytes hname.nul (hnames.names f hmem).nul (Nat.succ_pos _) hsmall]
      constructor
      · exact fun htake => ⟨j, f, rfl, hf, htake⟩
      · rintro ⟨j', f', hjj, hf', htake⟩
        obtain rfl : j = j' := by omega
        rw [hf] at hf'
        cases hf'
        exact htake
  · -- behind the entries
    rw [h.direntAt_blank (by omega) ((h.noHole_root hfit.inodes).mpr hfit.ends) ht]
    constructor
    · intro hit
      unfold nameHit at hit
      rw [deInum_zeroDirent] at hit
      cases hit
    · rintro ⟨j, f, rfl, hf, -⟩
      have hj := (List.getElem?_eq_some_iff.mp hf).1
      omega

theorem WellNamed.unique (hnames : WellNamed files) {j l : ℕ} {f g : HostFile}
    (hf : files[j]? = some f) (hg : files[l]? = some g)
    (h : (entryName f.1).take DIRSIZ = (entryName g.1).take DIRSIZ) : j = l := by
  have hj := (List.getElem?_eq_some_iff.mp hf).1
  refine (List.getElem?_inj (by rw [List.length_map]; exact hj) hnames.distinct).mp ?_
  rw [List.getElem?_map, List.getElem?_map, hf, hg, Option.map_some, Option.map_some, h]

theorem Made.root_facts (h : Made files m₀ m) (hfit : Fits files) :
    ((volumeOf sb m.disk).dinode ROOTINO).type = .dir ∧
    ((volumeOf sb m.disk).dinode ROOTINO).nlink ≠ 0 ∧
    ((volumeOf sb m.disk).dinode ROOTINO).size < 2 ^ 32 ∧
    ∃ t, ((volumeOf sb m.disk).dinode ROOTINO).size = DIRENTSZ * t ∧ files.length + 2 ≤ t := by
  have hroot : (volumeOf sb m.disk).dinode ROOTINO = { m₀.view.dinode ROOTINO with
      size := roundUp (DIRENTSZ * (files.length + 2)) } := by
    rw [h.dinode, ← h.built.rootSize]
    exact Function.update_self ..
  have hle : files.length + 2 ≤ 200 := hfit.inodes
  have h16 : DIRENTSZ = 16 := rfl
  rw [hroot]
  refine ⟨h.built.rootType, ?_, ?_, 32 * (DIRENTSZ * (files.length + 2) / BSIZE + 1), ?_, ?_⟩
  · show (m₀.view.dinode ROOTINO).nlink ≠ 0
    rw [h.built.rootLink]
    decide
  · show roundUp _ < _
    rw [h16]
    unfold roundUp BSIZE
    omega
  · show roundUp _ = _
    rw [h16]
    unfold roundUp BSIZE
    omega
  · rw [h16]
    unfold BSIZE
    omega

theorem Made.readsb_eq (h : Made files m₀ m) : readsb m.disk = sb := by
  unfold readsb
  rw [h.super]
  rfl

section Run

variable {P : Type} [DecidableEq P] (init p : P)

theorem Made.lookup_found (h : Made files m₀ m) (hfit : Fits files) (hnames : WellNamed files)
    (hname : IsName name) {j : ℕ} {f : HostFile} (hf : files[j]? = some f)
    (htake : name.take DIRSIZ = (entryName f.1).take DIRSIZ) :
    ∃ s', (namei sb p (SLASH :: name)).run arbiter p (boot (volumeOf sb m.disk) init) =
        .ok (some 1, s') ∧ s'.vol = (boot (volumeOf sb m.disk) init).vol ∧
      s'.icache 1 = ⟨ROOTDEV, j + 2, 1, none, false, Dinode.zero⟩ := by
  obtain ⟨htype, hlink, hlt, t, ht, hcount⟩ := h.root_facts hfit
  have hno := (h.noHole_root hfit.inodes).mpr hfit.ends
  have hj := (List.getElem?_eq_some_iff.mp hf).1
  have hle : files.length + 2 ≤ 200 := hfit.inodes
  have hhit : ∀ u < t, hitAt (volumeOf sb m.disk).data ((volumeOf sb m.disk).dinode ROOTINO)
      (nameHit (name.take DIRSIZ)) (DIRENTSZ * u) = true ↔ u = j + 2 := by
    intro u hu
    have hin : DIRENTSZ * u + DIRENTSZ ≤ ((volumeOf sb m.disk).dinode ROOTINO).size := by
      rw [ht, ← Nat.mul_succ]
      exact Nat.mul_le_mul_left _ hu
    rw [h.hit_iff hfit hnames hname hin]
    constructor
    · rintro ⟨l, g, rfl, hg, hsame⟩
      rw [hnames.unique hf hg (htake.symm.trans hsame)]
    · rintro rfl
      exact ⟨j, f, rfl, hf, htake⟩
  have hfind := dirfind_eq sb hno htype ht hlt (by omega) hhit
  rw [h.direntAt_entry (entries_file hf), deInum_direntBytes,
    Nat.mod_eq_of_lt (show j + 2 < 2 ^ 16 by omega)] at hfind
  exact namei_found hname htype hlink (by unfold ROOTINO; omega) hfind

theorem Made.read_found (h : Made files m₀ m) (hfit : Fits files) (hnames : WellNamed files)
    {f : HostFile} (hf : f ∈ files) :
    ∃ s', (readPath sb p (SLASH :: entryName f.1)).run arbiter p
      (boot (volumeOf sb m.disk) init) = .ok (some (f.2.length, some f.2), s') := by
  obtain ⟨j, hj⟩ := List.getElem?_of_mem hf
  obtain ⟨s', hrun, hvol, hentry⟩ :=
    h.lookup_found init p hfit hnames (hnames.names f hf) hj rfl
  obtain ⟨htype, hbytes⟩ := h.built.file j f hj
  have hdinode : (volumeOf sb m.disk).dinode (j + 2) = m₀.view.dinode (j + 2) := by
    rw [h.dinode]
    exact Function.update_of_ne (by unfold ROOTINO; omega) ..
  have hsize : (m₀.view.dinode (j + 2)).size = f.2.length := by rw [← hbytes, length_content]
  have hne : (m₀.view.dinode (j + 2)).type ≠ .free := by
    rw [htype]
    decide
  have hd : s'.vol.dinode (s'.icache 1).inum = m₀.view.dinode (j + 2) := by
    rw [hvol, hentry]
    exact hdinode
  have hdata : s'.vol.data = m₀.view.data := by
    rw [hvol]
    exact h.data
  have hfresh : Fresh s' 1 := by
    refine ⟨by rw [hentry], by rw [hentry], by rw [hentry], ?_⟩
    rw [hd]
    exact hne
  have hlt : (m₀.view.dinode (j + 2)).size < 2 ^ 32 := by
    rw [hsize]
    exact (hfit.lengths f hf).trans_lt (by norm_num [MAXFILE, NDIRECT, NINDIRECT, BSIZE])
  obtain ⟨s'', hread⟩ := readPath_run hrun hfresh hd
    (by rw [hdata]; exact h.built.vol.noHole _ hne) hlt
  have hall : (List.range (m₀.view.dinode (j + 2)).size).map
      (byteAt m₀.view.data (m₀.view.dinode (j + 2))) = f.2 := hbytes
  rw [hdata, hall, hsize] at hread
  exact ⟨s'', hread⟩

theorem Made.lookup_missing (h : Made files m₀ m) (hfit : Fits files) (hnames : WellNamed files)
    (hname : IsName name) (hother : ∀ f ∈ files, name.take DIRSIZ ≠ (entryName f.1).take DIRSIZ) :
    ∃ s', (namei sb p (SLASH :: name)).run arbiter p (boot (volumeOf sb m.disk) init) =
      .ok (none, s') := by
  obtain ⟨htype, hlink, hlt, t, ht, -⟩ := h.root_facts hfit
  have hno := (h.noHole_root hfit.inodes).mpr hfit.ends
  refine namei_missing hname htype hlink (dirfind_none sb hno htype ht hlt fun u hu => ?_)
  have hin : DIRENTSZ * u + DIRENTSZ ≤ ((volumeOf sb m.disk).dinode ROOTINO).size := by
    rw [ht, ← Nat.mul_succ]
    exact Nat.mul_le_mul_left _ hu
  rw [← Bool.not_eq_true, h.hit_iff hfit hnames hname hin]
  rintro ⟨l, g, rfl, hg, hsame⟩
  exact hother g (List.mem_of_getElem? hg) hsame

/-- **The image.** If the files fit and are well named, `mkfs` exits with status 0. On its image the
kernel finds each file by its name, with the right size and contents, and it finds nothing under a
name that differs from those of all files in its first `DIRSIZ` bytes. -/
theorem lookup_image (files : List HostFile) (hfit : Fits files) (hnames : WellNamed files) :
    ∃ m, mkfs files = .ok m ∧
      (∀ f ∈ files, ∃ s', (readPath (readsb m.disk) p (SLASH :: entryName f.1)).run arbiter p
        (boot (volumeOf (readsb m.disk) m.disk) init) = .ok (some (f.2.length, some f.2), s')) ∧
      ∀ name, IsName name → (∀ f ∈ files, name.take DIRSIZ ≠ (entryName f.1).take DIRSIZ) →
        ∃ s', (namei (readsb m.disk) p (SLASH :: name)).run arbiter p
          (boot (volumeOf (readsb m.disk) m.disk) init) = .ok (none, s') := by
  obtain ⟨m, m₀, hrun, h⟩ := mkfs_returns files hfit.inodes (hnames.takes hfit) hfit.blocks
  refine ⟨m, hrun, fun f hf => ?_, fun name hname hother => ?_⟩
  · rw [h.readsb_eq]
    exact h.read_found init p hfit hnames hf
  · rw [h.readsb_eq]
    exact h.lookup_missing init p hfit hnames hname hother

end Run

end Lookup

theorem lookup_image_two :
    ∃ m, mkfs twoFiles = .ok m ∧
      ∃ s', (readPath (readsb m.disk) (0 : Fin 1) [47, 99, 97, 116]).run arbiter 0
        (boot (volumeOf (readsb m.disk) m.disk) 0) = .ok (some (3, some [1, 2, 3]), s') := by
  have hfit : Fits twoFiles := ⟨by decide, by decide, by decide, by decide⟩
  have hnames : WellNamed twoFiles := by
    refine ⟨List.forall_mem_cons.mpr ⟨?_, List.forall_mem_singleton.mpr ?_⟩, by decide⟩
    · exact ⟨by decide, by decide, by decide, by decide, by decide⟩
    · exact ⟨by decide, by decide, by decide, by decide, by decide⟩
  obtain ⟨m, hrun, hfound, -⟩ := lookup_image (0 : Fin 1) 0 _ hfit hnames
  exact ⟨m, hrun, hfound _ (List.mem_cons_self ..)⟩

def longName : Str := [97, 98, 99, 100, 101, 102, 103, 104, 105, 106, 107, 108, 109, 110]

/-- A longer name that begins with the name of a file leads to the file. -/
theorem longer_name_found :
    ∃ m s', mkfs [(longName, [])] = .ok m ∧ Fits [(longName, [])] ∧ WellNamed [(longName, [])] ∧
      IsName (longName ++ [111]) ∧ longName ++ [111] ≠ entryName longName ∧
      (namei (readsb m.disk) (0 : Fin 1) (SLASH :: (longName ++ [111]))).run arbiter 0
        (boot (volumeOf (readsb m.disk) m.disk) 0) = .ok (some 1, s') := by
  have hfit : Fits [(longName, [])] := ⟨by decide, by decide, by decide, by decide⟩
  have hnames : WellNamed [(longName, [])] := by
    refine ⟨fun f hf => ?_, by decide⟩
    rw [List.mem_singleton.mp hf]
    exact ⟨by decide, by decide, by decide, by decide, by decide⟩
  have hlong : IsName (longName ++ [111]) := ⟨by decide, by decide, by decide, by decide, by decide⟩
  obtain ⟨m, m₀, hrun, h⟩ := mkfs_returns _ hfit.inodes (hnames.takes hfit) hfit.blocks
  obtain ⟨s', hs', -⟩ := h.lookup_found (0 : Fin 1) 0 hfit hnames hlong (j := 0) rfl (by decide)
  rw [← h.readsb_eq] at hs'
  exact ⟨m, s', hrun, hfit, hnames, hlong, by decide, hs'⟩

end Xv6.Mkfs
