import Xv6.Fs.ByteArray
import Xv6.Fs.Lookup
import Xv6.Lib.SlotMap

/-!
# A directory is a finite map

A directory is a table of slots of `DIRENTSZ` bytes, empty if the inode number is 0. `dirlink` uses
the first empty slot, or appends one; `sys_unlink` writes zeros over the slot that `dirlookup` has
found. Names are compared and stored as `DIRSIZ` bytes.

1. `link` and `unlink`: what `dirlink` and `sys_unlink` do to the directory.
2. The panics on the way are those of a full disk or log.
3. `IsDir m`: the directory represents the map `m`, from stored names to inode numbers. Lookup reads
   the map; `link` and `unlink` change it at one key, and one slot (`directory_is_map`).
4. `dirlink_link`, `sysUnlink_unlink`: the kernel's functions do what `link` and `unlink` do.
-/

namespace Xv6.Fs

open StateExcept Function

section Operations

variable (sb : Superblock) (inum : ℕ)

/-- `dirlink`, apart from the reference to the inode of an entry that exists. -/
def link (name : Str) (i : ℕ) : InodeM Bool := do
  match ← dirfind sb name with
  | some _ => return false
  | none => do
    dirAppend sb inum name i
    return true

/-- The part of `sys_unlink` that removes the entry. -/
def unlink (name : Str) : InodeM Bool := do
  match ← dirfind sb name with
  | some (_, off) => do
    dirErase sb inum off
    return true
  | none => return false

end Operations

/-! ## What can fail -/

section Full

def Full (e : Panic) : Prop := e = .outOfBlocks ∨ ∃ l, e = .log l

variable {sb : Superblock}

theorem logWrite_raises (b : ℕ) : Raises Full (logWrite sb b) := by
  intro v e h
  unfold logWrite at h
  split at h
  · cases h; exact .inr ⟨_, rfl⟩
  · split at h
    · cases h; exact .inr ⟨_, rfl⟩
    · cases h

theorem onVol_raises {α : Type} {m : VolM α} (h : Raises Full m) : Raises Full (onVol m) := by
  intro x e hx
  unfold onVol at hx
  split at hx
  · cases hx
  next e' he =>
    cases hx
    exact h _ _ he

theorem bzero_raises (b : ℕ) : Raises Full (bzero sb b) :=
  (Raises.modify _).bind fun _ => logWrite_raises b

theorem balloc_raises : Raises Full (balloc sb) := by
  refine Raises.get.bind fun v => ?_
  split
  next b _ =>
    exact (Raises.set _).bind fun _ => (logWrite_raises _).bind fun _ =>
      (bzero_raises _).bind fun _ => Raises.pure _
  next => exact Raises.throw (.inl rfl)

theorem iupdate_raises (inum : ℕ) : Raises Full (iupdate sb inum) :=
  (onVol_raises (logWrite_raises _)).bind fun _ => .modify _

theorem addrAlloc_raises (i : ℕ) : Raises Full (addrAlloc sb i) :=
  Raises.get.bind fun _ => Raises.ite
    ((onVol_raises balloc_raises).bind fun _ => (Raises.modify _).bind fun _ => Raises.pure _)
    (Raises.pure _)

theorem indirectAlloc_raises (ind bn : ℕ) : Raises Full (indirectAlloc sb ind bn) :=
  Raises.get.bind fun _ => Raises.ite
    ((onVol_raises balloc_raises).bind fun _ => (Raises.modify _).bind fun _ =>
      (onVol_raises (logWrite_raises _)).bind fun _ => Raises.pure _)
    (Raises.pure _)

theorem bmap_raises {bn : ℕ} (h : bn < MAXFILE) : Raises Full (bmap sb bn) := by
  unfold bmap
  split
  next => exact addrAlloc_raises bn
  next hbn =>
    rw [if_pos (by unfold MAXFILE at h; omega)]
    exact (addrAlloc_raises _).bind fun _ => indirectAlloc_raises _ _

theorem writeLoop_raises (fuel off : ℕ) (src : List UInt8)
    (h : off + src.length ≤ MAXFILE * BSIZE) : Raises Full (writeLoop sb fuel off src) := by
  induction fuel generalizing off src with
  | zero => exact Raises.pure _
  | succ fuel ih =>
    unfold writeLoop
    split
    next => exact Raises.pure _
    next hne =>
      have hpos : 0 < src.length := List.length_pos_iff.mpr hne
      have hbn : off / BSIZE < MAXFILE := Nat.div_lt_of_lt_mul (by rw [Nat.mul_comm]; omega)
      refine (bmap_raises hbn).bind fun addr => (Raises.modify _).bind fun _ =>
        (onVol_raises (logWrite_raises _)).bind fun _ => ih _ _ ?_
      rw [List.length_drop]
      omega

theorem writei_raises (inum off : ℕ) (src : List UInt8) : Raises Full (writei sb inum off src) := by
  refine Raises.get.bind fun x => Raises.ite (Raises.pure _) ?_
  split
  next => exact Raises.pure _
  next hle =>
    refine (writeLoop_raises _ _ _ (not_lt.mp hle)).bind fun _ => Raises.ite ?_ (Raises.pure _)
    exact (Raises.modify _).bind fun _ => (iupdate_raises _).bind fun _ => Raises.pure _

end Full

/-! ## The map of a directory -/

def entryAt (data : ℕ → Block) (d : Dinode) (t : ℕ) : Option (Str × ℕ) :=
  if deInum (direntAt data d (DIRENTSZ * t)) = 0 then none
  else some (strncpy DIRSIZ (deName (direntAt data d (DIRENTSZ * t))),
    deInum (direntAt data d (DIRENTSZ * t)))

def Dinode.slots (d : Dinode) : ℕ := d.size / DIRENTSZ

structure IsDir (sb : Superblock) (K : Set ℕ) (inum : ℕ) (m : Str → Option ℕ)
    (x : Dinode × Volume) : Prop where
  inv : VolInv sb K x.2 x.2.dinode
  dinode : x.2.dinode inum = x.1
  type : x.1.type = .dir
  aligned : DIRENTSZ ∣ x.1.size
  map : SlotMap.Holds x.1.slots (entryAt x.2.data x.1) m

section Directory

variable {sb : Superblock} {K : Set ℕ} {inum : ℕ} {m : Str → Option ℕ} {x x' : Dinode × Volume}
  {name : Str} {i t : ℕ}

theorem nameHit_iff {data : ℕ → Block} {d : Dinode} :
    hitAt data d (nameHit name) (DIRENTSZ * t) = true ↔
      ∃ i, entryAt data d t = some (strncpy DIRSIZ name, i) := by
  unfold hitAt nameHit entryAt
  by_cases h0 : deInum (direntAt data d (DIRENTSZ * t)) = 0
  · simp [h0]
  · simp only [ne_eq, h0, not_false_eq_true, decide_true, Bool.true_and, decide_eq_true_eq,
      namecmp_eq_zero, if_neg]
    exact ⟨fun h => ⟨_, by rw [h]⟩, fun ⟨_, h⟩ => (congrArg Prod.fst (Option.some.inj h)).symm⟩

theorem emptyHit_iff {data : ℕ → Block} {d : Dinode} :
    hitAt data d (fun i _ => i = 0) (DIRENTSZ * t) = true ↔ entryAt data d t = none := by
  unfold hitAt entryAt
  by_cases h0 : deInum (direntAt data d (DIRENTSZ * t)) = 0 <;> simp [h0]

theorem IsDir.size_eq (h : IsDir sb K inum m x) : x.1.size = DIRENTSZ * x.1.slots :=
  (Nat.mul_div_cancel' h.aligned).symm

theorem IsDir.noHole (h : IsDir sb K inum m x) : NoHole x.2.data x.1 := by
  have := h.inv.noHole inum (by rw [h.dinode, h.type]; decide)
  rwa [h.dinode] at this

theorem IsDir.size_lt (h : IsDir sb K inum m x) : x.1.size < 2 ^ 32 :=
  h.noHole.size_le.trans_lt (by decide)

theorem ScanEnd.slot {hit : ℕ → Str → Bool} {off : ℕ} {r : Option ℕ} (h : IsDir sb K inum m x)
    (hend : ScanEnd x.2.data x.1 hit 0 off r) :
    ∃ t, off = DIRENTSZ * t ∧ (∀ u < t, hitAt x.2.data x.1 hit (DIRENTSZ * u) = false) ∧
      (r = none ∧ t = x.1.slots ∨ t < x.1.slots ∧ hitAt x.2.data x.1 hit (DIRENTSZ * t) = true ∧
        r = some (deInum (direntAt x.2.data x.1 (DIRENTSZ * t)))) := by
  obtain ⟨⟨t, ht, hpass⟩, hfound, hended⟩ := hend
  rw [Nat.zero_add] at ht
  subst ht
  have hsize := h.size_eq
  refine ⟨t, rfl, fun u hu => ?_, ?_⟩
  · have := (hpass u hu).2
    rwa [Nat.zero_add] at this
  · cases r with
    | none =>
      refine .inl ⟨rfl, le_antisymm ?_ ?_⟩
      · -- the slots passed lie within the directory
        cases t with
        | zero => exact Nat.zero_le _
        | succ t =>
          have := (hpass t (Nat.lt_succ_self t)).1
          rw [Nat.zero_add, ← Nat.mul_succ, hsize] at this
          exact Nat.le_of_mul_le_mul_left this (by decide)
      · have := hended rfl
        rw [hsize] at this
        exact Nat.le_of_mul_le_mul_left this (by decide)
    | some i =>
      obtain ⟨hin, hhit, hi⟩ := hfound i rfl
      rw [← Nat.mul_succ, hsize] at hin
      exact .inr ⟨Nat.le_of_mul_le_mul_left hin (by decide), hhit, by rw [hi]⟩

/-- **`dirlookup`.** It returns what the map says of the name, with the offset of the slot. -/
theorem IsDir.lookup (h : IsDir sb K inum m x) (name : Str) :
    (m (strncpy DIRSIZ name) = none ∧ dirfind sb name x = .ok (none, x)) ∨
    ∃ t i, t < x.1.slots ∧ entryAt x.2.data x.1 t = some (strncpy DIRSIZ name, i) ∧
      m (strncpy DIRSIZ name) = some i ∧ dirfind sb name x = .ok (some (i, DIRENTSZ * t), x) := by
  obtain ⟨off, r, hfind, hend⟩ := dirfind_returns sb h.noHole h.type h.size_eq h.size_lt name
  obtain ⟨t, rfl, hmiss, ⟨rfl, rfl⟩ | ⟨ht, hhit, rfl⟩⟩ := hend.slot h
  · refine .inl ⟨h.map.eq_none.mpr fun u hu v hslot => ?_, hfind⟩
    have := nameHit_iff.mpr ⟨v, hslot⟩
    rw [hmiss u hu] at this
    cases this
  · obtain ⟨i, hi⟩ := nameHit_iff.mp hhit
    have hinum : deInum (direntAt x.2.data x.1 (DIRENTSZ * t)) = i := by
      unfold entryAt at hi
      split at hi
      · cases hi
      · exact congrArg Prod.snd (Option.some.inj hi)
    refine .inr ⟨t, i, ht, hi, (h.map.mem _ _).mpr ⟨t, ht, hi⟩, ?_⟩
    rw [hfind, hinum]
    rfl

theorem IsDir.write {m' : Str → Option ℕ} {src : List UInt8} (h : IsDir sb K inum m x)
    (hw : EntryWritten sb K inum (DIRENTSZ * t) src x.1 x.2 x'.1 x'.2)
    (hm : (∀ u < x.1.slots, u ≠ t → entryAt x'.2.data x'.1 u = entryAt x.2.data x.1 u) →
      SlotMap.Holds (max x.1.slots (t + 1)) (entryAt x'.2.data x'.1) m') :
    IsDir sb K inum m' x' ∧ x'.1.size = DIRENTSZ * max x.1.slots (t + 1) ∧
      ∀ u < x.1.slots, u ≠ t →
        direntAt x'.2.data x'.1 (DIRENTSZ * u) = direntAt x.2.data x.1 (DIRENTSZ * u) := by
  have hrest : ∀ u < x.1.slots, u ≠ t →
      direntAt x'.2.data x'.1 (DIRENTSZ * u) = direntAt x.2.data x.1 (DIRENTSZ * u) := by
    intro u hu hut
    refine hw.rest _ ?_ ?_
    · rw [h.size_eq, ← Nat.mul_succ]
      exact Nat.mul_le_mul_left _ hu
    · rw [← Nat.mul_succ, ← Nat.mul_succ]
      rcases Nat.lt_or_gt_of_ne hut with hlt | hgt
      · exact .inl (Nat.mul_le_mul_left _ hlt)
      · exact .inr (Nat.mul_le_mul_left _ hgt)
  have hsize : x'.1.size = DIRENTSZ * max x.1.slots (t + 1) := by
    rw [hw.same]
    show max x.1.size (DIRENTSZ * t + DIRENTSZ) = _
    rw [h.size_eq, ← Nat.mul_succ, Nat.mul_max_mul_left]
  have hslots : x'.1.slots = max x.1.slots (t + 1) := by
    unfold Dinode.slots at hsize ⊢
    rw [hsize, Nat.mul_div_cancel_left _ (by decide)]
  refine ⟨⟨hw.inv, ?_, ?_, ?_, ?_⟩, hsize, hrest⟩
  · rw [hw.dinode, update_self]
  · rw [hw.same]; exact h.type
  · rw [hsize]; exact Nat.dvd_mul_right ..
  · rw [hslots]
    refine hm fun u hu hut => ?_
    unfold entryAt
    rw [hrest u hu hut]

/-- There are free blocks for what slot `t` of the directory needs, and room in the log. -/
def Affords (sb : Superblock) (x : Dinode × Volume) (t : ℕ) : Prop :=
  missing x.2.data x.1 (DIRENTSZ * t) DIRENTSZ ≤ (freeBlocks sb x.2).card ∧
    LogRoom sb x.2 x.1 (DIRENTSZ * t) DIRENTSZ

theorem IsDir.writei (src : List UInt8) (hsb : sb.WF) (h : IsDir sb K inum m x)
    (hsrc : src.length = DIRENTSZ) (ht : t ≤ x.1.slots)
    (hmax : DIRENTSZ * t + DIRENTSZ ≤ MAXFILE * BSIZE) :
    (¬ Affords sb x t ∧ ∃ e, Full e ∧ writei sb inum (DIRENTSZ * t) src x = .error e) ∨
    ∃ x', writei sb inum (DIRENTSZ * t) src x = .ok (some DIRENTSZ, x') ∧
      EntryWritten sb K inum (DIRENTSZ * t) src x.1 x.2 x'.1 x'.2 := by
  have htype : x.1.type ≠ .free := by rw [h.type]; decide
  have hoff : DIRENTSZ * t ≤ x.1.size := by
    rw [h.size_eq]
    exact Nat.mul_le_mul_left _ ht
  cases hw : Fs.writei sb inum (DIRENTSZ * t) src x with
  | error e =>
    refine .inl ⟨fun haff => ?_, e, writei_raises _ _ _ _ _ hw, rfl⟩
    have hfree : missing x.2.data x.1 (DIRENTSZ * t) src.length ≤ (freeBlocks sb x.2).card := by
      rw [hsrc]
      exact haff.1
    have hlog : LogRoom sb x.2 x.1 (DIRENTSZ * t) src.length := by
      rw [hsrc]
      exact haff.2
    have hle : DIRENTSZ * t + src.length ≤ MAXFILE * BSIZE := by
      rw [hsrc]
      exact hmax
    obtain ⟨d', v', hok⟩ := writei_returns h.inv hsb h.dinode htype hoff hle hfree hlog
    cases hw.symm.trans hok
  | ok y =>
    obtain ⟨r, x'⟩ := y
    right
    rcases writei_inv h.inv hsb h.dinode htype hw with ⟨rfl, -⟩ | ⟨rfl, -⟩
    · -- the offset is within the directory, and the file not at its limit
      exfalso
      have h32 : MAXFILE * BSIZE < 2 ^ 32 := by decide
      unfold Fs.writei at hw
      rw [get_bind] at hw
      dsimp only at hw
      rw [hsrc, if_neg (by omega), if_neg (by omega)] at hw
      obtain ⟨_, _, -, hw⟩ := bind_ok.mp hw
      split at hw
      · obtain ⟨_, _, -, hw⟩ := bind_ok.mp hw
        obtain ⟨_, _, -, hw⟩ := bind_ok.mp hw
        cases (pure_ok hw).1
      · cases (pure_ok hw).1
    · rw [hsrc] at hw ⊢
      exact ⟨x', rfl, EntryWritten.of_writei hsrc h.inv hsb h.dinode htype hw⟩

/-- The slot that `dirlink` uses: the first empty one, or a new one. -/
def Dinode.IsNext (d : Dinode) (data : ℕ → Block) (t : ℕ) : Prop :=
  (∀ u < t, entryAt data d u ≠ none) ∧ (t < d.slots ∧ entryAt data d t = none ∨ t = d.slots)

def Dinode.HasRoom (d : Dinode) (data : ℕ → Block) : Prop :=
  (∃ t < d.slots, entryAt data d t = none) ∨ d.size < MAXFILE * BSIZE

theorem IsDir.next (h : IsDir sb K inum m x) : ∃ t r, x.1.IsNext x.2.data t ∧
    scanDir sb .dirlinkRead (fun i _ => i = 0) 0 x = .ok ((DIRENTSZ * t, r), x) := by
  obtain ⟨⟨off, r⟩, hscan⟩ := scan_returns sb .dirlinkRead (fun i _ => i = 0) h.noHole h.size_eq
    h.size_lt x.1.size 0
  have hdir : scanDir sb .dirlinkRead (fun i _ => i = 0) 0 x = .ok ((off, r), x) := hscan
  obtain ⟨t, rfl, hmiss, hend⟩ := (scanDir_ok h.noHole hdir).2.slot h
  refine ⟨t, r, ⟨fun u hu hnone => ?_, ?_⟩, hdir⟩
  · have := emptyHit_iff.mpr hnone
    rw [hmiss u hu] at this
    cases this
  · rcases hend with ⟨-, ht⟩ | ⟨ht, hhit, -⟩
    · exact .inr ht
    · exact .inl ⟨ht, emptyHit_iff.mp hhit⟩

theorem Dinode.IsNext.le {d : Dinode} {data : ℕ → Block} (h : d.IsNext data t) : t ≤ d.slots := by
  rcases h.2 with ⟨ht, -⟩ | ht <;> omega

theorem IsDir.hasRoom_iff (h : IsDir sb K inum m x) (hnext : x.1.IsNext x.2.data t) :
    x.1.HasRoom x.2.data ↔ DIRENTSZ * t + DIRENTSZ ≤ MAXFILE * BSIZE := by
  have hsize := h.noHole.size_le
  have heq := h.size_eq
  have hM : MAXFILE * BSIZE = DIRENTSZ * 4480 := by decide
  rw [← Nat.mul_succ]
  constructor
  · intro hroom
    rcases hnext.2 with ⟨ht, -⟩ | ht
    · exact (Nat.mul_le_mul_left DIRENTSZ ht).trans (heq ▸ hsize)
    · rcases hroom with ⟨u, hu, hnone⟩ | hlt
      · exact absurd hnone (hnext.1 u (by omega))
      · rw [hM, heq] at hlt
        rw [hM, ht]
        exact Nat.mul_le_mul_left _ (Nat.lt_of_mul_lt_mul_left hlt)
  · intro hle
    rcases hnext.2 with ⟨ht, hn⟩ | ht
    · exact .inl ⟨t, ht, hn⟩
    · right
      rw [heq, ← ht]
      exact lt_of_lt_of_le (Nat.mul_lt_mul_of_pos_left (Nat.lt_succ_self t) (by decide)) hle

theorem IsDir.dirAppend (name : Str) (i : ℕ) (hsb : sb.WF) (h : IsDir sb K inum m x) :
    ∃ t, x.1.IsNext x.2.data t ∧
      (x.1.HasRoom x.2.data →
        (¬ Affords sb x t ∧ ∃ e, Full e ∧ dirAppend sb inum name i x = .error e) ∨
        ∃ x', dirAppend sb inum name i x = .ok ((), x') ∧
          EntryWritten sb K inum (DIRENTSZ * t) (direntBytes i name) x.1 x.2 x'.1 x'.2) ∧
      (¬ x.1.HasRoom x.2.data → dirAppend sb inum name i x = .error .dirlink) := by
  obtain ⟨t, r, hnext, hdir⟩ := h.next
  refine ⟨t, hnext, fun hroom => ?_, fun hfull => ?_⟩ <;> unfold Fs.dirAppend <;>
    rw [bind_eq hdir] <;> dsimp only
  · rcases h.writei _ hsb (length_direntBytes i name) hnext.le ((h.hasRoom_iff hnext).mp hroom) with
      ⟨hno, e, he, hw⟩ | ⟨x', hw, hwrote⟩
    · exact .inl ⟨hno, e, he, bind_error hw⟩
    · refine .inr ⟨x', ?_, hwrote⟩
      rw [bind_eq hw]
      rfl
  · -- `writei` refuses
    have hw : Fs.writei sb inum (DIRENTSZ * t) (direntBytes i name) x = .ok (none, x) := by
      rw [h.hasRoom_iff hnext] at hfull
      unfold Fs.writei
      rw [get_bind]
      dsimp only
      split
      next => rfl
      next => rw [length_direntBytes, if_pos (by omega)]; rfl
    rw [bind_eq hw]
    rfl

structure Linked (name : Str) (i : ℕ) (x x' : Dinode × Volume) (t : ℕ) : Prop where
  next : x.1.IsNext x.2.data t
  entry : entryAt x'.2.data x'.1 t = some (strncpy DIRSIZ name, i)
  rest : ∀ u < x.1.slots, u ≠ t →
    direntAt x'.2.data x'.1 (DIRENTSZ * u) = direntAt x.2.data x.1 (DIRENTSZ * u)
  size : x'.1.size = if t < x.1.slots then x.1.size else x.1.size + DIRENTSZ

/-- **`dirlink`.** A name that is there is refused. A new one is put into the first empty slot, or
behind the last. -/
theorem IsDir.link (name : Str) (hsb : sb.WF) (h : IsDir sb K inum m x) (hi : 0 < i)
    (hlt : i < 2 ^ 16) :
    ((m (strncpy DIRSIZ name)).isSome → link sb inum name i x = .ok (false, x)) ∧
    (m (strncpy DIRSIZ name) = none → x.1.HasRoom x.2.data → ∃ t, x.1.IsNext x.2.data t ∧
      ((¬ Affords sb x t ∧ ∃ e, Full e ∧ link sb inum name i x = .error e) ∨
      ∃ x', link sb inum name i x = .ok (true, x') ∧ Linked name i x x' t ∧
        IsDir sb K inum (update m (strncpy DIRSIZ name) (some i)) x')) ∧
    (m (strncpy DIRSIZ name) = none → ¬ x.1.HasRoom x.2.data →
      link sb inum name i x = .error .dirlink) := by
  obtain ⟨t, hnext, happend, hfull⟩ := h.dirAppend name i hsb
  have hlink : m (strncpy DIRSIZ name) = none → Fs.link sb inum name i x =
      (Fs.dirAppend sb inum name i >>= fun _ => pure true) x := by
    intro hnone
    rcases h.lookup name with ⟨-, hfind⟩ | ⟨t, j, -, -, hm, -⟩
    · exact bind_eq hfind
    · rw [hm] at hnone
      cases hnone
  refine ⟨fun hsome => ?_, fun hnone hroom => ?_, fun hnone hno => ?_⟩
  · rcases h.lookup name with ⟨hm, -⟩ | ⟨t, j, -, -, -, hfind⟩
    · rw [hm] at hsome
      cases hsome
    · exact bind_eq hfind
  · rw [hlink hnone]
    refine ⟨t, hnext, ?_⟩
    rcases happend hroom with ⟨hno, e, he, happ⟩ | ⟨x', happ, hwrote⟩
    · exact .inl ⟨hno, e, he, bind_error happ⟩
    · have hentry : entryAt x'.2.data x'.1 t = some (strncpy DIRSIZ name, i) := by
        unfold entryAt
        rw [hwrote.entry, deInum_direntBytes, deName_direntBytes, strncpy_strncpy,
          Nat.mod_eq_of_lt hlt, if_neg hi.ne']
      have hslots : t < x.1.slots ∧ max x.1.slots (t + 1) = x.1.slots ∧
          entryAt x.2.data x.1 t = none ∨
          t = x.1.slots ∧ max x.1.slots (t + 1) = x.1.slots + 1 := by
        rcases hnext.2 with ⟨ht, hn⟩ | ht
        · exact .inl ⟨ht, by omega, hn⟩
        · exact .inr ⟨ht, by omega⟩
      obtain ⟨hdir, hsize, hrest⟩ := h.write hwrote
        fun hold => h.map.insert hnone hslots hentry hold
      refine .inr ⟨x', by rw [bind_eq happ]; rfl, ⟨hnext, hentry, hrest, ?_⟩, hdir⟩
      rw [hsize, h.size_eq]
      rcases hslots with ⟨ht, hmax, -⟩ | ⟨ht, hmax⟩
      · rw [if_pos ht, hmax]
      · rw [if_neg (by omega), hmax, Nat.mul_succ]
  · rw [hlink hnone]
    exact bind_error (hfull hno)

structure Unlinked (name : Str) (i : ℕ) (x x' : Dinode × Volume) (t : ℕ) : Prop where
  lt : t < x.1.slots
  old : entryAt x.2.data x.1 t = some (strncpy DIRSIZ name, i)
  empty : entryAt x'.2.data x'.1 t = none
  rest : ∀ u < x.1.slots, u ≠ t →
    direntAt x'.2.data x'.1 (DIRENTSZ * u) = direntAt x.2.data x.1 (DIRENTSZ * u)
  size : x'.1.size = x.1.size

/-- **Removing an entry.** The slot of the name is emptied. -/
theorem IsDir.unlink (hsb : sb.WF) (h : IsDir sb K inum m x) (name : Str) :
    (m (strncpy DIRSIZ name) = none → unlink sb inum name x = .ok (false, x)) ∧
    ∀ i, m (strncpy DIRSIZ name) = some i →
      ∃ t, entryAt x.2.data x.1 t = some (strncpy DIRSIZ name, i) ∧
        ((¬ Affords sb x t ∧ ∃ e, Full e ∧ unlink sb inum name x = .error e) ∨
        ∃ x', unlink sb inum name x = .ok (true, x') ∧ Unlinked name i x x' t ∧
          IsDir sb K inum (update m (strncpy DIRSIZ name) none) x') := by
  rcases h.lookup name with ⟨hm, hfind⟩ | ⟨t, j, ht, hslot, hm, hfind⟩
  · refine ⟨fun _ => bind_eq hfind, fun i hi => ?_⟩
    rw [hm] at hi
    cases hi
  · refine ⟨fun hnone => ?_, fun i hi => ?_⟩
    · rw [hm] at hnone
      cases hnone
    obtain rfl : j = i := Option.some.inj (hm.symm.trans hi)
    have hun : Fs.unlink sb inum name x =
        (dirErase sb inum (DIRENTSZ * t) >>= fun _ => pure true) x := bind_eq hfind
    rw [hun]
    refine ⟨t, hslot, ?_⟩
    have hmax : DIRENTSZ * t + DIRENTSZ ≤ MAXFILE * BSIZE := by
      have hle : DIRENTSZ * (t + 1) ≤ DIRENTSZ * x.1.slots := Nat.mul_le_mul_left _ ht
      have hsize := h.noHole.size_le
      rw [h.size_eq] at hsize
      rw [Nat.mul_succ] at hle
      omega
    rcases h.writei zeroDirent hsb List.length_replicate ht.le hmax with
      ⟨hno, e, he, hw⟩ | ⟨x', hw, hwrote⟩
    · exact .inl ⟨hno, e, he, bind_error (bind_error hw)⟩
    · have herase : dirErase sb inum (DIRENTSZ * t) x = .ok ((), x') := by
        unfold dirErase
        rw [bind_eq hw]
        rfl
      have hempty : entryAt x'.2.data x'.1 t = none := by
        unfold entryAt
        rw [hwrote.entry, deInum_zeroDirent, if_pos rfl]
      have hslots : max x.1.slots (t + 1) = x.1.slots := by omega
      obtain ⟨hdir, hsize, hrest⟩ := h.write hwrote
        fun hold => by rw [hslots]; exact h.map.erase ht hslot hempty hold
      refine .inr ⟨x', by rw [bind_eq herase]; rfl, ⟨ht, hslot, hempty, hrest, ?_⟩, hdir⟩
      rw [hsize, hslots, h.size_eq]

end Directory

/-! ## The code -/

section Code

open Conc

variable {P : Type} {sb : Superblock} {s t : Kernel P} {p : P} {dp : ℕ} {name : Str}

theorem onInode_bind {α β : Type} (k : ℕ) (m : InodeM α) (f : α → InodeM β) (s : Kernel P) :
    onInode k (m >>= f) s = (onInode k m >>= fun a => onInode k (f a)) s := by
  show onInode k (m >>= f) s = (onInode k m s).bind fun r => onInode k (f r.1) r.2
  unfold onInode
  rw [show (m >>= f) ((s.icache k).d, s.vol) =
    (m ((s.icache k).d, s.vol)).bind fun r => f r.1 r.2 from rfl]
  cases m ((s.icache k).d, s.vol) with
  | error e => rfl
  | ok r =>
    obtain ⟨a, d, v⟩ := r
    simp only [Except.bind, setInode_icache, update_self]
    cases f a (d, v) with
    | error e => rfl
    | ok r => simp [Kernel.setInode]

theorem onInode_inum {α : Type} {k : ℕ} {m : InodeM α} {a : α} (h : onInode k m s = .ok (a, t)) :
    (t.icache k).inum = (s.icache k).inum := by
  obtain ⟨d, v, -, rfl⟩ := onInode_ok h
  simp

theorem onInode_pure {α : Type} (k : ℕ) (a : α) : onInode k (pure a) s = .ok (a, s) :=
  onInode_same rfl

theorem dirlink_link (p : P) (s : Kernel P) (dp i : ℕ) (name : Str) :
    (∀ t, onInode dp (link sb (s.icache dp).inum name i) s = .ok (true, t) →
      (dirlink sb dp name i).run arbiter p s = .ok (true, t)) ∧
    (∀ e, onInode dp (link sb (s.icache dp).inum name i) s = .error e →
      (dirlink sb dp name i).run arbiter p s = .error (.error e)) ∧
    ∀ t, onInode dp (link sb (s.icache dp).inum name i) s = .ok (false, t) → ∃ j,
      (dirlink sb dp name i).run arbiter p s =
        (do let ip ← act (iget (t.icache dp).dev j); iput sb ip; return false : Task P Bool).run
          arbiter p t := by
  have hlink : onInode dp (link sb (s.icache dp).inum name i) s =
      (onInode dp (dirfind sb name) s).bind fun r => onInode dp (match r.1 with
        | some _ => pure false
        | none => do
          dirAppend sb (s.icache dp).inum name i
          return true) r.2 := onInode_bind ..
  rw [hlink]
  have hrun : (dirlink sb dp name i).run arbiter p s = match dirlookup sb dp name s with
      | .ok (some (ip, _), s1) => (do iput sb ip; return false : Task P Bool).run arbiter p s1
      | .ok (none, s1) => (do
          act fun s => onInode dp (dirAppend sb (s.icache dp).inum name i) s
          return true : Task P Bool).run arbiter p s1
      | .error e => .error (.error e) := by
    refine (Prog.run_lift_bind ..).trans ?_
    rcases dirlookup sb dp name s with e | ⟨_ | x, s1⟩ <;> rfl
  rw [hrun]
  cases hfind : onInode dp (dirfind sb name) s with
  | error e =>
    rw [show dirlookup sb dp name s = .error e from bind_error hfind]
    refine ⟨fun t h => (by cases h), fun e' h => ?_, fun t h => (by cases h)⟩
    cases h
    rfl
  | ok r =>
    obtain ⟨r, s1⟩ := r
    cases r with
    | some x =>
      refine ⟨fun t h => ?_, fun e h => ?_, fun t h => ⟨x.1, ?_⟩⟩
      · cases h.symm.trans (onInode_pure dp false)
      · cases h.symm.trans (onInode_pure dp false)
      · cases h.symm.trans (onInode_pure dp false)
        rw [show dirlookup sb dp name s = (do
          let ip ← iget (s1.icache dp).dev x.1
          return some (ip, x.2)) s1 from bind_eq hfind]
        refine Eq.trans ?_ (Prog.run_lift_bind ..).symm
        show (match (iget (s1.icache dp).dev x.1 s1).bind fun r => .ok (some (r.1, x.2), r.2) with
          | .ok (some (ip, _), s1) => _
          | .ok (none, s1) => _
          | .error e => _) = _
        rcases iget (s1.icache dp).dev x.1 s1 with e | ⟨ip, s2⟩ <;> rfl
    | none =>
      have hlook : dirlookup sb dp name s = .ok (none, s1) := bind_eq hfind
      have happ : onInode dp (do
          dirAppend sb (s.icache dp).inum name i
          return true) s1 = (onInode dp (dirAppend sb (s1.icache dp).inum name i) s1).bind
            fun r => .ok (true, r.2) := by
        rw [onInode_inum hfind]
        refine (onInode_bind ..).trans ?_
        show (onInode dp (dirAppend sb (s.icache dp).inum name i) s1).bind
          (fun r => onInode dp (pure true) r.2) = _
        simp only [onInode_pure]
      rw [hlook]
      dsimp only [Except.bind] at happ ⊢
      rw [happ, Prog.run_lift_bind]
      rcases onInode dp (dirAppend sb (s1.icache dp).inum name i) s1 with e | ⟨u, s2⟩
      · refine ⟨fun t h => (by cases h), fun e' h => ?_, fun t h => (by cases h)⟩
        cases h
        rfl
      · refine ⟨fun t h => ?_, fun e' h => (by cases h), fun t h => (by cases h)⟩
        cases h
        rfl

/-! What the steps of `sys_unlink` before it removes the entry do, with nothing else running. -/

theorem ilock_alone {k : ℕ} {u : Unit} (h : (ilock k).run arbiter p s = .ok (u, t)) :
    t.vol = s.vol ∧ (s.icache k).lock = none ∧ (t.icache k).inum = (s.icache k).inum ∧
      ∀ l, l ≠ k → t.icache l = s.icache l := by
  obtain ⟨_, s1, htest, h⟩ := Prog.run_bind_eq_ok.mp h
  replace htest := Prog.run_lift_eq_ok.mp htest
  obtain ⟨_, s2, hlock, h⟩ := Prog.run_bind_eq_ok.mp h
  replace h := Prog.run_lift_eq_ok.mp h
  split at htest
  · cases htest
  cases htest
  simp only [Prog.request, Prog.run] at hlock
  split at hlock
  swap
  · cases hlock
  next hready =>
    cases hlock
    have hnone : (s.icache k).lock = none := Option.isNone_iff_eq_none.mp hready
    unfold iload at h
    split at h
    · cases h
      exact ⟨rfl, hnone, by simp [arbiter], fun l hl => by simp [arbiter, hl]⟩
    · split at h
      · cases h
      · cases h
        exact ⟨rfl, hnone, by simp [arbiter], fun l hl => by simp [arbiter, hl]⟩

theorem iget_alone {dev j k : ℕ} (h : iget dev j s = .ok (k, t)) : t.vol = s.vol ∧
    ∀ l, (t.icache l).d = (s.icache l).d ∧ (t.icache l).lock = (s.icache l).lock ∧
      (0 < (s.icache l).ref → (t.icache l).inum = (s.icache l).inum) := by
  unfold iget at h
  split at h
  · cases h
    refine ⟨rfl, fun l => ?_⟩
    by_cases hl : l = k
    · subst hl
      simp
    · simp [hl]
  · split at h
    next k' hfree =>
      cases h
      refine ⟨rfl, fun l => ?_⟩
      by_cases hl : l = k
      · subst hl
        have h0 := List.find?_some hfree
        simp at h0
        simp [h0]
      · simp [hl]
    next => cases h

theorem dirlookup_alone {ip off : ℕ} (hno : NoHole s.vol.data (s.icache dp).d)
    (h : dirlookup sb dp name s = .ok (some (ip, off), t)) : ∃ j,
      dirfind sb name ((s.icache dp).d, s.vol) = .ok (some (j, off), ((s.icache dp).d, s.vol)) ∧
      iget (s.icache dp).dev j s = .ok (ip, t) := by
  obtain ⟨r, s', hfind, h⟩ := bind_ok.mp h
  obtain ⟨d, v, hdf, rfl⟩ := onInode_ok hfind
  obtain ⟨hsame, -⟩ := dirfind_ok hno hdf
  cases hsame
  rw [show ({ s.setInode dp { s.icache dp with d := (s.icache dp).d } with vol := s.vol } :
    Kernel P) = s from setInode_self] at h
  cases r with
  | none => cases h
  | some y =>
    dsimp only at h
    rw [get_bind] at h
    obtain ⟨_, _, hget, hret⟩ := bind_ok.mp h
    cases hret
    exact ⟨y.1, hdf, hget⟩

theorem unlinkTest_alone {k : ℕ} {b : Bool} (hno : NoHole s.vol.data (s.icache k).d)
    (h : unlinkTest sb k s = .ok (b, t)) : t = s := by
  unfold unlinkTest at h
  split at h
  · cases h
  split at h
  · obtain ⟨d, v, hempty, rfl⟩ := onInode_ok h
    obtain ⟨hsame, -⟩ := isdirempty_ok hno hempty
    cases hsame
    exact setInode_self
  · cases h
    rfl

variable [DecidableEq P]

theorem unlinkBad_ret {r : Ret} (h : (unlinkBad sb p dp).run arbiter p s = .ok (r, t)) :
    r = .int (-1) := by
  obtain ⟨_, _, -, h⟩ := Prog.run_bind_eq_ok.mp h
  obtain ⟨_, _, -, h⟩ := Prog.run_bind_eq_ok.mp h
  cases h
  rfl

variable [Fintype P] {K : Set ℕ} {A : Prop} {w : Births} {γ : P → Ghost P}

theorem sysUnlink_unlink {path : Str} (hI : GInv sb K True A False s w γ) (hg : γ p = Ghost.start)
    (h : (sysUnlink sb p (some path)).run arbiter p s = .ok (.int 0, t)) :
    ∃ dp name s1 x, (do
        beginOp
        nameiparent sb p path : Task P (Option (ℕ × Str))).run arbiter p s =
          .ok (some (dp, name), s1) ∧
      unlink sb (s1.icache dp).inum name (s1.vol.dinode (s1.icache dp).inum, s1.vol) =
        .ok (true, x) := by
  obtain ⟨_, s0, hbegin, h⟩ := Prog.run_bind_eq_ok.mp h
  obtain ⟨r, s1, hname, h⟩ := Prog.run_bind_eq_ok.mp h
  cases r with
  | none =>
    obtain ⟨_, _, -, h⟩ := Prog.run_bind_eq_ok.mp h
    cases h
  | some x =>
  obtain ⟨dp, name⟩ := x
  refine ⟨dp, name, s1, ?_⟩
  obtain ⟨_, s2, hlock, h⟩ := Prog.run_bind_eq_ok.mp h
  -- what the process knows about the directory, and about the entry's inode
  obtain ⟨w0, γ0, hI0, hg0⟩ :=
    Wp.run_ok hg (beginOp_spec (Q := fun _ g => g = Ghost.start) rfl) hI hbegin
  obtain ⟨w1, γ1, hI1, hg1⟩ := Wp.run_ok hg0 (nameiparent_spec (Q := fun r g => ∀ k n,
      r = some (k, n) → ∃ i, g = { Ghost.start with refs := [⟨k, i, some .dir⟩] })
    rfl rfl rfl (wf_free rfl rfl rfl rfl) rfl (fun _ _ h => by cases h)
    fun k i n _ k' n' h => by cases h; exact ⟨i, rfl⟩) hI0 hname
  obtain ⟨i, hg1⟩ := hg1 dp name rfl
  obtain ⟨w2, γ2, hI2, hg2⟩ := Wp.run_ok hg1 (ilock_spec (r := ⟨dp, i, some .dir⟩)
    (Q := fun _ g => g = { Ghost.start with
      refs := [⟨dp, i, some .dir⟩], locks := [(dp, true)] })
    rfl (List.Perm.refl _) (owed_nil rfl _) fun t _ ht => by obtain rfl := ht _ rfl; rfl) hI1 hlock
  obtain ⟨hvol, -, hinum, -⟩ := ilock_alone hlock
  have hk2 : (dp, true) ∈ (γ2 p).locks := by rw [hg2]; exact List.mem_cons_self
  obtain ⟨hheld, hpos, -, hcoh⟩ := hI2.loaded hk2
  have hnohole := hI2.noHole hk2 trivial
  rw [← hvol, ← hinum, ← hcoh.full trivial]
  split at h
  · cases unlinkBad_ret h
  next hdots =>
  obtain ⟨r, s3, hlook, h⟩ := Prog.run_bind_eq_ok.mp h
  cases r with
  | none => cases unlinkBad_ret h
  | some x =>
  obtain ⟨ip, off⟩ := x
  obtain ⟨w3, γ3, hI3, hg3⟩ := Wp.run_ok hg2 (dirlookup_edge_spec (r := ⟨dp, i, some .dir⟩)
    (Q := fun r g => ∀ l off, r = some (l, off) → ∃ j, g = { Ghost.start with
      refs := [⟨l, j, none⟩, ⟨dp, i, some .dir⟩], locks := [(dp, true)], edges := [(i, j)] })
    rfl List.mem_cons_self rfl List.mem_cons_self False.elim (fun _ _ h => by cases h)
    fun l off j _ _ l' off' h => by cases h; exact ⟨j, rfl⟩) hI2 hlook
  obtain ⟨j, hg3⟩ := hg3 ip off rfl
  obtain ⟨_, s4, hlock', h⟩ := Prog.run_bind_eq_ok.mp h
  obtain ⟨w4, γ4, hI4, hk4⟩ := Wp.run_ok hg3 (ilock_spec (r := ⟨ip, j, none⟩)
    (Q := fun _ g => (ip, true) ∈ g.locks) rfl (List.Perm.refl _)
    (fun x hx => by
      rw [List.mem_singleton.mp hx]
      exact ⟨⟨dp, i, some .dir⟩, by simp, rfl, rfl, List.mem_cons_self⟩)
    fun t _ _ => List.mem_cons_self) hI3 hlock'
  -- neither step has changed the disk or the copy of the directory
  obtain ⟨n, hdf, hget⟩ := dirlookup_alone hnohole (Prog.run_lift_eq_ok.mp hlook)
  obtain ⟨hvol3, hcopy3⟩ := iget_alone hget
  obtain ⟨hvol4, hfree, -, hother⟩ := ilock_alone hlock'
  have hne : dp ≠ ip := by
    rintro rfl
    rw [(hcopy3 dp).2.1, hheld] at hfree
    cases hfree
  have hd4 : (s4.icache dp).d = (s2.icache dp).d := by rw [hother dp hne, (hcopy3 dp).1]
  have hi4 : (s4.icache dp).inum = (s2.icache dp).inum := by
    rw [hother dp hne, (hcopy3 dp).2.2 hpos]
  obtain ⟨b, s5, htest, h⟩ := Prog.run_bind_eq_ok.mp h
  obtain rfl : s5 = s4 :=
    unlinkTest_alone (hI4.noHole hk4 trivial) (Prog.run_lift_eq_ok.mp htest)
  cases b with
  | false =>
    obtain ⟨_, _, -, h⟩ := Prog.run_bind_eq_ok.mp h
    cases unlinkBad_ret h
  | true =>
  obtain ⟨u, s6, herase, -⟩ := Prog.run_bind_eq_ok.mp h
  replace herase := Prog.run_lift_eq_ok.mp herase
  obtain ⟨d, v, hzero, -⟩ := onInode_ok herase
  rw [hd4, hi4, hvol4, hvol3] at hzero
  refine ⟨(d, v), (Prog.run_bind_ok hbegin).trans hname, ?_⟩
  unfold unlink
  rw [bind_eq hdf]
  exact bind_eq hzero

end Code

/-! ## Every sequence of operations -/

namespace DirMap

structure Sys where
  x : Dinode × Volume
  m : Str → Option ℕ

inductive Label
  | link (name : Str) (i : ℕ)
  | unlink (name : Str)
  /-- One transaction ends and another begins. -/
  | commit

def step (sb : Superblock) (inum : ℕ) (s : Sys) : Label → Option Sys
  | .link name i =>
    match link sb inum name i s.x with
    | .ok (true, x) => some ⟨x, update s.m (strncpy DIRSIZ name) (some i)⟩
    | .ok (false, x) => some ⟨x, s.m⟩
    | .error _ => none
  | .unlink name =>
    match unlink sb inum name s.x with
    | .ok (true, x) => some ⟨x, update s.m (strncpy DIRSIZ name) none⟩
    | .ok (false, x) => some ⟨x, s.m⟩
    | .error _ => none
  | .commit =>
    some ⟨(s.x.1, { s.x.2.endOp with outstanding := s.x.2.endOp.outstanding + 1 }), s.m⟩

variable {sb : Superblock} {K : Set ℕ} {inum : ℕ} {s s' : Sys}

def relink : List Label :=
  [.link [97, 98, 99] 2, .commit, .unlink [97, 98, 99], .link [97, 98, 99] 3]

end DirMap

end Xv6.Fs
