import Xv6.Fs.Name
import Xv6.Fs.Content

/-!
# Directories as lists of entries

Names are compared through their first `DIRSIZ` bytes: two names are equal for `namecmp` exactly if
`strncpy` stores the same bytes for them (`namecmp_eq_zero`). `direntAt` is the entry at a byte
offset of a directory. On a consistent disk the loops over a directory change nothing and find the
first entry they look for (`scan_ok`).
-/

namespace Xv6.Fs

open StateExcept

/-! ## Names -/

theorem length_strncpy (n : ℕ) (t : Str) : (strncpy n t).length = n := by
  induction n generalizing t with
  | zero => rfl
  | succ n ih =>
    unfold strncpy
    split
    · rw [List.length_cons, ih]
    · exact List.length_replicate

theorem strncmp_eq_zero (n : ℕ) (p q : Str) : strncmp n p q = 0 ↔ strncpy n p = strncpy n q := by
  induction n generalizing p q with
  | zero => exact ⟨fun _ => rfl, fun _ => rfl⟩
  | succ n ih =>
    unfold strncmp strncpy
    by_cases hp : p.headD 0 = 0
    · rw [if_neg fun h => h.1 hp, if_neg (not_not.mpr hp)]
      by_cases hq : q.headD 0 = 0
      · rw [if_neg (not_not.mpr hq), hp, hq]
        simp
      · rw [if_pos hq, hp, List.replicate_succ]
        constructor
        · intro h
          have h' : ((q.headD 0).toNat : ℤ) = ((0 : UInt8).toNat : ℤ) := by omega
          exact absurd (UInt8.toNat_inj.mp (Int.ofNat.inj h')) hq
        · intro h
          exact absurd (List.cons.inj h).1.symm hq
    · by_cases hpq : p.headD 0 = q.headD 0
      · rw [if_pos ⟨hp, hpq⟩, if_pos hp, if_pos (hpq ▸ hp), ih, hpq]
        simp
      · rw [if_neg fun h => hpq h.2, if_pos hp]
        constructor
        · intro h
          have h' : ((p.headD 0).toNat : ℤ) = ((q.headD 0).toNat : ℤ) := by omega
          exact absurd (UInt8.toNat_inj.mp (Int.ofNat.inj h')) hpq
        · intro h
          by_cases hq : q.headD 0 = 0
          · rw [if_neg (not_not.mpr hq), List.replicate_succ] at h
            exact absurd (List.cons.inj h).1 hp
          · rw [if_pos hq] at h
            exact absurd (List.cons.inj h).1 hpq

theorem namecmp_eq_zero {s t : Str} : namecmp s t = 0 ↔ strncpy DIRSIZ s = strncpy DIRSIZ t :=
  strncmp_eq_zero DIRSIZ s t

theorem strncpy_strncpy (n : ℕ) (t : Str) : strncpy n (strncpy n t) = strncpy n t := by
  induction n generalizing t with
  | zero => rfl
  | succ n ih =>
    by_cases ht : t.headD 0 = 0
    · have h : strncpy (n + 1) t = 0 :: List.replicate n 0 := by
        unfold strncpy
        rw [if_neg (not_not.mpr ht), List.replicate_succ]
      rw [h]
      unfold strncpy
      simp [List.replicate_succ]
    · have h : strncpy (n + 1) t = t.headD 0 :: strncpy n t.tail := by
        conv_lhs => unfold strncpy
        rw [if_pos ht]
      rw [h]
      conv_lhs => unfold strncpy
      rw [if_pos (by simpa using ht)]
      simp only [List.headD_cons, List.tail_cons, ih]

/-! ## Entries -/

def direntAt (data : ℕ → Block) (d : Dinode) (off : ℕ) : List UInt8 :=
  (List.range DIRENTSZ).map fun i => byteAt data d (off + i)

theorem length_direntAt (data : ℕ → Block) (d : Dinode) (off : ℕ) :
    (direntAt data d off).length = DIRENTSZ := by
  unfold direntAt
  rw [List.length_map, List.length_range]

theorem length_direntBytes (inum : ℕ) (name : Str) : (direntBytes inum name).length = DIRENTSZ := by
  unfold direntBytes
  rw [List.length_cons, List.length_cons, length_strncpy]
  rfl

theorem deInum_direntBytes (inum : ℕ) (name : Str) :
    deInum (direntBytes inum name) = inum % 2 ^ 16 := by
  show (UInt8.ofNat inum).toNat + 256 * (UInt8.ofNat (inum / 256)).toNat = _
  rw [UInt8.toNat_ofNat', UInt8.toNat_ofNat']
  omega

theorem deName_direntBytes (inum : ℕ) (name : Str) :
    deName (direntBytes inum name) = strncpy DIRSIZ name := rfl

theorem deInum_zeroDirent : deInum zeroDirent = 0 := by decide

theorem deInum_lt (de : List UInt8) : deInum de < 2 ^ 16 := by
  have h0 := (de.getD 0 0).toNat_lt
  have h1 := (de.getD 1 0).toNat_lt
  unfold deInum
  omega

theorem direntAt_congr {data data' : ℕ → Block} {d d' : Dinode} {off : ℕ}
    (h : ∀ i < DIRENTSZ, byteAt data' d' (off + i) = byteAt data d (off + i)) :
    direntAt data' d' off = direntAt data d off := by
  apply List.map_congr_left
  intro i hi
  exact h i (List.mem_range.mp hi)

theorem direntAt_of_bytes {data : ℕ → Block} {d : Dinode} {off : ℕ} {src : List UInt8}
    (hlen : src.length = DIRENTSZ)
    (h : ∀ i < DIRENTSZ, byteAt data d (off + i) = src.getD i 0) : direntAt data d off = src := by
  apply List.ext_getElem
  · rw [length_direntAt, hlen]
  · intro i h1 h2
    rw [length_direntAt] at h1
    simp only [direntAt, List.getElem_map, List.getElem_range]
    rw [h i h1, List.getD_eq_getElem?_getD, List.getElem?_eq_getElem h2]
    rfl

section Scan

variable {sb : Superblock} {v : Volume} {d : Dinode} {err : Panic} {hit : ℕ → Str → Bool}

def hitAt (data : ℕ → Block) (d : Dinode) (hit : ℕ → Str → Bool) (off : ℕ) : Bool :=
  hit (deInum (direntAt data d off)) (deName (direntAt data d off))

/-- Where a loop over the directory that started at `off` has ended: it has passed `t` entries, all
of them inside the directory and none a hit, and found one, or come to the end. -/
structure ScanEnd (data : ℕ → Block) (d : Dinode) (hit : ℕ → Str → Bool) (off : ℕ) (off' : ℕ)
    (r : Option ℕ) : Prop where
  passed : ∃ t, off' = off + DIRENTSZ * t ∧
    ∀ u < t, off + DIRENTSZ * u + DIRENTSZ ≤ d.size ∧ hitAt data d hit (off + DIRENTSZ * u) = false
  found : ∀ i, r = some i → off' + DIRENTSZ ≤ d.size ∧ hitAt data d hit off' = true ∧
    i = deInum (direntAt data d off')
  ended : r = none → d.size ≤ off'

variable {s : Dinode × Volume} {off : ℕ}

theorem readi_dirent (h : NoHole v.data d) {de : List UInt8}
    (hr : readi sb off DIRENTSZ (d, v) = .ok (some de, s)) (hlen : de.length = DIRENTSZ) :
    s = (d, v) ∧ off + DIRENTSZ ≤ d.size ∧ de = direntAt v.data d off := by
  rw [readi_eq h] at hr
  obtain ⟨h1, rfl⟩ := Prod.mk.inj (Except.ok.inj hr)
  split at h1
  · cases h1
  next hc =>
    cases h1
    rw [List.length_map, List.length_range] at hlen
    refine ⟨rfl, by omega, ?_⟩
    rw [hlen]
    rfl

/-- **The loops over a directory.** On an inode without holes they change nothing and stop where
`ScanEnd` says. -/
theorem scan_ok (h : NoHole v.data d) {fuel : ℕ} (hf : d.size ≤ off + DIRENTSZ * fuel)
    {x : ℕ × Option ℕ} (hr : scan sb err hit fuel off (d, v) = .ok (x, s)) :
    s = (d, v) ∧ ScanEnd v.data d hit off x.1 x.2 := by
  induction fuel generalizing off with
  | zero =>
    obtain ⟨rfl, rfl⟩ := pure_ok hr
    refine ⟨rfl, ⟨0, rfl, fun u hu => absurd hu (Nat.not_lt_zero u)⟩, fun i hi => ?_, fun _ => ?_⟩
    · cases hi
    · simpa using hf
  | succ fuel ih =>
    unfold scan at hr
    rw [get_bind] at hr
    dsimp only at hr
    by_cases hoff : off < d.size
    swap
    · rw [if_neg hoff] at hr
      obtain ⟨rfl, rfl⟩ := pure_ok hr
      refine ⟨rfl, ⟨0, rfl, fun u hu => absurd hu (Nat.not_lt_zero u)⟩, fun i hi => ?_,
        fun _ => not_lt.mp hoff⟩
      cases hi
    rw [if_pos hoff] at hr
    obtain ⟨r, s1, h1, hr⟩ := bind_ok.mp hr
    cases r with
    | none => cases hr
    | some de =>
      dsimp only at hr
      by_cases hlen : de.length = DIRENTSZ
      swap
      · rw [if_neg hlen] at hr
        cases hr
      rw [if_pos hlen] at hr
      obtain ⟨rfl, hsz, rfl⟩ := readi_dirent h h1 hlen
      by_cases hh : hit (deInum (direntAt v.data d off)) (deName (direntAt v.data d off)) = true
      · rw [if_pos hh] at hr
        obtain ⟨rfl, rfl⟩ := pure_ok hr
        refine ⟨rfl, ⟨0, rfl, fun u hu => absurd hu (Nat.not_lt_zero u)⟩, fun i hi => ?_,
          fun hn => ?_⟩
        · cases hi
          exact ⟨hsz, hh, rfl⟩
        · cases hn
      · rw [if_neg hh] at hr
        obtain ⟨rfl, ⟨t, ht, hpass⟩, hfound, hended⟩ := ih (by rw [Nat.mul_succ] at hf; omega) hr
        refine ⟨rfl, ⟨t + 1, by rw [ht, Nat.mul_succ]; omega, fun u hu => ?_⟩, hfound, hended⟩
        cases u with
        | zero => exact ⟨hsz, by simpa [hitAt] using hh⟩
        | succ u =>
          have := hpass u (by omega)
          have e : off + DIRENTSZ * (u + 1) = off + DIRENTSZ + DIRENTSZ * u := by
            rw [Nat.mul_succ]
            omega
          rwa [e]

theorem scanDir_ok (h : NoHole v.data d) {x : ℕ × Option ℕ}
    (hr : scanDir sb err hit off (d, v) = .ok (x, s)) :
    s = (d, v) ∧ ScanEnd v.data d hit off x.1 x.2 := by
  unfold scanDir at hr
  rw [get_bind] at hr
  refine scan_ok h ?_ hr
  have : d.size ≤ DIRENTSZ * d.size := Nat.le_mul_of_pos_left _ (by decide)
  omega

def nameHit (name : Str) : ℕ → Str → Bool := fun i n => i ≠ 0 && namecmp name n = 0

theorem dirfind_ok (h : NoHole v.data d) {name : Str} {r : Option (ℕ × ℕ)}
    (hr : dirfind sb name (d, v) = .ok (r, s)) :
    s = (d, v) ∧ d.type = .dir ∧ ∃ off' x, ScanEnd v.data d (nameHit name) 0 off' x ∧
      r = x.map fun i => (i, off') := by
  unfold dirfind at hr
  rw [get_bind] at hr
  dsimp only at hr
  by_cases ht : d.type = .dir
  swap
  · rw [if_neg ht] at hr
    cases hr
  rw [if_pos ht] at hr
  obtain ⟨⟨off', x⟩, s1, h1, hr⟩ := bind_ok.mp hr
  obtain ⟨rfl, hend⟩ := scanDir_ok h h1
  cases x with
  | none =>
    obtain ⟨rfl, rfl⟩ := pure_ok hr
    exact ⟨rfl, ht, off', none, hend, rfl⟩
  | some i =>
    obtain ⟨rfl, rfl⟩ := pure_ok hr
    exact ⟨rfl, ht, off', some i, hend, rfl⟩

theorem isdirempty_ok (h : NoHole v.data d) {b : Bool} (hr : isdirempty sb (d, v) = .ok (b, s)) :
    s = (d, v) ∧ ∃ off' x, ScanEnd v.data d (fun i _ => i ≠ 0) (2 * DIRENTSZ) off' x ∧
      b = x.isNone := by
  unfold isdirempty at hr
  obtain ⟨⟨off', x⟩, s1, h1, hr⟩ := bind_ok.mp hr
  obtain ⟨rfl, hend⟩ := scanDir_ok h h1
  obtain ⟨rfl, rfl⟩ := pure_ok hr
  exact ⟨rfl, off', x, hend, rfl⟩

end Scan

/-! ## Changing an entry -/

section Write

variable {sb : Superblock} {K : Set ℕ} {v : Volume} {inum : ℕ} {d : Dinode}

/-- Putting the entry `src` at offset `off` of directory `inum`, in memory as on disk: no other
entry of it and no other inode changes. -/
structure EntryWritten (sb : Superblock) (K : Set ℕ) (inum off : ℕ) (src : List UInt8) (d : Dinode)
    (v : Volume) (d' : Dinode) (v' : Volume) : Prop where
  off_le : off ≤ d.size
  inv : VolInv sb K v' v'.dinode
  dinode : v'.dinode = Function.update v.dinode inum d'
  same : d' = { d with size := max d.size (off + DIRENTSZ), addrs := d'.addrs }
  entry : direntAt v'.data d' off = src
  rest : ∀ off₂, off₂ + DIRENTSZ ≤ d.size → (off₂ + DIRENTSZ ≤ off ∨ off + DIRENTSZ ≤ off₂) →
    direntAt v'.data d' off₂ = direntAt v.data d off₂
  keep : ∀ k < NPOS, blockAt v.data d k ≠ 0 → blockAt v'.data d' k = blockAt v.data d k
  others : ∀ j, j ≠ inum → (v.dinode j).type ≠ .free → ∀ k,
    blockAt v'.data (v.dinode j) k = blockAt v.data (v.dinode j) k
  otherBytes : ∀ j, j ≠ inum → (v.dinode j).type ≠ .free → ∀ m < (v.dinode j).size,
    byteAt v'.data (v.dinode j) m = byteAt v.data (v.dinode j) m

variable {off : ℕ}

theorem EntryWritten.aligned {off2 : ℕ} {src : List UInt8} {d' : Dinode} {v' : Volume}
    (h : EntryWritten sb K inum off src d v d' v') (hoff : DIRENTSZ ∣ off) (hoff2 : DIRENTSZ ∣ off2)
    (hne : off2 ≠ off) (hle : off2 + DIRENTSZ ≤ d'.size) : off2 + DIRENTSZ ≤ d.size ∧
      direntAt v'.data d' off2 = direntAt v.data d off2 := by
  have hsize : d'.size = max d.size (off + DIRENTSZ) := by rw [h.same]
  have hle' := h.off_le
  have hsz : DIRENTSZ = 16 := rfl
  have hrest : off2 + DIRENTSZ ≤ d.size ∧ (off2 + DIRENTSZ ≤ off ∨ off + DIRENTSZ ≤ off2) := by
    rw [hsz] at hoff hoff2 hle hsize ⊢
    omega
  exact ⟨hrest.1, h.rest off2 hrest.1 hrest.2⟩

variable {s : Dinode × Volume}

theorem EntryWritten.of_writei {src : List UInt8} (hsrc : src.length = DIRENTSZ)
    (h : VolInv sb K v v.dinode) (hsb : sb.WF) (hd : v.dinode inum = d) (ht : d.type ≠ .free)
    {n : ℕ} (hr : writei sb inum off src (d, v) = .ok (some n, s)) :
    EntryWritten sb K inum off src d v s.1 s.2 := by
  obtain ⟨h0, -⟩ | ⟨-, hoff, hinv, hdi, hs, v1, hdata, hw⟩ := writei_inv h hsb hd ht hr
  · cases h0
  rw [hsrc] at hs
  -- the size plays no part in where the bytes are
  have hbyte : ∀ m, byteAt v1.data { s.1 with size := d.size } m = byteAt s.2.data s.1 m := by
    intro m
    rw [hdata]
    rfl
  have hnohole := h.noHole inum (by rw [hd]; exact ht)
  rw [hd] at hnohole
  constructor
  · exact hoff
  · exact hinv
  · exact hdi
  · exact hs
  · apply direntAt_of_bytes hsrc
    intro i hi
    rw [← hbyte, hw.written i (by omega)]
  · intro off2 hsz hdis
    apply direntAt_congr
    intro i hi
    rw [← hbyte, hw.kept _ (by omega) (hnohole.backed (by omega))]
  · intro k hk h0
    have := hw.keep k hk h0
    rw [hdata] at this
    exact this
  · intro j hj hjt k
    have := hw.others j hj hjt k
    rwa [hdata] at this
  · intro j hj hjt m hm
    have := hw.otherBytes j hj hjt m ((h.noHole j hjt).backed hm)
    rwa [hdata] at this

theorem dirAppend_ok {name : Str} {i : ℕ} (h : VolInv sb K v v.dinode) (hsb : sb.WF)
    (hd : v.dinode inum = d) (ht : d.type ≠ .free) {u : Unit}
    (hr : dirAppend sb inum name i (d, v) = .ok (u, s)) :
    ∃ off x, ScanEnd v.data d (fun i _ => i = 0) 0 off x ∧
      EntryWritten sb K inum off (direntBytes i name) d v s.1 s.2 := by
  have hnohole := h.noHole inum (by rw [hd]; exact ht)
  rw [hd] at hnohole
  unfold dirAppend at hr
  obtain ⟨⟨off, x⟩, s1, h1, hr⟩ := bind_ok.mp hr
  obtain ⟨rfl, hend⟩ := scanDir_ok hnohole h1
  obtain ⟨r, s2, h2, hr⟩ := bind_ok.mp hr
  cases r with
  | none => cases hr
  | some n =>
    dsimp only at hr
    split at hr
    next =>
      obtain ⟨-, rfl⟩ := pure_ok hr
      exact ⟨off, x, hend, EntryWritten.of_writei (length_direntBytes i name) h hsb hd ht h2⟩
    next => cases hr

theorem dirErase_ok (h : VolInv sb K v v.dinode) (hsb : sb.WF) (hd : v.dinode inum = d)
    (ht : d.type ≠ .free) {u : Unit} (hr : dirErase sb inum off (d, v) = .ok (u, s)) :
    EntryWritten sb K inum off zeroDirent d v s.1 s.2 := by
  unfold dirErase at hr
  obtain ⟨r, s2, h2, hr⟩ := bind_ok.mp hr
  cases r with
  | none => cases hr
  | some n =>
    dsimp only at hr
    split at hr
    next =>
      obtain ⟨-, rfl⟩ := pure_ok hr
      exact EntryWritten.of_writei List.length_replicate h hsb hd ht h2
    next => cases hr

end Write

end Xv6.Fs
