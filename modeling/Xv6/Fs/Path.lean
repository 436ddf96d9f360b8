import Xv6.Fs.Lookup

/-!
# Path resolution

What `namex` computes when nothing else runs.

1. `resolve` and `resolveParent` walk through the directories on disk.
2. `Holding s t H L`: since `s`, the references `H` have been taken and entry `L` has been locked;
   nothing else has changed. Every function that `namex` calls is described by it.
3. `path_resolution`: `namei` and `nameiparent` return what `resolve` and `resolveParent` say, and
   one reference to it. What it needs of the inode cache holds between calls (`quiet_of_reach`).
-/

namespace Xv6.Fs

open Function Conc StateExcept

/-! ## Walking on disk -/

def entryOf (v : Volume) (i : ℕ) (name : Str) : Option ℕ :=
  ((List.range ((v.dinode i).size / DIRENTSZ)).find? fun u =>
    hitAt v.data (v.dinode i) (nameHit name) (DIRENTSZ * u)).map fun u =>
      deInum (direntAt v.data (v.dinode i) (DIRENTSZ * u))

def resolve (v : Volume) : ℕ → List Str → Option ℕ
  | i, [] => some i
  | i, c :: cs =>
    if (v.dinode i).type = .dir then (entryOf v i c).bind fun j => resolve v j cs else none

def resolveParent (v : Volume) (i : ℕ) (cs : List Str) : Option (ℕ × Str) :=
  match cs.getLast? with
  | none => none
  | some last => (resolve v i cs.dropLast).bind fun j =>
    if (v.dinode j).type = .dir then some (j, last) else none

structure DirOk (v : Volume) (i : ℕ) : Prop where
  noHole : NoHole v.data (v.dinode i)
  aligned : DIRENTSZ ∣ (v.dinode i).size

section Walk

variable {v : Volume} {i : ℕ} {c : Str} {cs : List Str}

theorem resolveParent_cons (hcs : cs ≠ []) : resolveParent v i (c :: cs) =
    if (v.dinode i).type = .dir then (entryOf v i c).bind fun j => resolveParent v j cs
    else none := by
  obtain ⟨c', cs', rfl⟩ := List.exists_cons_of_ne_nil hcs
  unfold resolveParent
  rw [List.getLast?_cons_cons, List.dropLast_cons_cons, resolve]
  cases hlast : (c' :: cs').getLast? with
  | none => cases (List.getLast?_eq_none_iff.mp hlast)
  | some last =>
    dsimp only
    split
    · rw [Option.bind_assoc]
    · rfl

theorem dirfind_entryOf (sb : Superblock) (h : DirOk v i) (hdir : (v.dinode i).type = .dir)
    (name : Str) : ∃ off, dirfind sb name (v.dinode i, v) =
      .ok ((entryOf v i name).map fun j => (j, off), (v.dinode i, v)) := by
  obtain ⟨t, ht⟩ := h.aligned
  have hlt : (v.dinode i).size < 2 ^ 32 := by
    by_contra hge
    have hbig : MAXFILE * BSIZE < 2 ^ 32 := by decide
    exact (h.noHole MAXFILE (by omega)).1.ne rfl
  obtain ⟨off, x, hfind, ⟨w, hoff, hpassed⟩, hfound, hended⟩ :=
    dirfind_returns sb h.noHole hdir ht hlt name
  simp only [Nat.zero_add] at hoff hpassed
  have hsize : (v.dinode i).size / DIRENTSZ = t := by
    rw [ht]
    exact Nat.mul_div_cancel_left _ (by decide)
  have hentry : entryOf v i name = x := by
    unfold entryOf
    rw [hsize]
    cases x with
    | none =>
      have hend := hended rfl
      rw [ht, hoff] at hend
      have htw : t ≤ w := Nat.le_of_mul_le_mul_left hend (by decide)
      rw [List.find?_eq_none.mpr fun u hu => ?_, Option.map_none]
      rw [(hpassed u (lt_of_lt_of_le (List.mem_range.mp hu) htw)).2]
      exact Bool.false_ne_true
    | some j =>
      obtain ⟨hin, hhit, hj⟩ := hfound j rfl
      rw [ht, hoff, ← Nat.mul_succ] at hin
      have hwt : w < t := Nat.le_of_mul_le_mul_left hin (by decide)
      have hsome : (List.range t).find? (fun u =>
          hitAt v.data (v.dinode i) (nameHit name) (DIRENTSZ * u)) = some w :=
        List.find?_range_eq_some.mpr ⟨hoff ▸ hhit, List.mem_range.mpr hwt, fun u hu => by
          rw [(hpassed u hu).2]; rfl⟩
      rw [hsome, Option.map_some, hj, hoff]
  refine ⟨off, ?_⟩
  rw [hfind, hentry]

end Walk

/-! ## The inode cache -/

section Cache

variable {P : Type}

/-- The inode cache: its entries are of the root device, hold the inode on disk once they are valid,
and there is one for each inode. -/
structure CacheOk (s : Kernel P) : Prop where
  dev : ∀ k < NINODE, 0 < (s.icache k).ref → (s.icache k).dev = ROOTDEV
  copy : ∀ k < NINODE, 0 < (s.icache k).ref → (s.icache k).valid = true →
    (s.icache k).d = s.vol.dinode (s.icache k).inum
  unique : ∀ k < NINODE, ∀ l < NINODE, 0 < (s.icache k).ref → 0 < (s.icache l).ref →
    (s.icache k).inum = (s.icache l).inum → k = l

structure Quiet (s : Kernel P) : Prop where
  cache : CacheOk s
  unlocked : ∀ k < NINODE, (s.icache k).lock = none

def freeEntries (s : Kernel P) : Finset ℕ :=
  (Finset.range NINODE).filter fun k => (s.icache k).ref = 0

def Referenced (s : Kernel P) (i : ℕ) : Prop :=
  ∃ k < NINODE, 0 < (s.icache k).ref ∧ (s.icache k).inum = i

/-- An inode that `iput` does not free: it is allocated, and it has a link or other references. -/
structure Lasting (s : Kernel P) (i : ℕ) : Prop where
  type : (s.vol.dinode i).type ≠ .free
  keep : (s.vol.dinode i).nlink ≠ 0 ∨ Referenced s i

structure Tree (s : Kernel P) : Prop where
  root : Lasting s ROOTINO
  dir : ∀ i, (s.vol.dinode i).type = .dir → DirOk s.vol i
  entry : ∀ i, (s.vol.dinode i).type = .dir → ∀ u < (s.vol.dinode i).size / DIRENTSZ,
    deInum (direntAt s.vol.data (s.vol.dinode i) (DIRENTSZ * u)) ≠ 0 →
      Lasting s (deInum (direntAt s.vol.data (s.vol.dinode i) (DIRENTSZ * u)))

/-- Since `s`, process `p` has taken the references `H` and locked the entry `L`; it has changed
nothing else. -/
structure Holding (p : P) (s t : Kernel P) (H : Multiset ℕ) (L : Option ℕ) : Prop where
  vol : t.vol = s.vol
  ftable : t.ftable = s.ftable
  proc : t.proc = s.proc
  mem : ∀ k ∈ H, k < NINODE
  ref : ∀ k, (t.icache k).ref = (s.icache k).ref + H.count k
  inum : ∀ k < NINODE, 0 < (s.icache k).ref → (t.icache k).inum = (s.icache k).inum
  lock : ∀ k < NINODE, (t.icache k).lock = if L = some k then some p else none
  cache : CacheOk t

variable {p : P} {s t : Kernel P} {H : Multiset ℕ} {L : Option ℕ} {i k : ℕ}

theorem Tree.entryOf (h : Tree s) (hdir : (s.vol.dinode i).type = .dir) {name : Str} {j : ℕ}
    (hj : entryOf s.vol i name = some j) : Lasting s j := by
  obtain ⟨u, hu, rfl⟩ := Option.map_eq_some_iff.mp hj
  obtain ⟨hhit, hmem, -⟩ := List.find?_range_eq_some.mp hu
  have hne : deInum (direntAt s.vol.data (s.vol.dinode i) (DIRENTSZ * u)) ≠ 0 := by
    intro h0
    unfold hitAt nameHit at hhit
    rw [h0] at hhit
    cases hhit
  exact h.entry i hdir u (List.mem_range.mp hmem) hne

theorem Quiet.holding (h : Quiet s) : Holding p s s 0 none where
  vol := rfl
  ftable := rfl
  proc := rfl
  mem k hk := absurd hk (Multiset.notMem_zero k)
  ref k := by rw [Multiset.count_zero, Nat.add_zero]
  inum _ _ _ := rfl
  lock k hk := by rw [h.unlocked k hk, if_neg (Option.some_ne_none k).symm]
  cache := h.cache

theorem Holding.ref_pos (h : Holding p s t H L) (hk : k ∈ H) : 0 < (t.icache k).ref := by
  rw [h.ref]
  have := Multiset.count_pos.mpr hk
  omega

theorem Holding.exists_free (h : Holding p s t H L) (hH : H.card ≤ 1)
    (hfree : 2 ≤ (freeEntries s).card) : ∃ k < NINODE, (t.icache k).ref = 0 := by
  obtain ⟨a, b, ha, hb, hab⟩ := Finset.one_lt_card_iff.mp hfree
  obtain ⟨ha, hra⟩ := Finset.mem_filter.mp ha
  obtain ⟨hb, hrb⟩ := Finset.mem_filter.mp hb
  by_cases hmem : a ∈ H
  · have hbH : b ∉ H := by
      intro hmem'
      have hle : {a, b} ≤ H := (Multiset.le_iff_subset (by simpa using hab)).mpr (by
        intro x hx
        simp only [Multiset.insert_eq_cons, Multiset.mem_cons, Multiset.mem_singleton] at hx
        rcases hx with rfl | rfl
        · exact hmem
        · exact hmem')
      have := Multiset.card_le_card hle
      simp at this
      omega
    exact ⟨b, Finset.mem_range.mp hb, by rw [h.ref, hrb, Multiset.count_eq_zero_of_notMem hbH]⟩
  · exact ⟨a, Finset.mem_range.mp ha, by rw [h.ref, hra, Multiset.count_eq_zero_of_notMem hmem]⟩

theorem Holding.update (h : Holding p s t H L) {H' : Multiset ℕ} {L' : Option ℕ} {e : Inode P}
    (hmem : ∀ j ∈ H', j < NINODE) (hdev : e.dev = ROOTDEV)
    (hinum : 0 < (s.icache k).ref → e.inum = (t.icache k).inum)
    (hcopy : e.valid = true → e.d = t.vol.dinode e.inum)
    (hother : ∀ j < NINODE, j ≠ k → 0 < (t.icache j).ref → (t.icache j).inum ≠ e.inum)
    (href : ∀ j, (if j = k then e.ref else (t.icache j).ref) = (s.icache j).ref + H'.count j)
    (hlock : ∀ j < NINODE, (if j = k then e.lock else (t.icache j).lock) =
      if L' = some j then some p else none) :
    Holding p s (t.setInode k e) H' L' := by
  have hself : (t.setInode k e).icache k = e := update_self ..
  have hne : ∀ {j}, j ≠ k → (t.setInode k e).icache j = t.icache j := fun hj =>
    update_of_ne hj ..
  refine ⟨h.vol, h.ftable, h.proc, hmem, fun j => ?_, fun j hj hs => ?_, fun j hj => ?_,
    ⟨fun j hj hr => ?_, fun j hj hr hv => ?_, fun j hj l hl hr hr' he => ?_⟩⟩
  · rw [← href]
    by_cases hjk : j = k
    · rw [if_pos hjk, hjk, hself]
    · rw [if_neg hjk, hne hjk]
  · rw [← h.inum j hj hs]
    by_cases hjk : j = k
    · subst hjk
      rw [hself, hinum hs]
    · rw [hne hjk]
  · rw [← hlock j hj]
    by_cases hjk : j = k
    · rw [if_pos hjk, hjk, hself]
    · rw [if_neg hjk, hne hjk]
  · by_cases hjk : j = k
    · rw [hjk, hself, hdev]
    · rw [hne hjk] at hr ⊢
      exact h.cache.dev j hj hr
  · by_cases hjk : j = k
    · rw [hjk, hself] at hv ⊢
      exact hcopy hv
    · rw [hne hjk] at hr hv ⊢
      exact h.cache.copy j hj hr hv
  · by_cases hjk : j = k
    · by_cases hlk : l = k
      · rw [hjk, hlk]
      · rw [hne hlk] at hr' he
        rw [hjk, hself] at he
        exact absurd he.symm (hother l hl hlk hr')
    · rw [hne hjk] at hr he
      by_cases hlk : l = k
      · rw [hlk, hself] at he
        exact absurd he (hother j hj hjk hr)
      · rw [hne hlk] at hr' he
        exact h.cache.unique j hj l hl hr hr' he

theorem Holding.change (h : Holding p s t H L) {H' : Multiset ℕ} {L' : Option ℕ} {e : Inode P}
    (hk : k < NINODE) (hpos : 0 < (t.icache k).ref) (hmem : ∀ j ∈ H', j < NINODE)
    (hdev : e.dev = (t.icache k).dev) (hinum : e.inum = (t.icache k).inum)
    (hcopy : e.valid = true → e.d = t.vol.dinode e.inum)
    (href : ∀ j, (if j = k then e.ref else (t.icache j).ref) = (s.icache j).ref + H'.count j)
    (hlock : ∀ j < NINODE, (if j = k then e.lock else (t.icache j).lock) =
      if L' = some j then some p else none) :
    Holding p s (t.setInode k e) H' L' := by
  refine h.update hmem ?_ (fun _ => hinum) hcopy (fun j hj hjk hr he => ?_) href hlock
  · rw [hdev, h.cache.dev k hk hpos]
  · rw [hinum] at he
    exact hjk (h.cache.unique j hj k hk hr hpos he)

theorem Holding.mem_cons (h : Holding p s t H L) (hk : k < NINODE) : ∀ j ∈ k ::ₘ H, j < NINODE := by
  intro j hj
  rcases Multiset.mem_cons.mp hj with rfl | hj
  · exact hk
  · exact h.mem j hj

theorem Holding.lock_same (h : Holding p s t H L) {o : Option P} (ho : o = (t.icache k).lock)
    {j : ℕ} (hj : j < NINODE) :
    (if j = k then o else (t.icache j).lock) = if L = some j then some p else none := by
  rw [← h.lock j hj]
  split
  next hjk => rw [ho, hjk]
  next => rfl

theorem Holding.idup (h : Holding p s t H L) (hk : k < NINODE) (hpos : 0 < (t.icache k).ref) :
    Holding p s (t.setInode k { t.icache k with ref := (t.icache k).ref + 1 }) (k ::ₘ H) L := by
  refine h.change hk hpos (h.mem_cons hk) rfl rfl (h.cache.copy k hk hpos) (fun j => ?_)
    fun j hj => h.lock_same rfl hj
  have href := h.ref j
  rw [Multiset.count_cons]
  split
  next hjk =>
    rw [← hjk]
    dsimp only
    omega
  next => omega

theorem Holding.iget (h : Holding p s t H L) (hfree : ∃ k < NINODE, (t.icache k).ref = 0) (i : ℕ) :
    ∃ k t', Fs.iget ROOTDEV i t = .ok (k, t') ∧ Holding p s t' (k ::ₘ H) L ∧
      (t'.icache k).inum = i ∧ ∀ j ∈ H, (t'.icache j).inum = (t.icache j).inum := by
  unfold Fs.iget
  cases hfind : (List.range NINODE).find? fun k => 0 < (t.icache k).ref &&
      (t.icache k).dev = ROOTDEV && (t.icache k).inum = i with
  | some k =>
    have hk := List.mem_range.mp (List.mem_of_find?_eq_some hfind)
    have hmatch := List.find?_some hfind
    simp only [Bool.and_eq_true, decide_eq_true_eq] at hmatch
    refine ⟨k, _, rfl, h.idup hk hmatch.1.1, ?_, fun j _ => ?_⟩
    · rw [setInode_icache, update_self]
      exact hmatch.2
    · rw [setInode_icache, update_apply]
      split
      next hjk => rw [hjk]
      next => rfl
  | none =>
    dsimp only
    cases hunused : (List.range NINODE).find? fun k => (t.icache k).ref = 0 with
    | none =>
      obtain ⟨k, hk, h0⟩ := hfree
      have := List.find?_eq_none.mp hunused k (List.mem_range.mpr hk)
      rw [h0] at this
      exact absurd rfl this
    | some k =>
      have hk := List.mem_range.mp (List.mem_of_find?_eq_some hunused)
      have h0 : (t.icache k).ref = 0 := by simpa using List.find?_some hunused
      have hnotin : k ∉ H := fun hmem => (h.ref_pos hmem).ne' h0
      have href := h.ref k
      refine ⟨k, _, rfl, h.update (h.mem_cons hk) rfl (fun hs => ?_)
        nofun (fun j hj hjk hr he => ?_)
        (fun j => ?_) fun j hj => h.lock_same rfl hj, ?_, fun j hj => ?_⟩
      · omega
      · have hno := List.find?_eq_none.mp hfind j (List.mem_range.mpr hj)
        simp only [Bool.and_eq_true, decide_eq_true_eq] at hno
        exact hno ⟨⟨hr, h.cache.dev j hj hr⟩, he⟩
      · rw [Multiset.count_cons, h.ref j]
        split
        next hjk =>
          rw [hjk]
          dsimp only
          omega
        next => omega
      · rw [setInode_icache, update_self]
      · have hjk : j ≠ k := fun e => hnotin (e ▸ hj)
        rw [setInode_icache, update_of_ne hjk]

theorem Holding.ilock (h : Holding p s t H none) (hk : k ∈ H)
    (ht : (t.vol.dinode (t.icache k).inum).type ≠ .free) :
    (Fs.ilock k).run arbiter p t = .ok ((), t.locked p k) ∧
      Holding p s (t.locked p k) H (some k) := by
  have hkN := h.mem k hk
  have hpos := h.ref_pos hk
  have hlock : (t.icache k).lock = none := by
    rw [h.lock k hkN, if_neg (Option.some_ne_none k).symm]
  refine ⟨ilock_run hpos hlock (h.cache.copy k hkN hpos) ht,
    h.change hkN hpos h.mem rfl rfl (fun _ => rfl) (fun j => ?_) fun j hj => ?_⟩
  · rw [← h.ref j]
    split
    next hjk => rw [hjk]
    next => rfl
  · by_cases hjk : j = k
    · rw [if_pos hjk, if_pos (by rw [hjk])]
    · rw [if_neg hjk, if_neg fun e => hjk (Option.some.inj e).symm, h.lock j hj,
        if_neg (Option.some_ne_none j).symm]

theorem Holding.kept (h : Holding p s t H L) (hk : k ∈ H) (hi : Lasting s (t.icache k).inum)
    (hv : (t.icache k).valid = true) (h0 : (t.icache k).d.nlink = 0) : (t.icache k).ref ≠ 1 := by
  have hkN := h.mem k hk
  have hpos := h.ref_pos hk
  rcases hi.keep with hlink | ⟨l, hl, hlr, hli⟩
  · rw [h.cache.copy k hkN hpos hv, h.vol] at h0
    exact absurd h0 hlink
  · have hlt := h.ref l
    have hli' := (h.inum l hl hlr).trans hli
    obtain rfl := h.cache.unique l hl k hkN (by omega) hpos hli'
    have := Multiset.count_pos.mpr hk
    omega

theorem Holding.dropped (h : Holding p s t H L) (hk : k ∈ H)
    (hL : ∀ j < NINODE, j ≠ k → L ≠ some j) : Holding p s (t.dropped k) (H.erase k) none := by
  have hkN := h.mem k hk
  have hpos := h.ref_pos hk
  refine h.change hkN hpos (fun j hj => h.mem j (Multiset.mem_of_mem_erase hj)) rfl rfl
    (h.cache.copy k hkN hpos) (fun j => ?_) fun j hj => ?_
  · have hcount := Multiset.count_pos.mpr hk
    split
    next hjk =>
      rw [hjk, Multiset.count_erase_self, h.ref k]
      dsimp only
      omega
    next hjk => rw [Multiset.count_erase_of_ne hjk, h.ref j]
  · rw [if_neg (Option.some_ne_none j).symm]
    split
    next => rfl
    next hjk => rw [h.lock j hj, if_neg (hL j hj hjk)]

variable [DecidableEq P]

theorem Holding.iunlock (h : Holding p s t H (some k)) (hk : k ∈ H) :
    ∃ t', (Fs.iunlock p k).run arbiter p t = .ok ((), t') ∧ Holding p s t' H none ∧
      ∀ j, (t'.icache j).inum = (t.icache j).inum := by
  have hkN := h.mem k hk
  have hpos := h.ref_pos hk
  refine ⟨_, iunlock_run hpos (by rw [h.lock k hkN, if_pos rfl]),
    h.change hkN hpos h.mem rfl rfl (h.cache.copy k hkN hpos) (fun j => ?_) fun j hj => ?_,
    fun j => ?_⟩
  · rw [← h.ref j]
    split
    next hjk => rw [hjk]
    next => rfl
  · rw [if_neg (Option.some_ne_none j).symm]
    split
    next => rfl
    next hjk => rw [h.lock j hj, if_neg fun e => hjk (Option.some.inj e).symm]
  · rw [setInode_icache, update_apply]
    split
    next hjk => rw [hjk]
    next => rfl

theorem Holding.iunlockput (sb : Superblock) (h : Holding p s t H (some k)) (hk : k ∈ H)
    (hi : Lasting s (t.icache k).inum) :
    (Fs.iunlockput sb p k).run arbiter p t = .ok ((), t.dropped k) ∧
      Holding p s (t.dropped k) (H.erase k) none := by
  have hkN := h.mem k hk
  exact ⟨iunlockput_run sb (h.ref_pos hk) (by rw [h.lock k hkN, if_pos rfl]) (h.kept hk hi),
    h.dropped hk fun j _ hjk e => hjk (Option.some.inj e).symm⟩

omit [DecidableEq P] in
theorem Holding.iput (sb : Superblock) (h : Holding p s t H none) (hk : k ∈ H)
    (hi : Lasting s (t.icache k).inum) :
    (Fs.iput sb k).run arbiter p t = .ok ((), t.dropped k) ∧
      Holding p s (t.dropped k) (H.erase k) none := by
  have hkN := h.mem k hk
  have hlock : (t.icache k).lock = none := by
    rw [h.lock k hkN, if_neg (Option.some_ne_none k).symm]
  refine ⟨?_, h.dropped hk fun j _ _ => (Option.some_ne_none j).symm⟩
  rw [iput_run sb hlock (h.kept hk hi)]
  unfold Kernel.dropped
  rw [← hlock]

end Cache

/-! ## `namex` -/

def target (v : Volume) (parent : Bool) (i : ℕ) (cs : List Str) (name : Str) : Option (ℕ × Str) :=
  if parent then resolveParent v i cs else (resolve v i cs).map fun j => (j, cs.getLastD name)

theorem target_cons {v : Volume} {parent : Bool} {i : ℕ} {c name : Str} {cs : List Str}
    (h : ¬ (parent = true ∧ cs = [])) : target v parent i (c :: cs) name =
      if (v.dinode i).type = .dir then (entryOf v i c).bind fun j => target v parent j cs c
      else none := by
  unfold target
  cases parent with
  | true =>
    have hcs : cs ≠ [] := fun e => h ⟨rfl, e⟩
    exact resolveParent_cons hcs
  | false =>
    have hlast : (c :: cs).getLastD name = cs.getLastD c := List.getLastD_cons ..
    rw [if_neg Bool.false_ne_true, resolve, hlast]
    split
    · cases entryOf v i c with
      | none => rfl
      | some j => rfl
    · rfl

theorem target_single (v : Volume) (i : ℕ) (c name : Str) : target v true i [c] name =
    if (v.dinode i).type = .dir then some (i, c) else none := rfl

theorem target_not_dir {v : Volume} {parent : Bool} {i : ℕ} {c name : Str} {cs : List Str}
    (h : (v.dinode i).type ≠ .dir) : target v parent i (c :: cs) name = none := by
  by_cases hp : parent = true ∧ cs = []
  · rw [hp.1, hp.2, target_single, if_neg h]
  · rw [target_cons hp, if_neg h]

section Namex

variable {P : Type} {p : P} {s t : Kernel P} {i k : ℕ}

def Found (p : P) (s t : Kernel P) : Option ℕ → Option ℕ → Prop
  | none, none => Holding p s t 0 none
  | some i, some k => (t.icache k).inum = i ∧ Holding p s t {k} none
  | _, _ => False

structure Arrived (p : P) (s t : Kernel P) (o r : Option (ℕ × Str)) : Prop where
  inode : Found p s t (o.map Prod.fst) (r.map Prod.fst)
  name : r.map Prod.snd = o.map Prod.snd

theorem Holding.dirlookup (sb : Superblock) (h : Holding p s t {k} (some k))
    (hcopy : (t.icache k).d = s.vol.dinode (t.icache k).inum)
    (hdir : (s.vol.dinode (t.icache k).inum).type = .dir) (hok : DirOk s.vol (t.icache k).inum)
    (hfree : 2 ≤ (freeEntries s).card) (name : Str) :
    match entryOf s.vol (t.icache k).inum name with
    | none => dirlookup sb k name t = .ok (none, t)
    | some j => ∃ l off t', dirlookup sb k name t = .ok (some (l, off), t') ∧
        Holding p s t' {l, k} (some k) ∧ (t'.icache l).inum = j ∧
        (t'.icache k).inum = (t.icache k).inum := by
  have hmem : k ∈ ({k} : Multiset ℕ) := Multiset.mem_singleton_self k
  obtain ⟨off, hfind⟩ := dirfind_entryOf sb hok hdir name
  rw [← hcopy, ← h.vol] at hfind
  rw [← h.vol]
  cases hentry : entryOf t.vol (t.icache k).inum name with
  | none =>
    rw [hentry] at hfind
    exact dirlookup_missing hfind
  | some j =>
    rw [hentry] at hfind
    obtain ⟨l, t', hget, hhold, hl, hkeep⟩ :=
      h.iget (h.exists_free (Multiset.card_singleton k).le hfree) j
    have hdev := h.cache.dev k (h.mem k hmem) (h.ref_pos hmem)
    rw [← hdev] at hget
    exact ⟨l, off, t', dirlookup_found hfind hget, hhold, hl, hkeep k hmem⟩

variable [DecidableEq P]

theorem namexLoop_resolves (sb : Superblock) (hT : Tree s) (hfree : 2 ≤ (freeEntries s).card)
    (parent : Bool) {fuel : ℕ} {path : Str} (hf : path.length < fuel) (name : Str)
    (h : Holding p s t {k} none) (hi : Lasting s (t.icache k).inum) :
    ∃ r t', (namexLoop sb p parent fuel k path name).run arbiter p t = .ok (r, t') ∧
      Arrived p s t' (target s.vol parent (t.icache k).inum (elements path) name) r := by
  induction fuel generalizing t k path name with
  | zero => exact absurd hf (Nat.not_lt_zero _)
  | succ fuel ih =>
    have hmem : k ∈ ({k} : Multiset ℕ) := Multiset.mem_singleton_self k
    have herase : ({k} : Multiset ℕ).erase k = 0 := Multiset.erase_singleton k
    unfold namexLoop
    cases hskip : skipelem path with
    | none =>
      rw [skipelem_none hskip]
      cases parent with
      | true =>
        obtain ⟨hput, hhold⟩ := h.iput sb hmem hi
        rw [herase] at hhold
        exact ⟨none, _, Prog.run_bind_ok hput, hhold, rfl⟩
      | false => exact ⟨_, t, rfl, ⟨rfl, h⟩, rfl⟩
    | some x =>
      obtain ⟨elem, rest⟩ := x
      obtain ⟨helems, hlen, hend⟩ := skipelem_some hskip
      rw [helems]
      dsimp only
      -- the entry is locked and read
      obtain ⟨hlock, h1⟩ := h.ilock hmem (by rw [h.vol]; exact hi.type)
      obtain ⟨t1, ht1⟩ : ∃ t1, t1 = t.locked p k := ⟨_, rfl⟩
      rw [← ht1] at hlock h1
      have hentry : (t1.icache k).d = s.vol.dinode (t.icache k).inum ∧
          (t1.icache k).inum = (t.icache k).inum := by
        rw [ht1, ← h.vol]
        unfold Kernel.locked
        rw [setInode_icache, update_self]
        exact ⟨rfl, rfl⟩
      obtain ⟨hd, hinum⟩ := hentry
      rw [← hinum] at hi hd ⊢
      have htype : (typeOf k).run arbiter p t1 =
          .ok ((s.vol.dinode (t1.icache k).inum).type, t1) := by
        refine Prog.run_lift_ok ?_
        rw [hd]
      rw [Prog.run_bind_ok hlock]
      rw [Prog.run_bind_ok htype]
      by_cases hdir : (s.vol.dinode (t1.icache k).inum).type = .dir
      swap
      · obtain ⟨hput, hhold⟩ := h1.iunlockput sb hmem hi
        rw [herase] at hhold
        rw [if_pos hdir, target_not_dir hdir, Prog.run_bind_ok hput]
        exact ⟨none, _, rfl, hhold, rfl⟩
      rw [if_neg (not_not.mpr hdir)]
      by_cases hlast : parent = true ∧ rest.headD 0 = 0
      · -- stop one level early
        obtain ⟨t2, hun, hhold, hsame⟩ := h1.iunlock hmem
        rw [if_pos hlast, hlast.1, hend.mp hlast.2, target_single, if_pos hdir,
          Prog.run_bind_ok hun]
        exact ⟨_, t2, rfl, ⟨hsame k, hhold⟩, rfl⟩
      have hmore : ¬ (parent = true ∧ elements rest = []) := fun hc => hlast ⟨hc.1, hend.mpr hc.2⟩
      rw [if_neg hlast, target_cons hmore, if_pos hdir]
      have hlook := h1.dirlookup sb hd hdir (hT.dir _ hdir) hfree elem
      cases hentry : entryOf s.vol (t1.icache k).inum elem with
      | none =>
        rw [hentry] at hlook
        obtain ⟨hput, hhold⟩ := h1.iunlockput sb hmem hi
        rw [herase] at hhold
        rw [Prog.run_bind_ok (Prog.run_lift_ok hlook)]
        dsimp only
        rw [Prog.run_bind_ok hput]
        exact ⟨none, _, rfl, hhold, rfl⟩
      | some j =>
        rw [hentry] at hlook
        obtain ⟨l, off, t2, hlook, h2, hl, hk2⟩ := hlook
        have hi2 : Lasting s (t2.icache k).inum := by rw [hk2]; exact hi
        obtain ⟨hput, h3⟩ := h2.iunlockput sb (by simp) hi2
        have herase2 : ({l, k} : Multiset ℕ).erase k = {l} := by
          rw [Multiset.pair_comm]
          exact Multiset.erase_cons_head k {l}
        rw [herase2] at h3
        have hl3 : ((t2.dropped k).icache l).inum = j := by
          unfold Kernel.dropped
          rw [setInode_icache, update_apply]
          split
          next hlk => rw [← hlk, hl]
          next => exact hl
        rw [Prog.run_bind_ok (Prog.run_lift_ok hlook)]
        dsimp only
        rw [Prog.run_bind_ok hput]
        have hrec := ih (show rest.length < fuel by omega) elem h3
          (by rw [hl3]; exact hT.entryOf hdir hentry)
        rwa [hl3] at hrec

/-! ## The calls -/

def startInum (s : Kernel P) (p : P) (path : Str) : ℕ :=
  if path.headD 0 = SLASH then ROOTINO
  else match (s.proc p).cwd with
    | some c => (s.icache c).inum
    | none => 0

structure HasCwd (s : Kernel P) (p : P) (c : ℕ) : Prop where
  cwd : (s.proc p).cwd = some c
  lt : c < NINODE
  ref : 0 < (s.icache c).ref
  type : (s.vol.dinode (s.icache c).inum).type ≠ .free

theorem namex_resolves (sb : Superblock) (hq : Quiet s) (hT : Tree s)
    (hfree : 2 ≤ (freeEntries s).card) {c : ℕ} (hc : HasCwd s p c) (path : Str) (parent : Bool) :
    ∃ r t, (namex sb p path parent).run arbiter p s = .ok (r, t) ∧
      Arrived p s t (target s.vol parent (startInum s p path) (elements path) []) r := by
  -- the first reference
  obtain ⟨k, t, hrun, hhold, hk, hi⟩ : ∃ k t,
      (act (if path.headD 0 = SLASH then iget ROOTDEV ROOTINO else idupCwd p) : Task P ℕ).run
        arbiter p s = .ok (k, t) ∧ Holding p s t {k} none ∧
        (t.icache k).inum = startInum s p path ∧ Lasting s (t.icache k).inum := by
    have h0 : Holding p s s 0 none := hq.holding
    unfold startInum
    by_cases hslash : path.headD 0 = SLASH
    · obtain ⟨k, t, hget, hhold, hk, -⟩ := h0.iget (h0.exists_free (Nat.zero_le 1) hfree) ROOTINO
      rw [if_pos hslash, if_pos hslash]
      exact ⟨k, t, Prog.run_lift_ok hget, hhold, hk, by rw [hk]; exact hT.root⟩
    · rw [if_neg hslash, if_neg hslash, hc.cwd]
      have hdup : idupCwd p s = .ok (c, s.setInode c
          { s.icache c with ref := (s.icache c).ref + 1 }) := by
        unfold idupCwd
        rw [hc.cwd]
        rfl
      have hinum : ((s.setInode c { s.icache c with ref := (s.icache c).ref + 1 }).icache c).inum =
          (s.icache c).inum := by
        rw [setInode_icache, update_self]
      refine ⟨c, _, Prog.run_lift_ok hdup, h0.idup hc.lt hc.ref, hinum, ?_⟩
      rw [hinum]
      exact ⟨hc.type, .inr ⟨c, hc.lt, hc.ref, rfl⟩⟩
  obtain ⟨r, t', hloop, harr⟩ :=
    namexLoop_resolves sb hT hfree parent (Nat.lt_succ_self path.length) [] hhold hi
  rw [hk] at harr
  exact ⟨r, t', (Prog.run_bind_ok hrun).trans hloop, harr⟩

/-- **Path resolution.** -/
theorem path_resolution (sb : Superblock) (hq : Quiet s) (hT : Tree s)
    (hfree : 2 ≤ (freeEntries s).card) {c : ℕ} (hc : HasCwd s p c) (path : Str) :
    (∃ r t, (namei sb p path).run arbiter p s = .ok (r, t) ∧
      Found p s t (resolve s.vol (startInum s p path) (elements path)) r) ∧
    ∃ r t, (nameiparent sb p path).run arbiter p s = .ok (r, t) ∧
      Arrived p s t (resolveParent s.vol (startInum s p path) (elements path)) r := by
  refine ⟨?_, ?_⟩
  · obtain ⟨r, t, hrun, harr⟩ := namex_resolves sb hq hT hfree hc path false
    refine ⟨r.map Prod.fst, t, (Prog.run_bind_ok hrun).trans rfl, ?_⟩
    have hinode := harr.inode
    unfold target at hinode
    rw [if_neg Bool.false_ne_true, Option.map_map] at hinode
    have hid : (Prod.fst ∘ fun j => (j, (elements path).getLastD [])) = (id : ℕ → ℕ) := rfl
    rwa [hid, Option.map_id] at hinode
  · exact namex_resolves sb hq hT hfree hc path true

end Namex

theorem quiet_of_reach {P : Type} [DecidableEq P] [Fintype P] {sb : Superblock} {K : Set ℕ}
    {v : Volume} {init : P} {s : Kernel P} (hsb : sb.WF) (hv : VolInv sb K v v.dinode)
    (h : Lts.Reach (callStep sb init) (fun _ _ => True) (boot v init) s) : Quiet s := by
  have h0 : SystemInv sb K True False False (bootSystem v init) :=
    bootSystem_inv (w := ⟨fun _ => 0, 0⟩) False.elim (fun _ => hv) False.elim False.elim False.elim
  obtain ⟨w, hI⟩ := callReach_inv (fun _ => hsb) h0 h
  refine ⟨⟨fun k _ => hI.dev k, fun k _ hk hval => (hI.coh k hk hval).full trivial,
    fun k _ l _ => hI.uniq k l⟩, fun k _ => ?_⟩
  cases hlock : (s.icache k).lock with
  | none => rfl
  | some p => exact absurd (hI.lock k p hlock) List.not_mem_nil

/-! ## Two small trees -/

section Small

variable {P : Type} {s : Kernel P}

theorem tree_of_root (hroot : ∀ i, (s.vol.dinode i).type = .dir → i = ROOTINO)
    (hok : DirOk s.vol ROOTINO)
    (hlast : ∀ i, i = ROOTINO ∨ (∃ u < (s.vol.dinode ROOTINO).size / DIRENTSZ,
      i = deInum (direntAt s.vol.data (s.vol.dinode ROOTINO) (DIRENTSZ * u)) ∧ i ≠ 0) →
      (s.vol.dinode i).type ≠ .free ∧ (s.vol.dinode i).nlink ≠ 0) : Tree s where
  root := ⟨(hlast _ (.inl rfl)).1, .inl (hlast _ (.inl rfl)).2⟩
  dir i hi := hroot i hi ▸ hok
  entry i hi u hu h0 := by
    obtain rfl := hroot i hi
    have h := hlast _ (.inr ⟨u, hu, rfl, h0⟩)
    exact ⟨h.1, .inl h.2⟩

end Small

theorem bareDisk_tree : Tree (boot bareDisk (0 : Fin 1)) := by
  refine tree_of_root (fun i hi => bareDisk_type ?_) ⟨bareDisk_noHole ROOTINO, by decide⟩ ?_
  · rw [show (bareDisk.dinode i).type = .dir from hi]
    decide
  · rintro i (rfl | ⟨u, hu, rfl, h0⟩)
    · decide
    · have hall : ∀ u < 32, deInum (direntAt bareDisk.data bareRoot (DIRENTSZ * u)) ≠ 0 →
          deInum (direntAt bareDisk.data bareRoot (DIRENTSZ * u)) = ROOTINO := by decide +kernel
      have hroot := hall u hu h0
      change (bareDisk.dinode (deInum (direntAt bareDisk.data bareRoot _))).type ≠ .free ∧
        (bareDisk.dinode (deInum (direntAt bareDisk.data bareRoot _))).nlink ≠ 0
      rw [hroot]
      decide

/-- The path `"/.//.."` on the disk of `mkfs`. -/
theorem path_resolution_dots : ∃ r t,
    (nameiparent sb0 0 [47, 46, 47, 47, 46, 46]).run arbiter 0 (boot bareDisk (0 : Fin 1)) =
      .ok (r, t) ∧ Arrived 0 (boot bareDisk (0 : Fin 1)) t (some (ROOTINO, DOTDOT)) r := by
  have hcwd : HasCwd (boot bareDisk (0 : Fin 1)) 0 0 := ⟨rfl, by decide, by decide, by decide⟩
  have hres : resolveParent (boot bareDisk (0 : Fin 1)).vol
      (startInum (boot bareDisk (0 : Fin 1)) 0 [47, 46, 47, 47, 46, 46])
      (elements [47, 46, 47, 47, 46, 46]) = some (ROOTINO, DOTDOT) := by decide +kernel
  have h := (path_resolution sb0 (quiet_of_reach sb0_wf bareDisk_inv .refl) bareDisk_tree
    (by decide +kernel) hcwd [47, 46, 47, 47, 46, 46]).2
  rwa [hres] at h

def crowdedDisk : Volume :=
  { bareDisk with
    dinode := fun i =>
      if i = ROOTINO then bareRoot else { Dinode.zero with type := .file, nlink := 1 }
    data := fun b => if b = 59 then fun i => (direntBytes ROOTINO DOT ++
      direntBytes ROOTINO DOTDOT ++ direntBytes 60 [97]).getD i 0 else Block.zero }

def crowded : Kernel (Fin 1) :=
  { boot crowdedDisk 0 with icache := fun k => ⟨ROOTDEV, k + 1, 1, none, false, Dinode.zero⟩ }

theorem crowded_quiet : Quiet crowded :=
  ⟨⟨fun _ _ _ => rfl, fun _ _ _ hv => absurd hv Bool.false_ne_true,
    fun _ _ _ _ _ _ h => Nat.succ.inj h⟩, fun _ _ => rfl⟩

theorem crowded_tree : Tree crowded := by
  refine tree_of_root (fun i hi => ?_) ⟨bareDisk_noHole ROOTINO, by decide⟩ fun i _ => ?_
  · by_contra h0
    rw [show crowded.vol.dinode i = { Dinode.zero with type := .file, nlink := 1 } from
      if_neg h0] at hi
    cases hi
  · by_cases h0 : i = ROOTINO
    · rw [h0]
      decide
    · rw [show crowded.vol.dinode i = { Dinode.zero with type := .file, nlink := 1 } from if_neg h0]
      decide

/-- With no entry of the cache left, `namei("/a")` panics. -/
theorem namei_cache_full : Quiet crowded ∧ Tree crowded ∧ HasCwd crowded 0 0 ∧
    resolve crowded.vol ROOTINO (elements [47, 97]) = some 60 ∧
    (namei sb0 0 [47, 97]).run arbiter 0 crowded = .error (.error .igetNoInodes) := by
  refine ⟨crowded_quiet, crowded_tree, ⟨rfl, by decide, by decide, by decide⟩, by decide +kernel,
    ?_⟩
  have hpanic : (match (namei sb0 0 [47, 97]).run arbiter 0 crowded with
    | .error (.error e) => some e
    | _ => none) = some .igetNoInodes := by decide +kernel
  generalize (namei sb0 0 [47, 97]).run arbiter 0 crowded = r at hpanic ⊢
  cases r with
  | ok _ => cases hpanic
  | error e =>
    cases e with
    | error e => rw [Option.some.inj hpanic]
    | blocked => cases hpanic

end Xv6.Fs
