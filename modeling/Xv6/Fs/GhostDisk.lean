import Xv6.Fs.GhostCache
import Xv6.Fs.Types

/-!
# Steps on the disk

The invariant is kept by the steps that change the disk: code on a locked inode, freeing an inode in
`iput`, and allocating one. The order of ages (`Younger`) is kept because a new entry for a
directory is only made for a younger one, and an allocated inode is the youngest.
-/

namespace Xv6.Fs

open Function StateExcept

variable {P : Type} [Fintype P] {sb : Superblock} {K : Set ℕ} {V A B : Prop}
  {s s' : Kernel P} {w : Births} {γ : P → Ghost P} {p : P} {k : ℕ} {g g' : Ghost P}

/-! ## Ages of directories -/

section Younger

variable {v v' : Volume}

theorem Younger.of_entries (h : Younger v w)
    (htype : ∀ i, (v'.dinode i).type = .dir → (v.dinode i).type = .dir)
    (hentry : ∀ i, (v'.dinode i).type = .dir → ∀ off, DIRENTSZ ∣ off →
      off + DIRENTSZ ≤ (v'.dinode i).size → off + DIRENTSZ ≤ (v.dinode i).size ∧
        direntAt v'.data (v'.dinode i) off = direntAt v.data (v.dinode i) off) : Younger v' w := by
  intro i hi off hdvd hoff hne hdots ht
  obtain ⟨hoff', heq⟩ := hentry i hi off hdvd hoff
  rw [heq] at hne hdots ht ⊢
  exact h i (htype i hi) off hdvd hoff' hne hdots (htype _ ht)

variable {d : Dinode} {inum : ℕ}

theorem Younger.of_meta (h : Younger v w) (hdata : v'.data = v.data)
    (hdi : v'.dinode = update v.dinode inum d) (ht : d.type = (v.dinode inum).type)
    (hs : d.size = (v.dinode inum).size) (ha : d.addrs = (v.dinode inum).addrs) : Younger v' w := by
  have hsame : ∀ i, (v'.dinode i).type = (v.dinode i).type ∧
      (v'.dinode i).size = (v.dinode i).size ∧ (v'.dinode i).addrs = (v.dinode i).addrs := by
    intro i
    rw [hdi]
    by_cases hi : i = inum
    · subst hi
      rw [update_self]
      exact ⟨ht, hs, ha⟩
    · rw [update_of_ne hi]
      exact ⟨rfl, rfl, rfl⟩
  refine h.of_entries (fun i hi => by rw [← (hsame i).1]; exact hi) fun i _ off _ hoff => ?_
  rw [(hsame i).2.1] at hoff
  refine ⟨hoff, direntAt_congr fun m _ => ?_⟩
  unfold byteAt blockAt
  rw [hdata, (hsame i).2.2]

theorem Younger.of_write (h : Younger v w)
    (hdi : v'.dinode = update v.dinode inum d) (ht : d.type ≠ .dir)
    (hb : ∀ j, j ≠ inum → (v.dinode j).type ≠ .free → ∀ m < (v.dinode j).size,
      byteAt v'.data (v.dinode j) m = byteAt v.data (v.dinode j) m) : Younger v' w := by
  have hne : ∀ i, (v'.dinode i).type = .dir → i ≠ inum := by
    rintro i hi rfl
    rw [hdi, update_self] at hi
    exact ht hi
  have hsame : ∀ i, i ≠ inum → v'.dinode i = v.dinode i := fun i hi => by
    rw [hdi, update_of_ne hi]
  refine h.of_entries (fun i hi => by rw [← hsame i (hne i hi)]; exact hi) fun i hi off _ hoff => ?_
  have hi' := hne i hi
  rw [hsame i hi'] at hi hoff ⊢
  refine ⟨hoff, direntAt_congr fun m hm => hb i hi' (by rw [hi]; decide) _ (by omega)⟩

theorem Younger.of_entry (h : Younger v w) {off : ℕ} {src : List UInt8}
    (he : EntryWritten sb K inum off src (v.dinode inum) v d v') (hoff : DIRENTSZ ∣ off)
    (hnew : deInum src ≠ 0 → ¬ isDots (deName src) → (v.dinode (deInum src)).type = .dir →
      w.born inum < w.born (deInum src)) : Younger v' w := by
  have htype : ∀ i, (v'.dinode i).type = (v.dinode i).type := by
    intro i
    rw [he.dinode]
    by_cases hi : i = inum
    · subst hi
      rw [update_self, he.same]
    · rw [update_of_ne hi]
  intro i hi off2 hdvd hle hne hdots ht
  rw [htype] at hi ht
  by_cases hii : i = inum
  · subst hii
    have hd : v'.dinode i = d := by rw [he.dinode, update_self]
    rw [hd] at hle hne hdots ht ⊢
    by_cases ho : off2 = off
    · subst ho
      rw [he.entry] at hne hdots ht ⊢
      exact hnew hne hdots ht
    · -- an aligned entry other than the new one lies in the old directory
      obtain ⟨hle', hold⟩ := he.aligned hoff hdvd ho hle
      rw [hold] at hne hdots ht ⊢
      exact h i hi off2 hdvd hle' hne hdots ht
  · have hd : v'.dinode i = v.dinode i := by rw [he.dinode, update_of_ne hii]
    have hold : direntAt v'.data (v.dinode i) off2 = direntAt v.data (v.dinode i) off2 :=
      direntAt_congr fun m hm => he.otherBytes i hii (by rw [hi]; decide) _
        (by rw [hd] at hle; omega)
    rw [hd] at hle hne hdots ht ⊢
    rw [hold] at hne hdots ht ⊢
    exact h i hi off2 hdvd hle hne hdots ht

end Younger

/-! ## Code on a locked inode -/

variable {α : Type} {a : α}

omit [Fintype P] in
theorem onInode_ok {m : InodeM α} (h : onInode k m s = .ok (a, s')) :
    ∃ d v, m ((s.icache k).d, s.vol) = .ok (a, (d, v)) ∧
      s' = { s.setInode k { s.icache k with d := d } with vol := v } := by
  unfold onInode at h
  split at h
  next b d v hm =>
    cases h
    exact ⟨d, v, hm, rfl⟩
  next => cases h

omit [Fintype P] in
theorem onInode_ref {m : InodeM α} (h : onInode k m s = .ok (a, s')) (l : ℕ) :
    (s'.icache l).ref = (s.icache l).ref := by
  obtain ⟨d, v, -, rfl⟩ := onInode_ok h
  by_cases hl : l = k
  · subst hl
    simp
  · simp [update_of_ne hl]

structure DiskFull (sb : Superblock) (K : Set ℕ) (s : Kernel P) (k : ℕ) (d : Dinode) (v : Volume) :
    Prop where
  inv : VolInv sb K v v.dinode
  dinode : v.dinode = update s.vol.dinode (s.icache k).inum d
  keep : ∀ n < NPOS, blockAt s.vol.data (s.icache k).d n ≠ 0 →
    blockAt v.data d n = blockAt s.vol.data (s.icache k).d n
  others : ∀ j, j ≠ (s.icache k).inum → (s.vol.dinode j).type ≠ .free → ∀ n,
    blockAt v.data (s.vol.dinode j) n = blockAt s.vol.data (s.vol.dinode j) n

structure DiskStep (sb : Superblock) (K : Set ℕ) (V B : Prop) (s : Kernel P) (w : Births) (k : ℕ)
    (d : Dinode) (v : Volume) : Prop where
  types : KeepsTypes (s.icache k).inum ((s.icache k).d, s.vol) (d, v)
  full : V → DiskFull sb K s k d v
  younger : B → Younger v w

variable {v : Volume}

/-- **Disk steps.** Code on a loaded inode keeps the invariant. -/
theorem GInv.disk_step (hI : GInv sb K V A B s w γ) (hk : (k, true) ∈ (γ p).locks) {d : Dinode}
    (h : DiskStep sb K V B s w k d v) :
    Kept V s { s.setInode k { s.icache k with d := d } with vol := v } ∧
      GInv sb K V A B { s.setInode k { s.icache k with d := d } with vol := v } w γ := by
  obtain ⟨hlock, hpos, hval, hd⟩ := hI.loaded hk
  have hcopy : d.type = (s.icache k).d.type := h.types.copy
  have hself : (v.dinode (s.icache k).inum).type = (s.icache k).d.type := h.types.self hd.type.symm
  have hothers : ∀ j, j ≠ (s.icache k).inum → v.dinode j = s.vol.dinode j := h.types.others
  have htype : ∀ i, (v.dinode i).type = (s.vol.dinode i).type := by
    intro i
    by_cases hi : i = (s.icache k).inum
    · subst hi
      rw [hself, hd.type]
    · rw [hothers i hi]
  -- the entry keeps everything but its copy of the inode
  have hcache : ∀ l, ∃ d', (s.setInode k { s.icache k with d := d }).icache l =
      { s.icache l with d := d' } := by
    intro l
    by_cases hl : l = k
    · subst hl
      exact ⟨d, setInode_same⟩
    · exact ⟨(s.icache l).d, setInode_of_ne hl⟩
  have hentry : ∀ l, ((s.setInode k { s.icache k with d := d }).icache l).dev = (s.icache l).dev ∧
      ((s.setInode k { s.icache k with d := d }).icache l).inum = (s.icache l).inum ∧
      ((s.setInode k { s.icache k with d := d }).icache l).ref = (s.icache l).ref ∧
      ((s.setInode k { s.icache k with d := d }).icache l).lock = (s.icache l).lock ∧
      ((s.setInode k { s.icache k with d := d }).icache l).valid = (s.icache l).valid := by
    intro l
    obtain ⟨d', hd'⟩ := hcache l
    rw [hd']
    exact ⟨rfl, rfl, rfl, rfl, rfl⟩
  refine ⟨⟨fun l _ => ⟨(hentry l).1, (hentry l).2.1⟩,
    fun i hi => .inl ⟨htype i, fun hV n hn hne => ?_⟩⟩, ?_⟩
  · show blockAt v.data (v.dinode i) n = _
    rw [(h.full hV).dinode]
    by_cases hii : i = (s.icache k).inum
    · subst hii
      rw [← hd.full hV] at hne ⊢
      rw [update_self]
      exact (h.full hV).keep n hn hne
    · rw [update_of_ne hii]
      exact (h.full hV).others i hii hi n
  refine
  { hI.toGlobal with
    vol := fun hV => (h.full hV).inv
    count := fun l => by rw [(hentry l).2.2.1]; exact hI.count l
    bound := fun l hl => hI.bound l (by rw [(hentry l).2.2.1] at hl; exact hl)
    dev := fun l hl => by
      rw [(hentry l).2.2.1] at hl
      rw [(hentry l).1]
      exact hI.dev l hl
    uniq := fun l m hl hm heq => by
      rw [(hentry l).2.2.1] at hl
      rw [(hentry m).2.2.1] at hm
      rw [(hentry l).2.1, (hentry m).2.1] at heq
      exact hI.uniq l m hl hm heq
    coh := by
      intro l hl hv
      rw [(hentry l).2.2.1] at hl
      rw [(hentry l).2.2.2.2] at hv
      show Coherent V _ (v.dinode _)
      rw [(hentry l).2.1]
      by_cases hlk : l = k
      · subst hlk
        rw [setInode_same]
        refine ⟨by rw [hself]; exact hcopy, fun hfree =>
          hd.alloc (hcopy.symm.trans hfree), fun hV => ?_⟩
        rw [(h.full hV).dinode, update_self]
      · have hne : (s.icache l).inum ≠ (s.icache k).inum := fun heq => hlk (hI.uniq l k hl hpos heq)
        rw [setInode_of_ne hlk, hothers _ hne]
        exact hI.coh l hl hv
    lock := fun l q hq => by
      rw [(hentry l).2.2.2.1] at hq
      exact hI.lock l q hq
    file := fun f l hft hfi => by
      rw [(hentry l).2.1, htype]
      exact hI.file f l hft hfi
    cwd := fun hA q l hc hl => by
      rw [(hentry l).2.1, htype]
      exact hI.cwd hA q l hc hl
    small := fun hB l hl => by
      rw [(hentry l).2.2.1] at hl
      rw [(hentry l).2.1]
      exact hI.small hB l hl
    younger := h.younger
    loc := fun q => ?_ }
  refine (hI.loc q).frame ?_ fun r hr => hI.ref_pos_of_ref hr
  exact
  { proc := rfl
    slot := fun l _ => (hentry l).2.1
    lock := fun l hl => by
      rw [(hentry l).2.2.2.1, (hentry l).2.2.2.2]
      exact ⟨hl, id⟩
    file := fun f _ => ⟨rfl, rfl, rfl, fun _ => rfl⟩
    child := fun _ _ _ => rfl
    conf := fun r _ t _ => htype r.inum
    edge := fun _ e _ he hdir => he (by rw [← htype]; exact hdir) }

section Locked

variable (hI : GInv sb K V A B s w γ) (hk : (k, true) ∈ (γ p).locks)

include hI hk

theorem GInv.onInode_step {α : Type} {m : InodeM α} {a : α}
    (hm : Along (KeepsTypes (s.icache k).inum) m) (h : onInode k m s = .ok (a, s'))
    (hfull : ∀ d v, m ((s.icache k).d, s.vol) = .ok (a, (d, v)) → V →
      DiskFull sb K s k d v ∧ (B → Younger v w)) : Kept V s s' ∧ GInv sb K V A B s' w γ := by
  obtain ⟨d, v, hr, rfl⟩ := onInode_ok h
  exact hI.disk_step hk
    ⟨hm _ _ _ hr, fun hV => (hfull d v hr hV).1, fun hB => (hfull d v hr (hI.bv hB)).2 hB⟩

theorem GInv.onInode_read {α : Type} {m : InodeM α} {a : α}
    (hm : Along (KeepsTypes (s.icache k).inum) m) (h : onInode k m s = .ok (a, s'))
    (hread : V → ∀ t, m ((s.icache k).d, s.vol) = .ok (a, t) → t = ((s.icache k).d, s.vol)) :
    Kept V s s' ∧ GInv sb K V A B s' w γ ∧ (V → s' = s) := by
  obtain ⟨-, -, -, hd⟩ := hI.loaded hk
  obtain ⟨hK, hI'⟩ := hI.onInode_step hk hm h fun d v hr hV => by
    obtain ⟨rfl, rfl⟩ := Prod.mk.inj (hread hV _ hr)
    refine ⟨⟨hI.vol hV, ?_, fun _ _ _ => rfl, fun _ _ _ _ => rfl⟩, hI.younger⟩
    rw [hd.full hV, update_eq_self]
  refine ⟨hK, hI', fun hV => ?_⟩
  obtain ⟨d, v, hr, rfl⟩ := onInode_ok h
  obtain ⟨rfl, rfl⟩ := Prod.mk.inj (hread hV _ hr)
  change s.setInode k (s.icache k) = s
  exact setInode_self

theorem GInv.noHole (hV : V) : NoHole s.vol.data (s.icache k).d := by
  obtain ⟨-, -, -, hd⟩ := hI.loaded hk
  have hno := (hI.vol hV).noHole _ (by rw [← hd.type]; exact hd.alloc)
  rwa [← hd.full hV] at hno

variable {u : Unit}

theorem GInv.iupdate_step {f : Dinode → Dinode}
    (hf : ∀ d, (f d).type = d.type ∧ (f d).size = d.size ∧ (f d).addrs = d.addrs)
    (h : iupdateWith sb k f s = .ok (u, s')) : Kept V s s' ∧ GInv sb K V A B s' w γ := by
  obtain ⟨-, -, -, hcoh⟩ := hI.loaded hk
  have htypes : ∀ x : Dinode × Volume, (f x.1).type = x.1.type ∧ LeavesInodes x.2 x.2 :=
    fun x => ⟨(hf x.1).1, rfl, rfl⟩
  unfold iupdateWith at h
  refine hI.onInode_step hk (.bind (modify_types htypes) fun _ => iupdate_types) h
    fun d v hm hV => ?_
  have hd := hcoh.full hV
  rw [modify_bind] at hm
  obtain ⟨lh, hs⟩ := iupdate_ok hm
  cases hs
  obtain ⟨hft, hfs, hfa⟩ := hf (s.icache k).d
  have hblock : ∀ n, blockAt s.vol.data (f (s.icache k).d) n =
    blockAt s.vol.data (s.icache k).d n :=
    fun n => by unfold blockAt; rw [hfa]
  refine ⟨⟨?_, rfl, fun n _ _ => hblock n, fun _ _ _ _ => rfl⟩, fun hB => ?_⟩
  · have hview : ∀ j, (update s.vol.dinode (s.icache k).inum (f (s.icache k).d) j).type =
        (s.vol.dinode j).type ∧ (update s.vol.dinode (s.icache k).inum
        (f (s.icache k).d) j).addrs = (s.vol.dinode j).addrs ∧ (update s.vol.dinode
        (s.icache k).inum (f (s.icache k).d) j).size = (s.vol.dinode j).size := by
      intro j
      by_cases hj : j = (s.icache k).inum
      · subst hj
        rw [update_self, ← hd]
        exact ⟨hft, hfa, hfs⟩
      · rw [update_of_ne hj]
        exact ⟨rfl, rfl, rfl⟩
    have hinv := (hI.vol hV).congr_view (fun j => (hview j).1) (fun j => (hview j).2.1)
      fun j hj n hn => by
        rw [(hview j).2.2] at hn
        rw [(hview j).1] at hj
        unfold blockAt
        rw [(hview j).2.1]
        exact (hI.vol hV).noHole j hj n hn
    exact ⟨hinv.owns, hinv.low, hinv.noHole⟩
  · rw [hd] at hft hfs hfa
    exact (hI.younger hB).of_meta rfl (by rw [hd]) hft hfs hfa

variable {off : ℕ}

theorem GInv.entry_full (hV : V) {src : List UInt8} {d : Dinode} {v : Volume}
    (he : EntryWritten sb K (s.icache k).inum off src (s.icache k).d s.vol d v)
    (hoff : DIRENTSZ ∣ off)
    (hnew : B → deInum src ≠ 0 → ¬ isDots (deName src) →
      (s.vol.dinode (deInum src)).type = .dir →
      w.born (s.icache k).inum < w.born (deInum src)) :
    DiskFull sb K s k d v ∧ (B → Younger v w) := by
  obtain ⟨-, -, -, hd⟩ := hI.loaded hk
  refine ⟨⟨he.inv, he.dinode, he.keep, he.others⟩, fun hB => ?_⟩
  rw [hd.full hV] at he
  exact (hI.younger hB).of_entry he hoff (hnew hB)

theorem GInv.dirAppend_step (hsb : V → sb.WF) {name : Str} {i : ℕ}
    (hnew : B → i < 2 ^ 16 ∧ (¬ isDots name → (s.vol.dinode i).type = .dir →
      w.born (s.icache k).inum < w.born i))
    (h : onInode k (dirAppend sb (s.icache k).inum name i) s = .ok (u, s')) :
    Kept V s s' ∧ GInv sb K V A B s' w γ := by
  obtain ⟨-, -, -, hd⟩ := hI.loaded hk
  refine hI.onInode_step hk (dirAppend_types name i) h fun d v hm hV => ?_
  obtain ⟨off, x, hend, he⟩ := dirAppend_ok (hI.vol hV) (hsb hV) (hd.full hV).symm hd.alloc hm
  obtain ⟨n, hn, -⟩ := hend.passed
  refine hI.entry_full hk hV he ⟨n, by rw [hn, Nat.zero_add]⟩ fun hB _ hdots htype => ?_
  obtain ⟨hsmall, hyoung⟩ := hnew hB
  rw [deInum_direntBytes, Nat.mod_eq_of_lt hsmall] at htype ⊢
  refine hyoung (fun hname => hdots ?_) htype
  unfold isDots at hname ⊢
  rwa [deName_direntBytes, namecmp_eq_zero, namecmp_eq_zero, strncpy_strncpy, ← namecmp_eq_zero,
    ← namecmp_eq_zero]

theorem GInv.dirErase_step (hsb : V → sb.WF) (hoff : V → DIRENTSZ ∣ off)
    (h : onInode k (dirErase sb (s.icache k).inum off) s = .ok (u, s')) :
    Kept V s s' ∧ GInv sb K V A B s' w γ := by
  obtain ⟨-, -, -, hd⟩ := hI.loaded hk
  refine hI.onInode_step hk (dirErase_types off) h fun d v hm hV => ?_
  exact hI.entry_full hk hV (dirErase_ok (hI.vol hV) (hsb hV) (hd.full hV).symm
    hd.alloc hm) (hoff hV)
    fun _ h0 => absurd deInum_zeroDirent h0

theorem GInv.writei_step (hsb : V → sb.WF) {src : List UInt8} {r : Option ℕ}
    (ht : B → (s.icache k).d.type ≠ .dir)
    (h : onInode k (writei sb (s.icache k).inum off src) s = .ok (r, s')) :
    Kept V s s' ∧ GInv sb K V A B s' w γ := by
  obtain ⟨-, -, -, hcoh⟩ := hI.loaded hk
  refine hI.onInode_step hk (writei_types off src) h fun d v hm hV => ?_
  have hd := hcoh.full hV
  obtain ⟨-, hsame⟩ | ⟨-, -, hinv, hdi, hsame, v1, hdata, hw⟩ :=
    writei_inv (hI.vol hV) (hsb hV) hd.symm hcoh.alloc hm
  · cases hsame
    refine ⟨⟨hI.vol hV, ?_, fun _ _ _ => rfl, fun _ _ _ _ => rfl⟩, hI.younger⟩
    rw [hd, update_eq_self]
  · dsimp only at hinv hdi hsame hdata hw
    refine ⟨⟨hinv, hdi, ?_, ?_⟩, fun hB => ?_⟩
    · rw [← hdata]
      exact hw.keep
    · rw [← hdata]
      exact hw.others
    · refine (hI.younger hB).of_write hdi (by rw [hsame]; exact ht hB) fun j hj hjt m hm => ?_
      rw [← hdata]
      exact hw.otherBytes j hj hjt m (((hI.vol hV).noHole j hjt).backed hm)

end Locked

/-! ## Changes of the disk alone -/

/-- A step that changes the disk to `v`, and the ages to `w'`, and leaves alone the inodes that
somebody knows something about. -/
structure VolStep (sb : Superblock) (K : Set ℕ) (V B : Prop) (s : Kernel P) (w w' : Births)
    (γ : P → Ghost P) (v : Volume) : Prop where
  inv : V → VolInv sb K v v.dinode
  conf : ∀ q, ∀ r ∈ (γ q).refs, r.type ≠ none →
    (v.dinode r.inum).type = (s.vol.dinode r.inum).type
  coh : ∀ k, 0 < (s.icache k).ref → (s.icache k).valid = true →
    v.dinode (s.icache k).inum = s.vol.dinode (s.icache k).inum
  file : ∀ f k, (s.ftable f).type = .inode → (s.ftable f).ip = some k →
    (v.dinode (s.icache k).inum).type = (s.vol.dinode (s.icache k).inum).type
  cwd : ∀ q k, (s.proc q).cwd = some k → (s.proc q).leaving = false →
    (s.vol.dinode (s.icache k).inum).type ≠ .free → (v.dinode (s.icache k).inum).type ≠ .free
  edge : B → ∀ q, ∀ e ∈ (γ q).edges, (v.dinode e.2).type = .dir →
    ((s.vol.dinode e.2).type = .dir → w.born e.1 < w.born e.2) → w'.born e.1 < w'.born e.2
  clock : B → ∀ i, w'.born i ≤ w'.clock
  younger : B → Younger v w'

theorem GInv.vol_step (hI : GInv sb K V A B s w γ) {w' : Births}
    (h : VolStep sb K V B s w w' γ v) : GInv sb K V A B { s with vol := v } w' γ :=
  { hI.toGlobal with
    vol := h.inv
    coh := fun l hl hv => by
      show Coherent V _ (v.dinode _)
      rw [h.coh l hl hv]
      exact hI.coh l hl hv
    file := fun f l hft hfi => by
      show (v.dinode _).type ≠ _ ∧ (_ → (v.dinode _).type ≠ _)
      rw [h.file f l hft hfi]
      exact hI.file f l hft hfi
    cwd := fun hA q l hc hl => h.cwd q l hc hl (hI.cwd hA q l hc hl)
    clock := h.clock
    younger := h.younger
    loc := fun q => (hI.loc q).frame
      { proc := rfl
        slot := fun _ _ => rfl
        lock := fun _ hl => ⟨hl, id⟩
        file := fun _ _ => ⟨rfl, rfl, rfl, fun _ => rfl⟩
        child := fun _ _ _ => rfl
        conf := fun r hr t ht => h.conf q r hr (by rw [ht]; exact Option.some_ne_none t)
        edge := fun hB e he hold ht => h.edge hB q e he ht hold } fun r hr => hI.ref_pos_of_ref hr }

theorem GInv.log_step (hI : GInv sb K V A B s w γ) (hb : v.bitmap = s.vol.bitmap)
    (hi : v.dinode = s.vol.dinode) (hd : v.data = s.vol.data) :
    Kept V s { s with vol := v } ∧ GInv sb K V A B { s with vol := v } w γ := by
  refine ⟨⟨fun _ _ => ⟨rfl, rfl⟩, fun i _ => .inl ?_⟩, hI.vol_step ?_⟩
  · show (v.dinode i).type = _ ∧ (V → ∀ n < NPOS, _ → blockAt v.data (v.dinode i) n = _)
    rw [hi, hd]
    exact ⟨rfl, fun _ _ _ _ => rfl⟩
  · obtain ⟨b, di, da, lh, o⟩ := v
    dsimp only at hb hi hd
    subst hb hi hd
    exact
    { inv := fun hV => ⟨(hI.vol hV).owns, (hI.vol hV).low, (hI.vol hV).noHole⟩
      conf := fun _ _ _ _ => rfl
      coh := fun _ _ _ => rfl
      file := fun _ _ _ _ => rfl
      cwd := fun _ _ _ _ hne => hne
      edge := fun _ _ _ _ ht he => he ht
      clock := hI.clock
      younger := hI.younger }

/-! ## Freeing an inode -/

omit [Fintype P] in
theorem iputFree_ok {u : Unit} (hv : V → VolInv sb K s.vol s.vol.dinode)
    (hd : Coherent V (s.icache k).d (s.vol.dinode (s.icache k).inum))
    (h : iputFree sb k s = .ok (u, s')) : ∃ d v,
      s' = { s.setInode k { s.icache k with valid := false, d := d } with vol := v } ∧
      d.type = .free ∧ v.dinode = update s.vol.dinode (s.icache k).inum d ∧
      (V → VolInv sb K v v.dinode ∧ v.data = s.vol.data ∧
        ∀ n < NPOS, blockAt s.vol.data (s.icache k).d n ≠ 0 →
          blockAt s.vol.data (s.icache k).d n ∈ K →
          v.bitmap (blockAt s.vol.data (s.icache k).d n) = false) := by
  unfold iputFree at h
  split at h
  swap
  · cases h
  next u' s1 hon =>
    cases h
    obtain ⟨d, v, hm, rfl⟩ := onInode_ok hon
    obtain ⟨_, s2, h1, hm⟩ := bind_ok.mp hm
    have hothers := (itrunc_types _ _ _ h1).others
    rw [modify_bind] at hm
    obtain ⟨lh, hs⟩ := iupdate_ok hm
    cases hs
    refine ⟨{ s2.1 with type := .free }, { s2.2 with
      dinode := update s2.2.dinode (s.icache k).inum { s2.1 with type := .free }
      lh := lh }, ?_, rfl, ?_, fun hV => ?_⟩
    · unfold Kernel.setInode
      simp only [update_self, update_idem]
    · funext j
      dsimp only
      by_cases hj : j = (s.icache k).inum
      · subst hj
        rw [update_self, update_self]
      · rw [update_of_ne hj, update_of_ne hj]
        exact hothers j hj
    have hview : VolInv sb K s.vol (viewWith s.vol (s.icache k).inum (s.icache k).d) := by
      rw [viewWith, hd.full hV, update_eq_self]
      exact hv hV
    obtain ⟨hinv, hsame, haddr, hdata, hdi, hbits⟩ := itrunc_inv hview hd.alloc h1
    have hempty : ∀ n, blockAt s2.2.data s2.1 n = 0 := blockAt_eq_zero haddr
    refine ⟨⟨?_, hinv.low, ?_⟩, hdata, hbits⟩
    · -- an inode without blocks owns nothing, free or not
      have howns := hinv.owns
      rw [hdi, ownMap_empty (.inr hempty)] at howns
      dsimp only
      rw [hdi, update_idem, ownMap_empty (.inl rfl)]
      exact howns
    · intro i hi
      dsimp only at hi ⊢
      by_cases hii : i = (s.icache k).inum
      · subst hii
        rw [update_self] at hi
        exact absurd rfl hi
      · rw [update_of_ne hii] at hi ⊢
        exact hinv.noHole i hi

variable {i : ℕ}

theorem GInv.free_vol (hI : GInv sb K V A B s w γ) {d : Dinode}
    (hinv : V → VolInv sb K v v.dinode ∧ v.data = s.vol.data)
    (hdi : v.dinode = update s.vol.dinode i d) (hfree : d.type = .free)
    (hconf : ∀ q, ∀ r ∈ (γ q).refs, r.type ≠ none → r.inum ≠ i)
    (hcoh : ∀ k, 0 < (s.icache k).ref → (s.icache k).valid = true → (s.icache k).inum ≠ i)
    (hfile : ∀ f k, (s.ftable f).type = .inode → (s.ftable f).ip = some k → (s.icache k).inum ≠ i)
    (hcwd : ∀ q k, (s.proc q).cwd = some k → (s.proc q).leaving = false →
      (s.icache k).inum ≠ i) : GInv sb K V A B { s with vol := v } w γ := by
  have hkeep : ∀ j, j ≠ i → v.dinode j = s.vol.dinode j := fun j hj => by
    rw [hdi, update_of_ne hj]
  have htype : ∀ j, (v.dinode j).type = .dir → j ≠ i := by
    rintro j hj rfl
    rw [hdi, update_self, hfree] at hj
    cases hj
  refine hI.vol_step
    { inv := fun hV => (hinv hV).1
      conf := fun q x hx hne => by rw [hkeep _ (hconf q x hx hne)]
      coh := fun l hl hv => hkeep _ (hcoh l hl hv)
      file := fun f l hft hfi => by rw [hkeep _ (hfile f l hft hfi)]
      cwd := fun q l hc hlv hne => by
        rw [hkeep _ (hcwd q l hc hlv)]
        exact hne
      edge := fun _ q e _ ht he => he (by rw [← hkeep _ (htype _ ht)]; exact ht)
      clock := hI.clock
      younger := fun hB => (hI.younger hB).of_entries
        (fun j hj => by rw [← hkeep _ (htype _ hj)]; exact hj) fun j hj off _ hoff => ?_ }
  rw [hkeep _ (htype _ hj)] at hoff ⊢
  rw [(hinv (hI.bv hB)).2]
  exact ⟨hoff, rfl⟩

variable {r : Ref}

theorem GInv.free_step [DecidableEq P] (hI : GInv sb K V A B s w γ) (hg : γ p = g) {rs : List Ref}
    {ls : List (ℕ × Bool)} (hrs : g.refs.Perm (r :: rs)) (hnot : r.slot ∉ rs.map Ref.slot)
    (hls : g.locks.Perm ((r.slot, true) :: ls)) (hf : g.freeing = some r.slot)
    (hg' : g' = { g with
      refs := { r with type := none } :: rs
      locks := (r.slot, false) :: ls
      freeing := none })
    (hwf : g'.WF) {u : Unit} (h : iputFree sb r.slot s = .ok (u, s')) :
    Kept V s s' ∧ GInv sb K V A B s' w (update γ p g') := by
  subst hg hg'
  have hl := hI.loc p
  have hmem : ∀ x ∈ rs, x ∈ (γ p).refs := fun x hx => hrs.mem_iff.mpr (List.mem_cons_of_mem _ hx)
  have hk : (r.slot, true) ∈ (γ p).locks := hls.mem_iff.mpr List.mem_cons_self
  obtain ⟨hlock, hpos, hval, hd⟩ := hI.loaded hk
  obtain ⟨d, v, rfl, hfree, hdi, hfull⟩ := iputFree_ok hI.vol hd h
  obtain ⟨halone, hnouser⟩ := hI.alone p r.slot hf
  have hinum : (s.icache r.slot).inum = r.inum :=
    hl.inum r (hrs.mem_iff.mpr List.mem_cons_self)
  -- only entry `r.slot` is for the freed inode
  have honly : ∀ l, 0 < (s.icache l).ref → l ≠ r.slot →
      (s.icache l).inum ≠ (s.icache r.slot).inum := fun l hl hne heq =>
        hne (hI.uniq l _ hl hpos heq)
  have hkeep : ∀ i, i ≠ (s.icache r.slot).inum → v.dinode i = s.vol.dinode i := fun i hi => by
    rw [hdi, update_of_ne hi]
  have hentry : ∀ l,
      ((s.setInode r.slot { s.icache r.slot with valid := false, d := d }).icache l).dev =
        (s.icache l).dev ∧
      ((s.setInode r.slot { s.icache r.slot with valid := false, d := d }).icache l).inum =
      (s.icache l).inum ∧
      ((s.setInode r.slot { s.icache r.slot with valid := false, d := d }).icache l).ref =
      (s.icache l).ref := by
    intro l
    by_cases hlk : l = r.slot
    · subst hlk
      rw [setInode_same]
      exact ⟨rfl, rfl, rfl⟩
    · rw [setInode_of_ne hlk]
      exact ⟨rfl, rfl, rfl⟩
  refine ⟨⟨fun l _ => ⟨(hentry l).1, (hentry l).2.1⟩, fun i hi => ?_⟩, ?_⟩
  · by_cases hii : i = (s.icache r.slot).inum
    · refine .inr fun l hl hli => ?_
      by_contra hne
      by_cases hlk : l = r.slot
      · subst hlk
        exact hne hnouser
      · exact honly l hl hlk (by rw [hli, hii])
    · refine .inl ?_
      show (v.dinode i).type = _ ∧ (V → ∀ n < NPOS, _ → blockAt v.data (v.dinode i) n = _)
      rw [hkeep i hii]
      exact ⟨rfl, fun hV _ _ _ => by rw [(hfull hV).2.1]⟩
  -- forget the type, then invalidate the entry, then free the inode
  have hI1 : GInv sb K V A B s w (update γ p
      { γ p with refs := { r with type := none } :: rs, freeing := none }) := by
    refine hI.ghost_step
      { slots := fun l => by rw [(hrs.map Ref.slot).count_eq]; rfl
        fds := fun _ => rfl
        locks := fun _ hm => hm
        child := rfl
        conf := fun x hx hne q hq => ?_
        freeing := fun _ hf => by cases hf
        loc :=
        { hl with
          wf :=
          { quiet := fun h => by cases congrArg Ghost.refs (hwf.quiet h)
            staked := fun x hx => ?_
            nodup := hl.wf.nodup
            freeing := fun _ hf => by cases hf
            sourced := hwf.sourced }
          inum := fun x hx => ?_
          conf := fun x hx t hxt => ?_ } }
    · rcases List.mem_cons.mp hx with rfl | hx
      · exact absurd rfl hne
      · exact hI.not_freeing (hmem x hx) hne hq
    · rcases List.mem_cons.mp (hls.mem_iff.mp hx) with rfl | hx
      · exact hwf.staked (r.slot, false) List.mem_cons_self
      · exact hwf.staked x (List.mem_cons_of_mem _ hx)
    · rcases List.mem_cons.mp hx with rfl | hx
      · exact hinum
      · exact hl.inum x (hmem x hx)
    · rcases List.mem_cons.mp hx with rfl | hx
      · cases hxt
      · exact hl.conf x (hmem x hx) t hxt
  have hI2 := (hI1.invalidate (update_self p _ γ) (d := d) hls hwf).2
  rw [update_idem] at hI2
  refine hI2.free_vol (fun hV => ⟨(hfull hV).1, (hfull hV).2.1⟩) hdi hfree ?_ ?_ ?_ ?_
  · intro q x hx hne
    have hold : x ∈ (γ q).refs ∧ x.slot ≠ r.slot := by
      by_cases hq : q = p
      · subst hq
        rw [update_self] at hx
        rcases List.mem_cons.mp hx with rfl | hx
        · exact absurd rfl hne
        · exact ⟨hmem x hx, fun h => hnot (h ▸ List.mem_map_of_mem hx)⟩
      · rw [update_of_ne hq] at hx
        exact ⟨hx, fun h => hne (halone q hq x hx h)⟩
    rw [← (hI.loc q).inum x hold.1]
    exact honly _ (hI.ref_pos_of_ref hold.1) hold.2
  · intro l hl hv
    rw [(hentry l).2.2] at hl
    rw [(hentry l).2.1]
    refine honly l hl ?_
    rintro rfl
    rw [setInode_same] at hv
    cases hv
  · intro f l hft hfi
    rw [(hentry l).2.1]
    refine honly l (hI.ref_pos_of_file hft hfi) ?_
    rintro rfl
    exact hnouser.1 f hft hfi
  · intro q l hc hlv
    rw [(hentry l).2.1]
    refine honly l (hI.ref_pos_of_cwd hc hlv) ?_
    rintro rfl
    cases (hnouser.2 q hc).symm.trans hlv

/-! ## Allocating an inode -/

def Births.add (w : Births) (i : ℕ) : Births :=
  ⟨update w.born i (w.clock + 1), w.clock + 1⟩

theorem Births.add_self (w : Births) (i : ℕ) : (w.add i).born i = w.clock + 1 :=
  update_self ..

theorem Births.add_of_ne (w : Births) {j : ℕ} (h : j ≠ i) : (w.add i).born j = w.born j :=
  update_of_ne h ..

theorem Younger.alloc (h : Younger v w) (hw : ∀ j, w.born j ≤ w.clock)
    (type : FType) (lh : List ℕ) :
    Younger { v with
      dinode := update v.dinode i { Dinode.zero with type := type }
      lh := lh } (w.add i) := by
  intro j hj off hdvd hoff hne hdots ht
  dsimp only at hj hoff hne hdots ht ⊢
  by_cases hji : j = i
  · subst hji
    rw [update_self] at hoff
    have : off + DIRENTSZ ≤ 0 := hoff
    simp [DIRENTSZ] at this
  · rw [update_of_ne hji] at hj hoff hne hdots ht ⊢
    rw [w.add_of_ne hji]
    by_cases hc : deInum (direntAt v.data (v.dinode j) off) = i
    · rw [hc, w.add_self]
      have := hw j
      omega
    · rw [update_of_ne hc] at ht
      rw [w.add_of_ne hc]
      exact h j hj off hdvd hoff hne hdots ht

theorem GInv.alloc_vol (hI : GInv sb K V A B s w γ) (hi : (s.vol.dinode i).type = .free)
    (type : FType) (lh : List ℕ) :
    Kept V s { s with vol := { s.vol with
      dinode := update s.vol.dinode i { Dinode.zero with type := type }
      lh := lh } } ∧
    GInv sb K V A B { s with vol := { s.vol with
      dinode := update s.vol.dinode i { Dinode.zero with type := type }
      lh := lh } } (w.add i) γ := by
  have hne : ∀ j, (s.vol.dinode j).type ≠ .free → j ≠ i := by
    rintro j hj rfl
    exact hj hi
  have hkeep : ∀ j, (s.vol.dinode j).type ≠ .free →
      update s.vol.dinode i { Dinode.zero with type := type } j = s.vol.dinode j :=
    fun j hj => update_of_ne (hne j hj) ..
  have hconf : ∀ q, ∀ r ∈ (γ q).refs, r.type ≠ none → (s.vol.dinode r.inum).type ≠ .free := by
    intro q r hr hty
    obtain ⟨t, hrt⟩ := Option.ne_none_iff_exists'.mp hty
    obtain ⟨hfree, heq⟩ := (hI.loc q).conf r hr t hrt
    rwa [heq]
  refine ⟨⟨fun _ _ => ⟨rfl, rfl⟩, fun j hj => .inl ?_⟩, hI.vol_step
    { inv := fun hV => (hI.vol hV).alloc hi { Dinode.zero with type := type } rfl rfl lh
      conf := fun q r hr hty => by
        dsimp only
        rw [hkeep _ (hconf q r hr hty)]
      coh := fun l hl hv => hkeep _ (by
        rw [← (hI.coh l hl hv).type]
        exact (hI.coh l hl hv).alloc)
      file := fun f l hft hfi => by
        dsimp only
        rw [hkeep _ (hI.file f l hft hfi).1]
      cwd := fun q l _ _ hfree => by
        dsimp only
        rwa [hkeep _ hfree]
      edge := fun hB q e he hdir hold => ?_
      clock := fun hB j => ?_
      younger := fun hB => (hI.younger hB).alloc (hI.clock hB) type lh }⟩
  · dsimp only
    rw [hkeep j hj]
    exact ⟨rfl, fun _ _ _ _ => rfl⟩
  · obtain ⟨r, hr, hri, hrt⟩ := (hI.loc q).wf.sourced e he
    have hsrc : e.1 ≠ i := by
      rw [← hri]
      exact hne _ (hconf q r hr (by rw [hrt]; exact Option.some_ne_none _))
    rw [w.add_of_ne hsrc]
    by_cases he2 : e.2 = i
    · rw [he2, w.add_self]
      have := hI.clock hB e.1
      omega
    · rw [w.add_of_ne he2]
      dsimp only at hdir
      rw [update_of_ne he2] at hdir
      exact hold hdir
  · show (w.add i).born j ≤ w.clock + 1
    by_cases hji : j = i
    · rw [hji, w.add_self]
    · rw [w.add_of_ne hji]
      have := hI.clock hB j
      omega

theorem GInv.add_edge [DecidableEq P] (hI : GInv sb K V A B s w γ) (hg : γ p = g)
    (hrun : g.run = true) (hr : r ∈ g.refs) (ht : r.type = some .dir)
    (h : B → (s.vol.dinode i).type = .dir → w.born r.inum < w.born i) :
    GInv sb K V A B s w (update γ p { g with edges := (r.inum, i) :: g.edges }) := by
  subst hg
  have hl := hI.loc p
  exact hI.learn rfl rfl rfl rfl rfl (fun _ => rfl) { hl with
    wf := hl.wf.addEdge hrun hr ht i
    edge := fun hB e he hdir => by
      rcases List.mem_cons.mp he with rfl | he
      · exact h hB hdir
      · exact hl.edge hB e he hdir }

omit [Fintype P] in
theorem onDisk_ok {m : VolM α} (h : onDisk m s = .ok (a, s')) :
    ∃ v, m s.vol = .ok (a, v) ∧ s' = { s with vol := v } := by
  unfold onDisk at h
  split at h
  next b v hm =>
    cases h
    exact ⟨v, hm, rfl⟩
  next => cases h

theorem GInv.type_ref [DecidableEq P] (hI : GInv sb K V A B s w γ) (hg : γ p = g)
    (hrun : g.run = true) {rs : List Ref} (hrs : g.refs = r :: rs) (hnew : r.type = none)
    {t : FType} (ht : t ≠ .free)
    (hd : (s.vol.dinode r.inum).type = t) (hf : ∀ q, q ≠ p → (γ q).freeing ≠ some r.slot) :
    GInv sb K V A B s w (update γ p { g with refs := { r with type := some t } :: rs }) := by
  subst hg
  have hl := hI.loc p
  have hmem : ∀ x ∈ rs, x ∈ (γ p).refs := fun x hx => by
    rw [hrs]
    exact List.mem_cons_of_mem _ hx
  have hwf := hl.wf.seeType hrun (List.Perm.of_eq hrs) (t := t) fun t0 h0 => by
    rw [hnew] at h0
    cases h0
  refine hI.ghost_step
    { slots := fun l => by rw [hrs]; rfl
      fds := fun _ => rfl
      locks := fun _ hm => hm
      child := rfl
      conf := fun x hx hne q hq => ?_
      freeing := fun l hl => hI.alone p l hl
      loc := { hl with
        wf := hwf
        inum := fun x hx => ?_
        conf := fun x hx t' hxt => ?_ } }
  · rcases List.mem_cons.mp hx with rfl | hx
    · exact hf q hq
    · exact hI.not_freeing (hmem x hx) hne hq
  · rcases List.mem_cons.mp hx with rfl | hx
    · exact hl.inum r (by rw [hrs]; exact List.mem_cons_self)
    · exact hl.inum x (hmem x hx)
  · rcases List.mem_cons.mp hx with rfl | hx
    · cases hxt
      exact ⟨ht, hd⟩
    · exact hl.conf x (hmem x hx) t' hxt

theorem GInv.not_freeing_free (hI : GInv sb K V A B s w γ) {q : P}
    (h : (s.vol.dinode (s.icache k).inum).type = .free) : (γ q).freeing ≠ some k := by
  intro hf
  obtain ⟨-, -, -, hd⟩ := hI.loaded ((hI.loc q).wf.freeing k hf)
  exact hd.alloc (hd.type.trans h)

theorem GInv.ialloc_step [DecidableEq P] (hI : GInv sb K V A B s w γ) (hg : γ p = g)
    (hrun : g.run = true) (hr : r ∈ g.refs) (ht : r.type = some .dir)
    (hsb : B → sb.ninodes ≤ 2 ^ 16) {type : FType} (htype : type ≠ .free)
    (h : ialloc sb ROOTDEV type s = .ok (k, s')) :
    Kept V s s' ∧ ∃ i, GInv sb K V A B s' (w.add i) (update γ p { g with
      refs := ⟨k, i, some type⟩ :: g.refs
      edges := (r.inum, i) :: g.edges }) := by
  unfold ialloc at h
  obtain ⟨i, s1, h1, h2⟩ := bind_ok.mp h
  obtain ⟨v, hv, rfl⟩ := onDisk_ok h1
  obtain ⟨hfree, -, hlt, lh, rfl⟩ := iallocDisk_ok hv
  obtain ⟨hK1, hI1⟩ := hI.alloc_vol hfree type lh
  obtain ⟨hK2, hvol, hI2⟩ := hI1.iget_step hg hrun (fun hB => hlt.trans_le (hsb hB)) h2
  have hself : ∀ x : Ghost P, update γ p x p = x := fun x => update_self p x γ
  refine ⟨⟨fun l hl => hK2.entry l hl, fun j hj => ?_⟩, i, ?_⟩
  · rw [hvol]
    exact hK1.inode j hj
  have hinum : (s'.icache k).inum = i := by
    have hmem : (⟨k, i, none⟩ : Ref) ∈ (update γ p
        { g with refs := ⟨k, i, none⟩ :: g.refs } p).refs := by
      rw [hself]
      exact List.mem_cons_self
    exact (hI2.loc p).inum _ hmem
  have hI3 := hI2.type_ref (hself _) hrun rfl rfl htype
    (by rw [hvol]; simp only [update_self]) fun q hq hf => by
      rw [update_of_ne hq] at hf
      -- an entry that is being freed holds an inode that was allocated all along
      have hpos : 0 < (s.icache k).ref := by
        obtain ⟨-, hpos, -⟩ := hI.loaded ((hI.loc q).wf.freeing k hf)
        exact hpos
      refine hI.not_freeing_free (q := q) ?_ hf
      rw [← (hK2.entry k hpos).2, hinum]
      exact hfree
  rw [update_idem] at hI3
  have hI4 := hI3.add_edge (hself _) hrun (List.mem_cons_of_mem _ hr) ht (i := i) fun hB _ => ?_
  · rwa [update_idem] at hI4
  · have hne : r.inum ≠ i := by
      intro heq
      subst hg
      obtain ⟨-, hdir⟩ := (hI.loc p).conf r hr _ ht
      rw [heq, hfree] at hdir
      cases hdir
    rw [w.add_self, w.add_of_ne hne]
    have := hI.clock hB r.inum
    omega

theorem GInv.dirlookup_step [DecidableEq P] (hI : GInv sb K V A B s w γ) (hg : γ p = g)
    (hrun : g.run = true) (hk : (k, true) ∈ g.locks) {name : Str} {x : Option (ℕ × ℕ)}
    (h : dirlookup sb k name s = .ok (x, s')) :
    Kept V s s' ∧ match x with
      | none => GInv sb K V A B s' w γ
      | some (l, off) => (V → DIRENTSZ ∣ off) ∧ ∃ i,
        (B → ¬ isDots name → (s'.vol.dinode i).type = .dir → w.born (s.icache k).inum < w.born i) ∧
        GInv sb K V A B s' w (update γ p { g with refs := ⟨l, i, none⟩ :: g.refs }) := by
  have hk' : (k, true) ∈ (γ p).locks := by rw [hg]; exact hk
  obtain ⟨-, hpos, -, hd⟩ := hI.loaded hk'
  have hnohole : V → NoHole s.vol.data (s.icache k).d := hI.noHole hk'
  unfold dirlookup at h
  obtain ⟨y, s1, h1, h2⟩ := bind_ok.mp h
  obtain ⟨hK1, hI1, hs1⟩ := hI.onInode_read hk' (dirfind_types name) h1 fun hV t ht =>
    (dirfind_ok (hnohole hV) ht).1
  obtain ⟨d, v, hm, -⟩ := onInode_ok h1
  cases y with
  | none =>
    obtain ⟨rfl, rfl⟩ := pure_ok h2
    exact ⟨hK1, hI1⟩
  | some z =>
    obtain ⟨i, off⟩ := z
    dsimp only at h2
    rw [get_bind] at h2
    obtain ⟨l, s2, h3, h4⟩ := bind_ok.mp h2
    obtain ⟨rfl, rfl⟩ := pure_ok h4
    have hdev : (s1.icache k).dev = ROOTDEV := by
      rw [(hK1.entry k hpos).1]
      exact hI.dev k hpos
    rw [hdev] at h3
    -- on a consistent disk the entry found is one of the directory's
    have hfind : V → (s.icache k).d.type = .dir ∧ DIRENTSZ ∣ off ∧
        off + DIRENTSZ ≤ (s.icache k).d.size ∧
        hitAt s.vol.data (s.icache k).d (nameHit name) off = true ∧
        i = deInum (direntAt s.vol.data (s.icache k).d off) := by
      intro hV
      obtain ⟨-, hdir, off', z, hend, heq⟩ := dirfind_ok (hnohole hV) hm
      obtain ⟨j, rfl, hj⟩ := Option.map_eq_some_iff.mp heq.symm
      obtain ⟨rfl, rfl⟩ := Prod.mk.inj hj
      obtain ⟨n, hn, -⟩ := hend.passed
      exact ⟨hdir, ⟨n, by rw [hn, Nat.zero_add]⟩, hend.found j rfl⟩
    have hsmall : B → i < 2 ^ 16 := fun hB => by
      rw [(hfind (hI.bv hB)).2.2.2.2]
      exact deInum_lt _
    obtain ⟨hK2, hvol, hI2⟩ := hI1.iget_step hg hrun hsmall h3
    refine ⟨hK1.cache hvol fun m hm => hK2.entry m ?_, fun hV => (hfind hV).2.1, i,
      fun hB hdots htype => ?_, hI2⟩
    · rw [onInode_ref h1]
      exact hm
    have hV := hI.bv hB
    obtain ⟨hdir, hdvd, hle, hhit, hi⟩ := hfind hV
    unfold hitAt nameHit at hhit
    simp only [ne_eq, Bool.and_eq_true, decide_eq_true_eq] at hhit
    rw [hvol, hs1 hV, hi] at htype
    rw [hi]
    rw [hd.full hV] at hle hhit htype hdir ⊢
    refine hI.younger hB _ hdir off hdvd hle hhit.1 (fun hdn => hdots ?_) htype
    unfold isDots at hdn ⊢
    have hname := namecmp_eq_zero.mp hhit.2
    rwa [namecmp_eq_zero, namecmp_eq_zero, hname, ← namecmp_eq_zero, ← namecmp_eq_zero]

end Xv6.Fs
