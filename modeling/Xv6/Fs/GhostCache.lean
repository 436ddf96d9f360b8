import Xv6.Fs.Ghost

/-!
# Steps on the inode cache

The invariant is kept by the steps that change one cache entry and not the disk: taking and dropping
references, taking and releasing the sleep lock, reading the inode from disk. `GInv.cache_step`
collects what such a step has to show; each step then gives its own ghosts.
-/

namespace Xv6.Fs

open Function Finset Account

variable {P : Type} [DecidableEq P] [Fintype P] {sb : Superblock} {K : Set ℕ} {V A B : Prop}
  {s s' : Kernel P} {w : Births} {γ γ' : P → Ghost P} {p q : P} {k : ℕ} {g g' : Ghost P}

/-! ## Counts -/

omit [DecidableEq P] in
theorem refCount_change (s s' : Kernel P) (γ γ' : P → Ghost P) (q : P) (k : ℕ)
    (hf : s'.ftable = s.ftable) (h : ∀ r, r ≠ q → procRef (s'.proc r) (γ' r) k =
    procRef (s.proc r) (γ r) k) :
    refCount s' γ' k + procRef (s.proc q) (γ q) k =
      refCount s γ k + procRef (s'.proc q) (γ' q) k := by
  have := sum_change (g := fun r => procRef (s'.proc r) (γ' r) k)
    (f := fun r => procRef (s.proc r) (γ r) k) (mem_univ q) fun r _ hr => h r hr
  unfold refCount
  rw [hf]
  omega

omit [DecidableEq P] in
theorem fileCount_change (s s' : Kernel P) (γ γ' : P → Ghost P) (q : P) (f : ℕ)
    (h : ∀ r, r ≠ q → fdCount (s'.proc r) (γ' r) f = fdCount (s.proc r) (γ r) f) :
    fileCount s' γ' f + fdCount (s.proc q) (γ q) f =
      fileCount s γ f + fdCount (s'.proc q) (γ' q) f :=
  sum_change (g := fun r => fdCount (s'.proc r) (γ' r) f)
    (f := fun r => fdCount (s.proc r) (γ r) f) (mem_univ q) fun r _ hr => h r hr

omit [DecidableEq P] in
theorem Global.not_freeing (h : Global sb K V A B s w γ) {r : Ref} (hr : r ∈ (γ p).refs)
    (ht : r.type ≠ none) (hq : q ≠ p) : (γ q).freeing ≠ some r.slot := by
  intro hf
  exact ht ((h.alone q r.slot hf).1 p hq.symm r hr rfl)

/-! ## Steps of the ghost alone -/

/-- A change of `p`'s ghost in the same state. -/
structure GhostStep (B : Prop) (s : Kernel P) (w : Births) (γ : P → Ghost P) (p : P)
    (g' : Ghost P) : Prop where
  slots : ∀ k, (g'.refs.map Ref.slot).count k = ((γ p).refs.map Ref.slot).count k
  fds : ∀ f, fdCount (s.proc p) g' f = fdCount (s.proc p) (γ p) f
  locks : ∀ k, k ∈ (γ p).locks.map Prod.fst → k ∈ g'.locks.map Prod.fst
  child : g'.child = (γ p).child
  conf : ∀ r ∈ g'.refs, r.type ≠ none → ∀ q, q ≠ p → (γ q).freeing ≠ some r.slot
  freeing : ∀ k, g'.freeing = some k →
    (∀ q, q ≠ p → ∀ r ∈ (γ q).refs, r.slot = k → r.type = none) ∧ NoUser s k
  loc : Local B s w p g'

theorem GInv.ghost_step (hI : GInv sb K V A B s w γ) (h : GhostStep B s w γ p g') :
    GInv sb K V A B s w (update γ p g') := by
  refine hI.mk_step ?_ h.loc fun q _ => ⟨rfl, fun _ _ => rfl, fun _ hl => ⟨hl, id⟩,
    fun _ _ => ⟨rfl, rfl, rfl, fun _ => rfl⟩, fun _ _ _ => rfl, fun _ _ _ _ => rfl,
    fun _ _ _ he => he⟩
  exact
  { hI.toGlobal with
    count := by
      intro l
      have hc := refCount_change s s γ (update γ p g') p l rfl fun r hr => by
          rw [update_of_ne hr]
      rw [update_self, ← hI.count l] at hc
      have := h.slots l
      unfold procRef at hc
      omega
    lock := by
      intro l q hq
      by_cases hqp : q = p
      · subst hqp
        rw [update_self]
        exact h.locks l (hI.lock l q hq)
      · rw [update_of_ne hqp]
        exact hI.lock l q hq
    fcount := by
      intro f
      have hc := fileCount_change s s γ (update γ p g') p f fun r hr => by
          rw [update_of_ne hr]
      rw [update_self, ← hI.fcount f, h.fds] at hc
      exact (Nat.add_right_cancel hc).symm
    oneParent := by
      intro a b c x y ha hb
      rw [Lts.update_field Ghost.child h.child] at ha hb
      exact hI.oneParent a b c x y ha hb
    alone := by
      intro q l hq
      by_cases hqp : q = p
      · subst hqp
        rw [update_self] at hq
        obtain ⟨h1, h2⟩ := h.freeing l hq
        refine ⟨fun r hr x hx => h1 r hr x ?_, h2⟩
        rwa [update_of_ne hr] at hx
      · rw [update_of_ne hqp] at hq
        refine ⟨fun r hr x hx hxl => ?_, (hI.alone q l hq).2⟩
        by_cases hrp : r = p
        · subst hrp
          rw [update_self] at hx
          by_contra hne
          exact h.conf x hx hne q hqp (by rw [hxl]; exact hq)
        · rw [update_of_ne hrp] at hx
          exact (hI.alone q l hq).1 r hr x hx hxl }

/-- Only what a process knows changes: it keeps its references, its locks and its descriptors. -/
theorem GInv.learn (hI : GInv sb K V A B s w γ) (hg : γ p = g) (hrefs : g'.refs = g.refs)
    (hlocks : g'.locks = g.locks) (hchild : g'.child = g.child) (hfree : g'.freeing = g.freeing)
    (hfds : ∀ f, fdCount (s.proc p) g' f = fdCount (s.proc p) g f) (hloc : Local B s w p g') :
    GInv sb K V A B s w (update γ p g') := by
  subst hg
  exact hI.ghost_step {
    slots := fun _ => by rw [hrefs]
    fds := hfds
    locks := fun _ hm => by rwa [hlocks]
    child := hchild
    conf := fun x hx hne q hq => hI.not_freeing (hrefs ▸ hx) hne hq
    freeing := fun k hf => hI.alone p k (hfree ▸ hf)
    loc := hloc }

/-! ## The general step -/

structure CacheStep (V B : Prop) (s : Kernel P) (γ : P → Ghost P) (p : P) (k : ℕ) (ip : Inode P)
    (g' : Ghost P) : Prop where
  ghost : g' = { γ p with refs := g'.refs, locks := g'.locks }
  wf : g'.WF
  count : ∀ l, ((s.setInode k ip).icache l).ref + ((γ p).refs.map Ref.slot).count l =
    (s.icache l).ref + (g'.refs.map Ref.slot).count l
  refs : ∀ r ∈ g'.refs, r ∈ (γ p).refs ∨ r.slot = k ∧ r.inum = ip.inum ∧ ∀ t, r.type = some t →
    t ≠ .free ∧ (s.vol.dinode r.inum).type = t ∧ ∀ q, q ≠ p → (γ q).freeing ≠ some k
  locks : ∀ x ∈ g'.locks, x ∈ (γ p).locks ∧ x.1 ≠ k ∨
    x.1 = k ∧ ip.lock = some p ∧ (x.2 = true → ip.valid = true)
  mine : ip.lock = some p → k ∈ g'.locks.map Prod.fst
  others : ∀ l, l ≠ k → l ∈ (γ p).locks.map Prod.fst → l ∈ g'.locks.map Prod.fst
  same : 0 < (s.icache k).ref → ip.dev = (s.icache k).dev ∧ ip.inum = (s.icache k).inum
  new : (s.icache k).ref = 0 → 0 < ip.ref → k < NINODE ∧ ip.dev = ROOTDEV ∧
    (∀ l, 0 < (s.icache l).ref → (s.icache l).inum ≠ ip.inum) ∧ (B → ip.inum < 2 ^ 16)
  coh : 0 < ip.ref → ip.valid = true → Coherent V ip.d (s.vol.dinode ip.inum)
  locked : ∀ q, ip.lock = some q → q ≠ p → (s.icache k).lock = some q
  keep : ∀ q, q ≠ p → (s.icache k).lock = some q →
    ip.lock = some q ∧ ((s.icache k).valid = true → ip.valid = true)

variable {ip : Inode P}

omit [DecidableEq P] [Fintype P] in
theorem setInode_of_ne {l : ℕ} (h : l ≠ k) : (s.setInode k ip).icache l = s.icache l := by
  rw [setInode_icache, update_of_ne h]

omit [DecidableEq P] [Fintype P] in
theorem setInode_same : (s.setInode k ip).icache k = ip := by
  rw [setInode_icache, update_self]

omit [DecidableEq P] [Fintype P] in
theorem setInode_self : s.setInode k (s.icache k) = s := by
  unfold Kernel.setInode
  rw [update_eq_self]

omit [DecidableEq P] [Fintype P] in
theorem CacheStep.inum_eq (h : CacheStep V B s γ p k ip g') {l : ℕ}
    (hl : 0 < (s.icache l).ref) : ((s.setInode k ip).icache l).dev = (s.icache l).dev ∧
      ((s.setInode k ip).icache l).inum = (s.icache l).inum := by
  by_cases hk : l = k
  · subst hk
    rw [setInode_same]
    exact h.same hl
  · rw [setInode_of_ne hk]
    exact ⟨rfl, rfl⟩

omit [DecidableEq P] [Fintype P] in
theorem CacheStep.kept (h : CacheStep V B s γ p k ip g') : Kept V s (s.setInode k ip) :=
  Kept.of_vol_eq rfl fun _ hl => h.inum_eq hl

theorem CacheStep.global (h : CacheStep V B s γ p k ip g') (hI : GInv sb K V A B s w γ) :
    Global sb K V A B (s.setInode k ip) w (update γ p g') := by
  have hinum : ∀ l, 0 < (s.icache l).ref →
      ((s.setInode k ip).icache l).inum = (s.icache l).inum := fun l hl => (h.inum_eq hl).2
  -- an entry in use afterwards was in use before, unless it is the recycled one
  have hold : ∀ l, 0 < ((s.setInode k ip).icache l).ref → 0 < (s.icache l).ref ∨
      l = k ∧ (s.icache k).ref = 0 ∧ 0 < ip.ref := by
    intro l hl
    by_cases hk : l = k
    · subst hk
      rw [setInode_same] at hl
      omega
    · rw [setInode_of_ne hk] at hl
      exact .inl hl
  exact
  { hI.toGlobal with
    count := by
      intro l
      have hc := refCount_change s (s.setInode k ip) γ (update γ p g') p l rfl
        fun r hr => by
          rw [update_of_ne hr]
          rfl
      rw [update_self, ← hI.count l] at hc
      have := h.count l
      unfold procRef at hc
      rw [setInode_proc] at hc
      omega
    bound := by
      intro l hl
      rcases hold l hl with hl | ⟨rfl, h0, hp⟩
      · exact hI.bound l hl
      · exact (h.new h0 hp).1
    dev := by
      intro l hl
      rcases hold l hl with hl | ⟨rfl, h0, hp⟩
      · rw [(h.inum_eq hl).1]
        exact hI.dev l hl
      · rw [setInode_same]
        exact (h.new h0 hp).2.1
    uniq := by
      intro l m hl hm heq
      rcases hold l hl with hl0 | ⟨hlk, h0, hp⟩ <;> rcases hold m hm with hm0 | ⟨hmk, h0', hp'⟩
      · rw [hinum l hl0, hinum m hm0] at heq
        exact hI.uniq l m hl0 hm0 heq
      · rw [hinum l hl0, hmk, setInode_same] at heq
        exact absurd heq ((h.new h0' hp').2.2.1 l hl0)
      · rw [hinum m hm0, hlk, setInode_same] at heq
        exact absurd heq.symm ((h.new h0 hp).2.2.1 m hm0)
      · rw [hlk, hmk]
    coh := by
      intro l hl hv
      by_cases hk : l = k
      · subst hk
        rw [setInode_same] at hl hv ⊢
        exact h.coh hl hv
      · rw [setInode_of_ne hk] at hl hv ⊢
        exact hI.coh l hl hv
    lock := by
      intro l q hq
      by_cases hqp : q = p
      · subst hqp
        rw [update_self]
        by_cases hk : l = k
        · subst hk
          rw [setInode_same] at hq
          exact h.mine hq
        · rw [setInode_of_ne hk] at hq
          exact h.others l hk (hI.lock l q hq)
      · rw [update_of_ne hqp]
        by_cases hk : l = k
        · subst hk
          rw [setInode_same] at hq
          exact hI.lock l q (h.locked q hq hqp)
        · rw [setInode_of_ne hk] at hq
          exact hI.lock l q hq
    fcount := by
      intro f
      have hc := fileCount_change s (s.setInode k ip) γ (update γ p g') p f fun r hr => by
          rw [update_of_ne hr]
          rfl
      have hsame : fdCount (s.proc p) g' f = fdCount (s.proc p) (γ p) f := by rw [h.ghost]; rfl
      rw [update_self, ← hI.fcount f, setInode_proc, hsame] at hc
      exact (Nat.add_right_cancel hc).symm
    oneParent := by
      intro a b c x y ha hb
      rw [Lts.update_field Ghost.child (by rw [h.ghost])] at ha hb
      exact hI.oneParent a b c x y ha hb
    file := by
      intro f l ht hi
      rw [hinum l (hI.ref_pos_of_file ht hi)]
      exact hI.file f l ht hi
    cwd := by
      intro hA q l hc hl
      rw [hinum l (hI.ref_pos_of_cwd hc hl)]
      exact hI.cwd hA q l hc hl
    alone := by
      intro q l hq
      rw [Lts.update_field Ghost.freeing (by rw [h.ghost])] at hq
      refine ⟨fun r hr x hx hxl => ?_, (hI.alone q l hq).2⟩
      by_cases hrp : r = p
      · subst hrp
        rw [update_self] at hx
        rcases h.refs x hx with hx | ⟨hk, -, ht⟩
        · exact (hI.alone q l hq).1 r hr x hx hxl
        · by_contra hne
          obtain ⟨t, ht'⟩ := Option.ne_none_iff_exists'.mp hne
          exact (ht t ht').2.2 q hr.symm (by rw [← hk, hxl]; exact hq)
      · rw [update_of_ne hrp] at hx
        exact (hI.alone q l hq).1 r hr x hx hxl
    small := by
      intro hB l hl
      rcases hold l hl with hl | ⟨rfl, h0, hp⟩
      · rw [hinum l hl]
        exact hI.small hB l hl
      · rw [setInode_same]
        exact (h.new h0 hp).2.2.2 hB }

omit [DecidableEq P] in
theorem CacheStep.local (h : CacheStep V B s γ p k ip g') (hI : GInv sb K V A B s w γ) :
    Local B (s.setInode k ip) w p g' := by
  have hl := hI.loc p
  have hg := h.ghost
  exact
  { wf := h.wf
    run := fun hr => hl.run (by rw [hg] at hr; exact hr)
    left := by rw [hg]; exact hl.left
    inum := by
      intro r hr
      rcases h.refs r hr with hr | ⟨hk, hi, -⟩
      · rw [(h.inum_eq (hI.ref_pos_of_ref hr)).2]
        exact hl.inum r hr
      · rw [hk, setInode_same, hi]
    conf := by
      intro r hr t ht
      rcases h.refs r hr with hr | ⟨-, -, hc⟩
      · exact hl.conf r hr t ht
      · exact ⟨(hc t ht).1, (hc t ht).2.1⟩
    held := by
      intro x hx
      rcases h.locks x hx with ⟨hx, hk⟩ | ⟨hk, hx⟩
      · rw [setInode_of_ne hk]
        exact hl.held x hx
      · rw [hk, setInode_same]
        exact hx
    via := by rw [hg]; exact hl.via
    out := by rw [hg]; exact hl.out
    fresh := by rw [hg]; exact hl.fresh
    child := by rw [hg]; exact hl.child
    shut := by rw [hg]; exact hl.shut
    noCwd := by rw [hg]; exact hl.noCwd
    edge := by rw [hg]; exact hl.edge }

/-- **Cache steps.** A step on one cache entry keeps the invariant and its guarantee. -/
theorem GInv.cache_step (hI : GInv sb K V A B s w γ) (h : CacheStep V B s γ p k ip g') :
    Kept V s (s.setInode k ip) ∧ GInv sb K V A B (s.setInode k ip) w (update γ p g') := by
  refine ⟨h.kept, hI.mk_step (h.global hI) (h.local hI) fun q hq => ?_⟩
  exact
  { proc := rfl
    slot := fun l hl => (h.inum_eq hl).2
    lock := by
      intro l hl
      by_cases hk : l = k
      · subst hk
        rw [setInode_same]
        exact h.keep q hq hl
      · rw [setInode_of_ne hk]
        exact ⟨hl, fun hv => hv⟩
    file := fun f _ => ⟨rfl, rfl, rfl, fun _ => rfl⟩
    child := fun c fds _ => rfl
    conf := fun r _ t _ => rfl
    edge := fun _ e _ he => he }

omit [DecidableEq P] in
theorem GInv.keep_locks (hI : GInv sb K V A B s w γ) (hk : ip.lock = (s.icache k).lock)
    (hv : (s.icache k).lock = some p → ip.valid = (s.icache k).valid) :
    ∀ x ∈ (γ p).locks, x ∈ (γ p).locks ∧ x.1 ≠ k ∨
      x.1 = k ∧ ip.lock = some p ∧ (x.2 = true → ip.valid = true) := by
  intro x hx
  by_cases hxk : x.1 = k
  · obtain ⟨hl, hvx⟩ := (hI.loc p).held x hx
    rw [hxk] at hl hvx
    rw [hk, hv hl]
    exact .inr ⟨hxk, hl, hvx⟩
  · exact .inl ⟨hx, hxk⟩

omit [DecidableEq P] [Fintype P] in
theorem count_keep (h : ip.ref = (s.icache k).ref) (rs : List Ref) (l : ℕ) :
    ((s.setInode k ip).icache l).ref + (rs.map Ref.slot).count l =
      (s.icache l).ref + (rs.map Ref.slot).count l := by
  by_cases hl : l = k
  · subst hl
    rw [setInode_same, h]
  · rw [setInode_of_ne hl]

/-! ## Ghosts -/

section WF

omit [DecidableEq P] [Fintype P]

theorem Stake.mono {rs : List Ref} (h : Stake g k)
    (hs : ∀ r ∈ g.refs, ∃ r' ∈ rs, r'.slot = r.slot) : Stake { g with refs := rs } k := by
  rcases h with ⟨r, hr, rfl⟩ | h
  · exact .inl (hs r hr)
  · exact .inr h

theorem Ghost.WF.congr (h : g.WF) (hrun : g'.run = true) (hrefs : g'.refs = g.refs)
    (hlocks : g'.locks = g.locks) (hedges : g'.edges = g.edges) (hfree : g'.freeing = g.freeing)
    (hvia : g'.via = g.via) : g'.WF where
  quiet hr := by rw [hrun] at hr; cases hr
  staked := by
    unfold Stake
    rw [hlocks, hrefs, hvia]
    exact h.staked
  nodup := by rw [hlocks]; exact h.nodup
  freeing := by rw [hlocks, hfree]; exact h.freeing
  sourced := by rw [hedges, hrefs]; exact h.sourced

theorem Ghost.WF.addRef (h : g.WF) (hrun : g.run = true) (r : Ref) :
    ({ g with refs := r :: g.refs } : Ghost P).WF where
  quiet hr := by rw [hrun] at hr; cases hr
  staked x hx := (h.staked x hx).mono fun r hr => ⟨r, List.mem_cons_of_mem _ hr, rfl⟩
  nodup := h.nodup
  freeing := h.freeing
  sourced e he := by
    obtain ⟨x, hx, h⟩ := h.sourced e he
    exact ⟨x, List.mem_cons_of_mem _ hx, h⟩

theorem Ghost.WF.addLock (h : g.WF) (hrun : g.run = true) (hs : Stake g k)
    (hk : k ∉ g.locks.map Prod.fst) (b : Bool) :
    ({ g with locks := (k, b) :: g.locks } : Ghost P).WF where
  quiet hr := by rw [hrun] at hr; cases hr
  staked x hx := by
    rcases List.mem_cons.mp hx with rfl | hx
    · exact hs
    · exact h.staked x hx
  nodup := List.nodup_cons.mpr ⟨hk, h.nodup⟩
  freeing l hl := List.mem_cons_of_mem _ (h.freeing l hl)
  sourced := h.sourced

theorem Ghost.WF.addEdge (h : g.WF) (hrun : g.run = true) {r : Ref} (hr : r ∈ g.refs)
    (ht : r.type = some .dir) (i : ℕ) :
    ({ g with edges := (r.inum, i) :: g.edges } : Ghost P).WF where
  quiet h := by rw [hrun] at h; cases h
  staked := h.staked
  nodup := h.nodup
  freeing := h.freeing
  sourced e he := by
    rcases List.mem_cons.mp he with rfl | he
    · exact ⟨r, hr, rfl, ht⟩
    · exact h.sourced e he

variable {ls : List (ℕ × Bool)} {b : Bool}

theorem Ghost.WF.dropLock (h : g.WF) (hrun : g.run = true) (hls : g.locks.Perm ((k, b) :: ls))
    (hf : g.freeing ≠ some k) : ({ g with locks := ls } : Ghost P).WF where
  quiet hr := by rw [hrun] at hr; cases hr
  staked x hx := h.staked x (hls.mem_iff.mpr (List.mem_cons_of_mem _ hx))
  nodup := ((hls.map Prod.fst).nodup_iff.mp h.nodup).of_cons
  freeing l hl := by
    rcases List.mem_cons.mp (hls.mem_iff.mp (h.freeing l hl)) with heq | hm
    · cases heq
      exact absurd hl hf
    · exact hm
  sourced := h.sourced

theorem Ghost.WF.loadLock (h : g.WF) (hrun : g.run = true) (hls : g.locks.Perm ((k, b) :: ls)) :
    ({ g with locks := (k, true) :: ls } : Ghost P).WF where
  quiet hr := by rw [hrun] at hr; cases hr
  staked x hx := by
    rcases List.mem_cons.mp hx with rfl | hx
    · exact h.staked (k, b) (hls.mem_iff.mpr List.mem_cons_self)
    · exact h.staked x (hls.mem_iff.mpr (List.mem_cons_of_mem _ hx))
  nodup := (hls.map Prod.fst).nodup_iff.mp h.nodup
  freeing l hl := by
    rcases List.mem_cons.mp (hls.mem_iff.mp (h.freeing l hl)) with heq | hm
    · cases heq
      exact List.mem_cons_self
    · exact List.mem_cons_of_mem _ hm
  sourced := h.sourced

theorem Ghost.WF.seeType {r : Ref} {rs : List Ref} {t : FType} (h : g.WF) (hrun : g.run = true)
    (hrs : g.refs.Perm (r :: rs)) (ht : ∀ t0, r.type = some t0 → t = t0) :
    ({ g with refs := { r with type := some t } :: rs } : Ghost P).WF where
  quiet hr := by rw [hrun] at hr; cases hr
  staked x hx := (h.staked x hx).mono fun r' hr' => by
    rcases List.mem_cons.mp (hrs.mem_iff.mp hr') with rfl | hr'
    · exact ⟨_, List.mem_cons_self, rfl⟩
    · exact ⟨r', List.mem_cons_of_mem _ hr', rfl⟩
  nodup := h.nodup
  freeing := h.freeing
  sourced e he := by
    obtain ⟨x, hx, hi, hd⟩ := h.sourced e he
    rcases List.mem_cons.mp (hrs.mem_iff.mp hx) with rfl | hx
    · exact ⟨_, List.mem_cons_self, hi, by rw [ht _ hd]⟩
    · exact ⟨x, List.mem_cons_of_mem _ hx, hi, hd⟩

end WF

/-! ## References -/

omit [DecidableEq P] [Fintype P] in
theorem count_add_ref {r : Ref} {rs : List Ref} (h : ip.ref = (s.icache r.slot).ref + 1) (l : ℕ) :
    ((s.setInode r.slot ip).icache l).ref + (rs.map Ref.slot).count l =
      (s.icache l).ref + ((r :: rs).map Ref.slot).count l := by
  rw [List.map_cons, List.count_cons]
  by_cases hl : l = r.slot
  · subst hl
    rw [setInode_same, h]
    simp
    omega
  · rw [setInode_of_ne hl, if_neg (by simpa using Ne.symm hl)]
    rfl

theorem GInv.add_ref (hI : GInv sb K V A B s w γ) (hg : γ p = g) (hrun : g.run = true)
    (hk : 0 < (s.icache k).ref) :
    Kept V s (s.setInode k { s.icache k with ref := (s.icache k).ref + 1 }) ∧
    GInv sb K V A B (s.setInode k { s.icache k with ref := (s.icache k).ref + 1 }) w
      (update γ p
        { g with refs := ⟨k, (s.icache k).inum, none⟩ :: g.refs }) := by
  subst hg
  exact hI.cache_step {
    ghost := rfl
    wf := (hI.loc p).wf.addRef hrun _
    count := count_add_ref (r := ⟨k, (s.icache k).inum, none⟩) rfl
    refs := by
      intro r hr
      rcases List.mem_cons.mp hr with rfl | hr
      · exact .inr ⟨rfl, rfl, fun t ht => by cases ht⟩
      · exact .inl hr
    locks := hI.keep_locks rfl fun _ => rfl
    mine := hI.lock k p
    others := fun _ _ hm => hm
    same := fun _ => ⟨rfl, rfl⟩
    new := fun h0 => absurd hk (by omega)
    coh := fun _ => hI.coh k hk
    locked := fun _ hq _ => hq
    keep := fun _ _ hq => ⟨hq, id⟩ }

theorem GInv.new_ref (hI : GInv sb K V A B s w γ) (hg : γ p = g) (hrun : g.run = true) {i : ℕ}
    (hk : k < NINODE) (h0 : (s.icache k).ref = 0)
    (hi : ∀ l, 0 < (s.icache l).ref → (s.icache l).inum ≠ i) (hsmall : B → i < 2 ^ 16) :
    Kept V s (s.setInode k
      { s.icache k with dev := ROOTDEV, inum := i, ref := 1, valid := false }) ∧
    GInv sb K V A B
      (s.setInode k { s.icache k with dev := ROOTDEV, inum := i, ref := 1, valid := false }) w
      (update γ p { g with refs := ⟨k, i, none⟩ :: g.refs }) := by
  subst hg
  have hnolock := hI.lock_eq_none h0
  exact hI.cache_step {
    ghost := rfl
    wf := (hI.loc p).wf.addRef hrun _
    count := count_add_ref (r := ⟨k, i, none⟩) (by rw [h0])
    refs := by
      intro r hr
      rcases List.mem_cons.mp hr with rfl | hr
      · exact .inr ⟨rfl, rfl, fun t ht => by cases ht⟩
      · exact .inl hr
    locks := hI.keep_locks rfl fun h => by rw [hnolock] at h; cases h
    mine := hI.lock k p
    others := fun _ _ hm => hm
    same := fun h => absurd h (by omega)
    new := fun _ _ => ⟨hk, rfl, hi, hsmall⟩
    coh := fun _ hv => absurd hv Bool.false_ne_true
    locked := fun _ hq _ => hq
    keep := fun q _ hq => by rw [hnolock] at hq; cases hq }

theorem GInv.drop_ref (hI : GInv sb K V A B s w γ) (hg : γ p = g) {r : Ref} {rs : List Ref}
    (hrs : g.refs.Perm (r :: rs)) (hwf : ({ g with refs := rs } : Ghost P).WF) :
    Kept V s (s.setInode r.slot
      { s.icache r.slot with ref := (s.icache r.slot).ref - 1 }) ∧
    GInv sb K V A B (s.setInode r.slot
      { s.icache r.slot with ref := (s.icache r.slot).ref - 1 }) w
      (update γ p { g with refs := rs }) := by
  subst hg
  have hpos := hI.ref_pos_of_ref (hrs.mem_iff.mpr (List.mem_cons_self (a := r)))
  exact hI.cache_step {
    ghost := rfl
    wf := hwf
    count := by
      intro l
      rw [(hrs.map Ref.slot).count_eq, List.map_cons, List.count_cons]
      by_cases hl : l = r.slot
      · subst hl
        rw [setInode_same]
        simp
        omega
      · rw [setInode_of_ne hl, if_neg (by simpa using Ne.symm hl)]
        rfl
    refs := fun x hx => .inl (hrs.mem_iff.mpr (List.mem_cons_of_mem _ hx))
    locks := hI.keep_locks rfl fun _ => rfl
    mine := hI.lock r.slot p
    others := fun _ _ hm => hm
    same := fun _ => ⟨rfl, rfl⟩
    new := fun h0 => absurd hpos (by omega)
    coh := fun _ => hI.coh r.slot hpos
    locked := fun _ hq _ => hq
    keep := fun _ _ hq => ⟨hq, id⟩ }

theorem GInv.iget_step (hI : GInv sb K V A B s w γ) (hg : γ p = g) (hrun : g.run = true) {i : ℕ}
    (hsmall : B → i < 2 ^ 16) (h : iget ROOTDEV i s = .ok (k, s')) :
    Kept V s s' ∧ s'.vol = s.vol ∧
      GInv sb K V A B s' w (update γ p { g with refs := ⟨k, i, none⟩ :: g.refs }) := by
  subst hg
  unfold iget at h
  split at h
  next l hl =>
    obtain ⟨rfl, rfl⟩ := Prod.mk.inj (Except.ok.inj h)
    have hp := List.find?_some hl
    simp only [Bool.and_eq_true, decide_eq_true_eq] at hp
    obtain ⟨⟨hpos, -⟩, rfl⟩ := hp
    obtain ⟨hK, hG⟩ := hI.add_ref rfl hrun hpos
    exact ⟨hK, rfl, hG⟩
  next hnone =>
    split at h
    next l hl =>
      obtain ⟨rfl, rfl⟩ := Prod.mk.inj (Except.ok.inj h)
      have h0 : (s.icache l).ref = 0 := by simpa using List.find?_some hl
      have hk := List.mem_range.mp (List.mem_of_find?_eq_some hl)
      have hfresh : ∀ m, 0 < (s.icache m).ref → (s.icache m).inum ≠ i := by
        intro m hm hi
        have := List.find?_eq_none.mp hnone m (List.mem_range.mpr (hI.bound m hm))
        simp [hm, hI.dev m hm, hi] at this
      obtain ⟨hK, hG⟩ := hI.new_ref rfl hrun hk h0 hfresh hsmall
      exact ⟨hK, rfl, hG⟩
    next => cases h

/-! ## Locks -/

section Locks

variable {ls : List (ℕ × Bool)} {b : Bool}

section

variable (hI : GInv sb K V A B s w γ) (hg : γ p = g)

include hI hg

theorem GInv.acquire (hrun : g.run = true) (hk : (s.icache k).lock = none) (hs : Stake g k) :
    Kept V s (s.setInode k { s.icache k with lock := some p }) ∧
    GInv sb K V A B (s.setInode k { s.icache k with lock := some p }) w
      (update γ p { g with locks := (k, false) :: g.locks }) := by
  subst hg
  have hpos := hI.ref_pos_of_stake hs
  have hnew : k ∉ (γ p).locks.map Prod.fst := by
    intro hm
    obtain ⟨x, hx, rfl⟩ := List.mem_map.mp hm
    have := ((hI.loc p).held x hx).1
    rw [hk] at this
    cases this
  exact hI.cache_step {
    ghost := rfl
    wf := (hI.loc p).wf.addLock hrun hs hnew false
    count := count_keep (by rfl) _
    refs := fun _ hr => .inl hr
    locks := by
      intro x hx
      rcases List.mem_cons.mp hx with rfl | hx
      · exact .inr ⟨rfl, rfl, fun h => absurd h Bool.false_ne_true⟩
      · exact .inl ⟨hx, fun h => hnew (h ▸ List.mem_map_of_mem hx)⟩
    mine := fun _ => List.mem_cons_self
    others := fun _ _ hm => List.mem_cons_of_mem _ hm
    same := fun _ => ⟨rfl, rfl⟩
    new := fun h0 => absurd hpos (by omega)
    coh := fun _ => hI.coh k hpos
    locked := fun q hq hne => absurd (Option.some.inj hq).symm hne
    keep := fun q _ hq => by rw [hk] at hq; cases hq }

theorem GInv.load (hrun : g.run = true) (hls : g.locks.Perm ((k, b) :: ls)) {d : Dinode}
    (hd : Coherent V d (s.vol.dinode (s.icache k).inum)) :
    Kept V s (s.setInode k { s.icache k with valid := true, d := d }) ∧
    GInv sb K V A B (s.setInode k { s.icache k with valid := true, d := d }) w
      (update γ p { g with locks := (k, true) :: ls }) := by
  subst hg
  have hmem : (k, b) ∈ (γ p).locks := hls.mem_iff.mpr List.mem_cons_self
  have hlock := ((hI.loc p).held _ hmem).1
  have hpos : 0 < (s.icache k).ref := hI.ref_pos_of_stake ((hI.loc p).wf.staked _ hmem)
  have hnot : k ∉ ls.map Prod.fst :=
    (List.nodup_cons.mp ((hls.map Prod.fst).nodup_iff.mp (hI.loc p).wf.nodup)).1
  have hkeep : ∀ l, l ∈ (γ p).locks.map Prod.fst → l ∈ ((k, true) :: ls).map Prod.fst := fun l hm =>
    (hls.map Prod.fst).mem_iff.mp hm
  exact hI.cache_step {
    ghost := rfl
    wf := (hI.loc p).wf.loadLock hrun hls
    count := count_keep (by rfl) _
    refs := fun _ hr => .inl hr
    locks := by
      intro x hx
      rcases List.mem_cons.mp hx with rfl | hx
      · exact .inr ⟨rfl, hlock, fun _ => rfl⟩
      · exact .inl ⟨hls.mem_iff.mpr (List.mem_cons_of_mem _ hx),
          fun h => hnot (h ▸ List.mem_map_of_mem hx)⟩
    mine := fun hm => hkeep k (hI.lock k p hm)
    others := fun l _ hm => hkeep l hm
    same := fun _ => ⟨rfl, rfl⟩
    new := fun h0 => absurd hpos (by omega)
    coh := fun _ _ => hd
    locked := fun _ hq _ => hq
    keep := fun _ _ hq => ⟨hq, fun _ => rfl⟩ }

theorem GInv.invalidate (hls : g.locks.Perm ((k, b) :: ls)) {d : Dinode}
    (hwf : ({ g with locks := (k, false) :: ls } : Ghost P).WF) :
    Kept V s (s.setInode k { s.icache k with valid := false, d := d }) ∧
    GInv sb K V A B (s.setInode k { s.icache k with valid := false, d := d }) w
      (update γ p { g with locks := (k, false) :: ls }) := by
  subst hg
  have hmem : (k, b) ∈ (γ p).locks := hls.mem_iff.mpr List.mem_cons_self
  have hlock := ((hI.loc p).held _ hmem).1
  have hpos : 0 < (s.icache k).ref := hI.ref_pos_of_stake ((hI.loc p).wf.staked _ hmem)
  have hkeep : ∀ l, l ∈ (γ p).locks.map Prod.fst → l ∈ ((k, false) :: ls).map Prod.fst :=
    fun l hm => (hls.map Prod.fst).mem_iff.mp hm
  have hnot : k ∉ ls.map Prod.fst :=
    (List.nodup_cons.mp ((hls.map Prod.fst).nodup_iff.mp (hI.loc p).wf.nodup)).1
  exact hI.cache_step {
    ghost := rfl
    wf := hwf
    count := count_keep (by rfl) _
    refs := fun _ hr => .inl hr
    locks := by
      intro x hx
      rcases List.mem_cons.mp hx with rfl | hx
      · exact .inr ⟨rfl, hlock, fun h => absurd h Bool.false_ne_true⟩
      · exact .inl ⟨hls.mem_iff.mpr (List.mem_cons_of_mem _ hx),
          fun h => hnot (h ▸ List.mem_map_of_mem hx)⟩
    mine := fun hm => hkeep k (hI.lock k p hm)
    others := fun l _ hm => hkeep l hm
    same := fun _ => ⟨rfl, rfl⟩
    new := fun h0 => absurd hpos (by omega)
    coh := fun _ hv => absurd hv Bool.false_ne_true
    locked := fun _ hq _ => hq
    keep := fun q hq hm => by
      rw [hlock] at hm
      exact absurd (Option.some.inj hm).symm hq }

theorem GInv.release (hrun : g.run = true)
    (hls : g.locks.Perm ((k, b) :: ls)) (hf : g.freeing ≠ some k) :
    Kept V s (s.setInode k { s.icache k with lock := none }) ∧
    GInv sb K V A B (s.setInode k { s.icache k with lock := none }) w
      (update γ p { g with locks := ls }) := by
  subst hg
  have hmem : (k, b) ∈ (γ p).locks := hls.mem_iff.mpr List.mem_cons_self
  have hlock := ((hI.loc p).held _ hmem).1
  have hpos : 0 < (s.icache k).ref := hI.ref_pos_of_stake ((hI.loc p).wf.staked _ hmem)
  have hnot : k ∉ ls.map Prod.fst :=
    (List.nodup_cons.mp ((hls.map Prod.fst).nodup_iff.mp (hI.loc p).wf.nodup)).1
  exact hI.cache_step {
    ghost := rfl
    wf := (hI.loc p).wf.dropLock hrun hls hf
    count := count_keep (by rfl) _
    refs := fun _ hr => .inl hr
    locks := fun x hx => .inl ⟨hls.mem_iff.mpr (List.mem_cons_of_mem _ hx),
      fun h => hnot (h ▸ List.mem_map_of_mem hx)⟩
    mine := fun hq => by cases hq
    others := by
      intro l hlk hm
      rcases List.mem_cons.mp ((hls.map Prod.fst).mem_iff.mp hm) with h | h
      · exact absurd h hlk
      · exact h
    same := fun _ => ⟨rfl, rfl⟩
    new := fun h0 => absurd hpos (by omega)
    coh := fun _ => hI.coh k hpos
    locked := fun _ hq _ => by cases hq
    keep := by
      intro q hq hm
      rw [hlock] at hm
      exact absurd (Option.some.inj hm).symm hq }

theorem GInv.see_type (hrun : g.run = true) {r : Ref} {rs : List Ref} (hrs : g.refs.Perm (r :: rs))
    (hk : (r.slot, true) ∈ g.locks) :
    GInv sb K V A B s w (update γ p
      { g with refs := { r with type := some (s.icache r.slot).d.type } :: rs }) := by
  subst hg
  have hl := hI.loc p
  obtain ⟨hlock, hpos, hv, hd⟩ := hI.loaded hk
  have hr : r ∈ (γ p).refs := hrs.mem_iff.mpr List.mem_cons_self
  have hinum := hl.inum r hr
  refine hI.ghost_step
    ⟨fun l => by rw [(hrs.map Ref.slot).count_eq]; rfl, fun _ => rfl, fun _ hm => hm, rfl,
      fun x hx hne q hq hf => ?_, fun l hf => hI.alone p l hf, ?_⟩
  · rcases List.mem_cons.mp hx with rfl | hx
    · -- who frees the entry holds its lock
      have := ((hI.loc q).held _ ((hI.loc q).wf.freeing _ hf)).1
      rw [hlock] at this
      exact hq (Option.some.inj this).symm
    · exact hI.not_freeing (hrs.mem_iff.mpr (List.mem_cons_of_mem _ hx)) hne hq hf
  · exact
    { hl with
      wf := hl.wf.seeType hrun hrs fun t0 h0 => by
        rw [hd.type, hinum]
        exact (hl.conf r hr t0 h0).2
      inum := by
        intro x hx
        rcases List.mem_cons.mp hx with rfl | hx
        · exact hinum
        · exact hl.inum x (hrs.mem_iff.mpr (List.mem_cons_of_mem _ hx))
      conf := by
        intro x hx t hxt
        rcases List.mem_cons.mp hx with rfl | hx
        · cases hxt
          exact ⟨hd.alloc, by rw [hd.type, hinum]⟩
        · exact hl.conf x (hrs.mem_iff.mpr (List.mem_cons_of_mem _ hx)) t hxt }

theorem GInv.mark_valid (hrun : g.run = true)
    (hls : g.locks.Perm ((k, b) :: ls)) (hv : (s.icache k).valid = true) :
    GInv sb K V A B s w (update γ p { g with locks := (k, true) :: ls }) := by
  subst hg
  have hmem : (k, b) ∈ (γ p).locks := hls.mem_iff.mpr List.mem_cons_self
  have hpos : 0 < (s.icache k).ref := hI.ref_pos_of_stake ((hI.loc p).wf.staked _ hmem)
  have h := (hI.load rfl hrun hls (hI.coh k hpos hv)).2
  have hself : s.setInode k { s.icache k with valid := true, d := (s.icache k).d } = s := by
    rw [← hv]
    exact setInode_self
  rwa [hself] at h

theorem GInv.set_freeing (hrun : g.run = true) {r : Ref} {rs : List Ref}
    (hrs : g.refs.Perm (r :: rs)) (hk : (r.slot, true) ∈ g.locks)
    (href : (s.icache r.slot).ref = 1) : r.slot ∉ rs.map Ref.slot ∧
      GInv sb K V A B s w (update γ p { g with freeing := some r.slot }) := by
  subst hg
  have hl := hI.loc p
  have hcount := hI.count r.slot
  have hmine : procRef (s.proc p) (γ p) r.slot =
      cwdRef (s.proc p) r.slot + ((rs.map Ref.slot).count r.slot + 1) := by
    unfold procRef
    rw [(hrs.map Ref.slot).count_eq, List.map_cons, List.count_cons_self]
  have hle := le_sum (f := fun q => procRef (s.proc q) (γ q) r.slot) (mem_univ p)
  unfold refCount at hcount
  refine ⟨fun hm => ?_, hI.ghost_step ⟨fun _ => rfl, fun _ => rfl, fun _ hm => hm, rfl,
    fun x hx hne q hq => hI.not_freeing hx hne hq, fun l hf => ?_, ?_⟩⟩
  · have := List.count_pos_iff.mpr hm
    omega
  · cases hf
    refine ⟨fun q hq x hx hxl => ?_, fun f hft hfi => ?_, fun q hc => ?_⟩
    · -- a reference of another process would be a second one
      have h2 := add_le_sum (f := fun q => procRef (s.proc q) (γ q) r.slot) (mem_univ p)
        (mem_univ q) hq.symm
      have : 0 < ((γ q).refs.map Ref.slot).count r.slot :=
        List.count_pos_iff.mpr (List.mem_map.mpr ⟨x, hx, hxl⟩)
      unfold procRef at h2 hmine
      unfold procRef at hcount
      omega
    · have hpos : 0 < (s.ftable f).ref := by
        by_contra h0
        rw [hI.fnone f (by omega)] at hft
        cases hft
      have h2 := le_sum (f := fun f => fileRef (s.ftable f) r.slot)
        (mem_range.mpr (hI.fbound f hpos))
      have : fileRef (s.ftable f) r.slot = 1 := if_pos ⟨hft, hfi⟩
      omega
    · by_contra hne
      have hcwd : cwdRef (s.proc q) r.slot = 1 := if_pos ⟨hc, by simpa using hne⟩
      by_cases hqp : q = p
      · subst hqp
        omega
      · have h2 := add_le_sum (f := fun q => procRef (s.proc q) (γ q) r.slot) (mem_univ p)
          (mem_univ q) (Ne.symm hqp)
        have : procRef (s.proc q) (γ q) r.slot =
          1 + ((γ q).refs.map Ref.slot).count r.slot := by unfold procRef; rw [hcwd]
        omega
  · exact
    { hl with
      wf :=
      { hl.wf with
        quiet := fun h => by rw [hrun] at h; cases h
        freeing := fun l hf => by
          cases hf
          exact hk } }

end

end Locks

end Xv6.Fs
