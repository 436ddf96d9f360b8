import Xv6.Fs.GhostDisk
import Xv6.Fs.GhostProc

/-!
# Specifications of the inode code

`Spec p m Q g` says that the code `m`, run by `p` with ghost `g` among any other processes, keeps
the invariant `GInv` at every step and ends with `Q`. The specifications are stated with the
postcondition as a premise, so that a proof of a caller follows its code. The ghost tells which
references and locks a function takes and gives back:

1. `iput` takes a reference, `ilock` and `iunlock` take and give back a lock. The edges of the ghost
   say which lock lies above which.
2. `namex` returns a reference, for `nameiparent` one to a directory.
3. `dirlink` needs a locked directory and an inode that may become an entry of it.
-/

namespace Xv6.Fs

open Function Conc StateExcept

variable {P α β : Type} [DecidableEq P] [Fintype P] {sb : Superblock} {K : Set ℕ} {V A B : Prop}
  {p : P}

abbrev Spec (sb : Superblock) (K : Set ℕ) (V A B : Prop) (p : P) (m : Task P α)
    (Q : α → Ghost P → Prop) (g : Ghost P) : Prop :=
  Wp arbiter (GInv sb K V A B) (Owes B) Enters (Kept V) p (fun _ => True) m Q g

variable {g g' : Ghost P} {Q : α → Ghost P → Prop}

/-! ## Rules -/

theorem Spec.read {f : Kern P α}
    (h : ∀ s w γ, γ p = g → GInv sb K V A B s w γ → ∀ a s', f s = .ok (a, s') → s' = s ∧ Q a g) :
    Spec sb K V A B p (act f) Q g := by
  refine .lift fun s w γ hg hI a s' hf => ?_
  obtain ⟨rfl, hQ⟩ := h s w γ hg hI a s' hf
  refine ⟨Kept.refl s', w, g, ?_, hQ⟩
  rwa [← hg, update_eq_self]

theorem Spec.same {f : Kern P α}
    (h : ∀ s w γ, γ p = g → GInv sb K V A B s w γ → ∀ a s', f s = .ok (a, s') →
      Kept V s s' ∧ GInv sb K V A B s' w γ ∧ Q a g) : Spec sb K V A B p (act f) Q g := by
  refine .lift fun s w γ hg hI a s' hf => ?_
  obtain ⟨hK, hI', hQ⟩ := h s w γ hg hI a s' hf
  refine ⟨hK, w, g, ?_, hQ⟩
  rwa [← hg, update_eq_self]

theorem Spec.to (g' : Ghost P) {f : Kern P α}
    (h : ∀ s w γ, γ p = g → GInv sb K V A B s w γ → ∀ a s', f s = .ok (a, s') →
      (Kept V s s' ∧ GInv sb K V A B s' w (update γ p g')) ∧ Q a g') :
    Spec sb K V A B p (act f) Q g := by
  refine .lift fun s w γ hg hI a s' hf => ?_
  obtain ⟨⟨hK, hI'⟩, hQ⟩ := h s w γ hg hI a s' hf
  exact ⟨hK, w, g', hI', hQ⟩

theorem Spec.fail {e : Panic} : Spec sb K V A B p (Fs.fail e : Task P α) Q g :=
  .lift fun _ _ _ _ _ _ _ h => by cases h

theorem weak_edges (es : List (ℕ × ℕ)) (hrun : g.run = true) (hes : ∀ e ∈ es, e ∈ g.edges) :
    Weak (GInv sb K V A B) p g { g with edges := es } := by
  rintro s w γ rfl hI
  have hl := hI.loc p
  exact hI.learn rfl rfl rfl rfl rfl (fun _ => rfl) { hl with
    wf := { hl.wf with
      quiet := fun h => by rw [hrun] at h; cases h
      sourced := fun e he => hl.wf.sourced e (hes e he) }
    edge := fun hB e he => hl.edge hB e (hes e he) }

theorem weak_via (hrun : g.run = true) (hlocks : ∀ x ∈ g.locks, ∃ r ∈ g.refs, r.slot = x.1) :
    Weak (GInv sb K V A B) p g { g with via := none } := by
  rintro s w γ rfl hI
  have hl := hI.loc p
  exact hI.learn rfl rfl rfl rfl rfl (fun _ => rfl) { hl with
    wf := { hl.wf with
      quiet := fun h => by rw [hrun] at h; cases h
      staked := fun x hx => .inl (hlocks x hx) }
    via := fun x hx => by cases hx }

theorem weak_idle : Weak (GInv sb K V A B) p Ghost.start Ghost.idle := by
  intro s w γ hg hI
  exact hI.learn hg rfl rfl rfl rfl (fun _ => rfl) (.idle (by rw [(hI.loc p).left, hg]; rfl))

theorem Spec.done {r : Ret} :
    Spec sb K V A B p (pure r : Task P Ret) (fun _ g => g = Ghost.idle) Ghost.start :=
  ⟨Ghost.idle, weak_idle, rfl⟩

/-! ## The log -/

theorem beginOp_spec {Q : Unit → Ghost P → Prop} (h : Q () g) : Spec sb K V A B p beginOp Q g := by
  refine .request (fun _ _ => trivial) (fun _ _ _ _ _ => trivial) fun s w γ hg hI _ => ?_
  obtain ⟨hK, hI'⟩ := hI.log_step
    (v := { s.vol with outstanding := s.vol.outstanding + 1 }) rfl rfl rfl
  refine ⟨hK, w, g, ?_, h⟩
  rwa [← hg, update_eq_self]

theorem endOp_spec {Q : Unit → Ghost P → Prop} (h : Q () g) : Spec sb K V A B p endOp Q g := by
  refine Spec.same fun s w γ hg hI a s' hf => ?_
  cases hf
  obtain ⟨h1, h2, h3⟩ : s.vol.endOp.bitmap = s.vol.bitmap ∧ s.vol.endOp.dinode = s.vol.dinode ∧
      s.vol.endOp.data = s.vol.data := by
    unfold Volume.endOp
    split <;> exact ⟨rfl, rfl, rfl⟩
  obtain ⟨hK, hI'⟩ := hI.log_step h1 h2 h3
  exact ⟨hK, hI', h⟩

/-! ## Locks -/

section Locks

variable {Q : Unit → Ghost P → Prop} {r : Ref} {rs : List Ref} {k : ℕ} {b : Bool}
  {ls : List (ℕ × Bool)}

theorem acquire_spec {X : Kernel P → Prop} {site : LockSite}
    (hE : ∀ s, X s → Enters p (.inode site k) s)
    (hO : ∀ s w γ, γ p = g → GInv sb K V A B s w γ → Owes B p (.inode site k) s w)
    (hrun : g.run = true) (hs : Stake g k)
    (h : k ∉ g.locks.map Prod.fst → Q () { g with locks := (k, false) :: g.locks }) :
    Wp arbiter (GInv sb K V A B) (Owes B) Enters (Kept V) p X
      (Prog.request (.inode site k) : Task P Unit) Q g := by
  refine .request hE hO fun s w γ hg hI hready => ?_
  subst hg
  have hnone : (s.icache k).lock = none := by simpa [arbiter] using hready
  obtain ⟨hK, hI'⟩ := hI.acquire rfl hrun hnone hs
  refine ⟨hK, w, _, hI', h fun hm => ?_⟩
  obtain ⟨x, hx, rfl⟩ := List.mem_map.mp hm
  have := ((hI.loc p).held x hx).1
  rw [hnone] at this
  cases this

def Owed (g : Ghost P) (i : ℕ) : Prop :=
  ∀ x ∈ g.locks, ∃ r ∈ g.refs, r.slot = x.1 ∧ r.type = some .dir ∧ (r.inum, i) ∈ g.edges

def OwedAbove (g : Ghost P) (i : ℕ) : Prop :=
  ∀ x ∈ g.locks, ∃ r ∈ g.refs, r.slot = x.1 ∧ (i, r.inum) ∈ g.edges

omit [DecidableEq P] [Fintype P] in
theorem owed_nil {g : Ghost P} (h : g.locks = []) (i : ℕ) : Owed g i := by
  intro x hx
  rw [h] at hx
  cases hx

section Owes

omit [DecidableEq P]

variable {s : Kernel P} {w : Births} {γ : P → Ghost P} (hI : GInv sb K V A B s w γ)

include hI

theorem GInv.holdsAbove (hB : B) (ho : Owed (γ p) (s.icache k).inum) : HoldsAbove p k s w := by
  intro l hl
  have hloc := hI.loc p
  obtain ⟨x, hx, rfl⟩ := List.mem_map.mp (hI.lock l p hl)
  obtain ⟨y, hy, hyx, hyt, hye⟩ := ho x hx
  have hinum := hloc.inum y hy
  rw [hyx] at hinum
  unfold DirAt
  rw [hinum]
  exact ⟨(hloc.conf y hy _ hyt).2, hloc.edge hB _ hye⟩

theorem GInv.length_locks (h : HoldsOne p s) : (γ p).locks.length ≤ 1 := by
  have hl := hI.loc p
  by_contra hlen
  obtain ⟨x, y, rest, hxy⟩ : ∃ x y rest, (γ p).locks = x :: y :: rest := by
    match hm : (γ p).locks with
    | [] => rw [hm] at hlen; exact absurd (Nat.zero_le 1) hlen
    | [x] => rw [hm] at hlen; exact absurd le_rfl hlen
    | x :: y :: rest => exact ⟨x, y, rest, rfl⟩
  have hheld := hl.held
  have hnd := hl.wf.nodup
  rw [hxy] at hheld hnd
  have heq := h x.1 y.1 (hheld x (by simp)).1 (hheld y (by simp)).1
  simp [heq] at hnd

theorem GInv.owes_parent {r : Ref} (hr : r ∈ (γ p).refs) (ht : r.type = some .dir)
    (ho : OwedAbove (γ p) r.inum) : Owes B p (.inode .iputParent r.slot) s w := by
  intro hB
  have hloc := hI.loc p
  have hinum := hloc.inum r hr
  unfold DirAt
  rw [hinum]
  refine ⟨(hloc.conf r hr _ ht).2, fun l hl hdir => ?_⟩
  obtain ⟨x, hx, rfl⟩ := List.mem_map.mp (hI.lock l p hl)
  obtain ⟨y, hy, hyx, hye⟩ := ho x hx
  rw [← hyx, hloc.inum y hy] at hdir ⊢
  exact hloc.edge hB _ hye hdir

end Owes

theorem GInv.iload_step {s s' : Kernel P} {w : Births} {γ : P → Ghost P}
    (hI : GInv sb K V A B s w γ) (hg : γ p = g) (hrun : g.run = true)
    (hls : g.locks.Perm ((k, b) :: ls)) {u : Unit} (h : iload k s = .ok (u, s')) :
    Kept V s s' ∧ GInv sb K V A B s' w (update γ p { g with locks := (k, true) :: ls }) := by
  unfold iload at h
  split at h
  next hv =>
    cases h
    exact ⟨Kept.refl s, hI.mark_valid hg hrun hls hv⟩
  next =>
    split at h
    · cases h
    next ht =>
      cases h
      exact hI.load hg hrun hls ⟨rfl, ht, fun _ => rfl⟩

section

variable (hrun : g.run = true)

include hrun

theorem ilockWait_spec {α : Type} {m : Task P α} {Q : α → Ghost P → Prop}
    (hs : Stake g k) (hk : ∀ s w γ, γ p = g → GInv sb K V A B s w γ → Owed g (s.icache k).inum)
    (h : Spec sb K V A B p m Q { g with locks := (k, false) :: g.locks }) :
    Spec sb K V A B p (Prog.bind (Prog.request (.inode .ilock k)) fun _ => m) Q g := by
  refine .bind (acquire_spec (fun _ _ => trivial) (fun s w γ hg hI hB => ?_) hrun hs fun _ => h)
  have ho := hk s w γ hg hI
  subst hg
  exact hI.holdsAbove hB ho

/-- **`ilock`.** The lock of an inode that the process refers to; the inode's type is known from
then on. -/
theorem ilock_spec (hrs : g.refs.Perm (r :: rs)) (ho : Owed g r.inum)
    (h : ∀ t, t ≠ .free → (∀ t0, r.type = some t0 → t = t0) → Q () { g with
      refs := { r with type := some t } :: rs
      locks := (r.slot, true) :: g.locks }) : Spec sb K V A B p (ilock r.slot) Q g := by
  have hmem : r ∈ g.refs := hrs.mem_iff.mpr List.mem_cons_self
  refine .bind (Spec.read fun s w γ hg hI a s' hf => ?_)
  split at hf
  · cases hf
  cases hf
  refine ⟨rfl, ilockWait_spec hrun (.inl ⟨r, hmem, rfl⟩) (fun s w γ hg hI => ?_) ?_⟩
  · subst hg
    rw [(hI.loc p).inum r hmem]
    exact ho
  refine .lift fun s w γ hg hI a s' hf => ?_
  obtain ⟨hK, hI1⟩ := hI.iload_step hg hrun (.refl _) hf
  have hself := update_self p { g with locks := (r.slot, true) :: g.locks } γ
  have hI2 := hI1.see_type hself hrun hrs List.mem_cons_self
  rw [update_idem] at hI2
  obtain ⟨-, -, -, hd⟩ := hI1.loaded (p := p) (k := r.slot) (by
    rw [hself]
    exact List.mem_cons_self)
  refine ⟨hK, w, _, hI2, h _ hd.alloc fun t0 h0 => ?_⟩
  have hl := hI1.loc p
  rw [hself] at hl
  rw [hd.type, hl.inum r hmem]
  exact (hl.conf r hmem t0 h0).2

theorem ilock_via_spec (hlocks : g.locks = []) {x : Via}
    (hvia : g.via = some x) (hk : x.ip = some k) (h : Q () { g with locks := [(k, true)] }) :
    Spec sb K V A B p (ilock k) Q g := by
  refine .bind (Spec.read fun s w γ hg hI a s' hf => ?_)
  split at hf
  · cases hf
  cases hf
  refine ⟨rfl, ilockWait_spec hrun (.inr ⟨x, hvia, hk⟩) (fun s w γ hg hI y hy => ?_) ?_⟩
  · rw [hlocks] at hy
    cases hy
  · have hls : ((k, false) :: g.locks).Perm [(k, false)] := List.Perm.of_eq (by rw [hlocks])
    exact Spec.to _ fun s w γ hg hI a s' hf => ⟨hI.iload_step hg hrun hls hf, h⟩

/-- **`iunlock`.** -/
theorem iunlock_spec (hls : g.locks.Perm ((k, b) :: ls)) (hnf : g.freeing = none)
    (h : Q () { g with locks := ls }) : Spec sb K V A B p (iunlock p k) Q g := by
  refine Spec.to _ fun s w γ hg hI a s' hf => ⟨?_, h⟩
  split at hf
  · cases hf
  · cases hf
    exact hI.release hg hrun hls (by rw [hnf]; simp)

theorem iputEnd_spec (hrs : g.refs.Perm (r :: rs)) (hnf : g.freeing = none)
    (hls : g.locks.Perm ((r.slot, b) :: ls))
    (hwf : ({ g with refs := rs, locks := ls } : Ghost P).WF)
    (h : Q () { g with refs := rs, locks := ls }) :
    Spec sb K V A B p (do
      act fun s => .ok ((), s.setInode r.slot { s.icache r.slot with lock := none })
      act fun s => .ok ((), s.setInode r.slot
        { s.icache r.slot with ref := (s.icache r.slot).ref - 1 })) Q g := by
  refine .bind (Spec.to { g with locks := ls } fun s w γ hg hI a s' hf => ⟨?_, ?_⟩)
  · cases hf
    exact hI.release hg hrun hls (by rw [hnf]; simp)
  · refine Spec.to _ fun s w γ hg hI a s' hf => ⟨?_, h⟩
    cases hf
    exact hI.drop_ref hg hrs hwf

theorem iputLocked_spec (hrs : g.refs.Perm (r :: rs)) (hnf : g.freeing = none)
    (hk : r.slot ∉ g.locks.map Prod.fst) (hwf : ({ g with refs := rs } : Ghost P).WF)
    (h : Q () { g with refs := rs }) :
    Spec sb K V A B p (iputLocked sb r.slot) Q { g with locks := (r.slot, false) :: g.locks } := by
  refine .bind (.lift fun s w γ hg hI free s' hf => ?_)
  obtain ⟨hfree, rfl⟩ := Prod.mk.inj (Except.ok.inj hf)
  refine ⟨Kept.refl s, w, ?_⟩
  cases free with
  | false =>
    refine ⟨γ p, ?_, ?_⟩
    · rwa [update_eq_self]
    · rw [hg]
      exact iputEnd_spec hrun hrs hnf (.refl _) hwf h
  | true =>
    simp only [Bool.and_eq_true, decide_eq_true_eq] at hfree
    obtain ⟨⟨hv, -⟩, hone⟩ := hfree
    have hI1 := hI.mark_valid hg hrun (.refl _) hv
    obtain ⟨hnot, hI2⟩ := hI1.set_freeing (update_self p _ γ) hrun hrs
      List.mem_cons_self hone
    rw [update_idem] at hI2
    have hwf' := (hwf.addRef hrun { r with type := none }).addLock hrun
      (.inl ⟨_, List.mem_cons_self, rfl⟩) hk false
    refine ⟨_, hI2, Wp.bind (Spec.to { g with
      refs := { r with type := none } :: rs
      locks := (r.slot, false) :: g.locks } fun s w γ hg hI a s' hf => ⟨?_, ?_⟩)⟩
    · exact hI.free_step hg hrs hnot (.refl _) rfl (by rw [hnf]) hwf' hf
    · exact iputEnd_spec hrun (r := { r with type := none }) (.refl _) hnf
        (.refl _) hwf h

/-- **`iput`.** It takes a reference; what the process keeps must not depend on it. A process that
holds one lock holds that of a directory above the inode. -/
theorem iput_holding_spec (hrs : g.refs.Perm (r :: rs)) (hnf : g.freeing = none)
    (ho : B → g.locks.length ≤ 1 → Owed g r.inum) (hwf : ({ g with refs := rs } : Ghost P).WF)
    (h : Q () { g with refs := rs }) : Spec sb K V A B p (iput sb r.slot) Q g := by
  have hmem : r ∈ g.refs := hrs.mem_iff.mpr List.mem_cons_self
  refine .bind (acquire_spec (fun _ _ => trivial) (fun s w γ hg hI hB hone => ?_) hrun
    (.inl ⟨r, hmem, rfl⟩) fun hk => iputLocked_spec hrun hrs hnf hk hwf h)
  subst hg
  refine hI.holdsAbove hB ?_
  rw [(hI.loc p).inum r hmem]
  exact ho hB (hI.length_locks hone)

theorem iput_spec (hrs : g.refs.Perm (r :: rs)) (hnf : g.freeing = none)
    (hlocks : g.locks = []) (hwf : ({ g with refs := rs } : Ghost P).WF)
    (h : Q () { g with refs := rs }) : Spec sb K V A B p (iput sb r.slot) Q g :=
  iput_holding_spec hrun hrs hnf (fun _ _ => owed_nil hlocks _) hwf h

theorem iunlockput_spec (hrs : g.refs.Perm (r :: rs)) (hnf : g.freeing = none)
    (hls : g.locks.Perm ((r.slot, b) :: ls)) (hlocks : ls = [])
    (hwf : ({ g with refs := rs, locks := ls } : Ghost P).WF)
    (h : Q () { g with refs := rs, locks := ls }) :
    Spec sb K V A B p (iunlockput sb p r.slot) Q g :=
  .bind (iunlock_spec hrun hls hnf (iput_spec hrun hrs hnf hlocks hwf h))

theorem iunlockputParent_spec (hrs : g.refs.Perm (r :: rs))
    (ht : r.type = some .dir) (hnf : g.freeing = none) (hls : g.locks.Perm ((r.slot, b) :: ls))
    (ho : OwedAbove { g with locks := ls } r.inum)
    (hwf : ({ g with refs := rs, locks := ls, edges := [] } : Ghost P).WF)
    (h : Q () { g with refs := rs, locks := ls, edges := [] }) :
    Spec sb K V A B p (iunlockputParent sb p r.slot) Q g := by
  have hmem : r ∈ g.refs := hrs.mem_iff.mpr List.mem_cons_self
  refine .lift_then fun s w γ hg hI u s' hf => ?_
  split at hf
  · cases hf
  next hlock =>
    have hown : (s.icache r.slot).lock = some p := by
      by_contra hne
      exact hlock (.inl hne)
    cases hf
    obtain ⟨hK, hI'⟩ := hI.release hg hrun hls (by rw [hnf]; simp)
    refine ⟨hK, w, _, hI', Wp.bind (acquire_spec ?_ (fun s w γ hg hI => ?_) hrun
      (.inl ⟨r, hmem, rfl⟩) fun hk => .weaken (weak_edges [] hrun fun e he => by cases he)
        (iputLocked_spec (g := { g with locks := ls, edges := [] }) hrun hrs hnf hk hwf h))⟩
    · rintro _ rfl
      exact hown
    · exact hI.owes_parent (by rw [hg]; exact hmem) ht (by rw [hg]; exact ho)

end

end Locks

section Types

variable {r : Ref} {t : FType}

theorem typeOf_spec {Q : FType → Ghost P → Prop} (hr : r ∈ g.refs) (ht : r.type = some t)
    (hk : (r.slot, true) ∈ g.locks) (h : Q t g) : Spec sb K V A B p (typeOf r.slot) Q g := by
  refine Spec.read fun s w γ hg hI a s' hf => ?_
  cases hf
  subst hg
  obtain ⟨-, -, -, hd⟩ := hI.loaded hk
  rw [hd.type, (hI.loc p).inum r hr, ((hI.loc p).conf r hr t ht).2]
  exact ⟨rfl, h⟩

theorem inumOf_spec {Q : ℕ → Ghost P → Prop} (hr : r ∈ g.refs) (h : Q r.inum g) :
    Spec sb K V A B p (inumOf r.slot) Q g := by
  refine Spec.read fun s w γ hg hI a s' hf => ?_
  cases hf
  subst hg
  rw [(hI.loc p).inum r hr]
  exact ⟨rfl, h⟩

end Types

/-! ## Directories -/

section Directories

variable {r : Ref} {name : Str}

theorem dirlookup_spec {Q : Option (ℕ × ℕ) → Ghost P → Prop} (hrun : g.run = true) {k : ℕ}
    (hk : (k, true) ∈ g.locks) (hnone : Q none g)
    (hsome : ∀ l off i, g.WF → Q (some (l, off)) { g with refs := ⟨l, i, none⟩ :: g.refs }) :
    Spec sb K V A B p (act (dirlookup sb k name)) Q g := by
  refine .lift fun s w γ hg hI x s' hf => ?_
  obtain ⟨hK, h⟩ := hI.dirlookup_step hg hrun hk hf
  refine ⟨hK, w, ?_⟩
  cases x with
  | none =>
    exact ⟨g, by rw [← hg, update_eq_self]; exact h, hnone⟩
  | some y =>
    obtain ⟨-, i, -, hI'⟩ := h
    exact ⟨_, hI', hsome y.1 y.2 i (by rw [← hg]; exact (hI.loc p).wf)⟩

theorem dirlookup_edge_spec {Q : Option (ℕ × ℕ) → Ghost P → Prop} (hrun : g.run = true)
    (hr : r ∈ g.refs) (ht : r.type = some .dir) (hk : (r.slot, true) ∈ g.locks)
    (hname : B → ¬ isDots name) (hnone : Q none g)
    (hsome : ∀ l off i, g.WF → (V → DIRENTSZ ∣ off) → Q (some (l, off)) { g with
      refs := ⟨l, i, none⟩ :: g.refs
      edges := (r.inum, i) :: g.edges }) :
    Spec sb K V A B p (act (dirlookup sb r.slot name)) Q g := by
  refine .lift fun s w γ hg hI x s' hf => ?_
  obtain ⟨hK, h⟩ := hI.dirlookup_step hg hrun hk hf
  refine ⟨hK, w, ?_⟩
  cases x with
  | none =>
    exact ⟨g, by rw [← hg, update_eq_self]; exact h, hnone⟩
  | some y =>
    obtain ⟨hoff, i, hage, hI'⟩ := h
    have hinum : (s.icache r.slot).inum = r.inum := by
      subst hg
      exact (hI.loc p).inum r hr
    rw [hinum] at hage
    have hI'' := hI'.add_edge (update_self p _ γ) hrun (List.mem_cons_of_mem _ hr) ht
      fun hB => hage hB (hname hB)
    rw [update_idem] at hI''
    exact ⟨_, hI'', hsome y.1 y.2 i (by rw [← hg]; exact (hI.loc p).wf) hoff⟩

/-- **`dirlink`.** The new entry is for an inode the process refers to: under the names `"."` and
`".."`, or no directory, or younger than the directory it goes into. An entry that is there already
is dropped with `iput`; if the process holds only the lock of the directory, it has to be one for an
inode below it. -/
theorem dirlink_spec {Q : Bool → Ghost P → Prop} (hsb : V → sb.WF) (hrun : g.run = true)
    (hnf : g.freeing = none) (hr : r ∈ g.refs) (hk : (r.slot, true) ∈ g.locks) {x : Ref}
    (hx : x ∈ g.refs)
    (hage : isDots name ∨ (∃ t, x.type = some t ∧ t ≠ .dir) ∨ (r.inum, x.inum) ∈ g.edges)
    (hone : g.locks.length ≤ 1 → r.type = some .dir ∧ (B → ¬ isDots name))
    (h : ∀ b, Q b g) : Spec sb K V A B p (dirlink sb r.slot name x.inum) Q g := by
  have hnew : Spec sb K V A B p (do
      act fun s => onInode r.slot (dirAppend sb (s.icache r.slot).inum name x.inum) s
      return true) Q g := by
    refine .bind (Spec.same fun s w γ hg hI a s' hf => ?_)
    subst hg
    have hl := hI.loc p
    have hinum := hl.inum r hr
    have hnew : B → x.inum < 2 ^ 16 ∧ (¬ isDots name → (s.vol.dinode x.inum).type = .dir →
        w.born (s.icache r.slot).inum < w.born x.inum) := by
      intro hB
      refine ⟨?_, fun hdots hdir => ?_⟩
      · rw [← hl.inum x hx]
        exact hI.small hB _ (hI.ref_pos_of_ref hx)
      · rw [hinum]
        rcases hage with hname | ⟨t, ht, hne⟩ | he
        · exact absurd hname hdots
        · rw [(hl.conf x hx t ht).2] at hdir
          exact absurd hdir hne
        · exact hl.edge hB _ he hdir
    obtain ⟨hK, hI'⟩ := hI.dirAppend_step hk hsb hnew hf
    exact ⟨hK, hI', Wp.ret (h true)⟩
  by_cases hlen : g.locks.length ≤ 1
  · obtain ⟨hdir, hname⟩ := hone hlen
    have hlocks : g.locks = [(r.slot, true)] := by
      obtain ⟨y, hy⟩ := List.length_eq_one_iff.mp
        (le_antisymm hlen (List.length_pos_of_mem hk))
      rw [hy] at hk
      rw [hy, List.mem_singleton.mp hk]
    refine .bind (dirlookup_edge_spec hrun hr hdir hk hname hnew fun l off i hwf _ => ?_)
    refine .bind (iput_holding_spec (r := ⟨l, i, none⟩) hrun (.refl _) hnf
      (fun _ _ y hy => ?_) ?_ ?_)
    · rw [hlocks] at hy
      rw [List.mem_singleton.mp hy]
      exact ⟨r, List.mem_cons_of_mem _ hr, rfl, hdir, List.mem_cons_self⟩
    · exact hwf.addEdge hrun hr hdir i
    · exact ⟨g, weak_edges g.edges hrun fun e he => List.mem_cons_of_mem _ he, h false⟩
  · refine .bind (dirlookup_spec hrun hk hnew fun l off i hwf => ?_)
    exact .bind (iput_holding_spec (r := ⟨l, i, none⟩) hrun (.refl _) hnf
      (fun _ hle => absurd hle hlen) hwf (.ret (h false)))

end Directories

/-! ## Paths -/

section Paths

variable {Q : Option (ℕ × Str) → Ghost P → Prop}

section

variable (hrun : g.run = true) (hlocks : g.locks = []) (hnf : g.freeing = none) (hwf : g.WF)

include hrun hlocks hnf hwf

theorem namexLoop_spec {parent : Bool} (hnone : Q none g) (fuel : ℕ) (r : Ref) (path name : Str)
    (hsome : ∀ r n, (parent = true → r.type = some .dir ∧ n ∈ (elements path).getLast?) →
      Q (some (r.slot, n)) { g with refs := r :: g.refs })
    (hf : path.length < fuel) :
    Spec sb K V A B p (namexLoop sb p parent fuel r.slot path name) Q
      { g with refs := r :: g.refs } := by
  induction fuel generalizing r path name with
  | zero => omega
  | succ fuel ih =>
    unfold namexLoop
    have howed : ∀ i rs, Owed { g with refs := rs } i := fun i rs =>
      owed_nil (g := { g with refs := rs }) hlocks i
    split
    next =>
      split
      · exact .bind (iput_spec hrun (.refl _) hnf hlocks hwf (.ret hnone))
      next hp => exact .ret (hsome r name fun h => absurd h hp)
    next elem rest hskip =>
      obtain ⟨helems, hlen, hlast⟩ := skipelem_some hskip
      refine .bind (ilock_spec hrun (.refl _) (howed _ _) fun t ht _ => ?_)
      refine .bind (typeOf_spec (r := ⟨r.slot, r.inum, some t⟩) List.mem_cons_self rfl
        List.mem_cons_self ?_)
      have hout : ∀ rs, ({ g with refs := rs, locks := (r.slot, true) :: g.locks } :
        Ghost P).locks.Perm
          ((r.slot, true) :: g.locks) := fun _ => List.Perm.refl _
      split
      · exact .bind (iunlockput_spec (r := ⟨r.slot, r.inum, some t⟩) hrun (.refl _) hnf
          (hout _) hlocks hwf (.ret hnone))
      next hdir =>
        rw [not_not] at hdir
        split
        next hp =>
          refine .bind (iunlock_spec hrun (hout _) hnf (.ret ?_))
          refine hsome ⟨r.slot, r.inum, some t⟩ elem fun _ => ⟨by rw [hdir], ?_⟩
          rw [helems, hlast.mp hp.2]
          rfl
        next hp =>
          refine .bind (dirlookup_spec (by exact hrun) List.mem_cons_self ?_ fun l off i _ => ?_)
          · exact .bind (iunlockput_spec (r := ⟨r.slot, r.inum, some t⟩) hrun
              (.refl _) hnf
              (hout _) hlocks hwf (.ret hnone))
          · refine .bind (iunlockput_spec (r := ⟨r.slot, r.inum, some t⟩) hrun
              (List.Perm.swap _ _ _) hnf (hout _) hlocks ?_ ?_)
            · exact hwf.addRef hrun _
            · refine ih ⟨l, i, none⟩ rest elem (fun x n hx => hsome x n fun hpar => ?_) (by omega)
              rw [helems]
              exact ⟨(hx hpar).1, List.mem_getLast?_cons (hx hpar).2⟩

/-- **`namex`.** It returns a reference, with `parent` one to a directory, and the last element of
the path. -/
theorem namex_spec {path : Str} {parent : Bool} (hleft : g.left = false) (hnone : Q none g)
    (hsome : ∀ r n, (parent = true → r.type = some .dir ∧ n ∈ (elements path).getLast?) →
      Q (some (r.slot, n)) { g with refs := r :: g.refs }) :
    Spec sb K V A B p (namex sb p path parent) Q g := by
  refine .bind (.lift fun s w γ hg hI k s' hf => ?_)
  have hloop : ∀ i, Spec sb K V A B p (namexLoop sb p parent (path.length + 1) k path []) Q
      { g with refs := ⟨k, i, none⟩ :: g.refs } := fun i =>
    namexLoop_spec hrun hlocks hnf hwf hnone _ ⟨k, i, none⟩ _ _ hsome (Nat.lt_succ_self _)
  split at hf
  next =>
    obtain ⟨hK, -, hI'⟩ := hI.iget_step hg hrun (fun _ => by decide) hf
    exact ⟨hK, w, _, hI', hloop _⟩
  next =>
    unfold idupCwd at hf
    split at hf
    next l hc =>
      cases hf
      have hlv : (s.proc p).leaving = false := by
        rw [(hI.loc p).left, hg, hleft]
      obtain ⟨hK, hI'⟩ := hI.add_ref hg hrun (hI.ref_pos_of_cwd hc hlv)
      exact ⟨hK, w, _, hI', hloop _⟩
    next => cases hf

theorem namei_spec {Q : Option ℕ → Ghost P → Prop} {path : Str} (hleft : g.left = false)
    (hnone : Q none g) (hsome : ∀ r, Q (some r.slot) { g with refs := r :: g.refs }) :
    Spec sb K V A B p (namei sb p path) Q g :=
  .bind (namex_spec hrun hlocks hnf hwf hleft (.ret hnone) fun r _ _ => .ret (hsome r))

theorem nameiparent_spec {path : Str} (hleft : g.left = false) (hnone : Q none g)
    (hsome : ∀ k i n, n ∈ (elements path).getLast? →
      Q (some (k, n)) { g with refs := ⟨k, i, some .dir⟩ :: g.refs }) :
    Spec sb K V A B p (nameiparent sb p path) Q g := by
  refine namex_spec hrun hlocks hnf hwf hleft hnone fun r n hr => ?_
  obtain ⟨k, i, t⟩ := r
  obtain ⟨rfl, hn⟩ := hr rfl
  exact hsome k i n hn

end

end Paths

end Xv6.Fs
