import Xv6.Fs.FileCalls

/-!
# System calls on names

Specifications of `sys_link`, `sys_unlink`, `sys_open`, `sys_mkdir` and `sys_mknod`. While a call
holds a directory's lock it asks only for the locks of inodes below it, which are younger: the entry
it has found, or the inode it has just allocated. The other way round are the `iput` of the
directory in `create` and `unlink`, for which the inode below stays locked, and `link` to a name `.`
or `..` in use.
-/

namespace Xv6.Fs

open Conc StateExcept

variable {P : Type} [DecidableEq P] [Fintype P] {sb : Superblock} {K : Set ℕ} {V A B : Prop} {p : P}

/-! ## Links -/

section Link

variable {k i : ℕ} {ty : FType}

theorem iupdateWith_spec {Q : Unit → Ghost P → Prop} {g : Ghost P} {f : Dinode → Dinode}
    (hk : (k, true) ∈ g.locks)
    (hf : ∀ d, (f d).type = d.type ∧ (f d).size = d.size ∧ (f d).addrs = d.addrs) (h : Q () g) :
    Spec sb K V A B p (act (iupdateWith sb k f)) Q g := by
  refine Spec.same fun s w γ hg hI a s' hs => ?_
  subst hg
  obtain ⟨hK, hI'⟩ := hI.iupdate_step hk hf hs
  exact ⟨hK, hI', h⟩

theorem unlinkTest_spec {Q : Bool → Ghost P → Prop} {g : Ghost P} (hk : (k, true) ∈ g.locks)
    (h : ∀ b, Q b g) : Spec sb K V A B p (act (unlinkTest sb k)) Q g := by
  refine Spec.same fun s w γ hg hI a s' hf => ?_
  subst hg
  unfold unlinkTest at hf
  split at hf
  · cases hf
  split at hf
  · obtain ⟨hK, hI', -⟩ := hI.onInode_read hk isdirempty_types hf fun hV t ht =>
      (isdirempty_ok (hI.noHole hk hV) ht).1
    exact ⟨hK, hI', h a⟩
  · obtain ⟨-, rfl⟩ := Prod.mk.inj (Except.ok.inj hf)
    exact ⟨Kept.refl s, hI, h a⟩

abbrev making (k i l j : ℕ) (t : FType) : Ghost P :=
  { Ghost.start with
    refs := [⟨k, i, some t⟩, ⟨l, j, some .dir⟩]
    locks := [(k, true), (l, true)]
    edges := [(j, i)] }

omit [DecidableEq P] [Fintype P] in
theorem owedAbove_making (k i l j : ℕ) (t : FType) :
    OwedAbove ({ making k i l j t with locks := [(k, true)] } : Ghost P) j := by
  intro x hx
  rw [List.mem_singleton.mp hx]
  exact ⟨⟨k, i, some t⟩, List.mem_cons_self, rfl, List.mem_cons_self⟩

theorem linkBad_spec (r : Ref) : CallSpec sb K V A B p (linkBad sb p r.slot) (having [r] []) := by
  unfold linkBad
  refine .bind (ilock_spec rfl (.refl _) (owed_nil rfl _) fun t ht _ => ?_)
  refine .bind (iupdateWith_spec List.mem_cons_self (fun d => ⟨rfl, rfl, rfl⟩) ?_)
  exact .bind (iunlockput_spec (r := ⟨r.slot, r.inum, some t⟩) rfl (.refl _) rfl
    (.refl _) rfl (wf_free rfl rfl rfl rfl) endOp_done)

theorem sysLink_spec (hsb : V → sb.WF) (arg : Option (Str × Str))
    (hname : B → ∀ x ∈ arg, ∀ n ∈ (elements x.2).getLast?, ¬ isDots n) :
    CallSpec sb K V A B p (sysLink sb p arg) Ghost.start := by
  cases arg with
  | none => exact Spec.done
  | some arg =>
    refine .bind (beginOp_spec ?_)
    refine .bind (namei_spec rfl rfl rfl (wf_free rfl rfl rfl rfl) rfl endOp_done fun r => ?_)
    refine .bind (ilock_spec rfl (.refl _) (owed_nil rfl _) fun t ht _ => ?_)
    refine .bind (typeOf_spec (r := ⟨r.slot, r.inum, some t⟩) List.mem_cons_self rfl
      List.mem_cons_self ?_)
    split
    · exact .bind (iunlockput_spec (r := ⟨r.slot, r.inum, some t⟩) rfl (.refl _) rfl
        (.refl _) rfl (wf_free rfl rfl rfl rfl) endOp_done)
    next hdir =>
      refine .bind (iupdateWith_spec List.mem_cons_self (fun d => ⟨rfl, rfl, rfl⟩) ?_)
      refine .bind (iunlock_spec rfl (.refl _) rfl ?_)
      refine .bind (nameiparent_spec rfl rfl rfl (wf_free rfl rfl rfl rfl) rfl
        (linkBad_spec ⟨r.slot, r.inum, some t⟩) fun k j name hlast => ?_)
      refine .bind (ilock_spec (r := ⟨k, j, some .dir⟩) rfl (.refl _) (owed_nil rfl _)
        fun t' _ ht' => ?_)
      obtain rfl := ht' _ rfl
      refine .bind (Spec.read fun s w γ hg hI a s' hf => ?_)
      cases hf
      have hmem : (⟨r.slot, r.inum, some t⟩ : Ref) ∈ (γ p).refs := by rw [hg]; simp
      have hmem' : (⟨k, j, some .dir⟩ : Ref) ∈ (γ p).refs := by rw [hg]; simp
      have hdev := hI.dev _ (hI.ref_pos_of_ref hmem)
      have hdev' := hI.dev _ (hI.ref_pos_of_ref hmem')
      have hinum := (hI.loc p).inum _ hmem
      dsimp only at hdev hdev' hinum
      refine ⟨rfl, ?_⟩
      rw [hdev, hdev', hinum]
      dsimp only
      rw [if_neg (not_not.mpr rfl)]
      refine .bind (dirlink_spec (r := ⟨k, j, some .dir⟩)
        (x := ⟨r.slot, r.inum, some t⟩) hsb rfl rfl
        List.mem_cons_self List.mem_cons_self (by simp) (.inr (.inl ⟨t, rfl, hdir⟩))
        (fun _ => ⟨rfl, fun hB => hname hB arg rfl name hlast⟩) fun b => ?_)
      refine .bind (iunlockput_spec (r := ⟨k, j, some .dir⟩) rfl (.refl _) rfl
        (.refl _) rfl (wf_free rfl rfl rfl rfl) ?_)
      split
      · exact .bind (iput_spec (r := ⟨r.slot, r.inum, some t⟩) rfl (.refl _) rfl rfl
          (wf_free rfl rfl rfl rfl)
          endOp_done)
      · exact linkBad_spec ⟨r.slot, r.inum, some t⟩

theorem unlinkBad_spec (r : Ref) (b : Bool) :
    CallSpec sb K V A B p (unlinkBad sb p r.slot) (having [r] [(r.slot, b)]) :=
  .bind (iunlockput_spec rfl (.refl _) rfl (.refl _) rfl
    (wf_free rfl rfl rfl rfl) endOp_done)

theorem sysUnlink_spec (hsb : V → sb.WF) (arg : Option Str) :
    CallSpec sb K V A B p (sysUnlink sb p arg) Ghost.start := by
  cases arg with
  | none => exact Spec.done
  | some path =>
    refine .bind (beginOp_spec ?_)
    refine .bind (nameiparent_spec rfl rfl rfl (wf_free rfl rfl rfl rfl) rfl endOp_done
      fun k j name _ => ?_)
    refine .bind (ilock_spec (r := ⟨k, j, some .dir⟩) rfl (.refl _) (owed_nil rfl _)
      fun t _ ht => ?_)
    obtain rfl := ht _ rfl
    split
    · exact unlinkBad_spec ⟨k, j, some .dir⟩ true
    next hname =>
      refine .bind (dirlookup_edge_spec (r := ⟨k, j, some .dir⟩) rfl List.mem_cons_self rfl
        List.mem_cons_self (fun _ => hname) (unlinkBad_spec ⟨k, j, some .dir⟩ true)
        fun l off i _ hoff => ?_)
      refine .bind (ilock_spec (r := ⟨l, i, none⟩) rfl (.refl _) (fun x hx => ?_)
        fun t _ _ => ?_)
      · rw [List.mem_singleton.mp hx]
        exact ⟨⟨k, j, some .dir⟩, by simp, rfl, rfl, List.mem_cons_self⟩
      refine .bind (unlinkTest_spec List.mem_cons_self fun b => ?_)
      split
      · refine .bind (Spec.same fun s w γ hg hI a s' hf => ?_)
        have hk : (k, true) ∈ (γ p).locks := by rw [hg]; simp
        obtain ⟨hK, hI'⟩ := hI.dirErase_step hk hsb hoff hf
        refine ⟨hK, hI', ?_⟩
        refine .bind (typeOf_spec (r := ⟨l, i, some t⟩) List.mem_cons_self rfl
          List.mem_cons_self ?_)
        have hrest : CallSpec sb K V A B p (do
            iunlockputParent sb p k
            act (iupdateWith sb l fun d => { d with nlink := d.nlink - 1 })
            iunlockput sb p l
            endOp
            return .int 0)
            (making l i k j t) := by
          refine .bind (iunlockputParent_spec (r := ⟨k, j, some .dir⟩) rfl (List.Perm.swap _ _ _)
            rfl rfl (List.Perm.swap _ _ _) (owedAbove_making l i k j t)
            (wf_lock ⟨l, i, some t⟩ [] true) ?_)
          refine .bind (iupdateWith_spec List.mem_cons_self (fun d => ⟨rfl, rfl, rfl⟩) ?_)
          exact .bind (iunlockput_spec (r := ⟨l, i, some t⟩) rfl (.refl _) rfl
            (.refl _) rfl (wf_free rfl rfl rfl rfl) endOp_done)
        split
        · exact .bind (iupdateWith_spec (by simp) (fun d => ⟨rfl, rfl, rfl⟩) hrest)
        · exact hrest
      · refine .bind (.bind (iunlock_spec rfl (.refl _) rfl (iput_holding_spec
          (r := ⟨l, i, some t⟩) rfl (.refl _) rfl (fun _ _ x hx => ?_)
          ((wf_lock ⟨k, j, some .dir⟩ [] true).addEdge rfl List.mem_cons_self rfl i) ?_)))
        · rw [List.mem_singleton.mp hx]
          exact ⟨⟨k, j, some .dir⟩, by simp, rfl, rfl, List.mem_cons_self⟩
        · exact .weaken (weak_edges [] rfl fun _ h => by cases h)
            (unlinkBad_spec ⟨k, j, some .dir⟩ true)

end Link

/-! ## Creation -/

section Create

variable {k i : ℕ}

theorem createDots_spec {Q : Unit → Ghost P → Prop} (hsb : V → sb.WF) {l j : ℕ} {t : FType}
    (h : Q () (making k i l j t)) : Spec sb K V A B p (createDots sb k l) Q (making k i l j t) := by
  refine .bind (inumOf_spec (r := ⟨k, i, some t⟩) List.mem_cons_self ?_)
  refine .bind (dirlink_spec (r := ⟨k, i, some t⟩) (x := ⟨k, i, some t⟩) hsb rfl rfl
    List.mem_cons_self List.mem_cons_self List.mem_cons_self (.inl (.inl (by decide)))
    (fun h => absurd h (by simp)) fun b => ?_)
  split
  · refine .bind (inumOf_spec (r := ⟨l, j, some .dir⟩) (by simp) ?_)
    refine .bind (dirlink_spec (r := ⟨k, i, some t⟩) (x := ⟨l, j, some .dir⟩) hsb rfl rfl
      List.mem_cons_self List.mem_cons_self (by simp) (.inl (.inr (by decide)))
      (fun h => absurd h (by simp)) fun b => ?_)
    split
    · exact .ret h
    · exact Spec.fail
  · exact Spec.fail

theorem createEntry_spec {Q : Option ℕ → Ghost P → Prop} (hsb : V → sb.WF) (l j : ℕ) {t : FType}
    (name : Str) (h : Q (some k) (having [⟨k, i, some t⟩] [(k, true)])) :
    Spec sb K V A B p (do
      let i ← inumOf k
      let ok ← dirlink sb l name i
      if ok then do
        iunlockputParent sb p l
        return some k
      else fail .createDirlink) Q (making k i l j t) := by
  refine .bind (inumOf_spec (r := ⟨k, i, some t⟩) List.mem_cons_self ?_)
  refine .bind (dirlink_spec (r := ⟨l, j, some .dir⟩) (x := ⟨k, i, some t⟩) hsb rfl rfl
    (by simp) (by simp) List.mem_cons_self (.inr (.inr List.mem_cons_self))
    (fun h => absurd h (by simp)) fun b => ?_)
  split
  · exact .bind (iunlockputParent_spec (r := ⟨l, j, some .dir⟩) rfl (List.Perm.swap _ _ _) rfl rfl
      (List.Perm.swap _ _ _) (owedAbove_making k i l j t) (wf_lock ⟨k, i, some t⟩ [] true)
      (.ret h))
  · exact Spec.fail

/-- **`create`.** It returns a locked inode; one that is opened as a file is no directory. -/
theorem create_spec {Q : Option ℕ → Ghost P → Prop} (hsb : V → sb.WF)
    (hino : B → sb.ninodes ≤ 2 ^ 16) {path : Str} {type : FType} {major minor : Int16}
    (htype : type ≠ .free) (hnone : Q none Ghost.start)
    (hsome : ∀ k i t, (type = .file → t ≠ .dir) →
      Q (some k) (having [⟨k, i, some t⟩] [(k, true)])) :
    Spec sb K V A B p (create sb p path type major minor) Q Ghost.start := by
  refine .bind (nameiparent_spec rfl rfl rfl (wf_free rfl rfl rfl rfl) rfl (.ret hnone)
    fun l j name _ => ?_)
  refine .bind (ilock_spec (r := ⟨l, j, some .dir⟩) rfl (.refl _) (owed_nil rfl _)
    fun t _ ht => ?_)
  obtain rfl := ht _ rfl
  refine .bind (dirlookup_spec rfl List.mem_cons_self ?_ fun k off i _ => ?_)
  · refine .bind (.lift fun s w γ hg hI k s' hf => ?_)
    have hmem : (⟨l, j, some .dir⟩ : Ref) ∈ (γ p).refs := by rw [hg]; exact List.mem_cons_self
    rw [hI.dev l (hI.ref_pos_of_ref hmem)] at hf
    rw [hg] at hmem
    obtain ⟨hK, i, hI'⟩ := hI.ialloc_step hg rfl hmem rfl hino htype hf
    refine ⟨hK, _, _, hI', Wp.bind (ilock_spec (r := ⟨k, i, some type⟩) rfl (.refl _)
      (fun x hx => ?_) fun t _ ht => ?_)⟩
    · rw [List.mem_singleton.mp hx]
      exact ⟨⟨l, j, some .dir⟩, by simp, rfl, rfl, List.mem_cons_self⟩
    obtain rfl := ht _ rfl
    refine .bind (iupdateWith_spec List.mem_cons_self (fun d => ⟨rfl, rfl, rfl⟩) ?_)
    have hend := createEntry_spec (K := K) (A := A) (B := B) (p := p) hsb l j name
      (hsome k i t fun h => by rw [h]; decide)
    split
    · refine .bind (iupdateWith_spec (by simp) (fun d => ⟨rfl, rfl, rfl⟩) ?_)
      exact .bind (createDots_spec hsb hend)
    · exact hend
  · refine .bind (iunlockput_spec (r := ⟨l, j, some .dir⟩) rfl (List.Perm.swap _ _ _) rfl
      (.refl _) rfl (wf_free rfl rfl rfl rfl) ?_)
    refine .bind (ilock_spec (r := ⟨k, i, none⟩) rfl (.refl _) (owed_nil rfl _)
      fun t _ _ => ?_)
    refine .bind (typeOf_spec (r := ⟨k, i, some t⟩) List.mem_cons_self rfl List.mem_cons_self ?_)
    split
    next h => exact .ret (hsome k i t fun _ => by rw [h.2]; decide)
    next =>
      exact .bind (iunlockput_spec (r := ⟨k, i, some t⟩) rfl (.refl _) rfl
        (.refl _) rfl (wf_free rfl rfl rfl rfl) (.ret hnone))

theorem sysCreate_spec (hsb : V → sb.WF) (hino : B → sb.ninodes ≤ 2 ^ 16) (arg : Option Str)
    {type : FType} (major minor : Int16) (htype : type ≠ .free) :
    CallSpec sb K V A B p (sysCreate sb p arg type major minor) Ghost.start := by
  refine .bind (beginOp_spec ?_)
  cases arg with
  | none => exact endOp_done
  | some path =>
    refine .bind (create_spec hsb hino htype endOp_done fun k i t _ => ?_)
    exact .bind (iunlockput_spec (r := ⟨k, i, some t⟩) rfl (.refl _) rfl
      (.refl _) rfl (wf_free rfl rfl rfl rfl) endOp_done)

end Create

/-! ## Opening -/

section Open

variable {f : ℕ} {g : Ghost P}

theorem openFile_spec {Q : Unit → Ghost P → Prop} (hfr : g.fresh = [f]) (hvia : g.via = none)
    (hnf : g.freeing = none) {r : Ref} {rs : List Ref} {t : FType} (hrs : g.refs.Perm (r :: rs))
    (ht : r.type = some t) {omode : ℕ} (hdir : omode ≠ O_RDONLY → t ≠ .dir)
    (hwf : ({ g with refs := rs, fresh := [] } : Ghost P).WF)
    (h : Q () { g with refs := rs, fresh := [] }) :
    Spec sb K V A B p (act (openFile f r.slot omode)) Q g := by
  have hnil : g.fresh.filter (· ≠ f) = [] := by rw [hfr]; simp
  refine Spec.to _ fun s w γ hg hI a s' hf => ⟨?_, h⟩
  rw [← hnil] at hwf ⊢
  exact hI.open_step hg (by rw [hfr]; exact List.mem_cons_self) hvia hnf hrs ht hdir hwf hf

theorem openInode_spec {Q : Option ℕ → Ghost P → Prop} (hsb : V → sb.WF)
    (hino : B → sb.ninodes ≤ 2 ^ 16) {path : Str} {omode : ℕ} (hnone : Q none Ghost.start)
    (hsome : ∀ k i t, (omode ≠ O_RDONLY → t ≠ .dir) →
      Q (some k) (having [⟨k, i, some t⟩] [(k, true)])) :
    Spec sb K V A B p (openInode sb p path omode) Q Ghost.start := by
  unfold openInode
  split
  · exact create_spec hsb hino (by decide) hnone fun k i t ht => hsome k i t fun _ => ht rfl
  · refine .bind (namei_spec rfl rfl rfl (wf_free rfl rfl rfl rfl) rfl (.ret hnone) fun r => ?_)
    refine .bind (ilock_spec rfl (.refl _) (owed_nil rfl _) fun t _ _ => ?_)
    refine .bind (typeOf_spec (r := ⟨r.slot, r.inum, some t⟩) List.mem_cons_self rfl
      List.mem_cons_self ?_)
    split
    · exact .bind (iunlockput_spec (r := ⟨r.slot, r.inum, some t⟩) rfl (.refl _) rfl
        (.refl _) rfl (wf_free rfl rfl rfl rfl) (.ret hnone))
    next h =>
      exact .ret (hsome r.slot r.inum t fun ho ht => h ⟨ht, ho⟩)

theorem sysOpen_spec (hsb : V → sb.WF) (hino : B → sb.ninodes ≤ 2 ^ 16) (arg : Option (Str × ℕ)) :
    CallSpec sb K V A B p (sysOpen sb p arg) Ghost.start := by
  cases arg with
  | none => exact Spec.done
  | some arg =>
    refine .bind (beginOp_spec ?_)
    refine .bind (openInode_spec hsb hino endOp_done fun k i t ht => ?_)
    have hbad : CallSpec sb K V A B p (do
        iunlockput sb p k
        endOp
        return .int (-1)) (having [⟨k, i, some t⟩] [(k, true)]) :=
      .bind (iunlockput_spec (r := ⟨k, i, some t⟩) rfl (.refl _) rfl
        (.refl _) rfl (wf_free rfl rfl rfl rfl) endOp_done)
    refine .bind (filealloc_spec rfl hbad fun f _ => ?_)
    have hlocks : ∀ y ∈ [(k, true)], ∃ r ∈ [(⟨k, i, some t⟩ : Ref)], r.slot = y.1 := by simp
    refine .bind (fdalloc_spec rfl (.refl _) hlocks rfl rfl ?_ fun fd => ?_)
    · exact .bind (fileclose_spec rfl rfl (.inr List.mem_cons_self) (fun _ _ _ _ _ =>
        GivesUp.of_files [] (.refl _) (fun _ h => by cases h) rfl
          (wf_lock ⟨k, i, some t⟩ [] true)) hbad)
    · refine .bind (iunlock_spec rfl (.refl _) rfl (.bind (endOp_spec ?_)))
      refine .weaken (weak_via rfl fun x hx => by cases hx) ?_
      exact .bind (openFile_spec (r := ⟨k, i, some t⟩) rfl rfl rfl (.refl _) rfl ht
        (wf_free rfl rfl rfl rfl) Spec.done)

end Open

end Xv6.Fs
