import Xv6.Fs.Logic

/-!
# System calls on open files

Specifications of `file.c` and of the system calls that work on descriptors. A call starts with the
ghost `Ghost.start` and ends with `Ghost.idle`: it has nothing in hand, so every reference it took
is dropped or stored in a descriptor.

1. `filealloc`, `fdalloc` and `fileclose`: references to files.
2. The file of a descriptor stays open while the call uses it (`Via`), and so does its inode.
3. `sys_read`, `sys_write`, `sys_fstat`, `sys_lseek`, `sys_dup`, `sys_close` and `sys_pipe`.
-/

namespace Xv6.Fs

open Conc StateExcept Function

variable {P : Type} [DecidableEq P] [Fintype P] {sb : Superblock} {K : Set ℕ} {V A B : Prop} {p : P}

abbrev having (rs : List Ref) (ls : List (ℕ × Bool)) : Ghost P :=
  { Ghost.start with refs := rs, locks := ls }

omit [DecidableEq P] [Fintype P] in
theorem wf_free {g : Ghost P} (hrun : g.run = true) (hlocks : g.locks = [])
    (hedges : g.edges = []) (hnf : g.freeing = none) : g.WF where
  quiet h := by rw [hrun] at h; cases h
  staked x hx := by rw [hlocks] at hx; cases hx
  nodup := by rw [hlocks]; exact List.nodup_nil
  freeing k hk := by rw [hnf] at hk; cases hk
  sourced e he := by rw [hedges] at he; cases he

omit [DecidableEq P] [Fintype P] in
theorem wf_lock (r : Ref) (rs : List Ref) (b : Bool) :
    (having (r :: rs) [(r.slot, b)] : Ghost P).WF where
  quiet h := by cases h
  staked x hx := by
    rw [List.mem_singleton.mp hx]
    exact .inl ⟨r, List.mem_cons_self, rfl⟩
  nodup := List.nodup_singleton _
  freeing _ h := by cases h
  sourced _ h := by cases h

abbrev CallSpec (sb : Superblock) (K : Set ℕ) (V A B : Prop) (p : P) (m : Task P Ret)
    (g : Ghost P) : Prop :=
  Spec sb K V A B p m (fun _ g => g = Ghost.idle) g

theorem endOp_done {r : Ret} : CallSpec sb K V A B p (do endOp; return r) Ghost.start :=
  .bind (endOp_spec Spec.done)

/-! ## Open files -/

section Files

variable {f : ℕ} {g g' : Ghost P}

variable {fs : List ℕ}

omit [DecidableEq P] [Fintype P] in
theorem GivesUp.of_files {s : Kernel P} (fr : List ℕ) (hfs : g.files.Perm (f :: fs))
    (hfr : ∀ x ∈ fr, x ∈ g.fresh ∧ x ≠ f) (hout : g.fdOut = none)
    (hwf : ({ g with files := fs, fresh := fr, via := none } : Ghost P).WF) :
    GivesUp s p f g { g with files := fs, fresh := fr, via := none } where
  ghost := rfl
  wf := hwf
  fds f' := by
    have hc := hfs.count_eq f'
    rw [List.count_cons] at hc
    unfold fdCount
    dsimp only
    rw [hc]
    by_cases h : f' = f
    · subst h
      simp [Nat.add_assoc]
    · rw [if_neg h, if_neg (by simpa using fun h' => h h'.symm), Nat.add_zero, Nat.add_zero]
  out x hx := by
    dsimp only at hx
    rw [hout] at hx
    cases hx
  fresh := hfr

omit [DecidableEq P] in
theorem GInv.fresh_count {s : Kernel P} {w : Births} {γ : P → Ghost P} (hI : GInv sb K V A B s w γ)
    (hf : f ∈ (γ p).fresh) : (γ p).files.count f ≤ 1 := by
  have hone := ((hI.loc p).fresh f hf).1
  have hle := Account.le_sum (f := fun p => fdCount (s.proc p) (γ p) f) (Finset.mem_univ p)
  rw [hI.fcount] at hone
  unfold fileCount at hone
  unfold fdCount at hle hone
  omega

theorem filealloc_spec {Q : Option ℕ → Ghost P → Prop} (hrun : g.run = true) (hnone : Q none g)
    (hsome : ∀ f, f ∉ g.files →
      Q (some f) { g with files := f :: g.files, fresh := f :: g.fresh }) :
    Spec sb K V A B p (act filealloc) Q g := by
  refine .lift fun s w γ hg hI x s' hf => ?_
  obtain ⟨hK, hI'⟩ := hI.filealloc_step hg hrun hf
  refine ⟨hK, w, ?_⟩
  cases x with
  | none =>
    obtain rfl : s' = s := hI'
    exact ⟨g, by rwa [← hg, update_eq_self], hnone⟩
  | some f =>
    refine ⟨_, hI', hsome f fun hmem => ?_⟩
    have hone := hI'.fresh_count (p := p) (f := f) (by
      rw [update_self]
      exact List.mem_cons_self)
    rw [update_self, List.count_cons_self] at hone
    have := List.count_pos_iff.mpr hmem
    omega

theorem fdalloc_spec {Q : Option ℕ → Ghost P → Prop} (hrun : g.run = true)
    (hfs : g.files.Perm (f :: fs)) (hlocks : ∀ y ∈ g.locks, ∃ r ∈ g.refs, r.slot = y.1)
    (hout : g.fdOut = none) (hshut : g.shut = []) (hnone : Q none g)
    (hsome : ∀ fd, Q (some fd) { g with files := fs, via := some ⟨fd, f, none, false⟩ }) :
    Spec sb K V A B p (act (fdalloc p f)) Q g := by
  refine .lift fun s w γ hg hI x s' hf => ?_
  obtain ⟨hK, hI'⟩ := hI.fdalloc_step hg hrun hfs hlocks hout hshut hf
  refine ⟨hK, w, ?_⟩
  cases x with
  | none =>
    obtain rfl : s' = s := hI'
    exact ⟨g, by rwa [← hg, update_eq_self], hnone⟩
  | some fd => exact ⟨_, hI', hsome fd⟩

variable {Q : Unit → Ghost P → Prop}

theorem pipeFile_spec (hrun : g.run = true) (hf : f ∈ g.fresh)
    (hvia : g.via = none) (hnf : g.freeing = none) {rd wr : Bool} {fr : List ℕ}
    (hfr : g.fresh.filter (· ≠ f) = fr) (h : Q () { g with fresh := fr }) :
    Spec sb K V A B p (act fun s => .ok ((), s.setFile f
      { s.ftable f with type := .pipe, readable := rd, writable := wr })) Q g := by
  subst hfr
  refine Spec.to _ fun s w γ hg hI a s' hs => ⟨?_, h⟩
  cases hs
  exact hI.pipe_step hg hrun hf hvia hnf rd wr

omit [DecidableEq P] [Fintype P] in
theorem filecloseRef_file {s s' : Kernel P} {ff : File}
    (h : filecloseRef f s = .ok (some ff, s')) : ff = s.ftable f := by
  unfold filecloseRef at h
  split at h
  · cases h
  split at h
  · cases h
  · cases h
    rfl

/-- **`fileclose`.** It takes a reference to a file. A process with locks closes only a file that it
has just allocated, which has no inode to drop. -/
theorem fileclose_spec (hrun : g.run = true) (hnf : g.freeing = none)
    (hlocks : g.locks = [] ∨ f ∈ g.fresh)
    (hup : ∀ s w γ, γ p = g → GInv sb K V A B s w γ → GivesUp s p f g g') (h : Q () g') :
    Spec sb K V A B p (fileclose sb f) Q g := by
  refine .bind (.lift fun s w γ hg hI x s' hf => ?_)
  have hup := hup s w γ hg hI
  obtain ⟨hK, hI'⟩ := hI.close_step hg hrun hup hf
  refine ⟨hK, w, ?_⟩
  cases x with
  | none => exact ⟨g', hI', Wp.ret h⟩
  | some ff =>
    dsimp only at hI'
    dsimp only
    split
    next k ht hk =>
      rw [ht, hk] at hI'
      obtain ⟨i, t, hI''⟩ := hI'
      have hrun' : g'.run = true := by rw [hup.ghost]; exact hrun
      have hnf' : g'.freeing = none := by rw [hup.ghost]; exact hnf
      have hlocks' : g'.locks = [] := by
        rw [hup.ghost]
        refine hlocks.resolve_right fun hfresh => ?_
        rw [filecloseRef_file hf, ((hI.loc p).fresh f (by rw [hg]; exact hfresh)).2.1] at ht
        cases ht
      exact ⟨_, hI'', Wp.bind (beginOp_spec (.bind (iput_spec (r := ⟨k, i, some t⟩) hrun'
        (.refl _) hnf' hlocks' hup.wf (endOp_spec h))))⟩
    next ht hk =>
      rw [ht, hk] at hI'
      exact ⟨g', hI', Spec.fail⟩
    next hne _ =>
      split at hI'
      next k ht hk => exact absurd hk (hne k ht)
      next => exact ⟨g', hI', Wp.ret h⟩

theorem closeFile_spec (hrun : g.run = true) (hfs : g.files.Perm (f :: fs)) (hlocks : g.locks = [])
    (hedges : g.edges = []) (hnf : g.freeing = none) (hout : g.fdOut = none)
    (h : Q () { g with files := fs, fresh := [], via := none }) :
    Spec sb K V A B p (fileclose sb f) Q g :=
  fileclose_spec hrun hnf (.inl hlocks) (fun _ _ _ _ _ =>
    GivesUp.of_files [] hfs (fun _ hx => by cases hx) hout (wf_free hrun hlocks hedges hnf)) h

theorem pipeBad_spec {rf wf : ℕ} (fr : List ℕ) (hfs : fs.Perm [rf, wf]) :
    CallSpec sb K V A B p (do
      fileclose sb rf
      fileclose sb wf
      return .int (-1)) { Ghost.start with files := fs, fresh := fr } := by
  refine .bind (closeFile_spec rfl hfs rfl rfl rfl rfl ?_)
  exact .bind (closeFile_spec rfl (.refl _) rfl rfl rfl rfl Spec.done)

theorem sysPipe_spec (mem : Bool) : CallSpec sb K V A B p (sysPipe sb p mem) Ghost.start := by
  refine .bind (filealloc_spec rfl Spec.done fun rf _ => ?_)
  refine .bind (filealloc_spec rfl ?_ fun wf hwf => ?_)
  · exact .bind (closeFile_spec rfl (.refl _) rfl rfl rfl rfl Spec.done)
  have hne : wf ≠ rf := fun h => hwf (by rw [h]; exact List.mem_cons_self)
  have hfr : [wf, rf].filter (· ≠ rf) = [wf] := by simp [hne]
  have hfr' : [wf].filter (· ≠ wf) = [] := by simp
  cases mem with
  | false => exact pipeBad_spec [wf, rf] (List.Perm.swap _ _ _)
  | true =>
    refine .bind (pipeFile_spec rfl (by simp) rfl rfl hfr ?_)
    refine .bind (pipeFile_spec rfl List.mem_cons_self rfl rfl hfr' ?_)
    have hlocks : ∀ y ∈ ([] : List (ℕ × Bool)), ∃ r ∈ ([] : List Ref), r.slot = y.1 := by simp
    refine .bind (fdalloc_spec rfl (List.Perm.swap rf wf []) hlocks rfl rfl ?_
      fun fd => ?_)
    · exact pipeBad_spec [] (List.Perm.swap _ _ _)
    · refine .bind (fdalloc_spec rfl (List.Perm.refl [wf]) hlocks rfl rfl ?_
        fun fd' => ?_)
      · refine .bind (Spec.to { Ghost.start with files := [rf, wf] } fun s w γ hg hI a s' hf =>
          ⟨hI.unfd_step hg rfl rfl rfl rfl (wf_free rfl rfl rfl rfl) hf, ?_⟩)
        exact pipeBad_spec [] (.refl _)
      · exact .weaken (weak_via rfl fun x hx => by cases hx) Spec.done

end Files

/-! ## Descriptors in use -/

section Descriptors

variable {g : Ghost P} {k f fd n : ℕ} {x : Via}

abbrev onFile (x : Via) (ls : List (ℕ × Bool)) : Ghost P :=
  { Ghost.start with via := some x, locks := ls }

theorem Spec.done_via {r : Ret} : CallSpec sb K V A B p (pure r) (onFile x []) :=
  .weaken (weak_via rfl fun y hy => by cases hy) Spec.done

theorem argfd_spec {Q : Option ℕ → Ghost P → Prop} (hrun : g.run = true) (hvia : g.via = none)
    (hout : g.fdOut = none) (hnone : Q none g)
    (hsome : ∀ f, Q (some f) { g with via := some ⟨fd, f, none, false⟩ }) :
    Spec sb K V A B p (act (argfd p fd)) Q g := by
  refine .lift fun s w γ hg hI x s' hf => ?_
  obtain ⟨hx, rfl⟩ := Prod.mk.inj (Except.ok.inj hf)
  refine ⟨Kept.refl s, w, ?_⟩
  cases x with
  | none => exact ⟨g, by rwa [← hg, update_eq_self], hnone⟩
  | some f =>
    split at hx
    next hfd => exact ⟨_, hI.see_fd hg hrun hvia hout hfd hx, hsome f⟩
    next => cases hx

def File.entry (fl : File) : Option ℕ := if fl.type = .inode then fl.ip else none

theorem seeFile_spec {Q : File → Ghost P → Prop}
    (h : ∀ fl, Q fl (onFile ⟨fd, f, fl.entry, fl.writable⟩ [])) :
    Spec sb K V A B p (act fun s => .ok (s.ftable f, s)) Q (onFile ⟨fd, f, none, false⟩ []) := by
  refine .lift fun s w γ hg hI fl s' hf => ?_
  cases hf
  exact ⟨Kept.refl s, w, _, hI.see_file hg rfl rfl rfl, h _⟩

variable {Q : Unit → Ghost P → Prop}

theorem ilock_onFile_spec (hk : x.ip = some k)
    (h : Q () (onFile x [(k, true)])) : Spec sb K V A B p (ilock k) Q (onFile x []) :=
  ilock_via_spec rfl rfl rfl hk h

theorem iunlock_onFile_spec (h : Q () (onFile x [])) :
    Spec sb K V A B p (iunlock p k) Q (onFile x [(k, true)]) :=
  iunlock_spec rfl (.refl _) rfl h

theorem consoleWait_onFile_spec (hk : x.ip = some k)
    (h : Q () (onFile x [(k, true)])) : Spec sb K V A B p (consoleWait p k) Q
    (onFile x [(k, true)]) :=
  .bind (iunlock_onFile_spec (ilock_onFile_spec hk h))

omit [DecidableEq P] in
theorem advance_step {s s' : Kernel P} {w : Births} {γ : P → Ghost P} (hI : GInv sb K V A B s w γ)
    {u : Unit} (h : advance f n s = .ok (u, s')) : Kept V s s' ∧ GInv sb K V A B s' w γ := by
  cases h
  exact hI.off_step _

theorem advance_spec (h : Q () g) : Spec sb K V A B p (act (advance f n)) Q g := by
  refine Spec.same fun s w γ hg hI a s' hf => ?_
  obtain ⟨hK, hI'⟩ := advance_step hI hf
  exact ⟨hK, hI', h⟩

omit [DecidableEq P] in
theorem GInv.readi_step {s s' : Kernel P} {w : Births} {γ : P → Ghost P}
    (hI : GInv sb K V A B s w γ) (hk : (k, true) ∈ (γ p).locks) {off : ℕ} {r : Option (List UInt8)}
    (h : onInode k (readi sb off n) s = .ok (r, s')) :
    Kept V s s' ∧ GInv sb K V A B s' w γ ∧ (V → s' = s) := by
  refine hI.onInode_read hk (readi_along keepsTypes_steps off n) h fun hV t ht => ?_
  rw [readi_eq (hI.noHole hk hV)] at ht
  exact (Prod.mk.inj (Except.ok.inj ht)).2.symm

theorem readAt_spec {Q : Option (List UInt8) → Ghost P → Prop} (hk : (k, true) ∈ g.locks)
    (h : ∀ r, Q r g) : Spec sb K V A B p (act (readAt sb f k n)) Q g := by
  refine Spec.same fun s w γ hg hI r s' hf => ?_
  subst hg
  unfold readAt at hf
  rw [get_bind] at hf
  obtain ⟨r', s1, hr, hrest⟩ := bind_ok.mp hf
  obtain ⟨hK, hI1, -⟩ := hI.readi_step hk hr
  cases r' with
  | some bs =>
    obtain ⟨u, s2, ha, hret⟩ := bind_ok.mp hrest
    obtain ⟨-, rfl⟩ := pure_ok hret
    obtain ⟨-, hI'⟩ := advance_step hI1 ha
    cases ha
    exact ⟨⟨hK.entry, hK.inode⟩, hI', h r⟩
  | none =>
    obtain ⟨-, rfl⟩ := pure_ok hrest
    exact ⟨hK, hI1, h r⟩

variable {src : List UInt8}

theorem writeAt_spec {Q : Option ℕ → Ghost P → Prop} (hsb : V → sb.WF) (hk : (k, true) ∈ g.locks)
    (hvia : g.via = some x) (hip : x.ip = some k) (hw : x.writable = true)
    (h : ∀ r, Q r g) : Spec sb K V A B p (act (writeAt sb f k src)) Q g := by
  refine Spec.same fun s w γ hg hI r s' hf => ?_
  subst hg
  unfold writeAt at hf
  rw [get_bind] at hf
  obtain ⟨r', s1, hr, hrest⟩ := bind_ok.mp hf
  obtain ⟨-, -, -, hwr, hfile⟩ := (hI.loc p).via x hvia
  obtain ⟨ht, hi⟩ := hfile k hip
  obtain ⟨-, -, -, hd⟩ := hI.loaded hk
  obtain ⟨hK, hI1⟩ := hI.writei_step hk hsb
    (fun _ => by rw [hd.type]; exact (hI.file x.f k ht hi).2 (hwr hw)) hr
  cases r' with
  | some m =>
    obtain ⟨u, s2, ha, hret⟩ := bind_ok.mp hrest
    obtain ⟨-, rfl⟩ := pure_ok hret
    obtain ⟨-, hI'⟩ := advance_step hI1 ha
    cases ha
    exact ⟨⟨hK.entry, hK.inode⟩, hI', h r⟩
  | none =>
    obtain ⟨-, rfl⟩ := pure_ok hrest
    exact ⟨hK, hI1, h r⟩

theorem filestat_spec : CallSpec sb K V A B p (filestat p f) (onFile ⟨fd, f, none, false⟩ []) := by
  refine .bind (seeFile_spec fun fl => ?_)
  split
  next k ht hk =>
    refine .bind (ilock_onFile_spec (by unfold File.entry; rw [ht, hk]; rfl) ?_)
    refine .bind (Spec.read fun s w γ hg hI a s' hf => ?_)
    cases hf
    exact ⟨rfl, Wp.bind (iunlock_onFile_spec Spec.done_via)⟩
  next => exact Spec.fail
  next => exact Spec.done_via

variable {piped : Ret}

theorem fileread_spec {con : Option (List UInt8)} :
    CallSpec sb K V A B p (fileread sb p f n piped con) (onFile ⟨fd, f, none, false⟩ []) := by
  refine .bind (seeFile_spec fun fl => ?_)
  split
  · exact Spec.done_via
  split
  next => exact Spec.done_via
  next k ht hk =>
    have hip : fl.entry = some k := by unfold File.entry; rw [ht, hk]; rfl
    refine .bind (ilock_onFile_spec hip ?_)
    refine .bind (Spec.read fun s w γ hg hI d s' hf => ?_)
    cases hf
    refine ⟨rfl, ?_⟩
    have hend : ∀ r : Ret, CallSpec sb K V A B p (do iunlock p k; return r)
        (onFile ⟨fd, f, fl.entry, fl.writable⟩ [(k, true)]) := fun r =>
      Wp.bind (iunlock_onFile_spec Spec.done_via)
    split
    · split
      · refine .bind (consoleWait_onFile_spec hip ?_)
        exact .bind (advance_spec (hend _))
      · exact hend _
    · exact .bind (readAt_spec List.mem_cons_self fun r => hend _)
  next => exact Spec.fail
  next => exact Spec.fail


theorem filewriteLoop_spec {Q : Bool → Ghost P → Prop} (hsb : V → sb.WF) (hip : x.ip = some k)
    (hw : x.writable = true) (h : ∀ b, Q b (onFile x [])) (fuel : ℕ) (src : List UInt8) :
    Spec sb K V A B p (filewriteLoop sb p f k fuel src) Q (onFile x []) := by
  induction fuel generalizing src with
  | zero => exact .ret (h _)
  | succ fuel ih =>
    unfold filewriteLoop
    split
    · exact .ret (h _)
    refine .bind (beginOp_spec (.bind (ilock_onFile_spec hip ?_)))
    refine .bind (Spec.read fun s w γ hg hI d s' hf => ?_)
    cases hf
    refine ⟨rfl, ?_⟩
    have hend : ∀ t, Spec sb K V A B p t Q (onFile x []) →
        Spec sb K V A B p (do iunlock p k; endOp; t) Q (onFile x [(k, true)]) := fun t ht =>
      Wp.bind (iunlock_onFile_spec (.bind (endOp_spec ht)))
    have hmore : ∀ n, Spec sb K V A B p (if n ≠ (src.take maxChunk).length then fail .shortFilewrite
        else filewriteLoop sb p f k fuel (src.drop (src.take maxChunk).length)) Q
        (onFile x []) := by
      intro n
      split
      · exact Spec.fail
      · exact ih _
    split
    · split
      · refine .bind (consoleWait_onFile_spec hip ?_)
        exact .bind (advance_spec (hend _ (hmore _)))
      · exact hend _ (.ret (h false))
    · refine .bind (writeAt_spec hsb List.mem_cons_self rfl hip hw fun r => hend _ ?_)
      cases r with
      | none => exact .ret (h false)
      | some n => exact hmore n

theorem filewrite_spec (hsb : V → sb.WF) :
    CallSpec sb K V A B p (filewrite sb p f src piped) (onFile ⟨fd, f, none, false⟩ []) := by
  refine .bind (seeFile_spec fun fl => ?_)
  split
  · exact Spec.done_via
  next hw =>
  split
  next => exact Spec.done_via
  next k ht hk =>
    have hip : fl.entry = some k := by unfold File.entry; rw [ht, hk]; rfl
    exact .bind (filewriteLoop_spec hsb hip (by simpa using hw) (fun b => Spec.done_via) _ _)
  next => exact Spec.fail
  next => exact Spec.fail

theorem filelseek_spec {offset : ℕ} {whence : ℤ} :
    CallSpec sb K V A B p (act (filelseek f offset whence)) (onFile x []) := by
  refine .lift fun s w γ hg hI r s' hf => ?_
  have key : Kept V s s' ∧ GInv sb K V A B s' w γ := by
    unfold filelseek at hf
    split at hf
    · cases hf
    dsimp only at hf
    split_ifs at hf
    all_goals
      cases hf
    · exact ⟨Kept.refl s, hI⟩
    · exact hI.off_step _
    · exact hI.off_step _
    · exact hI.off_step _
    · exact ⟨Kept.refl s, hI⟩
  have hend : CallSpec sb K V A B p (pure r) (onFile x []) := Spec.done_via
  obtain ⟨g', hweak, hg'⟩ := hend
  exact ⟨key.1, w, g', hweak s' w γ hg key.2, hg'⟩

theorem descriptor_spec {m : ℕ → Task P Ret}
    (h : ∀ f, CallSpec sb K V A B p (m f) (onFile ⟨fd, f, none, false⟩ [])) :
    CallSpec sb K V A B p (do
      match ← act (argfd p fd) with
      | none => return .int (-1)
      | some f => m f) Ghost.start :=
  .bind (argfd_spec rfl rfl rfl Spec.done fun f => h f)

theorem sysRead_spec {con : Option (List UInt8)} :
    CallSpec sb K V A B p (sysRead sb p fd n piped con) Ghost.start :=
  descriptor_spec fun _ => fileread_spec

theorem sysWrite_spec (hsb : V → sb.WF) :
    CallSpec sb K V A B p (sysWrite sb p fd src piped) Ghost.start :=
  descriptor_spec fun _ => filewrite_spec hsb

theorem sysFstat_spec : CallSpec sb K V A B p (sysFstat p fd) Ghost.start :=
  descriptor_spec fun _ => filestat_spec

theorem sysLseek_spec {offset : ℕ} {whence : ℤ} :
    CallSpec sb K V A B p (sysLseek p fd offset whence) Ghost.start :=
  descriptor_spec fun _ => filelseek_spec

theorem sysClose_spec : CallSpec sb K V A B p (sysClose sb p fd) Ghost.start := by
  refine descriptor_spec fun f => ?_
  refine .bind (Spec.to { Ghost.start with files := [f] } fun s w γ hg hI a s' hf =>
    ⟨hI.unfd_step hg rfl rfl rfl rfl (wf_free rfl rfl rfl rfl) hf, ?_⟩)
  exact .bind (closeFile_spec rfl (.refl _) rfl rfl rfl rfl Spec.done)

theorem sysDup_spec : CallSpec sb K V A B p (sysDup p fd) Ghost.start := by
  refine descriptor_spec fun f => ?_
  refine .bind (.lift fun s w γ hg hI x s' hf => ?_)
  obtain ⟨hK, hI'⟩ := hI.fdalloc_dup_step hg rfl rfl rfl hf
  refine ⟨hK, w, ?_⟩
  cases x with
  | none =>
    obtain rfl : s' = s := hI'
    exact ⟨γ p, by rwa [update_eq_self], by rw [hg]; exact Spec.done_via⟩
  | some fd' =>
    exact ⟨_, hI', Wp.bind (Spec.to _ fun s w γ hg hI a s' hf =>
      ⟨hI.filedup_step hg rfl rfl rfl rfl hf, Spec.done_via⟩)⟩

end Descriptors

end Xv6.Fs
