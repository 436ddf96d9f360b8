import Xv6.Fs.GhostFile

/-!
# Steps on processes

The invariant is kept by the steps that change a process: references to files move between local
variables and descriptors, references to cache entries between local variables and current
directories, and `fork` builds a child from the descriptors of its parent.
-/

namespace Xv6.Fs

open Function Finset Account

variable {P : Type} [DecidableEq P] [Fintype P] {sb : Superblock} {K : Set ℕ} {V A B : Prop}
  {s s' : Kernel P} {w : Births} {γ : P → Ghost P} {p q : P} {k f fd : ℕ} {g g' : Ghost P}

/-! ## The general step -/

omit [DecidableEq P] [Fintype P] in
theorem Ghost.WF.idle : (Ghost.idle : Ghost P).WF where
  quiet _ := rfl
  staked _ h := by cases h
  nodup := List.nodup_nil
  freeing _ h := by cases h
  sourced _ h := by cases h

omit [DecidableEq P] [Fintype P] in
theorem Local.idle {c : P} (hl : (s.proc c).leaving = false) :
    Local B s w c (Ghost.idle : Ghost P) where
  wf := Ghost.WF.idle
  run h := by cases h
  left := hl
  inum _ h := by cases h
  conf _ h := by cases h
  held _ h := by cases h
  via _ h := by cases h
  out _ h := by cases h
  fresh _ h := by cases h
  child _ _ _ h := by cases h
  shut _ h := by cases h
  noCwd h := by cases h
  edge _ _ h := by cases h

structure ProcStep (A : Prop) (s : Kernel P) (γ : P → Ghost P) (p c : P) (pr : Proc)
    (g' : Ghost P) : Prop where
  locks : g'.locks = (γ p).locks
  freeing : g'.freeing = (γ p).freeing
  slots : ∀ k, cwdRef pr k + (g'.refs.map Ref.slot).count k =
    cwdRef (s.proc c) k + ((γ p).refs.map Ref.slot).count k
  unused : pr.state = .unused → (∀ fd, pr.ofile fd = none) ∧ pr.cwd = none
  obound : ∀ fd, NOFILE ≤ fd → pr.ofile fd = none
  child : ∀ x, g'.child = some x → (γ p).child = some x ∨ x.1 = c ∧ c ≠ p
  others : ∀ q, q ≠ p → ∀ x, (γ q).child ≠ some (c, x)
  cwd : A → ∀ k, pr.cwd = some k → pr.leaving = false →
    (s.vol.dinode (s.icache k).inum).type ≠ .free
  alone : ∀ k, pr.cwd = some k → pr.leaving = false → ∀ q, (γ q).freeing ≠ some k
  conf : ∀ r ∈ g'.refs, r.type ≠ none → ∀ q, q ≠ p → (γ q).freeing ≠ some r.slot

variable {c : P} {pr : Proc}

omit [Fintype P] in
theorem setProc_same : (s.setProc c pr).proc c = pr := by
  rw [setProc_proc, update_self]

omit [Fintype P] in
theorem setProc_of_ne (h : q ≠ c) : (s.setProc c pr).proc q = s.proc q := by
  rw [setProc_proc, update_of_ne h]

theorem ProcStep.global (h : ProcStep A s γ p c pr g') (hI : GInv sb K V A B s w γ)
    (hcount : ∀ k, refCount (s.setProc c pr) (update γ p g') k = refCount s γ k)
    (hfcount : ∀ f, fileCount (s.setProc c pr) (update γ p g') f = fileCount s γ f) :
    Global sb K V A B (s.setProc c pr) w (update γ p g') :=
  { hI.toGlobal with
    count := fun l => by rw [hcount]; exact hI.count l
    lock := fun l q hq => by
      rw [Lts.update_field Ghost.locks h.locks]
      exact hI.lock l q hq
    fcount := fun x => by rw [hfcount]; exact hI.fcount x
    unused := fun q hq => by
      by_cases hqc : q = c
      · subst hqc
        rw [setProc_same] at hq ⊢
        exact h.unused hq
      · rw [setProc_of_ne hqc] at hq ⊢
        exact hI.unused q hq
    obound := fun q => by
      by_cases hqc : q = c
      · subst hqc
        rw [setProc_same]
        exact h.obound
      · rw [setProc_of_ne hqc]
        exact hI.obound q
    oneParent := by
      intro a b d x y ha hb
      by_cases hap : a = p <;> by_cases hbp : b = p
      · rw [hap, hbp]
      · subst hap
        rw [update_self] at ha
        rw [update_of_ne hbp] at hb
        rcases h.child _ ha with ha | ⟨hd, -⟩
        · exact hI.oneParent a b d x y ha hb
        · exact absurd (hd ▸ hb) (h.others b hbp y)
      · subst hbp
        rw [update_self] at hb
        rw [update_of_ne hap] at ha
        rcases h.child _ hb with hb | ⟨hd, -⟩
        · exact hI.oneParent a b d x y ha hb
        · exact absurd (hd ▸ ha) (h.others a hap x)
      · rw [update_of_ne hap] at ha
        rw [update_of_ne hbp] at hb
        exact hI.oneParent a b d x y ha hb
    cwd := fun hA q l hc hl => by
      by_cases hqc : q = c
      · subst hqc
        rw [setProc_same] at hc hl
        exact h.cwd hA l hc hl
      · rw [setProc_of_ne hqc] at hc hl
        exact hI.cwd hA q l hc hl
    alone := by
      intro q l hq
      rw [Lts.update_field Ghost.freeing h.freeing] at hq
      obtain ⟨h1, h2, h3⟩ := hI.alone q l hq
      refine ⟨fun r hr x hx hxl => ?_, h2, fun r hc => ?_⟩
      · by_cases hrp : r = p
        · subst hrp
          rw [update_self] at hx
          by_contra hne
          exact h.conf x hx hne q hr.symm (by rw [hxl]; exact hq)
        · rw [update_of_ne hrp] at hx
          exact h1 r hr x hx hxl
      · by_cases hrc : r = c
        · subst hrc
          rw [setProc_same] at hc ⊢
          by_contra hne
          exact h.alone l hc (by simpa using hne) q hq
        · rw [setProc_of_ne hrc] at hc ⊢
          exact h3 r hc }

omit [Fintype P] in
theorem ProcStep.frame (h : ProcStep A s γ p c pr g') (hq : q ≠ p) (hqc : q ≠ c) :
    Frame B s (s.setProc c pr) w w q (γ q) where
  proc := setProc_of_ne hqc
  slot _ _ := rfl
  lock _ hl := ⟨hl, id⟩
  file _ _ := ⟨rfl, rfl, rfl, fun _ => rfl⟩
  child _ x hd := setProc_of_ne fun hdc => h.others q hq x (hdc ▸ hd)
  conf _ _ _ _ := rfl
  edge _ _ _ he := he

/-- **Process steps.** A step of `p` on its own record keeps the invariant. -/
theorem GInv.proc_step (hI : GInv sb K V A B s w γ) (h : ProcStep A s γ p p pr g')
    (hfds : ∀ f, fdCount pr g' f = fdCount (s.proc p) (γ p) f)
    (hloc : Local B (s.setProc p pr) w p g') :
    Kept V s (s.setProc p pr) ∧ GInv sb K V A B (s.setProc p pr) w (update γ p g') := by
  refine ⟨Kept.of_vol_eq rfl fun _ _ => ⟨rfl, rfl⟩,
    hI.mk_step (h.global hI (fun k => ?_) fun f => ?_)
    hloc fun q hq => h.frame hq hq⟩
  · have hc := refCount_change s (s.setProc p pr) γ (update γ p g') p k rfl fun r hr => by
        rw [update_of_ne hr, setProc_of_ne hr]
    rw [update_self, setProc_same] at hc
    have := h.slots k
    unfold procRef at hc
    omega
  · have hc := fileCount_change s (s.setProc p pr) γ (update γ p g') p f fun r hr => by
        rw [update_of_ne hr, setProc_of_ne hr]
    rw [update_self, setProc_same, hfds] at hc
    exact Nat.add_right_cancel hc

theorem GInv.child_step (hI : GInv sb K V A B s w γ) (h : ProcStep A s γ p c pr g') (hc : c ≠ p)
    (hidle : γ c = Ghost.idle) (hleave : pr.leaving = false)
    (hfds : ∀ f, fdRef pr none f + fdCount (s.proc p) g' f =
      fdRef (s.proc c) none f + fdCount (s.proc p) (γ p) f)
    (hloc : Local B (s.setProc c pr) w p g') :
    Kept V s (s.setProc c pr) ∧ GInv sb K V A B (s.setProc c pr) w (update γ p g') := by
  have hcγ : update γ p g' c = Ghost.idle := by rw [update_of_ne hc, hidle]
  refine ⟨Kept.of_vol_eq rfl fun _ _ => ⟨rfl, rfl⟩, h.global hI (fun k => ?_) fun f =>
    ?_, fun q => ?_⟩
  · -- first the ghost of `p` changes, then the record of `c`
    have h1 := refCount_change s s γ (update γ p g') p k rfl fun r hr => by
        rw [update_of_ne hr]
    have h2 := refCount_change s (s.setProc c pr) (update γ p g')
      (update γ p g') c k rfl fun r hr => by
        rw [setProc_of_ne hr]
    rw [update_self] at h1
    rw [setProc_same, hcγ] at h2
    have := h.slots k
    unfold procRef at h1 h2
    omega
  · have h1 := fileCount_change s s γ (update γ p g') p f fun r hr => by
        rw [update_of_ne hr]
    have h2 := fileCount_change s (s.setProc c pr) (update γ p g')
      (update γ p g') c f fun r hr => by
        rw [setProc_of_ne hr]
    rw [update_self] at h1
    rw [setProc_same, hcγ] at h2
    have h3 := hfds f
    have h4 : ∀ pr : Proc, fdCount pr (Ghost.idle : Ghost P) f = fdRef pr none f := fun _ => rfl
    rw [h4, h4] at h2
    omega
  · by_cases hqp : q = p
    · subst hqp
      rw [update_self]
      exact hloc
    · rw [update_of_ne hqp]
      by_cases hqc : q = c
      · subst hqc
        rw [hidle]
        exact Local.idle (by rw [setProc_same]; exact hleave)
      · exact (hI.loc q).frame (h.frame hqp hqc) fun r hr => hI.ref_pos_of_ref hr

omit [DecidableEq P] in
theorem GInv.not_child (hI : GInv sb K V A B s w γ) (hrun : (γ p).run = true) (q : P)
    (x : List ℕ × Bool) : (γ q).child ≠ some (p, x) := by
  intro hc
  have h1 := ((hI.loc q).child p x.1 x.2 hc).1
  rw [(hI.loc p).run hrun] at h1
  cases h1

theorem GInv.local_setProc (hI : GInv sb K V A B s w γ) (hrun : (γ p).run = true)
    (hg : g' = { γ p with
      refs := g'.refs
      left := g'.left
      files := g'.files
      fdOut := g'.fdOut
      via := g'.via
      shut := g'.shut
      noCwd := g'.noCwd })
    (hwf : g'.WF) (hstate : pr.state = .running) (hleft : pr.leaving = g'.left)
    (hrefs : ∀ r ∈ g'.refs, (s.icache r.slot).inum = r.inum ∧
      ∀ t, r.type = some t → t ≠ .free ∧ (s.vol.dinode r.inum).type = t)
    (hvia : ∀ x, g'.via = some x → x.fd < NOFILE ∧ pr.ofile x.fd = some x.f ∧
      g'.fdOut.map Prod.fst ≠ some x.fd ∧ (x.writable = true → (s.ftable x.f).writable = true) ∧
      ∀ k, x.ip = some k → (s.ftable x.f).type = .inode ∧ (s.ftable x.f).ip = some k)
    (hout : ∀ x, g'.fdOut = some x → x.1 < NOFILE ∧ pr.ofile x.1 = some x.2)
    (hfds : ∀ f, fdCount pr g' f = fdCount (s.proc p) (γ p) f)
    (hshut : ∀ fd ∈ g'.shut, pr.ofile fd = none) (hcwd : g'.noCwd = true → pr.cwd = none) :
    Local B (s.setProc p pr) w p g' := by
  have hl := hI.loc p
  exact
  { wf := hwf
    run := fun _ => by rw [setProc_same]; exact hstate
    left := by rw [setProc_same]; exact hleft
    inum := fun r hr => (hrefs r hr).1
    conf := fun r hr => (hrefs r hr).2
    held := by rw [hg]; exact hl.held
    via := by rw [setProc_same]; exact hvia
    out := by rw [setProc_same]; exact hout
    fresh := fun f hf => by
      rw [setProc_same, hfds]
      exact hl.fresh f (by rw [hg] at hf; exact hf)
    child := fun q fds c hc => by
      have hc' : (γ p).child = some (q, fds, c) := by rw [hg] at hc; exact hc
      have hne : q ≠ p := by
        rintro rfl
        exact hI.not_child hrun q (fds, c) hc'
      rw [setProc_of_ne hne]
      exact hl.child q fds c hc'
    shut := by rw [setProc_same]; exact hshut
    noCwd := by rw [setProc_same]; exact hcwd
    edge := by rw [hg]; exact hl.edge }

/-! ## Descriptors -/

theorem GInv.see_fd (hI : GInv sb K V A B s w γ) (hg : γ p = g) (hrun : g.run = true)
    (hvia : g.via = none) (hout : g.fdOut = none) (hfd : fd < NOFILE)
    (ho : (s.proc p).ofile fd = some f) :
    GInv sb K V A B s w (update γ p { g with via := some ⟨fd, f, none, false⟩ }) := by
  subst hg
  have hl := hI.loc p
  exact hI.learn rfl rfl rfl rfl rfl (fun _ => rfl) { hl with
    wf := { hl.wf with
      quiet := fun h => by rw [hrun] at h; cases h
      staked := fun x hx => by
        rcases hl.wf.staked x hx with h | ⟨y, hy, -⟩
        · exact .inl h
        · rw [hvia] at hy
          cases hy }
    via := fun x hx => by
      cases hx
      exact ⟨hfd, ho, by simp [hout], fun h => absurd h Bool.false_ne_true,
        fun k hk => absurd hk (by simp)⟩ }

theorem GInv.see_file (hI : GInv sb K V A B s w γ) (hg : γ p = g) (hrun : g.run = true) {x : Via}
    (hvia : g.via = some x) (hip : x.ip = none) :
    GInv sb K V A B s w (update γ p { g with via := some { x with
      ip := if (s.ftable x.f).type = .inode then (s.ftable x.f).ip else none
      writable := (s.ftable x.f).writable } }) := by
  subst hg
  have hl := hI.loc p
  obtain ⟨hfd, ho, hout, -⟩ := hl.via x hvia
  exact hI.learn rfl rfl rfl rfl rfl (fun _ => rfl) { hl with
    wf := { hl.wf with
      quiet := fun h => by rw [hrun] at h; cases h
      staked := fun y hy => by
        rcases hl.wf.staked y hy with h | ⟨z, hz, hk⟩
        · exact .inl h
        · rw [hvia] at hz
          cases hz
          rw [hip] at hk
          cases hk }
    via := fun y hy => by
      cases hy
      refine ⟨hfd, ho, hout, id, fun k hk => ?_⟩
      dsimp only at hk
      split at hk
      next ht => exact ⟨ht, hk⟩
      next => cases hk }

section Descriptors

variable (hI : GInv sb K V A B s w γ) (hrun : (γ p).run = true)

include hI hrun

theorem GInv.fd_step {x : Option ℕ} (hfd : fd < NOFILE)
    (hg : g' = { γ p with
      files := g'.files
      fdOut := g'.fdOut
      via := g'.via
      shut := g'.shut })
    (hwf : g'.WF)
    (hvia : ∀ y, g'.via = some y → ((γ p).via = some y ∧ y.fd ≠ fd ∨
      y = ⟨fd, y.f, none, false⟩ ∧ x = some y.f) ∧ g'.fdOut.map Prod.fst ≠ some y.fd)
    (hout : ∀ y, g'.fdOut = some y → y.1 = fd ∧ x = some y.2)
    (hfds : ∀ f, fdCount ((s.proc p).setFd fd x) g' f = fdCount (s.proc p) (γ p) f)
    (hshut : ∀ y ∈ g'.shut, y ∈ (γ p).shut ∧ y ≠ fd ∨ y = fd ∧ x = none) :
    Kept V s (s.setProc p ((s.proc p).setFd fd x)) ∧
      GInv sb K V A B (s.setProc p ((s.proc p).setFd fd x)) w (update γ p g') := by
  have hl := hI.loc p
  have hstate := hl.run hrun
  have hrefs : g'.refs = (γ p).refs := by rw [hg]
  refine hI.proc_step
    { locks := by rw [hg]
      freeing := by rw [hg]
      slots := fun k => by rw [hrefs]; rfl
      unused := fun h => ?_
      obound := fun y hy => by
        rw [setFd_of_ne (by omega)]
        exact hI.obound p y hy
      child := fun y hy => .inl (by rw [hg] at hy; exact hy)
      others := fun q _ => hI.not_child hrun q
      cwd := fun hA k hc hlv => hI.cwd hA p k hc hlv
      alone := fun k hc hlv q hq => ?_
      conf := fun r hr hne q hq => hI.not_freeing (by rw [← hrefs]; exact hr) hne hq } hfds
    (hI.local_setProc hrun (by rw [hg]) hwf hstate (by rw [hg]; exact hl.left)
      (by rw [hrefs]; exact hl.refs_ok) (fun y hy => ?_) (fun y hy => ?_) hfds (fun y hy => ?_)
      (by rw [hg]; exact hl.noCwd))
  · change (s.proc p).state = .unused at h
    rw [hstate] at h
    cases h
  · have hleft := (hI.alone q k hq).2.2 p hc
    cases hlv.symm.trans hleft
  · obtain ⟨h | ⟨hy', hx⟩, hne⟩ := hvia y hy
    · obtain ⟨h1, h2, -, h4⟩ := hl.via y h.1
      exact ⟨h1, by rw [setFd_of_ne h.2]; exact h2, hne, h4⟩
    · rw [hy'] at hne ⊢
      exact ⟨hfd, by rw [← hx]; exact setFd_same x, hne, fun h => absurd h Bool.false_ne_true,
        fun k hk => absurd hk (by simp)⟩
  · obtain ⟨h1, h2⟩ := hout y hy
    rw [h1]
    exact ⟨hfd, (setFd_same x).trans h2⟩
  · rcases hshut y hy with ⟨h1, h2⟩ | ⟨rfl, h2⟩
    · rw [setFd_of_ne h2]
      exact hl.shut y h1
    · exact (setFd_same x).trans h2

end Descriptors

section

variable (hI : GInv sb K V A B s w γ) (hg : γ p = g) (hrun : g.run = true)

include hI hg hrun

theorem GInv.fdalloc_step {fs : List ℕ} (hfs : g.files.Perm (f :: fs))
    (hlocks : ∀ y ∈ g.locks, ∃ r ∈ g.refs, r.slot = y.1) (hout : g.fdOut = none)
    (hshut : g.shut = []) {x : Option ℕ} (h : fdalloc p f s = .ok (x, s')) :
    Kept V s s' ∧ match x with
      | none => s' = s
      | some fd => GInv sb K V A B s' w (update γ p
          { g with files := fs, via := some ⟨fd, f, none, false⟩ }) := by
  subst hg
  unfold fdalloc at h
  split at h
  swap
  · cases h
    exact ⟨Kept.refl s, rfl⟩
  next fd hfind =>
    cases h
    have hfd := List.mem_range.mp (List.mem_of_find?_eq_some hfind)
    have hnone : (s.proc p).ofile fd = none := by simpa using List.find?_some hfind
    refine hI.fd_step hrun hfd rfl ?_ (fun y hy => ?_) (fun y hy => ?_) (fun f' => ?_)
      fun y hy => ?_
    · exact
      { (hI.loc p).wf with
        quiet := fun h => by rw [hrun] at h; cases h
        staked := fun y hy => .inl (hlocks y hy) }
    · cases hy
      exact ⟨.inr ⟨rfl, rfl⟩, by simp [hout]⟩
    · change (γ p).fdOut = some y at hy
      rw [hout] at hy
      cases hy
    · unfold fdCount
      dsimp only
      rw [hout, Option.map_none, fdRef_open hfd hnone, hfs.count_eq, List.count_cons]
      simp only [beq_iff_eq, eq_comm (a := f)]
      omega
    · change y ∈ (γ p).shut at hy
      rw [hshut] at hy
      cases hy

theorem GInv.fdalloc_dup_step (hout : g.fdOut = none) (hshut : g.shut = []) {x : Option ℕ}
    (h : fdalloc p f s = .ok (x, s')) :
    Kept V s s' ∧ match x with
      | none => s' = s
      | some fd => GInv sb K V A B s' w (update γ p { g with fdOut := some (fd, f) }) := by
  subst hg
  unfold fdalloc at h
  split at h
  swap
  · cases h
    exact ⟨Kept.refl s, rfl⟩
  next fd hfind =>
    cases h
    have hfd := List.mem_range.mp (List.mem_of_find?_eq_some hfind)
    have hnone : (s.proc p).ofile fd = none := by simpa using List.find?_some hfind
    refine hI.fd_step hrun hfd rfl ((hI.loc p).wf.congr hrun rfl rfl rfl rfl rfl) (fun y hy => ?_)
      (fun y hy => ?_)
      (fun f' => ?_) fun y hy => ?_
    · have hne : y.fd ≠ fd := by
        rintro rfl
        obtain ⟨-, ho, -⟩ := (hI.loc p).via y hy
        rw [hnone] at ho
        cases ho
      exact ⟨.inl ⟨hy, hne⟩, by simpa using hne.symm⟩
    · cases hy
      exact ⟨rfl, rfl⟩
    · have h2 := fdRef_out (s.proc p) hfd f'
      rw [hnone] at h2
      simp only [reduceCtorEq, if_false, Nat.add_zero] at h2
      unfold fdCount
      dsimp only
      rw [hout, Option.map_some, Option.map_none, fdRef_setFd, h2]
    · change y ∈ (γ p).shut at hy
      rw [hshut] at hy
      cases hy

theorem GInv.unfd_step {x : Via} (hvia : g.via = some x) (hout : g.fdOut = none)
    (hshut : g.shut = []) (hwf : ({ g with files := x.f :: g.files, via := none } : Ghost P).WF)
    {u : Unit} (h : setOfile p x.fd none s = .ok (u, s')) :
    Kept V s s' ∧ GInv sb K V A B s' w (update γ p
      { g with files := x.f :: g.files, via := none }) := by
  subst hg
  cases h
  obtain ⟨hfd, ho, -⟩ := (hI.loc p).via x hvia
  refine hI.fd_step hrun hfd rfl hwf (fun y hy => by cases hy) (fun y hy => ?_) (fun f' => ?_)
    fun y hy => ?_
  · change (γ p).fdOut = some y at hy
    rw [hout] at hy
    cases hy
  · have h2 := fdRef_out (s.proc p) hfd f'
    rw [ho] at h2
    unfold fdCount
    dsimp only
    rw [hout, Option.map_none, fdRef_shut hfd, List.count_cons]
    simp only [Option.some.injEq, beq_iff_eq] at h2 ⊢
    omega
  · change y ∈ (γ p).shut at hy
    rw [hshut] at hy
    cases hy

theorem GInv.shut_step (hout : g.fdOut = some (fd, f)) (hvia : g.via = none) (hnot : fd ∉ g.shut)
    {u : Unit} (h : setOfile p fd none s = .ok (u, s')) :
    Kept V s s' ∧ GInv sb K V A B s' w (update γ p
      { g with fdOut := none, shut := fd :: g.shut }) := by
  subst hg
  cases h
  obtain ⟨hfd, -⟩ := (hI.loc p).out _ hout
  refine hI.fd_step hrun hfd rfl ?_ (fun y hy => ?_) (fun y hy => by cases hy) (fun f' => ?_)
    fun y hy => ?_
  · exact (hI.loc p).wf.congr hrun rfl rfl rfl rfl rfl
  · change (γ p).via = some y at hy
    rw [hvia] at hy
    cases hy
  · unfold fdCount
    dsimp only
    rw [hout, Option.map_none, Option.map_some, fdRef_shut hfd]
  · rcases List.mem_cons.mp hy with rfl | hy
    · exact .inr ⟨rfl, rfl⟩
    · exact .inl ⟨hy, fun h => hnot (h ▸ hy)⟩

end

/-! ## Current directories -/

theorem cwdRef_some (pr : Proc) (hc : pr.cwd = some k) (hl : pr.leaving = false) (l : ℕ) :
    cwdRef pr l = if k = l then 1 else 0 := by
  unfold cwdRef
  rw [hc, hl]
  simp

theorem cwdRef_leaving {pr : Proc} (hl : pr.leaving = true) (l : ℕ) : cwdRef pr l = 0 :=
  if_neg fun h => by rw [hl] at h; cases h.2

theorem cwdRef_none {pr : Proc} (hc : pr.cwd = none) (l : ℕ) : cwdRef pr l = 0 :=
  if_neg fun h => by rw [hc] at h; cases h.1

section Cwd

variable (hI : GInv sb K V A B s w γ) (hrun : (γ p).run = true)

include hI hrun

theorem GInv.cwd_step (x : Option ℕ) (b : Bool) (rs : List Ref) (n : Bool)
    (hwf : ({ γ p with refs := rs, left := b, noCwd := n } : Ghost P).WF)
    (hslots : ∀ k, cwdRef { s.proc p with cwd := x, leaving := b } k + (rs.map Ref.slot).count k =
      cwdRef (s.proc p) k + ((γ p).refs.map Ref.slot).count k)
    (hrefs : ∀ r ∈ rs, r ∈ (γ p).refs ∨ (s.icache r.slot).inum = r.inum ∧ r.type = none)
    (hx : ∀ k, x = some k → b = false → ∃ r ∈ (γ p).refs, r.slot = k ∧ r.type ≠ none)
    (hnf : b = false → (γ p).freeing = none) (hn : n = true → x = none) :
    Kept V s (s.setProc p { s.proc p with cwd := x, leaving := b }) ∧
      GInv sb K V A B (s.setProc p { s.proc p with cwd := x, leaving := b }) w (update γ p
        { γ p with refs := rs, left := b, noCwd := n }) := by
  have hl := hI.loc p
  have hstate := hl.run hrun
  refine hI.proc_step
    { locks := rfl
      freeing := rfl
      slots := hslots
      unused := fun h => ?_
      obound := hI.obound p
      child := fun y hy => .inl hy
      others := fun q _ => hI.not_child hrun q
      cwd := fun _ k hc hlv => ?_
      alone := fun k hc hlv q hq => ?_
      conf := fun r hr hne q hq => ?_ } (fun _ => rfl)
    (hI.local_setProc hrun rfl hwf hstate rfl (fun r hr => ?_) hl.via hl.out
    (fun _ => rfl) hl.shut hn)
  · change (s.proc p).state = .unused at h
    rw [hstate] at h
    cases h
  · obtain ⟨r, hr, rfl, ht⟩ := hx k hc hlv
    obtain ⟨t, hrt⟩ := Option.ne_none_iff_exists'.mp ht
    obtain ⟨hfree, htype⟩ := hl.conf r hr t hrt
    rw [hl.inum r hr, htype]
    exact hfree
  · obtain ⟨r, hr, rfl, ht⟩ := hx k hc hlv
    by_cases hqp : q = p
    · rw [hqp, hnf hlv] at hq
      cases hq
    · exact hI.not_freeing hr ht hqp hq
  · rcases hrefs r hr with hr | ⟨-, ht⟩
    · exact hI.not_freeing hr hne hq
    · exact absurd ht hne
  · rcases hrefs r hr with hr | ⟨hi, ht⟩
    · exact hl.refs_ok r hr
    · exact ⟨hi, fun t h => by rw [ht] at h; cases h⟩

end Cwd

theorem GInv.leave_step (hI : GInv sb K V A B s w γ) (hg : γ p = g) (hrun : g.run = true)
    (hleft : g.left = false) (hn : g.noCwd = false) :
    Kept V s (s.setProc p { s.proc p with leaving := true }) ∧ match (s.proc p).cwd with
      | some k => ∃ i, GInv sb K V A B (s.setProc p { s.proc p with leaving := true }) w
          (update γ p { g with refs := ⟨k, i, none⟩ :: g.refs, left := true })
      | none => GInv sb K V A B (s.setProc p { s.proc p with leaving := true }) w
          (update γ p { g with left := true }) := by
  subst hg
  have hl := hI.loc p
  have hlv : (s.proc p).leaving = false := by rw [hl.left, hleft]
  have hset : ∀ x, (s.proc p).cwd = x → s.setProc p { s.proc p with leaving := true } =
      s.setProc p { s.proc p with cwd := x, leaving := true } := by
    rintro x rfl
    rfl
  refine ⟨Kept.of_vol_eq rfl fun _ _ => ⟨rfl, rfl⟩, ?_⟩
  cases hc : (s.proc p).cwd with
  | some k =>
    refine ⟨(s.icache k).inum, ?_⟩
    rw [hset _ hc]
    refine (hI.cwd_step hrun (some k) true (⟨k, (s.icache k).inum, none⟩ :: (γ p).refs) (γ p).noCwd
      ((hl.wf.addRef hrun _).congr hrun rfl rfl rfl rfl rfl) (fun l => ?_) (fun r hr => ?_)
        (fun _ _ h => by cases h) (fun h => by cases h)
      fun h => by rw [hn] at h; cases h).2
    · rw [cwdRef_leaving rfl, cwdRef_some _ hc hlv, List.map_cons, List.count_cons]
      simp only [beq_iff_eq]
      omega
    · rcases List.mem_cons.mp hr with rfl | hr
      · exact .inr ⟨rfl, rfl⟩
      · exact .inl hr
  | none =>
    dsimp only
    rw [hset _ hc]
    refine (hI.cwd_step hrun none true (γ p).refs (γ p).noCwd
      (hl.wf.congr hrun rfl rfl rfl rfl rfl) (fun l => ?_) (fun r hr => .inl hr)
        (fun _ _ h => by cases h) (fun h => by cases h) fun _ => rfl).2
    rw [cwdRef_leaving rfl, cwdRef_none hc]

theorem GInv.setCwd_step (hI : GInv sb K V A B s w γ) (hg : γ p = g) (hrun : g.run = true)
    (hleft : g.left = true) (hn : g.noCwd = false) (hnf : g.freeing = none) {r : Ref}
    {rs : List Ref} (hrs : g.refs.Perm (r :: rs)) (ht : r.type ≠ none)
    (hwf : ({ g with refs := rs } : Ghost P).WF) {u : Unit}
    (h : setCwd p (some r.slot) s = .ok (u, s')) :
    Kept V s s' ∧ GInv sb K V A B s' w (update γ p
      { g with refs := rs, left := false }) := by
  subst hg
  cases h
  have hlv : (s.proc p).leaving = true := by rw [(hI.loc p).left, hleft]
  refine hI.cwd_step hrun (some r.slot) false rs (γ p).noCwd
    (hwf.congr hrun rfl rfl rfl rfl rfl) (fun l => ?_)
    (fun x hx => .inl (hrs.mem_iff.mpr (List.mem_cons_of_mem _ hx))) (fun k hk _ => ?_)
      (fun _ => hnf)
    fun h => by rw [hn] at h; cases h
  · rw [cwdRef_leaving hlv, cwdRef_some _ rfl rfl, (hrs.map Ref.slot).count_eq, List.map_cons,
      List.count_cons]
    simp only [beq_iff_eq]
    omega
  · cases hk
    exact ⟨r, hrs.mem_iff.mpr List.mem_cons_self, rfl, ht⟩

theorem GInv.clearCwd_step (hI : GInv sb K V A B s w γ) (hg : γ p = g) (hrun : g.run = true)
    (hleft : g.left = true) (hnf : g.freeing = none) {u : Unit}
    (h : setCwd p none s = .ok (u, s')) :
    Kept V s s' ∧ GInv sb K V A B s' w (update γ p
      { g with left := false, noCwd := true }) := by
  subst hg
  cases h
  have hlv : (s.proc p).leaving = true := by rw [(hI.loc p).left, hleft]
  refine hI.cwd_step hrun none false (γ p).refs true ((hI.loc p).wf.congr hrun rfl rfl rfl rfl rfl)
    (fun l => ?_) (fun x hx => .inl hx) (fun k hk => by cases hk) (fun _ => hnf) fun _ => rfl
  rw [cwdRef_leaving hlv, cwdRef_none rfl]

/-! ## Exit -/

theorem GInv.exit_step (hI : GInv sb K V A B s w γ)
    (hg : γ p = { Ghost.start with shut := (γ p).shut, noCwd := true })
    (hshut : ∀ fd < NOFILE, fd ∈ (γ p).shut) :
    Kept V s (s.setProc p { s.proc p with state := .unused }) ∧
      GInv sb K V A B (s.setProc p { s.proc p with state := .unused }) w
        (update γ p Ghost.idle) := by
  have hl := hI.loc p
  have hrun : (γ p).run = true := by rw [hg]; rfl
  have hcwd : (s.proc p).cwd = none := hl.noCwd (by rw [hg])
  have hrefs : (γ p).refs = [] := by rw [hg]; rfl
  have hofile : ∀ fd, (s.proc p).ofile fd = none := by
    intro fd
    by_cases hfd : fd < NOFILE
    · exact hl.shut fd (hshut fd hfd)
    · exact hI.obound p fd (by omega)
  have hleft : (s.proc p).leaving = false := by rw [hl.left, hg]; rfl
  refine hI.proc_step
    { locks := by rw [hg]; rfl
      freeing := by rw [hg]; rfl
      slots := fun k => by rw [hrefs]; rfl
      unused := fun _ => ⟨hofile, hcwd⟩
      obound := hI.obound p
      child := fun _ h => by cases h
      others := fun q _ => hI.not_child hrun q
      cwd := fun _ k hc => by
        change (s.proc p).cwd = some k at hc
        rw [hcwd] at hc
        cases hc
      alone := fun k hc => by
        change (s.proc p).cwd = some k at hc
        rw [hcwd] at hc
        cases hc
      conf := fun r hr => by cases hr } (fun f => by rw [hg]; rfl) (Local.idle ?_)
  rw [setProc_same]
  exact hleft

/-! ## Fork -/

omit [DecidableEq P] in
theorem GInv.child_facts (hI : GInv sb K V A B s w γ) (hrun : (γ p).run = true) {x : List ℕ × Bool}
    (hc : (γ p).child = some (q, x)) : q ≠ p ∧ γ q = Ghost.idle ∧ (s.proc q).leaving = false ∧
      (s.proc q).state = .embryo ∧ ∀ r, r ≠ p → ∀ y, (γ r).child ≠ some (q, y) := by
  have hstate := ((hI.loc p).child q x.1 x.2 hc).1
  have hne : q ≠ p := by
    rintro rfl
    exact hI.not_child hrun q x hc
  have hidle : γ q = Ghost.idle := by
    apply (hI.loc q).wf.quiet
    by_contra h
    have := (hI.loc q).run (by simpa using h)
    rw [hstate] at this
    cases this
  refine ⟨hne, hidle, ?_, hstate, fun r hr y hy => hr (hI.oneParent r p q y x hy hc)⟩
  rw [(hI.loc q).left, hidle]
  rfl

omit [Fintype P] in
theorem Local.setChild (hl : Local B s w p g) (hq : q ≠ p)
    (hg : g' = { g with refs := g'.refs, files := g'.files, child := g'.child }) (hwf : g'.WF)
    (hrefs : ∀ r ∈ g'.refs, r ∈ g.refs) (hfresh : g.fresh = [])
    (hchild : ∀ c fds b, g'.child = some (c, fds, b) → c = q ∧ pr.state = .embryo ∧
      (∀ fd, fd ∉ fds → pr.ofile fd = none) ∧ (b = false → pr.cwd = none)) :
    Local B (s.setProc q pr) w p g' where
  wf := hwf
  run h := by rw [setProc_of_ne hq.symm]; exact hl.run (by rw [hg] at h; exact h)
  left := by rw [setProc_of_ne hq.symm, hg]; exact hl.left
  inum r hr := hl.inum r (hrefs r hr)
  conf r hr := hl.conf r (hrefs r hr)
  held := by rw [hg]; exact hl.held
  via := by rw [setProc_of_ne hq.symm, hg]; exact hl.via
  out := by rw [setProc_of_ne hq.symm, hg]; exact hl.out
  fresh f hf := by
    rw [hg] at hf
    change f ∈ g.fresh at hf
    rw [hfresh] at hf
    cases hf
  child c fds b hc := by
    obtain ⟨rfl, h⟩ := hchild c fds b hc
    rw [setProc_same]
    exact h
  shut := by rw [setProc_of_ne hq.symm, hg]; exact hl.shut
  noCwd := by rw [setProc_of_ne hq.symm, hg]; exact hl.noCwd
  edge := by rw [hg]; exact hl.edge

section

variable (hI : GInv sb K V A B s w γ) (hg : γ p = g) (hrun : g.run = true) (hfresh : g.fresh = [])

include hI hg hrun hfresh

theorem GInv.allocproc_step {b : Bool} (h : allocproc q s = .ok (b, s')) :
    Kept V s s' ∧ if b then GInv sb K V A B s' w (update γ p
      { g with child := some (q, [], false) })
      else s' = s := by
  subst hg
  unfold allocproc at h
  split at h
  swap
  · cases h
    exact ⟨Kept.refl s, rfl⟩
  next hstate =>
    cases h
    have hl := hI.loc p
    obtain ⟨hofile, hcwd⟩ := hI.unused q hstate
    have hne : q ≠ p := by
      rintro rfl
      rw [hl.run hrun] at hstate
      cases hstate
    have hidle : γ q = Ghost.idle := by
      apply (hI.loc q).wf.quiet
      by_contra h
      have := (hI.loc q).run (by simpa using h)
      rw [hstate] at this
      cases this
    have hleave : (s.proc q).leaving = false := by
      rw [(hI.loc q).left, hidle]
      rfl
    refine hI.child_step
      { locks := rfl
        freeing := rfl
        slots := fun _ => rfl
        unused := fun h => by cases h
        obound := hI.obound q
        child := fun x hx => .inr ⟨by obtain rfl := Option.some.inj hx; rfl, hne⟩
        others := fun r _ x hx => ?_
        cwd := fun _ k hc => ?_
        alone := fun k hc => ?_
        conf := fun r hr hty q' hq' => hI.not_freeing hr hty hq' } hne hidle hleave
          (fun _ => rfl) ?_
    · have := ((hI.loc r).child q x.1 x.2 hx).1
      rw [hstate] at this
      cases this
    · change (s.proc q).cwd = some k at hc
      rw [hcwd] at hc
      cases hc
    · change (s.proc q).cwd = some k at hc
      rw [hcwd] at hc
      cases hc
    · refine hl.setChild hne rfl (hl.wf.congr hrun rfl rfl rfl rfl rfl) (fun _ hr => hr) hfresh
        fun c fds b hc => ?_
      obtain ⟨rfl, rfl, rfl⟩ : q = c ∧ [] = fds ∧ false = b := by simpa using hc
      exact ⟨rfl, rfl, fun fd _ => hofile fd, fun _ => hcwd⟩

theorem GInv.fork_step {x : List ℕ × Bool} (hc : g.child = some (q, x)) (pr : Proc)
    (fs : List ℕ) (rs : List Ref) (y : Option (List ℕ × Bool))
    (hwf : ({ g with refs := rs, files := fs, child := y.map (q, ·) } : Ghost P).WF)
    (hleave : pr.leaving = false) (hobound : ∀ fd, NOFILE ≤ fd → pr.ofile fd = none)
    (hstate : pr.state = if y.isSome then .embryo else .running)
    (hslots : ∀ k, cwdRef pr k + (rs.map Ref.slot).count k =
      cwdRef (s.proc q) k + (g.refs.map Ref.slot).count k)
    (hfds : ∀ f, fdRef pr none f + fs.count f = fdRef (s.proc q) none f + g.files.count f)
    (hrefs : ∀ r ∈ rs, r ∈ g.refs)
    (hcwd : ∀ k, pr.cwd = some k → (s.proc q).cwd = some k ∨
      (s.proc p).cwd = some k ∧ (s.proc p).leaving = false)
    (hy : ∀ z, y = some z → (∀ fd, fd ∉ z.1 → pr.ofile fd = none) ∧ (z.2 = false → pr.cwd = none)) :
    Kept V s (s.setProc q pr) ∧ GInv sb K V A B (s.setProc q pr) w (update γ p
      { g with refs := rs, files := fs, child := y.map (q, ·) }) := by
  subst hg
  obtain ⟨hne, hidle, hlq, -, hothers⟩ := hI.child_facts hrun hc
  refine hI.child_step
    { locks := rfl
      freeing := rfl
      slots := hslots
      unused := fun h => ?_
      obound := hobound
      child := fun z hz => .inr ⟨?_, hne⟩
      others := hothers
      cwd := fun hA k hk _ => ?_
      alone := fun k hk _ r hr => ?_
      conf := fun r hr hty r' hr' => hI.not_freeing (hrefs r hr) hty hr' } hne hidle hleave
    (fun f => ?_) ((hI.loc p).setChild hne rfl hwf hrefs hfresh fun c fds b hcz => ?_)
  · rw [hstate] at h
    split at h <;> cases h
  · obtain ⟨u, -, rfl⟩ := Option.map_eq_some_iff.mp hz
    rfl
  · rcases hcwd k hk with hk | ⟨hk, hlv⟩
    · exact hI.cwd hA q k hk hlq
    · exact hI.cwd hA p k hk hlv
  · rcases hcwd k hk with hk | ⟨hk, hlv⟩
    · cases hlq.symm.trans ((hI.alone r k hr).2.2 q hk)
    · cases hlv.symm.trans ((hI.alone r k hr).2.2 p hk)
  · have := hfds f
    unfold fdCount
    dsimp only
    omega
  · obtain ⟨u, hu, heq⟩ := Option.map_eq_some_iff.mp hcz
    cases heq
    rw [hu] at hstate
    exact ⟨rfl, hstate, hy _ hu⟩

theorem GInv.forkFd_step (hout : g.fdOut = none) {fds : List ℕ}
    (hc : g.child = some (q, fds, false)) (hfd : fd < NOFILE) (hnew : fd ∉ fds) {u : Unit}
    (h : forkFd p q fd s = .ok (u, s')) :
    Kept V s s' ∧ GInv sb K V A B s' w (update γ p
      { g with child := some (q, fd :: fds, false) }) := by
  subst hg
  have hl := hI.loc p
  obtain ⟨hstate, hofile, hcwd⟩ := hl.child q fds false hc
  obtain ⟨hne, hidle, hlq, -, -⟩ := hI.child_facts hrun hc
  unfold forkFd at h
  split at h
  next hnone =>
    cases h
    have hstep := hI.fork_step rfl hrun hfresh hc (s.proc q) (γ p).files
      (γ p).refs (some (fd :: fds, false)) (hl.wf.congr hrun rfl rfl rfl rfl rfl) hlq
      (hI.obound q) hstate (fun _ => rfl) (fun _ => rfl) (fun _ hr => hr) (fun _ hk => .inl hk)
      fun z hz => ?_
    · have hself : s.setProc q (s.proc q) = s := by
        unfold Kernel.setProc
        rw [update_eq_self]
      rwa [hself] at hstep
    · cases hz
      exact ⟨fun y hy => hofile y fun hm => hy (List.mem_cons_of_mem _ hm), hcwd⟩
  next f hf =>
    split at h
    swap
    · cases h
    next u' s1 hdup =>
      cases h
      -- the new reference is first one of `p`, then one of its child
      have hpos : 0 < fdCount (s.proc p) (γ p) f := by
        unfold fdCount
        rw [hout]
        have := fdRef_pos hfd hf (Option.some_ne_none fd).symm
        dsimp only [Option.map_none]
        omega
      obtain ⟨hK1, hI1⟩ := hI.ref_up hrun { γ p with files := f :: (γ p).files } rfl hpos hfresh
        (fun _ _ => by simp [hout]) (fun _ hx => hx) (fun f' => by
          unfold fdCount
          rw [List.count_cons]
          simp only [beq_iff_eq, eq_comm (a := f)]
          omega) hdup
      obtain rfl := filedup_ok hdup
      have hnone := hofile fd hnew
      refine ⟨Kept.of_vol_eq rfl fun _ _ => ⟨rfl, rfl⟩, ?_⟩
      have hstep := (hI1.fork_step (update_self p _ γ) hrun hfresh hc
        ((s.proc q).setFd fd (some f)) (γ p).files (γ p).refs
        (some (fd :: fds, false)) (hl.wf.congr hrun rfl rfl rfl rfl rfl) hlq
        (fun y hy => ?_) hstate (fun _ => rfl) (fun f' => ?_) (fun _ hr => hr) (fun _ hk => .inl hk)
        fun z hz => ?_).2
      · rwa [update_idem] at hstep
      · rw [setFd_of_ne (by omega)]
        exact hI.obound q y hy
      · rw [fdRef_open hfd hnone, setFile_proc, List.count_cons]
        simp only [beq_iff_eq, eq_comm (a := f)]
        omega
      · cases hz
        refine ⟨fun y hy => ?_, hcwd⟩
        rw [setFd_of_ne fun h => hy (by rw [h]; exact List.mem_cons_self)]
        exact hofile y fun hm => hy (List.mem_cons_of_mem _ hm)

theorem GInv.forkCwd_step (hleft : g.left = false) {fds : List ℕ}
    (hc : g.child = some (q, fds, false)) {u : Unit} (h : forkCwd p q s = .ok (u, s')) :
    Kept V s s' ∧ GInv sb K V A B s' w (update γ p
      { g with child := some (q, fds, true) }) := by
  subst hg
  have hl := hI.loc p
  obtain ⟨hstate, hofile, hcwd⟩ := hl.child q fds false hc
  obtain ⟨hne, hidle, hlq, -, -⟩ := hI.child_facts hrun hc
  have hlv : (s.proc p).leaving = false := by rw [hl.left, hleft]
  unfold forkCwd idupCwd at h
  cases hk : (s.proc p).cwd with
  | none =>
    rw [hk] at h
    cases h
  | some k =>
    rw [hk] at h
    cases h
    -- the new reference is first one of `p`, then one of its child
    obtain ⟨hK1, hI1⟩ := hI.add_ref rfl hrun (hI.ref_pos_of_cwd hk hlv)
    refine ⟨Kept.of_vol_eq rfl hK1.entry, ?_⟩
    have hstep := (hI1.fork_step (update_self p _ γ) hrun hfresh hc
      { s.proc q with cwd := some k } (γ p).files (γ p).refs (some (fds, true))
        (hl.wf.congr hrun rfl rfl rfl rfl rfl) hlq (hI.obound q) hstate
      (fun l => ?_) (fun _ => rfl) (fun _ hr => List.mem_cons_of_mem _ hr) (fun l hl => ?_)
      fun z hz => ?_).2
    · rwa [update_idem] at hstep
    · have hnew := cwdRef_some { s.proc q with cwd := some k } rfl hlq l
      rw [hnew, setInode_proc, cwdRef_none (hcwd rfl), List.map_cons, List.count_cons]
      simp only [beq_iff_eq]
      omega
    · cases hl
      exact .inr ⟨hk, hlv⟩
    · cases hz
      exact ⟨hofile, fun h => by cases h⟩

theorem GInv.forkRun_step {fds : List ℕ} (hc : g.child = some (q, fds, true)) :
    Kept V s (s.setProc q { s.proc q with state := .running }) ∧
      GInv sb K V A B (s.setProc q { s.proc q with state := .running }) w
        (update γ p { g with child := none }) := by
  subst hg
  obtain ⟨hne, hidle, hlq, -, -⟩ := hI.child_facts hrun hc
  exact hI.fork_step rfl hrun hfresh hc _ (γ p).files (γ p).refs none
    ((hI.loc p).wf.congr hrun rfl rfl rfl rfl rfl) hlq
    (hI.obound q) rfl (fun _ => rfl) (fun _ => rfl) (fun _ hr => hr) (fun _ hk => .inl hk)
    fun z hz => by cases hz

end

end Xv6.Fs
