import Xv6.Fs.GhostCache

/-!
# Steps on the file table

The invariant is kept by the steps that change an open file: allocating one, counting its
references, and handing over a reference to a cache entry between a local variable and the file.
-/

namespace Xv6.Fs

open Function Finset Account

variable {P : Type} [DecidableEq P] [Fintype P] {sb : Superblock} {K : Set ℕ} {V A B : Prop}
  {s s' : Kernel P} {w : Births} {γ : P → Ghost P} {p q : P} {k f fd : ℕ} {g g' : Ghost P}

/-! ## Counting descriptors -/

section FdRef

variable {pr : Proc}

theorem fdRef_out (pr : Proc) (hfd : fd < NOFILE) (f : ℕ) :
    fdRef pr (some fd) f + (if pr.ofile fd = some f then 1 else 0) = fdRef pr none f := by
  have hset : {x ∈ range NOFILE | pr.ofile x = some f ∧ (none : Option ℕ) ≠ some x} =
      {x ∈ range NOFILE | pr.ofile x = some f} := filter_congr fun x _ => by simp
  have hset' : {x ∈ range NOFILE | pr.ofile x = some f ∧ some fd ≠ some x} =
      {x ∈ range NOFILE | pr.ofile x = some f}.erase fd := by
    ext x
    simp only [mem_filter, mem_erase, ne_eq, Option.some.injEq]
    constructor
    · rintro ⟨hx, ho, hne⟩
      exact ⟨fun h => hne h.symm, hx, ho⟩
    · rintro ⟨hne, hx, ho⟩
      exact ⟨hx, ho, fun h => hne h.symm⟩
  unfold fdRef
  rw [hset, hset']
  split
  next h => exact card_erase_add_one (mem_filter.mpr ⟨mem_range.mpr hfd, h⟩)
  next h =>
    have hnot : fd ∉ {x ∈ range NOFILE | pr.ofile x = some f} := fun hm => h (mem_filter.mp hm).2
    rw [erase_eq_of_notMem hnot, Nat.add_zero]

def Proc.setFd (pr : Proc) (fd : ℕ) (x : Option ℕ) : Proc :=
  { pr with ofile := update pr.ofile fd x }

theorem setFd_same (x : Option ℕ) : (pr.setFd fd x).ofile fd = x := update_self ..

theorem setFd_of_ne {y : ℕ} (h : y ≠ fd) (x : Option ℕ) : (pr.setFd fd x).ofile y = pr.ofile y :=
  update_of_ne h ..

theorem fdRef_setFd (x : Option ℕ) (f : ℕ) :
    fdRef (pr.setFd fd x) (some fd) f = fdRef pr (some fd) f := by
  unfold fdRef
  congr 1
  refine filter_congr fun y _ => ?_
  by_cases hy : y = fd
  · subst hy
    simp
  · rw [setFd_of_ne hy]

theorem fdRef_open (hfd : fd < NOFILE) (h : pr.ofile fd = none) (f f' : ℕ) :
    fdRef (pr.setFd fd (some f)) none f' = fdRef pr none f' + if f' = f then 1 else 0 := by
  have h1 := fdRef_out (pr.setFd fd (some f)) hfd f'
  have h2 := fdRef_out pr hfd f'
  rw [fdRef_setFd, setFd_same] at h1
  rw [h] at h2
  simp only [Option.some.injEq, eq_comm (a := f), reduceCtorEq, if_false] at h1 h2
  omega

theorem fdRef_shut (hfd : fd < NOFILE) (f : ℕ) :
    fdRef (pr.setFd fd none) none f = fdRef pr (some fd) f := by
  have h1 := fdRef_out (pr.setFd fd none) hfd f
  rw [fdRef_setFd, setFd_same] at h1
  simp only [reduceCtorEq, if_false] at h1
  omega

end FdRef

omit [DecidableEq P] in
theorem Global.two_files (h : Global sb K V A B s w γ) (hq : q ≠ p)
    (hp : 0 < fdCount (s.proc p) (γ p) f) (hq' : 0 < fdCount (s.proc q) (γ q) f) :
    2 ≤ (s.ftable f).ref := by
  classical
  have := add_le_sum (f := fun r => fdCount (s.proc r) (γ r) f) (mem_univ q) (mem_univ p) hq
  rw [h.fcount]
  unfold fileCount
  omega

/-! ## Files -/

theorem fileRef_inode {fl : File} (ht : fl.type = .inode) (hi : fl.ip = some k) (l : ℕ) :
    fileRef fl l = if k = l then 1 else 0 := by
  unfold fileRef
  rw [ht, hi]
  simp

theorem fileRef_other {fl : File} (ht : fl.type ≠ .inode) (l : ℕ) : fileRef fl l = 0 :=
  if_neg fun h => ht h.1

structure FileStep (B : Prop) (s : Kernel P) (w : Births) (γ : P → Ghost P) (p : P) (f : ℕ)
    (fl : File) (g' : Ghost P) : Prop where
  locks : g'.locks = (γ p).locks
  child : g'.child = (γ p).child
  freeing : g'.freeing = (γ p).freeing
  slots : ∀ k, fileRef fl k + (g'.refs.map Ref.slot).count k =
    fileRef (s.ftable f) k + ((γ p).refs.map Ref.slot).count k
  fds : ∀ f', f' ≠ f → fdCount (s.proc p) g' f' = fdCount (s.proc p) (γ p) f'
  ref : fl.ref + fdCount (s.proc p) (γ p) f = (s.ftable f).ref + fdCount (s.proc p) g' f
  bound : f < NFILE
  none : fl.ref = 0 → fl.type = .none
  others : ∀ q, q ≠ p → 0 < fdCount (s.proc q) (γ q) f → fl.type = (s.ftable f).type ∧
    fl.ip = (s.ftable f).ip ∧ fl.writable = (s.ftable f).writable ∧
    (f ∈ (γ q).fresh → fl.ref = (s.ftable f).ref)
  file : ∀ k, fl.type = .inode → fl.ip = some k → (∀ q, (γ q).freeing ≠ some k) ∧
    (s.vol.dinode (s.icache k).inum).type ≠ .free ∧
    (fl.writable = true → (s.vol.dinode (s.icache k).inum).type ≠ .dir)
  conf : ∀ r ∈ g'.refs, r.type ≠ Option.none → ∀ q, q ≠ p → (γ q).freeing ≠ some r.slot
  loc : Local B (s.setFile f fl) w p g'

variable {fl : File}

omit [DecidableEq P] [Fintype P] in
theorem setFile_same : (s.setFile f fl).ftable f = fl := by
  rw [setFile_ftable, update_self]

omit [DecidableEq P] [Fintype P] in
theorem setFile_of_ne {f' : ℕ} (h : f' ≠ f) : (s.setFile f fl).ftable f' = s.ftable f' := by
  rw [setFile_ftable, update_of_ne h]

/-- **File steps.** A step on one open file keeps the invariant. -/
theorem GInv.file_step (hI : GInv sb K V A B s w γ) (h : FileStep B s w γ p f fl g') :
    Kept V s (s.setFile f fl) ∧ GInv sb K V A B (s.setFile f fl) w (update γ p g') := by
  refine ⟨Kept.of_vol_eq rfl fun _ _ => ⟨rfl, rfl⟩, hI.mk_step ?_ h.loc fun q hq => ?_⟩
  · exact
    { hI.toGlobal with
      count := by
        intro l
        have hp := sum_change (g := fun r => procRef (s.proc r) (update γ p g' r) l)
          (f := fun r => procRef (s.proc r) (γ r) l) (mem_univ p) fun r _ hr => by
            rw [update_of_ne hr]
        have hf := sum_change (g := fun x => fileRef ((s.setFile f fl).ftable x) l)
          (f := fun x => fileRef (s.ftable x) l) (mem_range.mpr h.bound) fun x _ hx => by
            rw [setFile_of_ne hx]
        rw [update_self] at hp
        rw [setFile_same] at hf
        have hs := h.slots l
        have hc := hI.count l
        unfold refCount at hc ⊢
        unfold procRef at hp hc ⊢
        rw [setFile_proc, setFile_icache]
        omega
      lock := fun l q hq => by
        rw [Lts.update_field Ghost.locks h.locks]
        exact hI.lock l q hq
      fcount := by
        intro x
        have hc := fileCount_change s (s.setFile f fl) γ (update γ p g') p x fun r hr => by
            rw [update_of_ne hr]
            rfl
        rw [update_self, ← hI.fcount x, setFile_proc] at hc
        by_cases hx : x = f
        · subst hx
          have := h.ref
          rw [setFile_same]
          omega
        · rw [setFile_of_ne hx]
          have := h.fds x hx
          omega
      fbound := fun x hx => by
        by_cases hxf : x = f
        · rw [hxf]
          exact h.bound
        · rw [setFile_of_ne hxf] at hx
          exact hI.fbound x hx
      fnone := fun x hx => by
        by_cases hxf : x = f
        · subst hxf
          rw [setFile_same] at hx ⊢
          exact h.none hx
        · rw [setFile_of_ne hxf] at hx ⊢
          exact hI.fnone x hx
      oneParent := by
        intro a b c x y ha hb
        rw [Lts.update_field Ghost.child h.child] at ha hb
        exact hI.oneParent a b c x y ha hb
      file := fun x l ht hi => by
        by_cases hxf : x = f
        · subst hxf
          rw [setFile_same] at ht hi ⊢
          exact (h.file l ht hi).2
        · rw [setFile_of_ne hxf] at ht hi ⊢
          exact hI.file x l ht hi
      alone := by
        intro q l hq
        rw [Lts.update_field Ghost.freeing h.freeing] at hq
        obtain ⟨h1, h2, h3⟩ := hI.alone q l hq
        refine ⟨fun r hr x hx hxl => ?_, fun x ht hi => ?_, h3⟩
        · by_cases hrp : r = p
          · subst hrp
            rw [update_self] at hx
            by_contra hne
            exact h.conf x hx hne q hr.symm (by rw [hxl]; exact hq)
          · rw [update_of_ne hrp] at hx
            exact h1 r hr x hx hxl
        · by_cases hxf : x = f
          · subst hxf
            rw [setFile_same] at ht hi
            exact (h.file l ht hi).1 q hq
          · rw [setFile_of_ne hxf] at ht hi
            exact h2 x ht hi }
  · exact
    { proc := rfl
      slot := fun _ _ => rfl
      lock := fun _ hl => ⟨hl, id⟩
      file := fun x hx => by
        by_cases hxf : x = f
        · subst hxf
          rw [setFile_same]
          exact h.others q hq hx
        · rw [setFile_of_ne hxf]
          exact ⟨rfl, rfl, rfl, fun _ => rfl⟩
      child := fun _ _ _ => rfl
      conf := fun _ _ _ _ => rfl
      edge := fun _ _ _ he => he }

omit [DecidableEq P] [Fintype P] in
theorem Local.setFile (hl : Local B s w p g)
    (hg : g' = { g with
      refs := g'.refs
      files := g'.files
      fdOut := g'.fdOut
      via := g'.via
      fresh := g'.fresh })
    (hwf : g'.WF)
    (hrefs : ∀ r ∈ g'.refs, (s.icache r.slot).inum = r.inum ∧
      ∀ t, r.type = some t → t ≠ .free ∧ (s.vol.dinode r.inum).type = t)
    (hvia : ∀ x, g'.via = some x → g.via = some x ∧ g'.fdOut.map Prod.fst ≠ some x.fd ∧
      (x.f = f → fl.type = (s.ftable f).type ∧ fl.ip = (s.ftable f).ip ∧
        fl.writable = (s.ftable f).writable))
    (hout : ∀ x, g'.fdOut = some x → x.1 < NOFILE ∧ (s.proc p).ofile x.1 = some x.2)
    (hfresh : ∀ f' ∈ g'.fresh, 0 < fdCount (s.proc p) g' f' ∧
      (f' ∈ g.fresh ∧ f' ≠ f ∨ f' = f ∧ fl.ref = 1 ∧ fl.type = .none)) :
    Local B (s.setFile f fl) w p g' where
  wf := hwf
  run h := hl.run (by rw [hg] at h; exact h)
  left := by rw [hg]; exact hl.left
  inum r hr := (hrefs r hr).1
  conf r hr := (hrefs r hr).2
  held := by rw [hg]; exact hl.held
  via x hx := by
    obtain ⟨hx, hne, hsame⟩ := hvia x hx
    obtain ⟨hfd, ho, -, hw, hi⟩ := hl.via x hx
    by_cases hxf : x.f = f
    · obtain ⟨h1, h2, h3⟩ := hsame hxf
      rw [hxf] at ho hw hi ⊢
      rw [setFile_same, h1, h2, h3]
      exact ⟨hfd, ho, hne, hw, hi⟩
    · rw [setFile_of_ne hxf]
      exact ⟨hfd, ho, hne, hw, hi⟩
  out := hout
  fresh f' hf' := by
    obtain ⟨hc, h⟩ := hfresh f' hf'
    rcases h with ⟨hmem, hne⟩ | ⟨rfl, hr, ht⟩
    · rw [setFile_of_ne hne]
      exact ⟨(hl.fresh f' hmem).1, (hl.fresh f' hmem).2.1, hc⟩
    · rw [setFile_same]
      exact ⟨hr, ht, hc⟩
  child := by rw [hg]; exact hl.child
  shut := by rw [hg]; exact hl.shut
  noCwd := by rw [hg]; exact hl.noCwd
  edge := by rw [hg]; exact hl.edge

omit [DecidableEq P] [Fintype P] in
theorem Local.refs_ok (hl : Local B s w p g) : ∀ r ∈ g.refs, (s.icache r.slot).inum = r.inum ∧
    ∀ t, r.type = some t → t ≠ .free ∧ (s.vol.dinode r.inum).type = t :=
  fun r hr => ⟨hl.inum r hr, hl.conf r hr⟩

omit [DecidableEq P] in
theorem GInv.off_step (hI : GInv sb K V A B s w γ) (o : ℕ) :
    Kept V s (s.setFile f { s.ftable f with off := o }) ∧
      GInv sb K V A B (s.setFile f { s.ftable f with off := o }) w γ := by
  have hsame : ∀ x, ((s.setFile f { s.ftable f with off := o }).ftable x).type = (s.ftable x).type ∧
      ((s.setFile f { s.ftable f with off := o }).ftable x).ip = (s.ftable x).ip ∧
      ((s.setFile f { s.ftable f with off := o }).ftable x).writable = (s.ftable x).writable ∧
      ((s.setFile f { s.ftable f with off := o }).ftable x).ref = (s.ftable x).ref := by
    intro x
    by_cases hx : x = f
    · subst hx
      rw [setFile_same]
      exact ⟨rfl, rfl, rfl, rfl⟩
    · rw [setFile_of_ne hx]
      exact ⟨rfl, rfl, rfl, rfl⟩
  refine ⟨Kept.of_vol_eq rfl fun _ _ => ⟨rfl, rfl⟩, ?_⟩
  exact
  { hI.toGlobal with
    count := fun l => by
      have hcount : refCount (s.setFile f { s.ftable f with off := o }) γ l = refCount s γ l := by
        unfold refCount fileRef
        simp only [(hsame _).1, (hsame _).2.1]
        rfl
      rw [hcount]
      exact hI.count l
    fcount := fun x => by rw [(hsame x).2.2.2]; exact hI.fcount x
    fbound := fun x hx => by rw [(hsame x).2.2.2] at hx; exact hI.fbound x hx
    fnone := fun x hx => by
      rw [(hsame x).2.2.2] at hx
      rw [(hsame x).1]
      exact hI.fnone x hx
    file := fun x l ht hi => by
      rw [(hsame x).1] at ht
      rw [(hsame x).2.1] at hi
      rw [(hsame x).2.2.1]
      exact hI.file x l ht hi
    alone := fun q l hq => by
      obtain ⟨h1, h2, h3⟩ := hI.alone q l hq
      refine ⟨h1, fun x ht hi => ?_, h3⟩
      rw [(hsame x).1] at ht
      rw [(hsame x).2.1] at hi
      exact h2 x ht hi
    loc := fun q => (hI.loc q).frame
      { proc := rfl
        slot := fun _ _ => rfl
        lock := fun _ hl => ⟨hl, id⟩
        file := fun x _ => ⟨(hsame x).1, (hsame x).2.1, (hsame x).2.2.1, fun _ => (hsame x).2.2.2⟩
        child := fun _ _ _ => rfl
        conf := fun _ _ _ _ => rfl
        edge := fun _ _ _ he => he } fun r hr => hI.ref_pos_of_ref hr }

theorem GInv.filealloc_step (hI : GInv sb K V A B s w γ) (hg : γ p = g) (hrun : g.run = true)
    {x : Option ℕ} (h : filealloc s = .ok (x, s')) :
    Kept V s s' ∧ match x with
      | none => s' = s
      | some f => GInv sb K V A B s' w (update γ p
          { g with files := f :: g.files, fresh := f :: g.fresh }) := by
  subst hg
  have hl := hI.loc p
  unfold filealloc at h
  split at h
  swap
  · cases h
    exact ⟨Kept.refl s, rfl⟩
  next f hf =>
    cases h
    have h0 : (s.ftable f).ref = 0 := by simpa using List.find?_some hf
    have hbound := List.mem_range.mp (List.mem_of_find?_eq_some hf)
    have htype := hI.fnone f h0
    have hzero : ∀ q, fdCount (s.proc q) (γ q) f = 0 := by
      intro q
      by_contra hne
      have := hI.file_pos (p := q) (f := f) (by omega)
      omega
    have hcount : ∀ f', fdCount (s.proc p)
        { γ p with files := f :: (γ p).files, fresh := f :: (γ p).fresh } f' =
        fdCount (s.proc p) (γ p) f' + if f' = f then 1 else 0 := by
      intro f'
      unfold fdCount
      rw [List.count_cons]
      simp only [beq_iff_eq, eq_comm (a := f)]
      omega
    refine hI.file_step
      { locks := rfl
        child := rfl
        freeing := rfl
        slots := fun k => rfl
        fds := fun f' hne => by rw [hcount, if_neg hne, Nat.add_zero]
        ref := by
          rw [hcount, if_pos rfl, h0]
          dsimp only
          omega
        bound := hbound
        none := fun _ => htype
        others := fun q _ hq => absurd hq (by rw [hzero q]; omega)
        file := fun k ht => by
          dsimp only at ht
          rw [htype] at ht
          cases ht
        conf := fun r hr hne q hq => hI.not_freeing hr hne hq
        loc := hl.setFile rfl (hl.wf.congr hrun rfl rfl rfl rfl rfl) hl.refs_ok ?_ hl.out ?_ }
    · intro x hx
      obtain ⟨-, -, hne, -⟩ := hl.via x hx
      exact ⟨hx, hne, fun _ => ⟨rfl, rfl, rfl⟩⟩
    · intro f' hf'
      rw [hcount]
      rcases List.mem_cons.mp hf' with rfl | hf'
      · exact ⟨by rw [if_pos rfl]; omega, .inr ⟨rfl, rfl, htype⟩⟩
      · have hfr := hl.fresh f' hf'
        refine ⟨by omega, .inl ⟨hf', ?_⟩⟩
        rintro rfl
        omega

omit [DecidableEq P] [Fintype P] in
theorem filedup_ok {u : Unit} (h : filedup f s = .ok (u, s')) :
    s' = s.setFile f { s.ftable f with ref := (s.ftable f).ref + 1 } := by
  unfold filedup at h
  split at h
  · cases h
  · exact (Prod.mk.inj (Except.ok.inj h)).2.symm

theorem GInv.ref_up (hI : GInv sb K V A B s w γ) (hrun : (γ p).run = true) (g' : Ghost P)
    (hg : g' = { γ p with files := g'.files, fdOut := g'.fdOut })
    (hpos : 0 < fdCount (s.proc p) (γ p) f) (hfresh : (γ p).fresh = [])
    (hvia : ∀ x, (γ p).via = some x → g'.fdOut.map Prod.fst ≠ some x.fd)
    (hout : ∀ x, g'.fdOut = some x → (γ p).fdOut = some x)
    (hcount : ∀ f', fdCount (s.proc p) g' f' =
      fdCount (s.proc p) (γ p) f' + if f' = f then 1 else 0) {u : Unit}
    (h : filedup f s = .ok (u, s')) :
    Kept V s s' ∧ GInv sb K V A B s' w (update γ p g') := by
  have hl := hI.loc p
  obtain rfl := filedup_ok h
  have hrefs : g'.refs = (γ p).refs := by rw [hg]
  have hwf : g'.WF := hl.wf.congr (by rw [hg]; exact hrun) hrefs (by rw [hg]) (by rw [hg])
    (by rw [hg]) (by rw [hg])
  refine hI.file_step
    { locks := by rw [hg]
      child := by rw [hg]
      freeing := by rw [hg]
      slots := fun k => by rw [hrefs]; rfl
      fds := fun f' hne => by rw [hcount, if_neg hne, Nat.add_zero]
      ref := by
        rw [hcount, if_pos rfl]
        dsimp only
        omega
      bound := hI.fbound _ (hI.file_pos hpos)
      none := fun h0 => by cases h0
      others := fun q hq hq' => ⟨rfl, rfl, rfl, fun hf => ?_⟩
      file := fun k ht hi => ⟨fun q hq => (hI.alone q k hq).2.1 _ ht hi, hI.file _ k ht hi⟩
      conf := fun r hr hne q hq => hI.not_freeing (by rw [← hrefs]; exact hr) hne hq
      loc := hl.setFile (by rw [hg]) hwf (by rw [hrefs]; exact hl.refs_ok) (fun y hy => ?_)
        (fun y hy => hl.out y (hout y hy)) fun f' hf' => ?_ }
  · -- a file with two references is not fresh
    have := hI.two_files hq hpos hq'
    have := ((hI.loc q).fresh _ hf).1
    omega
  · rw [hg] at hy
    exact ⟨hy, hvia y hy, fun _ => ⟨rfl, rfl, rfl⟩⟩
  · rw [hg] at hf'
    change f' ∈ (γ p).fresh at hf'
    rw [hfresh] at hf'
    cases hf'

theorem GInv.filedup_step (hI : GInv sb K V A B s w γ) (hg : γ p = g) (hrun : g.run = true)
    {x : Via} (hout : g.fdOut = some (fd, x.f)) (hvia : g.via = some x) (hfresh : g.fresh = [])
    {u : Unit} (h : filedup x.f s = .ok (u, s')) :
    Kept V s s' ∧ GInv sb K V A B s' w (update γ p { g with fdOut := none }) := by
  subst hg
  obtain ⟨hfd, ho⟩ := (hI.loc p).out _ hout
  refine hI.ref_up hrun { γ p with fdOut := none } rfl (hI.via_count hvia) hfresh
    (fun _ _ => by simp) (fun y hy => by cases hy)
    (fun f' => ?_) h
  have := fdRef_out (s.proc p) hfd f'
  rw [ho] at this
  unfold fdCount
  rw [hout]
  simp only [Option.map_some, Option.map_none, Option.some.injEq, eq_comm (a := x.f)] at this ⊢
  omega

structure GivesUp (s : Kernel P) (p : P) (f : ℕ) (g g' : Ghost P) : Prop where
  ghost : g' = { g with
    files := g'.files
    fdOut := g'.fdOut
    fresh := g'.fresh
    via := none }
  wf : g'.WF
  fds : ∀ f', fdCount (s.proc p) g' f' + (if f' = f then 1 else 0) = fdCount (s.proc p) g f'
  out : ∀ x, g'.fdOut = some x → x.1 < NOFILE ∧ (s.proc p).ofile x.1 = some x.2
  fresh : ∀ f' ∈ g'.fresh, f' ∈ g.fresh ∧ f' ≠ f

omit [DecidableEq P] [Fintype P] in
theorem GivesUp.pos (hup : GivesUp s p f g g') : 0 < fdCount (s.proc p) g f := by
  have := hup.fds f
  rw [if_pos rfl] at this
  omega

section Close

variable (hI : GInv sb K V A B s w γ) (hup : GivesUp s p f (γ p) g')

include hI hup

omit [DecidableEq P] in
theorem GivesUp.fresh_ok : ∀ f' ∈ g'.fresh, 0 < fdCount (s.proc p) g' f' ∧
    f' ∈ (γ p).fresh ∧ f' ≠ f := by
  intro f' hf'
  obtain ⟨hm, hne⟩ := hup.fresh f' hf'
  have h1 := hup.fds f'
  rw [if_neg hne] at h1
  have := ((hI.loc p).fresh f' hm).2.2
  exact ⟨by omega, hm, hne⟩

theorem GInv.close_more (h1 : 1 < (s.ftable f).ref) :
    Kept V s (s.setFile f { s.ftable f with ref := (s.ftable f).ref - 1 }) ∧
      GInv sb K V A B (s.setFile f { s.ftable f with ref := (s.ftable f).ref - 1 }) w
        (update γ p g') := by
  have hl := hI.loc p
  have hgh := hup.ghost
  have hpos := hup.pos
  have hrefs : g'.refs = (γ p).refs := by rw [hgh]
  have hvia : g'.via = none := by rw [hgh]
  refine hI.file_step
    { locks := by rw [hgh]
      child := by rw [hgh]
      freeing := by rw [hgh]
      slots := fun k => by rw [hrefs]; rfl
      fds := fun f' hne => by
        have := hup.fds f'
        rw [if_neg hne] at this
        omega
      ref := by
        have := hup.fds f
        rw [if_pos rfl] at this
        dsimp only
        omega
      bound := hI.fbound _ (hI.file_pos hpos)
      none := fun h0 => absurd h0 (by dsimp only; omega)
      others := fun q hq hq' => ⟨rfl, rfl, rfl, fun hf => ?_⟩
      file := fun k ht hi => ⟨fun q hq => (hI.alone q k hq).2.1 _ ht hi, hI.file _ k ht hi⟩
      conf := fun r hr hne q hq => hI.not_freeing (by rw [← hrefs]; exact hr) hne hq
      loc := hl.setFile (by rw [hgh]) hup.wf (by rw [hrefs]; exact hl.refs_ok)
        (fun y hy => by rw [hvia] at hy; cases hy) hup.out
        fun f' hf' => ⟨(hup.fresh_ok hI f' hf').1, .inl (hup.fresh_ok hI f' hf').2⟩ }
  have := ((hI.loc q).fresh _ hf).1
  omega

theorem GInv.close_last (h1 : (s.ftable f).ref = 1) {rs : List Ref}
    (hwf : ({ g' with refs := rs } : Ghost P).WF)
    (hslots : ∀ k, (rs.map Ref.slot).count k =
      fileRef (s.ftable f) k + ((γ p).refs.map Ref.slot).count k)
    (hrefs : ∀ r ∈ rs, ((s.icache r.slot).inum = r.inum ∧
      ∀ t, r.type = some t → t ≠ .free ∧ (s.vol.dinode r.inum).type = t) ∧
      (r.type ≠ none → ∀ q, q ≠ p → (γ q).freeing ≠ some r.slot)) :
    Kept V s (s.setFile f { s.ftable f with ref := 0, type := .none }) ∧
      GInv sb K V A B (s.setFile f { s.ftable f with ref := 0, type := .none }) w
        (update γ p { g' with refs := rs }) := by
  have hl := hI.loc p
  have hgh := hup.ghost
  have hpos := hup.pos
  have hvia : g'.via = none := by rw [hgh]
  have hsame : ∀ f', fdCount (s.proc p) { g' with refs := rs } f' = fdCount (s.proc p) g' f' :=
    fun _ => rfl
  refine hI.file_step
    { locks := by rw [hgh]
      child := by rw [hgh]
      freeing := by rw [hgh]
      slots := fun k => by
        rw [fileRef_other (by simp), hslots, Nat.zero_add]
      fds := fun f' hne => by
        have := hup.fds f'
        rw [if_neg hne] at this
        rw [hsame]
        omega
      ref := by
        have := hup.fds f
        rw [if_pos rfl] at this
        rw [hsame]
        dsimp only
        omega
      bound := hI.fbound _ (hI.file_pos hpos)
      none := fun _ => rfl
      others := fun q hq hq' => ?_
      file := fun k ht => by cases ht
      conf := fun r hr => (hrefs r hr).2
      loc := hl.setFile (by rw [hgh]) hwf (fun r hr => (hrefs r hr).1)
        (fun y hy => by rw [hvia] at hy; cases hy) hup.out
        fun f' hf' => ⟨(hup.fresh_ok hI f' hf').1, .inl (hup.fresh_ok hI f' hf').2⟩ }
  have := hI.two_files hq hpos hq'
  omega

end Close

theorem GInv.close_step (hI : GInv sb K V A B s w γ) (hg : γ p = g) (hrun : g.run = true)
    (hup : GivesUp s p f g g') {x : Option File} (h : filecloseRef f s = .ok (x, s')) :
    Kept V s s' ∧ match x with
      | none => GInv sb K V A B s' w (update γ p g')
      | some ff => match ff.type, ff.ip with
        | .inode, some k => ∃ i t, GInv sb K V A B s' w (update γ p
            { g' with refs := ⟨k, i, some t⟩ :: g'.refs })
        | _, _ => GInv sb K V A B s' w (update γ p g') := by
  subst hg
  have hgrun : g'.run = true := by rw [hup.ghost]; exact hrun
  have hrefs : g'.refs = (γ p).refs := by rw [hup.ghost]
  unfold filecloseRef at h
  split at h
  · cases h
  next h1 =>
  split at h
  next h2 =>
    cases h
    exact hI.close_more hup (by omega)
  next h2 =>
    cases h
    have hone : (s.ftable f).ref = 1 := by omega
    have hkept : Kept V s (s.setFile f { s.ftable f with ref := 0, type := .none }) :=
      Kept.of_vol_eq rfl fun _ _ => ⟨rfl, rfl⟩
    refine ⟨hkept, ?_⟩
    dsimp only
    split
    next k ht hk =>
      obtain ⟨hfree, -⟩ := hI.file f k ht hk
      refine ⟨(s.icache k).inum, (s.vol.dinode (s.icache k).inum).type, ?_⟩
      refine (hI.close_last hup hone (hup.wf.addRef hgrun _) (fun l => ?_) fun r hr => ?_).2
      · rw [List.map_cons, List.count_cons, hrefs, fileRef_inode ht hk]
        simp only [beq_iff_eq]
        omega
      · rcases List.mem_cons.mp hr with rfl | hr
        · refine ⟨⟨rfl, fun t ht' => ?_⟩, fun _ q _ hq => (hI.alone q k hq).2.1 f ht hk⟩
          cases ht'
          exact ⟨hfree, rfl⟩
        · rw [hrefs] at hr
          exact ⟨(hI.loc p).refs_ok r hr, fun hne q hq => hI.not_freeing hr hne hq⟩
    next hne =>
      have hwf : ({ g' with refs := g'.refs } : Ghost P).WF := hup.wf
      refine (hI.close_last hup hone hwf (fun l => ?_) fun r hr => ?_).2
      · unfold fileRef
        rw [hrefs, if_neg fun h => hne l h.1 h.2, Nat.zero_add]
      · rw [hrefs] at hr
        exact ⟨(hI.loc p).refs_ok r hr, fun hne q hq => hI.not_freeing hr hne hq⟩

theorem GInv.fill_step (hI : GInv sb K V A B s w γ) (hg : γ p = g) (hf : f ∈ g.fresh)
    (hvia : g.via = none) (hnf : g.freeing = none) {fl : File} (href : fl.ref = (s.ftable f).ref)
    {rs : List Ref} (hrs : ∀ r ∈ rs, r ∈ g.refs)
    (hwf : ({ g with refs := rs, fresh := g.fresh.filter (· ≠ f) } : Ghost P).WF)
    (hslots : ∀ k, fileRef fl k + (rs.map Ref.slot).count k = (g.refs.map Ref.slot).count k)
    (hfile : ∀ k, fl.type = .inode → fl.ip = some k →
      ∃ r ∈ g.refs, r.slot = k ∧ ∃ t, r.type = some t ∧ (fl.writable = true → t ≠ .dir)) :
    Kept V s (s.setFile f fl) ∧ GInv sb K V A B (s.setFile f fl) w (update γ p
      { g with refs := rs, fresh := g.fresh.filter (· ≠ f) }) := by
  subst hg
  have hl := hI.loc p
  obtain ⟨hone, hnone, hpos⟩ := hl.fresh f hf
  refine hI.file_step
    { locks := rfl
      child := rfl
      freeing := rfl
      slots := fun k => by
        have hold : fileRef (s.ftable f) k = 0 := fileRef_other (by rw [hnone]; simp) k
        rw [hold, Nat.zero_add]
        exact hslots k
      fds := fun _ _ => rfl
      ref := by rw [href]; rfl
      bound := hI.fbound f (by omega)
      none := fun h0 => by omega
      others := fun q hq hq' => ?_
      file := fun k ht hi => ?_
      conf := fun r hr hne q hq => hI.not_freeing (hrs r hr) hne hq
      loc := hl.setFile rfl hwf (fun r hr => hl.refs_ok r (hrs r hr))
        (fun y hy => by change (γ p).via = some y at hy; rw [hvia] at hy; cases hy) hl.out
        fun f' hf' => ?_ }
  · have := hI.two_files hq hpos hq'
    omega
  · obtain ⟨r, hr, rfl, t, ht', hw⟩ := hfile k ht hi
    obtain ⟨hfree, htype⟩ := hl.conf r hr t ht'
    refine ⟨fun q => ?_, ?_⟩
    · by_cases hq : q = p
      · rw [hq, hnf]
        simp
      · exact hI.not_freeing hr (by rw [ht']; simp) hq
    · rw [hl.inum r hr, htype]
      exact ⟨hfree, hw⟩
  · obtain ⟨hmem, hne⟩ := List.mem_filter.mp hf'
    exact ⟨(hl.fresh f' hmem).2.2, .inl ⟨hmem, by simpa using hne⟩⟩

theorem GInv.open_step (hI : GInv sb K V A B s w γ) (hg : γ p = g) (hf : f ∈ g.fresh)
    (hvia : g.via = none) (hnf : g.freeing = none) {r : Ref} {rs : List Ref} {t : FType}
    (hrs : g.refs.Perm (r :: rs)) (ht : r.type = some t) {omode : ℕ}
    (hdir : omode ≠ O_RDONLY → t ≠ .dir)
    (hwf : ({ g with refs := rs, fresh := g.fresh.filter (· ≠ f) } : Ghost P).WF) {u : Unit}
    (h : openFile f r.slot omode s = .ok (u, s')) :
    Kept V s s' ∧ GInv sb K V A B s' w (update γ p
      { g with refs := rs, fresh := g.fresh.filter (· ≠ f) }) := by
  cases h
  refine hI.fill_step hg hf hvia hnf (by rfl) (fun x hx =>
    hrs.mem_iff.mpr (List.mem_cons_of_mem _ hx))
    hwf (fun k => ?_) fun k _ hi => ?_
  · rw [fileRef_inode rfl rfl, (hrs.map Ref.slot).count_eq, List.map_cons, List.count_cons]
    simp only [beq_iff_eq]
    omega
  · cases hi
    refine ⟨r, hrs.mem_iff.mpr List.mem_cons_self, rfl, t, ht, fun hw => hdir ?_⟩
    rintro rfl
    simp [O_RDONLY] at hw

theorem GInv.pipe_step (hI : GInv sb K V A B s w γ) (hg : γ p = g) (hrun : g.run = true)
    (hf : f ∈ g.fresh) (hvia : g.via = none) (hnf : g.freeing = none) (rd wr : Bool) :
    Kept V s (s.setFile f { s.ftable f with type := .pipe, readable := rd, writable := wr }) ∧
    GInv sb K V A B
      (s.setFile f { s.ftable f with type := .pipe, readable := rd, writable := wr }) w
      (update γ p { g with fresh := g.fresh.filter (· ≠ f) }) := by
  have hwf : g.WF := by rw [← hg]; exact (hI.loc p).wf
  have hwf' : ({ g with refs := g.refs, fresh := g.fresh.filter (· ≠ f) } : Ghost P).WF :=
    hwf.congr hrun rfl rfl rfl rfl rfl
  exact hI.fill_step hg hf hvia hnf (by rfl) (fun _ hx => hx) hwf'
    (fun k => by rw [fileRef_other (by simp), Nat.zero_add]) fun k ht => by cases ht

end Xv6.Fs
