import Xv6.Files.Invariant

/-!
# The lifetime of files and pipes

1. A `pipe` that fails leaves everything as it was, but for fields of free files (`sysPipe_spec`).
2. Between calls descriptors account for all references, and files in use for all open ends.
-/

namespace Xv6.Files

open Fs (FdType)
open Function Finset

/-! ## A call of `pipe` -/

def Sys.pipeLabel (s : Sys) (p : Pid) : Option Label :=
  match (s.proc p).pc with
  | .pipe1 _ => some (.pipeNext p)
  | .pipe2 _ _ => some (.pipeEnd p)
  | .closing _ _ => some (.closeNext p)
  | .pipeclosing _ _ _ _ => some (.pipeclose p)
  | _ => none

def finish (p : Pid) : ℕ → Sys → Option Sys
  | 0, _ => none
  | n + 1, s =>
    match s.pipeLabel p with
    | none => some s
    | some l => (step s l).bind (finish p n)

def sysPipe (s : Sys) (p : Pid) : Option Sys := (step s (.pipeAlloc p)).bind (finish p 8)

/-- The same file, or a free one. `pipealloc` leaves its marks in files that it has to free again.
-/
def SameFile (a b : File) : Prop :=
  a = b ∨ (a.ref = 0 ∧ b.ref = 0 ∧ a.type = .none ∧ b.type = .none ∧ a.ip = b.ip ∧ a.off = b.off)

structure Undone (s : Sys) (p : Pid) (fs : List Fno) (t : Sys) : Prop where
  others : ∀ q, q ≠ p → t.proc q = s.proc q
  ofile : (t.proc p).ofile = (s.proc p).ofile
  pages : t.free = s.free ∧ t.pages = s.pages ∧ t.others = s.others
  pipes : ∀ v ∈ s.pages, t.pipes v = s.pipes v
  files : ∀ f, f ∉ fs → SameFile (s.ftable f) (t.ftable f)
  held : ∀ f ∈ fs, SameFile (s.ftable f) { t.ftable f with ref := 0, type := .none } ∧
    (t.ftable f).ref = 1 ∧ (t.ftable f).type = .none

section SysPipe

variable {s t : Sys} {p : Pid} {f : Fno} {fs : List Fno}

theorem fileclose_last (href : (s.ftable f).ref = 1) (ht : (s.ftable f).type = .none) :
    s.fileclose f = some (s.setFile f { s.ftable f with ref := 0, type := .none }, none) := by
  simp [Sys.fileclose, href, ht]

variable {v : ℕ}

theorem fileclose_pipe (href : (s.ftable f).ref = 1) (ht : (s.ftable f).type = .pipe)
    (hv : (s.ftable f).pipe = some v) :
    s.fileclose f = some ((s.setFile f { s.ftable f with ref := 0, type := .none }).use
      (.pipe .pipe), some (v, (s.ftable f).writable)) := by
  simp [Sys.fileclose, href, ht, hv]

variable {n : ℕ}

theorem finish_next {l : Label} (hl : s.pipeLabel p = some l) (hs : step s l = some t) :
    finish p (n + 1) s = finish p n t := by
  simp [finish, hl, hs]

theorem finish_done (hi : (s.proc p).pc = .idle) : finish p (n + 1) s = some s := by
  simp [finish, Sys.pipeLabel, hi]

variable {pc : Pc}

@[simp]
theorem Sys.goto_pc : ((s.goto p pc).proc p).pc = pc := by simp [Sys.goto]

@[simp]
theorem Sys.ret_pc {r : ℤ} : ((s.ret p r).proc p).pc = .idle := by simp [Sys.ret]

@[simp]
theorem Sys.ret_ret {r : ℤ} : ((s.ret p r).proc p).ret = r := by simp [Sys.ret]

theorem Undone.setPc (h : Undone s p fs t) (pc : Pc) (r : ℤ) :
    Undone s p fs (t.setProc p ⟨(t.proc p).ofile, pc, r⟩) where
  others q hq := by
    rw [Sys.setProc_proc, update_of_ne hq]
    exact h.others q hq
  ofile := by
    rw [Sys.setProc_proc, update_self]
    exact h.ofile
  pages := h.pages
  pipes := h.pipes
  files := h.files
  held := h.held

theorem Undone.close (h : Undone s p (f :: fs) t) (hf : f ∉ fs) :
    Undone s p fs (t.setFile f { t.ftable f with ref := 0, type := .none }) where
  others := h.others
  ofile := h.ofile
  pages := h.pages
  pipes := h.pipes
  files g hg := by
    rw [Sys.setFile_ftable]
    by_cases hgf : g = f
    · rw [hgf, update_self]
      exact (h.held f List.mem_cons_self).1
    · rw [update_of_ne hgf]
      exact h.files g (by simp [hgf, hg])
  held g hg := by
    have hgf : g ≠ f := fun heq => hf (heq ▸ hg)
    rw [Sys.setFile_ftable, update_of_ne hgf]
    exact h.held g (List.mem_cons_of_mem _ hg)

theorem SameFile.of_free {a b c : File} (h : SameFile a b) (href : b.ref = 0)
    (ht : b.type = .none) (hcref : c.ref = 0) (hct : c.type = .none) (hip : c.ip = b.ip)
    (hoff : c.off = b.off) : SameFile a c := by
  rcases h with rfl | ⟨har, -, hat, -, haip, haoff⟩
  · exact Or.inr ⟨href, hcref, ht, hct, hip.symm, hoff.symm⟩
  · exact Or.inr ⟨har, hcref, hat, hct, haip.trans hip.symm, haoff.trans hoff.symm⟩

theorem Undone.alloc (h : Undone s p fs t) (href : (t.ftable f).ref = 0)
    (ht : (t.ftable f).type = .none) : Undone s p (fs ++ [f]) (t.refUp f) where
  others := h.others
  ofile := h.ofile
  pages := h.pages
  pipes := h.pipes
  files g hg := by
    obtain ⟨hgfs, hgf⟩ : g ∉ fs ∧ g ≠ f := by simpa using hg
    simp only [Sys.refUp, Sys.setFile_ftable, update_of_ne hgf]
    exact h.files g hgfs
  held g hg := by
    by_cases hgf : g = f
    · subst hgf
      have hgfs : g ∉ fs := by
        intro hmem
        have := (h.held g hmem).2.1
        omega
      refine ⟨(h.files g hgfs).of_free href ht rfl rfl ?_ ?_, ?_, ?_⟩
      · simp [Sys.refUp]
      · simp [Sys.refUp]
      · simp [Sys.refUp, href]
      · simpa [Sys.refUp] using ht
    · simp only [Sys.refUp, Sys.setFile_ftable, update_of_ne hgf]
      exact h.held g (by simpa [hgf] using hg)

theorem Undone.refl : Undone s p [] s :=
  ⟨fun _ _ => rfl, rfl, ⟨rfl, rfl, rfl⟩, fun _ _ => rfl, fun _ _ => Or.inl rfl, by simp⟩

theorem finish_closing (h : Undone s p fs t) (hnd : fs.Nodup)
    (hc : (t.proc p).pc = .closing fs (-1)) (n : ℕ) :
    ∃ s', finish p (fs.length + n + 2) t = some s' ∧ Undone s p [] s' ∧
      (s'.proc p).pc = .idle ∧ (s'.proc p).ret = -1 := by
  induction fs generalizing t with
  | nil =>
    refine ⟨t.ret p (-1), ?_, h.setPc _ _, by simp, by simp⟩
    rw [List.length_nil, Nat.zero_add, finish_next (t := t.ret p (-1)) (l := .closeNext p)]
    · exact finish_done (by simp)
    · simp [Sys.pipeLabel, hc]
    · simp [step, hc, Sys.closeNext]
  | cons f fs ih =>
    obtain ⟨hf, hnd⟩ := List.nodup_cons.mp hnd
    obtain ⟨-, href, ht⟩ := h.held f List.mem_cons_self
    obtain ⟨s', hs', hrest⟩ :=
      ih ((h.close hf).setPc (.closing fs (-1)) (t.proc p).ret) hnd (by simp)
    refine ⟨s', ?_, hrest⟩
    rw [← hs', List.length_cons, show fs.length + 1 + n + 2 = fs.length + n + 2 + 1 by omega]
    refine finish_next (l := .closeNext p) (by simp [Sys.pipeLabel, hc]) ?_
    simp [step, hc, Sys.closeNext, fileclose_last href ht, Sys.afterClose, Sys.goto]

theorem Sys.goto_goto {pc' : Pc} : (s.goto p pc).goto p pc' = s.goto p pc' := by
  simp [Sys.goto, Sys.setProc]

variable {w : Bool}

theorem Sys.goto_pipeclose : (s.goto p pc).pipeclose v w = (s.pipeclose v w).goto p pc := by
  have hpipes : ((s.goto p pc).closeEnd v w).pipes v = (s.closeEnd v w).pipes v := rfl
  simp only [Sys.pipeclose, hpipes]
  split_ifs <;> rfl

def Sys.closePipe (s : Sys) (p : Pid) (f : Fno) (v : ℕ) (fs : List Fno) : Sys :=
  (((s.setFile f { s.ftable f with ref := 0, type := .none }).use (.pipe .pipe)).pipeclose v
    (s.ftable f).writable).goto p (.closing fs (-1))

theorem finish_closePipe (v : ℕ) (f : Fno) (fs : List Fno)
    (hc : (t.proc p).pc = .closing (f :: fs) (-1)) (href : (t.ftable f).ref = 1)
    (ht : (t.ftable f).type = .pipe) (hv : (t.ftable f).pipe = some v) :
    finish p (n + 2) t = finish p n (t.closePipe p f v fs) := by
  rw [finish_next (l := .closeNext p)
    (t := ((t.setFile f { t.ftable f with ref := 0, type := .none }).use (.pipe .pipe)).goto p
      (.pipeclosing v (t.ftable f).writable fs (-1)))]
  · refine finish_next (l := .pipeclose p) (by simp [Sys.pipeLabel]) ?_
    simp only [step, Sys.goto_pc, Sys.goto_pipeclose, Sys.goto_goto]
    rfl
  · simp [Sys.pipeLabel, hc]
  · simp [step, hc, Sys.closeNext, fileclose_pipe href ht hv, Sys.afterClose]

theorem closePipe_proc_other {q : Pid} (hq : q ≠ p) : (s.closePipe p f v fs).proc q = s.proc q := by
  simp [Sys.closePipe, Sys.goto, Sys.pipeclose_proc, update_of_ne hq]

theorem closePipe_proc :
    (s.closePipe p f v fs).proc p = ⟨(s.proc p).ofile, .closing fs (-1), (s.proc p).ret⟩ := by
  simp [Sys.closePipe, Sys.goto, Sys.pipeclose_proc]

theorem closePipe_ftable :
    (s.closePipe p f v fs).ftable =
      update s.ftable f { s.ftable f with ref := 0, type := .none } := by
  unfold Sys.closePipe Sys.goto
  funext g
  rw [Sys.setProc_ftable, Sys.pipeclose_ftable]
  rfl

theorem pipeclose_first (hp : s.pipes v = ⟨true, true⟩) : s.pipeclose v w = s.closeEnd v w := by
  have hopen : ¬ (((s.closeEnd v w).pipes v).readopen = false ∧
      ((s.closeEnd v w).pipes v).writeopen = false) := by
    cases w <;> simp [hp, Pipe.close]
  simp only [Sys.pipeclose, if_neg hopen]

theorem pipeclose_second (hp : s.pipes v = Pipe.close ⟨true, true⟩ (!w)) :
    s.pipeclose v w = (s.closeEnd v w).freePage v := by
  have hboth : ((s.closeEnd v w).pipes v).readopen = false ∧
      ((s.closeEnd v w).pipes v).writeopen = false := by
    cases w <;> simp [hp, Pipe.close]
  simp only [Sys.pipeclose, if_pos hboth]

theorem closePipe_first (p : Pid) (f : Fno) (fs : List Fno) (hp : s.pipes v = ⟨true, true⟩) :
    (s.closePipe p f v fs).free = s.free ∧ (s.closePipe p f v fs).pages = s.pages ∧
    (s.closePipe p f v fs).others = s.others ∧ (s.closePipe p f v fs).pipes =
      update s.pipes v ((s.pipes v).close (s.ftable f).writable) := by
  unfold Sys.closePipe
  rw [pipeclose_first (by exact hp)]
  exact ⟨rfl, rfl, rfl, rfl⟩

theorem closePipe_second (p : Pid) (fs : List Fno)
    (hp : s.pipes v = Pipe.close ⟨true, true⟩ (!(s.ftable f).writable)) :
    (s.closePipe p f v fs).free = v :: s.free ∧ (s.closePipe p f v fs).pages = s.pages.erase v ∧
    (s.closePipe p f v fs).others = s.others ∧
      ∀ u, u ≠ v → (s.closePipe p f v fs).pipes u = s.pipes u := by
  unfold Sys.closePipe
  rw [pipeclose_second (by exact hp)]
  exact ⟨rfl, rfl, rfl, fun u hu => update_of_ne hu _ _⟩

theorem finish_pipeFails {f0 f1 : Fno} {free : List ℕ} (h : Undone s p [f0, f1] t)
    (hne : f0 ≠ f1) (hfree : t.free = v :: free) (hv : v ∉ s.pages) (n : ℕ) :
    ∃ s', finish p (n + 6) ((t.pipeInit f0 f1 v free).goto p (.closing [f0, f1] (-1))) = some s' ∧
      Undone s p [] s' ∧ (s'.proc p).pc = .idle ∧ (s'.proc p).ret = -1 := by
  obtain ⟨hsame0, href0, -⟩ := h.held f0 (by simp)
  obtain ⟨hsame1, href1, -⟩ := h.held f1 (by simp)
  set t1 := (t.pipeInit f0 f1 v free).goto p (.closing [f0, f1] (-1)) with ht1
  have hf0 : t1.ftable f0 = { t.ftable f0 with
      type := .pipe, readable := true, writable := false, pipe := some v } := by
    simp [ht1, Sys.goto, Sys.pipeInit, Sys.pipeFile, update_of_ne hne]
  have hf1 : t1.ftable f1 = { t.ftable f1 with
      type := .pipe, readable := false, writable := true, pipe := some v } := by
    simp [ht1, Sys.goto, Sys.pipeInit, Sys.pipeFile, update_of_ne hne.symm]
  have hother : ∀ g, g ≠ f0 → g ≠ f1 → t1.ftable g = t.ftable g := fun g h0 h1 =>
    pipeInit_other h0 h1
  -- the read end
  have hp1 : t1.pipes v = ⟨true, true⟩ := by
    simp [ht1, Sys.goto, Sys.pipeInit, Sys.pipeFile]
  obtain ⟨hfree2, hpages2, hothers2, hpipes2⟩ := closePipe_first p f0 [f1] hp1
  set t2 := t1.closePipe p f0 v [f1] with ht2
  have hft2 : t2.ftable = _ := closePipe_ftable
  have hf1' : t2.ftable f1 = t1.ftable f1 := by rw [hft2, update_of_ne hne.symm]
  -- the write end
  have hp2 : t2.pipes v = Pipe.close ⟨true, true⟩ (!(t2.ftable f1).writable) := by
    rw [hpipes2, update_self, hp1, hf1', hf1, hf0]
    rfl
  obtain ⟨hfree3, hpages3, hothers3, hpipes3⟩ := closePipe_second p [] hp2
  set t3 := t2.closePipe p f1 v [] with ht3
  have hft3 : t3.ftable = _ := closePipe_ftable
  refine ⟨t3.ret p (-1), ?_, ?_, by simp, by simp⟩
  · rw [show n + 6 = n + 4 + 2 by omega, finish_closePipe v f0 [f1],
      ← ht2, show n + 4 = n + 2 + 2 by omega, finish_closePipe v f1 [], ← ht3,
      finish_next (t := t3.ret p (-1)) (l := .closeNext p)]
    · exact finish_done (by simp)
    · simp [Sys.pipeLabel, ht3, closePipe_proc]
    · simp [step, ht3, closePipe_proc, Sys.closeNext]
    · rw [ht2, closePipe_proc]
    · rw [hf1', hf1]
      exact href1
    · rw [hf1', hf1]
    · rw [hf1', hf1]
    · simp [ht1]
    · rw [hf0]
      exact href0
    · rw [hf0]
    · rw [hf0]
  · refine Undone.setPc
      ⟨fun q hq => ?_, ?_, ⟨?_, ?_, ?_⟩, fun u hu => ?_, fun g _ => ?_, by simp⟩ _ _
    · rw [ht3, closePipe_proc_other hq, ht2, closePipe_proc_other hq]
      simpa [ht1, Sys.goto, update_of_ne hq] using h.others q hq
    · rw [ht3, closePipe_proc, ht2, closePipe_proc]
      simpa [ht1, Sys.goto] using h.ofile
    · rw [hfree3, hfree2, ← h.pages.1, hfree]
      rfl
    · rw [hpages3, hpages2, ← h.pages.2.1]
      exact List.erase_cons_head v t.pages
    · rw [hothers3, hothers2]
      exact h.pages.2.2
    · have huv : u ≠ v := fun heq => hv (heq ▸ hu)
      rw [hpipes3 u huv, hpipes2, update_of_ne huv, ← h.pipes u hu]
      simp [ht1, Sys.goto, Sys.pipeInit, Sys.pipeFile, update_of_ne huv]
    · rw [hft3]
      by_cases hg1 : g = f1
      · rw [hg1, update_self, hf1', hf1]
        exact hsame1.of_free rfl rfl rfl rfl rfl rfl
      · rw [update_of_ne hg1, hft2]
        by_cases hg0 : g = f0
        · rw [hg0, update_self, hf0]
          exact hsame0.of_free rfl rfl rfl rfl rfl rfl
        · rw [update_of_ne hg0, hother g hg0 hg1]
          exact h.files g (by simp [hg0, hg1])

/-- **A call of `pipe`**, in a state that the system can be in, returns 0; or it returns −1, and
descriptors, free pages and files are as they were, but for fields of files that are free. -/
theorem sysPipe_spec (h : Inv s) (hi : (s.proc p).pc = .idle) :
    ∃ s', sysPipe s p = some s' ∧ (s'.proc p).pc = .idle ∧
      ((s'.proc p).ret = 0 ∨ ((s'.proc p).ret = -1 ∧ Undone s p [] s')) := by
  unfold sysPipe
  have hstep : step s (.pipeAlloc p) = some (s.pipeAlloc p) := by simp [step, hi]
  rw [hstep, Option.bind_some]
  unfold Sys.pipeAlloc
  cases hf0 : s.filealloc with
  | none => exact ⟨s.ret p (-1), finish_done (by simp), by simp, Or.inr ⟨by simp, .setPc .refl _ _⟩⟩
  | some f0 =>
    dsimp only
    have href0 := filealloc_ref hf0
    have hinv1 : Inv ((s.refUp f0).goto p (.pipe1 f0)) :=
      h.does True (.pipeFirst hi href0)
    have hun1 : Undone s p [f0] ((s.refUp f0).goto p (.pipe1 f0)) :=
      (Undone.refl.alloc href0 (h.typed f0 href0)).setPc _ _
    set t1 := (s.refUp f0).goto p (.pipe1 f0) with ht1
    have hc1 : (t1.proc p).pc = .pipe1 f0 := by simp [ht1]
    rw [finish_next (t := t1.pipeNext p f0) (l := .pipeNext p) (by simp [Sys.pipeLabel, hc1])
      (by simp [step, hc1])]
    unfold Sys.pipeNext
    cases hf1 : t1.filealloc with
    | none =>
      obtain ⟨s', hs', hun, hidle, hret⟩ := finish_closing (hun1.setPc (.closing [f0] (-1)) _)
        (by simp) (by simp) 4
      exact ⟨s', hs', hidle, Or.inr ⟨hret, hun⟩⟩
    | some f1 =>
      dsimp only
      have href1 := filealloc_ref hf1
      have hinv2 : Inv ((t1.refUp f1).goto p (.pipe2 f0 f1)) :=
        hinv1.does True (.pipeSecond hc1 href1)
      have hun2 : Undone s p [f0, f1] ((t1.refUp f1).goto p (.pipe2 f0 f1)) :=
        (hun1.alloc href1 (hinv1.typed f1 href1)).setPc _ _
      set t2 := (t1.refUp f1).goto p (.pipe2 f0 f1) with ht2
      have hc2 : (t2.proc p).pc = .pipe2 f0 f1 := by simp [ht2]
      obtain ⟨hne, -, -⟩ := hinv2.pipe2 hc2
      rw [finish_next (t := t2.pipeEnd p f0 f1) (l := .pipeEnd p) (by simp [Sys.pipeLabel, hc2])
        (by simp [step, hc2])]
      unfold Sys.pipeEnd
      cases hfree : t2.free with
      | nil =>
        obtain ⟨s', hs', hun, hidle, hret⟩ := finish_closing
          (hun2.setPc (.closing [f0, f1] (-1)) _) (by simpa using hne) (by simp) 2
        exact ⟨s', hs', hidle, Or.inr ⟨hret, hun⟩⟩
      | cons v free =>
        have hv : v ∉ s.pages := by
          rw [← hun2.pages.2.1]
          exact hinv2.pipes.notMem_pages hfree
        obtain ⟨s', hs', hun, hidle, hret⟩ := finish_pipeFails hun2 hne hfree hv 0
        dsimp only
        cases hd0 : fdalloc ((t2.pipeInit f0 f1 v free).proc p).ofile with
        | none => exact ⟨s', hs', hidle, Or.inr ⟨hret, hun⟩⟩
        | some fd0 =>
          dsimp only
          cases hd1 : fdalloc
              (((t2.pipeInit f0 f1 v free).setOfile p fd0 (some f0)).proc p).ofile with
          | none =>
            dsimp only
            rw [Sys.setOfile_undo (fdalloc_none hd0)]
            exact ⟨s', hs', hidle, Or.inr ⟨hret, hun⟩⟩
          | some fd1 => exact ⟨_, finish_done (by simp), by simp, Or.inl (by simp)⟩

end SysPipe

/-! ## Between calls -/

def Quiet (s : Sys) : Prop := ∀ p, (s.proc p).pc = .idle ∨ (s.proc p).pc = .unused

instance (s : Sys) : Decidable (Quiet s) := inferInstanceAs (Decidable (∀ _, _))

section Quiet

variable {s : Sys}

theorem Inv.ref_eq_card (h : Inv s) (hq : Quiet s) (f : Fno) :
    (s.ftable f).ref =
      #{x : Pid × Fd | (s.proc x.1).pc ≠ .unused ∧ (s.proc x.1).ofile x.2 = some f} := by
  rw [h.refs f, card_filter, Fintype.sum_prod_type]
  refine sum_congr rfl fun p _ => ?_
  have hheld : (s.proc p).pc.held = [] := by
    rcases hq p with hp | hp <;> rw [hp] <;> rfl
  rw [Proc.refs, hheld, List.count_nil, Nat.add_zero, entries]
  refine sum_congr rfl fun fd _ => if_congr ?_ rfl rfl
  refine ⟨fun hfd => ⟨fun hu => ?_, hfd⟩, And.right⟩
  have hplaced := h.placed p
  simp only [Proc.Placed, hu] at hplaced
  rw [hplaced fd] at hfd
  simp at hfd

theorem Inv.isOpen_iff (h : Inv s) (hq : Quiet s) {v : ℕ} (hv : v ∈ s.pages) (w : Bool) :
    (s.pipes v).isOpen w = true ↔ ∃ f, 0 < (s.ftable f).ref ∧ (s.ftable f).type = .pipe ∧
      (s.ftable f).pipe = some v ∧ (s.ftable f).writable = w := by
  have hends := h.pipes.ends v w
  have hprocs : ∑ p, (s.proc p).pc.ends v w = 0 := by
    refine sum_eq_zero fun p _ => ?_
    rcases hq p with hp | hp <;> rw [hp] <;> rfl
  rw [hprocs, Nat.add_zero] at hends
  constructor
  · intro hopen
    rw [if_pos ⟨hv, hopen⟩] at hends
    obtain ⟨f, -, hf⟩ := exists_ne_zero_of_sum_ne_zero (hends.trans_ne one_ne_zero)
    have hend : (s.ftable f).type = .pipe ∧ (s.ftable f).pipe = some v ∧
        (s.ftable f).writable = w := by
      by_contra hno
      exact hf (if_neg hno)
    refine ⟨f, Nat.pos_of_ne_zero fun h0 => ?_, hend⟩
    rw [h.typed f h0] at hend
    simp at hend
  · rintro ⟨f, -, hend⟩
    by_contra hopen
    rw [if_neg fun hand => hopen hand.2] at hends
    have hle : (s.ftable f).ends v w ≤ ∑ f, (s.ftable f).ends v w :=
      Account.le_sum (f := fun f => (s.ftable f).ends v w) (mem_univ f)
    rw [hends, File.ends, if_pos hend] at hle
    omega

end Quiet

/-- **File table and pipes.** In every state that the calls can lead to: between calls a file has as
many references as descriptors point to it, and an end of a pipe is open exactly when a file in use
is that end. A page is a pipe as long as an end is open; it has been freed once for each time it was
taken, but for the time that it is a pipe. No page is on the free list twice, or free and in use. A
call of `pipe` that returns −1 leaves everything as it was, but for fields of free files. -/
theorem files_and_pipes {free : List ℕ} (hfree : free.Nodup) {s : Sys}
    (h : Lts.Reach step (fun _ _ => True) (start free) s) :
    (Quiet s →
      (∀ f, (s.ftable f).ref =
        #{x : Pid × Fd | (s.proc x.1).pc ≠ .unused ∧ (s.proc x.1).ofile x.2 = some f}) ∧
      ∀ v ∈ s.pages, ∀ w, (s.pipes v).isOpen w = true ↔
        ∃ f, 0 < (s.ftable f).ref ∧ (s.ftable f).type = .pipe ∧ (s.ftable f).pipe = some v ∧
          (s.ftable f).writable = w) ∧
    (∀ v, (v ∈ s.pages ↔ ∃ w, (s.pipes v).isOpen w = true) ∧
      s.made v = s.freed v + if v ∈ s.pages then 1 else 0) ∧
    (s.free ++ s.pages ++ s.others).Nodup ∧
    ∀ p, (s.proc p).pc = .idle → ∃ s', sysPipe s p = some s' ∧ (s'.proc p).pc = .idle ∧
      ((s'.proc p).ret = 0 ∨ ((s'.proc p).ret = -1 ∧ Undone s p [] s')) := by
  have hinv := Inv.reach hfree h
  refine ⟨fun hq => ⟨hinv.ref_eq_card hq, fun v hv => hinv.isOpen_iff hq hv⟩, fun v => ?_,
    hinv.pipes.nodup, fun p hi => sysPipe_spec hinv hi⟩
  exact ⟨hinv.pipes.alive v, hinv.pipes.count v⟩

def sharedPipe : List Label :=
  [.pipeAlloc 0, .pipeNext 0, .pipeEnd 0, .fork 0 1] ++ List.replicate (NOFILE + 1) (.forkNext 0) ++
    [.close 0 1, .closeNext 0, .closeNext 0]

theorem files_and_pipes_shared :
    ∃ s, Lts.Reach step (fun _ _ => True) (start [1]) s ∧ Quiet s ∧ s.pages = [1] ∧
      (s.ftable 0).ref = 2 ∧ (s.ftable 1).ref = 1 ∧
      (s.ftable 1).ref =
        #{x : Pid × Fd | (s.proc x.1).pc ≠ .unused ∧ (s.proc x.1).ofile x.2 = some 1} := by
  obtain ⟨s, -, hr, hu⟩ := @Lts.exists_reach _ _ step (fun _ _ => True) (start [1]) sharedPipe
    (fun s => Quiet s ∧ s.pages = [1] ∧ (s.ftable 0).ref = 2 ∧ (s.ftable 1).ref = 1)
    (by decide +kernel) (Lts.RunOk.trivial _ _)
  obtain ⟨hq, hpages, h0, h1⟩ :
      Quiet s ∧ s.pages = [1] ∧ (s.ftable 0).ref = 2 ∧ (s.ftable 1).ref = 1 := by simpa using hu
  exact ⟨s, hr, hq, hpages, h0, h1, ((files_and_pipes (by simp) hr).1 hq).1 1⟩

/-- With all descriptors in use `pipe` fails and leaves the address of the page that it had taken in
the file that it has given back. -/
theorem sysPipe_marks :
    ∃ s, Lts.Reach step (fun _ _ => True) (start [1]) s ∧ Quiet s ∧
      ∃ s', sysPipe s 0 = some s' ∧ (s'.proc 0).ret = -1 ∧ s'.ftable 1 ≠ s.ftable 1 := by
  obtain ⟨s, -, hr, hu⟩ := @Lts.exists_reach _ _ step (fun _ _ => True) (start [1])
    ([.openAlloc 0, .openSet 0 7 true true] ++ List.replicate (NOFILE - 1) (.dup 0 0))
    (fun s => Quiet s ∧ (sysPipe s 0).any fun s' => (s'.proc 0).ret = -1 ∧ s'.ftable 1 ≠ s.ftable 1)
    (by decide +kernel) (Lts.RunOk.trivial _ _)
  obtain ⟨hq, hany⟩ : Quiet s ∧ ((sysPipe s 0).any fun s' =>
      (s'.proc 0).ret = -1 ∧ s'.ftable 1 ≠ s.ftable 1) = true := by simpa using hu
  obtain ⟨s', hs', hret⟩ := (Option.any_eq_true _ _).mp hany
  exact ⟨s, hr, hq, s', hs', by simpa using hret⟩

end Xv6.Files
