import Xv6.Files.System
import Xv6.Lib.Account

/-!
# References of files and ends of pipes

The number of references of a file, and the open ends of a pipe, are those that descriptors and
calls in progress account for (`Inv`). The invariant is kept by every step (`Inv.does`): most steps
change one process and the files that it has references to (`Inv.of_local`).
-/

namespace Xv6.Files

open Fs (FdType)
open Function Finset

/-! ## References and open ends -/

def entries (ofile : Fd → Option Fno) (f : Fno) : ℕ := ∑ fd, if ofile fd = some f then 1 else 0

variable {o : Fd → Option Fno}

theorem entries_put {fd : Fd} (h : o fd = none) (g f : Fno) :
    entries (update o fd (some g)) f = entries o f + if g = f then 1 else 0 := by
  have hsum : entries (update o fd (some g)) f + _ = entries o f + _ :=
    Account.sum_update (fun x => if x = some f then 1 else 0) o fd (some g)
  simpa [h] using hsum

theorem entries_take {fd : Fd} {g : Fno} (h : o fd = some g) (f : Fno) :
    entries (update o fd none) f + (if g = f then 1 else 0) = entries o f := by
  have hsum : entries (update o fd none) f + _ = entries o f + _ :=
    Account.sum_update (fun x => if x = some f then 1 else 0) o fd none
  simpa [h] using hsum

theorem one_le_entries (fd : Fd) {f : Fno} (h : o fd = some f) : 1 ≤ entries o f := by
  have hle := Account.le_sum (f := fun k => if o k = some f then 1 else 0) (mem_univ fd)
  simpa [entries, h] using hle

/-- The references that a call in progress holds besides the descriptors. -/
def Pc.held : Pc → List Fno
  | .pipe1 f0 => [f0]
  | .pipe2 f0 f1 => [f0, f1]
  | .closing fs _ => fs
  | .pipeclosing _ _ fs _ => fs
  | _ => []

@[simp]
theorem Pc.held_idle : Pc.idle.held = [] := rfl

@[simp]
theorem Pc.held_closing (fs : List Fno) (r : ℤ) : (Pc.closing fs r).held = fs := rfl

@[simp]
theorem Pc.held_exiting (n : ℕ) : (Pc.exiting n).held = [] := rfl

def Pc.ends (v : ℕ) (w : Bool) : Pc → ℕ
  | .pipeclosing v' w' _ _ => if v' = v ∧ w' = w then 1 else 0
  | .exitclosing v' w' _ => if v' = v ∧ w' = w then 1 else 0
  | _ => 0

def Pc.fresh : Pc → List Fno
  | .opening f _ => [f]
  | .pipe1 f0 => [f0]
  | .pipe2 f0 f1 => [f0, f1]
  | _ => []

def Proc.Placed (pr : Proc) : Prop :=
  match pr.pc with
  | .unused => ∀ fd, pr.ofile fd = none
  | .opening f fd => pr.ofile fd = some f
  | .exiting n => ∀ fd : Fd, fd.val < n → pr.ofile fd = none
  | .exitclosing _ _ n => ∀ fd : Fd, fd.val < n → pr.ofile fd = none
  | _ => True

def Proc.refs (pr : Proc) (f : Fno) : ℕ := entries pr.ofile f + pr.pc.held.count f

def File.ends (v : ℕ) (w : Bool) (fl : File) : ℕ :=
  if fl.type = .pipe ∧ fl.pipe = some v ∧ fl.writable = w then 1 else 0

/-- Each open end of a pipe is one file, or about to be closed by one process. A pipe has an open
end. The pages are on one list each. -/
structure Pipes (s : Sys) : Prop where
  ends : ∀ v w, ∑ f, (s.ftable f).ends v w + ∑ p, (s.proc p).pc.ends v w =
    if v ∈ s.pages ∧ (s.pipes v).isOpen w then 1 else 0
  alive : ∀ v, v ∈ s.pages ↔ ∃ w, (s.pipes v).isOpen w
  nodup : (s.free ++ s.pages ++ s.others).Nodup
  count : ∀ v, s.made v = s.freed v + if v ∈ s.pages then 1 else 0

structure Inv (s : Sys) : Prop where
  pipes : Pipes s
  refs : ∀ f, (s.ftable f).ref = ∑ p, (s.proc p).refs f
  typed : ∀ f, (s.ftable f).ref = 0 → (s.ftable f).type = .none
  fresh : ∀ p, ∀ f ∈ (s.proc p).pc.fresh, (s.ftable f).type = .none ∧ (s.ftable f).ref = 1
  placed : ∀ p, (s.proc p).Placed
  forks : ∀ p np n, (s.proc p).pc = .forking np n →
    (s.proc np).pc = .embryo ∧ ∀ fd : Fd, n ≤ fd.val → (s.proc np).ofile fd = none
  alone : ∀ p q np n m, (s.proc p).pc = .forking np n → (s.proc q).pc = .forking np m → p = q

section Invariant

variable {s s' : Sys} {p q : Pid} {f g : Fno} {pr : Proc}

theorem Proc.Placed.refs_of_fresh (h : pr.Placed) (hf : f ∈ pr.pc.fresh) : 1 ≤ pr.refs f := by
  unfold Proc.Placed at h
  unfold Proc.refs
  cases hc : pr.pc with
  | opening g fd =>
    rw [hc] at h hf
    obtain rfl : f = g := by simpa [Pc.fresh] using hf
    exact (one_le_entries _ h).trans (Nat.le_add_right _ _)
  | pipe1 f0 =>
    rw [hc] at hf
    exact (List.count_pos_iff.mpr hf).trans_le (Nat.le_add_left _ _)
  | pipe2 f0 f1 =>
    rw [hc] at hf
    exact (List.count_pos_iff.mpr hf).trans_le (Nat.le_add_left _ _)
  | _ => simp [hc, Pc.fresh] at hf

theorem Inv.refs_le (h : Inv s) (p : Pid) (f : Fno) : (s.proc p).refs f ≤ (s.ftable f).ref := by
  rw [h.refs f]
  exact Account.le_sum (f := fun p => (s.proc p).refs f) (mem_univ p)

variable {n : ℕ}

theorem Inv.exiting (h : Inv s) (hc : (s.proc p).pc = .exiting n) (fd : Fd)
    (hfd : fd.val < n) : (s.proc p).ofile fd = none := by
  have hplaced := h.placed p
  simp only [Proc.Placed, hc] at hplaced
  exact hplaced fd hfd

variable {w : Bool} {v : ℕ}

theorem Inv.exitclosing (h : Inv s) (hc : (s.proc p).pc = .exitclosing v w n) (fd : Fd)
    (hfd : fd.val < n) : (s.proc p).ofile fd = none := by
  have hplaced := h.placed p
  simp only [Proc.Placed, hc] at hplaced
  exact hplaced fd hfd

theorem Inv.not_fresh (h : Inv s) (hp : 1 ≤ (s.proc p).refs f) (hqp : q ≠ p) :
    f ∉ (s.proc q).pc.fresh := by
  intro hf
  have hone := (h.fresh q f hf).2
  have hq := (h.placed q).refs_of_fresh hf
  have hle := Account.add_le_sum (f := fun p => (s.proc p).refs f) (mem_univ p) (mem_univ q)
    (Ne.symm hqp)
  rw [← h.refs f, hone] at hle
  omega

theorem Inv.not_fresh_of_free (h : Inv s) (hf : (s.ftable f).ref = 0) (q : Pid) :
    f ∉ (s.proc q).pc.fresh := by
  intro hmem
  have := (h.fresh q f hmem).2
  omega

theorem Inv.no_parent (h : Inv s) (hold : (s.proc p).pc ≠ .embryo) (q : Pid) (n : ℕ) :
    (s.proc q).pc ≠ .forking p n :=
  fun hq => hold (h.forks q p n hq).1

theorem Inv.childless (h : Inv s) (hold : (s.proc p).pc ≠ .embryo) :
    ∀ q n, (s.proc q).pc = .forking p n →
      pr.pc = .embryo ∧ ∀ fd : Fd, n ≤ fd.val → pr.ofile fd = none :=
  fun q n hq => absurd hq (h.no_parent hold q n)

theorem Inv.of_local (pr : Proc) (h : Inv s) (hproc : s'.proc = update s.proc p pr)
    (hchild : ∀ q n, (s.proc q).pc = .forking p n →
      pr.pc = .embryo ∧ ∀ fd : Fd, n ≤ fd.val → pr.ofile fd = none)
    (hfork : ∀ np n, pr.pc = .forking np n → np ≠ p ∧ (s.proc np).pc = .embryo ∧
      (∀ fd : Fd, n ≤ fd.val → (s.proc np).ofile fd = none) ∧
      ∀ q m, (s.proc q).pc = .forking np m → q = p)
    (hplaced : pr.Placed)
    (hrefs : ∀ f, (s'.ftable f).ref + (s.proc p).refs f = (s.ftable f).ref + pr.refs f)
    (htyped : ∀ f, (s'.ftable f).ref = 0 → (s'.ftable f).type = .none)
    (hkeep : ∀ q f, q ≠ p → f ∈ (s.proc q).pc.fresh →
      (s'.ftable f).type = (s.ftable f).type ∧ (s'.ftable f).ref = (s.ftable f).ref)
    (hfresh : ∀ f ∈ pr.pc.fresh, (s'.ftable f).type = .none ∧ (s'.ftable f).ref = 1)
    (hpipes : Pipes s') : Inv s' where
  pipes := hpipes
  refs f := by
    have hsum := Account.sum_update (Proc.refs · f) s.proc p pr
    have := hrefs f
    have := h.refs f
    rw [hproc]
    omega
  typed := htyped
  fresh q f := by
    rw [hproc]
    obtain rfl | hq := eq_or_ne q p
    · rw [update_self]
      exact hfresh f
    · rw [update_of_ne hq]
      intro hf
      obtain ⟨ht, hr⟩ := hkeep q f hq hf
      rw [ht, hr]
      exact h.fresh q f hf
  placed := by
    rw [hproc, forall_update_iff s.proc fun _ pr => pr.Placed]
    exact ⟨hplaced, fun q _ => h.placed q⟩
  forks q np n hf := by
    rw [hproc] at hf ⊢
    obtain rfl | hq := eq_or_ne q p
    · rw [update_self] at hf
      obtain ⟨hne, he, ho, -⟩ := hfork np n hf
      rw [update_of_ne hne]
      exact ⟨he, ho⟩
    · rw [update_of_ne hq] at hf
      obtain rfl | hnp := eq_or_ne np p
      · rw [update_self]
        exact hchild q n hf
      · rw [update_of_ne hnp]
        exact h.forks q np n hf
  alone q r np n m hq hr := by
    rw [hproc] at hq hr
    obtain rfl | hqp := eq_or_ne q p
    · obtain rfl | hrp := eq_or_ne r q
      · rfl
      · rw [update_self] at hq
        rw [update_of_ne hrp] at hr
        exact ((hfork np n hq).2.2.2 r m hr).symm
    · rw [update_of_ne hqp] at hq
      obtain rfl | hrp := eq_or_ne r p
      · rw [update_self] at hr
        exact (hfork np m hr).2.2.2 q n hq
      · rw [update_of_ne hrp] at hr
        exact h.alone q r np n m hq hr

theorem Pipes.of_ends (h : Pipes s) (hproc : s'.proc = update s.proc p pr)
    (hrest : (s'.free, s'.pages, s'.others, s'.pipes, s'.made, s'.freed) =
      (s.free, s.pages, s.others, s.pipes, s.made, s.freed))
    (hends : ∀ v w, ∑ f, (s'.ftable f).ends v w + pr.pc.ends v w =
      ∑ f, (s.ftable f).ends v w + (s.proc p).pc.ends v w) : Pipes s' := by
  simp only [Prod.mk.injEq] at hrest
  obtain ⟨hfree, hpages, hothers, hpipes, hmade, hfreed⟩ := hrest
  refine ⟨fun v w => ?_, ?_, ?_, ?_⟩
  · have hsum := Account.sum_update (Pc.ends v w <| Proc.pc ·) s.proc p pr
    have := hends v w
    have := h.ends v w
    rw [hpages, hpipes, hproc]
    omega
  · rw [hpages, hpipes]
    exact h.alive
  · rw [hfree, hpages, hothers]
    exact h.nodup
  · rw [hmade, hfreed, hpages]
    exact h.count

theorem Inv.setFile (pr : Proc) (h : Inv s) {fl : File} (hproc : s'.proc = update s.proc p pr)
    (hfile : s'.ftable = update s.ftable g fl)
    (hrest : (s'.free, s'.pages, s'.others, s'.pipes, s'.made, s'.freed) =
      (s.free, s.pages, s.others, s.pipes, s.made, s.freed))
    (hkeep : ∀ q, q ≠ p → g ∈ (s.proc q).pc.fresh →
      fl.type = (s.ftable g).type ∧ fl.ref = (s.ftable g).ref)
    (hchild : ∀ q n, (s.proc q).pc = .forking p n →
      pr.pc = .embryo ∧ ∀ fd : Fd, n ≤ fd.val → pr.ofile fd = none)
    (hfork : ∀ np n, pr.pc ≠ .forking np n) (hplaced : pr.Placed)
    (hrefs : ∀ f, pr.refs f + (if g = f then (s.ftable g).ref else 0) =
      (s.proc p).refs f + if g = f then fl.ref else 0)
    (htyped : fl.ref = 0 → fl.type = .none)
    (hends : ∀ v w, fl.ends v w + pr.pc.ends v w =
      (s.ftable g).ends v w + (s.proc p).pc.ends v w)
    (hfresh : ∀ f ∈ pr.pc.fresh,
      f = g ∧ fl.type = .none ∧ fl.ref = 1 ∨ f ≠ g ∧ f ∈ (s.proc p).pc.fresh) : Inv s' := by
  refine h.of_local pr hproc hchild (fun np n hf => absurd hf (hfork np n)) hplaced (fun f => ?_)
    ?_ (fun q f hq hf => ?_) (fun f hf => ?_) (h.pipes.of_ends hproc hrest fun v w => ?_)
  · have hbal := hrefs f
    rw [hfile]
    obtain rfl | hf := eq_or_ne f g
    · rw [if_pos rfl, if_pos rfl] at hbal
      rw [update_self]
      omega
    · rw [if_neg hf.symm, if_neg hf.symm] at hbal
      rw [update_of_ne hf]
      omega
  · rw [hfile, forall_update_iff s.ftable fun _ fl => fl.ref = 0 → fl.type = .none]
    exact ⟨htyped, fun f _ => h.typed f⟩
  · rw [hfile]
    obtain rfl | hfg := eq_or_ne f g
    · rw [update_self]
      exact hkeep q hq hf
    · rw [update_of_ne hfg]
      exact ⟨rfl, rfl⟩
  · rw [hfile]
    obtain ⟨rfl, hnew⟩ | ⟨hfg, hold⟩ := hfresh f hf
    · rw [update_self]
      exact hnew
    · rw [update_of_ne hfg]
      exact h.fresh p f hold
  · have hsum := Account.sum_update (File.ends v w) s.ftable g fl
    have := hends v w
    rw [hfile]
    omega

variable {r : ℤ} {pc : Pc}

theorem Inv.setPc (h : Inv s) (hold : ∀ q n, (s.proc q).pc ≠ .forking p n)
    (hfork : ∀ np n, pc = .forking np n → np ≠ p ∧ (s.proc np).pc = .embryo ∧
      (∀ fd : Fd, n ≤ fd.val → (s.proc np).ofile fd = none) ∧
      ∀ q m, (s.proc q).pc = .forking np m → q = p)
    (hplaced : (⟨(s.proc p).ofile, pc, r⟩ : Proc).Placed)
    (hheld : ∀ f, pc.held.count f = (s.proc p).pc.held.count f)
    (hends : ∀ v w, pc.ends v w = (s.proc p).pc.ends v w) (hfresh : pc.fresh = []) :
    Inv (s.setProc p ⟨(s.proc p).ofile, pc, r⟩) := by
  refine h.of_local _ rfl (fun q n hq => absurd hq (hold q n)) hfork hplaced (fun f => ?_) h.typed
    (fun _ f _ _ => ⟨rfl, rfl⟩) (by simp [hfresh]) (h.pipes.of_ends rfl rfl fun v w => ?_)
  · rw [Proc.refs, Proc.refs, hheld f]
    rfl
  · rw [← hends v w]
    rfl

theorem Inv.ret (h : Inv s) (r : ℤ) (hi : (s.proc p).pc = .idle) : Inv (s.ret p r) :=
  h.setPc (h.no_parent (by simp [hi])) (by simp) trivial (by simp [hi]) (by simp [hi, Pc.ends]) rfl

@[simp]
theorem Sys.refUp_proc : (s.refUp g).proc = s.proc := rfl

variable {fd : Fd}

theorem Sys.setOfile_goto {o : Option Fno} :
    (s.setOfile p fd o).goto p pc =
      s.setProc p ⟨update (s.proc p).ofile fd o, pc, (s.proc p).ret⟩ := by
  simp [Sys.setOfile, Sys.goto, Sys.setProc]

theorem Sys.setOfile_ret {o : Option Fno} :
    (s.setOfile p fd o).ret p r = s.setProc p ⟨update (s.proc p).ofile fd o, .idle, r⟩ := by
  simp [Sys.setOfile, Sys.ret, Sys.setProc]

theorem Inv.refUp (h : Inv s) (hg : ∀ q, q ≠ p → g ∉ (s.proc q).pc.fresh)
    (hchild : ∀ q n, (s.proc q).pc = .forking p n →
      pr.pc = .embryo ∧ ∀ fd : Fd, n ≤ fd.val → pr.ofile fd = none)
    (hfork : ∀ np n, pr.pc ≠ .forking np n) (hplaced : pr.Placed)
    (hrefs : ∀ f, pr.refs f = (s.proc p).refs f + if g = f then 1 else 0)
    (hends : ∀ v w, pr.pc.ends v w = (s.proc p).pc.ends v w)
    (hfresh : ∀ f ∈ pr.pc.fresh, (s.ftable g).ref = 0 ∧ (f = g ∨ f ∈ (s.proc p).pc.fresh)) :
    Inv ((s.refUp g).setProc p pr) := by
  refine h.setFile _ rfl rfl rfl (fun q hq hf => absurd hf (hg q hq)) hchild hfork hplaced
    (fun f => ?_) (by simp) (fun v w => ?_) (fun f hf => ?_)
  · rw [hrefs f]
    split_ifs
    · simp only
      omega
    · rfl
  · rw [hends]
    rfl
  · obtain ⟨hg0, rfl | hmem⟩ := hfresh f hf
    · exact .inl ⟨rfl, h.typed f hg0, by simp [hg0]⟩
    · refine .inr ⟨?_, hmem⟩
      rintro rfl
      have := (h.fresh p f hmem).2
      omega

theorem Inv.openFile (h : Inv s) (hi : (s.proc p).pc = .idle)
    (hf : (s.ftable f).ref = 0) (hfd : (s.proc p).ofile fd = none) :
    Inv (((s.refUp f).setOfile p fd (some f)).goto p (.opening f fd)) := by
  rw [Sys.setOfile_goto]
  refine h.refUp (fun q _ => h.not_fresh_of_free hf q) (h.childless (by simp [hi])) (by simp) ?_
    (fun g => ?_) (by simp [hi, Pc.ends]) ?_
  · show update (s.proc p).ofile fd (some f) fd = some f
    rw [update_self]
  · simp [Proc.refs, Pc.held, entries_put hfd, hi]
  · intro g hg
    exact ⟨hf, Or.inl (by simpa [Pc.fresh] using hg)⟩

theorem Inv.dup (h : Inv s) {fd' : Fd} (hi : (s.proc p).pc = .idle)
    (ho : (s.proc p).ofile fd = some f) (hfd : (s.proc p).ofile fd' = none) (r : ℤ) :
    Inv (((s.refUp f).setOfile p fd' (some f)).ret p r) := by
  rw [Sys.setOfile_ret]
  have hone : 1 ≤ (s.proc p).refs f := (one_le_entries _ ho).trans (Nat.le_add_right _ _)
  refine h.refUp (fun q => h.not_fresh hone) (h.childless (by simp [hi])) (by simp) trivial
    (fun g => ?_) (by simp [hi, Pc.ends]) (by simp [Pc.fresh])
  simp [Proc.refs, Pc.held, entries_put hfd, hi]

theorem Inv.allocFile (h : Inv s) (hi : (s.proc p).pc = .idle) (hf : (s.ftable f).ref = 0)
    (hheld : pc.held = [f]) (hends : ∀ v w, pc.ends v w = 0) (hfork : ∀ np n, pc ≠ .forking np n)
    (hplaced : (⟨(s.proc p).ofile, pc, (s.proc p).ret⟩ : Proc).Placed)
    (hfresh : ∀ g ∈ pc.fresh, g = f) : Inv ((s.refUp f).goto p pc) := by
  refine h.refUp (fun q _ => h.not_fresh_of_free hf q) (h.childless (by simp [hi])) hfork hplaced
    (fun g => ?_) ?_ ?_
  · simp [Proc.refs, hi, hheld, List.count_singleton]
  · intro v w
    rw [hi]
    exact hends v w
  · intro g hg
    exact ⟨hf, Or.inl (hfresh g hg)⟩

variable {f0 f1 : Fno}

theorem Inv.pipeSecond (h : Inv s) (hc : (s.proc p).pc = .pipe1 f0)
    (hf : (s.ftable f1).ref = 0) : Inv ((s.refUp f1).goto p (.pipe2 f0 f1)) := by
  refine h.refUp (fun q _ => h.not_fresh_of_free hf q) (h.childless (by simp [hc])) (by simp)
    trivial (fun g => ?_) (by simp [hc, Pc.ends]) ?_
  · simp only [Proc.refs, Sys.refUp_proc, hc, Pc.held, List.count_cons, List.count_nil, beq_iff_eq]
    omega
  · intro g hg
    refine ⟨hf, ?_⟩
    rw [hc]
    simpa [Pc.fresh, or_comm] using hg

theorem Inv.openSet (h : Inv s) (hc : (s.proc p).pc = .opening f fd) (ip : ℕ)
    (readable writable : Bool) (r : ℤ) : Inv ((s.openFile f ip readable writable).ret p r) := by
  obtain ⟨ht, hr⟩ := h.fresh p f (by simp [hc, Pc.fresh])
  have hmine := (h.placed p).refs_of_fresh (f := f) (by simp [hc, Pc.fresh])
  exact h.setFile ⟨(s.proc p).ofile, .idle, r⟩ rfl rfl rfl
    (fun q hq hf => absurd hf (h.not_fresh hmine hq)) (h.childless (by simp [hc])) (by simp) trivial
    (by simp [Proc.refs, hc, Pc.held]) (by simp [hr]) (by simp [File.ends, ht, hc, Pc.ends])
    (by simp [Pc.fresh])

theorem Inv.close (h : Inv s) (hi : (s.proc p).pc = .idle) (ho : (s.proc p).ofile fd = some f) :
    Inv ((s.setOfile p fd none).goto p (.closing [f] 0)) := by
  rw [Sys.setOfile_goto]
  refine h.of_local ⟨update (s.proc p).ofile fd none, .closing [f] 0, _⟩ rfl
    (h.childless (by simp [hi])) (by simp) trivial (fun g => ?_) h.typed
    (fun _ _ _ _ => ⟨rfl, rfl⟩) (by simp [Pc.fresh]) (h.pipes.of_ends rfl rfl fun v w => ?_)
  · have := entries_take ho g
    simp only [Sys.setProc_ftable, Proc.refs, hi, Pc.held, List.count_singleton, List.count_nil,
      beq_iff_eq]
    omega
  · rw [hi]
    rfl

variable {t : Sys} {o : Option (ℕ × Bool)}

theorem fileclose_file (h : s.fileclose g = some (t, o)) :
    ∃ fl us, t = { s.setFile g fl with uses := us } ∧ fl.ref + 1 = (s.ftable g).ref ∧
      (fl.ref = 0 → fl.type = .none) ∧
      ∀ v w, fl.ends v w + (if o = some (v, w) then 1 else 0) = (s.ftable g).ends v w := by
  obtain ⟨href, rfl, rfl⟩ | ⟨href, us, -, rfl, ho⟩ := fileclose_cases h
  · exact ⟨_, _, rfl, Nat.sub_add_cancel href.le, fun h0 => absurd h0 (by simp; omega),
      fun v w => rfl⟩
  · refine ⟨_, _, rfl, href.symm, fun _ => rfl, fun v w => ?_⟩
    obtain ⟨ht, rfl⟩ | ⟨v', ht, hv, rfl⟩ := ho
    · simp [File.ends, ht]
    · simp [File.ends, ht, hv]

theorem Pc.ends_afterClose (fs : List Fno) (r : ℤ) (o : Option (ℕ × Bool)) (v : ℕ) (w : Bool) :
    (Sys.afterClose fs r o).ends v w = if o = some (v, w) then 1 else 0 := by
  cases o with
  | none => simp [Sys.afterClose, Pc.ends]
  | some x => simp [Sys.afterClose, Pc.ends, Prod.ext_iff]

theorem Pc.ends_afterExitClose (n : ℕ) (o : Option (ℕ × Bool)) (v : ℕ) (w : Bool) :
    (Sys.afterExitClose n o).ends v w = if o = some (v, w) then 1 else 0 := by
  cases o with
  | none => simp [Sys.afterExitClose, Pc.ends]
  | some x => simp [Sys.afterExitClose, Pc.ends, Prod.ext_iff]

theorem Inv.closes (h : Inv s) (ht : s.fileclose g = some (t, o)) (hmine : 1 ≤ (s.proc p).refs g)
    (hold : (s.proc p).pc ≠ .embryo) (hfork : ∀ np n, pr.pc ≠ .forking np n) (hplaced : pr.Placed)
    (hrefs : ∀ f, pr.refs f + (if g = f then 1 else 0) = (s.proc p).refs f)
    (hends : ∀ v w, pr.pc.ends v w = if o = some (v, w) then 1 else 0)
    (hold_ends : ∀ v w, (s.proc p).pc.ends v w = 0) (hfresh : pr.pc.fresh = []) :
    Inv (t.setProc p pr) := by
  obtain ⟨fl, us, rfl, href, htyped, hfl⟩ := fileclose_file ht
  refine h.setFile _ rfl rfl rfl (fun q hq hf => absurd hf (h.not_fresh hmine hq))
    (h.childless hold) hfork hplaced (fun f => ?_) htyped (fun v w => ?_) (by simp [hfresh])
  · rw [← hrefs f, ← href]
    split_ifs <;> omega
  · rw [hends, hold_ends, hfl]
    rfl

theorem fileclose_proc (h : s.fileclose g = some (t, o)) : t.proc = s.proc := by
  obtain ⟨fl, us, rfl, -⟩ := fileclose_file h
  rfl

theorem Inv.closeFile (h : Inv s) {fs : List Fno} (hc : (s.proc p).pc = .closing (f :: fs) r)
    (ht : s.fileclose f = some (t, o)) : Inv (t.goto p (Sys.afterClose fs r o)) := by
  have hheld : (Sys.afterClose fs r o).held = fs := by cases o <;> rfl
  unfold Sys.goto
  rw [fileclose_proc ht]
  refine h.closes ht ?_ (by simp [hc]) ?_ ?_ (fun g => ?_)
    (Pc.ends_afterClose fs r o) (by simp [hc, Pc.ends]) ?_
  · simp only [Proc.refs, hc, Pc.held_closing, List.count_cons_self]
    omega
  · cases o <;> simp [Sys.afterClose]
  · cases o <;> exact trivial
  · simp only [Proc.refs, hheld, hc, Pc.held_closing, List.count_cons, beq_iff_eq]
    omega
  · cases o <;> rfl

theorem Inv.exitFile (h : Inv s) (hn : n < NOFILE) (hc : (s.proc p).pc = .exiting n)
    (ho : (s.proc p).ofile ⟨n, hn⟩ = some f) (ht : s.fileclose f = some (t, o)) :
    Inv ((t.setOfile p ⟨n, hn⟩ none).goto p (Sys.afterExitClose (n + 1) o)) := by
  have hheld : (Sys.afterExitClose (n + 1) o).held = [] := by cases o <;> rfl
  have hclosed : ∀ fd : Fd, fd.val < n + 1 → update (s.proc p).ofile ⟨n, hn⟩ none fd = none := by
    intro fd hfd
    by_cases heq : fd = ⟨n, hn⟩
    · rw [heq, update_self]
    · rw [update_of_ne heq]
      refine h.exiting hc fd ?_
      have : fd.val ≠ n := fun hval => heq (Fin.ext hval)
      omega
  rw [Sys.setOfile_goto, fileclose_proc ht]
  refine h.closes ht ?_ (by simp [hc]) ?_ ?_ (fun g => ?_)
    (Pc.ends_afterExitClose (n + 1) o) (by simp [hc, Pc.ends]) ?_
  · exact (one_le_entries _ ho).trans (Nat.le_add_right _ _)
  · cases o <;> simp [Sys.afterExitClose]
  · cases o <;> exact hclosed
  · have := entries_take ho g
    simp only [Proc.refs, hheld, hc, Pc.held_exiting, List.count_nil]
    omega
  · cases o <;> rfl

/-! ### Making and closing pipes -/

theorem Pipe.isOpen_close (pi : Pipe) (w w' : Bool) :
    (pi.close w).isOpen w' = (pi.isOpen w' && w' != w) := by
  cases w <;> cases w' <;> simp [Pipe.close, Pipe.isOpen]

theorem Pipe.closed_iff (pi : Pipe) :
    (pi.readopen = false ∧ pi.writeopen = false) ↔ ¬ ∃ w, pi.isOpen w = true := by
  simp [Pipe.isOpen]

variable {free : List ℕ}

theorem Pipes.notMem_pages (h : Pipes s) (hfree : s.free = v :: free) : v ∉ s.pages := by
  intro hv
  have hnd := h.nodup
  rw [hfree, List.append_assoc, List.nodup_append] at hnd
  exact hnd.2.2 v (by simp) v (by simp [hv]) rfl

theorem sum_ends_pipeFile (hf : (s.ftable f).type = .none) (v : ℕ) (b : Bool) (v' : ℕ) (w : Bool) :
    ∑ g, ((s.pipeFile f v b).ftable g).ends v' w =
      ∑ g, (s.ftable g).ends v' w + if v = v' ∧ b = w then 1 else 0 := by
  have hsum : ∑ g, ((s.pipeFile f v b).ftable g).ends v' w + _ = _ :=
    Account.sum_update (File.ends v' w) s.ftable f
      { s.ftable f with type := .pipe, readable := !b, writable := b, pipe := some v }
  have hzero : (s.ftable f).ends v' w = 0 := by simp [File.ends, hf]
  rw [hzero, Nat.add_zero] at hsum
  rw [hsum, Nat.add_left_cancel_iff]
  simp [File.ends]

theorem sum_ends_pipeInit (hne : f0 ≠ f1)
    (h0 : (s.ftable f0).type = .none) (h1 : (s.ftable f1).type = .none) (v' : ℕ) (w : Bool) :
    ∑ f, ((s.pipeInit f0 f1 v free).ftable f).ends v' w =
      ∑ f, (s.ftable f).ends v' w + if v = v' then 1 else 0 := by
  have h1' : (((s.makePipe v free).pipeFile f0 v false).ftable f1).type = .none := by
    simpa [Sys.pipeFile, update_of_ne hne.symm] using h1
  have e0 : ∑ f, (((s.makePipe v free).pipeFile f0 v false).ftable f).ends v' w =
      ∑ f, (s.ftable f).ends v' w + if v = v' ∧ false = w then 1 else 0 :=
    sum_ends_pipeFile (s := s.makePipe v free) h0 v false v' w
  unfold Sys.pipeInit
  rw [sum_ends_pipeFile h1', e0]
  cases w <;> simp

theorem Pipes.pipeInit (h : Pipes s) (hne : f0 ≠ f1)
    (h0 : (s.ftable f0).type = .none) (h1 : (s.ftable f1).type = .none) (hfree : s.free = v :: free)
    (hpr : ∀ v w, pr.pc.ends v w = (s.proc p).pc.ends v w) :
    Pipes ((s.pipeInit f0 f1 v free).setProc p pr) where
  ends v' w := by
    have hv := h.notMem_pages hfree
    have hends := h.ends v' w
    have hsum := Account.sum_update (Pc.ends v' w <| Proc.pc ·) s.proc p pr
    rw [hpr] at hsum
    simp only [Sys.setProc_ftable, sum_ends_pipeInit hne h0 h1, Sys.setProc_proc, Sys.pipeInit_proc]
    have hpages : ((s.pipeInit f0 f1 v free).setProc p pr).pages = v :: s.pages := rfl
    have hpipes : ((s.pipeInit f0 f1 v free).setProc p pr).pipes = update s.pipes v ⟨true, true⟩ :=
      rfl
    rw [hpages, hpipes]
    by_cases hv' : v = v'
    · subst hv'
      rw [if_neg (by simp [hv])] at hends
      rw [update_self, if_pos rfl, if_pos ⟨List.mem_cons_self, by cases w <;> rfl⟩]
      omega
    · rw [update_of_ne (Ne.symm hv'), if_neg hv']
      simp only [List.mem_cons, Ne.symm hv', false_or]
      omega
  alive v' := by
    have hpipes : ((s.pipeInit f0 f1 v free).setProc p pr).pipes = update s.pipes v ⟨true, true⟩ :=
      rfl
    show v' ∈ v :: s.pages ↔ _
    rw [hpipes, List.mem_cons]
    by_cases heq : v' = v
    · rw [heq, update_self]
      exact ⟨fun _ => ⟨true, rfl⟩, fun _ => Or.inl rfl⟩
    · rw [update_of_ne heq, ← h.alive v']
      simp [heq]
  nodup := by
    have hnd := h.nodup
    rw [hfree] at hnd
    refine (List.Perm.nodup_iff ?_).mp hnd
    exact List.Perm.append_right _ (List.perm_middle.symm)
  count v' := by
    have hc := h.count v'
    have hv := h.notMem_pages hfree
    show update s.made v (s.made v + 1) v' = s.freed v' + if v' ∈ v :: s.pages then 1 else 0
    by_cases heq : v' = v
    · subst heq
      rw [if_neg hv] at hc
      rw [update_self, if_pos List.mem_cons_self, hc]
    · rw [update_of_ne heq, hc]
      simp [heq]

theorem Inv.pipe2 (h : Inv s) (hc : (s.proc p).pc = .pipe2 f0 f1) :
    f0 ≠ f1 ∧ (s.ftable f0).type = .none ∧ (s.ftable f1).type = .none := by
  obtain ⟨ht0, hr0⟩ := h.fresh p f0 (by simp [hc, Pc.fresh])
  obtain ⟨ht1, -⟩ := h.fresh p f1 (by simp [hc, Pc.fresh])
  refine ⟨?_, ht0, ht1⟩
  rintro rfl
  have hle := h.refs_le p f0
  rw [hr0, Proc.refs, hc] at hle
  simp [Pc.held] at hle

theorem pipeInit_ref : ((s.pipeInit f0 f1 v free).ftable f).ref = (s.ftable f).ref := by
  unfold Sys.pipeInit Sys.pipeFile
  by_cases h1 : f = f1
  · subst h1
    by_cases h0 : f = f0
    · subst h0
      simp
    · simp [update_of_ne h0]
  · by_cases h0 : f = f0
    · subst h0
      simp [update_of_ne h1]
    · simp [update_of_ne h1, update_of_ne h0]

theorem pipeInit_other (h0 : f ≠ f0) (h1 : f ≠ f1) :
    (s.pipeInit f0 f1 v free).ftable f = s.ftable f := by
  simp [Sys.pipeInit, Sys.pipeFile, update_of_ne h0, update_of_ne h1]

theorem Inv.pipeInit (h : Inv s) (hc : (s.proc p).pc = .pipe2 f0 f1) (hfree : s.free = v :: free)
    (hfork : ∀ np n, pr.pc ≠ .forking np n) (hplaced : pr.Placed)
    (hrefs : ∀ f, pr.refs f = (s.proc p).refs f) (hends : ∀ v w, pr.pc.ends v w = 0)
    (hfresh : pr.pc.fresh = []) : Inv ((s.pipeInit f0 f1 v free).setProc p pr) := by
  obtain ⟨hne, h0, h1⟩ := h.pipe2 hc
  have hmem0 : f0 ∈ (s.proc p).pc.fresh := by simp [hc, Pc.fresh]
  have hmem1 : f1 ∈ (s.proc p).pc.fresh := by simp [hc, Pc.fresh]
  have hr0 := (h.fresh p f0 hmem0).2
  have hr1 := (h.fresh p f1 hmem1).2
  refine h.of_local _ rfl (h.childless (by simp [hc])) (fun np n hf => absurd hf (hfork np n))
    hplaced ?_ ?_ ?_ (by simp [hfresh]) ?_
  · intro f
    rw [Sys.setProc_ftable, pipeInit_ref, hrefs]
  · intro f hf
    rw [Sys.setProc_ftable] at hf ⊢
    rw [pipeInit_ref] at hf
    rw [pipeInit_other (by rintro rfl; omega) (by rintro rfl; omega)]
    exact h.typed f hf
  · intro q f hq hf
    have hf0 : f ≠ f0 := by
      rintro rfl
      exact h.not_fresh ((h.placed p).refs_of_fresh hmem0) hq hf
    have hf1 : f ≠ f1 := by
      rintro rfl
      exact h.not_fresh ((h.placed p).refs_of_fresh hmem1) hq hf
    rw [Sys.setProc_ftable, pipeInit_other hf0 hf1]
    exact ⟨rfl, rfl⟩
  · refine h.pipes.pipeInit hne h0 h1 hfree fun v w => ?_
    rw [hends, hc]
    rfl

theorem Inv.pipeDone (h : Inv s) {fd0 fd1 : Fd}
    (hc : (s.proc p).pc = .pipe2 f0 f1) (hfree : s.free = v :: free)
    (h0 : (s.proc p).ofile fd0 = none) (h1 : (s.proc p).ofile fd1 = none) (hne : fd0 ≠ fd1) :
    Inv ((((s.pipeInit f0 f1 v free).setOfile p fd0 (some f0)).setOfile p fd1 (some f1)).ret p
      0) := by
  have heq : (((s.pipeInit f0 f1 v free).setOfile p fd0 (some f0)).setOfile p fd1 (some f1)).ret p
      0 = (s.pipeInit f0 f1 v free).setProc p
        ⟨update (update (s.proc p).ofile fd0 (some f0)) fd1 (some f1), .idle, 0⟩ := by
    simp [Sys.setOfile, Sys.ret, Sys.setProc]
  rw [heq]
  refine h.pipeInit hc hfree (by simp) trivial (fun f => ?_) (by simp [Pc.ends]) rfl
  have h1' : update (s.proc p).ofile fd0 (some f0) fd1 = none := by
    rw [update_of_ne hne.symm]
    exact h1
  simp only [Proc.refs, hc, Pc.held, entries_put h1', entries_put h0, List.count_cons,
    List.count_nil, beq_iff_eq]
  omega

theorem Pipes.pipeclose (h : Pipes s)
    (hc : ∀ v' w', (s.proc p).pc.ends v' w' = if v = v' ∧ w = w' then 1 else 0)
    (hpr : ∀ v w, pr.pc.ends v w = 0) : Pipes ((s.pipeclose v w).setProc p pr) := by
  obtain ⟨hv, hw⟩ : v ∈ s.pages ∧ (s.pipes v).isOpen w = true := by
    by_contra hno
    have hends := h.ends v w
    have hle := Account.le_sum (f := fun q => (s.proc q).pc.ends v w) (mem_univ p)
    simp only [hc, if_pos, and_self] at hle
    rw [if_neg hno] at hends
    omega
  have hsum : ∀ v' w', ∑ q, (update s.proc p pr q).pc.ends v' w' +
      (if v = v' ∧ w = w' then 1 else 0) = ∑ q, (s.proc q).pc.ends v' w' := by
    intro v' w'
    have hch := Account.sum_update (Pc.ends v' w' <| Proc.pc ·) s.proc p pr
    simp only [hpr, hc] at hch
    omega
  -- the ends that are left after the one is closed
  have hleft : ∀ v' w', (∑ f, (s.ftable f).ends v' w' + ∑ q, (update s.proc p pr q).pc.ends v' w') =
      if v' ∈ s.pages ∧ (update s.pipes v ((s.pipes v).close w) v').isOpen w' then 1 else 0 := by
    intro v' w'
    have hends := h.ends v' w'
    have hs := hsum v' w'
    by_cases hvv : v = v'
    · subst hvv
      rw [update_self, Pipe.isOpen_close]
      by_cases hww : w = w'
      · subst hww
        rw [if_pos ⟨hv, hw⟩] at hends
        rw [if_pos ⟨rfl, rfl⟩] at hs
        rw [if_neg (by simp)]
        omega
      · rw [if_neg (fun hand => hww hand.2)] at hs
        have hbne : (w' != w) = true := by simpa using Ne.symm hww
        rw [hbne, Bool.and_true]
        omega
    · rw [if_neg (fun hand => hvv hand.1)] at hs
      rw [update_of_ne (Ne.symm hvv)]
      omega
  have hgone : v ∉ s.pages.erase v :=
    List.Nodup.not_mem_erase (List.nodup_append.mp (List.nodup_append.mp h.nodup).1).2.1
  unfold Sys.pipeclose
  dsimp only
  split_ifs with hboth
  · have hnone := (Pipe.closed_iff _).mp hboth
    refine ⟨fun v' w' => ?_, fun v' => ?_, ?_, fun v' => ?_⟩
    · refine (hleft v' w').trans (if_congr ?_ rfl rfl)
      by_cases hvv : v' = v
      · subst hvv
        exact ⟨fun hand => absurd ⟨w', hand.2⟩ hnone,
          fun hand => absurd hand.1 hgone⟩
      · exact and_congr (List.mem_erase_of_ne hvv).symm Iff.rfl
    · show v' ∈ s.pages.erase v ↔
        ∃ w', (update s.pipes v ((s.pipes v).close w) v').isOpen w' = true
      by_cases hvv : v' = v
      · subst hvv
        exact iff_of_false hgone hnone
      · rw [update_of_ne hvv, List.mem_erase_of_ne hvv]
        exact h.alive v'
    · refine (List.Perm.nodup_iff ?_).mp h.nodup
      refine List.Perm.append_right _ ?_
      exact ((List.perm_cons_erase hv).append_left _).trans List.perm_middle
    · have hcount := h.count v'
      show s.made v' = update s.freed v (s.freed v + 1) v' +
        if v' ∈ s.pages.erase v then 1 else 0
      by_cases hvv : v' = v
      · subst hvv
        rw [if_pos hv] at hcount
        rw [update_self, if_neg hgone, hcount]
      · simp only [update_of_ne hvv, List.mem_erase_of_ne hvv, hcount]
  · refine ⟨hleft, fun v' => ?_, h.nodup, h.count⟩
    by_cases hvv : v' = v
    · subst hvv
      rw [Pipe.closed_iff, not_not] at hboth
      exact iff_of_true hv hboth
    · show v' ∈ s.pages ↔ ∃ w', (update s.pipes v ((s.pipes v).close w) v').isOpen w' = true
      rw [update_of_ne hvv]
      exact h.alive v'

theorem Sys.pipeclose_ftable : (s.pipeclose v w).ftable = s.ftable := by
  unfold Sys.pipeclose
  dsimp only
  split_ifs <;> rfl

theorem Sys.pipeclose_proc : (s.pipeclose v w).proc = s.proc := by
  unfold Sys.pipeclose
  dsimp only
  split_ifs <;> rfl

theorem Inv.pipeclose (h : Inv s)
    (hc : ∀ v' w', (s.proc p).pc.ends v' w' = if v = v' ∧ w = w' then 1 else 0)
    (hold : (s.proc p).pc ≠ .embryo) (hfork : ∀ np n, pc ≠ .forking np n)
    (hplaced : (⟨(s.proc p).ofile, pc, (s.proc p).ret⟩ : Proc).Placed)
    (hheld : pc.held = (s.proc p).pc.held) (hends : ∀ v w, pc.ends v w = 0)
    (hfresh : pc.fresh = []) : Inv ((s.pipeclose v w).goto p pc) := by
  unfold Sys.goto
  rw [Sys.pipeclose_proc]
  have hproc : ((s.pipeclose v w).setProc p ⟨(s.proc p).ofile, pc, (s.proc p).ret⟩).proc =
      update s.proc p ⟨(s.proc p).ofile, pc, (s.proc p).ret⟩ := by
    show update (s.pipeclose v w).proc p _ = _
    rw [Sys.pipeclose_proc]
  refine h.of_local _ hproc (h.childless hold) (fun np n hf => absurd hf (hfork np n)) hplaced
    ?_ ?_ ?_ (by simp [hfresh]) (h.pipes.pipeclose hc hends)
  · intro f
    simp only [Sys.setProc_ftable, Sys.pipeclose_ftable, Proc.refs, hheld]
  · intro f
    simpa only [Sys.setProc_ftable, Sys.pipeclose_ftable] using h.typed f
  · intro q f _ _
    simp only [Sys.setProc_ftable, Sys.pipeclose_ftable, and_self]

/-! ### The other steps -/

theorem Inv.access (h : Inv s) {us : List Use} (off : ℕ) (r : ℤ) (hi : (s.proc p).pc = .idle) :
    Inv ((s.access f us off).ret p r) :=
  h.setFile ⟨(s.proc p).ofile, .idle, r⟩ rfl rfl rfl (fun _ _ _ => ⟨rfl, rfl⟩)
    (h.childless (by simp [hi])) (by simp) trivial (by simp [Proc.refs, hi]) (h.typed f)
    (by simp [File.ends, hi]) (by simp [Pc.fresh])

theorem Inv.take (h : Inv s) (hfree : s.free = v :: free) : Inv (s.take v free) := by
  refine ⟨⟨h.pipes.ends, h.pipes.alive, ?_, h.pipes.count⟩, h.refs, h.typed, h.fresh, h.placed,
    h.forks, h.alone⟩
  have hnd := h.pipes.nodup
  rw [hfree, List.append_assoc, List.cons_append, ← List.append_assoc] at hnd
  exact (List.Perm.nodup_iff List.perm_middle.symm).mp hnd

theorem Inv.give (h : Inv s) (hv : v ∈ s.others) : Inv (s.give v) := by
  refine ⟨⟨h.pipes.ends, h.pipes.alive, ?_, h.pipes.count⟩, h.refs, h.typed, h.fresh, h.placed,
    h.forks, h.alone⟩
  refine (List.Perm.nodup_iff ?_).mp h.pipes.nodup
  exact ((List.perm_cons_erase hv).append_left _).trans List.perm_middle

variable {np : Pid}

theorem Inv.setForking (h : Inv s) (hold : (s.proc p).pc ≠ .embryo)
    (hheld : (s.proc p).pc.held = []) (hends : ∀ v w, (s.proc p).pc.ends v w = 0)
    (hnp : (s.proc np).pc = .embryo) (ho : ∀ fd : Fd, n ≤ fd.val → (s.proc np).ofile fd = none)
    (halone : ∀ q m, (s.proc q).pc = .forking np m → q = p) : Inv (s.goto p (.forking np n)) := by
  refine h.setPc (h.no_parent hold) ?_ trivial (fun f => by rw [hheld]; rfl)
    (fun v w => by rw [hends]; rfl) rfl
  rintro np' n' ⟨⟩
  exact ⟨fun heq => hold (heq ▸ hnp), hnp, ho, halone⟩

theorem Inv.fork (h : Inv s) (hi : (s.proc p).pc = .idle)
    (hu : (s.proc np).pc = .unused) : Inv ((s.goto np .embryo).goto p (.forking np 0)) := by
  have hne : p ≠ np := by
    rintro rfl
    rw [hi] at hu
    simp at hu
  have hplaced : ∀ fd, (s.proc np).ofile fd = none := by
    have := h.placed np
    simpa only [Proc.Placed, hu] using this
  have h1 : Inv (s.goto np .embryo) :=
    h.setPc (h.no_parent (by simp [hu])) (by simp) trivial (by simp [hu, Pc.held])
      (by simp [hu, Pc.ends]) rfl
  have hp : (s.goto np .embryo).proc p = s.proc p := by simp [Sys.goto, update_of_ne hne]
  have hnp : (s.goto np .embryo).proc np = ⟨(s.proc np).ofile, .embryo, (s.proc np).ret⟩ := by
    simp [Sys.goto]
  refine h1.setForking (by simp [hp, hi]) (by simp [hp, hi]) (by simp [hp, hi, Pc.ends])
    (by rw [hnp]) (fun fd _ => by rw [hnp]; exact hplaced fd) fun q m hq => ?_
  have hqnp : q ≠ np := by
    rintro rfl
    rw [hnp] at hq
    simp at hq
  have hq' : (s.proc q).pc = .forking np m := by
    simpa [Sys.goto, update_of_ne hqnp] using hq
  exact absurd hq' (h.no_parent (by simp [hu]) q m)

theorem Inv.forkSkip (h : Inv s) (hc : (s.proc p).pc = .forking np n) :
    Inv (s.goto p (.forking np (n + 1))) := by
  obtain ⟨he, ho⟩ := h.forks p np n hc
  exact h.setForking (by simp [hc]) (by simp [hc, Pc.held]) (by simp [hc, Pc.ends]) he
    (fun fd hfd => ho fd (by omega)) fun q m hq => h.alone q p np m n hq hc

theorem Inv.forkDup (h : Inv s) (hn : n < NOFILE)
    (hc : (s.proc p).pc = .forking np n) (hf : (s.proc p).ofile ⟨n, hn⟩ = some f) :
    Inv (((s.refUp f).setOfile np ⟨n, hn⟩ (some f)).goto p (.forking np (n + 1))) := by
  obtain ⟨he, ho⟩ := h.forks p np n hc
  have hne : p ≠ np := by
    rintro rfl
    rw [hc] at he
    simp at he
  -- the parent goes on first; then the child gets its reference
  have heq : ((s.refUp f).setOfile np ⟨n, hn⟩ (some f)).goto p (.forking np (n + 1)) =
      ((s.goto p (.forking np (n + 1))).refUp f).setProc np
        ⟨update (s.proc np).ofile ⟨n, hn⟩ (some f), .embryo, (s.proc np).ret⟩ := by
    simp [Sys.setOfile, Sys.goto, Sys.refUp, Sys.setProc, Sys.setFile, update_of_ne hne, he,
      update_comm hne]
  have h1 := h.forkSkip hc
  have hp : ((s.goto p (.forking np (n + 1))).proc p).ofile = (s.proc p).ofile := by
    simp [Sys.goto]
  have hnp : (s.goto p (.forking np (n + 1))).proc np = s.proc np := by
    simp [Sys.goto, update_of_ne hne.symm]
  have hone : 1 ≤ ((s.goto p (.forking np (n + 1))).proc p).refs f := by
    refine (one_le_entries ⟨n, hn⟩ ?_).trans (Nat.le_add_right _ _)
    rw [hp]
    exact hf
  rw [heq]
  refine h1.refUp (fun q _ => ?_) (fun q m hq => ⟨rfl, fun fd hfd => ?_⟩) (by simp) trivial
    (fun g => ?_) (by simp [hnp, he, Pc.ends]) (by simp [Pc.fresh])
  · by_cases hq : q = p
    · rw [hq]
      simp [Sys.goto, Pc.fresh]
    · exact h1.not_fresh hone hq
  · -- the only parent of `np` is `p`, which is past descriptor `n`
    have hpc : ((s.goto p (.forking np (n + 1))).proc p).pc = .forking np (n + 1) := by
      simp [Sys.goto]
    obtain rfl := h1.alone q p np m (n + 1) hq hpc
    obtain rfl : n + 1 = m := by simpa [hpc] using hq
    have hfdn : fd ≠ ⟨n, hn⟩ := by
      rintro rfl
      simp at hfd
    show update (s.proc np).ofile ⟨n, hn⟩ (some f) fd = none
    rw [update_of_ne hfdn]
    exact ho fd (by omega)
  · have hput := entries_put (ho ⟨n, hn⟩ le_rfl) f g
    simp only [Proc.refs, hnp, he, hput, Pc.held, List.count_nil]
    omega

theorem Inv.forked (h : Inv s) (hc : (s.proc p).pc = .forking np n) :
    Inv ((s.goto np .idle).ret p 0) := by
  obtain ⟨he, -⟩ := h.forks p np n hc
  have hne : p ≠ np := by
    rintro rfl
    rw [hc] at he
    simp at he
  have heq : (s.goto np .idle).ret p 0 = (s.ret p 0).goto np .idle := by
    simp [Sys.goto, Sys.ret, Sys.setProc, update_of_ne hne, update_of_ne hne.symm, update_comm hne]
  have h1 : Inv (s.ret p 0) :=
    h.setPc (h.no_parent (by simp [hc])) (by simp) trivial (by simp [hc, Pc.held])
      (by simp [hc, Pc.ends]) rfl
  have hnp : (s.ret p 0).proc np = s.proc np := by simp [Sys.ret, update_of_ne hne.symm]
  rw [heq]
  refine h1.setPc (fun q m hq => ?_) (by simp) trivial (by simp [hnp, he, Pc.held])
    (by simp [hnp, he, Pc.ends]) rfl
  by_cases hqp : q = p
  · rw [hqp] at hq
    simp [Sys.ret] at hq
  · have hq' : (s.proc q).pc = .forking np m := by simpa [Sys.ret, update_of_ne hqp] using hq
    exact hqp (h.alone q p np m n hq' hc)

theorem Inv.does (h : Inv s) (seeks : Prop) (hd : Does seeks s s') : Inv s' := by
  cases hd with
  | ret r hi => exact h.ret r hi
  | openFile hi hf hfd => exact h.openFile hi hf hfd
  | openFails hi hf =>
    exact h.allocFile hi hf rfl (fun _ _ => rfl) (by simp) trivial (by simp [Pc.fresh])
  | openSet ip readable writable hc => exact h.openSet hc ip readable writable _
  | pipeFirst hi hf =>
    exact h.allocFile hi hf rfl (fun _ _ => rfl) (by simp) trivial (by simp [Pc.fresh])
  | pipeFails1 hc =>
    exact h.setPc (h.no_parent (by simp [hc])) (by simp) trivial (by simp [hc, Pc.held])
      (by simp [hc, Pc.ends]) rfl
  | pipeSecond hc hf => exact h.pipeSecond hc hf
  | pipeFails2 hc =>
    exact h.setPc (h.no_parent (by simp [hc])) (by simp) trivial (by simp [hc, Pc.held])
      (by simp [hc, Pc.ends]) rfl
  | pipeFails3 hc hfree =>
    exact h.pipeInit hc hfree (by simp) trivial (by simp [Proc.refs, hc, Pc.held])
      (by simp [Pc.ends]) rfl
  | pipeDone hc hfree h0 h1 hne => exact h.pipeDone hc hfree h0 h1 hne
  | dup hi ho hfd => exact h.dup hi ho hfd _
  | close hi ho => exact h.close hi ho
  | closed hc =>
    exact h.setPc (h.no_parent (by simp [hc])) (by simp) trivial (by simp [hc])
      (by simp [hc, Pc.ends]) rfl
  | closeFile hc ht => exact h.closeFile hc ht
  | closePipe hc =>
    exact h.pipeclose (by simp [hc, Pc.ends]) (by simp [hc]) (by simp) trivial
      (by simp [hc, Pc.held]) (by simp [Pc.ends]) rfl
  | fork hi hu => exact h.fork hi hu
  | forkSkip hn hc ho => exact h.forkSkip hc
  | forkDup hn hc ho => exact h.forkDup hn hc ho
  | forked hc => exact h.forked hc
  | exit hi =>
    exact h.setPc (h.no_parent (by simp [hi])) (by simp) (by simp [Proc.Placed]) (by simp [hi])
      (by simp [hi, Pc.ends]) rfl
  | exitSkip hn hc ho =>
    refine h.setPc (h.no_parent (by simp [hc])) (by simp) ?_ (by simp [hc])
      (by simp [hc, Pc.ends]) rfl
    intro fd hfd
    rcases Nat.lt_succ_iff_lt_or_eq.mp hfd with hlt | heq
    · exact h.exiting hc fd hlt
    · rw [← ho]
      exact congrArg _ (Fin.ext heq)
  | exitFile hn hc ho ht => exact h.exitFile hn hc ho ht
  | exitPipe hc =>
    exact h.pipeclose (by simp [hc, Pc.ends]) (by simp [hc]) (by simp) (h.exitclosing hc)
      (by simp [hc, Pc.held]) (by simp [Pc.ends]) rfl
  | exited hc hn =>
    exact h.setPc (h.no_parent (by simp [hc])) (by simp)
      (fun fd => h.exiting hc fd (fd.isLt.trans_le hn)) (by simp [hc, Pc.held])
      (by simp [hc, Pc.ends]) rfl
  | access off r hi hus => exact h.access off r hi
  | take hfree => exact h.take hfree
  | give hv => exact h.give hv

theorem Inv.start (hfree : free.Nodup) : Inv (start free) where
  pipes := by
    refine ⟨fun v w => ?_, by simp [Files.start, Pipe.isOpen], by simpa [Files.start] using hfree,
      by simp [Files.start]⟩
    rw [if_neg (by simp [Files.start]), Nat.add_eq_zero_iff]
    refine ⟨sum_eq_zero fun f _ => by simp [Files.start, File.ends], sum_eq_zero fun p _ => ?_⟩
    by_cases hp : p = 0 <;> simp [Files.start, hp, Pc.ends]
  refs f := by
    refine (sum_eq_zero fun p _ => ?_).symm
    have hentries : entries (fun _ => none) f = 0 := by simp [entries]
    by_cases hp : p = 0 <;> simp [Files.start, Proc.refs, hp, hentries, Pc.held]
  typed f _ := rfl
  fresh p f hf := by
    by_cases hp : p = 0 <;> simp [Files.start, hp, Pc.fresh] at hf
  placed p := by
    by_cases hp : p = 0 <;> simp [Files.start, hp, Proc.Placed]
  forks p np n hf := by
    by_cases hp : p = 0 <;> simp [Files.start, hp] at hf
  alone p q np n m hf := by
    by_cases hp : p = 0 <;> simp [Files.start, hp] at hf

theorem Inv.reach {ok : Sys → Label → Prop} (hfree : free.Nodup)
    (h : Lts.Reach step ok (Files.start free) s) : Inv s :=
  h.invariant (.start hfree) fun _ _ _ hs _ hstep => hs.does _ (step_does hstep)

end Invariant

end Xv6.Files
