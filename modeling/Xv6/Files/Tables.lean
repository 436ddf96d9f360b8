import Xv6.Files.System
import Xv6.Fs.Sysfile
import Xv6.Pipe
import Xv6.Sh.Run

/-!
# One file table in several models

`Fs` follows the calls down to the disk and has no pipes; `Files` has the pipes and no inodes. In
states that agree on the file table and the descriptors, each section of `file.c` and `sysfile.c`
that works on these tables does the same in both, and calls that are one step of `Files` return the
same. `pipeclose` does the same to the ends of a pipe here and in `Pipes`, and the tables of the
shell get the same descriptors.
-/

namespace Xv6.Files

open Function Conc
open Fs (Kernel Kern arbiter)

/-- `struct file` as `Fs` has it. -/
def File.noPipe (fl : File) : Fs.File :=
  ⟨fl.type, fl.ref, fl.readable, fl.writable, fl.ip, fl.off⟩

structure Agrees (s : Sys) (k : Kernel Pid) : Prop where
  file : ∀ f : Fno, k.ftable f = (s.ftable f).noPipe
  ofile : ∀ p (fd : Fd), (k.proc p).ofile fd = ((s.proc p).ofile fd).map Fin.val

/-- The section returns `a` and leaves a state that agrees with `s`. -/
def Yields {α : Type} (m : Kern Pid α) (k : Kernel Pid) (a : α) (s : Sys) : Prop :=
  ∃ k', m k = .ok (a, k') ∧ Agrees s k'

variable {s s' : Sys} {k : Kernel Pid} {p : Pid} {f : Fno} {fd : Fd}

theorem find_range {n : ℕ} (q : ℕ → Bool) :
    (List.range n).find? q = ((List.finRange n).find? fun i : Fin n => q i.val).map Fin.val := by
  rw [← List.map_coe_finRange_eq_range, List.find?_map]
  rfl

namespace Agrees

theorem setProc (h : Agrees s k) {pr : Proc} (ho : pr.ofile = (s.proc p).ofile) :
    Agrees (s.setProc p pr) k where
  file := h.file
  ofile q d := by
    rw [h.ofile, Sys.setProc_proc, Lts.update_field Proc.ofile ho]

theorem goto (h : Agrees s k) (pc : Pc) : Agrees (s.goto p pc) k := h.setProc rfl

theorem ret (h : Agrees s k) (r : ℤ) : Agrees (s.ret p r) k := h.setProc rfl

theorem setFile (h : Agrees s k) (f : Fno) (fl : File) :
    Agrees (s.setFile f fl) (k.setFile f fl.noPipe) where
  file g := by
    obtain rfl | hg := eq_or_ne g f
    · simp
    · simp [update_of_ne (Fin.val_ne_of_ne hg), update_of_ne hg, h.file]
  ofile := h.ofile

theorem setOfile (h : Agrees s k) (p : Pid) (fd : Fd) (o : Option Fno) :
    Yields (Fs.setOfile p fd (o.map Fin.val)) k () (s.setOfile p fd o) := by
  refine ⟨_, rfl, h.file, fun q d => ?_⟩
  obtain rfl | hq := eq_or_ne q p
  · obtain rfl | hd := eq_or_ne d fd
    · simp [Sys.setOfile]
    · simp [Sys.setOfile, update_of_ne (Fin.val_ne_of_ne hd), update_of_ne hd, h.ofile]
  · simp [Sys.setOfile, update_of_ne hq, h.ofile]

/-! ## The sections -/

theorem filealloc (h : Agrees s k) :
    Yields Fs.filealloc k (s.filealloc.map Fin.val) (s.filealloc.elim s s.refUp) := by
  have hfind : (List.range NFILE).find? (fun f => (k.ftable f).ref = 0) =
      s.filealloc.map Fin.val := by
    rw [find_range]
    simp only [h.file]
    rfl
  simp only [Yields, Fs.filealloc, hfind]
  cases hf : s.filealloc with
  | none => exact ⟨k, rfl, h⟩
  | some f =>
    refine ⟨_, rfl, ?_⟩
    rw [h.file, Option.elim_some, Sys.refUp, filealloc_ref hf]
    exact h.setFile f { s.ftable f with ref := 1 }

theorem fdalloc (h : Agrees s k) (p : Pid) (f : Fno) :
    Yields (Fs.fdalloc p f) k ((fdalloc (s.proc p).ofile).map Fin.val)
      ((fdalloc (s.proc p).ofile).elim s fun fd => s.setOfile p fd (some f)) := by
  have hfind : (List.range NOFILE).find? (fun fd => ((k.proc p).ofile fd).isNone) =
      (Files.fdalloc (s.proc p).ofile).map Fin.val := by
    rw [find_range]
    simp only [h.ofile, Option.isNone_map]
    rfl
  simp only [Yields, Fs.fdalloc, hfind]
  cases Files.fdalloc (s.proc p).ofile with
  | none => exact ⟨k, rfl, h⟩
  | some fd =>
    obtain ⟨k', hk, h'⟩ := h.setOfile p fd (some f)
    cases hk
    exact ⟨_, rfl, h'⟩

theorem filedup (h : Agrees s k) (hf : ¬ (s.ftable f).ref < 1) :
    Yields (Fs.filedup f) k () (s.refUp f) := by
  simp only [Yields, Fs.filedup, h.file]
  exact ⟨_, if_neg hf, h.setFile f { s.ftable f with ref := (s.ftable f).ref + 1 }⟩

theorem fileclose (h : Agrees s k) {o : Option (ℕ × Bool)} (hs : s.fileclose f = some (s', o)) :
    Yields (Fs.filecloseRef f) k
      (if 1 < (s.ftable f).ref then none else some (s.ftable f).noPipe) s' := by
  have hpos : ¬ (s.ftable f).ref < 1 := by
    rcases fileclose_cases hs with ⟨h1, -⟩ | ⟨h1, -⟩ <;> omega
  simp only [Yields, Fs.filecloseRef, h.file, File.noPipe, if_neg hpos]
  rcases fileclose_cases hs with ⟨h1, -, rfl⟩ | ⟨h1, us, -, rfl, -⟩
  · rw [if_pos h1, if_pos (Nat.sub_pos_of_lt h1)]
    exact ⟨_, rfl, h.setFile f { s.ftable f with ref := (s.ftable f).ref - 1 }⟩
  · have hset := h.setFile f { s.ftable f with ref := 0, type := .none }
    rw [h1]
    exact ⟨_, rfl, hset.file, hset.ofile⟩

theorem openFile (h : Agrees s k) (ip omode : ℕ) :
    Yields (Fs.openFile f ip omode) k () (s.openFile f ip (omode &&& O_WRONLY = 0)
      (omode &&& O_WRONLY ≠ 0 || omode &&& O_RDWR ≠ 0)) := by
  refine ⟨_, rfl, ?_⟩
  rw [h.file]
  exact h.setFile f _

/-- `pipealloc` fills in a file. -/
theorem pipeFile (h : Agrees s k) (v : ℕ) (writable : Bool) :
    Agrees (s.pipeFile f v writable) (k.setFile f
      { k.ftable f with type := .pipe, readable := !writable, writable := writable }) := by
  rw [h.file]
  exact h.setFile f _

theorem advance (h : Agrees s k) (n : ℕ) :
    Yields (Fs.advance f n) k () (s.setOff f (((s.ftable f).off + n) % 2 ^ 32)) := by
  refine ⟨_, rfl, ?_⟩
  rw [h.file]
  exact h.setFile f _

/-- `fork` copies a descriptor. -/
theorem forkFd (h : Agrees s k) {np : Pid} {n : ℕ} (hn : n < NOFILE)
    (hs : s.forkNext p np n = some s') : Yields (Fs.forkFd p np n) k () s' := by
  simp only [Sys.forkNext, hn, dif_pos] at hs
  have ho := h.ofile p ⟨n, hn⟩
  cases hf : (s.proc p).ofile ⟨n, hn⟩ with
  | none =>
    rw [hf] at hs ho
    cases hs
    refine ⟨k, ?_, h.goto _⟩
    simp only [Fs.forkFd, ho, Option.map_none]
  | some f =>
    rw [hf] at hs ho
    dsimp only at hs
    split_ifs at hs with href
    cases hs
    obtain ⟨k1, hk1, h1⟩ := h.filedup href
    obtain ⟨k2, hk2, h2⟩ := h1.setOfile np ⟨n, hn⟩ (some f)
    refine ⟨k2, ?_, h2.goto _⟩
    simp only [Fs.forkFd, ho, Option.map_some, hk1]
    exact hk2

/-- `lseek`, with the size that the inode cache has. -/
theorem filelseek (h : Agrees s k) {i offset : ℕ} {whence : ℤ} (hi : (s.ftable f).ip = some i)
    (hs : s.lseek p f offset whence (k.icache i).d.size = some s') :
    Yields (Fs.filelseek f offset whence) k (.int (s'.proc p).ret) s' := by
  have huse : Agrees (s.use (.ip (s.ftable f).type)) k := ⟨h.file, h.ofile⟩
  have hset : ∀ off, Agrees ((s.use (.ip (s.ftable f).type)).setOff f off)
      (k.setFile f { k.ftable f with ip := some i, off := off }) := fun off => by
    rw [h.file, ← hi]
    exact huse.setFile f _
  have hret : ∀ (t : Sys) r, ((t.ret p r).proc p).ret = r := fun t r => by simp [Sys.ret]
  have hik : (k.ftable f).ip = some i := by rw [h.file]; exact hi
  have hoff : (k.ftable f).off = (s.ftable f).off := by rw [h.file]; rfl
  simp only [Sys.lseek, hi, reduceCtorEq, if_false] at hs
  simp only [Yields, Fs.filelseek, hik, hoff]
  split_ifs at hs ⊢ <;> cases hs <;> rw [hret]
  · exact ⟨k, rfl, huse.ret _⟩
  · exact ⟨_, rfl, (hset _).ret _⟩
  · exact ⟨_, rfl, (hset _).ret _⟩
  · exact ⟨_, rfl, (hset _).ret _⟩
  · exact ⟨k, rfl, huse.ret _⟩

theorem sysDup (h : Agrees s k) (hs : step s (.dup p fd) = some s') :
    ∃ k', (Fs.sysDup p fd).run arbiter p k = .ok (.int (s'.proc p).ret, k') ∧ Agrees s' k' := by
  obtain ⟨-, hs⟩ := Option.ite_none_right_eq_some.mp hs
  have harg : Fs.argfd p fd k = .ok (((s.proc p).ofile fd).map Fin.val, k) := by
    rw [Fs.argfd, if_pos fd.isLt, h.ofile]
  rw [Fs.sysDup, Prog.run_bind_ok (Prog.run_lift_ok harg)]
  cases hf : (s.proc p).ofile fd with
  | none =>
    rw [hf] at hs
    cases hs
    exact ⟨k, by simp [Sys.ret]; rfl, h.ret _⟩
  | some f =>
    rw [hf] at hs
    obtain ⟨k1, hk1, h1⟩ := h.fdalloc p f
    simp only [Option.map_some]
    rw [Prog.run_bind_ok (Prog.run_lift_ok hk1)]
    simp only [Sys.dup] at hs
    cases hfd : Files.fdalloc (s.proc p).ofile with
    | none =>
      rw [hfd] at hs h1
      cases hs
      exact ⟨k1, by simp [Sys.ret]; rfl, h1.ret _⟩
    | some d =>
      rw [hfd] at hs h1
      dsimp only at hs
      split_ifs at hs with href
      cases hs
      obtain ⟨k2, hk2, h2⟩ := h1.filedup href
      simp only [Option.map_some]
      rw [Prog.run_bind_ok (Prog.run_lift_ok hk2)]
      exact ⟨k2, by simp [Sys.ret]; rfl, h2.ret _⟩

end Agrees

/-! ## Pipes and the shell -/

theorem pipeclose_ends {P : Type} (s : Xv6.Pipes.Sys P) (writable : Bool) :
    let t := Xv6.Pipes.pipeclose writable s
    (⟨t.pipe.readopen, t.pipe.writeopen⟩ : Pipe) =
      Pipe.close ⟨s.pipe.readopen, s.pipe.writeopen⟩ writable := by
  cases writable <;> rfl

theorem shell_fdalloc {W F : Type} {t : Sh.Table W F} {ofile : Fd → Option Fno}
    (h : ∀ fd : Fd, (t fd).isNone = (ofile fd).isNone) (f : Sh.File W F) :
    (Sh.fdalloc t f).map Prod.fst = (fdalloc ofile).map Fin.val := by
  rw [Sh.fdalloc, find_range, Option.map_map, Option.map_map]
  simp only [h]
  rfl

end Xv6.Files
