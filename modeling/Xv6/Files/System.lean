import Xv6.Fs.State

/-!
# Open files and pipes

`ftable`, the descriptors that point into it, and the pages of pipes: `file.c`, `pipealloc` and
`pipeclose`, and the calls of `sysfile.c` on descriptors. A step is a section under `ftable.lock` or
the lock of a pipe, with what the process does to its own descriptors around it, so that the calls
of different processes interleave.

1. The system.
2. What the steps do (`Does`).
3. `f->ip` and `f->pipe` are only used in a file of the right type, except by `lseek`.
-/

namespace Xv6.Files

open Fs (FdType)
open Function Finset

/-! ## The system -/

abbrev Pid := Fin NPROC
abbrev Fd := Fin NOFILE
abbrev Fno := Fin NFILE

instance : NeZero NPROC := ⟨by decide⟩
instance : NeZero NOFILE := ⟨by decide⟩
instance : NeZero NFILE := ⟨by decide⟩

structure File where
  type : FdType
  ref : ℕ
  readable : Bool
  writable : Bool
  pipe : Option ℕ
  ip : Option ℕ
  off : ℕ
  deriving DecidableEq

structure Pipe where
  readopen : Bool
  writeopen : Bool

def Pipe.isOpen (pi : Pipe) (writable : Bool) : Bool :=
  if writable then pi.writeopen else pi.readopen

def Pipe.close (pi : Pipe) (writable : Bool) : Pipe :=
  if writable then ⟨pi.readopen, false⟩ else ⟨false, pi.writeopen⟩

inductive Pc
  | unused
  /-- being made by `fork` -/
  | embryo
  /-- between calls -/
  | idle
  /-- in `sys_open`, with a file and a descriptor -/
  | opening (f : Fno) (fd : Fd)
  /-- in `pipealloc`, with one file -/
  | pipe1 (f0 : Fno)
  /-- in `pipealloc`, with both -/
  | pipe2 (f0 f1 : Fno)
  /-- about to close the files `fs` and to return `r` -/
  | closing (fs : List Fno) (r : ℤ)
  /-- in `pipeclose`, with the files `fs` to close after it -/
  | pipeclosing (v : ℕ) (writable : Bool) (fs : List Fno) (r : ℤ)
  /-- in `fork`, at descriptor `fd` -/
  | forking (np : Pid) (fd : ℕ)
  /-- in `exit`, at descriptor `fd` -/
  | exiting (fd : ℕ)
  /-- in `pipeclose`, called by `exit` -/
  | exitclosing (v : ℕ) (writable : Bool) (fd : ℕ)
  deriving DecidableEq

structure Proc where
  ofile : Fd → Option Fno
  pc : Pc
  /-- What the last call returned. -/
  ret : ℤ

inductive Use
  | ip (type : FdType)
  | pipe (type : FdType)
  deriving DecidableEq

def Use.Typed : Use → Prop
  | .ip type => type = .inode
  | .pipe type => type = .pipe

/-- The state. `pages` and `others` say what the pages not on the free list are used for: pipes, and
everything else. The last three fields are a record: how often a page was taken for a pipe, how
often it was freed by `pipeclose`, and the pointers used. -/
structure Sys where
  free : List ℕ
  pages : List ℕ
  others : List ℕ
  pipes : ℕ → Pipe
  ftable : Fno → File
  proc : Pid → Proc
  made : ℕ → ℕ
  freed : ℕ → ℕ
  uses : List Use

namespace Sys

variable (s : Sys)

@[simps]
def setProc (p : Pid) (pr : Proc) : Sys := { s with proc := update s.proc p pr }

@[simps]
def setFile (f : Fno) (fl : File) : Sys := { s with ftable := update s.ftable f fl }

@[simps]
def use (u : Use) : Sys := { s with uses := s.uses ++ [u] }

def goto (p : Pid) (pc : Pc) : Sys := s.setProc p { s.proc p with pc := pc }

def ret (p : Pid) (r : ℤ) : Sys := s.setProc p { s.proc p with pc := .idle, ret := r }

def setOfile (p : Pid) (fd : Fd) (f : Option Fno) : Sys :=
  s.setProc p { s.proc p with ofile := update (s.proc p).ofile fd f }

def filealloc : Option Fno := (List.finRange NFILE).find? fun f => (s.ftable f).ref = 0

def refUp (f : Fno) : Sys := s.setFile f { s.ftable f with ref := (s.ftable f).ref + 1 }

def setOff (f : Fno) (off : ℕ) : Sys := s.setFile f { s.ftable f with off := off }

def openFile (f : Fno) (ip : ℕ) (readable writable : Bool) : Sys :=
  s.setFile f
    { s.ftable f with
      type := .inode
      ip := some ip
      off := 0
      readable := readable
      writable := writable }

@[simps]
def freePage (v : ℕ) : Sys :=
  { s with
    free := v :: s.free
    pages := s.pages.erase v
    freed := update s.freed v (s.freed v + 1) }

@[simps]
def closeEnd (v : ℕ) (writable : Bool) : Sys :=
  { s with pipes := update s.pipes v ((s.pipes v).close writable) }

@[simps]
def makePipe (v : ℕ) (free : List ℕ) : Sys :=
  { s with
    free := free
    pages := v :: s.pages
    pipes := update s.pipes v ⟨true, true⟩
    made := update s.made v (s.made v + 1) }

def pipeclose (v : ℕ) (writable : Bool) : Sys :=
  let s := s.closeEnd v writable
  if (s.pipes v).readopen = false ∧ (s.pipes v).writeopen = false then s.freePage v else s

/-- The section of `fileclose` under the lock, and the test of the type after it: the state, and the
pipe to close. It panics if there is no reference. -/
def fileclose (f : Fno) : Option (Sys × Option (ℕ × Bool)) :=
  let ff := s.ftable f
  if ff.ref < 1 then none
  else if 1 < ff.ref then some (s.setFile f { ff with ref := ff.ref - 1 }, none)
  else
    let s := s.setFile f { ff with ref := 0, type := .none }
    match ff.type with
    | .none => some (s, none)
    | .inode => some (s.use (.ip ff.type), none)
    | .pipe => ff.pipe.map fun v => (s.use (.pipe ff.type), some (v, ff.writable))

def pipeFile (f : Fno) (v : ℕ) (writable : Bool) : Sys :=
  s.setFile f
    { s.ftable f with type := .pipe, readable := !writable, writable := writable, pipe := some v }

def pipeInit (f0 f1 : Fno) (v : ℕ) (free : List ℕ) : Sys :=
  ((s.makePipe v free).pipeFile f0 v false).pipeFile f1 v true

@[simps]
def take (v : ℕ) (free : List ℕ) : Sys := { s with free := free, others := v :: s.others }

@[simps]
def give (v : ℕ) : Sys := { s with free := v :: s.free, others := s.others.erase v }

end Sys

def fdalloc (ofile : Fd → Option Fno) : Option Fd :=
  (List.finRange NOFILE).find? fun fd => (ofile fd).isNone

inductive Label
  /-- A call fails before it comes to the file table. -/
  | badArg (p : Pid)
  /-- `filealloc` and `fdalloc` in `sys_open`. -/
  | openAlloc (p : Pid)
  /-- The end of `sys_open`. -/
  | openSet (p : Pid) (ip : ℕ) (readable writable : Bool)
  /-- The first `filealloc` in `pipealloc`. -/
  | pipeAlloc (p : Pid)
  /-- The second one. -/
  | pipeNext (p : Pid)
  /-- `kalloc`, and the descriptors. -/
  | pipeEnd (p : Pid)
  | dup (p : Pid) (fd : Fd)
  | close (p : Pid) (fd : Fd)
  /-- The next of the files that the process has to close. -/
  | closeNext (p : Pid)
  | pipeclose (p : Pid)
  | fork (p np : Pid)
  | forkNext (p : Pid)
  | exit (p : Pid)
  | exitNext (p : Pid)
  /-- `n` bytes are read. -/
  | read (p : Pid) (fd : Fd) (n : ℕ)
  | write (p : Pid) (fd : Fd) (n : ℕ)
  | fstat (p : Pid) (fd : Fd)
  /-- The inode that `f->ip` points to has size `size`. -/
  | lseek (p : Pid) (fd : Fd) (offset : ℕ) (whence : ℤ) (size : ℕ)
  /-- The rest of the kernel takes a page, or gives one back. -/
  | kalloc
  | kfree (v : ℕ)

namespace Sys

variable (s : Sys) (p : Pid)

def openAlloc : Sys :=
  match s.filealloc with
  | none => s.ret p (-1)
  | some f =>
    match fdalloc (s.proc p).ofile with
    | none => (s.refUp f).goto p (.closing [f] (-1))
    | some fd => ((s.refUp f).setOfile p fd (some f)).goto p (.opening f fd)

def pipeAlloc : Sys :=
  match s.filealloc with
  | none => s.ret p (-1)
  | some f0 => (s.refUp f0).goto p (.pipe1 f0)

def pipeNext (f0 : Fno) : Sys :=
  match s.filealloc with
  | none => s.goto p (.closing [f0] (-1))
  | some f1 => (s.refUp f1).goto p (.pipe2 f0 f1)

def pipeEnd (f0 f1 : Fno) : Sys :=
  match s.free with
  | [] => s.goto p (.closing [f0, f1] (-1))
  | v :: free =>
    let s := s.pipeInit f0 f1 v free
    match fdalloc (s.proc p).ofile with
    | none => s.goto p (.closing [f0, f1] (-1))
    | some fd0 =>
      let s' := s.setOfile p fd0 (some f0)
      match fdalloc (s'.proc p).ofile with
      | none => (s'.setOfile p fd0 none).goto p (.closing [f0, f1] (-1))
      | some fd1 => (s'.setOfile p fd1 (some f1)).ret p 0

def dup (f : Fno) : Option Sys :=
  match fdalloc (s.proc p).ofile with
  | none => some (s.ret p (-1))
  | some fd =>
    if (s.ftable f).ref < 1 then none
    else some (((s.refUp f).setOfile p fd (some f)).ret p fd.val)

def afterClose (fs : List Fno) (r : ℤ) : Option (ℕ × Bool) → Pc
  | none => .closing fs r
  | some (v, w) => .pipeclosing v w fs r

def closeNext (fs : List Fno) (r : ℤ) : Option Sys :=
  match fs with
  | [] => some (s.ret p r)
  | f :: fs => (s.fileclose f).map fun (s, o) => s.goto p (afterClose fs r o)

def forkNext (np : Pid) (fd : ℕ) : Option Sys :=
  if h : fd < NOFILE then
    match (s.proc p).ofile ⟨fd, h⟩ with
    | none => some (s.goto p (.forking np (fd + 1)))
    | some f =>
      if (s.ftable f).ref < 1 then none
      else some (((s.refUp f).setOfile np ⟨fd, h⟩ (some f)).goto p (.forking np (fd + 1)))
  else some ((s.goto np .idle).ret p 0)

def afterExitClose (fd : ℕ) : Option (ℕ × Bool) → Pc
  | none => .exiting fd
  | some (v, w) => .exitclosing v w fd

def exitNext (fd : ℕ) : Option Sys :=
  if h : fd < NOFILE then
    match (s.proc p).ofile ⟨fd, h⟩ with
    | none => some (s.goto p (.exiting (fd + 1)))
    | some f => (s.fileclose f).map fun (s, o) =>
      (s.setOfile p ⟨fd, h⟩ none).goto p (afterExitClose (fd + 1) o)
  else some (s.goto p .unused)

def read (f : Fno) (n : ℕ) : Option Sys :=
  let fl := s.ftable f
  if fl.readable = false then some (s.ret p (-1))
  else
    match fl.type with
    | .pipe => some ((s.use (.pipe fl.type)).ret p n)
    | .inode => some (((s.use (.ip fl.type)).setOff f ((fl.off + n) % 2 ^ 32)).ret p n)
    | .none => none

def write (f : Fno) (n : ℕ) : Option Sys :=
  let fl := s.ftable f
  if fl.writable = false then some (s.ret p (-1))
  else
    match fl.type with
    | .pipe => some ((s.use (.pipe fl.type)).ret p n)
    | .inode => some (((s.use (.ip fl.type)).setOff f ((fl.off + n) % 2 ^ 32)).ret p n)
    | .none => none

def fstat (f : Fno) : Sys :=
  match (s.ftable f).type with
  | .inode => (s.use (.ip (s.ftable f).type)).ret p 0
  | _ => s.ret p (-1)

/-- `filelseek`. Without an inode the kernel traps. -/
def lseek (f : Fno) (offset : ℕ) (whence : ℤ) (size : ℕ) : Option Sys :=
  let fl := s.ftable f
  if fl.ip = none then none
  else
    let s := s.use (.ip fl.type)
    if size < offset then some (s.ret p (-1))
    else if whence = 0 then some ((s.setOff f offset).ret p 0)
    else if whence = 1 then some ((s.setOff f ((fl.off + offset) % 2 ^ 32)).ret p 0)
    else if whence = 2 then some ((s.setOff f (size - offset)).ret p 0)
    else some (s.ret p 0)

def withFd (fd : Fd) (k : Fno → Option Sys) : Option Sys :=
  if (s.proc p).pc = .idle then
    match (s.proc p).ofile fd with
    | none => some (s.ret p (-1))
    | some f => k f
  else none

end Sys

def step (s : Sys) : Label → Option Sys
  | .badArg p => if (s.proc p).pc = .idle then some (s.ret p (-1)) else none
  | .openAlloc p => if (s.proc p).pc = .idle then some (s.openAlloc p) else none
  | .openSet p ip readable writable =>
    match (s.proc p).pc with
    | .opening f fd =>
      some ((s.openFile f ip readable writable).ret p fd.val)
    | _ => none
  | .pipeAlloc p => if (s.proc p).pc = .idle then some (s.pipeAlloc p) else none
  | .pipeNext p =>
    match (s.proc p).pc with
    | .pipe1 f0 => some (s.pipeNext p f0)
    | _ => none
  | .pipeEnd p =>
    match (s.proc p).pc with
    | .pipe2 f0 f1 => some (s.pipeEnd p f0 f1)
    | _ => none
  | .dup p fd => s.withFd p fd (s.dup p)
  | .close p fd => s.withFd p fd fun f => some ((s.setOfile p fd none).goto p (.closing [f] 0))
  | .closeNext p =>
    match (s.proc p).pc with
    | .closing fs r => s.closeNext p fs r
    | _ => none
  | .pipeclose p =>
    match (s.proc p).pc with
    | .pipeclosing v w fs r => some ((s.pipeclose v w).goto p (.closing fs r))
    | .exitclosing v w fd => some ((s.pipeclose v w).goto p (.exiting fd))
    | _ => none
  | .fork p np =>
    if (s.proc p).pc = .idle ∧ (s.proc np).pc = .unused then
      some ((s.goto np .embryo).goto p (.forking np 0))
    else none
  | .forkNext p =>
    match (s.proc p).pc with
    | .forking np fd => s.forkNext p np fd
    | _ => none
  | .exit p => if (s.proc p).pc = .idle then some (s.goto p (.exiting 0)) else none
  | .exitNext p =>
    match (s.proc p).pc with
    | .exiting fd => s.exitNext p fd
    | _ => none
  | .read p fd n => s.withFd p fd fun f => s.read p f n
  | .write p fd n => s.withFd p fd fun f => s.write p f n
  | .fstat p fd => s.withFd p fd fun f => some (s.fstat p f)
  | .lseek p fd offset whence size => s.withFd p fd fun f => s.lseek p f offset whence size
  | .kalloc =>
    match s.free with
    | [] => none
    | v :: free => some (s.take v free)
  | .kfree v => if v ∈ s.others then some (s.give v) else none

def start (free : List ℕ) : Sys where
  free := free
  pages := []
  others := []
  pipes _ := ⟨false, false⟩
  ftable _ := ⟨.none, 0, false, false, none, none, 0⟩
  proc p := ⟨fun _ => none, if p = 0 then .idle else .unused, 0⟩
  made _ := 0
  freed _ := 0
  uses := []

def SeeksInode (s : Sys) : Label → Prop
  | .lseek p fd _ _ _ => ∀ f, (s.proc p).ofile fd = some f → (s.ftable f).type = .inode
  | _ => True

instance (s : Sys) (l : Label) : Decidable (SeeksInode s l) := by
  unfold SeeksInode
  cases l <;> infer_instance

/-! ## What the steps do -/

section Cases

variable {s s' : Sys} {p : Pid}

variable {fd : Fd}

theorem fdalloc_none {ofile : Fd → Option Fno} (h : fdalloc ofile = some fd) : ofile fd = none := by
  have := List.find?_some h
  simpa using this

variable {f : Fno}

theorem filealloc_ref (h : s.filealloc = some f) : (s.ftable f).ref = 0 := by
  have := List.find?_some h
  simpa using this

theorem fileclose_cases {o : Option (ℕ × Bool)} (h : s.fileclose f = some (s', o)) :
    (1 < (s.ftable f).ref ∧ o = none ∧
      s' = s.setFile f { s.ftable f with ref := (s.ftable f).ref - 1 }) ∨
    ((s.ftable f).ref = 1 ∧ ∃ us : List Use, (∀ u ∈ us, u.Typed) ∧
      s' = { s.setFile f { s.ftable f with ref := 0, type := .none } with uses := s.uses ++ us } ∧
      ((s.ftable f).type ≠ .pipe ∧ o = none ∨
        ∃ v, (s.ftable f).type = .pipe ∧ (s.ftable f).pipe = some v ∧
          o = some (v, (s.ftable f).writable))) := by
  unfold Sys.fileclose at h
  dsimp only at h
  split_ifs at h with h0 h1
  · cases h
    exact Or.inl ⟨h1, rfl, rfl⟩
  · refine Or.inr ⟨by omega, ?_⟩
    cases ht : (s.ftable f).type with
    | none =>
      rw [ht] at h
      cases h
      refine ⟨[], by simp, ?_, Or.inl ⟨by simp, rfl⟩⟩
      rw [List.append_nil]
      rfl
    | inode =>
      rw [ht] at h
      cases h
      exact ⟨[.ip .inode], by simp [Use.Typed], rfl, Or.inl ⟨by simp, rfl⟩⟩
    | pipe =>
      rw [ht] at h
      obtain ⟨v, hv, hs⟩ := Option.map_eq_some_iff.mp h
      cases hs
      exact ⟨[.pipe .pipe], by simp [Use.Typed], rfl, Or.inr ⟨v, rfl, hv, rfl⟩⟩

def Sys.access (s : Sys) (f : Fno) (us : List Use) (off : ℕ) : Sys :=
  { s.setOff f off with uses := s.uses ++ us }

theorem Sys.access_nil (s : Sys) (f : Fno) : s.access f [] (s.ftable f).off = s := by
  unfold Sys.access Sys.setOff Sys.setFile
  rw [List.append_nil]
  exact congrArg (fun t => { s with ftable := t }) (update_eq_self f s.ftable)

theorem Sys.access_use (s : Sys) (f : Fno) (u : Use) :
    s.access f [u] (s.ftable f).off = s.use u := by
  unfold Sys.access Sys.setOff Sys.setFile Sys.use
  exact congrArg (fun t => { s with ftable := t, uses := s.uses ++ [u] })
    (update_eq_self f s.ftable)

def Accesses (s : Sys) (p : Pid) (f : Fno) (typed : Prop) (s' : Sys) : Prop :=
  ∃ us off r, (typed → ∀ u ∈ us, u.Typed) ∧ s' = (s.access f us off).ret p r

variable {typed : Prop}

theorem Accesses.ret (r : ℤ) : Accesses s p f typed (s.ret p r) :=
  ⟨[], _, r, by simp, by rw [Sys.access_nil]⟩

theorem Accesses.use (u : Use) (hu : typed → u.Typed) (r : ℤ) :
    Accesses s p f typed ((s.use u).ret p r) :=
  ⟨[u], _, r, by simpa using hu, by rw [Sys.access_use]⟩

theorem Accesses.move (u : Use) (hu : typed → u.Typed) (off : ℕ) (r : ℤ) :
    Accesses s p f typed (((s.use u).setOff f off).ret p r) :=
  ⟨[u], off, r, by simpa using hu, rfl⟩

variable {n : ℕ}

theorem transfer_accesses {f : Fno} {n : ℕ} {mode : Bool}
    (h : (if mode = false then some (s.ret p (-1)) else
      match (s.ftable f).type with
      | .pipe => some ((s.use (.pipe (s.ftable f).type)).ret p n)
      | .inode => some (((s.use (.ip (s.ftable f).type)).setOff f
          (((s.ftable f).off + n) % 2 ^ 32)).ret p n)
      | .none => none) = some s') : Accesses s p f True s' := by
  split_ifs at h
  · cases h
    exact .ret _
  · cases ht : (s.ftable f).type with
    | none =>
      rw [ht] at h
      simp at h
    | inode =>
      rw [ht] at h
      cases h
      exact .move (.ip .inode) (fun _ => rfl) _ _
    | pipe =>
      rw [ht] at h
      cases h
      exact .use (.pipe .pipe) (fun _ => rfl) _

theorem fstat_accesses : Accesses s p f True (s.fstat p f) := by
  unfold Sys.fstat
  cases ht : (s.ftable f).type with
  | none => exact .ret _
  | pipe => exact .ret _
  | inode => exact .use (.ip .inode) (fun _ => rfl) _

theorem lseek_accesses {offset size : ℕ} {whence : ℤ}
    (h : s.lseek p f offset whence size = some s') :
    Accesses s p f ((s.ftable f).type = .inode) s' := by
  unfold Sys.lseek at h
  dsimp only at h
  split_ifs at h
  · cases h
    exact .use (.ip (s.ftable f).type) id _
  · cases h
    exact .move (.ip (s.ftable f).type) id _ _
  · cases h
    exact .move (.ip (s.ftable f).type) id _ _
  · cases h
    exact .move (.ip (s.ftable f).type) id _ _
  · cases h
    exact .use (.ip (s.ftable f).type) id _

/-- What a step can do, with what is known when it does it. `seeks` is what is assumed of a call of
`lseek`. -/
inductive Does (seeks : Prop) (s : Sys) : Sys → Prop
  | ret {p : Pid} (r : ℤ) : (s.proc p).pc = .idle → Does seeks s (s.ret p r)
  | openFile {p : Pid} {f : Fno} {fd : Fd} : (s.proc p).pc = .idle → (s.ftable f).ref = 0 →
      (s.proc p).ofile fd = none →
      Does seeks s (((s.refUp f).setOfile p fd (some f)).goto p (.opening f fd))
  | openFails {p : Pid} {f : Fno} : (s.proc p).pc = .idle → (s.ftable f).ref = 0 →
      Does seeks s ((s.refUp f).goto p (.closing [f] (-1)))
  | openSet {p : Pid} {f : Fno} {fd : Fd} (ip : ℕ) (readable writable : Bool) :
      (s.proc p).pc = .opening f fd →
      Does seeks s ((s.openFile f ip readable writable).ret p fd.val)
  | pipeFirst {p : Pid} {f : Fno} : (s.proc p).pc = .idle → (s.ftable f).ref = 0 →
      Does seeks s ((s.refUp f).goto p (.pipe1 f))
  | pipeFails1 {p : Pid} {f0 : Fno} : (s.proc p).pc = .pipe1 f0 →
      Does seeks s (s.goto p (.closing [f0] (-1)))
  | pipeSecond {p : Pid} {f0 f1 : Fno} : (s.proc p).pc = .pipe1 f0 → (s.ftable f1).ref = 0 →
      Does seeks s ((s.refUp f1).goto p (.pipe2 f0 f1))
  | pipeFails2 {p : Pid} {f0 f1 : Fno} : (s.proc p).pc = .pipe2 f0 f1 →
      Does seeks s (s.goto p (.closing [f0, f1] (-1)))
  | pipeFails3 {p : Pid} {f0 f1 : Fno} {v : ℕ} {free : List ℕ} :
      (s.proc p).pc = .pipe2 f0 f1 → s.free = v :: free →
      Does seeks s ((s.pipeInit f0 f1 v free).goto p (.closing [f0, f1] (-1)))
  | pipeDone {p : Pid} {f0 f1 : Fno} {v : ℕ} {free : List ℕ} {fd0 fd1 : Fd} :
      (s.proc p).pc = .pipe2 f0 f1 → s.free = v :: free → (s.proc p).ofile fd0 = none →
      (s.proc p).ofile fd1 = none → fd0 ≠ fd1 →
      Does seeks s ((((s.pipeInit f0 f1 v free).setOfile p fd0 (some f0)).setOfile p fd1
        (some f1)).ret p 0)
  | dup {p : Pid} {fd fd' : Fd} {f : Fno} : (s.proc p).pc = .idle →
      (s.proc p).ofile fd = some f → (s.proc p).ofile fd' = none →
      Does seeks s (((s.refUp f).setOfile p fd' (some f)).ret p fd'.val)
  | close {p : Pid} {fd : Fd} {f : Fno} : (s.proc p).pc = .idle →
      (s.proc p).ofile fd = some f →
      Does seeks s ((s.setOfile p fd none).goto p (.closing [f] 0))
  | closed {p : Pid} {r : ℤ} : (s.proc p).pc = .closing [] r → Does seeks s (s.ret p r)
  | closeFile {p : Pid} {f : Fno} {fs : List Fno} {r : ℤ} {t : Sys} {o : Option (ℕ × Bool)} :
      (s.proc p).pc = .closing (f :: fs) r → s.fileclose f = some (t, o) →
      Does seeks s (t.goto p (Sys.afterClose fs r o))
  | closePipe {p : Pid} {v : ℕ} {w : Bool} {fs : List Fno} {r : ℤ} :
      (s.proc p).pc = .pipeclosing v w fs r →
      Does seeks s ((s.pipeclose v w).goto p (.closing fs r))
  | fork {p np : Pid} : (s.proc p).pc = .idle → (s.proc np).pc = .unused →
      Does seeks s ((s.goto np .embryo).goto p (.forking np 0))
  | forkSkip {p np : Pid} {n : ℕ} (hn : n < NOFILE) : (s.proc p).pc = .forking np n →
      (s.proc p).ofile ⟨n, hn⟩ = none → Does seeks s (s.goto p (.forking np (n + 1)))
  | forkDup {p np : Pid} {n : ℕ} {f : Fno} (hn : n < NOFILE) : (s.proc p).pc = .forking np n →
      (s.proc p).ofile ⟨n, hn⟩ = some f →
      Does seeks s (((s.refUp f).setOfile np ⟨n, hn⟩ (some f)).goto p (.forking np (n + 1)))
  | forked {p np : Pid} {n : ℕ} : (s.proc p).pc = .forking np n →
      Does seeks s ((s.goto np .idle).ret p 0)
  | exit {p : Pid} : (s.proc p).pc = .idle → Does seeks s (s.goto p (.exiting 0))
  | exitSkip {p : Pid} {n : ℕ} (hn : n < NOFILE) : (s.proc p).pc = .exiting n →
      (s.proc p).ofile ⟨n, hn⟩ = none → Does seeks s (s.goto p (.exiting (n + 1)))
  | exitFile {p : Pid} {n : ℕ} {f : Fno} {t : Sys} {o : Option (ℕ × Bool)} (hn : n < NOFILE) :
      (s.proc p).pc = .exiting n → (s.proc p).ofile ⟨n, hn⟩ = some f →
      s.fileclose f = some (t, o) →
      Does seeks s ((t.setOfile p ⟨n, hn⟩ none).goto p (Sys.afterExitClose (n + 1) o))
  | exitPipe {p : Pid} {v : ℕ} {w : Bool} {n : ℕ} : (s.proc p).pc = .exitclosing v w n →
      Does seeks s ((s.pipeclose v w).goto p (.exiting n))
  | exited {p : Pid} {n : ℕ} : (s.proc p).pc = .exiting n → NOFILE ≤ n →
      Does seeks s (s.goto p .unused)
  | access {p : Pid} {f : Fno} {us : List Use} (off : ℕ) (r : ℤ) : (s.proc p).pc = .idle →
      (seeks → ∀ u ∈ us, u.Typed) → Does seeks s ((s.access f us off).ret p r)
  | take {v : ℕ} {free : List ℕ} : s.free = v :: free → Does seeks s (s.take v free)
  | give {v : ℕ} : v ∈ s.others → Does seeks s (s.give v)

variable {seeks : Prop}

theorem openAlloc_does (hi : (s.proc p).pc = .idle) : Does seeks s (s.openAlloc p) := by
  unfold Sys.openAlloc
  cases hf : s.filealloc with
  | none => exact .ret _ hi
  | some f =>
    cases hd : fdalloc (s.proc p).ofile with
    | none => exact .openFails hi (filealloc_ref hf)
    | some fd => exact .openFile hi (filealloc_ref hf) (fdalloc_none hd)

theorem pipeAlloc_does (hi : (s.proc p).pc = .idle) : Does seeks s (s.pipeAlloc p) := by
  unfold Sys.pipeAlloc
  cases hf : s.filealloc with
  | none => exact .ret _ hi
  | some f => exact .pipeFirst hi (filealloc_ref hf)

variable {f0 : Fno}

theorem pipeNext_does (hc : (s.proc p).pc = .pipe1 f0) : Does seeks s (s.pipeNext p f0) := by
  unfold Sys.pipeNext
  cases hf : s.filealloc with
  | none => exact .pipeFails1 hc
  | some f => exact .pipeSecond hc (filealloc_ref hf)

@[simp]
theorem Sys.pipeInit_proc {f1 : Fno} {v : ℕ} {free : List ℕ} :
    (s.pipeInit f0 f1 v free).proc = s.proc := rfl

@[simp]
theorem Sys.setOfile_ofile {o : Option Fno} :
    ((s.setOfile p fd o).proc p).ofile = update (s.proc p).ofile fd o := by
  simp [Sys.setOfile]

theorem Sys.setOfile_undo {o : Option Fno} (h : (s.proc p).ofile fd = none) :
    (s.setOfile p fd o).setOfile p fd none = s := by
  have hp : update (s.proc p).ofile fd none = (s.proc p).ofile := by
    rw [← h]
    exact update_eq_self fd _
  simp [Sys.setOfile, Sys.setProc, hp]

theorem pipeEnd_does {f1 : Fno} (hc : (s.proc p).pc = .pipe2 f0 f1) :
    Does seeks s (s.pipeEnd p f0 f1) := by
  unfold Sys.pipeEnd
  cases hfree : s.free with
  | nil => exact .pipeFails2 hc
  | cons v free =>
    dsimp only
    cases hd0 : fdalloc ((s.pipeInit f0 f1 v free).proc p).ofile with
    | none => exact .pipeFails3 hc hfree
    | some fd0 =>
      have h0 := fdalloc_none hd0
      dsimp only
      cases hd1 : fdalloc (((s.pipeInit f0 f1 v free).setOfile p fd0 (some f0)).proc p).ofile with
      | none =>
        dsimp only
        rw [Sys.setOfile_undo h0]
        exact .pipeFails3 hc hfree
      | some fd1 =>
        have h1 := fdalloc_none hd1
        rw [Sys.setOfile_ofile] at h1
        by_cases h01 : fd1 = fd0
        · rw [h01, update_self] at h1
          simp at h1
        · rw [update_of_ne h01] at h1
          exact .pipeDone hc hfree h0 h1 (Ne.symm h01)

theorem dup_does (hi : (s.proc p).pc = .idle)
    (ho : (s.proc p).ofile fd = some f) (h : s.dup p f = some s') : Does seeks s s' := by
  unfold Sys.dup at h
  cases hd : fdalloc (s.proc p).ofile with
  | none =>
    rw [hd] at h
    cases h
    exact .ret _ hi
  | some fd =>
    rw [hd] at h
    dsimp only at h
    split_ifs at h
    cases h
    exact .dup hi ho (fdalloc_none hd)

theorem closeNext_does {fs : List Fno} {r : ℤ} (hc : (s.proc p).pc = .closing fs r)
    (h : s.closeNext p fs r = some s') : Does seeks s s' := by
  cases fs with
  | nil =>
    cases h
    exact .closed hc
  | cons f fs =>
    obtain ⟨⟨t, o⟩, ht, rfl⟩ := Option.map_eq_some_iff.mp h
    exact .closeFile hc ht

theorem exitNext_does (hc : (s.proc p).pc = .exiting n)
    (h : s.exitNext p n = some s') : Does seeks s s' := by
  unfold Sys.exitNext at h
  split_ifs at h with hn
  · cases ho : (s.proc p).ofile ⟨n, hn⟩ with
    | none =>
      rw [ho] at h
      cases h
      exact .exitSkip hn hc ho
    | some f =>
      rw [ho] at h
      obtain ⟨⟨t, o⟩, ht, rfl⟩ := Option.map_eq_some_iff.mp h
      exact .exitFile hn hc ho ht
  · cases h
    exact .exited hc (not_lt.mp hn)

theorem forkNext_does {np : Pid} (hc : (s.proc p).pc = .forking np n)
    (h : s.forkNext p np n = some s') : Does seeks s s' := by
  unfold Sys.forkNext at h
  split_ifs at h with hn
  · cases ho : (s.proc p).ofile ⟨n, hn⟩ with
    | none =>
      rw [ho] at h
      cases h
      exact .forkSkip hn hc ho
    | some f =>
      rw [ho] at h
      dsimp only at h
      split_ifs at h
      cases h
      exact .forkDup hn hc ho
  · cases h
    exact .forked hc

theorem Accesses.does (h : Accesses s p f typed s')
    (hi : (s.proc p).pc = .idle) (ht : seeks → typed) : Does seeks s s' := by
  obtain ⟨us, off, r, hus, rfl⟩ := h
  exact .access off r hi fun hs => hus (ht hs)

theorem withFd_does {k : Fno → Option Sys} (h : s.withFd p fd k = some s')
    (hk : ∀ f, (s.proc p).pc = .idle → (s.proc p).ofile fd = some f → k f = some s' →
      Does seeks s s') : Does seeks s s' := by
  unfold Sys.withFd at h
  split_ifs at h with hi
  cases ho : (s.proc p).ofile fd with
  | none =>
    rw [ho] at h
    cases h
    exact .ret _ hi
  | some f =>
    rw [ho] at h
    exact hk f hi ho h

theorem step_does {l : Label} (h : step s l = some s') : Does (SeeksInode s l) s s' := by
  cases l with
  | badArg p =>
    obtain ⟨hi, rfl⟩ := Lts.of_guard h
    exact .ret _ hi
  | openAlloc p =>
    obtain ⟨hi, rfl⟩ := Lts.of_guard h
    exact openAlloc_does hi
  | openSet p ip r w =>
    simp only [step] at h
    split at h
    · cases h
      exact .openSet ip r w ‹_›
    · simp at h
  | pipeAlloc p =>
    obtain ⟨hi, rfl⟩ := Lts.of_guard h
    exact pipeAlloc_does hi
  | pipeNext p =>
    simp only [step] at h
    split at h
    · cases h
      exact pipeNext_does ‹_›
    · simp at h
  | pipeEnd p =>
    simp only [step] at h
    split at h
    · cases h
      exact pipeEnd_does ‹_›
    · simp at h
  | dup p fd => exact withFd_does h fun f hi ho hf => dup_does hi ho hf
  | close p fd =>
    refine withFd_does h fun f hi ho hf => ?_
    cases hf
    exact .close hi ho
  | closeNext p =>
    simp only [step] at h
    split at h
    · exact closeNext_does ‹_› h
    · simp at h
  | pipeclose p =>
    simp only [step] at h
    split at h
    · cases h
      exact .closePipe ‹_›
    · cases h
      exact .exitPipe ‹_›
    · simp at h
  | fork p np =>
    obtain ⟨⟨hi, hu⟩, rfl⟩ := Lts.of_guard h
    exact .fork hi hu
  | forkNext p =>
    simp only [step] at h
    split at h
    · exact forkNext_does ‹_› h
    · simp at h
  | exit p =>
    obtain ⟨hi, rfl⟩ := Lts.of_guard h
    exact .exit hi
  | exitNext p =>
    simp only [step] at h
    split at h
    · exact exitNext_does ‹_› h
    · simp at h
  | read p fd n =>
    exact withFd_does h fun f hi _ hf => (transfer_accesses hf).does hi fun _ => trivial
  | write p fd n =>
    exact withFd_does h fun f hi _ hf => (transfer_accesses hf).does hi fun _ => trivial
  | fstat p fd =>
    refine withFd_does h fun f hi _ hf => ?_
    cases hf
    exact fstat_accesses.does hi fun _ => trivial
  | lseek p fd offset whence size =>
    exact withFd_does h fun f hi ho hf => (lseek_accesses hf).does hi fun hs => hs f ho
  | kalloc =>
    simp only [step] at h
    split at h
    · simp at h
    · cases h
      exact .take ‹_›
  | kfree v =>
    obtain ⟨hv, rfl⟩ := Lts.of_guard h
    exact .give hv

end Cases

/-! ## Files are used according to their type -/

section Uses

variable {s s' : Sys} {p : Pid}

theorem pipeclose_uses {v : ℕ} {w : Bool} : (s.pipeclose v w).uses = s.uses := by
  unfold Sys.pipeclose
  dsimp only
  split_ifs <;> rfl

theorem fileclose_uses {f : Fno} {o : Option (ℕ × Bool)} (h : s.fileclose f = some (s', o)) :
    ∃ us : List Use, s'.uses = s.uses ++ us ∧ ∀ u ∈ us, u.Typed := by
  obtain ⟨-, -, rfl⟩ | ⟨-, us, hus, rfl, -⟩ := fileclose_cases h
  · exact ⟨[], (List.append_nil _).symm, by simp⟩
  · exact ⟨us, rfl, hus⟩

theorem Does.uses {seeks : Prop} (hs : seeks) (h : Does seeks s s') :
    ∃ us : List Use, s'.uses = s.uses ++ us ∧ ∀ u ∈ us, u.Typed := by
  have none : s'.uses = s.uses → ∃ us : List Use, s'.uses = s.uses ++ us ∧ ∀ u ∈ us, u.Typed :=
    fun heq => ⟨[], by rw [heq, List.append_nil], by simp⟩
  cases h with
  | closeFile hc ht =>
    obtain ⟨us, heq, hus⟩ := fileclose_uses ht
    exact ⟨us, heq, hus⟩
  | exitFile hn hc ho ht =>
    obtain ⟨us, heq, hus⟩ := fileclose_uses ht
    exact ⟨us, heq, hus⟩
  | closePipe hc => exact none pipeclose_uses
  | exitPipe hc => exact none pipeclose_uses
  | access off r hi hus => exact ⟨_, rfl, hus hs⟩
  | _ => exact none rfl

end Uses

/-- **Files are used according to their type.** In every run in which `lseek` is only called on
files that are inodes, `f->ip` is only used in files of type `FD_INODE`, and `f->pipe` in files of
type `FD_PIPE`. -/
theorem uses_typed {free : List ℕ} {s : Sys} (h : Lts.Reach step SeeksInode (start free) s) :
    ∀ u ∈ s.uses, u.Typed := by
  refine h.invariant (I := fun s => ∀ u ∈ s.uses, u.Typed) (by simp [start]) ?_
  intro s s' l hs hok hstep u hu
  obtain ⟨us, heq, hus⟩ := (step_does hstep).uses hok
  rw [heq, List.mem_append] at hu
  exact hu.elim (hs u) (hus u)

theorem uses_typed_reused :
    ∃ s, Lts.Reach step SeeksInode (start [1]) s ∧ (∀ u ∈ s.uses, u.Typed) ∧
      s.uses = [.ip .inode, .ip .inode, .pipe .pipe] := by
  obtain ⟨s, -, hr, hu⟩ := @Lts.exists_reach _ _ step SeeksInode (start [1])
    [.openAlloc 0, .openSet 0 7 true true, .lseek 0 0 5 0 100, .close 0 0, .closeNext 0,
      .closeNext 0, .pipeAlloc 0, .pipeNext 0, .pipeEnd 0, .read 0 0 3]
    (fun s => s.uses = [.ip .inode, .ip .inode, .pipe .pipe]) (by decide +kernel)
    (by decide +kernel)
  exact ⟨s, hr, uses_typed hr, by simpa using hu⟩

/-- A slot that was an inode becomes the read end of a pipe, and `lseek` on it uses the old inode:
it returns 0 and moves the offset. -/
theorem lseek_stale :
    ∃ s, Lts.Reach step (fun _ _ => True) (start [1]) s ∧
      .ip .pipe ∈ s.uses ∧ (s.proc 0).ret = 0 ∧ (s.ftable 0).type = .pipe ∧
      (s.ftable 0).off = 5 := by
  obtain ⟨s, -, hr, hu⟩ := @Lts.exists_reach _ _ step (fun _ _ => True) (start [1])
    [.openAlloc 0, .openSet 0 7 true true, .close 0 0, .closeNext 0, .closeNext 0, .pipeAlloc 0,
      .pipeNext 0, .pipeEnd 0, .lseek 0 0 5 0 100]
    (fun s => .ip .pipe ∈ s.uses ∧ (s.proc 0).ret = 0 ∧ (s.ftable 0).type = .pipe ∧
      (s.ftable 0).off = 5) (by decide +kernel) (Lts.RunOk.trivial _ _)
  exact ⟨s, hr, by simpa using hu⟩

end Xv6.Files
