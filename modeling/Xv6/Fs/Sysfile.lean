import Xv6.Fs.Inode

/-!
# Open files and system calls

`file.c`, `sysfile.c`, and the file system part of `exec.c`, `proc.c` and `console.c`. A call gets
its arguments already fetched; `none` says that fetching them failed. What lies outside the file
system is an argument as well: the bytes the console delivers, whether memory is available, the
process slot `fork` finds, the file ranges `exec` reads.
-/

namespace Xv6.Fs

open Conc

variable {P : Type} [DecidableEq P] (sb : Superblock)

def fail {α : Type} (e : Panic) : Task P α := act fun _ => .error e

def iupdateWith (k : ℕ) (f : Dinode → Dinode) : Kern P Unit := fun s =>
  onInode k (do
    modify fun (d, v) => (f d, v)
    iupdate sb (s.icache k).inum) s

structure Stat where
  dev : ℕ
  ino : ℕ
  type : FType
  nlink : Int16
  size : ℕ

inductive Ret
  | int (r : ℤ)
  | bytes (bs : List UInt8)
  | stat (st : Stat)

/-! ## `file.c` -/

def filealloc : Kern P (Option ℕ) := fun s =>
  match (List.range NFILE).find? fun f => (s.ftable f).ref = 0 with
  | some f => .ok (some f, s.setFile f { s.ftable f with ref := 1 })
  | none => .ok (none, s)

def filedup (f : ℕ) : Kern P Unit := fun s =>
  if (s.ftable f).ref < 1 then .error .filedup
  else .ok ((), s.setFile f { s.ftable f with ref := (s.ftable f).ref + 1 })

/-- The section of `fileclose` under `ftable.lock`. Returns the file if this was its last
reference. -/
def filecloseRef (f : ℕ) : Kern P (Option File) := fun s =>
  if (s.ftable f).ref < 1 then .error .fileclose
  else if 0 < (s.ftable f).ref - 1 then
    .ok (none, s.setFile f { s.ftable f with ref := (s.ftable f).ref - 1 })
  else .ok (some (s.ftable f), s.setFile f { s.ftable f with ref := 0, type := .none })

/-- Close file `f`. What `pipeclose` does to the pipe is left out. -/
def fileclose (f : ℕ) : Task P Unit := do
  match ← act (filecloseRef f) with
  | none => return
  | some ff =>
    match ff.type, ff.ip with
    | .inode, some ip => do
      beginOp
      iput sb ip
      endOp
    | .inode, none => fail .trap
    | _, _ => return

def stati (k : ℕ) : Kern P Stat := fun s =>
  .ok (⟨(s.icache k).dev, (s.icache k).inum, (s.icache k).d.type, (s.icache k).d.nlink,
    (s.icache k).d.size⟩, s)

def filestat (p : P) (f : ℕ) : Task P Ret := do
  let fl ← act fun s => .ok (s.ftable f, s)
  match fl.type, fl.ip with
  | .inode, some ip => do
    ilock ip
    let st ← act (stati ip)
    iunlock p ip
    return .stat st
  | .inode, none => fail .trap
  | _, _ => return .int (-1)

def advance (f r : ℕ) : Kern P Unit := fun s =>
  .ok ((), s.setFile f { s.ftable f with off := ((s.ftable f).off + r) % 2 ^ 32 })

def hasDriver (d : Dinode) : Bool := !(d.major < 0 || (NDEV : ℤ) ≤ d.major.toInt) &&
    d.major = CONSOLE

/-- `consoleread` and `consolewrite` give up the inode lock while they use the console. -/
def consoleWait (p : P) (k : ℕ) : Task P Unit := do
  iunlock p k
  ilock k

def readAt (f k n : ℕ) : Kern P (Option (List UInt8)) := do
  let s ← get
  let r ← onInode k (readi sb (s.ftable f).off n)
  match r with
  | some bs => do
    advance f bs.length
    return r
  | none => return r

def fileread (p : P) (f n : ℕ) (piped : Ret) (con : Option (List UInt8)) : Task P Ret := do
  let fl ← act fun s => .ok (s.ftable f, s)
  if fl.readable = false then return .int (-1)
  else
    match fl.type, fl.ip with
    | .pipe, _ => return piped
    | .inode, some ip => do
      ilock ip
      let d ← act fun s => .ok ((s.icache ip).d, s)
      let r ← if d.type = .dev then
          if hasDriver d then do
            consoleWait p ip
            act (advance f (con.getD []).length)
            pure con
          else pure none
        else act (readAt sb f ip n)
      iunlock p ip
      return match r with
        | some bs => .bytes bs
        | none => .int (-1)
    | .inode, none => fail .trap
    | .none, _ => fail .fileread

def writeAt (f k : ℕ) (src : List UInt8) : Kern P (Option ℕ) := do
  let s ← get
  let r ← onInode k (writei sb (s.icache k).inum (s.ftable f).off src)
  match r with
  | some n => do
    advance f n
    return r
  | none => return r

def maxChunk : ℕ := ((MAXOPBLOCKS - 1 - 1 - 2) / 2) * 512

/-- The loop of `filewrite`; `fuel` bounds its iterations and `src` is what is left to write.
Returns whether everything was written. -/
def filewriteLoop (p : P) (f ip : ℕ) : ℕ → List UInt8 → Task P Bool
  | 0, src => return src = []
  | fuel + 1, src =>
    if src = [] then return true
    else do
      let chunk := src.take maxChunk
      beginOp
      ilock ip
      let d ← act fun s => .ok ((s.icache ip).d, s)
      let r ← if d.type = .dev then
          if hasDriver d then do
            consoleWait p ip
            act (advance f chunk.length)
            pure (some chunk.length)
          else pure none
        else act (writeAt sb f ip chunk)
      iunlock p ip
      endOp
      match r with
      | none => return false
      | some n =>
        if n ≠ chunk.length then fail .shortFilewrite
        else filewriteLoop p f ip fuel (src.drop chunk.length)

/-- Write to file `f`. `piped` is what `pipewrite` returns. -/
def filewrite (p : P) (f : ℕ) (src : List UInt8) (piped : Ret) : Task P Ret := do
  let fl ← act fun s => .ok (s.ftable f, s)
  if fl.writable = false then return .int (-1)
  else
    match fl.type, fl.ip with
    | .pipe, _ => return piped
    | .inode, some ip => do
      let all ← filewriteLoop sb p f ip src.length src
      return .int (if all then src.length else -1)
    | .inode, none => fail .trap
    | .none, _ => fail .filewrite

def filelseek (f offset : ℕ) (whence : ℤ) : Kern P Ret := fun s =>
  match (s.ftable f).ip with
  | none => .error .trap
  | some k =>
    let fl := s.ftable f
    let size := (s.icache k).d.size
    if size < offset then .ok (.int (-1), s)
    else if whence = 0 then .ok (.int 0, s.setFile f { fl with off := offset })
    else if whence = 1 then .ok (.int 0, s.setFile f { fl with off := (fl.off + offset) % 2 ^ 32 })
    else if whence = 2 then .ok (.int 0, s.setFile f { fl with off := size - offset })
    else .ok (.int 0, s)

/-! ## Descriptors -/

def argfd (p : P) (fd : ℕ) : Kern P (Option ℕ) := fun s =>
  .ok (if fd < NOFILE then (s.proc p).ofile fd else none, s)

def setOfile (p : P) (fd : ℕ) (f : Option ℕ) : Kern P Unit := fun s =>
  .ok ((), s.setProc p { s.proc p with ofile := Function.update (s.proc p).ofile fd f })

def fdalloc (p : P) (f : ℕ) : Kern P (Option ℕ) := fun s =>
  match (List.range NOFILE).find? fun fd => ((s.proc p).ofile fd).isNone with
  | some fd =>
    .ok (some fd, s.setProc p
      { s.proc p with ofile := Function.update (s.proc p).ofile fd (some f) })
  | none => .ok (none, s)

def sysDup (p : P) (fd : ℕ) : Task P Ret := do
  match ← act (argfd p fd) with
  | none => return .int (-1)
  | some f => do
    match ← act (fdalloc p f) with
    | none => return .int (-1)
    | some fd => do
      act (filedup f)
      return .int fd

def sysRead (p : P) (fd n : ℕ) (piped : Ret) (con : Option (List UInt8)) : Task P Ret := do
  match ← act (argfd p fd) with
  | none => return .int (-1)
  | some f => fileread sb p f n piped con

def sysWrite (p : P) (fd : ℕ) (src : List UInt8) (piped : Ret) : Task P Ret := do
  match ← act (argfd p fd) with
  | none => return .int (-1)
  | some f => filewrite sb p f src piped

def sysClose (p : P) (fd : ℕ) : Task P Ret := do
  match ← act (argfd p fd) with
  | none => return .int (-1)
  | some f => do
    act (setOfile p fd none)
    fileclose sb f
    return .int 0

def sysLseek (p : P) (fd offset : ℕ) (whence : ℤ) : Task P Ret := do
  match ← act (argfd p fd) with
  | none => return .int (-1)
  | some f => act (filelseek f offset whence)

def sysFstat (p : P) (fd : ℕ) : Task P Ret := do
  match ← act (argfd p fd) with
  | none => return .int (-1)
  | some f => filestat p f

/-! ## Links -/

def linkBad (p : P) (ip : ℕ) : Task P Ret := do
  ilock ip
  act (iupdateWith sb ip fun d => { d with nlink := d.nlink - 1 })
  iunlockput sb p ip
  endOp
  return .int (-1)

def sysLink (p : P) (arg : Option (Str × Str)) : Task P Ret :=
  match arg with
  | none => return .int (-1)
  | some (old, new) => do
    beginOp
    match ← namei sb p old with
    | none => do
      endOp
      return .int (-1)
    | some ip => do
      ilock ip
      let t ← typeOf ip
      if t = .dir then do
        iunlockput sb p ip
        endOp
        return .int (-1)
      else do
        act (iupdateWith sb ip fun d => { d with nlink := d.nlink + 1 })
        iunlock p ip
        match ← nameiparent sb p new with
        | none => linkBad sb p ip
        | some (dp, name) => do
          ilock dp
          let (dpDev, ipDev, inum) ← act fun s =>
            .ok (((s.icache dp).dev, (s.icache ip).dev, (s.icache ip).inum), s)
          if dpDev ≠ ipDev then do
            iunlockput sb p dp
            linkBad sb p ip
          else do
            let ok ← dirlink sb dp name inum
            iunlockput sb p dp
            if ok then do
              iput sb ip
              endOp
              return .int 0
            else linkBad sb p ip

def unlinkBad (p : P) (dp : ℕ) : Task P Ret := do
  iunlockput sb p dp
  endOp
  return .int (-1)

def unlinkTest (ip : ℕ) : Kern P Bool := fun s =>
  if (s.icache ip).d.nlink < 1 then .error .unlinkNlink
  else if (s.icache ip).d.type = .dir then onInode ip (isdirempty sb) s
  else .ok (true, s)

def sysUnlink (p : P) (arg : Option Str) : Task P Ret :=
  match arg with
  | none => return .int (-1)
  | some path => do
    beginOp
    match ← nameiparent sb p path with
    | none => do
      endOp
      return .int (-1)
    | some (dp, name) => do
      ilock dp
      -- Cannot unlink "." or "..".
      if namecmp name DOT = 0 ∨ namecmp name DOTDOT = 0 then unlinkBad sb p dp
      else do
        match ← act (dirlookup sb dp name) with
        | none => unlinkBad sb p dp
        | some (ip, off) => do
          ilock ip
          let ok ← act (unlinkTest sb ip)
          if ok then do
            act fun s => onInode dp (dirErase sb (s.icache dp).inum off) s
            let t ← typeOf ip
            let _ ← if t = .dir then
                act (iupdateWith sb dp fun d => { d with nlink := d.nlink - 1 })
              else pure ()
            iunlockputParent sb p dp
            act (iupdateWith sb ip fun d => { d with nlink := d.nlink - 1 })
            iunlockput sb p ip
            endOp
            return .int 0
          else do
            iunlockput sb p ip
            unlinkBad sb p dp

/-! ## Creation -/

def inumOf (k : ℕ) : Task P ℕ := act fun s => .ok ((s.icache k).inum, s)

def createDots (ip dp : ℕ) : Task P Unit := do
  let i ← inumOf ip
  let ok ← dirlink sb ip DOT i
  if ok then do
    let j ← inumOf dp
    let ok ← dirlink sb ip DOTDOT j
    if ok then return else fail .createDots
  else fail .createDots

/-- Create the path `path` as a new inode of the given type, or, for a file, find the one that is
there. The inode is returned locked. -/
def create (p : P) (path : Str) (type : FType) (major minor : Int16) : Task P (Option ℕ) := do
  match ← nameiparent sb p path with
  | none => return none
  | some (dp, name) => do
    ilock dp
    match ← act (dirlookup sb dp name) with
    | some (ip, _) => do
      iunlockput sb p dp
      ilock ip
      let t ← typeOf ip
      if type = .file ∧ t = .file then return some ip
      else do
        iunlockput sb p ip
        return none
    | none => do
      let ip ← act fun s => ialloc sb (s.icache dp).dev type s
      ilock ip
      act (iupdateWith sb ip fun d => { d with major := major, minor := minor, nlink := 1 })
      let _ ← if type = .dir then do
          -- For "..". No ip->nlink++ for ".": avoid cyclic ref count.
          act (iupdateWith sb dp fun d => { d with nlink := d.nlink + 1 })
          createDots sb ip dp
        else pure ()
      let i ← inumOf ip
      let ok ← dirlink sb dp name i
      if ok then do
        iunlockputParent sb p dp
        return some ip
      else fail .createDirlink

def openFile (f ip omode : ℕ) : Kern P Unit := fun s =>
  .ok ((), s.setFile f { s.ftable f with
    type := .inode
    ip := some ip
    off := 0
    readable := omode &&& O_WRONLY = 0
    writable := omode &&& O_WRONLY ≠ 0 || omode &&& O_RDWR ≠ 0 })

def openInode (p : P) (path : Str) (omode : ℕ) : Task P (Option ℕ) :=
  if omode &&& O_CREATE ≠ 0 then create sb p path .file 0 0
  else do
    match ← namei sb p path with
    | none => return none
    | some ip => do
      ilock ip
      let t ← typeOf ip
      if t = .dir ∧ omode ≠ O_RDONLY then do
        iunlockput sb p ip
        return none
      else return some ip

def sysOpen (p : P) (arg : Option (Str × ℕ)) : Task P Ret :=
  match arg with
  | none => return .int (-1)
  | some (path, omode) => do
    beginOp
    match ← openInode sb p path omode with
    | none => do
      endOp
      return .int (-1)
    | some ip => do
      match ← act filealloc with
      | none => do
        iunlockput sb p ip
        endOp
        return .int (-1)
      | some f => do
        match ← act (fdalloc p f) with
        | none => do
          fileclose sb f
          iunlockput sb p ip
          endOp
          return .int (-1)
        | some fd => do
          iunlock p ip
          endOp
          act (openFile f ip omode)
          return .int fd

def sysCreate (p : P) (arg : Option Str) (type : FType) (major minor : Int16) : Task P Ret := do
  beginOp
  match arg with
  | none => do
    endOp
    return .int (-1)
  | some path => do
    match ← create sb p path type major minor with
    | none => do
      endOp
      return .int (-1)
    | some ip => do
      iunlockput sb p ip
      endOp
      return .int 0

def sysMkdir (p : P) (arg : Option Str) : Task P Ret := sysCreate sb p arg .dir 0 0

def sysMknod (p : P) (arg : Option (Str × Int16 × Int16)) : Task P Ret :=
  match arg with
  | none => sysCreate sb p none .dev 0 0
  | some (path, major, minor) => sysCreate sb p (some path) .dev major minor

/-! ## Processes -/

def iputCwd (p : P) : Task P Unit := do
  match ← act fun s => .ok ((s.proc p).cwd, s.setProc p { s.proc p with leaving := true }) with
  | some k => iput sb k
  | none => fail .trap

def setCwd (p : P) (k : Option ℕ) : Kern P Unit := fun s =>
  .ok ((), s.setProc p { s.proc p with cwd := k, leaving := false })

def sysChdir (p : P) (arg : Option Str) : Task P Ret := do
  beginOp
  match arg with
  | none => do
    endOp
    return .int (-1)
  | some path => do
    match ← namei sb p path with
    | none => do
      endOp
      return .int (-1)
    | some ip => do
      ilock ip
      let t ← typeOf ip
      if t ≠ .dir then do
        iunlockput sb p ip
        endOp
        return .int (-1)
      else do
        iunlock p ip
        iputCwd sb p
        endOp
        act (setCwd p (some ip))
        return .int 0

def execRead (p : P) (ip off n : ℕ) : Task P Unit := do
  let d ← act fun s => .ok ((s.icache ip).d, s)
  if d.type = .dev then
    if hasDriver d then consoleWait p ip else return
  else do
    let _ ← act (onInode ip (readi sb off n))
    return

def execReads (p : P) (ip : ℕ) : List (ℕ × ℕ) → Task P Unit
  | [] => return
  | (off, n) :: rs => do
    execRead sb p ip off n
    execReads p ip rs

/-- The file system part of `exec`: `reads` are the ranges of the file it reads, and `ok` says
whether it accepts what it finds. -/
def sysExec (p : P) (arg : Option Str) (reads : List (ℕ × ℕ)) (ok : Bool) : Task P Ret :=
  match arg with
  | none => return .int (-1)
  | some path => do
    beginOp
    match ← namei sb p path with
    | none => do
      endOp
      return .int (-1)
    | some ip => do
      ilock ip
      execReads sb p ip reads
      iunlockput sb p ip
      endOp
      return .int (if ok then 0 else -1)

/-- `sys_pipe`; `mem` says whether `kalloc` finds a page for the pipe. -/
def sysPipe (p : P) (mem : Bool) : Task P Ret := do
  match ← act filealloc with
  | none => return .int (-1)
  | some rf => do
    match ← act filealloc with
    | none => do
      fileclose sb rf
      return .int (-1)
    | some wf => do
      if mem = false then do
        fileclose sb rf
        fileclose sb wf
        return .int (-1)
      else do
        act fun s => .ok ((), s.setFile rf
          { s.ftable rf with type := .pipe, readable := true, writable := false })
        act fun s => .ok ((), s.setFile wf
          { s.ftable wf with type := .pipe, readable := false, writable := true })
        match ← act (fdalloc p rf) with
        | none => do
          fileclose sb rf
          fileclose sb wf
          return .int (-1)
        | some fd0 => do
          match ← act (fdalloc p wf) with
          | none => do
            act (setOfile p fd0 none)
            fileclose sb rf
            fileclose sb wf
            return .int (-1)
          | some _ => return .int 0

def allocproc (q : P) : Kern P Bool := fun s =>
  if (s.proc q).state = .unused then
    .ok (true, s.setProc q { s.proc q with state := .embryo })
  else .ok (false, s)

def forkFd (p q : P) (fd : ℕ) : Kern P Unit := fun s =>
  match (s.proc p).ofile fd with
  | none => .ok ((), s)
  | some f =>
    match filedup f s with
    | .ok (_, s) => setOfile q fd (some f) s
    | .error e => .error e

def forkFds (p q : P) : List ℕ → Task P Unit
  | [] => return
  | fd :: fds => do
    act (forkFd p q fd)
    forkFds p q fds

def forkCwd (p q : P) : Kern P Unit := fun s =>
  match idupCwd p s with
  | .ok (k, s) => .ok ((), s.setProc q { s.proc q with cwd := some k })
  | .error e => .error e

def sysFork (p q : P) : Task P Ret := do
  let ok ← act (allocproc q)
  if ok then do
    forkFds p q (List.range NOFILE)
    act (forkCwd p q)
    act fun s => .ok ((), s.setProc q { s.proc q with state := .running })
    return .int 1
  else return .int (-1)

def exitFds (p : P) : List ℕ → Task P Unit
  | [] => return
  | fd :: fds => do
    match ← act fun s => .ok ((s.proc p).ofile fd, s) with
    | none => exitFds p fds
    | some f => do
      fileclose sb f
      act (setOfile p fd none)
      exitFds p fds

def sysExit (initproc p : P) : Task P Ret :=
  if p = initproc then fail .initExiting
  else do
    exitFds sb p (List.range NOFILE)
    beginOp
    iputCwd sb p
    endOp
    act (setCwd p none)
    act fun s => .ok ((), s.setProc p { s.proc p with state := .unused })
    return .int 0

/-! ## System calls -/

inductive Call (P : Type)
  | open (arg : Option (Str × ℕ))
  | close (fd : ℕ)
  | read (fd n : ℕ) (piped : Ret) (con : Option (List UInt8))
  | write (fd : ℕ) (src : List UInt8) (piped : Ret)
  | lseek (fd offset : ℕ) (whence : ℤ)
  | fstat (fd : ℕ)
  | dup (fd : ℕ)
  | pipe (mem : Bool)
  | link (arg : Option (Str × Str))
  | unlink (arg : Option Str)
  | mkdir (arg : Option Str)
  | mknod (arg : Option (Str × Int16 × Int16))
  | chdir (arg : Option Str)
  | exec (arg : Option Str) (reads : List (ℕ × ℕ)) (ok : Bool)
  | fork (q : P)
  | exit

def Call.task (initproc p : P) : Call P → Task P Ret
  | .open arg => sysOpen sb p arg
  | .close fd => sysClose sb p fd
  | .read fd n piped con => sysRead sb p fd n piped con
  | .write fd src piped => sysWrite sb p fd src piped
  | .lseek fd offset whence => sysLseek p fd offset whence
  | .fstat fd => sysFstat p fd
  | .dup fd => sysDup p fd
  | .pipe mem => sysPipe sb p mem
  | .link arg => sysLink sb p arg
  | .unlink arg => sysUnlink sb p arg
  | .mkdir arg => sysMkdir sb p arg
  | .mknod arg => sysMknod sb p arg
  | .chdir arg => sysChdir sb p arg
  | .exec arg reads ok => sysExec sb p arg reads ok
  | .fork q => sysFork p q
  | .exit => sysExit sb initproc p

end Xv6.Fs
