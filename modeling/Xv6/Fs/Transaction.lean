import Xv6.Fs.Runs
import Xv6.Lib.Monitor

/-!
# Transactions in the code

Every process is followed by a monitor (`brackets`) whose state says whether it is between
`begin_op` and `end_op`. What an action does to the log is read off the action itself: it calls
`log_write` if it runs into a panic of the log when no operation is counted, and it is an `end_op`
if it takes the count from 1 to 0.

1. Code on inodes does not touch the count of operations (`SameOps`), and steps on the tables in
   memory do not touch the log either (`Memory`).
2. `Goes b c m`: the code `m` takes the monitor from `b` to `c` and does only what is allowed,
   whatever the state. This holds of all calls but `read` and `open`.
-/

namespace Xv6.Fs

open Conc StateExcept

variable {P : Type}

/-! ## The monitor -/

def Kernel.withOps (s : Kernel P) (n : ℕ) : Kernel P :=
  { s with vol := { s.vol with outstanding := n } }

def logs {β : Type} (f : Kernel P → Except Panic (β × Kernel P)) (s : Kernel P) : Bool :=
  match f (s.withOps 0) with
  | .error (.log _) => true
  | _ => false

def ends {β : Type} (f : Kernel P → Except Panic (β × Kernel P)) (s : Kernel P) : Bool :=
  match f (s.withOps 1) with
  | .ok (_, s') => s'.vol.outstanding = 0
  | .error _ => false

/-- Is the process in a transaction? It enters one with `begin_op` only from outside, and leaves it
with `end_op`, calls `log_write` and `iput` only from inside. -/
def brackets : Monitor (Kernel P) Panic Request Bool where
  okAct inOp _ f s := ends f s = true ∨ logs f s = true → inOp = true
  act inOp _ f s := inOp && !ends f s
  okWait inOp r :=
    match r with
    | .log => inOp = false
    | .inode .iput _ => inOp = true
    | .inode .iputParent _ => inOp = true
    | .inode .ilock _ => True
  wait inOp r :=
    match r with
    | .log => true
    | .inode _ _ => inOp

def nextIput : Option (Task P Ret) → Bool
  | some (.wait (.inode .iput _) _) => true
  | some (.wait (.inode .iputParent _) _) => true
  | _ => false

def nextLogs (s : Kernel P) : Option (Task P Ret) → Bool
  | some (.act f _) => logs f s
  | _ => false

/-! ## The count of operations -/

def SameOps (x y : Kernel P) : Prop := y.vol.outstanding = x.vol.outstanding

instance : IsPreorder (Kernel P) SameOps where
  refl _ := rfl
  trans _ _ _ hxy hyz := Eq.trans hyz hxy

def SameOpsI (x y : Dinode × Volume) : Prop := y.2.outstanding = x.2.outstanding

instance : IsPreorder (Dinode × Volume) SameOpsI where
  refl _ := rfl
  trans _ _ _ hxy hyz := Eq.trans hyz hxy

section Ops

variable {sb : Superblock} {α : Type}

theorem modify_ops {f : Dinode × Volume → Dinode × Volume}
    (h : ∀ x, (f x).2.outstanding = x.2.outstanding) :
    Along SameOpsI (modify f : InodeM PUnit) := .modify h

theorem along_ops {inum : ℕ} {m : InodeM α} (h : Along (KeepsTypes inum) m) : Along SameOpsI m :=
  fun x a y hr => (h x a y hr).ops

theorem iupdate_ops (inum : ℕ) : Along SameOpsI (iupdate sb inum) := along_ops iupdate_types

theorem onInode_ops {m : InodeM α} {k : ℕ} (h : Along SameOpsI m) :
    Along SameOps (onInode k m : Kern P α) := by
  intro s a s' hr
  obtain ⟨d, v, hm, rfl⟩ := onInode_ok hr
  exact h _ a _ hm

theorem onInode_keeps {m : InodeM α} {k inum : ℕ} (h : Along (KeepsTypes inum) m) :
    Along SameOps (onInode k m : Kern P α) := onInode_ops (along_ops h)

end Ops

/-! ## Steps on tables in memory -/

def Memory {α : Type} (f : Kern P α) : Prop :=
  ∀ s, match f s with
    | .ok (_, s') => s'.vol = s.vol
    | .error e => ∀ l, e ≠ .log l

section Memory

variable {α : Type} {f : Kern P α}

theorem Memory.ops (h : Memory f) : Along SameOps f := by
  intro s a s' hf
  have hs := h s
  rw [hf] at hs
  exact congrArg Volume.outstanding hs

theorem Memory.silent (h : Memory f) (s : Kernel P) : logs f s = false := by
  have hs := h (s.withOps 0)
  unfold logs
  cases hf : f (s.withOps 0) with
  | ok r => rfl
  | error e =>
    rw [hf] at hs
    cases e with
    | log l => exact absurd rfl (hs l)
    | _ => rfl

theorem ends_eq_false (h : Along SameOps f) (s : Kernel P) : ends f s = false := by
  unfold ends
  cases hf : f (s.withOps 1) with
  | error e => rfl
  | ok r =>
    have hops : r.2.vol.outstanding = 1 := h _ r.1 r.2 hf
    simp [hops]

theorem read_memory (g : Kernel P → α) : Memory (fun s => .ok (g s, s)) := fun _ => rfl

theorem setInode_memory (k : ℕ) (x : Kernel P → Inode P) :
    Memory (fun s => .ok ((), s.setInode k (x s))) := fun _ => rfl

theorem setFile_memory (f : ℕ) (x : Kernel P → File) :
    Memory (fun s => .ok ((), s.setFile f (x s))) := fun _ => rfl

theorem iload_memory (k : ℕ) : Memory (iload k : Kern P Unit) := by
  intro s
  unfold iload
  split_ifs <;> simp

theorem iget_memory (dev inum : ℕ) : Memory (iget dev inum : Kern P ℕ) := by
  intro s
  unfold iget
  generalize (List.range NINODE).find? (fun k => 0 < (s.icache k).ref && (s.icache k).dev = dev &&
    (s.icache k).inum = inum) = hit
  generalize (List.range NINODE).find? (fun k => (s.icache k).ref = 0) = free
  cases hit with
  | some k => rfl
  | none => cases free <;> simp

theorem idupCwd_memory (p : P) : Memory (idupCwd p) := by
  intro s
  unfold idupCwd idup
  cases (s.proc p).cwd <;> simp

theorem filealloc_memory : Memory (filealloc : Kern P (Option ℕ)) := by
  intro s
  unfold filealloc
  cases (List.range NFILE).find? fun f => (s.ftable f).ref = 0 <;> simp

theorem filedup_memory (f : ℕ) : Memory (filedup f : Kern P Unit) := by
  intro s
  unfold filedup
  split_ifs <;> simp

theorem filecloseRef_memory (f : ℕ) : Memory (filecloseRef f : Kern P (Option File)) := by
  intro s
  unfold filecloseRef
  split_ifs <;> simp

theorem filelseek_memory (f offset : ℕ) (whence : ℤ) :
    Memory (filelseek f offset whence : Kern P Ret) := by
  intro s
  unfold filelseek
  cases (s.ftable f).ip with
  | none => simp
  | some k =>
    dsimp only
    split_ifs <;> simp

variable [DecidableEq P]

theorem setProc_memory (p : P) (g : Kernel P → α) (x : Kernel P → Proc) :
    Memory (fun s => .ok (g s, s.setProc p (x s))) := fun _ => rfl

theorem setOfile_memory (p : P) (fd : ℕ) (f : Option ℕ) : Memory (setOfile p fd f) := fun _ => rfl

theorem fdalloc_memory (p : P) (f : ℕ) : Memory (fdalloc p f) := by
  intro s
  unfold fdalloc
  cases (List.range NOFILE).find? fun fd => ((s.proc p).ofile fd).isNone <;> simp

theorem allocproc_memory (q : P) : Memory (allocproc q) := by
  intro s
  unfold allocproc
  split_ifs <;> simp

theorem forkFd_memory (p q : P) (fd : ℕ) : Memory (forkFd p q fd) := by
  intro s
  unfold forkFd filedup setOfile
  cases (s.proc p).ofile fd with
  | none => simp
  | some f =>
    dsimp only
    by_cases href : (s.ftable f).ref < 1 <;> simp [href]

theorem forkCwd_memory (p q : P) : Memory (forkCwd p q) := by
  intro s
  unfold forkCwd idupCwd idup
  cases (s.proc p).cwd <;> simp

end Memory

/-! ## Code that needs to know nothing -/

/-- The code takes the monitor from `b` to `c`, and does only what is allowed. -/
def Goes {α : Type} (b c : Bool) (m : Task P α) : Prop :=
  brackets.Paths (fun _ => True) m (fun _ x => x = c) b

section Goes

variable {α β : Type} {a b c : Bool} {sb : Superblock}

theorem Goes.bind {m : Task P α} {f : α → Task P β} (h : Goes a b m) (hf : ∀ x, Goes b c (f x)) :
    Goes a c (m >>= f) := by
  refine Monitor.Paths.bind (h.mono fun x y hy => ?_)
  rw [hy]
  exact hf x

theorem Goes.pure {x : α} : Goes b b (pure x : Task P α) := rfl

theorem Goes.ite {cond : Prop} [Decidable cond] {m m' : Task P α} (h : Goes a b m)
    (h' : Goes a b m') : Goes a b (if cond then m else m') := by
  split
  · exact h
  · exact h'

theorem Goes.inside {f : Kern P α} (h : Along SameOps f) : Goes true true (act f) :=
  fun s _ => ⟨fun _ => rfl, fun x s' _ => by simp [brackets, ends_eq_false h s, Monitor.Paths]⟩

theorem Memory.goes {f : Kern P α} (h : Memory f) : Goes b b (act f) := by
  refine fun s _ => ⟨fun hlog => ?_, fun x s' _ => ?_⟩
  · rw [ends_eq_false h.ops, h.silent] at hlog
    simp at hlog
  · simp [brackets, ends_eq_false h.ops s, Monitor.Paths]

theorem Goes.fail {e : Panic} (he : ∀ l, e ≠ .log l) : Goes b c (fail e : Task P α) := by
  have hm : Memory (fun _ => .error e : Kern P α) := fun _ => he
  refine fun s _ => ⟨fun hlog => ?_, fun x s' hx => by cases hx⟩
  rw [ends_eq_false hm.ops, hm.silent] at hlog
  simp at hlog

theorem beginOp_goes : Goes false true (beginOp : Task P Unit) := ⟨rfl, rfl⟩

theorem endOp_goes : Goes true false (endOp : Task P Unit) := by
  refine fun s _ => ⟨fun _ => rfl, fun x s' _ => ?_⟩
  have hends : ends (fun s : Kernel P => .ok ((), { s with vol := s.vol.endOp })) s = true := by
    simp [ends, Kernel.withOps, Volume.endOp]
  simp [brackets, hends, Monitor.Paths]

theorem ilock_goes (k : ℕ) : Goes b b (ilock k : Task P Unit) := by
  refine .bind (Memory.goes fun s => ?_) fun _ => .bind ⟨trivial, rfl⟩ fun _ =>
    (iload_memory k).goes
  split_ifs <;> simp

theorem iputFree_ops (k : ℕ) : Along SameOps (iputFree sb k : Kern P Unit) := by
  intro s a s' h
  unfold iputFree at h
  split at h
  next t ht =>
    cases h
    refine (onInode_ops ?_ s _ t ht : SameOps s t)
    exact .bind (along_ops itrunc_types) fun _ => .bind (modify_ops fun _ => rfl) fun _ =>
      iupdate_ops _
  next => cases h

theorem iputLocked_goes (k : ℕ) : Goes true true (iputLocked sb k : Task P Unit) := by
  have hdrop : Goes true true (do
      act fun s => .ok ((), s.setInode k { s.icache k with lock := none })
      act fun s => .ok ((), s.setInode k { s.icache k with ref := (s.icache k).ref - 1 })
      : Task P Unit) :=
    .bind (setInode_memory k _).goes fun _ => (setInode_memory k _).goes
  refine .bind (read_memory _).goes fun free => .ite ?_ ?_
  · exact .bind (.inside (iputFree_ops k)) fun _ => hdrop
  · exact hdrop

theorem iput_goes (k : ℕ) : Goes true true (iput sb k : Task P Unit) :=
  .bind ⟨rfl, rfl⟩ fun _ => iputLocked_goes k

theorem typeOf_goes (k : ℕ) : Goes b b (typeOf k : Task P FType) := (read_memory _).goes

theorem inumOf_goes (k : ℕ) : Goes b b (inumOf k : Task P ℕ) := (read_memory _).goes

theorem dirlookup_ops (dp : ℕ) (name : Str) :
    Along SameOps (dirlookup sb dp name : Kern P (Option (ℕ × ℕ))) := by
  refine .bind (onInode_keeps (@dirfind_types _ 0 name)) fun r => ?_
  cases r with
  | none => exact .pure _
  | some x =>
    exact .bind Along.get fun _ => .bind (iget_memory _ _).ops fun _ => .pure _

theorem dirlookup_goes (dp : ℕ) (name : Str) :
    Goes true true (act (dirlookup sb dp name) : Task P (Option (ℕ × ℕ))) :=
  .inside (dirlookup_ops dp name)

theorem dirlink_goes (dp : ℕ) (name : Str) (inum : ℕ) :
    Goes true true (dirlink sb dp name inum : Task P Bool) := by
  refine .bind (dirlookup_goes dp name) fun r => ?_
  cases r with
  | some x => exact .bind (iput_goes _) fun _ => .pure
  | none =>
    exact .bind (.inside fun s a s' h => onInode_keeps (dirAppend_types _ _) s a s' h)
      fun _ => .pure

theorem fileclose_goes (f : ℕ) : Goes false false (fileclose sb f : Task P Unit) := by
  refine .bind (filecloseRef_memory f).goes fun x => ?_
  cases x with
  | none => exact .pure
  | some ff =>
    dsimp only
    split
    · exact .bind beginOp_goes fun _ => .bind (iput_goes _) fun _ => endOp_goes
    · exact .fail (by simp)
    · exact .pure

theorem advance_memory (f n : ℕ) : Memory (advance f n : Kern P Unit) := fun _ => rfl

theorem readAt_ops (f k n : ℕ) :
    Along SameOps (readAt sb f k n : Kern P (Option (List UInt8))) := by
  refine .bind Along.get fun s =>
    Along.bind (onInode_keeps (readi_along (@keepsTypes_steps 0) _ _)) fun r => ?_
  cases r with
  | none => exact .pure _
  | some bs => exact .bind (advance_memory f bs.length).ops fun _ => .pure _

theorem writeAt_ops (f k : ℕ) (src : List UInt8) :
    Along SameOps (writeAt sb f k src : Kern P (Option ℕ)) := by
  refine .bind Along.get fun s => .bind (onInode_keeps (writei_types _ _)) fun r => ?_
  cases r with
  | none => exact .pure _
  | some n => exact .bind (advance_memory f n).ops fun _ => .pure _

theorem descriptor_goes {p : P} {fd : ℕ} {m : ℕ → Task P Ret} (h : ∀ f, Goes false false (m f)) :
    Goes false false (do
      match ← act (argfd p fd) with
      | none => return .int (-1)
      | some f => m f) := by
  refine .bind (read_memory _).goes fun x => ?_
  cases x with
  | none => exact .pure
  | some f => exact h f

theorem pipeBad_goes (rf wf : ℕ) : Goes false false (do
    fileclose sb rf
    fileclose sb wf
    return .int (-1) : Task P Ret) :=
  .bind (fileclose_goes rf) fun _ => .bind (fileclose_goes wf) fun _ => .pure

theorem endOp_ret_goes {r : Ret} : Goes true false (do endOp; return r : Task P Ret) :=
  .bind endOp_goes fun _ => .pure

theorem iupdateWith_goes (k : ℕ) (f : Dinode → Dinode) :
    Goes true true (act (iupdateWith sb k f) : Task P Unit) := by
  refine .inside fun s a s' h => onInode_ops ?_ s a s' h
  exact .bind (modify_ops fun _ => rfl) fun _ => iupdate_ops _

theorem unlinkTest_ops (ip : ℕ) : Along SameOps (unlinkTest sb ip : Kern P Bool) := by
  intro s a s' h
  unfold unlinkTest at h
  split_ifs at h
  · exact onInode_keeps (@isdirempty_types _ 0) s a s' h
  · cases h
    rfl

theorem createDots_goes (ip dp : ℕ) : Goes true true (createDots sb ip dp : Task P Unit) :=
  .bind (inumOf_goes _) fun _ => .bind (dirlink_goes _ _ _) fun _ => .ite
    (.bind (inumOf_goes _) fun _ => .bind (dirlink_goes _ _ _) fun _ => .ite Goes.pure
      (.fail (by simp))) (.fail (by simp))

theorem ialloc_ops (dev : ℕ) (type : FType) : Along SameOps (ialloc sb dev type : Kern P ℕ) :=
  .bind (fun s a s' h => by
    obtain ⟨v, hm, rfl⟩ := onDisk_ok h
    obtain ⟨-, -, -, lh, rfl⟩ := iallocDisk_ok hm
    rfl) fun _ => (iget_memory _ _).ops

/-! ### Code of a process -/

variable [DecidableEq P]

theorem iunlock_goes (p : P) (k : ℕ) : Goes b b (iunlock p k) := by
  refine Memory.goes fun s => ?_
  split_ifs <;> simp

theorem iunlockput_goes (p : P) (k : ℕ) : Goes true true (iunlockput sb p k) :=
  .bind (iunlock_goes p k) fun _ => iput_goes k

theorem iunlockputParent_goes (p : P) (k : ℕ) : Goes true true (iunlockputParent sb p k) :=
  .bind (iunlock_goes p k) fun _ => .bind ⟨rfl, rfl⟩ fun _ => iputLocked_goes k

theorem namexLoop_goes (p : P) (parent : Bool) (fuel ip : ℕ) (path name : Str) :
    Goes true true (namexLoop sb p parent fuel ip path name) := by
  induction fuel generalizing ip path name with
  | zero => exact .pure
  | succ fuel ih =>
    unfold namexLoop
    cases skipelem path with
    | none => exact .ite (.bind (iput_goes _) fun _ => .pure) Goes.pure
    | some x =>
      refine .bind (ilock_goes _) fun _ => .bind (typeOf_goes _) fun t => ?_
      refine .ite (.bind (iunlockput_goes _ _) fun _ => .pure) (.ite
        (.bind (iunlock_goes _ _) fun _ => .pure)
        (.bind (dirlookup_goes _ _) fun r => ?_))
      cases r with
      | none => exact .bind (iunlockput_goes _ _) fun _ => .pure
      | some y => exact .bind (iunlockput_goes _ _) fun _ => ih _ _ _

theorem namex_goes (p : P) (path : Str) (parent : Bool) :
    Goes true true (namex sb p path parent) := by
  refine .bind ?_ fun _ => namexLoop_goes _ _ _ _ _ _
  split
  · exact (iget_memory _ _).goes
  · exact (idupCwd_memory p).goes

theorem namei_goes (p : P) (path : Str) : Goes true true (namei sb p path) :=
  .bind (namex_goes p path false) fun _ => .pure

theorem nameiparent_goes (p : P) (path : Str) : Goes true true (nameiparent sb p path) :=
  namex_goes p path true

/-! ### Calls on descriptors -/

theorem filestat_goes (p : P) (f : ℕ) : Goes false false (filestat p f) := by
  refine .bind (read_memory _).goes fun fl => ?_
  split
  · exact .bind (ilock_goes _) fun _ => .bind (read_memory _).goes fun _ =>
      Goes.bind (iunlock_goes _ _) fun _ => .pure
  · exact .fail (by simp)
  · exact .pure

theorem consoleWait_goes (p : P) (k : ℕ) : Goes b b (consoleWait p k) :=
  .bind (iunlock_goes _ _) fun _ => ilock_goes _

theorem filewriteLoop_goes (p : P) (f ip fuel : ℕ) (src : List UInt8) :
    Goes false false (filewriteLoop sb p f ip fuel src) := by
  induction fuel generalizing src with
  | zero => exact .pure
  | succ fuel ih =>
    unfold filewriteLoop
    have hend : ∀ t : Task P Bool, Goes false false t →
        Goes true false (do iunlock p ip; endOp; t) := fun t ht =>
      Goes.bind (iunlock_goes _ _) fun _ => .bind endOp_goes fun _ => ht
    refine .ite Goes.pure (.bind beginOp_goes fun _ => .bind (ilock_goes _) fun _ =>
      Goes.bind (read_memory _).goes fun d => .ite (.ite ?_ ?_) ?_)
    · exact .bind (consoleWait_goes _ _) fun _ => .bind (advance_memory _ _).goes fun _ =>
        hend _ (.ite (.fail (by simp)) (ih _))
    · exact hend _ Goes.pure
    · refine .bind (.inside (writeAt_ops _ _ _)) fun r => hend _ ?_
      cases r with
      | none => exact .pure
      | some n => exact .ite (.fail (by simp)) (ih _)

theorem filewrite_goes (p : P) (f : ℕ) (src : List UInt8) (piped : Ret) :
    Goes false false (filewrite sb p f src piped) := by
  refine .bind (read_memory _).goes fun fl => .ite Goes.pure ?_
  split
  · exact .pure
  · exact .bind (filewriteLoop_goes _ _ _ _ _) fun _ => .pure
  · exact .fail (by simp)
  · exact .fail (by simp)

theorem sysDup_goes (p : P) (fd : ℕ) : Goes false false (sysDup p fd) := by
  refine descriptor_goes fun f => .bind (fdalloc_memory p f).goes fun x => ?_
  cases x with
  | none => exact .pure
  | some fd => exact .bind (filedup_memory f).goes fun _ => .pure

theorem sysClose_goes (p : P) (fd : ℕ) : Goes false false (sysClose sb p fd) :=
  descriptor_goes fun f => .bind (setOfile_memory p fd _).goes fun _ =>
    Goes.bind (fileclose_goes f) fun _ => .pure

theorem sysPipe_goes (p : P) (mem : Bool) : Goes false false (sysPipe sb p mem) := by
  refine .bind filealloc_memory.goes fun x => ?_
  cases x with
  | none => exact .pure
  | some rf =>
    refine .bind filealloc_memory.goes fun x => ?_
    cases x with
    | none => exact .bind (fileclose_goes rf) fun _ => .pure
    | some wf =>
      refine .ite (pipeBad_goes rf wf) (.bind (setFile_memory rf _).goes fun _ =>
        Goes.bind (setFile_memory wf _).goes fun _ => .bind (fdalloc_memory p rf).goes
          fun x => ?_)
      cases x with
      | none => exact pipeBad_goes rf wf
      | some fd0 =>
        refine .bind (fdalloc_memory p wf).goes fun x => ?_
        cases x with
        | none => exact .bind (setOfile_memory p fd0 _).goes fun _ => pipeBad_goes rf wf
        | some _ => exact .pure

/-! ### Calls on names -/

theorem linkBad_goes (p : P) (ip : ℕ) : Goes true false (linkBad sb p ip) :=
  .bind (ilock_goes _) fun _ => .bind (iupdateWith_goes _ _) fun _ =>
    Goes.bind (iunlockput_goes _ _) fun _ => endOp_ret_goes

theorem sysLink_goes (p : P) (arg : Option (Str × Str)) : Goes false false (sysLink sb p arg) := by
  cases arg with
  | none => exact .pure
  | some x =>
    refine .bind beginOp_goes fun _ => .bind (namei_goes _ _) fun r => ?_
    cases r with
    | none => exact endOp_ret_goes
    | some ip =>
      refine .bind (ilock_goes _) fun _ => .bind (typeOf_goes _) fun t => ?_
      refine .ite (.bind (iunlockput_goes _ _) fun _ => endOp_ret_goes)
        (.bind (iupdateWith_goes _ _) fun _ => .bind (iunlock_goes _ _) fun _ =>
          Goes.bind (nameiparent_goes _ _) fun r => ?_)
      cases r with
      | none => exact linkBad_goes _ _
      | some y =>
        refine .bind (ilock_goes _) fun _ => .bind (read_memory _).goes fun z => ?_
        refine .ite (.bind (iunlockput_goes _ _) fun _ => linkBad_goes _ _)
          (.bind (dirlink_goes _ _ _) fun ok => .bind (iunlockput_goes _ _) fun _ => ?_)
        exact .ite (.bind (iput_goes _) fun _ => endOp_ret_goes) (linkBad_goes _ _)

theorem unlinkBad_goes (p : P) (dp : ℕ) : Goes true false (unlinkBad sb p dp) :=
  .bind (iunlockput_goes _ _) fun _ => endOp_ret_goes

theorem unlinkEnd_goes (p : P) (dp ip : ℕ) : Goes true false (do
    iunlockputParent sb p dp
    act (iupdateWith sb ip fun d => { d with nlink := d.nlink - 1 })
    iunlockput sb p ip
    endOp
    return .int 0 : Task P Ret) :=
  .bind (iunlockputParent_goes _ _) fun _ => .bind (iupdateWith_goes _ _) fun _ =>
    Goes.bind (iunlockput_goes _ _) fun _ => endOp_ret_goes

theorem sysUnlink_goes (p : P) (arg : Option Str) : Goes false false (sysUnlink sb p arg) := by
  cases arg with
  | none => exact .pure
  | some path =>
    refine .bind beginOp_goes fun _ => .bind (nameiparent_goes _ _) fun r => ?_
    cases r with
    | none => exact endOp_ret_goes
    | some x =>
      refine .bind (ilock_goes _) fun _ => .ite (unlinkBad_goes _ _)
        (.bind (dirlookup_goes _ _) fun r => ?_)
      cases r with
      | none => exact unlinkBad_goes _ _
      | some y =>
        refine .bind (ilock_goes _) fun _ => .bind (.inside (unlinkTest_ops _))
          fun ok => .ite ?_ (.bind (iunlockput_goes _ _) fun _ => unlinkBad_goes _ _)
        refine .bind (.inside fun s a s' h => onInode_keeps (dirErase_types _) s a s' h)
          fun _ => .bind (typeOf_goes _) fun t => .ite ?_ ?_
        · exact .bind (iupdateWith_goes _ _) fun _ => unlinkEnd_goes p _ _
        · exact unlinkEnd_goes p _ _

theorem createEnd_goes (p : P) (ip dp : ℕ) (name : Str) : Goes true true (do
    let i ← inumOf ip
    let ok ← dirlink sb dp name i
    if ok then do
      iunlockputParent sb p dp
      return some ip
    else fail .createDirlink : Task P (Option ℕ)) :=
  .bind (inumOf_goes _) fun _ => .bind (dirlink_goes _ _ _) fun _ => .ite
    (.bind (iunlockputParent_goes _ _) fun _ => .pure) (.fail (by simp))

theorem create_goes (p : P) (path : Str) (type : FType) (major minor : Int16) :
    Goes true true (create sb p path type major minor) := by
  refine .bind (nameiparent_goes _ _) fun r => ?_
  cases r with
  | none => exact .pure
  | some x =>
    refine .bind (ilock_goes _) fun _ => .bind (dirlookup_goes _ _) fun r => ?_
    cases r with
    | some y =>
      exact .bind (iunlockput_goes _ _) fun _ => .bind (ilock_goes _) fun _ =>
        Goes.bind (typeOf_goes _) fun t => .ite Goes.pure
          (.bind (iunlockput_goes _ _) fun _ => .pure)
    | none =>
      refine .bind (.inside fun s a s' h => ialloc_ops _ _ s a s' h) fun ip =>
        Goes.bind (ilock_goes _) fun _ => .bind (iupdateWith_goes _ _) fun _ => .ite ?_ ?_
      · exact .bind (iupdateWith_goes _ _) fun _ => .bind (createDots_goes _ _) fun _ =>
          createEnd_goes p _ _ _
      · exact createEnd_goes p _ _ _

theorem openInode_goes (p : P) (path : Str) (omode : ℕ) :
    Goes true true (openInode sb p path omode) := by
  refine .ite (create_goes _ _ _ _ _) (.bind (namei_goes _ _) fun r => ?_)
  cases r with
  | none => exact .pure
  | some ip =>
    exact .bind (ilock_goes _) fun _ => .bind (typeOf_goes _) fun t => .ite
      (.bind (iunlockput_goes _ _) fun _ => .pure) Goes.pure

theorem sysCreate_goes (p : P) (arg : Option Str) (type : FType) (major minor : Int16) :
    Goes false false (sysCreate sb p arg type major minor) := by
  refine .bind beginOp_goes fun _ => ?_
  cases arg with
  | none => exact endOp_ret_goes
  | some path =>
    refine .bind (create_goes _ _ _ _ _) fun r => ?_
    cases r with
    | none => exact endOp_ret_goes
    | some ip => exact .bind (iunlockput_goes _ _) fun _ => endOp_ret_goes

theorem sysMknod_goes (p : P) (arg : Option (Str × Int16 × Int16)) :
    Goes false false (sysMknod sb p arg) := by
  unfold sysMknod
  cases arg with
  | none => exact sysCreate_goes p none _ _ _
  | some arg => exact sysCreate_goes p (some arg.1) _ _ _

/-! ### Processes -/

theorem iputCwd_goes (p : P) : Goes true true (iputCwd sb p) := by
  refine .bind (setProc_memory p _ _).goes fun x => ?_
  cases x with
  | some k => exact iput_goes k
  | none => exact .fail (by simp)

theorem setCwd_memory (p : P) (k : Option ℕ) : Memory (setCwd p k) := fun _ => rfl

theorem sysChdir_goes (p : P) (arg : Option Str) : Goes false false (sysChdir sb p arg) := by
  refine .bind beginOp_goes fun _ => ?_
  cases arg with
  | none => exact endOp_ret_goes
  | some path =>
    refine .bind (namei_goes _ _) fun r => ?_
    cases r with
    | none => exact endOp_ret_goes
    | some ip =>
      refine .bind (ilock_goes _) fun _ => .bind (typeOf_goes _) fun t => .ite
        (.bind (iunlockput_goes _ _) fun _ => endOp_ret_goes) ?_
      exact .bind (iunlock_goes _ _) fun _ => .bind (iputCwd_goes p) fun _ =>
        Goes.bind endOp_goes fun _ => .bind (setCwd_memory p _).goes fun _ => .pure

theorem execReads_goes (p : P) (ip : ℕ) (rs : List (ℕ × ℕ)) :
    Goes true true (execReads sb p ip rs) := by
  induction rs with
  | nil => exact .pure
  | cons r rs ih =>
    refine .bind (.bind (read_memory _).goes fun d => ?_) fun _ => ih
    exact .ite (.ite (consoleWait_goes _ _) Goes.pure)
      (.bind (.inside (onInode_keeps (readi_along (@keepsTypes_steps 0) _ _)))
        fun _ => .pure)

theorem sysExec_goes (p : P) (arg : Option Str) (reads : List (ℕ × ℕ)) (ok : Bool) :
    Goes false false (sysExec sb p arg reads ok) := by
  cases arg with
  | none => exact .pure
  | some path =>
    refine .bind beginOp_goes fun _ => .bind (namei_goes _ _) fun r => ?_
    cases r with
    | none => exact endOp_ret_goes
    | some ip =>
      exact .bind (ilock_goes _) fun _ => .bind (execReads_goes _ _ _) fun _ =>
        Goes.bind (iunlockput_goes _ _) fun _ => endOp_ret_goes

theorem forkFds_goes (p q : P) (fds : List ℕ) : Goes false false (forkFds p q fds) := by
  induction fds with
  | nil => exact .pure
  | cons fd fds ih => exact .bind (forkFd_memory p q fd).goes fun _ => ih

theorem sysFork_goes (p q : P) : Goes false false (sysFork p q) := by
  refine .bind (allocproc_memory q).goes fun ok => .ite ?_ Goes.pure
  exact .bind (forkFds_goes p q _) fun _ => .bind (forkCwd_memory p q).goes fun _ =>
    Goes.bind (setProc_memory q _ _).goes fun _ => .pure

theorem exitFds_goes (p : P) (fds : List ℕ) : Goes false false (exitFds sb p fds) := by
  induction fds with
  | nil => exact .pure
  | cons fd fds ih =>
    refine .bind (read_memory _).goes fun x => ?_
    cases x with
    | none => exact ih
    | some f =>
      exact .bind (fileclose_goes f) fun _ => .bind (setOfile_memory p fd _).goes
        fun _ => ih

theorem sysExit_goes (initproc p : P) : Goes false false (sysExit sb initproc p) := by
  refine .ite (.fail (by simp)) (.bind (exitFds_goes p _) fun _ =>
    Goes.bind beginOp_goes fun _ => .bind (iputCwd_goes p) fun _ =>
      Goes.bind endOp_goes fun _ => .bind (setCwd_memory p _).goes fun _ =>
        Goes.bind (setProc_memory p _ _).goes fun _ => .pure)

end Goes

end Xv6.Fs
