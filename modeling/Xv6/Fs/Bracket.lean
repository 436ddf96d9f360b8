import Xv6.Fs.Transaction

/-!
# Transactions and system calls

Calls keep to the brackets of transactions (`brackets`). For most of them this needs to know nothing
about the state (`Goes`); two depend on the invariant of the running system.

1. `read` works on an inode outside of a transaction: it does not log because files have no holes.
2. `open` closes a file inside of one: this does not start another one because a file that has just
   been allocated has no type.
3. `transactions_bracketed`, and `hole_logged` for what can go wrong on a disk that is not
   consistent.
-/

namespace Xv6.Fs

open Conc StateExcept

variable {P : Type} [DecidableEq P]

/-! ## Code that depends on what the process knows -/

section Logic

variable [Fintype P] {sb : Superblock} {K : Set ℕ} {V A B : Prop} {p : P} {α : Type} {a b : Bool}
  {g : Ghost P} {f k fd n : ℕ}

abbrev Bracketed (sb : Superblock) (K : Set ℕ) (V A B : Prop) (p : P) (m : Task P α)
    (Q : α → Bool → Ghost P → Prop) (b : Bool) (g : Ghost P) : Prop :=
  Mwp brackets arbiter (GInv sb K V A B) p m Q b g

abbrev CallBracketed (sb : Superblock) (K : Set ℕ) (V A B : Prop) (p : P) (m : Task P Ret)
    (b : Bool) (g : Ghost P) : Prop :=
  Bracketed sb K V A B p m (fun _ x g => g = Ghost.idle ∧ x = false) b g

theorem Goes.bracketed {m : Task P α} {Q : α → Bool → Ghost P → Prop} (hm : Goes a b m)
    (h : Spec sb K V A B p m (fun x g => Q x b g) g) : Bracketed sb K V A B p m Q a g :=
  .of_wp (fun _ _ _ _ => trivial) h hm fun _ _ _ hQ hx => by rw [hx]; exact hQ

theorem Goes.call {m : Task P Ret} (hm : Goes a false m) (h : CallSpec sb K V A B p m g) :
    CallBracketed sb K V A B p m a g :=
  .of_wp (fun _ _ _ _ => trivial) h hm fun _ _ _ hg hx => ⟨hg, hx⟩

/-! ### Reading -/

omit [Fintype P] [DecidableEq P] in
theorem readAt_ok {s : Kernel P} (h : NoHole s.vol.data (s.icache k).d) :
    ∃ r, readAt sb f k n s = .ok r := by
  unfold readAt
  rw [get_bind, bind_eq (by unfold onInode; rw [readi_eq h])]
  split
  · exact ⟨_, rfl⟩
  · exact ⟨_, rfl⟩

theorem readAt_bracketed {Q : Option (List UInt8) → Bool → Ghost P → Prop} (hV : V)
    (hk : (k, true) ∈ g.locks) (h : ∀ r, Q r false g) :
    Bracketed sb K V A B p (act (readAt sb f k n)) Q false g := by
  refine .lift_of_wp (readAt_spec (Q := fun _ g' => g' = g) hk fun _ => rfl)
    fun s w γ hg hI => ⟨fun hlog => ?_, fun r s' _ g' hg' => ?_⟩
  · have hno : NoHole (s.withOps 0).vol.data ((s.withOps 0).icache k).d :=
      hI.noHole (p := p) (by rw [hg]; exact hk) hV
    have hlogs : logs (readAt sb f k n) s = false := by
      obtain ⟨r, hr⟩ : ∃ r, readAt sb f k n (s.withOps 0) = .ok r := readAt_ok hno
      unfold logs
      rw [hr]
    rw [hlogs, ends_eq_false (readAt_ops f k n)] at hlog
    simp at hlog
  · rw [hg']
    exact h r

theorem fileread_bracketed (hV : V) {piped : Ret} {con : Option (List UInt8)} :
    CallBracketed sb K V A B p (fileread sb p f n piped con) false
      (onFile ⟨fd, f, none, false⟩ []) := by
  refine Mwp.bind ((read_memory _).goes.bracketed (seeFile_spec fun fl => ?_))
  split
  · exact Goes.pure.call Spec.done_via
  split
  next => exact Goes.pure.call Spec.done_via
  next k ht hk =>
    have hip : fl.entry = some k := by unfold File.entry; rw [ht, hk]; rfl
    refine Mwp.bind ((ilock_goes k).bracketed (ilock_onFile_spec hip ?_))
    refine Mwp.bind ((read_memory _).goes.bracketed (Spec.read fun s w γ hg hI d s' hf => ?_))
    cases hf
    refine ⟨rfl, ?_⟩
    have hend : ∀ r : Ret, CallBracketed sb K V A B p (do iunlock p k; return r) false
        (onFile ⟨fd, f, fl.entry, fl.writable⟩ [(k, true)]) := fun r =>
      Goes.call (Goes.bind (iunlock_goes p k) fun _ => Goes.pure)
        (Wp.bind (iunlock_onFile_spec Spec.done_via))
    split
    · split
      · refine Mwp.bind ((consoleWait_goes p k).bracketed (consoleWait_onFile_spec hip ?_))
        exact Mwp.bind ((advance_memory f _).goes.bracketed (advance_spec (hend _)))
      · exact hend _
    · exact Mwp.bind (readAt_bracketed hV List.mem_cons_self fun r => hend _)
  next => exact (Goes.fail (by simp)).call Spec.fail
  next => exact (Goes.fail (by simp)).call Spec.fail

theorem sysRead_bracketed (hV : V) {piped : Ret} {con : Option (List UInt8)} :
    CallBracketed sb K V A B p (sysRead sb p fd n piped con) false Ghost.start :=
  Mwp.bind ((read_memory _).goes.bracketed (argfd_spec rfl rfl rfl (Goes.pure.call Spec.done)
    fun _ => fileread_bracketed hV))

/-! ### Opening -/

theorem fileclose_fresh_bracketed {g' : Ghost P} {Q : Unit → Bool → Ghost P → Prop}
    (hrun : g.run = true) (hfresh : f ∈ g.fresh)
    (hup : ∀ s w γ, γ p = g → GInv sb K V A B s w γ → GivesUp s p f g g') (h : Q () b g') :
    Bracketed sb K V A B p (fileclose sb f) Q b g := by
  refine .bind (.lift fun s w γ hg hI => ⟨fun hlog => ?_, fun x s' hf => ?_⟩)
  · rw [ends_eq_false (filecloseRef_memory f).ops, (filecloseRef_memory f).silent] at hlog
    simp at hlog
  have hmon : brackets.act b (filecloseRef f) s = b := by
    simp [brackets, ends_eq_false (filecloseRef_memory f).ops s]
  have hnone : (s.ftable f).type = .none := by
    have hloc := hI.loc p
    rw [hg] at hloc
    exact (hloc.fresh f hfresh).2.1
  obtain ⟨-, hI'⟩ := hI.close_step hg hrun (hup s w γ hg hI) hf
  refine ⟨w, g', ?_⟩
  rw [hmon]
  cases x with
  | none => exact ⟨hI', Goes.pure.bracketed (.ret h)⟩
  | some ff =>
    have hff : ff.type = .none := by
      rw [filecloseRef_file hf]
      exact hnone
    dsimp only at hI' ⊢
    rw [hff] at hI' ⊢
    exact ⟨hI', Goes.pure.bracketed (.ret h)⟩

theorem sysOpen_bracketed (hsb : V → sb.WF) (hino : B → sb.ninodes ≤ 2 ^ 16)
    (arg : Option (Str × ℕ)) : CallBracketed sb K V A B p (sysOpen sb p arg) false Ghost.start := by
  cases arg with
  | none => exact Goes.pure.call Spec.done
  | some arg =>
    refine Mwp.bind (beginOp_goes.bracketed (beginOp_spec ?_))
    refine Mwp.bind ((openInode_goes p _ _).bracketed (openInode_spec hsb hino
      (endOp_ret_goes.call endOp_done) fun k i t ht => ?_))
    have hbad : CallBracketed sb K V A B p (do
        iunlockput sb p k
        endOp
        return .int (-1)) true (having [⟨k, i, some t⟩] [(k, true)]) :=
      Goes.call (Goes.bind (iunlockput_goes p k) fun _ => endOp_ret_goes)
        (Wp.bind (iunlockput_spec (r := ⟨k, i, some t⟩) rfl (List.Perm.refl _) rfl
          (List.Perm.refl _) rfl (wf_free rfl rfl rfl rfl) endOp_done))
    refine Mwp.bind (filealloc_memory.goes.bracketed (filealloc_spec rfl hbad fun f _ => ?_))
    have hlocks : ∀ y ∈ [(k, true)], ∃ r ∈ [(⟨k, i, some t⟩ : Ref)], r.slot = y.1 := by simp
    refine Mwp.bind ((fdalloc_memory p f).goes.bracketed
      (fdalloc_spec rfl (List.Perm.refl _) hlocks rfl rfl ?_ fun fd => ?_))
    · exact Mwp.bind (fileclose_fresh_bracketed rfl List.mem_cons_self
        (fun _ _ _ _ _ => GivesUp.of_files [] (List.Perm.refl _) (fun _ h => by cases h) rfl
          (wf_lock ⟨k, i, some t⟩ [] true)) hbad)
    · refine Goes.call (Goes.bind (iunlock_goes p k) fun _ => Goes.bind endOp_goes fun _ =>
        Goes.bind (setFile_memory f _).goes fun _ => Goes.pure) ?_
      refine Wp.bind (iunlock_spec rfl (List.Perm.refl _) rfl (Wp.bind (endOp_spec ?_)))
      refine Wp.weaken (weak_via rfl fun x hx => by cases hx) ?_
      exact Wp.bind (openFile_spec (r := ⟨k, i, some t⟩) rfl rfl rfl (List.Perm.refl _) rfl ht
        (wf_free rfl rfl rfl rfl) Spec.done)

/-! ## Every system call -/

theorem Call.bracketed (hV : V) (hsb : V → sb.WF) (initproc p : P) (c : Call P) :
    CallBracketed sb K V A False p (c.task sb initproc p) false Ghost.start := by
  have hspec := Call.spec (K := K) (A := A) (B := False) hsb False.elim initproc p c False.elim
  cases c with
  | «open» arg => exact sysOpen_bracketed hsb False.elim arg
  | close fd => exact (sysClose_goes p fd).call hspec
  | read fd n piped con => exact sysRead_bracketed hV
  | write fd src piped => exact Goes.call (descriptor_goes fun f => filewrite_goes p f _ _) hspec
  | lseek fd offset whence =>
    exact Goes.call (descriptor_goes fun f => (filelseek_memory f _ _).goes) hspec
  | fstat fd => exact Goes.call (descriptor_goes fun f => filestat_goes p f) hspec
  | dup fd => exact (sysDup_goes p fd).call hspec
  | pipe mem => exact (sysPipe_goes p mem).call hspec
  | link arg => exact (sysLink_goes p arg).call hspec
  | unlink arg => exact (sysUnlink_goes p arg).call hspec
  | mkdir arg => exact (sysCreate_goes p arg _ _ _).call hspec
  | mknod arg => exact (sysMknod_goes p arg).call hspec
  | chdir arg => exact (sysChdir_goes p arg).call hspec
  | exec arg reads ok => exact (sysExec_goes p arg reads ok).call hspec
  | fork q => exact (sysFork_goes p q).call hspec
  | exit => exact (sysExit_goes initproc p).call hspec

end Logic

/-! ## Runs -/

abbrev WatchedSystem (P : Type) := Watched P (Kernel P) Panic Request Ret Bool

def bracketStep (sb : Superblock) (init : P) :
    WatchedSystem P → Label P (Call P) → Option (WatchedSystem P) :=
  watch brackets arbiter (fun p c => c.task sb init p) fun s p => (s.proc p).state = .running

def bootWatched (v : Volume) (init : P) : WatchedSystem P :=
  ⟨bootSystem v init, fun _ => false⟩

section Runs

variable [Fintype P] {sb : Superblock} {K : Set ℕ} {v : Volume} {init : P}

/-- **Transaction bracketing.** From a consistent disk, which may have lost blocks (those outside
`K`), in every state of every interleaving of system calls: what a process does next is a `begin_op`
only if it is in no transaction, and an `end_op`, a `log_write` or an `iput` only if it is in one; a
process whose call returns is in none; and every free slot of the file table has no type. -/
theorem transactions_bracketed {s : WatchedSystem P} (hsb : sb.WF) (hv : VolInv sb K v v.dinode)
    (h : Lts.Reach (bracketStep sb init) (fun _ _ => True) (bootWatched v init) s) :
    (∀ p, brackets.Allowed false s.sys.st (s.mon p) (s.sys.th p)) ∧
    ∀ f, (s.sys.st.ftable f).ref = 0 → (s.sys.st.ftable f).type = .none := by
  have h0 : WatchInv brackets arbiter (GInv sb K True False False) (fun _ => Ghost.idle) false
      (bootWatched v init) :=
    ⟨⟨fun _ => 0, 0⟩, fun _ => Ghost.idle, boot_inv False.elim (fun _ => hv) False.elim False.elim
      False.elim, fun _ => ⟨rfl, rfl⟩⟩
  have hI : WatchInv brackets arbiter (GInv sb K True False False) (fun _ => Ghost.idle) false s :=
    h.invariant h0 fun _ _ _ hI _ hs => hI.step
      (fun _ _ _ _ hlive hg hI => hI.start_call (by simpa using hlive) hg)
      (fun p c => Call.bracketed trivial (fun _ => hsb) init p c) hs
  refine ⟨hI.allowed, ?_⟩
  obtain ⟨w, γ, hG, -⟩ := hI
  exact hG.fnone

end Runs

def callOf (c : Call (Fin 1)) (n : ℕ) : List (Label (Fin 1) (Call (Fin 1))) :=
  .call 0 c :: List.replicate n (.step 0)

/-- A process that has created a file and is about to drop the directory, in its transaction. -/
theorem transactions_bracketed_create : ∃ s : WatchedSystem (Fin 1),
    Lts.Reach (bracketStep sb0 0) (fun _ _ => True) (bootWatched bareDisk 0) s ∧
    (nextIput (s.sys.th 0) = true ∧ s.mon 0 = true) ∧
    brackets.Allowed false s.sys.st (s.mon 0) (s.sys.th 0) := by
  obtain ⟨s, -, hs, hq⟩ := Lts.exists_reach (bracketStep sb0 (0 : Fin 1)) (bootWatched bareDisk 0)
    (callOf (.open (some ([97], 514))) 20) (fun s => nextIput (s.sys.th 0) && s.mon 0)
    (by decide +kernel) (Lts.RunOk.trivial _ _)
  exact ⟨s, hs, by simpa using hq, (transactions_bracketed sb0_wf bareDisk_inv hs).1 0⟩

def strayDisk : Volume :=
  { bareDisk with
    bitmap := fun b => b < 72 ∨ b = 73 ∨ b = 74
    dinode := Function.update bareDisk.dinode 2 { Dinode.zero with
      type := .file
      nlink := 1
      size := 14 * BSIZE
      addrs := fun k => if k < NDIRECT then 60 + k else if k = NDIRECT then 72 else 0 }
    data := Function.update (Function.update bareDisk.data 59 fun i =>
      (direntBytes ROOTINO DOT ++ direntBytes ROOTINO DOTDOT ++ direntBytes 2 [102]).getD i 0)
      72 fun i => if i = 0 then 73 else if i = 4 then 74 else 0 }

theorem strayDisk_noHole (i : ℕ) : NoHole strayDisk.data (strayDisk.dinode i) := by
  intro n hn
  by_cases hi : i = 2
  · subst hi
    have hlt : n * 512 < 14 * 512 := hn
    have hall : ∀ n < 14, n < MAXFILE ∧
        blockAt strayDisk.data (strayDisk.dinode 2) (filePos n) ≠ 0 := by
      decide +kernel
    exact hall n (by omega)
  · have hsame : strayDisk.dinode i = bareDisk.dinode i := Function.update_of_ne hi ..
    rw [hsame] at hn ⊢
    obtain ⟨hlt, hb⟩ := bareDisk_noHole i n hn
    have hzero : (bareDisk.dinode i).addrs NDIRECT = 0 := by
      by_cases hr : i = ROOTINO
      · rw [hr]
        rfl
      · simp [bareDisk, hr, Dinode.zero]
    refine ⟨hlt, ?_⟩
    have hdata : blockAt strayDisk.data (bareDisk.dinode i) (filePos n) =
        blockAt bareDisk.data (bareDisk.dinode i) (filePos n) :=
      (blockAt_update_of_ne _ (by rw [hzero]; decide) _).trans
        (blockAt_update_of_ne _ (by rw [hzero]; decide) _)
    exact hdata.trans_ne hb

/-- On such a disk `mkdir` takes the indirect block of the file, which leaves the file with a hole.
Reading the hole allocates a block outside of a transaction. -/
theorem hole_logged : (∀ i, NoHole strayDisk.data (strayDisk.dinode i)) ∧
    ∃ s : WatchedSystem (Fin 1),
      Lts.Reach (bracketStep sb0 0) (fun _ _ => True) (bootWatched strayDisk 0) s ∧
      ¬ brackets.Allowed false s.sys.st (s.mon 0) (s.sys.th 0) := by
  refine ⟨strayDisk_noHole, ?_⟩
  obtain ⟨s, -, hs, hq⟩ := Lts.exists_reach (bracketStep sb0 (0 : Fin 1)) (bootWatched strayDisk 0)
    (callOf (.mkdir (some [97])) 38 ++ callOf (.open (some ([102], 0))) 22 ++
      callOf (.lseek 0 (13 * BSIZE) 0) 3 ++ callOf (.read 0 1 (.int 0) none) 6)
    (fun s => nextLogs s.sys.st (s.sys.th 0) && !s.mon 0)
    (by decide +kernel) (Lts.RunOk.trivial _ _)
  refine ⟨s, hs, fun hok => ?_⟩
  obtain ⟨hlog, hmon⟩ := Bool.and_eq_true_iff.mp hq
  cases hm : s.sys.th 0 with
  | none => rw [hm] at hlog; cases hlog
  | some m =>
    rw [hm] at hlog hok
    cases m with
    | act f k =>
      have htrue : s.mon 0 = true := hok (.inr hlog)
      rw [htrue] at hmon
      cases hmon
    | _ => cases hlog

end Xv6.Fs
