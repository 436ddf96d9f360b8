import Xv6.Fs.NameCalls

/-!
# All system calls

The remaining calls work on processes: `chdir`, `exec`, `fork` and `exit`. Every system call,
started with nothing in hand, keeps the invariant of the running system at each of its steps, among
any other calls, and ends with nothing in hand (`Call.spec`).
-/

namespace Xv6.Fs

open Conc StateExcept

variable {P : Type} [DecidableEq P] [Fintype P] {sb : Superblock} {K : Set ℕ} {V A B : Prop}
  {p q : P} {g : Ghost P} {k i : ℕ} {t : FType}

/-! ## The current directory -/

variable {Q : Unit → Ghost P → Prop}

theorem iputCwd_spec (hrun : g.run = true) (hleft : g.left = false) (hn : g.noCwd = false)
    (hnf : g.freeing = none) (hlocks : g.locks = []) (hwf : ({ g with left := true } : Ghost P).WF)
    (h : Q () { g with left := true }) : Spec sb K V A B p (iputCwd sb p) Q g := by
  refine .bind (.lift fun s w γ hg hI x s' hf => ?_)
  cases hf
  obtain ⟨hK, hI'⟩ := hI.leave_step hg hrun hleft hn
  refine ⟨hK, w, ?_⟩
  cases hc : (s.proc p).cwd with
  | some k =>
    rw [hc] at hI'
    obtain ⟨i, hI'⟩ := hI'
    exact ⟨_, hI', iput_spec (r := ⟨k, i, none⟩) hrun (.refl _) hnf hlocks hwf h⟩
  | none =>
    rw [hc] at hI'
    exact ⟨_, hI', Spec.fail⟩

theorem sysChdir_spec (arg : Option Str) :
    CallSpec sb K V A B p (sysChdir sb p arg) Ghost.start := by
  refine .bind (beginOp_spec ?_)
  cases arg with
  | none => exact endOp_done
  | some path =>
    refine .bind (namei_spec rfl rfl rfl (wf_free rfl rfl rfl rfl) rfl endOp_done fun r => ?_)
    refine .bind (ilock_spec rfl (.refl _) (owed_nil rfl _) fun t _ _ => ?_)
    refine .bind (typeOf_spec (r := ⟨r.slot, r.inum, some t⟩) List.mem_cons_self rfl
      List.mem_cons_self ?_)
    split
    · exact .bind (iunlockput_spec (r := ⟨r.slot, r.inum, some t⟩) rfl (.refl _) rfl
        (.refl _) rfl (wf_free rfl rfl rfl rfl) endOp_done)
    · refine .bind (iunlock_spec rfl (.refl _) rfl ?_)
      refine .bind (iputCwd_spec rfl rfl rfl rfl rfl (wf_free rfl rfl rfl rfl) ?_)
      refine .bind (endOp_spec (.bind (Spec.to _ fun s w γ hg hI a s' hf =>
        ⟨hI.setCwd_step (r := ⟨r.slot, r.inum, some t⟩) hg rfl rfl rfl rfl (.refl _)
          (by simp) (wf_free rfl rfl rfl rfl) hf, Spec.done⟩)))

/-! ## `exec` -/

theorem consoleWait_spec (h : Q () (having [⟨k, i, some t⟩] [(k, true)])) :
    Spec sb K V A B p (consoleWait p k) Q (having [⟨k, i, some t⟩] [(k, true)]) := by
  refine .bind (iunlock_spec rfl (.refl _) rfl ?_)
  refine ilock_spec (r := ⟨k, i, some t⟩) rfl (.refl _) (owed_nil rfl _) fun t' _ ht => ?_
  obtain rfl := ht t rfl
  exact h

theorem execReads_spec (reads : List (ℕ × ℕ)) (h : Q () (having [⟨k, i, some t⟩] [(k, true)])) :
    Spec sb K V A B p (execReads sb p k reads) Q (having [⟨k, i, some t⟩] [(k, true)]) := by
  induction reads with
  | nil => exact .ret h
  | cons r reads ih =>
    refine .bind (.bind (Spec.read fun s w γ hg hI d s' hf => ?_))
    cases hf
    refine ⟨rfl, ?_⟩
    split
    · split
      · exact consoleWait_spec ih
      · exact .ret ih
    · refine .bind (Spec.same fun s w γ hg hI a s' hf => ?_)
      obtain ⟨hK, hI', -⟩ := hI.readi_step (p := p) (by rw [hg]; exact List.mem_cons_self) hf
      exact ⟨hK, hI', Wp.ret ih⟩

theorem sysExec_spec (arg : Option Str) (reads : List (ℕ × ℕ)) (ok : Bool) :
    CallSpec sb K V A B p (sysExec sb p arg reads ok) Ghost.start := by
  cases arg with
  | none => exact Spec.done
  | some path =>
    refine .bind (beginOp_spec ?_)
    refine .bind (namei_spec rfl rfl rfl (wf_free rfl rfl rfl rfl) rfl endOp_done fun r => ?_)
    refine .bind (ilock_spec rfl (.refl _) (owed_nil rfl _) fun t _ _ => ?_)
    refine .bind (execReads_spec (i := r.inum) (t := t) reads ?_)
    exact .bind (iunlockput_spec (r := ⟨r.slot, r.inum, some t⟩) rfl (.refl _) rfl
      (.refl _) rfl (wf_free rfl rfl rfl rfl) endOp_done)

/-! ## `fork` -/

abbrev forking (q : P) (dn : List ℕ) : Ghost P :=
  { (Ghost.start : Ghost P) with child := some (q, dn, false) }

theorem forkFds_spec (fds dn : List ℕ) (hlt : ∀ fd ∈ fds, fd < NOFILE)
    (hnd : fds.Nodup) (hdn : ∀ fd ∈ fds, fd ∉ dn)
    (h : ∀ dn', Q () (forking q dn')) : Spec sb K V A B p (forkFds p q fds) Q (forking q dn) := by
  induction fds generalizing dn with
  | nil => exact .ret (h dn)
  | cons fd fds ih =>
    obtain ⟨hfd, hnd⟩ := List.nodup_cons.mp hnd
    refine .bind (Spec.to _ fun s w γ hg hI a s' hf => ⟨hI.forkFd_step hg rfl rfl rfl rfl
      (hlt fd List.mem_cons_self) (hdn fd List.mem_cons_self) hf, ?_⟩)
    refine ih (fd :: dn) (fun x hx => hlt x (List.mem_cons_of_mem _ hx)) hnd fun x hx hmem => ?_
    rcases List.mem_cons.mp hmem with rfl | hmem
    · exact hfd hx
    · exact hdn x (List.mem_cons_of_mem _ hx) hmem

theorem sysFork_spec (q : P) : CallSpec sb K V A B p (sysFork p q) Ghost.start := by
  refine .bind (.lift fun s w γ hg hI b s' hf => ?_)
  obtain ⟨hK, hI'⟩ := hI.allocproc_step hg rfl rfl hf
  refine ⟨hK, w, ?_⟩
  cases b with
  | false =>
    obtain rfl : s' = s := hI'
    exact ⟨γ p, by rwa [Function.update_eq_self], by rw [hg]; exact Spec.done⟩
  | true =>
    refine ⟨_, hI', Wp.bind (forkFds_spec _ _ (fun _ h => List.mem_range.mp h) List.nodup_range
      (fun _ _ h => by cases h) fun dn => ?_)⟩
    refine .bind (Spec.to _ fun s w γ hg hI a s' hf =>
      ⟨hI.forkCwd_step hg rfl rfl rfl rfl hf, ?_⟩)
    refine .bind (Spec.to Ghost.start fun s w γ hg hI a s' hf => ⟨?_, Spec.done⟩)
    cases hf
    exact hI.forkRun_step hg rfl rfl rfl

/-! ## `exit` -/

abbrev closing (sh : List ℕ) : Ghost P := { Ghost.start with shut := sh }

theorem GInv.see_shut {s : Kernel P} {w : Births} {γ : P → Ghost P} (hI : GInv sb K V A B s w γ)
    {fd : ℕ} {sh : List ℕ} (hg : γ p = closing sh) (h : (s.proc p).ofile fd = none) :
    GInv sb K V A B s w (Function.update γ p (closing (fd :: sh))) := by
  have hl := hI.loc p
  rw [hg] at hl
  exact hI.learn hg rfl rfl rfl rfl (fun _ => rfl) { hl with
    wf := wf_free rfl rfl rfl rfl
    shut := fun x hx => by
      rcases List.mem_cons.mp hx with rfl | hx
      · exact h
      · exact hl.shut x hx }

omit [DecidableEq P] in
theorem GInv.givesUp_fd {s : Kernel P} {w : Births} {γ : P → Ghost P} (hI : GInv sb K V A B s w γ)
    {fd f : ℕ} {sh : List ℕ} (hg : γ p = { closing sh with via := some ⟨fd, f, none, false⟩ }) :
    GivesUp s p f { closing sh with via := some ⟨fd, f, none, false⟩ }
      { closing sh with fdOut := some (fd, f) } := by
  have hl := hI.loc p
  rw [hg] at hl
  obtain ⟨hfd, ho, -⟩ := hl.via _ rfl
  refine ⟨rfl, wf_free rfl rfl rfl rfl, fun f' => ?_, fun x hx => ?_, fun _ h => by cases h⟩
  · have := fdRef_out (s.proc p) hfd f'
    rw [ho] at this
    unfold fdCount
    simp only [Option.some.injEq, eq_comm (a := f)] at this
    exact this
  · cases hx
    exact ⟨hfd, ho⟩

theorem exitFds_spec (fds sh : List ℕ) (hlt : ∀ fd ∈ fds, fd < NOFILE)
    (hnd : fds.Nodup) (hsh : ∀ fd ∈ fds, fd ∉ sh)
    (h : ∀ sh' : List ℕ, (∀ fd, fd ∈ fds ∨ fd ∈ sh → fd ∈ sh') → Q () (closing sh')) :
    Spec sb K V A B p (exitFds sb p fds) Q (closing sh) := by
  induction fds generalizing sh with
  | nil => exact .ret (h sh fun fd hfd => hfd.resolve_left (by simp))
  | cons fd fds ih =>
    obtain ⟨hfd, hnd⟩ := List.nodup_cons.mp hnd
    have hnext : Spec sb K V A B p (exitFds sb p fds) Q (closing (fd :: sh)) := by
      refine ih (fd :: sh) (fun x hx => hlt x (List.mem_cons_of_mem _ hx)) hnd (fun x hx hmem => ?_)
        fun sh' hsh' => h sh' fun x hx => hsh' x ?_
      · rcases List.mem_cons.mp hmem with rfl | hmem
        · exact hfd hx
        · exact hsh x (List.mem_cons_of_mem _ hx) hmem
      · simp only [List.mem_cons] at hx ⊢
        tauto
    refine .bind (.lift fun s w γ hg hI x s' hf => ?_)
    obtain ⟨hx, rfl⟩ := Prod.mk.inj (Except.ok.inj hf)
    refine ⟨Kept.refl s, w, ?_⟩
    cases x with
    | none => exact ⟨_, hI.see_shut hg hx, hnext⟩
    | some f =>
      refine ⟨_, hI.see_fd hg rfl rfl rfl (hlt fd List.mem_cons_self) hx, ?_⟩
      refine .bind (fileclose_spec rfl rfl (.inl rfl) (fun s w γ hg hI => hI.givesUp_fd hg) ?_)
      exact .bind (Spec.to _ fun s w γ hg hI a s' hf =>
        ⟨hI.shut_step hg rfl rfl rfl (hsh fd List.mem_cons_self) hf, hnext⟩)

theorem sysExit_spec (initproc : P) :
    CallSpec sb K V A B p (sysExit sb initproc p) Ghost.start := by
  unfold sysExit
  split
  · exact Spec.fail
  refine .bind (exitFds_spec _ [] (fun _ h => List.mem_range.mp h) List.nodup_range
    (fun _ _ h => by cases h) fun sh hsh => ?_)
  refine .bind (beginOp_spec (.bind (iputCwd_spec rfl rfl rfl rfl rfl
    (wf_free rfl rfl rfl rfl) ?_)))
  refine .bind (endOp_spec (.bind (Spec.to _ fun s w γ hg hI a s' hf =>
    ⟨hI.clearCwd_step hg rfl rfl rfl hf, ?_⟩)))
  refine .bind (Spec.to Ghost.idle fun s w γ hg hI a s' hf => ⟨?_, Wp.ret rfl⟩)
  cases hf
  refine hI.exit_step (by rw [hg]; rfl) fun fd hfd => ?_
  rw [hg]
  exact hsh fd (.inl (List.mem_range.mpr hfd))

/-! ## All calls -/

/-- The call is no `link` to a path that ends in `"."` or `".."`. -/
def Call.Plain : Call P → Prop
  | .link (some (_, new)) => ∀ n ∈ (elements new).getLast?, ¬ isDots n
  | _ => True

/-- **System calls keep the invariant.** Whatever the arguments, and whatever other processes do in
between. -/
theorem Call.spec (hsb : V → sb.WF) (hino : B → sb.ninodes ≤ 2 ^ 16) (initproc p : P) (c : Call P)
    (hplain : B → c.Plain) : CallSpec sb K V A B p (Call.task sb initproc p c) Ghost.start := by
  cases c with
  | «open» arg => exact sysOpen_spec hsb hino arg
  | close fd => exact sysClose_spec
  | read fd n piped con => exact sysRead_spec
  | write fd src piped => exact sysWrite_spec hsb
  | lseek fd offset whence => exact sysLseek_spec
  | fstat fd => exact sysFstat_spec
  | dup fd => exact sysDup_spec
  | pipe mem => exact sysPipe_spec mem
  | link arg =>
    refine sysLink_spec hsb arg fun hB x hx => ?_
    obtain rfl := hx
    exact hplain hB
  | unlink arg => exact sysUnlink_spec hsb arg
  | mkdir arg => exact sysCreate_spec hsb hino arg 0 0 (by decide)
  | mknod arg =>
    have hdev : FType.dev ≠ .free := by decide
    cases arg with
    | none => exact sysCreate_spec hsb hino none 0 0 hdev
    | some arg => exact sysCreate_spec hsb hino (some arg.1) arg.2.1 arg.2.2 hdev
  | chdir arg => exact sysChdir_spec arg
  | exec arg reads ok => exact sysExec_spec arg reads ok
  | fork q => exact sysFork_spec q
  | exit => exact sysExit_spec initproc

end Xv6.Fs
