import Xv6.Fs.Runs

/-!
# References to inodes

What the invariant says about the users of a cache entry, open files and current directories.

1. `ref_eq_users`: between calls, on any disk, `ref` of an entry is the number of its users.
2. `user_keeps_inode`: while an entry has a user, it keeps its identity and its inode stays
   allocated with all its blocks. A process whose current directory is being replaced is no user.
-/

namespace Xv6.Fs

open Conc Finset

variable {P : Type} [DecidableEq P] [Fintype P]

/-! ## Counting users -/

def openCount (s : Kernel P) (k : ℕ) : ℕ :=
  #{f ∈ range NFILE | 0 < (s.ftable f).ref ∧ (s.ftable f).type = .inode ∧ (s.ftable f).ip = some k}

def cwdCount (s : Kernel P) (k : ℕ) : ℕ :=
  #{p | (s.proc p).state ≠ .unused ∧ (s.proc p).cwd = some k}

section

variable {sb : Superblock} {K : Set ℕ} {V A B : Prop} {s : Kernel P} {w : Births}

omit [DecidableEq P] in
theorem GInv.sum_fileRef {γ : P → Ghost P} (h : GInv sb K V A B s w γ) (k : ℕ) :
    ∑ f ∈ range NFILE, fileRef (s.ftable f) k = openCount s k := by
  unfold openCount
  rw [card_filter]
  refine sum_congr rfl fun f _ => ?_
  unfold fileRef
  -- a file without references has no type
  by_cases h0 : (s.ftable f).ref = 0
  · simp [h0, h.fnone f h0]
  · simp [Nat.pos_of_ne_zero h0]

omit [DecidableEq P] in
theorem GInv.sum_procRef (h : GInv sb K V A B s w fun _ => Ghost.idle) (k : ℕ) :
    ∑ p, procRef (s.proc p) (Ghost.idle : Ghost P) k = cwdCount s k := by
  unfold cwdCount
  rw [card_filter]
  refine sum_congr rfl fun p _ => ?_
  have hleft : (s.proc p).leaving = false := (h.loc p).left
  by_cases hu : (s.proc p).state = .unused
  · simp [procRef, cwdRef, Ghost.idle, hu, (h.unused p hu).2]
  · simp [procRef, cwdRef, Ghost.idle, hu, hleft]

end

/-- **Reference accounting.** Whatever calls have been made, on whatever disk, and whether they
failed or not: when none is in flight, `ref` of a cache entry is the number of open files and
current directories that refer to it, and no inode has two entries in use. -/
theorem ref_eq_users {sb : Superblock} {init : P} {v : Volume} {s : System P}
    (h : Lts.Reach (sysStep sb init) (fun _ _ => True) (bootSystem v init) s)
    (hquiet : ∀ p, s.th p = none) :
    (∀ k, (s.st.icache k).ref = openCount s.st k + cwdCount s.st k) ∧
    ∀ k l, 0 < (s.st.icache k).ref → 0 < (s.st.icache l).ref →
      (s.st.icache k).dev = (s.st.icache l).dev → (s.st.icache k).inum = (s.st.icache l).inum →
      k = l := by
  have h0 : SystemInv sb ∅ False False False (bootSystem v init) :=
    bootSystem_inv (w := ⟨fun _ => 0, 0⟩) False.elim False.elim False.elim False.elim False.elim
  obtain ⟨w, hI⟩ := (sysReach_inv False.elim h0 h).quiet hquiet
  refine ⟨fun k => ?_, fun k l hk hl _ hi => hI.uniq k l hk hl hi⟩
  rw [hI.count k, ← hI.sum_fileRef k, ← hI.sum_procRef k]
  rfl

/-- Two processes in the root directory, one of which opens it, and then fails to open a file. -/
theorem ref_eq_users_root : ∃ s : System (Fin 2),
    Lts.Reach (sysStep sb0 0) (fun _ _ => True) (bootSystem bareDisk 0) s ∧
    (s.st.icache 0).ref = 3 ∧ (s.st.icache 0).ref = openCount s.st 0 + cwdCount s.st 0 := by
  obtain ⟨s, -, hs, hq⟩ := Lts.exists_reach (callStep sb0 (0 : Fin 2)) (boot bareDisk 0)
    [(0, .fork 1), (1, .open (some ([47], 0))), (0, .open (some ([97], 0)))]
    (fun s => (s.icache 0).ref = 3) (by decide +kernel) (Lts.RunOk.trivial _ _)
  have hreach := sysReach_of_callReach hs
  exact ⟨⟨s, fun _ => none⟩, hreach, of_decide_eq_true hq, (ref_eq_users hreach fun _ => rfl).1 0⟩

/-! ## Users keep their inode -/

def HasUser (s : Kernel P) (k : ℕ) : Prop :=
  (∃ f, 0 < (s.ftable f).ref ∧ (s.ftable f).type = .inode ∧ (s.ftable f).ip = some k) ∨
    ∃ p, (s.proc p).cwd = some k ∧ (s.proc p).leaving = false

omit [DecidableEq P] [Fintype P] in
theorem HasUser.not_noUser {s : Kernel P} {k : ℕ} (h : HasUser s k) : ¬ NoUser s k := by
  rintro ⟨hfile, hcwd⟩
  rcases h with ⟨f, -, ht, hk⟩ | ⟨p, hk, hl⟩
  · exact hfile f ht hk
  · rw [hcwd p hk] at hl
    cases hl

omit [DecidableEq P] in
theorem Global.user {sb : Superblock} {K : Set ℕ} {V A B : Prop} {s : Kernel P} {w : Births}
    {γ : P → Ghost P} {k : ℕ} (hI : Global sb K V A B s w γ) (hA : A) (h : HasUser s k) :
    0 < (s.icache k).ref ∧ (s.vol.dinode (s.icache k).inum).type ≠ .free := by
  rcases h with ⟨f, -, ht, hk⟩ | ⟨p, hk, hl⟩
  · exact ⟨hI.ref_pos_of_file ht hk, (hI.file f k ht hk).1⟩
  · exact ⟨hI.ref_pos_of_cwd hk hl, hI.cwd hA p k hk hl⟩

theorem iallocDisk_ne {sb : Superblock} {t : FType} {v v' : Volume} {i j : ℕ}
    (h : iallocDisk sb t v = .ok (j, v')) (hi : (v.dinode i).type ≠ .free) : j ≠ i := by
  rintro rfl
  exact hi (iallocDisk_ok h).1

/-- **Inodes in use.** From a consistent disk, through any interleaving: a step leaves an entry with
a user its identity, and its inode stays allocated, with the blocks it has, which stay marked;
`ialloc` does not hand it out. -/
theorem user_keeps_inode {sb : Superblock} {K : Set ℕ} {init : P} {v : Volume}
    {s s' : System P} {l : Label P (Call P)} {k : ℕ} (hsb : sb.WF) (hv : VolInv sb K v v.dinode)
    (hroot : (v.dinode ROOTINO).type ≠ .free)
    (h : Lts.Reach (sysStep sb init) (fun _ _ => True) (bootSystem v init) s)
    (hs : sysStep sb init s l = some s') (hk : HasUser s.st k) :
    ((s'.st.icache k).dev = (s.st.icache k).dev ∧ (s'.st.icache k).inum = (s.st.icache k).inum) ∧
    (s.st.vol.dinode (s.st.icache k).inum).type ≠ .free ∧
    (s'.st.vol.dinode (s.st.icache k).inum).type = (s.st.vol.dinode (s.st.icache k).inum).type ∧
    (∀ n < NPOS, ∀ b ≠ 0, blockAt s.st.vol.data (s.st.vol.dinode (s.st.icache k).inum) n = b →
      s.st.vol.bitmap b = true ∧ s'.st.vol.bitmap b = true ∧
      blockAt s'.st.vol.data (s'.st.vol.dinode (s.st.icache k).inum) n = b) ∧
    ∀ t j v', iallocDisk sb t s.st.vol = .ok (j, v') → j ≠ (s.st.icache k).inum := by
  have h0 : SystemInv sb K True True False (bootSystem v init) :=
    bootSystem_inv (w := ⟨fun _ => 0, 0⟩) False.elim (fun _ => hv) (fun _ => hroot) False.elim
      False.elim
  have hinv := sysReach_inv (fun _ => hsb) h0 h
  have hkept := SysInv.guarantee hs Kept.refl hinv
  obtain ⟨w', γ', hI', -⟩ := SystemInv.step (fun _ => hsb) False.elim False.elim hinv hs
  obtain ⟨w, γ, hI, -⟩ := hinv
  obtain ⟨hpos, hfree⟩ := hI.user trivial hk
  obtain ⟨htype, hblocks⟩ := (hkept.inode _ hfree).resolve_right fun hno =>
    hk.not_noUser (hno k hpos rfl)
  refine ⟨hkept.entry k hpos, hfree, htype, ?_, fun t j v' hj => iallocDisk_ne hj hfree⟩
  rintro n hn b hb rfl
  have hsame := hblocks trivial n hn hb
  refine ⟨((hI.vol trivial).used hfree hn hb).2, ?_, hsame⟩
  rw [← hsame]
  exact ((hI'.vol trivial).used (by rwa [htype]) hn (by rwa [hsame])).2

def unlinkOpen : List (Label (Fin 2) (Call (Fin 2))) :=
  .call 0 (.open (some ([120], O_CREATE))) :: List.replicate 30 (.step 0) ++
    .call 0 (.unlink (some [120])) :: List.replicate 27 (.step 0)

/-- In that step `iput` drops a reference to an inode without a name, which stays a file. -/
theorem user_keeps_inode_unlinked : ∃ s s' : System (Fin 2),
    Lts.Reach (sysStep sb0 0) (fun _ _ => True) (bootSystem bareDisk 0) s ∧
    sysStep sb0 0 s (.step 0) = some s' ∧ HasUser s.st 1 ∧
    (s.st.vol.dinode (s.st.icache 1).inum).nlink = 0 ∧
    ((s.st.icache 1).ref = 2 ∧ (s'.st.icache 1).ref = 1) ∧
    (s'.st.vol.dinode (s.st.icache 1).inum).type = .file := by
  obtain ⟨s, -, hs, hq⟩ := Lts.exists_reach (sysStep sb0 (0 : Fin 2)) (bootSystem bareDisk 0)
    unlinkOpen (fun s => decide (0 < (s.st.ftable 0).ref ∧ (s.st.ftable 0).type = .inode ∧
      (s.st.ftable 0).ip = some 1 ∧ (s.st.vol.dinode (s.st.icache 1).inum).nlink = 0 ∧
      (s.st.vol.dinode (s.st.icache 1).inum).type = .file ∧ (s.st.icache 1).ref = 2) &&
      (sysStep sb0 0 s (.step 0)).any fun s' => (s'.st.icache 1).ref = 1)
    (by decide +kernel) (Lts.RunOk.trivial _ _)
  obtain ⟨hfacts, hany⟩ := Bool.and_eq_true_iff.mp hq
  obtain ⟨href, htype, hip, hlink, hfile, htwo⟩ := of_decide_eq_true hfacts
  obtain ⟨s', hs', hone⟩ := (Option.any_eq_true _ _).mp hany
  have huser : HasUser s.st 1 := .inl ⟨0, href, htype, hip⟩
  refine ⟨s, s', hs, hs', huser, hlink, ⟨htwo, of_decide_eq_true hone⟩, ?_⟩
  exact (user_keeps_inode sb0_wf bareDisk_inv (by decide) hs hs' huser).2.2.1.trans hfile

def leaveNameless : List (Fin 2 × Call (Fin 2)) :=
  [(0, .mkdir (some [100])), (0, .chdir (some [100])), (0, .unlink (some [46, 46, 47, 100]))]

def leaveSteps : List (Label (Fin 2) (Call (Fin 2))) :=
  .call 0 (.chdir (some [47])) :: List.replicate 11 (.step 0)

/-- In `chdir`, the current directory outlives its inode: when `iput` has freed the removed
directory, `cwd` still refers to the entry. -/
theorem cwd_outlives_inode : ∃ s : System (Fin 2),
    Lts.Reach (sysStep sb0 0) (fun _ _ => True) (bootSystem bareDisk 0) s ∧
    ∃ k, (s.st.proc 0).state = .running ∧ (s.st.proc 0).cwd = some k ∧
      (s.st.vol.dinode (s.st.icache k).inum).type = .free := by
  obtain ⟨s, -, hreach, hnext⟩ := Lts.exists_reach (callStep sb0 (0 : Fin 2)) (boot bareDisk 0)
    leaveNameless
    (fun s => (Lts.run (sysStep sb0 0) ⟨s, fun _ => none⟩ leaveSteps).any fun s =>
      (s.st.proc 0).state = .running ∧ (s.st.proc 0).cwd = some 1 ∧
        (s.st.vol.dinode (s.st.icache 1).inum).type = .free)
    (by decide +kernel) (Lts.RunOk.trivial _ _)
  obtain ⟨s', -, hs', hq⟩ := Lts.exists_reach _ _ _ _ hnext (Lts.RunOk.trivial _ _)
  exact ⟨s', (sysReach_of_callReach hreach).trans hs', 1, of_decide_eq_true hq⟩

end Xv6.Fs
