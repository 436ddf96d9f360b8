import Xv6.Fs.Runs

/-!
# Offsets of open files

`read` and `write` keep the offset of an open file within the file, and so does `lseek` from the
start or the end of the file. `lseek` from the current position adds an offset that it has compared
with the size of the file, not with what is left of it.

1. `WithinFile`: no open file of the regular file in entry `k` has an offset beyond its end.
2. A triple for each step of `read`, `write` and `lseek`, with the invariant `Steady`.
3. `withinFile_of_reach`: the calls keep `WithinFile`, except for an `lseek` that does not meet
   `SeekOk`. `lseek_past_end` is one.
-/

namespace Xv6.Fs

open Function Conc StateExcept

variable {P : Type} {sb : Superblock} {s s' s₀ : Kernel P} {k j f n : ℕ} {p : P}

/-! ## The copy of the inode -/

def KeepsSize (x y : Dinode × Volume) : Prop := y.1.type = x.1.type ∧ y.1.size = x.1.size

instance : IsPreorder (Dinode × Volume) KeepsSize where
  refl _ := ⟨rfl, rfl⟩
  trans _ _ _ hxy hyz := ⟨hyz.1.trans hxy.1, hyz.2.trans hxy.2⟩

theorem keepsSize_steps : BlockSteps KeepsSize where
  vol _ _ _ _ := ⟨rfl, rfl⟩
  addrs _ _ _ := ⟨rfl, rfl⟩

theorem length_readLoop (fuel off n : ℕ) (x y : Dinode × Volume) (bs : List UInt8)
    (h : readLoop sb fuel off n x = .ok (bs, y)) : bs.length ≤ n := by
  induction fuel generalizing off n x y bs with
  | zero =>
    obtain ⟨rfl, -⟩ := pure_ok h
    exact Nat.zero_le n
  | succ fuel ih =>
    unfold readLoop at h
    split at h
    · obtain ⟨rfl, -⟩ := pure_ok h
      exact Nat.zero_le n
    · obtain ⟨a, x1, -, h⟩ := bind_ok.mp h
      obtain ⟨x2, x3, -, h⟩ := bind_ok.mp h
      obtain ⟨rest, x4, hrest, h⟩ := bind_ok.mp h
      obtain ⟨rfl, -⟩ := pure_ok h
      have hle := ih _ _ _ _ _ hrest
      rw [List.length_append, List.length_map, List.length_range]
      omega

theorem readi_within {off : ℕ} {d d' : Dinode} {v v' : Volume} {r : Option (List UInt8)}
    (h : readi sb off n (d, v) = .ok (r, (d', v'))) :
    (d'.type = d.type ∧ d'.size = d.size) ∧ ∀ bs, r = some bs → off + bs.length ≤ d.size := by
  refine ⟨readi_along keepsSize_steps off n (d, v) r (d', v') h, fun bs hbs => ?_⟩
  subst hbs
  unfold readi at h
  rw [get_bind] at h
  dsimp only at h
  split at h
  · cases (pure_ok h).1
  next hle =>
    obtain ⟨bs', x, hloop, h⟩ := bind_ok.mp h
    obtain rfl := Option.some.inj (pure_ok h).1
    have hlen := length_readLoop _ _ _ _ _ _ hloop
    split at hlen <;> omega

theorem writei_within {inum off : ℕ} {src : List UInt8} {d d' : Dinode} {v v' : Volume}
    {r : Option ℕ} (h : writei sb inum off src (d, v) = .ok (r, (d', v'))) :
    d'.type = d.type ∧ d.size ≤ d'.size ∧ ∀ m, r = some m → off + m ≤ d'.size := by
  unfold writei at h
  rw [get_bind] at h
  dsimp only at h
  split at h
  · obtain ⟨rfl, hx⟩ := pure_ok h
    cases hx
    exact ⟨rfl, le_rfl, nofun⟩
  next hoff =>
    split at h
    · obtain ⟨rfl, hx⟩ := pure_ok h
      cases hx
      exact ⟨rfl, le_rfl, nofun⟩
    · obtain ⟨u, ⟨d1, v1⟩, hloop, h⟩ := bind_ok.mp h
      obtain ⟨ht, hs⟩ := writeLoop_along keepsSize_steps _ _ _ _ _ _ hloop
      dsimp only at ht hs
      split at h
      next hgrow =>
        rw [modify_bind] at h
        obtain ⟨u', x, hup, h⟩ := bind_ok.mp h
        obtain ⟨rfl, rfl⟩ := pure_ok h
        obtain ⟨lh, hx⟩ := iupdate_ok hup
        cases hx
        refine ⟨ht, by dsimp only; omega, fun m hm => ?_⟩
        cases hm
        exact le_rfl
      next hgrow =>
        obtain ⟨rfl, hx⟩ := pure_ok h
        cases hx
        refine ⟨ht, by omega, fun m hm => ?_⟩
        cases hm
        omega

/-! ## The invariant -/

structure WithinFile (s : Kernel P) (k : ℕ) : Prop where
  valid : (s.icache k).valid = true
  file : (s.icache k).d.type = .file
  off : ∀ f, (s.ftable f).type = .inode → (s.ftable f).ip = some k →
    (s.ftable f).off ≤ (s.icache k).d.size

/-- From `s₀` on nothing has been opened or closed, and the offsets are within the file. -/
structure Steady (k : ℕ) (s₀ s : Kernel P) : Prop extends WithinFile s k where
  proc : s.proc = s₀.proc
  ip : ∀ f, (s.ftable f).type = (s₀.ftable f).type ∧ (s.ftable f).ip = (s₀.ftable f).ip

theorem WithinFile.steady (h : WithinFile s k) : Steady k s s := ⟨h, rfl, fun _ => ⟨rfl, rfl⟩⟩

theorem Steady.frame (h : Steady k s₀ s) (hp : s'.proc = s.proc) (hf : s'.ftable = s.ftable)
    (hv : (s'.icache k).valid = (s.icache k).valid) (hd : (s'.icache k).d = (s.icache k).d) :
    Steady k s₀ s' where
  valid := hv.trans h.valid
  file := by rw [hd]; exact h.file
  off f ht hi := by
    rw [hf] at ht hi ⊢
    rw [hd]
    exact h.off f ht hi
  proc := hp.trans h.proc
  ip f := by rw [hf]; exact h.ip f

theorem Steady.setInode (h : Steady k s₀ s) {ip : Inode P} (hj : j = k → ip.valid = true ∧
    ip.d = (s.icache k).d) : Steady k s₀ (s.setInode j ip) := by
  by_cases hjk : k = j
  · subst hjk
    obtain ⟨hv, hd⟩ := hj rfl
    refine h.frame rfl rfl ?_ ?_
    · rw [setInode_icache, update_self, hv, h.valid]
    · rw [setInode_icache, update_self, hd]
  · refine h.frame rfl rfl ?_ ?_
    · rw [setInode_icache, update_of_ne hjk]
    · rw [setInode_icache, update_of_ne hjk]

theorem Steady.setOff (h : Steady k s₀ s) {off : ℕ}
    (hoff : (s.ftable f).type = .inode → (s.ftable f).ip = some k → off ≤ (s.icache k).d.size) :
    Steady k s₀ (s.setFile f { s.ftable f with off := off }) := by
  refine ⟨⟨h.valid, h.file, fun g ht hi => ?_⟩, h.proc, fun g => ?_⟩
  · rw [setFile_ftable] at ht hi ⊢
    by_cases hg : g = f
    · subst hg
      rw [update_self] at ht hi ⊢
      exact hoff ht hi
    · rw [update_of_ne hg] at ht hi ⊢
      exact h.off g ht hi
  · rw [setFile_ftable]
    by_cases hg : g = f
    · subst hg
      rw [update_self]
      exact h.ip g
    · rw [update_of_ne hg]
      exact h.ip g

theorem Steady.onInode {α : Type} {m : InodeM α} {a : α} (h : Steady k s₀ s)
    (hm : onInode j m s = .ok (a, s')) : ∃ d v, m ((s.icache j).d, s.vol) = .ok (a, (d, v)) ∧
      (s'.icache j).d = d ∧ s'.ftable = s.ftable ∧
      (j = k → d.type = (s.icache k).d.type → (s.icache k).d.size ≤ d.size → Steady k s₀ s') ∧
      (j ≠ k → Steady k s₀ s') := by
  unfold Fs.onInode at hm
  split at hm
  next b d v hr =>
    cases hm
    refine ⟨d, v, hr, by simp, rfl, ?_, fun hj => ?_⟩
    · rintro rfl ht hs
      refine ⟨⟨?_, ?_, fun g hg hi => ?_⟩, h.proc, h.ip⟩
      · simpa using h.valid
      · simpa [ht] using h.file
      · simpa using (h.off g hg hi).trans hs
    · refine h.frame rfl rfl ?_ ?_
      · simp [update_of_ne (Ne.symm hj)]
      · simp [update_of_ne (Ne.symm hj)]
  next => cases hm

/-! ## Steps -/

abbrev KeepsSteady {α : Type} (k : ℕ) (s₀ : Kernel P) (p : P) (m : Task P α) : Prop :=
  Triple arbiter p (Steady k s₀) m fun _ => Steady k s₀

theorem KeepsSteady.fail {α : Type} (e : Panic) : KeepsSteady k s₀ p (fail e : Task P α) :=
  .lift fun _ _ _ _ h => by cases h

theorem beginOp_steady : KeepsSteady k s₀ p beginOp :=
  .request fun _ h => h.frame rfl rfl rfl rfl

theorem endOp_steady : KeepsSteady k s₀ p endOp :=
  .lift fun _ _ _ h hs => by
    cases hs
    exact h.frame rfl rfl rfl rfl

theorem ilock_steady : KeepsSteady k s₀ p (ilock j) := by
  have htest : KeepsSteady k s₀ p (act fun s : Kernel P =>
      if (s.icache j).ref < 1 then .error .ilock else .ok ((), s)) :=
    .lift fun s a s' h hs => by
      split at hs
      · cases hs
      · cases hs
        exact h
  have hacquire : KeepsSteady k s₀ p (Prog.request (.inode .ilock j)) :=
    .request fun s h => h.setInode fun hj => ⟨hj ▸ h.valid, hj ▸ rfl⟩
  refine .bind htest fun _ => .bind hacquire fun _ => .lift fun s a s' h hs => ?_
  unfold iload at hs
  split at hs
  · cases hs
    exact h
  next hvalid =>
    split at hs
    · cases hs
    · cases hs
      exact h.setInode fun hj => absurd (hj ▸ h.valid) hvalid

theorem advance_steady (hj : (s₀.ftable f).ip = some j) (hne : j ≠ k) :
    KeepsSteady k s₀ p (act (advance f n)) :=
  .lift fun s _ _ h hs => by
    cases hs
    refine h.setOff fun _ hi => ?_
    rw [(h.ip f).2, hj] at hi
    exact absurd (Option.some.inj hi) hne

theorem readAt_steady (hj : (s₀.ftable f).ip = some j) :
    KeepsSteady k s₀ p (act (readAt sb f j n)) := by
  refine .lift fun s a s' h hs => ?_
  unfold readAt at hs
  rw [get_bind] at hs
  obtain ⟨r, s1, hr, hs⟩ := bind_ok.mp hs
  obtain ⟨d, v, hm, hd, hft, hself, hother⟩ := h.onInode hr
  obtain ⟨⟨ht, hsz⟩, hlen⟩ := readi_within hm
  have h1 : Steady k s₀ s1 := by
    by_cases hjk : j = k
    · subst hjk
      exact hself rfl ht hsz.ge
    · exact hother hjk
  cases r with
  | none =>
    obtain ⟨-, rfl⟩ := pure_ok hs
    exact h1
  | some bs =>
    obtain ⟨u, s2, ha, hs⟩ := bind_ok.mp hs
    obtain ⟨-, rfl⟩ := pure_ok hs
    cases ha
    refine h1.setOff fun _ hi => ?_
    rw [(h1.ip f).2, hj] at hi
    cases hi
    have hle := hlen bs rfl
    rw [hd, hft, hsz]
    exact (Nat.mod_le _ _).trans hle

theorem writeAt_steady (hj : (s₀.ftable f).ip = some j) (src : List UInt8) :
    KeepsSteady k s₀ p (act (writeAt sb f j src)) := by
  refine .lift fun s a s' h hs => ?_
  unfold writeAt at hs
  rw [get_bind] at hs
  obtain ⟨r, s1, hr, hs⟩ := bind_ok.mp hs
  obtain ⟨d, v, hm, hd, hft, hself, hother⟩ := h.onInode hr
  obtain ⟨ht, hsz, hlen⟩ := writei_within hm
  have h1 : Steady k s₀ s1 := by
    by_cases hjk : j = k
    · subst hjk
      exact hself rfl ht hsz
    · exact hother hjk
  cases r with
  | none =>
    obtain ⟨-, rfl⟩ := pure_ok hs
    exact h1
  | some m =>
    obtain ⟨u, s2, ha, hs⟩ := bind_ok.mp hs
    obtain ⟨-, rfl⟩ := pure_ok hs
    cases ha
    refine h1.setOff fun _ hi => ?_
    rw [(h1.ip f).2, hj] at hi
    cases hi
    have hle := hlen m rfl
    rw [hd, hft]
    exact (Nat.mod_le _ _).trans hle

theorem seeCopy_steady {α : Type} {m : Dinode → Task P α}
    (h : ∀ d, (d.type = .dev → j ≠ k) → KeepsSteady k s₀ p (m d)) :
    KeepsSteady k s₀ p ((act fun s => .ok ((s.icache j).d, s)) >>= m) := by
  have hsee : Triple arbiter p (Steady k s₀) (act fun s : Kernel P => .ok ((s.icache j).d, s))
      fun d s => (d.type = .dev → j ≠ k) ∧ Steady k s₀ s := by
    refine .lift fun s d s' hc hs => ?_
    cases hs
    refine ⟨fun hdev hj => ?_, hc⟩
    rw [hj, hc.file] at hdev
    cases hdev
  exact .bind hsee fun d s hs => h d hs.1 s hs.2

theorem seeFile_steady {α : Type} {m : File → Task P α}
    (h : ∀ fl : File, fl.ip = (s₀.ftable f).ip → KeepsSteady k s₀ p (m fl)) :
    KeepsSteady k s₀ p ((act fun s => .ok (s.ftable f, s)) >>= m) := by
  have hsee : Triple arbiter p (Steady k s₀) (act fun s : Kernel P => .ok (s.ftable f, s))
      fun fl s => fl.ip = (s₀.ftable f).ip ∧ Steady k s₀ s := by
    refine .lift fun s fl s' hc hs => ?_
    cases hs
    exact ⟨(hc.ip f).2, hc⟩
  exact .bind hsee fun fl s hs => h fl hs.1 s hs.2

theorem argfd_steady {α : Type} {fd : ℕ} {m : Option ℕ → Task P α}
    (h : ∀ r, KeepsSteady k s₀ p (m r)) : KeepsSteady k s₀ p (act (argfd p fd) >>= m) := by
  have hsee : KeepsSteady k s₀ p (act (argfd p fd)) := .lift fun s r s' hc hs => by
    cases hs
    exact hc
  exact .bind hsee h

theorem filelseek_within {offset : ℕ} {whence : ℤ} {r : Ret} (h : WithinFile s k)
    (hs : filelseek f offset whence s = .ok (r, s')) :
    WithinFile s' k ↔ (whence = 1 → (s.ftable f).type = .inode → (s.ftable f).ip = some k →
      offset ≤ (s.icache k).d.size →
      ((s.ftable f).off + offset) % 2 ^ 32 ≤ (s.icache k).d.size) := by
  unfold filelseek at hs
  split at hs
  next => cases hs
  next j hj =>
    dsimp only at hs
    split at hs
    next hlt =>
      cases hs
      refine iff_of_true h fun _ _ hk hle => ?_
      obtain rfl := Option.some.inj (hj.symm.trans hk)
      omega
    next hle =>
      -- the new offset, if the file is one of entry `k`
      have hset : ∀ {off : ℕ}, (j = k → off ≤ (s.icache k).d.size) →
          WithinFile (s.setFile f { s.ftable f with off := off }) k := fun hoff =>
        (h.steady.setOff fun _ hk => hoff (Option.some.inj (hj.symm.trans hk))).toWithinFile
      split at hs
      next h0 =>
        cases hs
        refine iff_of_true (hset ?_) fun h1 => by omega
        rintro rfl
        omega
      · split at hs
        next h1 =>
          cases hs
          constructor
          · intro h' _ ht hk _
            have hoff := h'.off f
            rw [setFile_ftable, update_self] at hoff
            exact hoff ht hk
          · intro hok
            refine (h.steady.setOff fun ht hk => hok h1 ht hk ?_).toWithinFile
            obtain rfl := Option.some.inj (hj.symm.trans hk)
            omega
        next h1 =>
          have hfree : whence ≠ 1 := h1
          split at hs
          · cases hs
            refine iff_of_true (hset ?_) fun h1 => absurd h1 hfree
            rintro rfl
            exact Nat.sub_le _ _
          · cases hs
            exact iff_of_true h fun h1 => absurd h1 hfree

/-! ## Calls -/

variable [DecidableEq P]

theorem iunlock_steady : KeepsSteady k s₀ p (iunlock p j) :=
  .lift fun s _ _ h hs => by
    split at hs
    · cases hs
    · cases hs
      exact h.setInode fun hj => ⟨hj ▸ h.valid, hj ▸ rfl⟩

theorem consoleWait_steady : KeepsSteady k s₀ p (consoleWait p j) :=
  .bind iunlock_steady fun _ => ilock_steady

theorem fileread_steady (piped : Ret) (con : Option (List UInt8)) :
    KeepsSteady k s₀ p (fileread sb p f n piped con) := by
  refine seeFile_steady fun fl hfl => ?_
  split
  · exact .ret fun _ h => h
  split
  next => exact .ret fun _ h => h
  next j ht hj =>
    rw [hj] at hfl
    refine .bind ilock_steady fun _ => seeCopy_steady fun d hd => ?_
    have hend : ∀ r : Ret, KeepsSteady k s₀ p (do iunlock p j; return r) := fun r =>
      Triple.bind iunlock_steady fun _ => .ret fun _ h => h
    split
    next hdev =>
      split
      · exact .bind consoleWait_steady fun _ =>
          Triple.bind (advance_steady hfl.symm (hd hdev)) fun _ => hend _
      · exact hend _
    · exact .bind (readAt_steady hfl.symm) fun _ => hend _
  next => exact KeepsSteady.fail _
  next => exact KeepsSteady.fail _

theorem filewriteLoop_steady (hj : (s₀.ftable f).ip = some j) (fuel : ℕ) (src : List UInt8) :
    KeepsSteady k s₀ p (filewriteLoop sb p f j fuel src) := by
  induction fuel generalizing src with
  | zero => exact .ret fun _ h => h
  | succ fuel ih =>
    unfold filewriteLoop
    split
    · exact .ret fun _ h => h
    refine .bind beginOp_steady fun _ => .bind ilock_steady fun _ =>
      seeCopy_steady fun d hd => ?_
    have hend : ∀ t : Task P Bool, KeepsSteady k s₀ p t →
        KeepsSteady k s₀ p (do iunlock p j; endOp; t) := fun t ht =>
      Triple.bind iunlock_steady fun _ => .bind endOp_steady fun _ => ht
    split
    next hdev =>
      split
      · exact .bind consoleWait_steady fun _ =>
          Triple.bind (advance_steady hj (hd hdev)) fun _ =>
            hend _ (.ite (fun _ => KeepsSteady.fail _) fun _ => ih _)
      · exact hend _ (.ret fun _ h => h)
    · refine .bind (writeAt_steady hj _) fun r => hend _ ?_
      cases r with
      | none => exact .ret fun _ h => h
      | some n => exact .ite (fun _ => KeepsSteady.fail _) fun _ => ih _

theorem filewrite_steady (src : List UInt8) (piped : Ret) :
    KeepsSteady k s₀ p (filewrite sb p f src piped) := by
  refine seeFile_steady fun fl hfl => ?_
  split
  · exact .ret fun _ h => h
  split
  next => exact .ret fun _ h => h
  next j ht hj =>
    rw [hj] at hfl
    exact .bind (filewriteLoop_steady hfl.symm _ _) fun _ => .ret fun _ h => h
  next => exact KeepsSteady.fail _
  next => exact KeepsSteady.fail _

theorem sysRead_steady (fd n : ℕ) (piped : Ret) (con : Option (List UInt8)) :
    KeepsSteady k s₀ p (sysRead sb p fd n piped con) := by
  refine argfd_steady fun r => ?_
  cases r with
  | none => exact .ret fun _ h => h
  | some f => exact fileread_steady piped con

theorem sysWrite_steady (fd : ℕ) (src : List UInt8) (piped : Ret) :
    KeepsSteady k s₀ p (sysWrite sb p fd src piped) := by
  refine argfd_steady fun r => ?_
  cases r with
  | none => exact .ret fun _ h => h
  | some f => exact filewrite_steady src piped

/-! ## Runs -/

def Call.isData : Call P → Bool
  | .read .. | .write .. | .lseek .. => true
  | _ => false

def SeekOk (k : ℕ) (s : Kernel P) : P × Call P → Prop
  | (p, .lseek fd offset whence) => whence = 1 → fd < NOFILE → ∀ f, (s.proc p).ofile fd = some f →
      (s.ftable f).type = .inode → (s.ftable f).ip = some k → offset ≤ (s.icache k).d.size →
      ((s.ftable f).off + offset) % 2 ^ 32 ≤ (s.icache k).d.size
  | _ => True

omit [DecidableEq P] in
theorem sysLseek_within {fd offset : ℕ} {whence : ℤ} {r : Ret} (h : WithinFile s k)
    (hr : (sysLseek p fd offset whence).run arbiter p s = .ok (r, s')) :
    WithinFile s' k ↔ SeekOk k s (p, .lseek fd offset whence) := by
  unfold sysLseek at hr
  rw [Prog.run_bind] at hr
  have hfile : (act (argfd p fd)).run arbiter p s =
      .ok (if fd < NOFILE then (s.proc p).ofile fd else none, s) := rfl
  rw [hfile] at hr
  cases hof : if fd < NOFILE then (s.proc p).ofile fd else none with
  | none =>
    rw [hof] at hr
    cases hr
    refine iff_of_true h fun _ hfd f hf => ?_
    rw [if_pos hfd, hf] at hof
    cases hof
  | some f =>
    rw [hof] at hr
    have hfd : fd < NOFILE := by
      by_contra hfd
      rw [if_neg hfd] at hof
      cases hof
    rw [if_pos hfd] at hof
    simp only [Except.bind, Prog.lift, Prog.run] at hr
    split at hr
    next r' t hseek =>
      cases hr
      rw [filelseek_within h hseek]
      constructor
      · intro hok h1 _ f' hf'
        obtain rfl := Option.some.inj (hof.symm.trans hf')
        exact hok h1
      · exact fun hok h1 => hok h1 hfd f hof
    next => cases hr

/-- **Offsets.** Starting with every offset within the regular file in entry `k`, and through any
calls of `read`, `write` and `lseek` that meet `SeekOk`, they stay there; and a call from there on
keeps them there exactly if it meets `SeekOk`. -/
theorem withinFile_of_reach {init : P} (h₀ : WithinFile s₀ k)
    (h : Lts.Reach (callStep sb init) (fun s l => l.2.isData = true ∧ SeekOk k s l) s₀ s) :
    WithinFile s k ∧ ∀ l s', l.2.isData = true → callStep sb init s l = some s' →
      (WithinFile s' k ↔ SeekOk k s l) := by
  have hstep : ∀ s s' l, WithinFile s k → Call.isData l.2 = true →
      callStep sb init s l = some s' → (WithinFile s' k ↔ SeekOk k s l) := by
    rintro s s' ⟨p, c⟩ hw hdata hs
    obtain ⟨-, r, hr⟩ := callStep_eq_some.mp hs
    cases c with
    | read fd n piped con =>
      exact iff_of_true (sysRead_steady fd n piped con s hw.steady r s' hr).toWithinFile trivial
    | write fd src piped =>
      exact iff_of_true (sysWrite_steady fd src piped s hw.steady r s' hr).toWithinFile trivial
    | lseek fd offset whence => exact sysLseek_within hw hr
    | _ => cases hdata
  have hw := h.invariant (I := fun s => WithinFile s k) h₀ fun s s' l hw hok hs =>
    (hstep s s' l hw hok.1 hs).mpr hok.2
  exact ⟨hw, fun l s' hdata hs => hstep s s' l hw hdata hs⟩

theorem withinFile_of_check [Fintype P] {init : P} {v : Volume}
    (h : Lts.Reach (callStep sb init) (fun _ _ => True) (boot v init) s)
    (hk : (s.icache k).valid = true ∧ (s.icache k).d.type = .file)
    (hoff : ∀ f < NFILE, (s.ftable f).type = .inode → (s.ftable f).ip = some k →
      (s.ftable f).off ≤ (s.icache k).d.size) : WithinFile s k := by
  have h₀ : SystemInv sb ∅ False False False (bootSystem v init) :=
    bootSystem_inv (w := ⟨fun _ => 0, 0⟩) False.elim False.elim False.elim False.elim False.elim
  obtain ⟨w, hI⟩ := callReach_inv False.elim h₀ h
  refine ⟨hk.1, hk.2, fun f ht hi => hoff f (hI.fbound f ?_) ht hi⟩
  by_contra h0
  rw [hI.fnone f (by omega)] at ht
  cases ht

def writeTen : List (Fin 1 × Call (Fin 1)) :=
  [(0, .open (some ([120], O_CREATE ||| O_RDWR))), (0, .write 0 (List.replicate 10 7) (.int 0))]

/-- Going back to offset 4, then forward by 5. -/
theorem withinFile_of_reach_seek : ∃ s₀ s s' : Kernel (Fin 1),
    Lts.Reach (callStep sb0 0) (fun _ _ => True) (boot bareDisk 0) s₀ ∧
    callStep sb0 0 s₀ (0, .lseek 0 4 0) = some s ∧ callStep sb0 0 s (0, .lseek 0 5 1) = some s' ∧
    (s'.ftable 0).off = 9 ∧ WithinFile s' 1 := by
  obtain ⟨s₀, -, h0, hq⟩ := Lts.exists_reach (callStep sb0 (0 : Fin 1)) (boot bareDisk 0) writeTen
    (fun s => ((s.icache 1).valid = true ∧ (s.icache 1).d.type = .file) ∧
      (∀ f < NFILE, (s.ftable f).type = .inode → (s.ftable f).ip = some 1 →
        (s.ftable f).off ≤ (s.icache 1).d.size) ∧
      (callStep sb0 0 s (0, .lseek 0 4 0)).any fun s =>
        ((s.proc 0).ofile 0 = some 0 ∧ (s.ftable 0).off = 4 ∧ (s.icache 1).d.size = 10) ∧
        (callStep sb0 0 s (0, .lseek 0 5 1)).any fun s => (s.ftable 0).off = 9)
    (by decide +kernel) (Lts.RunOk.trivial _ _)
  obtain ⟨hk, hoff, hback⟩ := of_decide_eq_true hq
  obtain ⟨s, hs, hq⟩ := (Option.any_eq_true _ _).mp hback
  obtain ⟨⟨hfd, h4, hsize⟩, hforth⟩ := of_decide_eq_true hq
  obtain ⟨s', hs', h9⟩ := (Option.any_eq_true _ _).mp hforth
  have hreach : Lts.Reach (callStep sb0 0) (fun s l => l.2.isData = true ∧ SeekOk 1 s l) s₀ s :=
    Lts.Reach.refl.tail (l := (0, .lseek 0 4 0)) ⟨rfl, fun h => absurd h (by decide)⟩ hs
  have hnext := (withinFile_of_reach (withinFile_of_check h0 hk hoff) hreach).2 _ s' rfl hs'
  refine ⟨s₀, s, s', h0, hs, hs', of_decide_eq_true h9, hnext.mpr ?_⟩
  intro _ _ f hf _ _ _
  obtain rfl := Option.some.inj (hfd.symm.trans hf)
  rw [h4, hsize]
  decide

/-- **Beyond the end.** `lseek(fd, 10, SEEK_CUR)` at the end of a file of 10 bytes takes the offset
to 20. -/
theorem lseek_past_end : ∃ s₀ s : Kernel (Fin 1),
    Lts.Reach (callStep sb0 0) (fun _ _ => True) (boot bareDisk 0) s₀ ∧ WithinFile s₀ 1 ∧
    callStep sb0 0 s₀ (0, .lseek 0 10 1) = some s ∧ (s.ftable 0).type = .inode ∧
    (s.ftable 0).ip = some 1 ∧ (s.icache 1).d.size < (s.ftable 0).off := by
  obtain ⟨s₀, -, h0, hq⟩ := Lts.exists_reach (callStep sb0 (0 : Fin 1)) (boot bareDisk 0) writeTen
    (fun s => ((s.icache 1).valid = true ∧ (s.icache 1).d.type = .file) ∧
      (∀ f < NFILE, (s.ftable f).type = .inode → (s.ftable f).ip = some 1 →
        (s.ftable f).off ≤ (s.icache 1).d.size) ∧
      (callStep sb0 0 s (0, .lseek 0 10 1)).any fun s => (s.ftable 0).type = .inode ∧
        (s.ftable 0).ip = some 1 ∧ (s.icache 1).d.size < (s.ftable 0).off)
    (by decide +kernel) (Lts.RunOk.trivial _ _)
  obtain ⟨hk, hoff, hseek⟩ := of_decide_eq_true hq
  obtain ⟨s, hs, hbad⟩ := (Option.any_eq_true _ _).mp hseek
  exact ⟨s₀, s, h0, withinFile_of_check h0 hk hoff, hs, of_decide_eq_true hbad⟩

end Xv6.Fs
