import Xv6.Vm.Grow
import Xv6.Vm.Stack

/-!
# `exec` is all or nothing

An access through an absent page table is taken for a failed `copyout` here: `null` yields the entry
0.

1. `makeStack` returns whatever the arguments are: the new image with its stack, or all pages of the
   image back on the free list.
2. `execWith_spec`: with the result -1 nothing has changed but the order of the free list; with the
   result 0 the new address space is installed and the pages of the old one are free. In both cases
   the inode and the transaction are released.
-/

namespace Xv6.Vm

open StateExcept Function

variable {img : KernelImage} {m m' : Mem} {L L' : List ℕ} {Z : Multiset ℕ} {d sz p : ℕ}

/-! ## The stack -/

theorem uva2ka_zero {k : ℕ} (hk : k < VPAGES) :
    uva2ka img (pure 0) d (k * PGSIZE) m =
      .ok (if Present (pte m d k) ∧ User (pte m d k) then pageOf (pte m d k) else 0, m) := by
  by_cases hpd : Present (pde m d (k / 1024))
  · exact uva2ka_eq img _ hk hpd
  have hwalk := walk_page img m d hk
  rw [if_neg hpd] at hwalk
  have hload : loadPte img (pure 0) d (k * PGSIZE) m = .ok (0, m) := by
    unfold loadPte
    rw [bind_eq hwalk]
    rfl
  unfold uva2ka
  rw [bind_eq hload, pte_of_not hpd, if_pos not_present_zero, if_neg fun h => not_present_zero h.1]
  rfl

structure Kept (m : Mem) (L : List ℕ) (m' : Mem) (d : ℕ) : Prop where
  pde : pde m' d = pde m d
  pte : pte m' d = pte m d
  moved : Moved m L (space m d) m' L (space m' d)

theorem Kept.refl (hp : Pool img m L (space m d)) : Kept m L m d := ⟨rfl, rfl, .refl hp.chain⟩

theorem Kept.trans {m'' : Mem} (h : Kept m L m' d) (h' : Kept m' L m'' d) : Kept m L m'' d :=
  ⟨h'.pde.trans h.pde, h'.pte.trans h.pte, h.moved.trans h'.moved⟩

theorem Stored.kept {lo hi : ℕ} {f : ℕ → UInt8} (h : Stored m m' d lo hi f)
    (hp : Pool img m L (space m d)) (hhi : hi ≤ UPAGES * PGSIZE) : Kept m L m' d :=
  ⟨h.pde, h.pte, h.moved_space hp (npages_le.mpr hhi)⟩

def Accessible (m : Mem) (d x : ℕ) : Prop :=
  Present (pte m d (x / PGSIZE)) ∧ User (pte m d (x / PGSIZE))

theorem copyout_total (fuel : ℕ) {va : ℕ} (bytes : List UInt8) (hp : Pool img m L (space m d))
    (hker : ∀ k, UPAGES ≤ k → ¬ User (pte m d k)) (hva : va < 2 ^ 32)
    (hfuel : bytes.length ≤ fuel) :
    ∃ r m', copyout img (pure 0) d fuel va bytes m = .ok (r, m') ∧ Kept m L m' d ∧
      (r = true → ∀ i < bytes.length, Accessible m d ((va + i) % 2 ^ 32)) := by
  induction fuel generalizing m va bytes with
  | zero => exact ⟨true, m, rfl, .refl hp, fun _ i hi => by omega⟩
  | succ fuel ih =>
    by_cases hb : bytes = []
    · subst hb
      exact ⟨true, m, by rw [copyout_nil]; rfl, .refl hp, fun _ i hi => by simp at hi⟩
    by_cases hu : Accessible m d va
    swap
    · refine ⟨false, m, ?_, .refl hp, nofun⟩
      unfold Accessible at hu
      unfold copyout
      rw [if_neg hb, rounddown_eq, bind_eq (uva2ka_zero (page_lt hva)), if_neg hu, if_pos rfl]
      rfl
    have hkU : va / PGSIZE < UPAGES := not_le.mp fun hle => hker _ hle hu.2
    obtain ⟨n, m1, hn, -, hpage, hnext, hstep, hst⟩ :=
      copyout_page (pure 0) fuel hp hb hkU hu.1 hu.2
    have hkept : Kept m L m1 d := hst.kept hp (by unfold UPAGES PGSIZE at *; omega)
    obtain ⟨r, m', hrun, hkept', hacc⟩ := @ih m1 ((va / PGSIZE * PGSIZE + PGSIZE) % 2 ^ 32)
      (bytes.drop n) (hp.moved hkept.moved) (by rwa [hst.pte]) (Nat.mod_lt _ (by norm_num))
      (by rw [List.length_drop]; omega)
    refine ⟨r, m', hstep.trans hrun, hkept.trans hkept', fun hr i hi => ?_⟩
    -- the address is on this page, or among the rest
    by_cases hin : i < n
    · have hsame : (va + i) % 2 ^ 32 / PGSIZE = va / PGSIZE := by
        unfold UPAGES PGSIZE at *
        omega
      unfold Accessible
      rw [hsame]
      exact hu
    · have hrest := hacc hr (i - n) (by rw [List.length_drop]; omega)
      have haddr : ((va / PGSIZE * PGSIZE + PGSIZE) % 2 ^ 32 + (i - n)) % 2 ^ 32 =
          (va + i) % 2 ^ 32 := by
        rw [← hnext (by omega)]
        omega
      unfold Accessible at hrest ⊢
      rwa [hst.pte, haddr] at hrest

theorem pushed_lt (sp n : ℕ) : pushed sp n < 2 ^ 32 := by
  unfold pushed
  omega

theorem framePtr_lt (sp n : ℕ) : framePtr sp n < 2 ^ 32 := Nat.mod_lt _ (by norm_num)

theorem pushArgs_total (args : List (List UInt8)) (sp : ℕ) (ustack : List ℕ)
    (hp : Pool img m L (space m d)) (hker : ∀ k, UPAGES ≤ k → ¬ User (pte m d k)) :
    ∃ o m', pushArgs img (pure 0) d args sp ustack m = .ok (o, m') ∧ Kept m L m' d := by
  induction args generalizing m sp ustack with
  | nil => exact ⟨_, m, rfl, .refl hp⟩
  | cons a args ih =>
    unfold pushArgs
    by_cases hus : MAXARG ≤ ustack.length
    · rw [if_pos hus]
      exact ⟨none, m, rfl, .refl hp⟩
    obtain ⟨r, m1, hrun, hkept, -⟩ := copyout_total (a.length + 1) (a ++ [0])
      hp hker (pushed_lt sp (a.length + 1)) (by simp)
    rw [if_neg hus, bind_eq hrun]
    cases r with
    | false => exact ⟨none, m1, rfl, hkept⟩
    | true =>
      obtain ⟨o, m', hrun', hkept'⟩ := ih (pushed sp (a.length + 1))
        (ustack ++ [pushed sp (a.length + 1)]) (hp.moved hkept.moved)
        (by rwa [hkept.pte])
      exact ⟨o, m', hrun', hkept.trans hkept'⟩

theorem pushStack_total (sz : ℕ) (argv : List (List UInt8)) (hp : Pool img m L (space m d))
    (hker : ∀ k, UPAGES ≤ k → ¬ User (pte m d k)) :
    ∃ o m', pushStack img (pure 0) d argv sz m = .ok (o, m') ∧ Kept m L m' d := by
  obtain ⟨o, m1, hrun, hkept⟩ := pushArgs_total argv sz [] hp hker
  unfold pushStack
  rw [bind_eq hrun]
  cases o with
  | none => exact ⟨none, m1, rfl, hkept⟩
  | some q =>
    obtain ⟨r, m', hrun', hkept', -⟩ := copyout_total (frame q.1 q.2).length
      (frame q.1 q.2) (hp.moved hkept.moved)
      (by rwa [hkept.pte]) (framePtr_lt q.1 q.2.length) le_rfl
    dsimp only
    rw [bind_eq hrun']
    cases r with
    | false => exact ⟨none, m', rfl, hkept.trans hkept'⟩
    | true => exact ⟨_, m', rfl, hkept.trans hkept'⟩

theorem makeStack_spec (argv : List (List UInt8)) (h : Image img m L d sz) :
    ∃ o m' L', makeStack img (pure 0) d sz argv m = .ok (o, m') ∧
      (o = none → Moved m L (space m d) m' L' 0) ∧
      (o ≠ none → Moved m L (space m d) m' L' (space m' d)) := by
  obtain ⟨o, m1, L1, hrun, hmv, hst, -⟩ := allocStack_spec h
  unfold makeStack
  rw [bind_eq hrun]
  cases o with
  | none =>
    obtain ⟨m', L', hfree, hmv'⟩ := freevm_spec (h.pool.moved hmv)
    refine ⟨none, m', L', bind_eq hfree, fun _ => hmv.trans hmv', fun h => absurd rfl h⟩
  | some sz' =>
    obtain ⟨-, hS, -⟩ := hst sz' rfl
    obtain ⟨o, m2, hrun2, hkept⟩ := pushStack_total sz' argv hS.pool
      fun k hk => hS.kernel.not_user hk
    dsimp only
    rw [bind_eq hrun2]
    cases o with
    | none =>
      obtain ⟨m', L', hfree, hmv'⟩ := freevm_spec (hS.pool.moved hkept.moved)
      refine ⟨none, m', L', bind_eq hfree, fun _ => hmv.trans (hkept.moved.trans hmv'),
        fun h => absurd rfl h⟩
    | some sp => exact ⟨some (sz', sp), m2, L1, rfl, nofun, fun _ => hmv.trans hkept.moved⟩

/-! ## The call -/

theorem onMem_eq {α : Type} {s : Kernel} {a : α} {f : MemM α} (h : f s.mem = .ok (a, m')) :
    onMem f s = .ok (a, { s with mem := m' }) := by
  unfold onMem
  rw [h]

def execCalls : Option (ℕ × ReadFile) → List FsCall
  | none => [.endOp, .beginOp]
  | some (ip, _) => [.endOp, .iunlockput ip, .ilock ip, .namei ip, .beginOp]

/-- `exec` returned -1: the processes, the files and every page that is held are as before, and the
same pages are free. -/
structure ExecFailed (s : Kernel) (L : List ℕ) (X : Multiset ℕ) (file : Option (ℕ × ReadFile))
    (s' : Kernel) : Prop where
  proc : s'.proc = s.proc
  ftable : s'.ftable = s.ftable
  fs : s'.fs = execCalls file ++ s.fs
  page : ∀ v ∈ X, s'.mem.page v = s.mem.page v
  free : ∃ L', Free s'.mem L' ∧ (L' : Multiset ℕ) = L

/-- `exec` returned 0: the process has the address space of the directory `d`, made of pages that
were free or held by the old one, and the pages of the old one are free. -/
structure ExecDone (img : KernelImage) (s : Kernel) (p : ℕ) (path : List UInt8) (L : List ℕ)
    (Z : Multiset ℕ) (file : Option (ℕ × ReadFile)) (s' : Kernel) : Prop where
  proc : ∃ d sz eip esp, s'.proc = update s.proc p
    { s.proc p with pgdir := d, sz := sz, eip := eip, esp := esp
                    name := (lastElem path path).take 15 }
  ftable : s'.ftable = s.ftable
  fs : s'.fs = execCalls file ++ s.fs
  page : ∀ v ∈ Z, s'.mem.page v = s.mem.page v
  free : ∃ L', Pool img s'.mem L' (space s'.mem (s'.proc p).pgdir + Z) ∧
    space s.mem (s.proc p).pgdir ≤ L' ∧
    (L' : Multiset ℕ) + space s'.mem (s'.proc p).pgdir = L + space s.mem (s.proc p).pgdir

/-- The address space that the process has now is the one that `loadProgram` and `makeStack` made,
and its pages are as they left them. -/
def Installed (img : KernelImage) (s : Kernel) (p : ℕ) (file : ReadFile) (argv : List (List UInt8))
    (s' : Kernel) : Prop :=
  ∃ sz m₁ m₂, loadProgram img file s.mem = .ok (some ((s'.proc p).pgdir, sz), m₁) ∧
    makeStack img (pure 0) (s'.proc p).pgdir sz argv m₁ =
      .ok (some ((s'.proc p).sz, (s'.proc p).esp), m₂) ∧
    ∀ v ∈ space m₂ (s'.proc p).pgdir, s'.mem.page v = m₂.page v

section Call

variable {s : Kernel} {X : Multiset ℕ} {file : Option (ℕ × ReadFile)}

theorem ExecFailed.of_moved {s' : Kernel} (hp : Pool img s.mem L X)
    (hmv : Moved s.mem L 0 s'.mem L' 0) (hproc : s'.proc = s.proc) (hft : s'.ftable = s.ftable)
    (hfs : s'.fs = execCalls file ++ s.fs) : ExecFailed s L X file s' := by
  refine ⟨hproc, hft, hfs, fun v hv => ?_, L', hmv.chain, ?_⟩
  · rw [← zero_add X] at hp
    exact hp.frame hmv hv
  · have hsame := hmv.same
    rwa [add_zero, add_zero] at hsame

theorem freevm_old {o : ℕ} (hp : Pool img m L (space m o + Z))
    (hmv : Moved m L 0 m' L' (space m' d)) :
    ∃ m'' L'', freevm img o m' = .ok ((), m'') ∧ (∀ v ∈ Z, m''.page v = m.page v) ∧
      (∀ v ∈ space m' d, m''.page v = m'.page v) ∧ Pool img m'' L'' (space m'' d + Z) ∧
      space m o ≤ L'' ∧ (L'' : Multiset ℕ) + space m'' d = L + space m o := by
  have hp0 : Pool img m L (0 + (space m o + Z)) := by rwa [zero_add]
  have hold : space m' o = space m o :=
    space_frame fun v hv => hp0.frame hmv (Multiset.mem_add.mpr (.inl hv))
  have hp' : Pool img m' L' (space m' o + (space m' d + Z)) := by
    have h := hp0.moved_add hmv
    rwa [← hold, add_left_comm] at h
  obtain ⟨m'', L'', hfree, hmv'⟩ := freevm_spec hp'.left
  have hkept : ∀ v ∈ space m' d, m''.page v = m'.page v :=
    fun v hv => hp'.frame hmv' (Multiset.mem_add.mpr (.inl hv))
  have hnew : space m'' d = space m' d := space_frame hkept
  have hL : (L'' : Multiset ℕ) = L' + space m o := by
    have h := hmv'.same
    rwa [add_zero, hold] at h
  refine ⟨m'', L'', hfree, fun v hv => ?_, hkept, ?_, ?_, ?_⟩
  · have h1 := hp'.frame hmv' (Multiset.mem_add.mpr (.inr hv))
    have h2 := hp0.frame hmv (Multiset.mem_add.mpr (.inr hv))
    exact h1.trans h2
  · have h := hp'.moved_add hmv'
    rwa [zero_add, ← hnew] at h
  · rw [hL]
    exact Multiset.le_add_left _ _
  · have h := hmv.same
    rw [add_zero] at h
    rw [hL, hnew, add_right_comm, h]

theorem execWith_spec (path : List UInt8) (argv : List (List UInt8))
    (hp : Pool img s.mem L (space s.mem (s.proc p).pgdir + Z)) :
    Returns (execWith img (pure 0) p path file argv) s fun r s' =>
      if r then ExecDone img s p path L Z file s' ∧
        ∃ ip f, file = some (ip, f) ∧ Installed img s p f argv s'
      else ExecFailed s L (space s.mem (s.proc p).pgdir + Z) file s' ∧
        ∀ ip f d sz m1, file = some (ip, f) → loadProgram img f s.mem = .ok (some (d, sz), m1) →
          ∃ m2, makeStack img (pure 0) d sz argv m1 = .ok (none, m2) := by
  unfold execWith
  refine .bind_left rfl ?_
  cases file with
  | none =>
    refine .bind_left rfl ?_
    exact .pure ⟨.of_moved hp (.refl hp.chain) rfl rfl rfl, nofun⟩
  | some f =>
    obtain ⟨ip, file⟩ := f
    obtain ⟨o, m1, L1, hload, hbad, hgood⟩ := loadProgram_spec file hp
    refine .bind_left rfl (.bind_left rfl (.bind_left (onMem_eq hload) ?_))
    cases o with
    | none =>
      refine .bind_left rfl (.bind_left rfl ?_)
      refine .pure ⟨.of_moved hp (hbad rfl) rfl rfl rfl, ?_⟩
      rintro ip' f' d sz m' ⟨⟩ hload'
      cases hload.symm.trans hload'
    | some q =>
      obtain ⟨d, sz⟩ := q
      obtain ⟨-, hmv, himg, -⟩ := hgood d sz rfl
      obtain ⟨o, m2, L2, hstack, hbad, hgood⟩ := makeStack_spec argv himg
      refine .bind_left rfl (.bind_left rfl (.bind_left (onMem_eq hstack) ?_))
      cases o with
      | none =>
        refine .pure ⟨.of_moved hp (hmv.trans (hbad rfl)) rfl rfl rfl, ?_⟩
        rintro ip' f' d' sz' m' ⟨⟩ hload'
        cases hload.symm.trans hload'
        exact ⟨m2, hstack⟩
      | some q =>
        obtain ⟨sz', sp⟩ := q
        obtain ⟨m3, L3, hfree, hpage, hkept, hpool, hle, hsame⟩ :=
          freevm_old hp (hmv.trans (hgood (Option.some_ne_none _)))
        let t : Kernel := { s with mem := m2, fs := execCalls (some (ip, file)) ++ s.fs }
        let u := t.setProc p { t.proc p with name := (lastElem path path).take 15 }
        let v := u.setProc p { u.proc p with
          pgdir := d, sz := sz', eip := (ofBytes (file 0 ELFHDRSZ)).word 6, esp := sp }
        have hu : u.proc p = { s.proc p with name := (lastElem path path).take 15 } :=
          update_self _ _ _
        have hv : v.proc = update s.proc p { s.proc p with
            pgdir := d, sz := sz', eip := (ofBytes (file 0 ELFHDRSZ)).word 6, esp := sp
            name := (lastElem path path).take 15 } := by
          have h : v.proc = update s.proc p { u.proc p with
              pgdir := d, sz := sz', eip := (ofBytes (file 0 ELFHDRSZ)).word 6, esp := sp } :=
            update_idem _ _ _
          rw [h, hu]
        have hnew : v.proc p = { s.proc p with
            pgdir := d, sz := sz', eip := (ofBytes (file 0 ELFHDRSZ)).word 6, esp := sp
            name := (lastElem path path).take 15 } := by
          rw [hv, update_self]
        have hd : (v.proc p).pgdir = d := by rw [hnew]
        have hinst : Installed img s p file argv { v with mem := m3 } := by
          unfold Installed
          show ∃ sz m1 m2, loadProgram img file s.mem = .ok (some ((v.proc p).pgdir, sz), m1) ∧
            makeStack img (pure 0) (v.proc p).pgdir sz argv m1 =
              .ok (some ((v.proc p).sz, (v.proc p).esp), m2) ∧
            ∀ u ∈ space m2 (v.proc p).pgdir, m3.page u = m2.page u
          rw [hnew]
          exact ⟨sz, m1, m2, hload, hstack, hkept⟩
        have hold : (u.proc p).pgdir = (s.proc p).pgdir := by rw [hu]
        rw [← hold] at hfree
        rw [← hd] at hpool hsame
        show Returns _ t _
        refine .bind_left rfl (.bind_left rfl (.bind_left rfl (.bind_left (onMem_eq hfree) ?_)))
        exact .pure ⟨⟨⟨d, sz', _, sp, hv⟩, rfl, rfl, hpage, L3, hpool, hle, hsame⟩, ip, file, rfl,
          hinst⟩

/-- **`exec` is all or nothing.** `Z` are the pages of the other processes and of the kernel. -/
theorem execWith_all_or_nothing {path : List UInt8} {argv : List (List UInt8)}
    (hp : Pool img s.mem L (space s.mem (s.proc p).pgdir + Z)) :
    Returns (execWith img (pure 0) p path file argv) s fun r s' =>
      if r then ExecDone img s p path L Z file s'
      else ExecFailed s L (space s.mem (s.proc p).pgdir + Z) file s' := by
  refine (execWith_spec path argv hp).mono fun r s' h => ?_
  cases r with
  | false => exact h.1
  | true => exact h.1

end Call

end Xv6.Vm
