import Xv6.Vm.Image

/-!
# The arguments on the new stack

`exec` pushes the argument strings with `copyout`, below a stack pointer that it moves down in
32-bit arithmetic by lengths that the caller chooses.

1. One push (`push_fits`, `push_below`, `push_wrap`): a string that fits into the stack page is
   stored; one that does not is stopped by the page below, or wraps around to addresses above
   `KERNBASE`, where the process has access to nothing. If there is no page table at that address,
   `uva2ka` loads through the null pointer.
2. `Inside`: a call of `copyout` writes only to pages that are accessible in the new address space,
   and makes no such load. `CopyoutCall`: the calls that `exec` makes.
3. `copyout_inside_iff`: all calls are inside exactly if no string misses both ends of the kernel's
   part (`ArgsSafe`); `long_argument_null` is one that does.
-/

namespace Xv6.Vm

open StateExcept

variable {img : KernelImage} {m m' : Mem} {L L' : List ℕ} {X : Multiset ℕ} {d sz sp : ℕ}
  {null : MemM ℕ} {bytes : List UInt8}

/-! ## One push -/

/-- `sp - n` wraps around to an address between the kernel's memory and its devices. -/
def Misses (sp n : ℕ) : Prop := sp + 0x2000000 < n ∧ n ≤ sp + 0x72000000

instance (sp n : ℕ) : Decidable (Misses sp n) :=
  inferInstanceAs (Decidable (sp + 0x2000000 < n ∧ n ≤ sp + 0x72000000))

theorem pushed_eq {n : ℕ} (h : n ≤ sp) (hsp : sp < 2 ^ 32) : pushed sp n = (sp - n) / 4 * 4 := by
  unfold pushed
  omega

theorem pushed_wrap {n : ℕ} (h : sp < n) (hn : n ≤ KERNBASE) :
    KERNBASE ≤ pushed sp n ∧ pushed sp n < 2 ^ 32 ∧
      (KernelTable (pushed sp n / PGSIZE / 1024) ↔ ¬ Misses sp n) := by
  unfold pushed KernelTable Misses KERNBASE PGSIZE at *
  omega

namespace Stacked

theorem kernel_table (h : Stacked img m L d sz) {j : ℕ} (hj : UPAGES ≤ j) :
    Present (pde m d (j / 1024)) ↔ KernelTable (j / 1024) := by
  have hU := npages_le_UPAGES h.lt.le
  constructor
  · intro hp
    rcases h.tables _ hp with hlt | hk
    · unfold UPAGES at *
      omega
    · exact hk
  · intro hk
    obtain ⟨r, hr, hc⟩ := covers_of_kernelTable img hk
    refine (present_pde ?_).2
    rw [h.kernel.row r hr j hc]
    exact present_mapEntry _ _

theorem copyout_spec (null : MemM ℕ) (h : Stacked img m L d sz) {va : ℕ}
    (hle : va + bytes.length ≤ sz) :
    ∃ n m', n ≤ bytes.length ∧
      copyout img null d bytes.length va bytes m = .ok (decide (n = bytes.length), m') ∧
      Stored m m' d va (va + n) (fun x => bytes.getD (x - va) 0) ∧
      (∀ x, va ≤ x → x < va + n → User (pte m d (x / PGSIZE))) ∧
      (n < bytes.length → ¬ User (pte m d ((va + n) / PGSIZE))) ∧ (n = 0 → m' = m) := by
  have hlt := h.lt
  refine Vm.copyout_spec null h.pool le_rfl ?_ fun k _ hk => (h.exact k ?_).mpr (by omega)
  · unfold KERNBASE UPAGES PGSIZE at *
    omega
  · unfold KERNBASE UPAGES PGSIZE at *
    omega

theorem npages_le (h : Stacked img m L d sz) {hi : ℕ} (hhi : hi ≤ sz) : npages hi ≤ UPAGES :=
  npages_le_UPAGES (hhi.trans h.lt.le)

theorem user_iff (h : Stacked img m L d sz) {x : ℕ} (hx : x < sz) :
    User (pte m d (x / PGSIZE)) ↔ x < sz - 2 * PGSIZE ∨ sz - PGSIZE ≤ x := by
  have h1 := h.aligned
  have h2 := h.two
  rw [h.user (x / PGSIZE) (lt_of_le_of_lt (Nat.div_mul_le_self ..) hx)]
  unfold PGSIZE at *
  omega

theorem push_fits (h : Stacked img m L d sz) {va : ℕ} (hva : sz - PGSIZE ≤ va)
    (hle : va + bytes.length ≤ sz) :
    ∃ m', copyout img null d bytes.length va bytes m = .ok (true, m') ∧
      Stored m m' d va (va + bytes.length) (fun x => bytes.getD (x - va) 0) := by
  obtain ⟨n, m', hn, hrun, hst, -, hstop, -⟩ := h.copyout_spec null hle
  have hall : n = bytes.length := by
    by_contra hne
    have hlt : n < bytes.length := by omega
    exact hstop hlt ((h.user_iff (by omega)).mpr (.inr (by omega)))
  rw [hall, decide_eq_true rfl] at hrun
  exact ⟨m', hrun, hall ▸ hst⟩

theorem push_below (null : MemM ℕ) (h : Stacked img m L d sz) (hb : bytes ≠ []) {va : ℕ}
    (hva : va < sz - PGSIZE) (hle : va + bytes.length ≤ sz)
    (hend : sz - 2 * PGSIZE < va + bytes.length) :
    ∃ m', copyout img null d bytes.length va bytes m = .ok (false, m') := by
  have h2 := h.two
  have hpos := List.length_pos_iff.mpr hb
  obtain ⟨n, m', hn, hrun, -, huser, -, -⟩ := h.copyout_spec null hle
  refine ⟨m', ?_⟩
  rw [hrun, decide_eq_false]
  rintro rfl
  -- a byte of the string is in the page below the stack page
  have hx := huser (max va (sz - 2 * PGSIZE)) (le_max_left ..) (by omega)
  rw [h.user_iff (by unfold PGSIZE at *; omega)] at hx
  unfold PGSIZE at *
  omega

theorem push_wrap (sp : ℕ) (bytes : List UInt8) (h : Stacked img m L d sz) (hb : bytes ≠ [])
    (hsp : sp < bytes.length) (hlen : bytes.length ≤ KERNBASE) :
    copyout img (throw .null) d bytes.length (pushed sp bytes.length) bytes m =
      if Misses sp bytes.length then .error .null else .ok (false, m) := by
  obtain ⟨hlow, hhigh, htab⟩ := pushed_wrap hsp hlen
  obtain ⟨fuel, hfuel⟩ := Nat.exists_eq_succ_of_ne_zero (List.length_pos_iff.mpr hb).ne'
  have hU : UPAGES ≤ pushed sp bytes.length / PGSIZE := by
    unfold KERNBASE UPAGES PGSIZE at *
    omega
  have hpd := (h.kernel_table hU).trans htab
  generalize hva : pushed sp bytes.length = va at *
  rw [hfuel] at hva ⊢
  by_cases hm : Misses sp bytes.length
  · rw [if_pos (hfuel ▸ hm)]
    exact copyout_null hb hhigh fun hp => hpd.mp hp hm
  · rw [if_neg (hfuel ▸ hm)]
    exact copyout_stop hb hhigh (hpd.mpr hm) fun hu => h.kernel.not_user hU hu.2

theorem push_cases (bytes : List UInt8) (h : Stacked img m L d sz) (hb : bytes ≠ [])
    (hlow : sz - PGSIZE ≤ sp) (hsp : sp ≤ sz) (hlen : bytes.length ≤ KERNBASE) :
    (bytes.length ≤ sp ∧ sz - PGSIZE ≤ pushed sp bytes.length ∧
        pushed sp bytes.length + bytes.length ≤ sz ∧ ¬ Misses sp bytes.length ∧
        ∃ m', copyout img (throw .null) d bytes.length (pushed sp bytes.length) bytes m =
            .ok (true, m') ∧
          Stored m m' d (pushed sp bytes.length) (pushed sp bytes.length + bytes.length)
            (fun x => bytes.getD (x - pushed sp bytes.length) 0)) ∨
      (¬ (bytes.length ≤ sp ∧ sz - PGSIZE ≤ pushed sp bytes.length) ∧ ¬ Misses sp bytes.length ∧
        ∃ m', copyout img (throw .null) d bytes.length (pushed sp bytes.length) bytes m =
            .ok (false, m') ∧
          (pushed sp bytes.length + bytes.length ≤ sz ∨ m' = m)) ∨
      sp < bytes.length ∧ Misses sp bytes.length ∧
        copyout img (throw .null) d bytes.length (pushed sp bytes.length) bytes m =
          .error .null := by
  have hlt := h.lt
  have h2 := h.two
  have hpos := List.length_pos_iff.mpr hb
  by_cases hle : bytes.length ≤ sp
  · have hnm : ¬ Misses sp bytes.length := fun hm => by
      unfold Misses at hm
      omega
    have heq := pushed_eq hle (by unfold KERNBASE at hlt; omega)
    have hend : pushed sp bytes.length + bytes.length ≤ sz := by omega
    by_cases hfit : sz - PGSIZE ≤ pushed sp bytes.length
    · exact .inl ⟨hle, hfit, hend, hnm, h.push_fits hfit hend⟩
    · refine .inr (.inl ⟨fun hc => hfit hc.2, hnm, ?_⟩)
      obtain ⟨m', hrun⟩ := h.push_below (throw .null) hb (not_le.mp hfit) hend
        (by unfold PGSIZE at *; omega)
      exact ⟨m', hrun, .inl hend⟩
  · have hrun := h.push_wrap sp bytes hb (not_le.mp hle) hlen
    by_cases hm : Misses sp bytes.length
    · rw [if_pos hm] at hrun
      exact .inr (.inr ⟨not_le.mp hle, hm, hrun⟩)
    · rw [if_neg hm] at hrun
      exact .inr (.inl ⟨fun hc => hle hc.1, hm, m, hrun, .inr rfl⟩)

end Stacked

/-! ## The calls -/

/-- The call of `copyout` returns, with no load through the null pointer, and the pages that it has
changed are present and accessible to the process. -/
def Inside (img : KernelImage) (d va : ℕ) (bytes : List UInt8) (m : Mem) : Prop :=
  ∃ r m', copyout img (throw .null) d bytes.length va bytes m = .ok (r, m') ∧
    ∀ v, m'.page v ≠ m.page v →
      ∃ k < UPAGES, Present (pte m d k) ∧ User (pte m d k) ∧ pageOf (pte m d k) = v

def Prepared (img : KernelImage) (file : ReadFile) (m : Mem) (d sz : ℕ) (m₁ : Mem) : Prop :=
  ∃ sz₀ m₀, loadProgram img file m = .ok (some (d, sz₀), m₀) ∧
    allocStack img d sz₀ m₀ = .ok (some sz, m₁)

/-- In memory `m₂`, `exec` calls `copyout` with these bytes: for an argument, when the ones before
it have been pushed, or for the frame. -/
inductive CopyoutCall (img : KernelImage) (file : ReadFile) (argv : List (List UInt8)) (m : Mem) :
    ℕ → ℕ → List UInt8 → Mem → Prop
  | arg {d sz sp i : ℕ} {m₁ m₂ : Mem} {ustack : List ℕ} {a : List UInt8}
      (hprep : Prepared img file m d sz m₁) (ha : argv[i]? = some a)
      (hpush : pushArgs img (throw .null) d (argv.take i) sz [] m₁ = .ok (some (sp, ustack), m₂)) :
      CopyoutCall img file argv m d (pushed sp (a.length + 1)) (a ++ [0]) m₂
  | frame {d sz sp : ℕ} {m₁ m₂ : Mem} {ustack : List ℕ} (hprep : Prepared img file m d sz m₁)
      (hpush : pushArgs img (throw .null) d argv sz [] m₁ = .ok (some (sp, ustack), m₂)) :
      CopyoutCall img file argv m d (framePtr sp ustack.length) (frame sp ustack) m₂

def ArgsSafe (sz : ℕ) : ℕ → List (List UInt8) → Prop
  | _, [] => True
  | sp, a :: args =>
    ¬ Misses sp (a.length + 1) ∧
      (a.length + 1 ≤ sp ∧ sz - PGSIZE ≤ pushed sp (a.length + 1) →
        ArgsSafe sz (pushed sp (a.length + 1)) args)

theorem Prepared.stacked {file : ReadFile} (hp : Pool img m L X) {m1 : Mem}
    (h : Prepared img file m d sz m1) : ∃ L', Stacked img m1 L' d sz := by
  obtain ⟨sz0, m0, hload, hstack⟩ := h
  obtain ⟨o, m', L0, hrun, -, himg⟩ := loadProgram_spec file hp
  obtain ⟨rfl, rfl⟩ := Prod.mk.inj (Except.ok.inj (hload.symm.trans hrun))
  obtain ⟨-, -, hI, -⟩ := himg d sz0 rfl
  obtain ⟨o, m', L', hrun', -, hst, -⟩ := allocStack_spec hI
  obtain ⟨rfl, rfl⟩ := Prod.mk.inj (Except.ok.inj (hstack.symm.trans hrun'))
  exact ⟨L', (hst sz rfl).2.1⟩

theorem Stacked.inside (h : Stacked img m L d sz) {va : ℕ} (hle : va + bytes.length ≤ sz) :
    Inside img d va bytes m := by
  obtain ⟨n, m', hn, hrun, hst, huser, -, hzero⟩ := h.copyout_spec (throw .null) hle
  refine ⟨_, m', hrun, fun v hv => ?_⟩
  have hpos : 0 < n := Nat.pos_of_ne_zero fun h0 => hv (by rw [hzero h0])
  have hmem : v ∈ between (va / PGSIZE) (npages (va + n)) (pte m d) := by
    by_contra hnot
    exact hv (hst.frame v hnot)
  obtain ⟨k, h1, h2, hpr, rfl⟩ := exists_of_mem_between hmem
  have hkU : k < UPAGES := h2.trans_le (h.npages_le (by omega))
  refine ⟨k, hkU, hpr, ?_, rfl⟩
  have hx := huser (max va (k * PGSIZE)) (le_max_left ..) (by rw [lt_npages] at h2; omega)
  have hpage : max va (k * PGSIZE) / PGSIZE = k := by
    unfold PGSIZE at *
    omega
  rwa [hpage] at hx

/-! ## The loop -/

section Loop

variable {args : List (List UInt8)} {ustack ustack' : List ℕ} {sp' : ℕ}

theorem pushArgs_cons {a : List UInt8} {b : Bool} (hus : ustack.length < MAXARG)
    (hrun : copyout img null d (a ++ [0]).length (pushed sp (a ++ [0]).length) (a ++ [0]) m =
      .ok (b, m')) :
    pushArgs img null d (a :: args) sp ustack m =
      if b then pushArgs img null d args (pushed sp (a.length + 1))
        (ustack ++ [pushed sp (a.length + 1)]) m'
      else .ok (none, m') := by
  rw [List.length_append, List.length_singleton] at hrun
  rw [pushArgs, if_neg (by omega), bind_eq hrun]
  cases b <;> rfl

theorem pushArgs_take (h : Stacked img m L d sz) (hlow : sz - PGSIZE ≤ sp) (hsp : sp ≤ sz)
    (hlen : ustack.length + args.length ≤ MAXARG) (hsmall : ∀ a ∈ args, a.length + 1 ≤ KERNBASE)
    (hsafe : ArgsSafe sz sp args) {i : ℕ}
    (hrun : pushArgs img (throw .null) d (args.take i) sp ustack m =
    .ok (some (sp', ustack'), m')) :
    Stacked img m' L d sz ∧ sz - PGSIZE ≤ sp' ∧ sp' ≤ sz ∧ ArgsSafe sz sp' (args.drop i) ∧
      ustack'.length ≤ MAXARG := by
  have hstop : ∀ {as : List (List UInt8)},
      pushArgs img (throw .null) d [] sp ustack m = .ok (some (sp', ustack'), m') →
      ArgsSafe sz sp as → ustack.length ≤ MAXARG →
      Stacked img m' L d sz ∧ sz - PGSIZE ≤ sp' ∧ sp' ≤ sz ∧ ArgsSafe sz sp' as ∧
        ustack'.length ≤ MAXARG := by
    intro as hnil has hus
    obtain ⟨hsome, rfl⟩ := pure_ok hnil
    cases hsome
    exact ⟨h, hlow, hsp, has, hus⟩
  induction args generalizing m sp ustack i with
  | nil =>
    rw [List.take_nil] at hrun
    rw [List.drop_nil]
    exact hstop hrun trivial (by omega)
  | cons a args ih =>
    cases i with
    | zero =>
      rw [List.take_zero] at hrun
      rw [List.drop_zero]
      exact hstop hrun hsafe (by omega)
    | succ i =>
      rw [List.length_cons] at hlen
      have hal := hsmall a List.mem_cons_self
      have hbl : (a ++ [0]).length = a.length + 1 := by
        rw [List.length_append, List.length_singleton]
      rw [List.take_succ_cons] at hrun
      rw [List.drop_succ_cons]
      rcases h.push_cases (a ++ [0])
        (List.append_ne_nil_of_right_ne_nil _ (List.cons_ne_nil _ _)) hlow
          hsp (by omega) with ⟨hle, hfit, hend, -, m1, hcopy, hst⟩ |
            ⟨-, -, m1, hcopy, -⟩ | ⟨-, hm, -⟩
      · rw [pushArgs_cons (by omega) hcopy, if_pos rfl] at hrun
        rw [hbl] at hle hfit hend hst
        have h1 := h.stored (h.npages_le hend) hst
        refine ih h1 hfit (by omega) ?_ (fun b hb => hsmall b (List.mem_cons_of_mem _ hb))
          (hsafe.2 ⟨hle, hfit⟩) hrun ?_
        · rw [List.length_append, List.length_singleton]
          omega
        · intro as hnil has hus
          obtain ⟨hsome, rfl⟩ := pure_ok hnil
          cases hsome
          exact ⟨h1, hfit, by omega, has, hus⟩
      · rw [pushArgs_cons (by omega) hcopy, if_neg Bool.false_ne_true] at hrun
        cases hrun
      · rw [hbl] at hm
        exact absurd hm hsafe.1

theorem argsSafe_of_inside (ustack : List ℕ) (h : Stacked img m L d sz) (hlow : sz - PGSIZE ≤ sp)
    (hsp : sp ≤ sz)
    (hlen : ustack.length + args.length ≤ MAXARG) (hsmall : ∀ a ∈ args, a.length + 1 ≤ KERNBASE)
    (hcalls : ∀ i a sp' ustack' m', args[i]? = some a →
      pushArgs img (throw .null) d (args.take i) sp ustack m = .ok (some (sp', ustack'), m') →
      Inside img d (pushed sp' (a.length + 1)) (a ++ [0]) m') : ArgsSafe sz sp args := by
  induction args generalizing m sp ustack with
  | nil => trivial
  | cons a args ih =>
    rw [List.length_cons] at hlen
    have hal := hsmall a List.mem_cons_self
    have hbl : (a ++ [0]).length = a.length + 1 := by
      rw [List.length_append, List.length_singleton]
    obtain ⟨r, m2, hfirst, -⟩ := hcalls 0 a sp ustack m rfl rfl
    rcases h.push_cases (a ++ [0])
        (List.append_ne_nil_of_right_ne_nil _ (List.cons_ne_nil _ _)) hlow
        hsp (by omega) with ⟨hle, hfit, hend, hnm, m1, hcopy, hst⟩ | ⟨hnot, hnm, -⟩ | ⟨-, -, hnull⟩
    · rw [hbl] at hle hfit hend hnm hst
      have h1 := h.stored (h.npages_le hend) hst
      refine ⟨hnm, fun _ => ih (ustack ++ [pushed sp (a.length + 1)]) h1 hfit (by omega) ?_
        (fun b hb => hsmall b (List.mem_cons_of_mem _ hb)) fun i b sp' ustack' m' hb hrun => ?_⟩
      · rw [List.length_append, List.length_singleton]
        omega
      · refine hcalls (i + 1) b sp' ustack' m' hb ?_
        rw [List.take_succ_cons, pushArgs_cons (by omega) hcopy, if_pos rfl]
        exact hrun
    · rw [hbl] at hnot hnm
      exact ⟨hnm, fun hc => absurd hc hnot⟩
    · rw [hbl] at hfirst hnull
      rw [hnull] at hfirst
      cases hfirst

end Loop

theorem length_frame (sp : ℕ) (ustack : List ℕ) :
    (frame sp ustack).length = (3 + ustack.length + 1) * 4 := by
  unfold frame
  rw [List.length_flatMap]
  have hword : (fun w => (wordBytes w).length) = fun _ => 4 := rfl
  rw [hword, List.map_const', List.sum_replicate, smul_eq_mul]
  simp only [List.length_append, List.length_cons, List.length_nil]

/-- **`copyout` stays inside.** Every call that `exec` makes writes only to pages that are
accessible in the new address space and loads nothing through the null pointer, exactly if no
argument string misses the kernel's part. -/
theorem copyout_inside_iff {file : ReadFile} {argv : List (List UInt8)} (hp : Pool img m L X)
    (hlen : argv.length ≤ MAXARG) (hsmall : ∀ a ∈ argv, a.length + 1 ≤ KERNBASE) :
    (∀ d va bytes m₂, CopyoutCall img file argv m d va bytes m₂ → Inside img d va bytes m₂) ↔
      ∀ d sz m₁, Prepared img file m d sz m₁ → ArgsSafe sz sz argv := by
  constructor
  · intro hcalls d sz m₁ hprep
    obtain ⟨L', h⟩ := hprep.stacked hp
    refine argsSafe_of_inside [] h (Nat.sub_le _ _) le_rfl (by simpa using hlen) hsmall ?_
    intro i a sp' ustack' m' ha hrun
    exact hcalls _ _ _ _ (.arg hprep ha hrun)
  · rintro hsafe d va bytes m₂ hcall
    cases hcall with
    | @arg sz sp i m₁ m₂ ustack a hprep ha hpush =>
      obtain ⟨L', h⟩ := hprep.stacked hp
      obtain ⟨h₂, hlow, hsp, hrest, -⟩ := pushArgs_take h (Nat.sub_le _ _) le_rfl
        (by simpa using hlen) hsmall (hsafe d sz m₁ hprep) hpush
      have hal := hsmall a (List.mem_of_getElem? ha)
      have hbl : (a ++ [0]).length = a.length + 1 := by
        rw [List.length_append, List.length_singleton]
      have hdrop : argv.drop i = a :: argv.drop (i + 1) := by
        obtain ⟨hi, rfl⟩ := List.getElem?_eq_some_iff.mp ha
        exact List.drop_eq_getElem_cons hi
      rw [hdrop] at hrest
      rcases h₂.push_cases (a ++ [0])
          (List.append_ne_nil_of_right_ne_nil _ (List.cons_ne_nil _ _)) hlow hsp (by omega) with
        ⟨-, -, hend, -⟩ | ⟨-, -, m', hcopy, hend | rfl⟩ | ⟨-, hm, -⟩
      · exact hbl ▸ h₂.inside hend
      · exact hbl ▸ h₂.inside hend
      · exact hbl ▸ ⟨false, _, hcopy, fun v hv => absurd rfl hv⟩
      · rw [hbl] at hm
        exact absurd hm hrest.1
    | @frame sz sp m₁ m₂ ustack hprep hpush =>
      obtain ⟨L', h⟩ := hprep.stacked hp
      rw [← List.take_length (l := argv)] at hpush
      obtain ⟨h₂, hlow, hsp, -, hus⟩ := pushArgs_take h (Nat.sub_le _ _) le_rfl
        (by simpa using hlen) hsmall (hsafe d sz m₁ hprep) hpush
      refine h₂.inside ?_
      have h2 := h.two
      rw [length_frame]
      unfold framePtr MAXARG PGSIZE at *
      have hlt := h.lt
      unfold KERNBASE at hlt
      omega

/-! ## A program without segments -/

def tinyElf : ReadFile := fun off n =>
  ((([0x7f, 0x45, 0x4c, 0x46] : List UInt8) ++ List.replicate 48 0).drop off).take n

theorem prepared_tinyElf (hp : Pool img m L X) (hL : 70 ≤ L.length) :
    ∃ d m1 L1, Prepared img tinyElf m d (2 * PGSIZE) m1 ∧ Stacked img m1 L1 d (2 * PGSIZE) := by
  rcases setupkvm_spec hp with ⟨_, _, _, _, hle⟩ | ⟨d, m0, L0, hrun, hd0, hnew⟩
  · omega
  have hlen := hnew.length_le
  have hload : loadProgram img tinyElf m = .ok (some (d, 0), m0) := by
    have hhalf : (ofBytes (tinyElf 0 ELFHDRSZ)).half 22 = 0 := by decide
    unfold loadProgram
    rw [if_neg (by decide), if_neg (by decide), bind_eq hrun, if_neg hd0, hhalf]
    rfl
  have hI := Image.of_newSpace (hp.mono (Multiset.zero_le X)) hnew
  obtain ⟨o, m1, L1, hrun1, -, hsome, hnone⟩ := allocStack_spec hI
  cases o with
  | none =>
    rcases hnone rfl with hbig | hshort
    · exact absurd hbig (by decide)
    · omega
  | some sz =>
    obtain ⟨rfl, hst, -⟩ := hsome sz rfl
    exact ⟨d, m1, L1, ⟨0, m0, hload, hrun1⟩, hst⟩

/-- A short argument is copied inside. -/
theorem copyout_inside_short :
    ∃ d va m₂, CopyoutCall smallImage tinyElf [[104, 105]] freeMem d va [104, 105, 0] m₂ ∧
      Inside smallImage d va [104, 105, 0] m₂ := by
  obtain ⟨d, m₁, L₁, hprep, -⟩ := prepared_tinyElf freeMem_pool (by decide)
  have harg : ([[104, 105]] : List (List UInt8))[0]? = some [104, 105] := rfl
  have hcall : CopyoutCall smallImage tinyElf [[104, 105]] freeMem d (pushed (2 * PGSIZE) 3)
      [104, 105, 0] m₁ := .arg hprep harg rfl
  refine ⟨d, _, m₁, hcall, (copyout_inside_iff freeMem_pool (by decide) (by decide)).mpr ?_ _ _ _ _
    hcall⟩
  intro d' sz m' hprep'
  refine ⟨fun hm => ?_, fun _ => trivial⟩
  have := hm.1
  rw [show ([104, 105] : List UInt8).length = 2 from rfl] at this
  omega

/-- An argument of 0x2002000 characters, one more than 32 MB above the stack pointer: `copyout` is
called with an address for which there is no page table. -/
theorem long_argument_null :
    Pool smallImage freeMem (pagesFrom 80 0x80200000) 0 ∧
    ∃ d va bytes m₂,
      CopyoutCall smallImage tinyElf [List.replicate 0x2002000 1] freeMem d va bytes m₂ ∧
      copyout smallImage (throw .null) d bytes.length va bytes m₂ = .error .null ∧
      ¬ Inside smallImage d va bytes m₂ := by
  obtain ⟨d, m₁, L₁, hprep, hst⟩ := prepared_tinyElf freeMem_pool (by decide)
  have hlen : (List.replicate 0x2002000 (1 : UInt8) ++ [0]).length = 0x2002001 := by
    rw [List.length_append, List.length_replicate, List.length_singleton]
  have hnull := hst.push_wrap (2 * PGSIZE) (List.replicate 0x2002000 1 ++ [0])
    (List.append_ne_nil_of_right_ne_nil _ (List.cons_ne_nil _ _)) (by rw [hlen]; decide)
    (by rw [hlen]; decide)
  have hm : Misses (2 * PGSIZE) (List.replicate 0x2002000 (1 : UInt8) ++ [0]).length := by
    rw [hlen]
    decide
  rw [if_pos hm] at hnull
  have harg : [List.replicate 0x2002000 (1 : UInt8)][0]? = some (List.replicate 0x2002000 1) := rfl
  refine ⟨freeMem_pool, d, _, _, m₁, .arg hprep harg rfl, ?_, ?_⟩
  · rw [List.length_replicate]
    rw [hlen] at hnull ⊢
    exact hnull
  · rintro ⟨r, m', hrun, -⟩
    rw [List.length_replicate] at hrun
    rw [hlen] at hnull hrun
    rw [hnull] at hrun
    cases hrun

end Xv6.Vm
