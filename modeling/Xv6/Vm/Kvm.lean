import Xv6.Vm.Mapping

/-!
# New and freed address spaces

1. `freevm` gives back a whole address space.
2. `setupkvm` makes one with the rows of `kmap` and no user pages, or returns 0 and gives back what
   it took. It only fails if the free pages are not enough for the directory and 64 page tables.
-/

namespace Xv6.Vm

open StateExcept

variable {img : KernelImage} {m m' : Mem} {L L' : List ℕ} {X : Multiset ℕ} {d : ℕ}

/-! ## `freevm` -/

theorem freeTables_spec {is : List ℕ}
    (hp : Pool img m L ({d} + (is.map fun i => held (pde m d i)).sum)) :
    ∃ m' L', freeTables img d is m = .ok ((), m') ∧
      Moved m L ({d} + (is.map fun i => held (pde m d i)).sum) m' L' {d} := by
  induction is generalizing m L with
  | nil => exact ⟨m, L, rfl, by simpa using FreeList.Moved.refl hp.chain⟩
  | cons i is ih =>
    unfold freeTables
    rw [List.map_cons, List.sum_cons] at hp ⊢
    rw [get_bind, ← pde]
    by_cases hpr : Present (pde m d i)
    · rw [held_of_present hpr, add_left_comm ({d} : Multiset ℕ)] at hp ⊢
      obtain ⟨m1, hfree, hmv⟩ := kfree_spec hp.left
      have hd : m1.page d = m.page d :=
        hp.frame hmv (Multiset.mem_add.mpr (.inl (Multiset.mem_singleton_self d)))
      have hsum : (is.map fun i => held (pde m1 d i)).sum =
          (is.map fun i => held (pde m d i)).sum := by
        unfold pde
        rw [hd]
      have hp1 := hp.moved_add hmv
      rw [zero_add, ← hsum] at hp1
      obtain ⟨m', L', hrun, hmv'⟩ := ih hp1
      rw [hsum] at hmv'
      have hmv1 := hmv.add_right ({d} + (is.map fun i => held (pde m d i)).sum)
      rw [zero_add] at hmv1
      refine ⟨m', L', ?_, hmv1.trans hmv'⟩
      rw [if_pos hpr, bind_eq hfree]
      exact hrun
    · rw [held_of_not hpr, zero_add] at hp ⊢
      obtain ⟨m', L', hrun, hmv⟩ := ih hp
      refine ⟨m', L', ?_, hmv⟩
      rw [if_neg hpr]
      exact hrun

theorem freevm_spec (hp : Pool img m L (space m d)) :
    ∃ m' L', freevm img d m = .ok ((), m') ∧ Moved m L (space m d) m' L' 0 := by
  rw [space_eq] at hp ⊢
  have hd0 := (hp.isPage (Multiset.mem_add.mpr (.inl dir_mem_dirs))).ne_zero
  obtain ⟨m1, L1, hde, hc⟩ := deallocuvm_spec 0 le_rfl hp
  have hp1 := hp.moved hc.moved
  have hdirs : dirs m1 d = {d} + ((List.range NPDENTRIES).map fun i => held (pde m1 d i)).sum := by
    unfold dirs tables
    rw [pagesIn_eq_sum]
  have hmv1 := hc.moved
  generalize hrange : List.range NPDENTRIES = is at hdirs
  rw [hdirs] at hp1 hmv1
  obtain ⟨m2, L2, htab, hmv2⟩ := freeTables_spec hp1
  obtain ⟨m', hfree, hmv3⟩ := kfree_spec (hp1.moved hmv2)
  refine ⟨m', d :: L2, ?_, hmv1.trans (hmv2.trans hmv3)⟩
  unfold freevm
  rw [if_neg hd0, bind_eq hde, hrange, bind_eq htab]
  exact hfree

/-! ## The rows of `kmap` -/

def Kmap.size (r : Kmap) : ℕ := (r.phys_end + 2 ^ 32 - r.phys_start) % 2 ^ 32

def Kmap.Covers (r : Kmap) (j : ℕ) : Prop := r.virt ≤ j * PGSIZE ∧ j * PGSIZE < r.virt + r.size

def Kmap.entry (r : Kmap) (j : ℕ) : ℕ := mapEntry (r.phys_start + (j * PGSIZE - r.virt)) r.perm

structure Kmap.Ok (r : Kmap) : Prop where
  virt : r.virt % PGSIZE = 0
  kern : KERNBASE ≤ r.virt
  size : r.size % PGSIZE = 0
  pos : 0 < r.size
  top : r.virt + r.size ≤ 2 ^ 32
  phys : r.phys_start % PGSIZE = 0
  ptop : r.phys_start + r.size ≤ 2 ^ 32
  perm : r.perm = 0 ∨ r.perm = PTE_W

variable {r : Kmap}

theorem Kmap.Ok.perm_lt (h : r.Ok) : r.perm < PGSIZE := by
  rcases h.perm with hp | hp <;> rw [hp] <;> decide

variable {j : ℕ}

theorem Kmap.Ok.not_user (h : r.Ok) (hj : r.Covers j) : ¬ User (r.entry j) := by
  have hf : r.perm ||| PTE_P = 1 ∨ r.perm ||| PTE_P = 3 := by
    rcases h.perm with hp | hp <;> rw [hp]
    · exact .inl rfl
    · exact .inr rfl
  have hpa : (r.phys_start + (j * PGSIZE - r.virt)) % PGSIZE = 0 := by
    obtain ⟨h1, -⟩ := hj
    have h2 := h.virt
    have h3 := h.phys
    unfold PGSIZE at *
    omega
  unfold Kmap.entry
  rw [mapEntry_assoc, entry_eq hpa (by unfold PGSIZE; omega)]
  unfold User PGSIZE at *
  omega

theorem Kmap.Ok.mappages_eq (h : r.Ok) :
    mappages img d r.virt r.size r.phys_start r.perm =
      mapLoop img d ((r.virt / PGSIZE + (r.size / PGSIZE - 1)) * PGSIZE) r.perm VPAGES
        (r.virt / PGSIZE * PGSIZE) r.phys_start := by
  obtain ⟨h1, -, h3, h4, h5, -, -, -⟩ := h
  have hlast : PGROUNDDOWN ((r.virt + r.size + 2 ^ 32 - 1) % 2 ^ 32) =
      (r.virt / PGSIZE + (r.size / PGSIZE - 1)) * PGSIZE := by
    unfold PGROUNDDOWN PGSIZE at *
    omega
  have hfuel : NPDENTRIES * NPTENTRIES = VPAGES := by decide
  unfold mappages
  rw [hlast, hfuel]
  rfl

theorem Kmap.Ok.covers_iff (h : r.Ok) :
    r.Covers j ↔ r.virt / PGSIZE ≤ j ∧ j < r.virt / PGSIZE + r.size / PGSIZE := by
  obtain ⟨h1, -, h3, -, -, -, -, -⟩ := h
  unfold Kmap.Covers PGSIZE at *
  omega

theorem Kmap.Ok.entry_eq (h : r.Ok) (hj : r.Covers j) :
    mapEntry (r.phys_start + (j - r.virt / PGSIZE) * PGSIZE) r.perm = r.entry j := by
  unfold Kmap.entry
  congr 2
  obtain ⟨h1, -⟩ := hj
  have h2 := h.virt
  unfold PGSIZE at *
  omega

theorem mappages_row (h : r.Ok) (hp : Pool img m L (dirs m d))
    (habs : ∀ j, r.Covers j → ¬ Present (pte m d j)) :
    ∃ b m' L', mappages img d r.virt r.size r.phys_start r.perm m = .ok (b, m') ∧
      Moved m L (dirs m d) m' L' (dirs m' d) ∧
      Extends m m' d (fun i => ∃ j, r.Covers j ∧ i = j / 1024) ∧
      (∀ j, ¬ r.Covers j → pte m' d j = pte m d j) ∧ (b = false → L' = []) ∧
      (b = true → ∀ j, r.Covers j → pte m' d j = r.entry j) := by
  rw [h.mappages_eq]
  obtain ⟨n, hn⟩ : ∃ n, r.size / PGSIZE = n + 1 := by
    refine Nat.exists_eq_succ_of_ne_zero ?_
    have h3 := h.pos
    have h4 := h.size
    unfold PGSIZE at *
    omega
  have hcov : ∀ {j}, r.Covers j ↔ r.virt / PGSIZE ≤ j ∧ j < r.virt / PGSIZE + (n + 1) := by
    intro j
    rw [h.covers_iff, hn]
  have hk : r.virt / PGSIZE + n < VPAGES := by
    have := h.top
    unfold VPAGES PGSIZE at *
    omega
  have hlt : r.phys_start + (n + 1) * PGSIZE ≤ 2 ^ 32 := by
    have := h.ptop
    unfold PGSIZE at *
    omega
  rw [hn, Nat.add_sub_cancel]
  obtain ⟨n', m', L', hn', hrun, hfail, hmap⟩ := mapLoop_spec hk rfl
    (lt_of_le_of_lt (Nat.le_add_left n _) hk)
    h.phys hlt h.perm_lt hp fun j h1 h2 => habs j (hcov.mpr ⟨h1, by omega⟩)
  refine ⟨decide (n' = n + 1), m', L', hrun, hmap.moved, hmap.ext.mono ?_, fun j hj => ?_,
    fun hb => ?_, fun hb j hj => ?_⟩
  · rintro i ⟨h1, h2⟩
    by_cases hi : i * 1024 < r.virt / PGSIZE
    · exact ⟨r.virt / PGSIZE, hcov.mpr ⟨le_rfl, by omega⟩, by omega⟩
    · exact ⟨i * 1024, hcov.mpr ⟨by omega, by omega⟩, by omega⟩
  · rw [hmap.pte, if_neg fun hc => hj (hcov.mpr ⟨hc.1, by omega⟩)]
  · exact hfail (lt_of_le_of_ne hn' (of_decide_eq_false hb))
  · obtain rfl := of_decide_eq_true hb
    rw [hmap.pte, if_pos (hcov.mp hj), h.entry_eq hj]

theorem mapKernel_spec {ks : List Kmap} (hok : ∀ r ∈ ks, r.Ok)
    (hdis : ks.Pairwise fun r r' => ∀ j, r.Covers j → ¬ r'.Covers j) (hp : Pool img m L (dirs m d))
    (habs : ∀ r ∈ ks, ∀ j, r.Covers j → ¬ Present (pte m d j)) :
    ∃ b m' L', mapKernel img d ks m = .ok (b, m') ∧
      Moved m L (dirs m d) m' L' (dirs m' d) ∧
      Extends m m' d (fun i => ∃ r ∈ ks, ∃ j, r.Covers j ∧ i = j / 1024) ∧
      (∀ j, (∀ r ∈ ks, ¬ r.Covers j) → pte m' d j = pte m d j) ∧ (b = false → L' = []) ∧
      (b = true → ∀ r ∈ ks, ∀ j, r.Covers j → pte m' d j = r.entry j) := by
  induction ks generalizing m L with
  | nil => exact ⟨true, m, L, rfl, .refl hp.chain, .of_eq rfl, fun _ _ => rfl, nofun, nofun⟩
  | cons r ks ih =>
    obtain ⟨hhead, htail⟩ := List.pairwise_cons.mp hdis
    obtain ⟨b, m1, L1, hrun, hmv, hext, hrest, hfail, hdone⟩ :=
      mappages_row (hok r List.mem_cons_self) hp (habs r List.mem_cons_self)
    have hmem : ∀ r' ∈ ks, r' ∈ r :: ks := fun r' => List.mem_cons_of_mem r
    unfold mapKernel
    rw [← Kmap.size, bind_eq hrun]
    cases b with
    | false =>
      refine ⟨false, m1, L1, rfl, hmv, hext.mono fun i hi => ⟨r, List.mem_cons_self, hi⟩,
        fun j hj => hrest j (hj r List.mem_cons_self), hfail, nofun⟩
    | true =>
      have habs1 : ∀ r' ∈ ks, ∀ j, r'.Covers j → ¬ Present (pte m1 d j) := by
        intro r' hr' j hj
        rw [hrest j fun hc => hhead r' hr' j hc hj]
        exact habs r' (hmem r' hr') j hj
      obtain ⟨b, m', L', hrun', hmv', hext', hrest', hfail', hdone'⟩ :=
        ih (fun r' hr' => hok r' (hmem r' hr')) htail (hp.moved hmv) habs1
      refine ⟨b, m', L', hrun', hmv.trans hmv', ?_, fun j hj => ?_, hfail',
        fun hb r' hr' j hj => ?_⟩
      · refine (hext.mono fun i hi => ⟨r, List.mem_cons_self, hi⟩).trans (hext'.mono ?_)
        rintro i ⟨r', hr', hi⟩
        exact ⟨r', hmem r' hr', hi⟩
      · rw [hrest' j fun r' hr' => hj r' (hmem r' hr'), hrest j (hj r List.mem_cons_self)]
      · rcases List.mem_cons.mp hr' with rfl | hr'
        · rw [hrest' j fun r'' hr'' => hhead r'' hr'' j hj, hdone rfl j hj]
        · exact hdone' hb r' hr' j hj

/-! ## The table -/

theorem kmap_ok : ∀ r ∈ kmap img, r.Ok := by
  have h1 := img.aligned
  have h2 := img.above
  have h3 := img.below
  intro r hr
  unfold kmap at hr
  simp only [List.mem_cons, List.not_mem_nil, or_false] at hr
  rcases hr with rfl | rfl | rfl | rfl <;>
    constructor <;> first
    | exact .inl rfl
    | exact .inr rfl
    | (simp only [Kmap.size, KERNLINK, KERNBASE, EXTMEM, V2P, PHYSTOP, DEVSPACE, PGSIZE] at * <;>
        omega)

theorem kmap_disjoint : (kmap img).Pairwise fun r r' => ∀ j, r.Covers j → ¬ r'.Covers j := by
  have h2 := img.above
  have h3 := img.below
  unfold kmap
  simp only [List.pairwise_cons, List.mem_cons, List.not_mem_nil, or_false, forall_eq_or_imp,
    forall_eq, false_imp_iff, implies_true, and_true, List.Pairwise.nil]
  simp only [Kmap.Covers, Kmap.size, KERNLINK, KERNBASE, EXTMEM, V2P, PHYSTOP, DEVSPACE] at *
  refine ⟨⟨?_, ?_, ?_⟩, ⟨?_, ?_⟩, ?_⟩ <;> intro j h h' <;> omega

def KernelTable (i : ℕ) : Prop := 512 ≤ i ∧ i < 568 ∨ 1016 ≤ i ∧ i < 1024

theorem kernelTable_of_covers (hr : r ∈ kmap img) (hj : r.Covers j) : KernelTable (j / 1024) := by
  have h2 := img.above
  have h3 := img.below
  unfold kmap at hr
  simp only [List.mem_cons, List.not_mem_nil, or_false] at hr
  rcases hr with rfl | rfl | rfl | rfl <;>
    simp only [KernelTable, Kmap.Covers, Kmap.size, KERNLINK, KERNBASE, EXTMEM, V2P, PHYSTOP,
      DEVSPACE, PGSIZE] at * <;> omega

theorem covers_of_kernelTable (img : KernelImage) (h : KernelTable (j / 1024)) :
    ∃ r ∈ kmap img, r.Covers j := by
  have h2 := img.above
  have h3 := img.below
  have h4 := img.aligned
  unfold kmap
  simp only [List.mem_cons, List.not_mem_nil, or_false, exists_eq_or_imp, exists_eq_left]
  simp only [KernelTable, Kmap.Covers, Kmap.size, KERNLINK, KERNBASE, EXTMEM, V2P, PHYSTOP,
    DEVSPACE, PGSIZE] at *
  omega

theorem not_covers_user (hr : r ∈ kmap img) (hj : j < UPAGES) : ¬ r.Covers j := by
  intro hc
  have h1 := (kmap_ok r hr).kern
  have h2 := hc.1
  unfold KERNBASE UPAGES PGSIZE at *
  omega

/-! ## `setupkvm` -/

structure KernelPart (img : KernelImage) (m : Mem) (d : ℕ) : Prop where
  row : ∀ r ∈ kmap img, ∀ j, r.Covers j → pte m d j = r.entry j
  rest : ∀ j, UPAGES ≤ j → (∀ r ∈ kmap img, ¬ r.Covers j) → pte m d j = 0

theorem KernelPart.congr (h : KernelPart img m d)
    (hpte : ∀ j, UPAGES ≤ j → pte m' d j = pte m d j) : KernelPart img m' d := by
  refine ⟨fun r hr j hj => ?_, fun j hj hc => ?_⟩
  · rw [hpte j (not_lt.mp fun hlt => not_covers_user hr hlt hj), h.row r hr j hj]
  · rw [hpte j hj, h.rest j hj hc]

theorem KernelPart.not_user (h : KernelPart img m d) (hj : UPAGES ≤ j) : ¬ User (pte m d j) := by
  by_cases hc : ∃ r ∈ kmap img, r.Covers j
  · obtain ⟨r, hr, hj'⟩ := hc
    rw [h.row r hr j hj']
    exact (kmap_ok r hr).not_user hj'
  · rw [h.rest j hj fun r hr hj' => hc ⟨r, hr, hj'⟩]
    decide

structure NewSpace (img : KernelImage) (m : Mem) (L : List ℕ) (m' : Mem) (L' : List ℕ)
    (d : ℕ) : Prop where
  moved : Moved m L 0 m' L' (dirs m' d)
  user : ∀ j < UPAGES, pte m' d j = 0
  kernel : KernelPart img m' d
  tables : ∀ i, Present (pde m' d i) → KernelTable i
  flags : ∀ i, Present (pde m' d i) → pde m' d i % 8 = 7

theorem NewSpace.not_present (h : NewSpace img m L m' L' d) :
    ∀ k < UPAGES, ¬ Present (pte m' d k) := fun k hk => by
  rw [h.user k hk]
  exact not_present_zero

theorem NewSpace.space_eq (h : NewSpace img m L m' L' d) : space m' d = dirs m' d :=
  space_eq_dirs h.not_present

theorem card_dirs_le (h : ∀ i, Present (pde m d i) → KernelTable i) : (dirs m d).card ≤ 65 := by
  have hle : (tables m d).card ≤ (Finset.Ico 512 568 ∪ Finset.Ico 1016 1024).card := by
    refine card_pagesIn_le_of_subset fun i _ hi => ?_
    rw [Finset.mem_union, Finset.mem_Ico, Finset.mem_Ico]
    exact h i hi
  have h64 := Finset.card_union_le (Finset.Ico 512 568) (Finset.Ico 1016 1024)
  rw [Nat.card_Ico, Nat.card_Ico] at h64
  unfold dirs
  rw [Multiset.card_add, Multiset.card_singleton]
  omega

theorem NewSpace.length_le (h : NewSpace img m L m' L' d) : L.length ≤ L'.length + 65 := by
  have hcard := h.moved.card
  have hle := card_dirs_le h.tables
  rw [Multiset.card_zero] at hcard
  omega

theorem zeroed_dir (hm : m.page d = Block.zero) :
    pde m d = (fun _ => 0) ∧ pte m d = (fun _ => 0) ∧ dirs m d = {d} := by
  have hpde : pde m d = fun _ => 0 := by
    funext i
    rw [pde, hm, Block.word_zero]
  have hpte : pte m d = fun _ => 0 := by
    funext k
    exact pte_of_not (by rw [hpde]; exact not_present_zero)
  refine ⟨hpde, hpte, ?_⟩
  unfold dirs tables
  rw [hpde, pagesIn_eq_zero fun i _ => not_present_zero, add_zero]

theorem setupkvm_spec (hp : Pool img m L X) :
    (∃ m' L', setupkvm img m = .ok (0, m') ∧ Moved m L 0 m' L' 0 ∧ L.length ≤ 65) ∨
      ∃ d m' L', setupkvm img m = .ok (d, m') ∧ d ≠ 0 ∧ NewSpace img m L m' L' d := by
  have hp0 : Pool img m L 0 := hp.mono (Multiset.zero_le X)
  unfold setupkvm
  rcases kalloc_spec hp0 with ⟨rfl, ha⟩ | ⟨d, L1, m1, rfl, ha, hd0, hd, -, hmv⟩
  · refine .inl ⟨m, [], ?_, .refl hp.chain, Nat.zero_le _⟩
    rw [bind_eq ha]
    rfl
  have hw := (hp0.moved hmv).write (Multiset.mem_singleton_self d) Block.zero
  obtain ⟨hpde2, hpte2, hdirs2⟩ := zeroed_dir (m1.write_self d Block.zero)
  have hmv2 := hmv.trans hw
  rw [← hdirs2] at hmv2
  have hp2 := hp0.moved hmv2
  obtain ⟨b, m3, L3, hrun, hmv3, hext, hrest, hfail, hdone⟩ :=
    mapKernel_spec kmap_ok kmap_disjoint hp2 fun r _ j _ => by rw [hpte2]; exact not_present_zero
  have huser : ∀ j < UPAGES, pte m3 d j = 0 := by
    intro j hj
    rw [hrest j fun r hr => not_covers_user hr hj, hpte2]
  have htables : ∀ i, Present (pde m3 d i) → KernelTable i := by
    intro i hi
    rcases hext.cases hi with hi | ⟨r, hr, j, hj, rfl⟩
    · rw [hpde2] at hi
      exact absurd hi not_present_zero
    · exact kernelTable_of_covers hr hj
  have hflags : ∀ i, Present (pde m3 d i) → pde m3 d i % 8 = 7 := by
    intro i hi
    rcases hext i with he | ⟨-, h7, -⟩
    · rw [he, hpde2] at hi
      exact absurd hi not_present_zero
    · exact h7
  have hphys : ¬ DEVSPACE < P2V PHYSTOP := by decide
  rw [bind_eq ha, if_neg hd0, zeroPage_bind, if_neg hphys, bind_eq hrun]
  cases b with
  | true =>
    refine .inr ⟨d, m3, L3, rfl, hd0, hmv2.trans hmv3, huser,
      ⟨hdone rfl, fun j hj hc => ?_⟩, htables, hflags⟩
    rw [hrest j hc, hpte2]
  | false =>
    have hp3 := hp2.moved hmv3
    have hspace : space m3 d = dirs m3 d := space_eq_dirs fun j hj => by
      rw [huser j hj]
      exact not_present_zero
    rw [← hspace] at hp3 hmv3
    obtain ⟨m', L', hfree, hmv4⟩ := freevm_spec hp3
    refine .inl ⟨m', L', ?_, hmv2.trans (hmv3.trans hmv4), ?_⟩
    · rw [if_neg Bool.false_ne_true, bind_eq hfree]
      rfl
    · -- all pages went into the directory and its page tables
      have hcard := (hmv2.trans hmv3).card
      rw [hfail rfl, hspace, List.length_nil, Multiset.card_zero] at hcard
      have hle := card_dirs_le htables
      omega

/-! ## A memory with free pages only -/

def pagesFrom : ℕ → ℕ → List ℕ
  | 0, _ => []
  | n + 1, a => a :: pagesFrom n (a + PGSIZE)

def freeMem : Mem where
  page v := Block.zero.setWord 0 (if v + PGSIZE < 0x80250000 then v + PGSIZE else 0)
  freelist := 0x80200000
  freelist_lt := by norm_num

theorem freeMem_chain (n a : ℕ) (ha : 0 < a) (htop : a + n * PGSIZE = 0x80250000) :
    FreeList.Chain (fun b : Block => b.word 0) 0 freeMem.page (if n = 0 then 0 else a)
      (pagesFrom n a) := by
  induction n generalizing a with
  | zero => rfl
  | succ n ih =>
    rw [if_neg (Nat.succ_ne_zero n)]
    refine ⟨rfl, ha.ne', ?_⟩
    have hlink : (freeMem.page a).word 0 = if n = 0 then 0 else a + PGSIZE := by
      unfold freeMem
      rw [Block.word_setWord_self _ _ (by unfold PGSIZE at *; split <;> omega)]
      unfold PGSIZE at *
      split <;> split <;> omega
    dsimp only
    rw [hlink]
    exact ih (a + PGSIZE) (by omega) (by unfold PGSIZE at *; omega)

theorem freeMem_pool : Pool smallImage freeMem (pagesFrom 80 0x80200000) 0 := by
  refine ⟨freeMem_chain 80 0x80200000 (by decide) (by decide), ?_, ?_⟩
  · rw [add_zero]
    decide +kernel
  · rw [add_zero]
    decide +kernel

theorem freeMem_zero : freeMem.page 0x80300000 = Block.zero := by
  funext i
  by_cases hi : 4 ≤ i
  · exact Block.setWord_of_ge _ hi
  · have hlt : i < 4 := by omega
    interval_cases i <;> rfl

end Xv6.Vm
