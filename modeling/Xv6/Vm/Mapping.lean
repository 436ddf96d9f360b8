import Xv6.Vm.Space

/-!
# What `kalloc.c` and `vm.c` do to the pages

The functions on one address space `d`, as they take pages from the free list and give them back.
Each of them returns, and where `kalloc` has returned 0 on the way nothing is lost:

1. `kalloc`, `kfree` and `walkpgdir`, which may add a page table;
2. `mappages`, of which `Mapped` says what it has done to the entries;
3. `deallocuvm` (`Cleared`), which does the same as clearing the entries one by one;
4. `allocuvm` (`Grown`), with what it undoes on failure.

The pages that `Moved` names are the directory and its page tables, and what is mapped or unmapped.
Any other page, in particular the contents of the other user pages, stays as it is.
-/

namespace Xv6.Vm

open Function StateExcept

variable {img : KernelImage} {m m' : Mem} {L L' : List ℕ} {X Z : Multiset ℕ} {d v : ℕ}

/-! ## Entries for pages -/

theorem entry_eq {pa f : ℕ} (hpa : pa % PGSIZE = 0) (hf : f < PGSIZE) : pa ||| f = pa + f := by
  unfold PGSIZE at *
  have h := Nat.two_pow_add_eq_or_of_lt (show f < 2 ^ 12 by omega) (pa / 4096)
  have hq : 2 ^ 12 * (pa / 4096) = pa := by omega
  rwa [hq, eq_comm] at h

theorem IsPage.entry {f : ℕ} (hv : IsPage img v) (hf : f < PGSIZE) :
    (V2P v ||| f) < 2 ^ 32 ∧ pageOf (V2P v ||| f) = v := by
  obtain ⟨h0, -, hlow, hhigh⟩ := hv
  have hpa : V2P v % PGSIZE = 0 := by
    unfold V2P PGSIZE KERNBASE at *
    omega
  rw [entry_eq hpa hf]
  unfold pageOf PTE_ADDR P2V V2P PGSIZE KERNBASE PHYSTOP at *
  omega

theorem IsPage.addr_ne_zero {w : ℕ} (h : IsPage img (pageOf w)) : PTE_ADDR w ≠ 0 := by
  intro h0
  have hend := h.2.1
  have hdata := img.data_le
  have habove := img.above
  rw [pageOf, h0] at hend
  unfold P2V KERNLINK EXTMEM KERNBASE at *
  omega

theorem IsPage.ne_zero (h : IsPage img v) : v ≠ 0 := by
  have := h.2.2.1
  unfold KERNBASE at this
  omega

theorem present_of_seven {w : ℕ} (h : w % 8 = 7) : Present w := by
  unfold Present
  omega

theorem present_or_one (w : ℕ) : Present (w ||| PTE_P) := by
  unfold Present PTE_P
  rw [Nat.or_mod_two_eq_one]
  exact .inr rfl

def mapEntry (pa perm : ℕ) : ℕ := pa ||| perm ||| PTE_P

theorem mapEntry_assoc (pa perm : ℕ) : mapEntry pa perm = pa ||| (perm ||| PTE_P) :=
  Nat.or_assoc ..

theorem present_mapEntry (pa perm : ℕ) : Present (mapEntry pa perm) := present_or_one _

theorem mapEntry_lt {pa perm : ℕ} (hpa : pa % PGSIZE = 0) (hlt : pa + PGSIZE ≤ 2 ^ 32)
    (hperm : perm < PGSIZE) : mapEntry pa perm < 2 ^ 32 := by
  have hf : (perm ||| PTE_P) < PGSIZE := by
    unfold PGSIZE at *
    exact Nat.or_lt_two_pow (n := 12) hperm (by decide)
  rw [mapEntry_assoc, entry_eq hpa hf]
  omega

theorem IsPage.map_entry {perm : ℕ} (hv : IsPage img v) (hp : perm < PGSIZE) :
    pageOf (mapEntry (V2P v) perm) = v ∧ held (mapEntry (V2P v) perm) = {v} := by
  have hf : (perm ||| PTE_P) < PGSIZE := by
    unfold PGSIZE at *
    exact Nat.or_lt_two_pow (n := 12) hp (by decide)
  have hpage : pageOf (mapEntry (V2P v) perm) = v := by
    rw [mapEntry_assoc]
    exact (hv.entry hf).2
  refine ⟨hpage, ?_⟩
  rw [held_of_present (present_mapEntry _ _), hpage]

theorem IsPage.phys (hv : IsPage img v) : V2P v % PGSIZE = 0 ∧ V2P v + PGSIZE ≤ 2 ^ 32 := by
  obtain ⟨h0, -, hlow, hhigh⟩ := hv
  unfold V2P PGSIZE KERNBASE PHYSTOP at *
  omega

/-! ## Writes -/

def Mem.write (m : Mem) (v : ℕ) (b : Block) : Mem :=
  ⟨update m.page v b, m.freelist, m.freelist_lt⟩

theorem Mem.write_self (m : Mem) (v : ℕ) (b : Block) : (m.write v b).page v = b :=
  update_self ..

theorem Mem.write_of_ne (m : Mem) {u v : ℕ} (h : u ≠ v) (b : Block) :
    (m.write v b).page u = m.page u := update_of_ne h ..

theorem setEntry_bind {α : Type} (i w : ℕ) (f : Unit → MemM α) :
    (setEntry v i w >>= f) m = f () (m.write v ((m.page v).setWord i w)) := rfl

theorem zeroPage_bind {α : Type} (f : Unit → MemM α) :
    (zeroPage v >>= f) m = f () (m.write v Block.zero) := rfl

theorem Pool.write (hp : Pool img m L X) (hv : v ∈ X) (b : Block) :
    Moved m L X (m.write v b) L X := by
  refine FreeList.Moved.write hp.chain hp.nodup fun u hu => m.write_of_ne ?_ b
  rintro rfl
  exact hu hv

/-! ## The allocator -/

theorem kalloc_spec (hp : Pool img m L X) :
    (L = [] ∧ kalloc img m = .ok (0, m)) ∨
      ∃ v L' m', L = v :: L' ∧ kalloc img m = .ok (v, m') ∧ v ≠ 0 ∧ IsPage img v ∧
        m'.page = m.page ∧ Moved m L 0 m' L' {v} := by
  unfold kalloc
  by_cases h0 : m.freelist = 0
  · rw [if_pos h0]
    have hchain := hp.chain
    unfold Free at hchain
    rw [h0] at hchain
    exact .inl ⟨hchain.eq_nil, rfl⟩
  · rw [if_neg h0]
    obtain ⟨L', hL', hm⟩ := FreeList.Moved.alloc (x := 0) hp.chain h0
    have hmem : m.freelist ∈ (L : Multiset ℕ) + X := by
      rw [hL', ← Multiset.cons_coe, Multiset.cons_add]
      exact Multiset.mem_cons_self _ _
    have hpage := hp.pages _ hmem
    rw [if_pos hpage]
    rw [add_zero] at hm
    exact .inr ⟨m.freelist, L', _, hL', rfl, h0, hpage, rfl, hm⟩

theorem kfree_spec (hp : Pool img m L {v}) :
    ∃ m', kfree img v m = .ok ((), m') ∧ Moved m L {v} m' (v :: L) 0 := by
  have hv := hp.isPage (Multiset.mem_singleton_self v)
  unfold kfree
  rw [dif_pos hv]
  refine ⟨_, rfl, ?_⟩
  have hn := hp.nodup
  rw [← add_zero ({v} : Multiset ℕ)] at hn
  have hm := FreeList.Moved.free hp.chain hv.ne_zero
    (Block.word_setWord_self (fun _ => 1) 0 m.freelist_lt) hn
  rwa [add_zero] at hm

/-! ## `walkpgdir` -/

section Walk

variable {va i : ℕ}

theorem PDX_eq (h : va < 2 ^ 32) : PDX va = va / PGSIZE / 1024 := by
  unfold PDX PGSIZE
  omega

theorem page_lt (h : va < 2 ^ 32) : va / PGSIZE < VPAGES := by
  unfold PGSIZE VPAGES
  omega

theorem pde_index_lt {k : ℕ} (h : k < VPAGES) : k / 1024 < NPDENTRIES := by
  unfold NPDENTRIES VPAGES at *
  omega

theorem page_addr {k : ℕ} (h : k < VPAGES) : k * PGSIZE < 2 ^ 32 ∧ k * PGSIZE / PGSIZE = k := by
  unfold VPAGES PGSIZE at *
  omega

theorem walk_eq (hva : va < 2 ^ 32) :
    walkpgdir img d va false m =
      .ok (if Present (pde m d (va / PGSIZE / 1024)) then
        some (pageOf (pde m d (va / PGSIZE / 1024)), va / PGSIZE % 1024) else none, m) := by
  unfold walkpgdir
  rw [get_bind, PDX_eq hva]
  by_cases hp : Present (pde m d (va / PGSIZE / 1024))
  · rw [if_pos hp]
    exact if_pos hp ▸ rfl
  · rw [if_neg hp]
    refine (congrFun (if_neg hp) m).trans ?_
    rw [if_neg Bool.false_ne_true]
    rfl

theorem walk_page (img : KernelImage) (m : Mem) (d : ℕ) {k : ℕ} (hk : k < VPAGES) :
    walkpgdir img d (k * PGSIZE) false m =
      .ok (if Present (pde m d (k / 1024)) then some (pageOf (pde m d (k / 1024)), k % 1024)
        else none, m) := by
  obtain ⟨hva, hkk⟩ := page_addr hk
  rw [walk_eq hva, hkk]

/-- The directory got page tables, writeable and accessible as far as the directory goes, at absent
entries of `P` at most. -/
def Extends (m m' : Mem) (d : ℕ) (P : ℕ → Prop) : Prop :=
  ∀ i, pde m' d i = pde m d i ∨ ¬ Present (pde m d i) ∧ pde m' d i % 8 = 7 ∧ P i

section Extends

variable {m'' : Mem} {P Q : ℕ → Prop} {i : ℕ}

theorem Extends.of_eq (h : pde m' d = pde m d) : Extends m m' d P := fun i => .inl (by rw [h])

theorem Extends.mono (h : Extends m m' d P) (hPQ : ∀ i, P i → Q i) : Extends m m' d Q :=
  fun i => (h i).imp_right fun ⟨hp, h7, hP⟩ => ⟨hp, h7, hPQ i hP⟩

theorem Extends.trans (h : Extends m m' d P) (h' : Extends m' m'' d P) : Extends m m'' d P := by
  intro i
  rcases h i with he | ⟨hp, h7, hP⟩
  · exact he ▸ h' i
  · rcases h' i with he' | ⟨hp', -, -⟩
    · exact .inr ⟨hp, by rw [he', h7], hP⟩
    · exact absurd (present_of_seven h7) hp'

theorem Extends.cases (h : Extends m m' d P) (hi : Present (pde m' d i)) :
    Present (pde m d i) ∨ P i := by
  rcases h i with he | ⟨-, -, hP⟩
  · exact .inl (he ▸ hi)
  · exact .inr hP

theorem Extends.eq_of_present (h : Extends m m' d P) (hi : Present (pde m d i)) :
    pde m' d i = pde m d i := by
  rcases h i with he | ⟨hp, -⟩
  · exact he
  · exact absurd hi hp

end Extends

structure Walked (m : Mem) (L : List ℕ) (m' : Mem) (L' : List ℕ) (d i : ℕ) : Prop where
  present : Present (pde m' d i)
  pte : pte m' d = pte m d
  ext : Extends m m' d (· = i)
  moved : Moved m L (dirs m d) m' L' (dirs m' d)
  short : L.length ≤ L'.length + 1

theorem walk_new {t : ℕ} (hi : i < NPDENTRIES) (ha : ¬ Present (pde m d i))
    (hp : Pool img m L (dirs m d + {t}))
    (hm : m' = (m.write t Block.zero).write d ((m.page d).setWord i (V2P t ||| 7))) :
    pde m' d = update (pde m d) i (V2P t ||| 7) ∧ pageOf (V2P t ||| 7) = t ∧
      (V2P t ||| 7) % 8 = 7 ∧ pte m' d = pte m d ∧
      Moved m L (dirs m d + {t}) m' L (dirs m' d) := by
  have ht := hp.right.isPage (Multiset.mem_singleton_self t)
  obtain ⟨hlt, hpg⟩ := ht.entry (show 7 < PGSIZE by decide)
  obtain ⟨hns, -, hdis⟩ := Multiset.nodup_add.mp hp.nodup_held
  have hts : t ∉ dirs m d := Multiset.disjoint_right.mp hdis (Multiset.mem_singleton_self t)
  have htd : t ≠ d := fun he => hts (he ▸ dir_mem_dirs)
  have h7 : (V2P t ||| 7) % 8 = 7 := by
    have h := ht.phys.1
    rw [entry_eq h (by decide)]
    unfold PGSIZE at h
    omega
  have hpr : Present (V2P t ||| 7) := present_of_seven h7
  have hz : m'.page t = Block.zero := by
    rw [hm, Mem.write_of_ne _ htd, Mem.write_self]
  have hd : m'.page d = (m.page d).setWord i (V2P t ||| 7) := by
    rw [hm, Mem.write_self]
  have hrest : ∀ v, v ≠ d → v ≠ t → m'.page v = m.page v := by
    intro v hvd hvt
    rw [hm, Mem.write_of_ne _ hvd, Mem.write_of_ne _ hvt]
  obtain ⟨hpde, hpte⟩ := add_table ha hts hlt hpg hz hd hrest hns
  refine ⟨hpde, hpg, h7, hpte, ?_⟩
  have hdirs : dirs m' d = dirs m d + {t} := by
    have htab := pagesIn_update (f := pde m d) hi (V2P t ||| 7)
    rw [held_of_not ha, add_zero, held_of_present hpr, hpg] at htab
    unfold dirs tables
    rw [hpde, htab, add_assoc]
  have hw := hp.write (Multiset.mem_add.mpr (.inr (Multiset.mem_singleton_self t))) Block.zero
  rw [hdirs, hm]
  exact hw.trans ((hp.moved hw).write (Multiset.mem_add.mpr (.inl dir_mem_dirs)) _)

theorem walk_alloc (hva : va < 2 ^ 32) (hp : Pool img m L (dirs m d)) :
    (L = [] ∧ walkpgdir img d va true m = .ok (none, m)) ∨
      ∃ m' L', walkpgdir img d va true m =
          .ok (some (pageOf (pde m' d (va / PGSIZE / 1024)), va / PGSIZE % 1024), m') ∧
        Walked m L m' L' d (va / PGSIZE / 1024) := by
  unfold walkpgdir
  rw [get_bind, PDX_eq hva]
  by_cases hpr : Present (pde m d (va / PGSIZE / 1024))
  · exact .inr ⟨m, L, congrFun (if_pos hpr) m, hpr, rfl, .of_eq rfl, .refl hp.chain, by omega⟩
  rcases kalloc_spec hp with ⟨rfl, hk⟩ | ⟨t, L', m1, rfl, hk, ht0, ht, hpage, hmv⟩
  · left
    refine ⟨rfl, (congrFun (if_neg hpr) m).trans ?_⟩
    rw [if_pos rfl, bind_eq hk]
    rfl
  · right
    have hview : pde m1 d = pde m d ∧ pte m1 d = pte m d :=
      view_congr (by rw [hpage]) fun i _ _ => by rw [hpage]
    obtain ⟨hpde1, hpte1⟩ := hview
    have hmv1 : Moved m (t :: L') (dirs m d) m1 L' (dirs m1 d + {t}) := by
      have h := hmv.add_right (dirs m d)
      rw [zero_add] at h
      rwa [add_comm (dirs m1 d), dirs_congr hpde1]
    have hp1 := hp.moved hmv1
    have htd : d ≠ t := by
      rintro rfl
      exact Multiset.disjoint_left.mp (Multiset.nodup_add.mp hp1.nodup_held).2.2 dir_mem_dirs
        (Multiset.mem_singleton_self d)
    have hor : V2P t ||| PTE_P ||| PTE_W ||| PTE_U = V2P t ||| 7 := by
      rw [Nat.or_assoc, Nat.or_assoc]
      rfl
    have ha : ¬ Present (pde m1 d (va / PGSIZE / 1024)) := by rwa [hpde1]
    obtain ⟨hpde, hpg, h7, hpte, hmv'⟩ :=
      walk_new (pde_index_lt (page_lt hva)) ha hp1 rfl
    refine ⟨_, L', (congrFun (if_neg hpr) m).trans ?_, ?_, hpte.trans hpte1, ?_,
      hmv1.trans hmv', le_rfl⟩
    · rw [if_pos rfl, bind_eq hk, if_neg ht0, zeroPage_bind, setEntry_bind, hor,
        Mem.write_of_ne _ htd, hpde, update_self, hpg]
      rfl
    · rw [hpde, update_self]
      exact present_of_seven h7
    · intro i
      by_cases hi : i = va / PGSIZE / 1024
      · refine .inr ⟨hi ▸ hpr, ?_, hi⟩
        rw [hpde, hi, update_self, h7]
      · left
        rw [hpde, update_of_ne hi, hpde1]

end Walk

/-! ## `mappages` -/

section Map

variable {k n pa perm w : ℕ}

theorem set_entry (hk : k < VPAGES) (hpr : Present (pde m d (k / 1024))) (hw : w < 2 ^ 32)
    (hp : Pool img m L (dirs m d))
    (hm : m' = m.write (pageOf (pde m d (k / 1024)))
      ((m.page (pageOf (pde m d (k / 1024)))).setWord (k % 1024) w)) :
    pde m' d = pde m d ∧ pte m' d = update (pte m d) k w ∧
      Moved m L (dirs m d) m' L (dirs m' d) := by
  have hset : pde m' d = pde m d ∧ pte m' d = update (pte m d) k w :=
    set_pte hp.nodup_held hk hpr hw rfl (by rw [hm]; rfl)
  obtain ⟨hpde, hpte⟩ := hset
  refine ⟨hpde, hpte, ?_⟩
  rw [dirs_congr hpde, hm]
  exact hp.write (table_mem_dirs (pde_index_lt hk) hpr) _

structure Mapped (m : Mem) (L : List ℕ) (m' : Mem) (L' : List ℕ) (d k n pa perm : ℕ) : Prop where
  moved : Moved m L (dirs m d) m' L' (dirs m' d)
  pte : ∀ j, pte m' d j =
    if k ≤ j ∧ j < k + n then mapEntry (pa + (j - k) * PGSIZE) perm else pte m d j
  ext : Extends m m' d fun i => k / 1024 ≤ i ∧ i * 1024 < k + n

theorem Mapped.refl (hp : Pool img m L (dirs m d)) (k pa perm : ℕ) : Mapped m L m L d k 0 pa perm :=
  ⟨.refl hp.chain, fun j => (if_neg (by omega)).symm, .of_eq rfl⟩

theorem Mapped.cons {m1 : Mem} {L1 : List ℕ} (hpte : Vm.pte m1 d = update (Vm.pte m d) k
      (mapEntry pa perm)) (hext : Extends m m1 d (· = k / 1024))
    (hmv : Moved m L (dirs m d) m1 L1 (dirs m1 d))
    (h : Mapped m1 L1 m' L' d (k + 1) n (pa + PGSIZE) perm) :
    Mapped m L m' L' d k (n + 1) pa perm := by
  refine ⟨hmv.trans h.moved, fun j => ?_, ?_⟩
  · rw [h.pte, hpte]
    by_cases hj : j = k
    · rw [if_neg (by omega), if_pos (by omega), hj, update_self, Nat.sub_self,
        Nat.zero_mul, Nat.add_zero]
    · rw [update_of_ne hj]
      by_cases hin : k + 1 ≤ j ∧ j < k + 1 + n
      · rw [if_pos hin, if_pos (by omega)]
        congr 1
        obtain ⟨c, rfl⟩ : ∃ c, j = k + 1 + c := ⟨j - (k + 1), by omega⟩
        rw [Nat.add_sub_cancel_left, show k + 1 + c - k = c + 1 by omega]
        ring
      · rw [if_neg hin, if_neg (by omega)]
  · refine (hext.mono fun i hi => ?_).trans (h.ext.mono fun i hi => ?_)
    · omega
    · omega

theorem map_step (last fuel : ℕ) (hk : k < VPAGES) (hw : mapEntry pa perm < 2 ^ 32)
    (hp : Pool img m L (dirs m d)) (habs : ¬ Present (pte m d k)) :
    (L = [] ∧ mapLoop img d last perm (fuel + 1) (k * PGSIZE) pa m = .ok (false, m)) ∨
      ∃ m1 L1, mapLoop img d last perm (fuel + 1) (k * PGSIZE) pa m =
          (if k * PGSIZE = last then .ok (true, m1)
            else mapLoop img d last perm fuel ((k * PGSIZE + PGSIZE) % 2 ^ 32)
              ((pa + PGSIZE) % 2 ^ 32) m1) ∧
        pte m1 d = update (pte m d) k (mapEntry pa perm) ∧
        Extends m m1 d (· = k / 1024) ∧ Moved m L (dirs m d) m1 L1 (dirs m1 d) ∧
        L.length ≤ L1.length + 1 := by
  obtain ⟨hva, hkk⟩ := page_addr hk
  rcases walk_alloc hva hp with ⟨rfl, hwalk⟩ | ⟨m1, L1, hwalk, hw1⟩
  · left
    rw [mapLoop, bind_eq hwalk]
    exact ⟨rfl, rfl⟩
  right
  rw [hkk] at hwalk hw1
  have habs1 : ¬ Present (pte m1 d k) := by rwa [hw1.pte]
  have hp1 := hp.moved hw1.moved
  obtain ⟨hpde2, hpte2, hmv2⟩ := set_entry hk hw1.present hw hp1 rfl
  refine ⟨_, L1, ?_, hpte2.trans (by rw [hw1.pte]), hw1.ext.trans (.of_eq hpde2),
    hw1.moved.trans hmv2, hw1.short⟩
  rw [mapLoop, bind_eq hwalk]
  dsimp only
  rw [get_bind, ← pte_of_present hk hw1.present, if_neg habs1, setEntry_bind]
  by_cases hlast : k * PGSIZE = last
  · rw [if_pos hlast, if_pos hlast]
    rfl
  · rw [if_neg hlast, if_neg hlast]
    rfl

theorem mapLoop_spec {last fuel : ℕ} (hk : k + n < VPAGES) (hlast : last = (k + n) * PGSIZE)
    (hfuel : n < fuel) (hpa : pa % PGSIZE = 0) (hlt : pa + (n + 1) * PGSIZE ≤ 2 ^ 32)
    (hperm : perm < PGSIZE) (hp : Pool img m L (dirs m d))
    (habs : ∀ j, k ≤ j → j ≤ k + n → ¬ Present (pte m d j)) :
    ∃ n' m' L', n' ≤ n + 1 ∧
      mapLoop img d last perm fuel (k * PGSIZE) pa m = .ok (decide (n' = n + 1), m') ∧
      (n' < n + 1 → L' = []) ∧ Mapped m L m' L' d k n' pa perm := by
  induction n generalizing m L k pa fuel with
  | zero =>
    rw [Nat.add_zero] at hk hlast
    obtain ⟨fuel, rfl⟩ := Nat.exists_eq_succ_of_ne_zero hfuel.ne'
    have hw : mapEntry pa perm < 2 ^ 32 := mapEntry_lt hpa (by omega) hperm
    rcases map_step last fuel hk hw hp (habs k le_rfl le_rfl) with
      ⟨rfl, h⟩ | ⟨m1, L1, h, hpte, hext, hmv, -⟩
    · exact ⟨0, m, [], Nat.zero_le _, h, fun _ => rfl, .refl hp k pa perm⟩
    · refine ⟨1, m1, L1, le_rfl, ?_, fun h => absurd h (lt_irrefl 1),
        (Mapped.refl (hp.moved hmv) _ _ _).cons hpte hext hmv⟩
      rw [h, if_pos hlast.symm]
      rfl
  | succ n ih =>
    obtain ⟨fuel, rfl⟩ := Nat.exists_eq_succ_of_ne_zero (Nat.zero_lt_of_lt hfuel).ne'
    have hsum : pa + PGSIZE + (n + 1) * PGSIZE ≤ 2 ^ 32 := by
      rw [Nat.succ_mul] at hlt
      omega
    have hw : mapEntry pa perm < 2 ^ 32 := mapEntry_lt hpa (by omega) hperm
    rcases map_step last fuel (by omega) hw hp (habs k le_rfl (by omega)) with
      ⟨rfl, h⟩ | ⟨m1, L1, h, hpte, hext, hmv, -⟩
    · exact ⟨0, m, [], Nat.zero_le _, h.trans (by simp), fun _ => rfl, .refl hp k pa perm⟩
    have habs1 : ∀ j, k + 1 ≤ j → j ≤ k + 1 + n → ¬ Present (pte m1 d j) := by
      intro j h1 h2
      rw [hpte, update_of_ne (by omega)]
      exact habs j (by omega) (by omega)
    -- neither address wraps around before the last page
    have hne : k * PGSIZE ≠ last := by
      rw [hlast]
      unfold PGSIZE
      omega
    have hnext : (k * PGSIZE + PGSIZE) % 2 ^ 32 = (k + 1) * PGSIZE := by
      unfold VPAGES PGSIZE at *
      omega
    have hpnext : (pa + PGSIZE) % 2 ^ 32 = pa + PGSIZE := by
      unfold PGSIZE at *
      omega
    obtain ⟨n', m', L', hn', hrun, hfail, hmap⟩ := ih (k := k + 1) (by omega)
      (by rw [hlast, show k + (n + 1) = k + 1 + n by omega]) (show n < fuel by omega)
      (by rw [Nat.add_mod_right]; exact hpa) hsum (hp.moved hmv) habs1
    refine ⟨n' + 1, m', L', by omega, ?_, fun hlt => hfail (by omega), hmap.cons hpte hext hmv⟩
    rw [h, if_neg hne, hnext, hpnext, hrun]
    simp

theorem mappages_page (hk : k < VPAGES) (hpa : pa % PGSIZE = 0) (hlt : pa + PGSIZE ≤ 2 ^ 32)
    (hperm : perm < PGSIZE) (hp : Pool img m L (dirs m d)) (habs : ¬ Present (pte m d k)) :
    (L = [] ∧ mappages img d (k * PGSIZE) PGSIZE pa perm m = .ok (false, m)) ∨
      ∃ m' L', mappages img d (k * PGSIZE) PGSIZE pa perm m = .ok (true, m') ∧
        pte m' d = update (pte m d) k (mapEntry pa perm) ∧
        Extends m m' d (· = k / 1024) ∧ Moved m L (dirs m d) m' L' (dirs m' d) ∧
        L.length ≤ L'.length + 1 := by
  obtain ⟨fuel, hfuel⟩ : ∃ fuel, NPDENTRIES * NPTENTRIES = fuel + 1 := ⟨1048575, by decide⟩
  have hone : mappages img d (k * PGSIZE) PGSIZE pa perm =
      mapLoop img d (k * PGSIZE) perm (fuel + 1) (k * PGSIZE) pa := by
    have ha : PGROUNDDOWN (k * PGSIZE) = k * PGSIZE := by
      unfold PGROUNDDOWN PGSIZE
      omega
    have hlast : PGROUNDDOWN ((k * PGSIZE + PGSIZE + 2 ^ 32 - 1) % 2 ^ 32) = k * PGSIZE := by
      unfold VPAGES at hk
      unfold PGROUNDDOWN PGSIZE
      omega
    unfold mappages
    rw [ha, hlast, hfuel]
  rw [hone]
  rcases map_step (k * PGSIZE) fuel hk (mapEntry_lt hpa hlt hperm) hp habs with
    hfail | ⟨m1, L1, h, hmap⟩
  · exact .inl hfail
  · rw [if_pos rfl] at h
    exact .inr ⟨m1, L1, h, hmap⟩

end Map

/-! ## `deallocuvm` -/

def npages (sz : ℕ) : ℕ := (sz + PGSIZE - 1) / PGSIZE

theorem lt_npages {j sz : ℕ} : j < npages sz ↔ j * PGSIZE < sz := by
  unfold npages PGSIZE
  omega

theorem npages_le {j sz : ℕ} : npages sz ≤ j ↔ sz ≤ j * PGSIZE := by
  unfold npages PGSIZE
  omega

theorem npages_mono {sz sz' : ℕ} (h : sz ≤ sz') : npages sz ≤ npages sz' := by
  unfold npages PGSIZE
  omega

theorem npages_le_UPAGES {sz : ℕ} (h : sz ≤ KERNBASE) : npages sz ≤ UPAGES := by
  unfold npages KERNBASE UPAGES PGSIZE at *
  omega

section Dealloc

variable {oldsz newsz fuel k K : ℕ}

/-- The present entries from `k` to `K - 1` were cleared and their pages given back. -/
structure Cleared (m : Mem) (L : List ℕ) (m' : Mem) (L' : List ℕ) (d k K : ℕ) : Prop where
  moved : Moved m L (dirs m d + between k K (pte m d)) m' L' (dirs m' d)
  pde : pde m' d = pde m d
  pte : ∀ j, pte m' d j = if k ≤ j ∧ j < K ∧ Present (pte m d j) then 0 else pte m d j

theorem Cleared.of_le (hp : Pool img m L (dirs m d)) (h : K ≤ k) : Cleared m L m L d k K := by
  refine ⟨?_, rfl, fun j => (if_neg (by omega)).symm⟩
  rw [between_eq_zero fun i h1 h2 => by omega, add_zero]
  exact .refl hp.chain

theorem Cleared.skip {k' : ℕ} (h : Cleared m L m' L' d k' K) (hk : k ≤ k')
    (habs : ∀ j, k ≤ j → j < k' → ¬ Present (Vm.pte m d j)) : Cleared m L m' L' d k K := by
  have hbet : between k K (Vm.pte m d) = between k' K (Vm.pte m d) := by
    by_cases hK : k' ≤ K
    · rw [between_add hk hK, between_eq_zero habs, zero_add]
    · rw [between_eq_zero fun i h1 h2 => habs i h1 (by omega),
        between_eq_zero fun i h1 h2 => by omega]
  refine ⟨hbet ▸ h.moved, h.pde, fun j => ?_⟩
  rw [h.pte]
  by_cases hj : k ≤ j ∧ j < k'
  · rw [if_neg (by omega), if_neg fun hc => habs j hj.1 hj.2 hc.2.2]
  · congr 1
    exact propext ⟨fun hc => ⟨by omega, hc.2⟩, fun hc => ⟨by omega, hc.2⟩⟩

theorem clear_entry (hpr : Present (pte m d k))
    (hp : Pool img m L (dirs m d + {pageOf (pte m d k)})) :
    ∃ m1 m', kfree img (pageOf (pte m d k)) m = .ok ((), m1) ∧
      m' = m1.write (pageOf (pde m d (k / 1024)))
        ((m1.page (pageOf (pde m d (k / 1024)))).setWord (k % 1024) 0) ∧
      pde m' d = pde m d ∧ pte m' d = update (pte m d) k 0 ∧
      Moved m L (dirs m d + {pageOf (pte m d k)}) m' (pageOf (pte m d k) :: L) (dirs m' d) := by
  obtain ⟨hk, hpd⟩ := present_pde hpr
  rw [add_comm] at hp
  obtain ⟨m1, hfree, hmv⟩ := kfree_spec hp.left
  obtain ⟨hpde1, hpte1⟩ := hp.view hmv
  have hp1 := hp.moved_add hmv
  rw [zero_add, ← dirs_congr hpde1] at hp1
  have hset := set_entry (w := 0) hk (hpde1.symm ▸ hpd) (by norm_num) hp1 rfl
  rw [hpde1, hpte1] at hset
  obtain ⟨hpde, hpte, hmv'⟩ := hset
  refine ⟨m1, _, hfree, rfl, hpde, hpte, ?_⟩
  have hmv1 := hmv.add_right (dirs m d)
  rw [zero_add, ← dirs_congr hpde1] at hmv1
  rw [add_comm, ← dirs_congr hpde1]
  exact hmv1.trans hmv'

theorem Cleared.cons {m1 : Mem} (hpr : Present (Vm.pte m d k)) (hkK : k < K)
    (hpde : Vm.pde m1 d = Vm.pde m d) (hpte : Vm.pte m1 d = update (Vm.pte m d) k 0)
    (hmv : Moved m L (dirs m d + {pageOf (Vm.pte m d k)}) m1 (pageOf (Vm.pte m d k) :: L)
      (dirs m1 d))
    (h : Cleared m1 (pageOf (Vm.pte m d k) :: L) m' L' d (k + 1) K) : Cleared m L m' L' d k K := by
  refine ⟨?_, h.pde.trans hpde, fun j => ?_⟩
  · have hsplit : between k K (Vm.pte m d) =
        {pageOf (Vm.pte m d k)} + between (k + 1) K (Vm.pte m1 d) := by
      rw [between_add (Nat.le_succ k) hkK, between_succ le_rfl, between_self, zero_add,
        held_of_present hpr, hpte, between_update_of_not (by omega)]
    rw [hsplit, ← add_assoc]
    exact (hmv.add_right _).trans h.moved
  · rw [h.pte, hpte]
    by_cases hj : j = k
    · subst hj
      rw [if_neg (by omega), update_self, if_pos ⟨le_rfl, hkK, hpr⟩]
    · rw [update_of_ne hj]
      congr 1
      exact propext ⟨fun hc => ⟨by omega, hc.2⟩, fun hc => ⟨by omega, hc.2⟩⟩

theorem deallocLoop_spec (hK : ∀ j, j * PGSIZE < oldsz ↔ j < K) (hKU : K ≤ UPAGES)
    (hfuel : 0 < fuel ∧ K < k + fuel) (hp : Pool img m L (dirs m d + between k K (pte m d))) :
    ∃ m' L', deallocLoop img d oldsz fuel (k * PGSIZE) m = .ok ((), m') ∧
      Cleared m L m' L' d k K := by
  induction fuel generalizing m L k with
  | zero => exact absurd hfuel.1 (lt_irrefl 0)
  | succ fuel ih =>
    unfold deallocLoop
    by_cases hk : k < K
    swap
    · rw [if_neg fun hc => hk ((hK k).mp hc)]
      exact ⟨m, L, rfl, .of_le hp.left (by omega)⟩
    rw [if_pos ((hK k).mpr hk)]
    have hkV : k < VPAGES := by
      unfold UPAGES VPAGES at *
      omega
    obtain ⟨hva, hkk⟩ := page_addr hkV
    have hwalk := walk_page img m d hkV
    have hstep : (k * PGSIZE + PGSIZE) % 2 ^ 32 = (k + 1) * PGSIZE := by
      unfold UPAGES PGSIZE at *
      omega
    by_cases hpd : Present (pde m d (k / 1024))
    swap
    · -- There is no page table: the loop goes on at the next directory entry.
      have hnext : ((PGADDR (PDX (k * PGSIZE) + 1) 0 0 + 2 ^ 32 - PGSIZE) % 2 ^ 32 + PGSIZE) %
          2 ^ 32 = (k / 1024 + 1) * 1024 * PGSIZE := by
        rw [PDX_eq hva, hkk]
        unfold PGADDR UPAGES PGSIZE at *
        omega
      have habs : ∀ j, k ≤ j → j < (k / 1024 + 1) * 1024 → ¬ Present (pte m d j) := by
        intro j h1 h2
        rw [pte_of_not (by rwa [show j / 1024 = k / 1024 by omega])]
        exact not_present_zero
      have hle : between ((k / 1024 + 1) * 1024) K (pte m d) ≤ between k K (pte m d) := by
        by_cases hK' : (k / 1024 + 1) * 1024 ≤ K
        · rw [between_add (show k ≤ (k / 1024 + 1) * 1024 by omega) hK']
          exact Multiset.le_add_left _ _
        · rw [between_eq_zero (a := (k / 1024 + 1) * 1024) fun i h1 h2 => by omega]
          exact Multiset.zero_le _
      obtain ⟨m', L', hrun, hc⟩ := ih (m := m) (k := (k / 1024 + 1) * 1024) (by omega)
        (hp.mono (add_le_add_right hle _))
      rw [if_neg hpd] at hwalk
      refine ⟨m', L', ?_, hc.skip (by omega) habs⟩
      rw [bind_eq hwalk]
      dsimp only
      rw [hnext]
      exact hrun
    · rw [if_pos hpd] at hwalk
      have hbet : between k K (pte m d) = held (pte m d k) + between (k + 1) K (pte m d) := by
        rw [between_add (Nat.le_succ k) hk, between_succ le_rfl, between_self, zero_add]
      rw [hbet] at hp
      rw [bind_eq hwalk]
      dsimp only
      rw [get_bind, ← pte_of_present hkV hpd, hstep]
      by_cases hpr : Present (pte m d k)
      swap
      · rw [held_of_not hpr, zero_add] at hp
        obtain ⟨m', L', hrun, hc⟩ := ih (m := m) (k := k + 1) (by omega) hp
        rw [if_neg hpr]
        refine ⟨m', L', hrun, hc.skip (Nat.le_succ k) fun j h1 h2 => ?_⟩
        rwa [show j = k by omega]
      · rw [held_of_present hpr, ← add_assoc] at hp
        obtain ⟨m1, m2, hfree, rfl, hpde, hpte, hmv⟩ := clear_entry hpr hp.left
        have hp2 := hp.moved_add hmv
        rw [← between_update_of_not (i := k) (.inl (Nat.lt_succ_self k)) 0, ← hpte] at hp2
        obtain ⟨m', L', hrun, hc⟩ := ih (k := k + 1) (by omega) hp2
        have haddr := (hp.left.right.isPage (Multiset.mem_singleton_self _)).addr_ne_zero
        refine ⟨m', L', ?_, .cons hpr hk hpde hpte hmv hc⟩
        rw [if_pos hpr, if_neg haddr, bind_eq hfree, setEntry_bind]
        exact hrun

theorem deallocuvm_spec (newsz : ℕ) (hsz : oldsz ≤ KERNBASE)
    (hp : Pool img m L (dirs m d + between (npages newsz) (npages oldsz) (pte m d))) :
    ∃ m' L', deallocuvm img d oldsz newsz m = .ok (min oldsz newsz, m') ∧
      Cleared m L m' L' d (npages newsz) (npages oldsz) := by
  unfold deallocuvm
  by_cases hle : oldsz ≤ newsz
  · rw [if_pos hle, min_eq_left hle]
    exact ⟨m, L, rfl, .of_le hp.left (npages_mono hle)⟩
  · rw [if_neg hle, min_eq_right (by omega)]
    have hU := npages_le_UPAGES hsz
    have hfuel : npages oldsz < npages newsz + (oldsz / PGSIZE + 2) := by
      unfold npages PGSIZE
      omega
    obtain ⟨m', L', hrun, hc⟩ := deallocLoop_spec (fun j => lt_npages.symm) hU
      ⟨Nat.succ_pos _, hfuel⟩ hp
    exact ⟨m', L', bind_eq hrun, hc⟩

end Dealloc

/-! ## `allocuvm` -/

section Alloc

variable {oldsz newsz k k₀ K n : ℕ}

structure Grown (img : KernelImage) (m : Mem) (L : List ℕ) (m' : Mem) (L' : List ℕ)
    (d k K : ℕ) : Prop where
  moved : Moved m L (dirs m d) m' L' (dirs m' d + between k K (pte m' d))
  rest : ∀ j, j < k ∨ K ≤ j → pte m' d j = pte m d j
  fresh : ∀ j, k ≤ j → j < K → ∃ v, IsPage img v ∧
    pte m' d j = mapEntry (V2P v) (PTE_W ||| PTE_U) ∧ m'.page v = Block.zero
  ext : Extends m m' d fun i => k / 1024 ≤ i ∧ i * 1024 < K

theorem Grown.refl (hp : Pool img m L (dirs m d)) (k : ℕ) : Grown img m L m L d k k := by
  refine ⟨?_, fun _ _ => rfl, fun j h1 h2 => by omega, .of_eq rfl⟩
  rw [between_self, add_zero]
  exact .refl hp.chain

theorem Grown.cons {m1 : Mem} {L1 : List ℕ} (hp : Pool img m L (dirs m d)) (hkK : k < K)
    (hv : IsPage img v) (hpte : pte m1 d = update (pte m d) k (mapEntry (V2P v) (PTE_W ||| PTE_U)))
    (hext : Extends m m1 d (· = k / 1024)) (hmv : Moved m L (dirs m d) m1 L1 (dirs m1 d + {v}))
    (hz : m1.page v = Block.zero) (h : Grown img m1 L1 m' L' d (k + 1) K) :
    Grown img m L m' L' d k K := by
  have hk' : pte m' d k = mapEntry (V2P v) (PTE_W ||| PTE_U) := by
    rw [h.rest k (.inl (Nat.lt_succ_self k)), hpte, update_self]
  have hheld := (hv.map_entry (show PTE_W ||| PTE_U < PGSIZE by decide)).2
  refine ⟨?_, fun j hj => ?_, fun j h1 h2 => ?_, ?_⟩
  · rw [between_add (Nat.le_succ k) hkK, between_succ le_rfl, between_self, zero_add, hk', hheld,
      add_comm ({v} : Multiset ℕ), ← add_assoc]
    exact hmv.trans (h.moved.add_right _)
  · rw [h.rest j (by omega), hpte, update_of_ne (by omega)]
  · by_cases hj : j = k
    · refine ⟨v, hv, hj ▸ hk', ?_⟩
      rw [(hp.moved hmv).frame h.moved (Multiset.mem_singleton_self v), hz]
    · exact h.fresh j (by omega) h2
  · refine (hext.mono fun i hi => ?_).trans (h.ext.mono fun i hi => ?_)
    · omega
    · omega

structure Undone (m : Mem) (L : List ℕ) (m' : Mem) (L' : List ℕ) (d k₀ k K : ℕ) : Prop where
  moved : Moved m L (dirs m d + between k₀ k (pte m d)) m' L' (dirs m' d)
  rest : ∀ j, j < k₀ ∨ K ≤ j → pte m' d j = pte m d j
  gone : ∀ j, k₀ ≤ j → j < K → ¬ Present (pte m' d j)

theorem dealloc_undone (hold : npages oldsz = k₀) (hnew : npages newsz = K) (hsz : newsz ≤ KERNBASE)
    (hk : k₀ ≤ k) (hkK : k ≤ K) (hp : Pool img m L (dirs m d + between k₀ k (pte m d)))
    (habs : ∀ j, k ≤ j → j < K → ¬ Present (pte m d j)) :
    ∃ r m' L', deallocuvm img d newsz oldsz m = .ok (r, m') ∧ pde m' d = pde m d ∧
      Undone m L m' L' d k₀ k K := by
  subst hold hnew
  have hbet : between (npages oldsz) (npages newsz) (pte m d) =
      between (npages oldsz) k (pte m d) := by
    rw [between_add hk hkK, between_eq_zero habs, add_zero]
  rw [← hbet] at hp
  obtain ⟨m', L', hrun, hc⟩ := deallocuvm_spec _ hsz hp
  refine ⟨_, m', L', hrun, hc.pde, hbet ▸ hc.moved, fun j hj => ?_, fun j h1 h2 => ?_⟩
  · rw [hc.pte, if_neg (by omega)]
  · rw [hc.pte]
    split
    case isTrue => exact not_present_zero
    case isFalse h => exact fun hpr => h ⟨h1, h2, hpr⟩

theorem take_page (b : Block) (hp : Pool img m L X) :
    (L = [] ∧ kalloc img m = .ok (0, m)) ∨
      ∃ v L1 m1, L = v :: L1 ∧ kalloc img m = .ok (v, m1) ∧ v ≠ 0 ∧ IsPage img v ∧
        m1.page = m.page ∧ Moved m L 0 (m1.write v b) L1 {v} := by
  have hp0 : Pool img m L 0 := hp.mono (Multiset.zero_le X)
  rcases kalloc_spec hp0 with hnone | ⟨v, L1, m1, rfl, ha, hv0, hv, hpage, hmv⟩
  · exact .inl hnone
  · exact .inr ⟨v, L1, m1, rfl, ha, hv0, hv, hpage,
      hmv.trans ((hp0.moved hmv).write (Multiset.mem_singleton_self v) b)⟩

structure PageMapped (m : Mem) (L : List ℕ) (m' : Mem) (L' : List ℕ) (d k v perm : ℕ)
    (b : Block) : Prop where
  pte : pte m' d = update (pte m d) k (mapEntry (V2P v) perm)
  ext : Extends m m' d (· = k / 1024)
  page : m'.page v = b
  moved : Moved m L (dirs m d) m' L' (dirs m' d + {v})
  short : L.length ≤ L'.length + 2

theorem map_new_page {perm : ℕ} (b : Block) (hk : k < VPAGES) (hperm : perm < PGSIZE)
    (hp : Pool img m L (dirs m d)) (habs : ¬ Present (pte m d k)) :
    (L = [] ∧ kalloc img m = .ok (0, m)) ∨
      ∃ v m1, kalloc img m = .ok (v, m1) ∧ v ≠ 0 ∧ IsPage img v ∧ m1.page = m.page ∧
        ((L = [v] ∧ mappages img d (k * PGSIZE) PGSIZE (V2P v) perm (m1.write v b) =
            .ok (false, m1.write v b) ∧ Moved m L 0 (m1.write v b) [] {v}) ∨
        ∃ m' L', mappages img d (k * PGSIZE) PGSIZE (V2P v) perm (m1.write v b) =
            .ok (true, m') ∧ PageMapped m L m' L' d k v perm b) := by
  rcases take_page b hp with hnone | ⟨v, L1, m1, rfl, ha, hv0, hv, hpage, hmv⟩
  · exact .inl hnone
  refine .inr ⟨v, m1, ha, hv0, hv, hpage, ?_⟩
  have hself := m1.write_self v b
  generalize m1.write v b = m2 at hmv hself ⊢
  rw [← zero_add (dirs m d)] at hp
  obtain ⟨hpde, hpte⟩ := hp.view hmv
  have hp2 := hp.moved_add hmv
  rw [← dirs_congr hpde, add_comm] at hp2
  have habs2 : ¬ Present (pte m2 d k) := by rwa [hpte]
  rcases mappages_page hk hv.phys.1 hv.phys.2 hperm hp2.left habs2 with
    ⟨rfl, hmap⟩ | ⟨m', L', hmap, hpte', hext, hmv', hshort⟩
  · exact .inl ⟨rfl, hmap, hmv⟩
  refine .inr ⟨m', L', hmap, by rw [hpte', hpte], fun i => ?_, ?_, ?_, ?_⟩
  · rw [← hpde]
    exact hext i
  · rw [hp2.frame hmv' (Multiset.mem_singleton_self v), hself]
  · have h := hmv.add_right (dirs m d)
    rw [zero_add, add_comm ({v} : Multiset ℕ), ← dirs_congr hpde] at h
    rw [← dirs_congr hpde]
    exact h.trans (hmv'.add_right {v})
  · rw [List.length_cons]
    omega

theorem give_back {Y : Multiset ℕ} (hp : Pool img m L (dirs m d + Y + {v})) :
    ∃ m', kfree img v m = .ok ((), m') ∧ pde m' d = pde m d ∧ pte m' d = pte m d ∧
      Moved m L (dirs m d + Y + {v}) m' (v :: L) (dirs m' d + Y) := by
  rw [add_comm] at hp
  obtain ⟨m', hfree, hmv⟩ := kfree_spec hp.left
  have hview : pde m' d = pde m d ∧ pte m' d = pte m d :=
    view_frame fun u hu => hp.frame hmv (Multiset.mem_add.mpr (.inl hu))
  refine ⟨m', hfree, hview.1, hview.2, ?_⟩
  have h := hmv.add_right (dirs m d + Y)
  rw [zero_add, add_comm ({v} : Multiset ℕ)] at h
  rwa [dirs_congr hview.1]

theorem allocLoop_spec (hold : npages oldsz = k₀) (hnew : npages newsz = K) (hsz : newsz ≤ KERNBASE)
    (hk : k₀ ≤ k) (hkK : k + n = K) (hp : Pool img m L (dirs m d + between k₀ k (pte m d)))
    (habs : ∀ j, k ≤ j → j < K → ¬ Present (pte m d j)) :
    ∃ r m' L', allocLoop img d oldsz newsz n (k * PGSIZE) m = .ok (r, m') ∧
      if r then Grown img m L m' L' d k K
      else Undone m L m' L' d k₀ k K ∧ Extends m m' d (fun _ => True) ∧ L.length ≤ 2 * n := by
  induction n generalizing m L k with
  | zero =>
    refine ⟨true, m, L, rfl, ?_⟩
    rw [if_pos rfl, ← hkK]
    exact .refl hp.left k
  | succ n ih =>
    unfold allocLoop
    have hkV : k < VPAGES := by
      have hUP := npages_le_UPAGES hsz
      unfold UPAGES VPAGES at *
      omega
    rcases map_new_page Block.zero hkV (show PTE_W ||| PTE_U < PGSIZE by decide) hp.left
        (habs k le_rfl (by omega)) with
      ⟨rfl, ha⟩ | ⟨v, m1, ha, hv0, hv, -, ⟨rfl, hmap, hmv2⟩ | ⟨m3, L3, hmap, h3⟩⟩
    · obtain ⟨r, m', L', hrun, hpde, hu⟩ := dealloc_undone hold hnew hsz hk (by omega) hp habs
      refine ⟨false, m', L', ?_, ?_⟩
      · rw [bind_eq ha, if_pos rfl, bind_eq hrun]
        rfl
      · rw [if_neg Bool.false_ne_true]
        exact ⟨hu, .of_eq hpde, Nat.zero_le _⟩
    · -- the pages so far are given back, and then the one that was not mapped
      rw [bind_eq ha, if_neg hv0, zeroPage_bind, bind_eq hmap]
      generalize m1.write v Block.zero = m2 at hmv2 ⊢
      have hp0 : Pool img m [v] (0 + dirs m d) := by
        rw [zero_add]
        exact hp.left
      obtain ⟨hpde2, hpte2⟩ := hp0.view hmv2
      replace hmv2 := hmv2.add_right (dirs m d + between k₀ k (pte m d))
      rw [zero_add, add_comm ({v} : Multiset ℕ)] at hmv2
      have hp2 := hp.moved hmv2
      rw [← dirs_congr hpde2, ← hpte2] at hp2
      have habs2 : ∀ j, k ≤ j → j < K → ¬ Present (pte m2 d j) := by rwa [hpte2]
      obtain ⟨r, m4, L4, hrun, hpde4, hu⟩ :=
        dealloc_undone hold hnew hsz hk (by omega) hp2.left habs2
      have hmv4 := hu.moved.add_right {v}
      rw [← add_zero (dirs m4 d)] at hmv4
      obtain ⟨m5, hfree, hpde5, hpte5, hmv5⟩ := give_back (hp2.moved hmv4)
      rw [add_zero (dirs m5 d)] at hmv5
      refine ⟨false, m5, v :: L4, ?_, ?_⟩
      · rw [if_neg Bool.false_ne_true, bind_eq hrun, bind_eq hfree]
        rfl
      · rw [if_neg Bool.false_ne_true]
        refine ⟨⟨?_, fun j hj => ?_, fun j h1 h2 => ?_⟩,
          .of_eq (hpde5.trans (hpde4.trans hpde2)), by rw [List.length_singleton]; omega⟩
        · rw [dirs_congr hpde2, hpte2] at hmv4
          exact hmv2.trans (hmv4.trans hmv5)
        · rw [hpte5, hu.rest j hj, hpte2]
        · rw [hpte5]
          exact hu.gone j h1 h2
    · have hheld := (hv.map_entry (show PTE_W ||| PTE_U < PGSIZE by decide)).2
      have hbet : between k₀ (k + 1) (pte m3 d) = between k₀ k (pte m d) + {v} := by
        rw [between_succ hk, h3.pte, between_update_of_not (by omega), update_self, hheld]
      have hmv3 := h3.moved.add_right (between k₀ k (pte m d))
      rw [add_assoc, add_comm ({v} : Multiset ℕ), ← hbet] at hmv3
      have habs3 : ∀ j, k + 1 ≤ j → j < K → ¬ Present (pte m3 d j) := by
        intro j h1 h2
        rw [h3.pte, update_of_ne (by omega)]
        exact habs j (by omega) h2
      obtain ⟨r, m', L', hrun, hres⟩ := ih (k := k + 1) (by omega) (by omega)
        (hp.moved hmv3) habs3
      refine ⟨r, m', L', ?_, ?_⟩
      · rw [bind_eq ha, if_neg hv0, zeroPage_bind, bind_eq hmap, if_pos rfl,
          show k * PGSIZE + PGSIZE = (k + 1) * PGSIZE by ring]
        exact hrun
      cases r with
      | true =>
        rw [if_pos rfl] at hres ⊢
        exact .cons hp.left (by omega) hv h3.pte h3.ext h3.moved h3.page hres
      | false =>
        rw [if_neg Bool.false_ne_true] at hres ⊢
        obtain ⟨hu, hext', hlen⟩ := hres
        refine ⟨⟨hmv3.trans hu.moved, fun j hj => ?_, hu.gone⟩,
          (h3.ext.mono fun _ _ => trivial).trans hext', ?_⟩
        · rw [hu.rest j hj, h3.pte, update_of_ne (by omega)]
        · have hshort := h3.short
          omega

theorem allocuvm_spec (hle : oldsz ≤ newsz) (hsz : newsz < KERNBASE) (hp : Pool img m L (dirs m d))
    (habs : ∀ j, npages oldsz ≤ j → j < npages newsz → ¬ Present (pte m d j)) :
    ∃ (r : Bool) (m' : Mem) (L' : List ℕ),
      allocuvm img d oldsz newsz m = .ok (if r then newsz else 0, m') ∧
      if r then Grown img m L m' L' d (npages oldsz) (npages newsz)
      else Undone m L m' L' d (npages oldsz) (npages oldsz) (npages newsz) ∧
        Extends m m' d (fun _ => True) ∧ L.length ≤ 2 * (npages newsz - npages oldsz) := by
  have hmono := npages_mono hle
  have hcount : (newsz - PGROUNDUP oldsz + PGSIZE - 1) / PGSIZE = npages newsz - npages oldsz := by
    unfold PGROUNDUP npages PGSIZE
    omega
  rw [← add_zero (dirs m d), ← between_self (npages oldsz) (pte m d)] at hp
  obtain ⟨r, m', L', hrun, hres⟩ := allocLoop_spec (n := npages newsz - npages oldsz) rfl rfl
    hsz.le le_rfl (by omega) hp habs
  refine ⟨r, m', L', ?_, hres⟩
  have hloop : allocLoop img d oldsz newsz (npages newsz - npages oldsz) (PGROUNDUP oldsz) m =
      .ok (r, m') := hrun
  unfold allocuvm
  rw [if_neg (by omega), if_neg (by omega), hcount, bind_eq hloop]
  cases r <;> rfl

end Alloc

/-! ## Address spaces without holes -/

section Exact

variable {sz newsz : ℕ}

def Exact (m : Mem) (d sz : ℕ) : Prop := ∀ k < UPAGES, Present (pte m d k) ↔ k * PGSIZE < sz

theorem Exact.space_eq (h : Exact m d sz) (hsz : sz < KERNBASE) :
    space m d = dirs m d + between 0 (npages sz) (pte m d) := by
  have hU := npages_le_UPAGES hsz.le
  rw [Vm.space_eq, between_add (Nat.zero_le _) hU, between_eq_zero (a := npages sz), add_zero]
  intro k h1 h2 hpr
  exact absurd (lt_npages.mpr ((h k h2).mp hpr)) (by omega)

theorem Grown.exact {img : KernelImage} (hg : Grown img m L m' L' d (npages sz) (npages newsz))
    (hx : Exact m d sz) (hle : sz ≤ newsz) : Exact m' d newsz := by
  intro k hk
  have hmono := npages_mono hle
  by_cases h1 : npages sz ≤ k ∧ k < npages newsz
  · obtain ⟨v, -, hpte, -⟩ := hg.fresh k h1.1 h1.2
    rw [hpte]
    exact iff_of_true (present_mapEntry _ _) (lt_npages.mp h1.2)
  · rw [hg.rest k (by omega), hx k hk, ← lt_npages, ← lt_npages]
    omega

theorem Cleared.exact (hx : Exact m d sz) (hle : newsz ≤ sz)
    (hc : Cleared m L m' L' d (npages newsz) (npages sz)) : Exact m' d newsz := by
  intro k hk
  have hmono := npages_mono hle
  rw [hc.pte]
  by_cases h : npages newsz ≤ k ∧ k < npages sz ∧ Present (Vm.pte m d k)
  · rw [if_pos h]
    exact iff_of_false not_present_zero fun hlt => absurd (lt_npages.mpr hlt) (by omega)
  · rw [if_neg h, hx k hk, ← lt_npages, ← lt_npages]
    refine ⟨fun hlt => ?_, fun hlt => by omega⟩
    by_contra hge
    exact h ⟨by omega, hlt, (hx k hk).mpr (lt_npages.mp hlt)⟩

theorem Grown.moved_space (hx : Exact m d sz) (hle : sz ≤ newsz) (hnew : newsz < KERNBASE)
    (hg : Grown img m L m' L' d (npages sz) (npages newsz)) :
    Moved m L (space m d) m' L' (space m' d) := by
  have hmono := npages_mono hle
  have hsame : between 0 (npages sz) (pte m' d) = between 0 (npages sz) (pte m d) :=
    between_congr fun i _ hi => hg.rest i (.inl hi)
  rw [hx.space_eq (hle.trans_lt hnew), (hg.exact hx hle).space_eq hnew,
    between_add (Nat.zero_le _) hmono, hsame, add_comm (between 0 (npages sz) _), ← add_assoc]
  exact hg.moved.add_right _

theorem Undone.moved_space (hx : Exact m d sz) (hle : sz ≤ newsz) (hnew : newsz < KERNBASE)
    (hu : Undone m L m' L' d (npages sz) (npages sz) (npages newsz)) :
    Exact m' d sz ∧ Moved m L (space m d) m' L' (space m' d) := by
  have hmono := npages_mono hle
  have hx' : Exact m' d sz := by
    intro k hk
    by_cases h1 : npages sz ≤ k ∧ k < npages newsz
    · refine iff_of_false (hu.gone k h1.1 h1.2) fun hlt => absurd (lt_npages.mpr hlt) (by omega)
    · rw [hu.rest k (by omega), hx k hk]
  have hsame : between 0 (npages sz) (pte m' d) = between 0 (npages sz) (pte m d) :=
    between_congr fun i _ hi => hu.rest i (.inl hi)
  refine ⟨hx', ?_⟩
  rw [hx.space_eq (hle.trans_lt hnew), hx'.space_eq (hle.trans_lt hnew), hsame]
  have hmv := hu.moved
  rw [between_self, add_zero] at hmv
  exact hmv.add_right _

end Exact

end Xv6.Vm
