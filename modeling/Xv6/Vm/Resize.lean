import Xv6.Vm.Grow
import Xv6.Vm.UserMem

/-!
# `allocuvm` and `deallocuvm`

1. `deallocuvm` skips 4 MB where there is no page table. It does the same as a visit to every page
   of the range (`deallocPages`), and gives back exactly the pages that are mapped there.
2. `allocuvm` maps exactly the pages up to the new size, or undoes what it did. `kalloc` fails when
   the free list is empty, so the length of the list says at which page or page table it fails.
-/

namespace Xv6.Vm

open StateExcept

variable {img : KernelImage} {m m' : Mem} {L L' : List ℕ} {d oldsz newsz : ℕ}

/-! ## `deallocuvm`, page by page -/

def deallocPage (img : KernelImage) (pgdir k : ℕ) : MemM Unit := do
  match ← walkpgdir img pgdir (k * PGSIZE) false with
  | none => return
  | some (pgtab, j) => do
    let m ← get
    let pte := (m.page pgtab).word j
    if Present pte then
      if PTE_ADDR pte = 0 then throw .kfree
      else do
        kfree img (pageOf pte)
        setEntry pgtab j 0
    else return

def deallocRange (img : KernelImage) (pgdir : ℕ) : ℕ → ℕ → MemM Unit
  | 0, _ => return
  | n + 1, k => do
    deallocPage img pgdir k
    deallocRange img pgdir n (k + 1)

def deallocPages (img : KernelImage) (pgdir oldsz newsz : ℕ) : MemM ℕ := do
  deallocRange img pgdir (npages oldsz - npages newsz) (npages newsz)
  return min oldsz newsz

theorem deallocPage_absent {k : ℕ} (hk : k < VPAGES) (h : ¬ Present (pde m d (k / 1024))) :
    deallocPage img d k m = .ok ((), m) := by
  have hwalk := walk_page img m d hk
  rw [if_neg h] at hwalk
  unfold deallocPage
  rw [bind_eq hwalk]
  rfl

theorem deallocRange_absent (img : KernelImage) (n : ℕ) {i k : ℕ} (hi : i < NPDENTRIES)
    (h : ¬ Present (pde m d i)) (hlow : i * 1024 ≤ k) (c : ℕ) (hhigh : k + c ≤ (i + 1) * 1024) :
    deallocRange img d (c + n) k m = deallocRange img d n (k + c) m := by
  induction c generalizing k with
  | zero => rw [Nat.zero_add, Nat.add_zero]
  | succ c ih =>
    have hpage : k / 1024 = i := by omega
    have hk : k < VPAGES := by
      unfold NPDENTRIES at hi
      unfold VPAGES
      omega
    rw [Nat.succ_add, deallocRange, bind_eq (deallocPage_absent hk (hpage ▸ h)),
      ih (by omega) (by omega), Nat.add_right_comm, Nat.add_assoc]

theorem deallocLoop_eq {fuel k K : ℕ} (hK : ∀ j, j * PGSIZE < oldsz ↔ j < K) (hKU : K ≤ UPAGES)
    (hfuel : 0 < fuel ∧ K < k + fuel) (m : Mem) :
    deallocLoop img d oldsz fuel (k * PGSIZE) m = deallocRange img d (K - k) k m := by
  induction fuel generalizing m k with
  | zero => exact absurd hfuel.1 (lt_irrefl 0)
  | succ fuel ih =>
    unfold deallocLoop
    by_cases hk : k < K
    swap
    · rw [if_neg fun hc => hk ((hK k).mp hc), Nat.sub_eq_zero_of_le (not_lt.mp hk)]
      rfl
    rw [if_pos ((hK k).mpr hk)]
    have hkV : k < VPAGES := by
      unfold UPAGES VPAGES at *
      omega
    obtain ⟨hva, hkk⟩ := page_addr hkV
    have hwalk := walk_page img m d hkV
    by_cases hpd : Present (pde m d (k / 1024))
    swap
    · rw [if_neg hpd] at hwalk
      have hnext : ((PGADDR (PDX (k * PGSIZE) + 1) 0 0 + 2 ^ 32 - PGSIZE) % 2 ^ 32 + PGSIZE) %
          2 ^ 32 = (k / 1024 + 1) * 1024 * PGSIZE := by
        rw [PDX_eq hva, hkk]
        unfold PGADDR UPAGES PGSIZE at *
        omega
      rw [bind_eq hwalk]
      dsimp only
      rw [hnext, ih (by omega)]
      have hi := pde_index_lt hkV
      -- the range may end before the next directory entry
      by_cases hend : (k / 1024 + 1) * 1024 ≤ K
      · have habs := deallocRange_absent img (K - (k / 1024 + 1) * 1024) hi hpd
          (Nat.div_mul_le_self k 1024) ((k / 1024 + 1) * 1024 - k) (by omega)
        rw [show (k / 1024 + 1) * 1024 - k + (K - (k / 1024 + 1) * 1024) = K - k by omega,
          show k + ((k / 1024 + 1) * 1024 - k) = (k / 1024 + 1) * 1024 by omega] at habs
        exact habs.symm
      · have habs := deallocRange_absent img 0 hi hpd
          (Nat.div_mul_le_self k 1024) (K - k) (by omega)
        rw [Nat.sub_eq_zero_of_le (by omega)]
        exact habs.symm
    · rw [if_pos hpd] at hwalk
      have hstep : (k * PGSIZE + PGSIZE) % 2 ^ 32 = (k + 1) * PGSIZE := by
        unfold UPAGES PGSIZE at *
        omega
      have hrest : deallocLoop img d oldsz fuel ((k + 1) * PGSIZE) =
          deallocRange img d (K - (k + 1)) (k + 1) := funext fun m' => ih (by omega) m'
      have hvisit : deallocRange img d (K - k) k m =
          (deallocPage img d k >>= fun _ => deallocRange img d (K - (k + 1)) (k + 1)) m := by
        rw [show K - k = K - (k + 1) + 1 by omega, deallocRange]
      rw [hvisit, bind_eq hwalk, deallocPage, bind_assoc, bind_eq hwalk]
      dsimp only
      rw [hstep, hrest, bind_assoc, get_bind, get_bind]
      by_cases hpr : Present ((m.page (pageOf (pde m d (k / 1024)))).word (k % 1024))
      · rw [if_pos hpr, if_pos hpr]
        by_cases h0 : PTE_ADDR ((m.page (pageOf (pde m d (k / 1024)))).word (k % 1024)) = 0
        · rw [if_pos h0, if_pos h0]
          rfl
        · rw [if_neg h0, if_neg h0, bind_assoc]
      · rw [if_neg hpr, if_neg hpr, pure_bind]

theorem deallocuvm_eq (hold : oldsz ≤ KERNBASE) (newsz : ℕ) (m : Mem) :
    deallocuvm img d oldsz newsz m = deallocPages img d oldsz newsz m := by
  unfold deallocuvm deallocPages
  by_cases hle : oldsz ≤ newsz
  · rw [if_pos hle, min_eq_left hle, Nat.sub_eq_zero_of_le (npages_mono hle)]
    rfl
  · have hfuel : npages oldsz < npages newsz + (oldsz / PGSIZE + 2) := by
      unfold npages PGSIZE
      omega
    have hloop : deallocLoop img d oldsz (oldsz / PGSIZE + 2) (PGROUNDUP newsz) =
        deallocRange img d (npages oldsz - npages newsz) (npages newsz) :=
      funext fun m' => deallocLoop_eq (fun j => lt_npages.symm) (npages_le_UPAGES hold)
        ⟨Nat.succ_pos _, hfuel⟩ m'
    rw [if_neg hle, min_eq_right (by omega), hloop]

/-- **`deallocuvm` is the page-by-page release.** It returns with the memory that the visits to the
pages of the range lead to. The pages that are mapped in the range are free now, once each, and
their entries are cleared; no other entry and no other page of the address space has changed. -/
theorem deallocuvm_page_by_page (newsz : ℕ) (hold : oldsz ≤ KERNBASE)
    (hp : Pool img m L (space m d)) :
    ∃ m' L', deallocuvm img d oldsz newsz m = .ok (min oldsz newsz, m') ∧
      deallocPages img d oldsz newsz m = .ok (min oldsz newsz, m') ∧
      Free m' L' ∧ L'.Nodup ∧
      (L' : Multiset ℕ) = L + between (npages newsz) (npages oldsz) (pte m d) ∧
      pde m' d = pde m d ∧
      (∀ k, pte m' d k = if npages newsz ≤ k ∧ k < npages oldsz ∧ Present (pte m d k) then 0
        else pte m d k) ∧
      ∀ k < UPAGES, k < npages newsz ∨ npages oldsz ≤ k → Present (pte m d k) →
        m'.page (pageOf (pte m d k)) = m.page (pageOf (pte m d k)) := by
  have hpd := hp
  rw [space_eq] at hpd
  have hU := npages_le_UPAGES hold
  have hle := between_mono (Nat.zero_le (npages newsz)) hU (pte m d)
  obtain ⟨Z, hZ⟩ := Multiset.le_iff_exists_add.mp hle
  rw [hZ, ← add_assoc] at hpd
  obtain ⟨m', L', hrun, hc⟩ := deallocuvm_spec newsz hold hpd.left
  refine ⟨m', L', hrun, (deallocuvm_eq hold newsz m).symm.trans hrun, hc.moved.chain, ?_, ?_,
    hc.pde, hc.pte, fun k hk hout hpr => hpd.frame hc.moved ?_⟩
  · exact Multiset.coe_nodup.mp (Multiset.nodup_add.mp (hpd.left.moved hc.moved).nodup).1
  · have hsame := hc.moved.same
    rw [dirs_congr hc.pde, add_comm (dirs m d), ← add_assoc] at hsame
    exact add_right_cancel hsame
  · -- the page is mapped outside the range, so it is one of `Z`
    have hmem : pageOf (pte m d k) ∈ between 0 UPAGES (pte m d) :=
      mem_between (Nat.zero_le k) hk hpr
    rw [hZ] at hmem
    refine (Multiset.mem_add.mp hmem).resolve_left fun hin => ?_
    obtain ⟨j, h1, h2, hpj, heq⟩ := exists_of_mem_between hin
    have hjk := page_ne_of_ne hp (h2.trans_le hU) hk hpj hpr
    exact hjk (by omega) heq

/-- A process of one page loses all its memory: over the missing page tables, up to `KERNBASE`. -/
theorem deallocuvm_onePage :
    ∃ m', deallocuvm smallImage 0x80200000 KERNBASE 0 onePage = .ok (0, m') ∧
      deallocPages smallImage 0x80200000 KERNBASE 0 onePage = .ok (0, m') := by
  obtain ⟨m', -, h, h', -⟩ := deallocuvm_page_by_page 0 le_rfl onePage_spec.1
  exact ⟨m', h, h'⟩

/-! ## `allocuvm` -/

theorem Extends.dirs_le {P : ℕ → Prop} (h : Extends m m' d P) : dirs m d ≤ dirs m' d := by
  unfold dirs tables
  refine add_le_add_right (pagesIn_le fun i _ => ?_) _
  by_cases hp : Present (pde m d i)
  · rw [h.eq_of_present hp]
  · rw [held_of_not hp]
    exact Multiset.zero_le _

/-- The new size is reached: the pages below it are mapped and no other user pages. The old ones are
as they were; the new ones are different zeroed pages, writeable by the process, that were free. -/
structure GrownTo (m : Mem) (L : List ℕ) (m' : Mem) (L' : List ℕ) (d oldsz newsz : ℕ) : Prop where
  exact : Exact m' d newsz
  old : ∀ k < npages oldsz, pte m' d k = pte m d k ∧
    m'.page (pageOf (pte m d k)) = m.page (pageOf (pte m d k))
  new : ∀ k, npages oldsz ≤ k → k < npages newsz → ∃ v ∈ L, v ∉ L' ∧
    pte m' d k = V2P v + (PTE_P + PTE_W + PTE_U) ∧ pageOf (pte m' d k) = v ∧
    m'.page v = Block.zero
  distinct : ∀ j < npages newsz, ∀ k < npages newsz,
    pageOf (pte m' d j) = pageOf (pte m' d k) → j = k

/-- Nothing is gained: every user mapping is as before, and the pages that are no longer free are
page tables of the directory, which were not there before. -/
structure RolledBack (m : Mem) (L : List ℕ) (m' : Mem) (L' : List ℕ) (d : ℕ) : Prop where
  user : ∀ k < UPAGES, Survives m m' d k
  tables : tables m d ≤ tables m' d
  back : (L' : Multiset ℕ) + (Vm.tables m' d - Vm.tables m d) = L
  nodup : L'.Nodup

theorem Grown.grownTo (hp : Pool img m L (space m d)) (hx : Exact m d oldsz) (hle : oldsz ≤ newsz)
    (hlt : newsz < KERNBASE) (hg : Grown img m L m' L' d (npages oldsz) (npages newsz)) :
    GrownTo m L m' L' d oldsz newsz := by
  have hU := npages_le_UPAGES hlt.le
  have hmono := npages_mono hle
  have hx' := hg.exact hx hle
  have hp' := hp.moved (hg.moved_space hx hle hlt)
  have hpr : ∀ k < npages newsz, Present (pte m' d k) := fun k hk =>
    (hx' k (by omega)).mpr (lt_npages.mp hk)
  refine ⟨hx', fun k hk => ?_, fun k h1 h2 => ?_, fun j hj k hk heq => ?_⟩
  · refine ⟨hg.rest k (.inl hk), ?_⟩
    rw [space_eq] at hp
    refine hp.frame hg.moved (mem_between (Nat.zero_le k) (by omega) ?_)
    exact (hx k (by omega)).mpr (lt_npages.mp hk)
  · obtain ⟨v, hv, hpte, hz⟩ := hg.fresh k h1 h2
    have hpage := (hv.map_entry (show PTE_W ||| PTE_U < PGSIZE by decide)).1
    have hent : mapEntry (V2P v) (PTE_W ||| PTE_U) = V2P v + (PTE_P + PTE_W + PTE_U) := by
      rw [mapEntry_assoc, entry_eq hv.phys.1 (by decide)]
      rfl
    have hmem : v ∈ space m' d := by
      rw [space_eq]
      have h := mem_between (b := UPAGES) (Nat.zero_le k) (by omega) (hpr k h2)
      rw [hpte, hpage] at h
      exact Multiset.mem_add.mpr (.inr h)
    refine ⟨v, ?_, fun hL' => ?_, hpte.trans hent, hpte ▸ hpage, hz⟩
    · -- it is not one of the pages that the address space had before
      have hin : v ∈ (L : Multiset ℕ) + space m d := by
        rw [← (hg.moved_space hx hle hlt).same]
        exact Multiset.mem_add.mpr (.inr hmem)
      refine Multiset.mem_coe.mp ((Multiset.mem_add.mp hin).resolve_right fun hold => ?_)
      have hn := hp'.nodup_held
      rw [space_eq] at hn
      have hb := mem_between (b := UPAGES) (Nat.zero_le k) (by omega) (hpr k h2)
      rw [hpte, hpage] at hb
      rw [hx.space_eq (hle.trans_lt hlt)] at hold
      rcases Multiset.mem_add.mp hold with hdir | huser
      · exact Multiset.disjoint_left.mp (Multiset.nodup_add.mp hn).2.2
          (Multiset.mem_of_le hg.ext.dirs_le hdir) hb
      · obtain ⟨j, -, hj, hprj, heq⟩ := exists_of_mem_between huser
        rw [← hg.rest j (.inl hj)] at hprj heq
        have hkj := page_ne_of_ne hp' (by omega) (by omega) (hpr k h2) hprj (by omega)
        rw [heq, hpte, hpage] at hkj
        exact hkj rfl
    · exact Multiset.disjoint_left.mp (Multiset.nodup_add.mp hp'.nodup).2.2
        (Multiset.mem_coe.mpr hL') hmem
  · by_contra hne
    exact page_ne_of_ne hp' (by omega) (by omega) (hpr j hj) (hpr k hk) hne heq

theorem Undone.rolledBack (hp : Pool img m L (space m d)) (hx : Exact m d oldsz)
    (hle : oldsz ≤ newsz) (hlt : newsz < KERNBASE) (hext : Extends m m' d fun _ => True)
    (hu : Undone m L m' L' d (npages oldsz) (npages oldsz) (npages newsz)) :
    RolledBack m L m' L' d := by
  obtain ⟨-, hmv⟩ := hu.moved_space hx hle hlt
  have htab : tables m d ≤ tables m' d := by
    have h := hext.dirs_le
    unfold dirs at h
    exact (add_le_add_iff_left _).mp h
  refine ⟨fun k hk => hu.survives hp hx hk, htab, ?_, ?_⟩
  · have hsame := hu.moved.same
    rw [between_self, add_zero] at hsame
    unfold dirs at hsame
    rw [← tsub_add_cancel_of_le htab] at hsame
    refine add_right_cancel (b := {d} + tables m d) ?_
    rw [← hsame, add_assoc, add_left_comm ({d} : Multiset ℕ)]
  · exact Multiset.coe_nodup.mp (Multiset.nodup_add.mp (hp.moved hmv).nodup).1

/-- **`allocuvm` is exact or rolled back.** -/
theorem allocuvm_exact_or_back (newsz : ℕ) (hp : Pool img m L (space m d)) (hx : Exact m d oldsz) :
    ∃ r m' L', allocuvm img d oldsz newsz m = .ok (r, m') ∧ Free m' L' ∧
      (oldsz ≤ newsz → newsz < KERNBASE → r = newsz ∨ r = 0) ∧
      (r = newsz → oldsz ≤ newsz → GrownTo m L m' L' d oldsz newsz) ∧
      (r = 0 → 0 < newsz → newsz < KERNBASE → RolledBack m L m' L' d) ∧
      (newsz < KERNBASE → newsz < oldsz → r = oldsz ∧ m' = m) ∧
      (KERNBASE ≤ newsz → r = 0 ∧ m' = m) := by
  by_cases hbig : KERNBASE ≤ newsz
  · refine ⟨0, m, L, ?_, hp.chain, fun _ _ => .inr rfl, fun h0 => ?_,
      fun _ _ h => absurd hbig (by omega), fun h => absurd hbig (by omega), fun _ => ⟨rfl, rfl⟩⟩
    · unfold allocuvm
      rw [if_pos hbig]
      rfl
    · unfold KERNBASE at hbig
      omega
  by_cases hsmall : newsz < oldsz
  · refine ⟨oldsz, m, L, ?_, hp.chain, fun h => absurd hsmall (by omega),
      fun _ h => absurd hsmall (by omega), fun h0 => ?_,
      fun _ _ => ⟨rfl, rfl⟩, fun h => absurd h hbig⟩
    · unfold allocuvm
      rw [if_neg hbig, if_pos hsmall]
      rfl
    · omega
  have hle : oldsz ≤ newsz := by omega
  have hlt : newsz < KERNBASE := by omega
  have habs : ∀ j, npages oldsz ≤ j → j < npages newsz → ¬ Present (pte m d j) := by
    intro j h1 h2 hpr
    have hU := npages_le_UPAGES hlt.le
    exact absurd (lt_npages.mpr ((hx j (by omega)).mp hpr)) (by omega)
  have hpd := hp
  rw [space_eq] at hpd
  obtain ⟨r, m', L', hrun, hres⟩ := allocuvm_spec hle hlt hpd.left habs
  cases r with
  | true =>
    rw [if_pos rfl] at hrun hres
    exact ⟨newsz, m', L', hrun, hres.moved.chain, fun _ _ => .inl rfl,
      fun _ _ => hres.grownTo hp hx hle hlt, fun h0 h1 => absurd h1 (by omega),
      fun _ h => absurd h (by omega), fun h => absurd h hbig⟩
  | false =>
    rw [if_neg Bool.false_ne_true] at hrun hres
    obtain ⟨hu, hext, -⟩ := hres
    refine ⟨0, m', L', hrun, hu.moved.chain, fun _ _ => .inr rfl, fun h0 _ => ?_,
      fun _ _ _ => hu.rolledBack hp hx hle hlt hext, fun _ h => absurd h (by omega),
      fun h => absurd h hbig⟩
    -- 0 is both the new size and the error: there are no pages in either case
    subst h0
    obtain rfl := Nat.le_zero.mp hle
    have hnone : ∀ k, ¬ k < npages 0 := fun k hk => absurd (lt_npages.mp hk) (Nat.not_lt_zero _)
    exact ⟨(hu.moved_space hx hle hlt).1, fun k hk => absurd hk (hnone k),
      fun k _ hk => absurd hk (hnone k), fun j hj => absurd hj (hnone j)⟩

/-- One page is free: a process of one page gets a second one, but not a second and a third. -/
theorem allocuvm_sparePage :
    (∃ m' L', allocuvm smallImage 0x80200000 PGSIZE (2 * PGSIZE) sparePage =
        .ok (2 * PGSIZE, m') ∧
      GrownTo sparePage [0x80203000] m' L' 0x80200000 PGSIZE (2 * PGSIZE)) ∧
    ∃ m' L', allocuvm smallImage 0x80200000 PGSIZE (3 * PGSIZE) sparePage = .ok (0, m') ∧
      RolledBack sparePage [0x80203000] m' L' 0x80200000 := by
  constructor
  · obtain ⟨r, m', L', hrun, -, -, hgrown, -⟩ :=
      allocuvm_exact_or_back (2 * PGSIZE) sparePage_spec.1 sparePage_spec.2
    have hr : (allocuvm smallImage 0x80200000 PGSIZE (2 * PGSIZE) sparePage).map Prod.fst =
        .ok (2 * PGSIZE) := by decide +kernel
    rw [hrun] at hr
    obtain rfl : r = 2 * PGSIZE := Except.ok.inj hr
    exact ⟨m', L', hrun, hgrown rfl (by decide)⟩
  · obtain ⟨r, m', L', hrun, -, hr, hgrown, hback, -⟩ :=
      allocuvm_exact_or_back (3 * PGSIZE) sparePage_spec.1 sparePage_spec.2
    rcases hr (by decide) (by decide) with rfl | rfl
    · have hg := hgrown rfl (by decide)
      obtain ⟨v, hv, -, -, hv1, -⟩ := hg.new 1 (by decide) (by decide)
      obtain ⟨w, hw, -, -, hw2, -⟩ := hg.new 2 (by decide) (by decide)
      have hvw : v = w := (List.mem_singleton.mp hv).trans (List.mem_singleton.mp hw).symm
      have h12 := hg.distinct 1 (by decide) 2 (by decide) (hv1.trans (hvw.trans hw2.symm))
      cases h12
    · exact ⟨m', L', hrun, hback rfl (by decide) (by decide)⟩

end Xv6.Vm
