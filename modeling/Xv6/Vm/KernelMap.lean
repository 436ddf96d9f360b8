import Xv6.Vm.Kvm

/-!
# The kernel's address map

What the hardware makes of the page directory that `setupkvm` returns: the translation of an
address, and who may access it. Both levels of entries count.
-/

namespace Xv6.Vm

open StateExcept

variable {img : KernelImage} {m m' : Mem} {L L' : List ℕ} {X : Multiset ℕ} {d va : ℕ}

/-! ## The hardware -/

def HasW (pte : ℕ) : Prop := pte / 2 % 2 = 1

instance : DecidablePred HasW := fun pte => inferInstanceAs (Decidable (pte / 2 % 2 = 1))

def translate (m : Mem) (d va : ℕ) : Option ℕ :=
  if Present (pte m d (va / PGSIZE)) then some (PTE_ADDR (pte m d (va / PGSIZE)) + va % PGSIZE)
  else none

def Writable (m : Mem) (d va : ℕ) : Prop :=
  HasW (pde m d (va / PGSIZE / 1024)) ∧ HasW (pte m d (va / PGSIZE))

def UserAccess (m : Mem) (d va : ℕ) : Prop :=
  (translate m d va).isSome ∧ User (pde m d (va / PGSIZE / 1024)) ∧ User (pte m d (va / PGSIZE))

/-! ## A row of `kmap` -/

theorem mapEntry_flags {pa perm : ℕ} (hpa : pa % PGSIZE = 0) (hperm : perm = 0 ∨ perm = PTE_W) :
    PTE_ADDR (mapEntry pa perm) = pa ∧ (HasW (mapEntry pa perm) ↔ perm = PTE_W) := by
  have hf : perm ||| PTE_P = 1 ∧ perm = 0 ∨ perm ||| PTE_P = 3 ∧ perm = 2 := by
    rcases hperm with rfl | rfl
    · exact .inl ⟨rfl, rfl⟩
    · exact .inr ⟨rfl, rfl⟩
  rw [mapEntry_assoc, entry_eq hpa (by unfold PGSIZE; omega)]
  unfold PTE_ADDR HasW PTE_W PGSIZE at *
  omega

theorem Kmap.Ok.covers_page {r : Kmap} (h : r.Ok) (hlow : r.virt ≤ va)
    (hhigh : va < r.virt + r.size) : r.Covers (va / PGSIZE) := by
  have h1 := h.virt
  have h2 := h.size
  unfold Kmap.Covers PGSIZE at *
  omega

theorem NewSpace.translate_row (hnew : NewSpace img m L m' L' d) {r : Kmap} (hr : r ∈ kmap img)
    (hlow : r.virt ≤ va) (hhigh : va < r.virt + r.size) :
    translate m' d va = some (r.phys_start + (va - r.virt)) ∧
      (Writable m' d va ↔ r.perm = PTE_W) := by
  have hok := kmap_ok r hr
  have hc := hok.covers_page hlow hhigh
  have hpa : (r.phys_start + (va / PGSIZE * PGSIZE - r.virt)) % PGSIZE = 0 := by
    have h1 := hok.virt
    have h2 := hok.phys
    unfold PGSIZE at *
    omega
  obtain ⟨haddr, hw⟩ := mapEntry_flags hpa hok.perm
  have hpr : Present (pte m' d (va / PGSIZE)) := by
    rw [hnew.kernel.row r hr _ hc]
    exact present_mapEntry _ _
  constructor
  · unfold translate
    rw [if_pos hpr, hnew.kernel.row r hr _ hc, Kmap.entry, haddr]
    congr 1
    have h1 := hok.virt
    unfold PGSIZE at *
    omega
  · have h7 := hnew.flags _ (present_pde hpr).2
    have hdir : HasW (pde m' d (va / PGSIZE / 1024)) := by
      unfold HasW
      omega
    unfold Writable
    rw [hnew.kernel.row r hr _ hc, Kmap.entry, hw]
    exact and_iff_right hdir

theorem NewSpace.translate_none (hnew : NewSpace img m L m' L' d)
    (hout : ∀ r ∈ kmap img, va < r.virt ∨ r.virt + r.size ≤ va) : translate m' d va = none := by
  unfold translate
  refine if_neg ?_
  by_cases hu : va / PGSIZE < UPAGES
  · rw [hnew.user _ hu]
    exact not_present_zero
  · rw [hnew.kernel.rest _ (not_lt.mp hu) fun r hr hc => ?_]
    · exact not_present_zero
    · have h1 := hout r hr
      have h2 := (kmap_ok r hr).virt
      have h3 := (kmap_ok r hr).size
      unfold Kmap.Covers PGSIZE at *
      omega

theorem NewSpace.not_userAccess (hnew : NewSpace img m L m' L' d) (va : ℕ) :
    ¬ UserAccess m' d va := by
  rintro ⟨-, -, hu⟩
  by_cases hk : va / PGSIZE < UPAGES
  · rw [hnew.user _ hk] at hu
    exact absurd hu (by decide)
  · exact hnew.kernel.not_user (not_lt.mp hk) hu

/-! ## The map -/

/-- The address map of the kernel: physical memory at `KERNBASE`, with the text of the kernel
read-only, the devices at the top, and nothing else; user code has access to nothing. -/
structure KernelMap (img : KernelImage) (m : Mem) (d : ℕ) : Prop where
  memory : ∀ va, KERNBASE ≤ va → va < KERNBASE + PHYSTOP → translate m d va = some (va - KERNBASE) ∧
    (Writable m d va ↔ ¬ (KERNLINK ≤ va ∧ va < img.data))
  devices : ∀ va, DEVSPACE ≤ va → va < 2 ^ 32 → translate m d va = some va
  nothing : ∀ va < 2 ^ 32, va < KERNBASE ∨ KERNBASE + PHYSTOP ≤ va ∧ va < DEVSPACE →
    translate m d va = none
  user : ∀ va < 2 ^ 32, ¬ UserAccess m d va

theorem NewSpace.memory (hnew : NewSpace img m L m' L' d) (hlow : KERNBASE ≤ va)
    (hhigh : va < KERNBASE + PHYSTOP) : translate m' d va = some (va - KERNBASE) ∧
      (Writable m' d va ↔ ¬ (KERNLINK ≤ va ∧ va < img.data)) := by
  have h1 := img.above
  have h2 := img.below
  have hrow : ∀ r ∈ kmap img, r.virt ≤ va → va < r.virt + r.size →
      r.phys_start + (va - r.virt) = va - KERNBASE →
      (r.perm = PTE_W ↔ ¬ (KERNLINK ≤ va ∧ va < img.data)) →
      translate m' d va = some (va - KERNBASE) ∧
        (Writable m' d va ↔ ¬ (KERNLINK ≤ va ∧ va < img.data)) := by
    intro r hr hge hlt haddr hperm
    obtain ⟨ht, hw⟩ := hnew.translate_row hr hge hlt
    rw [haddr] at ht
    exact ⟨ht, hw.trans hperm⟩
  by_cases hlink : va < KERNLINK
  · refine hrow ⟨KERNBASE, 0, EXTMEM, PTE_W⟩ List.mem_cons_self hlow ?_ ?_
      (iff_of_true rfl (by omega))
    · unfold Kmap.size KERNLINK EXTMEM at *
      omega
    · dsimp only
      omega
  by_cases hdata : va < img.data
  · refine hrow ⟨KERNLINK, V2P KERNLINK, V2P img.data, 0⟩
      (List.mem_cons_of_mem _ List.mem_cons_self) (not_lt.mp hlink) ?_ ?_
      (iff_of_false (show 0 ≠ PTE_W by decide) fun h => h ⟨not_lt.mp hlink, hdata⟩)
    · unfold Kmap.size V2P KERNLINK EXTMEM KERNBASE PHYSTOP at *
      dsimp only
      omega
    · unfold V2P KERNLINK KERNBASE at *
      dsimp only
      omega
  · refine hrow ⟨img.data, V2P img.data, PHYSTOP, PTE_W⟩
      (List.mem_cons_of_mem _ (List.mem_cons_of_mem _ List.mem_cons_self)) (not_lt.mp hdata) ?_ ?_
      (iff_of_true rfl fun h => hdata h.2)
    · unfold Kmap.size V2P KERNLINK EXTMEM KERNBASE PHYSTOP at *
      dsimp only
      omega
    · unfold V2P KERNLINK KERNBASE at *
      dsimp only
      omega

theorem NewSpace.devices (hnew : NewSpace img m L m' L' d) (hlow : DEVSPACE ≤ va)
    (hhigh : va < 2 ^ 32) : translate m' d va = some va := by
  have hr : ⟨DEVSPACE, DEVSPACE, 0, PTE_W⟩ ∈ kmap img := by
    unfold kmap
    simp
  have ht := (hnew.translate_row hr hlow (by unfold Kmap.size DEVSPACE at *; omega)).1
  rw [ht]
  exact congrArg some (Nat.add_sub_of_le hlow)

theorem NewSpace.kernelMap (hnew : NewSpace img m L m' L' d) : KernelMap img m' d := by
  refine ⟨fun va h1 h2 => hnew.memory h1 h2, fun va h1 h2 => hnew.devices h1 h2,
    fun va _ hout => hnew.translate_none fun r hr => ?_, fun va _ => hnew.not_userAccess va⟩
  have h1 := img.above
  have h2 := img.below
  unfold kmap at hr
  simp only [List.mem_cons, List.not_mem_nil, or_false] at hr
  rcases hr with rfl | rfl | rfl | rfl <;>
    simp only [Kmap.size, KERNLINK, KERNBASE, EXTMEM, V2P, PHYSTOP, DEVSPACE] at * <;> omega

/-- **The kernel's address map.** `setupkvm` returns, without a panic, and the directory it returns
has the address map of the kernel. The calls of `mappages` for the rows of `kmap` return as well, in
whatever directory: the last row, which ends at 2^32, is no exception. -/
theorem setupkvm_kernel_map (hp : Pool img m L X) :
    (∃ d m', setupkvm img m = .ok (d, m') ∧ (d ≠ 0 → KernelMap img m' d)) ∧
    ∀ r ∈ kmap img, ∀ d m₁ L₁, Pool img m₁ L₁ (dirs m₁ d) →
      (∀ j, r.Covers j → ¬ Present (pte m₁ d j)) →
      ∃ b m₂, mappages img d r.virt r.size r.phys_start r.perm m₁ = .ok (b, m₂) := by
  constructor
  · rcases setupkvm_spec hp with ⟨m', L', hrun, -⟩ | ⟨d, m', L', hrun, -, hnew⟩
    · exact ⟨0, m', hrun, fun h0 => absurd rfl h0⟩
    · exact ⟨d, m', hrun, fun _ => hnew.kernelMap⟩
  · intro r hr d m₁ L₁ hp1 habs
    obtain ⟨b, m₂, L₂, hrun, -⟩ := mappages_row (kmap_ok r hr) hp1 habs
    exact ⟨b, m₂, hrun⟩

/-- Eighty free pages are enough. -/
theorem setupkvm_freeMem :
    ∃ d m', setupkvm smallImage freeMem = .ok (d, m') ∧ d ≠ 0 ∧ KernelMap smallImage m' d := by
  obtain ⟨⟨d, m', hrun, hmap⟩, -⟩ := setupkvm_kernel_map freeMem_pool
  rcases setupkvm_spec freeMem_pool with ⟨_, _, _, _, hle⟩ | ⟨d', m'', L', hrun', hd, -⟩
  · exact absurd hle (by decide)
  · obtain ⟨rfl, rfl⟩ := Prod.mk.inj (Except.ok.inj (hrun.symm.trans hrun'))
    exact ⟨d, m', hrun, hd, hmap hd⟩

end Xv6.Vm
