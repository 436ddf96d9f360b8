import Xv6.Vm.Memory
import Xv6.Lib.Account
import Xv6.Lib.FreeList

/-!
# Address spaces and their pages

1. `pde m d` and `pte m d` are the entries of page directory `d`, the second by virtual page number.
2. `space m d` is the multiset of the pages of an address space: the directory, its page tables, and
   what the entries below `KERNBASE` map. The pages above are mapped in every address space and
   belong to none.
3. An entry is set (`set_pte`), or a page table is added (`add_table`), and only that changes.
4. `Moved` says that pages pass between the free list and their owners.
-/

namespace Xv6.Vm

open Function Finset

/-! ## Entries -/

def VPAGES : ℕ := 1048576

def UPAGES : ℕ := 524288

def held (w : ℕ) : Multiset ℕ := if Present w then {pageOf w} else 0

def pagesIn (n : ℕ) (f : ℕ → ℕ) : Multiset ℕ := ∑ i ∈ range n, held (f i)

theorem not_present_zero : ¬ Present 0 := by decide

theorem held_of_present {w : ℕ} (h : Present w) : held w = {pageOf w} := if_pos h

theorem held_of_not {w : ℕ} (h : ¬ Present w) : held w = 0 := if_neg h

theorem card_held_le (w : ℕ) : (held w).card ≤ 1 := by
  unfold held
  split <;> simp

section PagesIn

variable {n i : ℕ} {f g : ℕ → ℕ}

theorem mem_pagesIn (hi : i < n) (h : Present (f i)) : pageOf (f i) ∈ pagesIn n f := by
  refine Multiset.mem_of_le (Account.le_sum (f := fun j => held (f j)) (mem_range.mpr hi)) ?_
  rw [held_of_present h]
  exact Multiset.mem_singleton_self _

theorem pagesIn_le (h : ∀ i < n, held (f i) ≤ held (g i)) : pagesIn n f ≤ pagesIn n g :=
  sum_le_sum fun i hi => h i (mem_range.mp hi)

theorem pagesIn_eq_zero (h : ∀ i < n, ¬ Present (f i)) : pagesIn n f = 0 :=
  sum_eq_zero fun i hi => held_of_not (h i (mem_range.mp hi))

theorem pagesIn_eq_sum (n : ℕ) (f : ℕ → ℕ) :
    pagesIn n f = ((List.range n).map fun i => held (f i)).sum := by
  induction n with
  | zero => rfl
  | succ n ih =>
    rw [pagesIn, sum_range_succ, ← pagesIn, ih, List.range_succ, List.map_append, List.sum_append,
      List.map_singleton, List.sum_singleton]

theorem pagesIn_update (hi : i < n) (w : ℕ) :
    pagesIn n (update f i w) + held (f i) = pagesIn n f + held w := by
  have := Account.sum_change (f := fun j => held (f j))
    (g := fun j => held (update f i w j)) (mem_range.mpr hi)
    fun j _ hj => by rw [update_of_ne hj]
  rwa [update_self] at this

theorem eq_of_pageOf_eq {j : ℕ} (hn : (pagesIn n f).Nodup) (hi : i < n) (hj : j < n)
    (hpi : Present (f i)) (hpj : Present (f j)) (h : pageOf (f i) = pageOf (f j)) : i = j := by
  refine Account.eq_of_mem_sum (a := pageOf (f i)) hn (mem_range.mpr hi) (mem_range.mpr hj) ?_ ?_
  · rw [held_of_present hpi]
    exact Multiset.mem_singleton_self _
  · rw [held_of_present hpj, h]
    exact Multiset.mem_singleton_self _

theorem card_pagesIn_le_of_subset {S : Finset ℕ} (h : ∀ i < n, Present (f i) → i ∈ S) :
    (pagesIn n f).card ≤ S.card := by
  unfold pagesIn
  rw [Multiset.card_sum]
  calc ∑ i ∈ range n, (held (f i)).card
      ≤ ∑ i ∈ range n, if i ∈ S then 1 else 0 := by
        refine sum_le_sum fun i hi => ?_
        by_cases hp : Present (f i)
        · rw [if_pos (h i (mem_range.mp hi) hp)]
          exact card_held_le _
        · rw [held_of_not hp]
          exact Nat.zero_le _
    _ = ((range n).filter (· ∈ S)).card := (card_filter ..).symm
    _ ≤ S.card := card_le_card fun i hi => (mem_filter.mp hi).2

end PagesIn

def between (a b : ℕ) (f : ℕ → ℕ) : Multiset ℕ := ∑ i ∈ Ico a b, held (f i)

section Between

variable {a b c i : ℕ} {f g : ℕ → ℕ}

theorem pagesIn_eq_between (n : ℕ) (f : ℕ → ℕ) : pagesIn n f = between 0 n f := by
  unfold pagesIn between
  rw [range_eq_Ico]

theorem between_congr (h : ∀ i, a ≤ i → i < b → g i = f i) : between a b g = between a b f := by
  refine sum_congr rfl fun i hi => ?_
  obtain ⟨h1, h2⟩ := mem_Ico.mp hi
  rw [h i h1 h2]

theorem between_eq_zero (h : ∀ i, a ≤ i → i < b → ¬ Present (f i)) : between a b f = 0 := by
  refine sum_eq_zero fun i hi => ?_
  obtain ⟨h1, h2⟩ := mem_Ico.mp hi
  exact held_of_not (h i h1 h2)

theorem between_self (a : ℕ) (f : ℕ → ℕ) : between a a f = 0 := by
  unfold between
  rw [Ico_self, sum_empty]

theorem between_add (hab : a ≤ b) (hbc : b ≤ c) (f : ℕ → ℕ) :
    between a c f = between a b f + between b c f := (sum_Ico_consecutive _ hab hbc).symm

theorem between_mono {a' b' : ℕ} (ha : a' ≤ a) (hb : b ≤ b') (f : ℕ → ℕ) :
    between a b f ≤ between a' b' f := sum_le_sum_of_subset (Ico_subset_Ico ha hb)

theorem between_succ (hab : a ≤ b) (f : ℕ → ℕ) :
    between a (b + 1) f = between a b f + held (f b) := by
  unfold between
  rw [sum_Ico_succ_top hab]

theorem mem_between (ha : a ≤ i) (hb : i < b) (h : Present (f i)) :
    pageOf (f i) ∈ between a b f := by
  refine Multiset.mem_of_le (Account.le_sum (f := fun j => held (f j)) (mem_Ico.mpr ⟨ha, hb⟩)) ?_
  rw [held_of_present h]
  exact Multiset.mem_singleton_self _

theorem between_update_of_not (h : i < a ∨ b ≤ i) (w : ℕ) :
    between a b (update f i w) = between a b f :=
  between_congr fun j h1 h2 => update_of_ne (by omega) ..

theorem exists_of_mem_between {v : ℕ} (h : v ∈ between a b f) :
    ∃ i, a ≤ i ∧ i < b ∧ Present (f i) ∧ pageOf (f i) = v := by
  obtain ⟨i, hi, hv⟩ := Multiset.mem_sum.mp h
  obtain ⟨h1, h2⟩ := mem_Ico.mp hi
  unfold held at hv
  split at hv
  case isTrue hp => exact ⟨i, h1, h2, hp, (Multiset.mem_singleton.mp hv).symm⟩
  case isFalse => exact absurd hv (Multiset.notMem_zero v)

theorem eq_of_between_nodup {j : ℕ} (hn : (between a b f).Nodup) (hi : a ≤ i ∧ i < b)
    (hj : a ≤ j ∧ j < b) (hpi : Present (f i)) (hpj : Present (f j))
    (h : pageOf (f i) = pageOf (f j)) : i = j := by
  refine Account.eq_of_mem_sum (a := pageOf (f i)) hn (mem_Ico.mpr hi) (mem_Ico.mpr hj) ?_ ?_
  · rw [held_of_present hpi]
    exact Multiset.mem_singleton_self _
  · rw [held_of_present hpj, h]
    exact Multiset.mem_singleton_self _

end Between

-- The sums are long: they are never to be evaluated.
attribute [irreducible] pagesIn between

/-! ## Views of a page directory -/

def pde (m : Mem) (d i : ℕ) : ℕ := (m.page d).word i

def pte (m : Mem) (d k : ℕ) : ℕ :=
  if k < VPAGES ∧ Present (pde m d (k / 1024)) then
    (m.page (pageOf (pde m d (k / 1024)))).word (k % 1024)
  else 0

def tables (m : Mem) (d : ℕ) : Multiset ℕ := pagesIn NPDENTRIES (pde m d)

def users (m : Mem) (d : ℕ) : Multiset ℕ := pagesIn UPAGES (pte m d)

def dirs (m : Mem) (d : ℕ) : Multiset ℕ := {d} + tables m d

def space (m : Mem) (d : ℕ) : Multiset ℕ := {d} + tables m d + users m d

section View

variable {m m' : Mem} {d k : ℕ}

theorem space_eq (m : Mem) (d : ℕ) : space m d = dirs m d + between 0 UPAGES (pte m d) := by
  rw [← pagesIn_eq_between]
  rfl

theorem space_eq_dirs (h : ∀ k < UPAGES, ¬ Present (pte m d k)) : space m d = dirs m d := by
  rw [space_eq, between_eq_zero fun k _ hk => h k hk, add_zero]

theorem pte_of_present (hk : k < VPAGES) (h : Present (pde m d (k / 1024))) :
    pte m d k = (m.page (pageOf (pde m d (k / 1024)))).word (k % 1024) := if_pos ⟨hk, h⟩

theorem pte_of_not (h : ¬ Present (pde m d (k / 1024))) : pte m d k = 0 := if_neg fun hc => h hc.2

theorem present_pde (h : Present (pte m d k)) : k < VPAGES ∧ Present (pde m d (k / 1024)) := by
  by_contra hc
  rw [pte, if_neg hc] at h
  exact not_present_zero h

theorem dir_mem_dirs : d ∈ dirs m d :=
  Multiset.mem_add.mpr (.inl (Multiset.mem_singleton_self d))

theorem table_mem_dirs {i : ℕ} (hi : i < NPDENTRIES) (h : Present (pde m d i)) :
    pageOf (pde m d i) ∈ dirs m d :=
  Multiset.mem_add.mpr (.inr (mem_pagesIn hi h))

theorem view_congr (hd : m'.page d = m.page d)
    (ht : ∀ i < NPDENTRIES, Present (pde m d i) →
      m'.page (pageOf (pde m d i)) = m.page (pageOf (pde m d i))) :
    pde m' d = pde m d ∧ pte m' d = pte m d := by
  have hpde : pde m' d = pde m d := by
    funext i
    unfold pde
    rw [hd]
  refine ⟨hpde, ?_⟩
  funext k
  unfold pte
  rw [hpde]
  split
  case isTrue h =>
    have hi : k / 1024 < NPDENTRIES := by
      have := h.1
      unfold NPDENTRIES VPAGES at *
      omega
    rw [ht _ hi h.2]
  case isFalse => rfl

theorem dirs_congr (hpde : pde m' d = pde m d) : dirs m' d = dirs m d := by
  unfold dirs tables
  rw [hpde]

theorem view_frame (h : ∀ v ∈ dirs m d, m'.page v = m.page v) :
    pde m' d = pde m d ∧ pte m' d = pte m d :=
  view_congr (h d dir_mem_dirs) fun _ hi hp => h _ (table_mem_dirs hi hp)

theorem space_frame (h : ∀ v ∈ space m d, m'.page v = m.page v) : space m' d = space m d := by
  rw [space_eq] at h
  obtain ⟨hpde, hpte⟩ := view_frame fun v hv => h v (Multiset.mem_add.mpr (.inl hv))
  rw [space_eq, space_eq, dirs_congr hpde, hpte]

end View

/-! ## Changes -/

section Change

variable {m m' : Mem} {d k i w t : ℕ}

theorem dir_ne_table (hn : (dirs m d).Nodup) (hi : i < NPDENTRIES) (h : Present (pde m d i)) :
    d ≠ pageOf (pde m d i) := by
  intro he
  refine Multiset.disjoint_left.mp (Multiset.nodup_add.mp hn).2.2 (Multiset.mem_singleton_self d) ?_
  have := mem_pagesIn (f := pde m d) hi h
  rwa [← he] at this

theorem set_pte (hn : (dirs m d).Nodup) (hk : k < VPAGES) (h : Present (pde m d (k / 1024)))
    (hw : w < 2 ^ 32) (ht : t = pageOf (pde m d (k / 1024)))
    (hm : m'.page = update m.page t ((m.page t).setWord (k % 1024) w)) :
    pde m' d = pde m d ∧ pte m' d = update (pte m d) k w := by
  have hi : k / 1024 < NPDENTRIES := by
    unfold NPDENTRIES VPAGES at *
    omega
  have hd : m'.page d = m.page d := by
    rw [hm, update_of_ne]
    rw [ht]
    exact dir_ne_table hn hi h
  have hpde : pde m' d = pde m d := by
    funext i
    unfold pde
    rw [hd]
  refine ⟨hpde, ?_⟩
  have htab : (tables m d).Nodup := (Multiset.nodup_add.mp hn).2.1
  funext k'
  by_cases hkk : k' = k
  · rw [hkk, update_self, pte_of_present hk (hpde ▸ h), hpde, ← ht, hm,
      update_self, Block.word_setWord_self _ _ hw]
  rw [update_of_ne hkk]
  unfold pte
  rw [hpde]
  split
  case isFalse => rfl
  case isTrue h' =>
    rw [hm]
    by_cases hsame : k' / 1024 = k / 1024
    · rw [hsame, ← ht, update_self, Block.word_setWord_of_ne _ _ (by omega)]
    · have hi' : k' / 1024 < NPDENTRIES := by
        have := h'.1
        unfold NPDENTRIES VPAGES at *
        omega
      rw [update_of_ne]
      intro he
      exact hsame (eq_of_pageOf_eq htab hi' hi h'.2 h (he.trans ht))

theorem add_table (ha : ¬ Present (pde m d i)) (ht : t ∉ dirs m d) (hw : w < 2 ^ 32)
    (hwt : pageOf w = t) (hz : m'.page t = Block.zero) (hd : m'.page d = (m.page d).setWord i w)
    (hm : ∀ v, v ≠ d → v ≠ t → m'.page v = m.page v) (hn : (dirs m d).Nodup) :
    pde m' d = update (pde m d) i w ∧ pte m' d = pte m d := by
  have hpde : pde m' d = update (pde m d) i w := by
    funext j
    by_cases hj : j = i
    · rw [hj, update_self, pde, hd, Block.word_setWord_self _ _ hw]
    · rw [update_of_ne hj, pde, hd, Block.word_setWord_of_ne _ _ hj, pde]
  refine ⟨hpde, ?_⟩
  funext k
  by_cases hk : k / 1024 = i
  · have hz' : pte m d k = 0 := pte_of_not (hk ▸ ha)
    rw [hz', pte, hpde, hk, update_self, hwt, hz, Block.word_zero, ite_self]
  unfold pte
  rw [hpde, update_of_ne hk]
  split
  case isFalse => rfl
  case isTrue h =>
    have hk' : k / 1024 < NPDENTRIES := by
      have := h.1
      unfold NPDENTRIES VPAGES at *
      omega
    rw [hm _ (dir_ne_table hn hk' h.2).symm]
    intro he
    exact ht (he ▸ table_mem_dirs hk' h.2)

end Change

/-! ## Pages that pass between the free list and their owners -/

abbrev Free (m : Mem) (L : List ℕ) : Prop :=
  FreeList.Chain (fun b : Block => b.word 0) 0 m.page m.freelist L

abbrev Moved (m : Mem) (L : List ℕ) (X : Multiset ℕ) (m' : Mem) (L' : List ℕ)
    (X' : Multiset ℕ) : Prop :=
  FreeList.Moved (fun b : Block => b.word 0) 0 m.page L X m'.page m'.freelist L' X'

/-- The pages of `L` are free, those of `X` are held, and `kfree` accepts them all. -/
structure Pool (img : KernelImage) (m : Mem) (L : List ℕ) (X : Multiset ℕ) : Prop where
  chain : Free m L
  pages : ∀ v ∈ (L : Multiset ℕ) + X, IsPage img v
  nodup : ((L : Multiset ℕ) + X).Nodup

section Pool

variable {img : KernelImage} {m m' : Mem} {L L' : List ℕ} {X X' Z : Multiset ℕ} {d v : ℕ}

theorem Pool.moved (hp : Pool img m L X) (hm : Moved m L X m' L' X') : Pool img m' L' X' :=
  ⟨hm.chain, hm.same ▸ hp.pages, hm.nodup hp.nodup⟩

theorem Pool.mono (hp : Pool img m L X) (h : Z ≤ X) : Pool img m L Z :=
  have hle : (L : Multiset ℕ) + Z ≤ L + X := add_le_add_right h _
  ⟨hp.chain, fun v hv => hp.pages v (Multiset.mem_of_le hle hv), Multiset.nodup_of_le hle hp.nodup⟩

theorem Pool.left (hp : Pool img m L (X + Z)) : Pool img m L X := hp.mono le_self_add

theorem Pool.right (hp : Pool img m L (X + Z)) : Pool img m L Z := hp.mono le_add_self

theorem Pool.isPage (hp : Pool img m L X) (hv : v ∈ X) : IsPage img v :=
  hp.pages v (Multiset.mem_add.mpr (.inr hv))

theorem Pool.nodup_held (hp : Pool img m L X) : X.Nodup := (Multiset.nodup_add.mp hp.nodup).2.1

theorem Pool.nodup_add (hp : Pool img m L (X + Z)) : ((L : Multiset ℕ) + X + Z).Nodup := by
  rw [add_assoc]
  exact hp.nodup

theorem Pool.frame (hp : Pool img m L (X + Z)) (hm : Moved m L X m' L' X') (hv : v ∈ Z) :
    m'.page v = m.page v := hm.frame_of_mem hp.nodup_add hv

theorem Pool.moved_add (hp : Pool img m L (X + Z)) (hm : Moved m L X m' L' X') :
    Pool img m' L' (X' + Z) := hp.moved (hm.add_right Z)

theorem Pool.view (hp : Pool img m L (X + dirs m d)) (hm : Moved m L X m' L' X') :
    pde m' d = pde m d ∧ pte m' d = pte m d :=
  view_frame fun _ hv => hp.frame hm hv

end Pool

end Xv6.Vm
