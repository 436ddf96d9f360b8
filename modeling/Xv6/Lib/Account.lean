import Mathlib.Tactic

/-!
# Sums that change in one place

A count kept as a sum over owners, or what they own as a sum of multisets, is updated when one owner
changes.
-/

namespace Account

open Finset

variable {ι M : Type*} {s : Finset ι} {i j : ι}

theorem sum_change [AddCommMonoid M] {f g : ι → M} (hi : i ∈ s)
    (h : ∀ j ∈ s, j ≠ i → g j = f j) : ∑ j ∈ s, g j + f i = ∑ j ∈ s, f j + g i := by
  classical
  rw [← add_sum_erase s g hi, ← add_sum_erase s f hi]
  have hrest : ∑ j ∈ s.erase i, g j = ∑ j ∈ s.erase i, f j :=
    sum_congr rfl fun j hj => h j (mem_of_mem_erase hj) (ne_of_mem_erase hj)
  rw [hrest, add_right_comm, add_comm (g i), add_right_comm]

theorem sum_update [AddCommMonoid M] [Fintype ι] [DecidableEq ι] {α : Type*} (F : α → M) (f : ι → α)
    (i : ι) (a : α) : ∑ j, F (Function.update f i a j) + F (f i) = ∑ j, F (f j) + F a := by
  have hsum := sum_change (f := fun j => F (f j)) (g := fun j => F (Function.update f i a j))
    (mem_univ i) fun j _ hj => by rw [Function.update_of_ne hj]
  simpa using hsum

section Ordered

variable [AddCommMonoid M] [PartialOrder M] [IsOrderedAddMonoid M] [CanonicallyOrderedAdd M]
  {f : ι → M}

theorem le_sum (hi : i ∈ s) : f i ≤ ∑ j ∈ s, f j := single_le_sum (fun _ _ => zero_le) hi

theorem add_le_sum [DecidableEq ι] (hi : i ∈ s) (hj : j ∈ s) (hij : i ≠ j) :
    f i + f j ≤ ∑ k ∈ s, f k := by
  rw [← add_sum_erase s f hi]
  exact add_le_add_right (le_sum (mem_erase.mpr ⟨hij.symm, hj⟩)) _

end Ordered

theorem eq_of_mem_sum {α : Type*} [DecidableEq ι] {f : ι → Multiset α} (h : (∑ k ∈ s, f k).Nodup)
    (hi : i ∈ s) (hj : j ∈ s) {a : α} (hai : a ∈ f i) (haj : a ∈ f j) : i = j := by
  by_contra hij
  have hle := Multiset.nodup_of_le (add_le_sum (f := f) hi hj hij) h
  exact Multiset.disjoint_left.mp (Multiset.nodup_add.mp hle).2.2 hai haj

end Account
