import Mathlib.Tactic

/-!
# Segments of an address space

A segment `(a, n)` is `n` units of `w` addresses from `a` on. `cover w bs x` counts the segments of
`bs` that contain `x`. Cutting a segment in two and joining two that touch do not change the count,
so an allocator that only does these keeps its segments disjoint and their union the same.
-/

namespace Segments

variable {w x : ℕ}

def Mem (w : ℕ) (b : ℕ × ℕ) (x : ℕ) : Prop := b.1 ≤ x ∧ x < b.1 + w * b.2

instance (w : ℕ) (b : ℕ × ℕ) (x : ℕ) : Decidable (Mem w b x) :=
  inferInstanceAs (Decidable (_ ∧ _))

def cover (w : ℕ) (bs : List (ℕ × ℕ)) (x : ℕ) : ℕ := bs.countP fun b => Mem w b x

@[simp] theorem cover_nil : cover w [] x = 0 := rfl

@[simp] theorem cover_cons (b : ℕ × ℕ) (bs : List (ℕ × ℕ)) :
    cover w (b :: bs) x = cover w bs x + if Mem w b x then 1 else 0 := by
  unfold cover
  rw [List.countP_cons]
  simp only [decide_eq_true_eq]

@[simp] theorem cover_append (bs cs : List (ℕ × ℕ)) :
    cover w (bs ++ cs) x = cover w bs x + cover w cs x := List.countP_append ..

theorem cover_perm {bs cs : List (ℕ × ℕ)} (h : bs.Perm cs) : cover w bs x = cover w cs x :=
  h.countP_eq _

theorem cover_cut (a m n : ℕ) :
    (if Mem w (a, m + n) x then 1 else 0) =
      (if Mem w (a, m) x then 1 else 0) + if Mem w (a + w * m, n) x then 1 else 0 := by
  have hmul : w * (m + n) = w * m + w * n := Nat.mul_add w m n
  have hiff : Mem w (a, m + n) x ↔ Mem w (a, m) x ∨ Mem w (a + w * m, n) x := by
    simp only [Mem]
    omega
  have hnot : ¬ (Mem w (a, m) x ∧ Mem w (a + w * m, n) x) := by
    simp only [Mem]
    omega
  by_cases h1 : Mem w (a, m) x
  · rw [if_pos (hiff.mpr (.inl h1)), if_pos h1, if_neg fun h2 => hnot ⟨h1, h2⟩]
  · by_cases h2 : Mem w (a + w * m, n) x
    · rw [if_pos (hiff.mpr (.inr h2)), if_neg h1, if_pos h2]
    · rw [if_neg fun h => (hiff.mp h).elim h1 h2, if_neg h1, if_neg h2]

theorem cover_pos {bs : List (ℕ × ℕ)} {b : ℕ × ℕ} (hb : b ∈ bs) (hx : Mem w b x) :
    0 < cover w bs x := List.countP_pos_iff.mpr ⟨b, hb, decide_eq_true hx⟩

theorem exists_of_cover_pos {bs : List (ℕ × ℕ)} (h : 0 < cover w bs x) : ∃ b ∈ bs, Mem w b x := by
  obtain ⟨b, hb, hx⟩ := List.countP_pos_iff.mp h
  exact ⟨b, hb, of_decide_eq_true hx⟩

theorem two_le_cover {bs : List (ℕ × ℕ)} {b c : ℕ × ℕ} (hb : b ∈ bs) (hc : c ∈ bs) (hne : c ≠ b)
    (hx : Mem w b x) (hx' : Mem w c x) : 2 ≤ cover w bs x := by
  rw [cover_perm (List.perm_cons_erase hb), cover_cons, if_pos hx]
  have := cover_pos ((List.mem_erase_of_ne hne).mpr hc) hx'
  omega

theorem pairwise_disjoint {bs : List (ℕ × ℕ)} (h : ∀ x, cover w bs x ≤ 1) :
    bs.Pairwise fun b c => ∀ x, Mem w b x → ¬ Mem w c x := by
  induction bs with
  | nil => exact List.Pairwise.nil
  | cons b bs ih =>
    refine List.pairwise_cons.mpr ⟨fun c hc x hb hx => ?_, ih fun x => ?_⟩
    · have := h x
      rw [cover_cons, if_pos hb] at this
      have := cover_pos hc hx
      omega
    · have := h x
      rw [cover_cons] at this
      omega

end Segments
