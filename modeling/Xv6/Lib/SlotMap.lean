import Mathlib.Tactic

/-!
# Maps kept in slots

A finite map as a table: slot `t` holds a pair of a key and a value, or is empty. `Holds` says that
the table of the first `n` slots represents a map. A pair is added by writing it into an empty slot
or behind the last one, and removed by emptying its slot.
-/

namespace SlotMap

open Function

variable {K V : Type*}

def Distinct (n : ℕ) (slot : ℕ → Option (K × V)) : Prop :=
  ∀ t u k v w, t < n → u < n → slot t = some (k, v) → slot u = some (k, w) → t = u

structure Holds (n : ℕ) (slot : ℕ → Option (K × V)) (m : K → Option V) : Prop where
  mem : ∀ k v, m k = some v ↔ ∃ t < n, slot t = some (k, v)
  distinct : Distinct n slot

variable {n n' t : ℕ} {slot slot' : ℕ → Option (K × V)} {m : K → Option V} {k : K} {v : V}

theorem Holds.eq_none (h : Holds n slot m) : m k = none ↔ ∀ t < n, ∀ v, slot t ≠ some (k, v) := by
  constructor
  · intro hm t ht v hslot
    have := (h.mem k v).mpr ⟨t, ht, hslot⟩
    rw [hm] at this
    cases this
  · intro hall
    cases hm : m k with
    | none => rfl
    | some v =>
      obtain ⟨t, ht, hslot⟩ := (h.mem k v).mp hm
      exact absurd hslot (hall t ht v)

theorem Holds.insert [DecidableEq K] (h : Holds n slot m) (hk : m k = none)
    (ht : t < n ∧ n' = n ∧ slot t = none ∨ t = n ∧ n' = n + 1) (hnew : slot' t = some (k, v))
    (hold : ∀ u < n, u ≠ t → slot' u = slot u) : Holds n' slot' (update m k (some v)) := by
  have habsent := h.eq_none.mp hk
  -- a slot other than `t` is an old one
  have hother : ∀ u < n', u ≠ t → u < n ∧ slot' u = slot u := by
    intro u hu hut
    have hun : u < n := by omega
    exact ⟨hun, hold u hun hut⟩
  have htn : t < n' := by omega
  refine ⟨fun k' v' => ?_, fun t1 t2 k' v1 v2 h₁ h₂ hs1 hs2 => ?_⟩
  · by_cases hkk : k' = k
    · subst hkk
      rw [update_self]
      constructor
      · intro heq
        exact ⟨t, htn, by rw [hnew, Option.some.inj heq]⟩
      · rintro ⟨u, hu, hslot⟩
        by_cases hut : u = t
        · rw [hut, hnew] at hslot
          cases hslot
          rfl
        · obtain ⟨hun, heq⟩ := hother u hu hut
          exact absurd (heq ▸ hslot) (habsent u hun v')
    · rw [update_of_ne hkk, h.mem]
      constructor
      · rintro ⟨u, hu, hslot⟩
        have hut : u ≠ t := by
          rintro rfl
          rcases ht with ⟨-, -, hnone⟩ | ⟨rfl, -⟩
          · rw [hnone] at hslot; cases hslot
          · omega
        exact ⟨u, by omega, by rw [hold u hu hut, hslot]⟩
      · rintro ⟨u, hu, hslot⟩
        have hut : u ≠ t := by
          rintro rfl
          rw [hnew] at hslot
          cases hslot
          exact hkk rfl
        obtain ⟨hun, heq⟩ := hother u hu hut
        exact ⟨u, hun, heq ▸ hslot⟩
  · by_cases h1 : t1 = t
    · by_cases h2 : t2 = t
      · rw [h1, h2]
      · rw [h1, hnew] at hs1
        cases hs1
        obtain ⟨hun, heq⟩ := hother t2 h₂ h2
        exact absurd (heq ▸ hs2) (habsent t2 hun v2)
    · obtain ⟨hun1, heq1⟩ := hother t1 h₁ h1
      by_cases h2 : t2 = t
      · rw [h2, hnew] at hs2
        cases hs2
        exact absurd (heq1 ▸ hs1) (habsent t1 hun1 v1)
      · obtain ⟨hun2, heq2⟩ := hother t2 h₂ h2
        exact h.distinct t1 t2 k' v1 v2 hun1 hun2 (heq1 ▸ hs1) (heq2 ▸ hs2)

theorem Holds.erase [DecidableEq K] (h : Holds n slot m) (ht : t < n) (hslot : slot t = some (k, v))
    (hnew : slot' t = none) (hold : ∀ u < n, u ≠ t → slot' u = slot u) :
    Holds n slot' (update m k none) := by
  have hother : ∀ u < n, ∀ x, slot' u = some x → u ≠ t ∧ slot u = some x := by
    intro u hu x hx
    have hut : u ≠ t := by rintro rfl; rw [hnew] at hx; cases hx
    exact ⟨hut, hold u hu hut ▸ hx⟩
  refine ⟨fun k' v' => ?_, fun t1 t2 k' v1 v2 h1 h2 hs1 hs2 => ?_⟩
  · by_cases hkk : k' = k
    · subst hkk
      rw [update_self]
      refine ⟨nofun, ?_⟩
      rintro ⟨u, hu, hx⟩
      obtain ⟨hut, hs⟩ := hother u hu _ hx
      exact absurd (h.distinct u t k' v' v hu ht hs hslot) hut
    · rw [update_of_ne hkk, h.mem]
      constructor
      · rintro ⟨u, hu, hs⟩
        have hut : u ≠ t := by
          rintro rfl
          rw [hslot] at hs
          cases hs
          exact hkk rfl
        exact ⟨u, hu, by rw [hold u hu hut, hs]⟩
      · rintro ⟨u, hu, hx⟩
        exact ⟨u, hu, (hother u hu _ hx).2⟩
  · exact h.distinct t1 t2 k' v1 v2 h1 h2 (hother t1 h1 _ hs1).2 (hother t2 h2 _ hs2).2

end SlotMap
