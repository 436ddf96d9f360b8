import Mathlib.Tactic

/-!
# Ownership of a pool of resources

Resources of a pool `area` are handed out to positions; `own x` is the resource at position `x`.
`Owns` says that the map `used` of taken resources is right: what a position holds is taken and held
nowhere else, and what is taken of the resources in `kept` is held somewhere. It is exact if these
are all of the pool.
-/

namespace Ownership

open Function

variable {X B : Type*}

structure Owns (area kept : Set B) (own : X → Option B) (used : B → Bool) : Prop where
  mem : ∀ {x b}, own x = some b → b ∈ area ∧ used b = true
  inj : ∀ {x y b}, own x = some b → own y = some b → x = y
  cover : ∀ {b}, b ∈ kept → used b = true → ∃ x, own x = some b

variable {area kept : Set B} {own : X → Option B} {used : B → Bool} {x : X} {b : B}

theorem Owns.ne_of_free (h : Owns area kept own used) (hb : used b = false) (y : X) :
    own y ≠ some b := fun hy => by
  have := (h.mem hy).2
  rw [hb] at this
  cases this

theorem Owns.take [DecidableEq X] [DecidableEq B] (h : Owns area kept own used) (hx : own x = none)
    (hb : b ∈ area) (hu : used b = false) :
    Owns area kept (update own x (some b)) (update used b true) := by
  have hfree := h.ne_of_free hu
  refine ⟨fun {y c} hy => ?_, fun {y z c} hy hz => ?_, fun {c} hc hcu => ?_⟩
  · by_cases hyx : y = x
    · subst hyx
      rw [update_self] at hy
      cases hy
      exact ⟨hb, update_self ..⟩
    · rw [update_of_ne hyx] at hy
      have hcb : c ≠ b := fun e => hfree y (e ▸ hy)
      rw [update_of_ne hcb]
      exact h.mem hy
  · -- a position other than `x` cannot hold `b`, which was free
    have aux : ∀ y z : X, y ≠ x → update own x (some b) y = some c →
        update own x (some b) z = some c → y = z := by
      intro y z hyx hy hz
      rw [update_of_ne hyx] at hy
      by_cases hzx : z = x
      · rw [hzx, update_self] at hz
        rw [← hz] at hy
        exact absurd hy (hfree y)
      · rw [update_of_ne hzx] at hz
        exact h.inj hy hz
    by_cases hyx : y = x
    · by_cases hzx : z = x
      · rw [hyx, hzx]
      · exact (aux z y hzx hz hy).symm
    · exact aux y z hyx hy hz
  · by_cases hcb : c = b
    · subst hcb
      exact ⟨x, update_self ..⟩
    · rw [update_of_ne hcb] at hcu
      obtain ⟨y, hy⟩ := h.cover hc hcu
      have hyx : y ≠ x := fun e => by
        rw [e, hx] at hy
        cases hy
      exact ⟨y, by rw [update_of_ne hyx, hy]⟩

theorem Owns.release [DecidableEq X] [DecidableEq B] (h : Owns area kept own used)
    (hx : own x = some b) : Owns area kept (update own x none) (update used b false) := by
  have hne : ∀ {y c}, update own x none y = some c → y ≠ x ∧ own y = some c := by
    intro y c hy
    by_cases hyx : y = x
    · subst hyx
      rw [update_self] at hy
      cases hy
    · exact ⟨hyx, by rwa [update_of_ne hyx] at hy⟩
  refine ⟨fun {y c} hy => ?_, fun {y z c} hy hz => h.inj (hne hy).2 (hne hz).2,
    fun {c} hc hcu => ?_⟩
  · obtain ⟨hyx, hy⟩ := hne hy
    have hcb : c ≠ b := fun e => hyx (h.inj (e ▸ hy) hx)
    rw [update_of_ne hcb]
    exact h.mem hy
  · by_cases hcb : c = b
    · subst hcb
      rw [update_self] at hcu
      cases hcu
    · rw [update_of_ne hcb] at hcu
      obtain ⟨y, hy⟩ := h.cover hc hcu
      have hyx : y ≠ x := fun e => hcb (Option.some.inj ((e ▸ hy).symm.trans hx))
      exact ⟨y, by rw [update_of_ne hyx, hy]⟩

theorem Owns.free_of_dropped {S : X → Prop} [DecidablePred S] {used' : B → Bool}
    (h : Owns area kept own used) (h' : Owns area kept (fun x => if S x then none else own x) used')
    (hx : own x = some b) (hS : S x) (hk : b ∈ kept) : used' b = false := by
  by_contra hb
  obtain ⟨y, hy⟩ := h'.cover hk (by simpa using hb)
  split at hy
  · cases hy
  next hne => exact hne (h.inj hx hy ▸ hS)

end Ownership
