import Mathlib.Tactic

/-!
# Labelled transition systems

A system is a partial step function `step s l`; `none` means that the label is not enabled. `Reach`
collects the states of the runs all of whose steps satisfy a side condition `ok`, and
`Reach.invariant` is the induction over such a run.
-/

namespace Lts

variable {S L : Type*} (step : S → L → Option S) (ok : S → L → Prop)

inductive Reach (s₀ : S) : S → Prop
  | refl : Reach s₀ s₀
  | tail {s s' : S} {l : L} : Reach s₀ s → ok s l → step s l = some s' → Reach s₀ s'

def run (s : S) : List L → Option S
  | [] => some s
  | l :: ls => (step s l).bind fun s' => run s' ls

def RunOk (s : S) : List L → Prop
  | [] => True
  | l :: ls => ok s l ∧ ∀ s', step s l = some s' → RunOk s' ls

instance RunOk.decidable [∀ s l, Decidable (ok s l)] :
    ∀ (s : S) (ls : List L), Decidable (RunOk step ok s ls)
  | _, [] => isTrue trivial
  | s, l :: ls =>
    match hs : step s l with
    | none => decidable_of_iff (ok s l) (by simp [RunOk, hs])
    | some s' =>
      have := RunOk.decidable s' ls
      decidable_of_iff (ok s l ∧ RunOk step ok s' ls) (by simp [RunOk, hs])

variable {step ok} {s₀ s : S}

theorem Reach.invariant {I : S → Prop} (h0 : I s₀)
    (hstep : ∀ s s' l, I s → ok s l → step s l = some s' → I s')
    (h : Reach step ok s₀ s) : I s := by
  induction h with
  | refl => exact h0
  | tail _ hok hs ih => exact hstep _ _ _ ih hok hs

theorem Reach.trans {s1 : S} (h1 : Reach step ok s₀ s1) (h2 : Reach step ok s1 s) :
    Reach step ok s₀ s := by
  induction h2 with
  | refl => exact h1
  | tail _ hok hs ih => exact ih.tail hok hs

theorem Reach.of_run {ls : List L} (hr : run step s₀ ls = some s) (hok : RunOk step ok s₀ ls) :
    Reach step ok s₀ s := by
  induction ls generalizing s₀ with
  | nil => obtain rfl := Option.some.inj hr; exact .refl
  | cons l ls ih =>
    obtain ⟨s', hs, hr⟩ := Option.bind_eq_some_iff.mp hr
    exact (Reach.refl.tail hok.1 hs).trans (ih hr (hok.2 s' hs))

theorem RunOk.trivial (s : S) (ls : List L) : RunOk step (fun _ _ => True) s ls := by
  induction ls generalizing s with
  | nil => exact True.intro
  | cons l ls ih => exact ⟨True.intro, fun s' _ => ih s'⟩

theorem run_simulates {A : Type*} {step' : A → L → Option A} {R : S → A → Prop}
    (hstep : ∀ s s' a l, R s a → step s l = some s' → ∃ a', step' a l = some a' ∧ R s' a')
    {a : A} {ls : List L} (h : R s₀ a) (hr : run step s₀ ls = some s) :
    ∃ a', run step' a ls = some a' ∧ R s a' := by
  induction ls generalizing s₀ a with
  | nil =>
    cases hr
    exact ⟨a, rfl, h⟩
  | cons l ls ih =>
    obtain ⟨s', hs, hr⟩ := Option.bind_eq_some_iff.mp hr
    obtain ⟨a', ha, h'⟩ := hstep _ _ _ _ h hs
    obtain ⟨a'', ha', h''⟩ := ih h' hr
    exact ⟨a'', Option.bind_eq_some_iff.mpr ⟨a', ha, ha'⟩, h''⟩

variable (step) in
theorem exists_reach (s₀ : S) (ls : List L) (q : S → Bool) (hq : (run step s₀ ls).any q = true)
    (hok : RunOk step ok s₀ ls) :
    ∃ s, run step s₀ ls = some s ∧ Reach step ok s₀ s ∧ q s = true := by
  obtain ⟨s, hs, hq⟩ := (Option.any_eq_true q _).mp hq
  exact ⟨s, hs, Reach.of_run hs hok, hq⟩

theorem of_guard {c : Prop} [Decidable c] {s s' : S} (h : (if c then some s else none) = some s') :
    c ∧ s' = s :=
  (Option.ite_none_right_eq_some.mp h).imp_right fun h => (Option.some.inj h).symm

/-- A change at one place that keeps a field keeps it everywhere. -/
theorem update_field {ι A B : Type*} [DecidableEq ι] (π : A → B) {f : ι → A} {i : ι} {a : A}
    (h : π a = π (f i)) (j : ι) : π (Function.update f i a j) = π (f j) := by
  obtain rfl | hj := eq_or_ne j i
  · rw [Function.update_self, h]
  · rw [Function.update_of_ne hj]

-- The processes of a concrete run are numerals of `Fin n`.
instance neZero_one : NeZero 1 := ⟨one_ne_zero⟩

instance neZero_two : NeZero 2 := ⟨two_ne_zero⟩

instance neZero_three : NeZero 3 := ⟨three_ne_zero⟩

end Lts
