import Mathlib.Tactic

/-!
# Queues linked through their elements

A queue is a pointer `head` to its first element, and every element has a pointer `next` to the one
behind it. An element is appended by walking to the end and setting the last pointer, and the first
one is taken by moving `head` on. `Linked` relates the pointers to the list of elements.
-/

namespace LinkedQueue

open Function

variable {A : Type*} {next next' : A → Option A} {head : Option A} {l : List A} {a b : A}

def Linked (next : A → Option A) : Option A → List A → Prop
  | head, [] => head = none
  | head, a :: l => head = some a ∧ Linked next (next a) l

theorem Linked.congr (h : Linked next head l) (hn : ∀ a ∈ l, next' a = next a) :
    Linked next' head l := by
  induction l generalizing head with
  | nil => exact h
  | cons a l ih =>
    refine ⟨h.1, ?_⟩
    rw [hn a List.mem_cons_self]
    exact ih h.2 fun b hb => hn b (List.mem_cons_of_mem _ hb)

/-! ## Appending -/

def lastFrom (next : A → Option A) : ℕ → A → A
  | 0, a => a
  | fuel + 1, a =>
    match next a with
    | some b => lastFrom next fuel b
    | none => a

theorem lastFrom_eq {fuel : ℕ} (h : Linked next (next a) l) (hf : l.length ≤ fuel) :
    lastFrom next fuel a = (a :: l).getLast (by simp) := by
  induction fuel generalizing a l with
  | zero =>
    obtain rfl : l = [] := List.eq_nil_of_length_eq_zero (by omega)
    rfl
  | succ fuel ih =>
    unfold lastFrom
    cases l with
    | nil =>
      rw [show next a = none from h]
      rfl
    | cons b l =>
      rw [h.1]
      show lastFrom next fuel b = _
      rw [ih h.2 (by simpa using hf)]
      exact (List.getLast_cons (by simp)).symm

variable [DecidableEq A]

def append (next : A → Option A) (fuel : ℕ) (head : Option A) (b : A) :
    Option A × (A → Option A) :=
  let next := update next b none
  match head with
  | none => (some b, next)
  | some a => (some a, update next (lastFrom next fuel a) (some b))

theorem Linked.set_last (h : Linked next (some a) (a :: l)) (hn : (a :: l).Nodup) (hb : b ∉ a :: l)
    (hbn : next b = none) :
    Linked (update next ((a :: l).getLast (by simp)) (some b)) (some a)
      (a :: l ++ [b]) := by
  induction l generalizing a with
  | nil =>
    have hab : b ≠ a := fun h => hb (by simp [h])
    refine ⟨rfl, ?_, ?_⟩
    · simp
    · simpa [update_of_ne hab, Linked] using hbn
  | cons c l ih =>
    obtain ⟨-, hc⟩ := h
    have hna : a ∉ c :: l := (List.nodup_cons.mp hn).1
    have hlast : (a :: c :: l).getLast (by simp) = (c :: l).getLast (by simp) :=
      List.getLast_cons (by simp)
    have hne : a ≠ (c :: l).getLast (by simp) := fun h => hna (h ▸ List.getLast_mem _)
    refine ⟨rfl, ?_⟩
    rw [hlast, update_of_ne hne, hc.1]
    exact ih ⟨rfl, hc.2⟩ (List.nodup_cons.mp hn).2 fun hm => hb (List.mem_cons_of_mem _ hm)

theorem Linked.append {fuel : ℕ} (h : Linked next head l) (hn : l.Nodup) (hb : b ∉ l)
    (hf : l.length ≤ fuel) :
    Linked (append next fuel head b).2 (append next fuel head b).1 (l ++ [b]) := by
  have h' : Linked (update next b none) head l :=
    h.congr fun a ha => update_of_ne (by rintro rfl; exact hb ha) ..
  cases l with
  | nil =>
    obtain rfl : head = none := h
    simp [LinkedQueue.append, Linked]
  | cons a l =>
    obtain rfl : head = some a := h.1
    show Linked (update (update next b none)
      (lastFrom (update next b none) fuel a) (some b)) (some a) _
    rw [lastFrom_eq h'.2 (by simp at hf; omega)]
    exact h'.set_last hn hb (by simp)

theorem append_head {fuel : ℕ} (h : Linked next head l) :
    (append next fuel head b).1 = (l ++ [b]).head? := by
  cases l with
  | nil =>
    obtain rfl : head = none := h
    rfl
  | cons a l =>
    obtain rfl : head = some a := h.1
    rfl

end LinkedQueue
