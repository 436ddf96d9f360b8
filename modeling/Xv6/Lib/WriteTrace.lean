import Mathlib.Tactic

/-!
# Write traces and crash points

A store of cells that are written one at a time, each write atomic and in issue order. A crash
leaves the store after some prefix of the issued writes; `replay` is that state, and
`take_append_cons` says on which side of a given write a crash falls.
-/

namespace WriteTrace

open Function

variable {β : Type*}

def replay (d : ℕ → β) (ws : List (ℕ × β)) : ℕ → β :=
  ws.foldl (fun d w => update d w.1 w.2) d

@[simp] theorem replay_nil (d : ℕ → β) : replay d [] = d := rfl

@[simp] theorem replay_cons (d : ℕ → β) (w : ℕ × β) (ws : List (ℕ × β)) :
    replay d (w :: ws) = replay (update d w.1 w.2) ws := rfl

theorem replay_append (d : ℕ → β) (us ws : List (ℕ × β)) :
    replay d (us ++ ws) = replay (replay d us) ws := List.foldl_append

theorem replay_concat (d : ℕ → β) (ws : List (ℕ × β)) (b : ℕ) (v : β) :
    replay d (ws ++ [(b, v)]) = update (replay d ws) b v := by
  rw [replay_append]; rfl

theorem replay_of_notMem {ws : List (ℕ × β)} {b : ℕ} (d : ℕ → β) (h : ∀ w ∈ ws, w.1 ≠ b) :
    replay d ws b = d b := by
  induction ws generalizing d with
  | nil => rfl
  | cons w ws ih =>
    rw [replay_cons, ih _ (fun x hx => h x (List.mem_cons_of_mem _ hx)),
      update_of_ne (h w List.mem_cons_self).symm]

theorem replay_map_apply (f : ℕ → β) {bs : List ℕ} {b : ℕ} (d : ℕ → β) (hb : b ∈ bs) :
    replay d (bs.map fun x => (x, f x)) b = f b := by
  induction bs generalizing d with
  | nil => simp at hb
  | cons x xs ih =>
    rw [List.map_cons, replay_cons]
    by_cases hxs : b ∈ xs
    · exact ih _ hxs
    · have hbx : b = x := by simpa [hxs] using hb
      have hne : ∀ w ∈ xs.map fun x => (x, f x), w.1 ≠ b := by
        intro w hw e
        obtain ⟨y, hy, rfl⟩ := List.mem_map.mp hw
        exact hxs (e ▸ hy)
      rw [replay_of_notMem _ hne, hbx]
      exact update_self x (f x) d

theorem replay_take_induction {P : (ℕ → β) → Prop} {ws : List (ℕ × β)}
    (hstep : ∀ w ∈ ws, ∀ d, P d → P (update d w.1 w.2)) (k : ℕ) :
    ∀ d, P d → P (replay d (ws.take k)) := by
  induction ws generalizing k with
  | nil => intro d hd; simpa using hd
  | cons w ws ih =>
    intro d hd
    cases k with
    | zero => exact hd
    | succ k =>
      rw [List.take_succ_cons, replay_cons]
      exact ih (fun x hx => hstep x (List.mem_cons_of_mem _ hx)) k _
        (hstep w List.mem_cons_self d hd)

theorem take_append_cons (us ws : List (ℕ × β)) (w : ℕ × β) (k : ℕ) :
    (k ≤ us.length ∧ (us ++ w :: ws).take k = us.take k) ∨
      (us.length < k ∧ (us ++ w :: ws).take k = us ++ w :: ws.take (k - us.length - 1)) := by
  by_cases h : k ≤ us.length
  · exact Or.inl ⟨h, List.take_append_of_le_length h⟩
  · refine Or.inr ⟨by omega, ?_⟩
    rw [List.take_append, List.take_of_length_le (by omega),
      show k - us.length = k - us.length - 1 + 1 by omega, List.take_succ_cons,
      Nat.add_sub_cancel]

end WriteTrace
