import Mathlib.Tactic

/-!
# Ring buffers with free-running counters

A buffer of `N` cells is indexed by two counters that only ever go up and wrap around modulo `M`.
The counters themselves are stored, not their residues modulo `N`, so that a full buffer (`wr` is
`N` ahead of `rd`) and an empty one (`wr = rd`) are told apart. This works for ever if `N` divides
`M` and is smaller: the cell of a counter does not change when the counter wraps.
-/

structure RingBuffer (α : Type*) where
  buf : ℕ → α
  rd : ℕ
  wr : ℕ

namespace RingBuffer

variable {α : Type*} (N M : ℕ)

def size (r : RingBuffer α) : ℕ := (r.wr + (M - r.rd)) % M

def Empty (r : RingBuffer α) : Prop := r.rd = r.wr

def Full (r : RingBuffer α) : Prop := r.wr = (r.rd + N) % M

instance (r : RingBuffer α) : Decidable r.Empty := inferInstanceAs (Decidable (_ = _))

instance (r : RingBuffer α) : Decidable (r.Full N M) := inferInstanceAs (Decidable (_ = _))

def put (r : RingBuffer α) (a : α) : RingBuffer α :=
  { r with buf := Function.update r.buf (r.wr % N) a, wr := (r.wr + 1) % M }

def front (r : RingBuffer α) : α := r.buf (r.rd % N)

def pop (r : RingBuffer α) : RingBuffer α := { r with rd := (r.rd + 1) % M }

def contents (r : RingBuffer α) : List α := (List.range (r.size M)).map fun i =>
    r.buf ((r.rd + i) % N)

structure WF (r : RingBuffer α) : Prop where
  rd_lt : r.rd < M
  wr_lt : r.wr < M
  size_le : r.size M ≤ N

variable {N M} {r : RingBuffer α}

theorem add_mod_eq {x k : ℕ} (hx : x < M) (hk : k ≤ M) :
    (x + k) % M = if x + k < M then x + k else x + k - M := by
  split
  · exact Nat.mod_eq_of_lt ‹_›
  · rw [Nat.mod_eq_sub_mod (by omega), Nat.mod_eq_of_lt (by omega)]

theorem WF.size_eq (h : r.WF N M) :
    r.size M = if r.rd ≤ r.wr then r.wr - r.rd else r.wr + M - r.rd := by
  have hr := h.rd_lt
  have hw := h.wr_lt
  rw [size, add_mod_eq hw (by omega)]
  split <;> split <;> omega

theorem WF.full_iff (h : r.WF N M) (hNM : N < M) : r.Full N M ↔ r.size M = N := by
  have hr := h.rd_lt
  have hw := h.wr_lt
  rw [h.size_eq, Full, add_mod_eq hr hNM.le]
  split <;> split <;> omega

theorem WF.of_eq (hr : r.rd < M) (h : r.wr = r.rd) : r.WF N M := by
  have hsize : r.size M = 0 := by
    rw [size, h, show r.rd + (M - r.rd) = M by omega, Nat.mod_self]
  exact ⟨hr, by omega, by omega⟩

/-! ## Storing -/

theorem size_put (h : r.WF N M) (hNM : N < M) (hfull : ¬ r.Full N M) (a : α) :
    (r.put N M a).size M = r.size M + 1 := by
  have hr := h.rd_lt
  have hw := h.wr_lt
  have hle := h.size_le
  rw [h.full_iff hNM] at hfull
  have hput : (r.put N M a).size M = ((r.wr + 1) % M + (M - r.rd)) % M := rfl
  have hlt : r.size M + 1 < M ∨ r.size M + 1 = M := by omega
  rw [hput, Nat.mod_add_mod, show r.wr + 1 + (M - r.rd) = r.wr + (M - r.rd) + 1 by omega,
    ← Nat.mod_add_mod]
  exact Nat.mod_eq_of_lt (show r.size M + 1 < M by omega)

theorem WF.put (h : r.WF N M) (hNM : N < M) (hfull : ¬ r.Full N M) (a : α) :
    (r.put N M a).WF N M := by
  have hpos : 0 < M := by omega
  refine ⟨h.rd_lt, Nat.mod_lt _ hpos, ?_⟩
  have hle := h.size_le
  rw [h.full_iff hNM] at hfull
  rw [size_put h hNM (by rwa [h.full_iff hNM])]
  omega

theorem WF.wr_cell (h : r.WF N M) (hdvd : N ∣ M) : r.wr % N = (r.rd + r.size M) % N := by
  have hr := h.rd_lt
  obtain ⟨c, rfl⟩ := hdvd
  rw [h.size_eq]
  split
  · rw [Nat.add_sub_cancel' ‹_›]
  · rw [show r.rd + (r.wr + N * c - r.rd) = r.wr + N * c by omega, Nat.add_mul_mod_self_left]

theorem cell_ne {x i j : ℕ} (hij : i < j) (hj : j < i + N) : (x + i) % N ≠ (x + j) % N := by
  intro heq
  have hdvd : N ∣ (x + j) - (x + i) := (Nat.modEq_iff_dvd' (by omega)).mp heq
  have hle := Nat.le_of_dvd (by omega) hdvd
  omega

theorem contents_put (h : r.WF N M) (hdvd : N ∣ M) (hNM : N < M) (hfull : ¬ r.Full N M) (a : α) :
    (r.put N M a).contents N M = r.contents N M ++ [a] := by
  have hcell := h.wr_cell hdvd
  have hlt : r.size M < N := by
    have hle := h.size_le
    rw [h.full_iff hNM] at hfull
    omega
  rw [contents, size_put h hNM hfull, List.range_succ, List.map_append, contents]
  congr 1
  · apply List.map_congr_left
    intro i hi
    have hi : i < r.size M := List.mem_range.mp hi
    have hne : (r.rd + i) % N ≠ r.wr % N := by
      rw [hcell]
      exact cell_ne hi (by omega)
    exact Function.update_of_ne hne _ _
  · have hat : (r.rd + r.size M) % N = r.wr % N := hcell.symm
    simp [RingBuffer.put, hat]

/-! ## Taking -/

theorem size_pop (h : r.WF N M) (hempty : ¬ r.Empty) : (r.pop M).size M + 1 = r.size M := by
  have hr := h.rd_lt
  have hw := h.wr_lt
  have hpop : (r.pop M).size M = (r.wr + (M - (r.rd + 1) % M)) % M := rfl
  rw [hpop, h.size_eq, add_mod_eq hr (by omega)]
  rw [Empty] at hempty
  split
  · rw [add_mod_eq hw (by omega)]
    split <;> split <;> omega
  · have hrd : r.rd + 1 - M = 0 := by omega
    rw [hrd, Nat.sub_zero, Nat.add_mod_right, Nat.mod_eq_of_lt hw]
    split <;> omega

theorem WF.pop (h : r.WF N M) (hempty : ¬ r.Empty) : (r.pop M).WF N M := by
  have hr := h.rd_lt
  have hle := h.size_le
  have hsize := size_pop h hempty
  exact ⟨Nat.mod_lt _ (by omega), h.wr_lt, by omega⟩

theorem contents_pop (h : r.WF N M) (hdvd : N ∣ M) (hempty : ¬ r.Empty) :
    r.contents N M = r.front N :: (r.pop M).contents N M := by
  rw [contents, ← size_pop h hempty, List.range_succ_eq_map, List.map_cons, List.map_map, contents]
  congr 1
  apply List.map_congr_left
  intro i _
  have hcell : ((r.rd + 1) % M + i) % N = (r.rd + (i + 1)) % N := by
    rw [Nat.add_mod, Nat.mod_mod_of_dvd _ hdvd, ← Nat.add_mod]
    congr 1
    omega
  exact congrArg r.buf hcell.symm

end RingBuffer
