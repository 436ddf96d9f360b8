import Mathlib.Tactic

/-!
# Circular linked lists

`Path next p l q` says that following `next` from `p` one passes through `l` and arrives at `q`; a
ring is a path from a cell to itself. `walk` is the search loop that follows `next` until a test
succeeds: on a ring it returns if some cell passes the test.
-/

namespace Ring

variable {A : Type*}

def Path (next : A → A) : A → List A → A → Prop
  | p, [], q => p = q
  | p, a :: l, q => p = a ∧ Path next (next a) l q

def walk (next : A → A) (stop : A → Bool) : ℕ → A → Option A
  | 0, _ => none
  | n + 1, p => if stop p then some p else walk next stop n (next p)

variable {next next' : A → A} {stop : A → Bool} {p q : A} {l l₁ l₂ : List A}

theorem path_append : Path next p (l₁ ++ l₂) q ↔ ∃ r, Path next p l₁ r ∧ Path next r l₂ q := by
  induction l₁ generalizing p with
  | nil =>
    constructor
    · exact fun h => ⟨p, rfl, h⟩
    · rintro ⟨r, rfl, h⟩
      exact h
  | cons a l₁ ih =>
    constructor
    · rintro ⟨rfl, h⟩
      obtain ⟨r, h1, h2⟩ := ih.mp h
      exact ⟨r, ⟨rfl, h1⟩, h2⟩
    · rintro ⟨r, ⟨rfl, h1⟩, h2⟩
      exact ⟨rfl, ih.mpr ⟨r, h1, h2⟩⟩

theorem Path.congr (h : Path next p l q) (heq : ∀ a ∈ l, next' a = next a) : Path next' p l q := by
  induction l generalizing p with
  | nil => exact h
  | cons a l ih =>
    obtain ⟨rfl, h⟩ := h
    refine ⟨rfl, ?_⟩
    rw [heq p List.mem_cons_self]
    exact ih h fun b hb => heq b (List.mem_cons_of_mem _ hb)

theorem Path.rotate {x : A} (h : Path next p l p) (hx : x ∈ l) :
    ∃ l', Path next x (x :: l') x ∧ (x :: l').Perm l := by
  obtain ⟨l₁, l₂, rfl⟩ := List.append_of_mem hx
  obtain ⟨r, h1, rfl, h2⟩ := path_append.mp h
  have hperm : ((r :: l₂) ++ l₁).Perm (l₁ ++ r :: l₂) := List.perm_append_comm
  exact ⟨l₂ ++ l₁, ⟨rfl, path_append.mpr ⟨p, h2, h1⟩⟩, hperm⟩

theorem Path.map_next (h : Path next p l q) : p :: l.map next = l ++ [q] := by
  induction l generalizing p with
  | nil => rw [h, List.map_nil, List.nil_append]
  | cons a l ih =>
    obtain ⟨rfl, h⟩ := h
    rw [List.map_cons, ih h, List.cons_append]

theorem Path.perm (h : Path next p l p) : (l.map next).Perm l := by
  refine (List.perm_cons p).mp ?_
  rw [h.map_next]
  exact List.perm_append_singleton p l

theorem Path.exists_pred {y : A} (h : Path next p l p) (hy : y ∈ l) : ∃ x ∈ l, next x = y :=
  List.mem_map.mp (h.perm.mem_iff.mpr hy)

theorem Path.next_inj {x y : A} (h : Path next p l p) (hn : l.Nodup) (hx : x ∈ l) (hy : y ∈ l)
    (heq : next x = next y) : x = y :=
  List.inj_on_of_nodup_map (h.perm.nodup_iff.mpr hn) hx hy heq

theorem walk_mono {m n : ℕ} {x : A} (hmn : m ≤ n) (h : walk next stop m p = some x) :
    walk next stop n p = some x := by
  induction m generalizing n p with
  | zero => cases h
  | succ m ih =>
    obtain ⟨n, rfl⟩ := Nat.exists_eq_succ_of_ne_zero (Nat.ne_zero_of_lt hmn)
    unfold walk at h ⊢
    split at h
    next hp => rwa [if_pos hp]
    next hp =>
      rw [if_neg hp]
      exact ih (Nat.le_of_succ_le_succ hmn) h

theorem walk_of_path {x : A} {n : ℕ} (h : Path next p l q) (hx : x ∈ l) (hstop : stop x = true)
    (hn : l.length ≤ n) : ∃ y ∈ l, stop y = true ∧ walk next stop n p = some y := by
  induction l generalizing p n with
  | nil => exact absurd hx List.not_mem_nil
  | cons a l ih =>
    obtain ⟨rfl, h⟩ := h
    obtain ⟨n, rfl⟩ := Nat.exists_eq_succ_of_ne_zero (Nat.ne_zero_of_lt hn)
    unfold walk
    by_cases hp : stop p = true
    · exact ⟨p, List.mem_cons_self, hp, if_pos hp⟩
    · have hxl : x ∈ l := (List.mem_cons.mp hx).resolve_left fun hxp => hp (hxp ▸ hstop)
      obtain ⟨y, hy, hs, hw⟩ := ih h hxl (Nat.le_of_succ_le_succ hn)
      exact ⟨y, List.mem_cons_of_mem _ hy, hs, by rw [if_neg hp, hw]⟩

theorem walk_of_ring {x r : A} {n : ℕ} (h : Path next p l p) (hr : r ∈ l) (hx : x ∈ l)
    (hstop : stop x = true) (hn : l.length ≤ n) :
    ∃ y ∈ l, stop y = true ∧ walk next stop n r = some y := by
  obtain ⟨l', h', hperm⟩ := h.rotate hr
  obtain ⟨y, hy, hs, hw⟩ :=
    walk_of_path h' (hperm.mem_iff.mpr hx) hstop (hperm.length_eq.trans_le hn)
  exact ⟨y, hperm.mem_iff.mp hy, hs, hw⟩

end Ring
