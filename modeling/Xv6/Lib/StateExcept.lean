import Mathlib.Tactic

/-!
# Programs with state and errors

Inversion lemmas for `StateT σ (Except ε)`: what is known of the parts of a program that returns.
`Along R` says that a program takes the state along a preorder `R`, `Raises E` that its errors
satisfy `E`, `Agrees` that a program returns what another one does, `Decides C Q` that it returns
exactly if `C`, and then with `Q`, and `Returns Q` that it returns, with `Q`.
-/

namespace StateExcept

variable {σ ε α β : Type}

variable {s : σ} {f : α → StateT σ (Except ε) β} {x : StateT σ (Except ε) α}

theorem bind_ok {r : β × σ} : (x >>= f) s = .ok r ↔ ∃ a s', x s = .ok (a, s') ∧ f a s' = .ok r := by
  change (x s >>= fun q => f q.1 q.2) = .ok r ↔ _
  cases x s with
  | error e =>
    constructor
    · intro h
      cases h
    · rintro ⟨a, s', h, -⟩
      cases h
  | ok q =>
    constructor
    · intro h
      exact ⟨q.1, q.2, rfl, h⟩
    · rintro ⟨a, s', h, hf⟩
      cases h
      exact hf

variable {a : α} {s' : σ}

theorem bind_eq (h : x s = .ok (a, s')) : (x >>= f) s = f a s' := by
  change (x s >>= fun q => f q.1 q.2) = f a s'
  rw [h]
  rfl

theorem bind_error {e : ε} (h : x s = .error e) : (x >>= f) s = .error e := by
  change (x s >>= fun q => f q.1 q.2) = _
  rw [h]
  rfl

theorem bind_congr_left {g : α → StateT σ (Except ε) β}
    (h : x s = .ok (a, s')) (hfg : f a s' = g a s') : (x >>= f) s = (x >>= g) s := by
  rw [bind_eq h, bind_eq h, hfg]

theorem bind_congr_right {y : StateT σ (Except ε) α} (f : α → StateT σ (Except ε) β)
    (h : x s = y s) : (x >>= f) s = (y >>= f) s := by
  change (x s >>= fun q => f q.1 q.2) = (y s >>= fun q => f q.1 q.2)
  rw [h]

theorem get_bind (f : σ → StateT σ (Except ε) β) (s : σ) : (get >>= f) s = f s s := rfl

theorem set_bind (s' : σ) (f : PUnit → StateT σ (Except ε) β) (s : σ) :
    (set s' >>= f) s = f ⟨⟩ s' := rfl

theorem modify_bind (g : σ → σ) (f : PUnit → StateT σ (Except ε) β) (s : σ) :
    ((modify g : StateT σ (Except ε) PUnit) >>= f) s = f ⟨⟩ (g s) := rfl

theorem pure_apply (a : α) (s : σ) : (pure a : StateT σ (Except ε) α) s = .ok (a, s) := rfl

theorem pure_ok {b : α} (h : (pure a : StateT σ (Except ε) α) s = .ok (b, s')) :
    b = a ∧ s' = s := by
  cases h
  exact ⟨rfl, rfl⟩

/-! ## Relations between the states before and after -/

def Along (R : σ → σ → Prop) (x : StateT σ (Except ε) α) : Prop :=
  ∀ s a s', x s = .ok (a, s') → R s s'

section Along

variable {R : σ → σ → Prop}

theorem Along.modify {g : σ → σ} (h : ∀ s, R s (g s)) :
    Along R (modify g : StateT σ (Except ε) PUnit) := by
  intro s a s' hs
  cases hs
  exact h s

theorem Along.throw (e : ε) : Along R (throw e : StateT σ (Except ε) α) := by
  intro s a s' h
  cases h

theorem Along.ite {c : Prop} [Decidable c] {x y : StateT σ (Except ε) α} (hx : Along R x)
    (hy : Along R y) : Along R (if c then x else y) := by
  split
  · exact hx
  · exact hy

variable [IsPreorder σ R]

theorem Along.pure (a : α) : Along R (pure a : StateT σ (Except ε) α) := by
  intro s b s' h
  rw [(pure_ok h).2]
  exact refl_of R s

theorem Along.get : Along R (get : StateT σ (Except ε) σ) := by
  intro s a s' h
  cases h
  exact refl_of R s

theorem Along.bind {x : StateT σ (Except ε) α} {f : α → StateT σ (Except ε) β} (hx : Along R x)
    (hf : ∀ a, Along R (f a)) : Along R (x >>= f) := by
  intro s b s' h
  obtain ⟨a, s1, h1, h2⟩ := bind_ok.mp h
  exact trans_of R (hx s a s1 h1) (hf a s1 b s' h2)

end Along

/-! ## Errors -/

def Raises (E : ε → Prop) (x : StateT σ (Except ε) α) : Prop := ∀ s e, x s = .error e → E e

section Raises

variable {E : ε → Prop}

theorem Raises.pure (a : α) : Raises E (pure a : StateT σ (Except ε) α) := fun _ _ h => by cases h

theorem Raises.get : Raises E (get : StateT σ (Except ε) σ) := fun _ _ h => by cases h

theorem Raises.set (s' : σ) : Raises E (set s' : StateT σ (Except ε) PUnit) :=
  fun _ _ h => by cases h

theorem Raises.modify (g : σ → σ) : Raises E (modify g : StateT σ (Except ε) PUnit) :=
  fun _ _ h => by cases h

theorem Raises.throw {e : ε} (he : E e) : Raises E (throw e : StateT σ (Except ε) α) := by
  intro s e' h
  cases h
  exact he

variable {x : StateT σ (Except ε) α}

theorem Raises.ite {c : Prop} [Decidable c] {y : StateT σ (Except ε) α} (hx : Raises E x)
    (hy : Raises E y) : Raises E (if c then x else y) := by
  split
  · exact hx
  · exact hy

variable {f : α → StateT σ (Except ε) β}

theorem Raises.bind_at {s : σ} (hx : ∀ e, x s = .error e → E e) (hf : ∀ a, Raises E (f a)) :
    ∀ e, (x >>= f) s = .error e → E e := by
  intro e h
  change (x s >>= fun q => f q.1 q.2) = .error e at h
  cases hs : x s with
  | error e' =>
    rw [hs] at h
    cases h
    exact hx _ hs
  | ok q =>
    rw [hs] at h
    exact hf q.1 q.2 e h

theorem Raises.bind (hx : Raises E x) (hf : ∀ a, Raises E (f a)) : Raises E (x >>= f) := fun s =>
  Raises.bind_at (hx s) hf

theorem Raises.bind_left {s s' : σ} {a : α} (hr : x s = .ok (a, s'))
    (hf : ∀ e, f a s' = .error e → E e) : ∀ e, (x >>= f) s = .error e → E e := by
  rw [bind_eq hr]
  exact hf

end Raises

/-! ## Programs that agree where one of them returns -/

def Agrees (x y : StateT σ (Except ε) α) : Prop := ∀ s r, x s = .ok r → y s = .ok r

section Agrees

variable {x y : StateT σ (Except ε) α}

theorem Agrees.refl (x : StateT σ (Except ε) α) : Agrees x x := fun _ _ h => h

theorem Agrees.throw (e : ε) (y : StateT σ (Except ε) α) : Agrees (throw e) y :=
  fun _ _ h => by cases h

theorem Agrees.ite {c : Prop} [Decidable c] {x' y' : StateT σ (Except ε) α} (h : Agrees x y)
    (h' : Agrees x' y') : Agrees (if c then x else x') (if c then y else y') := by
  split
  · exact h
  · exact h'

theorem Agrees.bind {f g : α → StateT σ (Except ε) β} (h : Agrees x y)
    (hf : ∀ a, Agrees (f a) (g a)) : Agrees (x >>= f) (y >>= g) := by
  intro s r hr
  obtain ⟨a, s', h1, h2⟩ := bind_ok.mp hr
  exact bind_ok.mpr ⟨a, s', h s _ h1, hf a s' r h2⟩

end Agrees

/-! ## When a program returns -/

/-- From state `s` the program returns, with `Q`, if `C` holds, and fails otherwise. -/
def Decides (x : StateT σ (Except ε) α) (s : σ) (C : Prop) (Q : α → σ → Prop) : Prop :=
  (C → ∃ a s', x s = .ok (a, s') ∧ Q a s') ∧ (¬ C → ∃ e, x s = .error e)

namespace Decides

variable {x : StateT σ (Except ε) α} {s : σ} {C : Prop} {Q : α → σ → Prop}

variable {s' : σ} {a : α}

theorem of_ok (h : Decides x s C Q) (hr : x s = .ok (a, s')) : C ∧ Q a s' := by
  have hC : C := by
    by_contra hC
    obtain ⟨e, he⟩ := h.2 hC
    rw [hr] at he
    cases he
  obtain ⟨b, t, hb, hQ⟩ := h.1 hC
  obtain ⟨rfl, rfl⟩ := Prod.mk.inj (Except.ok.inj (hr.symm.trans hb))
  exact ⟨hC, hQ⟩

theorem of_eq (hr : x s = .ok (a, s')) (hC : C) (hQ : Q a s') : Decides x s C Q :=
  ⟨fun _ => ⟨a, s', hr, hQ⟩, fun hn => absurd hC hn⟩

theorem pure (hQ : Q a s) : Decides (pure a : StateT σ (Except ε) α) s True Q :=
  of_eq rfl trivial hQ

theorem throw (e : ε) (hC : ¬ C) : Decides (throw e : StateT σ (Except ε) α) s C Q :=
  ⟨fun h => absurd h hC, fun _ => ⟨e, rfl⟩⟩

theorem congr {C' : Prop} (h : Decides x s C Q) (hC : C ↔ C') : Decides x s C' Q :=
  ⟨fun hc => h.1 (hC.mpr hc), fun hc => h.2 fun hC' => hc (hC.mp hC')⟩

theorem mono {Q' : α → σ → Prop} (h : Decides x s C Q) (hQ : ∀ a s', Q a s' → Q' a s') :
    Decides x s C Q' := by
  refine ⟨fun hC => ?_, h.2⟩
  obtain ⟨a, s', hr, hq⟩ := h.1 hC
  exact ⟨a, s', hr, hQ a s' hq⟩

variable {R : β → σ → Prop} {f : α → StateT σ (Except ε) β}

theorem bind {D : Prop} (hx : Decides x s C Q)
    (hf : ∀ a s', Q a s' → Decides (f a) s' D R) : Decides (x >>= f) s (C ∧ D) R := by
  by_cases hC : C
  · obtain ⟨a, s', hr, hQ⟩ := hx.1 hC
    obtain ⟨hok, herr⟩ := hf a s' hQ
    rw [← bind_eq (f := f) hr] at hok herr
    exact ⟨fun h => hok h.2, fun h => herr fun hD => h ⟨hC, hD⟩⟩
  · refine ⟨fun h => absurd h.1 hC, fun _ => ?_⟩
    obtain ⟨e, he⟩ := hx.2 hC
    exact ⟨e, bind_error he⟩

theorem bind_left
    (hr : x s = .ok (a, s')) (hf : Decides (f a) s' C R) : Decides (x >>= f) s C R := by
  unfold Decides at hf ⊢
  rw [bind_eq hr]
  exact hf

theorem bind_right (hx : Decides x s C Q)
    (hf : ∀ a s', Q a s' → Decides (f a) s' True R) : Decides (x >>= f) s C R :=
  (hx.bind hf).congr (and_iff_left trivial)

theorem bind_true (hx : Decides x s True Q)
    (hf : ∀ a s', Q a s' → Decides (f a) s' C R) : Decides (x >>= f) s C R :=
  (hx.bind hf).congr (and_iff_right trivial)

end Decides

/-! ## Programs that return -/

def Returns (x : StateT σ (Except ε) α) (s : σ) (Q : α → σ → Prop) : Prop :=
  ∃ a s', x s = .ok (a, s') ∧ Q a s'

namespace Returns

variable {x : StateT σ (Except ε) α} {s : σ} {Q : α → σ → Prop}

variable {a : α}

theorem pure (hQ : Q a s) : Returns (pure a : StateT σ (Except ε) α) s Q :=
  ⟨a, s, rfl, hQ⟩

theorem mono {Q' : α → σ → Prop} (h : Returns x s Q) (hQ : ∀ a s', Q a s' → Q' a s') :
    Returns x s Q' := by
  obtain ⟨a, s', hr, hq⟩ := h
  exact ⟨a, s', hr, hQ a s' hq⟩

theorem bind_left {s' : σ} {f : α → StateT σ (Except ε) β} {R : β → σ → Prop}
    (hr : x s = .ok (a, s')) (hf : Returns (f a) s' R) : Returns (x >>= f) s R := by
  obtain ⟨b, s'', hr', hR⟩ := hf
  exact ⟨b, s'', (bind_eq hr).trans hr', hR⟩

theorem of_ok (h : Returns x s Q) {s' : σ} (hr : x s = .ok (a, s')) : Q a s' := by
  obtain ⟨b, t, hb, hQ⟩ := h
  obtain ⟨rfl, rfl⟩ := Prod.mk.inj (Except.ok.inj (hr.symm.trans hb))
  exact hQ

end Returns

end StateExcept
