import Xv6.Lib.Lts

/-!
# Concurrent programs over a shared state

A program is a tree of atomic actions on a shared state `σ` and of requests it may have to wait for.
An action may fail with an error `ε`, which stops the program for good. Requests `ω` are interpreted
by an `Arbiter`: when a request of process `p` can be granted, and what granting it does.

1. `Prog.run` executes a program alone, with pre- and postconditions in `Triple`. `Conc.step`
   interleaves the programs of the processes `P`, one action or granted request at a time; what the
   first does the second can do (`reach_of_call`).
2. `Wp` is a program logic with ghost state. An invariant `I s w γ` ties the shared state to a
   global ghost `w` and to the ghost `γ p` of each process; an action has to restore it and may
   choose new ghosts for the process that runs it. `O` is what a process owes while it waits, `E`
   what it owes of the state before the step that brings it to a request, `R` what every action
   guarantees of the states before and after it.
3. `SysInv.step`: programs that satisfy `Wp` keep the invariant in every interleaving.
   `SysInv.guarantee`: every step of an interleaving satisfies `R`. `SysInv.entry`: a process comes
   to a request only by a step that satisfies `E`.
-/

namespace Conc

open Function

/-- Programs over the shared state `σ`, with errors `ε` and requests `ω`, that return an `α`. -/
inductive Prog (σ ε ω α : Type) : Type 1
  | ret (a : α)
  | act {β : Type} (f : σ → Except ε (β × σ)) (k : β → Prog σ ε ω α)
  | wait (w : ω) (k : Prog σ ε ω α)

variable {σ ε ω α β : Type}

namespace Prog

def bind : Prog σ ε ω α → (α → Prog σ ε ω β) → Prog σ ε ω β
  | ret a, f => f a
  | act g k, f => act g fun b => (k b).bind f
  | wait w k, f => wait w (k.bind f)

instance : Monad (Prog σ ε ω) where
  pure := ret
  bind := bind

def lift (f : StateT σ (Except ε) α) : Prog σ ε ω α := act f ret

def request (w : ω) : Prog σ ε ω Unit := wait w (ret ())

end Prog

structure Arbiter (P σ ω : Type) where
  ready : P → ω → σ → Bool
  grant : P → ω → σ → σ

inductive Stop (ε : Type)
  | error (e : ε)
  | blocked

variable {P : Type}

def Prog.run (A : Arbiter P σ ω) (p : P) : Prog σ ε ω α → σ → Except (Stop ε) (α × σ)
  | .ret a, s => .ok (a, s)
  | .act f k, s =>
    match f s with
    | .ok (b, s') => (k b).run A p s'
    | .error e => .error (.error e)
  | .wait w k, s => if A.ready p w s then k.run A p (A.grant p w s) else .error .blocked

theorem Prog.run_bind (A : Arbiter P σ ω) (p : P) (m : Prog σ ε ω α) (f : α → Prog σ ε ω β)
    (s : σ) : (m >>= f).run A p s = (m.run A p s).bind fun r => (f r.1).run A p r.2 := by
  change (m.bind f).run A p s = _
  induction m generalizing s with
  | ret a => rfl
  | act g k ih =>
    simp only [Prog.bind, Prog.run]
    cases g s with
    | error e => rfl
    | ok r => exact ih r.1 r.2
  | wait w k ih =>
    simp only [Prog.bind, Prog.run]
    split
    · exact ih _
    · rfl

theorem Prog.run_pure (A : Arbiter P σ ω) (p : P) (a : α) (s : σ) :
    (pure a : Prog σ ε ω α).run A p s = .ok (a, s) := rfl

variable {s : σ} {p : P} {A : Arbiter P σ ω}

theorem Prog.run_bind_ok {m : Prog σ ε ω α} {f : α → Prog σ ε ω β} {s' : σ} {a : α}
    (h : m.run A p s = .ok (a, s')) : (m >>= f).run A p s = (f a).run A p s' := by
  rw [Prog.run_bind, h]
  rfl

theorem Prog.run_lift_ok {f : StateT σ (Except ε) α} {s' : σ} {a : α}
    (h : f s = .ok (a, s')) : (Prog.lift f : Prog σ ε ω α).run A p s = .ok (a, s') := by
  simp only [Prog.lift, Prog.run]
  rw [h]

theorem Prog.run_request_ok {w : ω} (h : A.ready p w s = true) :
    (Prog.request w : Prog σ ε ω Unit).run A p s = .ok ((), A.grant p w s) := by
  simp only [Prog.request, Prog.run]
  rw [if_pos h]

theorem Prog.run_bind_eq_ok {m : Prog σ ε ω α} {f : α → Prog σ ε ω β} {t : σ} {b : β} :
    (m >>= f).run A p s = .ok (b, t) ↔
      ∃ a s', m.run A p s = .ok (a, s') ∧ (f a).run A p s' = .ok (b, t) := by
  rw [Prog.run_bind]
  cases m.run A p s with
  | error e => simp [Except.bind]
  | ok r =>
    obtain ⟨a, s'⟩ := r
    simp [Except.bind]

theorem Prog.run_lift_eq_ok {f : StateT σ (Except ε) α} {t : σ} {a : α} :
    (Prog.lift f : Prog σ ε ω α).run A p s = .ok (a, t) ↔ f s = .ok (a, t) := by
  simp only [Prog.lift, Prog.run]
  cases f s with
  | error e => simp
  | ok r => simp

theorem Prog.run_lift_bind (f : StateT σ (Except ε) α) (k : α → Prog σ ε ω β) :
    (Prog.lift f >>= k).run A p s =
      match f s with
      | .ok (a, s') => (k a).run A p s'
      | .error e => .error (.error e) := by
  rw [Prog.run_bind]
  simp only [Prog.lift, Prog.run]
  cases f s with
  | error e => rfl
  | ok r => rfl

def Triple (A : Arbiter P σ ω) (p : P) (pre : σ → Prop) (m : Prog σ ε ω α)
    (post : α → σ → Prop) : Prop :=
  ∀ s, pre s → ∀ a s', m.run A p s = .ok (a, s') → post a s'

namespace Triple

variable {A : Arbiter P σ ω} {p : P} {pre : σ → Prop} {m : Prog σ ε ω α} {post : α → σ → Prop}

theorem ret {a : α} (h : ∀ s, pre s → post a s) : Triple A p pre (pure a : Prog σ ε ω α) post := by
  intro s hs b s' hr
  rw [Prog.run_pure] at hr
  cases hr
  exact h s hs

theorem bind {mid : α → σ → Prop} {f : α → Prog σ ε ω β} {post : β → σ → Prop}
    (hm : Triple A p pre m mid) (hf : ∀ a, Triple A p (mid a) (f a) post) :
    Triple A p pre (m >>= f) post := by
  intro s hs b s' hr
  rw [Prog.run_bind] at hr
  cases h : m.run A p s with
  | error e =>
    rw [h] at hr
    cases hr
  | ok r =>
    rw [h] at hr
    exact hf r.1 r.2 (hm s hs r.1 r.2 h) b s' hr

theorem lift {f : StateT σ (Except ε) α} (h : ∀ s a s', pre s → f s = .ok (a, s') → post a s') :
    Triple A p pre (Prog.lift f : Prog σ ε ω α) post := by
  intro s hs a s' hr
  simp only [Prog.lift, Prog.run] at hr
  split at hr
  next b t hf =>
    obtain ⟨rfl, rfl⟩ := Prod.mk.inj (Except.ok.inj hr)
    exact h s b t hs hf
  next => cases hr

theorem request {w : ω} {post : Unit → σ → Prop} (h : ∀ s, pre s → post () (A.grant p w s)) :
    Triple A p pre (Prog.request w : Prog σ ε ω Unit) post := by
  intro s hs a s' hr
  simp only [Prog.request, Prog.run] at hr
  split at hr
  · cases hr
    exact h s hs
  · cases hr

theorem ite {c : Prop} [Decidable c] {m' : Prog σ ε ω α} (h : c → Triple A p pre m post)
    (h' : ¬ c → Triple A p pre m' post) : Triple A p pre (if c then m else m') post := by
  split
  next hc => exact h hc
  next hc => exact h' hc

end Triple

structure Sys (P σ ε ω α : Type) where
  st : σ
  th : P → Option (Prog σ ε ω α)

inductive Label (P C : Type)
  | call (p : P) (c : C)
  | step (p : P)

def Label.proc {C : Type} : Label P C → P
  | .call p _ => p
  | .step p => p

section Step

variable [DecidableEq P] {C : Type} (A : Arbiter P σ ω) (body : P → C → Prog σ ε ω α)
  (live : σ → P → Bool)

/-- One step of the system. A failing action and a request that cannot be granted are not enabled:
their process stays where it is. -/
def step (s : Sys P σ ε ω α) : Label P C → Option (Sys P σ ε ω α)
  | .call p c =>
    match s.th p with
    | none => if live s.st p then some { s with th := update s.th p (some (body p c)) }
      else none
    | some _ => none
  | .step p =>
    match s.th p with
    | none => none
    | some (.ret _) => some { s with th := update s.th p none }
    | some (.act f k) =>
      match f s.st with
      | .ok (b, st) => some { st := st, th := update s.th p (some (k b)) }
      | .error _ => none
    | some (.wait w k) =>
      if A.ready p w s.st then
        some { st := A.grant p w s.st, th := update s.th p (some k) }
      else none

/-- What a step does: the state after it, and what is left to run of the process that takes it. -/
inductive Moves (s : Sys P σ ε ω α) : Label P C → σ → Option (Prog σ ε ω α) → Prop
  | call {p : P} {c : C} (hp : s.th p = none) (hlive : live s.st p = true) :
      Moves s (.call p c) s.st (some (body p c))
  | ret {p : P} {a : α} (hp : s.th p = some (.ret a)) : Moves s (.step p) s.st none
  | act {p : P} {β : Type} {f : σ → Except ε (β × σ)} {k : β → Prog σ ε ω α} {b : β} {st : σ}
      (hp : s.th p = some (.act f k)) (hf : f s.st = .ok (b, st)) :
      Moves s (.step p) st (some (k b))
  | wait {p : P} {r : ω} {k : Prog σ ε ω α} (hp : s.th p = some (.wait r k))
      (hr : A.ready p r s.st = true) : Moves s (.step p) (A.grant p r s.st) (some k)

variable {A body live}

theorem step_moves {s s' : Sys P σ ε ω α} {l : Label P C} (h : step A body live s l = some s') :
    ∃ st t, Moves A body live s l st t ∧ s' = ⟨st, update s.th l.proc t⟩ := by
  cases l with
  | call p c =>
    simp only [step] at h
    split at h
    next hp =>
      split at h
      next hlive =>
        cases h
        exact ⟨_, _, .call hp hlive, rfl⟩
      next => cases h
    next => cases h
  | step p =>
    simp only [step] at h
    split at h
    next => cases h
    next a hp =>
      cases h
      exact ⟨_, _, .ret hp, rfl⟩
    next f k hp =>
      split at h
      next b st hf =>
        cases h
        exact ⟨_, _, .act hp hf, rfl⟩
      next => cases h
    next r k hp =>
      split at h
      next hr =>
        cases h
        exact ⟨_, _, .wait hp hr, rfl⟩
      next => cases h

theorem step_other {s s' : Sys P σ ε ω α} {l : Label P C} (h : step A body live s l = some s')
    {q : P} (hq : q ≠ l.proc) : s'.th q = s.th q := by
  obtain ⟨st, t, -, rfl⟩ := step_moves h
  exact update_of_ne hq ..

theorem reach_of_run {p : P} {m : Prog σ ε ω α} {s s' : σ} {a : α}
    (th : P → Option (Prog σ ε ω α)) (hr : m.run A p s = .ok (a, s')) :
    Lts.Reach (step A body live) (fun _ _ => True) ⟨s, update th p (some m)⟩
      ⟨s', update th p none⟩ := by
  induction m generalizing s with
  | ret b =>
    cases hr
    refine Lts.Reach.refl.tail (l := .step p) trivial ?_
    simp [step]
  | act f k ih =>
    unfold Prog.run at hr
    split at hr
    next b t hf =>
      refine Lts.Reach.trans (Lts.Reach.refl.tail (l := .step p) trivial ?_) (ih b hr)
      simp [step, hf]
    next => cases hr
  | wait r k ih =>
    unfold Prog.run at hr
    split at hr
    next hready =>
      refine Lts.Reach.trans (Lts.Reach.refl.tail (l := .step p) trivial ?_) (ih hr)
      simp [step, hready]
    next => cases hr

theorem reach_of_call {p : P} {c : C} {s s' : σ} {a : α} {th : P → Option (Prog σ ε ω α)}
    (hp : th p = none) (hlive : live s p = true) (hr : (body p c).run A p s = .ok (a, s')) :
    Lts.Reach (step A body live) (fun _ _ => True) ⟨s, th⟩ ⟨s', th⟩ := by
  have hcall : step A body live ⟨s, th⟩ (.call p c) =
      some ⟨s, update th p (some (body p c))⟩ := by
    simp [step, hp, hlive]
  have hrun : Lts.Reach (step A body live) (fun _ _ => True) _ ⟨s', update th p none⟩ :=
    reach_of_run th hr
  rw [show update th p none = th by rw [← hp, update_eq_self]] at hrun
  exact Lts.Reach.trans (Lts.Reach.refl.tail trivial hcall) hrun

end Step

/-! ## The logic -/

section Logic

variable {W G : Type} [DecidableEq P] (A : Arbiter P σ ω) (I : σ → W → (P → G) → Prop)
  (O : P → ω → σ → W → Prop) (E : P → ω → σ → Prop) (R : σ → σ → Prop) (p : P)

/-- The ghost `g` of process `p` may be replaced by `g'`. -/
def Weak (g g' : G) : Prop :=
  ∀ s w γ, γ p = g → I s w γ → I s w (update γ p g')

/-- The program, run by `p` with ghost `g` in any state and among any other programs, keeps the
invariant and guarantees `R` at every step, meets `O` and `E` at every request and returns with `Q`.
`X` is what is known of the state before the last step. -/
def Wp : (σ → Prop) → Prog σ ε ω α → (α → G → Prop) → G → Prop
  | _, .ret a, Q, g => ∃ g', Weak I p g g' ∧ Q a g'
  | _, .act f k, Q, g => ∀ s w γ, γ p = g → I s w γ → ∀ b s', f s = .ok (b, s') →
      R s s' ∧ ∃ w' g', I s' w' (update γ p g') ∧ Wp (· = s) (k b) Q g'
  | X, .wait r k, Q, g => ((∀ s, X s → E p r s) ∧ ∀ s w γ, γ p = g → I s w γ → O p r s w) ∧
      ∀ s w γ, γ p = g → I s w γ → A.ready p r s = true →
        R s (A.grant p r s) ∧
        ∃ w' g', I (A.grant p r s) w' (update γ p g') ∧ Wp (fun _ => True) k Q g'

variable {A I O E R p}

theorem Weak.refl (g : G) : Weak I p g g := by
  intro s w γ hg hI
  rwa [← hg, update_eq_self]

theorem Weak.trans {g1 g2 g3 : G} (h1 : Weak I p g1 g2) (h2 : Weak I p g2 g3) : Weak I p g1 g3 := by
  intro s w γ hg hI
  have h := h2 s w _ (update_self p g2 γ) (h1 s w γ hg hI)
  rwa [update_idem] at h

variable {X : σ → Prop} {g : G} {Q : α → G → Prop}

theorem Wp.ret {a : α} (h : Q a g) :
    Wp A I O E R p X (.ret a : Prog σ ε ω α) Q g := ⟨g, Weak.refl g, h⟩

theorem Wp.mono {m : Prog σ ε ω α} {Y : σ → Prop} (hXY : ∀ s, X s → Y s)
    (h : Wp A I O E R p Y m Q g) : Wp A I O E R p X m Q g := by
  cases m with
  | ret a => exact h
  | act f k => exact h
  | wait r k => exact ⟨⟨fun s hs => h.1.1 s (hXY s hs), h.1.2⟩, h.2⟩

theorem Wp.weaken {m : Prog σ ε ω α} {g' : G} (hw : Weak I p g g')
    (h : Wp A I O E R p X m Q g') : Wp A I O E R p X m Q g := by
  have key : ∀ s w γ, γ p = g → I s w γ →
      update γ p g' p = g' ∧ I s w (update γ p g') := fun s w γ hg hI =>
    ⟨update_self p g' γ, hw s w γ hg hI⟩
  cases m with
  | ret a =>
    obtain ⟨g'', hw', h⟩ := h
    exact ⟨g'', hw.trans hw', h⟩
  | act f k =>
    intro s w γ hg hI b s' hf
    obtain ⟨hg', hI'⟩ := key s w γ hg hI
    obtain ⟨hR, w', g'', hI'', hk⟩ := h s w _ hg' hI' b s' hf
    rw [update_idem] at hI''
    exact ⟨hR, w', g'', hI'', hk⟩
  | wait r k =>
    refine ⟨⟨h.1.1, fun s w γ hg hI => ?_⟩, fun s w γ hg hI hr => ?_⟩
    · obtain ⟨hg', hI'⟩ := key s w γ hg hI
      exact h.1.2 s w _ hg' hI'
    · obtain ⟨hg', hI'⟩ := key s w γ hg hI
      obtain ⟨hR, w', g'', hI'', hk⟩ := h.2 s w _ hg' hI' hr
      rw [update_idem] at hI''
      exact ⟨hR, w', g'', hI'', hk⟩

theorem Wp.bind {m : Prog σ ε ω α} {f : α → Prog σ ε ω β} {Q : β → G → Prop}
    (h : Wp A I O E R p X m (fun a g => Wp A I O E R p (fun _ => True) (f a) Q g) g) :
    Wp A I O E R p X (m >>= f) Q g := by
  change Wp A I O E R p X (m.bind f) Q g
  induction m generalizing g X with
  | ret a =>
    obtain ⟨g', hw, h⟩ := h
    exact .weaken hw (h.mono fun _ _ => trivial)
  | act f k ih =>
    intro s w γ hg hI b s' hf
    obtain ⟨hR, w', g', hI', hk⟩ := h s w γ hg hI b s' hf
    exact ⟨hR, w', g', hI', ih b hk⟩
  | wait r k ih =>
    refine ⟨h.1, fun s w γ hg hI hr => ?_⟩
    obtain ⟨hR, w', g', hI', hk⟩ := h.2 s w γ hg hI hr
    exact ⟨hR, w', g', hI', ih hk⟩

theorem Wp.lift {f : StateT σ (Except ε) α}
    (h : ∀ s w γ, γ p = g → I s w γ → ∀ b s', f s = .ok (b, s') →
      R s s' ∧ ∃ w' g', I s' w' (update γ p g') ∧ Q b g') :
    Wp A I O E R p X (Prog.lift f : Prog σ ε ω α) Q g := by
  intro s w γ hg hI b s' hf
  obtain ⟨hR, w', g', hI', hQ⟩ := h s w γ hg hI b s' hf
  exact ⟨hR, w', g', hI', Wp.ret hQ⟩

theorem Wp.request {r : ω} {Q : Unit → G → Prop} (hE : ∀ s, X s → E p r s)
    (hO : ∀ s w γ, γ p = g → I s w γ → O p r s w)
    (h : ∀ s w γ, γ p = g → I s w γ → A.ready p r s = true → R s (A.grant p r s) ∧
      ∃ w' g', I (A.grant p r s) w' (update γ p g') ∧ Q () g') :
    Wp A I O E R p X (Prog.request r : Prog σ ε ω Unit) Q g := by
  refine ⟨⟨hE, hO⟩, fun s w γ hg hI hr => ?_⟩
  obtain ⟨hR, w', g', hI', hQ⟩ := h s w γ hg hI hr
  exact ⟨hR, w', g', hI', Wp.ret hQ⟩

theorem Wp.lift_then {f : StateT σ (Except ε) β} {m : Prog σ ε ω α}
    (h : ∀ s w γ, γ p = g → I s w γ → ∀ b s', f s = .ok (b, s') →
      R s s' ∧ ∃ w' g', I s' w' (update γ p g') ∧ Wp A I O E R p (· = s) m Q g') :
    Wp A I O E R p X ((Prog.lift f : Prog σ ε ω β) >>= fun _ => m) Q g := h

theorem Wp.run_ok {m : Prog σ ε ω α} {s t : σ} {w : W} {γ : P → G} {g : G} {a : α} (hg : γ p = g)
    (h : Wp A I O E R p X m Q g) (hI : I s w γ) (hr : m.run A p s = .ok (a, t)) :
    ∃ w' γ', I t w' γ' ∧ Q a (γ' p) := by
  induction m generalizing s w γ g X with
  | ret b =>
    cases hr
    obtain ⟨g', hw, hQ⟩ := h
    exact ⟨w, _, hw _ w γ hg hI, by rwa [update_self]⟩
  | act f k ih =>
    unfold Prog.run at hr
    split at hr
    next b s' hf =>
      obtain ⟨-, w', g', hI', hk⟩ := h s w γ hg hI b s' hf
      exact ih b (update_self ..) hk hI' hr
    next => cases hr
  | wait r k ih =>
    unfold Prog.run at hr
    split at hr
    next hready =>
      obtain ⟨-, w', g', hI', hk⟩ := h.2 s w γ hg hI hready
      exact ih (update_self ..) hk hI' hr
    next => cases hr

/-! ## Interleavings -/

variable {C : Type} (A I O E R) (idle start : P → G)

/-- The ghosts `w` and `γ` satisfy `I`, those of a process between calls are its idle ones, and
every program in flight satisfies `Wp`. -/
def SysInvAt (s : Sys P σ ε ω α) (w : W) (γ : P → G) : Prop :=
  I s.st w γ ∧ ∀ p, match s.th p with
    | none => γ p = idle p
    | some m => ∃ X, Wp A I O E R p X m (fun _ g => g = idle p) (γ p)

def SysInv (s : Sys P σ ε ω α) : Prop := ∃ w γ, SysInvAt A I O E R idle s w γ

variable {A I O E R idle} {body : P → C → Prog σ ε ω α} {live : σ → P → Bool}

theorem thread_update {γ : P → G} {th : P → Option (Prog σ ε ω α)} {t : Option (Prog σ ε ω α)}
    (h : ∀ q, match th q with
      | none => γ q = idle q
      | some m => ∃ X, Wp A I O E R q X m (fun _ g => g = idle q) (γ q))
    (hp : match t with
      | none => g = idle p
      | some m => ∃ X, Wp A I O E R p X m (fun _ g => g = idle p) g) :
    ∀ q, match update th p t q with
      | none => update γ p g q = idle q
      | some m => ∃ X, Wp A I O E R q X m (fun _ g => g = idle q) (update γ p g q) := by
  intro q
  by_cases hq : q = p
  · subst hq
    rw [update_self, update_self]
    exact hp
  · rw [update_of_ne hq, update_of_ne hq]
    exact h q

variable {s s' : Sys P σ ε ω α} {l : Label P C}

section Step

variable (hs : Conc.step A body live s l = some s')

include hs

section

variable
  (hstart : ∀ p s w γ, live s p = true → γ p = idle p → I s w γ → I s w (update γ p (start p)))
  (hbody : ∀ p c, l = .call p c →
    Wp A I O E R p (fun _ => True) (body p c) (fun _ g => g = idle p) (start p))

include hstart hbody

theorem SysInvAt.step {w : W} {γ : P → G} (h : SysInvAt A I O E R idle s w γ) :
    ∃ w' g', SysInvAt A I O E R idle s' w' (update γ l.proc g') := by
  obtain ⟨hI, hth⟩ := h
  obtain ⟨st, t, hmove, rfl⟩ := step_moves hs
  have hp := hth l.proc
  cases hmove with
  | @call p c hidle hlive =>
    rw [show s.th (Label.call p c).proc = none from hidle] at hp
    exact ⟨w, _, hstart p s.st w γ hlive hp hI, thread_update hth ⟨_, hbody p c rfl⟩⟩
  | @ret p a hm =>
    rw [show s.th (Label.step p).proc = _ from hm] at hp
    obtain ⟨-, g', hw, rfl⟩ := hp
    exact ⟨w, _, hw s.st w γ rfl hI, thread_update hth rfl⟩
  | @act p β f k b st hm hf =>
    rw [show s.th (Label.step p).proc = _ from hm] at hp
    obtain ⟨X, hp⟩ := hp
    obtain ⟨-, w', g', hI', hk⟩ := hp s.st w γ rfl hI b st hf
    exact ⟨w', _, hI', thread_update hth ⟨_, hk⟩⟩
  | @wait p r k hm hr =>
    rw [show s.th (Label.step p).proc = _ from hm] at hp
    obtain ⟨X, hp⟩ := hp
    obtain ⟨-, w', g', hI', hk⟩ := hp.2 s.st w γ rfl hI hr
    exact ⟨w', _, hI', thread_update hth ⟨_, hk⟩⟩

theorem SysInv.step (h : SysInv A I O E R idle s) : SysInv A I O E R idle s' := by
  obtain ⟨w, γ, h⟩ := h
  obtain ⟨w', g', h'⟩ := h.step start hs hstart hbody
  exact ⟨w', _, h'⟩

end

theorem SysInv.guarantee (hrefl : ∀ s, R s s) (h : SysInv A I O E R idle s) : R s.st s'.st := by
  obtain ⟨w, γ, hI, hth⟩ := h
  obtain ⟨st, t, hmove, rfl⟩ := step_moves hs
  have hp := hth l.proc
  cases hmove with
  | call => exact hrefl s.st
  | ret => exact hrefl s.st
  | @act p β f k b st hm hf =>
    rw [show s.th (Label.step p).proc = _ from hm] at hp
    obtain ⟨X, hp⟩ := hp
    exact (hp s.st w γ rfl hI b st hf).1
  | @wait p r k hm hr =>
    rw [show s.th (Label.step p).proc = _ from hm] at hp
    obtain ⟨X, hp⟩ := hp
    exact (hp.2 s.st w γ rfl hI hr).1

theorem SysInv.entry
    (hbody : ∀ p c, l = .call p c →
      Wp A I O E R p (fun _ => True) (body p c) (fun _ g => g = idle p) (start p))
    (h : SysInv A I O E R idle s) {q : P} {r : ω} {k : Prog σ ε ω α}
    (hq : s'.th q = some (.wait r k)) : s.th q = some (.wait r k) ∨ E q r s.st := by
  by_cases hne : q = l.proc
  swap
  · exact .inl (step_other hs hne ▸ hq)
  right
  subst hne
  obtain ⟨w, γ, hI, hth⟩ := h
  obtain ⟨st, t, hmove, rfl⟩ := step_moves hs
  have hp := hth l.proc
  dsimp only at hq
  rw [update_self] at hq
  cases hmove with
  | @call p c =>
    have hc := hbody p c rfl
    rw [Option.some.inj hq] at hc
    exact hc.1.1 s.st trivial
  | ret => cases hq
  | @act p β f k' b st hm hf =>
    rw [show s.th (Label.step p).proc = _ from hm] at hp
    obtain ⟨X, hp⟩ := hp
    obtain ⟨-, w', g', -, hk⟩ := hp s.st w γ rfl hI b st hf
    rw [Option.some.inj hq] at hk
    exact hk.1.1 s.st rfl
  | @wait p r' k' hm hr =>
    rw [show s.th (Label.step p).proc = _ from hm] at hp
    obtain ⟨X, hp⟩ := hp
    obtain ⟨-, w', g', -, hk⟩ := hp.2 s.st w γ rfl hI hr
    rw [Option.some.inj hq] at hk
    exact hk.1.1 s.st trivial

end Step

end Logic

end Conc
