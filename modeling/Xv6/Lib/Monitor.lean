import Xv6.Lib.Prog

/-!
# Monitors of concurrent programs

A monitor follows each process of a concurrent system: it has a state `F` for the process, which its
actions and requests change, and says which of them are allowed in which state.

1. `watch` is the system of `Conc.step` with the states of the monitor next to it.
2. `Paths` says that a program does only what is allowed, in any states that satisfy `X`.
3. `Mwp` is the program logic `Wp` with the monitor in it: what a process knows (its ghost) can
   decide what it does. A specification `Wp` and `Paths` together give `Mwp` (`Mwp.of_wp`).
4. `WatchInv.allowed`: programs that satisfy `Mwp` do only what is allowed in every interleaving.
-/

namespace Conc

open Function

variable {P σ ε ω α β : Type}

structure Monitor (σ ε ω F : Type) where
  okAct : F → {β : Type} → (σ → Except ε (β × σ)) → σ → Prop
  act : F → {β : Type} → (σ → Except ε (β × σ)) → σ → F
  okWait : F → ω → Prop
  wait : F → ω → F

namespace Monitor

variable {F : Type} (M : Monitor σ ε ω F)

/-- Is the next thing that a process does allowed? Between calls and at the end of one the monitor
is in state `x₀`. -/
def Allowed (x₀ : F) (s : σ) (x : F) : Option (Prog σ ε ω α) → Prop
  | none => x = x₀
  | some (.ret _) => x = x₀
  | some (.act f _) => M.okAct x f s
  | some (.wait r _) => M.okWait x r

def next (s : σ) (x : F) : Option (Prog σ ε ω α) → F
  | some (.act f _) => M.act x f s
  | some (.wait r _) => M.wait x r
  | _ => x

/-! ## Single programs -/

/-- From monitor state `x`, in any states with `X`, the program does only what is allowed; it
returns with `K`. -/
def Paths (X : σ → Prop) : Prog σ ε ω α → (α → F → Prop) → F → Prop
  | .ret a, K, x => K a x
  | .act f k, K, x => ∀ s, X s → M.okAct x f s ∧
      ∀ b s', f s = .ok (b, s') → Paths X (k b) K (M.act x f s)
  | .wait r k, K, x => M.okWait x r ∧ Paths X k K (M.wait x r)

variable {M} {X : σ → Prop} {x : F}

theorem Paths.mono {m : Prog σ ε ω α} {K K' : α → F → Prop} (h : M.Paths X m K x)
    (hK : ∀ a x, K a x → K' a x) : M.Paths X m K' x := by
  induction m generalizing x with
  | ret a => exact hK _ _ h
  | act f k ih => exact fun s hs => ⟨(h s hs).1, fun b s' hf => ih b ((h s hs).2 b s' hf)⟩
  | wait r k ih => exact ⟨h.1, ih h.2⟩

theorem Paths.bind {m : Prog σ ε ω α} {f : α → Prog σ ε ω β} {K : β → F → Prop}
    (h : M.Paths X m (fun a x => M.Paths X (f a) K x) x) : M.Paths X (m >>= f) K x := by
  change M.Paths X (m.bind f) K x
  induction m generalizing x with
  | ret a => exact h
  | act f k ih => exact fun s hs => ⟨(h s hs).1, fun b s' hf => ih b ((h s hs).2 b s' hf)⟩
  | wait r k ih => exact ⟨h.1, ih h.2⟩

end Monitor

/-! ## The logic with a monitor -/

section Logic

variable {F W G : Type} [DecidableEq P] (M : Monitor σ ε ω F) (A : Arbiter P σ ω)
  (I : σ → W → (P → G) → Prop) (p : P)

/-- The program, run by `p` with ghost `g` and monitor state `x` in any state and among any other
programs, keeps the invariant, does only what is allowed and returns with `Q`. -/
def Mwp : Prog σ ε ω α → (α → F → G → Prop) → F → G → Prop
  | .ret a, Q, x, g => ∃ g', Weak I p g g' ∧ Q a x g'
  | .act f k, Q, x, g => ∀ s w γ, γ p = g → I s w γ → M.okAct x f s ∧
      ∀ b s', f s = .ok (b, s') →
        ∃ w' g', I s' w' (update γ p g') ∧ Mwp (k b) Q (M.act x f s) g'
  | .wait r k, Q, x, g => M.okWait x r ∧ ∀ s w γ, γ p = g → I s w γ → A.ready p r s = true →
      ∃ w' g', I (A.grant p r s) w' (update γ p g') ∧ Mwp k Q (M.wait x r) g'

variable {M A I p} {x : F} {g : G}

theorem Mwp.weaken {m : Prog σ ε ω α} {Q : α → F → G → Prop} {g' : G} (hw : Weak I p g g')
    (h : Mwp M A I p m Q x g') : Mwp M A I p m Q x g := by
  have key : ∀ s w γ, γ p = g → I s w γ →
      update γ p g' p = g' ∧ I s w (update γ p g') := fun s w γ hg hI =>
    ⟨update_self p g' γ, hw s w γ hg hI⟩
  cases m with
  | ret a =>
    obtain ⟨g'', hw', h⟩ := h
    exact ⟨g'', hw.trans hw', h⟩
  | act f k =>
    intro s w γ hg hI
    obtain ⟨hg', hI'⟩ := key s w γ hg hI
    obtain ⟨hok, hnext⟩ := h s w _ hg' hI'
    refine ⟨hok, fun b s' hf => ?_⟩
    obtain ⟨w', g'', hI'', hk⟩ := hnext b s' hf
    rw [update_idem] at hI''
    exact ⟨w', g'', hI'', hk⟩
  | wait r k =>
    refine ⟨h.1, fun s w γ hg hI hr => ?_⟩
    obtain ⟨hg', hI'⟩ := key s w γ hg hI
    obtain ⟨w', g'', hI'', hk⟩ := h.2 s w _ hg' hI' hr
    rw [update_idem] at hI''
    exact ⟨w', g'', hI'', hk⟩

theorem Mwp.bind {m : Prog σ ε ω α} {f : α → Prog σ ε ω β} {Q : β → F → G → Prop}
    (h : Mwp M A I p m (fun a x g => Mwp M A I p (f a) Q x g) x g) :
    Mwp M A I p (m >>= f) Q x g := by
  change Mwp M A I p (m.bind f) Q x g
  induction m generalizing x g with
  | ret a =>
    obtain ⟨g', hw, h⟩ := h
    exact .weaken hw h
  | act f k ih =>
    intro s w γ hg hI
    obtain ⟨hok, hnext⟩ := h s w γ hg hI
    refine ⟨hok, fun b s' hf => ?_⟩
    obtain ⟨w', g', hI', hk⟩ := hnext b s' hf
    exact ⟨w', g', hI', ih b hk⟩
  | wait r k ih =>
    refine ⟨h.1, fun s w γ hg hI hr => ?_⟩
    obtain ⟨w', g', hI', hk⟩ := h.2 s w γ hg hI hr
    exact ⟨w', g', hI', ih hk⟩

theorem Mwp.lift {f : StateT σ (Except ε) α} {Q : α → F → G → Prop}
    (h : ∀ s w γ, γ p = g → I s w γ → M.okAct x f s ∧ ∀ b s', f s = .ok (b, s') →
      ∃ w' g', I s' w' (update γ p g') ∧ Q b (M.act x f s) g') :
    Mwp M A I p (Prog.lift f : Prog σ ε ω α) Q x g := by
  intro s w γ hg hI
  obtain ⟨hok, hnext⟩ := h s w γ hg hI
  refine ⟨hok, fun b s' hb => ?_⟩
  obtain ⟨w', g', hI', hQ⟩ := hnext b s' hb
  exact ⟨w', g', hI', g', Weak.refl g', hQ⟩

variable {O : P → ω → σ → W → Prop} {E : P → ω → σ → Prop} {R : σ → σ → Prop} {Y : σ → Prop}

theorem Mwp.of_wp {X : σ → Prop} (hX : ∀ s w γ, I s w γ → X s) {m : Prog σ ε ω α}
    {Q : α → G → Prop} {K : α → F → Prop} {Q' : α → F → G → Prop} (h : Wp A I O E R p Y m Q g)
    (hm : M.Paths X m K x) (hQ : ∀ a x g, Q a g → K a x → Q' a x g) : Mwp M A I p m Q' x g := by
  induction m generalizing x g Y with
  | ret a =>
    obtain ⟨g', hw, h⟩ := h
    exact ⟨g', hw, hQ _ _ _ h hm⟩
  | act f k ih =>
    intro s w γ hg hI
    obtain ⟨hok, hnext⟩ := hm s (hX s w γ hI)
    refine ⟨hok, fun b s' hf => ?_⟩
    obtain ⟨-, w', g', hI', hk⟩ := h s w γ hg hI b s' hf
    exact ⟨w', g', hI', ih b hk (hnext b s' hf)⟩
  | wait r k ih =>
    refine ⟨hm.1, fun s w γ hg hI hr => ?_⟩
    obtain ⟨-, w', g', hI', hk⟩ := h.2 s w γ hg hI hr
    exact ⟨w', g', hI', ih hk hm.2⟩

theorem Mwp.lift_of_wp {f : StateT σ (Except ε) α} {Q : α → G → Prop} {Q' : α → F → G → Prop}
    (h : Wp A I O E R p Y (Prog.lift f : Prog σ ε ω α) Q g)
    (hf : ∀ s w γ, γ p = g → I s w γ → M.okAct x f s ∧
      ∀ b s', f s = .ok (b, s') → ∀ g', Q b g' → Q' b (M.act x f s) g') :
    Mwp M A I p (Prog.lift f : Prog σ ε ω α) Q' x g := by
  intro s w γ hg hI
  obtain ⟨hok, hnext⟩ := hf s w γ hg hI
  refine ⟨hok, fun b s' hb => ?_⟩
  obtain ⟨-, w', g', hI', g'', hw, hQ⟩ := h s w γ hg hI b s' hb
  exact ⟨w', g', hI', g'', hw, hnext b s' hb g'' hQ⟩

end Logic

/-! ## Interleavings -/

structure Watched (P σ ε ω α F : Type) where
  sys : Sys P σ ε ω α
  mon : P → F

section Watch

variable {F W G C : Type} [DecidableEq P] (M : Monitor σ ε ω F) (A : Arbiter P σ ω)
  (body : P → C → Prog σ ε ω α) (live : σ → P → Bool)

def watch (s : Watched P σ ε ω α F) (l : Label P C) : Option (Watched P σ ε ω α F) :=
  (step A body live s.sys l).map fun t => ⟨t, match l with
    | .call _ _ => s.mon
    | .step p => update s.mon p (M.next s.sys.st (s.mon p) (s.sys.th p))⟩

variable (I : σ → W → (P → G) → Prop) (idle start : P → G) (x₀ : F)

def WatchInv (s : Watched P σ ε ω α F) : Prop :=
  ∃ w γ, I s.sys.st w γ ∧ ∀ p, match s.sys.th p with
    | none => γ p = idle p ∧ s.mon p = x₀
    | some m => Mwp M A I p m (fun _ x g => g = idle p ∧ x = x₀) (s.mon p) (γ p)

variable {M A body live I idle start x₀}

theorem watch_update {mon : P → F} {γ : P → G} {th : P → Option (Prog σ ε ω α)} {p : P} {g : G}
    {x : F} {t : Option (Prog σ ε ω α)}
    (h : ∀ q, match th q with
      | none => γ q = idle q ∧ mon q = x₀
      | some m => Mwp M A I q m (fun _ x g => g = idle q ∧ x = x₀) (mon q) (γ q))
    (hp : match t with
      | none => g = idle p ∧ x = x₀
      | some m => Mwp M A I p m (fun _ x g => g = idle p ∧ x = x₀) x g) :
    ∀ q, match update th p t q with
      | none => update γ p g q = idle q ∧ update mon p x q = x₀
      | some m => Mwp M A I q m (fun _ x g => g = idle q ∧ x = x₀) (update mon p x q)
          (update γ p g q) := by
  intro q
  by_cases hq : q = p
  · subst hq
    simp only [update_self]
    exact hp
  · simp only [update_of_ne hq]
    exact h q

theorem WatchInv.step {s s' : Watched P σ ε ω α F} {l : Label P C}
    (hstart : ∀ p s w γ, live s p = true → γ p = idle p → I s w γ → I s w (update γ p (start p)))
    (hbody : ∀ p c, Mwp M A I p (body p c) (fun _ x g => g = idle p ∧ x = x₀) x₀ (start p))
    (h : WatchInv M A I idle x₀ s) (hs : watch M A body live s l = some s') :
    WatchInv M A I idle x₀ s' := by
  obtain ⟨w, γ, hI, hth⟩ := h
  obtain ⟨t, ht, rfl⟩ := Option.map_eq_some_iff.mp hs
  obtain ⟨st, m, hmove, rfl⟩ := step_moves ht
  have hp := hth l.proc
  cases hmove with
  | @call p c hidle hlive =>
    rw [show s.sys.th (Label.call p c).proc = none from hidle] at hp
    refine ⟨w, _, hstart p s.sys.st w γ hlive hp.1 hI, ?_⟩
    have hnew := watch_update (t := some (body p c)) (g := start p) (x := x₀) hth (hbody p c)
    rwa [show update s.mon p x₀ = s.mon by
      rw [show x₀ = s.mon p from hp.2.symm, update_eq_self]] at hnew
  | @ret p a hm =>
    rw [show s.sys.th (Label.step p).proc = _ from hm] at hp
    obtain ⟨g', hw, hend⟩ := hp
    refine ⟨w, _, hw s.sys.st w γ rfl hI, watch_update hth ?_⟩
    rw [hm]
    exact hend
  | @act p β f k b st hm hf =>
    rw [show s.sys.th (Label.step p).proc = _ from hm] at hp
    obtain ⟨w', g', hI', hk⟩ := (hp s.sys.st w γ rfl hI).2 b st hf
    refine ⟨w', _, hI', watch_update hth ?_⟩
    rw [hm]
    exact hk
  | @wait p r k hm hr =>
    rw [show s.sys.th (Label.step p).proc = _ from hm] at hp
    obtain ⟨w', g', hI', hk⟩ := hp.2 s.sys.st w γ rfl hI hr
    refine ⟨w', _, hI', watch_update hth ?_⟩
    rw [hm]
    exact hk

theorem WatchInv.allowed {s : Watched P σ ε ω α F} (h : WatchInv M A I idle x₀ s) (p : P) :
    M.Allowed x₀ s.sys.st (s.mon p) (s.sys.th p) := by
  obtain ⟨w, γ, hI, hth⟩ := h
  have hp := hth p
  cases hm : s.sys.th p with
  | none =>
    rw [hm] at hp
    exact hp.2
  | some m =>
    rw [hm] at hp
    cases m with
    | ret a =>
      obtain ⟨g', -, -, hx⟩ := hp
      exact hx
    | act f k => exact (hp s.sys.st w γ rfl hI).1
    | wait r k => exact hp.1

end Watch

end Conc
