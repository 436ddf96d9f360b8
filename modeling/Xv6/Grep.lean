import Mathlib.Computability.Language
import Mathlib.Tactic

/-!
# The matcher of `grep`

A pattern is a string in which `x*` stands for any number of bytes `x`, `.` for any byte and a final
`$` for the end of the text; a leading `^` anchors it at the beginning.

1. `matchhere`, `matchstar` and `matchRe` are the functions of `grep.c`; a string is the list of its
   bytes, without the NUL that ends it.
2. `items` reads a pattern from left to right, and `Matches` says what it matches, by the languages
   of its items.
3. `matchhere_iff`, `matchstar_iff` and `matchRe_decides`: the functions decide that.
-/

namespace Xv6.Grep

open Computability

/-! ## The functions -/

def deref (s : List UInt8) : UInt8 := s.headD 0

@[simp] theorem deref_nil : deref [] = 0 := rfl

@[simp] theorem deref_cons (b : UInt8) (s : List UInt8) : deref (b :: s) = b := rfl

def STAR : UInt8 := 42

def DOLLAR : UInt8 := 36

def DOT : UInt8 := 46

def CARET : UInt8 := 94

theorem tail_length_lt {s : List UInt8} (h : deref s ≠ 0) : s.tail.length < s.length := by
  cases s with
  | nil => exact absurd rfl h
  | cons b s => exact Nat.lt_succ_self _

mutual

def matchhere (re text : List UInt8) : Bool :=
  if deref re = 0 then true
  else if deref re.tail = STAR then matchstar (deref re) re.tail.tail text
  else if deref re = DOLLAR ∧ deref re.tail = 0 then deref text = 0
  else if deref text ≠ 0 ∧ (deref re = DOT ∨ deref re = deref text) then
    matchhere re.tail text.tail
  else false
termination_by (re.length, text.length, 0)
decreasing_by
  · rename_i h0 h1
    have h2 := tail_length_lt (s := re.tail) (by rw [h1]; decide)
    exact Prod.Lex.left _ _ (h2.trans (tail_length_lt h0))
  · rename_i h0 _ _ _
    exact Prod.Lex.left _ _ (tail_length_lt h0)

def matchstar (c : UInt8) (re text : List UInt8) : Bool :=
  if matchhere re text then true
  else if deref text ≠ 0 ∧ (deref text = c ∨ c = DOT) then matchstar c re text.tail
  else false
termination_by (re.length, text.length, 1)
decreasing_by
  · exact Prod.Lex.right _ (Prod.Lex.right _ Nat.zero_lt_one)
  · rename_i h
    exact Prod.Lex.right _ (Prod.Lex.left _ _ (tail_length_lt h.1))

end

def matchLoop (re text : List UInt8) : Bool :=
  if matchhere re text then true
  else if deref text ≠ 0 then matchLoop re text.tail
  else false
termination_by text.length
decreasing_by
  rename_i h
  exact tail_length_lt h

def matchRe (re text : List UInt8) : Bool :=
  if deref re = CARET then matchhere re.tail text else matchLoop re text

/-! ## The pattern language -/

inductive Item
  | one (x : UInt8)
  | star (x : UInt8)

def byteLang (x : UInt8) : Language UInt8 := {s | ∃ b, s = [b] ∧ (x = DOT ∨ x = b)}

def Item.lang : Item → Language UInt8
  | .one x => byteLang x
  | .star x => (byteLang x)∗

/-- The pattern, read from left to right: its items, and whether it ends with `$`. -/
def items : List UInt8 → List Item × Bool
  | [] => ([], false)
  | [x] => if x = DOLLAR then ([], true) else ([.one x], false)
  | x :: y :: re =>
    if y = STAR then (.star x :: (items re).1, (items re).2)
    else (.one x :: (items (y :: re)).1, (items (y :: re)).2)

def Matches (re s post : List UInt8) : Prop :=
  s ∈ ((items re).1.map Item.lang).prod ∧ ((items re).2 = true → post = [])

variable {x y c : UInt8} {re text s post : List UInt8}

theorem mem_byteLang_kstar : s ∈ (byteLang x)∗ ↔ ∀ b ∈ s, x = DOT ∨ x = b := by
  rw [Language.mem_kstar]
  constructor
  · rintro ⟨l, rfl, hl⟩ b hb
    obtain ⟨w, hw, hbw⟩ := List.mem_flatten.mp hb
    obtain ⟨b', rfl, hx⟩ := hl w hw
    rwa [List.mem_singleton.mp hbw]
  · intro h
    refine ⟨s.map fun b => [b], ?_, fun w hw => ?_⟩
    · induction s with
      | nil => rfl
      | cons b s ih =>
        rw [List.map_cons, List.flatten_cons, ← ih fun b hb => h b (List.mem_cons_of_mem _ hb)]
        rfl
    · obtain ⟨b, hb, rfl⟩ := List.mem_map.mp hw
      exact ⟨b, rfl, h b hb⟩

theorem matches_nil : Matches [] s post ↔ s = [] := by
  unfold Matches items
  rw [List.map_nil, List.prod_nil, Language.mem_one]
  exact and_iff_left nofun

theorem matches_dollar : Matches [DOLLAR] s post ↔ s = [] ∧ post = [] := by
  unfold Matches items
  rw [if_pos rfl, List.map_nil, List.prod_nil, Language.mem_one]
  exact and_congr_right fun _ => ⟨fun h => h rfl, fun h _ => h⟩

theorem matches_star :
    Matches (x :: STAR :: re) s post ↔
      ∃ a b, s = a ++ b ∧ (∀ t ∈ a, x = DOT ∨ x = t) ∧ Matches re b post := by
  unfold Matches
  rw [items, if_pos rfl, List.map_cons, List.prod_cons, Language.mem_mul]
  constructor
  · rintro ⟨⟨a, ha, b, hb, rfl⟩, hend⟩
    exact ⟨a, b, rfl, mem_byteLang_kstar.mp ha, hb, hend⟩
  · rintro ⟨a, b, rfl, ha, hb, hend⟩
    exact ⟨⟨a, mem_byteLang_kstar.mpr ha, b, hb, rfl⟩, hend⟩

theorem matches_one (hstar : deref re ≠ STAR) (hend : ¬ (x = DOLLAR ∧ re = [])) :
    Matches (x :: re) s post ↔
      ∃ b s', s = b :: s' ∧ (x = DOT ∨ x = b) ∧ Matches re s' post := by
  have hitems : items (x :: re) = (.one x :: (items re).1, (items re).2) := by
    cases re with
    | nil => exact if_neg fun hx => hend ⟨hx, rfl⟩
    | cons y re => rw [items, if_neg (show y ≠ STAR from hstar)]
  unfold Matches
  rw [hitems, List.map_cons, List.prod_cons, Language.mem_mul]
  constructor
  · rintro ⟨⟨-, ⟨b, rfl, hx⟩, s', hs', rfl⟩, hpost⟩
    exact ⟨b, s', rfl, hx, hs', hpost⟩
  · rintro ⟨b, s', rfl, hx, hs', hpost⟩
    exact ⟨⟨[b], ⟨b, rfl, hx⟩, s', hs', rfl⟩, hpost⟩

def MatchesHere (re text : List UInt8) : Prop := ∃ s post, text = s ++ post ∧ Matches re s post

theorem matchesHere_nil : MatchesHere [] text := ⟨[], text, rfl, matches_nil.mpr rfl⟩

theorem matchesHere_dollar : MatchesHere [DOLLAR] text ↔ text = [] := by
  constructor
  · rintro ⟨s, post, rfl, hm⟩
    obtain ⟨rfl, rfl⟩ := matches_dollar.mp hm
    rfl
  · rintro rfl
    exact ⟨[], [], rfl, matches_dollar.mpr ⟨rfl, rfl⟩⟩

theorem matchesHere_star :
    MatchesHere (x :: STAR :: re) text ↔
      ∃ a b, text = a ++ b ∧ (∀ t ∈ a, x = DOT ∨ x = t) ∧ MatchesHere re b := by
  constructor
  · rintro ⟨s, post, rfl, hm⟩
    obtain ⟨a, b, rfl, ha, hb⟩ := matches_star.mp hm
    exact ⟨a, b ++ post, List.append_assoc .., ha, b, post, rfl, hb⟩
  · rintro ⟨a, -, rfl, ha, b, post, rfl, hb⟩
    exact ⟨a ++ b, post, (List.append_assoc ..).symm, matches_star.mpr ⟨a, b, rfl, ha, hb⟩⟩

theorem matchesHere_one (hstar : deref re ≠ STAR) (hend : ¬ (x = DOLLAR ∧ re = [])) :
    MatchesHere (x :: re) text ↔
      ∃ t text', text = t :: text' ∧ (x = DOT ∨ x = t) ∧ MatchesHere re text' := by
  constructor
  · rintro ⟨s, post, rfl, hm⟩
    obtain ⟨b, s', rfl, hx, hs'⟩ := (matches_one hstar hend).mp hm
    exact ⟨b, s' ++ post, rfl, hx, s', post, rfl, hs'⟩
  · rintro ⟨t, -, rfl, hx, s', post, rfl, hs'⟩
    exact ⟨t :: s', post, rfl, (matches_one hstar hend).mpr ⟨t, s', rfl, hx, hs'⟩⟩

/-! ## The functions decide it -/

theorem ne_zero_of_mem {s : List UInt8} (h : 0 ∉ s) (hx : x ∈ s) : x ≠ 0 := fun h0 => h (h0 ▸ hx)

theorem deref_eq_zero (h : 0 ∉ text) : deref text = 0 ↔ text = [] := by
  cases text with
  | nil => exact iff_of_true rfl rfl
  | cons t text => exact iff_of_false (ne_zero_of_mem h List.mem_cons_self) (List.cons_ne_nil _ _)

theorem matchhere_nil (text : List UInt8) : matchhere [] text = true := by
  rw [matchhere]
  exact if_pos rfl

theorem matchhere_dollar (text : List UInt8) :
    matchhere [DOLLAR] text = decide (deref text = 0) := by
  rw [matchhere, if_neg (by decide), if_neg (by decide), if_pos (by decide)]

theorem matchhere_star (hx : x ≠ 0) (re text : List UInt8) :
    matchhere (x :: STAR :: re) text = matchstar x re text := by
  rw [matchhere, deref_cons, if_neg hx]
  exact if_pos rfl

theorem matchhere_one (hre : 0 ∉ x :: re) (hstar : deref re ≠ STAR)
    (hend : ¬ (x = DOLLAR ∧ re = [])) (htext : 0 ∉ text) :
    matchhere (x :: re) text = true ↔
      ∃ t text', text = t :: text' ∧ (x = DOT ∨ x = t) ∧ matchhere re text' = true := by
  have hre' : 0 ∉ re := fun h0 => hre (List.mem_cons_of_mem _ h0)
  rw [matchhere, deref_cons, List.tail_cons, if_neg (ne_zero_of_mem hre List.mem_cons_self),
    if_neg hstar, if_neg fun h => hend (h.imp_right (deref_eq_zero hre').mp)]
  cases text with
  | nil => simp
  | cons t text =>
    have ht := ne_zero_of_mem htext List.mem_cons_self
    simp only [deref_cons, List.tail_cons, List.cons.injEq, ne_eq, ht, not_false_eq_true, true_and]
    constructor
    · intro h
      by_cases hx : x = DOT ∨ x = t
      · rw [if_pos hx] at h
        exact ⟨t, text, ⟨rfl, rfl⟩, hx, h⟩
      · rw [if_neg hx] at h
        cases h
    · rintro ⟨t', text', ⟨rfl, rfl⟩, hx, h⟩
      rwa [if_pos hx]

theorem matchstar_nil (c : UInt8) (re : List UInt8) : matchstar c re [] = matchhere re [] := by
  rw [matchstar]
  simp

theorem matchstar_cons {t : UInt8} (ht : t ≠ 0) :
    matchstar c re (t :: text) = true ↔
      matchhere re (t :: text) = true ∨ (c = DOT ∨ c = t) ∧ matchstar c re text = true := by
  rw [matchstar, deref_cons, List.tail_cons]
  by_cases hhere : matchhere re (t :: text) = true
  · rw [if_pos hhere]
    exact iff_of_true rfl (.inl hhere)
  · rw [if_neg hhere, or_iff_right hhere]
    by_cases hc : c = DOT ∨ c = t
    · rw [if_pos ⟨ht, hc.symm.imp_left Eq.symm⟩, and_iff_right hc]
    · rw [if_neg fun h => hc (h.2.symm.imp_right Eq.symm)]
      exact iff_of_false Bool.false_ne_true fun h => hc h.1

theorem matchstar_iff (hre : ∀ text, 0 ∉ text → (matchhere re text = true ↔ MatchesHere re text))
    (htext : 0 ∉ text) :
    matchstar c re text = true ↔
      ∃ a b, text = a ++ b ∧ (∀ t ∈ a, c = DOT ∨ c = t) ∧ MatchesHere re b := by
  induction text with
  | nil =>
    rw [matchstar_nil, hre [] htext]
    constructor
    · intro h
      exact ⟨[], [], rfl, nofun, h⟩
    · rintro ⟨a, b, hab, -, h⟩
      obtain ⟨-, rfl⟩ := List.nil_eq_append_iff.mp hab
      exact h
  | cons t text ih =>
    rw [matchstar_cons (ne_zero_of_mem htext List.mem_cons_self), hre _ htext,
      ih fun h0 => htext (List.mem_cons_of_mem _ h0)]
    -- no byte for the star, or one more
    constructor
    · rintro (h | ⟨hc, a, b, rfl, ha, h⟩)
      · exact ⟨[], t :: text, rfl, nofun, h⟩
      · exact ⟨t :: a, b, rfl, List.forall_mem_cons.mpr ⟨hc, ha⟩, h⟩
    · rintro ⟨a, b, hab, ha, h⟩
      cases a with
      | nil =>
        rw [hab]
        exact .inl h
      | cons t' a =>
        obtain ⟨rfl, rfl⟩ := List.cons.inj hab
        obtain ⟨hc, ha⟩ := List.forall_mem_cons.mp ha
        exact .inr ⟨hc, a, b, rfl, ha, h⟩

theorem matchhere_iff (hre : 0 ∉ re) (htext : 0 ∉ text) :
    matchhere re text = true ↔ MatchesHere re text := by
  -- one byte, if the rest of the pattern is decided
  have hone : ∀ {x : UInt8} {re text : List UInt8}, 0 ∉ x :: re → deref re ≠ STAR →
      ¬ (x = DOLLAR ∧ re = []) → 0 ∉ text →
      (∀ text, 0 ∉ text → (matchhere re text = true ↔ MatchesHere re text)) →
      (matchhere (x :: re) text = true ↔ MatchesHere (x :: re) text) := by
    intro x re text hre hstar hend htext ih
    rw [matchhere_one hre hstar hend htext, matchesHere_one hstar hend]
    refine exists_congr fun t => exists_congr fun text' => and_congr_right fun he =>
      and_congr_right fun _ => ih text' fun h0 => htext (he ▸ List.mem_cons_of_mem _ h0)
  induction re using items.induct generalizing text with
  | case1 => exact iff_of_true (matchhere_nil text) matchesHere_nil
  | case2 =>
    rw [matchhere_dollar, decide_eq_true_iff, deref_eq_zero htext, matchesHere_dollar]
  | case3 x hx =>
    exact hone hre (by decide) (fun h => hx h.1) htext fun text _ =>
      iff_of_true (matchhere_nil text) matchesHere_nil
  | case4 x re ih =>
    rw [matchhere_star (ne_zero_of_mem hre List.mem_cons_self), matchesHere_star]
    exact matchstar_iff (fun text htext => ih (fun h0 =>
      hre (List.mem_cons_of_mem _ (List.mem_cons_of_mem _ h0))) htext) htext
  | case5 x y re hy ih =>
    exact hone hre hy (fun h => List.cons_ne_nil _ _ h.2) htext fun text htext =>
      ih (fun h0 => hre (List.mem_cons_of_mem _ h0)) htext

theorem matchLoop_iff (hre : 0 ∉ re) (htext : 0 ∉ text) :
    matchLoop re text = true ↔ ∃ before rest, text = before ++ rest ∧ MatchesHere re rest := by
  induction text with
  | nil =>
    have hnil : matchLoop re [] = matchhere re [] := by
      rw [matchLoop]
      simp
    rw [hnil, matchhere_iff hre htext]
    constructor
    · intro h
      exact ⟨[], [], rfl, h⟩
    · rintro ⟨a, b, hab, h⟩
      obtain ⟨-, rfl⟩ := List.nil_eq_append_iff.mp hab
      exact h
  | cons t text ih =>
    have ht := ne_zero_of_mem htext List.mem_cons_self
    have hcons : matchLoop re (t :: text) = true ↔
        matchhere re (t :: text) = true ∨ matchLoop re text = true := by
      rw [matchLoop, deref_cons, List.tail_cons, if_pos ht]
      by_cases hhere : matchhere re (t :: text) = true
      · rw [if_pos hhere]
        exact iff_of_true rfl (.inl hhere)
      · rw [if_neg hhere, or_iff_right hhere]
    rw [hcons, matchhere_iff hre htext, ih fun h0 => htext (List.mem_cons_of_mem _ h0)]
    constructor
    · rintro (h | ⟨a, b, rfl, h⟩)
      · exact ⟨[], t :: text, rfl, h⟩
      · exact ⟨t :: a, b, rfl, h⟩
    · rintro ⟨a, b, hab, h⟩
      cases a with
      | nil =>
        rw [hab]
        exact .inl h
      | cons t' a =>
        obtain ⟨rfl, rfl⟩ := List.cons.inj hab
        exact .inr ⟨a, b, rfl, h⟩

def body (re : List UInt8) : List UInt8 := if deref re = CARET then re.tail else re

/-- **The matcher decides its pattern language.** `match` returns 1 exactly if the pattern matches
some part of the text, at the beginning if it starts with `^`. -/
theorem matchRe_decides (hre : 0 ∉ re) (htext : 0 ∉ text) :
    matchRe re text = true ↔
      ∃ before s post, text = before ++ s ++ post ∧ (deref re = CARET → before = []) ∧
        Matches (body re) s post := by
  unfold matchRe body
  by_cases hcaret : deref re = CARET
  · rw [if_pos hcaret, if_pos hcaret, matchhere_iff (fun h0 => hre (List.mem_of_mem_tail h0)) htext]
    constructor
    · rintro ⟨s, post, rfl, hm⟩
      exact ⟨[], s, post, rfl, fun _ => rfl, hm⟩
    · rintro ⟨before, s, post, rfl, hnil, hm⟩
      rw [hnil hcaret, List.nil_append]
      exact ⟨s, post, rfl, hm⟩
  · rw [if_neg hcaret, if_neg hcaret, matchLoop_iff hre htext]
    constructor
    · rintro ⟨before, -, rfl, s, post, rfl, hm⟩
      exact ⟨before, s, post, (List.append_assoc ..).symm, fun h => absurd h hcaret, hm⟩
    · rintro ⟨before, s, post, rfl, -, hm⟩
      exact ⟨before, s ++ post, List.append_assoc .., s, post, rfl, hm⟩

/-- `a*b$` in `xaab`. -/
theorem matchRe_aab : matchRe [97, STAR, 98, DOLLAR] [120, 97, 97, 98] = true := by
  have hb : Matches [98, DOLLAR] [98] [] := (matches_one (by decide) (by decide)).mpr
    ⟨98, [], rfl, .inr rfl, matches_dollar.mpr ⟨rfl, rfl⟩⟩
  exact (matchRe_decides (by decide) (by decide)).mpr
    ⟨[120], [97, 97, 98], [], rfl, nofun, matches_star.mpr ⟨[97, 97], [98], rfl, by simp, hb⟩⟩

end Xv6.Grep
