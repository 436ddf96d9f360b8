import Mathlib.Tactic

/-!
# Copies and numbers

1. `memmove` exists twice, in `string.c` for the kernel and in `ulib.c` for programs. A loop is
   followed byte by byte: `copyDown` moves a range up without reading what it has written
   (`copyDown_eq`), `copyUp` repeats the first `dst - src` bytes there (`copyUp_eq`).
2. `printint` produces digits by division into a buffer of 16 bytes; `atoi` and `hex2off` read
   them back by multiplication modulo 2^32 (`digitLoop_digits`, `atoi_digits`,
   `hex2offLoop_digits`).
-/

namespace Xv6.Ulib

open Function

/-! ## The two `memmove`s -/

def TOP : ℕ := 2 ^ 32

abbrev Mem := ℕ → UInt8

def copyUp (m : Mem) (d s : ℕ) : ℕ → Mem
  | 0 => m
  | n + 1 => copyUp (update m d (m s)) ((d + 1) % TOP) ((s + 1) % TOP) n

def copyDown (m : Mem) (d s : ℕ) : ℕ → Mem
  | 0 => m
  | n + 1 =>
    let d' := (d + (TOP - 1)) % TOP
    let s' := (s + (TOP - 1)) % TOP
    copyDown (update m d' (m s')) d' s' n

def memmove (m : Mem) (dst src n : ℕ) : Mem :=
  if src < dst ∧ (src + n) % TOP > dst then
    copyDown m ((dst + n) % TOP) ((src + n) % TOP) n
  else copyUp m dst src n

def userMemmove (m : Mem) (dst src : ℕ) (n : ℤ) : Mem := copyUp m dst src n.toNat

def filled (f : ℕ → ℕ) (m : Mem) (dst src n : ℕ) : Mem := fun a =>
  if dst ≤ a ∧ a < dst + n then m (src + f (a - dst)) else m a

def moved : Mem → ℕ → ℕ → ℕ → Mem := filled id

variable {m : Mem} {d s n : ℕ}

theorem copyUp_succ (hd : d < TOP) (hs : s < TOP) :
    copyUp m d s (n + 1) = update (copyUp m d s n) ((d + n) % TOP)
      (copyUp m d s n ((s + n) % TOP)) := by
  induction n generalizing m d s with
  | zero => simp [copyUp, Nat.mod_eq_of_lt hd, Nat.mod_eq_of_lt hs]
  | succ n ih =>
    have hpos : 0 < TOP := by decide
    rw [copyUp, ih (Nat.mod_lt _ hpos) (Nat.mod_lt _ hpos), copyUp, Nat.mod_add_mod,
      Nat.mod_add_mod, show d + 1 + n = d + (n + 1) by omega, show s + 1 + n = s + (n + 1) by omega]

theorem copyUp_eq (hd : d + n ≤ TOP) (hs : s + n ≤ TOP) :
    copyUp m d s n = filled (· % (d - s)) m d s n := by
  induction n with
  | zero =>
    funext a
    simp only [copyUp, filled]
    rw [if_neg (by omega)]
  | succ n ih =>
    rw [copyUp_succ (by omega) (by omega), ih (by omega) (by omega),
      Nat.mod_eq_of_lt (by omega), Nat.mod_eq_of_lt (by omega)]
    have hread : filled (· % (d - s)) m d s n (s + n) = m (s + n % (d - s)) := by
      unfold filled
      by_cases hin : d ≤ s + n ∧ s + n < d + n
      · rw [if_pos hin, Nat.mod_eq_sub_mod (by omega : d - s ≤ n),
          show s + n - d = n - (d - s) by omega]
      · rw [if_neg hin]
        obtain h | h : d ≤ s ∨ n < d - s := by omega
        · simp [Nat.sub_eq_zero_of_le h]
        · rw [Nat.mod_eq_of_lt h]
    funext a
    rw [hread]
    by_cases ha : a = d + n
    · subst ha
      simp [filled]
    · rw [update_of_ne ha]
      have hiff : d ≤ a ∧ a < d + n ↔ d ≤ a ∧ a < d + (n + 1) := by omega
      simp only [filled, hiff]

theorem pred_mod (hpos : 0 < d) (hd : d ≤ TOP) : (d % TOP + (TOP - 1)) % TOP = d - 1 := by
  rw [Nat.mod_add_mod, show d + (TOP - 1) = d - 1 + TOP by unfold TOP at *; omega,
    Nat.add_mod_right, Nat.mod_eq_of_lt (by omega)]

theorem copyDown_eq (hlt : s < d) (hd : d + n ≤ TOP) :
    copyDown m ((d + n) % TOP) ((s + n) % TOP) n = moved m d s n := by
  induction n generalizing m with
  | zero =>
    funext a
    simp only [copyDown, moved, filled]
    rw [if_neg (by omega)]
  | succ n ih =>
    simp only [copyDown]
    rw [pred_mod (by omega) (by omega), pred_mod (by omega) (by omega)]
    have hn := ih (m := update m (d + n) (m (s + n))) (by omega)
    rw [Nat.mod_eq_of_lt (by omega), Nat.mod_eq_of_lt (by omega)] at hn
    rw [show d + (n + 1) - 1 = d + n by omega, show s + (n + 1) - 1 = s + n by omega, hn]
    funext a
    simp only [moved, filled, id]
    obtain ha | rfl | ha : d ≤ a ∧ a < d + n ∨ a = d + n ∨ ¬(d ≤ a ∧ a < d + (n + 1)) := by omega
    · rw [if_pos ha, if_pos (by omega), update_of_ne (by omega)]
    · rw [if_neg (by omega), update_self, if_pos (by omega), show d + n - d = n by omega]
    · rw [if_neg (by omega), if_neg ha, update_of_ne (by omega)]

theorem filled_congr {f g : ℕ → ℕ} (h : ∀ i < n, m (s + f i) = m (s + g i)) :
    filled f m d s n = filled g m d s n := by
  funext a
  unfold filled
  split_ifs with ha
  · exact h _ (by omega)
  · rfl

theorem mod_apart {i : ℕ} (h : ¬(s < d ∧ d < s + n)) (hi : i < n) : i % (d - s) = i := by
  obtain h | h : d ≤ s ∨ i < d - s := by omega
  · rw [Nat.sub_eq_zero_of_le h, Nat.mod_zero]
  · exact Nat.mod_eq_of_lt h

theorem memmove_eq (hd : d + n ≤ TOP) (hs : s + n ≤ TOP) : memmove m d s n = moved m d s n := by
  unfold memmove
  split_ifs with h
  · exact copyDown_eq h.1 hd
  · rw [copyUp_eq hd hs]
    refine filled_congr fun i hi => ?_
    have hapart : ¬(s < d ∧ d < s + n) := by
      rintro ⟨hsd, hlap⟩
      -- with room for `n` bytes at `dst`, the sum `src + n` does not wrap
      exact h ⟨hsd, by rwa [Nat.mod_eq_of_lt (by omega)]⟩
    rw [mod_apart hapart hi, id]

/-- **The two copies.** The kernel's `memmove` copies every range; that of programs leaves the same
memory exactly if the bytes at `src` repeat with the distance to a `dst` above it, as they do when
the ranges do not overlap that way. -/
theorem memmove_agree (m : Mem) (dst src n : ℕ) (hd : dst + n ≤ TOP) (hs : src + n ≤ TOP) :
    memmove m dst src n = moved m dst src n ∧
    (userMemmove m dst src n = memmove m dst src n ↔
      (src < dst → dst < src + n → ∀ i < n, m (src + i % (dst - src)) = m (src + i))) := by
  refine ⟨memmove_eq hd hs, ?_⟩
  rw [memmove_eq hd hs, userMemmove, Int.toNat_natCast, copyUp_eq hd hs]
  constructor
  · intro heq _ _ i hi
    have hat := congrFun heq (dst + i)
    simpa [moved, filled, hi] using hat
  · intro hper
    refine filled_congr fun i hi => ?_
    by_cases hlap : src < dst ∧ dst < src + n
    · exact hper hlap.1 hlap.2 i hi
    · rw [mod_apart hlap hi, id]

/-- Two bytes moved up by one: programs get the first one twice. -/
theorem memmove_up_one : userMemmove UInt8.ofNat 1 0 2 2 = 0 ∧ memmove UInt8.ofNat 1 0 2 2 = 1 := by
  decide

theorem memmove_agree_down : userMemmove UInt8.ofNat 0 1 2 = memmove UInt8.ofNat 0 1 2 :=
  (memmove_agree _ 0 1 2 (by decide) (by decide)).2.mpr (fun h => absurd h (by decide))

/-! ## Printing numbers -/

def digits : List UInt8 := [48, 49, 50, 51, 52, 53, 54, 55, 56, 57, 65, 66, 67, 68, 69, 70]

def digit (d : ℕ) : UInt8 := digits.getD d 0

def MINUS : UInt8 := 45

def put (buf : List UInt8) (c : UInt8) : Option (List UInt8) :=
  if buf.length < 16 then some (buf ++ [c]) else none

def digitLoop (base : ℕ) (hb : 1 < base) (x : ℕ) (buf : List UInt8) : Option (List UInt8) := do
  let buf ← put buf (digit (x % base))
  if x / base = 0 then pure buf else digitLoop base hb (x / base) buf
termination_by x
decreasing_by
  rename_i h
  exact Nat.div_lt_self (Nat.pos_of_ne_zero fun h0 => h (by simp [h0])) hb

def printint (xx : BitVec 32) (base : ℕ) (hb : 1 < base) (sgn : Bool) : Option (List UInt8) := do
  let neg := sgn && xx.toInt < 0
  let x := if neg then -xx else xx
  let buf ← digitLoop base hb x.toNat []
  let buf ← if neg then put buf MINUS else pure buf
  pure buf.reverse

def atoiLoop (n : BitVec 32) : List UInt8 → BitVec 32
  | [] => n
  | c :: s => if 48 ≤ c ∧ c ≤ 57 then atoiLoop (n * 10 + BitVec.ofNat 32 c.toNat - 48) s else n

def atoi : List UInt8 → BitVec 32
  | [] => atoiLoop 0 []
  | c :: s => if c = MINUS then -atoiLoop 0 s else atoiLoop 0 (c :: s)

def hexDigit (h : UInt8) : Option ℕ :=
  if 48 ≤ h ∧ h ≤ 57 then some (h.toNat - 48)
  else if 97 ≤ h ∧ h ≤ 102 then some (h.toNat - 97 + 10)
  else if 65 ≤ h ∧ h ≤ 70 then some (h.toNat - 65 + 10)
  else none

def hex2offLoop (off : BitVec 32) : List UInt8 → Option (BitVec 32)
  | [] => some off
  | h :: s =>
    if h = 0 then some off
    else do
      let d ← hexDigit h
      hex2offLoop ((off <<< 4) + BitVec.ofNat 32 d) s

def hex2off : List UInt8 → Option (BitVec 32) := hex2offLoop 0

theorem digitLoop_digits {base : ℕ} (hb : 1 < base) (k x : ℕ) (buf : List UInt8)
    (hx : x < base ^ (k + 1)) (hk : buf.length + k < 16) :
    ∃ ds : List ℕ, ds ≠ [] ∧ (∀ d ∈ ds, d < base) ∧ ds.length ≤ k + 1 ∧ Nat.ofDigits base ds = x ∧
      digitLoop base hb x buf = some (buf ++ ds.map digit) := by
  induction k generalizing x buf with
  | zero =>
    have hlt : x < base := by simpa using hx
    refine ⟨[x], by simp, by simpa, by simp, by simp, ?_⟩
    rw [digitLoop]
    simp [put, show buf.length < 16 by omega, Nat.div_eq_of_lt hlt, Nat.mod_eq_of_lt hlt]
  | succ k ih =>
    have hmod : x % base < base := Nat.mod_lt _ (by omega)
    rw [digitLoop]
    by_cases h0 : x / base = 0
    · refine ⟨[x % base], by simp, by simpa, by simp, ?_, ?_⟩
      · have := Nat.mod_add_div x base
        simpa [h0] using this
      · simp [put, show buf.length < 16 by omega, h0]
    · obtain ⟨ds, -, hlt, hlen, hval, hloop⟩ := ih (x / base)
        (buf ++ [digit (x % base)]) (Nat.div_lt_of_lt_mul (by rwa [← pow_succ'])) (by simp; omega)
      refine ⟨x % base :: ds, by simp, by simpa using ⟨hmod, hlt⟩, by simpa using hlen, ?_, ?_⟩
      · rw [Nat.ofDigits_cons, hval]
        exact_mod_cast Nat.mod_add_div x base
      · simp [put, show buf.length < 16 by omega, h0, hloop]

theorem digit_le : ∀ d < 10, 48 ≤ digit d ∧ digit d ≤ 57 ∧ (digit d).toNat = d + 48 := by decide

theorem hexDigit_digit : ∀ d < 16, digit d ≠ 0 ∧ hexDigit (digit d) = some d := by decide

theorem atoiLoop_digits {ds : List ℕ} (h : ∀ d ∈ ds, d < 10) (s : List UInt8) :
    atoiLoop 0 ((ds.map digit).reverse ++ s) =
      atoiLoop (BitVec.ofNat 32 (Nat.ofDigits 10 ds)) s := by
  induction ds generalizing s with
  | nil => rfl
  | cons d ds ih =>
    obtain ⟨hlow, hhigh, hval⟩ := digit_le d (h d (by simp))
    rw [List.map_cons, List.reverse_cons, List.append_assoc, ih fun x hx => h x (by simp [hx])]
    rw [List.singleton_append, atoiLoop, if_pos ⟨hlow, hhigh⟩, hval, Nat.ofDigits_cons]
    congr 1
    apply BitVec.eq_of_toNat_eq
    simp
    omega

theorem hex2offLoop_digits {ds : List ℕ} (h : ∀ d ∈ ds, d < 16) (s : List UInt8) :
    hex2offLoop 0 ((ds.map digit).reverse ++ s) =
      hex2offLoop (BitVec.ofNat 32 (Nat.ofDigits 16 ds)) s := by
  induction ds generalizing s with
  | nil => rfl
  | cons d ds ih =>
    obtain ⟨hne, hval⟩ := hexDigit_digit d (h d (by simp))
    rw [List.map_cons, List.reverse_cons, List.append_assoc, ih fun x hx => h x (by simp [hx])]
    rw [List.singleton_append, hex2offLoop, if_neg hne, hval, Nat.ofDigits_cons]
    show hex2offLoop _ s = _
    congr 1
    apply BitVec.eq_of_toNat_eq
    simp [Nat.shiftLeft_eq]
    omega

theorem atoi_digits {ds : List ℕ} (hne : ds ≠ []) (h : ∀ d ∈ ds, d < 10) :
    atoi (ds.map digit).reverse = BitVec.ofNat 32 (Nat.ofDigits 10 ds) := by
  have hloop := atoiLoop_digits h []
  rw [List.append_nil] at hloop
  cases htext : (ds.map digit).reverse with
  | nil => simp [hne] at htext
  | cons c s =>
    obtain ⟨d, hd, rfl⟩ : ∃ d ∈ ds, digit d = c := by
      have hc : c ∈ (ds.map digit).reverse := by simp [htext]
      simpa using hc
    have hminus : digit d ≠ MINUS := fun he => absurd (he ▸ (digit_le d (h d hd)).1) (by decide)
    rw [atoi, if_neg hminus, ← htext, hloop]
    rfl

/-- **Numbers survive printing.** For every 32-bit integer, what `printint` writes fits its buffer;
`atoi` reads the signed decimal form back, and `hex2off` the unsigned hexadecimal one. -/
theorem printint_inverse (x : BitVec 32) :
    (∃ text, printint x 10 (by decide) true = some text ∧ atoi text = x) ∧
    (∃ text, printint x 16 (by decide) false = some text ∧ hex2off text = some x) := by
  constructor
  · unfold printint
    by_cases hneg : x.toInt < 0
    · obtain ⟨ds, -, hlt, hlen, hval, hloop⟩ := digitLoop_digits (by decide : 1 < 10) 9
        (-x).toNat [] (lt_trans (-x).isLt (by decide)) (by decide)
      refine ⟨MINUS :: (ds.map digit).reverse, ?_, ?_⟩
      · simp [-BitVec.toNat_neg, hneg, hloop, put, show ds.length < 16 by omega]
      · have hread := atoiLoop_digits hlt []
        rw [List.append_nil] at hread
        rw [atoi, if_pos rfl, hread, hval, atoiLoop, BitVec.ofNat_toNat, BitVec.setWidth_eq,
          BitVec.neg_neg]
    · obtain ⟨ds, hne, hlt, -, hval, hloop⟩ := digitLoop_digits (by decide : 1 < 10) 9
        x.toNat [] (lt_trans x.isLt (by decide)) (by decide)
      refine ⟨(ds.map digit).reverse, by simp [hneg, hloop], ?_⟩
      rw [atoi_digits hne hlt, hval, BitVec.ofNat_toNat, BitVec.setWidth_eq]
  · obtain ⟨ds, -, hlt, -, hval, hloop⟩ := digitLoop_digits (by decide : 1 < 16) 7
      x.toNat [] (lt_of_lt_of_le x.isLt (by decide)) (by decide)
    refine ⟨(ds.map digit).reverse, by simp [printint, hloop], ?_⟩
    have hread := hex2offLoop_digits hlt []
    rw [List.append_nil] at hread
    rw [hex2off, hread, hval, hex2offLoop, BitVec.ofNat_toNat, BitVec.setWidth_eq]

end Xv6.Ulib
