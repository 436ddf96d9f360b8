import Mathlib.Data.List.GetD
import Mathlib.Tactic

/-!
# Tokens of the shell

`gettoken` and `peek` of `sh.c` on an input line. A pointer into the line is an index; what it
points to behind the last character is the terminating 0.

`tokens` are what `gettoken` returns when it is called again and again. The parser only sees the
line through them: `gettoken` returns the first one and moves on, `peek` compares it with a list of
symbols and stays (`At.gettoken`, `At.peek`).
-/

namespace Xv6.Sh

def ch (c : Char) : UInt8 := UInt8.ofNat c.toNat

def whitespace : List UInt8 := [ch ' ', ch '\t', ch '\r', ch '\n', 11]

def symbols : List UInt8 := [ch '<', ch '|', ch '>', ch '&', ch ';', ch '(', ch ')']

structure Span where
  q : ℕ
  eq : ℕ
  deriving DecidableEq

/-- What `gettoken` returns: `'|'`, `'('`, `')'`, `';'`, `'&'`, `'<'`, `'>'`, `'+'` for `>>`, and
`'a'` with the word. -/
inductive Token
  | bar
  | lparen
  | rparen
  | semi
  | amp
  | less
  | greater
  | append
  | word (w : Span)
  deriving DecidableEq

def Token.starts (toks : List UInt8) : Token → Bool
  | .bar => ch '|' ∈ toks
  | .lparen => ch '(' ∈ toks
  | .rparen => ch ')' ∈ toks
  | .semi => ch ';' ∈ toks
  | .amp => ch '&' ∈ toks
  | .less => ch '<' ∈ toks
  | .greater => ch '>' ∈ toks
  | .append => ch '>' ∈ toks
  | .word _ => false

section Line

variable (str : List UInt8)

def charAt (s : ℕ) : UInt8 := str.getD s 0

def skipWhile (p : UInt8 → Bool) : ℕ → ℕ → ℕ
  | 0, s => s
  | n + 1, s => if s < str.length ∧ p (charAt str s) = true then skipWhile p n (s + 1) else s

def isSpace (c : UInt8) : Bool := c ∈ whitespace

def isPlain (c : UInt8) : Bool := c ∉ whitespace ∧ c ∉ symbols

def skipSpace (s : ℕ) : ℕ := skipWhile str isSpace (str.length - s) s

def cut (s : ℕ) : Option Token × ℕ :=
  if charAt str s = 0 then (none, s)
  else if charAt str s = ch '|' then (some .bar, s + 1)
  else if charAt str s = ch '(' then (some .lparen, s + 1)
  else if charAt str s = ch ')' then (some .rparen, s + 1)
  else if charAt str s = ch ';' then (some .semi, s + 1)
  else if charAt str s = ch '&' then (some .amp, s + 1)
  else if charAt str s = ch '<' then (some .less, s + 1)
  else if charAt str s = ch '>' then
    if charAt str (s + 1) = ch '>' then (some .append, s + 2) else (some .greater, s + 1)
  else
    let e := skipWhile str isPlain (str.length - s) s
    (some (.word ⟨s, e⟩), e)

def gettoken (s : ℕ) : Option Token × ℕ :=
  let (ret, e) := cut str (skipSpace str s)
  (ret, skipSpace str e)

def peek (toks : List UInt8) (s : ℕ) : Bool × ℕ :=
  let s := skipSpace str s
  (decide (charAt str s ≠ 0 ∧ charAt str s ∈ toks), s)

def tokensFrom : ℕ → ℕ → List Token
  | 0, _ => []
  | n + 1, s =>
    match gettoken str s with
    | (none, _) => []
    | (some t, s') => t :: tokensFrom n s'

/-- The tokens from `s` on. Each has a character, so there are at most `es - s`. -/
def tokens (s : ℕ) : List Token := tokensFrom str (str.length - s) s

end Line

/-! ## Skipping -/

variable {str : List UInt8}

theorem le_skipWhile (p : UInt8 → Bool) (n s : ℕ) : s ≤ skipWhile str p n s := by
  induction n generalizing s with
  | zero => exact le_rfl
  | succ n ih =>
    unfold skipWhile
    split
    · exact (Nat.le_succ s).trans (ih (s + 1))
    · exact le_rfl

variable {s : ℕ}

theorem skipWhile_le (p : UInt8 → Bool) (n : ℕ) (hs : s ≤ str.length) :
    skipWhile str p n s ≤ str.length := by
  induction n generalizing s with
  | zero => exact hs
  | succ n ih =>
    unfold skipWhile
    split
    next h => exact ih h.1
    next => exact hs

variable {n : ℕ} {p : UInt8 → Bool}

theorem skipWhile_pass {k : ℕ} (hs : s ≤ k)
    (hk : k < skipWhile str p n s) : p (charAt str k) = true := by
  induction n generalizing s with
  | zero => exact absurd hk hs.not_gt
  | succ n ih =>
    unfold skipWhile at hk
    split at hk
    next h =>
      rcases hs.eq_or_lt with rfl | hlt
      · exact h.2
      · exact ih hlt hk
    next => exact absurd hk hs.not_gt

theorem skipWhile_stop (hn : str.length - s ≤ n) (hlt : skipWhile str p n s < str.length) :
    p (charAt str (skipWhile str p n s)) = false := by
  induction n generalizing s with
  | zero =>
    unfold skipWhile at hlt
    omega
  | succ n ih =>
    unfold skipWhile at hlt ⊢
    split at hlt
    next h =>
      rw [if_pos h]
      exact ih (by omega) hlt
    next h =>
      rw [if_neg h]
      exact Bool.eq_false_of_not_eq_true fun hp => h ⟨hlt, hp⟩

theorem skipWhile_eq (h : s < str.length → p (charAt str s) = false) : skipWhile str p n s = s := by
  cases n with
  | zero => rfl
  | succ n =>
    unfold skipWhile
    refine if_neg fun hs => ?_
    rw [h hs.1] at hs
    exact Bool.false_ne_true hs.2

theorem skipSpace_idem (s : ℕ) : skipSpace str (skipSpace str s) = skipSpace str s :=
  skipWhile_eq fun hlt => skipWhile_stop le_rfl hlt

theorem le_skipSpace (str : List UInt8) (s : ℕ) : s ≤ skipSpace str s := le_skipWhile ..

theorem skipSpace_le (hs : s ≤ str.length) : skipSpace str s ≤ str.length :=
  skipWhile_le _ _ hs

theorem charAt_of_le (hs : str.length ≤ s) : charAt str s = 0 :=
  List.getD_eq_default _ _ hs

theorem charAt_mem (hs : s < str.length) : charAt str s ∈ str := by
  unfold charAt
  rw [List.getD_eq_getElem _ _ hs]
  exact List.getElem_mem hs

theorem charAt_eq_zero_iff (hz : 0 ∉ str) : charAt str s = 0 ↔ str.length ≤ s := by
  constructor
  · intro h
    by_contra hlt
    exact hz (h ▸ charAt_mem (not_le.mp hlt))
  · exact charAt_of_le

/-! ## Tokens -/

structure IsWord (str : List UInt8) (w : Span) : Prop where
  lt : w.q < w.eq
  le : w.eq ≤ str.length
  plain : ∀ k, w.q ≤ k → k < w.eq → isPlain (charAt str k) = true
  stop : w.eq < str.length → isPlain (charAt str w.eq) = false

structure IsToken (str : List UInt8) (s : ℕ) (t : Token) (e : ℕ) : Prop where
  lt : s < e
  le : e ≤ str.length
  starts : ∀ toks, toks ⊆ symbols → t.starts toks = decide (charAt str s ∈ toks)
  word : ∀ w, t = .word w → IsWord str w

theorem IsToken.symbol {t : Token} {c : Char} (hlt : s < str.length)
    (hc : charAt str s = ch c) (ht : ∀ toks, t.starts toks = decide (ch c ∈ toks))
    (hw : ∀ w, t ≠ .word w) : IsToken str s t (s + 1) :=
  ⟨Nat.lt_succ_self s, hlt, fun toks _ => by rw [ht, hc], fun w h => absurd h (hw w)⟩

theorem cut_spec (hz : 0 ∉ str) (hlt : s < str.length)
    (hs : isSpace (charAt str s) = false) : ∃ t e, cut str s = (some t, e) ∧ IsToken str s t e := by
  have hne : charAt str s ≠ 0 := fun h => absurd ((charAt_eq_zero_iff hz).mp h) (not_le.mpr hlt)
  unfold cut
  rw [if_neg hne]
  by_cases h1 : charAt str s = ch '|'
  · rw [if_pos h1]
    exact ⟨_, _, rfl, .symbol hlt h1 (fun _ => rfl) nofun⟩
  rw [if_neg h1]
  by_cases h2 : charAt str s = ch '('
  · rw [if_pos h2]
    exact ⟨_, _, rfl, .symbol hlt h2 (fun _ => rfl) nofun⟩
  rw [if_neg h2]
  by_cases h3 : charAt str s = ch ')'
  · rw [if_pos h3]
    exact ⟨_, _, rfl, .symbol hlt h3 (fun _ => rfl) nofun⟩
  rw [if_neg h3]
  by_cases h4 : charAt str s = ch ';'
  · rw [if_pos h4]
    exact ⟨_, _, rfl, .symbol hlt h4 (fun _ => rfl) nofun⟩
  rw [if_neg h4]
  by_cases h5 : charAt str s = ch '&'
  · rw [if_pos h5]
    exact ⟨_, _, rfl, .symbol hlt h5 (fun _ => rfl) nofun⟩
  rw [if_neg h5]
  by_cases h6 : charAt str s = ch '<'
  · rw [if_pos h6]
    exact ⟨_, _, rfl, .symbol hlt h6 (fun _ => rfl) nofun⟩
  rw [if_neg h6]
  by_cases h7 : charAt str s = ch '>'
  · rw [if_pos h7]
    by_cases h8 : charAt str (s + 1) = ch '>'
    · rw [if_pos h8]
      have hlt' : s + 1 < str.length := by
        by_contra hle
        rw [charAt_of_le (not_lt.mp hle)] at h8
        exact absurd h8 (by decide)
      exact ⟨_, _, rfl, Nat.lt_add_of_pos_right (by decide), hlt',
        fun toks _ => by rw [h7]; rfl, nofun⟩
    · rw [if_neg h8]
      exact ⟨_, _, rfl, .symbol hlt h7 (fun _ => rfl) nofun⟩
  rw [if_neg h7]
  -- a word: its first character is neither space nor symbol
  have hsym : charAt str s ∉ symbols := by
    simp only [symbols, List.mem_cons, List.not_mem_nil, or_false, not_or]
    exact ⟨h6, h1, h7, h5, h4, h2, h3⟩
  have hplain : isPlain (charAt str s) = true :=
    decide_eq_true ⟨of_decide_eq_false hs, hsym⟩
  have hgt : s < skipWhile str isPlain (str.length - s) s := by
    obtain ⟨n, hn⟩ := Nat.exists_eq_succ_of_ne_zero (Nat.sub_ne_zero_of_lt hlt)
    rw [hn, skipWhile, if_pos ⟨hlt, hplain⟩]
    exact (Nat.lt_succ_self s).trans_le (le_skipWhile ..)
  refine ⟨_, _, rfl, hgt, skipWhile_le _ _ hlt.le, fun toks hsub => ?_, fun w hw => ?_⟩
  · exact (decide_eq_false fun hin => hsym (hsub hin)).symm
  · obtain rfl := Token.word.inj hw
    exact ⟨hgt, skipWhile_le _ _ hlt.le, fun k hk hk' => skipWhile_pass hk hk',
      fun h => skipWhile_stop le_rfl h⟩

theorem gettoken_spec (hz : 0 ∉ str) (hs : s ≤ str.length) :
    (skipSpace str s = str.length ∧ gettoken str s = (none, str.length)) ∨
      ∃ t e, IsToken str (skipSpace str s) t e ∧ gettoken str s = (some t, skipSpace str e) := by
  rcases (skipSpace_le hs).eq_or_lt with heq | hlt
  · refine .inl ⟨heq, ?_⟩
    have hcut : cut str str.length = (none, str.length) := if_pos (charAt_of_le le_rfl)
    have hskip : skipSpace str str.length = str.length := by
      rw [← heq, skipSpace_idem]
    unfold gettoken
    rw [heq, hcut]
    simp only [hskip]
  · obtain ⟨t, e, hcut, ht⟩ := cut_spec hz hlt (skipWhile_stop le_rfl hlt)
    refine .inr ⟨t, e, ht, ?_⟩
    unfold gettoken
    rw [hcut]

theorem tokensFrom_none {e : ℕ} (h : gettoken str s = (none, e)) (n : ℕ) :
    tokensFrom str n s = [] := by
  cases n with
  | zero => rfl
  | succ n =>
    unfold tokensFrom
    rw [h]

theorem tokensFrom_eq (hz : 0 ∉ str) {m : ℕ} (hs : s ≤ str.length) (hn : str.length - s ≤ n)
    (hm : str.length - s ≤ m) : tokensFrom str n s = tokensFrom str m s := by
  induction n generalizing m s with
  | zero =>
    rcases gettoken_spec hz hs with ⟨-, hg⟩ | ⟨t, e, ht, -⟩
    · rw [tokensFrom_none hg, tokensFrom_none hg]
    · have h1 := ht.lt.trans_le ht.le
      have h2 := le_skipSpace str s
      omega
  | succ n ih =>
    rcases gettoken_spec hz hs with ⟨-, hg⟩ | ⟨t, e, ht, hg⟩
    · rw [tokensFrom_none hg, tokensFrom_none hg]
    · have hlt := ht.lt
      have hle := skipSpace_le ht.le
      have h1 := le_skipSpace str s
      have h2 := le_skipSpace str e
      obtain ⟨m, rfl⟩ : ∃ k, m = k + 1 := ⟨m - 1, by omega⟩
      unfold tokensFrom
      rw [hg]
      exact congrArg (t :: ·) (ih hle (by omega) (by omega))

/-! ## The line as the parser sees it -/

def At (str : List UInt8) (s : ℕ) (ts : List Token) : Prop := s ≤ str.length ∧ tokens str s = ts

theorem at_zero (str : List UInt8) : At str 0 (tokens str 0) := ⟨Nat.zero_le _, rfl⟩

variable {ts : List Token}

theorem At.gettoken (hz : 0 ∉ str) (h : At str s ts) :
    ∃ s', gettoken str s = (ts.head?, s') ∧ At str s' ts.tail := by
  obtain ⟨hs, rfl⟩ := h
  rcases gettoken_spec hz hs with ⟨-, hg⟩ | ⟨t, e, ht, hg⟩
  · have hnil : tokens str s = [] := tokensFrom_none hg _
    refine ⟨str.length, by rw [hg, hnil, List.head?_nil], le_rfl, ?_⟩
    rw [hnil, tokens, Nat.sub_self]
    rfl
  · have hlt := ht.lt
    have hle := skipSpace_le ht.le
    have h1 := le_skipSpace str s
    have h2 := le_skipSpace str e
    have hcons : tokens str s = t :: tokens str (skipSpace str e) := by
      obtain ⟨n, hn⟩ : ∃ n, str.length - s = n + 1 := ⟨str.length - s - 1, by omega⟩
      unfold tokens
      rw [hn, tokensFrom, hg]
      exact congrArg (t :: ·) (tokensFrom_eq hz hle (by omega) le_rfl)
    refine ⟨skipSpace str e, by rw [hg, hcons, List.head?_cons], hle, ?_⟩
    rw [hcons, List.tail_cons]

theorem gettoken_skipSpace (s : ℕ) : gettoken str (skipSpace str s) = gettoken str s := by
  unfold gettoken
  rw [skipSpace_idem]

theorem At.skipSpace (hz : 0 ∉ str) (h : At str s ts) : At str (skipSpace str s) ts := by
  obtain ⟨s', hg, hs', hrest⟩ := h.gettoken hz
  have hle := skipSpace_le h.1
  obtain ⟨e, hg', -, hrest'⟩ := At.gettoken hz ⟨hle, rfl⟩
  rw [gettoken_skipSpace, hg] at hg'
  obtain ⟨hhead, rfl⟩ := Prod.mk.inj hg'
  refine ⟨hle, ?_⟩
  rw [hrest] at hrest'
  cases ts with
  | nil =>
    cases hts : tokens str (Sh.skipSpace str s) with
    | nil => rfl
    | cons t us =>
      rw [hts] at hhead
      cases hhead
  | cons t ts =>
    cases hts : tokens str (Sh.skipSpace str s) with
    | nil =>
      rw [hts] at hhead
      cases hhead
    | cons u us =>
      rw [hts] at hhead hrest'
      cases hhead
      exact congrArg (t :: ·) hrest'.symm

theorem At.skipSpace_eq_iff (hz : 0 ∉ str) (h : At str s ts) :
    Sh.skipSpace str s = str.length ↔ ts = [] := by
  obtain ⟨s', hg, -⟩ := h.gettoken hz
  rcases gettoken_spec hz h.1 with ⟨heq, hg'⟩ | ⟨t, e, ht, hg'⟩
  · rw [hg] at hg'
    exact iff_of_true heq (List.head?_eq_none_iff.mp (Prod.mk.inj hg').1)
  · rw [hg] at hg'
    refine iff_of_false (ht.lt.trans_le ht.le).ne fun hnil => ?_
    rw [hnil] at hg'
    cases (Prod.mk.inj hg').1

theorem At.peek (hz : 0 ∉ str) (h : At str s ts) {toks : List UInt8} (hsub : toks ⊆ symbols) :
    ∃ s', peek str toks s = (ts.head?.any (Token.starts toks), s') ∧ At str s' ts := by
  refine ⟨_, ?_, h.skipSpace hz⟩
  obtain ⟨s', hg, -⟩ := h.gettoken hz
  unfold Sh.peek
  refine congrArg (·, Sh.skipSpace str s) ?_
  rcases gettoken_spec hz h.1 with ⟨heq, hg'⟩ | ⟨t, e, ht, hg'⟩
  · rw [hg] at hg'
    rw [(Prod.mk.inj hg').1, heq]
    exact decide_eq_false fun hc => hc.1 (charAt_of_le le_rfl)
  · rw [hg] at hg'
    have hne : charAt str (Sh.skipSpace str s) ≠ 0 := fun hc =>
      absurd ((charAt_eq_zero_iff hz).mp hc) (not_le.mpr (ht.lt.trans_le ht.le))
    rw [(Prod.mk.inj hg').1, Option.any_some, ht.starts toks hsub]
    exact decide_eq_decide.mpr (and_iff_right hne)

theorem isWord_of_mem (hz : 0 ∉ str) {w : Span} (hs : s ≤ str.length)
    (hw : .word w ∈ tokensFrom str n s) : IsWord str w := by
  induction n generalizing s with
  | zero => exact absurd hw List.not_mem_nil
  | succ n ih =>
    rcases gettoken_spec hz hs with ⟨-, hg⟩ | ⟨t, e, ht, hg⟩
    · rw [tokensFrom_none hg] at hw
      exact absurd hw List.not_mem_nil
    · unfold tokensFrom at hw
      rw [hg] at hw
      rcases List.mem_cons.mp hw with heq | hw
      · exact ht.word w heq.symm
      · exact ih (skipSpace_le ht.le) hw

end Xv6.Sh
