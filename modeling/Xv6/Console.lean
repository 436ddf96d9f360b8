import Xv6.Lib.Lts

/-!
# The console's line discipline

`console.c` between the keyboard and `consoleread`, for any number of readers. A section under
`cons.lock` is one step: a call of `consoleintr` with all the characters it gets, or a stretch of
`consoleread` from where it acquires the lock to where it sleeps or returns. A reader goes on at any
time after it went to sleep.

1. `Input` and the code on it, with indices that are `uint`s.
2. `Line`: what the console is for, a line being edited and a list of committed characters of which
   the first `taken` have been read. It has no indices.
3. `Shows i l`: the buffer `i` holds the characters of `l`. Typing and reading keep it and give the
   same results (`Shows.typed`, `Shows.read`), so every run of the code is a run of the
   line discipline.
4. `line_discipline`.
-/

namespace Xv6.Console

open Function

def INPUT_BUF : ℕ := 128

def C (x : Char) : UInt8 := UInt8.ofNat (x.toNat - 64)

def NL : UInt8 := 10

def CR : UInt8 := 13

def DEL : UInt8 := 0x7f

def cook (c : UInt8) : UInt8 := if c = CR then NL else c

inductive Outcome
  | sleep (n : ℕ)
  | ret (r : ℤ)
  deriving DecidableEq

/-! ## The code -/

structure Input where
  buf : ℕ → UInt8
  r : ℕ
  w : ℕ
  e : ℕ

namespace Input

def zero : Input := ⟨fun _ => 0, 0, 0, 0⟩

def put (i : Input) (c : UInt8) : Input :=
  { i with buf := update i.buf (i.e % INPUT_BUF) c, e := (i.e + 1) % 2 ^ 32 }

def unput (i : Input) : Input := { i with e := (i.e + (2 ^ 32 - 1)) % 2 ^ 32 }

def commit (i : Input) : Input := { i with w := i.e }

def front (i : Input) : UInt8 := i.buf (i.r % INPUT_BUF)

def skip (i : Input) : Input := { i with r := (i.r + 1) % 2 ^ 32 }

def unskip (i : Input) : Input := { i with r := (i.r + (2 ^ 32 - 1)) % 2 ^ 32 }

/-- The loop of control-U; the fuel is `input.e - input.w`, the most iterations it can make. -/
def killLine : ℕ → Input → Input
  | 0, i => i
  | n + 1, i =>
    if i.e ≠ i.w ∧ i.buf ((i.e + (2 ^ 32 - 1)) % 2 ^ 32 % INPUT_BUF) ≠ NL then killLine n i.unput
    else i

def typed (i : Input) (c : UInt8) : Input :=
  if c = C 'P' then i
  else if c = C 'U' then killLine ((i.e + (2 ^ 32 - i.w)) % 2 ^ 32) i
  else if c = C 'H' ∨ c = DEL then if i.e ≠ i.w then i.unput else i
  else if c ≠ 0 ∧ (i.e + (2 ^ 32 - i.r)) % 2 ^ 32 < INPUT_BUF then
    if cook c = NL ∨ cook c = C 'D' ∨ (i.put (cook c)).e = (i.r + INPUT_BUF) % 2 ^ 32 then
      (i.put (cook c)).commit
    else i.put (cook c)
  else i

/-- A stretch of `consoleread` with `n` characters still to read of the `target` asked for: the
buffer after it, the characters it stored at `dst`, and how it ends. -/
def read (killed : Bool) (target : ℕ) : ℕ → Input → Input × List UInt8 × Outcome
  | 0, i => (i, [], .ret target)
  | n + 1, i =>
    if i.r = i.w then (i, [], if killed then .ret (-1) else .sleep (n + 1))
    else if i.front = C 'D' then
      -- Save ^D for next time, to make sure the caller gets a 0-byte result.
      (if n + 1 < target then i.skip.unskip else i.skip, [], .ret (target - (n + 1 : ℕ)))
    else if i.front = NL then (i.skip, [i.front], .ret (target - n))
    else
      let rest := read killed target n i.skip
      (rest.1, i.front :: rest.2.1, rest.2.2)

end Input

/-! ## The line discipline -/

structure Line where
  committed : List UInt8
  taken : ℕ
  line : List UInt8

namespace Line

def empty : Line := ⟨[], 0, []⟩

def unread (l : Line) : List UInt8 := l.committed.drop l.taken

def used (l : Line) : ℕ := l.unread.length + l.line.length

def skip (l : Line) : Line := { l with taken := l.taken + 1 }

def typed (l : Line) (c : UInt8) : Line :=
  if c = C 'P' then l
  else if c = C 'U' then { l with line := [] }
  else if c = C 'H' ∨ c = DEL then { l with line := l.line.dropLast }
  else if c ≠ 0 ∧ l.used < INPUT_BUF then
    if cook c = NL ∨ cook c = C 'D' ∨ l.used + 1 = INPUT_BUF then
      { l with committed := l.committed ++ (l.line ++ [cook c]), line := [] }
    else { l with line := l.line ++ [cook c] }
  else l

def read (killed : Bool) (target : ℕ) : ℕ → Line → Line × List UInt8 × Outcome
  | 0, l => (l, [], .ret target)
  | n + 1, l =>
    match l.unread with
    | [] => (l, [], if killed then .ret (-1) else .sleep (n + 1))
    | c :: _ =>
      if c = C 'D' then
        (if n + 1 < target then l else l.skip, [], .ret (target - (n + 1 : ℕ)))
      else if c = NL then (l.skip, [c], .ret (target - n))
      else
        let rest := read killed target n l.skip
        (rest.1, c :: rest.2.1, rest.2.2)

end Line

/-! ## Runs -/

structure Device (σ : Type) where
  typed : σ → UInt8 → σ
  read : Bool → ℕ → ℕ → σ → σ × List UInt8 × Outcome

def code : Device Input := ⟨Input.typed, Input.read⟩

def discipline : Device Line := ⟨Line.typed, Line.read⟩

structure Event (P : Type) where
  reader : P
  bytes : List UInt8
  outcome : Outcome

/-- The device, the readers inside of a call (what they ask for and what is still to come), and what
has happened so far. -/
structure State (σ P : Type) where
  dev : σ
  reading : P → Option (ℕ × ℕ)
  events : List (Event P)

/-- `consoleintr` gets the characters `cs`; a process calls `consoleread`; a reader goes on, and
finds itself killed or not. -/
inductive Label (P : Type)
  | intr (cs : List UInt8)
  | call (p : P) (n : ℤ)
  | go (p : P) (killed : Bool)

def start {σ : Type} (P : Type) (d : σ) : State σ P := ⟨d, fun _ => none, []⟩

def Outcome.reading (target : ℕ) : Outcome → Option (ℕ × ℕ)
  | .sleep n => some (target, n)
  | .ret _ => none

section Step

variable {σ P : Type} [DecidableEq P]

def State.after (D : Device σ) (s : State σ P) (p : P) (killed : Bool) (target n : ℕ) :
    State σ P :=
  let r := D.read killed target n s.dev
  { dev := r.1
    reading := update s.reading p (r.2.2.reading target)
    events := s.events ++ [⟨p, r.2.1, r.2.2⟩] }

def step (D : Device σ) (s : State σ P) : Label P → Option (State σ P)
  | .intr cs => some { s with dev := cs.foldl D.typed s.dev }
  | .call p n =>
    match s.reading p with
    | none => some { s with reading := update s.reading p (some (n.toNat, n.toNat)) }
    | some _ => none
  | .go p killed =>
    match s.reading p with
    | none => none
    | some (target, n) => some (s.after D p killed target n)

structure Alike {τ : Type} (R : σ → τ → Prop) (s : State σ P) (a : State τ P) : Prop where
  dev : R s.dev a.dev
  reading : a.reading = s.reading
  events : a.events = s.events

theorem Alike.step {τ : Type} {D : Device σ} {D' : Device τ} {R : σ → τ → Prop}
    (htyped : ∀ i l c, R i l → R (D.typed i c) (D'.typed l c))
    (hread : ∀ i l k t n, R i l → R (D.read k t n i).1 (D'.read k t n l).1 ∧
      (D.read k t n i).2 = (D'.read k t n l).2)
    (s s' : State σ P) (a : State τ P) (x : Label P) (h : Alike R s a)
    (hs : Console.step D s x = some s') : ∃ a', Console.step D' a x = some a' ∧ Alike R s' a' := by
  cases x with
  | intr cs =>
    have hfold : ∀ i l, R i l → R (cs.foldl D.typed i) (cs.foldl D'.typed l) := by
      clear hs
      induction cs with
      | nil => exact fun _ _ h => h
      | cons c cs ih => exact fun i l h => ih _ _ (htyped i l c h)
    cases hs
    exact ⟨_, rfl, hfold _ _ h.dev, h.reading, h.events⟩
  | call p n =>
    simp only [Console.step] at hs
    split at hs
    next hp =>
      cases hs
      have hstep : Console.step D' a (.call p n) =
          some { a with reading := update a.reading p (some (n.toNat, n.toNat)) } := by
        simp only [Console.step, h.reading, hp]
      exact ⟨_, hstep, h.dev, by simp only [h.reading], h.events⟩
    next => cases hs
  | go p killed =>
    simp only [Console.step] at hs
    split at hs
    next => cases hs
    next target n hp =>
      cases hs
      obtain ⟨hdev, heq⟩ := hread s.dev a.dev killed target n h.dev
      have hstep : Console.step D' a (.go p killed) = some (a.after D' p killed target n) := by
        simp only [Console.step, h.reading, hp]
      refine ⟨_, hstep, hdev, ?_, ?_⟩
      · simp only [State.after, heq, h.reading]
      · simp only [State.after, heq, h.events]

end Step

/-! ## The buffer shows the line -/

structure Holds (i : Input) (l : Line) : Prop where
  taken_le : l.taken ≤ l.committed.length
  r : i.r = l.taken % 2 ^ 32
  w : i.w = l.committed.length % 2 ^ 32
  e : i.e = (l.committed.length + l.line.length) % 2 ^ 32
  used_le : l.committed.length + l.line.length ≤ l.taken + INPUT_BUF
  cell : ∀ k c, l.taken ≤ k → (l.committed ++ l.line)[k]? = some c → i.buf (k % INPUT_BUF) = c

structure Shows (i : Input) (l : Line) : Prop extends Holds i l where
  full : l.committed.length + l.line.length = l.taken + INPUT_BUF → l.line = []
  plain : NL ∉ l.line

theorem Line.used_eq {l : Line} (h : l.taken ≤ l.committed.length) :
    l.used + l.taken = l.committed.length + l.line.length := by
  unfold Line.used Line.unread
  rw [List.length_drop]
  omega

theorem shows_zero : Shows Input.zero Line.empty where
  taken_le := le_rfl
  r := rfl
  w := rfl
  e := rfl
  used_le := by decide
  cell := fun k c _ h => by simp [Line.empty] at h
  full := fun _ => rfl
  plain := List.not_mem_nil

namespace Holds

variable {i : Input} {l : Line}

theorem empty_iff (h : Holds i l) : i.r = i.w ↔ l.unread = [] := by
  have h1 := h.taken_le
  have h2 := h.used_le
  rw [h.r, h.w, Line.unread, List.drop_eq_nil_iff]
  simp only [INPUT_BUF] at h2
  omega

theorem editing_iff (h : Holds i l) : i.e ≠ i.w ↔ l.line ≠ [] := by
  have h1 := h.taken_le
  have h2 := h.used_le
  rw [h.e, h.w, ← List.length_pos_iff]
  simp only [INPUT_BUF] at h2
  omega

theorem sub_w (h : Holds i l) : (i.e + (2 ^ 32 - i.w)) % 2 ^ 32 = l.line.length := by
  have h1 := h.taken_le
  have h2 := h.used_le
  rw [h.e, h.w]
  simp only [INPUT_BUF] at h2
  omega

theorem sub_r (h : Holds i l) : (i.e + (2 ^ 32 - i.r)) % 2 ^ 32 = l.used := by
  have h1 := Line.used_eq h.taken_le
  have h2 := h.used_le
  rw [h.e, h.r]
  simp only [INPUT_BUF] at h2
  omega

theorem front (h : Holds i l) {c : UInt8} {cs : List UInt8} (hc : l.unread = c :: cs) :
    i.front = c := by
  have hk : l.committed[l.taken]? = some c := by
    have := congrArg (·[0]?) hc
    simpa only [Line.unread, List.getElem?_drop, Nat.add_zero, List.getElem?_cons_zero] using this
  have hlt : l.taken < l.committed.length := (List.getElem?_eq_some_iff.mp hk).1
  have := h.cell l.taken c le_rfl (by rw [List.getElem?_append_left hlt, hk])
  rw [Input.front, h.r, ← this, Nat.mod_mod_of_dvd _ (by decide : INPUT_BUF ∣ 2 ^ 32)]

theorem last (h : Holds i l) (hl : l.line ≠ []) :
    i.buf ((i.e + (2 ^ 32 - 1)) % 2 ^ 32 % INPUT_BUF) = l.line.getLast hl := by
  have hpos := List.length_pos_iff.mpr hl
  have hidx : (i.e + (2 ^ 32 - 1)) % 2 ^ 32 % INPUT_BUF =
      (l.committed.length + (l.line.length - 1)) % INPUT_BUF := by
    rw [h.e]
    simp only [INPUT_BUF]
    omega
  rw [hidx]
  refine h.cell _ _ (h.taken_le.trans (Nat.le_add_right _ _)) ?_
  rw [List.getElem?_append_right (Nat.le_add_right _ _), Nat.add_sub_cancel_left,
    ← List.getLast?_eq_getElem?, List.getLast?_eq_some_getLast hl]

theorem unput (h : Holds i l) (hl : l.line ≠ []) :
    Holds i.unput { l with line := l.line.dropLast } := by
  have hpos := List.length_pos_iff.mpr hl
  have hlen : l.line.dropLast.length = l.line.length - 1 := List.length_dropLast
  unfold Input.unput
  refine ⟨h.taken_le, h.r, h.w, ?_, ?_, fun k c hk hc => h.cell k c hk ?_⟩
  · show (i.e + (2 ^ 32 - 1)) % 2 ^ 32 = (l.committed.length + l.line.dropLast.length) % 2 ^ 32
    rw [h.e, hlen]
    omega
  · have := h.used_le
    show l.committed.length + l.line.dropLast.length ≤ l.taken + INPUT_BUF
    omega
  · -- the characters that stay are a beginning of those there were
    have hlt := (List.getElem?_eq_some_iff.mp hc).1
    rw [← List.dropLast_append_getLast hl, ← List.append_assoc, List.getElem?_append_left hlt]
    exact hc

theorem put (h : Holds i l) (c : UInt8) (hroom : l.used < INPUT_BUF) :
    Holds (i.put c) { l with line := l.line ++ [c] } := by
  have hused := Line.used_eq h.taken_le
  have hlen : (l.line ++ [c]).length = l.line.length + 1 := List.length_append
  refine ⟨h.taken_le, h.r, h.w, ?_, ?_, fun k c' hk hc => ?_⟩
  · show (i.e + 1) % 2 ^ 32 = (l.committed.length + (l.line ++ [c]).length) % 2 ^ 32
    rw [h.e, hlen]
    omega
  · show l.committed.length + (l.line ++ [c]).length ≤ l.taken + INPUT_BUF
    omega
  · replace hk : l.taken ≤ k := hk
    show update i.buf (i.e % INPUT_BUF) c (k % INPUT_BUF) = c'
    have hcell : i.e % INPUT_BUF = (l.committed ++ l.line).length % INPUT_BUF := by
      rw [h.e, List.length_append, Nat.mod_mod_of_dvd _ (by decide : INPUT_BUF ∣ 2 ^ 32)]
    replace hc : (l.committed ++ (l.line ++ [c]))[k]? = some c' := hc
    rw [← List.append_assoc] at hc
    rcases lt_or_ge k (l.committed ++ l.line).length with hlt | hge
    · -- an older character lies in another cell
      rw [List.getElem?_append_left hlt] at hc
      rw [update_of_ne, h.cell k c' hk hc]
      rw [hcell]
      rw [List.length_append] at hlt ⊢
      simp only [INPUT_BUF] at hroom ⊢
      omega
    · rw [List.getElem?_append_right hge, List.getElem?_singleton] at hc
      split at hc
      next hz =>
        have hk : k = (l.committed ++ l.line).length := by omega
        rw [hk, hcell, update_self, Option.some.inj hc]
      next => cases hc

theorem commit (h : Holds i l) :
    Holds i.commit { l with committed := l.committed ++ l.line, line := [] } := by
  have hlen : (l.committed ++ l.line).length = l.committed.length + l.line.length :=
    List.length_append
  refine ⟨?_, h.r, ?_, ?_, ?_, fun k c hk hc => h.cell k c hk ?_⟩
  · show l.taken ≤ (l.committed ++ l.line).length
    have := h.taken_le
    omega
  · show i.e = (l.committed ++ l.line).length % 2 ^ 32
    rw [hlen, h.e]
  · show i.e = ((l.committed ++ l.line).length + 0) % 2 ^ 32
    rw [Nat.add_zero, hlen, h.e]
  · show (l.committed ++ l.line).length + 0 ≤ l.taken + INPUT_BUF
    have := h.used_le
    omega
  · rw [← hc]
    show _ = ((l.committed ++ l.line) ++ [])[k]?
    rw [List.append_nil]

theorem skip (h : Holds i l) (hl : l.unread ≠ []) : Holds i.skip l.skip := by
  have hlt : l.taken < l.committed.length := by
    by_contra hge
    exact hl (List.drop_eq_nil_iff.mpr (not_lt.mp hge))
  refine ⟨hlt, ?_, h.w, h.e, ?_, fun k c hk hc => h.cell k c ?_ hc⟩
  · show (i.r + 1) % 2 ^ 32 = (l.taken + 1) % 2 ^ 32
    rw [h.r]
    omega
  · exact h.used_le.trans (Nat.add_le_add_right (Nat.le_succ _) _)
  · exact (Nat.le_succ _).trans hk

theorem unskip_skip (h : Holds i l) : i.skip.unskip = i := by
  have hr : ((i.r + 1) % 2 ^ 32 + (2 ^ 32 - 1)) % 2 ^ 32 = i.r := by
    rw [h.r]
    omega
  unfold Input.unskip Input.skip
  rw [hr]

end Holds

namespace Shows

variable {i : Input} {l : Line}

theorem unput (h : Shows i l) (hl : l.line ≠ []) :
    Shows i.unput { l with line := l.line.dropLast } := by
  refine ⟨h.toHolds.unput hl, fun hfull => ?_, fun hn => h.plain (List.mem_of_mem_dropLast hn)⟩
  have hpos := List.length_pos_iff.mpr hl
  have hle := h.used_le
  replace hfull : l.committed.length + l.line.dropLast.length = l.taken + INPUT_BUF := hfull
  rw [List.length_dropLast] at hfull
  omega

theorem killLine (n : ℕ) {i : Input} {l : Line} (h : Shows i l) (hn : l.line.length = n) :
    Shows (i.killLine n) { l with line := [] } := by
  induction n generalizing i l with
  | zero =>
    obtain ⟨committed, taken, line⟩ := l
    obtain rfl : line = [] := List.length_eq_zero_iff.mp hn
    exact h
  | succ n ih =>
    have hl : l.line ≠ [] := List.length_pos_iff.mp (by omega)
    have hlast : l.line.getLast hl ≠ NL := fun hc => h.plain (hc ▸ List.getLast_mem hl)
    unfold Input.killLine
    rw [if_pos ⟨h.editing_iff.mpr hl, by rwa [h.last hl]⟩]
    have hlen : l.line.dropLast.length = n := by rw [List.length_dropLast, hn, Nat.add_sub_cancel]
    have h' := ih (h.unput hl) hlen
    exact h'

theorem put (h : Shows i l) {c : UInt8} (hroom : l.used < INPUT_BUF)
    (hc : ¬ (c = NL ∨ c = C 'D' ∨ l.used + 1 = INPUT_BUF)) :
    Shows (i.put c) { l with line := l.line ++ [c] } := by
  refine ⟨h.toHolds.put c hroom, fun hfull => ?_, fun hn => ?_⟩
  · have hused := Line.used_eq h.taken_le
    replace hfull : l.committed.length + (l.line ++ [c]).length = l.taken + INPUT_BUF := hfull
    rw [List.length_append, List.length_singleton] at hfull
    exact absurd (Or.inr (Or.inr (by omega))) hc
  · rcases List.mem_append.mp hn with hn | hn
    · exact h.plain hn
    · exact hc (.inl (List.mem_singleton.mp hn).symm)

theorem typed (h : Shows i l) (c : UInt8) : Shows (i.typed c) (l.typed c) := by
  unfold Input.typed Line.typed
  by_cases hP : c = C 'P'
  · rw [if_pos hP, if_pos hP]
    exact h
  rw [if_neg hP, if_neg hP]
  by_cases hU : c = C 'U'
  · rw [if_pos hU, if_pos hU, h.sub_w]
    exact h.killLine _ rfl
  rw [if_neg hU, if_neg hU]
  by_cases hH : c = C 'H' ∨ c = DEL
  · rw [if_pos hH, if_pos hH]
    by_cases hl : l.line = []
    · rw [if_neg (fun hne => h.editing_iff.mp hne hl)]
      obtain ⟨committed, taken, line⟩ := l
      obtain rfl : line = [] := hl
      exact h
    · rw [if_pos (h.editing_iff.mpr hl)]
      exact h.unput hl
  rw [if_neg hH, if_neg hH, h.sub_r]
  by_cases hroom : c ≠ 0 ∧ l.used < INPUT_BUF
  · rw [if_pos hroom, if_pos hroom]
    have hput := h.toHolds.put (cook c) hroom.2
    -- the test for a full buffer, on indices and on lengths
    have hfull : (i.put (cook c)).e = (i.r + INPUT_BUF) % 2 ^ 32 ↔ l.used + 1 = INPUT_BUF := by
      have hused := Line.used_eq h.taken_le
      have hlt := hroom.2
      rw [hput.e, h.r]
      simp only [List.length_append, List.length_singleton, INPUT_BUF] at hlt ⊢
      omega
    simp only [hfull]
    by_cases hend : cook c = NL ∨ cook c = C 'D' ∨ l.used + 1 = INPUT_BUF
    · rw [if_pos hend, if_pos hend]
      exact ⟨hput.commit, fun _ => rfl, List.not_mem_nil⟩
    · rw [if_neg hend, if_neg hend]
      exact h.put hroom.2 hend
  · rw [if_neg hroom, if_neg hroom]
    exact h

theorem skip (h : Shows i l) (hl : l.unread ≠ []) : Shows i.skip l.skip := by
  refine ⟨h.toHolds.skip hl, fun hfull => ?_, h.plain⟩
  have hle := h.used_le
  replace hfull : l.committed.length + l.line.length = l.taken + 1 + INPUT_BUF := hfull
  omega

theorem read (killed : Bool) (target n : ℕ) {i : Input} {l : Line} (h : Shows i l) :
    Shows (i.read killed target n).1 (l.read killed target n).1 ∧
      (i.read killed target n).2 = (l.read killed target n).2 := by
  induction n generalizing i l with
  | zero => exact ⟨h, rfl⟩
  | succ n ih =>
    unfold Input.read Line.read
    cases hu : l.unread with
    | nil =>
      rw [if_pos (h.empty_iff.mpr hu)]
      exact ⟨h, rfl⟩
    | cons c cs =>
      have hne : l.unread ≠ [] := hu ▸ List.cons_ne_nil c cs
      rw [if_neg (fun hr => hne (h.empty_iff.mp hr)), h.front hu, h.unskip_skip]
      by_cases hD : c = C 'D'
      · simp only [if_pos hD]
        by_cases hn : n + 1 < target
        · simp only [if_pos hn]
          exact ⟨h, trivial⟩
        · simp only [if_neg hn]
          exact ⟨h.skip hne, trivial⟩
      simp only [if_neg hD]
      by_cases hnl : c = NL
      · simp only [if_pos hnl]
        exact ⟨h.skip hne, trivial⟩
      simp only [if_neg hnl]
      obtain ⟨h1, h2⟩ := ih (h.skip hne)
      rw [h2]
      exact ⟨h1, rfl⟩

end Shows

/-! ## What is read -/

namespace Line

theorem read_delivers (killed : Bool) (target n : ℕ) (l : Line) :
    (l.read killed target n).1.committed = l.committed ∧
      (l.committed.take (l.read killed target n).1.taken).filter (· ≠ C 'D') =
        (l.committed.take l.taken).filter (· ≠ C 'D') ++ (l.read killed target n).2.1 := by
  induction n generalizing l with
  | zero => exact ⟨rfl, (List.append_nil _).symm⟩
  | succ n ih =>
    unfold read
    cases hu : l.unread with
    | nil => exact ⟨rfl, (List.append_nil _).symm⟩
    | cons c cs =>
      have hstep : l.committed.take (l.taken + 1) = l.committed.take l.taken ++ [c] := by
        have hc : l.committed[l.taken]? = some c := by
          have := congrArg (·[0]?) hu
          simpa only [unread, List.getElem?_drop, Nat.add_zero, List.getElem?_cons_zero] using this
        rw [List.take_add_one, hc, Option.toList_some]
      by_cases hD : c = C 'D'
      · simp only [if_pos hD, List.append_nil]
        by_cases hn : n + 1 < target
        · rw [if_pos hn]
          exact ⟨rfl, rfl⟩
        · rw [if_neg hn, skip, hstep, List.filter_append, hD]
          exact ⟨rfl, List.append_nil _⟩
      have hkeep : (l.committed.take (l.taken + 1)).filter (· ≠ C 'D') =
          (l.committed.take l.taken).filter (· ≠ C 'D') ++ [c] := by
        rw [hstep, List.filter_append, List.filter_singleton, decide_eq_true hD, cond_true]
      simp only [if_neg hD]
      by_cases hnl : c = NL
      · simp only [if_pos hnl]
        exact ⟨rfl, hkeep⟩
      simp only [if_neg hnl]
      obtain ⟨h1, h2⟩ := ih l.skip
      refine ⟨h1, ?_⟩
      rw [show l.skip.committed = l.committed from rfl,
        show l.skip.taken = l.taken + 1 from rfl, hkeep, List.append_assoc] at h2
      exact h2

theorem read_ctrl_d (killed : Bool) (target : ℕ) {n : ℕ} {l : Line} {bs rest : List UInt8}
    (hu : l.unread = bs ++ C 'D' :: rest) (hD : C 'D' ∉ bs) (hnl : NL ∉ bs) (hn : bs.length < n) :
    (l.read killed target n).2 = (bs, .ret (target - (n - bs.length : ℕ))) ∧
      (l.read killed target n).1.unread =
        if n - bs.length < target then C 'D' :: rest else rest := by
  induction bs generalizing n l with
  | nil =>
    obtain ⟨n, rfl⟩ := Nat.exists_eq_succ_of_ne_zero (Nat.pos_iff_ne_zero.mp hn)
    unfold read
    simp only [hu, List.nil_append, if_true, List.length_nil, Nat.sub_zero, true_and]
    split
    · exact hu
    · show l.committed.drop (l.taken + 1) = rest
      rw [← List.drop_drop, ← unread, hu]
      rfl
  | cons c bs ih =>
    obtain ⟨n, rfl⟩ := Nat.exists_eq_succ_of_ne_zero (Nat.ne_zero_of_lt hn)
    obtain ⟨hcD, hD⟩ := not_or.mp (fun h => hD (List.mem_cons.mpr h))
    obtain ⟨hcnl, hnl⟩ := not_or.mp (fun h => hnl (List.mem_cons.mpr h))
    have hskip : l.skip.unread = bs ++ C 'D' :: rest := by
      show l.committed.drop (l.taken + 1) = _
      rw [← List.drop_drop, ← unread, hu]
      rfl
    obtain ⟨h1, h2⟩ := ih hskip hD hnl (Nat.lt_of_succ_lt_succ hn)
    unfold read
    simp only [hu, List.cons_append, if_neg (Ne.symm hcD), if_neg (Ne.symm hcnl), List.length_cons,
      Nat.succ_eq_add_one, Nat.add_sub_add_right, h1, h2, and_self]

def text (l : Line) : List UInt8 := l.committed ++ l.line

theorem typed_text (l : Line) {c : UInt8} (hP : c ≠ C 'P') (hU : c ≠ C 'U') (hH : c ≠ C 'H')
    (hdel : c ≠ DEL) :
    (l.typed c).text = if c = 0 ∨ INPUT_BUF ≤ l.used then l.text else l.text ++ [cook c] := by
  unfold typed text
  rw [if_neg hP, if_neg hU, if_neg (not_or.mpr ⟨hH, hdel⟩)]
  by_cases hroom : c ≠ 0 ∧ l.used < INPUT_BUF
  · rw [if_pos hroom, if_neg (not_or.mpr ⟨hroom.1, not_le.mpr hroom.2⟩)]
    split
    · simp only [List.append_nil, List.append_assoc]
    · simp only [List.append_assoc]
  · have hdrop : c = 0 ∨ INPUT_BUF ≤ l.used := by
      by_contra hc
      obtain ⟨h0, hlt⟩ := not_or.mp hc
      exact hroom ⟨h0, not_le.mp hlt⟩
    rw [if_neg hroom, if_pos hdrop]

theorem typed_committed (l : Line) (c : UInt8) :
    (l.typed c).taken = l.taken ∧ ∃ cs, (l.typed c).committed = l.committed ++ cs := by
  unfold typed
  (repeat' split) <;>
    first
    | exact ⟨rfl, [], (List.append_nil _).symm⟩
    | exact ⟨rfl, _, rfl⟩

theorem foldl_typed_committed (cs : List UInt8) (l : Line) :
    (cs.foldl typed l).taken = l.taken ∧
      ∃ ds, (cs.foldl typed l).committed = l.committed ++ ds := by
  induction cs generalizing l with
  | nil => exact ⟨rfl, [], (List.append_nil _).symm⟩
  | cons c cs ih =>
    obtain ⟨h1, ds, h2⟩ := l.typed_committed c
    obtain ⟨h3, es, h4⟩ := ih (l.typed c)
    exact ⟨h3.trans h1, ds ++ es, by rw [List.foldl_cons, h4, h2, List.append_assoc]⟩

end Line

section Runs

variable {P : Type} [DecidableEq P]

def State.delivered {σ : Type} (s : State σ P) : List UInt8 := s.events.flatMap (·.bytes)

def Delivered (a : State Line P) : Prop :=
  a.delivered = (a.dev.committed.take a.dev.taken).filter (· ≠ C 'D')

theorem Delivered.step {a a' : State Line P} {x : Label P} (h : Delivered a)
    (hle : a.dev.taken ≤ a.dev.committed.length) (ha : step discipline a x = some a') :
    Delivered a' := by
  cases x with
  | intr cs =>
    cases ha
    obtain ⟨h1, ds, h2⟩ := Line.foldl_typed_committed cs a.dev
    show a.delivered = ((cs.foldl Line.typed a.dev).committed.take
      (cs.foldl Line.typed a.dev).taken).filter (· ≠ C 'D')
    rw [h1, h2, List.take_append_of_le_length hle]
    exact h
  | call p n =>
    simp only [Console.step] at ha
    split at ha
    next =>
      cases ha
      exact h
    next => cases ha
  | go p killed =>
    simp only [Console.step] at ha
    split at ha
    next => cases ha
    next target n _ =>
      cases ha
      obtain ⟨h1, h2⟩ := a.dev.read_delivers killed target n
      show (a.events ++ [(⟨p, _, _⟩ : Event P)]).flatMap (·.bytes) =
        ((a.dev.read killed target n).1.committed.take
          (a.dev.read killed target n).1.taken).filter (· ≠ C 'D')
      rw [h1, h2, List.flatMap_append, List.flatMap_singleton]
      exact congrArg (· ++ _) h

structure Lockstep (s : State Input P) (a : State Line P) : Prop extends Alike Shows s a where
  delivered : Delivered a

theorem Lockstep.step (s s' : State Input P) (a : State Line P) (x : Label P) (h : Lockstep s a)
    (hs : Console.step code s x = some s') :
    ∃ a', Console.step discipline a x = some a' ∧ Lockstep s' a' := by
  have hstep : ∃ a', Console.step discipline a x = some a' ∧ Alike Shows s' a' :=
    Alike.step (fun _ _ c h => h.typed c) (fun _ _ k t n h => h.read k t n) s s' a x h.toAlike hs
  obtain ⟨a', ha, halike⟩ := hstep
  exact ⟨a', ha, halike, h.delivered.step h.dev.taken_le ha⟩

/-- **The line discipline.** -/
theorem line_discipline (ls : List (Label P)) (s : State Input P)
    (hs : Lts.run (step code) (start P Input.zero) ls = some s) :
    ∃ a : State Line P, Lts.run (step discipline) (start P Line.empty) ls = some a ∧
      a.reading = s.reading ∧ a.events = s.events ∧
      (∃ m k, s.dev.w = (s.dev.r + m) % 2 ^ 32 ∧ s.dev.e = (s.dev.w + k) % 2 ^ 32 ∧
        m + k ≤ INPUT_BUF) ∧
      (s.dev.e = (s.dev.r + INPUT_BUF) % 2 ^ 32 → s.dev.w = s.dev.e) ∧
      s.delivered = (a.dev.committed.take a.dev.taken).filter (· ≠ C 'D') ∧
      (∀ killed target n bs rest, a.dev.unread = bs ++ C 'D' :: rest → C 'D' ∉ bs → NL ∉ bs →
        bs.length < n →
        (a.dev.read killed target n).2 = (bs, .ret (target - (n - bs.length : ℕ))) ∧
        (a.dev.read killed target n).1.unread =
          if n - bs.length < target then C 'D' :: rest else rest) ∧
      ∀ c, c ≠ C 'P' → c ≠ C 'U' → c ≠ C 'H' → c ≠ DEL →
        (a.dev.typed c).text =
          if c = 0 ∨ (s.dev.e + (2 ^ 32 - s.dev.r)) % 2 ^ 32 = INPUT_BUF then a.dev.text
          else a.dev.text ++ [cook c] := by
  have hstart : Lockstep (start P Input.zero) (start P Line.empty) := ⟨⟨shows_zero, rfl, rfl⟩, rfl⟩
  obtain ⟨a, ha, h⟩ := Lts.run_simulates Lockstep.step hstart hs
  have hshows := h.dev
  have hused := Line.used_eq hshows.taken_le
  have htaken := hshows.taken_le
  have hle := hshows.used_le
  refine ⟨a, ha, h.reading, h.events, ?_, fun hfull => ?_, ?_, ?_, fun c hP hU hH hdel => ?_⟩
  · refine ⟨a.dev.committed.length - a.dev.taken, a.dev.line.length, ?_, ?_, by omega⟩
    · rw [hshows.w, hshows.r]
      omega
    · rw [hshows.e, hshows.w]
      omega
  · have hline := hshows.full (by
      rw [hshows.e, hshows.r] at hfull
      simp only [INPUT_BUF] at hle hfull ⊢
      omega)
    rw [hshows.w, hshows.e, hline, List.length_nil, Nat.add_zero]
  · rw [State.delivered, ← h.events]
    exact h.delivered
  · exact fun killed target n bs rest => Line.read_ctrl_d killed target
  · rw [Line.typed_text _ hP hU hH hdel, hshows.sub_r]
    have hiff : INPUT_BUF ≤ a.dev.used ↔ a.dev.used = INPUT_BUF := by omega
    simp only [hiff]

def session : List (Label Unit) :=
  [.call () 10, .go () false, .intr [97, 98, C 'H', 99, CR], .go () false,
    .intr [120, C 'D'], .call () 10, .go () false, .call () 10, .go () false]

/-- The calls get the line `ac`, then `x`, then nothing. -/
theorem line_discipline_session :
    ∃ s : State Input Unit, Lts.run (step code) (start Unit Input.zero) session = some s ∧
      s.events.map (·.outcome) = [.sleep 10, .ret 3, .ret 1, .ret 0] ∧
      s.delivered = [97, 99, NL, 120] ∧
      ∃ a : State Line Unit,
        Lts.run (step discipline) (start Unit Line.empty) session = some a ∧
        s.delivered = (a.dev.committed.take a.dev.taken).filter (· ≠ C 'D') := by
  obtain ⟨s, hs, _, hq⟩ := Lts.exists_reach (step code)
    (start Unit Input.zero) session
    (fun s => decide (s.events.map (·.outcome) = [.sleep 10, .ret 3, .ret 1, .ret 0] ∧
      s.delivered = [97, 99, NL, 120])) (by decide +kernel) (Lts.RunOk.trivial _ _)
  obtain ⟨hout, hdel⟩ := of_decide_eq_true hq
  obtain ⟨a, ha, _, _, _, _, h, _⟩ := line_discipline session s hs
  exact ⟨s, hs, hout, hdel, a, ha, h⟩

end Runs

end Xv6.Console
