import Xv6.Sh.Parse

/-!
# The strings of a command

`parseexec` keeps its arguments in the arrays of a `struct execcmd`, and `nulterminate` follows them
up to the null pointer. Here the arrays are written and read as in the source.
-/

namespace Xv6.Sh

open Function

abbrev Cells := ℕ → Option Span

/-- The writes of `parseexec` from `argc` on; `none` if it panics or leaves the arrays. -/
def fill : List Span → ℕ → Cells → Option Cells
  | [], argc, a => if argc < MAXARGS then some (update a argc none) else none
  | w :: ws, argc, a =>
    if argc < MAXARGS then
      -- panic("too many args")
      if MAXARGS ≤ argc + 1 then none else fill ws (argc + 1) (update a argc (some w))
    else none

def terminate (a : Cells) (i : ℕ) (buf : ℕ → UInt8) : Option (ℕ → UInt8) :=
  if i < MAXARGS then
    match a i with
    | some w => terminate a (i + 1) (update buf w.eq 0)
    | none => some buf
  else none
termination_by MAXARGS - i

def nulterminateCells : Cmd Span → (ℕ → UInt8) → Option (ℕ → UInt8)
  | .exec argv, buf => (fill argv 0 fun _ => none).bind fun a => terminate a 0 buf
  | .redir cmd file _ _, buf => (nulterminateCells cmd buf).map fun buf => update buf file.eq 0
  | .pipe left right, buf | .list left right, buf =>
    (nulterminateCells left buf).bind (nulterminateCells right)
  | .back cmd, buf => nulterminateCells cmd buf

def Cmd.simples {W : Type} : Cmd W → List (List W)
  | .exec argv => [argv]
  | .redir cmd _ _ _ => cmd.simples
  | .pipe left right | .list left right => left.simples ++ right.simples
  | .back cmd => cmd.simples

/-! ## Filling and following the arrays -/

theorem fill_eq {ws : List Span} (argc : ℕ) (h : argc + ws.length < MAXARGS) (a : Cells) :
    ∃ a', fill ws argc a = some a' ∧ (∀ i < argc, a' i = a i) ∧
      ∀ i ≤ ws.length, a' (argc + i) = ws[i]? := by
  induction ws generalizing argc a with
  | nil =>
    refine ⟨update a argc none, if_pos h, fun i hi => update_of_ne hi.ne .., fun i hi => ?_⟩
    obtain rfl := Nat.le_zero.mp hi
    exact update_self ..
  | cons w ws ih =>
    rw [List.length_cons] at h
    obtain ⟨a', hfill, hbelow, hcells⟩ := ih (argc + 1) (by omega) (update a argc (some w))
    refine ⟨a', ?_, fun i hi => ?_, fun i hi => ?_⟩
    · rw [fill, if_pos (by omega), if_neg (by omega), hfill]
    · rw [hbelow i (by omega), update_of_ne hi.ne]
    · cases i with
      | zero => exact (hbelow argc (by omega)).trans (update_self ..)
      | succ i =>
        rw [List.getElem?_cons_succ, ← hcells i (Nat.le_of_succ_le_succ hi),
          Nat.succ_add_eq_add_succ]

theorem terminate_eq {a : Cells} {ws : List Span} {i : ℕ} (h : i + ws.length < MAXARGS)
    (ha : ∀ k ≤ ws.length, a (i + k) = ws[k]?) (buf : ℕ → UInt8) :
    terminate a i buf = some (ws.foldl (fun buf w => update buf w.eq 0) buf) := by
  induction ws generalizing i buf with
  | nil =>
    have hnull : a i = none := ha 0 le_rfl
    rw [terminate, if_pos (by exact h), hnull]
    rfl
  | cons w ws ih =>
    rw [List.length_cons] at h
    have hcell : a i = some w := ha 0 (Nat.zero_le _)
    rw [terminate, if_pos (by omega), hcell]
    refine ih (by omega) (fun k hk => ?_) _
    rw [Nat.succ_add_eq_add_succ]
    exact ha (k + 1) (Nat.succ_le_succ hk)

theorem nulterminateCells_eq {c : Cmd Span} (h : ∀ argv ∈ c.simples, argv.length < MAXARGS)
    (buf : ℕ → UInt8) : nulterminateCells c buf = some (nulterminate c buf) := by
  induction c generalizing buf with
  | exec argv =>
    have hlen : 0 + argv.length < MAXARGS := by
      rw [Nat.zero_add]
      exact h argv List.mem_cons_self
    obtain ⟨a, hfill, -, ha⟩ := fill_eq 0 hlen fun _ => none
    rw [nulterminateCells, hfill, Option.bind_some, terminate_eq hlen ha]
    rfl
  | redir cmd file mode fd ih =>
    rw [nulterminateCells, ih h]
    rfl
  | pipe left right ih ih' | list left right ih ih' =>
    rw [nulterminateCells, ih fun argv hm => h argv (List.mem_append_left _ hm), Option.bind_some,
      ih' fun argv hm => h argv (List.mem_append_right _ hm)]
    rfl
  | back cmd ih => exact ih h buf

/-! ## The parser's trees -/

theorem simples_wrap (rs : List (Token × Span)) (cmd : Cmd Span) :
    (wrap rs cmd).simples = cmd.simples := by
  induction rs generalizing cmd with
  | nil => rfl
  | cons r rs ih =>
    obtain ⟨t, w⟩ := r
    refine (ih (redirTo (some t) cmd w)).trans ?_
    cases t <;> rfl

theorem simples_back (k : ℕ) (cmd : Cmd Span) : (Cmd.back^[k] cmd).simples = cmd.simples := by
  induction k generalizing cmd with
  | zero => rfl
  | succ k ih => exact ih (.back cmd)

theorem Derives.argv_lt {X : Phrase} {ts : List Token} {c : Cmd Span} (h : Derives X ts c) :
    ∀ argv ∈ c.simples, argv.length < MAXARGS := by
  induction h with
  | block _ _ ih => rwa [simples_wrap]
  | simple _ _ hlen =>
    intro argv hm
    rw [simples_wrap] at hm
    obtain rfl := List.mem_singleton.mp hm
    exact Nat.lt_of_le_pred (by decide) hlen
  | pipeOne _ ih => exact ih
  | pipeMore _ _ ih ih' => exact List.forall_mem_append.mpr ⟨ih, ih'⟩
  | lineOne k _ ih => rwa [simples_back]
  | lineMore k _ _ ih ih' =>
    refine List.forall_mem_append.mpr ⟨?_, ih'⟩
    rwa [simples_back]

/-- **Every token is preserved.** The tree of a line that `parsecmd` accepts has the words of the
line as its arguments and file names, and each of them, read as a string, is its text; the arguments
of a simple command stand in its array with a null pointer behind them. -/
theorem tokens_preserved (str : List UInt8) (hz : 0 ∉ str) : ∃ n₀, ∀ n ≥ n₀, ∀ c buf,
    parsecmd n str = .ok (c, buf) →
    nulterminateCells c (charAt str) = some buf ∧
    (∀ w, w ∈ c.words ↔ .word w ∈ tokens str 0) ∧
    (∀ w ∈ c.words, Reads str buf w) ∧
    ∀ argv ∈ c.simples, argv.length < MAXARGS ∧
      ∃ a, fill argv 0 (fun _ => none) = some a ∧ ∀ i ≤ argv.length, a i = argv[i]? := by
  refine ⟨enough .line (tokens str 0).length, fun n hn c buf hc => ?_⟩
  obtain ⟨hd, rfl⟩ := parsecmd_ok hz hn hc
  have hlen := hd.argv_lt
  have hword : ∀ w ∈ c.words, IsWord str w := fun w hw =>
    isWord_of_mem hz (Nat.zero_le _) (hd.mem_words.mp hw)
  refine ⟨nulterminateCells_eq hlen _, fun w => hd.mem_words,
    fun w hw => nulterminate_reads hword hw, fun argv hm => ⟨hlen argv hm, ?_⟩⟩
  obtain ⟨a, hfill, -, ha⟩ := fill_eq 0 (by rw [Nat.zero_add]; exact hlen argv hm) fun _ => none
  exact ⟨a, hfill, fun i hi => by rw [← ha i hi, Nat.zero_add]⟩

/-- The line `a<b`, where the words touch the operator, is accepted, and both words are kept. -/
theorem tokens_preserved_touching : ∃ n₀, ∀ n ≥ n₀, ∃ c buf,
    parsecmd n [ch 'a', ch '<', ch 'b'] = .ok (c, buf) ∧ c.words = [⟨0, 1⟩, ⟨2, 3⟩] ∧
    Reads [ch 'a', ch '<', ch 'b'] buf ⟨0, 1⟩ ∧ Reads [ch 'a', ch '<', ch 'b'] buf ⟨2, 3⟩ := by
  have htok : tokens [ch 'a', ch '<', ch 'b'] 0 = [.word ⟨0, 1⟩, .less, .word ⟨2, 3⟩] := by
    decide
  have hd : Derives .line (tokens [ch 'a', ch '<', ch 'b'] 0)
      (.redir (.exec [⟨0, 1⟩]) ⟨2, 3⟩ O_RDONLY 0) := by
    rw [htok]
    exact .lineOne 0 (.pipeOne (.simple .nil (.cons (.cons (.inl rfl) .nil) .nil) (by decide)))
  obtain ⟨n₀, h⟩ := tokens_preserved [ch 'a', ch '<', ch 'b'] (by decide)
  refine ⟨max n₀ (enough .line (tokens [ch 'a', ch '<', ch 'b'] 0).length), fun n hn => ?_⟩
  have hc := parsecmd_complete (by decide) ((le_max_right _ _).trans hn) hd
  obtain ⟨-, -, hreads, -⟩ := h n ((le_max_left _ _).trans hn) _ _ hc
  exact ⟨_, _, hc, rfl, hreads _ List.mem_cons_self,
    hreads _ (List.mem_cons_of_mem _ List.mem_cons_self)⟩

end Xv6.Sh
