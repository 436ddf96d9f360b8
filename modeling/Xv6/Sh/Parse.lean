import Xv6.Lib.StateExcept
import Xv6.Param
import Xv6.Sh.Token

/-!
# The shell's parser

`parsecmd` of `sh.c`: recursive procedures that share a cursor into the line, and `nulterminate`,
which cuts the line into strings.

1. `Cmd` and the code. The bound `n` on nested calls and loop iterations is for Lean only: four per
   token are enough.
2. The grammar of command lines, `Derives`, which says for each sentence which tree it denotes.
3. What a procedure returns is derived from the tokens it has consumed (`parse_sound`), and on a
   sentence that is followed by one of the tokens that may follow it, it returns the tree
   (`parse_complete`).
4. After `nulterminate` every word of the tree is a string of its own (`nulterminate_reads`).
5. `parser_exact`.
-/

namespace Xv6.Sh

open StateExcept Function

inductive Cmd (W : Type)
  | exec (argv : List W)
  | redir (cmd : Cmd W) (file : W) (mode fd : ℕ)
  | pipe (left right : Cmd W)
  | list (left right : Cmd W)
  | back (cmd : Cmd W)
  deriving DecidableEq

def MAXARGS : ℕ := 10

inductive ParseError
  | panic (msg : String)
  | fuel
  deriving DecidableEq

abbrev M := StateT ℕ (Except ParseError)

/-! ## The code -/

def Cmd.setArgv {W : Type} (argv : List W) : Cmd W → Cmd W
  | .exec _ => .exec argv
  | .redir cmd file mode fd => .redir (cmd.setArgv argv) file mode fd
  | c => c

def redirTo (tok : Option Token) (cmd : Cmd Span) (file : Span) : Cmd Span :=
  match tok with
  | some .less => .redir cmd file O_RDONLY 0
  | some .greater => .redir cmd file (O_WRONLY ||| O_CREATE) 1
  | some .append => .redir cmd file (O_WRONLY ||| O_CREATE) 1
  | _ => cmd

section Code

variable (str : List UInt8)

def next : M (Option Token) := fun s => .ok (gettoken str s)

def sees (toks : List UInt8) : M Bool := fun s => .ok (peek str toks s)

def parseredirs : ℕ → Cmd Span → M (Cmd Span)
  | 0, _ => throw .fuel
  | n + 1, cmd => do
    if ← sees str [ch '<', ch '>'] then
      let tok ← next str
      match ← next str with
      | some (.word w) => parseredirs n (redirTo tok cmd w)
      | _ => throw (.panic "missing file for redirection")
    else pure cmd

def parsebacks : ℕ → Cmd Span → M (Cmd Span)
  | 0, _ => throw .fuel
  | n + 1, cmd => do
    if ← sees str [ch '&'] then
      let _ ← next str
      parsebacks n (.back cmd)
    else pure cmd

def parseargs : ℕ → List Span → Cmd Span → M (Cmd Span)
  | 0, _, _ => throw .fuel
  | n + 1, argv, ret => do
    if ← sees str [ch '|', ch ')', ch '&', ch ';'] then pure (ret.setArgv argv)
    else
      match ← next str with
      | none => pure (ret.setArgv argv)
      | some (.word w) =>
        if MAXARGS ≤ argv.length + 1 then throw (.panic "too many args")
        else
          let ret ← parseredirs str n ret
          parseargs n (argv ++ [w]) ret
      | some _ => throw (.panic "syntax")

mutual

def parseline : ℕ → M (Cmd Span)
  | 0 => throw .fuel
  | n + 1 => do
    let cmd ← parsepipe n
    let cmd ← parsebacks str n cmd
    if ← sees str [ch ';'] then
      let _ ← next str
      let right ← parseline n
      pure (.list cmd right)
    else pure cmd

def parsepipe : ℕ → M (Cmd Span)
  | 0 => throw .fuel
  | n + 1 => do
    let cmd ← parseexec n
    if ← sees str [ch '|'] then
      let _ ← next str
      let right ← parsepipe n
      pure (.pipe cmd right)
    else pure cmd

def parseexec : ℕ → M (Cmd Span)
  | 0 => throw .fuel
  | n + 1 => do
    if ← sees str [ch '('] then parseblock n
    else
      let ret ← parseredirs str n (.exec [])
      parseargs str n [] ret

def parseblock : ℕ → M (Cmd Span)
  | 0 => throw .fuel
  | n + 1 => do
    if ← sees str [ch '('] then
      let _ ← next str
      let cmd ← parseline n
      if ← sees str [ch ')'] then
        let _ ← next str
        parseredirs str n cmd
      else throw (.panic "syntax - missing )")
    else throw (.panic "parseblock")

end

end Code

def nulterminate : Cmd Span → (ℕ → UInt8) → ℕ → UInt8
  | .exec argv, buf => argv.foldl (fun buf w => update buf w.eq 0) buf
  | .redir cmd file _ _, buf => update (nulterminate cmd buf) file.eq 0
  | .pipe left right, buf => nulterminate right (nulterminate left buf)
  | .list left right, buf => nulterminate right (nulterminate left buf)
  | .back cmd, buf => nulterminate cmd buf

def parsecmd (n : ℕ) (str : List UInt8) : Except ParseError (Cmd Span × (ℕ → UInt8)) := do
  let (cmd, s) ← parseline str n 0
  if (peek str [] s).2 ≠ str.length then throw (.panic "syntax")
  else pure (cmd, nulterminate cmd (charAt str))

/-! ## The grammar -/

def Token.Redir (t : Token) : Prop := t = .less ∨ t = .greater ∨ t = .append

inductive Redirs : List Token → List (Token × Span) → Prop
  | nil : Redirs [] []
  | cons {t : Token} {w : Span} {ts : List Token} {rs : List (Token × Span)} :
      t.Redir → Redirs ts rs →
      Redirs (t :: .word w :: ts) ((t, w) :: rs)

inductive Args : List Token → List Span → List (Token × Span) → Prop
  | nil : Args [] [] []
  | cons {w : Span} {ts us : List Token} {ws : List Span} {rs rs' : List (Token × Span)} :
      Redirs ts rs → Args us ws rs' → Args (.word w :: (ts ++ us)) (w :: ws) (rs ++ rs')

def wrap (rs : List (Token × Span)) (cmd : Cmd Span) : Cmd Span :=
  rs.foldl (fun c r => redirTo (some r.1) c r.2) cmd

inductive Phrase
  | line
  | pipe
  | exec

/-- The tokens are a phrase that denotes the command. -/
inductive Derives : Phrase → List Token → Cmd Span → Prop
  | block {ts us : List Token} {c : Cmd Span} {rs : List (Token × Span)} :
      Derives .line ts c → Redirs us rs →
      Derives .exec (.lparen :: (ts ++ .rparen :: us)) (wrap rs c)
  | simple {ts us : List Token} {ws : List Span} {rs rs' : List (Token × Span)} :
      Redirs ts rs → Args us ws rs' → ws.length ≤ MAXARGS - 1 →
      Derives .exec (ts ++ us) (wrap (rs ++ rs') (.exec ws))
  | pipeOne {ts : List Token} {c : Cmd Span} : Derives .exec ts c → Derives .pipe ts c
  | pipeMore {ts us : List Token} {c d : Cmd Span} :
      Derives .exec ts c → Derives .pipe us d → Derives .pipe (ts ++ .bar :: us) (.pipe c d)
  | lineOne (n : ℕ) {ts : List Token} {c : Cmd Span} :
      Derives .pipe ts c → Derives .line (ts ++ List.replicate n .amp) (Cmd.back^[n] c)
  | lineMore (n : ℕ) {ts us : List Token} {c d : Cmd Span} :
      Derives .pipe ts c → Derives .line us d →
      Derives .line (ts ++ (List.replicate n .amp ++ .semi :: us)) (.list (Cmd.back^[n] c) d)

/-! ## Looking at the next token -/

/-- The result is a panic, if `P` allows one, or a command and a cursor in front of tokens for which
`Q` holds. -/
def Outcome (str : List UInt8) (P : Prop) (Q : Cmd Span → List Token → Prop) :
    Except ParseError (Cmd Span × ℕ) → Prop
  | .ok (c, s) => ∃ us, At str s us ∧ Q c us
  | .error (.panic _) => P
  | .error .fuel => False

def singles : List (Token × UInt8) :=
  [(.amp, ch '&'), (.semi, ch ';'), (.bar, ch '|'), (.lparen, ch '('), (.rparen, ch ')')]

variable {t : Token}

theorem starts_singles {u : Token} {c : UInt8} (h : (t, c) ∈ singles) :
    u.starts [c] = true ↔ u = t := by
  have hall : ∀ x ∈ singles, ∀ v ∈ [Token.bar, .lparen, .rparen, .semi, .amp, .less, .greater,
      .append, .word ⟨0, 0⟩], v.starts [x.2] = true ↔ v = x.1 := by
    decide
  cases u with
  | word w =>
    refine iff_of_false Bool.false_ne_true ?_
    rintro rfl
    simp [singles] at h
  | _ => exact hall _ h _ (by decide)

section Steps

variable {str : List UInt8} {s : ℕ} {ts : List Token} {P : Prop}
  {Q R : Cmd Span → List Token → Prop}

theorem Outcome.mono {r : Except ParseError (Cmd Span × ℕ)} (h : Outcome str P Q r)
    (hQR : ∀ c us, Q c us → R c us) : Outcome str P R r := by
  cases r with
  | ok q =>
    obtain ⟨us, hus, hQ⟩ := h
    exact ⟨us, hus, hQR q.1 us hQ⟩
  | error e => cases e <;> exact h

variable {x : M (Cmd Span)}

theorem Outcome.bind {f : Cmd Span → M (Cmd Span)} (hx : Outcome str P Q (x s))
    (hf : ∀ c s' us, At str s' us → Q c us → Outcome str P R (f c s')) :
    Outcome str P R ((x >>= f) s) := by
  cases hr : x s with
  | ok q =>
    rw [hr] at hx
    obtain ⟨us, hus, hQ⟩ := hx
    rw [bind_eq hr]
    exact hf q.1 q.2 us hus hQ
  | error e =>
    rw [hr] at hx
    rw [bind_error hr]
    cases e <;> exact hx

variable (hz : 0 ∉ str) (h : At str s ts)
include hz h

theorem Outcome.next {f : Option Token → M (Cmd Span)}
    (hf : ∀ s', At str s' ts.tail → Outcome str P R (f ts.head? s')) :
    Outcome str P R ((next str >>= f) s) := by
  obtain ⟨s', hg, hs'⟩ := h.gettoken hz
  rw [bind_eq (congrArg Except.ok hg)]
  exact hf s' hs'

theorem Outcome.sees {toks : List UInt8} (hsub : toks ⊆ symbols) {y : M (Cmd Span)}
    (hx : ∀ s' t us, At str s' ts → ts = t :: us → t.starts toks = true → Outcome str P R (x s'))
    (hy : ∀ s', At str s' ts → (∀ t us, ts = t :: us → t.starts toks = false) →
      Outcome str P R (y s')) :
    Outcome str P R ((do if ← sees str toks then x else y : M (Cmd Span)) s) := by
  obtain ⟨s', hp, hs'⟩ := h.peek hz hsub
  have heq : (Sh.sees str toks >>= fun b => if b then x else y) s =
      (if ts.head?.any (Token.starts toks) then x else y) s' := bind_eq (congrArg Except.ok hp)
  cases ts with
  | nil =>
    exact heq ▸ hy s' hs' nofun
  | cons t us =>
    cases hb : t.starts toks with
    | true =>
      rw [List.head?_cons, Option.any_some, hb] at heq
      exact heq ▸ hx s' t us hs' rfl hb
    | false =>
      rw [List.head?_cons, Option.any_some, hb] at heq
      refine heq ▸ hy s' hs' fun t' us' hts => ?_
      obtain ⟨rfl, -⟩ := List.cons.inj hts
      exact hb

theorem Outcome.take {t : Token} {c : UInt8} (hc : (t, c) ∈ singles) {y : M (Cmd Span)}
    (hx : ∀ s' us, ts = t :: us → At str s' us → Outcome str P R (x s'))
    (hy : ∀ s', At str s' ts → (∀ us, ts ≠ t :: us) → Outcome str P R (y s')) :
    Outcome str P R
      ((do if ← Sh.sees str [c] then let _ ← Sh.next str; x else y : M (Cmd Span)) s) := by
  have hsub : ∀ x ∈ singles, [x.2] ⊆ symbols := by decide
  refine Outcome.sees hz h (hsub _ hc) (fun s1 u us h1 hts hu => ?_) fun s1 h1 hno => ?_
  · obtain rfl := (starts_singles hc).mp hu
    exact Outcome.next hz h1 fun s2 h2 => hx s2 us hts (by rwa [hts] at h2)
  · refine hy s1 h1 fun us hts => ?_
    have := hno t us hts
    rw [(starts_singles hc).mpr rfl] at this
    cases this

end Steps

/-! ## What is returned is derived -/

theorem starts_redir (h : t.starts [ch '<', ch '>'] = true) :
    t = .less ∨ t = .greater ∨ t = .append := by
  cases t <;>
    first
    | exact .inl rfl
    | exact .inr (.inl rfl)
    | exact .inr (.inr rfl)
    | exact absurd h (by decide)
    | exact absurd h Bool.false_ne_true

theorem wrap_append (rs rs' : List (Token × Span)) (cmd : Cmd Span) :
    wrap (rs ++ rs') cmd = wrap rs' (wrap rs cmd) := List.foldl_append

theorem setArgv_wrap (rs : List (Token × Span)) (cmd : Cmd Span) (argv : List Span) :
    (wrap rs cmd).setArgv argv = wrap rs (cmd.setArgv argv) := by
  induction rs generalizing cmd with
  | nil => rfl
  | cons r rs ih =>
    have hone : (redirTo (some r.1) cmd r.2).setArgv argv =
        redirTo (some r.1) (cmd.setArgv argv) r.2 := by
      obtain ⟨t, w⟩ := r
      cases t <;> rfl
    show (wrap rs (redirTo (some r.1) cmd r.2)).setArgv argv = _
    rw [ih, hone]
    rfl

section Sound

variable {str : List UInt8} (hz : 0 ∉ str)
include hz

variable {ts : List Token} {n s : ℕ}

theorem parseredirs_sound (cmd : Cmd Span) (h : At str s ts) (hn : ts.length < n) :
    Outcome str True (fun c us => ∃ ts' rs, ts = ts' ++ us ∧ Redirs ts' rs ∧ c = wrap rs cmd)
      (parseredirs str n cmd s) := by
  induction n generalizing s ts cmd with
  | zero => exact absurd hn (Nat.not_lt_zero _)
  | succ n ih =>
    unfold parseredirs
    refine Outcome.sees hz h (by decide) ?_ fun s1 h1 _ => ⟨ts, h1, [], [], rfl, .nil, rfl⟩
    rintro s1 t us h1 rfl ht
    refine Outcome.next hz h1 fun s2 h2 => Outcome.next hz h2 fun s3 h3 => ?_
    match us, hn, h3 with
    | [], _, _ => trivial
    | .word w :: vs, hn, h3 =>
      rw [List.length_cons, List.length_cons] at hn
      refine (ih (redirTo (some t) cmd w) h3 (by simp only [List.tail_cons]; omega)).mono ?_
      rintro c us ⟨ts', rs, hts, hrs, rfl⟩
      refine ⟨t :: .word w :: ts', (t, w) :: rs, ?_, .cons (starts_redir ht) hrs, rfl⟩
      simp only [List.tail_cons] at hts
      rw [hts]
      rfl
    | .bar :: _, _, _ | .lparen :: _, _, _ | .rparen :: _, _, _ | .semi :: _, _, _
    | .amp :: _, _, _ | .less :: _, _, _ | .greater :: _, _, _ | .append :: _, _, _ => trivial

theorem parsebacks_sound (cmd : Cmd Span) (h : At str s ts) (hn : ts.length < n) :
    Outcome str True (fun c us => ∃ k, ts = List.replicate k .amp ++ us ∧ c = Cmd.back^[k] cmd)
      (parsebacks str n cmd s) := by
  induction n generalizing s ts cmd with
  | zero => exact absurd hn (Nat.not_lt_zero _)
  | succ n ih =>
    unfold parsebacks
    refine Outcome.take hz h (t := .amp) (by decide) ?_ fun s1 h1 _ => ⟨ts, h1, 0, rfl, rfl⟩
    rintro s1 us rfl h1
    refine (ih (.back cmd) h1 (Nat.lt_of_succ_lt_succ hn)).mono ?_
    rintro c vs ⟨k, hus, rfl⟩
    refine ⟨k + 1, ?_, rfl⟩
    rw [List.replicate_succ, List.cons_append, hus]

theorem parseargs_sound (argv : List Span) (ret : Cmd Span)
    (h : At str s ts) (hn : ts.length < n) (hargv : argv.length ≤ MAXARGS - 1) :
    Outcome str True (fun c us => ∃ ts' ws rs, ts = ts' ++ us ∧ Args ts' ws rs ∧
        argv.length + ws.length ≤ MAXARGS - 1 ∧ c = (wrap rs ret).setArgv (argv ++ ws))
      (parseargs str n argv ret s) := by
  induction n generalizing s ts argv ret with
  | zero => exact absurd hn (Nat.not_lt_zero _)
  | succ n ih =>
    unfold parseargs
    -- what the loop returns if it ends here
    have hend : ∀ s', At str s' ts → Outcome str True (fun c us => ∃ ts' ws rs, ts = ts' ++ us ∧
        Args ts' ws rs ∧ argv.length + ws.length ≤ MAXARGS - 1 ∧
        c = (wrap rs ret).setArgv (argv ++ ws)) ((pure (ret.setArgv argv) : M (Cmd Span)) s') := by
      intro s' h'
      exact ⟨ts, h', [], [], [], rfl, .nil, hargv, by rw [List.append_nil]; rfl⟩
    refine Outcome.sees hz h (by decide) (fun s1 _ _ h1 _ _ => hend s1 h1) fun s1 h1 _ => ?_
    refine Outcome.next hz h1 fun s2 h2 => ?_
    match ts, hn, h2, hend with
    | [], _, h2, hend => exact hend s2 h2
    | .word w :: us, hn, h2, _ =>
      by_cases hmax : MAXARGS ≤ argv.length + 1
      · simp only [List.head?_cons, if_pos hmax]
        trivial
      · simp only [List.head?_cons, if_neg hmax]
        have hn' : us.length < n := Nat.lt_of_succ_lt_succ hn
        refine (parseredirs_sound hz ret h2 hn').bind ?_
        rintro c s3 vs h3 ⟨ts', rs, hts, hrs, rfl⟩
        have hlen := congrArg List.length hts
        rw [List.length_append, List.tail_cons] at hlen
        have hroom : (argv ++ [w]).length ≤ MAXARGS - 1 := by
          rw [List.length_append, List.length_singleton]
          omega
        refine (ih (argv ++ [w]) (wrap rs ret) h3 (by omega) hroom).mono ?_
        rintro c vs' ⟨us', ws, rs', hvs, hargs, hle, rfl⟩
        refine ⟨.word w :: (ts' ++ us'), w :: ws, rs ++ rs', ?_, .cons hrs hargs, ?_, ?_⟩
        · rw [List.tail_cons] at hts
          rw [hts, hvs, List.cons_append, List.append_assoc]
        · rw [List.length_append, List.length_singleton] at hle
          rw [List.length_cons]
          omega
        · rw [wrap_append, List.append_assoc, List.singleton_append]
    | .bar :: _, _, _, _ | .lparen :: _, _, _, _ | .rparen :: _, _, _, _ | .semi :: _, _, _, _
    | .amp :: _, _, _, _ | .less :: _, _, _, _ | .greater :: _, _, _, _
    | .append :: _, _, _, _ => trivial

def Consumed (X : Phrase) (ts : List Token) (c : Cmd Span) (us : List Token) : Prop :=
  ∃ ts', ts = ts' ++ us ∧ Derives X ts' c

theorem parse_sound (n : ℕ) :
    (∀ s ts, At str s ts → 4 * ts.length + 4 ≤ n →
      Outcome str True (Consumed .line ts) (parseline str n s)) ∧
    (∀ s ts, At str s ts → 4 * ts.length + 3 ≤ n →
      Outcome str True (Consumed .pipe ts) (parsepipe str n s)) ∧
    (∀ s ts, At str s ts → 4 * ts.length + 2 ≤ n →
      Outcome str True (Consumed .exec ts) (parseexec str n s)) ∧
    ∀ s ts, At str s ts → 4 * ts.length + 1 ≤ n →
      Outcome str True (Consumed .exec ts) (parseblock str n s) := by
  induction n with
  | zero =>
    refine ⟨?_, ?_, ?_, ?_⟩ <;> (intro s ts _ hn; omega)
  | succ n ih =>
    obtain ⟨hline, hpipe, hexec, hblock⟩ := ih
    refine ⟨fun s ts h hn => ?_, fun s ts h hn => ?_, fun s ts h hn => ?_, fun s ts h hn => ?_⟩
    · unfold parseline
      refine (hpipe s ts h (by omega)).bind ?_
      rintro c s1 us h1 ⟨ts1, rfl, hd⟩
      rw [List.length_append] at hn
      refine (parsebacks_sound hz c h1 (by omega)).bind ?_
      rintro c' s2 vs h2 ⟨k, rfl, rfl⟩
      rw [List.length_append] at hn
      refine Outcome.take hz h2 (t := .semi) (by decide) ?_ fun s3 h3 _ =>
        ⟨vs, h3, _, (List.append_assoc ..).symm, .lineOne k hd⟩
      rintro s3 ws rfl h3
      rw [List.length_cons] at hn
      refine (hline s3 ws h3 (by omega)).bind ?_
      rintro d s4 us h4 ⟨ts2, rfl, hd'⟩
      refine ⟨us, h4, _, ?_, .lineMore k hd hd'⟩
      simp only [List.append_assoc, List.cons_append]
    · unfold parsepipe
      refine (hexec s ts h (by omega)).bind ?_
      rintro c s1 us h1 ⟨ts1, rfl, hd⟩
      rw [List.length_append] at hn
      refine Outcome.take hz h1 (t := .bar) (by decide) ?_ fun s2 h2 _ =>
        ⟨us, h2, ts1, rfl, .pipeOne hd⟩
      rintro s2 vs rfl h2
      rw [List.length_cons] at hn
      refine (hpipe s2 vs h2 (by omega)).bind ?_
      rintro d s3 us h3 ⟨ts2, rfl, hd'⟩
      refine ⟨us, h3, _, ?_, .pipeMore hd hd'⟩
      simp only [List.append_assoc, List.cons_append]
    · unfold parseexec
      refine Outcome.sees hz h (by decide) (fun s1 _ _ h1 _ _ => hblock s1 ts h1 (by omega))
        fun s1 h1 _ => ?_
      refine (parseredirs_sound hz (.exec []) h1 (by omega)).bind ?_
      rintro c s2 us h2 ⟨ts1, rs, rfl, hrs, rfl⟩
      rw [List.length_append] at hn
      refine (parseargs_sound hz [] _ h2 (by omega) (Nat.zero_le _)).mono ?_
      rintro c vs ⟨ts2, ws, rs', rfl, hargs, hle, rfl⟩
      rw [List.length_nil, Nat.zero_add] at hle
      refine ⟨ts1 ++ ts2, (List.append_assoc ..).symm, ?_⟩
      rw [setArgv_wrap, setArgv_wrap, ← wrap_append]
      exact .simple hrs hargs hle
    · unfold parseblock
      refine Outcome.take hz h (t := .lparen) (by decide) ?_ fun _ _ _ => trivial
      rintro s1 us rfl h1
      rw [List.length_cons] at hn
      refine (hline s1 us h1 (by omega)).bind ?_
      rintro c s2 vs h2 ⟨ts1, rfl, hd⟩
      rw [List.length_append] at hn
      refine Outcome.take hz h2 (t := .rparen) (by decide) ?_ fun _ _ _ => trivial
      rintro s3 ws rfl h3
      rw [List.length_cons] at hn
      refine (parseredirs_sound hz c h3 (by omega)).mono ?_
      rintro c' us ⟨ts2, rs, rfl, hrs, rfl⟩
      refine ⟨.lparen :: (ts1 ++ .rparen :: ts2), ?_, .block hd hrs⟩
      rw [List.cons_append, List.append_assoc, List.cons_append]

end Sound

/-! ## Every sentence is accepted -/

def follow : Phrase → List Token
  | .line => [.rparen]
  | .pipe => [.rparen, .amp, .semi]
  | .exec => [.rparen, .amp, .semi, .bar]

def Follows (X : Phrase) (us : List Token) : Prop := ∀ t ∈ us.head?, t ∈ follow X

variable {us : List Token} {X : Phrase}

theorem Follows.mono {Y : Phrase} (h : Follows X us)
    (hsub : follow X ⊆ follow Y) : Follows Y us := fun t ht => hsub (h t ht)

theorem follows_cons (h : t ∈ follow X) :
    Follows X (t :: us) := fun _ ht => Option.mem_some.mp ht ▸ h

theorem Follows.ne_cons (h : Follows X us)
    (hno : t ∉ follow X) (vs : List Token) : us ≠ t :: vs := by
  rintro rfl
  exact hno (h t rfl)

theorem follows_amps {k : ℕ} (h : Follows .pipe us) :
    Follows .pipe (List.replicate k .amp ++ us) := by
  cases k with
  | zero => exact h
  | succ k => exact follows_cons (by decide)

def NoRedir (us : List Token) : Prop := ∀ t vs, us = t :: vs → t.starts [ch '<', ch '>'] = false

theorem Follows.noRedir (h : Follows X us) : NoRedir us := by
  have hall : ∀ X, ∀ t ∈ follow X, t.starts [ch '<', ch '>'] = false := by
    intro X
    cases X <;> decide
  rintro t vs rfl
  exact hall X t (h t rfl)

variable {rs : List (Token × Span)} {ts : List Token}

theorem Args.noRedir {ws : List Span}
    (h : Args ts ws rs) (hf : Follows .exec us) : NoRedir (ts ++ us) := by
  cases h with
  | nil => exact hf.noRedir
  | cons _ _ =>
    intro t vs hts
    obtain ⟨rfl, -⟩ := List.cons.inj hts
    rfl

section Complete

variable {str : List UInt8} (hz : 0 ∉ str)
include hz

abbrev Yields (str : List UInt8) (c : Cmd Span) (us : List Token) :
    Except ParseError (Cmd Span × ℕ) → Prop :=
  Outcome str False fun c' us' => c' = c ∧ us' = us

variable {us : List Token} {c : Cmd Span}

omit hz in
theorem Outcome.ok {r : Except ParseError (Cmd Span × ℕ)}
    (h : Yields str c us r) : ∃ s, r = .ok (c, s) ∧ At str s us := by
  match r, h with
  | .ok (_, s), ⟨_, hus, rfl, rfl⟩ => exact ⟨s, rfl, hus⟩

variable {s : ℕ}

omit hz in
theorem Outcome.yields {x : M (Cmd Span)} {f : Cmd Span → M (Cmd Span)}
    {R : Cmd Span → List Token → Prop} (hx : Yields str c us (x s))
    (hf : ∀ s', At str s' us → Outcome str False R (f c s')) :
    Outcome str False R ((x >>= f) s) := by
  refine hx.bind ?_
  rintro _ s' _ h ⟨rfl, rfl⟩
  exact hf s' h

variable {n : ℕ} {ts : List Token}

theorem parseredirs_complete {rs : List (Token × Span)} (hrs : Redirs ts rs)
    (hno : NoRedir us) (cmd : Cmd Span) (h : At str s (ts ++ us))
    (hn : (ts ++ us).length < n) : Yields str (wrap rs cmd) us (parseredirs str n cmd s) := by
  induction hrs generalizing n s cmd with
  | nil =>
    obtain ⟨n, rfl⟩ := Nat.exists_eq_succ_of_ne_zero (Nat.ne_zero_of_lt hn)
    unfold parseredirs
    refine Outcome.sees hz h (by decide) ?_ fun s1 h1 _ => ⟨us, h1, rfl, rfl⟩
    intro _ t vs _ hts ht
    rw [hno t vs hts] at ht
    cases ht
  | @cons t w ts rs ht _ ih =>
    obtain ⟨n, rfl⟩ := Nat.exists_eq_succ_of_ne_zero (Nat.ne_zero_of_lt hn)
    unfold parseredirs
    refine Outcome.sees hz h (by decide) (fun s1 _ _ h1 _ _ => ?_) fun s1 _ hno => ?_
    · refine Outcome.next hz h1 fun s2 h2 => Outcome.next hz h2 fun s3 h3 => ?_
      refine ih (redirTo (some t) cmd w) h3 ?_
      simp only [List.cons_append, List.length_cons] at hn
      omega
    · have hb := hno t _ rfl
      rcases ht with rfl | rfl | rfl <;> cases hb

theorem parsebacks_complete (k : ℕ) (hno : ∀ vs, us ≠ .amp :: vs)
    (cmd : Cmd Span) (h : At str s (List.replicate k .amp ++ us)) (hn : k + us.length < n) :
    Yields str (Cmd.back^[k] cmd) us (parsebacks str n cmd s) := by
  induction k generalizing n s cmd with
  | zero =>
    obtain ⟨n, rfl⟩ := Nat.exists_eq_succ_of_ne_zero (Nat.ne_zero_of_lt hn)
    unfold parsebacks
    exact Outcome.take hz h (t := .amp) (by decide) (fun _ vs hus _ => absurd hus (hno vs))
      fun s1 h1 _ => ⟨us, h1, rfl, rfl⟩
  | succ k ih =>
    obtain ⟨n, rfl⟩ := Nat.exists_eq_succ_of_ne_zero (Nat.ne_zero_of_lt hn)
    unfold parsebacks
    refine Outcome.take hz h (t := .amp) (by decide) (fun s1 vs hvs h1 => ?_) fun _ _ hne =>
      absurd rfl (hne _)
    obtain rfl := (List.cons.inj hvs).2
    exact ih (.back cmd) h1 (by omega)

theorem parseargs_complete {ws : List Span} {rs : List (Token × Span)} (hargs : Args ts ws rs)
    (hf : Follows .exec us) (argv : List Span) (ret : Cmd Span) (h : At str s (ts ++ us))
    (hn : (ts ++ us).length < n) (hmax : argv.length + ws.length ≤ MAXARGS - 1) :
    Yields str ((wrap rs ret).setArgv (argv ++ ws)) us (parseargs str n argv ret s) := by
  induction hargs generalizing n s argv ret with
  | nil =>
    obtain ⟨n, rfl⟩ := Nat.exists_eq_succ_of_ne_zero (Nat.ne_zero_of_lt hn)
    unfold parseargs
    rw [List.append_nil]
    refine Outcome.sees hz h (by decide) (fun s1 _ _ h1 _ _ => ⟨us, h1, rfl, rfl⟩)
      fun s1 h1 hno => ?_
    cases us with
    | nil => exact Outcome.next hz h1 fun s2 h2 => ⟨[], h2, rfl, rfl⟩
    | cons t us =>
      have hall : ∀ t ∈ follow .exec, t.starts [ch '|', ch ')', ch '&', ch ';'] = true := by decide
      have ht := hall t (hf t rfl)
      rw [hno t us rfl] at ht
      cases ht
  | @cons w ts vs ws rs rs' hrs hargs ih =>
    obtain ⟨n, rfl⟩ := Nat.exists_eq_succ_of_ne_zero (Nat.ne_zero_of_lt hn)
    rw [List.length_cons] at hmax
    rw [List.cons_append, List.append_assoc] at h
    simp only [List.cons_append, List.append_assoc, List.length_cons] at hn
    unfold parseargs
    refine Outcome.sees hz h (by decide) ?_ fun s1 h1 _ => Outcome.next hz h1 fun s2 h2 => ?_
    · intro _ t _ _ hts ht
      obtain ⟨rfl, -⟩ := List.cons.inj hts
      cases ht
    have hroom : ¬ MAXARGS ≤ argv.length + 1 := by
      simp only [MAXARGS] at hmax ⊢
      omega
    simp only [List.head?_cons, if_neg hroom]
    refine (parseredirs_complete hz hrs (hargs.noRedir hf) ret h2
      (Nat.lt_of_succ_lt_succ hn)).yields fun s3 h3 => ?_
    rw [List.length_append] at hn
    have hlen : (argv ++ [w]).length = argv.length + 1 := List.length_append
    have hn' : (vs ++ us).length < n := by omega
    have hrest := ih (argv ++ [w]) (wrap rs ret) h3 hn' (by omega)
    rwa [← wrap_append, List.append_assoc, List.singleton_append] at hrest

def parse (str : List UInt8) : Phrase → ℕ → M (Cmd Span)
  | .line => parseline str
  | .pipe => parsepipe str
  | .exec => parseexec str

def enough : Phrase → ℕ → ℕ
  | .line, k => 4 * k + 4
  | .pipe, k => 4 * k + 3
  | .exec, k => 4 * k + 2

theorem parse_complete {X : Phrase} (hd : Derives X ts c)
    (hf : Follows X us) (h : At str s (ts ++ us))
    (hn : enough X (ts ++ us).length ≤ n) : Yields str c us (parse str X n s) := by
  induction hd generalizing us n s with
  | @block ts vs c rs _ hrs ih =>
    rw [List.cons_append, List.append_assoc, List.cons_append] at h hn
    simp only [enough, List.length_cons, List.length_append] at hn
    obtain ⟨n, rfl⟩ : ∃ k, n = k + 2 := ⟨n - 2, by omega⟩
    show Yields str _ us (parseexec str (n + 2) s)
    unfold parseexec
    refine Outcome.sees hz h (by decide) (fun s1 _ _ h1 _ _ => ?_) fun _ _ hno =>
      absurd (hno _ _ rfl) (by decide)
    unfold parseblock
    refine Outcome.take hz h1 (t := .lparen) (by decide) (fun s2 us2 hus h2 => ?_) fun _ _ hne =>
      absurd rfl (hne _)
    obtain rfl := (List.cons.inj hus).2
    have hline := ih (n := n) (follows_cons (by decide)) h2 (by
      simp only [enough, List.length_cons, List.length_append]
      omega)
    refine Outcome.yields hline fun s3 h3 => ?_
    refine Outcome.take hz h3 (t := .rparen) (by decide) (fun s4 us4 hus h4 => ?_) fun _ _ hne =>
      absurd rfl (hne _)
    obtain rfl := (List.cons.inj hus).2
    refine parseredirs_complete hz hrs hf.noRedir c h4 ?_
    rw [List.length_append]
    omega
  | @simple ts vs ws rs rs' hrs hargs hmax =>
    rw [List.append_assoc] at h hn
    simp only [enough] at hn
    obtain ⟨n, rfl⟩ : ∃ k, n = k + 1 := ⟨n - 1, by omega⟩
    show Yields str _ us (parseexec str (n + 1) s)
    unfold parseexec
    refine Outcome.sees hz h (by decide) (fun s1 t ts1 _ hts ht => ?_) fun s1 h1 _ => ?_
    · -- neither a redirection nor an argument nor what follows is a parenthesis
      obtain rfl := (starts_singles (t := .lparen) (by decide)).mp ht
      cases hrs with
      | nil =>
        cases hargs with
        | nil => exact absurd hts (hf.ne_cons (by decide) ts1)
        | cons _ _ => cases hts
      | cons ht _ => rcases ht with rfl | rfl | rfl <;> cases hts
    · refine (parseredirs_complete hz hrs (hargs.noRedir hf) (.exec []) h1 (n := n)
        (by omega)).yields fun s2 h2 => ?_
      rw [List.length_append] at hn
      have hrest := parseargs_complete hz hargs hf [] (wrap rs (.exec [])) h2 (n := n)
        (by omega) (by rwa [List.length_nil, Nat.zero_add])
      rwa [setArgv_wrap, setArgv_wrap, ← wrap_append] at hrest
  | @pipeOne ts c _ ih =>
    simp only [enough] at hn
    obtain ⟨n, rfl⟩ : ∃ k, n = k + 1 := ⟨n - 1, by omega⟩
    show Yields str c us (parsepipe str (n + 1) s)
    unfold parsepipe
    have hexec := ih (n := n) (hf.mono (by decide)) h (by simp only [enough]; omega)
    refine Outcome.yields hexec fun s1 h1 => ?_
    exact Outcome.take hz h1 (t := .bar) (by decide)
      (fun _ vs hus _ => absurd hus (hf.ne_cons (by decide) vs)) fun s2 h2 _ => ⟨us, h2, rfl, rfl⟩
  | @pipeMore ts vs c d _ _ ih ih' =>
    rw [List.append_assoc, List.cons_append] at h hn
    simp only [enough, List.length_append, List.length_cons] at hn
    obtain ⟨n, rfl⟩ : ∃ k, n = k + 1 := ⟨n - 1, by omega⟩
    show Yields str _ us (parsepipe str (n + 1) s)
    unfold parsepipe
    have hexec := ih (n := n) (follows_cons (by decide)) h (by
      simp only [enough, List.length_append, List.length_cons]
      omega)
    refine Outcome.yields hexec fun s1 h1 => ?_
    refine Outcome.take hz h1 (t := .bar) (by decide) (fun s2 us2 hus h2 => ?_) fun _ _ hne =>
      absurd rfl (hne _)
    obtain rfl := (List.cons.inj hus).2
    have hpipe := ih' (n := n) hf h2 (by
      simp only [enough, List.length_append]
      omega)
    exact Outcome.yields hpipe fun s3 h3 => ⟨us, h3, rfl, rfl⟩
  | @lineOne k ts c _ ih =>
    rw [List.append_assoc] at h hn
    simp only [enough, List.length_append, List.length_replicate] at hn
    obtain ⟨n, rfl⟩ : ∃ k, n = k + 1 := ⟨n - 1, by omega⟩
    show Yields str _ us (parseline str (n + 1) s)
    unfold parseline
    have hpipe := ih (n := n) (follows_amps (hf.mono (by decide))) h (by
      simp only [enough, List.length_append, List.length_replicate]
      omega)
    refine Outcome.yields hpipe fun s1 h1 => ?_
    refine (parsebacks_complete hz k (hf.ne_cons (by decide)) c h1 (by omega)).yields
      fun s2 h2 => ?_
    exact Outcome.take hz h2 (t := .semi) (by decide)
      (fun _ vs hus _ => absurd hus (hf.ne_cons (by decide) vs)) fun s3 h3 _ => ⟨us, h3, rfl, rfl⟩
  | @lineMore k ts vs c d _ _ ih ih' =>
    simp only [List.append_assoc, List.cons_append] at h hn
    simp only [enough, List.length_append, List.length_replicate, List.length_cons] at hn
    obtain ⟨n, rfl⟩ : ∃ k, n = k + 1 := ⟨n - 1, by omega⟩
    show Yields str _ us (parseline str (n + 1) s)
    unfold parseline
    have hpipe := ih (n := n) (follows_amps (follows_cons (by decide))) h (by
      simp only [enough, List.length_append, List.length_replicate, List.length_cons]
      omega)
    refine Outcome.yields hpipe fun s1 h1 => ?_
    have hlen : (Token.semi :: (vs ++ us)).length = vs.length + us.length + 1 := by
      rw [List.length_cons, List.length_append]
    refine (parsebacks_complete hz k (fun _ h => by cases h) c h1 (by omega)).yields fun s2 h2 => ?_
    refine Outcome.take hz h2 (t := .semi) (by decide) (fun s3 us3 hus h3 => ?_) fun _ _ hne =>
      absurd rfl (hne _)
    obtain rfl := (List.cons.inj hus).2
    have hline := ih' (n := n) hf h3 (by
      simp only [enough, List.length_append]
      omega)
    exact Outcome.yields hline fun s4 h4 => ⟨us, h4, rfl, rfl⟩

end Complete

/-! ## The strings of the tree -/

def Cmd.words {W : Type} : Cmd W → List W
  | .exec argv => argv
  | .redir cmd file _ _ => cmd.words ++ [file]
  | .pipe left right => left.words ++ right.words
  | .list left right => left.words ++ right.words
  | .back cmd => cmd.words

variable {w : Span}

theorem mem_words_wrap (hrs : ∀ r ∈ rs, r.1.Redir) (cmd : Cmd Span) :
    w ∈ (wrap rs cmd).words ↔ w ∈ cmd.words ∨ w ∈ rs.map Prod.snd := by
  induction rs generalizing cmd with
  | nil => simp [wrap]
  | cons r rs ih =>
    have hone : w ∈ (redirTo (some r.1) cmd r.2).words ↔ w ∈ cmd.words ∨ w = r.2 := by
      obtain ⟨t, v⟩ := r
      rcases hrs (t, v) List.mem_cons_self with rfl | rfl | rfl <;> simp [redirTo, Cmd.words]
    rw [List.map_cons, List.mem_cons, ← or_assoc, ← hone]
    exact ih (fun r hr => hrs r (List.mem_cons_of_mem _ hr)) _

theorem Redirs.redir (h : Redirs ts rs) : ∀ r ∈ rs, r.1.Redir := by
  induction h with
  | nil => exact fun r hr => absurd hr List.not_mem_nil
  | cons ht _ ih => exact List.forall_mem_cons.mpr ⟨ht, ih⟩

theorem Redirs.mem_files (h : Redirs ts rs) : w ∈ rs.map Prod.snd ↔ .word w ∈ ts := by
  induction h with
  | nil => simp
  | @cons t v ts rs ht _ ih =>
    have hne : Token.word w ≠ t := by
      rcases ht with rfl | rfl | rfl <;> simp
    rw [List.map_cons, List.mem_cons, ih, List.mem_cons, List.mem_cons, Token.word.injEq]
    exact (or_iff_right hne).symm

theorem Args.redir {ws : List Span} (h : Args ts ws rs) : ∀ r ∈ rs, r.1.Redir := by
  induction h with
  | nil => exact fun r hr => absurd hr List.not_mem_nil
  | cons hrs _ ih => exact List.forall_mem_append.mpr ⟨hrs.redir, ih⟩

theorem Args.mem_words {ws : List Span} (h : Args ts ws rs) :
    w ∈ ws ∨ w ∈ rs.map Prod.snd ↔ .word w ∈ ts := by
  induction h with
  | nil => simp
  | cons hrs _ ih =>
    rw [List.map_append, List.mem_append, List.mem_cons, List.mem_cons, List.mem_append,
      Token.word.injEq, ← ih, hrs.mem_files]
    tauto

theorem words_back (k : ℕ) (cmd : Cmd Span) : (Cmd.back^[k] cmd).words = cmd.words := by
  induction k generalizing cmd with
  | zero => rfl
  | succ k ih => exact ih (.back cmd)

theorem Derives.mem_words {c : Cmd Span} (h : Derives X ts c) : w ∈ c.words ↔ .word w ∈ ts := by
  induction h with
  | block _ hrs ih =>
    rw [mem_words_wrap hrs.redir, ih, hrs.mem_files]
    simp
  | simple hrs hargs _ =>
    rw [mem_words_wrap (List.forall_mem_append.mpr ⟨hrs.redir, hargs.redir⟩), List.map_append,
      List.mem_append, List.mem_append, hrs.mem_files, ← hargs.mem_words]
    exact or_left_comm
  | pipeOne _ ih => exact ih
  | pipeMore _ _ ih ih' =>
    rw [Cmd.words, List.mem_append, ih, ih']
    simp
  | lineOne k _ ih =>
    rw [words_back, ih]
    simp [List.mem_replicate]
  | lineMore k _ _ ih ih' =>
    rw [Cmd.words, List.mem_append, words_back, ih, ih']
    simp [List.mem_replicate]

theorem foldl_update_zero (ws : List Span) (buf : ℕ → UInt8) (k : ℕ) :
    ws.foldl (fun buf w => update buf w.eq 0) buf k =
      if k ∈ ws.map Span.eq then 0 else buf k := by
  induction ws generalizing buf with
  | nil => rfl
  | cons w ws ih =>
    rw [List.foldl_cons, ih, List.map_cons]
    by_cases hk : k ∈ ws.map Span.eq
    · rw [if_pos hk, if_pos (List.mem_cons_of_mem _ hk)]
    · rw [if_neg hk]
      by_cases hw : k = w.eq
      · rw [hw, update_self, if_pos List.mem_cons_self]
      · rw [update_of_ne hw, if_neg fun h => (List.mem_cons.mp h).elim hw hk]

theorem nulterminate_eq (c : Cmd Span) (buf : ℕ → UInt8) :
    nulterminate c buf = c.words.foldl (fun buf w => update buf w.eq 0) buf := by
  induction c generalizing buf with
  | exec argv => rfl
  | redir cmd file mode fd ih =>
    rw [nulterminate, ih, Cmd.words, List.foldl_append]
    rfl
  | pipe left right ih ih' => rw [nulterminate, ih, ih', Cmd.words, List.foldl_append]
  | list left right ih ih' => rw [nulterminate, ih, ih', Cmd.words, List.foldl_append]
  | back cmd ih => exact ih buf

structure Reads (str : List UInt8) (buf : ℕ → UInt8) (w : Span) : Prop where
  lt : w.q < w.eq
  le : w.eq ≤ str.length
  same : ∀ k, w.q ≤ k → k < w.eq → buf k = charAt str k
  zero : buf w.eq = 0

theorem nulterminate_reads {str : List UInt8} {c : Cmd Span} (hall : ∀ w ∈ c.words, IsWord str w)
    (hw : w ∈ c.words) : Reads str (nulterminate c (charAt str)) w := by
  have hword := hall w hw
  refine ⟨hword.lt, hword.le, fun k hk hk' => ?_, ?_⟩
  · -- no word ends inside of another one
    rw [nulterminate_eq, foldl_update_zero, if_neg fun hin => ?_]
    obtain ⟨v, hv, rfl⟩ := List.mem_map.mp hin
    have h1 := hword.plain v.eq hk hk'
    rw [(hall v hv).stop (hk'.trans_le hword.le)] at h1
    cases h1
  · rw [nulterminate_eq, foldl_update_zero, if_pos (List.mem_map_of_mem hw)]

/-! ## The parser -/

theorem parsecmd_ok {str : List UInt8} (hz : 0 ∉ str) {n : ℕ}
    (hn : enough .line (tokens str 0).length ≤ n) {c : Cmd Span} {buf : ℕ → UInt8}
    (hc : parsecmd n str = .ok (c, buf)) :
    Derives .line (tokens str 0) c ∧ buf = nulterminate c (charAt str) := by
  have hsound := (parse_sound hz n).1 0 _ (at_zero str) hn
  unfold parsecmd at hc
  cases hp : parseline str n 0 with
  | error e =>
    rw [hp] at hc
    cases hc
  | ok q =>
    obtain ⟨c', s⟩ := q
    rw [hp] at hc hsound
    obtain ⟨us, hus, ts', hts, hd⟩ := hsound
    replace hc : (if (peek str [] s).2 ≠ str.length then throw (ParseError.panic "syntax")
      else pure (c', nulterminate c' (charAt str))) = Except.ok (c, buf) := hc
    split at hc
    next => cases hc
    next hend =>
      cases hc
      obtain rfl := (hus.skipSpace_eq_iff hz).mp (not_not.mp hend)
      rw [hts, List.append_nil]
      exact ⟨hd, rfl⟩

theorem parsecmd_complete {str : List UInt8} (hz : 0 ∉ str) {n : ℕ}
    (hn : enough .line (tokens str 0).length ≤ n) {c : Cmd Span}
    (hd : Derives .line (tokens str 0) c) :
    parsecmd n str = .ok (c, nulterminate c (charAt str)) := by
  have hat : At str 0 (tokens str 0 ++ []) := by
    rw [List.append_nil]
    exact at_zero str
  obtain ⟨s, hp, hs⟩ := (parse_complete hz hd (fun _ ht => absurd ht (Option.not_mem_none _)) hat
    (n := n) (by rwa [List.append_nil])).ok
  replace hp : parseline str n 0 = .ok (c, s) := hp
  unfold parsecmd
  rw [hp]
  exact if_neg (not_not.mpr ((hs.skipSpace_eq_iff hz).mpr rfl))

/-- **The parser is exact.** It returns a tree exactly if the tokens of the line are a sentence that
denotes it, and panics if there is no such tree. The words of the tree are strings of the buffer. -/
theorem parser_exact (str : List UInt8) (hz : 0 ∉ str) : ∃ n₀, ∀ n ≥ n₀,
    (∀ c, (∃ buf, parsecmd n str = .ok (c, buf)) ↔ Derives .line (tokens str 0) c) ∧
    ((∀ c, ¬ Derives .line (tokens str 0) c) → ∃ msg, parsecmd n str = .error (.panic msg)) ∧
    ∀ c buf, parsecmd n str = .ok (c, buf) → ∀ w ∈ c.words, Reads str buf w := by
  refine ⟨enough .line (tokens str 0).length, fun n hn => ?_⟩
  have hsound := (parse_sound hz n).1 0 _ (at_zero str) hn
  refine ⟨fun c => ⟨fun ⟨buf, hc⟩ => (parsecmd_ok hz hn hc).1,
      fun hd => ⟨_, parsecmd_complete hz hn hd⟩⟩, fun hno => ?_, fun c buf hc w hw => ?_⟩
  · unfold parsecmd
    cases hp : parseline str n 0 with
    | error e =>
      rw [hp] at hsound
      cases e with
      | panic msg => exact ⟨msg, rfl⟩
      | fuel => exact absurd hsound id
    | ok q =>
      by_cases hend : (peek str [] q.2).2 ≠ str.length
      · exact ⟨"syntax", if_pos hend⟩
      · have hc : parsecmd n str = .ok (q.1, nulterminate q.1 (charAt str)) := by
          unfold parsecmd
          rw [hp]
          exact if_neg hend
        exact absurd (parsecmd_ok hz hn hc).1 (hno _)
  · obtain ⟨hd, rfl⟩ := parsecmd_ok hz hn hc
    exact nulterminate_reads (fun v hv => isWord_of_mem hz (Nat.zero_le _) (hd.mem_words.mp hv)) hw

/-- The line `a>b|c&` is a pipeline in the background. -/
theorem parser_exact_background :
    (0 : UInt8) ∉ [ch 'a', ch '>', ch 'b', ch '|', ch 'c', ch '&'] ∧
    (∃ n₀, ∀ n ≥ n₀, ∀ c,
      (∃ buf, parsecmd n [ch 'a', ch '>', ch 'b', ch '|', ch 'c', ch '&'] = .ok (c, buf)) ↔
        Derives .line (tokens [ch 'a', ch '>', ch 'b', ch '|', ch 'c', ch '&'] 0) c) ∧
    (parsecmd 50 [ch 'a', ch '>', ch 'b', ch '|', ch 'c', ch '&']).toOption.map Prod.fst =
      some (.back (.pipe (.redir (.exec [⟨0, 1⟩]) ⟨2, 3⟩ (O_WRONLY ||| O_CREATE) 1)
        (.exec [⟨4, 5⟩]))) := by
  refine ⟨by decide, ?_, by decide +kernel⟩
  obtain ⟨n₀, h⟩ := parser_exact [ch 'a', ch '>', ch 'b', ch '|', ch 'c', ch '&'] (by decide)
  exact ⟨n₀, fun n hn => (h n hn).1⟩

end Xv6.Sh
