import Xv6.Sh.Parse

/-!
# The shell's plumbing

`runcmd` of `sh.c` on descriptor tables. `fork` copies the table, `open`, `dup` and `pipe` take the
lowest free descriptors, and what a command finds in its table when it is executed is the result of
closing and duplicating in all processes on the way to it.

1. The system calls and the code. A file that `runcmd` opens and a pipe that it makes are named by
   the node of the tree that did it.
2. `plumbing`: what the commands should find, with no descriptors in between: a redirection
   replaces its descriptor, a pipe replaces 1 on its left and 0 on its right.
3. `runcmd_eq`: the code does that, if 0, 1 and 2 are open at the start and only these are
   redirected.
4. `plumbing_complete`.
-/

namespace Xv6.Sh

open Function

inductive Turn
  | left
  | right
  | sub
  deriving DecidableEq

/-- An open file: one that the shell had, one that was opened at a node, or an end of the pipe that
was made at a node. -/
inductive File (W F : Type)
  | inherited (f : F)
  | opened (node : List Turn) (file : W) (mode : ℕ)
  | readEnd (node : List Turn)
  | writeEnd (node : List Turn)
  deriving DecidableEq

abbrev Table (W F : Type) := ℕ → Option (File W F)

/-- A command is executed, with these descriptors. -/
structure Run (W F : Type) where
  node : List Turn
  argv : List W
  table : Table W F

variable {W F : Type}

/-! ## The code -/

def fdalloc (t : Table W F) (f : File W F) : Option (ℕ × Table W F) :=
  ((List.range NOFILE).find? fun fd => (t fd).isNone).map fun fd => (fd, update t fd (some f))

def close (t : Table W F) (fd : ℕ) : Table W F := if fd < NOFILE then update t fd none else t

def dup (t : Table W F) (fd : ℕ) : Option (ℕ × Table W F) :=
  if fd < NOFILE then (t fd).bind (fdalloc t) else none

def pipe (t : Table W F) (rf wf : File W F) : Option (ℕ × ℕ × Table W F) := do
  let (fd0, t) ← fdalloc t rf
  let (fd1, t) ← fdalloc t wf
  pure (fd0, fd1, t)

def runcmd (node : List Turn) (t : Table W F) : Cmd W → Option (List (Run W F))
  | .exec argv => if argv.isEmpty then some [] else some [⟨node, argv, t⟩]
  | .redir cmd file mode fd => do
    let (_, t) ← fdalloc (close t fd) (.opened node file mode)
    runcmd (node ++ [.sub]) t cmd
  | .list left right => do
    let es ← runcmd (node ++ [.left]) t left
    let es' ← runcmd (node ++ [.right]) t right
    pure (es ++ es')
  | .pipe left right => do
    let (p0, p1, t) ← pipe t (.readEnd node) (.writeEnd node)
    -- the first child: close(1); dup(p[1]); close(p[0]); close(p[1])
    let (_, tl) ← dup (close t 1) p1
    let es ← runcmd (node ++ [.left]) (close (close tl p0) p1) left
    -- the second child: close(0); dup(p[0]); close(p[0]); close(p[1])
    let (_, tr) ← dup (close t 0) p0
    let es' ← runcmd (node ++ [.right]) (close (close tr p0) p1) right
    pure (es ++ es')
  | .back cmd => runcmd (node ++ [.sub]) t cmd

/-! ## What the commands should find -/

def plumbing (node : List Turn) (t : Table W F) : Cmd W → List (Run W F)
  | .exec argv => if argv.isEmpty then [] else [⟨node, argv, t⟩]
  | .redir cmd file mode fd =>
    plumbing (node ++ [.sub]) (update t fd (some (.opened node file mode))) cmd
  | .list left right => plumbing (node ++ [.left]) t left ++ plumbing (node ++ [.right]) t right
  | .pipe left right =>
    plumbing (node ++ [.left]) (update t 1 (some (.writeEnd node))) left ++
      plumbing (node ++ [.right]) (update t 0 (some (.readEnd node))) right
  | .back cmd => plumbing (node ++ [.sub]) t cmd

def Standard : Cmd W → Prop
  | .exec _ => True
  | .redir cmd _ _ fd => fd < 3 ∧ Standard cmd
  | .list left right => Standard left ∧ Standard right
  | .pipe left right => Standard left ∧ Standard right
  | .back cmd => Standard cmd

def StdOpen (t : Table W F) : Prop := ∀ fd < 3, t fd ≠ none

/-! ## The parser's trees

`<` redirects 0, and `>` and `>>` redirect 1, so every tree of the grammar is standard. -/

theorem standard_wrap {cmd : Cmd Span} (h : Standard cmd) (rs : List (Token × Span)) :
    Standard (wrap rs cmd) := by
  induction rs generalizing cmd with
  | nil => exact h
  | cons r rs ih =>
    refine ih (show Standard (redirTo (some r.1) cmd r.2) from ?_)
    unfold redirTo
    split <;> first | exact ⟨by decide, h⟩ | exact h

theorem standard_back {cmd : Cmd W} (h : Standard cmd) (k : ℕ) : Standard (Cmd.back^[k] cmd) := by
  induction k generalizing cmd with
  | zero => exact h
  | succ k ih => exact ih h

theorem Derives.standard {X : Phrase} {ts : List Token} {c : Cmd Span} (h : Derives X ts c) :
    Standard c := by
  induction h with
  | block _ _ ih => exact standard_wrap ih _
  | simple _ _ _ => exact standard_wrap (show Standard (.exec _) from trivial) _
  | pipeOne _ ih => exact ih
  | pipeMore _ _ ih ih' => exact ⟨ih, ih'⟩
  | lineOne n _ ih => exact standard_back ih n
  | lineMore n _ _ ih ih' => exact ⟨standard_back ih n, ih'⟩

/-! ## The code does it -/

variable {t : Table W F}

theorem StdOpen.update (h : StdOpen t) (fd : ℕ) (f : File W F) :
    StdOpen (update t fd (some f)) := by
  intro d hd
  by_cases heq : d = fd
  · rw [heq, update_self]
    exact Option.some_ne_none f
  · rw [update_of_ne heq]
    exact h d hd

variable {fd : ℕ}

theorem fdalloc_eq (f : File W F) (hlt : fd < NOFILE) (hfree : t fd = none)
    (hbelow : ∀ d < fd, t d ≠ none) : fdalloc t f = some (fd, update t fd (some f)) := by
  have hfind : (List.range NOFILE).find? (fun d => (t d).isNone) = some fd := by
    rw [List.find?_range_eq_some]
    refine ⟨Option.isNone_iff_eq_none.mpr hfree, List.mem_range.mpr hlt, fun d hd => ?_⟩
    rw [Bool.not_eq_true', Option.isNone_eq_false_iff]
    exact Option.isSome_iff_ne_none.mpr (hbelow d hd)
  unfold fdalloc
  rw [hfind, Option.map_some]

variable {f : File W F} {t' : Table W F}

theorem fdalloc_some (h : fdalloc t f = some (fd, t')) :
    t fd = none ∧ fd < NOFILE ∧ t' = update t fd (some f) := by
  obtain ⟨d, hd, heq⟩ := Option.map_eq_some_iff.mp h
  cases heq
  have h1 := List.find?_some hd
  have h2 := List.mem_of_find?_eq_some hd
  exact ⟨Option.isNone_iff_eq_none.mp h1, List.mem_range.mp h2, rfl⟩

theorem fdalloc_close (h : StdOpen t) (hfd : fd < 3) (f : File W F) :
    fdalloc (close t fd) f = some (fd, update t fd (some f)) := by
  have hlt : fd < NOFILE := hfd.trans (by decide)
  have hclose : close t fd = update t fd none := if_pos hlt
  rw [hclose, fdalloc_eq f hlt (update_self ..), update_idem]
  intro d hd
  rw [update_of_ne hd.ne]
  exact h d (hd.trans hfd)

variable {a b : ℕ}

theorem dup_close (h : StdOpen t) {p : ℕ} {g g' : File W F} (hfd : fd < 3)
    (ha : t a = none) (hb : t b = none) (ha' : a < NOFILE) (hb' : b < NOFILE) (hp : p = a ∨ p = b)
    (hf : update (update t a (some g)) b (some g') p = some f) :
    ∃ t', dup (close (update (update t a (some g)) b (some g')) fd) p = some (fd, t') ∧
      close (close t' a) b = update t fd (some f) := by
  have hstd := (h.update a g).update b g'
  have hane : a ≠ fd := fun heq => h fd hfd (heq ▸ ha)
  have hbne : b ≠ fd := fun heq => h fd hfd (heq ▸ hb)
  have hpne : p ≠ fd := by
    rcases hp with rfl | rfl
    · exact hane
    · exact hbne
  have hplt : p < NOFILE := by
    rcases hp with rfl | rfl
    · exact ha'
    · exact hb'
  have hclose : ∀ (t : Table W F) {d : ℕ}, d < NOFILE → close t d = update t d none :=
    fun t _ hd => if_pos hd
  refine ⟨update (update (update t a (some g)) b (some g')) fd (some f), ?_, ?_⟩
  · unfold dup
    rw [if_pos hplt, hclose _ (hfd.trans (by decide)), update_of_ne hpne, hf, Option.bind_some,
      ← hclose _ (hfd.trans (by decide)), fdalloc_close hstd hfd]
  · rw [hclose _ ha', hclose _ hb']
    funext d
    simp only [update_apply]
    split_ifs <;> simp_all

theorem pipe_some {g g' : File W F} (h : pipe t g g' = some (a, b, t')) :
    t a = none ∧ t b = none ∧ a ≠ b ∧ a < NOFILE ∧ b < NOFILE ∧
      t' = update (update t a (some g)) b (some g') := by
  obtain ⟨⟨a', t1⟩, h1, h⟩ := Option.bind_eq_some_iff.mp h
  obtain ⟨⟨b', t2⟩, h2, h⟩ := Option.bind_eq_some_iff.mp h
  obtain ⟨ha, ha', rfl⟩ := fdalloc_some h1
  obtain ⟨hb, hb', rfl⟩ := fdalloc_some h2
  obtain ⟨rfl, rfl, rfl⟩ : a' = a ∧ b' = b ∧ _ = t' := by
    simpa only [Prod.mk.injEq] using Option.some.inj h
  have hne : a' ≠ b' := by
    rintro rfl
    rw [update_self] at hb
    cases hb
  rw [update_of_ne hne.symm] at hb
  exact ⟨ha, hb, hne, ha', hb', rfl⟩

variable {node : List Turn}

theorem runcmd_pipe (ht : StdOpen t)
    (hp : pipe t (.readEnd node) (.writeEnd node) = some (a, b, t')) (left right : Cmd W) :
    runcmd node t (.pipe left right) = (do
      let es ← runcmd (node ++ [.left]) (update t 1 (some (.writeEnd node))) left
      let es' ← runcmd (node ++ [.right]) (update t 0 (some (.readEnd node))) right
      pure (es ++ es')) := by
  obtain ⟨ha, hb, hne, ha', hb', rfl⟩ := pipe_some hp
  obtain ⟨tl, hl, hl'⟩ := dup_close ht (show 1 < 3 by decide) ha hb ha' hb' (.inr rfl)
    (update_self b (some (.writeEnd node)) (update t a (some (.readEnd node))))
  obtain ⟨tr, hr, hr'⟩ := dup_close ht (show 0 < 3 by decide) ha hb ha' hb' (.inl rfl)
    ((update_of_ne hne (some (.writeEnd node)) (update t a (some (.readEnd node)))).trans
      (update_self ..))
  rw [runcmd]
  simp only [hp, hl, hr, hl', hr', Option.bind_eq_bind, Option.bind_some]

variable {c : Cmd W}

theorem runcmd_eq (hc : Standard c) (ht : StdOpen t) {es : List (Run W F)}
    (h : runcmd node t c = some es) : es = plumbing node t c := by
  induction c generalizing node t es with
  | exec argv =>
    unfold runcmd at h
    unfold plumbing
    by_cases hnil : argv.isEmpty = true
    · rw [if_pos hnil] at h ⊢
      exact (Option.some.inj h).symm
    · rw [if_neg hnil] at h ⊢
      exact (Option.some.inj h).symm
  | redir cmd file mode fd ih =>
    obtain ⟨hfd, hc⟩ := hc
    unfold runcmd at h
    rw [fdalloc_close ht hfd] at h
    exact ih hc (ht.update _ _) h
  | pipe left right ih ih' =>
    obtain ⟨⟨a, b, t'⟩, hp, -⟩ := Option.bind_eq_some_iff.mp h
    rw [runcmd_pipe ht hp] at h
    obtain ⟨es1, h1, h⟩ := Option.bind_eq_some_iff.mp h
    obtain ⟨es2, h2, h⟩ := Option.bind_eq_some_iff.mp h
    rw [ih hc.1 (ht.update _ _) h1, ih' hc.2 (ht.update _ _) h2] at h
    exact (Option.some.inj h).symm
  | list left right ih ih' =>
    obtain ⟨es1, h1, h⟩ := Option.bind_eq_some_iff.mp h
    obtain ⟨es2, h2, h⟩ := Option.bind_eq_some_iff.mp h
    rw [ih hc.1 ht h1, ih' hc.2 ht h2] at h
    exact (Option.some.inj h).symm
  | back cmd ih => exact ih hc ht h

def TwoFree (t : Table W F) : Prop :=
  ∃ a b, a ≠ b ∧ a < NOFILE ∧ b < NOFILE ∧ t a = none ∧ t b = none

theorem TwoFree.update (h : TwoFree t) (ht : StdOpen t) (hfd : fd < 3)
    (f : File W F) : TwoFree (update t fd (some f)) := by
  obtain ⟨a, b, hne, ha', hb', ha, hb⟩ := h
  have hane : a ≠ fd := fun heq => ht fd hfd (heq ▸ ha)
  have hbne : b ≠ fd := fun heq => ht fd hfd (heq ▸ hb)
  refine ⟨a, b, hne, ha', hb', ?_, ?_⟩
  · rwa [update_of_ne hane]
  · rwa [update_of_ne hbne]

theorem fdalloc_isSome (ha' : a < NOFILE) (ha : t a = none)
    (f : File W F) : ∃ fd, fdalloc t f = some (fd, Function.update t fd (some f)) := by
  have hfind : ((List.range NOFILE).find? fun fd => (t fd).isNone).isSome := by
    refine List.find?_isSome.mpr ⟨a, List.mem_range.mpr ha', Option.isNone_iff_eq_none.mpr ha⟩
  obtain ⟨fd, hfd⟩ := Option.isSome_iff_exists.mp hfind
  exact ⟨fd, by rw [fdalloc, hfd, Option.map_some]⟩

theorem TwoFree.pipe (h : TwoFree t) (g g' : File W F) :
    ∃ a b t', Sh.pipe t g g' = some (a, b, t') := by
  obtain ⟨a, b, hne, ha', hb', ha, hb⟩ := h
  obtain ⟨fd, hfd⟩ := fdalloc_isSome ha' ha g
  have hrest : ∃ d < NOFILE, Function.update t fd (some g) d = none := by
    by_cases heq : a = fd
    · exact ⟨b, hb', by rw [update_of_ne fun h => hne (heq.trans h.symm), hb]⟩
    · exact ⟨a, ha', by rw [update_of_ne heq, ha]⟩
  obtain ⟨d, hd', hd⟩ := hrest
  obtain ⟨fd', hfd'⟩ := fdalloc_isSome hd' hd g'
  refine ⟨fd, fd', Function.update (Function.update t fd (some g)) fd' (some g'), ?_⟩
  unfold Sh.pipe
  simp only [hfd, hfd', Option.bind_eq_bind, Option.bind_some]
  rfl

theorem runcmd_isSome (hc : Standard c) (ht : StdOpen t)
    (hfree : TwoFree t) (node : List Turn) : ∃ es, runcmd node t c = some es := by
  induction c generalizing node t with
  | exec argv =>
    unfold runcmd
    split <;> exact ⟨_, rfl⟩
  | redir cmd file mode fd ih =>
    obtain ⟨hfd, hc⟩ := hc
    unfold runcmd
    rw [fdalloc_close ht hfd]
    exact ih hc (ht.update _ _) (hfree.update ht hfd _) _
  | pipe left right ih ih' =>
    obtain ⟨a, b, t', hp⟩ := hfree.pipe (.readEnd node) (.writeEnd node)
    obtain ⟨es1, h1⟩ := ih hc.1 (ht.update 1 (.writeEnd node))
      (hfree.update ht (by decide) _) (node ++ [.left])
    obtain ⟨es2, h2⟩ := ih' hc.2 (ht.update 0 (.readEnd node))
      (hfree.update ht (by decide) _) (node ++ [.right])
    refine ⟨es1 ++ es2, ?_⟩
    rw [runcmd_pipe ht hp, h1, h2]
    rfl
  | list left right ih ih' =>
    obtain ⟨es1, h1⟩ := ih hc.1 ht hfree (node ++ [.left])
    obtain ⟨es2, h2⟩ := ih' hc.2 ht hfree (node ++ [.right])
    exact ⟨es1 ++ es2, by rw [runcmd, h1, h2]; rfl⟩
  | back cmd ih => exact ih hc ht hfree _

/-! ## What follows from it -/

theorem isSome_update (h : t fd ≠ none) (f : File W F) (d : ℕ) :
    (update t fd (some f) d).isSome = (t d).isSome := by
  by_cases heq : d = fd
  · rw [heq, update_self, Option.isSome_some, Option.isSome_iff_ne_none.mpr h]
  · rw [update_of_ne heq]

variable {e : Run W F}

theorem plumbing_isSome (hc : Standard c) (ht : StdOpen t) (he : e ∈ plumbing node t c) (d : ℕ) :
    (e.table d).isSome = (t d).isSome := by
  induction c generalizing node t with
  | exec argv =>
    unfold plumbing at he
    split at he
    · exact absurd he List.not_mem_nil
    · rw [List.mem_singleton.mp he]
  | redir cmd file mode fd ih =>
    rw [ih hc.2 (ht.update _ _) he, isSome_update (ht fd hc.1)]
  | pipe left right ih ih' =>
    rcases List.mem_append.mp he with he | he
    · rw [ih hc.1 (ht.update _ _) he, isSome_update (ht 1 (by decide))]
    · rw [ih' hc.2 (ht.update _ _) he, isSome_update (ht 0 (by decide))]
  | list left right ih ih' =>
    rcases List.mem_append.mp he with he | he
    · exact ih hc.1 ht he
    · exact ih' hc.2 ht he
  | back cmd ih => exact ih hc ht he

theorem plumbing_node (he : e ∈ plumbing node t c) : node <+: e.node := by
  induction c generalizing node t with
  | exec argv =>
    unfold plumbing at he
    split at he
    · exact absurd he List.not_mem_nil
    · rw [List.mem_singleton.mp he]
  | redir cmd file mode fd ih => exact (List.prefix_append node _).trans (ih he)
  | pipe left right ih ih' =>
    rcases List.mem_append.mp he with he | he
    · exact (List.prefix_append node _).trans (ih he)
    · exact (List.prefix_append node _).trans (ih' he)
  | list left right ih ih' =>
    rcases List.mem_append.mp he with he | he
    · exact (List.prefix_append node _).trans (ih he)
    · exact (List.prefix_append node _).trans (ih' he)
  | back cmd ih => exact (List.prefix_append node _).trans (ih he)

/-- The file at descriptor `d` of a command comes from the table, from a redirection of `d`, or from
a pipe: the write end is at 1 on the left of its pipe, and the read end at 0 on the right. -/
inductive Source (t : Table W F) (e : Run W F) (d : ℕ) : Prop
  | table (h : e.table d = t d)
  | redirection (q : List Turn) (file : W) (mode : ℕ) (h : e.table d = some (.opened q file mode))
      (hq : q ++ [.sub] <+: e.node)
  | left (q : List Turn) (h : e.table d = some (.writeEnd q)) (hd : d = 1)
      (hq : q ++ [.left] <+: e.node)
  | right (q : List Turn) (h : e.table d = some (.readEnd q)) (hd : d = 0)
      (hq : q ++ [.right] <+: e.node)

theorem Source.of_update {d : ℕ} (h : Source (update t fd (some f)) e d)
    (hf : d = fd → e.table d = some f → Source t e d) : Source t e d := by
  cases h with
  | table h =>
    by_cases heq : d = fd
    · refine hf heq ?_
      rw [h, heq, update_self]
    · rw [update_of_ne heq] at h
      exact .table h
  | redirection q file mode h hq => exact .redirection q file mode h hq
  | left q h hd hq => exact .left q h hd hq
  | right q h hd hq => exact .right q h hd hq

theorem plumbing_source (he : e ∈ plumbing node t c) (d : ℕ) : Source t e d := by
  induction c generalizing node t with
  | exec argv =>
    unfold plumbing at he
    split at he
    · exact absurd he List.not_mem_nil
    · rw [List.mem_singleton.mp he]
      exact .table rfl
  | redir cmd file mode fd ih =>
    exact (ih he).of_update fun _ h => .redirection node file mode h (plumbing_node he)
  | pipe left right ih ih' =>
    rcases List.mem_append.mp he with he | he
    · exact (ih he).of_update fun hd h => .left node h hd (plumbing_node he)
    · exact (ih' he).of_update fun hd h => .right node h hd (plumbing_node he)
  | list left right ih ih' =>
    rcases List.mem_append.mp he with he | he
    · exact ih he
    · exact ih' he
  | back cmd ih => exact ih he

/-! ## Pipelines -/

structure Stage (W : Type) where
  argv : List W
  redirs : List (W × ℕ × ℕ)

def Stage.cmd (s : Stage W) : Cmd W :=
  s.redirs.foldl (fun c r => .redir c r.1 r.2.1 r.2.2) (.exec s.argv)

def pipeline : Stage W → List (Stage W) → Cmd W
  | s, [] => s.cmd
  | s, s' :: ss => .pipe s.cmd (pipeline s' ss)

variable {s : Stage W}

theorem Stage.plumbing (hs : s.argv ≠ []) (node : List Turn) (t : Table W F) :
    ∃ e : Run W F, Sh.plumbing node t s.cmd = [e] ∧
      ∀ d, (∀ r ∈ s.redirs, r.2.2 ≠ d) → e.table d = t d := by
  obtain ⟨argv, redirs⟩ := s
  have hgen : ∀ (rs : List (W × ℕ × ℕ)) (c : Cmd W),
      (∀ node (t : Table W F), ∃ e : Run W F, Sh.plumbing node t c = [e] ∧
        ∀ d, (∀ r ∈ redirs, r.2.2 ≠ d) → e.table d = t d) → (∀ r ∈ rs, r ∈ redirs) →
      ∀ node (t : Table W F), ∃ e : Run W F,
        Sh.plumbing node t (rs.foldl (fun c r => .redir c r.1 r.2.1 r.2.2) c) = [e] ∧
        ∀ d, (∀ r ∈ redirs, r.2.2 ≠ d) → e.table d = t d := by
    intro rs
    induction rs with
    | nil => exact fun c hc _ => hc
    | cons r rs ih =>
      intro c hc hsub
      refine ih (.redir c r.1 r.2.1 r.2.2) (fun node t => ?_)
        fun r' hr' => hsub r' (List.mem_cons_of_mem _ hr')
      obtain ⟨e, he, hd⟩ := hc (node ++ [.sub]) (update t r.2.2 (some (.opened node r.1 r.2.1)))
      refine ⟨e, he, fun d hno => ?_⟩
      rw [hd d hno, update_of_ne (hno r (hsub r List.mem_cons_self)).symm]
  refine hgen redirs (.exec argv) (fun node t => ⟨⟨node, argv, t⟩, ?_, fun _ _ => rfl⟩)
    (fun _ hr => hr) node t
  exact if_neg fun h => hs (List.isEmpty_iff.mp h)

theorem plumbing_pipeline_head (hs : s.argv ≠ []) (ss : List (Stage W))
    (node : List Turn) (t : Table W F) :
    ∃ e es, plumbing node t (pipeline s ss) = e :: es ∧
      ((∀ r ∈ s.redirs, r.2.2 ≠ 0) → e.table 0 = t 0) := by
  cases ss with
  | nil =>
    obtain ⟨e, he, hd⟩ := Stage.plumbing hs node t
    exact ⟨e, [], he, hd 0⟩
  | cons s' ss =>
    obtain ⟨e, he, hd⟩ :=
      Stage.plumbing hs (node ++ [.left]) (update t 1 (some (.writeEnd node)))
    refine ⟨e, plumbing (node ++ [.right]) (update t 0 (some (.readEnd node))) (pipeline s' ss),
      ?_, fun h => ?_⟩
    · rw [pipeline, plumbing, he, List.singleton_append]
    · rw [hd 0 h, update_of_ne Nat.zero_ne_one]

theorem plumbing_pipeline {ss : List (Stage W)} (hs : ∀ x ∈ s :: ss, x.argv ≠ [])
    (node : List Turn) (t : Table W F) :
    (plumbing node t (pipeline s ss)).length = ss.length + 1 ∧
    ∀ k e e' x x', (plumbing node t (pipeline s ss))[k]? = some e →
      (plumbing node t (pipeline s ss))[k + 1]? = some e' →
      (s :: ss)[k]? = some x → (s :: ss)[k + 1]? = some x' →
      ((∀ r ∈ x.redirs, r.2.2 ≠ 1) →
        e.table 1 = some (.writeEnd (node ++ List.replicate k .right))) ∧
      ((∀ r ∈ x'.redirs, r.2.2 ≠ 0) →
        e'.table 0 = some (.readEnd (node ++ List.replicate k .right))) := by
  induction ss generalizing s node t with
  | nil =>
    obtain ⟨e, he, -⟩ := Stage.plumbing (hs s List.mem_cons_self) node t
    refine ⟨by rw [pipeline, he]; rfl, fun k e e' x x' _ _ _ hx' => ?_⟩
    cases hx'
  | cons s' ss ih =>
    obtain ⟨e0, he0, hd0⟩ := Stage.plumbing (hs s List.mem_cons_self) (node ++ [.left])
      (update t 1 (some (.writeEnd node)))
    have hs' : ∀ x ∈ s' :: ss, x.argv ≠ [] := fun x hx => hs x (List.mem_cons_of_mem _ hx)
    obtain ⟨hlen, hpairs⟩ := ih hs' (node ++ [.right]) (update t 0 (some (.readEnd node)))
    have hcons : plumbing node t (pipeline s (s' :: ss)) = e0 ::
        plumbing (node ++ [.right]) (update t 0 (some (.readEnd node))) (pipeline s' ss) := by
      rw [pipeline, plumbing, he0, List.singleton_append]
    rw [hcons]
    refine ⟨by rw [List.length_cons, hlen, List.length_cons], fun k e e' x x' hk hk' hx hx' => ?_⟩
    cases k with
    | zero =>
      cases hk
      cases hx
      cases hx'
      obtain ⟨e1, es, hhead, hd1⟩ := plumbing_pipeline_head (hs' s' List.mem_cons_self) ss
        (node ++ [.right]) (update t 0 (some (.readEnd node)))
      rw [List.getElem?_cons_succ, hhead] at hk'
      cases hk'
      rw [List.replicate_zero, List.append_nil]
      exact ⟨fun h => by rw [hd0 1 h, update_self], fun h => by rw [hd1 h, update_self]⟩
    | succ k =>
      have hnode : node ++ List.replicate (k + 1) .right =
          node ++ [.right] ++ List.replicate k .right := by
        rw [List.replicate_succ, List.append_assoc, List.singleton_append]
      rw [hnode]
      exact hpairs k e e' x x' hk hk' hx hx'

/-- **The plumbing is complete.** The commands of a tree find the descriptors of the shell, changed
as `plumbing` says; an end of a pipe that `runcmd` has made is only at 1 on the left of the pipe and
at 0 on its right; and in a pipeline each command is connected to the next. -/
theorem plumbing_complete {c : Cmd W} (hc : Standard c) {t₀ : ℕ → Option F}
    (ht : ∀ fd < 3, t₀ fd ≠ none) {es : List (Run W F)}
    (h : runcmd [] (fun fd => (t₀ fd).map .inherited) c = some es) :
    es = plumbing [] (fun fd => (t₀ fd).map .inherited) c ∧
    (∀ e ∈ es, ∀ d, (e.table d).isSome = (t₀ d).isSome) ∧
    (∀ e ∈ es, ∀ d q, (e.table d = some (.writeEnd q) → d = 1 ∧ q ++ [.left] <+: e.node) ∧
      (e.table d = some (.readEnd q) → d = 0 ∧ q ++ [.right] <+: e.node)) ∧
    ∀ s ss, c = pipeline s ss → (∀ x ∈ s :: ss, x.argv ≠ []) → es.length = ss.length + 1 ∧
      ∀ k e e' x x', es[k]? = some e → es[k + 1]? = some e' →
        (s :: ss)[k]? = some x → (s :: ss)[k + 1]? = some x' →
        ((∀ r ∈ x.redirs, r.2.2 ≠ 1) → e.table 1 = some (.writeEnd (List.replicate k .right))) ∧
        ((∀ r ∈ x'.redirs, r.2.2 ≠ 0) →
          e'.table 0 = some (.readEnd (List.replicate k .right))) := by
  have hstd : StdOpen (W := W) fun fd => (t₀ fd).map .inherited := fun fd hfd hnone =>
    ht fd hfd (Option.map_eq_none_iff.mp hnone)
  obtain rfl := runcmd_eq hc hstd h
  refine ⟨rfl, fun e he d => ?_, fun e he d q => ?_, fun s ss hcs hs => ?_⟩
  · rw [plumbing_isSome hc hstd he, Option.isSome_map]
  · have hinherit : ∀ f : File W F, e.table d = some f →
        e.table d = (t₀ d).map .inherited → ∃ x, f = .inherited x := by
      intro f h1 h2
      rw [h1] at h2
      obtain ⟨x, -, hx⟩ := Option.map_eq_some_iff.mp h2.symm
      exact ⟨x, hx.symm⟩
    constructor <;> intro hf <;> cases plumbing_source he d with
    | table h =>
      obtain ⟨x, hx⟩ := hinherit _ hf h
      cases hx
    | redirection q' file mode h hq =>
      rw [hf] at h
      cases h
    | left q' h hd hq =>
      rw [hf] at h
      cases h <;> exact ⟨hd, hq⟩
    | right q' h hd hq =>
      rw [hf] at h
      cases h <;> exact ⟨hd, hq⟩
  · subst hcs
    exact plumbing_pipeline hs [] _

def console : ℕ → Option Unit := fun fd => if fd < 3 then some () else none

/-- `a | b > f | c`: three commands, two pipes, and a redirection that replaces the second one's
write end. -/
theorem plumbing_complete_pipeline :
    ∃ es : List (Run ℕ Unit),
      runcmd [] (fun fd => (console fd).map .inherited)
        (pipeline ⟨[1], []⟩ [⟨[2], [(7, 0, 1)]⟩, ⟨[3], []⟩]) = some es ∧
      es.map (fun e => (e.table 0, e.table 1, e.table 3)) =
        [(some (.inherited ()), some (.writeEnd []), none),
          (some (.readEnd []), some (.opened [.right, .left] 7 0), none),
          (some (.readEnd [.right]), some (.inherited ()), none)] ∧
      es.length = 3 := by
  have hc : Standard (pipeline (⟨[1], []⟩ : Stage ℕ) [⟨[2], [(7, 0, 1)]⟩, ⟨[3], []⟩]) :=
    ⟨trivial, ⟨by decide, trivial⟩, trivial⟩
  obtain ⟨es, hes⟩ : ∃ es, runcmd (F := Unit) [] (fun fd => (console fd).map .inherited)
      (pipeline (⟨[1], []⟩ : Stage ℕ) [⟨[2], [(7, 0, 1)]⟩, ⟨[3], []⟩]) = some es := ⟨_, rfl⟩
  obtain ⟨heq, -, -, hpipe⟩ := plumbing_complete hc (show ∀ fd < 3, console fd ≠ none by decide) hes
  refine ⟨es, hes, ?_, (hpipe _ _ rfl (by decide)).1⟩
  rw [heq]
  decide

/-- **From the line to the descriptors.** With two descriptors free besides the standard ones, no
call fails for want of one, however deep the pipes of an accepted line are nested; and its commands
find what `plumbing` says. -/
theorem runcmd_accepted {str : List UInt8} (hz : 0 ∉ str) {t : Table Span F} (ht : StdOpen t)
    (hfree : TwoFree t) : ∃ n₀, ∀ n ≥ n₀, ∀ c buf, parsecmd n str = .ok (c, buf) →
      runcmd [] t c = some (plumbing [] t c) := by
  refine ⟨enough .line (tokens str 0).length, fun n hn c buf hc => ?_⟩
  have hstd := (parsecmd_ok hz hn hc).1.standard
  obtain ⟨es, hes⟩ := runcmd_isSome hstd ht hfree []
  rw [hes, runcmd_eq hstd ht hes]

/-- The line `a|b` is accepted, and its two commands have the ends of the pipe. -/
theorem runcmd_accepted_pipe : ∃ n₀, ∀ n ≥ n₀, ∃ c buf es,
    parsecmd n [ch 'a', ch '|', ch 'b'] = .ok (c, buf) ∧
    runcmd [] (fun fd => (console fd).map .inherited) c = some es ∧
    es.map (fun e => (e.argv, e.table 0, e.table 1)) =
      [([⟨0, 1⟩], some (.inherited ()), some (.writeEnd [])),
        ([⟨2, 3⟩], some (.readEnd []), some (.inherited ()))] := by
  have htok : tokens [ch 'a', ch '|', ch 'b'] 0 = [.word ⟨0, 1⟩, .bar, .word ⟨2, 3⟩] := by decide
  have hd : Derives .line (tokens [ch 'a', ch '|', ch 'b'] 0)
      (.pipe (.exec [⟨0, 1⟩]) (.exec [⟨2, 3⟩])) := by
    rw [htok]
    have hone : ∀ w, Derives .exec [.word w] (.exec [w]) := fun w =>
      .simple .nil (.cons .nil .nil) (show 1 ≤ MAXARGS - 1 by decide)
    exact .lineOne 0 (.pipeMore (hone _) (.pipeOne (hone _)))
  obtain ⟨n₀, h⟩ := runcmd_accepted (show 0 ∉ [ch 'a', ch '|', ch 'b'] by decide)
    (t := fun fd => (console fd).map .inherited) (fun fd hfd => by simp [console, hfd])
    ⟨3, 4, by decide, by decide, by decide, rfl, rfl⟩
  refine ⟨max n₀ (enough .line (tokens [ch 'a', ch '|', ch 'b'] 0).length), fun n hn => ?_⟩
  have hc := parsecmd_complete (by decide) ((le_max_right _ _).trans hn) hd
  exact ⟨_, _, _, hc, h n ((le_max_left _ _).trans hn) _ _ hc, by decide⟩

/-- A redirection of a descriptor that is not open: the file gets the lowest free one instead. -/
theorem redirection_of_closed :
    ∃ es : List (Run ℕ Unit),
      runcmd [] (fun fd => (console fd).map .inherited) (.redir (.exec [1]) 7 0 5) = some es ∧
      es.map (fun e => (e.table 3, e.table 5)) = [(some (.opened [] 7 0), none)] := by
  exact ⟨_, rfl, by decide⟩

end Xv6.Sh
