import Xv6.Fs.Runs

/-!
# A shared open file

Processes that have inherited a descriptor share its `struct file`, and with it the offset. `read`
and each chunk of a `write` hold the lock of the inode from the transfer, which sleeps on the disk,
until the offset has been advanced. `lseek` takes no lock.

1. The calls on an open regular file, one after the other.
2. The same calls in two steps each, interleaved: a transfer, and then `advance`.
3. If no `lseek` comes between the two steps of another call, and nothing between the chunks of one
   `write`, every run is that of the calls in some order (`serializable_of_calm`). An `lseek`
   between the steps of a `read` is lost, and still moves the offset (`lseek_in_read`).
4. Runs of `write` alone put the chunks one after the other in the order of the lock
   (`writes_consecutive`).
-/

namespace Xv6.Fs.SharedFile

open Function StateExcept

deriving instance DecidableEq for Stat, Ret

variable (sb : Superblock) (inum : ℕ)

/-! ## Calls -/

structure Open where
  off : ℕ
  d : Dinode
  v : Volume

namespace Open

def readi (n : ℕ) (g : Open) : Except Panic (Option (List UInt8) × Open) :=
  match Fs.readi sb g.off n (g.d, g.v) with
  | .ok (r, (d, v)) => .ok (r, { g with d := d, v := v })
  | .error e => .error e

def writei (c : List UInt8) (g : Open) : Except Panic (Option ℕ × Open) :=
  match Fs.writei sb inum g.off c (g.d, { g.v with outstanding := g.v.outstanding + 1 }) with
  | .ok (r, (d, v)) => .ok (r, { g with d := d, v := v })
  | .error e => .error e

def advance (r : ℕ) (g : Open) : Open :=
  { g with off := if 0 < r then (g.off + r) % 2 ^ 32 else g.off }

def endOp (g : Open) : Open := { g with v := g.v.endOp }

def lseek (offset : ℕ) (whence : ℤ) (g : Open) : Ret × Open :=
  if g.d.size < offset then (.int (-1), g)
  else if whence = 0 then (.int 0, { g with off := offset })
  else if whence = 1 then (.int 0, { g with off := (g.off + offset) % 2 ^ 32 })
  else if whence = 2 then (.int 0, { g with off := g.d.size - offset })
  else (.int 0, g)

end Open

inductive FileCall
  | read (n : ℕ)
  | write (src : List UInt8)
  | lseek (offset : ℕ) (whence : ℤ)
  deriving DecidableEq

def chunksFrom : ℕ → List UInt8 → List (List UInt8)
  | 0, _ => []
  | fuel + 1, src =>
    if src = [] then [] else src.take maxChunk :: chunksFrom fuel (src.drop maxChunk)

def chunks (src : List UInt8) : List (List UInt8) := chunksFrom src.length src

def readRet : Option (List UInt8) → Ret
  | some bs => .bytes bs
  | none => .int (-1)

def readLength (r : Option (List UInt8)) : ℕ := (r.getD []).length

def writeAfter (c : List UInt8) (rest : Open → Except Panic (Ret × Open)) (r : Option ℕ)
    (g : Open) : Except Panic (Ret × Open) :=
  match r with
  | none => .ok (.int (-1), g.endOp)
  | some n => if n ≠ c.length then .error .shortFilewrite else rest (g.advance n).endOp

def writeFrom (src : List UInt8) : List (List UInt8) → Open → Except Panic (Ret × Open)
  | [], g => .ok (.int src.length, g)
  | c :: cs, g =>
    match g.writei sb inum c with
    | .ok (r, g) => writeAfter c (writeFrom src cs) r g
    | .error e => .error e

def call : FileCall → Open → Except Panic (Ret × Open)
  | .read n, g =>
    match g.readi sb n with
    | .ok (r, g) => .ok (readRet r, g.advance (readLength r))
    | .error e => .error e
  | .write src, g => writeFrom sb inum src (chunks src) g
  | .lseek offset whence, g => .ok (g.lseek offset whence)

/-! ## The open file of the kernel

The calls above are those of `Sysfile` on the file table and the inode cache. -/

section Kernel

variable {P : Type} {sb} {s s' : Kernel P} {f k : ℕ}

def ofKernel (s : Kernel P) (f k : ℕ) : Open := ⟨(s.ftable f).off, (s.icache k).d, s.vol⟩

theorem onInode_ofKernel {α : Type} {m : InodeM α} {a : α} (h : onInode k m s = .ok (a, s')) :
    ∃ d v, m ((s.icache k).d, s.vol) = .ok (a, (d, v)) ∧
      s'.ftable = s.ftable ∧ ofKernel s' f k = ⟨(s.ftable f).off, d, v⟩ := by
  unfold onInode at h
  split at h
  next a' d v hm =>
    cases h
    exact ⟨d, v, hm, rfl, by simp [ofKernel]⟩
  next => cases h

theorem advance_ofKernel {n : ℕ} (hoff : (s.ftable f).off < 2 ^ 32) {u : Unit}
    (h : Fs.advance f n s = .ok (u, s')) : ofKernel s' f k = (ofKernel s f k).advance n := by
  cases h
  have hmod : ((s.ftable f).off + n) % 2 ^ 32 =
      if 0 < n then ((s.ftable f).off + n) % 2 ^ 32 else (s.ftable f).off := by
    split <;> omega
  unfold ofKernel Open.advance
  simp only [setFile_ftable, update_self, setFile_icache, setFile_vol, ← hmod]

theorem transfer_ofKernel {α : Type} {m : InodeM (Option α)} {r : Option α} (len : α → ℕ)
    {after : Option α → Kern P (Option α)} (h : (onInode k m >>= after) s = .ok (r, s'))
    (hnone : after none = pure none)
    (hsome : ∀ a, after (some a) = Fs.advance f (len a) >>= fun _ => pure (some a))
    (hoff : (s.ftable f).off < 2 ^ 32) :
    ∃ d v, m ((s.icache k).d, s.vol) = .ok (r, (d, v)) ∧
      ofKernel s' f k = Open.advance ((r.map len).getD 0) ⟨(s.ftable f).off, d, v⟩ := by
  obtain ⟨r', s1, h1, h⟩ := bind_ok.mp h
  obtain ⟨d, v, hr, hft, hof⟩ := onInode_ofKernel (f := f) h1
  cases r' with
  | none =>
    rw [hnone] at h
    obtain ⟨rfl, rfl⟩ := pure_ok h
    exact ⟨d, v, hr, hof⟩
  | some a =>
    rw [hsome] at h
    obtain ⟨_, s2, h2, h⟩ := bind_ok.mp h
    obtain ⟨rfl, rfl⟩ := pure_ok h
    refine ⟨d, v, hr, ?_⟩
    rw [advance_ofKernel (by rw [hft]; exact hoff) h2, hof]
    rfl

theorem filelseek_ofKernel {offset : ℕ} {whence : ℤ} {r : Ret} (hip : (s.ftable f).ip = some k)
    (h : filelseek f offset whence s = .ok (r, s')) :
    (ofKernel s f k).lseek offset whence = (r, ofKernel s' f k) := by
  unfold filelseek at h
  rw [hip] at h
  unfold Open.lseek
  show (if (s.icache k).d.size < offset then _ else _) = _
  dsimp only at h
  split at h
  next hc =>
    cases h
    exact if_pos hc
  next hc =>
    rw [if_neg hc]
    split_ifs at h ⊢ <;> obtain ⟨rfl, rfl⟩ := Prod.mk.inj (Except.ok.inj h) <;>
      simp [ofKernel]

theorem open_simulates (hoff : (s.ftable f).off < 2 ^ 32) (hip : (s.ftable f).ip = some k) :
    (∀ n r, readAt sb f k n s = .ok (r, s') → ∃ g, (ofKernel s f k).readi sb n = .ok (r, g) ∧
      ofKernel s' f k = g.advance (readLength r)) ∧
    (∀ c r, writeAt sb f k c { s with
        vol := { s.vol with outstanding := s.vol.outstanding + 1 } } = .ok (r, s') →
      ∃ g, (ofKernel s f k).writei sb (s.icache k).inum c = .ok (r, g) ∧
        ofKernel s' f k = g.advance (r.getD 0)) ∧
    ∀ offset whence r, filelseek f offset whence s = .ok (r, s') →
      (ofKernel s f k).lseek offset whence = (r, ofKernel s' f k) := by
  refine ⟨fun n r h => ?_, fun c r h => ?_, fun _ _ _ h => filelseek_ofKernel hip h⟩
  · unfold readAt at h
    rw [get_bind] at h
    obtain ⟨d, v, hr, hof⟩ := transfer_ofKernel List.length h rfl (fun _ => rfl) hoff
    refine ⟨⟨(s.ftable f).off, d, v⟩, by simp only [Open.readi, ofKernel, hr], ?_⟩
    cases r <;> exact hof
  · unfold writeAt at h
    rw [get_bind] at h
    obtain ⟨d, v, hr, hof⟩ := transfer_ofKernel id h rfl (fun _ => rfl) hoff
    dsimp only at hr
    refine ⟨⟨(s.ftable f).off, d, v⟩, by simp only [Open.writei, ofKernel, hr], ?_⟩
    cases r <;> exact hof

end Kernel

/-! ## Interleaved calls -/

inductive Pc
  | idle
  /-- in `fileread`, before `f->off += r` -/
  | reading (n : ℕ) (r : Option (List UInt8))
  /-- in `filewrite`, with the chunks `cs` left -/
  | writing (src : List UInt8) (cs : List (List UInt8))
  /-- in `filewrite`, after the transfer of `c` and before `f->off += r` -/
  | wrote (src c : List UInt8) (cs : List (List UInt8)) (r : Option ℕ)
  deriving DecidableEq

structure Event (P : Type) where
  p : P
  call : FileCall
  ret : Ret
  deriving DecidableEq

/-- The state. The last two fields are a record: the calls that have returned, and the chunks that
have been transferred, in this order. -/
structure Sys (P : Type) where
  g : Open
  lock : Option P
  pc : P → Pc
  hist : List (Event P)
  sent : List (P × List UInt8)

inductive Label (P : Type)
  /-- `fileread`: take the lock and transfer at the current offset. -/
  | read (p : P) (n : ℕ)
  /-- `filewrite` is called. -/
  | write (p : P) (src : List UInt8)
  /-- One chunk of `filewrite`: take the lock and transfer at the current offset. -/
  | chunk (p : P)
  /-- Advance the offset and release the lock. -/
  | advance (p : P)
  | lseek (p : P) (offset : ℕ) (whence : ℤ)

variable {P : Type} [DecidableEq P]

namespace Sys

def goto (s : Sys P) (p : P) (pc : Pc) : Sys P := { s with pc := update s.pc p pc }

def ret (s : Sys P) (p : P) (c : FileCall) (r : Ret) : Sys P :=
  { s.goto p .idle with hist := s.hist ++ [⟨p, c, r⟩] }

def acquire (s : Sys P) (p : P) (g : Open) : Sys P := { s with g := g, lock := some p }

def record (s : Sys P) (done : Bool) (x : P × List UInt8) : Sys P :=
  { s with sent := if done then s.sent ++ [x] else s.sent }

def release (s : Sys P) (g : Open) : Sys P := { s with g := g, lock := none }

def advance (s : Sys P) (p : P) : Option (Sys P) :=
  match s.pc p with
  | .reading n r => some ((s.ret p (.read n) (readRet r)).release (s.g.advance (readLength r)))
  | .wrote src _ _ none => some ((s.ret p (.write src) (.int (-1))).release s.g.endOp)
  | .wrote src c cs (some n) =>
    if n ≠ c.length then none
    else if cs = [] then
      some ((s.ret p (.write src) (.int src.length)).release (s.g.advance n).endOp)
    else some ((s.goto p (.writing src cs)).release (s.g.advance n).endOp)
  | _ => none

end Sys

def step (s : Sys P) : Label P → Option (Sys P)
  | .read p n =>
    if s.pc p = .idle ∧ s.lock = none then
      match s.g.readi sb n with
      | .ok (r, g) => some ((s.goto p (.reading n r)).acquire p g)
      | .error _ => none
    else none
  | .write p src =>
    if s.pc p = .idle then
      if chunks src = [] then some (s.ret p (.write src) (.int src.length))
      else some (s.goto p (.writing src (chunks src)))
    else none
  | .chunk p =>
    match s.pc p with
    | .writing src (c :: cs) =>
      if s.lock = none ∧ s.g.v.hasRoom then
        match s.g.writei sb inum c with
        | .ok (r, g) =>
          some (((s.goto p (.wrote src c cs r)).acquire p g).record r.isSome (p, c))
        | .error _ => none
      else none
    | _ => none
  | .advance p => s.advance p
  | .lseek p offset whence =>
    if s.pc p = .idle then
      let (r, g) := s.g.lseek offset whence
      some { s.ret p (.lseek offset whence) r with g := g }
    else none

def start (g : Open) : Sys P := ⟨g, none, fun _ => .idle, [], []⟩

/-! ## Serial runs -/

def replay : List (Event P) → Open → Option Open
  | [], g => some g
  | e :: es, g =>
    match call sb inum e.call g with
    | .ok (r, g) => if r = e.ret then replay es g else none
    | .error _ => none

/-- The calls that have returned, and the file, are those of a serial run: some order of the calls
that respects the order of each process. -/
def Serializable (g₀ : Open) (s : Sys P) : Prop :=
  ∃ es : List (Event P), es.Perm s.hist ∧
    (∀ p, es.filter (·.p = p) = s.hist.filter (·.p = p)) ∧ replay sb inum es g₀ = some s.g

def Pc.Midway : Pc → Prop
  | .idle => False
  | .reading _ _ => True
  | .writing src cs => cs ≠ chunks src
  | .wrote _ _ _ _ => True

instance : DecidablePred Pc.Midway
  | .idle => isFalse id
  | .reading _ _ => isTrue trivial
  | .writing src cs => inferInstanceAs (Decidable (cs ≠ chunks src))
  | .wrote _ _ _ _ => isTrue trivial

def Midway (s : Sys P) (p : P) : Prop := (s.pc p).Midway

instance (s : Sys P) : DecidablePred (Midway s) := fun p =>
  inferInstanceAs (Decidable (s.pc p).Midway)

/-- The step does not come between the two halves of another call's step, nor between two chunks of
another process. -/
def Calm (s : Sys P) : Label P → Prop
  | .read p _ => ∀ q, q ≠ p → ¬ Midway s q
  | .chunk p => ∀ q, q ≠ p → ¬ Midway s q
  | .lseek p _ _ => ∀ q, q ≠ p → ¬ Midway s q
  | .write _ _ => True
  | .advance _ => True

instance [Fintype P] (s : Sys P) : DecidablePred (Calm s)
  | .read p _ => inferInstanceAs (Decidable (∀ q, q ≠ p → ¬ Midway s q))
  | .chunk p => inferInstanceAs (Decidable (∀ q, q ≠ p → ¬ Midway s q))
  | .lseek p _ _ => inferInstanceAs (Decidable (∀ q, q ≠ p → ¬ Midway s q))
  | .write _ _ => isTrue trivial
  | .advance _ => isTrue trivial

variable {sb inum} {K : Set ℕ} {s s' : Sys P} {g g₀ : Open} {p : P}

omit [DecidableEq P] in
theorem replay_append (es : List (Event P)) {e : Event P} {g' : Open}
    (h : replay sb inum es g₀ = some g) (hc : call sb inum e.call g = .ok (e.ret, g')) :
    replay sb inum (es ++ [e]) g₀ = some g' := by
  induction es generalizing g₀ with
  | nil =>
    cases h
    rw [List.nil_append, replay, hc]
    simp [replay]
  | cons e' es ih =>
    rw [List.cons_append]
    unfold replay at h ⊢
    cases hc' : call sb inum e'.call g₀ with
    | error x => simp [hc'] at h
    | ok y =>
      simp only [hc'] at h ⊢
      split at h
      next hr => rw [if_pos hr]; exact ih h
      next => cases h

variable (sb inum) in
def Progress (g : Open) (s : Sys P) (p : P) : Prop :=
  match s.pc p with
  | .idle => False
  | .reading n r => g.readi sb n = .ok (r, s.g)
  | .writing src cs =>
    cs ≠ [] ∧ cs.length < (chunks src).length ∧
      call sb inum (.write src) g = writeFrom sb inum src cs s.g
  | .wrote src c cs r =>
    cs.length < (chunks src).length ∧
      call sb inum (.write src) g = writeAfter c (writeFrom sb inum src cs) r s.g

variable (sb inum) in
/-- The calls that have returned make a serial run, which one more call may be about to extend. -/
inductive Serial (g₀ : Open) (s : Sys P) : Prop
  | quiet (h : replay sb inum s.hist g₀ = some s.g) (hq : ∀ q, ¬ Midway s q)
  | busy (g : Open) (p : P) (h : replay sb inum s.hist g₀ = some g)
      (hq : ∀ q, q ≠ p → ¬ Midway s q) (hp : Progress sb inum g s p)

omit [DecidableEq P] in
theorem Progress.midway (h : Progress sb inum g s p) : Midway s p := by
  unfold Progress at h
  unfold Midway
  cases hpc : s.pc p with
  | idle => simp [hpc] at h
  | reading n r => trivial
  | wrote src c cs r => trivial
  | writing src cs =>
    rw [hpc] at h
    rintro rfl
    exact absurd h.2.1 (lt_irrefl _)

omit [DecidableEq P] in
theorem midway_congr {q : P} (h : s'.pc q = s.pc q) : Midway s' q ↔ Midway s q := by
  unfold Midway
  rw [h]

theorem Serial.of_calm (h : Serial sb inum g₀ s) (hc : ∀ q, q ≠ p → ¬ Midway s q) :
    (replay sb inum s.hist g₀ = some s.g ∧ ¬ Midway s p) ∨
      ∃ g, replay sb inum s.hist g₀ = some g ∧ Progress sb inum g s p := by
  cases h with
  | quiet h hq => exact .inl ⟨h, hq p⟩
  | busy g p' h hq hp =>
    by_cases hpp : p' = p
    · exact .inr ⟨g, h, hpp ▸ hp⟩
    · exact absurd hp.midway (hc p' hpp)

omit [DecidableEq P] in
theorem not_midway_of_idle (h : s.pc p = .idle) : ¬ Midway s p := by
  unfold Midway
  rw [h]
  exact id

theorem Serial.of_idle (h : Serial sb inum g₀ s) (hc : ∀ q, q ≠ p → ¬ Midway s q)
    (hp : s.pc p = .idle) : replay sb inum s.hist g₀ = some s.g := by
  rcases h.of_calm hc with ⟨h, -⟩ | ⟨g, -, hprog⟩
  · exact h
  · exact absurd hprog.midway (not_midway_of_idle hp)

theorem Serial.goto (h : Serial sb inum g₀ s) (pc : Pc) (hp : ¬ Midway s p)
    (hpc : ¬ Midway (s.goto p pc) p) : Serial sb inum g₀ (s.goto p pc) := by
  have hq : ∀ q, ¬ Midway s q → ¬ Midway (s.goto p pc) q := by
    intro q hq
    by_cases hqp : q = p
    · exact hqp ▸ hpc
    · rwa [midway_congr (s := s) (update_of_ne hqp ..)]
  cases h with
  | quiet h hnone => exact .quiet h fun q => hq q (hnone q)
  | busy g p' h hnone hprog =>
    have hpp : p' ≠ p := by rintro rfl; exact hp hprog.midway
    refine .busy g p' h (fun q hqp => hq q (hnone q hqp)) ?_
    unfold Progress at hprog ⊢
    rwa [show (s.goto p pc).pc p' = s.pc p' from update_of_ne hpp ..]

theorem midway_ret {q : P} (hq : q ≠ p → ¬ Midway s q) (hs : s'.pc = update s.pc p .idle) :
    ¬ Midway s' q := by
  by_cases hqp : q = p
  · refine not_midway_of_idle ?_
    rw [hs, hqp]
    exact update_self ..
  · rw [midway_congr (s := s) (by rw [hs]; exact update_of_ne hqp ..)]
    exact hq hqp

theorem Serial.read {n : ℕ} (h : Serial sb inum g₀ s) (hc : Calm s (.read p n))
    (hs : step sb inum s (.read p n) = some s') : Serial sb inum g₀ s' := by
  obtain ⟨⟨hidle, -⟩, hs⟩ := Option.ite_none_right_eq_some.mp hs
  have hreplay := h.of_idle hc hidle
  cases hr : s.g.readi sb n with
  | error e => simp [hr] at hs
  | ok x =>
    rw [hr] at hs
    cases hs
    refine .busy s.g p hreplay (fun q hqp => ?_) ?_
    · rw [midway_congr (s := s) (update_of_ne hqp ..)]
      exact hc q hqp
    · unfold Progress
      rw [show ((s.goto p (.reading n x.1)).acquire p x.2).pc p = _ from update_self ..]
      exact hr

theorem Serial.write {src : List UInt8} (h : Serial sb inum g₀ s)
    (hs : step sb inum s (.write p src) = some s') : Serial sb inum g₀ s' := by
  obtain ⟨hidle, hs⟩ := Option.ite_none_right_eq_some.mp hs
  have hp := not_midway_of_idle hidle
  split at hs
  next hnil =>
    cases hs
    -- a call without an effect, wherever it comes in the order
    have hcall : ∀ g, call sb inum (.write src) g = .ok (.int src.length, g) := by
      intro g
      simp only [call, hnil, writeFrom]
    have hgoto := h.goto .idle hp (not_midway_of_idle (update_self ..))
    cases hgoto with
    | quiet h hq => exact .quiet (replay_append _ h (hcall _)) hq
    | busy g p' h hq hprog => exact .busy g p' (replay_append _ h (hcall _)) hq hprog
  next =>
    cases hs
    refine h.goto _ hp ?_
    simp [Midway, Pc.Midway, Sys.goto]

theorem chunk_cases (hs : step sb inum s (.chunk p) = some s') :
    ∃ src c cs r g, s.pc p = .writing src (c :: cs) ∧ s.lock = none ∧
      s.g.writei sb inum c = .ok (r, g) ∧
      s' = ((s.goto p (.wrote src c cs r)).acquire p g).record r.isSome (p, c) := by
  simp only [step] at hs
  cases hpc : s.pc p with
  | idle => simp [hpc] at hs
  | reading n r => simp [hpc] at hs
  | wrote src c cs r => simp [hpc] at hs
  | writing src cs =>
    cases cs with
    | nil => simp [hpc] at hs
    | cons c cs =>
      rw [hpc] at hs
      obtain ⟨⟨hlock, -⟩, hs⟩ := Option.ite_none_right_eq_some.mp hs
      cases hw : s.g.writei sb inum c with
      | error e => simp [hw] at hs
      | ok x =>
        rw [hw] at hs
        exact ⟨src, c, cs, x.1, x.2, rfl, hlock, hw, (Option.some.inj hs).symm⟩

theorem advance_cases (hs : s.advance p = some s') :
    (∃ n r, s.pc p = .reading n r ∧
      s' = (s.ret p (.read n) (readRet r)).release (s.g.advance (readLength r))) ∨
    (∃ src c cs, s.pc p = .wrote src c cs none ∧
      s' = (s.ret p (.write src) (.int (-1))).release s.g.endOp) ∨
    (∃ src c, s.pc p = .wrote src c [] (some c.length) ∧
      s' = (s.ret p (.write src) (.int src.length)).release (s.g.advance c.length).endOp) ∨
    ∃ src c cs, s.pc p = .wrote src c cs (some c.length) ∧ cs ≠ [] ∧
      s' = (s.goto p (.writing src cs)).release (s.g.advance c.length).endOp := by
  unfold Sys.advance at hs
  cases hpc : s.pc p with
  | idle => simp [hpc] at hs
  | reading n r =>
    rw [hpc] at hs
    exact .inl ⟨n, r, rfl, (Option.some.inj hs).symm⟩
  | writing src cs => simp [hpc] at hs
  | wrote src c cs r =>
    rw [hpc] at hs
    cases r with
    | none => exact .inr (.inl ⟨src, c, cs, rfl, (Option.some.inj hs).symm⟩)
    | some n =>
      dsimp only at hs
      by_cases hn : n ≠ c.length
      · rw [if_pos hn] at hs; cases hs
      obtain rfl := not_not.mp hn
      rw [if_neg hn] at hs
      by_cases hcs : cs = []
      · rw [if_pos hcs] at hs
        subst hcs
        exact .inr (.inr (.inl ⟨src, c, rfl, (Option.some.inj hs).symm⟩))
      · rw [if_neg hcs] at hs
        exact .inr (.inr (.inr ⟨src, c, cs, rfl, hcs, (Option.some.inj hs).symm⟩))

theorem Serial.chunk (h : Serial sb inum g₀ s) (hc : Calm s (.chunk p))
    (hs : step sb inum s (.chunk p) = some s') : Serial sb inum g₀ s' := by
  obtain ⟨src, c, cs, r, g', hpc, -, hw, rfl⟩ := chunk_cases hs
  -- before the first chunk the call starts from the current state
  obtain ⟨g, hg, hlen, hcall⟩ : ∃ g, replay sb inum s.hist g₀ = some g ∧
      (c :: cs).length ≤ (chunks src).length ∧
      call sb inum (.write src) g = writeFrom sb inum src (c :: cs) s.g := by
    rcases h.of_calm hc with ⟨h, hmid⟩ | ⟨g, h, hprog⟩
    · simp only [Midway, hpc, Pc.Midway, ne_eq, not_not] at hmid
      exact ⟨s.g, h, by rw [hmid], by rw [call, hmid]⟩
    · simp only [Progress, hpc] at hprog
      exact ⟨g, h, hprog.2.1.le, hprog.2.2⟩
  refine .busy g p hg (fun q hqp => ?_) ?_
  · rw [midway_congr (s := s) (update_of_ne hqp ..)]
    exact hc q hqp
  · have hnext : (((s.goto p (.wrote src c cs r)).acquire p g').record r.isSome
        (p, c)).pc p = .wrote src c cs r := update_self ..
    unfold Progress
    rw [hnext]
    refine ⟨by simpa using hlen, ?_⟩
    rw [hcall, writeFrom, hw]
    rfl

theorem Serial.advance (h : Serial sb inum g₀ s) (hs : s.advance p = some s') :
    Serial sb inum g₀ s' := by
  have hcases := advance_cases hs
  -- the process is midway, so it is the one that is
  have hmid : Midway s p := by
    unfold Midway
    rcases hcases with ⟨_, _, hpc, -⟩ | ⟨_, _, _, hpc, -⟩ | ⟨_, _, hpc, -⟩ | ⟨_, _, _, hpc, -⟩ <;>
      rw [hpc] <;> trivial
  cases h with
  | quiet _ hq => exact absurd hmid (hq p)
  | busy g p' h hq hprog =>
    obtain rfl : p' = p := by
      by_contra hne
      exact hq p (Ne.symm hne) hmid
    unfold Progress at hprog
    rcases hcases with ⟨n, r, hpc, rfl⟩ | ⟨src, c, cs, hpc, rfl⟩ | ⟨src, c, hpc, rfl⟩ |
      ⟨src, c, cs, hpc, hcs, rfl⟩ <;> rw [hpc] at hprog
    · refine .quiet (replay_append _ h ?_) fun q => midway_ret (hq q) rfl
      simp only [call, hprog]
      rfl
    · exact .quiet (replay_append _ h hprog.2) fun q => midway_ret (hq q) rfl
    · refine .quiet (replay_append _ h ?_) fun q => midway_ret (hq q) rfl
      rw [hprog.2, writeAfter, if_neg (not_not.mpr rfl), writeFrom]
      rfl
    · refine .busy g p' h (fun q hqp => ?_) ?_
      · rw [midway_congr (s := s) (update_of_ne hqp ..)]
        exact hq q hqp
      · unfold Progress
        rw [show ((s.goto p' (.writing src cs)).release _).pc p' = _ from update_self ..]
        refine ⟨hcs, hprog.1, ?_⟩
        rw [hprog.2, writeAfter, if_neg (not_not.mpr rfl)]
        rfl

theorem Serial.lseek {offset : ℕ} {whence : ℤ} (h : Serial sb inum g₀ s)
    (hc : Calm s (.lseek p offset whence))
    (hs : step sb inum s (.lseek p offset whence) = some s') : Serial sb inum g₀ s' := by
  obtain ⟨hidle, rfl⟩ := Lts.of_guard hs
  exact .quiet (replay_append _ (h.of_idle hc hidle) rfl) fun q => midway_ret (hc q) rfl

theorem Serial.step {l : Label P} (h : Serial sb inum g₀ s) (hc : Calm s l)
    (hs : step sb inum s l = some s') : Serial sb inum g₀ s' := by
  cases l with
  | read p n => exact h.read hc hs
  | write p src => exact h.write hs
  | chunk p => exact h.chunk hc hs
  | advance p => exact h.advance hs
  | lseek p offset whence => exact h.lseek hc hs

/-- **Serial calls.** If no `lseek` comes between the transfer of another call and its advance of
the offset, and no transfer or `lseek` between two chunks of a `write`, then, whenever all calls
have returned, what they have returned and the file are those of the calls in some order. -/
theorem serializable_of_calm (g₀ : Open) (s : Sys P)
    (h : Lts.Reach (step sb inum) Calm (start g₀) s) (hidle : ∀ p, s.pc p = .idle) :
    Serializable sb inum g₀ s := by
  have hserial : Serial sb inum g₀ s :=
    h.invariant (.quiet rfl fun q => not_midway_of_idle rfl) fun _ _ _ hi hok hs => hi.step hok hs
  cases hserial with
  | quiet h hq => exact ⟨s.hist, .refl _, fun _ => rfl, h⟩
  | busy g p _ _ hprog => exact absurd hprog.midway (not_midway_of_idle (hidle p))

/-! ### A small file -/

def fileDisk : Volume :=
  { bareDisk with dinode := update bareDisk.dinode 2 { Dinode.zero with type := .file } }

def emptyFile : Open := ⟨0, fileDisk.dinode 2, fileDisk⟩

def turns : List (Label (Fin 2)) :=
  [.write 0 [97, 98], .chunk 0, .advance 0, .lseek 1 1 0, .read 1 1, .advance 1]

theorem serializable_turns : ∃ s : Sys (Fin 2),
    Lts.run (step sb0 2) (start emptyFile) turns = some s ∧ s.g.off = 2 ∧
      Serializable sb0 2 emptyFile s := by
  obtain ⟨s, hrun, hreach, hq⟩ := @Lts.exists_reach _ _ (step sb0 2) Calm (start emptyFile) turns
    (fun s => s.g.off = 2 ∧ ∀ p, s.pc p = .idle) (by decide +kernel) (by decide +kernel)
  obtain ⟨hoff, hidle⟩ := of_decide_eq_true hq
  exact ⟨s, hrun, hoff, serializable_of_calm emptyFile s hreach hidle⟩

def race : List (Label (Fin 2)) :=
  [.write 0 [97, 98], .chunk 0, .advance 0, .lseek 0 0 0, .read 1 1, .lseek 0 1 0, .advance 1]

/-- **An `lseek` during a `read`.** The `read` returns the first byte and the offset ends up at 2,
which no order of the calls explains. -/
theorem lseek_in_read : ∃ s : Sys (Fin 2),
    Lts.run (step sb0 2) (start emptyFile) race = some s ∧ (∀ p, s.pc p = .idle) ∧
      s.hist.getLast?.map Event.ret = some (.bytes [97]) ∧ s.g.off = 2 ∧
      ∀ es : List (Event (Fin 2)), es.Perm s.hist → ∀ g, replay sb0 2 es emptyFile = some g →
        g.off ≠ 2 := by
  obtain ⟨s, hrun, hq⟩ := (Option.any_eq_true _ _).mp (show
    (Lts.run (step sb0 2) (start emptyFile) race).any (fun s =>
      (∀ p, s.pc p = .idle) ∧ s.hist.getLast?.map Event.ret = some (.bytes [97]) ∧ s.g.off = 2 ∧
      ∀ es ∈ s.hist.permutations', (replay sb0 2 es emptyFile).all fun g => g.off ≠ 2) = true by
    decide +kernel)
  obtain ⟨hidle, hlast, hoff, hall⟩ := of_decide_eq_true hq
  refine ⟨s, hrun, hidle, hlast, hoff, fun es hes g hg => ?_⟩
  have := hall es (List.mem_permutations'.mpr hes)
  rw [hg] at this
  simpa using this

/-! ## Writers -/

def bytes (xs : List (P × List UInt8)) : List UInt8 := (xs.map Prod.snd).flatten

def bytesOf (p : P) (xs : List (P × List UInt8)) : List UInt8 := bytes (xs.filter (·.1 = p))

def FileCall.src : FileCall → List UInt8
  | .write src => src
  | _ => []

def Pc.src : Pc → List UInt8
  | .writing src _ => src
  | .wrote src _ _ _ => src
  | _ => []

def Pc.rest : Pc → List UInt8
  | .writing _ cs => cs.flatten
  | .wrote _ c cs r => if r.isSome then cs.flatten else c ++ cs.flatten
  | _ => []

def returned (p : P) (es : List (Event P)) : List UInt8 :=
  ((es.filter (·.p = p)).map fun e => e.call.src).flatten

def asked (s : Sys P) (p : P) : List UInt8 := returned p s.hist ++ (s.pc p).src

/-- The processes only write, and no chunk would exceed the largest size of a file. -/
def Fits (s : Sys P) : Label P → Prop
  | .read _ _ => False
  | .write _ _ => True
  | .chunk p => ∀ src c cs, s.pc p = .writing src (c :: cs) →
      s.g.off + c.length ≤ MAXFILE * BSIZE
  | .advance _ => True
  | .lseek _ _ _ => False

theorem flatten_chunksFrom (fuel : ℕ) (src : List UInt8) (h : src.length ≤ fuel) :
    (chunksFrom fuel src).flatten = src := by
  induction fuel generalizing src with
  | zero =>
    obtain rfl : src = [] := List.length_eq_zero_iff.mp (by omega)
    rfl
  | succ fuel ih =>
    unfold chunksFrom
    split
    next hnil => rw [hnil]; rfl
    next hne =>
      have hpos : 0 < src.length := List.length_pos_iff.mpr hne
      have hmax : 0 < maxChunk := by decide
      rw [List.flatten_cons, ih _ (by rw [List.length_drop]; omega), List.take_append_drop]

theorem flatten_chunks (src : List UInt8) : (chunks src).flatten = src :=
  flatten_chunksFrom _ _ le_rfl

omit [DecidableEq P] in
@[simp] theorem bytes_append (xs ys : List (P × List UInt8)) :
    bytes (xs ++ ys) = bytes xs ++ bytes ys := by
  simp [bytes]

omit [DecidableEq P] in
@[simp] theorem bytes_singleton (x : P × List UInt8) : bytes [x] = x.2 := by simp [bytes]

def Pc.pending : Pc → ℕ
  | .wrote _ _ _ (some n) => n
  | _ => 0

variable (sb inum K) in
structure Holds (g₀ g : Open) (bs : List UInt8) : Prop where
  inv : VolInv sb K g.v g.v.dinode
  dinode : g.v.dinode inum = g.d
  type : g.d.type = .file
  bound : bs ≠ [] → g₀.off ≤ g₀.d.size ∧ g₀.off + bs.length ≤ MAXFILE * BSIZE
  size : g.d.size = if bs = [] then g₀.d.size else max g₀.d.size (g₀.off + bs.length)
  written : ∀ i < bs.length, byteAt g.v.data g.d (g₀.off + i) = bs.getD i 0
  kept : ∀ m < g₀.d.size, m < g₀.off ∨ g₀.off + bs.length ≤ m →
    byteAt g.v.data g.d m = byteAt g₀.v.data g₀.d m

theorem Holds.congr {g' : Open} {bs : List UInt8} (h : Holds sb inum K g₀ g bs)
    (hd : g'.d = g.d) (hv : g'.v = { g.v with lh := g'.v.lh, outstanding := g'.v.outstanding }) :
    Holds sb inum K g₀ g' bs := by
  have hdata : g'.v.data = g.v.data := by rw [hv]
  have hdinode : g'.v.dinode = g.v.dinode := by rw [hv]
  have hbitmap : g'.v.bitmap = g.v.bitmap := by rw [hv]
  refine ⟨⟨?_, ?_, ?_⟩, ?_, ?_, h.bound, ?_, ?_, ?_⟩
  · rw [hdata, hdinode, hbitmap]; exact h.inv.owns
  · rw [hbitmap]; exact h.inv.low
  · rw [hdata, hdinode]; exact h.inv.noHole
  · rw [hdinode, hd]; exact h.dinode
  · rw [hd]; exact h.type
  · rw [hd]; exact h.size
  · rw [hdata, hd]; exact h.written
  · rw [hdata, hd]; exact h.kept

theorem Holds.endOp {bs : List UInt8} (h : Holds sb inum K g₀ g bs) :
    Holds sb inum K g₀ g.endOp bs := h.congr rfl rfl

theorem Holds.advance {bs : List UInt8} (h : Holds sb inum K g₀ g bs) (n : ℕ) :
    Holds sb inum K g₀ (g.advance n) bs := h.congr rfl rfl

theorem Holds.le_size {bs : List UInt8} (h : Holds sb inum K g₀ g bs) :
    g₀.d.size ≤ g.d.size ∧ (bs ≠ [] → g₀.off + bs.length ≤ g.d.size) := by
  rw [h.size]
  split
  next hnil => exact ⟨le_rfl, fun hne => absurd hnil hne⟩
  next => exact ⟨le_max_left .., fun _ => le_max_right ..⟩

theorem Holds.append {bs c : List UInt8} {d : Dinode} {v v1 : Volume} (h : Holds sb inum K g₀ g bs)
    (hoff : g.off = g₀.off + bs.length) (hle : g.off ≤ g.d.size)
    (hmax : g.off + c.length ≤ MAXFILE * BSIZE) (hv : VolInv sb K v v.dinode)
    (hdinode : v.dinode = update g.v.dinode inum d)
    (hd : d = { g.d with size := max g.d.size (g.off + c.length), addrs := d.addrs })
    (hdata : v1.data = v.data) (hw : Wrote inum g.off c g.d g.v { d with size := g.d.size } v1)
    (hc : c ≠ []) : Holds sb inum K g₀ ⟨g.off, d, v⟩ (bs ++ c) := by
  have hbyte : ∀ m, byteAt v.data d m = byteAt v1.data { d with size := g.d.size } m := by
    intro m
    rw [hdata]
    rfl
  have hback : ∀ m < g.d.size, Backed g.v.data g.d m := by
    intro m hm
    have := h.inv.noHole inum (by rw [h.dinode, h.type]; decide)
    rw [h.dinode] at this
    exact this.backed hm
  have hne : bs ++ c ≠ [] := by simp [hc]
  obtain ⟨hsize, hend⟩ := h.le_size
  have hlen : (bs ++ c).length = bs.length + c.length := List.length_append
  refine ⟨hv, ?_, ?_, fun _ => ⟨?_, ?_⟩, ?_, fun i hi => ?_, fun m hm hout => ?_⟩
  · show v.dinode inum = d
    rw [hdinode, update_self]
  · show d.type = .file
    rw [hd]; exact h.type
  · by_cases hbs : bs = []
    · have := h.size
      rw [if_pos hbs] at this
      rw [hbs, List.length_nil] at hoff
      omega
    · exact (h.bound hbs).1
  · rw [hlen]; omega
  · show d.size = _
    rw [if_neg hne, hd, hlen]
    dsimp only
    rw [h.size]
    split <;> omega
  · show byteAt v.data d (g₀.off + i) = _
    rw [hbyte]
    by_cases hib : i < bs.length
    · have hbs : bs ≠ [] := by rintro rfl; simp at hib
      rw [hw.kept _ (.inl (by omega)) (hback _ (by have := hend hbs; omega)), h.written i hib]
      simp only [List.getD_eq_getElem?_getD, List.getElem?_append_left hib]
    · have := hw.written (i - bs.length) (by omega)
      rw [show g.off + (i - bs.length) = g₀.off + i by omega] at this
      rw [this]
      simp only [List.getD_eq_getElem?_getD, List.getElem?_append_right (not_lt.mp hib)]
  · show byteAt v.data d m = _
    rw [hbyte, hw.kept m (by omega) (hback m (by omega)), h.kept m hm (by omega)]

theorem Holds.writei {bs c : List UInt8} {g' : Open} {r : Option ℕ} (hsb : sb.WF)
    (h : Holds sb inum K g₀ g bs) (hoff : g.off = g₀.off + bs.length)
    (hmax : g.off + c.length ≤ MAXFILE * BSIZE) (hc : c ≠ [])
    (hr : g.writei sb inum c = .ok (r, g')) :
    g'.off = g.off ∧ (r = none ∧ g.d.size < g.off ∧ Holds sb inum K g₀ g' bs ∨
      r = some c.length ∧ Holds sb inum K g₀ g' (bs ++ c)) := by
  unfold Open.writei at hr
  cases hw : Fs.writei sb inum g.off c
      (g.d, { g.v with outstanding := g.v.outstanding + 1 }) with
  | error e => simp [hw] at hr
  | ok x =>
    obtain ⟨r', d, v⟩ := x
    rw [hw] at hr
    cases hr
    refine ⟨rfl, ?_⟩
    have hg : Holds sb inum K g₀ ⟨g.off, g.d, { g.v with outstanding := g.v.outstanding + 1 }⟩ bs :=
      h.congr rfl rfl
    rcases writei_inv hg.inv hsb hg.dinode (by rw [h.type]; decide) hw with
      ⟨rfl, hsame⟩ | ⟨rfl, hle, hv, hdinode, hd, v1, hdata, hwrote⟩
    · cases hsame
      refine .inl ⟨rfl, ?_, hg⟩
      by_contra hle
      have h32 : MAXFILE * BSIZE < 2 ^ 32 := by decide
      unfold Fs.writei at hw
      rw [get_bind] at hw
      dsimp only at hw
      rw [if_neg (by omega), if_neg (by omega)] at hw
      obtain ⟨_, _, -, hw⟩ := bind_ok.mp hw
      split at hw
      · obtain ⟨_, _, -, hw⟩ := bind_ok.mp hw
        obtain ⟨_, _, -, hw⟩ := bind_ok.mp hw
        cases (pure_ok hw).1
      · cases (pure_ok hw).1
    · exact .inr ⟨rfl, hg.append hoff hle hmax hv hdinode hd hdata hwrote hc⟩

/-- The code of a process that only writes; `held` says that it holds the lock and `bs` are the
bytes transferred so far, by anyone. -/
def Pc.Writer (held : Prop) (bs : List UInt8) : Pc → Prop
  | .idle => True
  | .reading _ _ => False
  | .writing _ cs => ∀ c ∈ cs, c ≠ []
  | .wrote _ c cs r =>
    held ∧ (∀ c ∈ cs, c ≠ []) ∧ ∀ n, r = some n → n = c.length ∧ bs ≠ []

def Sys.pending (s : Sys P) : ℕ := s.lock.elim 0 fun p => (s.pc p).pending

variable (sb inum K) in
structure Consecutive (g₀ : Open) (s : Sys P) : Prop where
  file : Holds sb inum K g₀ s.g (bytes s.sent)
  off : s.g.off + s.pending = g₀.off + (bytes s.sent).length
  writer : ∀ p, (s.pc p).Writer (s.lock = some p) (bytes s.sent)

theorem ne_nil_of_mem_chunksFrom (fuel : ℕ) (src : List UInt8) :
    ∀ c ∈ chunksFrom fuel src, c ≠ [] := by
  induction fuel generalizing src with
  | zero => exact fun c hc => absurd hc List.not_mem_nil
  | succ fuel ih =>
    unfold chunksFrom
    split
    next => exact fun c hc => absurd hc List.not_mem_nil
    next hne =>
      intro c hc
      rcases List.mem_cons.mp hc with rfl | hc
      · have hmax : maxChunk ≠ 0 := by decide
        simp [hne, hmax]
      · exact ih _ c hc

theorem Consecutive.goto (h : Consecutive sb inum K g₀ s) (pc : Pc)
    (hpend : pc.pending = (s.pc p).pending) (hw : pc.Writer (s.lock = some p) (bytes s.sent)) :
    Consecutive sb inum K g₀ (s.goto p pc) := by
  have hsame : (s.goto p pc).pending = s.pending := by
    show s.lock.elim 0 (fun q => (update s.pc p pc q).pending) =
      s.lock.elim 0 fun q => (s.pc q).pending
    cases s.lock with
    | none => rfl
    | some q =>
      by_cases hqp : q = p
      · subst hqp; simpa using hpend
      · simp [hqp]
  refine ⟨h.file, by rw [hsame]; exact h.off, fun q => ?_⟩
  · show (update s.pc p pc q).Writer (s.lock = some q) (bytes s.sent)
    by_cases hqp : q = p
    · subst hqp; rw [update_self]; exact hw
    · rw [update_of_ne hqp]; exact h.writer q

theorem Consecutive.write {src : List UInt8} (h : Consecutive sb inum K g₀ s)
    (hs : step sb inum s (.write p src) = some s') : Consecutive sb inum K g₀ s' := by
  obtain ⟨hidle, hs⟩ := Option.ite_none_right_eq_some.mp hs
  have hpend : (s.pc p).pending = 0 := by rw [hidle]; rfl
  split at hs <;> obtain rfl := Option.some.inj hs
  · have hg := h.goto (p := p) .idle hpend.symm trivial
    exact ⟨hg.file, hg.off, hg.writer⟩
  · exact h.goto _ hpend.symm (ne_nil_of_mem_chunksFrom _ _)

omit [DecidableEq P] in
theorem Consecutive.writer_unlocked (h : Consecutive sb inum K g₀ s) (hlock : s.lock = none) (q : P)
    (l : Prop) (bs : List UInt8) : (s.pc q).Writer l bs := by
  have hw := h.writer q
  unfold Pc.Writer at hw ⊢
  cases hpc : s.pc q with
  | idle => trivial
  | reading n r => simp [hpc] at hw
  | writing src cs => simpa [hpc] using hw
  | wrote src c cs r => simp [hpc, hlock] at hw

theorem Consecutive.acquire {src c : List UInt8} {cs : List (List UInt8)} {r : Option ℕ} {g : Open}
    (h : Consecutive sb inum K g₀ s) (hlock : s.lock = none) (hcs : ∀ c ∈ cs, c ≠ []) (hc : c ≠ [])
    (hoff : g.off = s.g.off)
    (hr : r = none ∧ Holds sb inum K g₀ g (bytes s.sent) ∨
      r = some c.length ∧ Holds sb inum K g₀ g (bytes s.sent ++ c)) :
    Consecutive sb inum K g₀
      (((s.goto p (.wrote src c cs r)).acquire p g).record r.isSome (p, c)) := by
  have hold : s.g.off = g₀.off + (bytes s.sent).length := by
    have := h.off
    rwa [Sys.pending, hlock] at this
  have hpc : ∀ q, (((s.goto p (.wrote src c cs r)).acquire p g).record r.isSome (p, c)).pc q =
      update s.pc p (.wrote src c cs r) q := fun q => rfl
  rcases hr with ⟨rfl, hfile⟩ | ⟨rfl, hfile⟩
  · refine ⟨hfile, ?_, fun q => ?_⟩
    · show g.off + (update s.pc p (Pc.wrote src c cs none) p).pending = _
      rw [update_self, hoff, hold]
      rfl
    · rw [hpc]
      by_cases hqp : q = p
      · subst hqp
        rw [update_self]
        exact ⟨rfl, hcs, nofun⟩
      · rw [update_of_ne hqp]
        exact h.writer_unlocked hlock q _ _
  · have hbytes : bytes (s.sent ++ [(p, c)]) = bytes s.sent ++ c := by simp
    refine ⟨?_, ?_, fun q => ?_⟩
    · show Holds sb inum K g₀ g (bytes (s.sent ++ [(p, c)]))
      rwa [hbytes]
    · show g.off + (update s.pc p (Pc.wrote src c cs (some c.length)) p).pending =
        g₀.off + (bytes (s.sent ++ [(p, c)])).length
      rw [update_self, hoff, hold, hbytes, List.length_append, Nat.add_assoc]
      rfl
    · rw [hpc]
      by_cases hqp : q = p
      · subst hqp
        rw [update_self]
        refine ⟨rfl, hcs, fun n hn => ⟨(Option.some.inj hn).symm, ?_⟩⟩
        show bytes (s.sent ++ [(q, c)]) ≠ []
        rw [hbytes]
        simp [hc]
      · rw [update_of_ne hqp]
        exact h.writer_unlocked hlock q _ _

theorem Consecutive.chunk (hsb : sb.WF) (h : Consecutive sb inum K g₀ s) (hfit : Fits s (.chunk p))
    (hs : step sb inum s (.chunk p) = some s') : Consecutive sb inum K g₀ s' := by
  obtain ⟨src, c, cs, r, g, hpc, hlock, hw, rfl⟩ := chunk_cases hs
  have hwriter := h.writer p
  rw [hpc] at hwriter
  have hold : s.g.off = g₀.off + (bytes s.sent).length := by
    have := h.off
    rwa [Sys.pending, hlock] at this
  obtain ⟨hoff, hr⟩ := h.file.writei hsb hold (hfit src c cs hpc) (hwriter c List.mem_cons_self) hw
  refine h.acquire hlock (fun c' hc' => hwriter c' (List.mem_cons_of_mem _ hc'))
    (hwriter c List.mem_cons_self) hoff ?_
  exact hr.imp (fun h => ⟨h.1, h.2.2⟩) id

theorem Consecutive.release {g : Open} (pc : Pc) (h : Consecutive sb inum K g₀ s)
    (hlock : s.lock = some p) (hfile : Holds sb inum K g₀ g (bytes s.sent))
    (hoff : g.off = s.g.off + (s.pc p).pending) (hpc : s'.pc = update s.pc p pc)
    (hsent : s'.sent = s.sent) (hg : s'.g = g) (hlock' : s'.lock = none)
    (hw : pc.Writer False (bytes s.sent)) : Consecutive sb inum K g₀ s' := by
  refine ⟨by rw [hg, hsent]; exact hfile, ?_, fun q => ?_⟩
  · have := h.off
    rw [Sys.pending, hlock] at this
    rw [hg, hsent, Sys.pending, hlock', hoff]
    simpa using this
  · rw [hpc, hsent, hlock']
    by_cases hqp : q = p
    · subst hqp
      rw [update_self]
      simpa using hw
    · rw [update_of_ne hqp]
      have hq := h.writer q
      unfold Pc.Writer at hq ⊢
      cases hpcq : s.pc q with
      | idle => trivial
      | reading n r => simp [hpcq] at hq
      | writing src cs => simpa [hpcq] using hq
      | wrote src c cs r =>
        rw [hpcq, hlock] at hq
        exact absurd (Option.some.inj hq.1).symm hqp

theorem Consecutive.advance (h : Consecutive sb inum K g₀ s) (hs : s.advance p = some s') :
    Consecutive sb inum K g₀ s' := by
  have hw := h.writer p
  -- no offset wraps, since the file stays below its largest size
  have hoff : ∀ src c cs, s.pc p = .wrote src c cs (some c.length) →
      (s.g.advance c.length).off = s.g.off + (s.pc p).pending := by
    intro src c cs hpc
    rw [hpc] at hw ⊢
    obtain ⟨hlock, -, hn⟩ := hw
    have hsum := h.off
    rw [Sys.pending, hlock, Option.elim_some, hpc] at hsum
    have hbound := (h.file.bound (hn _ rfl).2).2
    have h32 : MAXFILE * BSIZE < 2 ^ 32 := by decide
    have hsum' : s.g.off + c.length = g₀.off + (bytes s.sent).length := hsum
    show (if 0 < c.length then (s.g.off + c.length) % 2 ^ 32 else s.g.off) = s.g.off + c.length
    rw [Nat.mod_eq_of_lt (by omega)]
    split <;> omega
  rcases advance_cases hs with ⟨n, r, hpc, -⟩ | ⟨src, c, cs, hpc, rfl⟩ | ⟨src, c, hpc, rfl⟩ |
    ⟨src, c, cs, hpc, -, rfl⟩
  · rw [hpc] at hw; exact hw.elim
  · have hlock : s.lock = some p := by rw [hpc] at hw; exact hw.1
    exact h.release .idle hlock h.file.endOp (by rw [hpc]; rfl) rfl rfl rfl rfl trivial
  · have hlock : s.lock = some p := by rw [hpc] at hw; exact hw.1
    exact h.release .idle hlock (h.file.advance c.length).endOp (hoff src c [] hpc) rfl rfl
      rfl rfl trivial
  · have hlock : s.lock = some p := by rw [hpc] at hw; exact hw.1
    refine h.release (.writing src cs) hlock (h.file.advance c.length).endOp
      (hoff src c cs hpc) rfl rfl rfl rfl ?_
    rw [hpc] at hw
    exact hw.2.1

theorem Consecutive.step {l : Label P} (hsb : sb.WF) (h : Consecutive sb inum K g₀ s)
    (hfit : Fits s l) (hs : step sb inum s l = some s') : Consecutive sb inum K g₀ s' := by
  cases l with
  | read p n => exact hfit.elim
  | write p src => exact h.write hs
  | chunk p => exact h.chunk hsb hfit hs
  | advance p => exact h.advance hs
  | lseek p offset whence => exact hfit.elim

/-! ### Every process's own bytes -/

/-- Every call writes all it was asked to, and what a process has transferred is, in order, what it
has asked for up to the rest of the current call. -/
structure Lossless (s : Sys P) : Prop where
  done : ∀ p src c cs, s.pc p ≠ .wrote src c cs none
  ret : ∀ e ∈ s.hist, e.ret = .int e.call.src.length
  order : ∀ p, bytesOf p s.sent ++ (s.pc p).rest = asked s p

theorem bytesOf_append_self (xs : List (P × List UInt8)) (c : List UInt8) :
    bytesOf p (xs ++ [(p, c)]) = bytesOf p xs ++ c := by
  simp [bytesOf]

theorem bytesOf_append_of_ne (xs : List (P × List UInt8)) {q : P} (hq : q ≠ p) (c : List UInt8) :
    bytesOf q (xs ++ [(p, c)]) = bytesOf q xs := by
  simp [bytesOf, Ne.symm hq]

theorem Lossless.goto (pc : Pc) (h : Lossless s) (hdone : ∀ src c cs, pc ≠ .wrote src c cs none)
    (hpc : s'.pc = update s.pc p pc) (hhist : s'.hist = s.hist)
    (hsent : ∀ q, q ≠ p → bytesOf q s'.sent = bytesOf q s.sent)
    (horder : bytesOf p s'.sent ++ pc.rest = returned p s.hist ++ pc.src) : Lossless s' := by
  refine ⟨fun q src c cs => ?_, by rw [hhist]; exact h.ret, fun q => ?_⟩
  · rw [hpc]
    by_cases hqp : q = p
    · subst hqp; rw [update_self]; exact hdone src c cs
    · rw [update_of_ne hqp]; exact h.done q src c cs
  · unfold asked
    rw [hpc, hhist]
    by_cases hqp : q = p
    · subst hqp; rw [update_self]; exact horder
    · rw [update_of_ne hqp, hsent q hqp]; exact h.order q

theorem Lossless.ret_step {src : List UInt8} (h : Lossless s) (hsrc : (s.pc p).src = src)
    (hrest : (s.pc p).rest = []) {g : Open} {l : Option P}
    (hs : s' = { s.ret p (.write src) (.int src.length) with g := g, lock := l }) :
    Lossless s' := by
  subst hs
  refine ⟨fun q src' c cs => ?_, fun e he => ?_, fun q => ?_⟩
  · show update s.pc p .idle q ≠ _
    by_cases hqp : q = p
    · subst hqp; rw [update_self]; exact nofun
    · rw [update_of_ne hqp]; exact h.done q src' c cs
  · rcases List.mem_append.mp he with he | he
    · exact h.ret e he
    · rw [List.mem_singleton.mp he]; rfl
  · have hq := h.order q
    unfold asked at hq ⊢
    show bytesOf q s.sent ++ (update s.pc p .idle q).rest =
      returned q (s.hist ++ [⟨p, .write src, .int src.length⟩]) ++ (update s.pc p .idle q).src
    by_cases hqp : q = p
    · subst hqp
      rw [hrest, hsrc] at hq
      simpa [returned, Pc.rest, Pc.src, FileCall.src] using hq
    · rw [update_of_ne hqp]
      simpa [returned, Ne.symm hqp] using hq

theorem Lossless.step {l : Label P} (hsb : sb.WF) (hle : g₀.off ≤ g₀.d.size) (h : Lossless s)
    (hcon : Consecutive sb inum K g₀ s) (hfit : Fits s l) (hs : step sb inum s l = some s') :
    Lossless s' := by
  cases l with
  | read p n => exact hfit.elim
  | lseek p offset whence => exact hfit.elim
  | write p src =>
    obtain ⟨hidle, hs⟩ := Option.ite_none_right_eq_some.mp hs
    have horder := h.order p
    unfold asked at horder
    rw [hidle] at horder
    by_cases hnil : chunks src = []
    · obtain rfl := Option.some.inj ((if_pos hnil).symm.trans hs)
      obtain rfl : src = [] := by rw [← flatten_chunks src, hnil]; rfl
      exact h.ret_step (by rw [hidle]; rfl) (by rw [hidle]; rfl) rfl
    · obtain rfl := Option.some.inj ((if_neg hnil).symm.trans hs)
      refine h.goto (.writing src (chunks src)) (by simp) rfl rfl (fun _ _ => rfl) ?_
      simp only [Pc.rest, Pc.src, List.append_nil] at horder ⊢
      rw [flatten_chunks]
      exact congrArg (· ++ src) horder
  | chunk p =>
    obtain ⟨src, c, cs, r, g, hpc, hlock, hw, rfl⟩ := chunk_cases hs
    have hold : s.g.off = g₀.off + (bytes s.sent).length := by
      have := hcon.off
      rwa [Sys.pending, hlock] at this
    have hwriter := hcon.writer p
    rw [hpc] at hwriter
    obtain ⟨-, ⟨-, hlt, -⟩ | ⟨rfl, -⟩⟩ := hcon.file.writei hsb hold (hfit src c cs hpc)
      (hwriter c List.mem_cons_self) hw
    · -- the offset has not left the file
      obtain ⟨hsize, hend⟩ := hcon.file.le_size
      by_cases hnil : bytes s.sent = []
      · rw [hnil, List.length_nil] at hold
        omega
      · have := hend hnil
        omega
    · have horder := h.order p
      unfold asked at horder
      rw [hpc] at horder
      refine h.goto (.wrote src c cs (some c.length)) (by simp) rfl rfl (fun q hqp => ?_) ?_
      · exact bytesOf_append_of_ne _ hqp c
      · show bytesOf p (s.sent ++ [(p, c)]) ++ _ = _
        rw [bytesOf_append_self, List.append_assoc]
        exact horder
  | advance p =>
    rcases advance_cases hs with ⟨n, r, hpc, -⟩ | ⟨src, c, cs, hpc, -⟩ | ⟨src, c, hpc, rfl⟩ |
      ⟨src, c, cs, hpc, hcs, rfl⟩
    · have hwriter := hcon.writer p
      rw [hpc] at hwriter
      exact hwriter.elim
    · exact absurd hpc (h.done p src c cs)
    · exact h.ret_step (by rw [hpc]; rfl) (by rw [hpc]; rfl) rfl
    · have horder := h.order p
      unfold asked at horder
      rw [hpc] at horder
      exact h.goto (.writing src cs) (by simp) rfl rfl (fun _ _ => rfl) horder

omit [DecidableEq P] in
theorem Consecutive.init (hv : VolInv sb K g₀.v g₀.v.dinode) (hd : g₀.v.dinode inum = g₀.d)
    (ht : g₀.d.type = .file) : Consecutive sb inum K g₀ (start g₀ : Sys P) where
  file := ⟨hv, hd, ht, fun h => absurd rfl h, rfl, fun i hi => absurd hi (Nat.not_lt_zero i),
    fun _ _ _ => rfl⟩
  off := rfl
  writer _ := trivial

/-- **Shared writes.** Processes that write through one open file put their chunks one after the
other, in the order in which they get the lock, from the offset at the start on. The rest of the
file is as it was. If the offset was not beyond the end of the file, every call writes all its
bytes, and those of a process are in the order of its calls. -/
theorem writes_consecutive (hsb : sb.WF) (g₀ : Open) (hv : VolInv sb K g₀.v g₀.v.dinode)
    (hd : g₀.v.dinode inum = g₀.d) (ht : g₀.d.type = .file) (s : Sys P)
    (h : Lts.Reach (step sb inum) Fits (start g₀) s) :
    (s.lock = none → s.g.off = g₀.off + (bytes s.sent).length) ∧
    (∀ before p c after, s.sent = before ++ (p, c) :: after → ∀ i < c.length,
      byteAt s.g.v.data s.g.d (g₀.off + (bytes before).length + i) = c.getD i 0) ∧
    (bytes s.sent ≠ [] → g₀.off + (bytes s.sent).length ≤ s.g.d.size) ∧
    g₀.d.size ≤ s.g.d.size ∧
    (∀ m < g₀.d.size, m < g₀.off ∨ g₀.off + (bytes s.sent).length ≤ m →
      byteAt s.g.v.data s.g.d m = byteAt g₀.v.data g₀.d m) ∧
    (∀ p, bytesOf p s.sent <+: asked s p) ∧
    (g₀.off ≤ g₀.d.size → (∀ p, bytesOf p s.sent ++ (s.pc p).rest = asked s p) ∧
      ∀ e ∈ s.hist, e.ret = .int e.call.src.length) := by
  have hcon : Consecutive sb inum K g₀ s :=
    h.invariant (.init hv hd ht) fun _ _ _ hi hok hs => hi.step hsb hok hs
  have hloss : g₀.off ≤ g₀.d.size → Lossless s := by
    intro hle
    have hboth : Consecutive sb inum K g₀ s ∧ Lossless s := by
      refine h.invariant (I := fun s => Consecutive sb inum K g₀ s ∧ Lossless s)
        ⟨.init hv hd ht, fun _ _ _ _ => nofun, ?_, fun _ => rfl⟩
        fun _ _ _ hi hok hs => ⟨hi.1.step hsb hok hs, hi.2.step hsb hle hi.1 hok hs⟩
      exact fun e he => absurd he List.not_mem_nil
    exact hboth.2
  obtain ⟨hsize, hend⟩ := hcon.file.le_size
  refine ⟨fun hlock => ?_, fun before p c after hsent i hi => ?_, hend, hsize,
    hcon.file.kept, fun p => ?_, fun hle => ⟨(hloss hle).order, (hloss hle).ret⟩⟩
  · have := hcon.off
    rwa [Sys.pending, hlock] at this
  · have hbytes : bytes s.sent = bytes before ++ (c ++ bytes after) := by
      rw [hsent, bytes_append]
      simp [bytes]
    have hlen : (bytes s.sent).length =
        (bytes before).length + (c.length + (bytes after).length) := by
      rw [hbytes, List.length_append, List.length_append]
    have := hcon.file.written ((bytes before).length + i) (by omega)
    rw [Nat.add_assoc, this, hbytes]
    simp only [List.getD_eq_getElem?_getD]
    rw [List.getElem?_append_right (by omega), Nat.add_sub_cancel_left,
      List.getElem?_append_left hi]
  · by_cases hle : g₀.off ≤ g₀.d.size
    · rw [← (hloss hle).order p]
      exact List.prefix_append ..
    · -- nothing has been transferred
      have hnil : bytes s.sent = [] := by
        by_contra hne
        exact hle (hcon.file.bound hne).1
      have hall := List.flatten_eq_nil_iff.mp hnil
      have hself : bytesOf p s.sent = [] := by
        refine List.flatten_eq_nil_iff.mpr fun l hl => ?_
        obtain ⟨x, hx, rfl⟩ := List.mem_map.mp hl
        exact hall _ (List.mem_map_of_mem (List.mem_of_mem_filter hx))
      rw [hself]
      exact List.nil_prefix

def twoWriters : List (Label (Fin 2)) :=
  [.write 0 (List.replicate 1537 97), .write 1 [98], .chunk 0, .advance 0, .chunk 1, .advance 1,
    .chunk 0, .advance 0]

instance (s : Sys P) : DecidablePred (Fits s)
  | .read _ _ => isFalse id
  | .write _ _ => isTrue trivial
  | .chunk p =>
    match hpc : s.pc p with
    | .writing _ (c :: _) =>
      decidable_of_iff (s.g.off + c.length ≤ MAXFILE * BSIZE) (by simp [Fits, hpc])
    | .writing _ [] | .idle | .reading _ _ | .wrote _ _ _ _ => isTrue (by simp [Fits, hpc])
  | .advance _ => isTrue trivial
  | .lseek _ _ _ => isFalse id

theorem fileDisk_inv : VolInv sb0 (dataArea sb0) fileDisk fileDisk.dinode :=
  bareDisk_inv.alloc (i := 2) rfl _ rfl rfl []

theorem writes_consecutive_two : ∃ s : Sys (Fin 2),
    Lts.run (step sb0 2) (start emptyFile) twoWriters = some s ∧ s.g.off = 1538 ∧
      byteAt s.g.v.data s.g.d 1536 = 98 := by
  obtain ⟨s, hrun, hreach, hq⟩ := @Lts.exists_reach _ _ (step sb0 2) Fits (start emptyFile)
    twoWriters (fun s => s.sent = [(0, List.replicate 1536 97), (1, [98]), (0, [97])] ∧
      s.lock = none) (by decide +kernel) (by decide +kernel)
  obtain ⟨hsent, hlock⟩ := of_decide_eq_true hq
  obtain ⟨hoff, hbytes, -⟩ := writes_consecutive sb0_wf emptyFile fileDisk_inv rfl rfl s hreach
  refine ⟨s, hrun, ?_, ?_⟩
  · rw [hoff hlock, hsent]
    decide +kernel
  · have := hbytes [(0, List.replicate 1536 97)] 1 [98] [(0, [97])] hsent 0 (by decide)
    have hpos : emptyFile.off + (bytes [((0 : Fin 2), List.replicate 1536 97)]).length + 0 =
        1536 := by decide +kernel
    exact (congrArg (byteAt s.g.v.data s.g.d) hpos.symm).trans this

end Xv6.Fs.SharedFile
