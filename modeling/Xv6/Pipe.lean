import Xv6.Lib.Lts
import Xv6.Lib.RingBuffer

/-!
# Pipes

`pipe.c` for one pipe and any number of processes. A process inside `pipewrite` or `piperead` runs
in stretches: from where it acquires `p->lock` (at the start of the call, or when `sleep` returns)
to where it sleeps or releases the lock for good. A stretch is one step; `kill` and `pipeclose` are
steps of their own.

1. `pipewrite`, `piperead`: one stretch of each call, with the channels it wakes.
2. `step`: all processes on one pipe, with `SLEEPING` and `killed` as `proc.c` keeps them.
3. The buffer: the counters stay at most `PIPESIZE` apart, and a stretch moves its bytes to the
   end of the contents or off their front.
4. The wake-up discipline: who sleeps on `&p->nread` sleeps on an empty pipe, who sleeps on
   `&p->nwrite` on a full one. It needs that no writer is stopped halfway without a wakeup.
5. The bytes: `Hist` records what is stored and returned next to the run, and the ring buffer's
   contents account for the difference.
-/

namespace Xv6.Pipes

open Function

def PIPESIZE : ℕ := 512

structure Pipe where
  data : ℕ → UInt8
  nread : ℕ
  nwrite : ℕ
  readopen : Bool
  writeopen : Bool

namespace Pipe

def alloc (data : ℕ → UInt8) : Pipe := ⟨data, 0, 0, true, true⟩

def Full (p : Pipe) : Prop := p.nwrite = (p.nread + PIPESIZE) % 2 ^ 32

def Empty (p : Pipe) : Prop := p.nread = p.nwrite

instance (p : Pipe) : Decidable p.Full := inferInstanceAs (Decidable (_ = _))

instance (p : Pipe) : Decidable p.Empty := inferInstanceAs (Decidable (_ = _))

def store (p : Pipe) (b : UInt8) : Pipe :=
  { p with
    data := update p.data (p.nwrite % PIPESIZE) b
    nwrite := (p.nwrite + 1) % 2 ^ 32 }

def fetch (p : Pipe) : UInt8 := p.data (p.nread % PIPESIZE)

def skip (p : Pipe) : Pipe := { p with nread := (p.nread + 1) % 2 ^ 32 }

def allocated (p : Pipe) : Bool := p.readopen || p.writeopen

end Pipe

inductive Chan
  | nread
  | nwrite
  deriving DecidableEq

inductive PipeCall
  | write (addr : List UInt8) (i : ℕ)
  | read (n : ℕ)
  deriving DecidableEq

inductive Outcome
  | sleep (chan : Chan) (call : PipeCall)
  | ret (r : ℤ)
  deriving DecidableEq

/-- One stretch: the pipe after it, the channel it wakes, the bytes it stored or copied out. -/
structure Stretch where
  pipe : Pipe
  wakes : Option Chan
  moved : List UInt8
  outcome : Outcome

/-- The `for` loop of `pipewrite` until the bytes are stored or the buffer is full: how many bytes
it stores, and the pipe after them. -/
def storeLoop : List UInt8 → Pipe → ℕ × Pipe
  | [], p => (0, p)
  | b :: bs, p =>
    if p.Full then (0, p)
    else
      let (k, p') := storeLoop bs (p.store b)
      (k + 1, p')

def fetchLoop : ℕ → Pipe → List UInt8 × Pipe
  | 0, p => ([], p)
  | n + 1, p =>
    if p.Empty then ([], p)
    else
      let (bs, p') := fetchLoop n p.skip
      (p.fetch :: bs, p')

/-- A stretch of `pipewrite` that goes on with byte `i`. -/
def pipewrite (p : Pipe) (addr : List UInt8) (i : ℕ) (killed : Bool) : Stretch :=
  let (k, p') := storeLoop (addr.drop i) p
  let moved := (addr.drop i).take k
  if k = (addr.drop i).length then ⟨p', some .nread, moved, .ret addr.length⟩
  else if !p'.readopen || killed then ⟨p', none, moved, .ret (-1)⟩
  else ⟨p', some .nread, moved, .sleep .nwrite (.write addr (i + k))⟩

def piperead (p : Pipe) (n : ℕ) (killed : Bool) : Stretch :=
  if p.Empty ∧ p.writeopen then
    if killed then ⟨p, none, [], .ret (-1)⟩ else ⟨p, none, [], .sleep .nread (.read n)⟩
  else
    let (bs, p') := fetchLoop n p
    ⟨p', some .nwrite, bs, .ret bs.length⟩

def PipeCall.stretch (c : PipeCall) (p : Pipe) (killed : Bool) : Stretch :=
  match c with
  | .write addr i => pipewrite p addr i killed
  | .read n => piperead p n killed

/-! ## Processes on one pipe -/

structure Thread where
  call : Option PipeCall
  chan : Option Chan
  killed : Bool

structure Sys (P : Type) where
  pipe : Pipe
  th : P → Thread

/-- What can happen next. In a stretch, `late` says that a `kill` from another processor hits the
process after its last look at `killed`; it is still running and is not woken. -/
inductive Label (P : Type)
  | write (p : P) (addr : List UInt8)
  | read (p : P) (n : ℕ)
  | stretch (p : P) (late : Bool)
  | close (writable : Bool)
  | kill (p : P)

variable {P : Type}

def wakeup (ch : Chan) (th : P → Thread) : P → Thread := fun q =>
  if (th q).chan = some ch then { th q with chan := none } else th q

def wakeups : Option Chan → (P → Thread) → P → Thread
  | none, th => th
  | some ch, th => wakeup ch th

def Outcome.thread (killed : Bool) : Outcome → Thread
  | .sleep ch c => ⟨some c, some ch, killed⟩
  | .ret _ => ⟨none, none, killed⟩

def pipeclose (writable : Bool) (s : Sys P) : Sys P :=
  if writable then ⟨{ s.pipe with writeopen := false }, wakeup .nread s.th⟩
  else ⟨{ s.pipe with readopen := false }, wakeup .nwrite s.th⟩

section

variable [DecidableEq P]

def Sys.after (s : Sys P) (p : P) (late : Bool) (st : Stretch) : Sys P :=
  ⟨st.pipe, update (wakeups st.wakes s.th) p (st.outcome.thread ((s.th p).killed || late))⟩

def step (s : Sys P) : Label P → Option (Sys P)
  | .write p addr =>
    if s.pipe.allocated ∧ (s.th p).call = none then
      some { s with th := update s.th p { s.th p with call := some (.write addr 0) } }
    else none
  | .read p n =>
    if s.pipe.allocated ∧ (s.th p).call = none then
      some { s with th := update s.th p { s.th p with call := some (.read n) } }
    else none
  | .stretch p late =>
    match (s.th p).call, (s.th p).chan with
    | some c, none =>
      if s.pipe.allocated then some (s.after p late (c.stretch s.pipe (s.th p).killed)) else none
    | _, _ => none
  | .close writable => if s.pipe.allocated then some (pipeclose writable s) else none
  | .kill p => some { s with th := update s.th p { s.th p with killed := true, chan := none } }

def start (data : ℕ → UInt8) (killed : P → Bool) : Sys P :=
  ⟨.alloc data, fun p => ⟨none, none, killed p⟩⟩

inductive Step (s : Sys P) : Label P → Sys P → Prop
  | call (p : P) (c : PipeCall) (l : Label P) (hc : (s.th p).call = none)
      (hl : (∃ addr, l = .write p addr ∧ c = .write addr 0) ∨ ∃ n, l = .read p n ∧ c = .read n) :
      Step s l { s with th := update s.th p { s.th p with call := some c } }
  | stretch (p : P) (late : Bool) (c : PipeCall) (hc : (s.th p).call = some c)
      (hch : (s.th p).chan = none) :
      Step s (.stretch p late) (s.after p late (c.stretch s.pipe (s.th p).killed))
  | close (writable : Bool) : Step s (.close writable) (pipeclose writable s)
  | kill (p : P) :
      Step s (.kill p) { s with th := update s.th p { s.th p with killed := true, chan := none } }

theorem step_cases {s s' : Sys P} {l : Label P} (h : step s l = some s') : Step s l s' := by
  cases l with
  | write p addr =>
    obtain ⟨⟨-, hc⟩, rfl⟩ := Lts.of_guard h
    exact .call p _ _ hc (.inl ⟨addr, rfl, rfl⟩)
  | read p n =>
    obtain ⟨⟨-, hc⟩, rfl⟩ := Lts.of_guard h
    exact .call p _ _ hc (.inr ⟨n, rfl, rfl⟩)
  | stretch p late =>
    simp only [step] at h
    split at h
    · next c hc hch =>
      obtain ⟨-, rfl⟩ := Lts.of_guard h
      exact .stretch p late c hc hch
    · cases h
  | close writable =>
    obtain ⟨-, rfl⟩ := Lts.of_guard h
    exact .close writable
  | kill p =>
    cases h
    exact .kill p

end

/-! ## What the loops and the stretches do -/

theorem storeLoop_le (bs : List UInt8) (p : Pipe) : (storeLoop bs p).1 ≤ bs.length := by
  fun_induction storeLoop bs p <;> simp_all

variable {p : Pipe} {bs : List UInt8}

theorem storeLoop_full (h : (storeLoop bs p).1 ≠ bs.length) : (storeLoop bs p).2.Full := by
  fun_induction storeLoop bs p <;> simp_all

theorem storeLoop_of_full (h : p.Full) : storeLoop bs p = (0, p) := by
  cases bs with
  | nil => rfl
  | cons b bs => simp [storeLoop, h]

theorem storeLoop_readopen (bs : List UInt8) (p : Pipe) :
    (storeLoop bs p).2.readopen = p.readopen := by
  fun_induction storeLoop bs p <;> simp_all [Pipe.store]

theorem pipewrite_cases (p : Pipe) (addr : List UInt8) (i : ℕ) (killed : Bool) :
    ∃ k p', storeLoop (addr.drop i) p = (k, p') ∧
      ((k = (addr.drop i).length ∧
          pipewrite p addr i killed =
            ⟨p', some .nread, (addr.drop i).take k, .ret addr.length⟩) ∨
        (k < (addr.drop i).length ∧ p'.Full ∧ (killed = true ∨ p.readopen = false) ∧
          pipewrite p addr i killed = ⟨p', none, (addr.drop i).take k, .ret (-1)⟩) ∨
        (p'.Full ∧ killed = false ∧ p.readopen = true ∧ p'.readopen = true ∧
          pipewrite p addr i killed =
            ⟨p', some .nread, (addr.drop i).take k, .sleep .nwrite (.write addr (i + k))⟩)) := by
  refine ⟨_, _, rfl, ?_⟩
  have hopen := storeLoop_readopen (addr.drop i) p
  by_cases hk : (storeLoop (addr.drop i) p).1 = (addr.drop i).length
  · exact .inl ⟨hk, by simp only [pipewrite, if_pos hk]⟩
  · have hfull := storeLoop_full hk
    have hlt := lt_of_le_of_ne (storeLoop_le (addr.drop i) p) hk
    refine .inr ?_
    by_cases hstop : (!(storeLoop (addr.drop i) p).2.readopen || killed) = true
    · have hwhy : killed = true ∨ p.readopen = false := by
        simpa [hopen, or_comm] using hstop
      exact .inl ⟨hlt, hfull, hwhy, by simp only [pipewrite, if_neg hk, if_pos hstop]⟩
    · have hgo : p.readopen = true ∧ killed = false := by simpa [hopen] using hstop
      exact .inr ⟨hfull, hgo.2, hgo.1, hopen.trans hgo.1,
        by simp only [pipewrite, if_neg hk, if_neg hstop]⟩

theorem piperead_cases (p : Pipe) (n : ℕ) (killed : Bool) :
    (p.Empty ∧ p.writeopen = true ∧ piperead p n killed = ⟨p, none, [], .ret (-1)⟩) ∨
    (p.Empty ∧ p.writeopen = true ∧
      piperead p n killed = ⟨p, none, [], .sleep .nread (.read n)⟩) ∨
    (¬ (p.Empty ∧ p.writeopen = true) ∧ ∃ bs p', fetchLoop n p = (bs, p') ∧
      piperead p n killed = ⟨p', some .nwrite, bs, .ret bs.length⟩) := by
  by_cases he : p.Empty ∧ p.writeopen = true
  · by_cases hk : killed = true
    · exact .inl ⟨he.1, he.2, by simp only [piperead, if_pos he, if_pos hk]⟩
    · exact .inr (.inl ⟨he.1, he.2, by simp only [piperead, if_pos he, if_neg hk]⟩)
  · exact .inr (.inr ⟨he, _, _, rfl, by simp only [piperead, if_neg he]⟩)

/-! ## The buffer -/

def Pipe.ring (p : Pipe) : RingBuffer UInt8 := ⟨p.data, p.nread, p.nwrite⟩

def Pipe.used (p : Pipe) : ℕ := (p.nwrite + (2 ^ 32 - p.nread)) % 2 ^ 32

def Pipe.contents (p : Pipe) : List UInt8 :=
  (List.range p.used).map fun i => p.data ((p.nread + i) % PIPESIZE)

def Pipe.WF (p : Pipe) : Prop := p.ring.WF PIPESIZE (2 ^ 32)

theorem pipesize_dvd : PIPESIZE ∣ 2 ^ 32 := by decide

theorem pipesize_lt : PIPESIZE < 2 ^ 32 := by decide

theorem Pipe.WF.store (h : p.WF) (hf : ¬ p.Full) (b : UInt8) :
    (p.store b).WF ∧ (p.store b).contents = p.contents ++ [b] :=
  ⟨RingBuffer.WF.put h pipesize_lt hf b, RingBuffer.contents_put h pipesize_dvd pipesize_lt hf b⟩

theorem Pipe.WF.skip (h : p.WF) (he : ¬ p.Empty) :
    p.skip.WF ∧ p.contents = p.fetch :: p.skip.contents :=
  ⟨RingBuffer.WF.pop h he, RingBuffer.contents_pop h pipesize_dvd he⟩

theorem storeLoop_contents (bs : List UInt8) (h : p.WF) :
    (storeLoop bs p).2.WF ∧
      (storeLoop bs p).2.contents = p.contents ++ bs.take (storeLoop bs p).1 := by
  induction bs generalizing p with
  | nil => exact ⟨h, by simp [storeLoop]⟩
  | cons b bs ih =>
    by_cases hf : p.Full
    · rw [storeLoop_of_full hf]
      exact ⟨h, by simp⟩
    · obtain ⟨hwf, hstore⟩ := h.store hf b
      obtain ⟨hwf, hrest⟩ := ih hwf
      simp only [storeLoop, if_neg hf]
      refine ⟨hwf, ?_⟩
      rw [hrest, hstore, List.take_succ_cons, List.append_assoc, List.singleton_append]

theorem fetchLoop_contents (n : ℕ) (h : p.WF) :
    (fetchLoop n p).2.WF ∧ p.contents = (fetchLoop n p).1 ++ (fetchLoop n p).2.contents := by
  induction n generalizing p with
  | zero => exact ⟨h, rfl⟩
  | succ n ih =>
    by_cases he : p.Empty
    · simp only [fetchLoop, if_pos he]
      exact ⟨h, rfl⟩
    · obtain ⟨hwf, hskip⟩ := h.skip he
      obtain ⟨hwf, hrest⟩ := ih hwf
      simp only [fetchLoop, if_neg he]
      exact ⟨hwf, by rw [hskip, hrest, List.cons_append]⟩

theorem piperead_zero {n : ℕ} {killed : Bool} (hn : 0 < n)
    (h : (piperead p n killed).outcome = .ret 0) : p.Empty ∧ p.writeopen = false := by
  obtain ⟨-, -, heq⟩ | ⟨-, -, heq⟩ | ⟨hne, bs, p', hf, heq⟩ := piperead_cases p n killed
  · rw [heq] at h
    cases h
  · rw [heq] at h
    cases h
  · rw [heq] at h
    have hlen : bs.length = 0 := by simpa using h
    obtain rfl := List.eq_nil_of_length_eq_zero hlen
    obtain ⟨n, rfl⟩ := Nat.exists_eq_add_of_lt hn
    have he : p.Empty := by
      by_contra he
      simp [fetchLoop, if_neg he] at hf
    refine ⟨he, ?_⟩
    simpa [he] using hne

theorem Pipe.length_contents (p : Pipe) : p.contents.length = p.used := by
  simp [Pipe.contents]

theorem Pipe.WF.full_iff (h : p.WF) : p.Full ↔ p.used = PIPESIZE :=
  RingBuffer.WF.full_iff h pipesize_lt

theorem Pipe.WF.contents_of_empty (h : p.WF) (he : p.Empty) : p.contents = [] := by
  have hused : p.used = 0 := by
    have hlt : p.nread < 2 ^ 32 := h.rd_lt
    unfold Pipe.Empty at he
    rw [Pipe.used, ← he, Nat.add_sub_cancel' hlt.le, Nat.mod_self]
  exact List.eq_nil_of_length_eq_zero (p.length_contents.trans hused)

theorem storeLoop_of_empty (bs : List UInt8) (h : p.WF) (he : p.Empty) :
    (storeLoop bs p).1 < bs.length ↔ PIPESIZE < bs.length := by
  obtain ⟨hwf, hcont⟩ := storeLoop_contents bs h
  have hle := storeLoop_le bs p
  have hused : (storeLoop bs p).2.used = (storeLoop bs p).1 := by
    rw [← Pipe.length_contents, hcont, h.contents_of_empty he, List.nil_append, List.length_take]
    omega
  constructor
  · intro hlt
    have hfull := hwf.full_iff.mp (storeLoop_full (by omega))
    omega
  · intro hlt
    have hsize : (storeLoop bs p).2.used ≤ PIPESIZE := hwf.size_le
    omega

theorem pipewrite_moved {q : Pipe} (hq : q.WF) (addr : List UInt8) (i : ℕ) (killed : Bool) :
    (pipewrite q addr i killed).pipe.WF ∧
    (pipewrite q addr i killed).pipe.contents =
      q.contents ++ (pipewrite q addr i killed).moved ∧
    (pipewrite q addr i killed).moved <+: addr.drop i ∧
    (∀ r, (pipewrite q addr i killed).outcome = .ret r → r ≠ -1 →
      r = addr.length ∧ (pipewrite q addr i killed).moved = addr.drop i) ∧
    ∀ ch addr' i', (pipewrite q addr i killed).outcome = .sleep ch (.write addr' i') →
      addr' = addr ∧ addr.take i' = addr.take i ++ (pipewrite q addr i killed).moved := by
  have hstore := storeLoop_contents (addr.drop i) hq
  obtain ⟨k, p', hk, hcases⟩ := pipewrite_cases q addr i killed
  rw [hk] at hstore
  obtain ⟨hlen, heq⟩ | ⟨-, -, -, heq⟩ | ⟨-, -, -, -, heq⟩ := hcases
  · rw [heq]
    refine ⟨hstore.1, hstore.2, List.take_prefix _ _, fun r ho _ => ?_, fun _ _ _ ho => ?_⟩
    · exact ⟨(Outcome.ret.inj ho).symm, by rw [hlen, List.take_length]⟩
    · cases ho
  · rw [heq]
    refine ⟨hstore.1, hstore.2, List.take_prefix _ _, fun r ho hne => ?_, fun _ _ _ ho => ?_⟩
    · exact absurd (Outcome.ret.inj ho).symm hne
    · cases ho
  · rw [heq]
    refine ⟨hstore.1, hstore.2, List.take_prefix _ _, fun _ ho => ?_, fun ch addr' i' ho => ?_⟩
    · cases ho
    · obtain ⟨rfl, rfl⟩ := PipeCall.write.inj (Outcome.sleep.inj ho).2
      exact ⟨rfl, List.take_add⟩

theorem piperead_moved {q : Pipe} (hq : q.WF) (n : ℕ) (killed : Bool) :
    (piperead q n killed).pipe.WF ∧
    q.contents = (piperead q n killed).moved ++ (piperead q n killed).pipe.contents := by
  obtain ⟨-, -, heq⟩ | ⟨-, -, heq⟩ | ⟨-, bs, p', hf, heq⟩ := piperead_cases q n killed
  · rw [heq]
    exact ⟨hq, rfl⟩
  · rw [heq]
    exact ⟨hq, rfl⟩
  · rw [heq]
    simpa [hf] using fetchLoop_contents n hq

theorem Pipe.WF.start (data : ℕ → UInt8) (killed : P → Bool) : (start data killed).pipe.WF :=
  RingBuffer.WF.of_eq (by norm_num [Xv6.Pipes.start, Pipe.ring, Pipe.alloc]) rfl

section

variable [DecidableEq P] {s s' : Sys P} {l : Label P}

theorem Pipe.WF.step (h : s.pipe.WF) (hs : step s l = some s') : s'.pipe.WF := by
  cases step_cases hs with
  | call p c _ _ _ => exact h
  | stretch p late c _ _ =>
    cases c with
    | write addr i => exact (pipewrite_moved h addr i (s.th p).killed).1
    | read n => exact (piperead_moved h n (s.th p).killed).1
  | close writable =>
    cases writable with
    | true => exact h
    | false => exact h
  | kill p => exact h

end

/-! ## The wake-up discipline -/

def Blocked : Chan → Pipe → Prop
  | .nread, p => p.Empty ∧ p.writeopen = true
  | .nwrite, p => p.Full ∧ p.readopen = true

/-- Who sleeps on `&p->nread` sleeps on an empty pipe that can still be written, and who sleeps on
`&p->nwrite` on a full pipe that can still be read. -/
def Disciplined (s : Sys P) : Prop := ∀ q ch, (s.th q).chan = some ch → Blocked ch s.pipe

/-- Process `p` is in a `pipewrite` with more bytes left than the buffer holds, it is killed or the
read end is closed, and a reader sleeps. -/
def Strands (s : Sys P) (p : P) : Prop :=
  ∃ addr i, (s.th p).call = some (.write addr i) ∧ PIPESIZE < (addr.drop i).length ∧
    ((s.th p).killed = true ∨ s.pipe.readopen = false) ∧ ∃ q, (s.th q).chan = some .nread

/-- The step is not a stretch that strands a reader. -/
def Wakes (s : Sys P) (l : Label P) : Prop := ∀ p late, l = .stretch p late → ¬ Strands s p

theorem wakeup_chan {th : P → Thread} {ch c : Chan} {q : P} :
    (wakeup ch th q).chan = some c ↔ (th q).chan = some c ∧ c ≠ ch := by
  unfold wakeup
  split
  · next h => simp [h, eq_comm]
  · next h =>
    constructor
    · intro hc
      exact ⟨hc, fun heq => h (heq ▸ hc)⟩
    · exact And.left

theorem wakeups_chan {th : P → Thread} {o : Option Chan} {c : Chan} {q : P} :
    (wakeups o th q).chan = some c ↔ (th q).chan = some c ∧ o ≠ some c := by
  cases o with
  | none => simp [wakeups]
  | some ch =>
    have hne : c ≠ ch ↔ some ch ≠ some c := by simp [eq_comm]
    rw [← hne]
    exact wakeup_chan

theorem not_empty_of_full (h : p.Full) : ¬ p.Empty := by
  unfold Pipe.Full PIPESIZE at h
  unfold Pipe.Empty
  omega

variable {s : Sys P}

theorem Disciplined.close (h : Disciplined s) (writable : Bool) :
    Disciplined (pipeclose writable s) := by
  intro q c hq
  unfold pipeclose at hq ⊢
  cases writable with
  | true =>
    obtain ⟨hq, hne⟩ := wakeup_chan.mp hq
    cases c with
    | nread => exact absurd rfl hne
    | nwrite => exact h q .nwrite hq
  | false =>
    obtain ⟨hq, hne⟩ := wakeup_chan.mp hq
    cases c with
    | nread => exact h q .nread hq
    | nwrite => exact absurd rfl hne

section

variable [DecidableEq P] {s s' : Sys P} {l : Label P} {p : P} {late : Bool} {st : Stretch}

theorem Disciplined.after (hsleep : ∀ c call, st.outcome = .sleep c call → Blocked c st.pipe)
    (hstay : ∀ q c, (s.th q).chan = some c → st.wakes ≠ some c → Blocked c st.pipe) :
    Disciplined (s.after p late st) := by
  intro q c hq
  by_cases hqp : q = p
  · subst hqp
    simp only [Sys.after, update_self] at hq
    cases ho : st.outcome with
    | sleep ch call =>
      rw [ho] at hq
      obtain rfl : ch = c := Option.some.inj hq
      exact hsleep ch call ho
    | ret r => simp [ho, Outcome.thread] at hq
  · simp only [Sys.after, update_of_ne hqp, wakeups_chan] at hq
    exact hstay q c hq.1 hq.2

theorem Disciplined.write (h : Disciplined s) (hwf : s.pipe.WF) {addr : List UInt8} {i : ℕ}
    (hc : (s.th p).call = some (.write addr i)) (hw : ¬ Strands s p) :
    Disciplined (s.after p late (pipewrite s.pipe addr i (s.th p).killed)) := by
  -- who sleeps on a full pipe still does: the loop stores nothing
  have hfull : ∀ q k p', storeLoop (addr.drop i) s.pipe = (k, p') →
      (s.th q).chan = some .nwrite → Blocked .nwrite p' := by
    intro q k p' hk hq
    have hb := h q .nwrite hq
    rw [storeLoop_of_full hb.1] at hk
    cases hk
    exact hb
  obtain ⟨k, p', hk, ⟨-, heq⟩ | ⟨hlt, -, hwhy, heq⟩ | ⟨hf, -, -, hopen, heq⟩⟩ :=
    pipewrite_cases s.pipe addr i (s.th p).killed
  · rw [heq]
    refine Disciplined.after (by simp) fun q c hq hne => ?_
    cases c with
    | nread => exact absurd rfl hne
    | nwrite => exact hfull q k p' hk hq
  · -- the stretch that gives up wakes nobody, but it stopped at a full buffer that was empty before
    -- if a reader sleeps
    rw [heq]
    refine Disciplined.after (by simp) fun q c hq _ => ?_
    cases c with
    | nread =>
      have hlong := (storeLoop_of_empty (addr.drop i) hwf (h q .nread hq).1).mp (by rwa [hk])
      exact absurd ⟨addr, i, hc, hlong, hwhy, q, hq⟩ hw
    | nwrite => exact hfull q k p' hk hq
  · rw [heq]
    refine Disciplined.after ?_ fun q c hq hne => ?_
    · intro c call ho
      obtain ⟨rfl, -⟩ := Outcome.sleep.inj ho
      exact ⟨hf, hopen⟩
    · cases c with
      | nread => exact absurd rfl hne
      | nwrite => exact hfull q k p' hk hq

theorem Disciplined.read (h : Disciplined s) (n : ℕ) :
    Disciplined (s.after p late (piperead s.pipe n (s.th p).killed)) := by
  obtain ⟨he, hopen, heq⟩ | ⟨he, hopen, heq⟩ | ⟨hne, bs, p', -, heq⟩ :=
    piperead_cases s.pipe n (s.th p).killed
  · rw [heq]
    exact Disciplined.after (by simp) fun q c hq _ => h q c hq
  · rw [heq]
    refine Disciplined.after ?_ fun q c hq _ => h q c hq
    intro c call ho
    obtain ⟨rfl, -⟩ := Outcome.sleep.inj ho
    exact ⟨he, hopen⟩
  · rw [heq]
    refine Disciplined.after (by simp) fun q c hq hw => ?_
    cases c with
    | nread => exact absurd (h q .nread hq) hne
    | nwrite => exact absurd rfl hw

theorem Disciplined.thread (h : Disciplined s) {t : Thread}
    (ht : t.chan = none ∨ t.chan = (s.th p).chan) :
    Disciplined { s with th := update s.th p t } := by
  intro q c hq
  by_cases hqp : q = p
  · subst hqp
    simp only [update_self] at hq
    rcases ht with ht | ht
    · simp [ht] at hq
    · exact h q c (ht ▸ hq)
  · simp only [update_of_ne hqp] at hq
    exact h q c hq

theorem Disciplined.step (h : Disciplined s) (hwf : s.pipe.WF) (hw : Wakes s l)
    (hs : step s l = some s') : Disciplined s' := by
  cases step_cases hs with
  | call p c _ _ _ => exact h.thread (.inr rfl)
  | stretch p late c hc _ =>
    cases c with
    | write addr i => exact h.write hwf hc (hw p late rfl)
    | read n => exact h.read n
  | close writable => exact h.close writable
  | kill p => exact h.thread (.inl rfl)

theorem Strands.not_disciplined (h : Disciplined s) (hwf : s.pipe.WF) (hp : Strands s p)
    (hs : step s (.stretch p late) = some s') : ¬ Disciplined s' := by
  obtain ⟨addr, i, hc, hlong, hwhy, q, hq⟩ := hp
  intro hd
  cases step_cases hs with
  | call _ _ _ _ hl => obtain ⟨_, hl, -⟩ | ⟨_, hl, -⟩ := hl <;> cases hl
  | stretch _ _ c hc' hch =>
    obtain rfl : c = .write addr i := Option.some.inj (hc'.symm.trans hc)
    have hqp : q ≠ p := by
      rintro rfl
      rw [hch] at hq
      cases hq
    have hstop := (storeLoop_of_empty (addr.drop i) hwf (h q .nread hq).1).mpr hlong
    obtain ⟨k, p', hk, ⟨hlen, -⟩ | ⟨-, hf, -, heq⟩ | ⟨-, hlive, hopen, -, -⟩⟩ :=
      pipewrite_cases s.pipe addr i (s.th p).killed
    · rw [hk] at hstop
      exact absurd hlen hstop.ne
    · have hstill : ((s.after p late (pipewrite s.pipe addr i (s.th p).killed)).th q).chan =
          some .nread := by
        rw [heq]
        simpa [Sys.after, update_of_ne hqp, wakeups] using hq
      have hempty := (hd q .nread hstill).1
      simp only [Sys.after, PipeCall.stretch, heq] at hempty
      exact not_empty_of_full hf hempty
    · simp [hlive, hopen] at hwhy

/-- **Pipe wake-up discipline.** In every run none of whose steps strands a reader, the discipline
holds in every state; and of the next steps exactly those that strand no reader keep it. -/
theorem disciplined_of_reach {data : ℕ → UInt8} {killed : P → Bool}
    (h : Lts.Reach step Wakes (start data killed) s) :
    Disciplined s ∧ ∀ l s', step s l = some s' → (Disciplined s' ↔ Wakes s l) := by
  obtain ⟨hd, hwf⟩ : Disciplined s ∧ s.pipe.WF := by
    refine h.invariant (I := fun s => Disciplined s ∧ s.pipe.WF) ?_ ?_
    · refine ⟨fun q c hq => ?_, Pipe.WF.start data killed⟩
      cases hq
    · rintro _ _ _ ⟨hI, hwf⟩ hw hs
      exact ⟨hI.step hwf hw hs, hwf.step hs⟩
  refine ⟨hd, fun l s' hs => ⟨?_, fun hw => hd.step hwf hw hs⟩⟩
  intro hd' p late hl hp
  subst hl
  exact hp.not_disciplined hd hwf hs hd'

end

theorem Wakes.of_read {p : P} {n : ℕ} {late : Bool}
    (hc : (s.th p).call = some (.read n)) : Wakes s (.stretch p late) := by
  rintro q b hl ⟨addr, i, hq, -⟩
  obtain ⟨rfl, -⟩ := Label.stretch.inj hl
  rw [hc] at hq
  cases hq

theorem Wakes.of_live {p : P} {late : Bool} (hk : (s.th p).killed = false)
    (ho : s.pipe.readopen = true) : Wakes s (.stretch p late) := by
  rintro q b hl ⟨addr, i, -, -, hwhy, -⟩
  obtain ⟨rfl, -⟩ := Label.stretch.inj hl
  simp [hk, ho] at hwhy

def filledRun : List (Label Bool) :=
  [.read false 1, .stretch false false, .write true (List.replicate 513 0), .stretch true false]

theorem disciplined_of_reach_filled : ∃ s : Sys Bool,
    Lts.run step (start (fun _ => 0) fun _ => false) filledRun = some s ∧
    (s.th false).chan = none ∧ (s.th true).chan = some .nwrite ∧ Disciplined s := by
  have hok : Lts.RunOk step Wakes (start (fun _ => 0) fun _ => false) filledRun := by
    refine ⟨fun _ _ hl => (by cases hl), fun s hs => ?_⟩
    cases hs
    refine ⟨Wakes.of_read rfl, fun s hs => ?_⟩
    cases hs
    refine ⟨fun _ _ hl => (by cases hl), fun s hs => ?_⟩
    cases hs
    exact ⟨Wakes.of_live rfl rfl, fun _ _ => trivial⟩
  obtain ⟨s, hs, hr, hq⟩ := Lts.exists_reach step (start (fun _ => 0) fun _ => false) filledRun
    (fun s => decide ((s.th false).chan = none ∧ (s.th true).chan = some .nwrite))
    (by decide +kernel) hok
  have hq := of_decide_eq_true hq
  exact ⟨s, hs, hq.1, hq.2, (disciplined_of_reach hr).1⟩

def strandedRun : List (Label Bool) :=
  [.read false 1, .stretch false false, .write true (List.replicate 513 0), .kill true,
    .stretch true false]

/-- The killed writer fills the pipe and leaves without waking the reader. -/
theorem reader_stranded : ∃ s : Sys Bool,
    Lts.Reach step (fun _ _ => True) (start (fun _ => 0) fun _ => false) s ∧
    (s.th false).chan = some .nread ∧ s.pipe.nread ≠ s.pipe.nwrite := by
  obtain ⟨s, -, hr, hq⟩ := Lts.exists_reach step (start (fun _ => 0) fun _ => false) strandedRun
    (fun s => decide ((s.th false).chan = some .nread ∧ s.pipe.nread ≠ s.pipe.nwrite))
    (by decide +kernel) (Lts.RunOk.trivial _ _)
  exact ⟨s, hr, of_decide_eq_true hq⟩

/-! ## The bytes -/

/-- What the calls so far have stored and returned, in the order in which they held the lock. Every
`pipewrite` call has a number, its place in `args`. -/
structure Hist (P : Type) where
  /-- each byte stored, with the number of the call that stored it -/
  stored : List (ℕ × UInt8)
  /-- the bytes returned by `piperead` -/
  returned : List UInt8
  /-- the bytes each call of `pipewrite` was given -/
  args : List (List UInt8)
  /-- the number of the call a process is in -/
  current : P → ℕ

namespace Hist

def bytesOf (h : Hist P) (c : ℕ) : List UInt8 := (h.stored.filter (·.1 = c)).map (·.2)

def start : Hist P := ⟨[], [], [], fun _ => 0⟩

def record [DecidableEq P] (h : Hist P) (s : Sys P) : Label P → Hist P
  | .write p addr =>
    { h with args := h.args ++ [addr], current := update h.current p h.args.length }
  | .stretch p _ =>
    match (s.th p).call with
    | some (.write addr i) =>
      let st := pipewrite s.pipe addr i (s.th p).killed
      { h with stored := h.stored ++ st.moved.map fun b => (h.current p, b) }
    | some (.read n) => { h with returned := h.returned ++
        (piperead s.pipe n (s.th p).killed).moved }
    | none => h
  | _ => h

end Hist

def histStep [DecidableEq P] (x : Sys P × Hist P) (l : Label P) : Option (Sys P × Hist P) :=
  (step x.1 l).map fun s' => (s', x.2.record x.1 l)

structure Fifo [DecidableEq P] (s : Sys P) (h : Hist P) : Prop where
  /-- what was returned and what is in the buffer is what was stored -/
  bytes : h.returned ++ s.pipe.contents = h.stored.map Prod.snd
  /-- the counters are at most the buffer's size apart -/
  used_le : s.pipe.used ≤ PIPESIZE
  /-- each call's bytes are stored in order -/
  inOrder : ∀ c, h.bytesOf c <+: (h.args[c]?).getD []
  /-- a `pipewrite` that is about to return a count returns how many bytes it was given, and then
  all of them have been stored -/
  all : ∀ p late addr i r, (s.th p).call = some (.write addr i) →
    (pipewrite s.pipe addr i (s.th p).killed).outcome = .ret r → r ≠ -1 →
    r = addr.length ∧ (h.record s (.stretch p late)).bytesOf (h.current p) = addr
  /-- 0 means end of file -/
  eof : ∀ p n, (s.th p).call = some (.read n) → 0 < n →
    (piperead s.pipe n (s.th p).killed).outcome = .ret 0 →
    s.pipe.Empty ∧ s.pipe.writeopen = false

structure HistInv (s : Sys P) (h : Hist P) : Prop where
  wf : s.pipe.WF
  bytes : h.returned ++ s.pipe.contents = h.stored.map Prod.snd
  inOrder : ∀ c, h.bytesOf c <+: (h.args[c]?).getD []
  /-- a call that has stored `i` bytes has stored the first `i` -/
  writing : ∀ p addr i, (s.th p).call = some (.write addr i) →
    h.args[h.current p]? = some addr ∧ h.bytesOf (h.current p) = addr.take i
  /-- calls in progress have different numbers -/
  apart : ∀ p q addr i addr' i', (s.th p).call = some (.write addr i) →
    (s.th q).call = some (.write addr' i') → h.current p = h.current q → p = q

theorem Hist.bytesOf_append (h : Hist P) (bs : List UInt8) (c c' : ℕ) :
    Hist.bytesOf { h with stored := h.stored ++ bs.map fun b => (c, b) } c' =
      h.bytesOf c' ++ if c = c' then bs else [] := by
  unfold Hist.bytesOf
  rw [List.filter_append, List.map_append, List.filter_map, List.map_map]
  congr 1
  split
  · next heq => simp [heq, Function.comp_def]
  · next hne => simp [hne, Function.comp_def]

theorem wakeups_call (o : Option Chan) (th : P → Thread) (q : P) :
    (wakeups o th q).call = (th q).call := by
  cases o with
  | none => rfl
  | some ch =>
    simp only [wakeups, wakeup]
    split <;> rfl

theorem HistInv.frame {s' : Sys P} {h : Hist P} (hi : HistInv s h)
    (hdata : s'.pipe.ring = s.pipe.ring)
    (hcall : ∀ q addr i, (s'.th q).call = some (.write addr i) →
      (s.th q).call = some (.write addr i)) : HistInv s' h := by
  have hcont : s'.pipe.contents = s.pipe.contents :=
    congrArg (RingBuffer.contents PIPESIZE (2 ^ 32)) hdata
  refine ⟨?_, ?_, hi.inOrder, fun q addr i hq => hi.writing q addr i (hcall q addr i hq), ?_⟩
  · have hwf := hi.wf
    unfold Pipe.WF at hwf ⊢
    rwa [hdata]
  · rw [hcont]
    exact hi.bytes
  · intro q r addr i addr' i' hq hr
    exact hi.apart q r addr i addr' i' (hcall q _ _ hq) (hcall r _ _ hr)

theorem HistInv.start (data : ℕ → UInt8) (killed : P → Bool) :
    HistInv (start data killed) Hist.start where
  wf := Pipe.WF.start data killed
  bytes := by simp [Xv6.Pipes.start, Hist.start, Pipe.contents, Pipe.used, Pipe.alloc]
  inOrder _ := List.nil_prefix
  writing _ _ _ hp := by cases hp
  apart _ _ _ _ _ _ hp := by cases hp

section

variable [DecidableEq P] {s s' : Sys P} {h : Hist P} {l : Label P} {p : P}

theorem HistInv.call (hi : HistInv s h) (addr : List UInt8) :
    HistInv { s with th := update s.th p { s.th p with call := some (.write addr 0) } }
      (h.record s (.write p addr)) := by
  have hnew : h.bytesOf h.args.length = [] := by
    have hpre := hi.inOrder h.args.length
    rw [List.getElem?_eq_none le_rfl] at hpre
    exact List.prefix_nil.mp hpre
  -- the numbers in use are below the new one
  have hlt : ∀ q addr' i, (s.th q).call = some (.write addr' i) → h.current q < h.args.length :=
    fun q addr' i hq => (List.getElem?_eq_some_iff.mp (hi.writing q addr' i hq).1).1
  refine ⟨hi.wf, hi.bytes, ?_, ?_, ?_⟩
  · intro c
    by_cases hc : c < h.args.length
    · have hold : (h.args ++ [addr])[c]? = h.args[c]? := List.getElem?_append_left hc
      simp only [Hist.record, hold]
      exact hi.inOrder c
    · have hpre := hi.inOrder c
      rw [List.getElem?_eq_none (by omega)] at hpre
      have hnil : h.bytesOf c = [] := List.prefix_nil.mp hpre
      exact hnil ▸ List.nil_prefix
  · intro q addr' i hq
    by_cases hqp : q = p
    · subst hqp
      simp only [update_self, Option.some.injEq, PipeCall.write.injEq] at hq
      obtain ⟨rfl, rfl⟩ := hq
      simp only [Hist.record, update_self]
      exact ⟨by simp, hnew⟩
    · simp only [update_of_ne hqp] at hq
      obtain ⟨hargs, hbytes⟩ := hi.writing q addr' i hq
      simp only [Hist.record, update_of_ne hqp]
      exact ⟨by rw [List.getElem?_append_left (hlt q addr' i hq)]; exact hargs, hbytes⟩
  · intro q r addr1 i1 addr2 i2 hq hr heq
    by_cases hqp : q = p <;> by_cases hrp : r = p
    · rw [hqp, hrp]
    · subst hqp
      simp only [update_of_ne hrp] at hr
      have := hlt r addr2 i2 hr
      simp only [Hist.record, update_self, update_of_ne hrp] at heq
      omega
    · subst hrp
      simp only [update_of_ne hqp] at hq
      have := hlt q addr1 i1 hq
      simp only [Hist.record, update_self, update_of_ne hqp] at heq
      omega
    · simp only [update_of_ne hqp] at hq
      simp only [update_of_ne hrp] at hr
      simp only [Hist.record, update_of_ne hqp, update_of_ne hrp] at heq
      exact hi.apart q r addr1 i1 addr2 i2 hq hr heq

variable {late : Bool}

theorem after_call {st : Stretch} {q : P} {c : PipeCall}
    (hq : ((s.after p late st).th q).call = some c) :
    (q = p ∧ ∃ ch, st.outcome = .sleep ch c) ∨ (q ≠ p ∧ (s.th q).call = some c) := by
  by_cases hqp : q = p
  · subst hqp
    refine .inl ⟨rfl, ?_⟩
    simp only [Sys.after, update_self] at hq
    cases ho : st.outcome with
    | sleep ch c' =>
      rw [ho] at hq
      obtain rfl : c' = c := Option.some.inj hq
      exact ⟨ch, rfl⟩
    | ret r => simp [ho, Outcome.thread] at hq
  · simp only [Sys.after, update_of_ne hqp, wakeups_call] at hq
    exact .inr ⟨hqp, hq⟩

theorem HistInv.read (hi : HistInv s h) {n : ℕ} (hc : (s.th p).call = some (.read n)) :
    HistInv (s.after p late (piperead s.pipe n (s.th p).killed))
      (h.record s (.stretch p late)) := by
  have hmoved := piperead_moved hi.wf n (s.th p).killed
  have hcall : ∀ q addr i,
      ((s.after p late (piperead s.pipe n (s.th p).killed)).th q).call = some (.write addr i) →
      (s.th q).call = some (.write addr i) := by
    intro q addr i hq
    obtain ⟨-, ch, ho⟩ | ⟨-, hq⟩ := after_call hq
    · obtain ⟨-, -, heq⟩ | ⟨-, -, heq⟩ | ⟨-, bs, p', hf, heq⟩ :=
        piperead_cases s.pipe n (s.th p).killed <;> rw [heq] at ho <;> cases ho
    · exact hq
  simp only [Hist.record, hc]
  refine ⟨hmoved.1, ?_, hi.inOrder, fun q addr i hq => hi.writing q addr i (hcall q addr i hq), ?_⟩
  · rw [← hi.bytes, hmoved.2, List.append_assoc]
    rfl
  · intro q r addr i addr' i' hq hr
    exact hi.apart q r addr i addr' i' (hcall q _ _ hq) (hcall r _ _ hr)

theorem HistInv.write (hi : HistInv s h) {addr : List UInt8} {i : ℕ}
    (hc : (s.th p).call = some (.write addr i)) :
    HistInv (s.after p late (pipewrite s.pipe addr i (s.th p).killed))
      (h.record s (.stretch p late)) := by
  obtain ⟨hwf, hcont, hpre, -, hgo⟩ := pipewrite_moved hi.wf addr i (s.th p).killed
  obtain ⟨hargs, hbytes⟩ := hi.writing p addr i hc
  -- a call that writes after the stretch wrote before it
  have hcall : ∀ q addr' i',
      ((s.after p late (pipewrite s.pipe addr i (s.th p).killed)).th q).call =
        some (.write addr' i') → ∃ i0, (s.th q).call = some (.write addr' i0) := by
    intro q addr' i' hq
    obtain ⟨rfl, ch, ho⟩ | ⟨-, hq⟩ := after_call hq
    · obtain ⟨rfl, -⟩ := hgo ch addr' i' ho
      exact ⟨i, hc⟩
    · exact ⟨i', hq⟩
  simp only [Hist.record, hc]
  refine ⟨hwf, ?_, ?_, ?_, ?_⟩
  · have hb := hi.bytes
    simp only [Sys.after, hcont, ← List.append_assoc, hb, List.map_append, List.map_map,
      Function.comp_def, List.map_id']
  · intro c
    rw [Hist.bytesOf_append]
    split
    · next heq =>
      subst heq
      rw [hbytes, hargs, Option.getD_some]
      obtain ⟨rest, hrest⟩ := hpre
      exact ⟨rest, by rw [List.append_assoc, hrest, List.take_append_drop]⟩
    · rw [List.append_nil]
      exact hi.inOrder c
  · intro q addr' i' hq
    obtain ⟨rfl, ch, ho⟩ | ⟨hqp, hq⟩ := after_call hq
    · obtain ⟨rfl, htake⟩ := hgo ch addr' i' ho
      exact ⟨hargs, by rw [Hist.bytesOf_append, if_pos rfl, hbytes, htake]⟩
    · obtain ⟨hargs', hbytes'⟩ := hi.writing q addr' i' hq
      have hne : h.current p ≠ h.current q := fun heq =>
        hqp (hi.apart p q addr i addr' i' hc hq heq).symm
      exact ⟨hargs', by rw [Hist.bytesOf_append, if_neg hne, List.append_nil, hbytes']⟩
  · intro q r addr1 i1 addr2 i2 hq hr
    obtain ⟨j1, hq⟩ := hcall q addr1 i1 hq
    obtain ⟨j2, hr⟩ := hcall r addr2 i2 hr
    exact hi.apart q r addr1 j1 addr2 j2 hq hr

theorem HistInv.step (hi : HistInv s h) (hs : step s l = some s') : HistInv s' (h.record s l) := by
  cases step_cases hs with
  | call p c _ _ hl =>
    obtain ⟨addr, rfl, rfl⟩ | ⟨n, rfl, rfl⟩ := hl
    · exact hi.call addr
    · refine hi.frame rfl fun q addr i hq => ?_
      by_cases hqp : q = p
      · subst hqp
        simp at hq
      · simpa only [update_of_ne hqp] using hq
  | stretch p late c hc _ =>
    cases c with
    | write addr i => exact hi.write hc
    | read n => exact hi.read hc
  | close writable =>
    refine hi.frame ?_ fun q addr i hq => ?_
    · unfold pipeclose
      split <;> rfl
    · unfold pipeclose at hq
      cases writable with
      | true => exact (wakeups_call (some .nread) s.th q) ▸ hq
      | false => exact (wakeups_call (some .nwrite) s.th q) ▸ hq
  | kill p =>
    refine hi.frame rfl fun q addr i hq => ?_
    by_cases hqp : q = p
    · subst hqp
      simpa only [update_self] using hq
    · simpa only [update_of_ne hqp] using hq

theorem HistInv.all (hi : HistInv s h) {addr : List UInt8} {i : ℕ} {r : ℤ}
    (hc : (s.th p).call = some (.write addr i))
    (ho : (pipewrite s.pipe addr i (s.th p).killed).outcome = .ret r) (hne : r ≠ -1) :
    r = addr.length ∧ (h.record s (.stretch p late)).bytesOf (h.current p) = addr := by
  obtain ⟨-, -, -, hret, -⟩ := pipewrite_moved hi.wf addr i (s.th p).killed
  obtain ⟨hr, hmoved⟩ := hret r ho hne
  refine ⟨hr, ?_⟩
  simp only [Hist.record, hc]
  rw [Hist.bytesOf_append, if_pos rfl, (hi.writing p addr i hc).2, hmoved, List.take_append_drop]

/-- **A pipe is a lossless FIFO.** In every interleaving, whatever the counters have wrapped. -/
theorem fifo_of_reach {data : ℕ → UInt8} {killed : P → Bool}
    (hr : Lts.Reach histStep (fun _ _ => True) (start data killed, Hist.start) (s, h)) :
    Fifo s h := by
  have hi : HistInv s h := by
    refine hr.invariant (I := fun x => HistInv x.1 x.2) (HistInv.start data killed) ?_
    rintro x x' l hI - hs
    obtain ⟨s', hs', rfl⟩ := Option.map_eq_some_iff.mp hs
    exact hI.step hs'
  exact ⟨hi.bytes, hi.wf.size_le, hi.inOrder, fun _ _ _ _ _ hc ho hne => hi.all hc ho hne,
    fun _ _ _ hn h0 => piperead_zero hn h0⟩

end

def shortRun : List (Label Bool) :=
  [.write true [1, 2, 3], .read false 2, .stretch true false, .stretch false false]

theorem fifo_of_reach_short : ∃ (s : Sys Bool) (h : Hist Bool),
    Lts.run histStep (start (fun _ => 0) fun _ => false, Hist.start) shortRun = some (s, h) ∧
    h.returned = [1, 2] ∧ s.pipe.contents = [3] ∧ Fifo s h := by
  obtain ⟨⟨s, h⟩, hs, hr, hq⟩ := Lts.exists_reach histStep
    (start (fun _ => 0) fun _ => false, Hist.start) shortRun
    (fun x => decide (x.2.returned = [1, 2] ∧ x.1.pipe.contents = [3]))
    (by decide +kernel) (Lts.RunOk.trivial _ _)
  have hq := of_decide_eq_true hq
  exact ⟨s, h, hs, hq.1, hq.2, fifo_of_reach hr⟩

end Xv6.Pipes
