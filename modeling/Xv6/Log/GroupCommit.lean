import Xv6.Param
import Xv6.Lib.Lts

/-!
# Group commit

`begin_op`, `log_write` and `end_op` of `log.c`, run by any number of processes, as a transition
system. A step is a stretch of code under `log.lock`, or a stretch outside it: `log_write` tests the
size of the log and `log.outstanding` before it takes the lock, and `commit` runs without it.

The state also keeps its history: the operations begun so far are numbered, `logged` lists the
blocks each of them has logged, `since` the operations begun since the last commit, and `txns` the
transactions committed, each with the operations it covers.

1. `GInv` ties `log.outstanding` to the operations in flight and `log.committing` to the process in
   `commit`; `ginv_step` shows that every step keeps it.
2. `group_commit_isolation`: no `log_write` runs during a commit, the two panics about it are
   unreachable, and every operation is covered by exactly one transaction.
-/

namespace Xv6.Log

open Function Lts

inductive LogPanic
  | tooBig
  | outsideTrans
  | committing
  deriving DecidableEq

inductive Phase
  | test
  | writeLog
  | writeHead
  | install
  | clear
  | erase
  | finish
  deriving DecidableEq

inductive Pc
  | idle
  /-- In `begin_op`, about to test under `log.lock`. -/
  | trying
  /-- In `begin_op`, sleeping on `&log`. -/
  | asleep
  /-- Between `begin_op` and `end_op`. -/
  | inOp (op : ℕ)
  /-- In `log_write`, past the two tests made without `log.lock`. -/
  | logging (op b : ℕ)
  /-- In `end_op`, after it has decided to commit. -/
  | committing (ph : Phase)
  deriving DecidableEq

def Pc.op : Pc → Option ℕ
  | .inOp o => some o
  | .logging o _ => some o
  | _ => none

structure Txn where
  ops : List ℕ
  block : List ℕ
  deriving DecidableEq

structure GState (P : Type) where
  outstanding : ℤ
  committing : Bool
  /-- `log.lh.block[0..log.lh.n)`. -/
  lh : List ℕ
  pc : P → Pc
  panic : Option LogPanic
  /-- Number of operations begun. -/
  nextOp : ℕ
  /-- Operations in flight. -/
  active : List ℕ
  /-- Blocks each operation has logged. -/
  logged : ℕ → List ℕ
  /-- Operations begun since the last commit. -/
  since : List ℕ
  txns : List Txn

inductive GLabel (P : Type)
  /-- Call `begin_op`. -/
  | beginOp (p : P)
  /-- One turn of the loop of `begin_op`, under `log.lock`. -/
  | tryBegin (p : P)
  /-- A sleeper is made runnable by `kill`. -/
  | kill (p : P)
  /-- Call `log_write` and make the tests outside the lock. -/
  | logWrite (p : P) (b : ℕ)
  /-- The rest of `log_write`, under `log.lock`. -/
  | record (p : P)
  /-- The first lock section of `end_op`. -/
  | endOp (p : P)
  /-- The next phase of `commit`, or the last lock section of `end_op`. -/
  | commit (p : P)

section Step

variable {P : Type} [DecidableEq P]

def wakeup (pc : P → Pc) : P → Pc := fun q => if pc q = .asleep then .trying else pc q

def GState.goto (s : GState P) (p : P) (c : Pc) : GState P :=
  { s with pc := update s.pc p c }

def tryBegin (s : GState P) (p : P) : GState P :=
  if s.committing then s.goto p .asleep
  else if (s.lh.length : ℤ) + (s.outstanding + 1) * MAXOPBLOCKS > LOGSIZE then
    -- this op might exhaust log space; wait for commit
    s.goto p .asleep
  else
    { s.goto p (.inOp s.nextOp) with
      outstanding := s.outstanding + 1
      nextOp := s.nextOp + 1
      active := s.nextOp :: s.active
      since := s.since ++ [s.nextOp] }

/-- The tests of `log_write`, made before it takes `log.lock`. -/
def logWriteTest (size : ℕ) (s : GState P) (p : P) (o b : ℕ) : GState P :=
  if LOGSIZE ≤ s.lh.length ∨ (size : ℤ) - 1 ≤ s.lh.length then
    { s with panic := some .tooBig }
  else if s.outstanding < 1 then { s with panic := some .outsideTrans }
  else s.goto p (.logging o b)

/-- The lock section of `log_write`: record the block number, absorbing a repeated one. -/
def record (s : GState P) (p : P) (o b : ℕ) : GState P :=
  { s.goto p (.inOp o) with
    lh := if b ∈ s.lh then s.lh else s.lh ++ [b]
    logged := update s.logged o (s.logged o ++ [b]) }

def endOp (s : GState P) (p : P) (o : ℕ) : GState P :=
  if s.committing then { s with panic := some .committing }
  else if s.outstanding - 1 = 0 then
    { s.goto p (.committing .test) with
      outstanding := s.outstanding - 1
      committing := true
      active := s.active.erase o }
  else
    { s with
      outstanding := s.outstanding - 1
      active := s.active.erase o
      pc := wakeup (update s.pc p .idle) }

/-- The phases of `commit`, then the last lock section of `end_op`. The transaction is committed
when the header is written; a group that logged nothing writes nothing. -/
def commitPhase (s : GState P) (p : P) : Phase → GState P
  | .test =>
    if 0 < s.lh.length then s.goto p (.committing .writeLog)
    else { s.goto p (.committing .finish) with since := [], txns := s.txns ++ [⟨s.since, []⟩] }
  | .writeLog => s.goto p (.committing .writeHead)
  | .writeHead =>
    { s.goto p (.committing .install) with since := [], txns := s.txns ++ [⟨s.since, s.lh⟩] }
  | .install => s.goto p (.committing .clear)
  | .clear => { s.goto p (.committing .erase) with lh := [] }
  | .erase => s.goto p (.committing .finish)
  | .finish => { s with committing := false, pc := wakeup (update s.pc p .idle) }

def gstep (size : ℕ) (s : GState P) (l : GLabel P) : Option (GState P) :=
  if s.panic ≠ none then none
  else match l with
    | .beginOp p => if s.pc p = .idle then some (s.goto p .trying) else none
    | .tryBegin p => if s.pc p = .trying then some (tryBegin s p) else none
    | .kill p => if s.pc p = .asleep then some (s.goto p .trying) else none
    | .logWrite p b =>
      match s.pc p with
      | .inOp o => some (logWriteTest size s p o b)
      | _ => none
    | .record p =>
      match s.pc p with
      | .logging o b => some (record s p o b)
      | _ => none
    | .endOp p =>
      match s.pc p with
      | .inOp o => some (endOp s p o)
      | _ => none
    | .commit p =>
      match s.pc p with
      | .committing ph => some (commitPhase s p ph)
      | _ => none

def ginit : GState P where
  outstanding := 0
  committing := false
  lh := []
  pc := fun _ => .idle
  panic := none
  nextOp := 0
  active := []
  logged := fun _ => []
  since := []
  txns := []

end Step

/-! ## What a step can do -/

section Cases

variable {P : Type} [DecidableEq P] {size : ℕ} {s s' : GState P} {l : GLabel P}

inductive GStep (size : ℕ) (s : GState P) : GLabel P → GState P → Prop
  | move {l : GLabel P} {p : P} {c : Pc} (hp : (s.pc p).op = none) (hc : c = .trying ∨ c = .asleep)
      (hph : ∀ ph, s.pc p ≠ .committing ph) : GStep size s l (s.goto p c)
  | enter {p : P} (hp : s.pc p = .trying) (hc : s.committing = false)
      (hroom : (s.lh.length : ℤ) + (s.outstanding + 1) * MAXOPBLOCKS ≤ LOGSIZE) :
      GStep size s (.tryBegin p) { s.goto p (.inOp s.nextOp) with
        outstanding := s.outstanding + 1
        nextOp := s.nextOp + 1
        active := s.nextOp :: s.active
        since := s.since ++ [s.nextOp] }
  | tooBig {p : P} {o b : ℕ} (hp : s.pc p = .inOp o)
      (h : LOGSIZE ≤ s.lh.length ∨ (size : ℤ) - 1 ≤ s.lh.length) :
      GStep size s (.logWrite p b) { s with panic := some .tooBig }
  | outsideTrans {p : P} {o b : ℕ} (hp : s.pc p = .inOp o) (h : s.outstanding < 1) :
      GStep size s (.logWrite p b) { s with panic := some .outsideTrans }
  | test {p : P} {o b : ℕ} (hp : s.pc p = .inOp o) (hn : s.lh.length < LOGSIZE)
      (hsz : (s.lh.length : ℤ) < size - 1) :
      GStep size s (.logWrite p b) (s.goto p (.logging o b))
  | record {p : P} {o b : ℕ} (hp : s.pc p = .logging o b) :
      GStep size s (.record p) (record s p o b)
  | endPanic {p : P} {o : ℕ} (hp : s.pc p = .inOp o) (hc : s.committing = true) :
      GStep size s (.endOp p) { s with panic := some .committing }
  | endLast {p : P} {o : ℕ} (hp : s.pc p = .inOp o) (hc : s.committing = false)
      (hlast : s.outstanding - 1 = 0) :
      GStep size s (.endOp p) { s.goto p (.committing .test) with
        outstanding := s.outstanding - 1
        committing := true
        active := s.active.erase o }
  | endMore {p : P} {o : ℕ} (hp : s.pc p = .inOp o) (hc : s.committing = false)
      (hmore : s.outstanding - 1 ≠ 0) :
      GStep size s (.endOp p) { s with
        outstanding := s.outstanding - 1
        active := s.active.erase o
        pc := wakeup (update s.pc p .idle) }
  | commit {p : P} {ph : Phase} (hp : s.pc p = .committing ph) :
      GStep size s (.commit p) (commitPhase s p ph)

theorem gstep_cases (h : gstep size s l = some s') : s.panic = none ∧ GStep size s l s' := by
  unfold gstep at h
  split_ifs at h with hpanic
  refine ⟨not_not.mp hpanic, ?_⟩
  cases l with
  | beginOp p =>
    simp only at h
    split_ifs at h with hp
    cases h
    exact .move (by rw [hp]; rfl) (Or.inl rfl) (by simp [hp])
  | tryBegin p =>
    simp only at h
    split_ifs at h with hp
    cases h
    have hop : (s.pc p).op = none := by rw [hp]; rfl
    unfold tryBegin
    split_ifs with hc hroom
    · exact .move hop (Or.inr rfl) (by simp [hp])
    · exact .move hop (Or.inr rfl) (by simp [hp])
    · exact .enter hp (by simpa using hc) (not_lt.mp hroom)
  | kill p =>
    simp only at h
    split_ifs at h with hp
    cases h
    exact .move (by rw [hp]; rfl) (Or.inl rfl) (by simp [hp])
  | logWrite p b =>
    simp only at h
    split at h
    · rename_i o hp
      cases h
      unfold logWriteTest
      split_ifs with hbig hout
      · exact .tooBig hp hbig
      · exact .outsideTrans hp hout
      · exact .test hp (by omega) (by omega)
    · cases h
  | record p =>
    simp only at h
    split at h
    · rename_i o b hp
      cases h
      exact .record hp
    · cases h
  | endOp p =>
    simp only at h
    split at h
    · rename_i o hp
      cases h
      unfold endOp
      split_ifs with hc hlast
      · exact .endPanic hp hc
      · exact .endLast hp (by simpa using hc) hlast
      · exact .endMore hp (by simpa using hc) hlast
    · cases h
  | commit p =>
    simp only at h
    split at h
    · rename_i ph hp
      cases h
      exact .commit hp
    · cases h

theorem lh_nodup_step (h : s.lh.Nodup) (hs : GStep size s l s') : s'.lh.Nodup := by
  cases hs with
  | @record p o b hp =>
    show (if b ∈ s.lh then s.lh else s.lh ++ [b]).Nodup
    split
    next => exact h
    next hb =>
      refine List.nodup_append.mpr ⟨h, List.nodup_singleton b, fun x hx y hy heq => hb ?_⟩
      rwa [← List.mem_singleton.mp hy, ← heq]
  | @commit p ph hp =>
    cases ph with
    | test =>
      unfold commitPhase
      split_ifs <;> exact h
    | clear => exact List.nodup_nil
    | writeLog | writeHead | install | erase | finish => exact h
  | _ => exact h

end Cases

/-! ## The invariant -/

section Inv

variable {P : Type} {s s' : GState P}

structure PcInv (s : GState P) : Prop where
  nodup : s.active.Nodup
  count : s.outstanding = s.active.length
  mem_active : ∀ o, o ∈ s.active ↔ ∃ p, (s.pc p).op = some o
  unique : ∀ p q o, (s.pc p).op = some o → (s.pc q).op = some o → p = q
  quiet : s.committing = true → s.active = []
  flag : ∀ p ph, s.pc p = .committing ph → s.committing = true
  single : ∀ p q ph ph', s.pc p = .committing ph → s.pc q = .committing ph' → p = q

def Phase.late : Phase → Bool
  | .install | .clear | .erase | .finish => true
  | _ => false

structure HistInv (s : GState P) : Prop where
  sub : ∀ o ∈ s.active, o ∈ s.since
  cover : s.txns.flatMap Txn.ops ++ s.since = List.range s.nextOp
  kept : ∀ o ∈ s.since, ∀ b ∈ s.logged o, b ∈ s.lh
  late : ∀ p ph, s.pc p = .committing ph → ph.late = true → s.since = []
  done : ∀ t ∈ s.txns, ∀ o ∈ t.ops, ∀ b ∈ s.logged o, b ∈ t.block
  fresh : ∀ o, s.nextOp ≤ o → s.logged o = []

structure GInv (s : GState P) : Prop where
  pcs : PcInv s
  hist : HistInv s
  safe : s.panic ≠ some .committing ∧ s.panic ≠ some .outsideTrans

theorem ginv_ginit : GInv (ginit : GState P) where
  pcs := by constructor <;> simp [ginit, Pc.op]
  hist := by constructor <;> simp [ginit]
  safe := by simp [ginit]

theorem wakeup_op (pc : P → Pc) (q : P) : (wakeup pc q).op = (pc q).op := by
  unfold wakeup
  split_ifs with h
  · rw [h]; rfl
  · rfl

theorem wakeup_committing {pc : P → Pc} {q : P} {ph : Phase} (h : wakeup pc q = .committing ph) :
    pc q = .committing ph := by
  unfold wakeup at h
  split_ifs at h
  exact h

theorem PcInv.of_same_ops (h : PcInv s) (hact : s'.active = s.active)
    (hout : s'.outstanding = s.outstanding) (hop : ∀ q, (s'.pc q).op = (s.pc q).op)
    (hcom : ∀ q ph, s'.pc q = .committing ph → s'.committing = true ∧ ∃ ph', s.pc q =
    .committing ph')
    (hquiet : s'.committing = true → s.committing = true) : PcInv s' where
  nodup := by rw [hact]; exact h.nodup
  count := by rw [hact, hout]; exact h.count
  mem_active o := by rw [hact, h.mem_active]; simp only [hop]
  unique p q o hp hq := h.unique p q o (by rw [← hop]; exact hp) (by rw [← hop]; exact hq)
  quiet hc := by rw [hact]; exact h.quiet (hquiet hc)
  flag p ph hp := (hcom p ph hp).1
  single p q ph ph' hp hq := by
    obtain ⟨_, hp⟩ := (hcom p ph hp).2
    obtain ⟨_, hq⟩ := (hcom q ph' hq).2
    exact h.single p q _ _ hp hq

variable {o : ℕ}

theorem HistInv.not_mem_txn (h : HistInv s) (ho : o ∈ s.since) {t : Txn} (ht : t ∈ s.txns) :
    o ∉ t.ops := by
  have hn : (s.txns.flatMap Txn.ops ++ s.since).Nodup := by rw [h.cover]; exact List.nodup_range
  intro hto
  exact (List.nodup_append.mp hn).2.2 o (List.mem_flatMap.mpr ⟨t, ht, hto⟩) o ho rfl

theorem HistInv.lt_nextOp (h : HistInv s) (ho : o ∈ s.since) : o < s.nextOp := by
  have : o ∈ List.range s.nextOp := by rw [← h.cover]; exact List.mem_append_right _ ho
  exact List.mem_range.mp this

theorem PcInv.mem_of_op (h : PcInv s) {p : P} (hp : (s.pc p).op = some o) : o ∈ s.active :=
  (h.mem_active o).mpr ⟨p, hp⟩

theorem PcInv.not_committing (h : PcInv s) {p : P} (hp : (s.pc p).op = some o) :
    s.committing = false ∧ ∀ q ph, s.pc q ≠ .committing ph := by
  have hmem := h.mem_of_op hp
  have hc : s.committing = false := by
    by_contra hne
    rw [h.quiet (by simpa using hne)] at hmem
    exact absurd hmem List.not_mem_nil
  refine ⟨hc, fun q ph hq => ?_⟩
  rw [h.flag q ph hq] at hc
  exact absurd hc (by simp)

end Inv

section StepInv

variable {P : Type} [DecidableEq P] {size : ℕ} {s s' : GState P} {l : GLabel P}

theorem goto_pc (p : P) (c : Pc) : (s.goto p c).pc = update s.pc p c := rfl

variable {c : Pc} {p : P}

theorem goto_op_of_none (hp : (s.pc p).op = none) (hc : c.op = none) (q : P) :
    (update s.pc p c q).op = (s.pc q).op := by
  by_cases hq : q = p
  · subst hq; rw [update_self, hp, hc]
  · rw [update_of_ne hq]

variable {ph : Phase}

theorem update_committing {q : P} (hc : ∀ ph, c ≠ .committing ph)
    (h : update s.pc p c q = .committing ph) : q ≠ p ∧ s.pc q = .committing ph := by
  by_cases hq : q = p
  · subst hq; rw [update_self] at h; exact absurd h (hc ph)
  · rw [update_of_ne hq] at h; exact ⟨hq, h⟩

theorem PcInv.enter (h : PcInv s) (hh : HistInv s) (hp : s.pc p = .trying)
    (hc : s.committing = false) : PcInv { s.goto p (.inOp s.nextOp) with
      outstanding := s.outstanding + 1
      nextOp := s.nextOp + 1
      active := s.nextOp :: s.active
      since := s.since ++ [s.nextOp] } := by
  have hnew : s.nextOp ∉ s.active := fun hm => by
    have := hh.lt_nextOp (hh.sub _ hm); omega
  have hop : ∀ q o, (update s.pc p (.inOp s.nextOp) q).op = some o ↔
      (q = p ∧ o = s.nextOp) ∨ (s.pc q).op = some o := by
    intro q o
    by_cases hq : q = p
    · subst hq
      rw [update_self, hp]
      simp [Pc.op, eq_comm]
    · rw [update_of_ne hq]; simp [hq]
  refine ⟨?_, ?_, ?_, ?_, ?_, ?_, ?_⟩
  · exact List.nodup_cons.mpr ⟨hnew, h.nodup⟩
  · simp only [h.count, List.length_cons]; push_cast; ring
  · intro o
    simp only [goto_pc, hop, List.mem_cons, h.mem_active]
    constructor
    · rintro (rfl | ⟨q, hq⟩)
      · exact ⟨p, Or.inl ⟨rfl, rfl⟩⟩
      · exact ⟨q, Or.inr hq⟩
    · rintro ⟨q, ⟨-, rfl⟩ | hq⟩
      · exact Or.inl rfl
      · exact Or.inr ⟨q, hq⟩
  · intro q r o hq hr
    simp only [goto_pc, hop] at hq hr
    rcases hq with ⟨rfl, rfl⟩ | hq <;> rcases hr with ⟨rfl, hr⟩ | hr
    · rfl
    · exact absurd (h.mem_of_op hr) hnew
    · subst hr; exact absurd (h.mem_of_op hq) hnew
    · exact h.unique q r o hq hr
  · intro hc'; simp only [GState.goto] at hc'; rw [hc] at hc'; exact absurd hc' (by simp)
  · intro q ph hq
    have := h.flag q ph (update_committing (by simp) hq).2
    rw [hc] at this; exact absurd this (by simp)
  · intro q r ph ph' hq hr
    exact h.single q r ph ph' (update_committing (by simp) hq).2 (update_committing (by simp) hr).2

variable {o : ℕ}

theorem PcInv.mem_erase (h : PcInv s) (hp : s.pc p = .inOp o) (hc : c.op = none) (x : ℕ) :
    x ∈ s.active.erase o ↔ ∃ q, (update s.pc p c q).op = some x := by
  rw [h.nodup.mem_erase_iff, h.mem_active]
  constructor
  · rintro ⟨hne, q, hq⟩
    refine ⟨q, ?_⟩
    rw [update_of_ne (by rintro rfl; rw [hp] at hq; exact hne (Option.some.inj hq).symm)]
    exact hq
  · rintro ⟨q, hq⟩
    have hqp : q ≠ p := by rintro rfl; rw [update_self, hc] at hq; cases hq
    rw [update_of_ne hqp] at hq
    refine ⟨?_, q, hq⟩
    rintro rfl
    exact hqp (h.unique q p x hq (by rw [hp]; rfl))

theorem PcInv.unique_update (h : PcInv s) (hc : c.op = none) {q r : P} {x : ℕ}
    (hq : (update s.pc p c q).op = some x) (hr : (update s.pc p c r).op = some x) : q = r := by
  have hne : ∀ t, (update s.pc p c t).op = some x → t ≠ p := by
    rintro t ht rfl; rw [update_self, hc] at ht; cases ht
  have hq' := hne q hq
  have hr' := hne r hr
  rw [update_of_ne hq'] at hq
  rw [update_of_ne hr'] at hr
  exact h.unique q r x hq hr

omit [DecidableEq P] in
theorem PcInv.length_erase (h : PcInv s) (hp : s.pc p = .inOp o) :
    s.outstanding - 1 = (s.active.erase o).length := by
  have hm : o ∈ s.active := h.mem_of_op (p := p) (by rw [hp]; rfl)
  have hpos := List.length_pos_of_mem hm
  rw [h.count, List.length_erase_of_mem hm]
  omega

theorem PcInv.endLast (h : PcInv s) (hp : s.pc p = .inOp o)
    (hlast : s.outstanding - 1 = 0) : PcInv { s.goto p (.committing .test) with
      outstanding := s.outstanding - 1
      committing := true
      active := s.active.erase o } := by
  have hno := (h.not_committing (p := p) (o := o) (by rw [hp]; rfl)).2
  have hempty : s.active.erase o = [] := by
    have := h.length_erase hp
    rw [hlast] at this
    exact List.length_eq_zero_iff.mp (by exact_mod_cast this.symm)
  have honly : ∀ q ph, update s.pc p (.committing .test) q = .committing ph → q = p := by
    intro q ph hq
    by_contra hne
    rw [update_of_ne hne] at hq
    exact hno q ph hq
  refine ⟨h.nodup.erase o, h.length_erase hp, h.mem_erase hp rfl,
    fun q r x hq hr => h.unique_update rfl hq hr, fun _ => hempty, fun _ _ _ => rfl, ?_⟩
  intro q r ph ph' hq hr
  rw [honly q ph hq, honly r ph' hr]

theorem PcInv.endMore (h : PcInv s) (hp : s.pc p = .inOp o) : PcInv { s with
      outstanding := s.outstanding - 1
      active := s.active.erase o
      pc := wakeup (update s.pc p .idle) } := by
  obtain ⟨hc, hno⟩ := h.not_committing (p := p) (o := o) (by rw [hp]; rfl)
  have hnone : ∀ q ph, wakeup (update s.pc p .idle) q ≠ .committing ph := by
    intro q ph hq
    exact hno q ph (update_committing (by simp) (wakeup_committing hq)).2
  refine ⟨h.nodup.erase o, h.length_erase hp, ?_, ?_, ?_, ?_, ?_⟩
  · intro x; simp only [wakeup_op]; exact h.mem_erase hp rfl x
  · intro q r x hq hr
    simp only [wakeup_op] at hq hr
    exact h.unique_update rfl hq hr
  · intro hc'; rw [hc] at hc'; exact absurd hc' (by simp)
  · intro q ph hq; exact absurd hq (hnone q ph)
  · intro q r ph ph' hq; exact absurd hq (hnone q ph)

theorem HistInv.record (h : HistInv s) (hpc : PcInv s) {b : ℕ}
    (hp : s.pc p = .logging o b) : HistInv (record s p o b) := by
  have hop : (s.pc p).op = some o := by rw [hp]; rfl
  have hsince := h.sub o (hpc.mem_of_op hop)
  have hno := (hpc.not_committing hop).2
  have hlh : ∀ x ∈ s.lh, x ∈ (Log.record s p o b).lh := by
    intro x hx
    unfold Log.record
    simp only
    split_ifs
    · exact hx
    · exact List.mem_append_left _ hx
  refine ⟨h.sub, h.cover, ?_, ?_, ?_, ?_⟩
  · intro o' ho' x hx
    by_cases he : o' = o
    · subst he
      rw [show (Log.record s p o' b).logged o' = s.logged o' ++ [b] from
        update_self o' _ s.logged] at hx
      rcases List.mem_append.mp hx with hx | hx
      · exact hlh x (h.kept o' ho' x hx)
      · obtain rfl := List.mem_singleton.mp hx
        unfold Log.record
        simp only
        split_ifs with hm
        · exact hm
        · exact List.mem_append_right _ (List.mem_singleton.mpr rfl)
    · rw [show (Log.record s p o b).logged o' = s.logged o' from
        update_of_ne he _ s.logged] at hx
      exact hlh x (h.kept o' ho' x hx)
  · intro q ph hq _
    exact absurd (update_committing (by simp) hq).2 (hno q ph)
  · intro t ht o' ho' x hx
    have he : o' ≠ o := by rintro rfl; exact h.not_mem_txn hsince ht ho'
    rw [show (Log.record s p o b).logged o' = s.logged o' from
      update_of_ne he _ s.logged] at hx
    exact h.done t ht o' ho' x hx
  · intro o' ho'
    have he : o' ≠ o := by
      rintro rfl
      have := h.lt_nextOp hsince
      exact absurd ho' (by simp only [Log.record, GState.goto]; omega)
    rw [show (Log.record s p o b).logged o' = s.logged o' from update_of_ne he _ s.logged]
    exact h.fresh o' ho'

theorem HistInv.commit (h : HistInv s) (hpc : PcInv s)
    (hp : s.pc p = .committing ph) : HistInv (commitPhase s p ph) := by
  have hact : s.active = [] := hpc.quiet (hpc.flag p ph hp)
  have honly : ∀ c q ph', update s.pc p c q = .committing ph' → q ≠ p → False := by
    intro c q ph' hq hne
    rw [update_of_ne hne] at hq
    exact hne (hpc.single q p ph' ph hq hp)
  -- the two ways to close a group
  have hclose : ∀ (c : Pc) (bs : List ℕ), (∀ o ∈ s.since, ∀ b ∈ s.logged o, b ∈ bs) →
      HistInv { s.goto p c with since := [], txns := s.txns ++ [⟨s.since, bs⟩] } := by
    intro c bs hbs
    refine ⟨?_, ?_, ?_, ?_, ?_, h.fresh⟩
    · intro o ho; simp only [GState.goto, hact] at ho; exact absurd ho List.not_mem_nil
    · simp only [List.flatMap_append, List.flatMap_cons, List.flatMap_nil, List.append_nil]
      exact h.cover
    · intro o ho; exact absurd ho List.not_mem_nil
    · intro q ph' _ _; rfl
    · intro t ht o ho b hb
      rcases List.mem_append.mp ht with ht | ht
      · exact h.done t ht o ho b hb
      · obtain rfl := List.mem_singleton.mp ht
        exact hbs o ho b hb
  have hmove : ∀ c : Pc, (∀ ph', c = .committing ph' → ph'.late = true → s.since = []) →
      HistInv (s.goto p c) := by
    intro c hc
    refine ⟨h.sub, h.cover, h.kept, ?_, h.done, h.fresh⟩
    intro q ph' hq hl
    by_cases hqp : q = p
    · subst hqp
      rw [goto_pc, update_self] at hq
      exact hc ph' hq hl
    · exact (honly c q ph' hq hqp).elim
  cases ph with
  | test =>
    unfold commitPhase
    split_ifs with hn
    · exact hmove _ (by rintro _ ⟨⟩ hl; simp [Phase.late] at hl)
    · refine hclose _ [] fun o ho b hb => ?_
      have := List.length_pos_of_mem (h.kept o ho b hb)
      exact absurd this hn
  | writeLog => exact hmove _ (by rintro _ ⟨⟩ hl; simp [Phase.late] at hl)
  | writeHead => exact hclose _ s.lh h.kept
  | install => exact hmove _ fun _ _ _ => h.late p _ hp rfl
  | clear =>
    have hsince := h.late p _ hp rfl
    refine ⟨h.sub, h.cover, ?_, fun _ _ _ _ => hsince, h.done, h.fresh⟩
    intro o ho
    simp only [commitPhase, GState.goto, hsince] at ho
    exact absurd ho List.not_mem_nil
  | erase => exact hmove _ fun _ _ _ => h.late p _ hp rfl
  | finish =>
    exact ⟨h.sub, h.cover, h.kept, fun _ _ _ _ => h.late p _ hp rfl, h.done, h.fresh⟩

theorem PcInv.commit (h : PcInv s) (hp : s.pc p = .committing ph) : PcInv (commitPhase s p ph) := by
  have hflag := h.flag p ph hp
  have hop : (s.pc p).op = none := by rw [hp]; rfl
  have hstay : ∀ (ph' : Phase) (s' : GState P), s'.active = s.active →
      s'.outstanding = s.outstanding → s'.committing = s.committing →
      s'.pc = update s.pc p (.committing ph') → PcInv s' := by
    intro ph' s' ha ho hc hpc
    refine h.of_same_ops ha ho (fun q => by rw [hpc]; exact goto_op_of_none hop rfl q) ?_
      (fun hq => by rw [← hc]; exact hq)
    intro q ph'' hq
    refine ⟨by rw [hc]; exact hflag, ?_⟩
    by_cases hqp : q = p
    · subst hqp; exact ⟨ph, hp⟩
    · rw [hpc, update_of_ne hqp] at hq; exact ⟨ph'', hq⟩
  cases ph with
  | test =>
    unfold commitPhase
    split_ifs
    · exact hstay .writeLog _ rfl rfl rfl rfl
    · exact hstay .finish _ rfl rfl rfl rfl
  | writeLog => exact hstay .writeHead _ rfl rfl rfl rfl
  | writeHead => exact hstay .install _ rfl rfl rfl rfl
  | install => exact hstay .clear _ rfl rfl rfl rfl
  | clear => exact hstay .erase _ rfl rfl rfl rfl
  | erase => exact hstay .finish _ rfl rfl rfl rfl
  | finish =>
    refine h.of_same_ops rfl rfl (fun q => ?_) ?_ (fun hq => absurd hq (by simp [commitPhase]))
    · show (wakeup (update s.pc p .idle) q).op = _
      rw [wakeup_op]
      exact goto_op_of_none hop rfl q
    · intro q ph' hq
      obtain ⟨hne, hq⟩ := update_committing (by simp) (wakeup_committing hq)
      exact absurd (h.single q p _ _ hq hp) hne

/-- **Every step keeps the invariant.** -/
theorem ginv_step (h : GInv s) (hn : s.panic = none) (hs : GStep size s l s') : GInv s' := by
  obtain ⟨hpc, hh, -⟩ := h
  have hsafe : s.panic ≠ some .committing ∧ s.panic ≠ some .outsideTrans := by simp [hn]
  cases hs with
  | @move _ p c hp hc hph =>
    have hcop : c.op = none := by rcases hc with rfl | rfl <;> rfl
    have hcc : ∀ ph, c ≠ .committing ph := by rcases hc with rfl | rfl <;> simp
    refine ⟨hpc.of_same_ops rfl rfl (goto_op_of_none hp hcop) ?_ id, ?_, hsafe⟩
    · intro q ph hq
      have := (update_committing hcc hq).2
      exact ⟨hpc.flag q ph this, ph, this⟩
    · exact ⟨hh.sub, hh.cover, hh.kept,
        fun q ph hq => hh.late q ph (update_committing hcc hq).2, hh.done, hh.fresh⟩
  | @enter p hp hc hroom =>
    refine ⟨hpc.enter hh hp hc, ⟨?_, ?_, ?_, ?_, hh.done, ?_⟩, hsafe⟩
    · intro o ho
      rcases List.mem_cons.mp ho with rfl | ho
      · exact List.mem_append_right _ (List.mem_singleton.mpr rfl)
      · exact List.mem_append_left _ (hh.sub o ho)
    · simp only [GState.goto, ← List.append_assoc, hh.cover, List.range_succ]
    · intro o ho b hb
      rcases List.mem_append.mp ho with ho | ho
      · exact hh.kept o ho b hb
      · obtain rfl := List.mem_singleton.mp ho
        have hnil : s.logged s.nextOp = [] := hh.fresh _ le_rfl
        simp only [GState.goto, hnil] at hb
        exact absurd hb List.not_mem_nil
    · intro q ph hq
      have := hpc.flag q ph (update_committing (by simp) hq).2
      rw [hc] at this; exact absurd this (by simp)
    · intro o ho; exact hh.fresh o (by simp only at ho; omega)
  | @tooBig p o b hp hbig => exact ⟨⟨hpc.1, hpc.2, hpc.3, hpc.4, hpc.5, hpc.6, hpc.7⟩,
      ⟨hh.1, hh.2, hh.3, hh.4, hh.5, hh.6⟩, by simp⟩
  | @outsideTrans p o b hp hout =>
    have hpos := List.length_pos_of_mem (hpc.mem_of_op (p := p) (o := o) (by rw [hp]; rfl))
    rw [hpc.count] at hout
    omega
  | @test p o b hp hlen hsz =>
    have hop : ∀ q, (update s.pc p (.logging o b) q).op = (s.pc q).op := by
      intro q
      by_cases hq : q = p
      · subst hq; rw [update_self, hp]; rfl
      · rw [update_of_ne hq]
    refine ⟨hpc.of_same_ops rfl rfl hop ?_ id, ?_, hsafe⟩
    · intro q ph hq
      have := (update_committing (by simp) hq).2
      exact ⟨hpc.flag q ph this, ph, this⟩
    · exact ⟨hh.sub, hh.cover, hh.kept,
        fun q ph hq => hh.late q ph (update_committing (by simp) hq).2, hh.done, hh.fresh⟩
  | @record p o b hp =>
    have hop : ∀ q, (update s.pc p (.inOp o) q).op = (s.pc q).op := by
      intro q
      by_cases hq : q = p
      · subst hq; rw [update_self, hp]; rfl
      · rw [update_of_ne hq]
    refine ⟨hpc.of_same_ops rfl rfl hop ?_ id, hh.record hpc hp, hsafe⟩
    intro q ph hq
    have := (update_committing (by simp) hq).2
    exact ⟨hpc.flag q ph this, ph, this⟩
  | @endPanic p o hp hc =>
    have := (hpc.not_committing (p := p) (o := o) (by rw [hp]; rfl)).1
    rw [hc] at this; exact absurd this (by simp)
  | @endLast p o hp hc hlast =>
    refine ⟨hpc.endLast hp hlast, ⟨?_, hh.cover, hh.kept, ?_, hh.done, hh.fresh⟩, hsafe⟩
    · intro x hx; exact hh.sub x (List.mem_of_mem_erase hx)
    · intro q ph hq hl
      by_cases hqp : q = p
      · subst hqp
        rw [show (s.goto q (.committing .test)).pc q = _ from update_self q _ s.pc] at hq
        injection hq with hq
        subst hq
        simp [Phase.late] at hl
      · rw [show (s.goto p (.committing .test)).pc q = s.pc q from
          update_of_ne hqp _ s.pc] at hq
        exact hh.late q ph hq hl
  | @endMore p o hp hc hmore =>
    refine ⟨hpc.endMore hp, ⟨?_, hh.cover, hh.kept, ?_, hh.done, hh.fresh⟩, hsafe⟩
    · intro x hx; exact hh.sub x (List.mem_of_mem_erase hx)
    · intro q ph hq
      exact hh.late q ph (update_committing (by simp) (wakeup_committing hq)).2
  | @commit p ph hp =>
    refine ⟨hpc.commit hp, hh.commit hpc hp, ?_⟩
    cases ph <;> simp only [commitPhase] <;> (try split_ifs) <;> exact hsafe

end StepInv

/-! ## Isolation -/

section Isolation

variable {P : Type} [DecidableEq P] {size : ℕ} {s : GState P}

theorem Reach.ginv {ok : GState P → GLabel P → Prop} (h : Reach (gstep size) ok ginit s) : GInv s :=
  h.invariant ginv_ginit fun _ _ _ hi _ hs =>
    have ⟨hn, hs⟩ := gstep_cases hs
    ginv_step hi hn hs

theorem PcInv.no_log_write (h : PcInv s) (hc : s.committing = true) (q : P) (b : ℕ) :
    gstep size s (.logWrite q b) = none ∧ gstep size s (.record q) = none := by
  have hno : ∀ o, (s.pc q).op ≠ some o := by
    intro o ho
    have := h.mem_of_op ho
    rw [h.quiet hc] at this
    exact absurd this List.not_mem_nil
  refine ⟨?_, ?_⟩
  · unfold gstep
    split_ifs
    · rfl
    · simp only
      split
      · rename_i o ho; exact absurd (by rw [ho]; rfl) (hno o)
      · rfl
  · unfold gstep
    split_ifs
    · rfl
    · simp only
      split
      · rename_i o b ho; exact absurd (by rw [ho]; rfl) (hno o)
      · rfl

/-- **Group commit isolation.** In every state of every run, for any number of processes:
while a process is in `commit`, `log.committing` is set, `log.outstanding` is 0 and no process can
execute `log_write`; the panics "log.committing" and "log_write outside of trans" have not occurred;
the committed transactions, in order, and the operations begun since the last commit partition the
operations begun; each transaction contains every block logged by each operation it covers; and the
blocks logged by the others are all in the header, for the next commit. -/
theorem group_commit_isolation (h : Reach (gstep size) (fun _ _ => True) (ginit : GState P) s) :
    (∀ p ph, s.pc p = .committing ph → s.committing = true ∧ s.outstanding = 0 ∧
      ∀ q b, gstep size s (.logWrite q b) = none ∧ gstep size s (.record q) = none) ∧
    s.panic ≠ some .committing ∧ s.panic ≠ some .outsideTrans ∧
    s.txns.flatMap Txn.ops ++ s.since = List.range s.nextOp ∧
    (∀ t ∈ s.txns, ∀ o ∈ t.ops, ∀ b ∈ s.logged o, b ∈ t.block) ∧
    ∀ o ∈ s.since, ∀ b ∈ s.logged o, b ∈ s.lh := by
  have hi := Reach.ginv h
  refine ⟨?_, hi.safe.1, hi.safe.2, hi.hist.cover, hi.hist.done, hi.hist.kept⟩
  intro p ph hp
  have hc := hi.pcs.flag p ph hp
  refine ⟨hc, ?_, hi.pcs.no_log_write hc⟩
  rw [hi.pcs.count, hi.pcs.quiet hc]
  rfl

def twoOps : List (GLabel (Fin 2)) :=
  [.beginOp 0, .tryBegin 0, .beginOp 1, .tryBegin 1, .logWrite 0 70, .record 0, .endOp 0,
    .logWrite 1 71, .record 1, .endOp 1, .commit 1, .commit 1, .commit 1]

theorem group_commit_isolation_two_ops : ∃ s, run (gstep 30) (ginit : GState (Fin 2))
    twoOps = some s ∧
    s.pc 1 = .committing .install ∧ s.txns = [⟨[0, 1], [70, 71]⟩] ∧ s.outstanding = 0 := by
  obtain ⟨s, hs⟩ := Option.isSome_iff_exists.mp
    (by decide : (run (gstep 30) (ginit : GState (Fin 2)) twoOps).isSome)
  have hpc : (run (gstep 30) (ginit : GState (Fin 2)) twoOps).map (fun s => (s.pc 1, s.txns)) =
      some (.committing .install, [⟨[0, 1], [70, 71]⟩]) := by decide
  rw [hs] at hpc
  obtain ⟨hpc, htx⟩ := Prod.mk.inj (Option.some.inj hpc)
  have hr : Reach (gstep 30) (fun _ _ => True) (ginit : GState (Fin 2)) s :=
    Reach.of_run hs (by decide)
  exact ⟨s, hs, hpc, htx, ((group_commit_isolation hr).1 1 _ hpc).2.1⟩

end Isolation

end Xv6.Log
