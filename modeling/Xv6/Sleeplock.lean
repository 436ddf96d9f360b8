import Xv6.Lib.Lts

/-!
# Sleep locks

`acquiresleep` and `releasesleep` with `sleep` and `wakeup` below them, for any number of processes
and locks. A step is the code between two operations on spin locks, `lk->lk` or `ptable.lock`; what
only one process touches under a lock it holds goes with that step. `kill` makes any sleeper
runnable at any time.

1. `Pc`: where a process is, and what this says about the spin locks (`Pc.spins`, `Pc.onPtable`).
2. `step`: the calls, the steps of processes and of the scheduler, and `kill`.
3. `Inv`: a process on its way into `sleep`, or asleep, has somebody to wake it: the lock is taken,
   or a process is in `releasesleep` before `wakeup1`.
-/

namespace Xv6.Sleeplock

open Function

/-! ## The code -/

inductive Pc (L : Type)
  | outside
  /-- `acquiresleep`: `acquire(&lk->lk)`. -/
  | acquire (l : L)
  /-- The test of the loop. -/
  | test (l : L)
  /-- `sleep`: `acquire(&ptable.lock)`. -/
  | sleep (l : L)
  /-- `release(lk)`. -/
  | handOver (l : L)
  /-- `p->chan = chan; p->state = SLEEPING`. -/
  | mark (l : L)
  /-- `sched()`. -/
  | sched (l : L)
  /-- In `sched()`, without a processor. -/
  | away (l : L)
  /-- Back from `sched()`: `p->chan = 0`. -/
  | tidy (l : L)
  /-- `release(&ptable.lock)`. -/
  | unlock (l : L)
  /-- `acquire(lk)`, then back to the test. -/
  | reacquire (l : L)
  /-- `lk->locked = 1; lk->pid = myproc()->pid`. -/
  | take (l : L)
  /-- `release(&lk->lk)`, and `acquiresleep` returns. -/
  | taken (l : L)
  /-- `releasesleep`: `acquire(&lk->lk)`. -/
  | release (l : L)
  /-- `lk->locked = 0; lk->pid = 0`. -/
  | clear (l : L)
  /-- `wakeup`: `acquire(&ptable.lock)`. -/
  | wakeup (l : L)
  /-- `wakeup1(chan)`. -/
  | wakeup1 (l : L)
  /-- `release(&ptable.lock)`. -/
  | woken (l : L)
  /-- `release(&lk->lk)`, and `releasesleep` returns. -/
  | released (l : L)
  deriving DecidableEq

inductive ProcState
  | runnable
  | running
  | sleeping
  deriving DecidableEq

inductive Owner (P : Type)
  | proc (p : P)
  | scheduler
  deriving DecidableEq

structure State (P L : Type) where
  /-- The holder of `lk->lk`. -/
  spin : L → Option P
  locked : L → Bool
  /-- The process whose pid stands in `lk->pid`. -/
  pid : L → Option P
  ptable : Option (Owner P)
  pc : P → Pc L
  state : P → ProcState
  chan : P → Option L
  /-- Is the process between a returned `acquiresleep` and its `releasesleep`? -/
  holds : P × L → Bool

def init (P L : Type) : State P L where
  spin _ := none
  locked _ := false
  pid _ := none
  ptable := none
  pc _ := .outside
  state _ := .running
  chan _ := none
  holds _ := false

def wakeup1 {P L : Type} [DecidableEq L] (state : P → ProcState) (chan : P → Option L) (l : L) :
    P → ProcState := fun p =>
  if state p = .sleeping ∧ chan p = some l then .runnable else state p

variable {P L : Type} [DecidableEq P] [DecidableEq L]

/-- A process calls `acquiresleep` or, for a lock it has, `releasesleep`, or goes on inside one; the
scheduler takes `ptable.lock`, switches to a process or releases the lock; a process is killed. -/
inductive Label (P L : Type)
  | acquiresleep (p : P) (l : L)
  | releasesleep (p : P) (l : L)
  | step (p : P)
  | schedule
  | dispatch (p : P)
  | unschedule
  | kill (p : P)

def State.goto (s : State P L) (p : P) (pc : Pc L) : State P L := { s with pc := update s.pc p pc }

def stepProc (s : State P L) (p : P) : Option (State P L) :=
  match s.pc p with
  | .outside => none
  | .acquire l =>
    if s.spin l = none then some ({ s with spin := update s.spin l (some p) }.goto p (.test l))
    else none
  | .test l => some (s.goto p (if s.locked l then .sleep l else .take l))
  | .sleep l =>
    if s.ptable = none then some ({ s with ptable := some (.proc p) }.goto p (.handOver l))
    else none
  | .handOver l => some ({ s with spin := update s.spin l none }.goto p (.mark l))
  | .mark l =>
    some ({ s with
      chan := update s.chan p (some l)
      state := update s.state p .sleeping }.goto p (.sched l))
  | .sched l => some ({ s with ptable := some .scheduler }.goto p (.away l))
  | .away _ => none
  | .tidy l => some ({ s with chan := update s.chan p none }.goto p (.unlock l))
  | .unlock l => some ({ s with ptable := none }.goto p (.reacquire l))
  | .reacquire l =>
    if s.spin l = none then some ({ s with spin := update s.spin l (some p) }.goto p (.test l))
    else none
  | .take l =>
    some ({ s with
      locked := update s.locked l true
      pid := update s.pid l (some p) }.goto p (.taken l))
  | .taken l =>
    some ({ s with
      spin := update s.spin l none
      holds := update s.holds (p, l) true }.goto p .outside)
  | .release l =>
    if s.spin l = none then some ({ s with spin := update s.spin l (some p) }.goto p (.clear l))
    else none
  | .clear l =>
    some ({ s with
      locked := update s.locked l false
      pid := update s.pid l none }.goto p (.wakeup l))
  | .wakeup l =>
    if s.ptable = none then some ({ s with ptable := some (.proc p) }.goto p (.wakeup1 l)) else none
  | .wakeup1 l => some ({ s with state := wakeup1 s.state s.chan l }.goto p (.woken l))
  | .woken l => some ({ s with ptable := none }.goto p (.released l))
  | .released l => some ({ s with spin := update s.spin l none }.goto p .outside)

def step (s : State P L) : Label P L → Option (State P L)
  | .acquiresleep p l => if s.pc p = .outside then some (s.goto p (.acquire l)) else none
  | .releasesleep p l =>
    if s.pc p = .outside ∧ s.holds (p, l) = true then
      some ({ s with holds := update s.holds (p, l) false }.goto p (.release l))
    else none
  | .step p => stepProc s p
  | .schedule => if s.ptable = none then some { s with ptable := some .scheduler } else none
  | .dispatch p =>
    match s.pc p with
    | .away l =>
      if s.ptable = some .scheduler ∧ s.state p = .runnable then
        some ({ s with
          ptable := some (.proc p)
          state := update s.state p .running }.goto p (.tidy l))
      else none
    | _ => none
  | .unschedule => if s.ptable = some .scheduler then some { s with ptable := none } else none
  | .kill p =>
    some (if s.state p = .sleeping then { s with state := update s.state p .runnable } else s)

/-! ## What the place in the code says -/

@[grind] def Pc.spins : Pc L → Option L
  | .test l | .sleep l | .handOver l | .take l | .taken l | .clear l | .wakeup l | .wakeup1 l
  | .woken l | .released l => some l
  | _ => none

@[grind] def Pc.onPtable : Pc L → Bool
  | .handOver _ | .mark _ | .sched _ | .tidy _ | .unlock _ | .wakeup1 _ | .woken _ => true
  | _ => false

@[grind] def Pc.owns : Pc L → Option L
  | .taken l | .release l | .clear l => some l
  | _ => none

/-- What the process has seen in `lk->locked`, with `lk->lk` still held. -/
@[grind] def Pc.saw : Pc L → Option (L × Bool)
  | .sleep l | .handOver l => some (l, true)
  | .take l => some (l, false)
  | _ => none

@[grind] def Pc.wakes : Pc L → Option L
  | .wakeup l | .wakeup1 l => some l
  | _ => none

def Pc.releases : Pc L → Option L
  | .release l | .clear l | .wakeup l | .wakeup1 l | .woken l | .released l => some l
  | _ => none

omit [DecidableEq L] in
@[grind →] theorem Pc.spins_of_saw {pc : Pc L} {x : L × Bool} (h : pc.saw = some x) :
    pc.spins = some x.1 := by
  cases pc <;> simp_all [Pc.saw, Pc.spins] <;> simp [← h]

omit [DecidableEq L] in
theorem Pc.releases_of_wakes {pc : Pc L} {l : L} (h : pc.wakes = some l) :
    pc.releases = some l := by
  cases pc <;> first | exact h | cases h

/-- The process has the sleep lock, from where it sets `lk->locked` to where it clears it. -/
def Owns (s : State P L) (p : P) (l : L) : Prop := s.holds (p, l) = true ∨ (s.pc p).owns = some l

/-- The process sleeps on the lock, or is about to. -/
def Waits (s : State P L) (p : P) (l : L) : Prop :=
  s.pc p = .mark l ∨ s.state p = .sleeping ∧ s.chan p = some l

structure Inv (s : State P L) : Prop where
  spin : ∀ p l, s.spin l = some p ↔ (s.pc p).spins = some l
  ptable : ∀ p, s.ptable = some (.proc p) ↔ (s.pc p).onPtable = true
  saw : ∀ p x, (s.pc p).saw = some x → s.locked x.1 = x.2
  owned : ∀ p l, Owns s p l ↔ s.locked l = true ∧ s.pid l = some p
  once : ∀ p l, (s.pc p).owns = some l → s.holds (p, l) = false
  woken : ∀ p l, Waits s p l → s.locked l = true ∨ ∃ q, (s.pc q).wakes = some l

omit [DecidableEq P] [DecidableEq L] in
theorem init_inv : Inv (init P L) where
  spin p l := by simp [init, Pc.spins]
  ptable p := by simp [init, Pc.onPtable]
  saw p x h := by cases h
  owned p l := by simp [Owns, init, Pc.owns]
  once p l h := by cases h
  woken p l h := by rcases h with h | ⟨h, -⟩ <;> cases h

section Step

variable {s s' : State P L} {p q : P} {l : L}

omit [DecidableEq P] [DecidableEq L] in
theorem Inv.spin_unique (h : Inv s) (hp : (s.pc p).spins = some l) (hq : (s.pc q).spins = some l) :
    p = q := by
  have hs := (h.spin p l).mpr hp
  rw [(h.spin q l).mpr hq] at hs
  exact (Option.some.inj hs).symm

omit [DecidableEq P] [DecidableEq L] in
theorem Inv.ptable_unique (h : Inv s) (hp : (s.pc p).onPtable = true)
    (hq : (s.pc q).onPtable = true) : p = q := by
  have hs := (h.ptable p).mpr hp
  rw [(h.ptable q).mpr hq] at hs
  exact (Owner.proc.inj (Option.some.inj hs)).symm

theorem Inv.handOver (h : Inv s) (hpc : s.pc p = .handOver l) :
    Inv ({ s with spin := update s.spin l none }.goto p (.mark l)) := by
  have hlocked : s.locked l = true := h.saw p (l, true) (by rw [hpc]; rfl)
  have hmine : s.spin l = some p := (h.spin p l).mpr (by rw [hpc]; rfl)
  obtain ⟨hspin, hptable, hsaw, howned, honce, hwoken⟩ := h
  constructor <;>
  · simp only [Owns, Waits, State.goto, update_apply] at *
    grind

theorem Inv.take (h : Inv s) (hpc : s.pc p = .take l) :
    Inv ({ s with
      locked := update s.locked l true
      pid := update s.pid l (some p) }.goto p (.taken l)) := by
  have hfree : s.locked l = false := h.saw p (l, false) (by rw [hpc]; rfl)
  have hnone : ∀ q, ¬ Owns s q l := fun q hq => by
    rw [((h.owned q l).mp hq).1] at hfree
    cases hfree
  have hspin : ∀ q, (s.pc q).spins = some l → q = p := fun q hq =>
    h.spin_unique hq (by rw [hpc]; rfl)
  obtain ⟨hspin', hptable, hsaw, howned, honce, hwoken⟩ := h
  constructor <;>
  · simp only [Owns, Waits, State.goto, update_apply] at *
    grind

theorem Inv.clear (h : Inv s) (hpc : s.pc p = .clear l) :
    Inv ({ s with
      locked := update s.locked l false
      pid := update s.pid l none }.goto p (.wakeup l)) := by
  have hmine : ∀ q, Owns s q l → q = p := fun q hq => by
    have hp := ((h.owned p l).mp (.inr (by rw [hpc]; rfl))).2
    rw [((h.owned q l).mp hq).2] at hp
    exact Option.some.inj hp
  have hspin : ∀ q, (s.pc q).spins = some l → q = p := fun q hq =>
    h.spin_unique hq (by rw [hpc]; rfl)
  obtain ⟨hspin', hptable, hsaw, howned, honce, hwoken⟩ := h
  constructor <;>
  · simp only [Owns, Waits, State.goto, update_apply] at *
    grind

theorem Inv.wakeup1 (h : Inv s) (hpc : s.pc p = .wakeup1 l) :
    Inv ({ s with state := wakeup1 s.state s.chan l }.goto p (.woken l)) := by
  have hmark : ∀ q, s.pc q ≠ .mark l := fun q hq => by
    have heq := h.ptable_unique (p := p) (q := q) (by rw [hpc]; rfl) (by rw [hq]; rfl)
    rw [← heq, hpc] at hq
    cases hq
  obtain ⟨hspin, hptable, hsaw, howned, honce, hwoken⟩ := h
  refine ⟨?_, ?_, ?_, ?_, ?_, fun q m hq => ?_⟩
  case refine_6 =>
    have hml : m ≠ l := by
      rintro rfl
      simp only [Waits, State.goto, update_apply, Sleeplock.wakeup1] at hq
      grind
    have hold : Waits s q m := by
      simp only [Waits, State.goto, update_apply, Sleeplock.wakeup1] at hq ⊢
      grind
    refine (hwoken q m hold).imp_right fun ⟨r, hr⟩ => ⟨r, ?_⟩
    have hrp : r ≠ p := by
      rintro rfl
      rw [hpc] at hr
      exact hml (Option.some.inj hr).symm
    simpa [State.goto, update_of_ne hrp] using hr
  all_goals
    simp only [Owns, State.goto, update_apply] at *
    grind

theorem Inv.stepProc (h : Inv s) (hs : stepProc s p = some s') : Inv s' := by
  unfold Sleeplock.stepProc at hs
  have hmine := fun l => h.spin p l
  cases hpc : s.pc p with
  | outside => rw [hpc] at hs; cases hs
  | away l => rw [hpc] at hs; cases hs
  | handOver l => rw [hpc] at hs; exact Option.some.inj hs ▸ h.handOver hpc
  | take l => rw [hpc] at hs; exact Option.some.inj hs ▸ h.take hpc
  | clear l => rw [hpc] at hs; exact Option.some.inj hs ▸ h.clear hpc
  | wakeup1 l => rw [hpc] at hs; exact Option.some.inj hs ▸ h.wakeup1 hpc
  | _ =>
    rw [hpc] at hs hmine
    simp only [Option.ite_none_right_eq_some, Option.some.injEq] at hs
    try obtain ⟨hguard, rfl⟩ := hs
    try subst hs
    obtain ⟨hspin, hptable, hsaw, howned, honce, hwoken⟩ := h
    constructor <;>
    · simp only [Owns, Waits, State.goto, update_apply] at *
      grind

omit [DecidableEq L] in
theorem Inv.kill (h : Inv s) : Inv { s with state := update s.state p .runnable } :=
  { h with
    woken := fun q l hq => by
      refine h.woken q l (hq.imp_right fun ⟨hstate, hchan⟩ => ⟨?_, hchan⟩)
      by_cases hqp : q = p
      · rw [hqp] at hstate
        exact absurd hstate (by simp)
      · exact (update_of_ne hqp ..).symm.trans hstate }

theorem Inv.step {x : Label P L} (h : Inv s) (hs : step s x = some s') : Inv s' := by
  cases x with
  | step p => exact h.stepProc hs
  | dispatch p =>
    simp only [Sleeplock.step] at hs
    split at hs
    next l hpc =>
      obtain ⟨⟨hsched, hrun⟩, rfl⟩ := Lts.of_guard hs
      obtain ⟨hspin, hptable, hsaw, howned, honce, hwoken⟩ := h
      constructor <;>
      · simp only [Owns, Waits, State.goto, update_apply] at *
        grind
    next => cases hs
  | kill p =>
    cases hs
    split
    · exact h.kill
    · exact h
  | _ =>
    simp only [Sleeplock.step, Option.ite_none_right_eq_some, Option.some.injEq] at hs
    obtain ⟨hguard, rfl⟩ := hs
    obtain ⟨hspin, hptable, hsaw, howned, honce, hwoken⟩ := h
    constructor <;>
    · simp only [Owns, Waits, State.goto, update_apply] at *
      grind

end Step

/-! ## Runs -/

theorem inv_of_reach {s : State P L} (h : Lts.Reach step (fun _ _ => True) (init P L) s) : Inv s :=
  h.invariant init_inv fun _ _ _ hI _ hs => hI.step hs

def holdingsleep (s : State P L) (p : P) (l : L) : Bool := s.locked l && s.pid l = some p

/-- **`holdingsleep` tells the truth.** In every reachable state it is true of the process that has
acquired the lock and not released it, and of no other. -/
theorem holdingsleep_iff {s : State P L} (h : Lts.Reach step (fun _ _ => True) (init P L) s) {p : P}
    {l : L} (hp : s.pc p = .outside) : holdingsleep s p l = true ↔ s.holds (p, l) = true := by
  have howns : Owns s p l ↔ s.holds (p, l) = true := by simp [Owns, hp, Pc.owns]
  rw [← howns, (inv_of_reach h).owned p l]
  simp [holdingsleep]

theorem holdingsleep_acquired : ∃ s : State (Fin 2) Unit,
    s.holds (0, ()) = true ∧ holdingsleep s 0 () = true := by
  obtain ⟨s, -, hs, hq⟩ := Lts.exists_reach step (init (Fin 2) Unit)
    (.acquiresleep 0 () :: List.replicate 4 (.step 0))
    (fun s => s.pc 0 = .outside ∧ s.holds (0, ()) = true) (by decide) (Lts.RunOk.trivial _ _)
  obtain ⟨hout, hheld⟩ := of_decide_eq_true hq
  exact ⟨s, hheld, (holdingsleep_iff hs hout).mpr hheld⟩

/-- **Sleep locks.** In every reachable state at most one process is between a returned
`acquiresleep` and its `releasesleep`; and while the lock is free and nobody is in `releasesleep`,
nobody sleeps on it. -/
theorem sleeplock_correct {s : State P L} (h : Lts.Reach step (fun _ _ => True) (init P L) s)
    (l : L) :
    (∀ p q, s.holds (p, l) = true → s.holds (q, l) = true → p = q) ∧
    (s.locked l = false → (∀ q, (s.pc q).releases ≠ some l) →
      ∀ p, ¬ (s.state p = .sleeping ∧ s.chan p = some l)) := by
  have hI := inv_of_reach h
  refine ⟨fun p q hp hq => ?_, fun hfree hrel p hp => ?_⟩
  · have hpid := ((hI.owned p l).mp (.inl hp)).2
    rw [((hI.owned q l).mp (.inl hq)).2] at hpid
    exact (Option.some.inj hpid).symm
  · rcases hI.woken p l (.inr hp) with hlocked | ⟨q, hq⟩
    · rw [hlocked] at hfree
      cases hfree
    · exact hrel q (Pc.releases_of_wakes hq)

/-- Process 1 goes to sleep on the lock of process 0, which then releases it: process 1 is runnable
again, still on its way out of `sleep`. -/
theorem sleeplock_correct_woken : ∃ s : State (Fin 2) Unit,
    Lts.Reach step (fun _ _ => True) (init (Fin 2) Unit) s ∧
    (s.locked () = false ∧ s.pc 0 = .outside ∧ s.pc 1 = .away ()) ∧
    ¬ (s.state 1 = .sleeping ∧ s.chan 1 = some ()) := by
  obtain ⟨s, -, hs, hq⟩ := Lts.exists_reach step (init (Fin 2) Unit)
    ([.acquiresleep 0 (), .step 0, .step 0, .step 0, .step 0, .acquiresleep 1 ()] ++
      List.replicate 6 (.step 1) ++ [.unschedule, .releasesleep 0 ()] ++
      List.replicate 6 (.step 0))
    (fun s => s.locked () = false ∧ s.pc 0 = .outside ∧ s.pc 1 = .away ())
    (by decide) (Lts.RunOk.trivial _ _)
  obtain ⟨hfree, h0, h1⟩ := of_decide_eq_true hq
  refine ⟨s, hs, ⟨hfree, h0, h1⟩, (sleeplock_correct hs ()).2 hfree (fun q => ?_) 1⟩
  fin_cases q
  · exact ne_of_eq_of_ne (congrArg Pc.releases h0) (by decide)
  · exact ne_of_eq_of_ne (congrArg Pc.releases h1) (by decide)

end Xv6.Sleeplock
