import Xv6.Lib.Lts
import Xv6.Param

/-!
# The process table

The part of `proc.c` that works on `ptable`: a slot's `state`, `pid`, `parent`, `chan` and `killed`.
The slots are recycled, and the fields of a slot are reset on only one of the ways back to `UNUSED`,
in `wait`; a `fork` that fails after `allocproc` leaves the new `pid` behind.

1. The table's functions, each as one step.
2. `kill` looks at `pid` alone. As long as the slot it finds is in use, an unused slot never has
   `killed` set, so that a child made by `fork`, which does not reset it either, starts without it.
-/

namespace Xv6.Procs

open Function

inductive ProcState
  | unused
  | embryo
  | sleeping
  | runnable
  | running
  | zombie
  deriving DecidableEq

inductive Chan
  | proc (p : Fin NPROC)
  | addr (a : ℕ)
  deriving DecidableEq

structure Slot where
  state : ProcState
  pid : Int32
  parent : Option (Fin NPROC)
  chan : Option Chan
  killed : Bool
  deriving DecidableEq

structure Ptable where
  slot : Fin NPROC → Slot
  nextpid : Int32
  initproc : Fin NPROC

namespace Ptable

def set (t : Ptable) (i : Fin NPROC) (s : Slot) : Ptable := { t with slot := update t.slot i s }

def find (t : Ptable) (hit : Slot → Bool) : Option (Fin NPROC) :=
  (List.finRange NPROC).find? fun i => hit (t.slot i)

def allocSlot (t : Ptable) : Option (Fin NPROC × Ptable) :=
  (t.find (·.state = .unused)).map fun i =>
    (i, { t.set i { t.slot i with state := .embryo, pid := t.nextpid } with
      nextpid := t.nextpid + 1 })

def dropSlot (t : Ptable) (np : Fin NPROC) : Ptable := t.set np { t.slot np with state := .unused }

def startChild (t : Ptable) (cur np : Fin NPROC) : Ptable :=
  t.set np { t.slot np with parent := some cur, state := .runnable }

/-- `fork`; `memory` says whether `allocproc` gets a kernel stack and `copyuvm` succeeds. The child,
whose pid is returned, or `none` for -1. -/
def fork (t : Ptable) (cur : Fin NPROC) (memory : Bool) : Ptable × Option (Fin NPROC) :=
  match t.allocSlot with
  | none => (t, none)
  | some (np, t') => if memory then (t'.startChild cur np, some np) else (t'.dropSlot np, none)

def wakeup1 (t : Ptable) (chan : Option Chan) : Ptable :=
  { t with slot := fun i =>
    if (t.slot i).state = .sleeping ∧ (t.slot i).chan = chan then
      { t.slot i with state := .runnable }
    else t.slot i }

def reparent (cur : Fin NPROC) (t : Ptable) (i : Fin NPROC) : Ptable :=
  if (t.slot i).parent = some cur then
    let t' := t.set i { t.slot i with parent := some t.initproc }
    if (t.slot i).state = .zombie then t'.wakeup1 (some (.proc t.initproc)) else t'
  else t

def exit (t : Ptable) (cur : Fin NPROC) : Ptable :=
  let t := t.wakeup1 ((t.slot cur).parent.map .proc)
  let t := (List.finRange NPROC).foldl (reparent cur) t
  t.set cur { t.slot cur with state := .zombie }

def sleep (t : Ptable) (cur : Fin NPROC) (chan : Chan) : Ptable :=
  t.set cur { t.slot cur with chan := some chan, state := .sleeping }

def reap (t : Ptable) (i : Fin NPROC) : Ptable :=
  t.set i { t.slot i with pid := 0, parent := none, killed := false, state := .unused }

/-- One round of `wait`'s loop: it reaps a child, fails, or sleeps. -/
def wait (t : Ptable) (cur : Fin NPROC) : Ptable × Option (Fin NPROC) :=
  match t.find fun s => s.parent = some cur ∧ s.state = .zombie with
  | some i => (t.reap i, some i)
  | none =>
    if (t.find (·.parent = some cur)).isNone ∨ (t.slot cur).killed then (t, none)
    else (t.sleep cur (.proc cur), none)

def kill (t : Ptable) (pid : Int32) : Ptable × Int32 :=
  match t.find (·.pid = pid) with
  | some i =>
    (t.set i { t.slot i with
      killed := true
      state := if (t.slot i).state = .sleeping then .runnable else (t.slot i).state }, 0)
  | none => (t, -1)

/-- The scheduler picks a process; one that slept resets its channel first. -/
def schedule (t : Ptable) (i : Fin NPROC) : Ptable :=
  t.set i { t.slot i with state := .running, chan := none }

def yield (t : Ptable) (cur : Fin NPROC) : Ptable :=
  t.set cur { t.slot cur with state := .runnable }

def boot : Ptable where
  slot i :=
    if i = ⟨0, by decide⟩ then ⟨.runnable, 1, none, none, false⟩ else
      ⟨.unused, 0, none, none, false⟩
  nextpid := 2
  initproc := ⟨0, by decide⟩

end Ptable

inductive Label
  | fork (cur : Fin NPROC) (memory : Bool)
  | exit (cur : Fin NPROC)
  | wait (cur : Fin NPROC)
  | sleep (cur : Fin NPROC) (chan : Chan)
  | wakeup (chan : Chan)
  | kill (pid : Int32)
  | schedule (i : Fin NPROC)
  | yield (cur : Fin NPROC)

def step (t : Ptable) : Label → Option Ptable
  | .fork cur memory =>
    if (t.slot cur).state = .running then some (t.fork cur memory).1 else none
  | .exit cur =>
    if (t.slot cur).state = .running ∧ cur ≠ t.initproc then some (t.exit cur) else none
  | .wait cur => if (t.slot cur).state = .running then some (t.wait cur).1 else none
  | .sleep cur chan => if (t.slot cur).state = .running then some (t.sleep cur chan) else none
  | .wakeup chan => some (t.wakeup1 (some chan))
  | .kill pid => some (t.kill pid).1
  | .schedule i => if (t.slot i).state = .runnable then some (t.schedule i) else none
  | .yield cur => if (t.slot cur).state = .running then some (t.yield cur) else none

/-! ## Unused slots are clean -/

variable {t t' : Ptable}

def Clean (t : Ptable) : Prop := ∀ i, (t.slot i).state = .unused → (t.slot i).killed = false

def Quiet (t t' : Ptable) : Prop :=
  ∀ i, (t'.slot i).killed = (t.slot i).killed ∧
    ((t'.slot i).state = .unused → (t.slot i).state = .unused)

theorem Quiet.refl (t : Ptable) : Quiet t t := fun _ => ⟨rfl, id⟩

theorem Quiet.trans {t1 t2 t3 : Ptable} (h1 : Quiet t1 t2) (h2 : Quiet t2 t3) : Quiet t1 t3 :=
  fun i => ⟨(h2 i).1.trans (h1 i).1, fun h => (h1 i).2 ((h2 i).2 h)⟩

theorem Clean.quiet (h : Clean t) (hq : Quiet t t') : Clean t' := by
  intro i hi
  rw [(hq i).1]
  exact h i ((hq i).2 hi)

theorem Quiet.set {i : Fin NPROC} {s : Slot} (hk : s.killed = (t.slot i).killed)
    (hs : s.state = .unused → (t.slot i).state = .unused) : Quiet t (t.set i s) := by
  intro j
  by_cases hj : j = i
  · subst hj
    simpa [Ptable.set] using ⟨hk, hs⟩
  · simp [Ptable.set, update_of_ne hj]

theorem Quiet.wakeup1 (t : Ptable) (chan : Option Chan) : Quiet t (t.wakeup1 chan) := by
  intro i
  simp only [Ptable.wakeup1]
  split
  · exact ⟨rfl, fun h => by cases h⟩
  · exact ⟨rfl, id⟩

theorem Quiet.reparent (cur : Fin NPROC) (t : Ptable) (i : Fin NPROC) :
    Quiet t (Ptable.reparent cur t i) := by
  have hset : Quiet t (t.set i { t.slot i with parent := some t.initproc }) := Quiet.set rfl id
  unfold Ptable.reparent
  split
  · dsimp only
    split
    · exact hset.trans (Quiet.wakeup1 _ _)
    · exact hset
  · exact Quiet.refl t

theorem Quiet.foldl_reparent (cur : Fin NPROC) (is : List (Fin NPROC)) (t : Ptable) :
    Quiet t (is.foldl (Ptable.reparent cur) t) := by
  induction is generalizing t with
  | nil => exact Quiet.refl t
  | cons i is ih => exact (Quiet.reparent cur t i).trans (ih _)

theorem Quiet.exit (t : Ptable) (cur : Fin NPROC) : Quiet t (t.exit cur) := by
  unfold Ptable.exit
  generalize List.finRange NPROC = is
  refine (Quiet.wakeup1 t _).trans ((Quiet.foldl_reparent cur is _).trans (Quiet.set rfl ?_))
  intro h
  cases h

theorem Clean.wait (h : Clean t) (cur : Fin NPROC) : Clean (t.wait cur).1 := by
  unfold Ptable.wait
  split
  · next i _ =>
    -- the slot that becomes unused is reset
    intro j hj
    by_cases hji : j = i
    · subst hji
      simp [Ptable.reap, Ptable.set]
    · simp only [Ptable.reap, Ptable.set, update_of_ne hji] at hj ⊢
      exact h j hj
  · split
    · exact h
    · exact h.quiet (Quiet.set rfl fun h => by cases h)

theorem find_eq_some {hit : Slot → Bool} {i : Fin NPROC} (h : t.find hit = some i) :
    hit (t.slot i) = true := by
  simpa using List.find?_some h

theorem allocSlot_spec {np : Fin NPROC} (h : t.allocSlot = some (np, t')) :
    (t.slot np).state = .unused ∧ Quiet t t' ∧ (t'.slot np).killed = (t.slot np).killed := by
  obtain ⟨i, hi, heq⟩ := Option.map_eq_some_iff.mp h
  obtain ⟨rfl, rfl⟩ := Prod.mk.inj heq
  have hunused : (t.slot i).state = .unused := of_decide_eq_true (find_eq_some hi)
  have hq : Quiet t (t.set i { t.slot i with state := .embryo, pid := t.nextpid }) :=
    Quiet.set rfl fun h => by cases h
  exact ⟨hunused, hq, (hq i).1⟩

theorem Clean.fork (h : Clean t) (cur : Fin NPROC) (memory : Bool) :
    Clean (t.fork cur memory).1 := by
  unfold Ptable.fork
  split
  · exact h
  · next np t' halloc =>
    obtain ⟨hunused, hq, hk⟩ := allocSlot_spec halloc
    have hclean : Clean t' := h.quiet hq
    split
    · exact hclean.quiet (Quiet.set rfl fun h => by cases h)
    · -- a failed fork hands the slot back with the `killed` it was taken with
      intro i hi
      by_cases hinp : i = np
      · subst hinp
        simpa [Ptable.dropSlot, Ptable.set, hk] using h i hunused
      · simp only [Ptable.dropSlot, Ptable.set, update_of_ne hinp] at hi ⊢
        exact hclean i hi

theorem fork_child {cur np : Fin NPROC} {memory : Bool} (hs : t.fork cur memory = (t', some np)) :
    (t.slot np).state = .unused ∧ (t'.slot np).state = .runnable ∧
      (t'.slot np).killed = (t.slot np).killed := by
  unfold Ptable.fork at hs
  split at hs
  · cases hs
  · next np' t1 halloc =>
    split at hs
    · obtain ⟨rfl, hnp⟩ := Prod.mk.inj hs
      cases hnp
      obtain ⟨hunused, -, hk⟩ := allocSlot_spec halloc
      simpa [Ptable.startChild, Ptable.set, hk] using hunused
    · cases hs

/-! ## `kill` -/

def Aimed (t : Ptable) : Label → Prop
  | .kill pid => ∀ i, t.find (·.pid = pid) = some i → (t.slot i).state ≠ .unused
  | _ => True

instance : ∀ (t : Ptable) (l : Label), Decidable (Aimed t l)
  | t, .kill pid => inferInstanceAs (Decidable (∀ i, t.find (·.pid = pid) = some i → _))
  | _, .fork _ _ => isTrue trivial
  | _, .exit _ => isTrue trivial
  | _, .wait _ => isTrue trivial
  | _, .sleep _ _ => isTrue trivial
  | _, .wakeup _ => isTrue trivial
  | _, .schedule _ => isTrue trivial
  | _, .yield _ => isTrue trivial

/-- `kill(pid)` returns 0 only if a process in use has that pid, and changes no other slot;
otherwise the table stays as it is. -/
def KillsNamed (t : Ptable) (pid : Int32) : Prop :=
  if (t.kill pid).2 = 0 then ∃ i, (t.slot i).state ≠ .unused ∧ (t.slot i).pid = pid ∧
    ∀ j, j ≠ i → (t.kill pid).1.slot j = t.slot j
  else (t.kill pid).1 = t

theorem kill_of_find {pid : Int32} {i : Fin NPROC} (h : t.find (·.pid = pid) = some i) :
    t.kill pid = (t.set i { t.slot i with
      killed := true
      state := if (t.slot i).state = .sleeping then .runnable else (t.slot i).state }, 0) := by
  simp only [Ptable.kill, h]

theorem Clean.kill (h : Clean t) {pid : Int32} (ha : Aimed t (.kill pid)) :
    Clean (t.kill pid).1 := by
  cases hf : t.find (·.pid = pid) with
  | none => simpa only [Ptable.kill, hf] using h
  | some i =>
    rw [kill_of_find hf]
    intro j hj
    by_cases hji : j = i
    · subst hji
      refine absurd ?_ (ha j hf)
      simp only [Ptable.set, update_self] at hj
      split at hj
      · cases hj
      · exact hj
    · simp only [Ptable.set, update_of_ne hji] at hj ⊢
      exact h j hj

theorem killsNamed_iff (h : Clean t) (pid : Int32) : KillsNamed t pid ↔ Aimed t (.kill pid) := by
  unfold KillsNamed
  cases hf : t.find (·.pid = pid) with
  | none =>
    have hkill : t.kill pid = (t, -1) := by simp only [Ptable.kill, hf]
    rw [hkill, if_neg (show (-1 : Int32) ≠ 0 by decide)]
    exact ⟨fun _ i hi => (by rw [hf] at hi; cases hi), fun _ => rfl⟩
  | some i =>
    have hpid : (t.slot i).pid = pid := of_decide_eq_true (find_eq_some hf)
    rw [if_pos (by rw [kill_of_find hf])]
    constructor
    · rintro ⟨l, hlive, -, hsame⟩ j hj hunused
      obtain rfl : i = j := Option.some.inj (hf.symm.trans hj)
      have hil : i ≠ l := by
        rintro rfl
        exact hlive hunused
      -- the unused slot was not marked before, and is now
      have hmark : (t.slot i).killed = true := by
        rw [← hsame i hil, kill_of_find hf]
        simp [Ptable.set]
      rw [h i hunused] at hmark
      cases hmark
    · intro ha
      refine ⟨i, ha i hf, hpid, fun j hj => ?_⟩
      rw [kill_of_find hf]
      exact update_of_ne hj _ _

theorem Clean.step {l : Label} (h : Clean t) (ha : Aimed t l) (hs : step t l = some t') :
    Clean t' := by
  cases l with
  | fork cur memory =>
    obtain ⟨-, rfl⟩ := Lts.of_guard hs
    exact h.fork cur memory
  | exit cur =>
    obtain ⟨-, rfl⟩ := Lts.of_guard hs
    exact h.quiet (Quiet.exit t cur)
  | wait cur =>
    obtain ⟨-, rfl⟩ := Lts.of_guard hs
    exact h.wait cur
  | sleep cur chan =>
    obtain ⟨-, rfl⟩ := Lts.of_guard hs
    exact h.quiet (Quiet.set rfl fun h => by cases h)
  | wakeup chan => exact Option.some.inj hs ▸ h.quiet (Quiet.wakeup1 t _)
  | kill pid => exact Option.some.inj hs ▸ h.kill ha
  | schedule i =>
    obtain ⟨-, rfl⟩ := Lts.of_guard hs
    exact h.quiet (Quiet.set rfl fun h => by cases h)
  | yield cur =>
    obtain ⟨-, rfl⟩ := Lts.of_guard hs
    exact h.quiet (Quiet.set rfl fun h => by cases h)

theorem Clean.boot : Clean Ptable.boot := by
  intro i _
  unfold Ptable.boot
  dsimp only
  split <;> rfl

/-- **kill affects only the named live process.** In a run in which no `kill` has found an unused
slot, a `kill` affects only a live process with that pid exactly if it does not find an unused slot
either, and every process that `fork` makes starts without `killed`. -/
theorem kill_affects_named (hr : Lts.Reach step Aimed .boot t) :
    (∀ pid, KillsNamed t pid ↔ Aimed t (.kill pid)) ∧
    ∀ cur memory np t', t.fork cur memory = (t', some np) → (t'.slot np).killed = false := by
  have hclean : Clean t := hr.invariant Clean.boot fun _ _ _ hI ha hs => hI.step ha hs
  refine ⟨killsNamed_iff hclean, fun cur memory np t' hs => ?_⟩
  obtain ⟨hunused, -, hk⟩ := fork_child hs
  rw [hk]
  exact hclean np hunused

def killChild : List Label :=
  [.schedule ⟨0, by decide⟩, .fork ⟨0, by decide⟩ true, .kill 2]

theorem kill_affects_named_child : ∃ t, Lts.run step .boot killChild = some t ∧
    (t.slot ⟨1, by decide⟩).killed = true ∧ ∀ pid, KillsNamed t pid ↔ Aimed t (.kill pid) := by
  have hok : Lts.RunOk step Aimed .boot killChild := by decide +kernel
  obtain ⟨t, hs, hr, hq⟩ := Lts.exists_reach step .boot killChild
    (fun t => (t.slot ⟨1, by decide⟩).killed) (by decide +kernel) hok
  exact ⟨t, hs, hq, (kill_affects_named hr).1⟩

/-- In the first state `kill(0)` finds an unused slot: it returns 0 although no process in use has
that pid, and the next child starts killed. -/
theorem kill_zero_marks_unused :
    (Ptable.boot.kill 0).2 = 0 ∧
    (∀ i, (Ptable.boot.slot i).state ≠ .unused → (Ptable.boot.slot i).pid ≠ 0) ∧
    ∃ t, Lts.Reach step (fun _ _ => True) .boot t ∧ ∃ t' np,
      t.fork ⟨0, by decide⟩ true = (t', some np) ∧ (t'.slot np).killed = true := by
  refine ⟨by decide +kernel, by decide +kernel, ?_⟩
  obtain ⟨t, -, hr, hq⟩ := Lts.exists_reach step .boot [.schedule ⟨0, by decide⟩, .kill 0]
    (fun t => (t.fork ⟨0, by decide⟩ true).2.any fun np =>
      ((t.fork ⟨0, by decide⟩ true).1.slot np).killed)
    (by decide +kernel) (Lts.RunOk.trivial _ _)
  obtain ⟨np, hnp, hk⟩ := (Option.any_eq_true _ _).mp hq
  exact ⟨t, hr, _, np, Prod.ext rfl hnp, hk⟩

end Xv6.Procs
