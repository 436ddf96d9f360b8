import Xv6.Ptable

/-!
# The process tree

`fork`, `exit` and `wait` in the steps in which they really work on the table: the sections under
`ptable.lock`, and between them what a process does to a slot of its own without the lock. Any of
the steps of other processes, of the scheduler and of `kill` can come in between.

1. The system: the table of `Ptable`, the open files and the current directory of each process, and
   where each process is in `fork`, `exit` or `wait`.
2. What the steps do to the part of the table that the tree depends on (`cls`, `parent`, `pid`).
3. The tree: every process but init has a live parent. Pids are positive and different. Nobody
   sleeps in `wait` with a child that has exited. A pid is returned by `wait` once.
-/

namespace Xv6.ProcTree

open Procs Function

/-! ## The system -/

inductive Pc
  /-- in user mode, or in code that does not concern the table -/
  | idle
  /-- in `fork`, with the new slot `np`, before the memory is copied -/
  | forking (np : Fin NPROC)
  /-- in `fork`, after `np->parent = curproc` -/
  | copying (np : Fin NPROC)
  /-- in `exit`, about to close descriptor `fd` -/
  | exiting (fd : ℕ)
  /-- in `exit`, after `curproc->cwd = 0` -/
  | exited
  /-- in the loop of `wait` -/
  | waiting
  deriving DecidableEq

structure Files where
  ofile : ℕ → Option ℕ
  cwd : Option ℕ

def Files.Closed (f : Files) : Prop := (∀ fd < NOFILE, f.ofile fd = none) ∧ f.cwd = none

def Files.dup (f g : Files) : Files := ⟨fun fd => (f.ofile fd).or (g.ofile fd), f.cwd⟩

/-- The state. The last two fields are a record: the number of slots that `allocproc` has handed
out, and the pids that `wait` has returned. -/
structure Sys where
  t : Ptable
  files : Fin NPROC → Files
  pc : Fin NPROC → Pc
  created : ℕ
  reaped : List Int32

inductive Label
  /-- `allocproc` takes a slot for the child of `cur`. -/
  | forkAlloc (cur : Fin NPROC)
  /-- There is no memory for the child. -/
  | forkFail (cur : Fin NPROC)
  /-- `np->parent = curproc`. -/
  | forkCopy (cur : Fin NPROC)
  /-- The child gets the open files and the current directory. -/
  | forkFiles (cur : Fin NPROC)
  /-- The last section of `fork`. -/
  | forkRun (cur : Fin NPROC)
  | exitStart (cur : Fin NPROC)
  /-- `fileclose` and `curproc->ofile[fd] = 0`. -/
  | exitClose (cur : Fin NPROC)
  /-- `curproc->cwd = 0`. -/
  | exitCwd (cur : Fin NPROC)
  /-- The section of `exit` under the lock. -/
  | exit (cur : Fin NPROC)
  /-- One round of the loop in `wait`. -/
  | wait (cur : Fin NPROC)
  | sleep (cur : Fin NPROC) (a : ℕ)
  | wakeup (a : ℕ)
  | kill (pid : Int32)
  | schedule (i : Fin NPROC)
  | yield (cur : Fin NPROC)
  /-- Other calls change the open files and the current directory of their caller. -/
  | use (cur : Fin NPROC) (f : Files)

def At (s : Sys) (cur : Fin NPROC) (pc : Pc) : Prop :=
  (s.t.slot cur).state = .running ∧ s.pc cur = pc

instance (s : Sys) (cur : Fin NPROC) (pc : Pc) : Decidable (At s cur pc) :=
  inferInstanceAs (Decidable (_ ∧ _))

def Sys.goto (s : Sys) (cur : Fin NPROC) (pc : Pc) : Sys := { s with pc := update s.pc cur pc }

def Sys.setFiles (s : Sys) (i : Fin NPROC) (f : Files) : Sys :=
  { s with files := update s.files i f }

def Pc.child : Pc → Option (Fin NPROC)
  | .forking np => some np
  | .copying np => some np
  | _ => none

def Pc.Leaves : Pc → Prop
  | .exiting _ => True
  | .exited => True
  | _ => False

def forkAlloc (s : Sys) (cur : Fin NPROC) : Sys :=
  match s.t.allocSlot with
  | none => s
  | some (np, t) =>
    { s with
      t := t
      -- The new process is not in the middle of a call.
      pc := update (update s.pc np .idle) cur (.forking np)
      created := s.created + 1 }

def wait (s : Sys) (cur : Fin NPROC) : Sys :=
  match s.t.wait cur with
  | (t, some i) => { (s.goto cur .idle) with t := t, reaped := (s.t.slot i).pid :: s.reaped }
  | (t, none) =>
    { (s.goto cur (if (t.slot cur).state = .sleeping then .waiting else .idle)) with t := t }

def step (s : Sys) : Label → Option Sys
  | .forkAlloc cur => if At s cur .idle then some (forkAlloc s cur) else none
  | .forkFail cur =>
    match s.pc cur with
    | .forking np =>
      if (s.t.slot cur).state = .running then
        some { (s.goto cur .idle) with t := s.t.dropSlot np }
      else none
    | _ => none
  | .forkCopy cur =>
    match s.pc cur with
    | .forking np =>
      if (s.t.slot cur).state = .running then
        some { (s.goto cur (.copying np)) with
          t := s.t.set np { s.t.slot np with parent := some cur } }
      else none
    | _ => none
  | .forkFiles cur =>
    match s.pc cur with
    | .copying np =>
      if (s.t.slot cur).state = .running then
        some (s.setFiles np ((s.files cur).dup (s.files np)))
      else none
    | _ => none
  | .forkRun cur =>
    match s.pc cur with
    | .copying np =>
      if (s.t.slot cur).state = .running then
        some { (s.goto cur .idle) with
          t := s.t.set np { s.t.slot np with state := .runnable } }
      else none
    | _ => none
  | .exitStart cur =>
    if At s cur .idle ∧ cur ≠ s.t.initproc then some (s.goto cur (.exiting 0)) else none
  | .exitClose cur =>
    match s.pc cur with
    | .exiting fd =>
      if (s.t.slot cur).state = .running ∧ fd < NOFILE then
        some ((s.setFiles cur
          ⟨update (s.files cur).ofile fd none, (s.files cur).cwd⟩).goto cur (.exiting (fd + 1)))
      else none
    | _ => none
  | .exitCwd cur =>
    if At s cur (.exiting NOFILE) then
      some ((s.setFiles cur ⟨(s.files cur).ofile, none⟩).goto cur .exited)
    else none
  | .exit cur => if At s cur .exited then some { s with t := s.t.exit cur } else none
  | .wait cur => if At s cur .idle ∨ At s cur .waiting then some (wait s cur) else none
  | .sleep cur a =>
    if (s.t.slot cur).state = .running ∧ s.pc cur ≠ .waiting then
      some { s with t := s.t.sleep cur (.addr a) }
    else none
  | .wakeup a => some { s with t := s.t.wakeup1 (some (.addr a)) }
  | .kill pid => some { s with t := (s.t.kill pid).1 }
  | .schedule i =>
    if (s.t.slot i).state = .runnable then some { s with t := s.t.schedule i } else none
  | .yield cur =>
    if (s.t.slot cur).state = .running then some { s with t := s.t.yield cur } else none
  | .use cur f => if At s cur .idle then some (s.setFiles cur f) else none

def Few (s : Sys) : Label → Prop
  | .forkAlloc _ => s.created + 1 < 2 ^ 31 - 1
  | _ => True

def start : Sys where
  t := Ptable.boot
  files i := ⟨fun _ => none, if i = Ptable.boot.initproc then some 0 else none⟩
  pc _ := .idle
  created := 1
  reaped := []

/-! ## The table, as far as the tree depends on it -/

/-- The states of a process that has a place in the tree are not told apart. -/
inductive Cls
  | unused
  | embryo
  | live
  | zombie
  deriving DecidableEq

def cls : ProcState → Cls
  | .unused => .unused
  | .embryo => .embryo
  | .sleeping => .live
  | .runnable => .live
  | .running => .live
  | .zombie => .zombie

section Table

variable {t t' : Ptable} {i cur : Fin NPROC}

def clsOf (t : Ptable) (i : Fin NPROC) : Cls := cls (t.slot i).state

structure Same (t t' : Ptable) : Prop where
  kind : clsOf t' = clsOf t
  parent : ∀ i, (t'.slot i).parent = (t.slot i).parent
  pid : ∀ i, (t'.slot i).pid = (t.slot i).pid
  nextpid : t'.nextpid = t.nextpid
  initproc : t'.initproc = t.initproc

def Wakes (t t' : Ptable) : Prop :=
  ∀ i, (t'.slot i).state = .sleeping →
    (t.slot i).state = .sleeping ∧ (t'.slot i).chan = (t.slot i).chan

theorem set_slot (s : Slot) : (t.set i s).slot = update t.slot i s := rfl

theorem clsOf_set (s : Slot) : clsOf (t.set i s) = update (clsOf t) i (cls s.state) := by
  ext j
  by_cases hj : j = i
  · subst hj; simp [clsOf, set_slot]
  · simp [clsOf, set_slot, hj]

theorem Same.set {s : Slot} (hc : cls s.state = clsOf t i) (hp : s.parent = (t.slot i).parent)
    (hpid : s.pid = (t.slot i).pid) : Same t (t.set i s) :=
  ⟨by rw [clsOf_set, hc, update_eq_self], Lts.update_field Slot.parent hp,
    Lts.update_field Slot.pid hpid, rfl, rfl⟩

theorem Same.wakeup1 (t : Ptable) (chan : Option Chan) : Same t (t.wakeup1 chan) := by
  refine ⟨?_, fun j => ?_, fun j => ?_, rfl, rfl⟩
  · ext j
    simp only [clsOf, Ptable.wakeup1]
    split
    next h => rw [h.1]; rfl
    next => rfl
  · simp only [Ptable.wakeup1]
    split <;> rfl
  · simp only [Ptable.wakeup1]
    split <;> rfl

theorem wakes_wakeup1 (t : Ptable) (chan : Option Chan) :
    ∀ i, ((t.wakeup1 chan).slot i).state = .sleeping →
      ((t.wakeup1 chan).slot i).chan = (t.slot i).chan ∧ (t.slot i).state = .sleeping ∧
        (t.slot i).chan ≠ chan := by
  intro i h
  simp only [Ptable.wakeup1] at h ⊢
  split at h
  next => cases h
  next hn =>
    rw [if_neg hn]
    exact ⟨rfl, h, fun hc => hn ⟨h, hc⟩⟩

theorem zombie_iff : (t.slot i).state = .zombie ↔ clsOf t i = .zombie := by
  unfold clsOf
  cases (t.slot i).state <;> simp [cls]

theorem unused_iff : (t.slot i).state = .unused ↔ clsOf t i = .unused := by
  unfold clsOf
  cases (t.slot i).state <;> simp [cls]

theorem clsOf_of_running (h : (t.slot i).state = .running) : clsOf t i = .live := by
  rw [clsOf, h]; rfl

/-! ### The loop in `exit` -/

/-- What the section of `exit` does before it makes the process a zombie, when the loop has been
through `is`: the children are init's, and init does not sleep in `wait` if one of them is a
zombie. -/
structure Reparented (cur : Fin NPROC) (is : List (Fin NPROC)) (t t' : Ptable) : Prop where
  kind : clsOf t' = clsOf t
  parent : ∀ i, (t'.slot i).parent =
    if i ∈ is ∧ (t.slot i).parent = some cur then some t.initproc else (t.slot i).parent
  pid : ∀ i, (t'.slot i).pid = (t.slot i).pid
  nextpid : t'.nextpid = t.nextpid
  initproc : t'.initproc = t.initproc
  wakes : Wakes t t'
  init : ∀ i, (t'.slot i).state = .sleeping → (t.slot i).chan = some (.proc t.initproc) →
    ∀ j ∈ is, (t.slot j).parent = some cur → (t.slot j).state ≠ .zombie

theorem reparent_spec (cur : Fin NPROC) (t : Ptable) (a : Fin NPROC) :
    Reparented cur [a] t (Ptable.reparent cur t a) := by
  by_cases hp : (t.slot a).parent = some cur
  case neg =>
    rw [Ptable.reparent, if_neg hp]
    refine ⟨rfl, fun i => ?_, fun _ => rfl, rfl, rfl, fun i h => ⟨h, rfl⟩, ?_⟩
    · rw [if_neg]
      rintro ⟨hi, h⟩
      exact hp (List.mem_singleton.mp hi ▸ h)
    · intro i _ _ j hj h
      exact absurd (List.mem_singleton.mp hj ▸ h) hp
  case pos =>
    set t1 := t.set a { t.slot a with parent := some t.initproc } with ht1
    have hkind : clsOf t1 = clsOf t := by
      rw [ht1, clsOf_set]
      exact update_eq_self a (clsOf t)
    have hparent : ∀ i, (t1.slot i).parent =
        if i ∈ [a] ∧ (t.slot i).parent = some cur then some t.initproc else (t.slot i).parent := by
      intro i
      by_cases hi : i = a
      · subst hi; simp [ht1, set_slot, hp]
      · simp [ht1, set_slot, hi]
    have hrest : ∀ i, (t1.slot i).pid = (t.slot i).pid ∧ (t1.slot i).state = (t.slot i).state ∧
        (t1.slot i).chan = (t.slot i).chan := fun i => by
      rw [ht1]
      exact ⟨Lts.update_field Slot.pid (by rfl) i, Lts.update_field Slot.state (by rfl) i,
        Lts.update_field Slot.chan (by rfl) i⟩
    rw [Ptable.reparent, if_pos hp, ← ht1]
    by_cases hz : (t.slot a).state = .zombie
    · -- init is woken for the zombie
      rw [if_pos hz]
      have hs := Same.wakeup1 t1 (some (.proc t.initproc))
      have hw := wakes_wakeup1 t1 (some (.proc t.initproc))
      refine ⟨hs.kind.trans hkind, fun i => (hs.parent i).trans (hparent i),
        fun i => (hs.pid i).trans (hrest i).1, rfl, rfl, fun i h => ?_, ?_⟩
      · obtain ⟨hc, hst, -⟩ := hw i h
        exact ⟨(hrest i).2.1 ▸ hst, hc.trans (hrest i).2.2⟩
      · intro i h hc
        obtain ⟨-, -, hne⟩ := hw i h
        exact absurd ((hrest i).2.2.trans hc) hne
    · rw [if_neg hz]
      refine ⟨hkind, hparent, fun i => (hrest i).1, rfl, rfl, fun i h => ?_, ?_⟩
      · exact ⟨(hrest i).2.1 ▸ h, (hrest i).2.2⟩
      · intro i _ _ j hj _
        exact List.mem_singleton.mp hj ▸ hz

theorem foldl_reparent {cur : Fin NPROC} (is : List (Fin NPROC)) (t : Ptable)
    (hne : cur ≠ t.initproc) : Reparented cur is t (is.foldl (Ptable.reparent cur) t) := by
  induction is generalizing t with
  | nil =>
    refine ⟨rfl, fun i => ?_, fun _ => rfl, rfl, rfl, fun i h => ⟨h, rfl⟩, ?_⟩
    · simp
    · intro i _ _ j hj
      cases hj
  | cons a is ih =>
    have h1 := reparent_spec cur t a
    have h2 := ih (Ptable.reparent cur t a) (by rw [h1.initproc]; exact hne)
    rw [List.foldl_cons]
    have hz : ∀ j, ((Ptable.reparent cur t a).slot j).state = .zombie ↔
        (t.slot j).state = .zombie := fun j => by rw [zombie_iff, zombie_iff, h1.kind]
    refine ⟨h2.kind.trans h1.kind, fun i => ?_, fun i => (h2.pid i).trans (h1.pid i),
      h2.nextpid.trans h1.nextpid, h2.initproc.trans h1.initproc, fun i h => ?_, ?_⟩
    · rw [h2.parent, h1.parent, h1.initproc]
      by_cases hp : (t.slot i).parent = some cur
      · by_cases hi : i = a
        · subst hi; simp [hp, Ne.symm hne]
        · simp [hi, hp]
      · simp [hp]
    · obtain ⟨hs2, hc2⟩ := h2.wakes i h
      obtain ⟨hs1, hc1⟩ := h1.wakes i hs2
      exact ⟨hs1, hc2.trans hc1⟩
    · intro i h hc j hj hp
      obtain ⟨hs2, -⟩ := h2.wakes i h
      by_cases hja : j = a
      · exact h1.init i hs2 hc j (by simp [hja]) hp
      · -- the parent is still `cur` when the loop comes to `j`
        have hc1 := (h1.wakes i hs2).2
        have := h2.init i h (by rw [hc1, h1.initproc]; exact hc) j
          ((List.mem_cons.mp hj).resolve_left hja)
          (by rw [h1.parent, if_neg (by simp [hja])]; exact hp)
        rwa [ne_eq, hz] at this

structure Exits (cur : Fin NPROC) (t t' : Ptable) : Prop where
  kind : clsOf t' = update (clsOf t) cur .zombie
  parent : ∀ i, (t'.slot i).parent =
    if (t.slot i).parent = some cur then some t.initproc else (t.slot i).parent
  pid : ∀ i, (t'.slot i).pid = (t.slot i).pid
  nextpid : t'.nextpid = t.nextpid
  initproc : t'.initproc = t.initproc
  wakes : Wakes t t'
  /-- The parent has been woken. -/
  up : ∀ i, (t'.slot i).state = .sleeping → (t.slot i).chan ≠ (t.slot cur).parent.map .proc
  /-- So has init, if there is a zombie among the children. -/
  init : ∀ i, (t'.slot i).state = .sleeping → (t.slot i).chan = some (.proc t.initproc) →
    ∀ j, (t.slot j).parent = some cur → (t.slot j).state ≠ .zombie

theorem exit_spec (hne : cur ≠ t.initproc) : Exits cur t (t.exit cur) := by
  have h1 : Same t (t.wakeup1 ((t.slot cur).parent.map .proc)) := Same.wakeup1 t _
  have hw := wakes_wakeup1 t ((t.slot cur).parent.map .proc)
  have h2 := foldl_reparent (List.finRange NPROC) (t.wakeup1 ((t.slot cur).parent.map .proc))
    (h1.initproc.symm ▸ hne)
  have heq : t.exit cur = _ := Ptable.exit.eq_1 t cur
  have hall : ∀ j, j ∈ List.finRange NPROC := List.mem_finRange
  generalize List.finRange NPROC = is at h2 heq hall
  generalize t.wakeup1 ((t.slot cur).parent.map .proc) = t1 at *
  generalize is.foldl (Ptable.reparent cur) t1 = t2 at *
  -- `cur` itself does not sleep any more; the other slots are as `t2` has them
  have hsleep : ∀ i, ((t.exit cur).slot i).state = .sleeping →
      (t2.slot i).state = .sleeping ∧ ((t.exit cur).slot i).chan = (t2.slot i).chan := by
    intro i h
    rw [heq] at h ⊢
    by_cases hi : i = cur
    · subst hi; simp [set_slot] at h
    · simp only [set_slot, update_of_ne hi] at h ⊢
      exact ⟨h, trivial⟩
  have hother : ∀ i, ((t.exit cur).slot i).parent = (t2.slot i).parent ∧
      ((t.exit cur).slot i).pid = (t2.slot i).pid := by
    intro i
    rw [heq]
    exact ⟨Lts.update_field Slot.parent (by rfl) i, Lts.update_field Slot.pid (by rfl) i⟩
  refine ⟨?_, fun i => ?_, fun i => ?_, ?_, ?_, fun i h => ?_, fun i h => ?_,
    fun i h hc j hp => ?_⟩
  · rw [heq, clsOf_set, h2.kind, h1.kind]; rfl
  · rw [(hother i).1, h2.parent, h1.parent, h1.initproc]
    simp only [hall i, true_and]
  · rw [(hother i).2, h2.pid, h1.pid]
  · rw [heq]; exact h2.nextpid.trans h1.nextpid
  · rw [heq]; exact h2.initproc.trans h1.initproc
  · obtain ⟨hs, hc⟩ := hsleep i h
    obtain ⟨hs1, hc1⟩ := h2.wakes i hs
    obtain ⟨hc0, hs0, -⟩ := hw i hs1
    exact ⟨hs0, hc.trans (hc1.trans hc0)⟩
  · exact (hw i (h2.wakes i (hsleep i h).1).1).2.2
  · have hs2 := (hsleep i h).1
    have hc1 := (hw i (h2.wakes i hs2).1).1
    have := h2.init i hs2 (by rw [hc1, h1.initproc]; exact hc) j (hall j)
      (by rw [h1.parent]; exact hp)
    rwa [ne_eq, zombie_iff, h1.kind, ← zombie_iff] at this

structure Allocs (np : Fin NPROC) (t t' : Ptable) : Prop where
  free : clsOf t np = .unused
  kind : clsOf t' = update (clsOf t) np .embryo
  parent : ∀ i, (t'.slot i).parent = (t.slot i).parent
  pid : ∀ i, (t'.slot i).pid = if i = np then t.nextpid else (t.slot i).pid
  nextpid : t'.nextpid = t.nextpid + 1
  initproc : t'.initproc = t.initproc
  wakes : Wakes t t'

theorem alloc_spec {np : Fin NPROC} (h : t.allocSlot = some (np, t')) : Allocs np t t' := by
  obtain ⟨i, hi, heq⟩ := Option.map_eq_some_iff.mp h
  obtain ⟨rfl, rfl⟩ := Prod.mk.inj heq
  have hunused : (t.slot i).state = .unused := of_decide_eq_true (find_eq_some hi)
  refine ⟨unused_iff.mp hunused, clsOf_set _, Lts.update_field Slot.parent (by rfl), fun j => ?_,
    rfl, rfl, fun j hj => ?_⟩
  · by_cases hji : j = i
    · subst hji; simp [set_slot]
    · simp [set_slot, hji]
  · by_cases hji : j = i
    · subst hji; simp [set_slot] at hj
    · simp only [set_slot, update_of_ne hji] at hj ⊢
      exact ⟨hj, trivial⟩

end Table

/-! ## The tree -/

section Tree

variable {t t' : Ptable} {pc : Fin NPROC → Pc} {cur np : Fin NPROC}

/-- Processes and their parents. A slot that is not yet a process belongs to the one that makes it.
-/
structure Tree (t : Ptable) (pc : Fin NPROC → Pc) : Prop where
  init : clsOf t t.initproc = .live
  orphan : (t.slot t.initproc).parent = none
  irrefl : ∀ i, (t.slot i).parent ≠ some i
  parent : ∀ i, i ≠ t.initproc → clsOf t i = .live ∨ clsOf t i = .zombie →
    ∃ q, (t.slot i).parent = some q ∧ clsOf t q = .live
  child : ∀ c np, (pc c).child = some np →
    clsOf t c = .live ∧ clsOf t np = .embryo ∧ pc np = .idle
  child_inj : ∀ c c' np, (pc c).child = some np → (pc c').child = some np → c = c'
  maker : ∀ c np, pc c = .copying np → (t.slot np).parent = some c
  leaves : ∀ c, (pc c).Leaves → c ≠ t.initproc

theorem Tree.same (h : Tree t pc) (hs : Same t t') : Tree t' pc := by
  refine ⟨?_, ?_, fun i => ?_, ?_, ?_, h.child_inj, fun c np hc => ?_, ?_⟩
  · rw [hs.kind, hs.initproc]; exact h.init
  · rw [hs.parent, hs.initproc]; exact h.orphan
  · rw [hs.parent]; exact h.irrefl i
  · intro i
    rw [hs.initproc, hs.kind, hs.parent]
    exact h.parent i
  · rw [hs.kind]; exact h.child
  · rw [hs.parent]; exact h.maker c np hc
  · rw [hs.initproc]; exact h.leaves

theorem Tree.goto (h : Tree t pc) {p : Pc} (hp : p.Leaves → cur ≠ t.initproc)
    (hcur : ∀ c, (pc c).child = some cur → p = .idle)
    (hchild : ∀ np, p.child = some np → clsOf t cur = .live ∧ clsOf t np = .embryo ∧
      pc np = .idle ∧ (∀ c, (pc c).child = some np → c = cur) ∧
      (p = .copying np → (t.slot np).parent = some cur)) : Tree t (update pc cur p) := by
  refine ⟨h.init, h.orphan, h.irrefl, h.parent, fun c np => ?_, fun c c' np => ?_, fun c np => ?_,
    fun c => ?_⟩
  · have hidle : pc np = .idle → (∃ c, (pc c).child = some np) ∨ np ≠ cur →
        update pc cur p np = .idle := by
      rintro hi (⟨c, hc⟩ | hne)
      · obtain rfl | hne := eq_or_ne np cur
        · rw [update_self, hcur c hc]
        · rw [update_of_ne hne, hi]
      · rw [update_of_ne hne, hi]
    obtain rfl | hcc := eq_or_ne c cur
    · rw [update_self]
      intro hc
      obtain ⟨hl, he, hi, -⟩ := hchild np hc
      exact ⟨hl, he, hidle hi (.inr fun heq => by simp [heq, hl] at he)⟩
    · rw [update_of_ne hcc]
      intro hc
      obtain ⟨hl, he, hi⟩ := h.child c np hc
      exact ⟨hl, he, hidle hi (.inl ⟨c, hc⟩)⟩
  · obtain rfl | hc := eq_or_ne c cur
    · obtain rfl | hc' := eq_or_ne c' c
      · exact fun _ _ => rfl
      · rw [update_self, update_of_ne hc']
        exact fun hp hc' => ((hchild np hp).2.2.2.1 c' hc').symm
    · rw [update_of_ne hc]
      obtain rfl | hc' := eq_or_ne c' cur
      · rw [update_self]
        exact fun hc hp => (hchild np hp).2.2.2.1 c hc
      · rw [update_of_ne hc']
        exact h.child_inj c c' np
  · obtain rfl | hcc := eq_or_ne c cur
    · rw [update_self]
      intro hc
      exact (hchild np (by rw [hc]; rfl)).2.2.2.2 hc
    · rw [update_of_ne hcc]
      exact h.maker c np
  · obtain rfl | hcc := eq_or_ne c cur
    · rw [update_self]
      exact hp
    · rw [update_of_ne hcc]
      exact h.leaves c

theorem Tree.slot (np : Fin NPROC) (h : Tree t pc) (hold : clsOf t np ≠ .live)
    (hinit : t'.initproc = t.initproc)
    (hother : ∀ i, i ≠ np → clsOf t' i = clsOf t i ∧ (t'.slot i).parent = (t.slot i).parent)
    (hirr : (t'.slot np).parent ≠ some np)
    (hparent : clsOf t' np = .live ∨ clsOf t' np = .zombie →
      ∃ q, (t'.slot np).parent = some q ∧ clsOf t q = .live)
    (hchild : ∀ c, (pc c).child = some np →
      clsOf t' np = .embryo ∧ (pc c = .copying np → (t'.slot np).parent = some c)) :
    Tree t' pc := by
  have hne : ∀ i, clsOf t i = .live → i ≠ np := by
    rintro i hi rfl
    exact hold hi
  have hlive : ∀ i, clsOf t i = .live → clsOf t' i = .live := fun i hi =>
    (hother i (hne i hi)).1.trans hi
  refine ⟨?_, ?_, fun i => ?_, fun i hi hk => ?_, fun c m hc => ?_, h.child_inj, fun c m hc => ?_,
    ?_⟩
  · rw [hinit]
    exact hlive _ h.init
  · rw [hinit, (hother _ (hne _ h.init)).2]
    exact h.orphan
  · obtain rfl | hin := eq_or_ne i np
    · exact hirr
    · rw [(hother i hin).2]
      exact h.irrefl i
  · obtain ⟨q, hq, hql⟩ : ∃ q, (t'.slot i).parent = some q ∧ clsOf t q = .live := by
      obtain rfl | hin := eq_or_ne i np
      · exact hparent hk
      · rw [(hother i hin).1] at hk
        rw [(hother i hin).2]
        exact h.parent i (hinit ▸ hi) hk
    exact ⟨q, hq, hlive q hql⟩
  · obtain ⟨hl, he, hi⟩ := h.child c m hc
    refine ⟨hlive c hl, ?_, hi⟩
    obtain rfl | hmn := eq_or_ne m np
    · exact (hchild c hc).1
    · rw [(hother m hmn).1, he]
  · obtain rfl | hmn := eq_or_ne m np
    · exact (hchild c (by rw [hc]; rfl)).2 hc
    · rw [(hother m hmn).2]
      exact h.maker c m hc
  · rw [hinit]
    exact h.leaves

theorem Tree.no_maker (np : Fin NPROC) (h : Tree t pc) (hnp : clsOf t np ≠ .embryo)
    (c : Fin NPROC) :
    (pc c).child ≠ some np := fun hc => hnp (h.child c np hc).2.1

theorem Tree.step (h : Tree t pc) (hcur : clsOf t cur = .live) {p : Pc} (hp : p.child = none)
    (hl : p.Leaves → cur ≠ t.initproc) : Tree t (update pc cur p) :=
  h.goto hl (fun c hc => absurd hc (h.no_maker _ (by simp [hcur]) c)) (by simp [hp])

theorem Tree.alloc (h : Tree t pc) (hcur : clsOf t cur = .live) (ha : Allocs np t t') :
    Tree t' (update (update pc np .idle) cur (.forking np)) := by
  have hnone := h.no_maker np (by simp [ha.free])
  have hnc : np ≠ cur := by
    rintro rfl
    simp [ha.free] at hcur
  have hnp : clsOf t' np = .embryo := by simp [ha.kind]
  have hcur' : clsOf t' cur = .live := by rw [ha.kind, update_of_ne hnc.symm, hcur]
  have h1 : Tree t' pc := by
    refine h.slot np (by simp [ha.free]) ha.initproc (fun i hi => ⟨?_, ha.parent i⟩) ?_
      (by simp [hnp]) fun c hc => absurd hc (hnone c)
    · rw [ha.kind, update_of_ne hi]
    · rw [ha.parent]
      exact h.irrefl np
  have h2 : Tree t' (update pc np .idle) := h1.goto False.elim (fun _ _ => rfl) (by simp [Pc.child])
  refine h2.goto False.elim (fun c hc => absurd hc (h2.no_maker _ (by simp [hcur']) c)) ?_
  rintro m ⟨⟩
  refine ⟨hcur', hnp, update_self _ _ _, fun c hc => ?_, by simp⟩
  obtain rfl | hcn := eq_or_ne c np
  · simp [Pc.child] at hc
  · rw [update_of_ne hcn] at hc
    exact absurd hc (hnone c)

theorem set_other {s : Slot} (i : Fin NPROC) (hi : i ≠ np) :
    clsOf (t.set np s) i = clsOf t i ∧ ((t.set np s).slot i).parent = (t.slot i).parent := by
  rw [clsOf_set, set_slot, update_of_ne hi, update_of_ne hi]
  exact ⟨rfl, rfl⟩

theorem Tree.make (h : Tree t pc) (hc : (pc cur).child = some np) {s : Slot} {p : Pc}
    (hparent : s.parent ≠ some np) (hlive : cls s.state = .live → s.parent = some cur)
    (hz : cls s.state ≠ .zombie)
    (hp : p = .idle ∨ p = .copying np ∧ cls s.state = .embryo ∧ s.parent = some cur) :
    Tree (t.set np s) (update pc cur p) := by
  obtain ⟨hcur, hemb, hidle⟩ := h.child cur np hc
  have hkind : clsOf (t.set np s) np = cls s.state := by rw [clsOf_set, update_self]
  have hslot : (t.set np s).slot np = s := by rw [set_slot, update_self]
  have hown : ∀ c, (pc c).child = some np → c = cur := fun c hc' => h.child_inj c cur np hc' hc
  have hnone := h.no_maker cur (by simp [hcur])
  have hset : ∀ {pc'}, Tree t pc' → (∀ c, (pc' c).child = some np → cls s.state = .embryo ∧
      (pc' c = .copying np → s.parent = some c)) → Tree (t.set np s) pc' := fun h' hc' =>
    h'.slot np (by simp [hemb]) rfl set_other (by rwa [hslot])
      (by rw [hkind, hslot]; exact fun hk => ⟨cur, hlive (hk.resolve_right hz), hcur⟩)
      (by rwa [hkind, hslot])
  obtain rfl | ⟨rfl, he, hpar⟩ := hp
  · refine hset (h.goto False.elim (fun _ _ => rfl) (by simp [Pc.child])) fun c hc' => ?_
    obtain rfl | hcc := eq_or_ne c cur
    · simp [Pc.child] at hc'
    · rw [update_of_ne hcc] at hc'
      exact absurd (hown c hc') hcc
  · have h1 := hset h fun c hc' => ⟨he, fun _ => by rw [hpar, hown c hc']⟩
    refine h1.goto False.elim (fun c hc' => absurd hc' (hnone c)) ?_
    rintro m ⟨⟩
    have hcn : cur ≠ np := by
      rintro rfl
      simp [hcur] at hemb
    exact ⟨(set_other cur hcn).1.trans hcur, hkind.trans he, hidle, hown,
      fun _ => by rw [hslot, hpar]⟩

theorem Tree.exit (h : Tree t pc) (hlive : clsOf t cur = .live) (hcur : pc cur = .exited)
    (hx : Exits cur t t') : Tree t' pc := by
  have hne : cur ≠ t.initproc := h.leaves cur (by rw [hcur]; trivial)
  have hkind : ∀ i, i ≠ cur → clsOf t' i = clsOf t i := by
    intro i hi
    rw [hx.kind, update_of_ne hi]
  have hchild : ∀ c np, (pc c).child = some np → c ≠ cur ∧ np ≠ cur := by
    intro c np hc
    constructor
    · rintro rfl; simp [hcur, Pc.child] at hc
    · rintro rfl
      simpa [hcur] using (h.child _ _ hc).2.2
  have hinit : clsOf t' t.initproc = .live := by rw [hkind _ hne.symm, h.init]
  refine ⟨?_, ?_, fun i => ?_, fun i hi hk => ?_, fun c np hc => ?_, h.child_inj,
    fun c np hc => ?_, ?_⟩
  · rw [hx.initproc]; exact hinit
  · rw [hx.initproc, hx.parent, h.orphan]; simp
  · rw [hx.parent]
    split
    next hp =>
      -- init has no parent, so it is not among the children
      rintro heq
      rw [← Option.some.inj heq, h.orphan] at hp
      simp at hp
    next => exact h.irrefl i
  · rw [hx.initproc] at hi
    have hk' : clsOf t i = .live ∨ clsOf t i = .zombie := by
      by_cases hic : i = cur
      · exact .inl (hic ▸ hlive)
      · rwa [hkind i hic] at hk
    obtain ⟨q, hq, hql⟩ := h.parent i hi hk'
    rw [hx.parent]
    split
    next => exact ⟨_, rfl, hinit⟩
    next hp =>
      refine ⟨q, hq, ?_⟩
      rw [hkind, hql]
      rintro rfl
      exact hp hq
  · obtain ⟨hc1, hc2⟩ := hchild c np hc
    rw [hkind c hc1, hkind np hc2]
    exact h.child c np hc
  · obtain ⟨hc1, -⟩ := hchild c np (by rw [hc]; rfl)
    rw [hx.parent, h.maker c np hc, if_neg]
    exact fun heq => hc1 (Option.some.inj heq)
  · rw [hx.initproc]; exact h.leaves

theorem Tree.reap (h : Tree t pc) {i : Fin NPROC} (hi : clsOf t i = .zombie) :
    Tree (t.reap i) pc := by
  have hnp : ((t.reap i).slot i).parent = none := by rw [Ptable.reap, set_slot, update_self]
  refine h.slot i (by simp [hi]) rfl set_other (by simp [hnp]) ?_ fun c hc =>
    absurd hc (h.no_maker _ (by simp [hi]) c)
  simp [Ptable.reap, clsOf_set, cls]

end Tree

/-! ## Pids -/

section Pids

variable {t t' : Ptable} {created : ℕ} {reaped : List Int32}

structure Pids (t : Ptable) (created : ℕ) (reaped : List Int32) : Prop where
  next : t.nextpid.toInt = created + 1
  few : created < 2 ^ 31 - 1
  range : ∀ i, clsOf t i ≠ .unused →
    0 < (t.slot i).pid.toInt ∧ (t.slot i).pid.toInt < t.nextpid.toInt
  inj : ∀ i j, clsOf t i ≠ .unused → clsOf t j ≠ .unused →
    (t.slot i).pid = (t.slot j).pid → i = j
  old : ∀ p ∈ reaped, p.toInt < t.nextpid.toInt
  gone : ∀ p ∈ reaped, ∀ i, clsOf t i ≠ .unused → (t.slot i).pid ≠ p
  once : reaped.Nodup

theorem Pids.mono (h : Pids t created reaped) (hn : t'.nextpid = t.nextpid)
    (hs : ∀ i, clsOf t' i ≠ .unused → clsOf t i ≠ .unused ∧ (t'.slot i).pid = (t.slot i).pid) :
    Pids t' created reaped := by
  refine ⟨by rw [hn]; exact h.next, h.few, fun i hi => ?_, fun i j hi hj hij => ?_, ?_,
    fun p hp i hi => ?_, h.once⟩
  · rw [hn, (hs i hi).2]; exact h.range i (hs i hi).1
  · rw [(hs i hi).2, (hs j hj).2] at hij
    exact h.inj i j (hs i hi).1 (hs j hj).1 hij
  · rw [hn]; exact h.old
  · rw [(hs i hi).2]; exact h.gone p hp i (hs i hi).1

theorem Pids.same (h : Pids t created reaped) (hs : Same t t') : Pids t' created reaped :=
  h.mono hs.nextpid fun i hi => ⟨by rwa [hs.kind] at hi, hs.pid i⟩

theorem toInt_succ {a : Int32} (h : a.toInt < 2 ^ 31 - 1) : (a + 1).toInt = a.toInt + 1 := by
  have hlow := Int32.le_toInt a
  rw [Int32.toInt_add, show (1 : Int32).toInt = 1 from rfl]
  exact Int.bmod_eq_of_le (by omega) (by omega)

theorem Pids.alloc (h : Pids t created reaped) {np : Fin NPROC} (ha : Allocs np t t')
    (hfew : created + 1 < 2 ^ 31 - 1) : Pids t' (created + 1) reaped := by
  have hnext : t'.nextpid.toInt = t.nextpid.toInt + 1 := by
    rw [ha.nextpid]
    refine toInt_succ ?_
    rw [h.next]
    omega
  have hpid : ∀ i, clsOf t' i ≠ .unused →
      i = np ∧ (t'.slot i).pid = t.nextpid ∨
        i ≠ np ∧ clsOf t i ≠ .unused ∧ (t'.slot i).pid = (t.slot i).pid := by
    intro i hi
    by_cases hin : i = np
    · exact .inl ⟨hin, by rw [ha.pid, if_pos hin]⟩
    · rw [ha.kind, update_of_ne hin] at hi
      exact .inr ⟨hin, hi, by rw [ha.pid, if_neg hin]⟩
  have hnew : ∀ i, clsOf t i ≠ .unused → (t.slot i).pid ≠ t.nextpid := by
    intro i hi heq
    have := (h.range i hi).2
    rw [heq] at this
    exact lt_irrefl _ this
  refine ⟨?_, hfew, fun i hi => ?_, fun i j hi hj hij => ?_, fun p hp => ?_, fun p hp i hi => ?_,
    h.once⟩
  · rw [hnext, h.next]; push_cast; ring
  · rcases hpid i hi with ⟨-, hp⟩ | ⟨-, hu, hp⟩
    · rw [hp, hnext, h.next]; omega
    · rw [hp, hnext]
      have := h.range i hu
      omega
  · rcases hpid i hi with ⟨rfl, hp⟩ | ⟨-, hu, hp⟩ <;> rcases hpid j hj with ⟨rfl, hq⟩ | ⟨-, hv, hq⟩
    · rfl
    · exact absurd (by rw [← hq, ← hij, hp]) (hnew j hv)
    · exact absurd (by rw [← hp, hij, hq]) (hnew i hu)
    · exact h.inj i j hu hv (by rw [← hp, ← hq, hij])
  · have := h.old p hp
    rw [hnext]
    omega
  · rcases hpid i hi with ⟨-, hq⟩ | ⟨-, hu, hq⟩
    · rintro rfl
      have := h.old _ hp
      rw [hq] at this
      exact lt_irrefl _ this
    · rw [hq]; exact h.gone p hp i hu

theorem Pids.reap (h : Pids t created reaped) {i : Fin NPROC} (hi : clsOf t i = .zombie) :
    Pids (t.reap i) created ((t.slot i).pid :: reaped) := by
  have hu : clsOf t i ≠ .unused := by simp [hi]
  have hslot : ∀ j, clsOf (t.reap i) j ≠ .unused →
      j ≠ i ∧ clsOf t j ≠ .unused ∧ ((t.reap i).slot j).pid = (t.slot j).pid := by
    intro j hj
    have hji : j ≠ i := by rintro rfl; simp [Ptable.reap, clsOf_set, cls] at hj
    rw [Ptable.reap, clsOf_set, update_of_ne hji] at hj
    exact ⟨hji, hj, by rw [Ptable.reap, set_slot, update_of_ne hji]⟩
  have hm : Pids (t.reap i) created reaped := h.mono rfl fun j hj => (hslot j hj).2
  refine ⟨hm.next, hm.few, hm.range, hm.inj, fun p hp => ?_, fun p hp j hj => ?_, ?_⟩
  · rcases List.mem_cons.mp hp with rfl | hp
    · exact (h.range i hu).2
    · exact hm.old p hp
  · rcases List.mem_cons.mp hp with rfl | hp
    · intro heq
      obtain ⟨hji, hj, hpid⟩ := hslot j hj
      exact hji (h.inj j i hj hu (hpid ▸ heq))
    · exact hm.gone p hp j hj
  · refine List.nodup_cons.mpr ⟨fun hp => ?_, h.once⟩
    exact h.gone _ hp i hu rfl

end Pids

/-! ## No lost wake-up -/

section Awake

variable {t t' : Ptable} {cur i : Fin NPROC}

def Awake (t : Ptable) : Prop :=
  ∀ i, (t.slot i).state = .sleeping → (t.slot i).chan = some (.proc i) →
    ∀ j, (t.slot j).parent = some i → (t.slot j).state ≠ .zombie

theorem Awake.mono (h : Awake t) (hw : Wakes t t')
    (hz : ∀ j, clsOf t' j = .zombie → clsOf t j = .zombie ∧
      (t'.slot j).parent = (t.slot j).parent) : Awake t' := by
  intro i hi hc j hj hjz
  obtain ⟨hs, hc'⟩ := hw i hi
  obtain ⟨hz', hp⟩ := hz j (zombie_iff.mp hjz)
  exact h i hs (hc'.symm.trans hc) j (hp.symm.trans hj) (zombie_iff.mpr hz')

theorem Awake.same (h : Awake t) (hs : Same t t') (hw : Wakes t t') : Awake t' :=
  h.mono hw fun j hj => ⟨by rwa [hs.kind] at hj, hs.parent j⟩

theorem wakes_set {s : Slot} (hs : s.state ≠ .sleeping) : Wakes t (t.set i s) := by
  intro j hj
  by_cases hji : j = i
  · subst hji
    rw [set_slot, update_self] at hj
    exact absurd hj hs
  · rw [set_slot, update_of_ne hji] at hj ⊢
    exact ⟨hj, rfl⟩

theorem Awake.sleep (h : Awake t) {chan : Chan}
    (hc : chan = .proc cur → ∀ j, (t.slot j).parent = some cur → (t.slot j).state ≠ .zombie)
    (hcur : clsOf t cur = .live) : Awake (t.sleep cur chan) := by
  have hs : Same t (t.sleep cur chan) := Same.set (by rw [hcur]; rfl) rfl rfl
  intro i hi hi' j hj
  rw [hs.parent] at hj
  rw [ne_eq, zombie_iff, hs.kind, ← zombie_iff]
  by_cases hic : i = cur
  · subst hic
    rw [Ptable.sleep, set_slot, update_self] at hi'
    exact hc (Option.some.inj hi') j hj
  · rw [Ptable.sleep, set_slot, update_of_ne hic] at hi hi'
    exact h i hi hi' j hj

theorem Awake.exit (h : Awake t) (hirr : (t.slot cur).parent ≠ some cur)
    (hx : Exits cur t t') : Awake t' := by
  intro i hi hc j hj hz
  obtain ⟨hs, hc'⟩ := hx.wakes i hi
  rw [hc'] at hc
  rw [hx.parent] at hj
  by_cases hjc : j = cur
  · -- the process itself: its parent was woken first
    subst hjc
    rw [if_neg hirr] at hj
    refine hx.up i hi ?_
    rw [hc, hj]
    rfl
  · rw [zombie_iff, hx.kind, update_of_ne hjc, ← zombie_iff] at hz
    split at hj
    next hp =>
      -- a child that init got
      cases hj
      exact hx.init _ hi hc j hp hz
    next => exact h i hs hc j hj hz

end Awake

/-! ## Open files -/

section Closing

variable {t t' : Ptable} {pc : Fin NPROC → Pc} {files : Fin NPROC → Files} {cur : Fin NPROC}

structure Closing (t : Ptable) (pc : Fin NPROC → Pc) (files : Fin NPROC → Files) : Prop where
  closing : ∀ i fd, pc i = .exiting fd → ∀ k < fd, (files i).ofile k = none
  exited : ∀ i, pc i = .exited → (files i).Closed
  zombie : ∀ i, clsOf t i = .zombie → (files i).Closed

theorem Closing.mono (h : Closing t pc files)
    (hz : ∀ i, clsOf t' i = .zombie → clsOf t i = .zombie) : Closing t' pc files :=
  ⟨h.closing, h.exited, fun i hi => h.zombie i (hz i hi)⟩

theorem Closing.goto (h : Closing t pc files) {p : Pc} (hp : ¬ p.Leaves) :
    Closing t (update pc cur p) files := by
  refine ⟨fun i fd hi => ?_, fun i hi => ?_, h.zombie⟩
  · by_cases hic : i = cur
    · subst hic; rw [update_self] at hi; exact absurd (hi ▸ trivial) hp
    · rw [update_of_ne hic] at hi; exact h.closing i fd hi
  · by_cases hic : i = cur
    · subst hic; rw [update_self] at hi; exact absurd (hi ▸ trivial) hp
    · rw [update_of_ne hic] at hi; exact h.exited i hi

theorem Closing.setFiles (h : Closing t pc files) (f : Files) (hpc : ¬ (pc cur).Leaves)
    (hz : clsOf t cur ≠ .zombie) : Closing t pc (update files cur f) := by
  have hne : ∀ i, (pc i).Leaves ∨ clsOf t i = .zombie → i ≠ cur := by
    rintro i hi rfl
    exact hi.elim hpc hz
  refine ⟨fun i fd hi => ?_, fun i hi => ?_, fun i hi => ?_⟩
  · rw [update_of_ne (hne i (.inl (hi ▸ trivial)))]; exact h.closing i fd hi
  · rw [update_of_ne (hne i (.inl (hi ▸ trivial)))]; exact h.exited i hi
  · rw [update_of_ne (hne i (.inr hi))]; exact h.zombie i hi

theorem Closing.close (h : Closing t pc files) {f : Files} {p : Pc}
    (hz : clsOf t cur ≠ .zombie) (hc : ∀ fd, p = .exiting fd → ∀ k < fd, f.ofile k = none)
    (hx : p = .exited → f.Closed) : Closing t (update pc cur p) (update files cur f) := by
  refine ⟨fun i fd hi => ?_, fun i hi => ?_, fun i hi => ?_⟩
  · by_cases hic : i = cur
    · subst hic; rw [update_self] at hi ⊢; exact hc fd hi
    · rw [update_of_ne hic] at hi ⊢; exact h.closing i fd hi
  · by_cases hic : i = cur
    · subst hic; rw [update_self] at hi ⊢; exact hx hi
    · rw [update_of_ne hic] at hi ⊢; exact h.exited i hi
  · rw [update_of_ne (by rintro rfl; exact hz hi)]; exact h.zombie i hi

theorem Closing.exit (h : Closing t pc files) (hcur : pc cur = .exited) (hx : Exits cur t t') :
    Closing t' pc files := by
  refine ⟨h.closing, h.exited, fun i hi => ?_⟩
  by_cases hic : i = cur
  · exact h.exited i (hic ▸ hcur)
  · rw [hx.kind, update_of_ne hic] at hi; exact h.zombie i hi

end Closing

/-! ## Every run -/

variable {s s' : Sys} {cur : Fin NPROC}

structure Inv (s : Sys) : Prop where
  tree : Tree s.t s.pc
  pids : Pids s.t s.created s.reaped
  awake : Awake s.t
  closing : Closing s.t s.pc s.files

theorem Inv.same (h : Inv s) {t : Ptable} (hs : Same s.t t) (ha : Awake t) :
    Inv { s with t := t } :=
  ⟨h.tree.same hs, h.pids.same hs, ha, h.closing.mono fun i hi => by rwa [hs.kind] at hi⟩

theorem Inv.goto (h : Inv s) (hcur : clsOf s.t cur = .live) {p : Pc} (hp : p.child = none)
    (hl : ¬ p.Leaves) : Inv (s.goto cur p) :=
  ⟨h.tree.step hcur hp fun hl' => absurd hl' hl, h.pids, h.awake, h.closing.goto hl⟩

theorem Inv.forkAlloc (h : Inv s) (hcur : clsOf s.t cur = .live)
    (hfew : s.created + 1 < 2 ^ 31 - 1) : Inv (forkAlloc s cur) := by
  unfold ProcTree.forkAlloc
  split
  next => exact h
  next np t heq =>
    have ha := alloc_spec heq
    have hz : ∀ i, clsOf t i = .zombie → clsOf s.t i = .zombie := by
      intro i hi
      by_cases hin : i = np
      · subst hin; simp [ha.kind] at hi
      · rwa [ha.kind, update_of_ne hin] at hi
    exact ⟨h.tree.alloc hcur ha, h.pids.alloc ha hfew,
      h.awake.mono ha.wakes fun i hi => ⟨hz i hi, ha.parent i⟩,
      ((h.closing.mono hz).goto id).goto id⟩

theorem Inv.make (h : Inv s) {np : Fin NPROC} (hc : (s.pc cur).child = some np) {sl : Slot} {p : Pc}
    (hparent : sl.parent ≠ some np) (hlive : cls sl.state = .live → sl.parent = some cur)
    (hz : cls sl.state ≠ .zombie) (hw : sl.state ≠ .sleeping) (hpid : sl.pid = (s.t.slot np).pid)
    (hp : p = .idle ∨ p = .copying np ∧ cls sl.state = .embryo ∧ sl.parent = some cur) :
    Inv { (s.goto cur p) with t := s.t.set np sl } := by
  have hemb := (h.tree.child cur np hc).2.1
  have hzombie : ∀ i, clsOf (s.t.set np sl) i = .zombie → i ≠ np ∧ clsOf s.t i = .zombie := by
    intro i hi
    by_cases hin : i = np
    · subst hin; rw [clsOf_set, update_self] at hi; exact absurd hi hz
    · rw [clsOf_set, update_of_ne hin] at hi; exact ⟨hin, hi⟩
  refine ⟨h.tree.make hc hparent hlive hz hp, h.pids.mono rfl fun i hi => ?_,
    h.awake.mono (wakes_set hw) fun i hi => ?_,
    (h.closing.goto ?_).mono fun i hi => (hzombie i hi).2⟩
  · by_cases hin : i = np
    · subst hin
      exact ⟨by simp [hemb], by rw [set_slot, update_self, hpid]⟩
    · rw [clsOf_set, update_of_ne hin] at hi
      exact ⟨hi, by rw [set_slot, update_of_ne hin]⟩
  · obtain ⟨hin, hi⟩ := hzombie i hi
    exact ⟨hi, by rw [set_slot, update_of_ne hin]⟩
  · rcases hp with rfl | ⟨rfl, -, -⟩ <;> exact id

theorem Inv.exit (h : Inv s) (hat : At s cur .exited) : Inv { s with t := s.t.exit cur } := by
  obtain ⟨hrun, hpc⟩ := hat
  have hlive := clsOf_of_running hrun
  have hx := exit_spec (h.tree.leaves cur (by rw [hpc]; trivial))
  refine ⟨h.tree.exit hlive hpc hx, h.pids.mono hx.nextpid fun i hi => ⟨?_, hx.pid i⟩,
    h.awake.exit (h.tree.irrefl cur) hx, h.closing.exit hpc hx⟩
  by_cases hic : i = cur
  · simp [hic, hlive]
  · rwa [hx.kind, update_of_ne hic] at hi

theorem wait_cases (t : Ptable) (cur : Fin NPROC) :
    (∃ i, t.wait cur = (t.reap i, some i) ∧ (t.slot i).parent = some cur ∧
      clsOf t i = .zombie) ∨
    t.wait cur = (t, none) ∨
    (t.wait cur = (t.sleep cur (.proc cur), none) ∧
      ∀ j, (t.slot j).parent = some cur → (t.slot j).state ≠ .zombie) := by
  unfold Ptable.wait
  cases hf : t.find fun s => s.parent = some cur ∧ s.state = .zombie with
  | some i =>
    obtain ⟨hp, hz⟩ := of_decide_eq_true (find_eq_some hf)
    exact .inl ⟨i, rfl, hp, zombie_iff.mp hz⟩
  | none =>
    right
    by_cases hk : (t.find (·.parent = some cur)).isNone ∨ (t.slot cur).killed
    · exact .inl (if_pos hk)
    · refine .inr ⟨if_neg hk, fun j hp hz => ?_⟩
      have := List.find?_eq_none.mp hf j (List.mem_finRange j)
      exact this (decide_eq_true ⟨hp, hz⟩)

theorem Inv.wait (h : Inv s) (hrun : (s.t.slot cur).state = .running) : Inv (wait s cur) := by
  have hlive := clsOf_of_running hrun
  unfold ProcTree.wait
  rcases wait_cases s.t cur with ⟨i, heq, -, hz⟩ | heq | ⟨heq, hnone⟩ <;> simp only [heq]
  · have hg := h.goto hlive (p := .idle) rfl id
    refine ⟨hg.tree.reap hz, hg.pids.reap hz, ?_, hg.closing.mono fun j hj => ?_⟩
    · refine h.awake.mono (wakes_set (by simp)) fun j hj => ?_
      have hji : j ≠ i := by rintro rfl; simp [Ptable.reap, clsOf_set, cls] at hj
      rw [Ptable.reap, clsOf_set, update_of_ne hji] at hj
      refine ⟨hj, ?_⟩
      show ((s.t.reap i).slot j).parent = (s.t.slot j).parent
      rw [Ptable.reap, set_slot, update_of_ne hji]
    · by_cases hji : j = i
      · exact hji ▸ hz
      · rwa [Ptable.reap, clsOf_set, update_of_ne hji] at hj
  · rw [if_neg (by rw [hrun]; decide)]
    exact h.goto hlive rfl id
  · have hs : Same s.t (s.t.sleep cur (.proc cur)) := Same.set (by rw [hlive]; rfl) rfl rfl
    have ha : Awake (s.t.sleep cur (.proc cur)) := h.awake.sleep (fun _ => hnone) hlive
    rw [if_pos (by simp [Ptable.sleep, set_slot])]
    exact (h.goto (p := .waiting) hlive rfl id).same hs ha

theorem Inv.kill (h : Inv s) (pid : Int32) : Inv { s with t := (s.t.kill pid).1 } := by
  cases hf : s.t.find (·.pid = pid) with
  | none => simpa only [Ptable.kill, hf] using h
  | some i =>
    rw [kill_of_find hf]
    have hs : Same s.t (s.t.set i { s.t.slot i with
        killed := true
        state := if (s.t.slot i).state = .sleeping then .runnable else (s.t.slot i).state }) := by
      refine Same.set ?_ rfl rfl
      dsimp only
      split
      next hsl => rw [clsOf, hsl]; rfl
      next => rfl
    refine h.same hs (h.awake.same hs (wakes_set ?_))
    dsimp only
    split
    next => decide
    next hn => exact hn

theorem Inv.step {l : Label} (h : Inv s) (hfew : Few s l) (hs : step s l = some s') : Inv s' := by
  cases l with
  | forkAlloc cur =>
    obtain ⟨hat, rfl⟩ := Lts.of_guard hs
    exact h.forkAlloc (clsOf_of_running hat.1) hfew
  | forkFail cur =>
    simp only [ProcTree.step] at hs
    split at hs
    next np hpc =>
      obtain ⟨-, rfl⟩ := Lts.of_guard hs
      exact h.make (by rw [hpc]; rfl) (h.tree.irrefl np) (by simp [cls]) (by simp [cls])
        (by simp) rfl (.inl rfl)
    next => cases hs
  | forkCopy cur =>
    simp only [ProcTree.step] at hs
    split at hs
    next np hpc =>
      obtain ⟨-, rfl⟩ := Lts.of_guard hs
      have hc : (s.pc cur).child = some np := by rw [hpc]; rfl
      obtain ⟨hlive, hemb, -⟩ := h.tree.child cur np hc
      refine h.make hc ?_ (fun _ => rfl) ?_ ?_ rfl (.inr ⟨rfl, hemb, rfl⟩)
      · rintro heq
        rw [Option.some.inj heq, hemb] at hlive
        cases hlive
      · show clsOf s.t np ≠ .zombie
        rw [hemb]
        decide
      · intro (hsl : (s.t.slot np).state = .sleeping)
        rw [clsOf, hsl] at hemb
        cases hemb
    next => cases hs
  | forkFiles cur =>
    simp only [ProcTree.step] at hs
    split at hs
    next np hpc =>
      obtain ⟨-, rfl⟩ := Lts.of_guard hs
      obtain ⟨-, hemb, hidle⟩ := h.tree.child cur np (by rw [hpc]; rfl)
      exact ⟨h.tree, h.pids, h.awake,
        h.closing.setFiles _ (by rw [hidle]; exact id) (by simp [hemb])⟩
    next => cases hs
  | forkRun cur =>
    simp only [ProcTree.step] at hs
    split at hs
    next np hpc =>
      obtain ⟨-, rfl⟩ := Lts.of_guard hs
      exact h.make (by rw [hpc]; rfl) (h.tree.irrefl np) (fun _ => h.tree.maker cur np hpc)
        (by simp [cls]) (by simp) rfl (.inl rfl)
    next => cases hs
  | exitStart cur =>
    obtain ⟨⟨hat, hne⟩, rfl⟩ := Lts.of_guard hs
    refine ⟨h.tree.step (clsOf_of_running hat.1) rfl fun _ => hne, h.pids, h.awake, ?_⟩
    have := h.closing.close (f := s.files cur) (p := .exiting 0)
      (by rw [clsOf_of_running hat.1]; decide) (by rintro fd ⟨⟩ k hk; omega) (by simp)
    rwa [update_eq_self] at this
  | exitClose cur =>
    simp only [ProcTree.step] at hs
    split at hs
    next fd hpc =>
      obtain ⟨⟨hrun, -⟩, rfl⟩ := Lts.of_guard hs
      have hlive := clsOf_of_running hrun
      refine ⟨h.tree.step hlive rfl fun _ => h.tree.leaves cur (by rw [hpc]; trivial), h.pids,
        h.awake, h.closing.close (by rw [hlive]; decide) ?_ (by simp)⟩
      rintro _ ⟨⟩ k hk
      show update (s.files cur).ofile fd none k = none
      by_cases hkf : k = fd
      · rw [hkf, update_self]
      · rw [update_of_ne hkf]
        exact h.closing.closing cur fd hpc k (by omega)
    next => cases hs
  | exitCwd cur =>
    obtain ⟨⟨hrun, hpc⟩, rfl⟩ := Lts.of_guard hs
    have hlive := clsOf_of_running hrun
    refine ⟨h.tree.step hlive rfl fun _ => h.tree.leaves cur (by rw [hpc]; trivial), h.pids,
      h.awake, h.closing.close (by rw [hlive]; decide) (by simp) fun _ => ⟨?_, rfl⟩⟩
    exact h.closing.closing cur NOFILE hpc
  | exit cur =>
    obtain ⟨hat, rfl⟩ := Lts.of_guard hs
    exact h.exit hat
  | wait cur =>
    obtain ⟨hat, rfl⟩ := Lts.of_guard hs
    exact h.wait (hat.elim And.left And.left)
  | sleep cur a =>
    obtain ⟨⟨hrun, -⟩, rfl⟩ := Lts.of_guard hs
    have hlive := clsOf_of_running hrun
    exact h.same (Same.set (by rw [hlive]; rfl) rfl rfl)
      (h.awake.sleep (fun hc => by cases hc) hlive)
  | wakeup a =>
    cases hs
    have hw := Same.wakeup1 s.t (some (.addr a))
    refine h.same hw (h.awake.same hw fun i hi => ?_)
    obtain ⟨hc, hsl, -⟩ := wakes_wakeup1 _ _ i hi
    exact ⟨hsl, hc⟩
  | kill pid =>
    cases hs
    exact h.kill pid
  | schedule i =>
    obtain ⟨hst, rfl⟩ := Lts.of_guard hs
    have hsame : Same s.t (s.t.schedule i) := Same.set (by rw [clsOf, hst]; rfl) rfl rfl
    exact h.same hsame (h.awake.same hsame (wakes_set (by simp)))
  | yield cur =>
    obtain ⟨hst, rfl⟩ := Lts.of_guard hs
    have hsame : Same s.t (s.t.yield cur) := Same.set (by rw [clsOf, hst]; rfl) rfl rfl
    exact h.same hsame (h.awake.same hsame (wakes_set (by simp)))
  | use cur f =>
    obtain ⟨⟨hrun, hpc⟩, rfl⟩ := Lts.of_guard hs
    exact ⟨h.tree, h.pids, h.awake, h.closing.setFiles f (by rw [hpc]; exact id)
      (by rw [clsOf_of_running hrun]; decide)⟩

theorem Inv.start : Inv start := by
  have hcls : ∀ i, clsOf Ptable.boot i =
      if i = Ptable.boot.initproc then .live else .unused := by decide
  have hpid : ∀ i, (Ptable.boot.slot i).pid.toInt =
      if i = Ptable.boot.initproc then 1 else 0 := by decide
  have hused : ∀ i, clsOf Ptable.boot i ≠ .unused → i = Ptable.boot.initproc := by
    intro i hi
    by_contra hne
    exact hi (by rw [hcls, if_neg hne])
  have hparent : ∀ i, (Ptable.boot.slot i).parent = none := by decide
  refine ⟨⟨by decide, hparent _, fun i => ?_, fun i hi hk => ?_, ?_, ?_, ?_, ?_⟩,
    ⟨by decide, by decide, fun i hi => ?_, fun i j hi hj _ => ?_, ?_, ?_, List.nodup_nil⟩,
    fun i _ _ j hj => ?_, ⟨?_, ?_, fun i hi => ?_⟩⟩
  · rw [show (ProcTree.start.t.slot i).parent = none from hparent i]
    exact nofun
  · have := hused i (by rcases hk with hk | hk <;> exact hk ▸ nofun)
    exact absurd this hi
  · exact nofun
  · exact nofun
  · exact nofun
  · exact nofun
  · show 0 < (Ptable.boot.slot i).pid.toInt ∧ (Ptable.boot.slot i).pid.toInt < 2
    rw [hpid, if_pos (hused i hi)]
    decide
  · rw [hused i hi, hused j hj]
  · exact nofun
  · exact nofun
  · rw [show (ProcTree.start.t.slot j).parent = none from hparent j] at hj
    cases hj
  · exact nofun
  · exact nofun
  · have := hused i (hi ▸ nofun)
    rw [this] at hi
    exact absurd hi (by decide)

theorem Inv.reach (h : Lts.Reach ProcTree.step Few ProcTree.start s) : Inv s :=
  h.invariant Inv.start fun _ _ _ hi hok hs => hi.step hok hs

structure Reaps (s s' : Sys) (cur i : Fin NPROC) : Prop where
  parent : (s.t.slot i).parent = some cur
  zombie : (s.t.slot i).state = .zombie
  reaped : s'.reaped = (s.t.slot i).pid :: s.reaped
  unused : (s'.t.slot i).state = .unused
  closed : (s'.files i).Closed

theorem Inv.reaps {l : Label} (h : Inv s) (hs : ProcTree.step s l = some s') :
    s'.reaped = s.reaped ∨ ∃ cur i, l = .wait cur ∧ Reaps s s' cur i := by
  cases l with
  | wait cur =>
    obtain ⟨-, rfl⟩ := Lts.of_guard hs
    unfold ProcTree.wait
    rcases wait_cases s.t cur with ⟨i, heq, hp, hz⟩ | heq | ⟨heq, -⟩ <;> simp only [heq]
    · refine .inr ⟨cur, i, rfl, hp, zombie_iff.mpr hz, rfl, ?_, h.closing.zombie i hz⟩
      simp [Ptable.reap, set_slot]
    · exact .inl rfl
    · exact .inl rfl
  | forkAlloc cur =>
    obtain ⟨-, rfl⟩ := Lts.of_guard hs
    left
    unfold ProcTree.forkAlloc
    split <;> rfl
  | forkFail cur | forkCopy cur | forkFiles cur | forkRun cur | exitClose cur =>
    simp only [ProcTree.step] at hs
    split at hs
    next =>
      obtain ⟨-, rfl⟩ := Lts.of_guard hs
      exact .inl rfl
    next => cases hs
  | wakeup a | kill a => exact .inl (Option.some.inj hs ▸ rfl)
  | exitStart cur | exitCwd cur | exit cur | sleep cur a | schedule i | yield cur | use cur f =>
    obtain ⟨-, rfl⟩ := Lts.of_guard hs
    exact .inl rfl

/-- **The process tree.** In every interleaving with fewer than `2 ^ 31 - 1` processes, every
process that lives or has exited, other than init, has a parent that lives; pids in use are positive
and different; nobody sleeps in `wait` with a child that has exited; and a pid is returned by one
`wait` at most, to the parent, which leaves the slot unused and without files. -/
theorem process_tree (s : Sys) (h : Lts.Reach step Few start s) :
    (∀ i, i ≠ s.t.initproc → (s.t.slot i).state ∈
        [ProcState.sleeping, .runnable, .running, .zombie] →
      ∃ q, (s.t.slot i).parent = some q ∧ (s.t.slot q).state ≠ .unused ∧
        (s.t.slot q).state ≠ .zombie) ∧
    (∀ i, (s.t.slot i).state ≠ .unused → 0 < (s.t.slot i).pid.toInt) ∧
    (∀ i j, (s.t.slot i).state ≠ .unused → (s.t.slot j).state ≠ .unused →
      (s.t.slot i).pid = (s.t.slot j).pid → i = j) ∧
    (∀ i, (s.t.slot i).state = .sleeping → (s.t.slot i).chan = some (.proc i) →
      ∀ j, (s.t.slot j).parent = some i → (s.t.slot j).state ≠ .zombie) ∧
    s.reaped.Nodup ∧
    ∀ l s', step s l = some s' →
      s'.reaped = s.reaped ∨ ∃ cur i, l = .wait cur ∧ Reaps s s' cur i := by
  have hi := Inv.reach h
  refine ⟨fun i hne hst => ?_, fun i hu => ?_, fun i j hu hv => ?_, hi.awake, hi.pids.once,
    fun l s' hs => hi.reaps hs⟩
  · have hcls : clsOf s.t i = .live ∨ clsOf s.t i = .zombie := by
      unfold clsOf
      cases hs : (s.t.slot i).state <;> simp [hs, cls] at hst ⊢
    obtain ⟨q, hq, hlive⟩ := hi.tree.parent i hne hcls
    refine ⟨q, hq, ?_, ?_⟩
    · rw [ne_eq, unused_iff, hlive]; decide
    · rw [ne_eq, zombie_iff, hlive]; decide
  · exact (hi.pids.range i (unused_iff.not.mp hu)).1
  · exact hi.pids.inj i j (unused_iff.not.mp hu) (unused_iff.not.mp hv)

theorem zero_lt_nproc : 0 < NPROC := by decide

theorem one_lt_nproc : 1 < NPROC := by decide

def reaping : List Label :=
  let init : Fin NPROC := ⟨0, zero_lt_nproc⟩
  let child : Fin NPROC := ⟨1, one_lt_nproc⟩
  [.schedule init, .forkAlloc init, .forkCopy init, .forkFiles init, .forkRun init, .wait init,
    .schedule child, .exitStart child] ++ List.replicate NOFILE (.exitClose child) ++
    [.exitCwd child, .exit child, .schedule init, .wait init]

instance : ∀ (s : Sys) (l : Label), Decidable (Few s l)
  | s, .forkAlloc _ => inferInstanceAs (Decidable (s.created + 1 < 2 ^ 31 - 1))
  | _, .forkFail _ | _, .forkCopy _ | _, .forkFiles _ | _, .forkRun _ | _, .exitStart _
  | _, .exitClose _ | _, .exitCwd _ | _, .exit _ | _, .wait _ | _, .sleep _ _ | _, .wakeup _
  | _, .kill _ | _, .schedule _ | _, .yield _ | _, .use _ _ => isTrue trivial

theorem process_tree_reaping : ∃ s, Lts.run step start reaping = some s ∧ s.reaped = [2] ∧
    s.reaped.Nodup := by
  obtain ⟨s, hrun, hreach, hq⟩ := @Lts.exists_reach _ _ step Few start reaping
    (fun s => s.reaped = [2]) (by decide +kernel) (by decide +kernel)
  exact ⟨s, hrun, of_decide_eq_true hq, (process_tree s hreach).2.2.2.2.1⟩

end Xv6.ProcTree
