import Xv6.Fs.Runs
import Xv6.Lib.WaitsFor

/-!
# Inode locks and deadlock

`sleepStep` adds to the interleavings of system calls what `acquiresleep` does when the lock is
taken: the process goes to sleep, until `releasesleep` wakes up all who sleep for that lock. A
process waits for another one if it sleeps for a lock that the other one holds.

Paths are walked downwards with one lock at a time, and the calls that hold the lock of a directory
take that of an inode below it second. `iput` does not fit in: it locks its inode to look at the
link count, and `create` and `unlink` call it for the directory when they have unlocked it, with the
inode below still locked. Whoever has locked the directory in the meantime, and asks for that inode,
waits for a process that waits for it.

1. `Clear` excludes this: a process that holds a directory does not go to sleep for an inode in it
   while another one still has to drop the directory. It also excludes `link` to a name `"."` or
   `".."`, where `dirlink` drops a directory that is not below the one it holds.
2. `no_deadlock`: in a run with `Clear` processes never wait for each other in a cycle.
3. `deadlocks`: three ways into a deadlock without it.
-/

namespace Xv6.Fs

open Conc WaitsFor

variable {P : Type}

/-! ## Sleeping -/

/-- The lock a call in flight asks for next, and from where. -/
def nextLock : Option (Task P Ret) → Option (LockSite × ℕ)
  | some (.wait (.inode site k) _) => some (site, k)
  | _ => none

def wantsLock (s : System P) (p : P) : Option ℕ := (nextLock (s.th p)).map Prod.snd

def lockOwner (s : System P) (k : ℕ) : Option P := (s.st.icache k).lock

def lockHeld (s : System P) (p : P) : Bool := (wantsLock s p).any fun k => (lockOwner s k).isSome

structure Sleepers (P : Type) where
  sys : System P
  asleep : P → Bool

inductive SleepLabel (P : Type)
  | sys (l : Label P (Call P))
  | sleep (p : P)

/-- A process that sleeps makes no step. When a lock is released all who sleep for it wake up. -/
def sleepStep [DecidableEq P] (sb : Superblock) (init : P) (s : Sleepers P) :
    SleepLabel P → Option (Sleepers P)
  | .sys l =>
    if s.asleep l.proc then none
    else (sysStep sb init s.sys l).map fun t => ⟨t, fun q => s.asleep q && lockHeld t q⟩
  | .sleep p =>
    if lockHeld s.sys p then some { s with asleep := Function.update s.asleep p true } else none

def bootSleepers [DecidableEq P] (v : Volume) (init : P) : Sleepers P :=
  ⟨bootSystem v init, fun _ => false⟩

def sleepsFor (s : Sleepers P) (p : P) : Option ℕ := if s.asleep p then wantsLock s.sys p else none

/-- The directory that `p` has unlocked and still has to drop, in `create` or `unlink`. -/
def drops (s : System P) (p : P) : Option ℕ :=
  match nextLock (s.th p) with
  | some (.iputParent, k) => some k
  | _ => none

def OneLock (s : System P) (p : P) : Prop :=
  ∀ k < NINODE, lockOwner s k = some p → ∀ l < NINODE, lockOwner s l = some p → k = l

def NoneDrops (s : System P) (p : P) : Prop :=
  ∀ l < NINODE, lockOwner s l = some p → ∀ q, drops s q ≠ some l

/-- What calls and processes that go to sleep have to observe. `link` does not make an entry `"."`
or `".."`. A process goes to sleep with at most one lock held, and, unless it is dropping a
directory itself, only if nobody still has to drop the one whose lock it holds. -/
def Clear (s : Sleepers P) : SleepLabel P → Prop
  | .sys (.call _ c) => c.Plain
  | .sys (.step _) => True
  | .sleep p => OneLock s.sys p ∧ (drops s.sys p = none → NoneDrops s.sys p)

section Decidable

instance : DecidablePred isDots := fun _ => inferInstanceAs (Decidable (_ ∨ _))

instance : DecidablePred (Call.Plain : Call P → Prop) := fun c => by
  unfold Call.Plain
  split <;> infer_instance

variable [DecidableEq P] [Fintype P]

instance (s : System P) (p : P) : Decidable (OneLock s p) := by
  unfold OneLock
  infer_instance

instance (s : System P) (p : P) : Decidable (NoneDrops s p) := by
  unfold NoneDrops
  infer_instance

instance (s : Sleepers P) : DecidablePred (Clear s)
  | .sys (.call _ c) => inferInstanceAs (Decidable c.Plain)
  | .sys (.step _) => inferInstanceAs (Decidable True)
  | .sleep _ => inferInstanceAs (Decidable (_ ∧ _))

end Decidable

/-! ## No deadlock -/

theorem nextLock_eq_some {t : Option (Task P Ret)} {site : LockSite} {k : ℕ}
    (h : nextLock t = some (site, k)) : ∃ m, t = some (.wait (.inode site k) m) := by
  unfold nextLock at h
  split at h
  next site' k' m =>
    cases h
    exact ⟨m, rfl⟩
  next => cases h

theorem drops_eq_some {s : System P} {p : P} {k : ℕ} :
    drops s p = some k ↔ nextLock (s.th p) = some (.iputParent, k) := by
  unfold drops
  split
  next h =>
    rw [h]
    simp
  next hne =>
    constructor
    · intro h
      cases h
    · exact fun h => absurd h (hne k)

theorem sleepsFor_eq_some {s : Sleepers P} {p : P} {k : ℕ} (h : sleepsFor s p = some k) :
    s.asleep p = true ∧ ∃ site m, s.sys.th p = some (.wait (.inode site k) m) := by
  unfold sleepsFor at h
  split at h
  next hp =>
    obtain ⟨⟨site, l⟩, hnext, rfl⟩ := Option.map_eq_some_iff.mp h
    exact ⟨hp, site, nextLock_eq_some hnext⟩
  next => cases h

variable [DecidableEq P] [Fintype P] {sb : Superblock} {K : Set ℕ} {init : P}

section Steps

variable {V A B : Prop} {s s' : System P} {l : Label P (Call P)} (h : SystemInv sb K V A B s)

include h

theorem SystemInv.owner_lt {k : ℕ} {p : P} (hk : lockOwner s k = some p) : k < NINODE := by
  obtain ⟨w, γ, hI, -⟩ := h
  exact hI.bound k (hI.ref_pos_of_stake (hI.stake_of_lock hk))

variable (hsb : V → sb.WF) (hino : B → sb.ninodes ≤ 2 ^ 16)
  (hplain : B → ∀ p c, l = .call p c → c.Plain) (hs : sysStep sb init s l = some s')

include hsb hino hplain hs

theorem SystemInv.owner_other {k : ℕ} {q : P} (hq : q ≠ l.proc) (hk : lockOwner s' k = some q) :
    lockOwner s k = some q := by
  obtain ⟨w, γ, h⟩ := h
  obtain ⟨w', g', hI', -⟩ := h.step (fun _ => Ghost.start) hs
    (fun _ _ _ _ hlive hg hI => hI.start_call (by simpa using hlive) hg)
    fun p c hl => Call.spec hsb hino init p c fun hB => hplain hB p c hl
  have hmem := hI'.lock k q hk
  rw [Function.update_of_ne hq] at hmem
  obtain ⟨x, hx, rfl⟩ := List.mem_map.mp hmem
  exact ((h.1.loc q).held x hx).1

theorem SystemInv.drops_entry {k : ℕ} {q : P} (hq : drops s' q = some k) :
    drops s q = some k ∨ lockOwner s k = some q := by
  obtain ⟨m, hm⟩ := nextLock_eq_some (drops_eq_some.mp hq)
  have hentry := SysInv.entry (fun _ => Ghost.start) hs
    (fun p c hl => Call.spec hsb hino init p c fun hB => hplain hB p c hl) h hm
  refine hentry.imp (fun hold => ?_) fun hlock => hlock
  rw [drops_eq_some, hold]
  rfl

end Steps

structure SleepInv (sb : Superblock) (K : Set ℕ) (s : Sleepers P) : Prop where
  sys : SystemInv sb K True False True s.sys
  one : ∀ p, s.asleep p = true → OneLock s.sys p
  clear : ∀ p, s.asleep p = true → drops s.sys p = none → NoneDrops s.sys p

theorem SleepInv.step {s s' : Sleepers P} {l : SleepLabel P} (hsb : sb.WF)
    (hino : sb.ninodes ≤ 2 ^ 16) (h : SleepInv sb K s) (hok : Clear s l)
    (hs : sleepStep sb init s l = some s') : SleepInv sb K s' := by
  cases l with
  | sys l =>
    simp only [sleepStep] at hs
    split at hs
    · cases hs
    next hawake =>
    obtain ⟨t, ht, rfl⟩ := Option.map_eq_some_iff.mp hs
    have hplain : True → ∀ p c, l = .call p c → c.Plain := by
      rintro - p c rfl
      exact hok
    have hother : ∀ p, s.asleep p = true → p ≠ l.proc := by
      rintro p hp rfl
      exact hawake hp
    have howner : ∀ p, s.asleep p = true → ∀ k, lockOwner t k = some p →
        lockOwner s.sys k = some p := fun p hp k =>
      h.sys.owner_other (fun _ => hsb) (fun _ => hino) hplain ht (hother p hp)
    refine ⟨SystemInv.step (fun _ => hsb) (fun _ => hino) hplain h.sys ht, fun p hp => ?_,
      fun p hp hdrop => ?_⟩
    · obtain ⟨hp, -⟩ := Bool.and_eq_true_iff.mp hp
      intro k hk hpk m hm hpm
      exact h.one p hp k hk (howner p hp k hpk) m hm (howner p hp m hpm)
    · obtain ⟨hp, -⟩ := Bool.and_eq_true_iff.mp hp
      have hdrop' : drops s.sys p = none := by
        unfold drops at hdrop ⊢
        rwa [← step_other ht (hother p hp)]
      intro k hk hpk q hq
      rcases h.sys.drops_entry (fun _ => hsb) (fun _ => hino) hplain ht hq with hold | hold
      · exact h.clear p hp hdrop' k hk (howner p hp k hpk) q hold
      · -- only the holder of `k` can have unlocked it, and it sleeps
        obtain rfl := Option.some.inj ((howner p hp k hpk).symm.trans hold)
        rw [hdrop] at hq
        cases hq
  | sleep p =>
    simp only [sleepStep] at hs
    split at hs
    swap
    · cases hs
    cases hs
    have hcases : ∀ q, Function.update s.asleep p true q = true → q = p ∨ s.asleep q = true := by
      intro q hq
      by_cases hqp : q = p
      · exact .inl hqp
      · rw [Function.update_of_ne hqp] at hq
        exact .inr hq
    refine ⟨h.sys, fun q hq => ?_, fun q hq => ?_⟩
    · rcases hcases q hq with rfl | hq
      · exact hok.1
      · exact h.one q hq
    · rcases hcases q hq with rfl | hq
      · exact hok.2
      · exact h.clear q hq

theorem SleepInv.ranked {s : Sleepers P} (h : SleepInv sb K s) : ∃ w : Births,
    ∀ p k l, sleepsFor s p = some k → lockOwner s.sys l = some p →
      (drops s.sys p = none → DirAt s.sys.st l ∧ (DirAt s.sys.st k →
        w.born (s.sys.st.icache l).inum < w.born (s.sys.st.icache k).inum)) ∧
      (drops s.sys p ≠ none → DirAt s.sys.st k ∧ (DirAt s.sys.st l →
        w.born (s.sys.st.icache k).inum < w.born (s.sys.st.icache l).inum)) := by
  obtain ⟨w, γ, hI, hth⟩ := id h.sys
  refine ⟨w, fun p k l hk hl => ?_⟩
  obtain ⟨hp, site, m, hm⟩ := sleepsFor_eq_some hk
  have hwp := hth p
  rw [hm] at hwp
  obtain ⟨X, hwp⟩ := hwp
  have howes := hwp.1.2 s.sys.st w γ rfl hI
  unfold drops
  rw [hm]
  cases site with
  | ilock => exact ⟨fun _ => howes trivial l hl, fun hne => absurd rfl hne⟩
  | iput =>
    have hone : HoldsOne p s.sys.st := fun k l hk hl =>
      h.one p hp k (h.sys.owner_lt hk) hk l (h.sys.owner_lt hl) hl
    exact ⟨fun _ => howes trivial hone l hl, fun hne => absurd rfl hne⟩
  | iputParent =>
    obtain ⟨hdir, hyoung⟩ := howes trivial
    exact ⟨fun hnone => absurd hnone (by simp [nextLock]), fun _ => ⟨hdir, hyoung l hl⟩⟩

/-- **No deadlock.** From a consistent disk whose directories lie below older ones: in every state
of every run whose steps are all clear, processes do not wait for each other in a cycle. -/
theorem no_deadlock {v : Volume} {w : Births} {s : Sleepers P} (hsb : sb.WF)
    (hino : sb.ninodes ≤ 2 ^ 16) (hv : VolInv sb K v v.dinode) (hclock : ∀ i, w.born i ≤ w.clock)
    (hyoung : Younger v w) (h : Lts.Reach (sleepStep sb init) Clear (bootSleepers v init) s)
    (p : P) : ¬ Deadlocked (lockOwner s.sys) (sleepsFor s) p := by
  have h0 : SleepInv sb K (bootSleepers v init) :=
    ⟨bootSystem_inv (fun _ => trivial) (fun _ => hv) False.elim (fun _ => hclock) fun _ => hyoung,
      fun _ hp => absurd hp Bool.false_ne_true, fun _ hp => absurd hp Bool.false_ne_true⟩
  have hI : SleepInv sb K s := h.invariant h0 fun _ _ _ hI hok hs => hI.step hsb hino hok hs
  obtain ⟨w', hrank⟩ := hI.ranked
  refine acyclic_of_turn (DirAt s.sys.st) (fun k => w'.born (s.sys.st.icache k).inum)
    (fun p => drops s.sys p ≠ none) (fun p l m hup hm hl => ?_)
    (fun p l m hdown hm hl => (hrank p m l hm hl).2 hdown) (fun p q hdown hw hq => ?_) p
  · exact (hrank p m l hm hl).1 (not_not.mp hup)
  · intro hnone
    obtain ⟨k, hk, hown⟩ := hw
    obtain ⟨r, m, hm, -⟩ := hq
    -- `q` sleeps for an entry of a directory that `p` has to drop
    obtain ⟨-, site, t, ht⟩ := sleepsFor_eq_some hk
    obtain ⟨l, hl⟩ := Option.ne_none_iff_exists'.mp hdown
    have hkl : k = l := by
      have := drops_eq_some.mp hl
      rw [ht] at this
      exact congrArg Prod.snd (Option.some.inj this)
    subst hkl
    exact hI.clear q (sleepsFor_eq_some hm).1 hnone k (hI.sys.owner_lt hown) hown p hl

/-! ## Runs -/

def steps {n : ℕ} (p : Fin n) (c : Call (Fin n)) (m : ℕ) : List (SleepLabel (Fin n)) :=
  .sys (.call p c) :: List.replicate m (.sys (.step p))

omit [DecidableEq P] [Fintype P] in
theorem waits_of_bind {s : Sleepers P} {p q : P}
    (h : (sleepsFor s p).bind (lockOwner s.sys) = some q) :
    Waits (lockOwner s.sys) (sleepsFor s) p q :=
  Option.bind_eq_some_iff.mp h

def shared : List (SleepLabel (Fin 3)) :=
  steps 0 (.open (some ([120], O_CREATE ||| O_RDWR))) 30 ++ steps 0 (.fork 1) 20 ++
    steps 0 (.fork 2) 20

/-- Process 0 unlinks `x` and has the root directory to drop, which process 1 has locked in `namex`;
process 2 reads from `x`. -/
def unlinkDropping : List (SleepLabel (Fin 3)) :=
  shared ++ steps 0 (.unlink (some [120])) 18 ++ steps 1 (.open (some ([121], O_RDONLY))) 4 ++
    [.sleep 0] ++ steps 2 (.read 0 1 (.int 0) none) 3 ++ [.sleep 2]

/-- Process 2 has locked `x` to read from it; process 1 unlinks `x` and has locked the root
directory, through which process 0 wants to go. -/
def unlinkReading : List (SleepLabel (Fin 3)) :=
  shared ++ steps 2 (.read 0 1 (.int 0) none) 4 ++ steps 1 (.unlink (some [120])) 12 ++
    [.sleep 1] ++ steps 0 (.open (some ([121], O_RDONLY))) 3 ++ [.sleep 0]

/-- After the run one process waits for a second one, which holds a lock and waits for a third one,
but nobody is deadlocked. -/
def Queue (ls : List (SleepLabel (Fin 3))) : Prop :=
  ∃ s, Lts.run (sleepStep sb0 0) (bootSleepers bareDisk 0) ls = some s ∧
    (∃ p q r, Waits (lockOwner s.sys) (sleepsFor s) p q ∧
      Waits (lockOwner s.sys) (sleepsFor s) q r) ∧
    ∀ p, ¬ Deadlocked (lockOwner s.sys) (sleepsFor s) p

theorem no_deadlock_unlink : Queue unlinkDropping ∧ Queue unlinkReading := by
  suffices h : ∀ ls ∈ [unlinkDropping, unlinkReading], Queue ls from
    ⟨h _ (by simp), h _ (by simp)⟩
  intro ls hls
  have hok : Lts.RunOk (sleepStep sb0 0) Clear (bootSleepers bareDisk 0) ls := by
    revert ls
    decide +kernel
  have hrun : (Lts.run (sleepStep sb0 0) (bootSleepers bareDisk 0) ls).any fun s =>
      ∃ p q, (sleepsFor s p).bind (lockOwner s.sys) = some q ∧
        ((sleepsFor s q).bind (lockOwner s.sys)).isSome := by
    revert ls
    decide +kernel
  obtain ⟨s, hs, hq⟩ := (Option.any_eq_true _ _).mp hrun
  obtain ⟨p, q, hpq, hsome⟩ := of_decide_eq_true hq
  obtain ⟨r, hqr⟩ := Option.isSome_iff_exists.mp hsome
  exact ⟨s, hs, ⟨p, q, r, waits_of_bind hpq, waits_of_bind hqr⟩,
    no_deadlock sb0_wf (by decide) bareDisk_inv (fun _ => le_rfl) bareDisk_younger
      (Lts.Reach.of_run hs hok)⟩

/-- `link("x", ".")` finds the name `"."` in use, and `iput` of what it found asks for the lock of
the directory, which `link` holds. -/
def linkDot : List (SleepLabel (Fin 2)) :=
  steps 0 (.open (some ([120], O_CREATE))) 30 ++ steps 0 (.link (some ([120], DOT))) 29 ++
    [.sleep 0]

/-- `x` and `y` are links to one inode. When process 0 has unlocked the directory in `unlink("x")`,
process 1 locks it in `unlink("y")` and asks for the inode. -/
def unlinkTwice : List (SleepLabel (Fin 2)) :=
  steps 0 (.open (some ([120], O_CREATE))) 30 ++ steps 0 (.link (some ([120], [121]))) 41 ++
    steps 0 (.fork 1) 20 ++ steps 0 (.unlink (some [120])) 18 ++
    steps 1 (.unlink (some [121])) 12 ++ [.sleep 1, .sleep 0]

/-- When process 0 has unlocked the directory in `mkdir("z")`, process 1 locks it in `unlink("z")`
and asks for the new directory. -/
def mkdirUnlink : List (SleepLabel (Fin 2)) :=
  steps 0 (.fork 1) 20 ++ steps 0 (.mkdir (some [122])) 27 ++ steps 1 (.unlink (some [122])) 12 ++
    [.sleep 1, .sleep 0]

def Stuck (ls : List (SleepLabel (Fin 2))) : Prop :=
  ∃ s, Lts.run (sleepStep sb0 0) (bootSleepers bareDisk 0) ls = some s ∧
    Deadlocked (lockOwner s.sys) (sleepsFor s) 0

/-- **Deadlock.** `link` waits for itself, two calls of `unlink` for each other, and `mkdir` and
`unlink` for each other. -/
theorem deadlocks : Stuck linkDot ∧ Stuck unlinkTwice ∧ Stuck mkdirUnlink := by
  suffices h : ∀ ls ∈ [linkDot, unlinkTwice, mkdirUnlink], Stuck ls from
    ⟨h _ (by simp), h _ (by simp), h _ (by simp)⟩
  intro ls hls
  have hrun : (Lts.run (sleepStep sb0 0) (bootSleepers bareDisk 0) ls).any fun s =>
      ∃ q, (sleepsFor s 0).bind (lockOwner s.sys) = some q ∧
        (sleepsFor s q).bind (lockOwner s.sys) = some 0 := by
    revert ls
    decide +kernel
  obtain ⟨s, hs, hq⟩ := (Option.any_eq_true _ _).mp hrun
  obtain ⟨q, h0q, hq0⟩ := of_decide_eq_true hq
  exact ⟨s, hs, .tail (.single (waits_of_bind h0q)) (waits_of_bind hq0)⟩

end Xv6.Fs
