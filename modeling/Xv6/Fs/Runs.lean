import Xv6.Fs.Calls

/-!
# Runs of the system

`boot v init` is the state in which the first process starts on the disk `v`. Two transition systems
start there: `callStep` runs system calls one after the other, each to its end, and `sysStep`
interleaves the steps of the calls in flight. Both keep the invariant of the running system, with
every process between calls idle. `bareDisk` is a disk to start from.
-/

namespace Xv6.Fs

open Conc Finset

variable {P : Type} [DecidableEq P]

/-! ## The first state -/

def rootEntry : Inode P := ⟨ROOTDEV, ROOTINO, 1, none, false, Dinode.zero⟩

def unusedEntry : Inode P := ⟨0, 0, 0, none, false, Dinode.zero⟩

/-- The state after boot on the disk `v`: the log is empty, and `init` runs in the root directory,
which has the first entry of the cache. -/
def boot (v : Volume) (init : P) : Kernel P where
  vol := { v with lh := [], outstanding := 0 }
  icache k := if k = 0 then rootEntry else unusedEntry
  ftable _ := ⟨.none, 0, false, false, none, 0⟩
  proc p := ⟨if p = init then .running else .unused, fun _ => none,
    if p = init then some 0 else none, false⟩

section Boot

variable {v : Volume} {init : P}

theorem boot_entry_ref (k : ℕ) : ((boot v init).icache k).ref = if k = 0 then 1 else 0 := by
  unfold boot
  dsimp only
  split <;> rfl

theorem boot_entry {k : ℕ} (h : 0 < ((boot v init).icache k).ref) :
    k = 0 ∧ (boot v init).icache k = rootEntry := by
  rw [boot_entry_ref] at h
  split at h
  next hk => exact ⟨hk, if_pos hk⟩
  next => omega

theorem boot_lock (k : ℕ) : ((boot v init).icache k).lock = none := by
  unfold boot
  dsimp only
  split <;> rfl

theorem boot_cwd {p : P} {k : ℕ} (h : ((boot v init).proc p).cwd = some k) : p = init ∧ k = 0 := by
  unfold boot at h
  dsimp only at h
  split at h
  next hp => exact ⟨hp, (Option.some.inj h).symm⟩
  next => cases h

theorem boot_refCount [Fintype P] (k : ℕ) :
    refCount (boot v init) (fun _ => Ghost.idle) k = if k = 0 then 1 else 0 := by
  have hfile : ∀ f ∈ range NFILE, fileRef ((boot v init).ftable f) k = 0 := fun f _ =>
    if_neg fun h => by cases h.1
  have hproc : ∀ p : P, procRef ((boot v init).proc p) (Ghost.idle : Ghost P) k =
      if p = init then (if k = 0 then 1 else 0) else 0 := by
    intro p
    unfold procRef cwdRef boot Ghost.idle
    dsimp only
    by_cases hp : p = init
    · by_cases hk : k = 0
      · simp [hp, hk]
      · simp [hp, hk, Ne.symm hk]
    · simp [hp]
  unfold refCount
  rw [sum_eq_zero hfile, Nat.zero_add, sum_congr rfl fun p _ => hproc p]
  rw [sum_ite_eq' univ init fun _ => if k = 0 then 1 else 0, if_pos (mem_univ init)]

theorem boot_fileCount [Fintype P] (f : ℕ) :
    fileCount (boot v init) (fun _ => Ghost.idle) f = 0 := by
  refine sum_eq_zero fun p _ => ?_
  unfold fdCount fdRef boot Ghost.idle
  simp

theorem boot_inv [Fintype P] {sb : Superblock} {K : Set ℕ} {V A B : Prop} {w : Births} (hBV : B → V)
    (hv : V → VolInv sb K v v.dinode) (hroot : A → (v.dinode ROOTINO).type ≠ .free)
    (hclock : B → ∀ i, w.born i ≤ w.clock) (hyoung : B → Younger v w) :
    GInv sb K V A B (boot v init) w fun _ => Ghost.idle where
  bv := hBV
  vol hV := ⟨(hv hV).owns, (hv hV).low, (hv hV).noHole⟩
  count k := by rw [boot_entry_ref, boot_refCount]
  bound k hk := by
    rw [(boot_entry hk).1]
    decide
  dev k hk := by rw [(boot_entry hk).2]; rfl
  uniq k l hk hl _ := by rw [(boot_entry hk).1, (boot_entry hl).1]
  coh k hk hvalid := by
    rw [(boot_entry hk).2] at hvalid
    cases hvalid
  lock k p hl := by
    rw [boot_lock] at hl
    cases hl
  fcount f := (boot_fileCount f).symm
  fbound f hf := absurd hf (lt_irrefl 0)
  fnone f _ := rfl
  unused p hp := by
    refine ⟨fun _ => rfl, ?_⟩
    unfold boot at hp ⊢
    dsimp only at hp ⊢
    split at hp
    · cases hp
    next hne => exact if_neg hne
  obound p fd _ := rfl
  oneParent p p' q x y hx := by cases hx
  file f k ht := by cases ht
  cwd hA p k hc _ := by
    rw [(boot_cwd hc).2]
    exact hroot hA
  alone p k hf := by cases hf
  small _ k hk := by
    rw [(boot_entry hk).2]
    exact (by decide : ROOTINO < 2 ^ 16)
  clock := hclock
  younger hB := hyoung hB
  loc p := Local.idle rfl

end Boot

/-! ## Runs -/

/-- A running process makes a system call, and no other call is in flight. A call that panics or
waits for ever is not enabled. -/
def callStep (sb : Superblock) (init : P) (s : Kernel P) (l : P × Call P) : Option (Kernel P) :=
  if (s.proc l.1).state = .running then
    match (l.2.task sb init l.1).run arbiter l.1 s with
    | .ok (_, s') => some s'
    | .error _ => none
  else none

theorem callStep_eq_some {sb : Superblock} {init : P} {s s' : Kernel P} {l : P × Call P} :
    callStep sb init s l = some s' ↔ (s.proc l.1).state = .running ∧
      ∃ r, (l.2.task sb init l.1).run arbiter l.1 s = .ok (r, s') := by
  unfold callStep
  constructor
  · intro h
    split at h
    next hrun =>
      split at h
      next r t ht =>
        cases h
        exact ⟨hrun, r, ht⟩
      next => cases h
    next => cases h
  · rintro ⟨hrun, r, hr⟩
    rw [if_pos hrun, hr]

abbrev System (P : Type) := Sys P (Kernel P) Panic Request Ret

def sysStep (sb : Superblock) (init : P) : System P → Label P (Call P) → Option (System P) :=
  Conc.step arbiter (fun p c => c.task sb init p) fun s p => (s.proc p).state = .running

def bootSystem (v : Volume) (init : P) : System P := ⟨boot v init, fun _ => none⟩

section Runs

variable [Fintype P] {sb : Superblock} {K : Set ℕ} {V A B : Prop} {w : Births} {init : P}

omit [DecidableEq P] [Fintype P] in
theorem Local.start {s : Kernel P} {p : P} (h : Local B s w p Ghost.idle)
    (hrun : (s.proc p).state = .running) : Local B s w p Ghost.start :=
  { h with
    wf := wf_free rfl rfl rfl rfl
    run := fun _ => hrun }

theorem GInv.start_call {s : Kernel P} {γ : P → Ghost P} {p : P} (hI : GInv sb K V A B s w γ)
    (hrun : (s.proc p).state = .running) (hg : γ p = Ghost.idle) :
    GInv sb K V A B s w (Function.update γ p Ghost.start) := by
  have hl := hI.loc p
  rw [hg] at hl
  exact hI.learn hg rfl rfl rfl rfl (fun _ => rfl) (hl.start hrun)

abbrev SystemInv (sb : Superblock) (K : Set ℕ) (V A B : Prop) (s : System P) : Prop :=
  SysInv arbiter (GInv sb K V A B) (Owes B) Enters (Kept V) (fun _ => Ghost.idle) s

theorem SystemInv.step {s s' : System P} {l : Label P (Call P)} (hsb : V → sb.WF)
    (hino : B → sb.ninodes ≤ 2 ^ 16) (hplain : B → ∀ p c, l = .call p c → c.Plain)
    (h : SystemInv sb K V A B s) (hs : sysStep sb init s l = some s') : SystemInv sb K V A B s' :=
  SysInv.step (fun _ => Ghost.start) hs
    (fun _ _ _ _ hlive hg hI => hI.start_call (by simpa using hlive) hg)
    (fun p c hl => Call.spec hsb hino init p c fun hB => hplain hB p c hl) h

theorem sysReach_inv {ok : System P → Label P (Call P) → Prop} {s0 s : System P} (hsb : V → sb.WF)
    (h0 : SystemInv sb K V A False s0) (h : Lts.Reach (sysStep sb init) ok s0 s) :
    SystemInv sb K V A False s :=
  h.invariant h0 fun _ _ _ hI _ hs => SystemInv.step hsb False.elim False.elim hI hs

theorem bootSystem_inv {v : Volume} (hBV : B → V) (hv : V → VolInv sb K v v.dinode)
    (hroot : A → (v.dinode ROOTINO).type ≠ .free) (hclock : B → ∀ i, w.born i ≤ w.clock)
    (hyoung : B → Younger v w) : SystemInv sb K V A B (bootSystem v init) :=
  ⟨w, fun _ => Ghost.idle, boot_inv hBV hv hroot hclock hyoung, fun _ => rfl⟩

theorem SystemInv.quiet {s : System P} (h : SystemInv sb K V A B s) (hq : ∀ p, s.th p = none) :
    ∃ w, GInv sb K V A B s.st w fun _ => Ghost.idle := by
  obtain ⟨w, γ, hI, hth⟩ := h
  have hidle : γ = fun _ => Ghost.idle := by
    funext p
    have hp := hth p
    rw [hq p] at hp
    exact hp
  exact ⟨w, hidle ▸ hI⟩

omit [Fintype P] in
theorem sysReach_of_callReach {ok : Kernel P → P × Call P → Prop} {s0 s : Kernel P}
    (h : Lts.Reach (callStep sb init) ok s0 s) :
    Lts.Reach (sysStep sb init) (fun _ _ => True) ⟨s0, fun _ => none⟩ ⟨s, fun _ => none⟩ := by
  induction h with
  | refl => exact .refl
  | tail _ _ hs ih =>
    obtain ⟨hrun, r, hr⟩ := callStep_eq_some.mp hs
    exact ih.trans (reach_of_call rfl (decide_eq_true hrun) hr)

theorem callReach_inv {ok : Kernel P → P × Call P → Prop} {s0 s : Kernel P} (hsb : V → sb.WF)
    (h0 : SystemInv sb K V A False ⟨s0, fun _ => none⟩)
    (h : Lts.Reach (callStep sb init) ok s0 s) : ∃ w, GInv sb K V A False s w fun _ => Ghost.idle :=
  (sysReach_inv hsb h0 (sysReach_of_callReach h)).quiet fun _ => rfl

end Runs

/-! ## A small disk -/

def sb0 : Superblock := ⟨1000, 941, 200, 30, 2, 32, 58⟩

def bareRoot : Dinode :=
  { Dinode.zero with
    type := .dir
    nlink := 1
    size := BSIZE
    addrs := fun k => if k = 0 then 59 else 0 }

def bareDisk : Volume where
  bitmap b := b < 60
  dinode i := if i = ROOTINO then bareRoot else Dinode.zero
  data b := if b = 59 then fun i => (direntBytes ROOTINO DOT ++ direntBytes ROOTINO DOTDOT).getD i 0
    else Block.zero
  lh := []
  outstanding := 0

theorem sb0_wf : sb0.WF := ⟨by decide, by norm_num [sb0]⟩

theorem bareRoot_blockAt (data : ℕ → Block) (k : ℕ) :
    blockAt data bareRoot k = if k = 0 then 59 else 0 := by
  unfold blockAt
  split
  · rfl
  next hk =>
    have hind : bareRoot.addrs NDIRECT = 0 := rfl
    rw [if_pos hind, if_neg (by omega)]

theorem bareDisk_type {i : ℕ} (h : (bareDisk.dinode i).type ≠ .free) : i = ROOTINO := by
  by_contra hi
  exact h (by simp [bareDisk, hi, Dinode.zero])

theorem bareDisk_block {i k : ℕ} (ht : (bareDisk.dinode i).type ≠ .free)
    (h0 : blockAt bareDisk.data (bareDisk.dinode i) k ≠ 0) :
    i = ROOTINO ∧ k = 0 ∧ blockAt bareDisk.data (bareDisk.dinode i) k = 59 := by
  obtain rfl := bareDisk_type ht
  have hroot : bareDisk.dinode ROOTINO = bareRoot := rfl
  rw [hroot, bareRoot_blockAt] at h0 ⊢
  split at h0
  next hk => exact ⟨rfl, hk, if_pos hk⟩
  next => exact absurd rfl h0

theorem bareDisk_noHole (i : ℕ) : NoHole bareDisk.data (bareDisk.dinode i) := by
  intro n hn
  by_cases hi : i = ROOTINO
  · subst hi
    have hlt : n * 512 < 512 := hn
    obtain rfl : n = 0 := by omega
    exact ⟨by decide, by decide⟩
  · simp [bareDisk, hi, Dinode.zero] at hn

theorem bareDisk_inv : VolInv sb0 (dataArea sb0) bareDisk bareDisk.dinode where
  owns := by
    refine ⟨?_, ?_, fun {b} hb hu => ?_⟩
    · rintro ⟨i, k⟩ b hx
      obtain ⟨ht, -, rfl, h0⟩ := ownMap_eq_some.mp hx
      rw [(bareDisk_block ht h0).2.2]
      exact ⟨⟨by decide, by decide⟩, by decide⟩
    · rintro ⟨i, k⟩ ⟨j, l⟩ b hx hy
      obtain ⟨ht, -, rfl, h0⟩ := ownMap_eq_some.mp hx
      obtain ⟨ht', -, hb, -⟩ := ownMap_eq_some.mp hy
      obtain ⟨rfl, rfl, -⟩ := bareDisk_block ht h0
      obtain ⟨rfl, rfl, -⟩ := bareDisk_block ht' (hb ▸ h0)
      rfl
    · have h1 : 59 ≤ b := hb.1
      have h2 : b < 60 := of_decide_eq_true hu
      obtain rfl : b = 59 := by omega
      exact ⟨(ROOTINO, 0), rfl⟩
  low b hb := by
    have hlt : b < 59 := hb
    exact decide_eq_true (by omega)
  noHole i _ := bareDisk_noHole i

theorem bareDisk_younger : Younger bareDisk ⟨fun _ => 0, 0⟩ := by
  intro i hi off hdvd hoff hne hdots
  obtain rfl : i = ROOTINO := bareDisk_type (by rw [hi]; decide)
  obtain ⟨m, rfl⟩ := hdvd
  have hall : ∀ m < 32, deInum (direntAt bareDisk.data bareRoot (16 * m)) ≠ 0 →
      namecmp (deName (direntAt bareDisk.data bareRoot (16 * m))) DOT = 0 ∨
        namecmp (deName (direntAt bareDisk.data bareRoot (16 * m))) DOTDOT = 0 := by
    decide +kernel
  have hlt : 16 * m + 16 ≤ 512 := hoff
  exact absurd (hall m (by omega) hne) hdots

end Xv6.Fs
