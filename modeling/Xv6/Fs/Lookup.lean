import Mathlib.Data.List.TakeWhile
import Xv6.Fs.Runs

/-!
# Looking up a file in the root directory

What the kernel does, with no other call in flight, when it looks up a path `"/name"` after boot.

1. A path of one element, and how its name is compared (`strncpy_eq_iff`).
2. `dirfind_eq`, `dirfind_none`: the loop of `dirlookup` returns on a directory whose size is a
   multiple of the size of an entry, and finds the only entry with the name.
3. `namei_found`, `namei_missing`: the walk of `namex`.
4. `readPath_run`: what `readi` returns for the inode found.
-/

namespace Xv6.Fs

open Function Conc StateExcept

/-! ## Names -/

structure IsName (name : Str) : Prop where
  nonempty : name ≠ []
  slash : SLASH ∉ name
  nul : 0 ∉ name
  dot : name ≠ DOT
  dotdot : name ≠ DOTDOT

theorem strncpy_eq_take (n : ℕ) {t : Str} (h : 0 ∉ t) :
    strncpy n t = t.take n ++ List.replicate (n - t.length) 0 := by
  induction n generalizing t with
  | zero => simp [strncpy]
  | succ n ih =>
    unfold strncpy
    cases t with
    | nil => simp
    | cons c t =>
      rw [List.mem_cons, not_or] at h
      rw [List.headD_cons, if_pos (Ne.symm h.1), List.tail_cons, ih h.2, List.take_succ_cons,
        List.length_cons, Nat.add_sub_add_right, List.cons_append]

theorem strncpy_eq_iff (n : ℕ) {s t : Str} (hs : 0 ∉ s) (ht : 0 ∉ t) :
    strncpy n s = strncpy n t ↔ s.take n = t.take n := by
  have hzero : ∀ {u : Str}, 0 ∉ u →
      (u.take n ++ List.replicate (n - u.length) 0).takeWhile (· ≠ 0) = u.take n := by
    intro u hu
    have hall : ∀ c ∈ u.take n, decide (c ≠ 0) = true := fun c hc =>
      decide_eq_true fun h0 => hu (h0 ▸ List.mem_of_mem_take hc)
    rw [List.takeWhile_append_of_pos hall]
    cases n - u.length with
    | zero => simp
    | succ k => simp [List.replicate_succ]
  rw [strncpy_eq_take n hs, strncpy_eq_take n ht]
  constructor
  · intro h
    rw [← hzero hs, h, hzero ht]
  · intro h
    have hlen := congrArg List.length h
    rw [List.length_take, List.length_take] at hlen
    rw [h, show n - s.length = n - t.length by omega]

theorem skipelem_name {name : Str} (h : IsName name) :
    skipelem (SLASH :: name) = some (name.take DIRSIZ, []) := by
  cases name with
  | nil => exact absurd rfl h.nonempty
  | cons c t =>
    have hslash := h.slash
    have hnul := h.nul
    rw [List.mem_cons, not_or] at hslash hnul
    have hall : ∀ x ∈ c :: t, (decide (x ≠ SLASH) && decide (x ≠ 0)) = true := by
      intro x hx
      have h1 : x ≠ SLASH := fun e => h.slash (e ▸ hx)
      have h2 : x ≠ 0 := fun e => h.nul (e ▸ hx)
      simp [h1, h2]
    have hdrop : (SLASH :: c :: t).dropWhile (· = SLASH) = c :: t := by
      rw [List.dropWhile_cons_of_pos (by simp), List.dropWhile_cons_of_neg]
      simpa using Ne.symm hslash.1
    unfold skipelem
    dsimp only
    rw [hdrop, List.headD_cons, if_neg (Ne.symm hnul.1), List.takeWhile_eq_self_iff.mpr hall,
      List.dropWhile_eq_nil_iff.mpr hall]
    rfl

/-! ## Directories -/

section Dirfind

variable (sb : Superblock) {v : Volume} {d : Dinode}

theorem scan_returns (err : Panic) (hit : ℕ → Str → Bool) (h : NoHole v.data d) {t : ℕ}
    (ht : d.size = DIRENTSZ * t) (hlt : d.size < 2 ^ 32) (fuel u : ℕ) :
    ∃ x, scan sb err hit fuel (DIRENTSZ * u) (d, v) = .ok (x, (d, v)) := by
  induction fuel generalizing u with
  | zero => exact ⟨_, rfl⟩
  | succ fuel ih =>
    unfold scan
    rw [get_bind]
    dsimp only
    by_cases hoff : DIRENTSZ * u < d.size
    swap
    · rw [if_neg hoff]
      exact ⟨_, rfl⟩
    have hu : u < t := by
      rw [ht] at hoff
      exact Nat.lt_of_mul_lt_mul_left hoff
    have hle : DIRENTSZ * u + DIRENTSZ ≤ d.size := by
      rw [ht, ← Nat.mul_succ]
      exact Nat.mul_le_mul_left _ hu
    have hread : readi sb (DIRENTSZ * u) DIRENTSZ (d, v) =
        .ok (some (direntAt v.data d (DIRENTSZ * u)), (d, v)) := by
      rw [readi_eq h, if_neg (by omega), Nat.min_eq_left (by omega)]
      rfl
    rw [if_pos hoff, bind_eq hread]
    dsimp only
    rw [if_pos (length_direntAt ..)]
    split
    · exact ⟨_, rfl⟩
    · exact ih (u + 1)

theorem dirfind_returns (h : NoHole v.data d) (htype : d.type = .dir) {t : ℕ}
    (ht : d.size = DIRENTSZ * t) (hlt : d.size < 2 ^ 32) (name : Str) :
    ∃ off x, dirfind sb name (d, v) = .ok (x.map fun i => (i, off), (d, v)) ∧
      ScanEnd v.data d (nameHit name) 0 off x := by
  obtain ⟨⟨off, x⟩, hscan⟩ := scan_returns sb .dirlookupRead (nameHit name) h ht hlt d.size 0
  have hdir : scanDir sb .dirlookupRead (nameHit name) 0 (d, v) = .ok ((off, x), (d, v)) := hscan
  refine ⟨off, x, ?_, (scanDir_ok h hdir).2⟩
  unfold dirfind
  rw [get_bind]
  dsimp only
  rw [if_pos htype]
  refine (bind_eq hdir).trans ?_
  cases x <;> rfl

theorem dirfind_eq (h : NoHole v.data d) (htype : d.type = .dir) {t w : ℕ}
    (ht : d.size = DIRENTSZ * t) (hlt : d.size < 2 ^ 32) {name : Str} (hw : w < t)
    (hhit : ∀ u < t, hitAt v.data d (nameHit name) (DIRENTSZ * u) = true ↔ u = w) :
    dirfind sb name (d, v) =
      .ok (some (deInum (direntAt v.data d (DIRENTSZ * w)), DIRENTSZ * w), (d, v)) := by
  obtain ⟨off, x, hfind, ⟨u, hu, hpassed⟩, hfound, hended⟩ :=
    dirfind_returns sb h htype ht hlt name
  rw [Nat.zero_add] at hu
  cases x with
  | none =>
    -- the loop has passed entry `w`
    have hle := hended rfl
    rw [ht, hu] at hle
    have htu : t ≤ u := Nat.le_of_mul_le_mul_left hle (by decide)
    have hmiss := (hpassed w (by omega)).2
    rw [Nat.zero_add, (hhit w hw).mpr rfl] at hmiss
    cases hmiss
  | some i =>
    obtain ⟨hin, hhere, hi⟩ := hfound i rfl
    rw [ht, hu, ← Nat.mul_succ] at hin
    have hut : u < t := Nat.le_of_mul_le_mul_left hin (by decide)
    rw [hu] at hhere
    obtain rfl := (hhit u hut).mp hhere
    rw [hfind, hi, hu]
    rfl

theorem dirfind_none (h : NoHole v.data d) (htype : d.type = .dir) {t : ℕ}
    (ht : d.size = DIRENTSZ * t) (hlt : d.size < 2 ^ 32) {name : Str}
    (hhit : ∀ u < t, hitAt v.data d (nameHit name) (DIRENTSZ * u) = false) :
    dirfind sb name (d, v) = .ok (none, (d, v)) := by
  obtain ⟨off, x, hfind, ⟨u, hu, -⟩, hfound, -⟩ := dirfind_returns sb h htype ht hlt name
  rw [Nat.zero_add] at hu
  cases x with
  | none => exact hfind
  | some i =>
    obtain ⟨hin, hhere, -⟩ := hfound i rfl
    rw [ht, hu, ← Nat.mul_succ] at hin
    have hut : u < t := Nat.le_of_mul_le_mul_left hin (by decide)
    rw [hu, hhit u hut] at hhere
    cases hhere

end Dirfind

/-! ## Cache entries -/

section Cache

variable {P : Type} {p : P} {s : Kernel P} {k : ℕ}

theorem ilock_run (href : 1 ≤ (s.icache k).ref) (hlock : (s.icache k).lock = none)
    (hvalid : (s.icache k).valid = true → (s.icache k).d = s.vol.dinode (s.icache k).inum)
    (ht : (s.vol.dinode (s.icache k).inum).type ≠ .free) :
    (ilock k).run arbiter p s = .ok ((), s.setInode k { s.icache k with
      lock := some p, valid := true, d := s.vol.dinode (s.icache k).inum }) := by
  have hcheck : (fun s : Kernel P => if (s.icache k).ref < 1 then Except.error Panic.ilock
      else .ok ((), s)) s = .ok ((), s) := if_neg (by omega)
  have hready : arbiter.ready p (.inode .ilock k) s = true := by
    show (s.icache k).lock.isNone = true
    rw [hlock]
    rfl
  unfold ilock
  rw [Prog.run_bind_ok (Prog.run_lift_ok hcheck), Prog.run_bind_ok (Prog.run_request_ok hready)]
  refine Prog.run_lift_ok ?_
  show iload k (s.setInode k { s.icache k with lock := some p }) = _
  unfold iload
  simp only [setInode_icache, update_self, setInode_vol, if_neg ht]
  unfold Kernel.setInode
  by_cases hv : (s.icache k).valid = true
  · rw [if_pos hv, ← hvalid hv, ← hv]
  · rw [if_neg hv]
    simp only [update_idem]

theorem iput_run (sb : Superblock) (hlock : (s.icache k).lock = none)
    (hkeep : (s.icache k).valid = true → (s.icache k).d.nlink = 0 → (s.icache k).ref ≠ 1) :
    (iput sb k).run arbiter p s =
      .ok ((), s.setInode k { s.icache k with ref := (s.icache k).ref - 1 }) := by
  have hready : arbiter.ready p (.inode .iput k) s = true := by
    show (s.icache k).lock.isNone = true
    rw [hlock]
    rfl
  obtain ⟨s₁, hs1⟩ : ∃ s₁, s₁ = s.setInode k { s.icache k with lock := some p } := ⟨_, rfl⟩
  have hgrant : arbiter.grant p (.inode .iput k) s = s₁ := hs1.symm
  have htest : iputTest k s₁ = .ok (false, s₁) := by
    unfold iputTest
    rw [hs1]
    simpa using hkeep
  have hentry : s₁.icache k = { s.icache k with lock := some p } := by
    rw [hs1]
    exact update_self ..
  unfold iput iputFrom iputLocked
  rw [Prog.run_bind_ok (Prog.run_request_ok hready), hgrant,
    Prog.run_bind_ok (Prog.run_lift_ok htest)]
  dsimp only
  rw [if_neg Bool.false_ne_true, Prog.run_bind_ok (Prog.run_lift_ok rfl)]
  refine (Prog.run_lift_ok rfl).trans ?_
  rw [hentry, hs1]
  unfold Kernel.setInode
  simp only [update_self, update_idem, hlock]

variable [DecidableEq P]

theorem iunlock_run (href : 1 ≤ (s.icache k).ref) (hlock : (s.icache k).lock = some p) :
    (iunlock p k).run arbiter p s =
      .ok ((), s.setInode k { s.icache k with lock := none }) := by
  refine Prog.run_lift_ok (if_neg ?_)
  rw [hlock, not_or]
  exact ⟨not_not.mpr rfl, by omega⟩

theorem iunlockput_run (sb : Superblock) (href : 1 ≤ (s.icache k).ref)
    (hlock : (s.icache k).lock = some p)
    (hkeep : (s.icache k).valid = true → (s.icache k).d.nlink = 0 → (s.icache k).ref ≠ 1) :
    (iunlockput sb p k).run arbiter p s = .ok ((), s.setInode k { s.icache k with
      lock := none, ref := (s.icache k).ref - 1 }) := by
  have hentry : (s.setInode k { s.icache k with lock := none }).icache k =
      { s.icache k with lock := none } := update_self ..
  unfold iunlockput
  rw [Prog.run_bind_ok (iunlock_run href hlock),
    iput_run sb (by rw [hentry]) (by rw [hentry]; exact hkeep), hentry]
  unfold Kernel.setInode
  simp only [update_idem]

omit [DecidableEq P] in
theorem iget_second {dev inum : ℕ} (h0 : 0 < (s.icache 0).ref) (hne : (s.icache 0).inum ≠ inum)
    (hfree : ∀ k, 0 < k → (s.icache k).ref = 0) :
    iget dev inum s = .ok (1, s.setInode 1
      { s.icache 1 with dev := dev, inum := inum, ref := 1, valid := false }) := by
  have hnone : (List.range NINODE).find? (fun k =>
      0 < (s.icache k).ref && (s.icache k).dev = dev && (s.icache k).inum = inum) = none := by
    rw [List.find?_eq_none]
    intro k _
    cases k with
    | zero => simp [hne]
    | succ k => simp [hfree (k + 1) (by omega)]
  have hsome : (List.range NINODE).find? (fun k => (s.icache k).ref = 0) = some 1 := by
    have hrange : List.range NINODE = 0 :: 1 :: List.range' 2 48 := rfl
    rw [hrange, List.find?_cons_of_neg (by simpa using h0.ne'),
      List.find?_cons_of_pos (by simp [hfree 1 (by omega)])]
  unfold iget
  rw [hnone, hsome]

end Cache

/-! ## Paths -/

section Namei

variable {P : Type} {sb : Superblock} {s : Kernel P} {k : ℕ}

theorem onInode_same {α : Type} {m : InodeM α} {a : α}
    (h : m ((s.icache k).d, s.vol) = .ok (a, ((s.icache k).d, s.vol))) :
    onInode k m s = .ok (a, s) := by
  unfold onInode
  rw [h]
  unfold Kernel.setInode
  simp only [update_eq_self]

theorem dirlookup_found {name : Str} {i off ip : ℕ} {s' : Kernel P}
    (h : dirfind sb name ((s.icache k).d, s.vol) = .ok (some (i, off), ((s.icache k).d, s.vol)))
    (hget : iget (s.icache k).dev i s = .ok (ip, s')) :
    dirlookup sb k name s = .ok (some (ip, off), s') := by
  unfold dirlookup
  rw [bind_eq (onInode_same h)]
  dsimp only
  rw [get_bind, bind_eq hget]
  rfl

theorem dirlookup_missing {name : Str}
    (h : dirfind sb name ((s.icache k).d, s.vol) = .ok (none, ((s.icache k).d, s.vol))) :
    dirlookup sb k name s = .ok (none, s) := by
  unfold dirlookup
  rw [bind_eq (onInode_same h)]
  rfl

variable {p : P}

def Kernel.locked (s : Kernel P) (p : P) (k : ℕ) : Kernel P :=
  s.setInode k { s.icache k with
    lock := some p, valid := true, d := s.vol.dinode (s.icache k).inum }

def Kernel.dropped (s : Kernel P) (k : ℕ) : Kernel P :=
  s.setInode k { s.icache k with lock := none, ref := (s.icache k).ref - 1 }

structure Fresh (s : Kernel P) (k : ℕ) : Prop where
  ref : 1 ≤ (s.icache k).ref
  lock : (s.icache k).lock = none
  valid : (s.icache k).valid = false
  type : (s.vol.dinode (s.icache k).inum).type ≠ .free

theorem Fresh.coherent (h : Fresh s k) (hv : (s.icache k).valid = true) :
    (s.icache k).d = s.vol.dinode (s.icache k).inum := by
  rw [h.valid] at hv
  cases hv

variable [DecidableEq P] {path rest elem : Str} {s₁ : Kernel P}

theorem namexLoop_dir (fuel : ℕ) (nm : Str) (hskip : skipelem path = some (elem, rest))
    (hk : Fresh s k) (hdir : (s.vol.dinode (s.icache k).inum).type = .dir) {r : Option (ℕ × ℕ)}
    (hlook : dirlookup sb k elem (s.locked p k) = .ok (r, s₁)) (href : 1 ≤ (s₁.icache k).ref)
    (hlock : (s₁.icache k).lock = some p) (hlink : (s₁.icache k).d.nlink ≠ 0) :
    (namexLoop sb p false (fuel + 1) k path nm).run arbiter p s =
      match r with
      | none => .ok (none, s₁.dropped k)
      | some (next, _) => (namexLoop sb p false fuel next rest elem).run arbiter p
          (s₁.dropped k) := by
  have htype : ((s.locked p k).icache k).d.type = .dir := by
    unfold Kernel.locked
    rw [setInode_icache, update_self]
    exact hdir
  have htypeOf : (typeOf k).run arbiter p (s.locked p k) = .ok (.dir, s.locked p k) := by
    refine Prog.run_lift_ok ?_
    rw [htype]
  conv_lhs => unfold namexLoop
  rw [hskip]
  dsimp only
  rw [Prog.run_bind_ok (ilock_run hk.ref hk.lock hk.coherent hk.type)]
  refine (Prog.run_bind_ok htypeOf).trans ?_
  rw [if_neg (not_not.mpr rfl), if_neg (fun h => Bool.false_ne_true h.1),
    Prog.run_bind_ok (Prog.run_lift_ok hlook)]
  cases r with
  | none =>
    dsimp only
    rw [Prog.run_bind_ok (iunlockput_run sb href hlock fun _ h0 => absurd h0 hlink)]
    rfl
  | some x =>
    dsimp only
    rw [Prog.run_bind_ok (iunlockput_run sb href hlock fun _ h0 => absurd h0 hlink)]
    rfl

variable {v : Volume} {init : P} {name : Str}

def rooted (v : Volume) (init : P) : Kernel P :=
  (boot v init).setInode 0 { rootEntry with ref := 2 }

theorem iget_rooted : iget ROOTDEV ROOTINO (boot v init) = .ok (0, rooted v init) := rfl

theorem namei_start {r : Option (ℕ × Str)} {s' : Kernel P}
    (h : (namexLoop sb p false (name.length + 2) 0 (SLASH :: name) []).run arbiter p
      (rooted v init) = .ok (r, s')) :
    (namei sb p (SLASH :: name)).run arbiter p (boot v init) = .ok (r.map Prod.fst, s') := by
  have hget : (act (if (SLASH :: name).headD 0 = SLASH then iget ROOTDEV ROOTINO else idupCwd p) :
      Task P ℕ).run arbiter p (boot v init) = .ok (0, rooted v init) := by
    rw [List.headD_cons, if_pos rfl]
    exact Prog.run_lift_ok iget_rooted
  have hnamex : (namex sb p (SLASH :: name) false).run arbiter p (boot v init) = .ok (r, s') := by
    unfold namex
    rw [Prog.run_bind_ok hget]
    exact h
  unfold namei
  rw [Prog.run_bind_ok hnamex]
  rfl

section Root

variable (hname : IsName name) (hdir : (v.dinode ROOTINO).type = .dir)
  (hlink : (v.dinode ROOTINO).nlink ≠ 0)

include hdir in
theorem rooted_fresh : Fresh (rooted v init) 0 := by
  refine ⟨Nat.le_succ 1, rfl, rfl, ?_⟩
  show (v.dinode ROOTINO).type ≠ .free
  rw [hdir]
  decide

theorem rooted_free (hk : 0 < k) : ((rooted v init).locked p 0).icache k = unusedEntry := by
  unfold Kernel.locked rooted
  rw [setInode_icache, update_of_ne hk.ne', setInode_icache, update_of_ne hk.ne']
  exact if_neg hk.ne'

include hname hdir hlink in
/-- **A file is found.** The root directory has an entry with the name. -/
theorem namei_found {i off : ℕ} (hi : i ≠ ROOTINO)
    (hfind : dirfind sb (name.take DIRSIZ) (v.dinode ROOTINO, (boot v init).vol) =
      .ok (some (i, off), (v.dinode ROOTINO, (boot v init).vol))) :
    ∃ s', (namei sb p (SLASH :: name)).run arbiter p (boot v init) = .ok (some 1, s') ∧
      s'.vol = (boot v init).vol ∧ s'.icache 1 = ⟨ROOTDEV, i, 1, none, false, Dinode.zero⟩ := by
  have hget : iget ROOTDEV i ((rooted v init).locked p 0) =
      .ok (1, ((rooted v init).locked p 0).setInode 1
        ⟨ROOTDEV, i, 1, none, false, Dinode.zero⟩) := by
    refine iget_second Nat.two_pos (Ne.symm hi) fun k hk => ?_
    rw [rooted_free hk]
    rfl
  have hrun := namexLoop_dir (name.length + 1) [] (skipelem_name hname)
    (rooted_fresh hdir) hdir (dirlookup_found hfind hget) one_le_two rfl hlink
  refine ⟨_, namei_start (hrun.trans rfl), rfl, rfl⟩

include hname hdir hlink in
/-- **A file is missing.** The root directory has no entry with the name. -/
theorem namei_missing
    (hfind : dirfind sb (name.take DIRSIZ) (v.dinode ROOTINO, (boot v init).vol) =
      .ok (none, (v.dinode ROOTINO, (boot v init).vol))) :
    ∃ s', (namei sb p (SLASH :: name)).run arbiter p (boot v init) = .ok (none, s') := by
  have hlook : dirlookup sb 0 (name.take DIRSIZ) ((rooted v init).locked p 0) =
      .ok (none, (rooted v init).locked p 0) := dirlookup_missing hfind
  have hrun := namexLoop_dir (name.length + 1) [] (skipelem_name hname) (rooted_fresh hdir) hdir
    hlook one_le_two rfl hlink
  exact ⟨_, namei_start hrun⟩

end Root

/-! ## Reading a file -/

def readPath (sb : Superblock) (p : P) (path : Str) :
    Task P (Option (ℕ × Option (List UInt8))) := do
  match ← namei sb p path with
  | none => return none
  | some k => do
    ilock k
    let size ← act fun s => .ok ((s.icache k).d.size, s)
    let bytes ← act (onInode k (readi sb 0 size))
    return some (size, bytes)

theorem readPath_run {path : Str} {s' : Kernel P}
    (h : (namei sb p path).run arbiter p s = .ok (some k, s')) (hk : Fresh s' k) {d : Dinode}
    (hd : s'.vol.dinode (s'.icache k).inum = d) (hno : NoHole s'.vol.data d)
    (hlt : d.size < 2 ^ 32) :
    ∃ s'', (readPath sb p path).run arbiter p s =
      .ok (some (d.size, some ((List.range d.size).map (byteAt s'.vol.data d))), s'') := by
  have hentry : ((s'.locked p k).icache k).d = d := by
    unfold Kernel.locked
    rw [setInode_icache, update_self]
    exact hd
  have hsize : (act (fun s => .ok ((s.icache k).d.size, s)) : Task P ℕ).run arbiter p
      (s'.locked p k) = .ok (d.size, s'.locked p k) := by
    refine Prog.run_lift_ok ?_
    rw [hentry]
  have hread : readi sb 0 d.size (((s'.locked p k).icache k).d, (s'.locked p k).vol) =
      .ok (some ((List.range d.size).map (byteAt s'.vol.data d)),
        (((s'.locked p k).icache k).d, (s'.locked p k).vol)) := by
    have hvol : (s'.locked p k).vol = s'.vol := rfl
    rw [hentry, hvol, readi_eq hno, if_neg (by omega), Nat.sub_zero, Nat.min_self]
    simp only [Nat.zero_add]
  refine ⟨s'.locked p k, ?_⟩
  unfold readPath
  rw [Prog.run_bind_ok h]
  dsimp only
  rw [Prog.run_bind_ok (ilock_run hk.ref hk.lock hk.coherent hk.type)]
  refine (Prog.run_bind_ok hsize).trans ?_
  rw [Prog.run_bind_ok (Prog.run_lift_ok (onInode_same hread))]
  rfl

end Namei

end Xv6.Fs
