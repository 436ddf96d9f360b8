import Xv6.Fs.Sysfile
import Xv6.Fs.Dir
import Xv6.Lib.Account

/-!
# The invariant of the running system

What the processes inside system calls hold is recorded as ghost state, one `Ghost` per process: the
references to cache entries and files in its local variables, the sleep locks, and what it has
learnt about them. `GInv` ties the ghosts to the kernel state.

1. Reference counts: `ref` of a cache entry is the number of open files, current directories and
   local variables that refer to it, `ref` of a file the number of descriptors and local variables.
2. Each inode is in one entry, whose copy of the inode has the type of the inode on disk, and a
   lock's holder knows that it holds it.
3. An inode that is referred to, once its type has been seen, stays allocated with that type; the
   process that has found itself to be the last user of an unlinked inode is alone with it.
4. `V`: the blocks are consistent (`VolInv`), with none of the set `K` lost, and the copy of an
   inode in the cache is the inode.
5. `A`: current directories are allocated.
6. `B`, which needs `V`: an entry of one directory for another, other than `"."` and `".."`, leads
   to an inode that was allocated later.

`V`, `A` and `B` are parameters because the last three parts need more of the initial disk than the
others, which hold for any disk.
`Kept` is what every step guarantees to the users of an inode.
-/

namespace Xv6.Fs

open Finset Account

/-! ## Ghosts -/

/-- A reference to a cache entry in a local variable, with the inode's number and, once it has been
seen, its type. -/
structure Ref where
  slot : ℕ
  inum : ℕ
  type : Option FType

structure Via where
  fd : ℕ
  f : ℕ
  ip : Option ℕ
  writable : Bool

/-- What a process inside a system call holds and knows. -/
structure Ghost (P : Type) where
  /-- Is it in a call? -/
  run : Bool
  refs : List Ref
  /-- The locked entries; `true` once `ilock` has seen them valid. -/
  locks : List (ℕ × Bool)
  /-- Pairs of inode numbers, the second younger than the first if it is a directory. -/
  edges : List (ℕ × ℕ)
  /-- The entry it is about to free. -/
  freeing : Option ℕ
  /-- It has given up the reference of its current directory. -/
  left : Bool
  /-- References to files in local variables. -/
  files : List ℕ
  /-- A descriptor that does not count as a reference, with its file. -/
  fdOut : Option (ℕ × ℕ)
  via : Option Via
  /-- Files it has allocated that have no type yet. -/
  fresh : List ℕ
  /-- The child it is building, the descriptors already copied, and whether `cwd` is. -/
  child : Option (P × List ℕ × Bool)
  /-- Descriptors it has closed for good. -/
  shut : List ℕ
  noCwd : Bool

variable {P : Type}

def Ghost.idle : Ghost P := ⟨false, [], [], [], none, false, [], none, none, [], none, [], false⟩

def Ghost.start : Ghost P := { Ghost.idle with run := true }

/-- The age of inodes: when each was last allocated. -/
structure Births where
  born : ℕ → ℕ
  clock : ℕ

/-! ## Counting references -/

def fileRef (fl : File) (k : ℕ) : ℕ := if fl.type = .inode ∧ fl.ip = some k then 1 else 0

def cwdRef (pr : Proc) (k : ℕ) : ℕ := if pr.cwd = some k ∧ pr.leaving = false then 1 else 0

def procRef (pr : Proc) (g : Ghost P) (k : ℕ) : ℕ := cwdRef pr k + (g.refs.map Ref.slot).count k

def refCount [Fintype P] (s : Kernel P) (γ : P → Ghost P) (k : ℕ) : ℕ :=
  ∑ f ∈ range NFILE, fileRef (s.ftable f) k + ∑ p, procRef (s.proc p) (γ p) k

def fdRef (pr : Proc) (out : Option ℕ) (f : ℕ) : ℕ :=
  #{fd ∈ range NOFILE | pr.ofile fd = some f ∧ out ≠ some fd}

def fdCount (pr : Proc) (g : Ghost P) (f : ℕ) : ℕ :=
  fdRef pr (g.fdOut.map Prod.fst) f + g.files.count f

def fileCount [Fintype P] (s : Kernel P) (γ : P → Ghost P) (f : ℕ) : ℕ :=
  ∑ p, fdCount (s.proc p) (γ p) f

/-! ## The invariant -/

/-- The process keeps entry `k` alive: by a reference of its own, or by an open file. -/
def Stake (g : Ghost P) (k : ℕ) : Prop :=
  (∃ r ∈ g.refs, r.slot = k) ∨ ∃ x, g.via = some x ∧ x.ip = some k

def isDots (name : Str) : Prop := namecmp name DOT = 0 ∨ namecmp name DOTDOT = 0

structure Ghost.WF (g : Ghost P) : Prop where
  quiet : g.run = false → g = Ghost.idle
  staked : ∀ x ∈ g.locks, Stake g x.1
  nodup : (g.locks.map Prod.fst).Nodup
  freeing : ∀ k, g.freeing = some k → (k, true) ∈ g.locks
  sourced : ∀ e ∈ g.edges, ∃ r ∈ g.refs, r.inum = e.1 ∧ r.type = some .dir

/-- What the ghost of process `p` says about the state. -/
structure Local (B : Prop) (s : Kernel P) (w : Births) (p : P) (g : Ghost P) : Prop where
  wf : g.WF
  run : g.run = true → (s.proc p).state = .running
  left : (s.proc p).leaving = g.left
  inum : ∀ r ∈ g.refs, (s.icache r.slot).inum = r.inum
  conf : ∀ r ∈ g.refs, ∀ t, r.type = some t → t ≠ .free ∧ (s.vol.dinode r.inum).type = t
  held : ∀ x ∈ g.locks, (s.icache x.1).lock = some p ∧ (x.2 = true → (s.icache x.1).valid = true)
  via : ∀ x, g.via = some x → x.fd < NOFILE ∧ (s.proc p).ofile x.fd = some x.f ∧
    g.fdOut.map Prod.fst ≠ some x.fd ∧ (x.writable = true → (s.ftable x.f).writable = true) ∧
    ∀ k, x.ip = some k → (s.ftable x.f).type = .inode ∧ (s.ftable x.f).ip = some k
  out : ∀ x, g.fdOut = some x → x.1 < NOFILE ∧ (s.proc p).ofile x.1 = some x.2
  fresh : ∀ f ∈ g.fresh, (s.ftable f).ref = 1 ∧ (s.ftable f).type = .none ∧
    0 < fdCount (s.proc p) g f
  child : ∀ q fds c, g.child = some (q, fds, c) → (s.proc q).state = .embryo ∧
    (∀ fd, fd ∉ fds → (s.proc q).ofile fd = none) ∧ (c = false → (s.proc q).cwd = none)
  shut : ∀ fd ∈ g.shut, (s.proc p).ofile fd = none
  noCwd : g.noCwd = true → (s.proc p).cwd = none
  edge : B → ∀ e ∈ g.edges, (s.vol.dinode e.2).type = .dir → w.born e.1 < w.born e.2

def Younger (v : Volume) (w : Births) : Prop :=
  ∀ i, (v.dinode i).type = .dir → ∀ off, DIRENTSZ ∣ off → off + DIRENTSZ ≤ (v.dinode i).size →
    deInum (direntAt v.data (v.dinode i) off) ≠ 0 →
    ¬ isDots (deName (direntAt v.data (v.dinode i) off)) →
    (v.dinode (deInum (direntAt v.data (v.dinode i) off))).type = .dir →
    w.born i < w.born (deInum (direntAt v.data (v.dinode i) off))

def NoUser (s : Kernel P) (k : ℕ) : Prop :=
  (∀ f, (s.ftable f).type = .inode → (s.ftable f).ip ≠ some k) ∧
    ∀ p, (s.proc p).cwd = some k → (s.proc p).leaving = true

/-- The copy `d` of an allocated inode in the cache: it has the type of the inode on disk, and with
`V` it is the inode. -/
structure Coherent (V : Prop) (d e : Dinode) : Prop where
  type : d.type = e.type
  alloc : d.type ≠ .free
  full : V → d = e

structure Global [Fintype P] (sb : Superblock) (K : Set ℕ) (V A B : Prop) (s : Kernel P)
    (w : Births) (γ : P → Ghost P) : Prop where
  bv : B → V
  vol : V → VolInv sb K s.vol s.vol.dinode
  count : ∀ k, (s.icache k).ref = refCount s γ k
  bound : ∀ k, 0 < (s.icache k).ref → k < NINODE
  dev : ∀ k, 0 < (s.icache k).ref → (s.icache k).dev = ROOTDEV
  uniq : ∀ k l, 0 < (s.icache k).ref → 0 < (s.icache l).ref →
    (s.icache k).inum = (s.icache l).inum → k = l
  coh : ∀ k, 0 < (s.icache k).ref → (s.icache k).valid = true →
    Coherent V (s.icache k).d (s.vol.dinode (s.icache k).inum)
  lock : ∀ k p, (s.icache k).lock = some p → k ∈ (γ p).locks.map Prod.fst
  fcount : ∀ f, (s.ftable f).ref = fileCount s γ f
  fbound : ∀ f, 0 < (s.ftable f).ref → f < NFILE
  fnone : ∀ f, (s.ftable f).ref = 0 → (s.ftable f).type = .none
  unused : ∀ p, (s.proc p).state = .unused → (∀ fd, (s.proc p).ofile fd = none) ∧
    (s.proc p).cwd = none
  obound : ∀ p fd, NOFILE ≤ fd → (s.proc p).ofile fd = none
  oneParent : ∀ p p' q x y, (γ p).child = some (q, x) → (γ p').child = some (q, y) → p = p'
  file : ∀ f k, (s.ftable f).type = .inode → (s.ftable f).ip = some k →
    (s.vol.dinode (s.icache k).inum).type ≠ .free ∧
    ((s.ftable f).writable = true → (s.vol.dinode (s.icache k).inum).type ≠ .dir)
  cwd : A → ∀ p k, (s.proc p).cwd = some k → (s.proc p).leaving = false →
    (s.vol.dinode (s.icache k).inum).type ≠ .free
  alone : ∀ p k, (γ p).freeing = some k →
    (∀ q, q ≠ p → ∀ r ∈ (γ q).refs, r.slot = k → r.type = none) ∧
    NoUser s k
  small : B → ∀ k, 0 < (s.icache k).ref → (s.icache k).inum < 2 ^ 16
  clock : B → ∀ i, w.born i ≤ w.clock
  younger : B → Younger s.vol w

structure GInv [Fintype P] (sb : Superblock) (K : Set ℕ) (V A B : Prop) (s : Kernel P) (w : Births)
    (γ : P → Ghost P) : Prop extends Global sb K V A B s w γ where
  loc : ∀ p, Local B s w p (γ p)

def DirAt (s : Kernel P) (k : ℕ) : Prop := (s.vol.dinode (s.icache k).inum).type = .dir

/-- The locks that `p` holds are those of directories, older than the one of entry `k` if that is
one. -/
def HoldsAbove (p : P) (k : ℕ) (s : Kernel P) (w : Births) : Prop :=
  ∀ l, (s.icache l).lock = some p →
    DirAt s l ∧ (DirAt s k → w.born (s.icache l).inum < w.born (s.icache k).inum)

def HoldsOne (p : P) (s : Kernel P) : Prop :=
  ∀ k l, (s.icache k).lock = some p → (s.icache l).lock = some p → k = l

/-- What a process owes while it waits for the lock of an inode. It asks for that of an inode below
the directories whose locks it holds, except when it drops the directory above the inode it holds.
Where `iput` is called with two locks held nothing is known of their order. -/
def Owes (B : Prop) (p : P) (r : Request) (s : Kernel P) (w : Births) : Prop :=
  match r with
  | .log => True
  | .inode .ilock k => B → HoldsAbove p k s w
  | .inode .iput k => B → HoldsOne p s → HoldsAbove p k s w
  | .inode .iputParent k => B → DirAt s k ∧ ∀ l, (s.icache l).lock = some p → DirAt s l →
      w.born (s.icache k).inum < w.born (s.icache l).inum

def Enters (p : P) (r : Request) (s : Kernel P) : Prop :=
  match r with
  | .inode .iputParent k => (s.icache k).lock = some p
  | _ => True

/-- What every step guarantees: entries in use keep their identity; an allocated inode keeps its
type and, with `V`, its blocks, unless its entry has no users. -/
structure Kept (V : Prop) (s s' : Kernel P) : Prop where
  entry : ∀ k, 0 < (s.icache k).ref →
    (s'.icache k).dev = (s.icache k).dev ∧ (s'.icache k).inum = (s.icache k).inum
  inode : ∀ i, (s.vol.dinode i).type ≠ .free →
    ((s'.vol.dinode i).type = (s.vol.dinode i).type ∧ (V →
      ∀ n < NPOS, blockAt s.vol.data (s.vol.dinode i) n ≠ 0 →
        blockAt s'.vol.data (s'.vol.dinode i) n = blockAt s.vol.data (s.vol.dinode i) n)) ∨
    ∀ k, 0 < (s.icache k).ref → (s.icache k).inum = i → NoUser s k

theorem Kept.refl {V : Prop} (s : Kernel P) : Kept V s s :=
  ⟨fun _ _ => ⟨rfl, rfl⟩, fun _ _ => .inl ⟨rfl, fun _ _ _ _ => rfl⟩⟩

theorem Kept.of_vol_eq {V : Prop} {s s' : Kernel P} (hv : s'.vol = s.vol)
    (h : ∀ k, 0 < (s.icache k).ref →
      (s'.icache k).dev = (s.icache k).dev ∧ (s'.icache k).inum = (s.icache k).inum) :
    Kept V s s' :=
  ⟨h, fun _ _ => .inl (by rw [hv]; exact ⟨rfl, fun _ _ _ _ => rfl⟩)⟩

theorem Kept.cache {V : Prop} {s s1 s2 : Kernel P} (h : Kept V s s1) (hv : s2.vol = s1.vol)
    (hc : ∀ k, 0 < (s.icache k).ref →
      (s2.icache k).dev = (s1.icache k).dev ∧ (s2.icache k).inum = (s1.icache k).inum) :
    Kept V s s2 := by
  refine ⟨fun k hk => ?_, fun i hi => ?_⟩
  · rw [(hc k hk).1, (hc k hk).2]
    exact h.entry k hk
  · rw [hv]
    exact h.inode i hi

/-! ## What a reference guarantees -/

section

variable [Fintype P] {sb : Superblock} {K : Set ℕ} {V A B : Prop} {s : Kernel P} {w : Births}
  {γ : P → Ghost P} {p : P} {k : ℕ}

theorem Global.ref_pos_of_proc (h : Global sb K V A B s w γ) (hp : 0 < procRef (s.proc p) (γ p) k) :
    0 < (s.icache k).ref := by
  have := le_sum (f := fun p => procRef (s.proc p) (γ p) k) (mem_univ p)
  rw [h.count]
  unfold refCount
  omega

theorem Global.ref_pos_of_ref (h : Global sb K V A B s w γ) {r : Ref} (hr : r ∈ (γ p).refs) :
    0 < (s.icache r.slot).ref := by
  apply h.ref_pos_of_proc (p := p)
  have : 0 < ((γ p).refs.map Ref.slot).count r.slot :=
    List.count_pos_iff.mpr (List.mem_map_of_mem hr)
  unfold procRef
  omega

theorem Global.ref_pos_of_cwd (h : Global sb K V A B s w γ) (hc : (s.proc p).cwd = some k)
    (hl : (s.proc p).leaving = false) : 0 < (s.icache k).ref := by
  apply h.ref_pos_of_proc (p := p)
  unfold procRef cwdRef
  rw [if_pos ⟨hc, hl⟩]
  omega

theorem Global.ref_pos_of_file (h : Global sb K V A B s w γ) {f : ℕ}
    (ht : (s.ftable f).type = .inode) (hi : (s.ftable f).ip = some k) : 0 < (s.icache k).ref := by
  have hpos : 0 < (s.ftable f).ref := by
    by_contra h0
    rw [h.fnone f (by omega)] at ht
    cases ht
  have hle := le_sum (f := fun f => fileRef (s.ftable f) k) (mem_range.mpr (h.fbound f hpos))
  unfold fileRef at hle
  rw [if_pos ⟨ht, hi⟩] at hle
  rw [h.count]
  unfold refCount fileRef
  omega

theorem GInv.ref_pos_of_stake (h : GInv sb K V A B s w γ) (hs : Stake (γ p) k) :
    0 < (s.icache k).ref := by
  rcases hs with ⟨r, hr, rfl⟩ | ⟨x, hx, hk⟩
  · exact h.ref_pos_of_ref hr
  · obtain ⟨-, -, -, -, hf⟩ := (h.loc p).via x hx
    obtain ⟨ht, hi⟩ := hf k hk
    exact h.ref_pos_of_file ht hi

theorem GInv.stake_of_lock (h : GInv sb K V A B s w γ) (hl : (s.icache k).lock = some p) :
    Stake (γ p) k := by
  obtain ⟨x, hx, rfl⟩ := List.mem_map.mp (h.lock k p hl)
  exact (h.loc p).wf.staked x hx

theorem GInv.lock_eq_none (h : GInv sb K V A B s w γ) (hr : (s.icache k).ref = 0) :
    (s.icache k).lock = none := by
  by_contra hne
  obtain ⟨p, hp⟩ := Option.ne_none_iff_exists'.mp hne
  have := h.ref_pos_of_stake (h.stake_of_lock hp)
  omega

theorem GInv.loaded (h : GInv sb K V A B s w γ) (hk : (k, true) ∈ (γ p).locks) :
    (s.icache k).lock = some p ∧ 0 < (s.icache k).ref ∧ (s.icache k).valid = true ∧
      Coherent V (s.icache k).d (s.vol.dinode (s.icache k).inum) := by
  obtain ⟨hl, hv⟩ := (h.loc p).held _ hk
  have hpos := h.ref_pos_of_stake ((h.loc p).wf.staked _ hk)
  exact ⟨hl, hpos, hv rfl, h.coh k hpos (hv rfl)⟩

theorem Global.file_pos (h : Global sb K V A B s w γ) {f : ℕ}
    (hp : 0 < fdCount (s.proc p) (γ p) f) : 0 < (s.ftable f).ref := by
  have := le_sum (f := fun p => fdCount (s.proc p) (γ p) f) (mem_univ p)
  rw [h.fcount]
  unfold fileCount
  omega

theorem fdRef_pos {pr : Proc} {out : Option ℕ} {fd f : ℕ} (hfd : fd < NOFILE)
    (ho : pr.ofile fd = some f) (hout : out ≠ some fd) : 0 < fdRef pr out f := by
  unfold fdRef
  apply card_pos.mpr
  exact ⟨fd, mem_filter.mpr ⟨mem_range.mpr hfd, ho, hout⟩⟩

theorem GInv.via_count (h : GInv sb K V A B s w γ) {x : Via} (hx : (γ p).via = some x) :
    0 < fdCount (s.proc p) (γ p) x.f := by
  obtain ⟨hfd, ho, hout, -⟩ := (h.loc p).via x hx
  have := fdRef_pos hfd ho hout
  unfold fdCount
  omega

end

/-! ## Steps of other processes -/

structure Frame (B : Prop) (s s' : Kernel P) (w w' : Births) (q : P) (g : Ghost P) : Prop where
  proc : s'.proc q = s.proc q
  slot : ∀ k, 0 < (s.icache k).ref → (s'.icache k).inum = (s.icache k).inum
  lock : ∀ k, (s.icache k).lock = some q → (s'.icache k).lock = some q ∧
    ((s.icache k).valid = true → (s'.icache k).valid = true)
  file : ∀ f, 0 < fdCount (s.proc q) g f → (s'.ftable f).type = (s.ftable f).type ∧
    (s'.ftable f).ip = (s.ftable f).ip ∧ (s'.ftable f).writable = (s.ftable f).writable ∧
    (f ∈ g.fresh → (s'.ftable f).ref = (s.ftable f).ref)
  child : ∀ c x, g.child = some (c, x) → s'.proc c = s.proc c
  conf : ∀ r ∈ g.refs, ∀ t, r.type = some t →
    (s'.vol.dinode r.inum).type = (s.vol.dinode r.inum).type
  edge : B → ∀ e ∈ g.edges, ((s.vol.dinode e.2).type = .dir → w.born e.1 < w.born e.2) →
    (s'.vol.dinode e.2).type = .dir → w'.born e.1 < w'.born e.2

theorem Local.frame {B : Prop} {s s' : Kernel P} {w w' : Births} {q : P} {g : Ghost P}
    (h : Local B s w q g) (hf : Frame B s s' w w' q g)
    (hpos : ∀ r ∈ g.refs, 0 < (s.icache r.slot).ref) : Local B s' w' q g where
  wf := h.wf
  run hr := by rw [hf.proc]; exact h.run hr
  left := by rw [hf.proc]; exact h.left
  inum r hr := by rw [hf.slot r.slot (hpos r hr)]; exact h.inum r hr
  conf r hr t ht := by
    rw [hf.conf r hr t ht]
    exact h.conf r hr t ht
  held x hx := by
    obtain ⟨hl, hv⟩ := h.held x hx
    obtain ⟨hl', hv'⟩ := hf.lock x.1 hl
    exact ⟨hl', fun hx => hv' (hv hx)⟩
  via x hx := by
    obtain ⟨hfd, ho, hout, hw, hi⟩ := h.via x hx
    have hpos : 0 < fdCount (s.proc q) g x.f := by
      have := fdRef_pos hfd ho hout
      unfold fdCount
      omega
    obtain ⟨ht, hip, hwr, -⟩ := hf.file x.f hpos
    rw [hf.proc, ht, hip, hwr]
    exact ⟨hfd, ho, hout, hw, hi⟩
  out x hx := by rw [hf.proc]; exact h.out x hx
  fresh f hf' := by
    obtain ⟨hr, ht, hc⟩ := h.fresh f hf'
    obtain ⟨ht', -, -, hr'⟩ := hf.file f hc
    rw [hf.proc, ht', hr' hf']
    exact ⟨hr, ht, hc⟩
  child q fds c hc := by
    rw [hf.child q _ hc]
    exact h.child q fds c hc
  shut fd hfd := by rw [hf.proc]; exact h.shut fd hfd
  noCwd hn := by rw [hf.proc]; exact h.noCwd hn
  edge hB e he ht := hf.edge hB e he (h.edge hB e he) ht

theorem GInv.mk_step [DecidableEq P] [Fintype P] {sb : Superblock} {K : Set ℕ} {V A B : Prop}
    {s s' : Kernel P} {w w' : Births} {γ : P → Ghost P} {p : P} {g' : Ghost P}
    (h : GInv sb K V A B s w γ)
    (hg : Global sb K V A B s' w' (Function.update γ p g')) (hl : Local B s' w' p g')
    (hf : ∀ q, q ≠ p → Frame B s s' w w' q (γ q)) :
    GInv sb K V A B s' w' (Function.update γ p g') where
  toGlobal := hg
  loc q := by
    by_cases hq : q = p
    · subst hq
      rwa [Function.update_self]
    · rw [Function.update_of_ne hq]
      exact (h.loc q).frame (hf q hq) fun r hr => h.ref_pos_of_ref hr

end Xv6.Fs
