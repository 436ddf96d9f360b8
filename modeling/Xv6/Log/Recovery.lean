import Xv6.Block
import Xv6.Lib.WriteTrace

/-!
# The redo log: commit and recovery

`commit` of `log.c` writes a transaction in four phases: the new contents to the log area
(`writeLog`), the header that names their home blocks (`writeHead`, the commit point), the home
blocks (`installTrans`), and an empty header. `recoverFromLog` runs at boot and repeats the last
two phases for whatever the header on disk names.

The machine keeps the trace of block writes handed to the disk, so a crash is a prefix of it.
Buffers are read through the cache, and whenever `bread` misses, any set of clean buffers may be
recycled (`Recycle`); a buffer pinned by `B_DIRTY` is not. A `Transaction` is what `commit` may rely
on; `Pinned` and `Reads` say what `bread` returns, and that other reads and writes do not change it.
-/

namespace Xv6.Log

open Function WriteTrace

/-! ## The header block -/

def headN (hb : Block) : ℤ := if hb.word 0 < 2 ^ 31 then hb.word 0 else hb.word 0 - 2 ^ 32

def headBlocks (hb : Block) : List ℕ := (List.range (headN hb).toNat).map fun i => hb.word (i + 1)

def setBlocks : ℕ → List ℕ → Block → Block
  | _, [], hb => hb
  | i, b :: bs, hb => setBlocks (i + 1) bs (hb.setWord (i + 1) b)

def fillHead (lh : List ℕ) (hb : Block) : Block := setBlocks 0 lh (hb.setWord 0 lh.length)

theorem word_setBlocks_of_le {i j : ℕ} (bs : List ℕ) (hb : Block) (hj : j ≤ i) :
    (setBlocks i bs hb).word j = hb.word j := by
  induction bs generalizing i hb with
  | nil => rfl
  | cons b bs ih =>
    unfold setBlocks
    rw [ih _ (by omega), hb.word_setWord_of_ne _ (by omega)]

theorem word_setBlocks_get (bs : List ℕ) (hbs : ∀ b ∈ bs, b < 2 ^ 32) :
    ∀ (i t : ℕ) (hb : Block) (ht : t < bs.length),
    (setBlocks i bs hb).word (i + t + 1) = bs[t] := by
  induction bs with
  | nil => intro i t hb ht; simp at ht
  | cons b bs ih =>
    intro i t hb ht
    unfold setBlocks
    cases t with
    | zero =>
      rw [word_setBlocks_of_le _ _ (by omega), Nat.add_zero,
        hb.word_setWord_self _ (hbs b List.mem_cons_self)]
      rfl
    | succ t =>
      have h := ih (fun x hx => hbs x (List.mem_cons_of_mem _ hx)) (i + 1) t (hb.setWord (i + 1) b)
        (by simpa using ht)
      rw [show i + (t + 1) + 1 = i + 1 + t + 1 by omega, h]
      rfl

theorem word_fillHead_zero (lh : List ℕ) (hb : Block) (hl : lh.length ≤ LOGSIZE) :
    (fillHead lh hb).word 0 = lh.length := by
  have hs : LOGSIZE = 30 := rfl
  unfold fillHead
  rw [word_setBlocks_of_le _ _ le_rfl, hb.word_setWord_self _ (by omega)]

theorem headN_fillHead (lh : List ℕ) (hb : Block) (hl : lh.length ≤ LOGSIZE) :
    headN (fillHead lh hb) = lh.length := by
  have hs : LOGSIZE = 30 := rfl
  unfold headN
  rw [word_fillHead_zero lh hb hl, if_pos (by omega)]

theorem headBlocks_fillHead (lh : List ℕ) (hb : Block) (hl : lh.length ≤ LOGSIZE)
    (hlh : ∀ b ∈ lh, b < 2 ^ 32) : headBlocks (fillHead lh hb) = lh := by
  unfold headBlocks
  rw [headN_fillHead lh hb hl, Int.toNat_natCast]
  refine List.ext_getElem (by simp) fun i h1 h2 => ?_
  rw [List.getElem_map, List.getElem_range]
  unfold fillHead
  have h := word_setBlocks_get lh hlh 0 i (hb.setWord 0 lh.length) h2
  rwa [Nat.zero_add] at h

/-! ## Buffers and block writes -/

structure Machine where
  disk : ℕ → Block
  /-- Data of the valid buffers. -/
  cache : ℕ → Option Block
  /-- Buffers with `B_DIRTY` set. -/
  dirty : ℕ → Bool
  /-- Block writes handed to the disk, in issue order. -/
  issued : List (ℕ × Block)

def Machine.boot (d : ℕ → Block) : Machine := ⟨d, fun _ => none, fun _ => false, []⟩

abbrev Recycle := Machine → ℕ → ℕ → Bool

/-- Contents of block `b`, through the cache. A miss may recycle clean buffers. -/
def bread (rc : Recycle) (m : Machine) (b : ℕ) : Block × Machine :=
  match m.cache b with
  | some d => (d, m)
  | none =>
    let kept := fun x => if rc m b x && !m.dirty x then none else m.cache x
    (m.disk b, { m with cache := update kept b (some (m.disk b)) })

def bwrite (m : Machine) (b : ℕ) (d : Block) : Machine where
  disk := update m.disk b d
  cache := update m.cache b (some d)
  dirty := update m.dirty b false
  issued := m.issued ++ [(b, d)]

/-! ## `log.c` -/

section Code

variable (rc : Recycle) (start : ℕ)

def installTransFrom : ℕ → List ℕ → Machine → Machine
  | _, [], m => m
  | tail, b :: bs, m =>
    let lbuf := bread rc m (start + tail + 1)
    let dbuf := bread rc lbuf.2 b
    installTransFrom (tail + 1) bs (bwrite dbuf.2 b lbuf.1)

def installTrans (lh : List ℕ) (m : Machine) : Machine := installTransFrom rc start 0 lh m

/-- Read the header from disk. Its `n` must not exceed the in-memory array. -/
def readHead (m : Machine) : Option (List ℕ × Machine) :=
  let buf := bread rc m start
  if headN buf.1 ≤ LOGSIZE then some (headBlocks buf.1, buf.2) else none

def writeHead (lh : List ℕ) (m : Machine) : Machine :=
  let buf := bread rc m start
  bwrite buf.2 start (fillHead lh buf.1)

def recoverFromLog (m : Machine) : Option Machine :=
  match readHead rc start m with
  | none => none
  | some (lh, m) => some (writeHead rc start [] (installTrans rc start lh m))

def writeLogFrom : ℕ → List ℕ → Machine → Machine
  | _, [], m => m
  | tail, b :: bs, m =>
    let tobuf := bread rc m (start + tail + 1)
    let frombuf := bread rc tobuf.2 b
    writeLogFrom (tail + 1) bs (bwrite frombuf.2 (start + tail + 1) frombuf.1)

def writeLog (lh : List ℕ) (m : Machine) : Machine := writeLogFrom rc start 0 lh m

def commit (lh : List ℕ) (m : Machine) : Machine :=
  if 0 < lh.length then
    writeHead rc start [] (installTrans rc start lh
      (writeHead rc start lh (writeLog rc start lh m)))
  else m

end Code

/-- A transaction of the log at `start` with `size` blocks: the home blocks named by the
in-memory header, and the new contents the buffer cache holds for them. -/
structure Transaction (start size : ℕ) where
  block : List ℕ
  data : ℕ → Block
  nodup : block.Nodup
  le_logsize : block.length ≤ LOGSIZE
  lt_size : block.length < size
  outside : ∀ b ∈ block, b < start ∨ start + size ≤ b
  isWord : ∀ b ∈ block, b < 2 ^ 32

/-! ## Reading through the cache -/

section Bread

variable {rc : Recycle} {m : Machine} {a b : ℕ} {v : Block}

@[simp] theorem bwrite_disk (d : Block) : (bwrite m b d).disk = update m.disk b d := rfl

@[simp] theorem bwrite_cache (d : Block) :
    (bwrite m b d).cache = update m.cache b (some d) := rfl

@[simp] theorem bwrite_dirty (d : Block) :
    (bwrite m b d).dirty = update m.dirty b false := rfl

@[simp] theorem bwrite_issued (d : Block) : (bwrite m b d).issued = m.issued ++ [(b, d)] := rfl

@[simp] theorem bread_disk : (bread rc m b).2.disk = m.disk := by
  unfold bread; split <;> rfl

@[simp] theorem bread_dirty : (bread rc m b).2.dirty = m.dirty := by
  unfold bread; split <;> rfl

@[simp] theorem bread_issued : (bread rc m b).2.issued = m.issued := by
  unfold bread; split <;> rfl

theorem bread_hit {d : Block} (h : m.cache b = some d) : bread rc m b = (d, m) := by
  unfold bread; rw [h]

theorem bread_miss_fst (h : m.cache b = none) : (bread rc m b).1 = m.disk b := by
  unfold bread; rw [h]

theorem bread_miss_cache (h : m.cache b = none) :
    (bread rc m b).2.cache = update
      (fun x => if rc m b x && !m.dirty x then none else m.cache x) b (some (m.disk b)) := by
  unfold bread; rw [h]

theorem bread_cache {x : ℕ} {c : Block} (h : (bread rc m b).2.cache x = some c) :
    m.cache x = some c ∨ (x = b ∧ c = m.disk b) := by
  rcases hb : m.cache b with _ | d
  · rw [bread_miss_cache hb] at h
    by_cases hx : x = b
    · subst hx
      rw [update_self] at h
      exact Or.inr ⟨rfl, (Option.some.inj h).symm⟩
    · rw [update_of_ne hx] at h
      split_ifs at h
      exact Or.inl h
  · rw [bread_hit hb] at h
    exact Or.inl h

def Pinned (m : Machine) (b : ℕ) (v : Block) : Prop := m.cache b = some v ∧ m.dirty b = true

def Reads (m : Machine) (b : ℕ) (v : Block) : Prop :=
  m.disk b = v ∧ ∀ c, m.cache b = some c → c = v

theorem Pinned.bread_fst (h : Pinned m b v) : (bread rc m b).1 = v := by
  rw [bread_hit h.1]

theorem Pinned.bread (h : Pinned m b v) : Pinned (bread rc m a).2 b v := by
  refine ⟨?_, by rw [bread_dirty]; exact h.2⟩
  rcases ha : m.cache a with _ | d
  · have hba : b ≠ a := by
      rintro rfl
      rw [h.1] at ha
      exact absurd ha (by simp)
    rw [bread_miss_cache ha, update_of_ne hba, h.2, h.1]
    simp
  · rw [bread_hit ha]
    exact h.1

theorem Pinned.bwrite (h : Pinned m b v) (hab : b ≠ a) (d : Block) : Pinned (bwrite m a d) b v := by
  refine ⟨?_, ?_⟩
  · rw [bwrite_cache, update_of_ne hab]; exact h.1
  · rw [bwrite_dirty, update_of_ne hab]; exact h.2

theorem Reads.bread_fst (h : Reads m b v) : (bread rc m b).1 = v := by
  rcases hb : m.cache b with _ | d
  · rw [bread_miss_fst hb]; exact h.1
  · rw [bread_hit hb]; exact h.2 d hb

theorem Reads.bread (h : Reads m b v) : Reads (bread rc m a).2 b v := by
  refine ⟨by rw [bread_disk]; exact h.1, fun c hc => ?_⟩
  rcases bread_cache hc with hc | ⟨rfl, rfl⟩
  · exact h.2 c hc
  · exact h.1

theorem Reads.bwrite (h : Reads m b v) (hab : b ≠ a) (d : Block) : Reads (bwrite m a d) b v := by
  refine ⟨?_, fun c hc => ?_⟩
  · rw [bwrite_disk, update_of_ne hab]; exact h.1
  · rw [bwrite_cache, update_of_ne hab] at hc; exact h.2 c hc

theorem reads_bwrite_self (m : Machine) (b : ℕ) (d : Block) : Reads (bwrite m b d) b d := by
  refine ⟨by rw [bwrite_disk, update_self], fun c hc => ?_⟩
  rw [bwrite_cache, update_self] at hc
  exact (Option.some.inj hc).symm

theorem reads_boot (d : ℕ → Block) (b : ℕ) : Reads (Machine.boot d) b (d b) :=
  ⟨rfl, fun c hc => by simp [Machine.boot] at hc⟩

end Bread

end Xv6.Log
