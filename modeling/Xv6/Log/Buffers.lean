import Xv6.Bio
import Xv6.Lib.StateExcept
import Xv6.Log.Recovery
import Xv6.Log.Reservation

/-!
# The buffers of a commit

`commit` of `log.c` on the buffer cache of `bio.c`, by one process while no other uses buffers. The
cache has `NBUF` buffers, the buffers of the transaction are pinned by `B_DIRTY`, and every step of
`write_log` and `install_trans` takes two buffers, one of them for a block of the log.

1. The calls on the cache, as the code makes them, with a record of the block writes and of the
   buffers that `bget` recycled. A process that takes a buffer twice sleeps for ever.
2. `Pinned s₀ held m`: the buffers that are dirty are buffers that were dirty at the start, for the
   same blocks. If the header has fewer than `NBUF` blocks, at most `NBUF - 1` are dirty, and fewer
   if a block of the header is not cached: `bread` always finds a buffer (`bread_log`,
   `bread_home`). A header of `NBUF` blocks, which two processes can leave that test the size of the
   log together, pins every buffer.
3. `commit_finds_buffers`: `commit` returns exactly if the header is not that long and no block is
   logged in itself.
-/

namespace Xv6.Log.Buffers

open Function StateExcept
open Xv6.Bio (Cache Buf)

inductive Event
  | wrote (blockno : ℕ)
  | recycled (b : Fin NBUF)
  deriving DecidableEq

structure Machine where
  cache : Cache Unit
  trace : List Event

inductive Halt
  /-- the panic "bget: no buffers" -/
  | noBuffers
  /-- in `acquiresleep`, for a lock that nobody else will release -/
  | asleep
  /-- the panics of `bwrite` and `brelse` -/
  | notHeld
  deriving DecidableEq

abbrev M := StateT Machine (Except Halt)

/-! ## The code -/

def Machine.buf (m : Machine) (b : Fin NBUF) : Buf Unit := m.cache.buf b

def Machine.setBuf (m : Machine) (b : Fin NBUF) (x : Buf Unit) : Machine :=
  { m with cache := m.cache.setBuf b x }

def Machine.recycle (m : Machine) (b : Fin NBUF) (blockno : ℕ) : Machine where
  cache := m.cache.recycle b blockno
  trace := m.trace ++ [.recycled b]

def acquiresleep (b : Fin NBUF) : M Unit := do
  let m ← get
  if (m.buf b).lock = none then set (m.setBuf b { m.buf b with lock := some () })
  else throw .asleep

def bget (blockno : ℕ) : M (Fin NBUF) := do
  let m ← get
  match m.cache.lookup blockno with
  | some b =>
    set (m.setBuf b { m.buf b with refcnt := (m.buf b).refcnt + 1 })
    acquiresleep b
    pure b
  | none =>
    match m.cache.victim with
    | some b =>
      set (m.recycle b blockno)
      acquiresleep b
      pure b
    | none => throw .noBuffers

def Machine.iderw (m : Machine) (b : Fin NBUF) : Machine where
  cache := { m.cache.setBuf b (Bio.iderw (m.buf b) m.cache.disk).1 with
    disk := (Bio.iderw (m.buf b) m.cache.disk).2 }
  trace := if (m.buf b).dirty then m.trace ++ [.wrote (m.buf b).blockno] else m.trace

def bread (blockno : ℕ) : M (Fin NBUF) := do
  let b ← bget blockno
  let m ← get
  if (m.buf b).valid then pure b
  else
    set (m.iderw b)
    pure b

def bwrite (b : Fin NBUF) : M Unit := do
  let m ← get
  if (m.buf b).lock = some () then
    set ((m.setBuf b { m.buf b with dirty := true }).iderw b)
  else throw .notHeld

def Machine.brelse (m : Machine) (b : Fin NBUF) : Machine :=
  let x := { m.buf b with lock := none, refcnt := (m.buf b).refcnt - 1 }
  { m with cache := { m.cache.setBuf b x with
      order := if x.refcnt = 0 then b :: m.cache.order.erase b else m.cache.order } }

def brelse (b : Fin NBUF) : M Unit := do
  let m ← get
  if (m.buf b).lock = some () then set (m.brelse b) else throw .notHeld

def fill (b : Fin NBUF) (f : Machine → Block) : M Unit :=
  modify fun m => m.setBuf b { m.buf b with data := f m }

section Code

variable (start : ℕ)

def writeLogFrom : ℕ → List ℕ → M Unit
  | _, [] => pure ()
  | tail, b :: bs => do
    let tobuf ← bread (start + tail + 1)
    let frombuf ← bread b
    fill tobuf fun m => (m.buf frombuf).data
    bwrite tobuf
    brelse frombuf
    brelse tobuf
    writeLogFrom (tail + 1) bs

def installTransFrom : ℕ → List ℕ → M Unit
  | _, [] => pure ()
  | tail, b :: bs => do
    let lbuf ← bread (start + tail + 1)
    let dbuf ← bread b
    fill dbuf fun m => (m.buf lbuf).data
    bwrite dbuf
    brelse lbuf
    brelse dbuf
    installTransFrom (tail + 1) bs

def writeHead (lh : List ℕ) : M Unit := do
  let b ← bread start
  fill b fun m => fillHead lh (m.buf b).data
  bwrite b
  brelse b

def commit (lh : List ℕ) : M Unit :=
  if 0 < lh.length then do
    writeLogFrom start 0 lh
    writeHead start lh
    installTransFrom start 0 lh
    writeHead start []
  else pure ()

end Code

/-- The headers that `log_write` leads to, called inside operations by any number of processes. The
size of the log is tested before `log.lock` is taken. -/
def Admitted (lh : List ℕ) : Prop :=
  ∃ (k : ℕ) (s : GState (Fin k)), Lts.Reach (gstep nlog) (fun _ _ => True) ginit s ∧ s.lh = lh

theorem Admitted.nodup {lh : List ℕ} (h : Admitted lh) : lh.Nodup := by
  obtain ⟨k, s, hr, rfl⟩ := h
  refine hr.invariant (I := fun s => s.lh.Nodup) List.nodup_nil fun s s' l hI _ hs => ?_
  exact lh_nodup_step hI (gstep_cases hs).2

structure Ready (lh : List ℕ) (s : Cache Unit) : Prop where
  mem : ∀ b, b ∈ s.order
  free : ∀ b, (s.buf b).refcnt = 0 ∧ (s.buf b).lock = none
  home : ∀ b, (s.buf b).dirty = true → (s.buf b).dev = ROOTDEV ∧ (s.buf b).blockno ∈ lh
  inj : ∀ b c, (s.buf b).dirty = true → (s.buf c).dirty = true →
    (s.buf b).blockno = (s.buf c).blockno → b = c
  cached : ∀ n ∈ lh, ∃ b, (s.buf b).dirty = true ∧ (s.buf b).blockno = n

/-! ## Dirty buffers stay where they are -/

/-- A buffer that was dirty in `s₀` is only recycled once its block has been written. -/
def Kept (s₀ : Cache Unit) (trace : List Event) : Prop :=
  ∀ xs b ys, trace = xs ++ .recycled b :: ys → (s₀.buf b).dirty = true →
    .wrote (s₀.buf b).blockno ∈ xs

theorem Kept.append {s₀ : Cache Unit} {trace : List Event} {e : Event} (h : Kept s₀ trace)
    (he : ∀ b, e = .recycled b → (s₀.buf b).dirty = true → .wrote (s₀.buf b).blockno ∈ trace) :
    Kept s₀ (trace ++ [e]) := by
  intro xs b ys hx hb
  rcases List.eq_nil_or_concat ys with rfl | ⟨ys, y, rfl⟩
  · obtain ⟨rfl, hlast⟩ := List.append_inj' hx rfl
    exact he b (List.singleton_inj.mp hlast) hb
  · rw [List.concat_eq_append, ← List.cons_append, ← List.append_assoc] at hx
    exact h xs b ys (List.append_inj' hx rfl).1 hb

/-- The process holds the buffers `held`. The dirty buffers are among those that were dirty in `s₀`,
and those that are not dirty any more have been written before anything else happened to them. -/
structure Pinned (s₀ : Cache Unit) (held : List (Fin NBUF)) (m : Machine) : Prop where
  mem : ∀ b, b ∈ m.cache.order
  free : ∀ b, b ∉ held → (m.buf b).refcnt = 0 ∧ (m.buf b).lock = none
  held : ∀ b ∈ held, (m.buf b).refcnt = 1 ∧ (m.buf b).lock = some ()
  same : ∀ b, (m.buf b).dirty = true → (s₀.buf b).dirty = true ∧
    (m.buf b).dev = (s₀.buf b).dev ∧ (m.buf b).blockno = (s₀.buf b).blockno
  written : ∀ b, (s₀.buf b).dirty = true →
    (m.buf b).dirty = true ∨ .wrote (s₀.buf b).blockno ∈ m.trace
  kept : Kept s₀ m.trace

theorem Ready.pinned {lh : List ℕ} {s : Cache Unit} (h : Ready lh s) : Pinned s [] ⟨s, []⟩ where
  mem := h.mem
  free := fun b _ => h.free b
  held := fun b hb => absurd hb List.not_mem_nil
  same := fun _ hb => ⟨hb, rfl, rfl⟩
  written := fun _ hb => .inl hb
  kept := fun xs b ys hx => absurd hx.symm (by simp)

namespace Pinned

variable {s₀ : Cache Unit} {held held' : List (Fin NBUF)} {m m' : Machine} {b : Fin NBUF}
  {x : Buf Unit}

theorem setBuf (h : Pinned s₀ held m) (hbuf : ∀ c, m'.buf c = update m.cache.buf b x c)
    (hmem : ∀ c, c ∈ m'.cache.order) (htrace : m'.trace = m.trace)
    (hothers : ∀ c, c ≠ b → (c ∈ held' ↔ c ∈ held))
    (hfree : b ∉ held' → x.refcnt = 0 ∧ x.lock = none)
    (hheld : b ∈ held' → x.refcnt = 1 ∧ x.lock = some ()) (hdirty : x.dirty = (m.buf b).dirty)
    (hkey : x.dirty = true → x.dev = (m.buf b).dev ∧ x.blockno = (m.buf b).blockno) :
    Pinned s₀ held' m' := by
  have hself : m'.buf b = x := by rw [hbuf, update_self]
  have hother : ∀ c, c ≠ b → m'.buf c = m.buf c := fun c hc => by
    rw [hbuf, update_of_ne hc]
    rfl
  refine ⟨hmem, fun c hc => ?_, fun c hc => ?_, fun c hc => ?_, fun c hc => ?_, ?_⟩
  · by_cases hcb : c = b
    · subst hcb
      rw [hself]
      exact hfree hc
    · rw [hother c hcb]
      exact h.free c fun hin => hc ((hothers c hcb).mpr hin)
  · by_cases hcb : c = b
    · subst hcb
      rw [hself]
      exact hheld hc
    · rw [hother c hcb]
      exact h.held c ((hothers c hcb).mp hc)
  · by_cases hcb : c = b
    · subst hcb
      rw [hself] at hc ⊢
      obtain ⟨h1, h2, h3⟩ := h.same c (hdirty ▸ hc)
      obtain ⟨h4, h5⟩ := hkey hc
      exact ⟨h1, h4.trans h2, h5.trans h3⟩
    · rw [hother c hcb] at hc ⊢
      exact h.same c hc
  · rw [htrace]
    by_cases hcb : c = b
    · subst hcb
      rw [hself, hdirty]
      exact h.written c hc
    · rw [hother c hcb]
      exact h.written c hc
  · rw [htrace]
    exact h.kept

theorem wrote (h : Pinned s₀ held m) (hb : b ∈ held)
    (hbuf : ∀ c, m'.buf c = update m.cache.buf b x c) (horder : m'.cache.order = m.cache.order)
    (htrace : m'.trace = m.trace ++ [.wrote (m.buf b).blockno])
    (hcount : x.refcnt = (m.buf b).refcnt) (hlock : x.lock = (m.buf b).lock)
    (hclean : x.dirty = false) : Pinned s₀ held m' := by
  have hself : m'.buf b = x := by rw [hbuf, update_self]
  have hother : ∀ c, c ≠ b → m'.buf c = m.buf c := fun c hc => by
    rw [hbuf, update_of_ne hc]
    rfl
  refine ⟨fun c => horder ▸ h.mem c, fun c hc => ?_, fun c hc => ?_, fun c hc => ?_,
    fun c hc => ?_, ?_⟩
  · rw [hother c fun hcb => hc (hcb ▸ hb)]
    exact h.free c hc
  · by_cases hcb : c = b
    · subst hcb
      rw [hself, hcount, hlock]
      exact h.held c hc
    · rw [hother c hcb]
      exact h.held c hc
  · by_cases hcb : c = b
    · subst hcb
      rw [hself, hclean] at hc
      cases hc
    · rw [hother c hcb] at hc ⊢
      exact h.same c hc
  · rw [htrace]
    by_cases hcb : c = b
    · subst hcb
      -- either this write is the one, or the buffer was written earlier
      refine .inr ?_
      cases hd : (m.buf c).dirty with
      | true =>
        rw [(h.same c hd).2.2]
        exact List.mem_append_right _ List.mem_cons_self
      | false =>
        refine List.mem_append_left _ ((h.written c hc).resolve_left ?_)
        rw [hd]
        exact Bool.false_ne_true
    · rw [hother c hcb]
      exact (h.written c hc).imp_right (List.mem_append_left _)
  · rw [htrace]
    exact h.kept.append fun _ he => by cases he

theorem recycled (h : Pinned s₀ held m) (hb : b ∉ held) (hclean : (m.buf b).dirty = false)
    (hbuf : ∀ c, m'.buf c = update m.cache.buf b x c) (horder : m'.cache.order = m.cache.order)
    (htrace : m'.trace = m.trace ++ [.recycled b])
    (hx : x.refcnt = 1 ∧ x.lock = some () ∧ x.dirty = false) : Pinned s₀ (b :: held) m' := by
  have hself : m'.buf b = x := by rw [hbuf, update_self]
  have hother : ∀ c, c ≠ b → m'.buf c = m.buf c := fun c hc => by
    rw [hbuf, update_of_ne hc]
    rfl
  have hwritten : (s₀.buf b).dirty = true → .wrote (s₀.buf b).blockno ∈ m.trace := fun hd =>
    (h.written b hd).resolve_left (by rw [hclean]; exact Bool.false_ne_true)
  refine ⟨fun c => horder ▸ h.mem c, fun c hc => ?_, fun c hc => ?_, fun c hc => ?_,
    fun c hc => ?_, ?_⟩
  · obtain ⟨hcb, hc⟩ := not_or.mp fun hin => hc (List.mem_cons.mpr hin)
    rw [hother c hcb]
    exact h.free c hc
  · rcases List.mem_cons.mp hc with rfl | hc
    · rw [hself]
      exact ⟨hx.1, hx.2.1⟩
    · rw [hother c fun hcb => hb (hcb ▸ hc)]
      exact h.held c hc
  · by_cases hcb : c = b
    · subst hcb
      rw [hself, hx.2.2] at hc
      cases hc
    · rw [hother c hcb] at hc ⊢
      exact h.same c hc
  · rw [htrace]
    by_cases hcb : c = b
    · subst hcb
      exact .inr (List.mem_append_left _ (hwritten hc))
    · rw [hother c hcb]
      exact (h.written c hc).imp_right (List.mem_append_left _)
  · rw [htrace]
    refine h.kept.append fun c he hc => ?_
    obtain rfl := Event.recycled.inj he
    exact hwritten hc

theorem exists_clean {lh : List ℕ} (h : Pinned s₀ held m) (hr : Ready lh s₀) (blocks : Finset ℕ)
    (hblocks : ∀ b, (m.buf b).dirty = true → (m.buf b).blockno ∈ blocks)
    (hroom : blocks.card + held.length < NBUF) : ∃ b, b ∉ held ∧ (m.buf b).dirty = false := by
  by_contra hno
  have hall : (Finset.univ : Finset (Fin NBUF)) ⊆
      held.toFinset ∪ Finset.univ.filter fun b => (m.buf b).dirty = true := by
    intro b _
    by_cases hb : b ∈ held
    · exact Finset.mem_union_left _ (List.mem_toFinset.mpr hb)
    · refine Finset.mem_union_right _ (Finset.mem_filter.mpr ⟨Finset.mem_univ b, ?_⟩)
      by_contra hd
      exact hno ⟨b, hb, Bool.eq_false_of_not_eq_true hd⟩
  have hinj : (Finset.univ.filter fun b => (m.buf b).dirty = true).card ≤ blocks.card := by
    refine Finset.card_le_card_of_injOn (fun b => (m.buf b).blockno) (fun b hb => ?_)
      fun b hb c hc heq => ?_
    · exact hblocks b (Finset.mem_filter.mp hb).2
    · obtain ⟨h1, -, h2⟩ := h.same b (Finset.mem_filter.mp hb).2
      obtain ⟨h3, -, h4⟩ := h.same c (Finset.mem_filter.mp hc).2
      exact hr.inj b c h1 h3 (h2.symm.trans (heq.trans h4))
  have hcard := Finset.card_le_card hall
  rw [Finset.card_univ, Fintype.card_fin] at hcard
  have hunion := Finset.card_union_le held.toFinset
    (Finset.univ.filter fun b => (m.buf b).dirty = true)
  have hheld := List.toFinset_card_le held
  omega

end Pinned

/-! ## The calls find their buffers -/

structure Found (s₀ : Cache Unit) (held : List (Fin NBUF)) (blockno : ℕ) (b : Fin NBUF)
    (m : Machine) : Prop where
  fresh : b ∉ held
  lookup : m.cache.lookup blockno = some b
  pinned : Pinned s₀ (b :: held) m
  dev : (m.buf b).dev = ROOTDEV
  blockno : (m.buf b).blockno = blockno

section Calls

variable {s₀ : Cache Unit} {held : List (Fin NBUF)} {m : Machine} {b : Fin NBUF}

theorem get_eq (m : Machine) : (get : M Machine) m = .ok (m, m) := rfl

theorem set_eq (m m' : Machine) : (set m' : M PUnit) m = .ok (⟨⟩, m') := rfl

theorem Machine.buf_setBuf_self (m : Machine) (b : Fin NBUF) (x : Buf Unit) :
    (m.setBuf b x).buf b = x := update_self ..

theorem Machine.setBuf_setBuf (m : Machine) (b : Fin NBUF) (x y : Buf Unit) :
    (m.setBuf b x).setBuf b y = m.setBuf b y := by
  unfold Machine.setBuf Cache.setBuf
  rw [update_idem]

theorem lookup_congr {s s' : Cache Unit} (horder : s'.order = s.order)
    (hkey : ∀ c, (s'.buf c).dev = (s.buf c).dev ∧ (s'.buf c).blockno = (s.buf c).blockno)
    (blockno : ℕ) : s'.lookup blockno = s.lookup blockno := by
  unfold Cache.lookup
  rw [horder]
  congr 1
  funext c
  rw [(hkey c).1, (hkey c).2]

theorem lookup_setBuf {s : Cache Unit} {x : Buf Unit} (hdev : x.dev = (s.buf b).dev)
    (hno : x.blockno = (s.buf b).blockno) (blockno : ℕ) :
    (s.setBuf b x).lookup blockno = s.lookup blockno := by
  refine lookup_congr (show (s.setBuf b x).order = s.order from rfl) (fun c => ?_) blockno
  by_cases hc : c = b
  · subst hc
    rw [show (s.setBuf c x).buf c = x from update_self ..]
    exact ⟨hdev, hno⟩
  · rw [show (s.setBuf b x).buf c = s.buf c from update_of_ne hc ..]
    exact ⟨rfl, rfl⟩

theorem lookup_recycle {s : Cache Unit} {blockno : ℕ} (hmem : b ∈ s.order)
    (hno : s.lookup blockno = none) : (s.recycle b blockno).lookup blockno = some b := by
  have hself : (s.recycle b blockno).buf b = { s.buf b with
      dev := ROOTDEV, blockno := blockno, valid := false, dirty := false, refcnt := 1 } :=
    update_self ..
  obtain ⟨c, hc⟩ : ∃ c, (s.recycle b blockno).lookup blockno = some c := by
    refine Option.isSome_iff_exists.mp (List.find?_isSome.mpr ⟨b, hmem, ?_⟩)
    rw [hself]
    exact decide_eq_true ⟨rfl, rfl⟩
  rw [hc, Option.some.injEq]
  by_contra hne
  obtain ⟨hdev, hblock⟩ := Bio.lookup_eq_some hc
  have hother : (s.recycle b blockno).buf c = s.buf c := update_of_ne hne ..
  rw [hother] at hdev hblock
  exact Bio.lookup_eq_none hno (List.mem_of_find?_eq_some hc) hdev hblock

theorem exists_victim (h : Pinned s₀ held m) (hclean : ∃ b, b ∉ held ∧ (m.buf b).dirty = false) :
    ∃ b, m.cache.victim = some b := by
  obtain ⟨b, hb, hd⟩ := hclean
  refine Option.isSome_iff_exists.mp (List.find?_isSome.mpr ⟨b, ?_, ?_⟩)
  · exact List.mem_reverse.mpr (h.mem b)
  · exact decide_eq_true ⟨(h.free b hb).1, hd⟩

theorem acquiresleep_eq (hl : (m.buf b).lock = none) :
    acquiresleep b m = .ok ((), m.setBuf b { m.buf b with lock := some () }) := by
  unfold acquiresleep
  rw [get_bind, if_pos hl]
  rfl

theorem bget_spec {blockno : ℕ} (h : Pinned s₀ held m)
    (hhit : ∀ b, m.cache.lookup blockno = some b → b ∉ held)
    (hmiss : m.cache.lookup blockno = none → ∃ b, b ∉ held ∧ (m.buf b).dirty = false) :
    Decides (bget blockno) m True (Found s₀ held blockno) := by
  unfold bget
  refine .bind_left (get_eq m) ?_
  cases hlook : m.cache.lookup blockno with
  | some b =>
    have hb := hhit b hlook
    obtain ⟨hcount, hl⟩ := h.free b hb
    obtain ⟨hdev, hno⟩ := Bio.lookup_eq_some hlook
    refine .bind_left (set_eq m _) ?_
    refine .bind_left (acquiresleep_eq (by rw [Machine.buf_setBuf_self]; exact hl)) ?_
    rw [Machine.buf_setBuf_self, Machine.setBuf_setBuf]
    refine .pure ⟨hb, ?_, ?_, ?_, ?_⟩
    · refine Eq.trans (lookup_setBuf ?_ ?_ blockno) hlook <;> rfl
    · refine h.setBuf (fun _ => rfl) h.mem rfl (fun c hc => ?_) (fun hc => ?_) (fun _ => ?_) rfl
        fun _ => ⟨rfl, rfl⟩
      · rw [List.mem_cons, or_iff_right hc]
      · exact absurd List.mem_cons_self hc
      · exact ⟨congrArg (· + 1) hcount, rfl⟩
    · rw [Machine.buf_setBuf_self]
      exact hdev
    · rw [Machine.buf_setBuf_self]
      exact hno
  | none =>
    obtain ⟨v, hv⟩ := exists_victim h (hmiss hlook)
    obtain ⟨hcount, hclean⟩ := Bio.victim_eq_some hv
    have hb : v ∉ held := fun hin => by
      have := (h.held v hin).1
      rw [Machine.buf, hcount] at this
      exact absurd this Nat.zero_ne_one
    have hself : (m.recycle v blockno).buf v = { m.buf v with
        dev := ROOTDEV, blockno := blockno, valid := false, dirty := false, refcnt := 1 } :=
      update_self ..
    have hl : ((m.recycle v blockno).buf v).lock = none := by
      rw [hself]
      exact (h.free v hb).2
    simp only [hv]
    refine .bind_left (set_eq m _) (.bind_left (acquiresleep_eq hl) ?_)
    refine .pure ⟨hb, ?_, ?_, ?_, ?_⟩
    · refine Eq.trans (lookup_setBuf ?_ ?_ blockno) (lookup_recycle (h.mem v) hlook) <;> rfl
    · refine h.recycled hb hclean (fun c => congrFun (update_idem _ _ _) c) rfl rfl ?_
      rw [hself]
      exact ⟨rfl, rfl, rfl⟩
    · rw [Machine.buf_setBuf_self, hself]
    · rw [Machine.buf_setBuf_self, hself]

theorem Pinned.iderw (h : Pinned s₀ held m) (hb : b ∈ held) : Pinned s₀ held (m.iderw b) := by
  cases hd : (m.buf b).dirty with
  | true =>
    have hx : Bio.iderw (m.buf b) m.cache.disk = ({ m.buf b with valid := true, dirty := false },
        update m.cache.disk (m.buf b).blockno (m.buf b).data) := if_pos hd
    refine h.wrote hb (fun _ => rfl) rfl (if_pos hd) ?_ ?_ ?_ <;> rw [hx]
  | false =>
    have hx : Bio.iderw (m.buf b) m.cache.disk =
        ({ m.buf b with valid := true, data := m.cache.disk (m.buf b).blockno }, m.cache.disk) :=
      if_neg (hd ▸ Bool.false_ne_true)
    refine h.setBuf (fun _ => rfl) h.mem (if_neg (hd ▸ Bool.false_ne_true)) (fun _ _ => Iff.rfl)
      (fun hc => absurd hb hc) (fun _ => ?_) ?_ fun _ => ?_ <;> rw [hx]
    · exact h.held b hb
    · exact ⟨rfl, rfl⟩

theorem Machine.iderw_key (m : Machine) (b : Fin NBUF) :
    ((m.iderw b).buf b).dev = (m.buf b).dev ∧
      ((m.iderw b).buf b).blockno = (m.buf b).blockno := by
  have hself : (m.iderw b).buf b = (Bio.iderw (m.buf b) m.cache.disk).1 := update_self ..
  obtain ⟨h1, h2, -, -⟩ := Bio.iderw_sameRef (m.buf b) m.cache.disk
  rw [hself]
  exact ⟨h1, h2⟩

theorem bread_spec {blockno : ℕ} (h : Pinned s₀ held m)
    (hhit : ∀ b, m.cache.lookup blockno = some b → b ∉ held)
    (hmiss : m.cache.lookup blockno = none → ∃ b, b ∉ held ∧ (m.buf b).dirty = false) :
    Decides (bread blockno) m True (Found s₀ held blockno) := by
  unfold bread
  refine (bget_spec h hhit hmiss).bind_right fun b m1 hb => ?_
  refine .bind_left (get_eq m1) ?_
  split
  · exact .pure hb
  · obtain ⟨hdev, hno⟩ := m1.iderw_key b
    refine .bind_left (set_eq m1 _) (.pure ⟨hb.fresh, ?_, ?_, ?_, ?_⟩)
    · obtain ⟨h1, h2, -, -⟩ := Bio.iderw_sameRef (m1.buf b) m1.cache.disk
      exact (lookup_setBuf (s := m1.cache) h1 h2 blockno).trans hb.lookup
    · exact hb.pinned.iderw List.mem_cons_self
    · exact hdev.trans hb.dev
    · exact hno.trans hb.blockno

theorem bread_held {blockno : ℕ} {Q : Fin NBUF → Machine → Prop}
    (h : Found s₀ held blockno b m) : Decides (bread blockno) m False Q := by
  have hl : (m.buf b).lock = some () := (h.pinned.held b List.mem_cons_self).2
  refine ⟨False.elim, fun _ => ⟨.asleep, ?_⟩⟩
  have hget : bget blockno m = .error .asleep := by
    unfold bget
    rw [get_bind, h.lookup]
    dsimp only
    rw [set_bind]
    refine bind_error ?_
    unfold acquiresleep
    rw [get_bind, Machine.buf_setBuf_self, if_neg]
    · rfl
    · rw [hl]
      exact Option.some_ne_none _
  exact bind_error hget

theorem fill_spec (h : Pinned s₀ held m) (hb : b ∈ held) (f : Machine → Block) :
    Decides (fill b f) m True fun _ => Pinned s₀ held := by
  refine .of_eq rfl trivial (h.setBuf (fun _ => rfl) h.mem rfl (fun _ _ => Iff.rfl)
    (fun hc => absurd hb hc) (fun _ => h.held b hb) rfl fun _ => ⟨rfl, rfl⟩)

theorem bwrite_spec (h : Pinned s₀ held m) (hb : b ∈ held) :
    Decides (bwrite b) m True fun _ => Pinned s₀ held := by
  unfold bwrite
  refine .bind_left (get_eq m) ?_
  rw [if_pos (h.held b hb).2]
  have hself : (m.setBuf b { m.buf b with dirty := true }).buf b = { m.buf b with dirty := true } :=
    m.buf_setBuf_self b _
  refine .of_eq (set_eq m _) trivial
    (h.wrote hb (fun c => congrFun (update_idem _ _ _) c) rfl ?_ ?_ ?_ ?_)
  · exact (if_pos (by rw [hself])).trans (by rw [hself]; rfl)
  all_goals
    rw [hself]
    rfl

theorem brelse_spec (h : Pinned s₀ held m) (hb : b ∈ held) (hn : held.Nodup) :
    Decides (brelse b) m True fun _ => Pinned s₀ (held.erase b) := by
  unfold brelse
  refine .bind_left (get_eq m) ?_
  obtain ⟨hcount, hl⟩ := h.held b hb
  rw [if_pos hl]
  refine .of_eq (set_eq m _) trivial (h.setBuf (fun _ => rfl) (fun c => ?_) rfl
    (fun c hc => List.mem_erase_of_ne hc) (fun _ => ?_) (fun hin => ?_) rfl fun _ => ⟨rfl, rfl⟩)
  · show c ∈ if (m.buf b).refcnt - 1 = 0 then b :: m.cache.order.erase b else m.cache.order
    split
    · by_cases hc : c = b
      · exact hc ▸ List.mem_cons_self
      · exact List.mem_cons_of_mem _ ((List.mem_erase_of_ne hc).mpr (h.mem c))
    · exact h.mem c
  · exact ⟨by rw [hcount], rfl⟩
  · exact absurd hin hn.not_mem_erase

end Calls

/-! ## The commit -/

section Commit

variable {s₀ : Cache Unit} {lh : List ℕ} {start : ℕ} {m : Machine}

theorem bread_log (hfit : lh.length < nlog) (hr : Ready lh s₀) (h : Pinned s₀ [] m)
    (blockno : ℕ) : Decides (bread blockno) m True (Found s₀ [] blockno) := by
  refine bread_spec h (fun _ _ => List.not_mem_nil) fun _ => ?_
  refine h.exists_clean hr lh.toFinset (fun b hb => ?_) ?_
  · obtain ⟨h1, -, h2⟩ := h.same b hb
    rw [h2]
    exact List.mem_toFinset.mpr (hr.home b h1).2
  · calc lh.toFinset.card + 0 ≤ lh.length := List.toFinset_card_le lh
      _ < NBUF := hfit

theorem bread_home (hfit : lh.length < nlog) (hr : Ready lh s₀) {a : Fin NBUF} {logno blockno : ℕ}
    (h : Found s₀ [] logno a m) (hin : blockno ∈ lh) :
    Decides (bread blockno) m (blockno ≠ logno) (Found s₀ [a] blockno) := by
  by_cases hne : blockno = logno
  · subst hne
    exact (bread_held h).congr (iff_of_false id fun hne => hne rfl)
  refine .congr (bread_spec h.pinned (fun b hb hmem => ?_) fun hno => ?_)
    (iff_of_true trivial hne)
  · obtain rfl := List.mem_singleton.mp hmem
    exact hne ((Bio.lookup_eq_some hb).2.symm.trans h.blockno)
  · refine h.pinned.exists_clean hr (lh.toFinset.erase blockno) (fun b hb => ?_) ?_
    · obtain ⟨h1, h2, h3⟩ := h.pinned.same b hb
      obtain ⟨hdev, hhome⟩ := hr.home b h1
      refine Finset.mem_erase.mpr ⟨?_, h3 ▸ List.mem_toFinset.mpr hhome⟩
      exact Bio.lookup_eq_none hno (h.pinned.mem b) (h2.trans hdev)
    · have hcard := Finset.card_erase_add_one (List.mem_toFinset.mpr hin)
      have hle := List.toFinset_card_le lh
      have hlt : lh.length < NBUF := hfit
      rw [List.length_singleton]
      omega

theorem writeHead_spec (hfit : lh.length < nlog) (hr : Ready lh s₀) (h : Pinned s₀ [] m)
    (bs : List ℕ) : Decides (writeHead start bs) m True fun _ => Pinned s₀ [] := by
  unfold writeHead
  refine (bread_log hfit hr h start).bind_right fun b m1 hb => ?_
  refine (fill_spec hb.pinned List.mem_cons_self _).bind_right fun _ m2 h2 => ?_
  refine (bwrite_spec h2 List.mem_cons_self).bind_right fun _ m3 h3 => ?_
  have hrel := brelse_spec h3 List.mem_cons_self (List.nodup_singleton b)
  rwa [List.erase_cons_head] at hrel

def NoneInItself (start tail : ℕ) (bs : List ℕ) : Prop :=
  ∀ i, bs[i]? ≠ some (start + (tail + i) + 1)

theorem noneInItself_nil (start tail : ℕ) : NoneInItself start tail [] := fun _ => nofun

theorem noneInItself_cons {n tail : ℕ} {bs : List ℕ} :
    NoneInItself start tail (n :: bs) ↔
      n ≠ start + tail + 1 ∧ NoneInItself start (tail + 1) bs := by
  have hshift : ∀ i, start + (tail + 1 + i) + 1 = start + (tail + (i + 1)) + 1 := fun i => by omega
  constructor
  · intro h
    refine ⟨fun hn => h 0 (congrArg some hn), fun i hi => h (i + 1) ?_⟩
    rw [List.getElem?_cons_succ, hi, hshift]
  · rintro ⟨hn, h⟩ i hi
    cases i with
    | zero => exact hn (Option.some.inj hi)
    | succ i => exact h i (by rw [← List.getElem?_cons_succ, hi, hshift])

theorem writeLogFrom_spec (hfit : lh.length < nlog) (hr : Ready lh s₀) {bs : List ℕ} {tail : ℕ}
    (h : Pinned s₀ [] m) (hbs : ∀ n ∈ bs, n ∈ lh) :
    Decides (writeLogFrom start tail bs) m (NoneInItself start tail bs) fun _ => Pinned s₀ [] := by
  induction bs generalizing tail m with
  | nil =>
    unfold writeLogFrom
    exact .congr (.pure h) (iff_of_true trivial (noneInItself_nil start tail))
  | cons n bs ih =>
    refine .congr ?_ noneInItself_cons.symm
    unfold writeLogFrom
    refine (bread_log hfit hr h _).bind_true fun a m1 h1 => ?_
    refine (bread_home hfit hr h1 (hbs n List.mem_cons_self)).bind fun b m2 h2 => ?_
    have ha : a ∈ [b, a] := List.mem_cons_of_mem _ List.mem_cons_self
    have hn : [b, a].Nodup := List.nodup_cons.mpr ⟨h2.fresh, List.nodup_singleton a⟩
    refine (fill_spec h2.pinned ha _).bind_true fun _ m3 h3 => ?_
    refine (bwrite_spec h3 ha).bind_true fun _ m4 h4 => ?_
    refine (brelse_spec h4 List.mem_cons_self hn).bind_true fun _ m5 h5 => ?_
    rw [List.erase_cons_head] at h5
    refine (brelse_spec h5 List.mem_cons_self (List.nodup_singleton a)).bind_true fun _ m6 h6 => ?_
    rw [List.erase_cons_head] at h6
    exact ih h6 fun k hk => hbs k (List.mem_cons_of_mem _ hk)

theorem installTransFrom_spec (hfit : lh.length < nlog) (hr : Ready lh s₀) {bs : List ℕ} {tail : ℕ}
    (h : Pinned s₀ [] m) (hbs : ∀ n ∈ bs, n ∈ lh) :
    Decides (installTransFrom start tail bs) m (NoneInItself start tail bs)
      fun _ => Pinned s₀ [] := by
  induction bs generalizing tail m with
  | nil =>
    unfold installTransFrom
    exact .congr (.pure h) (iff_of_true trivial (noneInItself_nil start tail))
  | cons n bs ih =>
    refine .congr ?_ noneInItself_cons.symm
    unfold installTransFrom
    refine (bread_log hfit hr h _).bind_true fun a m1 h1 => ?_
    refine (bread_home hfit hr h1 (hbs n List.mem_cons_self)).bind fun b m2 h2 => ?_
    have hab : b ≠ a := fun hab => h2.fresh (hab ▸ List.mem_cons_self)
    have ha : a ∈ [b, a] := List.mem_cons_of_mem _ List.mem_cons_self
    have hn : [b, a].Nodup := List.nodup_cons.mpr ⟨h2.fresh, List.nodup_singleton a⟩
    refine (fill_spec h2.pinned List.mem_cons_self _).bind_true fun _ m3 h3 => ?_
    refine (bwrite_spec h3 List.mem_cons_self).bind_true fun _ m4 h4 => ?_
    refine (brelse_spec h4 ha hn).bind_true fun _ m5 h5 => ?_
    rw [List.erase_cons_tail (by simpa using hab), List.erase_cons_head] at h5
    refine (brelse_spec h5 List.mem_cons_self (List.nodup_singleton b)).bind_true fun _ m6 h6 => ?_
    rw [List.erase_cons_head] at h6
    exact ih h6 fun k hk => hbs k (List.mem_cons_of_mem _ hk)

theorem commit_of_fits (hfit : lh.length < nlog) (hr : Ready lh s₀) :
    Decides (commit start lh) ⟨s₀, []⟩ (NoneInItself start 0 lh) fun _ => Pinned s₀ [] := by
  have hall : ∀ n ∈ lh, n ∈ lh := fun _ hn => hn
  unfold commit
  split
  next =>
    have hlog : Decides (writeLogFrom start 0 lh) ⟨s₀, []⟩ _ _ :=
      writeLogFrom_spec hfit hr hr.pinned hall
    by_cases hown : NoneInItself start 0 lh
    · refine hlog.bind_right fun _ m1 h1 => ?_
      refine (writeHead_spec hfit hr h1 lh).bind_right fun _ m2 h2 => ?_
      refine .bind_right ((installTransFrom_spec hfit hr h2 hall).congr
        (iff_of_true hown trivial)) fun _ m3 h3 => ?_
      exact writeHead_spec hfit hr h3 []
    · obtain ⟨e, he⟩ := hlog.2 hown
      exact ⟨fun h => absurd h hown, fun _ => ⟨e, bind_error he⟩⟩
  next hlen =>
    obtain rfl := List.eq_nil_of_length_eq_zero (Nat.eq_zero_of_not_pos hlen)
    exact .congr (.pure hr.pinned) (iff_of_true trivial (noneInItself_nil start 0))

/-! ### A header that pins every buffer -/

theorem Ready.length_le (hr : Ready lh s₀) (hn : lh.Nodup) :
    lh.length ≤ (Finset.univ.filter fun b => (s₀.buf b).dirty = true).card := by
  rw [← List.toFinset_card_of_nodup hn]
  refine (Finset.card_le_card fun n hin => ?_).trans
    (Finset.card_image_le (f := fun b => (s₀.buf b).blockno))
  obtain ⟨b, hb, hno⟩ := hr.cached n (List.mem_toFinset.mp hin)
  exact Finset.mem_image.mpr ⟨b, Finset.mem_filter.mpr ⟨Finset.mem_univ b, hb⟩, hno⟩

theorem Ready.all_dirty (hr : Ready lh s₀) (hn : lh.Nodup) (hfull : NBUF ≤ lh.length)
    (b : Fin NBUF) : (s₀.buf b).dirty = true := by
  have hall : (Finset.univ.filter fun b => (s₀.buf b).dirty = true) = Finset.univ := by
    refine Finset.eq_univ_of_card _ (le_antisymm (Finset.card_le_univ _) ?_)
    rw [Fintype.card_fin]
    exact hfull.trans (hr.length_le hn)
  have hb := Finset.mem_univ b
  rw [← hall] at hb
  exact (Finset.mem_filter.mp hb).2

theorem commit_of_full (hr : Ready lh s₀) (hn : lh.Nodup) (hfull : NBUF ≤ lh.length)
    (hfirst : start + 1 ∉ lh) : commit start lh ⟨s₀, []⟩ = .error .noBuffers := by
  have hdirty := hr.all_dirty hn hfull
  have hlook : s₀.lookup (start + 1) = none := by
    refine List.find?_eq_none.mpr fun b _ hb => ?_
    obtain ⟨-, hno⟩ := of_decide_eq_true hb
    exact hfirst (hno ▸ (hr.home b (hdirty b)).2)
  have hvictim : s₀.victim = none := by
    refine List.find?_eq_none.mpr fun b _ hb => ?_
    obtain ⟨-, hclean⟩ := of_decide_eq_true hb
    rw [hdirty b] at hclean
    cases hclean
  have hget : bget (start + 1) ⟨s₀, []⟩ = .error .noBuffers := by
    unfold bget
    rw [get_bind]
    simp only [hlook, hvictim]
    rfl
  have hlog : writeLogFrom start 0 lh ⟨s₀, []⟩ = .error .noBuffers := by
    cases lh with
    | nil => exact absurd hfull (by decide)
    | cons n bs => exact bind_error (bind_error hget)
  unfold commit
  rw [if_pos (lt_of_lt_of_le (by decide) hfull)]
  exact bind_error hlog

/-- **When a commit finds its buffers.** `commit` returns, having recycled no buffer of the
transaction before its home block was written, exactly if the header has at most `log.size - 1`
blocks and no block is logged in itself. The one header this leaves out has `log.size` blocks and
among them the first block of the log. -/
theorem commit_finds_buffers (hadm : Admitted lh) (hr : Ready lh s₀)
    (hfirst : nlog ≤ lh.length → start + 1 ∉ lh) :
    (∃ m, commit start lh ⟨s₀, []⟩ = .ok ((), m) ∧ Kept s₀ m.trace) ↔
      lh.length ≤ nlog - 1 ∧ ∀ i, lh[i]? ≠ some (start + i + 1) := by
  have hown : NoneInItself start 0 lh ↔ ∀ i, lh[i]? ≠ some (start + i + 1) := by
    unfold NoneInItself
    simp only [Nat.zero_add]
  by_cases hfit : lh.length < nlog
  · rw [and_iff_right (by omega), ← hown]
    have hcommit : Decides (commit start lh) ⟨s₀, []⟩ _ _ := commit_of_fits hfit hr
    constructor
    · rintro ⟨m, hm, -⟩
      exact (hcommit.of_ok hm).1
    · intro h
      obtain ⟨_, m, hm, hp⟩ := hcommit.1 h
      exact ⟨m, hm, hp.kept⟩
  · refine iff_of_false ?_ fun h => hfit (lt_of_le_of_lt h.1 (by decide))
    rintro ⟨m, hm, -⟩
    rw [commit_of_full hr hadm.nodup (not_lt.mp hfit) (hfirst (not_lt.mp hfit))] at hm
    cases hm

end Commit

def loadedBuf : Option ℕ → Buf Unit
  | some n => ⟨ROOTDEV, n, true, true, 0, none, Block.zero, false, false⟩
  | none => ⟨0, 0, false, false, 0, none, Block.zero, false, false⟩

def loaded (lh : List ℕ) : Cache Unit where
  buf b := loadedBuf lh[b.val]?
  order := List.finRange NBUF
  disk _ := Block.zero
  stage _ := .idle
  latest _ := Block.zero

theorem loadedBuf_dirty {o : Option ℕ} (h : (loadedBuf o).dirty = true) :
    (loadedBuf o).dev = ROOTDEV ∧ o = some (loadedBuf o).blockno := by
  cases o with
  | none => cases h
  | some n => exact ⟨rfl, rfl⟩

theorem loaded_ready {lh : List ℕ} (hn : lh.Nodup) (hl : lh.length ≤ NBUF) :
    Ready lh (loaded lh) where
  mem := List.mem_finRange
  free b := by
    show (loadedBuf lh[b.val]?).refcnt = 0 ∧ (loadedBuf lh[b.val]?).lock = none
    cases lh[b.val]? <;> exact ⟨rfl, rfl⟩
  home b hb := ⟨(loadedBuf_dirty hb).1, List.mem_of_getElem? (loadedBuf_dirty hb).2⟩
  inj b c hb hc heq := by
    have h1 := (loadedBuf_dirty hb).2
    have h2 := (loadedBuf_dirty hc).2
    replace heq : (loadedBuf lh[b.val]?).blockno = (loadedBuf lh[c.val]?).blockno := heq
    rw [← heq] at h2
    exact Fin.ext ((List.getElem?_inj (List.getElem?_eq_some_iff.mp h1).1 hn).mp (h1.trans h2.symm))
  cached n hin := by
    obtain ⟨i, hi⟩ := List.mem_iff_getElem?.mp hin
    have hbuf : loadedBuf lh[i]? = loadedBuf (some n) := congrArg _ hi
    refine ⟨⟨i, (List.getElem?_eq_some_iff.mp hi).1.trans_le hl⟩, ?_, ?_⟩
    · exact congrArg Buf.dirty hbuf
    · exact congrArg Buf.blockno hbuf

def fullHeader : List ℕ :=
  (List.range 10).map (100 + ·) ++ (List.range 9).map (200 + ·) ++ (List.range 10).map (300 + ·)

/-- The largest header that leaves a buffer: 29 blocks in 30 buffers. -/
theorem commit_finds_buffers_full : Admitted fullHeader ∧
    ∃ m, commit 2 fullHeader ⟨loaded fullHeader, []⟩ = .ok ((), m) ∧
      Kept (loaded fullHeader) m.trace := by
  obtain ⟨s, -, hr, hq⟩ := Lts.exists_reach (gstep nlog) (ginit : GState (Fin 3)) (threeOps 10)
    (fun s => s.lh = fullHeader) (by decide +kernel) (Lts.RunOk.trivial _ _)
  have hadm : Admitted fullHeader := ⟨3, s, hr, of_decide_eq_true hq⟩
  have hlong : ∀ n ∈ fullHeader, 100 ≤ n := by decide
  refine ⟨hadm, (commit_finds_buffers hadm (loaded_ready (by decide) (by decide)) ?_).mpr
    ⟨by decide, fun i hi => ?_⟩⟩
  · exact fun hfull => absurd hfull (by decide)
  · have hlow := hlong _ (List.mem_of_getElem? hi)
    have hlt := (List.getElem?_eq_some_iff.mp hi).1
    have hlen : fullHeader.length = 29 := by decide
    omega

def raceHeader : List ℕ :=
  (List.range 10).map (100 + ·) ++ (List.range 9).map (200 + ·) ++ (List.range 9).map (300 + ·) ++
    [209, 309]

/-- Three operations of ten blocks each leave a header of 30 blocks, for which there is no buffer
left. And a transaction with the block that `write_log` copies it to: the second `bread` sleeps on
the buffer that the first one has locked. -/
theorem commit_stops :
    ((∃ s, Lts.Reach (gstep nlog) InBudget (ginit : GState (Fin 3)) s ∧ s.lh = raceHeader) ∧
      Ready raceHeader (loaded raceHeader) ∧
      commit 2 raceHeader ⟨loaded raceHeader, []⟩ = .error .noBuffers) ∧
    Admitted [3] ∧ Ready [3] (loaded [3]) ∧ commit 2 [3] ⟨loaded [3], []⟩ = .error .asleep := by
  refine ⟨⟨?_, ?_, ?_⟩, ?_, loaded_ready (by decide) (by decide), rfl⟩
  · have hok : Lts.RunOk (gstep nlog) InBudget (ginit : GState (Fin 3)) overrunRace := by
      decide +kernel
    obtain ⟨s, -, hr, hq⟩ := Lts.exists_reach (gstep nlog) (ginit : GState (Fin 3)) overrunRace
      (fun s => s.lh = raceHeader) (by decide +kernel) hok
    exact ⟨s, hr, of_decide_eq_true hq⟩
  · exact loaded_ready (by decide) (by decide)
  · exact commit_of_full (loaded_ready (by decide) (by decide)) (by decide) (by decide) (by decide)
  · obtain ⟨s, -, hr, hq⟩ := Lts.exists_reach (gstep nlog) (ginit : GState (Fin 3))
      ([.beginOp 0, .tryBegin 0] ++ writeBlock 0 3) (fun s => s.lh = [3]) (by decide +kernel)
      (Lts.RunOk.trivial _ _)
    exact ⟨3, s, hr, of_decide_eq_true hq⟩

end Xv6.Log.Buffers
