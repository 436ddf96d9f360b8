import Xv6.Lib.Account
import Xv6.Lib.Lts
import Xv6.Block

/-!
# The buffer cache

`bio.c` for any number of processes on device `ROOTDEV`. `bget` finds or recycles a buffer under
`bcache.lock` and only then waits for the buffer's sleep lock, and `brelse` gives up the sleep lock
before it takes `bcache.lock` to count itself out; each of these is a step of its own, and a device
transfer is one step.

1. `Cache` and its steps. `B_DIRTY` is set by `log_write` and pins the buffer.
2. `RefInv`: identities and reference counts. A buffer that anyone holds or waits for has a positive
   count, so `bget` does not recycle it.
3. `LockInv` and `DataInv`: what is in the buffers, compared with the disk and with what the
   holders of each block have left in its buffer.
-/

namespace Xv6.Bio

open Function

structure Buf (P : Type) where
  dev : ℕ
  blockno : ℕ
  /-- `B_VALID` -/
  valid : Bool
  /-- `B_DIRTY` -/
  dirty : Bool
  refcnt : ℕ
  /-- the process that has the sleep lock -/
  lock : Option P
  data : Block
  /-- the holder has changed the data since it last called `log_write` or `bwrite` -/
  touched : Bool
  /-- the holder has called `log_write` or `bwrite` -/
  logged : Bool

inductive Stage
  | idle
  /-- in `bget(ROOTDEV, blockno)`, counted in but before `acquiresleep` returns -/
  | waiting (b : Fin NBUF) (blockno : ℕ)
  /-- in `bread`, with the lock, before the block is read -/
  | filling (b : Fin NBUF) (blockno : ℕ)
  /-- in `brelse`, after `releasesleep` -/
  | releasing (b : Fin NBUF)
  deriving DecidableEq

structure Cache (P : Type) where
  buf : Fin NBUF → Buf P
  /-- `bcache.head.next` first -/
  order : List (Fin NBUF)
  disk : ℕ → Block
  stage : P → Stage
  /-- what the last holder that called `log_write` or `bwrite` left in a block's buffer -/
  latest : ℕ → Block

inductive Label (P : Type)
  | bget (p : P) (blockno : ℕ)
  | acquire (p : P)
  | fill (p : P)
  | change (p : P) (b : Fin NBUF) (data : Block)
  | logWrite (p : P) (b : Fin NBUF)
  | bwrite (p : P) (b : Fin NBUF)
  | unlock (p : P) (b : Fin NBUF)
  | release (p : P)

variable {P : Type}

def iderw (b : Buf P) (disk : ℕ → Block) : Buf P × (ℕ → Block) :=
  if b.dirty then ({ b with valid := true, dirty := false }, update disk b.blockno b.data)
  else ({ b with valid := true, data := disk b.blockno }, disk)

namespace Cache

def setBuf (s : Cache P) (b : Fin NBUF) (x : Buf P) : Cache P := { s with buf := update s.buf b x }

def lookup (s : Cache P) (blockno : ℕ) : Option (Fin NBUF) :=
  s.order.find? fun b => (s.buf b).dev = ROOTDEV ∧ (s.buf b).blockno = blockno

def victim (s : Cache P) : Option (Fin NBUF) :=
  s.order.reverse.find? fun b => (s.buf b).refcnt = 0 ∧ (s.buf b).dirty = false

def recycle (s : Cache P) (b : Fin NBUF) (blockno : ℕ) : Cache P :=
  s.setBuf b
    { s.buf b with dev := ROOTDEV, blockno := blockno, valid := false, dirty := false, refcnt := 1 }

variable [DecidableEq P]

def goto (s : Cache P) (p : P) (st : Stage) : Cache P := { s with stage := update s.stage p st }

/-- `bget` up to `acquiresleep`; it panics if there is no buffer to recycle. -/
def bget (s : Cache P) (p : P) (blockno : ℕ) : Option (Cache P) :=
  match s.lookup blockno with
  | some b =>
    some ((s.setBuf b { s.buf b with refcnt := (s.buf b).refcnt + 1 }).goto p (.waiting b blockno))
  | none => s.victim.map fun b => (s.recycle b blockno).goto p (.waiting b blockno)

def fill (s : Cache P) (p : P) (b : Fin NBUF) : Cache P :=
  if (s.buf b).valid then s.goto p .idle
  else
    let (x, disk) := iderw (s.buf b) s.disk
    { (s.setBuf b x).goto p .idle with disk := disk }

def bwrite (s : Cache P) (b : Fin NBUF) : Cache P :=
  let (x, disk) := iderw { s.buf b with dirty := true, touched := false, logged := true } s.disk
  { s.setBuf b x with disk := disk }

def unlock (s : Cache P) (p : P) (b : Fin NBUF) : Cache P :=
  { (s.setBuf b { s.buf b with lock := none, touched := false, logged := false }).goto p
      (.releasing b) with
    latest := if (s.buf b).logged then update s.latest (s.buf b).blockno (s.buf b).data
      else s.latest }

def release (s : Cache P) (p : P) (b : Fin NBUF) : Cache P :=
  { (s.setBuf b { s.buf b with refcnt := (s.buf b).refcnt - 1 }).goto p .idle with
    order := if (s.buf b).refcnt - 1 = 0 then b :: s.order.erase b else s.order }

end Cache

def start (disk : ℕ → Block) (data : Fin NBUF → Block) : Cache P where
  buf b := ⟨0, 0, false, false, 0, none, data b, false, false⟩
  order := (List.finRange NBUF).reverse
  disk := disk
  stage _ := .idle
  latest := disk

section

variable [DecidableEq P]

def step (s : Cache P) : Label P → Option (Cache P)
  | .bget p blockno => if s.stage p = .idle then s.bget p blockno else none
  | .acquire p =>
    match s.stage p with
    | .waiting b blockno =>
      if (s.buf b).lock = none then
        some ((s.setBuf b { s.buf b with lock := some p }).goto p (.filling b blockno))
      else none
    | _ => none
  | .fill p =>
    match s.stage p with
    | .filling b _ => some (s.fill p b)
    | _ => none
  | .change p b data =>
    if (s.buf b).lock = some p ∧ s.stage p = .idle then
      some (s.setBuf b { s.buf b with data := data, touched := true })
    else none
  | .logWrite p b =>
    if (s.buf b).lock = some p ∧ s.stage p = .idle then
      some (s.setBuf b { s.buf b with dirty := true, touched := false, logged := true })
    else none
  | .bwrite p b =>
    if (s.buf b).lock = some p ∧ s.stage p = .idle then some (s.bwrite b) else none
  | .unlock p b =>
    if (s.buf b).lock = some p ∧ s.stage p = .idle then some (s.unlock p b) else none
  | .release p =>
    match s.stage p with
    | .releasing b => some (s.release p b)
    | _ => none

/-- A holder that has changed the data has called `bwrite` since, or `log_write`, which pins the
buffer. -/
def Logs (s : Cache P) : Label P → Prop
  | .unlock _ b => (s.buf b).touched = true → (s.buf b).dirty = true ∧ (s.buf b).logged = true
  | _ => True

inductive Step (s : Cache P) : Label P → Cache P → Prop
  | hit {p : P} {blockno : ℕ} {b : Fin NBUF} (hp : s.stage p = .idle)
      (hb : s.lookup blockno = some b) :
      Step s (.bget p blockno)
        ((s.setBuf b { s.buf b with refcnt := (s.buf b).refcnt + 1 }).goto p (.waiting b blockno))
  | miss {p : P} {blockno : ℕ} {b : Fin NBUF} (hp : s.stage p = .idle)
      (hno : s.lookup blockno = none) (hb : s.victim = some b) :
      Step s (.bget p blockno) ((s.recycle b blockno).goto p (.waiting b blockno))
  | acquire {p : P} {b : Fin NBUF} {blockno : ℕ} (hp : s.stage p = .waiting b blockno)
      (hl : (s.buf b).lock = none) :
      Step s (.acquire p)
        ((s.setBuf b { s.buf b with lock := some p }).goto p (.filling b blockno))
  | fill {p : P} {b : Fin NBUF} {blockno : ℕ} (hp : s.stage p = .filling b blockno) :
      Step s (.fill p) (s.fill p b)
  | change {p : P} {b : Fin NBUF} {data : Block} (hl : (s.buf b).lock = some p)
      (hp : s.stage p = .idle) :
      Step s (.change p b data) (s.setBuf b { s.buf b with data := data, touched := true })
  | logWrite {p : P} {b : Fin NBUF} (hl : (s.buf b).lock = some p) (hp : s.stage p = .idle) :
      Step s (.logWrite p b)
        (s.setBuf b { s.buf b with dirty := true, touched := false, logged := true })
  | bwrite {p : P} {b : Fin NBUF} (hl : (s.buf b).lock = some p) (hp : s.stage p = .idle) :
      Step s (.bwrite p b) (s.bwrite b)
  | unlock {p : P} {b : Fin NBUF} (hl : (s.buf b).lock = some p) (hp : s.stage p = .idle) :
      Step s (.unlock p b) (s.unlock p b)
  | release {p : P} {b : Fin NBUF} (hp : s.stage p = .releasing b) :
      Step s (.release p) (s.release p b)

theorem step_cases {s s' : Cache P} {l : Label P} (h : step s l = some s') : Step s l s' := by
  cases l with
  | bget p blockno =>
    obtain ⟨hp, h⟩ := Option.ite_none_right_eq_some.mp h
    unfold Cache.bget at h
    split at h
    · next b hb => exact Option.some.inj h ▸ .hit hp hb
    · next hno =>
      obtain ⟨b, hb, rfl⟩ := Option.map_eq_some_iff.mp h
      exact .miss hp hno hb
  | acquire p =>
    simp only [step] at h
    split at h
    · next b blockno hp =>
      obtain ⟨hl, rfl⟩ := Lts.of_guard h
      exact .acquire hp hl
    · cases h
  | fill p =>
    simp only [step] at h
    split at h
    · next b blockno hp => exact Option.some.inj h ▸ .fill hp
    · cases h
  | change p b data =>
    obtain ⟨⟨hl, hp⟩, rfl⟩ := Lts.of_guard h
    exact .change hl hp
  | logWrite p b =>
    obtain ⟨⟨hl, hp⟩, rfl⟩ := Lts.of_guard h
    exact .logWrite hl hp
  | bwrite p b =>
    obtain ⟨⟨hl, hp⟩, rfl⟩ := Lts.of_guard h
    exact .bwrite hl hp
  | unlock p b =>
    obtain ⟨⟨hl, hp⟩, rfl⟩ := Lts.of_guard h
    exact .unlock hl hp
  | release p =>
    simp only [step] at h
    split at h
    · next b hp => exact Option.some.inj h ▸ .release hp
    · cases h

end

theorem Cache.bwrite_disk (s : Cache P) (b : Fin NBUF) :
    (s.bwrite b).disk = update s.disk (s.buf b).blockno (s.buf b).data := rfl

theorem Cache.unlock_latest [DecidableEq P] (s : Cache P) (p : P) (b : Fin NBUF) :
    (s.unlock p b).latest =
      if (s.buf b).logged then update s.latest (s.buf b).blockno (s.buf b).data
      else s.latest := rfl

/-! ## Identities and reference counts -/

def Stage.waits (b : Fin NBUF) : Stage → Bool
  | .waiting c _ => c = b
  | _ => false

def Stage.leaves (b : Fin NBUF) : Stage → Bool
  | .releasing c => c = b
  | _ => false

def Stage.uses (b : Fin NBUF) (st : Stage) : ℕ :=
  (if st.waits b then 1 else 0) + if st.leaves b then 1 else 0

def Stage.asks (b : Fin NBUF) (blockno : ℕ) : Stage → Prop
  | .waiting c n => c = b ∧ n = blockno
  | .filling c n => c = b ∧ n = blockno
  | _ => False

structure RefInv [Fintype P] (s : Cache P) : Prop where
  mem : ∀ b, b ∈ s.order
  uniq : ∀ b c, (s.buf b).dev = ROOTDEV → (s.buf c).dev = ROOTDEV →
    (s.buf b).blockno = (s.buf c).blockno → b = c
  count : ∀ b, (s.buf b).refcnt =
    (if (s.buf b).lock = none then 0 else 1) + ∑ p, (s.stage p).uses b
  asks : ∀ p b blockno, (s.stage p).asks b blockno →
    (s.buf b).dev = ROOTDEV ∧ (s.buf b).blockno = blockno
  fills : ∀ p b blockno, s.stage p = .filling b blockno → (s.buf b).lock = some p

def Buf.SameRef (x y : Buf P) : Prop :=
  x.dev = y.dev ∧ x.blockno = y.blockno ∧ x.refcnt = y.refcnt ∧ x.lock = y.lock

theorem iderw_sameRef (x : Buf P) (disk : ℕ → Block) : (iderw x disk).1.SameRef x := by
  unfold iderw
  split <;> exact ⟨rfl, rfl, rfl, rfl⟩

theorem iderw_spec (x : Buf P) (disk : ℕ → Block) :
    (iderw x disk).1.valid = true ∧ (iderw x disk).1.lock = x.lock ∧
      (iderw x disk).1.touched = x.touched ∧ (iderw x disk).1.logged = x.logged := by
  unfold iderw
  split <;> exact ⟨rfl, rfl, rfl, rfl⟩

theorem fill_spec [DecidableEq P] (s : Cache P) (p : P) (b : Fin NBUF) :
    (s.fill p b).stage p = .idle ∧ (s.fill p b).latest = s.latest ∧
    ((s.fill p b).buf b).valid = true ∧ ((s.fill p b).buf b).lock = (s.buf b).lock ∧
    ((s.fill p b).buf b).touched = (s.buf b).touched ∧
    ((s.fill p b).buf b).logged = (s.buf b).logged := by
  unfold Cache.fill
  split
  · next hv => exact ⟨update_self _ _ _, rfl, hv, rfl, rfl, rfl⟩
  · refine ⟨update_self _ _ _, rfl, ?_⟩
    simpa [Cache.setBuf, Cache.goto] using iderw_spec (s.buf b) s.disk

variable {b : Fin NBUF} {s : Cache P}

theorem lookup_eq_some {blockno : ℕ}
    (h : s.lookup blockno = some b) : (s.buf b).dev = ROOTDEV ∧ (s.buf b).blockno = blockno := by
  simpa using List.find?_some h

theorem lookup_eq_none {blockno : ℕ} (h : s.lookup blockno = none)
    (hb : b ∈ s.order) (hdev : (s.buf b).dev = ROOTDEV) : (s.buf b).blockno ≠ blockno := by
  intro heq
  have hno := List.find?_eq_none.mp h b hb
  simp [hdev, heq] at hno

theorem victim_eq_some (h : s.victim = some b) :
    (s.buf b).refcnt = 0 ∧ (s.buf b).dirty = false := by
  simpa using List.find?_some h

theorem Stage.uses_waiting {n : ℕ} : (Stage.waiting b n).uses b = 1 := by
  simp [Stage.uses, Stage.waits, Stage.leaves]

theorem RefInv.unused [Fintype P] (h : RefInv s) (hb : (s.buf b).refcnt = 0) :
    (s.buf b).lock = none ∧ ∀ q, (s.stage q).uses b = 0 := by
  have hcount := h.count b
  rw [hb] at hcount
  refine ⟨?_, fun q => ?_⟩
  · by_contra hl
    rw [if_neg hl] at hcount
    omega
  · have := Account.le_sum (f := fun q => (s.stage q).uses b) (Finset.mem_univ q)
    omega

section

variable [DecidableEq P] [Fintype P] {s s' : Cache P} {p : P} {b : Fin NBUF}
  {st : Stage} {x : Buf P}

theorem sum_uses (hst : s'.stage = update s.stage p st) (c : Fin NBUF) :
    ∑ q, (s'.stage q).uses c + (s.stage p).uses c = ∑ q, (s.stage q).uses c + st.uses c := by
  have h := Account.sum_change (f := fun q => (s.stage q).uses c)
    (g := fun q => (s'.stage q).uses c) (Finset.mem_univ p) fun q _ hq => by
      rw [hst, update_of_ne hq]
  rwa [hst, update_self, ← hst] at h

theorem RefInv.update (h : RefInv s) (hbuf : s'.buf = update s.buf b x)
    (hst : s'.stage = update s.stage p st) (hmem : ∀ c, c ∈ s'.order)
    (hdev : x.dev = (s.buf b).dev) (hno : x.blockno = (s.buf b).blockno)
    (hcount : x.refcnt + (if (s.buf b).lock = none then 0 else 1) + (s.stage p).uses b =
      (s.buf b).refcnt + (if x.lock = none then 0 else 1) + st.uses b)
    (huses : ∀ c, c ≠ b → (s.stage p).uses c = st.uses c)
    (hasks : ∀ c n, st.asks c n → (s.buf c).dev = ROOTDEV ∧ (s.buf c).blockno = n)
    (hlock : x.lock = (s.buf b).lock ∨ (s.buf b).lock = none ∨ (s.buf b).lock = some p)
    (hfill : ∀ c n, st = .filling c n → c = b ∧ x.lock = some p) :
    RefInv s' := by
  have hid : ∀ c, (s'.buf c).dev = (s.buf c).dev ∧ (s'.buf c).blockno = (s.buf c).blockno := by
    intro c
    by_cases hc : c = b
    · subst hc
      simp [hbuf, hdev, hno]
    · simp [hbuf, update_of_ne hc]
  refine ⟨hmem, fun c d hc hd heq => ?_, fun c => ?_, fun q c n hq => ?_, fun q c n hq => ?_⟩
  · rw [(hid c).1] at hc
    rw [(hid d).1] at hd
    rw [(hid c).2, (hid d).2] at heq
    exact h.uniq c d hc hd heq
  · have hsum := sum_uses hst c
    have hold := h.count c
    by_cases hc : c = b
    · subst hc
      rw [hbuf, update_self]
      omega
    · rw [hbuf, update_of_ne hc]
      have := huses c hc
      omega
  · rw [(hid c).1, (hid c).2]
    by_cases hqp : q = p
    · subst hqp
      rw [hst, update_self] at hq
      exact hasks c n hq
    · rw [hst, update_of_ne hqp] at hq
      exact h.asks q c n hq
  · by_cases hqp : q = p
    · subst hqp
      rw [hst, update_self] at hq
      obtain ⟨rfl, hl⟩ := hfill c n hq
      rwa [hbuf, update_self]
    · rw [hst, update_of_ne hqp] at hq
      have hl := h.fills q c n hq
      by_cases hc : c = b
      · subst hc
        rw [hbuf, update_self]
        rcases hlock with hx | hx | hx
        · rwa [hx]
        · rw [hx] at hl
          cases hl
        · exact absurd (Option.some.inj (hl.symm.trans hx)) hqp
      · rwa [hbuf, update_of_ne hc]

theorem RefInv.idle (h : RefInv s) (hbuf : s'.buf = Function.update s.buf b x)
    (hst : s'.stage = Function.update s.stage p .idle) (horder : s'.order = s.order)
    (hx : x.SameRef (s.buf b)) (hp : ∀ c, (s.stage p).uses c = 0) : RefInv s' := by
  obtain ⟨hdev, hno, hcnt, hl⟩ := hx
  refine h.update hbuf hst (fun c => horder ▸ h.mem c) hdev hno ?_ (fun c _ => hp c)
    (fun c n hc => hc.elim) (.inl hl) fun c n hc => by cases hc
  rw [hcnt, hl, hp]
  rfl

theorem RefInv.miss (h : RefInv s) {n : ℕ} (hp : s.stage p = .idle) (hno : s.lookup n = none)
    (hb : s.victim = some b) : RefInv ((s.recycle b n).goto p (.waiting b n)) := by
  obtain ⟨hlock, hfree⟩ := h.unused (victim_eq_some hb).1
  have hother : ∀ c, c ≠ b → ((s.recycle b n).goto p (.waiting b n)).buf c = s.buf c :=
    fun c hc => update_of_ne hc _ _
  have hself : ((s.recycle b n).goto p (.waiting b n)).buf b =
      { s.buf b with dev := ROOTDEV, blockno := n, valid := false, dirty := false, refcnt := 1 } :=
    update_self _ _ _
  have hstage : ∀ q, q ≠ p → ((s.recycle b n).goto p (.waiting b n)).stage q = s.stage q :=
    fun q hq => update_of_ne hq _ _
  have hwait : ((s.recycle b n).goto p (.waiting b n)).stage p = .waiting b n := update_self _ _ _
  refine ⟨h.mem, fun c d hc hd heq => ?_, fun c => ?_, fun q c m hq => ?_, fun q c m hq => ?_⟩
  · by_cases hcb : c = b <;> by_cases hdb : d = b
    · rw [hcb, hdb]
    · subst hcb
      rw [hself, hother d hdb] at heq
      rw [hother d hdb] at hd
      exact absurd heq.symm (lookup_eq_none hno (h.mem d) hd)
    · subst hdb
      rw [hself, hother c hcb] at heq
      rw [hother c hcb] at hc
      exact absurd heq (lookup_eq_none hno (h.mem c) hc)
    · rw [hother c hcb] at hc heq
      rw [hother d hdb] at hd heq
      exact h.uniq c d hc hd heq
  · have hst : ((s.recycle b n).goto p (.waiting b n)).stage =
        Function.update s.stage p (.waiting b n) := rfl
    have hsum := sum_uses hst c
    rw [hp] at hsum
    have hold := h.count c
    by_cases hc : c = b
    · subst hc
      have hzero : ∑ q, (s.stage q).uses c = 0 := Finset.sum_eq_zero fun q _ => hfree q
      have hone : (Stage.waiting c n).uses c = 1 := Stage.uses_waiting
      have hidle : Stage.idle.uses c = 0 := rfl
      rw [hself]
      simp only [hlock, if_true]
      omega
    · have hzero : (Stage.waiting b n).uses c = 0 := by
        simp [Stage.uses, Stage.waits, Stage.leaves, Ne.symm hc]
      have hidle : Stage.idle.uses c = 0 := rfl
      rw [hother c hc]
      omega
  · by_cases hqp : q = p
    · subst hqp
      rw [hwait] at hq
      obtain ⟨rfl, rfl⟩ := hq
      rw [hself]
      exact ⟨rfl, rfl⟩
    · rw [hstage q hqp] at hq
      have hcb : c ≠ b := by
        rintro rfl
        -- a process that asks for the buffer waits for it or has its lock
        cases hst : s.stage q with
        | idle => simp [hst, Stage.asks] at hq
        | waiting d k =>
          rw [hst] at hq
          obtain ⟨rfl, rfl⟩ := hq
          have huse := hfree q
          rw [hst, Stage.uses_waiting] at huse
          omega
        | filling d k =>
          rw [hst] at hq
          obtain ⟨rfl, rfl⟩ := hq
          have hl := h.fills q d k hst
          rw [hlock] at hl
          cases hl
        | releasing d => simp [hst, Stage.asks] at hq
      rw [hother c hcb]
      exact h.asks q c m hq
  · by_cases hqp : q = p
    · subst hqp
      rw [hwait] at hq
      cases hq
    · rw [hstage q hqp] at hq
      have hl := h.fills q c m hq
      have hcb : c ≠ b := by
        rintro rfl
        rw [hlock] at hl
        cases hl
      rwa [hother c hcb]

theorem RefInv.step {l : Label P} (h : RefInv s) (hs : step s l = some s') : RefInv s' := by
  cases step_cases hs with
  | @hit p n b hp hb =>
    refine h.update rfl rfl h.mem rfl rfl ?_ ?_ ?_ (.inl rfl) fun c m hc => by cases hc
    · rw [hp, Stage.uses_waiting]
      simp [Stage.uses, Stage.waits, Stage.leaves]
      omega
    · intro c hc
      simp [hp, Stage.uses, Stage.waits, Stage.leaves, Ne.symm hc]
    · rintro c m ⟨rfl, rfl⟩
      exact lookup_eq_some hb
  | miss hp hno hb => exact h.miss hp hno hb
  | @acquire p b n hp hl =>
    refine h.update rfl rfl h.mem rfl rfl ?_ ?_ ?_ (.inr (.inl hl)) ?_
    · simp [hp, hl, Stage.uses, Stage.waits, Stage.leaves]
    · intro c hc
      simp [hp, Stage.uses, Stage.waits, Stage.leaves, Ne.symm hc]
    · rintro c m ⟨rfl, rfl⟩
      exact h.asks p b n (by rw [hp]; exact ⟨rfl, rfl⟩)
    · intro c m hc
      cases hc
      exact ⟨rfl, rfl⟩
  | @fill p b n hp =>
    have huse : ∀ c, (s.stage p).uses c = 0 := fun c => by rw [hp]; rfl
    unfold Cache.fill
    split
    · exact h.idle (update_eq_self b s.buf).symm rfl rfl ⟨rfl, rfl, rfl, rfl⟩ huse
    · exact h.idle rfl rfl rfl (iderw_sameRef _ _) huse
  | @change p b data hl hp =>
    exact h.idle rfl (hp ▸ update_eq_self p s.stage).symm rfl ⟨rfl, rfl, rfl, rfl⟩
      fun c => by rw [hp]; rfl
  | @logWrite p b hl hp =>
    exact h.idle rfl (hp ▸ update_eq_self p s.stage).symm rfl ⟨rfl, rfl, rfl, rfl⟩
      fun c => by rw [hp]; rfl
  | @bwrite p b hl hp =>
    exact h.idle rfl (hp ▸ update_eq_self p s.stage).symm rfl ⟨rfl, rfl, rfl, rfl⟩
      fun c => by rw [hp]; rfl
  | @unlock p b hl hp =>
    refine h.update rfl rfl h.mem rfl rfl ?_ ?_ ?_ (.inr (.inr hl)) fun c m hc => by cases hc
    · simp [hp, hl, Stage.uses, Stage.waits, Stage.leaves]
    · intro c hc
      simp [hp, Stage.uses, Stage.waits, Stage.leaves, Ne.symm hc]
    · exact fun c m hc => hc.elim
  | @release p b hp =>
    refine h.update rfl rfl ?_ rfl rfl ?_ ?_ (fun c m hc => hc.elim) (.inl rfl)
      fun c m hc => by cases hc
    · intro c
      have hc := h.mem c
      show c ∈ if (s.buf b).refcnt - 1 = 0 then b :: s.order.erase b else s.order
      split
      · by_cases hcb : c = b
        · exact hcb ▸ List.mem_cons_self
        · exact List.mem_cons_of_mem _ ((List.mem_erase_of_ne hcb).mpr hc)
      · exact hc
    · have hone : (s.stage p).uses b = 1 := by
        rw [hp]
        simp [Stage.uses, Stage.waits, Stage.leaves]
      have hpos : 1 ≤ (s.buf b).refcnt := by
        have := Account.le_sum (f := fun q => (s.stage q).uses b) (Finset.mem_univ p)
        have := h.count b
        omega
      have hidle : Stage.idle.uses b = 0 := rfl
      dsimp only
      omega
    · intro c hc
      rw [hp]
      simp [Stage.uses, Stage.waits, Stage.leaves, Ne.symm hc]

end

/-! ## Contents -/

structure LockInv (s : Cache P) : Prop where
  /-- a buffer has been read, or its holder is about to read it -/
  read : ∀ b p, (s.buf b).lock = some p → (s.buf b).valid = true ∨ ∃ n, s.stage p = .filling b n
  /-- only a holder that is done with `bread` has done anything with the buffer -/
  still : ∀ b, (s.buf b).touched = true ∨ (s.buf b).logged = true →
    ∃ p, (s.buf b).lock = some p ∧ ∀ n, s.stage p ≠ .filling b n

structure DataInv (s : Cache P) : Prop where
  dev : ∀ b, (s.buf b).valid = true → (s.buf b).dev = ROOTDEV
  dirty : ∀ b, (s.buf b).dirty = true → (s.buf b).valid = true
  clean : ∀ b, (s.buf b).valid = true → (s.buf b).dirty = false → (s.buf b).touched = false →
    (s.buf b).data = s.disk (s.buf b).blockno
  fresh : ∀ b, (s.buf b).valid = true → (s.buf b).touched = false → (s.buf b).logged = false →
    (s.buf b).data = s.latest (s.buf b).blockno
  /-- a block that is in no buffer is up to date on disk -/
  stored : ∀ n, (∀ b, (s.buf b).dev = ROOTDEV → (s.buf b).blockno = n → (s.buf b).valid = false) →
    s.disk n = s.latest n

theorem RefInv.start [Fintype P] (disk : ℕ → Block) (data : Fin NBUF → Block) :
    RefInv (start disk data : Cache P) where
  mem b := List.mem_reverse.mpr (List.mem_finRange b)
  uniq _ _ hb := by cases hb
  count b := by
    have huses : ∀ p, ((Xv6.Bio.start disk data : Cache P).stage p).uses b = 0 := fun _ => rfl
    rw [Finset.sum_eq_zero fun p _ => huses p]
    rfl
  asks _ _ _ hp := hp.elim
  fills _ _ _ hp := by cases hp

theorem LockInv.start (disk : ℕ → Block) (data : Fin NBUF → Block) :
    LockInv (start disk data : Cache P) where
  read _ _ hl := by cases hl
  still _ ht := by rcases ht with ht | ht <;> cases ht

theorem DataInv.start (disk : ℕ → Block) (data : Fin NBUF → Block) :
    DataInv (start disk data : Cache P) where
  dev _ hv := by cases hv
  dirty _ hd := by cases hd
  clean _ hv := by cases hv
  fresh _ hv := by cases hv
  stored _ _ := rfl

structure Inv [Fintype P] (s : Cache P) : Prop where
  ref : RefInv s
  lock : LockInv s
  data : DataInv s

theorem Inv.clean [Fintype P] (h : Inv s) (b : Fin NBUF) (hv : (s.buf b).valid = true)
    (hd : (s.buf b).dirty = false) (hl : (s.buf b).lock = none) :
    (s.buf b).data = s.disk (s.buf b).blockno := by
  refine h.data.clean b hv hd ?_
  by_contra ht
  obtain ⟨q, hq, -⟩ := h.lock.still b (.inl (by simpa using ht))
  rw [hl] at hq
  cases hq

section

variable {s s' : Cache P} {b : Fin NBUF} {x : Buf P}

theorem DataInv.set [Fintype P] (hr : RefInv s) (h : DataInv s) (hbuf : s'.buf = update s.buf b x)
    (hdisk : ∀ n, n ≠ (s.buf b).blockno → s'.disk n = s.disk n)
    (hlatest : ∀ n, n ≠ (s.buf b).blockno → s'.latest n = s.latest n)
    (hdev : x.dev = (s.buf b).dev) (hno : x.blockno = (s.buf b).blockno)
    (hroot : (s.buf b).dev = ROOTDEV) (hvalid : x.valid = true)
    (hclean : x.dirty = false → x.touched = false → x.data = s'.disk (s.buf b).blockno)
    (hfresh : x.touched = false → x.logged = false → x.data = s'.latest (s.buf b).blockno) :
    DataInv s' := by
  have hself : s'.buf b = x := by rw [hbuf, update_self]
  have hother : ∀ c, c ≠ b → s'.buf c = s.buf c := fun c hc => by rw [hbuf, update_of_ne hc]
  -- a valid buffer of another block
  have hne : ∀ c, c ≠ b → (s.buf c).valid = true → (s.buf c).blockno ≠ (s.buf b).blockno :=
    fun c hc hv heq => hc (hr.uniq c b (h.dev c hv) hroot heq)
  refine ⟨fun c hv => ?_, fun c hd => ?_, fun c hv hd ht => ?_, fun c hv ht hl => ?_,
    fun n hn => ?_⟩
  · by_cases hc : c = b
    · subst hc
      rw [hself, hdev, hroot]
    · rw [hother c hc] at hv ⊢
      exact h.dev c hv
  · by_cases hc : c = b
    · subst hc
      rw [hself, hvalid]
    · rw [hother c hc] at hd ⊢
      exact h.dirty c hd
  · by_cases hc : c = b
    · subst hc
      rw [hself] at hd ht ⊢
      rw [hclean hd ht, hno]
    · rw [hother c hc] at hv hd ht ⊢
      rw [hdisk _ (hne c hc hv)]
      exact h.clean c hv hd ht
  · by_cases hc : c = b
    · subst hc
      rw [hself] at ht hl ⊢
      rw [hfresh ht hl, hno]
    · rw [hother c hc] at hv ht hl ⊢
      rw [hlatest _ (hne c hc hv)]
      exact h.fresh c hv ht hl
  · by_cases hnb : n = (s.buf b).blockno
    · have hinv := hn b (by rw [hself, hdev, hroot]) (by rw [hself, hno, hnb])
      rw [hself, hvalid] at hinv
      cases hinv
    · rw [hdisk n hnb, hlatest n hnb]
      refine h.stored n fun c hc hcn => ?_
      have hcb : c ≠ b := by
        rintro rfl
        exact hnb hcn.symm
      have := hn c
      rw [hother c hcb] at this
      exact this hc hcn

def Buf.SameData (x y : Buf P) : Prop :=
  x.dev = y.dev ∧ x.blockno = y.blockno ∧ x.valid = y.valid ∧ x.dirty = y.dirty ∧ x.data = y.data ∧
    x.touched = y.touched ∧ x.logged = y.logged

theorem DataInv.frame (h : DataInv s) (hbuf : s'.buf = update s.buf b x) (hx : x.SameData (s.buf b))
    (hdisk : s'.disk = s.disk) (hlatest : s'.latest = s.latest) : DataInv s' := by
  have hsame : ∀ c, (s'.buf c).SameData (s.buf c) := by
    intro c
    rw [hbuf]
    by_cases hc : c = b
    · subst hc
      rwa [update_self]
    · rw [update_of_ne hc]
      exact ⟨rfl, rfl, rfl, rfl, rfl, rfl, rfl⟩
  refine ⟨fun c => ?_, fun c => ?_, fun c => ?_, fun c => ?_, fun n hn => ?_⟩
  · obtain ⟨h1, -, h3, -⟩ := hsame c
    rw [h1, h3]
    exact h.dev c
  · obtain ⟨-, -, h3, h4, -⟩ := hsame c
    rw [h3, h4]
    exact h.dirty c
  · obtain ⟨-, h2, h3, h4, h5, h6, -⟩ := hsame c
    rw [h2, h3, h4, h5, h6, hdisk]
    exact h.clean c
  · obtain ⟨-, h2, h3, -, h5, h6, h7⟩ := hsame c
    rw [h2, h3, h5, h6, h7, hlatest]
    exact h.fresh c
  · rw [hdisk, hlatest]
    refine h.stored n fun c hc hcn => ?_
    obtain ⟨h1, h2, h3, -⟩ := hsame c
    have := hn c
    rw [h1, h2, h3] at this
    exact this hc hcn

theorem LockInv.update [DecidableEq P] (h : LockInv s) {p : P} {st : Stage}
    (hbuf : s'.buf = update s.buf b x) (hst : s'.stage = update s.stage p st)
    (hold : ∀ c n, c ≠ b → s.stage p ≠ .filling c n) (hnew : ∀ c n, c ≠ b → st ≠ .filling c n)
    (hread : ∀ q, x.lock = some q → x.valid = true ∨ ∃ n, s'.stage q = .filling b n)
    (hstill : x.touched = true ∨ x.logged = true →
      ∃ q, x.lock = some q ∧ ∀ n, s'.stage q ≠ .filling b n) : LockInv s' := by
  have hself : s'.buf b = x := by rw [hbuf, update_self]
  have hother : ∀ c, c ≠ b → s'.buf c = s.buf c := fun c hc => by rw [hbuf, update_of_ne hc]
  refine ⟨fun c q hl => ?_, fun c hc => ?_⟩
  · by_cases hcb : c = b
    · subst hcb
      rw [hself] at hl ⊢
      exact hread q hl
    · rw [hother c hcb] at hl ⊢
      refine (h.read c q hl).imp_right ?_
      rintro ⟨n, hn⟩
      refine ⟨n, ?_⟩
      have hqp : q ≠ p := by
        rintro rfl
        exact hold c n hcb hn
      rw [hst, update_of_ne hqp, hn]
  · by_cases hcb : c = b
    · subst hcb
      rw [hself] at hc ⊢
      exact hstill hc
    · rw [hother c hcb] at hc ⊢
      obtain ⟨q, hl, hq⟩ := h.still c hc
      refine ⟨q, hl, fun n => ?_⟩
      by_cases hqp : q = p
      · subst hqp
        rw [hst, update_self]
        exact hnew c n hcb
      · rw [hst, update_of_ne hqp]
        exact hq n

theorem LockInv.valid (h : LockInv s) {p : P} (hl : (s.buf b).lock = some p)
    (hp : s.stage p = .idle) : (s.buf b).valid = true := by
  obtain hv | ⟨n, hn⟩ := h.read b p hl
  · exact hv
  · rw [hp] at hn
    cases hn

variable {n : ℕ}

theorem LockInv.untouched [Fintype P] (hr : RefInv s) (h : LockInv s) {p : P}
    (hp : s.stage p = .filling b n) : ¬ ((s.buf b).touched = true ∨ (s.buf b).logged = true) := by
  intro ht
  obtain ⟨q, hl, hq⟩ := h.still b ht
  obtain rfl : p = q := Option.some.inj ((hr.fills p b n hp).symm.trans hl)
  exact hq n hp

variable [DecidableEq P] {p : P} {st : Stage}

theorem LockInv.recount (h : LockInv s) {r : ℕ}
    (hbuf : s'.buf = Function.update s.buf b { s.buf b with refcnt := r })
    (hst : s'.stage = Function.update s.stage p st) (hold : ∀ c n, s.stage p ≠ .filling c n)
    (hnew : ∀ c n, st ≠ .filling c n) : LockInv s' := by
  refine h.update hbuf hst (fun c n _ => hold c n) (fun c n _ => hnew c n)
    (fun q hl => (h.read b q hl).imp_right ?_) fun ht => ?_
  · rintro ⟨m, hm⟩
    have hqp : q ≠ p := by
      rintro rfl
      exact hold b m hm
    exact ⟨m, by rw [hst, update_of_ne hqp, hm]⟩
  · obtain ⟨q, hl, hq⟩ := h.still b ht
    refine ⟨q, hl, fun m => ?_⟩
    by_cases hqp : q = p
    · subst hqp
      rw [hst, update_self]
      exact hnew b m
    · rw [hst, update_of_ne hqp]
      exact hq m

theorem LockInv.work (h : LockInv s) (hbuf : s'.buf = Function.update s.buf b x)
    (hst : s'.stage = s.stage) (hx : x.lock = some p) (hv : x.valid = true)
    (hp : s.stage p = .idle) : LockInv s' := by
  have hst : s'.stage = Function.update s.stage p .idle := by rw [hst, ← hp, update_eq_self]
  refine h.update hbuf hst (fun c m _ hc => by rw [hp] at hc; cases hc)
    (fun c m _ hc => by cases hc)
    (fun _ _ => .inl hv) fun _ => ⟨p, hx, fun m hm => ?_⟩
  rw [hst, update_self] at hm
  cases hm

variable {l : Label P}

theorem LockInv.step [Fintype P] (hr : RefInv s) (h : LockInv s)
    (hs : step s l = some s') : LockInv s' := by
  cases step_cases hs with
  | @hit p n b hp hb =>
    exact h.recount rfl rfl (fun c m hc => by rw [hp] at hc; cases hc) fun c m hc => by cases hc
  | @miss p n b hp hno hb =>
    have hlock := (hr.unused (victim_eq_some hb).1).1
    refine h.update rfl rfl (fun c m _ hc => by rw [hp] at hc; cases hc)
      (fun c m _ hc => by cases hc)
      (fun q hl => ?_) fun ht => ?_
    · have hl : (s.buf b).lock = some q := hl
      rw [hlock] at hl
      cases hl
    · obtain ⟨q, hl, -⟩ := h.still b ht
      rw [hlock] at hl
      cases hl
  | @acquire p b n hp hl =>
    refine h.update rfl rfl (fun c m _ hc => by rw [hp] at hc; cases hc)
      (fun c m hcb hc => by cases hc; exact hcb rfl) (fun q hq => ?_) fun ht => ?_
    · obtain rfl : p = q := Option.some.inj hq
      exact .inr ⟨n, update_self _ _ _⟩
    · obtain ⟨q, hq, -⟩ := h.still b ht
      rw [hl] at hq
      cases hq
  | @fill p b n hp =>
    have hfill : ∀ x : Buf P, x.valid = true → x.touched = (s.buf b).touched →
        x.logged = (s.buf b).logged → ∀ s' : Cache P, s'.buf = Function.update s.buf b x →
        s'.stage = Function.update s.stage p .idle → LockInv s' := by
      intro x hv ht hl s' hbuf hst
      refine h.update hbuf hst (fun c m hcb hc => ?_) (fun c m _ hc => by cases hc)
        (fun _ _ => .inl hv) fun hx => ?_
      · rw [hp] at hc
        cases hc
        exact hcb rfl
      · rw [ht, hl] at hx
        exact absurd hx (h.untouched hr hp)
    unfold Cache.fill
    split
    · next hv => exact hfill _ hv rfl rfl _ (update_eq_self b s.buf).symm rfl
    · obtain ⟨hv, -, ht, hl⟩ := iderw_spec (s.buf b) s.disk
      exact hfill _ hv ht hl _ rfl rfl
  | change hl hp => exact h.work rfl rfl hl (h.valid hl hp) hp
  | logWrite hl hp => exact h.work rfl rfl hl (h.valid hl hp) hp
  | bwrite hl hp => exact h.work rfl rfl hl rfl hp
  | @unlock p b hl hp =>
    refine h.update rfl rfl (fun c m _ hc => by rw [hp] at hc; cases hc)
      (fun c m _ hc => by cases hc)
      (fun q hq => by cases hq) fun ht => ?_
    rcases ht with ht | ht <;> cases ht
  | @release p b hp =>
    exact h.recount rfl rfl (fun c m hc => by rw [hp] at hc; cases hc) fun c m hc => by cases hc

variable [Fintype P]

theorem DataInv.miss (hr : RefInv s) (hk : LockInv s) (h : DataInv s) (hb : s.victim = some b) :
    DataInv ((s.recycle b n).goto p (.waiting b n)) := by
  obtain ⟨hcnt, hdirty⟩ := victim_eq_some hb
  have hlock := (hr.unused hcnt).1
  have hquiet : (s.buf b).touched = false ∧ (s.buf b).logged = false := by
    have hno : ¬ ((s.buf b).touched = true ∨ (s.buf b).logged = true) := by
      intro ht
      obtain ⟨q, hl, -⟩ := hk.still b ht
      rw [hlock] at hl
      cases hl
    simpa using hno
  have hother : ∀ c, c ≠ b → ((s.recycle b n).goto p (.waiting b n)).buf c = s.buf c :=
    fun c hc => update_of_ne hc _ _
  have hself : ((s.recycle b n).goto p (.waiting b n)).buf b =
      { s.buf b with dev := ROOTDEV, blockno := n, valid := false, dirty := false, refcnt := 1 } :=
    update_self _ _ _
  refine ⟨fun c hv => ?_, fun c hd => ?_, fun c hv => ?_, fun c hv => ?_, fun m hm => ?_⟩
  · by_cases hc : c = b
    · subst hc
      rw [hself]
    · rw [hother c hc] at hv ⊢
      exact h.dev c hv
  · by_cases hc : c = b
    · subst hc
      rw [hself] at hd
      cases hd
    · rw [hother c hc] at hd ⊢
      exact h.dirty c hd
  · by_cases hc : c = b
    · subst hc
      rw [hself] at hv
      cases hv
    · rw [hother c hc] at hv ⊢
      exact h.clean c hv
  · by_cases hc : c = b
    · subst hc
      rw [hself] at hv
      cases hv
    · rw [hother c hc] at hv ⊢
      exact h.fresh c hv
  · -- only the block the buffer had before can have lost its buffer
    by_cases hlost : (s.buf b).valid = true ∧ (s.buf b).blockno = m
    · obtain ⟨hv, rfl⟩ := hlost
      exact (h.clean b hv hdirty hquiet.1).symm.trans (h.fresh b hv hquiet.1 hquiet.2)
    · refine h.stored m fun c hdev hcm => ?_
      by_cases hc : c = b
      · subst hc
        by_contra hv
        exact hlost ⟨by simpa using hv, hcm⟩
      · have := hm c
        rw [hother c hc] at this
        exact this hdev hcm

theorem DataInv.fill (hr : RefInv s) (h : DataInv s) (hp : s.stage p = .filling b n) :
    DataInv (s.fill p b) := by
  unfold Cache.fill
  split
  · exact h.frame (update_eq_self b s.buf).symm ⟨rfl, rfl, rfl, rfl, rfl, rfl, rfl⟩ rfl rfl
  · next hv =>
    have hv : (s.buf b).valid = false := by simpa using hv
    have hdirty : (s.buf b).dirty = false := by
      by_contra hd
      rw [h.dirty b (by simpa using hd)] at hv
      cases hv
    obtain ⟨hdev, -⟩ := hr.asks p b n (by rw [hp]; exact ⟨rfl, rfl⟩)
    have hread : iderw (s.buf b) s.disk =
        ({ s.buf b with valid := true, data := s.disk (s.buf b).blockno }, s.disk) := by
      simp [iderw, hdirty]
    rw [hread]
    refine DataInv.set hr h rfl (fun _ _ => rfl) (fun _ _ => rfl) rfl rfl hdev rfl (fun _ _ => rfl)
      fun _ _ => ?_
    refine h.stored _ fun c hc hno => ?_
    obtain rfl := hr.uniq c b hc hdev hno
    exact hv

theorem DataInv.step (hr : RefInv s) (hk : LockInv s) (h : DataInv s) (hok : Logs s l)
    (hs : step s l = some s') : DataInv s' := by
  cases step_cases hs with
  | hit hp hb => exact h.frame rfl ⟨rfl, rfl, rfl, rfl, rfl, rfl, rfl⟩ rfl rfl
  | miss hp hno hb => exact DataInv.miss hr hk h hb
  | acquire hp hl => exact h.frame rfl ⟨rfl, rfl, rfl, rfl, rfl, rfl, rfl⟩ rfl rfl
  | fill hp => exact h.fill hr hp
  | @change p b data hl hp =>
    have hv := hk.valid hl hp
    exact DataInv.set hr h rfl (fun _ _ => rfl) (fun _ _ => rfl) rfl rfl (h.dev b hv) hv
      (fun _ ht => by cases ht) fun ht => by cases ht
  | @logWrite p b hl hp =>
    have hv := hk.valid hl hp
    exact DataInv.set hr h rfl (fun _ _ => rfl) (fun _ _ => rfl) rfl rfl (h.dev b hv) hv
      (fun hd => by cases hd) fun _ hl => by cases hl
  | @bwrite p b hl hp =>
    refine DataInv.set hr h rfl (fun n hn => update_of_ne hn _ _) (fun _ _ => rfl) rfl rfl
      (h.dev b (hk.valid hl hp)) rfl (fun _ _ => ?_) fun _ hl => by cases hl
    rw [Cache.bwrite_disk, update_self]
  | @unlock p b hl hp =>
    have hv := hk.valid hl hp
    refine DataInv.set hr h rfl (fun _ _ => rfl) (fun n hn => ?_) rfl rfl (h.dev b hv) hv ?_ ?_
    · rw [Cache.unlock_latest]
      split
      · exact update_of_ne hn _ _
      · rfl
    · intro hd _
      refine h.clean b hv hd ?_
      by_contra ht
      rw [(hok (by simpa using ht)).1] at hd
      cases hd
    · intro _ _
      rw [Cache.unlock_latest]
      split
      · rw [update_self]
      · next hlog =>
        have hlog : (s.buf b).logged = false := by simpa using hlog
        refine h.fresh b hv ?_ hlog
        by_contra ht
        rw [(hok (by simpa using ht)).2] at hlog
        cases hlog
  | release hp => exact h.frame rfl ⟨rfl, rfl, rfl, rfl, rfl, rfl, rfl⟩ rfl rfl

theorem Inv.step (h : Inv s) (hok : Logs s l) (hs : step s l = some s') : Inv s' :=
  ⟨h.ref.step hs, h.lock.step h.ref hs, h.data.step h.ref h.lock hok hs⟩

structure Coherent (s : Cache P) : Prop where
  /-- at most one buffer holds a given block -/
  uniq : ∀ b c, (s.buf b).dev = ROOTDEV → (s.buf c).dev = ROOTDEV →
    (s.buf b).blockno = (s.buf c).blockno → b = c
  /-- `refcnt` counts who holds the buffer, who waits for it, and who is about to count itself out
  -/
  refcnt : ∀ b, (s.buf b).refcnt = (Finset.univ.filter fun p => (s.buf b).lock = some p).card +
    (Finset.univ.filter fun p => (s.stage p).waits b).card +
    (Finset.univ.filter fun p => (s.stage p).leaves b).card
  /-- a buffer that is held, waited for or dirty is not recycled -/
  kept : ∀ l s' b, step s l = some s' →
    (s.buf b).lock ≠ none ∨ (∃ p, (s.stage p).waits b) ∨ (s.buf b).dirty = true →
    (s'.buf b).dev = (s.buf b).dev ∧ (s'.buf b).blockno = (s.buf b).blockno
  /-- a valid buffer that is neither dirty nor locked has the contents of its block -/
  clean : ∀ b, (s.buf b).valid = true → (s.buf b).dirty = false → (s.buf b).lock = none →
    (s.buf b).data = s.disk (s.buf b).blockno
  /-- `bread` returns the block asked for, locked, with the contents its last writer left -/
  bread : ∀ p b n s', s.stage p = .filling b n → step s (.fill p) = some s' →
    s'.stage p = .idle ∧ (s'.buf b).lock = some p ∧ (s'.buf b).dev = ROOTDEV ∧
      (s'.buf b).blockno = n ∧ (s'.buf b).data = s.latest n

theorem Inv.refcnt (h : Inv s) (b : Fin NBUF) :
    (s.buf b).refcnt = (Finset.univ.filter fun p => (s.buf b).lock = some p).card +
      (Finset.univ.filter fun p => (s.stage p).waits b).card +
      (Finset.univ.filter fun p => (s.stage p).leaves b).card := by
  have hholders : (Finset.univ.filter fun p => (s.buf b).lock = some p).card =
      if (s.buf b).lock = none then 0 else 1 := by
    cases hl : (s.buf b).lock with
    | none => simp
    | some q => simp [Finset.filter_eq]
  rw [h.ref.count b, hholders, Finset.card_filter, Finset.card_filter, add_assoc,
    ← Finset.sum_add_distrib]
  rfl

theorem Inv.kept (h : Inv s) (hs : Xv6.Bio.step s l = some s') (b : Fin NBUF)
    (hb : (s.buf b).lock ≠ none ∨ (∃ p, (s.stage p).waits b) ∨ (s.buf b).dirty = true) :
    (s'.buf b).dev = (s.buf b).dev ∧ (s'.buf b).blockno = (s.buf b).blockno := by
  -- an update that keeps the identity of the buffer it changes
  have hsame : ∀ (c : Fin NBUF) (x : Buf P), x.dev = (s.buf c).dev → x.blockno = (s.buf c).blockno →
      (Function.update s.buf c x b).dev = (s.buf b).dev ∧
      (Function.update s.buf c x b).blockno = (s.buf b).blockno := by
    intro c x hdev hno
    by_cases hbc : b = c
    · subst hbc
      rw [update_self]
      exact ⟨hdev, hno⟩
    · rw [update_of_ne hbc]
      exact ⟨rfl, rfl⟩
  cases step_cases hs with
  | hit => exact hsame _ _ rfl rfl
  | @miss p n c hp hno hc =>
    obtain ⟨hcnt, hdirty⟩ := victim_eq_some hc
    obtain ⟨hlock, hfree⟩ := h.ref.unused hcnt
    have hbc : b ≠ c := by
      rintro rfl
      obtain hl | ⟨q, hq⟩ | hd := hb
      · exact hl hlock
      · have := hfree q
        simp [Stage.uses, hq] at this
      · rw [hdirty] at hd
        cases hd
    have hother : ((s.recycle c n).goto p (.waiting c n)).buf b = s.buf b := update_of_ne hbc _ _
    rw [hother]
    exact ⟨rfl, rfl⟩
  | acquire => exact hsame _ _ rfl rfl
  | @fill p c n hp =>
    unfold Cache.fill
    split
    · exact ⟨rfl, rfl⟩
    · exact hsame c _ (iderw_sameRef _ _).1 (iderw_sameRef _ _).2.1
  | change => exact hsame _ _ rfl rfl
  | logWrite => exact hsame _ _ rfl rfl
  | bwrite => exact hsame _ _ rfl rfl
  | unlock => exact hsame _ _ rfl rfl
  | release => exact hsame _ _ rfl rfl

theorem Inv.bread (h : Inv s) (hp : s.stage p = .filling b n)
    (hs : Xv6.Bio.step s (.fill p) = some s') :
    s'.stage p = .idle ∧ (s'.buf b).lock = some p ∧ (s'.buf b).dev = ROOTDEV ∧
      (s'.buf b).blockno = n ∧ (s'.buf b).data = s.latest n := by
  have hlock := h.ref.fills p b n hp
  obtain ⟨hdev, hno⟩ := h.ref.asks p b n (by rw [hp]; exact ⟨rfl, rfl⟩)
  obtain ⟨hdev', hno'⟩ := h.kept hs b (.inl (by rw [hlock]; simp))
  have hok : Logs s (.fill p) := trivial
  have hfresh := (h.step hok hs).data.fresh b
  obtain rfl : s.fill p b = s' := by simpa [Xv6.Bio.step, hp] using hs
  obtain ⟨hst, hlat, hv, hl, ht, hg⟩ := fill_spec s p b
  have hquiet : (s.buf b).touched = false ∧ (s.buf b).logged = false := by
    simpa using h.lock.untouched h.ref hp
  refine ⟨hst, hl.trans hlock, hdev'.trans hdev, hno'.trans hno, ?_⟩
  rw [hfresh hv (ht.trans hquiet.1) (hg.trans hquiet.2), hlat, hno', hno]

/-- **Buffer cache coherence.** In every interleaving in which holders log their changes. -/
theorem coherent_of_reach {disk : ℕ → Block} {data : Fin NBUF → Block}
    (hr : Lts.Reach Xv6.Bio.step Logs (start disk data) s) : Coherent s := by
  have h : Inv s :=
    hr.invariant ⟨RefInv.start disk data, LockInv.start disk data, DataInv.start disk data⟩
      fun _ _ _ hI hok hs => hI.step hok hs
  exact ⟨h.ref.uniq, h.refcnt, fun l s' b hs hb => h.kept hs b hb, h.clean,
    fun p b n s' hp hs => h.bread hp hs⟩

end

instance : ∀ (s : Cache P) (l : Label P), Decidable (Logs s l)
  | s, .unlock _ b => inferInstanceAs (Decidable ((s.buf b).touched = true → _))
  | _, .bget _ _ => isTrue trivial
  | _, .acquire _ => isTrue trivial
  | _, .fill _ => isTrue trivial
  | _, .change _ _ _ => isTrue trivial
  | _, .logWrite _ _ => isTrue trivial
  | _, .bwrite _ _ => isTrue trivial
  | _, .release _ => isTrue trivial

def buf0 : Fin NBUF := ⟨0, by decide⟩

def oneWrite : List (Label Unit) :=
  [.bget () 7, .acquire (), .fill (), .change () buf0 fun _ => 1, .bwrite () buf0, .unlock () buf0]

theorem coherent_of_reach_write : ∃ s : Cache Unit,
    Lts.run step (start (fun _ _ => 0) fun _ _ => 0) oneWrite = some s ∧
    (s.buf buf0).blockno = 7 ∧ s.disk 7 0 = 1 ∧ Coherent s := by
  have hok : Lts.RunOk step Logs (start (fun _ _ => 0) fun _ _ => 0) oneWrite := by decide +kernel
  obtain ⟨s, hs, hr, hq⟩ := Lts.exists_reach step (start (fun _ _ => 0) fun _ _ => 0) oneWrite
    (fun s => decide ((s.buf buf0).blockno = 7 ∧ s.disk 7 0 = 1)) (by decide +kernel) hok
  have hq := of_decide_eq_true hq
  exact ⟨s, hs, hq.1, hq.2, coherent_of_reach hr⟩

/-- Inside `brelse`, between giving up the lock and counting itself out, a process still counts
although it neither holds the buffer nor waits for it. -/
theorem refcnt_counts_leaving : ∃ s : Cache Unit,
    Lts.Reach step Logs (start (fun _ _ => 0) fun _ _ => 0) s ∧
    (s.buf buf0).refcnt = 1 ∧ (s.buf buf0).lock = none ∧ ∀ p, (s.stage p).waits buf0 = false := by
  have hok : Lts.RunOk step Logs (start (fun _ _ => 0) fun _ _ => 0) oneWrite := by decide +kernel
  obtain ⟨s, -, hr, hq⟩ := Lts.exists_reach step (start (fun _ _ => 0) fun _ _ => 0) oneWrite
    (fun s => decide ((s.buf buf0).refcnt = 1 ∧ (s.buf buf0).lock = none ∧
      (s.stage ()).waits buf0 = false))
    (by decide +kernel) hok
  have hq := of_decide_eq_true hq
  exact ⟨s, hr, hq.1, hq.2.1, fun _ => hq.2.2⟩

end Xv6.Bio
