import Xv6.Block
import Xv6.Lib.LinkedQueue
import Xv6.Lib.Lts

/-!
# The disk drivers

`ide.c` queues requests for a controller that works on one of them at a time and interrupts when it
is done; `memide.c` copies between the buffer and an image of the disk in memory. Both offer
`iderw`.

1. `memide.c`, whose `iderw` is one step.
2. `ide.c` and the controller. The queue is linked through the buffers (`qnext`), and a command is
   what `idestart` writes to the controller's ports.
3. The system of `ide.c`: any number of processes call `iderw`, the controller completes commands,
   and the interrupt handler runs. The requests are recorded in the order in which they entered the
   queue, with what the interrupt handler left in their buffers.
4. In every state the requests that are done, and the disk, are as if `memide.c` had executed them
   in that order.
-/

namespace Xv6.Ide

open Function LinkedQueue

structure Buf (P : Type) where
  /-- `B_VALID` -/
  valid : Bool
  /-- `B_DIRTY` -/
  dirty : Bool
  dev : ℕ
  blockno : ℕ
  /-- the process that has the sleep lock -/
  lock : Option P
  /-- disk queue -/
  qnext : Option (Fin NBUF)
  data : Block

def Buf.outcome {P : Type} (b : Buf P) : Bool × Bool × Block := (b.valid, b.dirty, b.data)

inductive Panic
  | notLocked
  | nothingToDo
  | disk1NotPresent
  | incorrectBlockno
  | idestart
  | notDisk1
  | outOfRange
  deriving DecidableEq

variable {P : Type}

/-- `(b->flags & (B_VALID|B_DIRTY)) == B_VALID`: nothing is left to be done for the buffer. -/
def Buf.Finished (b : Buf P) : Prop := b.valid = true ∧ b.dirty = false

instance (b : Buf P) : Decidable b.Finished :=
  inferInstanceAs (Decidable (b.valid = true ∧ b.dirty = false))

def Buf.relink (b : Buf P) (q : Option (Fin NBUF)) : Buf P :=
  ⟨b.valid, b.dirty, b.dev, b.blockno, b.lock, q, b.data⟩

variable [DecidableEq P]

/-! ## `memide.c` -/

def memIderw (p : P) (b : Buf P) (memdisk : ℕ → Block) : Except Panic (Buf P × (ℕ → Block)) :=
  if b.lock ≠ some p then .error .notLocked
  else if b.Finished then .error .nothingToDo
  else if b.dev ≠ 1 then .error .notDisk1
  else if FSSIZE ≤ b.blockno then .error .outOfRange
  else if b.dirty then
    .ok ({ b with dirty := false, valid := true }, update memdisk b.blockno b.data)
  else .ok ({ b with data := memdisk b.blockno, valid := true }, memdisk)

/-! ## `ide.c` -/

def SECTOR_SIZE : ℕ := 512

def sectorPerBlock : ℕ := BSIZE / SECTOR_SIZE

def readCmd : ℕ := if sectorPerBlock = 1 then 0x20 else 0xc4

def writeCmd : ℕ := if sectorPerBlock = 1 then 0x30 else 0xc5

structure Command where
  /-- port 0x1f2 -/
  sectors : ℕ
  /-- port 0x1f3 -/
  lba0 : ℕ
  /-- port 0x1f4 -/
  lba1 : ℕ
  /-- port 0x1f5 -/
  lba2 : ℕ
  /-- port 0x1f6: the drive, and the highest bits of the sector number -/
  drive : ℕ
  /-- port 0x1f7 -/
  opcode : ℕ
  /-- port 0x1f0, after a write command -/
  data : Block

def command (b : Buf P) : Command :=
  let sector := b.blockno * sectorPerBlock
  { sectors := sectorPerBlock
    lba0 := sector % 256
    lba1 := sector / 2 ^ 8 % 256
    lba2 := sector / 2 ^ 16 % 256
    drive := 0xe0 + b.dev % 2 * 16 + sector / 2 ^ 24 % 16
    opcode := if b.dirty then writeCmd else readCmd
    data := b.data }

/-- The controller: it is idle, works on a command, or has completed one and raised an interrupt,
with the data that it then delivers on port 0x1f0. The last state is that of a controller that got a
command while it was not idle. -/
inductive Controller
  | idle
  | busy (c : Command)
  | done (latch : Block)
  | clash

def Controller.accept : Controller → Command → Controller
  | .idle, c => .busy c
  | _, _ => .clash

def Command.unit (c : Command) : ℕ := c.drive / 16 % 2

def Command.sector (c : Command) : ℕ :=
  c.lba0 + 2 ^ 8 * c.lba1 + 2 ^ 16 * c.lba2 + 2 ^ 24 * (c.drive % 16)

def Command.exec (c : Command) (disk : ℕ → ℕ → Block) : (ℕ → ℕ → Block) × Block :=
  if c.opcode = writeCmd then
    (update disk c.unit (update (disk c.unit) c.sector c.data), c.data)
  else (disk, disk c.unit c.sector)

structure Driver (P : Type) where
  buf : Fin NBUF → Buf P
  idequeue : Option (Fin NBUF)
  havedisk1 : Bool
  ctl : Controller
  /-- the sectors of both drives -/
  disk : ℕ → ℕ → Block

def idestart (s : Driver P) (b : Option (Fin NBUF)) : Except Panic (Driver P) :=
  match b with
  | none => .error .idestart
  | some b =>
    if FSSIZE ≤ (s.buf b).blockno then .error .incorrectBlockno
    else if 7 < sectorPerBlock then .error .idestart
    else .ok { s with ctl := s.ctl.accept (command (s.buf b)) }

def filled (b : Buf P) (latch : Block) : Buf P :=
  { b with valid := true, dirty := false, data := if b.dirty then b.data else latch }

/-- The interrupt handler, with the buffer on which it calls `wakeup`. Reading the controller's
status and data leaves it idle. -/
def ideintr (s : Driver P) (latch : Block) : Except Panic (Driver P × Option (Fin NBUF)) :=
  match s.idequeue with
  | none => .ok ({ s with ctl := .idle }, none)
  | some b =>
    let s' : Driver P :=
      { s with
        idequeue := (s.buf b).qnext
        buf := update s.buf b (filled (s.buf b) latch)
        ctl := .idle }
    -- Start disk on next buf in queue.
    if s'.idequeue.isSome then
      match idestart s' s'.idequeue with
      | .ok s'' => .ok (s'', some b)
      | .error e => .error e
    else .ok (s', some b)

def enqueue (s : Driver P) (b : Fin NBUF) : Driver P :=
  let q := append (fun a => (s.buf a).qnext) NBUF s.idequeue b
  { s with idequeue := q.1, buf := fun a => (s.buf a).relink (q.2 a) }

def iderw (s : Driver P) (p : P) (b : Fin NBUF) : Except Panic (Driver P) :=
  if (s.buf b).lock ≠ some p then .error .notLocked
  else if (s.buf b).Finished then .error .nothingToDo
  else if (s.buf b).dev ≠ 0 ∧ s.havedisk1 = false then .error .disk1NotPresent
  else
    let s' := enqueue s b
    -- Start disk if necessary.
    if s'.idequeue = some b then idestart s' (some b) else .ok s'

/-! ## The system -/

/-- Where a process is. Within `iderw` it waits for buffer `b`, asleep or about to test again; `i`
is the number of its request. -/
inductive Stage
  | outside
  | asleep (b : Fin NBUF) (i : ℕ)
  | awake (b : Fin NBUF) (i : ℕ)

structure Request (P : Type) where
  proc : P
  buf : Fin NBUF
  contents : Buf P

/-- The driver and the processes. The last three fields are a record of what has happened: the
requests in the order in which they entered the queue, the buffers of those that are done, and the
requests whose caller has returned, with what it returned with. -/
structure Sys (P : Type) where
  drv : Driver P
  stage : P → Stage
  order : List (Request P)
  results : List (Bool × Bool × Block)
  returns : List (P × ℕ × (Bool × Bool × Block))

inductive Label (P : Type)
  /-- Process `p` calls `iderw(b)`. -/
  | call (p : P) (b : Fin NBUF)
  /-- It tests the flags again. -/
  | resume (p : P)
  /-- It is woken by somebody else, for example by `kill`. -/
  | wake (p : P)
  /-- The controller completes its command. -/
  | complete
  /-- The interrupt handler runs. -/
  | intr
  /-- The holder of a buffer's sleep lock changes the buffer. -/
  | edit (p : P) (b : Fin NBUF) (x : Buf P)
  /-- `acquiresleep` and `releasesleep`. -/
  | acquire (p : P) (b : Fin NBUF)
  | release (p : P) (b : Fin NBUF)

def wakeup (stage : P → Stage) (b : Option (Fin NBUF)) : P → Stage := fun p =>
  match stage p with
  | .asleep c i => if b = some c then .awake c i else .asleep c i
  | st => st

def Sys.setBuf (s : Sys P) (b : Fin NBUF) (x : Buf P) : Sys P :=
  { s with drv := { s.drv with buf := update s.drv.buf b x } }

def step (s : Sys P) : Label P → Option (Sys P)
  | .call p b =>
    match s.stage p, iderw s.drv p b with
    | .outside, .ok drv =>
      some { s with
        drv := drv
        stage := update s.stage p (.asleep b s.order.length)
        order := s.order ++ [⟨p, b, s.drv.buf b⟩] }
    | _, _ => none
  | .resume p =>
    match s.stage p with
    | .awake b i =>
      if (s.drv.buf b).Finished then
        some { s with
          stage := update s.stage p .outside
          returns := (p, i, (s.drv.buf b).outcome) :: s.returns }
      else some { s with stage := update s.stage p (.asleep b i) }
    | _ => none
  | .wake p =>
    match s.stage p with
    | .asleep b i => some { s with stage := update s.stage p (.awake b i) }
    | _ => none
  | .complete =>
    match s.drv.ctl with
    | .busy c =>
      some { s with drv :=
        { s.drv with disk := (c.exec s.drv.disk).1, ctl := .done (c.exec s.drv.disk).2 } }
    | _ => none
  | .intr =>
    match s.drv.ctl with
    | .done latch =>
      match ideintr s.drv latch with
      | .ok (drv, b) =>
        some { s with
          drv := drv
          stage := wakeup s.stage b
          results := s.results ++ (b.map fun b => (drv.buf b).outcome).toList }
      | .error _ => none
    | _ => none
  | .edit p b x =>
    match s.stage p with
    | .outside =>
      if (s.drv.buf b).lock = some p then
        some (s.setBuf b { x with lock := some p, qnext := (s.drv.buf b).qnext })
      else none
    | _ => none
  | .acquire p b =>
    match s.stage p with
    | .outside =>
      if (s.drv.buf b).lock = none then some (s.setBuf b { s.drv.buf b with lock := some p })
      else none
    | _ => none
  | .release p b =>
    match s.stage p with
    | .outside =>
      if (s.drv.buf b).lock = some p then some (s.setBuf b { s.drv.buf b with lock := none })
      else none
    | _ => none

/-- The calls that `memide.c` serves: for a block of disk 1. -/
def Served (s : Sys P) : Label P → Prop
  | .call _ b => (s.drv.buf b).dev = 1 ∧ (s.drv.buf b).blockno < FSSIZE
  | _ => True

instance (s : Sys P) : DecidablePred (Served s) := fun l =>
  match l with
  | .call _ b =>
    inferInstanceAs (Decidable ((s.drv.buf b).dev = 1 ∧ (s.drv.buf b).blockno < FSSIZE))
  | .resume _ | .wake _ | .complete | .intr | .edit _ _ _ | .acquire _ _ | .release _ _ =>
    .isTrue trivial

def start (disk : ℕ → ℕ → Block) (buf : Fin NBUF → Buf P) : Sys P where
  drv := ⟨buf, none, true, .idle, disk⟩
  stage _ := .outside
  order := []
  results := []
  returns := []

/-! ## The order of execution -/

def memRun (memdisk : ℕ → Block) (rs : List (Request P)) :
    Except Panic (List (Bool × Bool × Block) × (ℕ → Block)) :=
  rs.foldlM (fun (acc : List (Bool × Bool × Block) × (ℕ → Block)) r => do
    let (b, memdisk) ← memIderw r.proc r.contents acc.2
    return (acc.1 ++ [b.outcome], memdisk)) ([], memdisk)

structure Request.Good (r : Request P) : Prop where
  lock : r.contents.lock = some r.proc
  todo : ¬ r.contents.Finished
  dev : r.contents.dev = 1
  blockno : r.contents.blockno < FSSIZE

def served (b : Buf P) (memdisk : ℕ → Block) : Buf P :=
  if b.dirty then { b with dirty := false, valid := true }
  else { b with data := memdisk b.blockno, valid := true }

def stored (b : Buf P) (memdisk : ℕ → Block) : ℕ → Block :=
  if b.dirty then update memdisk b.blockno b.data else memdisk

theorem Request.Good.memIderw_eq {r : Request P} (h : r.Good) (memdisk : ℕ → Block) :
    memIderw r.proc r.contents memdisk =
      .ok (served r.contents memdisk, stored r.contents memdisk) := by
  unfold memIderw served stored
  rw [if_neg (by simp [h.lock]), if_neg h.todo, if_neg (by simp [h.dev]),
    if_neg (by simpa using h.blockno)]
  split <;> rfl

theorem memRun_concat {memdisk d : ℕ → Block} {rs : List (Request P)} {r : Request P}
    {xs : List (Bool × Bool × Block)} (h : memRun memdisk rs = .ok (xs, d)) (hr : r.Good) :
    memRun memdisk (rs ++ [r]) =
      .ok (xs ++ [(served r.contents d).outcome], stored r.contents d) := by
  unfold memRun at h ⊢
  rw [List.foldlM_append, h]
  show (memIderw r.proc r.contents d >>= _) >>= _ = _
  rw [hr.memIderw_eq]
  rfl

/-! ## The command of a request -/

section Command

variable {b : Buf P}

omit [DecidableEq P] in
theorem command_write : (command b).opcode = writeCmd ↔ b.dirty = true := by
  show (if b.dirty then writeCmd else readCmd) = writeCmd ↔ _
  cases b.dirty <;> decide

omit [DecidableEq P] in
theorem command_address (hdev : b.dev = 1) (hb : b.blockno < FSSIZE) :
    (command b).unit = 1 ∧ (command b).sector = b.blockno := by
  have hs : sectorPerBlock = 1 := rfl
  unfold Command.unit Command.sector command FSSIZE at *
  simp only [hdev, hs]
  omega

omit [DecidableEq P] in
theorem command_exec (hdev : b.dev = 1) (hb : b.blockno < FSSIZE) (disk : ℕ → ℕ → Block) :
    ((command b).exec disk).1 1 = stored b (disk 1) ∧
      (b.dirty = false → ((command b).exec disk).2 = disk 1 b.blockno) := by
  obtain ⟨hu, hsec⟩ := command_address hdev hb
  unfold Command.exec stored
  by_cases hd : b.dirty = true
  · rw [if_pos (command_write.mpr hd), if_pos hd, hu, hsec]
    exact ⟨by simp [command], fun h => by simp [hd] at h⟩
  · rw [if_neg (fun h => hd (command_write.mp h)), if_neg hd, hu, hsec]
    exact ⟨rfl, fun _ => rfl⟩

omit [DecidableEq P] in
theorem filled_outcome {c : Buf P} {latch : Block} {d : ℕ → Block} (hdirty : c.dirty = b.dirty)
    (hdata : c.data = b.data) (hl : b.dirty = false → latch = d b.blockno) :
    (filled c latch).outcome = (served b d).outcome := by
  unfold filled served Buf.outcome
  rw [hdirty, hdata]
  cases hd : b.dirty with
  | true => rfl
  | false => simp [hl hd]

end Command

/-! ## The invariant -/

def Stage.Waits (st : Stage) (b : Fin NBUF) (i : ℕ) : Prop := st = .asleep b i ∨ st = .awake b i

theorem Stage.Waits.unique {st : Stage} {b c : Fin NBUF} {i j : ℕ} (h : st.Waits b i)
    (h' : st.Waits c j) : b = c ∧ i = j := by
  rcases h with rfl | rfl <;> rcases h' with h' | h' <;> cases h' <;> exact ⟨rfl, rfl⟩

def Sys.pending (s : Sys P) : List (Request P) := s.order.drop s.results.length

def CtlInv (s : Sys P) (d : ℕ → Block) : Prop :=
  match s.drv.ctl with
  | .idle => s.pending = [] ∧ s.drv.disk 1 = d
  | .busy c => ∃ r rs, s.pending = r :: rs ∧ c = command r.contents ∧ s.drv.disk 1 = d
  | .done latch => ∃ r rs, s.pending = r :: rs ∧ s.drv.disk 1 = stored r.contents d ∧
      (r.contents.dirty = false → latch = d r.contents.blockno)
  | .clash => False

structure Inv (disk : ℕ → Block) (s : Sys P) : Prop where
  havedisk1 : s.drv.havedisk1 = true
  good : ∀ r ∈ s.order, r.Good
  length : s.results.length ≤ s.order.length
  queue : Linked (fun a => (s.drv.buf a).qnext) s.drv.idequeue (s.pending.map (·.buf))
  /-- A request that is not done has its caller waiting and its buffer as it was. -/
  waits : ∀ i r, s.order[i]? = some r → s.results.length ≤ i →
    (s.stage r.proc).Waits r.buf i ∧
      s.drv.buf r.buf = r.contents.relink (s.drv.buf r.buf).qnext
  inside : ∀ p b i, (s.stage p).Waits b i →
    (s.drv.buf b).lock = some p ∧ ∃ r, s.order[i]? = some r ∧ r.proc = p ∧ r.buf = b
  asleep : ∀ p b i, s.stage p = .asleep b i → s.results.length ≤ i
  awake : ∀ p b i, s.stage p = .awake b i → i < s.results.length →
    s.results[i]? = some (s.drv.buf b).outcome ∧ (s.drv.buf b).Finished
  returns : ∀ p i o, (p, i, o) ∈ s.returns →
    s.results[i]? = some o ∧ ∃ r, s.order[i]? = some r ∧ r.proc = p
  mem : ∃ d, memRun disk (s.order.take s.results.length) = .ok (s.results, d) ∧ CtlInv s d

section Inv

variable {disk : ℕ → Block} {s s' : Sys P} {p : P} {b : Fin NBUF}

theorem inv_start (disk : ℕ → ℕ → Block) (buf : Fin NBUF → Buf P) :
    Inv (disk 1) (start disk buf) where
  havedisk1 := rfl
  good := by simp [start]
  length := le_rfl
  queue := rfl
  waits := by simp [start]
  inside p b i h := by rcases h with h | h <;> cases h
  asleep p b i h := by cases h
  awake p b i h := by cases h
  returns := by simp [start]
  mem := ⟨disk 1, rfl, rfl, rfl⟩

theorem Inv.nodup (h : Inv disk s) : (s.pending.map (·.buf)).Nodup := by
  rw [List.nodup_iff_getElem?_ne_getElem?]
  intro i j hij hj heq
  rw [List.length_map] at hj
  have hget : ∀ k, s.pending[k]? = s.order[s.results.length + k]? := fun k => List.getElem?_drop ..
  obtain ⟨r, hr⟩ : ∃ r, s.pending[i]? = some r := ⟨_, List.getElem?_eq_getElem (by omega)⟩
  obtain ⟨r', hr'⟩ : ∃ r, s.pending[j]? = some r := ⟨_, List.getElem?_eq_getElem hj⟩
  rw [List.getElem?_map, List.getElem?_map, hr, hr'] at heq
  have hbuf : r.buf = r'.buf := by simpa using heq
  rw [hget] at hr hr'
  have hw := (h.waits _ _ hr (by omega)).1
  have hw' := (h.waits _ _ hr' (by omega)).1
  have hproc : r.proc = r'.proc := by
    have h1 := (h.inside _ _ _ hw).1
    have h2 := (h.inside _ _ _ hw').1
    rw [hbuf, h2] at h1
    exact (Option.some.inj h1).symm
  rw [hproc] at hw
  have := (hw.unique hw').2
  omega

theorem Inv.setBuf (h : Inv disk s) {x : Buf P} (hq : x.qnext = (s.drv.buf b).qnext)
    (hb : ∀ q c i, (s.stage q).Waits c i → c ≠ b) : Inv disk (s.setBuf b x) := by
  have hne : ∀ q c i, (s.stage q).Waits c i → (s.setBuf b x).drv.buf c = s.drv.buf c :=
    fun q c i hw => update_of_ne (hb q c i hw) ..
  refine ⟨h.havedisk1, h.good, h.length, h.queue.congr fun a _ => ?_, fun i r hr hi => ?_,
    fun p c i hw => ?_, h.asleep, fun p c i hst hi => ?_, h.returns, h.mem⟩
  · show (update s.drv.buf b x a).qnext = _
    by_cases ha : a = b
    · rw [ha, update_self, hq]
    · rw [update_of_ne ha]
  · obtain ⟨hw, hc⟩ := h.waits i r hr hi
    refine ⟨hw, ?_⟩
    rw [hne _ _ _ hw]
    exact hc
  · rw [hne _ _ _ hw]
    exact h.inside p c i hw
  · rw [hne _ _ _ (.inr hst)]
    exact h.awake p c i hst hi

theorem Inv.not_waited (h : Inv disk s) (hst : s.stage p = .outside)
    (hb : (s.drv.buf b).lock = some p ∨ (s.drv.buf b).lock = none) :
    ∀ q c i, (s.stage q).Waits c i → c ≠ b := by
  rintro q c i hw rfl
  rw [(h.inside q c i hw).1] at hb
  rcases hb with hb | hb
  · rw [Option.some.inj hb, hst] at hw
    rcases hw with hw | hw <;> cases hw
  · cases hb

variable {i : ℕ}

theorem Inv.restage (h : Inv disk s) {st : Stage} (hst : (s.stage p).Waits b i)
    (hst' : st.Waits b i) (hsleep : st = .asleep b i → s.results.length ≤ i)
    (hawake : st = .awake b i → i < s.results.length →
      s.results[i]? = some (s.drv.buf b).outcome ∧ (s.drv.buf b).Finished) :
    Inv disk { s with stage := update s.stage p st } := by
  have hiff : ∀ q c j, (update s.stage p st q).Waits c j ↔ (s.stage q).Waits c j := by
    intro q c j
    by_cases hq : q = p
    · subst hq
      rw [update_self]
      constructor
      · intro hw
        obtain ⟨rfl, rfl⟩ := hw.unique hst'
        exact hst
      · intro hw
        obtain ⟨rfl, rfl⟩ := hw.unique hst
        exact hst'
    · rw [update_of_ne hq]
  refine ⟨h.havedisk1, h.good, h.length, h.queue, fun j r hr hj => ?_,
    fun q c j hw => h.inside q c j ((hiff q c j).mp hw), fun q c j hw => ?_,
    fun q c j hw hj => ?_, h.returns, h.mem⟩
  · exact ⟨(hiff _ _ _).mpr (h.waits j r hr hj).1, (h.waits j r hr hj).2⟩
  · by_cases hq : q = p
    · subst hq
      simp only [update_self] at hw
      subst hw
      obtain ⟨rfl, rfl⟩ := Stage.Waits.unique (.inl rfl) hst'
      exact hsleep rfl
    · simp only [update_of_ne hq] at hw
      exact h.asleep q c j hw
  · by_cases hq : q = p
    · subst hq
      simp only [update_self] at hw
      subst hw
      obtain ⟨rfl, rfl⟩ := Stage.Waits.unique (.inr rfl) hst'
      exact hawake rfl hj
    · simp only [update_of_ne hq] at hw
      exact h.awake q c j hw hj

theorem Inv.return (h : Inv disk s) (hst : s.stage p = .awake b i) (hf : (s.drv.buf b).Finished) :
    Inv disk { s with
      stage := update s.stage p .outside
      returns := (p, i, (s.drv.buf b).outcome) :: s.returns } := by
  obtain ⟨-, r, hr, hrp, hrb⟩ := h.inside p b i (.inr hst)
  have hi : i < s.results.length := by
    by_contra hi
    obtain ⟨-, hc⟩ := h.waits i r hr (by omega)
    rw [hrb] at hc
    rw [hc] at hf
    exact (h.good r (List.mem_of_getElem? hr)).todo hf
  have hkeep : ∀ q c j, (update s.stage p Stage.outside q).Waits c j →
      q ≠ p ∧ (s.stage q).Waits c j := by
    intro q c j hw
    by_cases hq : q = p
    · subst hq
      rw [update_self] at hw
      rcases hw with hw | hw <;> cases hw
    · rw [update_of_ne hq] at hw
      exact ⟨hq, hw⟩
  refine ⟨h.havedisk1, h.good, h.length, h.queue, fun j r' hr' hj => ?_,
    fun q c j hw => h.inside q c j (hkeep q c j hw).2, fun q c j hw => ?_,
    fun q c j hw hj => ?_, fun q j o ho => ?_, h.mem⟩
  · obtain ⟨hw, hc⟩ := h.waits j r' hr' hj
    refine ⟨?_, hc⟩
    have hne : r'.proc ≠ p := by
      intro he
      rw [he] at hw
      exact absurd ((hw.unique (.inr hst)).2 ▸ hi) (not_lt.mpr hj)
    show (update s.stage p Stage.outside r'.proc).Waits _ _
    rwa [update_of_ne hne]
  · have := (hkeep q c j (.inl hw)).1
    simp only [update_of_ne this] at hw
    exact h.asleep q c j hw
  · have := (hkeep q c j (.inr hw)).1
    simp only [update_of_ne this] at hw
    exact h.awake q c j hw hj
  · rcases List.mem_cons.mp ho with ho | ho
    · cases ho
      exact ⟨(h.awake p b i hst hi).1, r, hr, hrp⟩
    · exact h.returns q j o ho

theorem Inv.complete (h : Inv disk s) {c : Command} (hc : s.drv.ctl = .busy c) :
    Inv disk { s with drv :=
      { s.drv with disk := (c.exec s.drv.disk).1, ctl := .done (c.exec s.drv.disk).2 } } := by
  obtain ⟨d, hrun, hctl⟩ := h.mem
  unfold CtlInv at hctl
  rw [hc] at hctl
  obtain ⟨r, rs, hp, rfl, hd⟩ := hctl
  have hr : r.Good := h.good r (List.mem_of_mem_drop (show r ∈ s.pending by simp [hp]))
  obtain ⟨h1, h2⟩ := command_exec hr.dev hr.blockno s.drv.disk
  exact ⟨h.havedisk1, h.good, h.length, h.queue, h.waits, h.inside, h.asleep, h.awake, h.returns,
    d, hrun, r, rs, hp, hd ▸ h1, hd ▸ h2⟩

/-! ## Entering the queue -/

theorem iderw_ok {s s' : Driver P} (h : iderw s p b = .ok s') :
    (s.buf b).lock = some p ∧ ¬ (s.buf b).Finished ∧
      s'.havedisk1 = s.havedisk1 ∧ s'.disk = s.disk ∧
      s'.buf = (enqueue s b).buf ∧ s'.idequeue = (enqueue s b).idequeue ∧
      s'.ctl = if (enqueue s b).idequeue = some b then s.ctl.accept (command (s.buf b))
        else s.ctl := by
  unfold iderw at h
  split at h
  case isTrue => cases h
  case isFalse hl =>
    split at h
    case isTrue => cases h
    case isFalse hf =>
      split at h
      case isTrue => cases h
      case isFalse =>
        refine ⟨not_not.mp hl, hf, ?_⟩
        dsimp only at h
        split at h
        case isTrue hq =>
          unfold idestart at h
          dsimp only at h
          split at h
          · cases h
          · split at h
            · cases h
            · cases h
              exact ⟨rfl, rfl, rfl, rfl, (if_pos hq).symm⟩
        case isFalse hq =>
          cases h
          exact ⟨rfl, rfl, rfl, rfl, (if_neg hq).symm⟩

theorem getElem?_concat_cases {α : Type} {l : List α} {a x : α}
    (h : (l ++ [a])[i]? = some x) : l[i]? = some x ∨ i = l.length ∧ x = a := by
  rcases Nat.lt_trichotomy i l.length with hi | rfl | hi
  · rw [List.getElem?_append_left hi] at h
    exact .inl h
  · simp at h
    exact .inr ⟨rfl, h.symm⟩
  · rw [List.getElem?_eq_none (by simp; omega)] at h
    cases h

omit [DecidableEq P] in
theorem CtlInv.call {d : ℕ → Block} {r : Request P} (h : CtlInv s d)
    (hdisk : s'.drv.disk = s.drv.disk) (hpend : s'.pending = s.pending ++ [r])
    (hctl : s'.drv.ctl = if s.pending = [] then s.drv.ctl.accept (command r.contents)
      else s.drv.ctl) : CtlInv s' d := by
  unfold CtlInv at *
  rw [hdisk]
  cases hc : s.drv.ctl with
  | idle =>
    rw [hc] at h hctl
    rw [if_pos h.1] at hctl
    rw [hctl]
    exact ⟨r, [], by simp [hpend, h.1], rfl, h.2⟩
  | busy c =>
    rw [hc] at h hctl
    obtain ⟨r', rs, hp, hcmd, hd⟩ := h
    rw [if_neg (by simp [hp])] at hctl
    rw [hctl]
    exact ⟨r', rs ++ [r], by simp [hpend, hp], hcmd, hd⟩
  | done latch =>
    rw [hc] at h hctl
    obtain ⟨r', rs, hp, hrest⟩ := h
    rw [if_neg (by simp [hp])] at hctl
    rw [hctl]
    exact ⟨r', rs ++ [r], by simp [hpend, hp], hrest⟩
  | clash =>
    rw [hc] at h
    exact h.elim

theorem Inv.call (h : Inv disk s) {drv : Driver P} {r : Request P} (hr : r = ⟨p, b, s.drv.buf b⟩)
    (hst : s.stage p = .outside) (hcall : iderw s.drv p b = .ok drv) (hdev : (s.drv.buf b).dev = 1)
    (hblk : (s.drv.buf b).blockno < FSSIZE) :
    Inv disk ⟨drv, update s.stage p (.asleep b s.order.length), s.order ++ [r], s.results,
      s.returns⟩ := by
  obtain ⟨hlock, htodo, hhave, hdisk, hbuf, hq, hctl⟩ := iderw_ok hcall
  have hfree := h.not_waited hst (.inl hlock)
  have hne : ∀ q c i, (s.stage q).Waits c i → q ≠ p := by
    rintro q c i hw rfl
    rw [hst] at hw
    rcases hw with hw | hw <;> cases hw
  have hnotin : b ∉ s.pending.map (·.buf) := by
    intro hb
    obtain ⟨r', hr', rfl⟩ := List.mem_map.mp hb
    obtain ⟨i, hi⟩ := List.getElem?_of_mem hr'
    rw [Sys.pending, List.getElem?_drop] at hi
    exact hfree _ _ _ (h.waits _ r' hi (by omega)).1 rfl
  have hlen : (s.pending.map (·.buf)).length ≤ NBUF := by
    simpa using h.nodup.length_le_card
  have hdrop : (s.order ++ [r]).drop s.results.length = s.pending ++ [r] :=
    List.drop_append_of_le_length h.length
  have hold : ∀ (i : ℕ) r', s.order[i]? = some r' → (s.order ++ [r])[i]? = some r' := by
    intro i r' hi
    rw [List.getElem?_append_left (List.getElem?_eq_some_iff.mp hi).1]
    exact hi
  have hhead : drv.idequeue = some b ↔ s.pending = [] := by
    rw [hq, show (enqueue s.drv b).idequeue = (s.pending.map (·.buf) ++ [b]).head? from
      append_head h.queue]
    cases hp : s.pending with
    | nil => simp
    | cons r' rs => simpa [hp, eq_comm] using fun he => hnotin (by simp [hp, he])
  refine ⟨hhave ▸ h.havedisk1, ?_, ?_, ?_, fun i r' hr' hi => ?_, fun q c i hw => ?_,
    fun q c i hw => ?_, fun q c i hw hi => ?_, fun q i o ho => ?_, ?_⟩
  · intro r' hr'
    rcases List.mem_append.mp hr' with hr' | hr'
    · exact h.good r' hr'
    · rw [List.mem_singleton.mp hr', hr]
      exact ⟨hlock, htodo, hdev, hblk⟩
  · simpa using Nat.le_succ_of_le h.length
  · show Linked (fun a => (drv.buf a).qnext) drv.idequeue
      (((s.order ++ [r]).drop s.results.length).map _)
    rw [hdrop, List.map_append, hbuf, hq, hr]
    exact h.queue.append h.nodup hnotin hlen
  · show (update s.stage p _ r'.proc).Waits _ _ ∧ drv.buf r'.buf = _
    rw [hbuf]
    rcases getElem?_concat_cases hr' with hr' | ⟨rfl, rfl⟩
    · obtain ⟨hw, hc⟩ := h.waits i r' hr' hi
      rw [update_of_ne (hne _ _ _ hw)]
      refine ⟨hw, ?_⟩
      show (s.drv.buf r'.buf).relink _ = _
      rw [hc]
      rfl
    · rw [hr]
      exact ⟨.inl (update_self ..), rfl⟩
  · show (drv.buf c).lock = some q ∧ _
    rw [hbuf]
    by_cases hqp : q = p
    · subst hqp
      simp only [update_self] at hw
      obtain ⟨rfl, rfl⟩ := hw.unique (.inl rfl)
      exact ⟨hlock, r, by simp, by rw [hr], by rw [hr]⟩
    · simp only [update_of_ne hqp] at hw
      obtain ⟨hl, r', hr', hrp, hrb⟩ := h.inside q c i hw
      exact ⟨hl, r', hold i r' hr', hrp, hrb⟩
  · by_cases hqp : q = p
    · subst hqp
      simp only [update_self, Stage.asleep.injEq] at hw
      rw [← hw.2]
      exact h.length
    · simp only [update_of_ne hqp] at hw
      exact h.asleep q c i hw
  · by_cases hqp : q = p
    · subst hqp
      simp at hw
    · simp only [update_of_ne hqp] at hw
      show s.results[i]? = some (drv.buf c).outcome ∧ (drv.buf c).Finished
      rw [hbuf]
      exact h.awake q c i hw hi
  · obtain ⟨ho, r', hr', hrp⟩ := h.returns q i o ho
    exact ⟨ho, r', hold i r' hr', hrp⟩
  · obtain ⟨d, hrun, hc⟩ := h.mem
    refine ⟨d, ?_, hc.call hdisk hdrop ?_⟩
    · show memRun disk ((s.order ++ [r]).take s.results.length) = _
      rw [List.take_append_of_le_length h.length]
      exact hrun
    · show drv.ctl = _
      rw [hctl, ← hq, hr]
      exact if_congr hhead rfl rfl

/-! ## The interrupt -/

variable {c : Option (Fin NBUF)}

omit [DecidableEq P] in
theorem wakeup_waits {stage : P → Stage} {q : P} :
    (wakeup stage c q).Waits b i ↔ (stage q).Waits b i := by
  unfold wakeup Stage.Waits
  split
  · split <;> simp_all
  · rfl

omit [DecidableEq P] in
theorem wakeup_asleep {stage : P → Stage} {q : P}
    (h : wakeup stage c q = .asleep b i) : stage q = .asleep b i ∧ c ≠ some b := by
  unfold wakeup at h
  split at h
  next b' i' hst =>
    split at h
    · cases h
    next hc =>
      cases h
      exact ⟨hst, hc⟩
  next hst => exact absurd h (hst b i)

variable {latch : Block}

omit [DecidableEq P] in
theorem ideintr_ok {s s' : Driver P} {rest : List (Fin NBUF)} (h : ideintr s latch = .ok (s', c))
    (hq : Linked (fun a => (s.buf a).qnext) s.idequeue (b :: rest)) :
    c = some b ∧ s'.buf = update s.buf b (filled (s.buf b) latch) ∧
      Linked (fun a => (s.buf a).qnext) s'.idequeue rest ∧ s'.havedisk1 = s.havedisk1 ∧
      s'.disk = s.disk ∧
      s'.ctl = match rest with
        | [] => .idle
        | a :: _ => .busy (command (s'.buf a)) := by
  unfold ideintr at h
  rw [hq.1] at h
  dsimp only at h
  have hrest := hq.2
  cases rest with
  | nil =>
    rw [show (s.buf b).qnext = none from hrest] at h
    cases h
    exact ⟨rfl, rfl, rfl, rfl, rfl, rfl⟩
  | cons a rest =>
    rw [show (s.buf b).qnext = some a from hrest.1] at h
    unfold idestart at h
    simp only [Option.isSome_some, if_true] at h
    split at h
    next s1 h1 =>
      cases h
      split at h1
      · cases h1
      · split at h1
        · cases h1
        · cases h1
          exact ⟨rfl, rfl, ⟨rfl, hrest.2⟩, rfl, rfl, rfl⟩
    next => cases h

theorem Inv.intr (h : Inv disk s) {drv : Driver P}
    (hdone : s.drv.ctl = .done latch) (hintr : ideintr s.drv latch = .ok (drv, c)) :
    Inv disk ⟨drv, wakeup s.stage c, s.order,
      s.results ++ (c.map fun b => (drv.buf b).outcome).toList, s.returns⟩ := by
  obtain ⟨d, hrun, hctl⟩ := h.mem
  unfold CtlInv at hctl
  rw [hdone] at hctl
  obtain ⟨r, rs, hp, hdisk, hlatch⟩ := hctl
  have hq := h.queue
  rw [hp] at hq
  obtain ⟨rfl, hbuf, hlink, hhave, hdisk', hctl'⟩ := ideintr_ok hintr hq
  have hn : s.order[s.results.length]? = some r := by
    have := congrArg (·[0]?) hp
    simpa [Sys.pending, List.getElem?_drop] using this
  have hgood := h.good r (List.mem_of_getElem? hn)
  obtain ⟨hw, hc⟩ := h.waits _ r hn le_rfl
  -- The buffers of all other requests, and of all other callers, are different.
  have hother : ∀ q b i, (s.stage q).Waits b i → i ≠ s.results.length → b ≠ r.buf := by
    rintro q b i hwq hi rfl
    have h1 := (h.inside q _ i hwq).1
    rw [(h.inside _ _ _ hw).1] at h1
    cases h1
    exact hi (hwq.unique hw).2
  have hout : (drv.buf r.buf).outcome = (served r.contents d).outcome := by
    rw [hbuf, update_self]
    refine filled_outcome ?_ ?_ hlatch
    · rw [hc]; rfl
    · rw [hc]; rfl
  simp only [Option.map_some, Option.toList_some]
  have hlen : s.results.length < s.order.length := (List.getElem?_eq_some_iff.mp hn).1
  have hpend : s.order.drop (s.results.length + 1) = rs := by
    rw [← List.drop_drop, ← Sys.pending, hp, List.drop_one, List.tail_cons]
  have hsame : ∀ a, a ≠ r.buf → drv.buf a = s.drv.buf a := by
    intro a ha
    rw [hbuf, update_of_ne ha]
  have hwaits : ∀ (i : ℕ) r', s.order[i]? = some r' → s.results.length + 1 ≤ i →
      (s.stage r'.proc).Waits r'.buf i ∧
        drv.buf r'.buf = r'.contents.relink (drv.buf r'.buf).qnext := by
    intro i r' hr' hi
    obtain ⟨hw', hc'⟩ := h.waits i r' hr' (by omega)
    rw [hsame _ (hother _ _ _ hw' (by omega))]
    exact ⟨hw', hc'⟩
  refine ⟨hhave ▸ h.havedisk1, h.good, by simpa using hlen, ?_, fun i r' hr' hi => ?_,
    fun q b i hwq => ?_, fun q b i hst => ?_, fun q b i hst hi => ?_, fun q i o ho => ?_, ?_⟩
  · unfold Sys.pending
    rw [List.length_append, List.length_singleton, hpend]
    refine hlink.congr fun a _ => ?_
    show (drv.buf a).qnext = _
    rw [hbuf]
    by_cases ha : a = r.buf
    · rw [ha, update_self]; rfl
    · rw [update_of_ne ha]
  · rw [List.length_append, List.length_singleton] at hi
    exact ⟨wakeup_waits.mpr (hwaits i r' hr' hi).1, (hwaits i r' hr' hi).2⟩
  · obtain ⟨hl, hr'⟩ := h.inside q b i (wakeup_waits.mp hwq)
    refine ⟨?_, hr'⟩
    by_cases hb : b = r.buf
    · rw [hbuf, hb, update_self]
      rwa [hb] at hl
    · rwa [hsame b hb]
  · obtain ⟨hst', hb⟩ := wakeup_asleep hst
    have hi := h.asleep q b i hst'
    have hne : i ≠ s.results.length := by
      rintro rfl
      obtain ⟨-, r', hr', -, rfl⟩ := h.inside q b _ (.inl hst')
      obtain rfl := Option.some.inj (hn.symm.trans hr')
      exact hb rfl
    rw [List.length_append, List.length_singleton]
    omega
  · have hwq : (s.stage q).Waits b i := wakeup_waits.mp (.inr hst)
    by_cases hin : i = s.results.length
    · subst hin
      obtain ⟨-, r', hr', -, rfl⟩ := h.inside q b _ hwq
      obtain rfl := Option.some.inj (hn.symm.trans hr')
      refine ⟨by simp, ?_⟩
      show (drv.buf r.buf).Finished
      rw [hbuf, update_self]
      exact ⟨rfl, rfl⟩
    · have hi' : i < s.results.length := by simp at hi; omega
      rw [hsame b (hother q b i hwq hin), List.getElem?_append_left hi']
      rcases hwq with hq' | hq'
      · exact absurd (h.asleep q b i hq') (by omega)
      · exact h.awake q b i hq' hi'
  · obtain ⟨ho, hr'⟩ := h.returns q i o ho
    refine ⟨?_, hr'⟩
    rw [List.getElem?_append_left (List.getElem?_eq_some_iff.mp ho).1]
    exact ho
  · refine ⟨stored r.contents d, ?_, ?_⟩
    · rw [List.length_append, List.length_singleton, List.take_add_one, hn, hout]
      exact memRun_concat hrun hgood
    · unfold CtlInv Sys.pending
      rw [List.length_append, List.length_singleton, hpend]
      have hd : drv.disk 1 = stored r.contents d := hdisk' ▸ hdisk
      cases rs with
      | nil =>
        rw [show drv.ctl = .idle from hctl']
        exact ⟨rfl, hd⟩
      | cons r' rs =>
        have hr' : s.order[s.results.length + 1]? = some r' := by
          have := congrArg (·[0]?) hpend
          simpa [List.getElem?_drop] using this
        rw [show drv.ctl = .busy (command (drv.buf r'.buf)) from hctl']
        refine ⟨r', rs, rfl, ?_, hd⟩
        rw [(hwaits _ r' hr' le_rfl).2]
        rfl

/-! ## Runs -/

theorem Inv.step (h : Inv disk s) {l : Label P} (hok : Served s l) (hs : step s l = some s') :
    Inv disk s' := by
  cases l with
  | call p b =>
    simp only [Ide.step] at hs
    split at hs
    next drv hst hcall =>
      cases hs
      exact h.call rfl hst hcall hok.1 hok.2
    next => cases hs
  | resume p =>
    simp only [Ide.step] at hs
    split at hs
    next b i hst =>
      split at hs
      next hf =>
        cases hs
        exact h.return hst hf
      next hf =>
        cases hs
        refine h.restage (.inr hst) (.inl rfl) (fun _ => ?_) (fun h => by cases h)
        -- A request that is done has a finished buffer.
        by_contra hi
        exact hf (h.awake p b i hst (by omega)).2
    next => cases hs
  | wake p =>
    simp only [Ide.step] at hs
    split at hs
    next b i hst =>
      cases hs
      refine h.restage (.inl hst) (.inr rfl) (fun h => by cases h) (fun _ hi => ?_)
      exact absurd (h.asleep p b i hst) (by omega)
    next => cases hs
  | complete =>
    simp only [Ide.step] at hs
    split at hs
    next c hc =>
      cases hs
      exact h.complete hc
    next => cases hs
  | intr =>
    simp only [Ide.step] at hs
    split at hs
    next latch hc =>
      split at hs
      next drv c hi =>
        cases hs
        exact h.intr hc hi
      next => cases hs
    next => cases hs
  | edit p b x =>
    simp only [Ide.step] at hs
    split at hs
    next hst =>
      obtain ⟨hl, rfl⟩ := Lts.of_guard hs
      exact h.setBuf rfl (h.not_waited hst (.inl hl))
    next => cases hs
  | acquire p b =>
    simp only [Ide.step] at hs
    split at hs
    next hst =>
      obtain ⟨hl, rfl⟩ := Lts.of_guard hs
      exact h.setBuf rfl (h.not_waited hst (.inr hl))
    next => cases hs
  | release p b =>
    simp only [Ide.step] at hs
    split at hs
    next hst =>
      obtain ⟨hl, rfl⟩ := Lts.of_guard hs
      exact h.setBuf rfl (h.not_waited hst (.inl hl))
    next => cases hs

theorem Inv.intr_runs (h : Inv disk s) (hdone : s.drv.ctl = .done latch) :
    (Ide.step s .intr).isSome := by
  obtain ⟨d, -, hctl⟩ := h.mem
  unfold CtlInv at hctl
  rw [hdone] at hctl
  obtain ⟨r, rs, hp, -, -⟩ := hctl
  have hq := h.queue
  rw [hp] at hq
  have hintr : ∃ q, ideintr s.drv latch = .ok q := by
    unfold ideintr
    rw [hq.1]
    dsimp only
    cases rs with
    | nil =>
      rw [show (s.drv.buf r.buf).qnext = none from hq.2]
      exact ⟨_, rfl⟩
    | cons r' rs =>
      have hr' : s.order[s.results.length + 1]? = some r' := by
        have := congrArg (·[1]?) hp
        simpa [Sys.pending, List.getElem?_drop] using this
      have hne : r'.buf ≠ r.buf := by
        have hnd := h.nodup
        rw [hp] at hnd
        simp at hnd
        exact fun he => hnd.1.1 he.symm
      have hblk : (s.drv.buf r'.buf).blockno < FSSIZE := by
        rw [(h.waits _ r' hr' (by omega)).2]
        exact (h.good r' (List.mem_of_getElem? hr')).blockno
      rw [show (s.drv.buf r.buf).qnext = some r'.buf from hq.2.1]
      unfold idestart
      simp only [Option.isSome_some, if_true, update_of_ne hne]
      rw [if_neg (by omega), if_neg (by decide)]
      exact ⟨_, rfl⟩
  obtain ⟨q, hq'⟩ := hintr
  simp only [Ide.step, hdone, hq']
  rfl

theorem Inv.call_runs (h : Inv disk s) (hst : s.stage p = .outside)
    (hl : (s.drv.buf b).lock = some p) (htodo : ¬ (s.drv.buf b).Finished)
    (hok : Served s (.call p b)) : (Ide.step s (.call p b)).isSome := by
  have hcall : ∃ drv, iderw s.drv p b = .ok drv := by
    unfold iderw
    rw [if_neg (by simp [hl]), if_neg htodo, if_neg (by simp [h.havedisk1])]
    dsimp only
    split
    · unfold idestart
      dsimp only
      rw [if_neg (show ¬ FSSIZE ≤ ((enqueue s.drv b).buf b).blockno from not_le.mpr hok.2),
        if_neg (by decide)]
      exact ⟨_, rfl⟩
    · exact ⟨_, rfl⟩
  obtain ⟨drv, hcall⟩ := hcall
  simp only [Ide.step, hst, hcall]
  rfl

end Inv

def Sys.executed (s : Sys P) : ℕ :=
  match s.drv.ctl with
  | .done _ => s.results.length + 1
  | _ => s.results.length

/-- The driver and the disk are as if `memide.c` had executed the requests in the order in which
they entered the queue. -/
structure Refines (disk : ℕ → Block) (s : Sys P) : Prop where
  /-- The buffers of the requests that are done, and the disk. -/
  executed : ∃ xs, memRun disk (s.order.take s.executed) = .ok (xs, s.drv.disk 1) ∧
    s.results = xs.take s.results.length
  /-- Every request is done or in the queue, in order. -/
  queue : s.results.length ≤ s.order.length ∧
    Linked (fun a => (s.drv.buf a).qnext) s.drv.idequeue (s.pending.map (·.buf))
  /-- The controller works on the first request of the queue, and got no command on top of it. -/
  active : s.drv.ctl ≠ .clash ∧ (s.drv.ctl = .idle → s.pending = []) ∧
    ∀ c, s.drv.ctl = .busy c → ∃ r, s.pending.head? = some r ∧ c = command r.contents
  /-- The caller of a request that is not done waits for it, and nobody sleeps for one that is. -/
  waiting : (∀ i r, s.order[i]? = some r → s.results.length ≤ i → (s.stage r.proc).Waits r.buf i) ∧
    ∀ p b i, s.stage p = .asleep b i → s.results.length ≤ i
  /-- A caller that has returned has the flags and the data of its request, which is done. -/
  returned : ∀ p i o, (p, i, o) ∈ s.returns →
    s.results[i]? = some o ∧ ∃ r, s.order[i]? = some r ∧ r.proc = p
  /-- When nothing is left to be done, the disk is that of `memide.c`. -/
  finished : s.pending = [] → memRun disk s.order = .ok (s.results, s.drv.disk 1)
  /-- Neither a call nor the interrupt handler panics. -/
  runs : (∀ latch, s.drv.ctl = .done latch → (step s .intr).isSome) ∧
    ∀ p b, s.stage p = .outside → (s.drv.buf b).lock = some p → ¬ (s.drv.buf b).Finished →
      Served s (.call p b) → (step s (.call p b)).isSome

theorem Inv.refines {disk : ℕ → Block} {s : Sys P} (h : Inv disk s) : Refines disk s := by
  obtain ⟨d, hrun, hctl⟩ := h.mem
  have hget : ∀ r rs, s.pending = r :: rs → s.order[s.results.length]? = some r := by
    intro r rs hp
    have := congrArg (·[0]?) hp
    simpa [Sys.pending, List.getElem?_drop] using this
  have hnil : s.pending = [] → s.results.length = s.order.length := by
    intro hp
    have := List.drop_eq_nil_iff.mp hp
    have := h.length
    omega
  refine ⟨?_, ⟨h.length, h.queue⟩, ?_, ⟨fun i r hr hi => (h.waits i r hr hi).1, h.asleep⟩,
    h.returns, fun hp => ?_, fun latch => h.intr_runs, fun p b => h.call_runs⟩
  · unfold CtlInv at hctl
    unfold Sys.executed
    cases hc : s.drv.ctl with
    | idle =>
      rw [hc] at hctl
      exact ⟨s.results, hctl.2 ▸ hrun, by simp⟩
    | busy c =>
      rw [hc] at hctl
      obtain ⟨-, -, -, -, hd⟩ := hctl
      exact ⟨s.results, hd ▸ hrun, by simp⟩
    | done latch =>
      rw [hc] at hctl
      obtain ⟨r, rs, hp, hd, -⟩ := hctl
      have hr := hget r rs hp
      refine ⟨s.results ++ [(served r.contents d).outcome], ?_, by simp⟩
      show memRun disk (s.order.take (s.results.length + 1)) = _
      rw [List.take_add_one, hr, hd]
      exact memRun_concat hrun (h.good r (List.mem_of_getElem? hr))
    | clash =>
      rw [hc] at hctl
      exact hctl.elim
  · unfold CtlInv at hctl
    refine ⟨fun hc => ?_, fun hc => ?_, fun c hc => ?_⟩
    · rw [hc] at hctl
      exact hctl
    · rw [hc] at hctl
      exact hctl.1
    · rw [hc] at hctl
      obtain ⟨r, rs, hp, hcmd, -⟩ := hctl
      exact ⟨r, by rw [hp]; rfl, hcmd⟩
  · unfold CtlInv at hctl
    rw [hnil hp, List.take_length] at hrun
    cases hc : s.drv.ctl with
    | idle =>
      rw [hc] at hctl
      rw [hctl.2]
      exact hrun
    | busy c =>
      rw [hc] at hctl
      obtain ⟨r, rs, hp', -⟩ := hctl
      rw [hp] at hp'
      cases hp'
    | done latch =>
      rw [hc] at hctl
      obtain ⟨r, rs, hp', -⟩ := hctl
      rw [hp] at hp'
      cases hp'
    | clash =>
      rw [hc] at hctl
      exact hctl.elim

/-- **The interrupt-driven driver refines the memory disk.** In every state of every run, whatever
the order of calls, completions, interrupts and wake-ups, the requests that `ide.c` has served and
the disk are as if `memide.c` had executed the requests one by one in the order in which they
entered the queue. -/
theorem ide_refines_memide {disk : ℕ → ℕ → Block} {buf : Fin NBUF → Buf P} {s : Sys P}
    (hr : Lts.Reach step Served (start disk buf) s) : Refines (disk 1) s :=
  Inv.refines (hr.invariant (inv_start disk buf) fun _ _ _ hI hok hs => hI.step hok hs)

def blankBuf (blockno : ℕ) : Buf Bool := ⟨false, false, 1, blockno, none, none, Block.zero⟩

theorem zero_lt_nbuf : 0 < NBUF := by decide

theorem one_lt_nbuf : 1 < NBUF := by decide

/-- Two processes write a block and read it back: the second request enters the queue while the
controller works on the first. -/
def writeRead : List (Label Bool) :=
  let b : Fin NBUF := ⟨0, zero_lt_nbuf⟩
  let c : Fin NBUF := ⟨1, one_lt_nbuf⟩
  [.acquire false b, .edit false b ⟨true, true, 1, 7, none, none, fun _ => 5⟩, .acquire true c,
    .call false b, .call true c, .complete, .wake true, .intr, .resume true, .complete, .intr,
    .resume true, .resume false]

def readBack (s : Sys Bool) : Bool :=
  s.returns.map (fun r => (r.1, r.2.1, r.2.2.2.2 0)) = [(false, 0, 5), (true, 1, 5)]

theorem ide_refines_memide_two : ∃ s, Lts.run step (start (fun _ _ => Block.zero)
      fun _ => blankBuf 7) writeRead = some s ∧
    readBack s = true ∧ Refines (fun _ => Block.zero) s := by
  have hok : Lts.RunOk step Served (start (fun _ _ => Block.zero) fun _ => blankBuf 7)
      writeRead := by
    decide +kernel
  obtain ⟨s, hs, hr, hq⟩ := Lts.exists_reach step _ writeRead readBack (by decide +kernel) hok
  exact ⟨s, hs, hq, ide_refines_memide hr⟩

end Xv6.Ide
