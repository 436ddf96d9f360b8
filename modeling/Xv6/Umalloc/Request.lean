import Xv6.Umalloc
import Xv6.Vm.Grow

/-!
# Requests of any size

`malloc` and `morecore` compute in 32-bit unsigned arithmetic what `sbrk` takes for a signed
increment. A request just below `2^32` wraps to one header, and from `2^31 - 15` bytes on the
increment is negative or 0: `sbrk` then shrinks the process or does nothing, and returns an address
behind which there is no new memory.

1. `Space`: what `sbrk` does to the size and the pages of a process, as the kernel does it
   (`sysSbrk_space`).
2. `Process`: the heap in such a process. A store to a page that is not mapped is a fault.
3. `mallocLoop_sim`: up to `2^31 - 16` bytes `malloc` is the one of `Heap`, so that its
   specification applies.
4. `malloc_serves_iff`: up to there and no further.
-/

namespace Xv6.Umalloc

open Function Segments StateExcept
open Vm (PGSIZE KERNBASE)

/-! ## The size of a process -/

/-- The size of a process. Its pages are mapped if they start below `lim`. -/
structure Space where
  sz : ℕ
  lim : ℕ

namespace Space

def Mapped (sp : Space) (x : ℕ) : Prop := x / PGSIZE * PGSIZE < sp.lim

instance (sp : Space) (x : ℕ) : Decidable (sp.Mapped x) := inferInstanceAs (Decidable (_ < _))

def allocuvm (mem : Bool) (newsz : ℕ) (sp : Space) : ℕ × Space :=
  if KERNBASE ≤ newsz then (0, sp)
  else if newsz < sp.sz then (sp.sz, sp)
  else if mem then (newsz, { sp with lim := newsz })
  else (0, sp)

def deallocuvm (newsz : ℕ) (sp : Space) : ℕ × Space :=
  if sp.sz ≤ newsz then (sp.sz, sp) else (newsz, { sp with lim := newsz })

def adopt (r : ℕ × Space) : Bool × Space :=
  if r.1 = 0 then (false, r.2) else (true, { r.2 with sz := r.1 })

def growproc (mem : Bool) (n : ℤ) (sp : Space) : Bool × Space :=
  let newsz := (((sp.sz : ℤ) + n) % 2 ^ 32).toNat
  if 0 < n then adopt (sp.allocuvm mem newsz)
  else if n < 0 then adopt (sp.deallocuvm newsz)
  else (true, sp)

def sbrk (mem : Bool) (n : ℤ) (sp : Space) : Option ℕ × Space :=
  let r := sp.growproc mem n
  (if r.1 then some sp.sz else none, r.2)

end Space

/-! ## The kernel -/

section Kernel

open Vm

variable {img : KernelImage} {L : List ℕ} {p : ℕ} {n : ℤ} {s s' : Kernel} {lim : ℕ}

def Has (s : Kernel) (p : ℕ) (sp : Space) : Prop :=
  (s.proc p).sz = sp.sz ∧ Exact s.mem (s.proc p).pgdir sp.lim

theorem has_resized {r : ℕ} {m' : Vm.Mem} (hx : Exact m' (s.proc p).pgdir lim) :
    (resized s p r m').1 = (Space.adopt (r, ⟨(s.proc p).sz, lim⟩)).1 ∧
      Has (resized s p r m').2 p (Space.adopt (r, ⟨(s.proc p).sz, lim⟩)).2 := by
  unfold resized Space.adopt
  by_cases hr : r = 0
  · rw [if_pos hr, if_pos hr]
    exact ⟨rfl, rfl, hx⟩
  · rw [if_neg hr, if_neg hr]
    refine ⟨rfl, ?_⟩
    unfold Has
    rw [setProc_self]
    exact ⟨rfl, hx⟩

theorem sysSbrk_resized {mem : Bool} {r : ℕ} {m' : Vm.Mem}
    (hrun : growproc img p n s = .ok (resized s p r m')) (hx : Exact m' (s.proc p).pgdir lim)
    (hspace : Space.growproc mem n ⟨(s.proc p).sz, (s.proc p).sz⟩ =
      Space.adopt (r, ⟨(s.proc p).sz, lim⟩)) :
    ∃ s', sysSbrk img p n s =
        .ok ((Space.sbrk mem n ⟨(s.proc p).sz, (s.proc p).sz⟩).1, s') ∧
      Has s' p (Space.sbrk mem n ⟨(s.proc p).sz, (s.proc p).sz⟩).2 := by
  obtain ⟨hr, hhas⟩ := has_resized (s := s) (r := r) hx
  generalize resized s p r m' = q at hrun hr hhas
  obtain ⟨b, s'⟩ := q
  refine ⟨s', ?_, ?_⟩
  · unfold sysSbrk
    rw [get_bind, bind_eq hrun, Space.sbrk, hspace, ← hr]
    cases b <;> rfl
  · rw [Space.sbrk, hspace]
    exact hhas

section Growproc

variable (hp : Pool img s.mem L (Vm.space s.mem (s.proc p).pgdir))
  (hx : Exact s.mem (s.proc p).pgdir (s.proc p).sz) (hsz : (s.proc p).sz < KERNBASE)

include hp hx hsz

theorem growproc_space_grow (hn : 0 < n) (hn' : n < 2 ^ 31) :
    ∃ mem r m' lim, growproc img p n s = .ok (resized s p r m') ∧
      Exact m' (s.proc p).pgdir lim ∧
      Space.growproc mem n ⟨(s.proc p).sz, (s.proc p).sz⟩ =
        Space.adopt (r, ⟨(s.proc p).sz, lim⟩) := by
  obtain ⟨newsz, hnew⟩ : ∃ newsz : ℕ, ((s.proc p).sz : ℤ) + n = newsz :=
    ⟨((s.proc p).sz + n).toNat, by omega⟩
  have hmod : (((s.proc p).sz + n) % 2 ^ 32).toNat = newsz := by
    rw [hnew]
    unfold KERNBASE at hsz
    omega
  have hspace : ∀ mem, Space.growproc mem n ⟨(s.proc p).sz, (s.proc p).sz⟩ =
      Space.adopt (Space.allocuvm mem newsz ⟨(s.proc p).sz, (s.proc p).sz⟩) := by
    intro mem
    unfold Space.growproc
    dsimp only
    rw [if_pos hn, hmod]
  by_cases hbig : KERNBASE ≤ newsz
  · refine ⟨false, 0, s.mem, _, growproc_grow hn hmod ?_, hx, ?_⟩
    · unfold allocuvm
      rw [if_pos hbig]
      rfl
    · rw [hspace, Space.allocuvm, if_pos hbig]
  · have hlt : ¬ newsz < (s.proc p).sz := by omega
    obtain ⟨r, m', L', h, hres⟩ := grow_mapped hp hx (not_lt.mp hlt) (not_le.mp hbig)
    refine ⟨r, _, m', if r then newsz else (s.proc p).sz, growproc_grow hn hmod h, ?_, ?_⟩
    · cases r with
      | true => exact Grown.exact hres hx (not_lt.mp hlt)
      | false => exact hx.of_survives fun k hk => Undone.survives hp hx hres hk
    · rw [hspace, Space.allocuvm, if_neg hbig, if_neg hlt]
      cases r <;> rfl

theorem growproc_space_shrink (hn : n < 0) :
    ∃ r m' lim, growproc img p n s = .ok (resized s p r m') ∧
      Exact m' (s.proc p).pgdir lim ∧
      ∀ mem, Space.growproc mem n ⟨(s.proc p).sz, (s.proc p).sz⟩ =
        Space.adopt (r, ⟨(s.proc p).sz, lim⟩) := by
  obtain ⟨newsz, hmod⟩ : ∃ newsz, (((s.proc p).sz + n) % 2 ^ 32).toNat = newsz := ⟨_, rfl⟩
  have hspace : ∀ mem, Space.growproc mem n ⟨(s.proc p).sz, (s.proc p).sz⟩ =
      Space.adopt (Space.deallocuvm newsz ⟨(s.proc p).sz, (s.proc p).sz⟩) := by
    intro mem
    unfold Space.growproc
    dsimp only
    rw [if_neg (by omega), if_pos hn, hmod]
  by_cases hle : (s.proc p).sz ≤ newsz
  · refine ⟨(s.proc p).sz, s.mem, (s.proc p).sz, growproc_shrink hn hmod ?_, hx, fun mem => ?_⟩
    · unfold deallocuvm
      rw [if_pos hle]
      rfl
    · rw [hspace, Space.deallocuvm, if_pos hle]
  · obtain ⟨m', L', h, hc⟩ := shrink_cleared hp hx hsz (not_le.mp hle).le
    refine ⟨newsz, m', newsz, growproc_shrink hn hmod h, hc.exact hx (not_le.mp hle).le,
      fun mem => ?_⟩
    rw [hspace, Space.deallocuvm, if_neg hle]

/-- **What `sbrk` does to a process** is what the kernel does. -/
theorem sysSbrk_space (hn : n < 2 ^ 31) :
    ∃ mem s', sysSbrk img p n s =
        .ok ((Space.sbrk mem n ⟨(s.proc p).sz, (s.proc p).sz⟩).1, s') ∧
      Has s' p (Space.sbrk mem n ⟨(s.proc p).sz, (s.proc p).sz⟩).2 := by
  rcases lt_trichotomy n 0 with hneg | rfl | hgrow
  · obtain ⟨r, m', lim, hrun, hx', hspace⟩ := growproc_space_shrink hp hx hsz hneg
    exact ⟨true, sysSbrk_resized hrun hx' (hspace true)⟩
  · exact ⟨true, s, rfl, rfl, hx⟩
  · obtain ⟨mem, r, m', lim, hrun, hx', hspace⟩ := growproc_space_grow hp hx hsz hgrow hn
    exact ⟨mem, sysSbrk_resized hrun hx' hspace⟩

end Growproc

/-- A process of one page gets a second one where a page is free; one that gives its page back is
left with its size and no page. -/
theorem sysSbrk_space_page :
    (∃ s', sysSbrk smallImage 0 PGSIZE spareProc = .ok (some PGSIZE, s') ∧
      Has s' 0 ⟨2 * PGSIZE, 2 * PGSIZE⟩) ∧
    (∃ s', sysSbrk smallImage 0 (-PGSIZE) oneProc = .ok (none, s') ∧ Has s' 0 ⟨PGSIZE, 0⟩) := by
  constructor
  · have hok : Space.sbrk true PGSIZE ⟨PGSIZE, PGSIZE⟩ =
        (some PGSIZE, ⟨2 * PGSIZE, 2 * PGSIZE⟩) := rfl
    have hfail : (Space.sbrk false PGSIZE ⟨PGSIZE, PGSIZE⟩).1 = none := rfl
    obtain ⟨mem, s', hrun, hhas⟩ : ∃ mem s', sysSbrk smallImage 0 PGSIZE spareProc =
        .ok ((Space.sbrk mem PGSIZE ⟨PGSIZE, PGSIZE⟩).1, s') ∧
          Has s' 0 (Space.sbrk mem PGSIZE ⟨PGSIZE, PGSIZE⟩).2 :=
      sysSbrk_space sparePage_spec.1 sparePage_spec.2 (by decide) (by decide)
    have hr : (sysSbrk smallImage 0 PGSIZE spareProc).map Prod.fst = .ok (some PGSIZE) := by
      decide +kernel
    cases mem with
    | true => rw [hok] at hrun hhas; exact ⟨s', hrun, hhas⟩
    | false => rw [hrun, hfail] at hr; cases hr
  · have hall : ∀ mem, Space.sbrk mem (-PGSIZE) ⟨PGSIZE, PGSIZE⟩ = (none, ⟨PGSIZE, 0⟩) :=
      fun _ => rfl
    obtain ⟨mem, s', hrun, hhas⟩ : ∃ mem s', sysSbrk smallImage 0 (-PGSIZE) oneProc =
        .ok ((Space.sbrk mem (-PGSIZE) ⟨PGSIZE, PGSIZE⟩).1, s') ∧
          Has s' 0 (Space.sbrk mem (-PGSIZE) ⟨PGSIZE, PGSIZE⟩).2 :=
      sysSbrk_space onePage_spec.1 onePage_spec.2 (by decide) (by decide)
    rw [hall] at hrun hhas
    exact ⟨s', hrun, hhas⟩

end Kernel

/-! ## The code -/

def toInt (x : ℕ) : ℤ := if x % 2 ^ 32 < 2 ^ 31 then (x % 2 ^ 32 : ℕ) else (x % 2 ^ 32 : ℕ) - 2 ^ 32

structure Process where
  heap : Heap
  space : Space

inductive NoReturn
  | endless
  | fault
  deriving DecidableEq

def Heap.given (h : Heap) (p brk : ℕ) : Heap :=
  { h with brk := brk, regions := if p < brk then (p, (brk - p) / HDR) :: h.regions else h.regions }

namespace Process

def morecore (fuel : ℕ) (mem : Bool) (nu : ℕ) (t : Process) : Except NoReturn (Process × ℕ) :=
  let nu := if nu < 4096 then 4096 else nu
  match t.space.sbrk mem (toInt (nu * HDR)) with
  | (none, sp) => .ok ({ t with space := sp }, 0)
  | (some p, sp) =>
    -- `hp->s.size = nu` is the first access to what `sbrk` has returned
    if sp.Mapped (p + HDR - 1) then
      match ((t.heap.given p sp.sz).setSize p nu).free fuel (plus p 1) with
      | none => .error .endless
      | some h => .ok (⟨h, sp⟩, h.freep)
    else .error .fault

def mallocLoop (nunits : ℕ) : ℕ → List Bool → ℕ → ℕ → Process → Except NoReturn (Process × ℕ)
  | 0, _, _, _, _ => .error .endless
  | fuel + 1, mems, prevp, p, t =>
    if nunits ≤ t.heap.size p then
      let (h, q) := t.heap.carve prevp p nunits
      .ok ({ t with heap := h }, q)
    else if p = t.heap.freep then
      match t.morecore fuel (mems.headD false) nunits with
      | .error e => .error e
      | .ok (t, p) =>
        if p = 0 then .ok (t, 0) else mallocLoop nunits fuel mems.tail p (t.heap.next p) t
    else mallocLoop nunits fuel mems p (t.heap.next p) t

def malloc (fuel : ℕ) (mems : List Bool) (nbytes : ℕ) (t : Process) :
    Except NoReturn (Process × ℕ) :=
  let h := t.heap.init
  mallocLoop (nunits nbytes) fuel mems h.freep (h.next h.freep) { t with heap := h }

end Process

inductive Action
  | malloc (mems : List Bool) (nbytes : ℕ)
  | free (ap : ℕ)
  | store (f : ℕ → Header)
  | sbrk (mem : Bool) (n : ℤ)

namespace Process

def exec (fuel : ℕ) (t : Process) : Action → Option Process
  | .malloc mems nbytes =>
    match t.malloc fuel mems nbytes with
    | .error _ => none
    | .ok (t, p) => some { t with heap := t.heap.taken p }
  | .free ap => (t.heap.exec fuel (.free ap)).map fun h => { t with heap := h }
  | .store f => (t.heap.exec fuel (.store f)).map fun h => { t with heap := h }
  | .sbrk mem n => some { t with space := (t.space.sbrk mem n).2 }

def step (t : Process) (l : ℕ × Action) : Option Process := t.exec l.1 l.2

def start (mem : ℕ → Header) (base sz : ℕ) : Process := ⟨Heap.start mem base sz, sz, sz⟩

/-- Only pointers that `malloc` returned are freed, and the program itself does not take memory from
its heap. -/
def Allowed (t : Process) : Action → Prop
  | .malloc _ nbytes => nbytes + 16 ≤ 2 ^ 31
  | .free ap => pred ap ∈ t.heap.live
  | .store _ => True
  | .sbrk _ n => 0 ≤ n ∧ n < 2 ^ 31

instance (t : Process) : (c : Action) → Decidable (Allowed t c)
  | .malloc _ nbytes => inferInstanceAs (Decidable (nbytes + 16 ≤ 2 ^ 31))
  | .free ap => inferInstanceAs (Decidable (pred ap ∈ t.heap.live))
  | .store _ => isTrue trivial
  | .sbrk _ n => inferInstanceAs (Decidable (0 ≤ n ∧ n < 2 ^ 31))

/-- `malloc(nbytes)` returns, and it returns 0 or a block with `nbytes` bytes behind its header, all
from `sbrk` and in the process; and the process has not become smaller. -/
def Serves (t : Process) (mems : List Bool) (nbytes : ℕ) : Prop :=
  ∃ fuel₀, ∀ fuel ≥ fuel₀, ∃ t' p, t.malloc fuel mems nbytes = .ok (t', p) ∧
    (p = 0 ∨ p = pred p + HDR ∧ nbytes ≤ HDR * (t'.heap.size (pred p) - 1) ∧
      ∀ x, p ≤ x → x < p + HDR * (t'.heap.size (pred p) - 1) →
        (∃ r ∈ t'.heap.regions, Mem HDR r x) ∧ x < t'.space.sz) ∧
    t.space.sz ≤ t'.space.sz ∧ t.space.lim ≤ t'.space.lim

end Process

/-! ## Requests up to `2^31 - 16` bytes -/

section Sim

variable {t t' : Process} {h h' : Heap} {sp : Space} {fuel nu n prevp p : ℕ} {mem : Bool}

theorem free_brk {ap : ℕ} (hf : h.free fuel ap = some h') :
    h'.brk = h.brk ∧ h'.regions = h.regions := by
  obtain ⟨q, -, rfl⟩ := Option.map_eq_some_iff.mp hf
  unfold Heap.joinPrev Heap.joinNext
  split <;> split <;> exact ⟨rfl, rfl⟩

theorem carve_brk (h : Heap) (prevp p n : ℕ) : (h.carve prevp p n).1.brk = h.brk := by
  unfold Heap.carve
  split <;> rfl

theorem init_brk (h : Heap) : h.init.brk = h.brk := by
  unfold Heap.init
  split <;> rfl

structure Process.WF (t : Process) : Prop where
  brk : t.heap.brk ≤ t.space.sz
  sz : t.space.sz < KERNBASE
  lim : t.space.lim = t.space.sz

theorem Process.WF.sbrk (ht : t.WF) (mem : Bool) (h0 : 0 < n) (hn : n < 2 ^ 31) :
    t.space.sbrk mem n = if t.space.sz + n < KERNBASE ∧ mem = true then
      (some t.space.sz, ⟨t.space.sz + n, t.space.sz + n⟩) else (none, t.space) := by
  have hsz := ht.sz
  have hmod : (((t.space.sz : ℤ) + n) % 2 ^ 32).toNat = t.space.sz + n := by
    unfold KERNBASE at hsz
    omega
  have hgrow : t.space.growproc mem n = Space.adopt (t.space.allocuvm mem (t.space.sz + n)) := by
    unfold Space.growproc
    dsimp only
    rw [if_pos (Int.natCast_pos.mpr h0), hmod]
  unfold Space.sbrk
  rw [hgrow, Space.allocuvm]
  by_cases hok : t.space.sz + n < KERNBASE ∧ mem = true
  · obtain ⟨hlt, rfl⟩ := hok
    have hpos : ¬ t.space.sz + n = 0 := by omega
    rw [if_neg (not_le.mpr hlt), if_neg (not_lt.mpr (Nat.le_add_right _ _)), if_pos rfl,
      if_pos ⟨hlt, rfl⟩, Space.adopt, if_neg hpos]
    rfl
  · rw [if_neg hok]
    by_cases hbig : KERNBASE ≤ t.space.sz + n
    · rw [if_pos hbig]
      rfl
    · have hmem : ¬ mem = true := fun hmem => hok ⟨not_le.mp hbig, hmem⟩
      rw [if_neg hbig, if_neg (not_lt.mpr (Nat.le_add_right _ _)), if_neg hmem]
      rfl

def Sim (t : Process) (x : Option (Heap × ℕ)) (y : Except NoReturn (Process × ℕ)) : Prop :=
  match x with
  | none => y = .error .endless
  | some (h', p) => ∃ sp', y = .ok (⟨h', sp'⟩, p) ∧ Process.WF ⟨h', sp'⟩ ∧ t.space.sz ≤ sp'.sz

theorem Sim.mono {x : Option (Heap × ℕ)} {y : Except NoReturn (Process × ℕ)} (hs : Sim t' x y)
    (hle : t.space.sz ≤ t'.space.sz) : Sim t x y := by
  unfold Sim at hs ⊢
  cases x with
  | none => exact hs
  | some r =>
    obtain ⟨sp', hy, ht, hle'⟩ := hs
    exact ⟨sp', hy, ht, hle.trans hle'⟩

theorem toInt_eq (hn : n < 2 ^ 31) : toInt n = n := by
  unfold toInt
  rw [Nat.mod_eq_of_lt (by omega), if_pos hn]

theorem morecore_sim (ht : t.WF) (hnu : nu * HDR < 2 ^ 31) (fuel : ℕ) (mem : Bool) :
    ∃ gap, Sim t (t.heap.morecore fuel gap nu) (t.morecore fuel mem nu) := by
  have hbrk := ht.brk
  unfold Heap.morecore Process.morecore
  dsimp only
  generalize hk : (if nu < 4096 then 4096 else nu) = k
  have hk0 : 0 < k * HDR ∧ k * HDR < 2 ^ 31 := by
    unfold HDR at hnu ⊢
    split at hk <;> omega
  rw [toInt_eq hk0.2, ht.sbrk mem hk0.1 hk0.2]
  by_cases hok : t.space.sz + k * HDR < KERNBASE ∧ mem = true
  · rw [if_pos hok]
    refine ⟨some (t.space.sz - t.heap.brk), ?_⟩
    have hsbrk : t.heap.sbrk (some (t.space.sz - t.heap.brk)) k =
        some (t.space.sz, t.heap.given t.space.sz (t.space.sz + k * HDR)) := by
      have hlt : t.space.sz + HDR * k < 2 ^ 32 := by
        have := hok.1
        unfold HDR KERNBASE at *
        omega
      have hlen : (t.space.sz + k * HDR - t.space.sz) / HDR = k := by
        rw [Nat.add_sub_cancel_left, Nat.mul_div_cancel _ (by decide)]
      unfold Heap.sbrk Heap.given
      dsimp only
      rw [Nat.add_sub_cancel' hbrk, if_pos hlt, if_pos (by omega), hlen, Nat.mul_comm k HDR]
    have hmapped : Space.Mapped ⟨t.space.sz + k * HDR, t.space.sz + k * HDR⟩
        (t.space.sz + HDR - 1) := by
      refine (Nat.div_mul_le_self _ _).trans_lt ?_
      unfold HDR at *
      dsimp only
      omega
    rw [hsbrk]
    dsimp only
    rw [if_pos hmapped]
    cases hf : ((t.heap.given t.space.sz (t.space.sz + k * HDR)).setSize t.space.sz k).free fuel
        (plus t.space.sz 1) with
    | none => rfl
    | some h' =>
      refine ⟨_, rfl, ⟨?_, hok.1, rfl⟩, Nat.le_add_right _ _⟩
      exact (free_brk hf).1.le
  · rw [if_neg hok]
    exact ⟨none, t.space, rfl, ht, le_rfl⟩

theorem mallocLoop_sim (ht : t.WF) (hn : n * HDR < 2 ^ 31) (fuel : ℕ) (mems : List Bool) :
    ∃ gaps, Sim t (Heap.mallocLoop n fuel gaps prevp p t.heap)
      (Process.mallocLoop n fuel mems prevp p t) := by
  induction fuel generalizing t mems prevp p with
  | zero => exact ⟨[], rfl⟩
  | succ fuel ih =>
    unfold Heap.mallocLoop Process.mallocLoop
    by_cases hbig : n ≤ t.heap.size p
    · refine ⟨[], ?_⟩
      rw [if_pos hbig, if_pos hbig]
      exact ⟨t.space, rfl, ⟨(carve_brk ..).trans_le ht.brk, ht.sz, ht.lim⟩, le_rfl⟩
    · simp only [if_neg hbig]
      by_cases hp : p = t.heap.freep
      · obtain ⟨gap, hmore⟩ := morecore_sim ht hn fuel (mems.headD false)
        simp only [if_pos hp]
        unfold Sim at hmore
        cases hm : t.heap.morecore fuel gap n with
        | none =>
          rw [hm] at hmore
          refine ⟨[gap], ?_⟩
          rw [List.head?_cons, Option.join_some, hm, hmore]
          rfl
        | some r =>
          obtain ⟨h1, p1⟩ := r
          rw [hm] at hmore
          obtain ⟨sp1, hrun, ht1, hle⟩ := hmore
          obtain ⟨gaps, hsim⟩ : ∃ gaps, Sim ⟨h1, sp1⟩
              (Heap.mallocLoop n fuel gaps p1 (h1.next p1) h1)
              (Process.mallocLoop n fuel mems.tail p1 (h1.next p1) ⟨h1, sp1⟩) := ih ht1 mems.tail
          refine ⟨gap :: gaps, ?_⟩
          rw [List.head?_cons, Option.join_some, hm, hrun, Option.bind_some]
          dsimp only
          by_cases hp1 : p1 = 0
          · rw [if_pos hp1, if_pos hp1]
            exact ⟨sp1, rfl, ht1, hle⟩
          · rw [if_neg hp1, if_neg hp1]
            exact hsim.mono hle
      · simp only [if_neg hp]
        exact ih ht mems

end Sim

theorem nunits_lt {nbytes : ℕ} (hn : nbytes + 16 ≤ 2 ^ 31) : nunits nbytes * HDR < 2 ^ 31 := by
  simp only [nunits, HDR]
  omega

theorem malloc_sim {t : Process} (ht : t.WF) {nbytes : ℕ} (hn : nbytes + 16 ≤ 2 ^ 31) (fuel : ℕ)
    (mems : List Bool) :
    ∃ gaps, Sim t (t.heap.malloc fuel gaps nbytes) (t.malloc fuel mems nbytes) :=
  mallocLoop_sim (t := { t with heap := t.heap.init })
    ⟨(init_brk _).trans_le ht.brk, ht.sz, ht.lim⟩ (nunits_lt hn) fuel mems

/-! ## Runs -/

section Runs

variable {t t' : Process} {nbytes : ℕ} {mems : List Bool}

theorem taken_brk (h : Heap) (p : ℕ) : (h.taken p).brk = h.brk ∧ (h.taken p).regions = h.regions ∧
    (h.taken p).size = h.size := by
  unfold Heap.taken
  split <;> exact ⟨rfl, rfl, rfl⟩

theorem step_inv {l : ℕ × Action} (hi : Inv t.heap) (ht : t.WF) (hok : t.Allowed l.2)
    (hs : t.step l = some t') : Inv t'.heap ∧ t'.WF := by
  obtain ⟨fuel, c⟩ := l
  cases c with
  | malloc mems nbytes =>
    have hn : nbytes + 16 ≤ 2 ^ 31 := hok
    obtain ⟨gaps, hsim⟩ := malloc_sim ht hn fuel mems
    unfold Process.step Process.exec at hs
    dsimp only at hs
    cases hm : t.heap.malloc fuel gaps nbytes with
    | none =>
      rw [hm] at hsim
      rw [show t.malloc fuel mems nbytes = .error .endless from hsim] at hs
      cases hs
    | some r =>
      obtain ⟨h1, p⟩ := r
      rw [hm] at hsim
      obtain ⟨sp1, hrun, ht1, -⟩ := hsim
      rw [hrun] at hs
      cases hs
      obtain ⟨bs', hg, -⟩ := (hi.malloc_of_some (by unfold HDR; omega) hm).taken
      exact ⟨.inr ⟨bs', hg⟩, (taken_brk h1 p).1.trans_le ht1.brk, ht1.sz, ht1.lim⟩
  | free ap =>
    obtain ⟨h1, hf, rfl⟩ := Option.map_eq_some_iff.mp hs
    refine ⟨hi.step (l := (fuel, .free ap)) hok hf, ?_, ht.sz, ht.lim⟩
    obtain ⟨h2, hfree, rfl⟩ := Option.map_eq_some_iff.mp hf
    exact (free_brk hfree).1.trans_le ht.brk
  | store f =>
    cases hs
    exact ⟨hi.step (l := (fuel, .store f)) hok rfl, ht.brk, ht.sz, ht.lim⟩
  | sbrk mem n =>
    cases hs
    refine ⟨hi, ?_⟩
    obtain ⟨h0, hn⟩ : 0 ≤ n ∧ n < 2 ^ 31 := hok
    obtain ⟨n, rfl⟩ := Int.eq_ofNat_of_zero_le h0
    rcases Nat.eq_zero_or_pos n with rfl | hpos
    · exact ht
    · rw [ht.sbrk mem hpos (by omega)]
      split
      next hlt => exact ⟨ht.brk.trans (Nat.le_add_right _ _), hlt.1, rfl⟩
      next => exact ht

theorem Inv.serves (hi : Inv t.heap) (ht : t.WF) (hn : nbytes + 16 ≤ 2 ^ 31) (mems : List Bool) :
    t.Serves mems nbytes := by
  have hn' : nbytes + HDR ≤ 2 ^ 32 := by
    unfold HDR
    omega
  obtain ⟨fuel0, hspec⟩ := malloc_spec hi hn'
  refine ⟨fuel0, fun fuel hfuel => ?_⟩
  obtain ⟨gaps, hsim⟩ := malloc_sim ht hn fuel mems
  obtain ⟨h', p, hrun, hret⟩ := hspec gaps fuel hfuel
  rw [hrun] at hsim
  obtain ⟨sp', hrun', ht', hle⟩ := hsim
  refine ⟨⟨h', sp'⟩, p, hrun', ?_, hle, ?_⟩
  · by_cases hp : p = 0
    · exact .inl hp
    · obtain ⟨hpred, hsize⟩ := hret.size_eq hp
      obtain ⟨bs', hg, hblock⟩ := hret.taken
      obtain ⟨hpos, hbytes⟩ := le_nunits hn'
      refine .inr ⟨hpred, hsize ▸ hbytes, fun x hx hlt => ?_⟩
      -- the bytes behind the header are bytes of the block
      have hmem : Mem HDR (pred p, nunits nbytes) x := by
        dsimp only at hlt
        rw [hsize] at hlt
        unfold Mem HDR at *
        dsimp only at *
        omega
      have hregion : ∃ r ∈ (h'.taken p).regions, Mem HDR r x := by
        refine exists_of_cover_pos ?_
        rw [← hg.cover, ← cover_append]
        exact cover_pos (List.mem_append_right bs' (hblock hp).2) hmem
      obtain ⟨r, hr, hrx⟩ := hregion
      have hbelow := hg.regions.below r hr
      rw [(taken_brk h' p).2.1] at hr
      rw [(taken_brk h' p).1] at hbelow
      exact ⟨⟨r, hr, hrx⟩, (hrx.2.trans_le hbelow).trans_le ht'.brk⟩
  · show t.space.lim ≤ sp'.lim
    rw [ht.lim, show sp'.lim = sp'.sz from ht'.lim]
    exact hle

/-! ## Larger requests -/

theorem toInt_nunits_nonpos (hn : 2 ^ 31 < nbytes + 16) (hn' : nbytes + HDR ≤ 2 ^ 32) :
    4096 ≤ nunits nbytes ∧ toInt (nunits nbytes * HDR) ≤ 0 ∧
      -2 ^ 31 ≤ toInt (nunits nbytes * HDR) := by
  have hk : 2 ^ 28 ≤ nunits nbytes ∧ nunits nbytes ≤ 2 ^ 29 := by
    simp only [nunits, HDR] at hn' ⊢
    omega
  generalize nunits nbytes = k at hk
  refine ⟨by omega, ?_⟩
  unfold toInt HDR
  by_cases h29 : k = 2 ^ 29
  · rw [h29]
    decide
  · rw [Nat.mod_eq_of_lt (by omega), if_neg (by omega)]
    omega

theorem Space.sbrk_nonpos {sz : ℕ} {n : ℤ} (mem : Bool) (hpos : 0 < sz) (hsz : sz < KERNBASE)
    (hn : n ≤ 0) (hn' : -2 ^ 31 ≤ n) (hne : (sz : ℤ) + n ≠ 0) :
    ∃ sp, Space.sbrk mem n ⟨sz, sz⟩ = (some sz, sp) ∧ sp.lim ≤ sz := by
  unfold Space.sbrk Space.growproc
  dsimp only
  rw [if_neg (not_lt.mpr hn)]
  by_cases h0 : n < 0
  · rw [if_pos h0, Space.deallocuvm]
    by_cases hle : sz ≤ (((sz : ℤ) + n) % 2 ^ 32).toNat
    · rw [if_pos hle, Space.adopt, if_neg hpos.ne']
      exact ⟨⟨sz, sz⟩, rfl, le_rfl⟩
    · have hr : ¬ (((sz : ℤ) + n) % 2 ^ 32).toNat = 0 := by
        unfold KERNBASE at hsz
        omega
      rw [if_neg hle, Space.adopt, if_neg hr]
      exact ⟨_, rfl, (not_le.mp hle).le⟩
  · rw [if_neg h0]
    exact ⟨⟨sz, sz⟩, rfl, le_rfl⟩

theorem mallocLoop_error {n fuel prevp p : ℕ} {e : NoReturn} (hsize : t.heap.size p < n)
    (hp : p = t.heap.freep) (hmore : t.morecore fuel (mems.headD false) n = .error e) :
    Process.mallocLoop n (fuel + 1) mems prevp p t = .error e := by
  unfold Process.mallocLoop
  rw [if_neg (not_le.mpr hsize), if_pos hp, hmore]

theorem malloc_fault {mem : ℕ → Header} {base sz : ℕ} (hn : 2 ^ 31 < nbytes + 16)
    (hn' : nbytes + HDR ≤ 2 ^ 32) (hbase : 0 < base) (hle' : base + HDR ≤ sz) (hsz : sz < KERNBASE)
    (halign : PGSIZE ∣ sz) (hne : (sz : ℤ) + toInt (nunits nbytes * HDR) ≠ 0) (fuel : ℕ) :
    (Process.start mem base sz).malloc (fuel + 1) mems nbytes = .error .fault := by
  obtain ⟨hbig, hle, hge⟩ := toInt_nunits_nonpos hn hn'
  obtain ⟨sp, hsbrk, hlim⟩ := Space.sbrk_nonpos (mems.headD false) (by omega) hsz hle hge hne
  have hmapped : ¬ sp.Mapped (sz + HDR - 1) := by
    obtain ⟨c, rfl⟩ := halign
    have hpage : (PGSIZE * c + HDR - 1) / PGSIZE = c := by
      unfold PGSIZE HDR
      omega
    unfold Space.Mapped
    rw [hpage, Nat.mul_comm c]
    exact not_lt.mpr hlim
  have hmore : Process.morecore fuel (mems.headD false) (nunits nbytes)
      { Process.start mem base sz with heap := (Heap.start mem base sz).init } = .error .fault := by
    unfold Process.morecore
    dsimp only
    rw [if_neg (not_lt.mpr hbig)]
    show (match Space.sbrk (mems.headD false) (toInt (nunits nbytes * HDR)) ⟨sz, sz⟩ with
      | (none, sp) => _
      | (some p, sp) => _) = _
    rw [hsbrk]
    exact if_neg hmapped
  -- the list consists of `base`, which has no room
  obtain ⟨hg, -⟩ := init_good (h := Heap.start mem base sz)
    ⟨rfl, rfl, rfl, hbase, hle', hsz.trans (by decide)⟩
  have hfreep : (Heap.start mem base sz).init.freep = base := List.mem_singleton.mp hg.freep
  have hnext : (Heap.start mem base sz).init.next base = base := hg.ring.2
  have hsize : (Heap.start mem base sz).init.size base = 0 :=
    hg.size (base, 0) (List.mem_append_left _ List.mem_cons_self)
  refine mallocLoop_error ?_ ?_ hmore
  · show (Heap.start mem base sz).init.size
      ((Heap.start mem base sz).init.next (Heap.start mem base sz).init.freep) < _
    rw [hfreep, hnext, hsize]
    omega
  · show (Heap.start mem base sz).init.next (Heap.start mem base sz).init.freep =
      (Heap.start mem base sz).init.freep
    rw [hfreep, hnext]

theorem malloc_wraps (hn : nbytes < 2 ^ 32) (hn' : 2 ^ 32 < nbytes + HDR) (fuel : ℕ) :
    ∃ t' p, (Process.start (fun _ => ⟨0, 0⟩) 8 12288).malloc (fuel + 2) [true] nbytes =
      .ok (t', p) ∧ p ≠ 0 ∧ t'.heap.size (pred p) = 1 := by
  have hone : nunits nbytes = 1 := by
    simp only [nunits, HDR] at hn' ⊢
    omega
  unfold Process.malloc
  rw [hone]
  show ∃ t' p, Process.mallocLoop 1 (fuel + 2) [true] 8 8
    ⟨(Heap.start (fun _ => ⟨0, 0⟩) 8 12288).init, ⟨12288, 12288⟩⟩ = .ok (t', p) ∧ _
  exact ⟨_, _, rfl, by decide, by rfl⟩

/-- **`malloc` and large requests.** In every heap that a program can have, `malloc` returns 0 or a
block that is large enough and never shrinks the process, exactly if the request is for at most
`2^31 - 16` bytes. -/
theorem malloc_serves_iff (hn : nbytes < 2 ^ 32) :
    (∀ (mem : ℕ → Header) (base sz : ℕ), 0 < base → base + HDR ≤ sz → sz < KERNBASE →
      ∀ t, Lts.Reach Process.step (fun t l => t.Allowed l.2) (Process.start mem base sz) t →
        ∀ mems, t.Serves mems nbytes) ↔ nbytes + 16 ≤ 2 ^ 31 := by
  constructor
  · intro hserves
    by_contra hbig
    rw [not_le] at hbig
    by_cases hwrap : nbytes + HDR ≤ 2 ^ 32
    · -- a page-aligned size that `sbrk` does not take to 0
      obtain ⟨sz, hsz, hlt, halign, hne⟩ : ∃ sz, 8 + HDR ≤ sz ∧ sz < KERNBASE ∧ PGSIZE ∣ sz ∧
          (sz : ℤ) + toInt (nunits nbytes * HDR) ≠ 0 := by
        by_cases hthree : toInt (nunits nbytes * HDR) = -12288
        · exact ⟨16384, by decide, by decide, ⟨4, rfl⟩, by rw [hthree]; decide⟩
        · refine ⟨12288, by decide, by decide, ⟨3, rfl⟩, fun h0 => hthree ?_⟩
          have hcast : ((12288 : ℕ) : ℤ) = 12288 := rfl
          omega
      obtain ⟨fuel₀, hret⟩ := hserves (fun _ => ⟨0, 0⟩) 8 sz (by decide) hsz hlt _ .refl []
      obtain ⟨t', p, hrun, -⟩ := hret (fuel₀ + 1) (Nat.le_succ _)
      rw [malloc_fault hbig hwrap (by decide) hsz hlt halign hne] at hrun
      cases hrun
    · obtain ⟨fuel₀, hret⟩ := hserves (fun _ => ⟨0, 0⟩) 8 12288 (by decide) (by decide) (by decide)
        _ .refl [true]
      obtain ⟨t', p, hrun, hblock, -⟩ := hret (fuel₀ + 2) (Nat.le_add_right _ _)
      obtain ⟨t₁, p₁, hrun1, hp, hsize⟩ := malloc_wraps hn (not_le.mp hwrap) fuel₀
      obtain ⟨rfl, rfl⟩ := Prod.mk.inj (Except.ok.inj (hrun1.symm.trans hrun))
      rcases hblock with h0 | ⟨-, hle, -⟩
      · exact hp h0
      · rw [hsize] at hle
        omega
  · intro hle mem base sz hbase hsz hlt t hr mems
    obtain ⟨hi, ht⟩ := hr.invariant (I := fun t => Inv t.heap ∧ t.WF)
      ⟨.inl ⟨rfl, rfl, rfl, hbase, hsz, hlt.trans (by decide)⟩, le_rfl, hlt, rfl⟩
      fun _ _ _ h hok hs => step_inv h.1 h.2 hok hs
    exact hi.serves ht hle mems

def takeBlock : List (ℕ × Action) := [(9, .malloc [true] 40000)]

/-- The largest request that is served. -/
theorem malloc_serves_largest : ∃ t,
    Lts.Reach Process.step (fun t l => t.Allowed l.2)
      (Process.start (fun _ => ⟨0, 0⟩) 8 12288) t ∧
    t.space.sz = 52296 ∧ t.Serves [true] (2 ^ 31 - 16) := by
  have hok : Lts.RunOk Process.step (fun t l => t.Allowed l.2)
      (Process.start (fun _ => ⟨0, 0⟩) 8 12288) takeBlock := by decide +kernel
  obtain ⟨t, -, hr, hq⟩ := Lts.exists_reach Process.step _ _
    (fun t => decide (t.space.sz = 52296)) (by decide +kernel) hok
  exact ⟨t, hr, of_decide_eq_true hq, (malloc_serves_iff (by decide)).mpr (by decide) _ 8 12288
    (by decide) (by decide) (by decide) t hr [true]⟩

def Process.outcome (t : Process) (nbytes : ℕ) : Option (ℕ × ℕ × ℕ × ℕ) :=
  match t.malloc 9 [true] nbytes with
  | .error _ => none
  | .ok (t', p) => some (p, t'.heap.size (pred p), t.space.sz, t'.space.sz)

/-- **Too small.** A request for `2^32 - 1` bytes is answered with a block of one header; one for
`2^32 - 16` bytes shrinks the process by 8 bytes and returns an address behind its end. -/
theorem malloc_too_small : ∃ t,
    Lts.Reach Process.step (fun t l => t.Allowed l.2)
      (Process.start (fun _ => ⟨0, 0⟩) 8 12288) t ∧
    t.outcome (2 ^ 32 - 1) = some (85064, 1, 52296, 85064) ∧
    t.outcome (2 ^ 32 - 16) = some (52304, 2 ^ 29 - 1, 52296, 52288) := by
  have hok : Lts.RunOk Process.step (fun t l => t.Allowed l.2)
      (Process.start (fun _ => ⟨0, 0⟩) 8 12288) takeBlock := by decide +kernel
  obtain ⟨t, -, hr, hq⟩ := Lts.exists_reach Process.step _ _
    (fun t => decide (t.outcome (2 ^ 32 - 1) = some (85064, 1, 52296, 85064) ∧
      t.outcome (2 ^ 32 - 16) = some (52304, 2 ^ 29 - 1, 52296, 52288)))
    (by decide +kernel) hok
  exact ⟨t, hr, of_decide_eq_true hq⟩

end Runs

end Xv6.Umalloc
