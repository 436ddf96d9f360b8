import Xv6.Lib.Lts
import Xv6.Lib.Ring
import Xv6.Lib.Segments

/-!
# The user heap

`umalloc.c`: the allocator of user programs. Free blocks form a circular list in address order that
starts and ends at `base`; `free` finds the place of a block in it and joins it with its neighbours,
`malloc` cuts a block from the tail of the first one that is large enough and asks `sbrk` for more
if there is none.

1. `Heap` and the code. `sbrk` fails or gives memory anywhere above what it gave before, and
   programs write what they like into their blocks.
2. `Good h fl al`: `fl` are the free blocks and `al` the allocated ones. They are the segments
   (`Segments`) that the memory from `sbrk` has been cut into.
3. `free_spec` and `malloc_spec`: the searches end, and the heap stays `Good`.
4. `heap_partition`.
-/

namespace Xv6.Umalloc

open Function Segments

structure Header where
  ptr : ℕ
  size : ℕ

def HDR : ℕ := 8

def nunits (nbytes : ℕ) : ℕ := ((nbytes + HDR - 1) % 2 ^ 32 / HDR + 1) % 2 ^ 32

/-- The memory and the variables of `umalloc.c`, with the blocks of memory from `sbrk` (address and
number of headers) and the blocks in the hands of the program. -/
structure Heap where
  mem : ℕ → Header
  /-- `&base` -/
  base : ℕ
  freep : ℕ
  /-- the end of what `sbrk` has given -/
  brk : ℕ
  regions : List (ℕ × ℕ)
  live : List ℕ

/-! ## The code -/

def plus (p n : ℕ) : ℕ := (p + HDR * n) % 2 ^ 32

def pred (p : ℕ) : ℕ := (p + (2 ^ 32 - HDR)) % 2 ^ 32

namespace Heap

def setPtr (h : Heap) (p q : ℕ) : Heap :=
  { h with mem := update h.mem p { h.mem p with ptr := q } }

def setSize (h : Heap) (p n : ℕ) : Heap :=
  { h with mem := update h.mem p { h.mem p with size := n } }

def next (h : Heap) (p : ℕ) : ℕ := (h.mem p).ptr

def size (h : Heap) (p : ℕ) : ℕ := (h.mem p).size

def fits (h : Heap) (bp p : ℕ) : Bool :=
  (p < bp ∧ bp < h.next p) ∨ (h.next p ≤ p ∧ (p < bp ∨ bp < h.next p))

def joinNext (h : Heap) (p bp : ℕ) : Heap :=
  if plus bp (h.size bp) = h.next p then
    (h.setSize bp ((h.size bp + h.size (h.next p)) % 2 ^ 32)).setPtr bp (h.next (h.next p))
  else h.setPtr bp (h.next p)

def joinPrev (h : Heap) (p bp : ℕ) : Heap :=
  if plus p (h.size p) = bp then
    (h.setSize p ((h.size p + h.size bp) % 2 ^ 32)).setPtr p (h.next bp)
  else h.setPtr p bp

def free (fuel : ℕ) (ap : ℕ) (h : Heap) : Option Heap :=
  let bp := pred ap
  (Ring.walk h.next (h.fits bp) fuel h.freep).map fun p =>
    { (h.joinNext p bp).joinPrev p bp with freep := p }

/-- `sbrk(nu * sizeof(Header))`, where the product is below `2^31` for requests below `2^30`. It
fails, or gives memory that starts `gap` behind what it gave before. -/
def sbrk (gap : Option ℕ) (nu : ℕ) (h : Heap) : Option (ℕ × Heap) :=
  match gap with
  | none => none
  | some gap =>
    if h.brk + gap + HDR * nu < 2 ^ 32 then
      some (h.brk + gap, { h with
        brk := h.brk + gap + HDR * nu, regions := (h.brk + gap, nu) :: h.regions })
    else none

def morecore (fuel : ℕ) (gap : Option ℕ) (nu : ℕ) (h : Heap) : Option (Heap × ℕ) :=
  let nu := if nu < 4096 then 4096 else nu
  match h.sbrk gap nu with
  | none => some (h, 0)
  | some (p, h) => (free fuel (plus p 1) (h.setSize p nu)).map fun h => (h, h.freep)

def carve (h : Heap) (prevp p nunits : ℕ) : Heap × ℕ :=
  if h.size p = nunits then ({ h.setPtr prevp (h.next p) with freep := prevp }, plus p 1)
  else
    let h := h.setSize p (h.size p - nunits)
    let p := plus p (h.size p)
    ({ h.setSize p nunits with freep := prevp }, plus p 1)

/-- The loop of `malloc`; `gaps` are the answers of `sbrk`. -/
def mallocLoop (nunits : ℕ) : ℕ → List (Option ℕ) → ℕ → ℕ → Heap → Option (Heap × ℕ)
  | 0, _, _, _, _ => none
  | fuel + 1, gaps, prevp, p, h =>
    if nunits ≤ h.size p then some (h.carve prevp p nunits)
    else if p = h.freep then
      (h.morecore fuel gaps.head?.join nunits).bind fun (h, p) =>
        if p = 0 then some (h, 0) else mallocLoop nunits fuel gaps.tail p (h.next p) h
    else mallocLoop nunits fuel gaps p (h.next p) h

def init (h : Heap) : Heap :=
  if h.freep = 0 then { (h.setPtr h.base h.base).setSize h.base 0 with freep := h.base } else h

def malloc (fuel : ℕ) (gaps : List (Option ℕ)) (nbytes : ℕ) (h : Heap) : Option (Heap × ℕ) :=
  let h := h.init
  mallocLoop (nunits nbytes) fuel gaps h.freep (h.next h.freep) h

end Heap

inductive HeapCall
  | malloc (gaps : List (Option ℕ)) (nbytes : ℕ)
  | free (ap : ℕ)
  /-- write into the blocks it has -/
  | store (f : ℕ → Header)

/-- The header at this address would overlap what the program may write. -/
def Inside (h : Heap) (x : ℕ) : Prop := ∃ a ∈ h.live, a < x ∧ x < a + HDR * h.size a

instance (h : Heap) (x : ℕ) : Decidable (Inside h x) :=
  inferInstanceAs (Decidable (∃ a ∈ h.live, _))

namespace Heap

def exec (fuel : ℕ) (h : Heap) : HeapCall → Option Heap
  | .malloc gaps nbytes =>
    (h.malloc fuel gaps nbytes).map fun (h, p) =>
      if p = 0 then h else { h with live := pred p :: h.live }
  | .free ap => (h.free fuel ap).map fun h => { h with live := h.live.erase (pred ap) }
  | .store f => some { h with mem := fun x => if Inside h x then f x else h.mem x }

def step (h : Heap) (l : ℕ × HeapCall) : Option Heap := h.exec l.1 l.2

end Heap

/-- Requests below `2^30`, and only pointers that `malloc` returned and that were not freed since.
-/
def Allowed (h : Heap) : HeapCall → Prop
  | .malloc _ nbytes => nbytes < 2 ^ 30
  | .free ap => pred ap ∈ h.live
  | .store _ => True

instance (h : Heap) : (c : HeapCall) → Decidable (Allowed h c)
  | .malloc _ nbytes => inferInstanceAs (Decidable (nbytes < 2 ^ 30))
  | .free ap => inferInstanceAs (Decidable (pred ap ∈ h.live))
  | .store _ => isTrue trivial

/-! ## Good heaps -/

def Before (b c : ℕ × ℕ) : Prop := b.1 + HDR * b.2 < c.1

structure Regions (h : Heap) : Prop where
  above : ∀ r ∈ h.regions, h.base + HDR ≤ r.1
  below : ∀ r ∈ h.regions, r.1 + HDR * r.2 ≤ h.brk
  apart : h.regions.Pairwise fun r r' => r'.1 + HDR * r'.2 ≤ r.1
  base_pos : 0 < h.base
  base_le : h.base + HDR ≤ h.brk
  brk_lt : h.brk < 2 ^ 32

structure Good (h : Heap) (bs al : List (ℕ × ℕ)) : Prop where
  ring : Ring.Path h.next h.base (bs.map Prod.fst) h.base
  base : (h.base, 0) ∈ bs
  sorted : bs.Pairwise Before
  size : ∀ b ∈ bs ++ al, h.size b.1 = b.2
  pos : ∀ b ∈ bs, b.1 ≠ h.base → 0 < b.2
  al_pos : ∀ b ∈ al, 0 < b.2
  freep : h.freep ∈ bs.map Prod.fst
  cover : ∀ x, cover HDR bs x + cover HDR al x = cover HDR h.regions x
  regions : Regions h

theorem Regions.cover_le {h : Heap} (hr : Regions h) (x : ℕ) : cover HDR h.regions x ≤ 1 := by
  have hdis := hr.apart
  generalize h.regions = rs at hdis
  induction rs with
  | nil => exact Nat.zero_le 1
  | cons r rs ih =>
    obtain ⟨hr, hrs⟩ := List.pairwise_cons.mp hdis
    rw [cover_cons]
    by_cases hx : Mem HDR r x
    · have hzero : Segments.cover HDR rs x = 0 := by
        by_contra hne
        obtain ⟨r', hr', hx'⟩ := exists_of_cover_pos (Nat.pos_of_ne_zero hne)
        exact absurd (hx'.2.trans_le (hr r' hr')) (Nat.not_lt.mpr hx.1)
      rw [hzero, if_pos hx]
    · rw [if_neg hx]
      exact ih hrs

theorem mem_first {b : ℕ × ℕ} (hb : 0 < b.2) : Mem HDR b b.1 := by
  simp only [Mem, HDR]
  omega

theorem exists_last {α : Type*} {q : α → Prop} [DecidablePred q] {l : List α} (h : ∃ x ∈ l, q x) :
    ∃ pre b post, l = pre ++ b :: post ∧ q b ∧ ∀ c ∈ post, ¬ q c := by
  induction l with
  | nil =>
    obtain ⟨x, hx, -⟩ := h
    exact absurd hx List.not_mem_nil
  | cons a l ih =>
    by_cases hl : ∃ x ∈ l, q x
    · obtain ⟨pre, b, post, rfl, hb, hpost⟩ := ih hl
      exact ⟨a :: pre, b, post, rfl, hb, hpost⟩
    · obtain ⟨x, hx, hqx⟩ := h
      have hno : ∀ c ∈ l, ¬ q c := fun c hc hqc => hl ⟨c, hc, hqc⟩
      rcases List.mem_cons.mp hx with rfl | hx
      · exact ⟨[], x, l, rfl, hqx, hno⟩
      · exact absurd hqx (hno x hx)

namespace Good

variable {h : Heap} {bs al : List (ℕ × ℕ)}

theorem bounds (hg : Good h bs al) {b : ℕ × ℕ} (hb : b ∈ bs ++ al) (hpos : 0 < b.2) :
    h.base + HDR ≤ b.1 ∧ b.1 + HDR * b.2 ≤ h.brk := by
  have hregion : ∀ x, Mem HDR b x → ∃ r ∈ h.regions, Mem HDR r x := by
    intro x hx
    refine exists_of_cover_pos ?_
    rw [← hg.cover, ← cover_append]
    exact cover_pos hb hx
  have hlast : Mem HDR b (b.1 + HDR * b.2 - 1) := by
    simp only [Mem, HDR]
    omega
  obtain ⟨r, hr, hx⟩ := hregion b.1 (mem_first hpos)
  obtain ⟨r', hr', hx'⟩ := hregion _ hlast
  refine ⟨(hg.regions.above r hr).trans hx.1, ?_⟩
  have hend := hg.regions.below r' hr'
  have hlt := hx'.2
  omega

theorem eq_base (hg : Good h bs al) {b : ℕ × ℕ} (hb : b ∈ bs ++ al) (hpos : ¬ 0 < b.2) :
    b.1 = h.base := by
  rcases List.mem_append.mp hb with hb | hb
  · by_contra hne
    exact hpos (hg.pos b hb hne)
  · exact absurd (hg.al_pos b hb) hpos

theorem end_lt (hg : Good h bs al) {b : ℕ × ℕ} (hb : b ∈ bs ++ al) : b.1 + HDR * b.2 < 2 ^ 32 := by
  by_cases hpos : 0 < b.2
  · exact (hg.bounds hb hpos).2.trans_lt hg.regions.brk_lt
  · have h1 := hg.regions.base_le
    have h2 := hg.regions.brk_lt
    rw [hg.eq_base hb hpos, Nat.eq_zero_of_not_pos hpos]
    omega

variable {c : ℕ × ℕ}

theorem apart (hg : Good h bs al) {b : ℕ × ℕ} {x : ℕ} (hb : b ∈ bs) (hc : c ∈ al)
    (hx : Mem HDR b x) (hx' : Mem HDR c x) : False := by
  have h1 := cover_pos hb hx
  have h2 := cover_pos hc hx'
  have h3 := hg.cover x
  have h4 := hg.regions.cover_le x
  omega

theorem base_le (hg : Good h bs al) {b : ℕ × ℕ} (hb : b ∈ bs) : h.base ≤ b.1 := by
  by_cases hne : b.1 = h.base
  · exact hne.ge
  · exact (Nat.le_add_right _ _).trans (hg.bounds (List.mem_append_left al hb) (hg.pos b hb hne)).1

theorem base_lt (hg : Good h bs al) (hc : c ∈ al) : h.base < c.1 :=
  (Nat.lt_add_of_pos_right (by decide)).trans_le
    (hg.bounds (List.mem_append_right bs hc) (hg.al_pos c hc)).1

theorem nodup (hg : Good h bs al) : (bs.map Prod.fst).Nodup := by
  refine List.pairwise_map.mpr (hg.sorted.imp fun {b c} hbc heq => ?_)
  unfold Before at hbc
  omega

theorem ring_split (hg : Good h bs al) {pre post : List (ℕ × ℕ)} {b : ℕ × ℕ}
    (hsplit : bs = pre ++ b :: post) :
    Ring.Path h.next h.base (pre.map Prod.fst) b.1 ∧
      Ring.Path h.next (h.next b.1) (post.map Prod.fst) h.base := by
  have hring := hg.ring
  rw [hsplit, List.map_append, List.map_cons] at hring
  obtain ⟨r, h1, rfl, h2⟩ := Ring.path_append.mp hring
  exact ⟨h1, h2⟩

theorem end_le (hg : Good h bs al) {b : ℕ × ℕ} (hb : b ∈ bs) (hc : c ∈ al) (hlt : b.1 < c.1) :
    b.1 + HDR * b.2 ≤ c.1 := by
  by_contra hno
  exact hg.apart hb hc ⟨hlt.le, not_le.mp hno⟩ (mem_first (hg.al_pos c hc))

theorem le_of_lt (hg : Good h bs al) {b : ℕ × ℕ} (hb : b ∈ bs) (hc : c ∈ al) (hlt : c.1 < b.1) :
    c.1 + HDR * c.2 ≤ b.1 := by
  by_contra hno
  have hne : b.1 ≠ h.base := ((hg.base_lt hc).trans hlt).ne'
  exact hg.apart hb hc (mem_first (hg.pos b hb hne)) ⟨hlt.le, not_le.mp hno⟩

theorem ne_of_mem (hg : Good h bs al) {b : ℕ × ℕ} (hb : b ∈ bs) (hc : c ∈ al) : b.1 ≠ c.1 := by
  intro heq
  have hne : b.1 ≠ h.base := heq ▸ (hg.base_lt hc).ne'
  exact hg.apart hb hc (mem_first (hg.pos b hb hne))
    (heq ▸ mem_first (hg.al_pos c hc))

/-! ### Where a block belongs -/

structure Place (bs : List (ℕ × ℕ)) (bp k : ℕ) (pre : List (ℕ × ℕ)) (b : ℕ × ℕ)
    (post : List (ℕ × ℕ)) : Prop where
  split : bs = pre ++ b :: post
  le : b.1 + HDR * b.2 ≤ bp
  lt : b.1 < bp
  post : ∀ c ∈ post, bp + HDR * k ≤ c.1

variable {bp k : ℕ} {pre post : List (ℕ × ℕ)} {b : ℕ × ℕ}

theorem place (hg : Good h bs ((bp, k) :: al)) (hsplit : bs = pre ++ b :: post) (hlt : b.1 < bp)
    (hpost : ∀ c ∈ post, bp < c.1) : Place bs bp k pre b post := by
  refine ⟨hsplit, ?_, hlt, fun c hc => ?_⟩
  · have hb : b ∈ bs := hsplit ▸ List.mem_append_right _ List.mem_cons_self
    exact hg.end_le hb List.mem_cons_self hlt
  · have hcb : c ∈ bs := hsplit ▸ List.mem_append_right _ (List.mem_cons_of_mem _ hc)
    exact hg.le_of_lt hcb List.mem_cons_self (hpost c hc)

theorem exists_place (hg : Good h bs ((bp, k) :: al)) :
    ∃ pre b post, Place bs bp k pre b post ∧ h.fits bp b.1 = true := by
  obtain ⟨pre, b, post, hsplit, hlt, hpost⟩ := exists_last (q := fun b : ℕ × ℕ => b.1 < bp)
    ⟨(h.base, 0), hg.base, hg.base_lt List.mem_cons_self⟩
  have hgt : ∀ c ∈ post, bp < c.1 := by
    intro c hc
    have hcb : c ∈ bs := hsplit ▸ List.mem_append_right _ (List.mem_cons_of_mem _ hc)
    exact lt_of_le_of_ne (not_lt.mp (hpost c hc)) (hg.ne_of_mem hcb List.mem_cons_self).symm
  refine ⟨pre, b, post, hg.place hsplit hlt hgt, decide_eq_true ?_⟩
  have hnext := (hg.ring_split hsplit).2
  cases post with
  | nil =>
    have hb : b ∈ bs := hsplit ▸ List.mem_append_right _ List.mem_cons_self
    rw [show h.next b.1 = h.base from hnext]
    exact .inr ⟨hg.base_le hb, .inl hlt⟩
  | cons c post =>
    rw [show h.next b.1 = c.1 from hnext.1]
    exact .inl ⟨hlt, hgt c List.mem_cons_self⟩

theorem place_of_fits (hg : Good h bs ((bp, k) :: al)) {p : ℕ} (hp : p ∈ bs.map Prod.fst)
    (hfits : h.fits bp p = true) : ∃ pre n post, Place bs bp k pre (p, n) post := by
  obtain ⟨⟨p, n⟩, hb, rfl⟩ := List.mem_map.mp hp
  obtain ⟨pre, post, hsplit⟩ := List.append_of_mem hb
  refine ⟨pre, n, post, ?_⟩
  have hnext := (hg.ring_split hsplit).2
  have hbase := hg.base_lt (List.mem_cons_self (a := (bp, k)) (l := al))
  replace hfits := of_decide_eq_true hfits
  cases post with
  | nil =>
    replace hnext : h.next p = h.base := hnext
    rw [hnext] at hfits
    refine hg.place hsplit ?_ fun c hc => absurd hc List.not_mem_nil
    rcases hfits with ⟨h1, -⟩ | ⟨-, h1 | h2⟩
    · exact h1
    · exact h1
    · exact absurd h2 hbase.not_gt
  | cons c post =>
    replace hnext : h.next p = c.1 := hnext.1
    rw [hnext] at hfits
    have hsorted := hg.sorted
    rw [hsplit, List.pairwise_append, List.pairwise_cons] at hsorted
    obtain ⟨-, ⟨hpc, hcs⟩, -⟩ := hsorted
    have hlt : p < c.1 := (Nat.le_add_right _ _).trans_lt (hpc c List.mem_cons_self)
    rcases hfits with ⟨h1, h2⟩ | ⟨hle, -⟩
    · refine hg.place hsplit h1 fun d hd => ?_
      rcases List.mem_cons.mp hd with rfl | hd
      · exact h2
      · have hcd := (List.pairwise_cons.mp hcs).1 d hd
        unfold Before at hcd
        omega
    · exact absurd hle hlt.not_ge

/-! ### Changes of neighbouring blocks -/

variable {mid a : List (ℕ × ℕ)}

theorem header_apart (hg : Good h (pre ++ (mid ++ post)) (a ++ al)) {d : ℕ × ℕ}
    (hc : c ∈ pre ++ post ++ al) (hd : d ∈ mid ++ a) : c.1 ≠ d.1 ∧ ¬ Mem HDR d c.1 := by
  have hcover : Segments.cover HDR (pre ++ post ++ al) c.1 +
      Segments.cover HDR (mid ++ a) c.1 ≤ 1 := by
    have h1 := hg.cover c.1
    have h2 := hg.regions.cover_le c.1
    simp only [cover_append] at h1 ⊢
    omega
  have hcb : c ∈ pre ++ (mid ++ post) ++ (a ++ al) := by
    simp only [List.mem_append] at hc ⊢
    tauto
  have hdb : d ∈ pre ++ (mid ++ post) ++ (a ++ al) := by
    simp only [List.mem_append] at hd ⊢
    tauto
  have hhdr : 0 < HDR := by decide
  by_cases hcp : 0 < c.2
  · have hone := cover_pos hc (mem_first hcp)
    have hnot : ¬ Mem HDR d c.1 := fun hx => by
      have := cover_pos hd hx
      omega
    refine ⟨fun heq => ?_, hnot⟩
    by_cases hdp : 0 < d.2
    · exact hnot (heq ▸ mem_first hdp)
    · have h1 := hg.eq_base hdb hdp
      have h2 := (hg.bounds hcb hcp).1
      omega
  · have hbase := hg.eq_base hcb hcp
    by_cases hdp : 0 < d.2
    · have hle := (hg.bounds hdb hdp).1
      exact ⟨by omega, fun hx => by have := hx.1; omega⟩
    · -- `base` is one block of the list
      have hsorted := hg.sorted
      simp only [List.pairwise_append, List.mem_append] at hsorted
      obtain ⟨-, ⟨-, -, hmid⟩, hpre⟩ := hsorted
      simp only [Before] at hmid hpre
      refine ⟨?_, fun hx => absurd (hx.1.trans_lt hx.2) (by simp [Nat.eq_zero_of_not_pos hdp])⟩
      have hcal : c ∉ al := fun h => hcp (hg.al_pos c (List.mem_append_right _ h))
      have hda : d ∉ a := fun h => hdp (hg.al_pos d (List.mem_append_left _ h))
      simp only [List.mem_append, hcal, hda, or_false] at hc hd
      rcases hc with hc | hc
      · have := hpre c hc d (.inl hd)
        omega
      · have := hmid d hd c hc
        omega

theorem regions_congr (hr : Regions h) {mem' : ℕ → Header} {freep' : ℕ} {live' : List ℕ} :
    Regions { h with mem := mem', freep := freep', live := live' } :=
  ⟨hr.above, hr.below, hr.apart, hr.base_pos, hr.base_le, hr.brk_lt⟩

theorem replace (mid mid' a a' : List (ℕ × ℕ)) (hg : Good h (pre ++ (mid ++ post)) (a ++ al))
    {mem' : ℕ → Header} {freep' : ℕ}
    (hmem : ∀ x, (∀ d ∈ mid ++ a, x ≠ d.1 ∧ ¬ Mem HDR d x) → mem' x = h.mem x)
    (hpath : ∀ r s, Ring.Path h.next r (mid.map Prod.fst) s →
      Ring.Path (fun x => (mem' x).ptr) r (mid'.map Prod.fst) s)
    (hbase : (h.base, 0) ∈ mid → (h.base, 0) ∈ mid') (hsorted : mid'.Pairwise Before)
    (hge : ∀ b ∈ mid', ∃ c ∈ mid, c.1 ≤ b.1) (hpost : ∀ b ∈ mid', ∀ c ∈ post, Before b c)
    (hsize : ∀ b ∈ mid' ++ a', (mem' b.1).size = b.2)
    (hpos : ∀ b ∈ mid', b.1 ≠ h.base → 0 < b.2) (ha : ∀ b ∈ a', 0 < b.2)
    (hfreep : freep' ∈ (pre ++ (mid' ++ post)).map Prod.fst)
    (hcover : ∀ x, Segments.cover HDR mid' x + Segments.cover HDR a' x =
      Segments.cover HDR mid x + Segments.cover HDR a x) :
    Good { h with mem := mem', freep := freep' } (pre ++ (mid' ++ post)) (a' ++ al) := by
  have hsame : ∀ c ∈ pre ++ post ++ al, mem' c.1 = h.mem c.1 := fun c hc =>
    hmem c.1 fun d hd => hg.header_apart hc hd
  have hs := hg.sorted
  simp only [List.pairwise_append, List.mem_append] at hs
  obtain ⟨hpre, ⟨-, hps, -⟩, hcross⟩ := hs
  refine ⟨?_, ?_, ?_, fun b hb => ?_, fun b hb hne => ?_, fun b hb => ?_, hfreep, fun x => ?_,
    regions_congr hg.regions⟩
  · have hring := hg.ring
    simp only [List.map_append, Ring.path_append] at hring ⊢
    obtain ⟨r, h1, s, h2, h3⟩ := hring
    refine ⟨r, h1.congr fun x hx => ?_, s, hpath r s h2, h3.congr fun x hx => ?_⟩ <;>
      obtain ⟨c, hc, rfl⟩ := List.mem_map.mp hx <;>
      exact congrArg Header.ptr (hsame c (by simp [hc]))
  · have hin := hg.base
    simp only [List.mem_append] at hin ⊢
    exact hin.imp_right (Or.imp_left hbase)
  · simp only [List.pairwise_append, List.mem_append]
    refine ⟨hpre, ⟨hsorted, hps, hpost⟩, fun c hc b hb => ?_⟩
    rcases hb with hb | hb
    · obtain ⟨d, hd, hle⟩ := hge b hb
      exact (hcross c hc d (.inl hd)).trans_le hle
    · exact hcross c hc b (.inr hb)
  · by_cases hnew : b ∈ mid' ++ a'
    · exact hsize b hnew
    · simp only [List.mem_append] at hb hnew
      refine (congrArg Header.size (hsame b ?_)).trans (hg.size b ?_) <;>
        (simp only [List.mem_append]; tauto)
  · by_cases hnew : b ∈ mid'
    · exact hpos b hnew hne
    · refine hg.pos b ?_ hne
      simp only [List.mem_append] at hb ⊢
      tauto
  · rcases List.mem_append.mp hb with hb | hb
    · exact ha b hb
    · exact hg.al_pos b (List.mem_append_right _ hb)
  · show _ = Segments.cover HDR h.regions x
    have := hcover x
    rw [← hg.cover]
    simp only [cover_append]
    omega

end Good

/-! ## `free` -/

def Heap.setHeader (h : Heap) (p : ℕ) (x : Header) : Heap := { h with mem := update h.mem p x }

theorem Heap.setPtr_eq (h : Heap) (p q : ℕ) : h.setPtr p q = h.setHeader p ⟨q, h.size p⟩ := rfl

theorem Heap.setSize_setPtr (h : Heap) (p q n : ℕ) :
    (h.setSize p n).setPtr p q = h.setHeader p ⟨q, n⟩ := by
  unfold Heap.setPtr Heap.setSize Heap.setHeader
  simp only [update_idem, update_self]

theorem Heap.next_setHeader_self (h : Heap) (p : ℕ) (x : Header) :
    (h.setHeader p x).next p = x.ptr := congrArg Header.ptr (update_self ..)

theorem Heap.size_setHeader_self (h : Heap) (p : ℕ) (x : Header) :
    (h.setHeader p x).size p = x.size := congrArg Header.size (update_self ..)

variable {p : ℕ}

theorem Heap.size_setHeader_of_ne (h : Heap) {q : ℕ} (x : Header) (hne : q ≠ p) :
    (h.setHeader p x).size q = h.size q := congrArg Header.size (update_of_ne hne ..)

theorem plus_eq {n : ℕ} (h : p + HDR * n < 2 ^ 32) : plus p n = p + HDR * n := Nat.mod_eq_of_lt h

section Free

open Good

variable {h : Heap} {bs al pre post : List (ℕ × ℕ)} {bp k p n : ℕ}

structure Joined (h : Heap) (p bp k r k' : ℕ) (drop post : List (ℕ × ℕ)) : Prop where
  path : ∀ s, Ring.Path h.next (h.next p) (drop.map Prod.fst) s → r = s
  before : ∀ c ∈ post, Before (bp, k') c
  le : k ≤ k'
  end_lt : bp + HDR * k' < 2 ^ 32
  cover : ∀ x, cover HDR drop x + (if Mem HDR (bp, k) x then 1 else 0) =
    if Mem HDR (bp, k') x then 1 else 0

theorem joinNext_spec (hg : Good h bs ((bp, k) :: al)) (pl : Place bs bp k pre (p, n) post) :
    ∃ r k' drop post', post = drop ++ post' ∧ h.joinNext p bp = h.setHeader bp ⟨r, k'⟩ ∧
      Joined h p bp k r k' drop post' := by
  have hpath := (hg.ring_split pl.split).2
  have hsize : h.size bp = k := hg.size (bp, k) (List.mem_append_right _ List.mem_cons_self)
  have hend : bp + HDR * k < 2 ^ 32 :=
    hg.end_lt (b := (bp, k)) (List.mem_append_right _ List.mem_cons_self)
  have hsorted := hg.sorted
  rw [pl.split, List.pairwise_append, List.pairwise_cons] at hsorted
  obtain ⟨-, ⟨-, hpost⟩, -⟩ := hsorted
  unfold Heap.joinNext
  rw [hsize, plus_eq hend]
  split
  next heq =>
    cases post with
    | nil =>
      have hbase := hg.base_lt (List.mem_cons_self (a := (bp, k)) (l := al))
      have hnext : h.next p = h.base := hpath
      omega
    | cons c post =>
      obtain ⟨q, m⟩ := c
      obtain ⟨hnext, hpath⟩ := hpath
      have hcb : (q, m) ∈ bs ++ (bp, k) :: al := by
        rw [pl.split]
        exact List.mem_append_left _ (List.mem_append_right _
          (List.mem_cons_of_mem _ List.mem_cons_self))
      have hcend : q + HDR * m < 2 ^ 32 := hg.end_lt hcb
      have hcsize : h.size q = m := hg.size _ hcb
      replace hnext : h.next p = q := hnext
      rw [hnext] at heq ⊢
      have hk : bp + HDR * (k + m) = q + HDR * m := by rw [Nat.mul_add, ← Nat.add_assoc, heq]
      have hsum : (k + h.size q) % 2 ^ 32 = k + m := by
        rw [hcsize]
        simp only [HDR] at hk hcend
        omega
      refine ⟨h.next q, k + m, [(q, m)], post, rfl, ?_, fun s hs => hs.2, fun d hd => ?_,
        Nat.le_add_right _ _, hk.trans_lt hcend, fun x => ?_⟩
      · rw [hsum, Heap.setSize_setPtr]
      · exact hk.trans_lt ((List.pairwise_cons.mp hpost).1 d hd)
      · rw [cover_cons, cover_nil, cover_cut bp k m, heq]
        omega
  next hne =>
    refine ⟨h.next p, k, [], post, rfl, ?_, fun s hs => hs, fun d hd => ?_, le_rfl, hend,
      fun x => Nat.zero_add _⟩
    · rw [Heap.setPtr_eq, hsize]
    · cases post with
      | nil => exact absurd hd List.not_mem_nil
      | cons c post =>
        have hnext : h.next p = c.1 := hpath.1
        have hc := pl.post c List.mem_cons_self
        unfold Before
        simp only
        rcases List.mem_cons.mp hd with rfl | hd
        · omega
        · have := (List.pairwise_cons.mp hpost).1 d hd
          unfold Before at this
          omega

def relinked (h : Heap) (p bp : ℕ) (x y : Header) : Heap :=
  { (h.setHeader bp y).setHeader p x with freep := p }

theorem free_spec (hg : Good h bs ((bp, k) :: al)) {ap fuel : ℕ} (hap : pred ap = bp)
    (hfuel : bs.length ≤ fuel) :
    ∃ mem' freep' bs', h.free fuel ap = some { h with mem := mem', freep := freep' } ∧
      Good { h with mem := mem', freep := freep' } bs' al ∧ bs'.length ≤ bs.length + 1 ∧
      ∃ b ∈ bs', k ≤ b.2 := by
  obtain ⟨_, b, _, pl0, hfits⟩ := hg.exists_place
  have hb : b ∈ bs := pl0.split ▸ List.mem_append_right _ List.mem_cons_self
  obtain ⟨p, hp, hfits, hwalk⟩ := Ring.walk_of_ring hg.ring hg.freep (List.mem_map_of_mem hb) hfits
    ((List.length_map _).trans_le hfuel)
  obtain ⟨pre, n, post, pl⟩ := hg.place_of_fits hp hfits
  obtain ⟨r, k', drop, post', rfl, hnext, hj⟩ := joinNext_spec hg pl
  have hle : p + HDR * n ≤ bp := pl.le
  have hlt : p < bp := pl.lt
  have hdrop := pl.post
  obtain rfl := pl.split
  have hpb : (p, n) ∈ pre ++ (p, n) :: (drop ++ post') ++ (bp, k) :: al := by simp
  have hkpos : 0 < k := hg.al_pos (bp, k) List.mem_cons_self
  have hk' := hj.le
  have hkend := hj.end_lt
  have hbase := hg.base_lt (List.mem_cons_self (a := (bp, k)) (l := al))
  have hpsize : h.size p = n := hg.size (p, n) hpb
  have hzero : p = h.base → n = 0 := by
    rintro rfl
    exact hpsize.symm.trans (hg.size _ (List.mem_append_left _ hg.base))
  -- the headers of `p` and `bp` after `joinNext`
  have hp1 : (h.setHeader bp ⟨r, k'⟩).size p = n :=
    (h.size_setHeader_of_ne _ hlt.ne).trans hpsize
  have hfree : h.free fuel ap =
      some { (h.setHeader bp ⟨r, k'⟩).joinPrev p bp with freep := p } := by
    unfold Heap.free
    simp only [hap, hwalk, Option.map_some, hnext]
  unfold Heap.joinPrev at hfree
  rw [hp1, plus_eq (by simp only [HDR] at hle hkend ⊢; omega)] at hfree
  have hkeep : ∀ x y : Header, ∀ z, (∀ d ∈ (p, n) :: drop ++ [(bp, k)], z ≠ d.1 ∧ ¬ Mem HDR d z) →
      (relinked h p bp x y).mem z = h.mem z := fun x y z hz =>
    (update_of_ne (hz (p, n) (by simp)).1 _ _).trans (update_of_ne (hz (bp, k) (by simp)).1 _ _)
  have hnobase : (h.base, 0) ∈ (p, n) :: drop → h.base = p := fun hin =>
    (List.mem_cons.mp hin).elim (congrArg Prod.fst) fun hin => by
      have := hdrop _ (List.mem_append_left _ hin)
      simp only at this hbase
      omega
  by_cases htouch : p + HDR * n = bp
  · have hsum : (n + (h.setHeader bp ⟨r, k'⟩).size bp) % 2 ^ 32 = n + k' := by
      rw [Heap.size_setHeader_self]
      show (n + k') % 2 ^ 32 = n + k'
      simp only [HDR] at htouch hkend
      omega
    rw [if_pos htouch, hsum, Heap.setSize_setPtr, Heap.next_setHeader_self] at hfree
    have hp2 : (relinked h p bp ⟨r, n + k'⟩ ⟨r, k'⟩).mem p = ⟨r, n + k'⟩ := update_self ..
    have hend : p + HDR * (n + k') = bp + HDR * k' := by
      rw [Nat.mul_add, ← Nat.add_assoc, htouch]
    have hpbase : p ≠ h.base := by
      intro heq
      rw [hzero heq] at htouch
      omega
    refine ⟨_, _, _, hfree, Good.replace ((p, n) :: drop) [(p, n + k')] [(bp, k)] [] hg
      (hkeep _ _) ?_ ?_
      (List.pairwise_singleton ..) ?_ ?_ ?_ ?_ (by simp) (by simp) ?_, ?_, (p, n + k'), by simp, ?_⟩
    · rintro r' s ⟨rfl, hs⟩
      exact ⟨rfl, (congrArg Header.ptr hp2).trans (hj.path s hs)⟩
    · exact fun hin => absurd (hnobase hin).symm hpbase
    · exact List.forall_mem_singleton.mpr ⟨(p, n), by simp, le_rfl⟩
    · exact List.forall_mem_singleton.mpr fun c hc => hend.trans_lt (hj.before c hc)
    · exact List.forall_mem_singleton.mpr (congrArg Header.size hp2)
    · exact List.forall_mem_singleton.mpr fun _ => Nat.add_pos_right n (hkpos.trans_le hk')
    · intro z
      have := hj.cover z
      simp only [cover_cons, cover_nil, cover_cut p n k', htouch]
      omega
    · simp only [List.length_append, List.length_cons, List.length_nil]
      omega
    · exact hk'.trans (Nat.le_add_left _ _)
  · rw [if_neg htouch, Heap.setPtr_eq, hp1] at hfree
    have hp2 : (relinked h p bp ⟨bp, n⟩ ⟨r, k'⟩).mem p = ⟨bp, n⟩ := update_self ..
    have hb2 : (relinked h p bp ⟨bp, n⟩ ⟨r, k'⟩).mem bp = ⟨r, k'⟩ :=
      (update_of_ne hlt.ne' _ _).trans (update_self ..)
    refine ⟨_, _, _, hfree, Good.replace ((p, n) :: drop) [(p, n), (bp, k')] [(bp, k)] [] hg
      (hkeep _ _) ?_ ?_
      (List.pairwise_pair.mpr (lt_of_le_of_ne hle htouch)) ?_ ?_ ?_ ?_ (by simp) (by simp) ?_, ?_,
      (bp, k'), by simp, hk'⟩
    · rintro r' s ⟨rfl, hs⟩
      exact ⟨rfl, congrArg Header.ptr hp2, (congrArg Header.ptr hb2).trans (hj.path s hs)⟩
    · intro hin
      rw [hnobase hin, hzero (hnobase hin).symm]
      exact List.mem_cons_self
    · simp only [List.forall_mem_cons, List.not_mem_nil, IsEmpty.forall_iff, implies_true, and_true]
      exact ⟨⟨(p, n), by simp, le_rfl⟩, (p, n), by simp, hlt.le⟩
    · simp only [List.forall_mem_cons, List.not_mem_nil, IsEmpty.forall_iff, implies_true, and_true]
      refine ⟨fun c hc => ?_, hj.before⟩
      have := hj.before c hc
      unfold Before at this ⊢
      simp only at this ⊢
      omega
    · simp only [List.append_nil, List.forall_mem_cons, List.not_mem_nil, IsEmpty.forall_iff,
        implies_true, and_true]
      exact ⟨congrArg Header.size hp2, congrArg Header.size hb2⟩
    · simp only [List.forall_mem_cons, List.not_mem_nil, IsEmpty.forall_iff, implies_true, and_true]
      exact ⟨hg.pos (p, n) (by simp), fun _ => hkpos.trans_le hk'⟩
    · intro z
      have := hj.cover z
      simp only [cover_cons, cover_nil]
      omega
    · simp only [List.length_append, List.length_cons, List.length_nil]
      omega

end Free

/-! ## `malloc` -/

section Malloc

variable {h : Heap} {bs al : List (ℕ × ℕ)}

theorem Heap.next_setSize (h : Heap) (p n : ℕ) : (h.setSize p n).next = h.next := by
  funext q
  unfold Heap.next Heap.setSize
  by_cases hq : q = p
  · subst hq
    simp only [update_self]
  · simp only [update_of_ne hq]

theorem Heap.size_setSize (h : Heap) (p n : ℕ) : (h.setSize p n).size = update h.size p n := by
  funext q
  unfold Heap.size Heap.setSize
  by_cases hq : q = p
  · subst hq
    simp only [update_self]
  · simp only [update_of_ne hq]

variable {x nunits : ℕ}

theorem Good.around (hg : Good h bs al) (hx : x ∈ bs.map Prod.fst)
    (hn : 0 < nunits) (hsize : nunits ≤ h.size (h.next x)) :
    ∃ pre b post, bs = pre ++ b :: (h.next x, h.size (h.next x)) :: post ∧ b.1 = x := by
  have hy : h.next x ∈ bs.map Prod.fst := hg.ring.perm.mem_iff.mp (List.mem_map_of_mem hx)
  obtain ⟨⟨y, n⟩, hb, heq⟩ := List.mem_map.mp hy
  replace heq : y = h.next x := heq
  have hyn : h.size y = n := hg.size (y, n) (List.mem_append_left _ hb)
  obtain ⟨pre, post, hsplit⟩ := List.append_of_mem hb
  rcases List.eq_nil_or_concat pre with rfl | ⟨pre, b, rfl⟩
  · -- the first block is `base`, which is empty
    have hbase : h.base = y := (hg.ring_split hsplit).1
    have hzero : h.size h.base = 0 := hg.size _ (List.mem_append_left _ hg.base)
    rw [← heq, ← hbase, hzero] at hsize
    omega
  · rw [List.concat_eq_append, List.append_assoc, List.singleton_append] at hsplit
    refine ⟨pre, b, post, ?_, ?_⟩
    · rw [← heq, hyn, hsplit]
    · have hnext : h.next b.1 = y := (hg.ring_split hsplit).2.1
      have hbb : b ∈ bs := hsplit ▸ List.mem_append_right _ List.mem_cons_self
      exact hg.ring.next_inj hg.nodup (List.mem_map_of_mem hbb) hx (hnext.trans heq)

theorem Good.unlink {pre post : List (ℕ × ℕ)} {m y n : ℕ} (hg : Good h bs al)
    (hsplit : bs = pre ++ (x, m) :: (y, n) :: post) (hn : 0 < n) :
    Good { h.setPtr x (h.next y) with freep := x } (pre ++ (x, m) :: post) ((y, n) :: al) := by
  subst hsplit
  have hself : (h.setPtr x (h.next y)).mem x = ⟨h.next y, h.size x⟩ := update_self ..
  have hs := hg.sorted
  simp only [List.pairwise_append, List.pairwise_cons] at hs
  obtain ⟨-, ⟨hxy, -⟩, -⟩ := hs
  have hne : y ≠ x := by
    have := hxy (y, n) List.mem_cons_self
    unfold Before at this
    simp only at this
    omega
  refine Good.replace [(x, m), (y, n)] [(x, m)] [] [(y, n)] hg
    (fun z hz => update_of_ne (hz (x, m) (by simp)).1 _ _) ?_ ?_ (List.pairwise_singleton ..) ?_ ?_
    ?_ ?_ (by simpa) (by simp) (by simp [add_comm])
  · rintro r s ⟨rfl, -, hs⟩
    exact ⟨rfl, (congrArg Header.ptr hself).trans hs⟩
  · intro hin
    have : (h.base, 0) ≠ (y, n) := fun heq => hn.ne (Prod.mk.inj heq).2
    simp only [List.mem_cons, List.not_mem_nil, or_false] at hin ⊢
    tauto
  · exact List.forall_mem_singleton.mpr ⟨(x, m), by simp, le_rfl⟩
  · exact List.forall_mem_singleton.mpr fun c hc => hxy c (List.mem_cons_of_mem _ hc)
  · refine List.forall_mem_cons.mpr ⟨?_, List.forall_mem_singleton.mpr ?_⟩
    · exact (congrArg Header.size hself).trans (hg.size (x, m) (by simp))
    · exact (congrArg Header.size (update_of_ne hne _ _)).trans (hg.size (y, n) (by simp))
  · exact List.forall_mem_singleton.mpr (hg.pos (x, m) (by simp))

theorem Good.cut {pre post : List (ℕ × ℕ)} {y n k : ℕ} (hg : Good h bs al)
    (hsplit : bs = pre ++ (y, n + k) :: post) (hn : 0 < n) (hk : 0 < k)
    (hx : x ∈ pre.map Prod.fst) :
    Good { (h.setSize y n).setSize (y + HDR * n) k with freep := x } (pre ++ (y, n) :: post)
      ((y + HDR * n, k) :: al) := by
  subst hsplit
  have hmul : HDR * (n + k) = HDR * n + HDR * k := Nat.mul_add ..
  have hmulk : 0 < HDR * k := Nat.mul_pos (by decide) hk
  have hmuln : 0 < HDR * n := Nat.mul_pos (by decide) hn
  have hs := hg.sorted
  simp only [List.pairwise_append, List.pairwise_cons] at hs
  obtain ⟨-, ⟨hypost, -⟩, -⟩ := hs
  have hnext : ((h.setSize y n).setSize (y + HDR * n) k).next = h.next := by
    rw [Heap.next_setSize, Heap.next_setSize]
  have hsize : ((h.setSize y n).setSize (y + HDR * n) k).size =
      update (update h.size y n) (y + HDR * n) k := by
    rw [Heap.size_setSize, Heap.size_setSize]
  refine Good.replace [(y, n + k)] [(y, n)] [] [(y + HDR * n, k)] hg (fun z hz => ?_) ?_ ?_
    (List.pairwise_singleton ..) ?_ ?_ ?_ ?_ (by simpa) ?_ fun z => ?_
  · obtain ⟨hne, hnot⟩ := hz (y, n + k) (by simp)
    refine (update_of_ne (fun heq => hnot ?_) _ _).trans (update_of_ne hne _ _)
    simp only [Mem]
    omega
  · rintro r s ⟨rfl, hs⟩
    exact ⟨rfl, (congrFun hnext r).trans hs⟩
  · intro hin
    have := (Prod.mk.inj (List.mem_singleton.mp hin)).2
    omega
  · exact List.forall_mem_singleton.mpr ⟨(y, n + k), by simp, le_rfl⟩
  · refine List.forall_mem_singleton.mpr fun c hc => ?_
    have := hypost c hc
    unfold Before at this ⊢
    simp only at this ⊢
    omega
  · show ∀ b ∈ [(y, n), (y + HDR * n, k)], ((h.setSize y n).setSize (y + HDR * n) k).size b.1 = b.2
    rw [hsize]
    refine List.forall_mem_cons.mpr ⟨?_, List.forall_mem_singleton.mpr (update_self ..)⟩
    rw [update_of_ne (by simp only; omega), update_self]
  · exact List.forall_mem_singleton.mpr fun _ => hn
  · rw [List.map_append]
    exact List.mem_append_left _ hx
  · simp only [cover_cons, cover_nil, cover_cut y n k]
    omega

theorem carve_spec (hg : Good h bs al) (hx : x ∈ bs.map Prod.fst)
    (hn : 0 < nunits) (hsize : nunits ≤ h.size (h.next x)) :
    ∃ mem' freep' a bs', h.carve x (h.next x) nunits =
        ({ h with mem := mem', freep := freep' }, plus a 1) ∧
      Good { h with mem := mem', freep := freep' } bs' ((a, nunits) :: al) := by
  obtain ⟨pre, ⟨x, m⟩, post, hsplit, rfl⟩ := hg.around hx hn hsize
  set y := h.next x
  unfold Heap.carve
  by_cases heq : h.size y = nunits
  · rw [if_pos heq]
    rw [heq] at hsplit
    exact ⟨_, _, y, _, rfl, hg.unlink hsplit hn⟩
  · obtain ⟨n, hsum⟩ : ∃ n, h.size y = n + nunits := ⟨h.size y - nunits, by omega⟩
    have hyb : (y, n + nunits) ∈ bs ++ al := by
      rw [hsplit, hsum]
      exact List.mem_append_left _ (List.mem_append_right _
        (List.mem_cons_of_mem _ List.mem_cons_self))
    have hend : y + HDR * (n + nunits) < 2 ^ 32 := hg.end_lt hyb
    have hplus : plus y n = y + HDR * n := plus_eq (by
      rw [Nat.mul_add] at hend
      omega)
    have hself : (h.setSize y n).size y = n := by rw [Heap.size_setSize, update_self]
    rw [if_neg heq]
    simp only [hsum, Nat.add_sub_cancel, hself, hplus]
    have hsplit' : bs = (pre ++ [(x, m)]) ++ (y, n + nunits) :: post := by
      rw [hsplit, hsum, List.append_assoc, List.singleton_append]
    refine ⟨_, _, y + HDR * n, _, rfl, hg.cut hsplit' (by omega) hn ?_⟩
    exact List.mem_map_of_mem (List.mem_append_right _ (List.mem_cons_self (a := (x, m))))

def Heap.retry (nunits fuel : ℕ) (gaps : List (Option ℕ)) (h : Heap) : Option (Heap × ℕ) :=
  (h.morecore fuel gaps.head?.join nunits).bind fun (h, p) =>
    if p = 0 then some (h, 0) else h.mallocLoop nunits fuel gaps.tail p (h.next p)

theorem scan (nunits : ℕ) (gaps : List (Option ℕ)) {l : List ℕ}
    (hpath : Ring.Path h.next x (x :: l) h.freep) (hnot : h.freep ∉ l) :
    (∃ y ∈ x :: l, nunits ≤ h.size (h.next y) ∧ ∀ fuel, l.length < fuel →
      Heap.mallocLoop nunits fuel gaps x (h.next x) h = some (h.carve y (h.next y) nunits)) ∨
    ((∀ y ∈ x :: l, h.size (h.next y) < nunits) ∧ ∀ fuel,
      Heap.mallocLoop nunits (fuel + l.length + 1) gaps x (h.next x) h =
        Heap.retry nunits fuel gaps h) := by
  induction l generalizing x with
  | nil =>
    have hlast : h.next x = h.freep := hpath.2
    by_cases hbig : nunits ≤ h.size (h.next x)
    · refine .inl ⟨x, List.mem_cons_self, hbig, fun fuel hfuel => ?_⟩
      obtain ⟨fuel, rfl⟩ := Nat.exists_eq_succ_of_ne_zero (Nat.ne_zero_of_lt hfuel)
      exact if_pos hbig
    · refine .inr ⟨fun y hy => ?_, fun fuel => (if_neg hbig).trans (if_pos hlast)⟩
      rw [List.mem_singleton.mp hy]
      exact not_le.mp hbig
  | cons a l ih =>
    have hnext : h.next x = a := hpath.2.1
    have hne : a ≠ h.freep := fun heq => hnot (heq ▸ List.mem_cons_self)
    rw [hnext]
    by_cases hbig : nunits ≤ h.size a
    · refine .inl ⟨x, List.mem_cons_self, hnext ▸ hbig, fun fuel hfuel => ?_⟩
      obtain ⟨fuel, rfl⟩ := Nat.exists_eq_succ_of_ne_zero (Nat.ne_zero_of_lt hfuel)
      rw [hnext]
      exact if_pos hbig
    · -- one iteration leads to the block behind
      have hgo : ∀ fuel, Heap.mallocLoop nunits (fuel + 1) gaps x a h =
          Heap.mallocLoop nunits fuel gaps a (h.next a) h := fun fuel =>
        (if_neg hbig).trans (if_neg hne)
      rcases ih ⟨rfl, hpath.2.2⟩ (fun hin => hnot (List.mem_cons_of_mem _ hin)) with
        ⟨y, hy, hysize, hrun⟩ | ⟨hsmall, hrun⟩
      · refine .inl ⟨y, List.mem_cons_of_mem _ hy, hysize, fun fuel hfuel => ?_⟩
        obtain ⟨fuel, rfl⟩ := Nat.exists_eq_succ_of_ne_zero (Nat.ne_zero_of_lt hfuel)
        rw [hgo]
        exact hrun fuel (Nat.lt_of_succ_lt_succ hfuel)
      · refine .inr ⟨fun y hy => ?_, fun fuel => ?_⟩
        · rcases List.mem_cons.mp hy with rfl | hy
          · rw [hnext]
            exact not_le.mp hbig
          · exact hsmall y hy
        · rw [List.length_cons, hgo, ← Nat.add_assoc]
          exact hrun fuel

theorem Good.ring_from (hg : Good h bs al) :
    ∃ l, Ring.Path h.next h.freep (h.freep :: l) h.freep ∧ h.freep ∉ l ∧
      (h.freep :: l).Perm (bs.map Prod.fst) ∧ l.length + 1 = bs.length := by
  obtain ⟨l, hpath, hperm⟩ := hg.ring.rotate hg.freep
  have hlen := hperm.length_eq
  rw [List.length_map] at hlen
  exact ⟨l, hpath, (List.nodup_cons.mp (hperm.nodup_iff.mpr hg.nodup)).1, hperm, hlen⟩

theorem Good.extend (hg : Good h bs al) {gap nu : ℕ} (hnu : 0 < nu)
    (hlt : h.brk + gap + HDR * nu < 2 ^ 32) :
    Good (Heap.setSize { h with
        brk := h.brk + gap + HDR * nu, regions := (h.brk + gap, nu) :: h.regions } (h.brk + gap) nu)
      bs ((h.brk + gap, nu) :: al) := by
  have hne : ∀ c ∈ bs ++ al, c.1 ≠ h.brk + gap := by
    intro c hc
    by_cases hpos : 0 < c.2
    · have hend := (hg.bounds hc hpos).2
      have hmul : 0 < HDR * c.2 := Nat.mul_pos (by decide) hpos
      omega
    · have h1 := hg.eq_base hc hpos
      have h2 := hg.regions.base_le
      simp only [HDR] at h2
      omega
  have hmul : 0 < HDR * nu := Nat.mul_pos (by decide) hnu
  refine ⟨?_, hg.base, hg.sorted, ?_, hg.pos, ?_, hg.freep, fun z => ?_, ?_, ?_, ?_,
    hg.regions.base_pos, ?_, hlt⟩
  · rw [Heap.next_setSize]
    exact hg.ring
  · intro c hc
    rw [Heap.size_setSize]
    rcases List.mem_append.mp hc with hc | hc
    · rw [update_of_ne (hne c (List.mem_append_left _ hc))]
      exact hg.size c (List.mem_append_left _ hc)
    · rcases List.mem_cons.mp hc with rfl | hc
      · rw [update_self]
      · rw [update_of_ne (hne c (List.mem_append_right _ hc))]
        exact hg.size c (List.mem_append_right _ hc)
  · intro c hc
    rcases List.mem_cons.mp hc with rfl | hc
    · exact hnu
    · exact hg.al_pos c hc
  · show _ = Segments.cover HDR ((h.brk + gap, nu) :: h.regions) z
    rw [cover_cons, cover_cons, ← hg.cover, Nat.add_assoc]
  · intro r hr
    rcases List.mem_cons.mp hr with rfl | hr
    · exact hg.regions.base_le.trans (Nat.le_add_right _ _)
    · exact hg.regions.above r hr
  · intro r hr
    rcases List.mem_cons.mp hr with rfl | hr
    · exact le_rfl
    · have := hg.regions.below r hr
      show r.1 + HDR * r.2 ≤ h.brk + gap + HDR * nu
      omega
  · refine List.pairwise_cons.mpr ⟨fun r hr => ?_, hg.regions.apart⟩
    exact (hg.regions.below r hr).trans (Nat.le_add_right _ _)
  · have := hg.regions.base_le
    show h.base + HDR ≤ h.brk + gap + HDR * nu
    omega

theorem Good.freep_ne_zero (hg : Good h bs al) : h.freep ≠ 0 := by
  obtain ⟨b, hb, hfreep⟩ := List.mem_map.mp hg.freep
  rw [← hfreep]
  exact (hg.regions.base_pos.trans_le (hg.base_le hb)).ne'

theorem pred_plus_one {p : ℕ} (hp : p + HDR < 2 ^ 32) : pred (plus p 1) = p := by
  simp only [pred, plus, HDR] at hp ⊢
  omega

structure Keeps (h h' : Heap) : Prop where
  live : h'.live = h.live
  base : h'.base = h.base

variable {fuel : ℕ}

theorem morecore_spec (hg : Good h bs al) (hn : 0 < nunits)
    (hfuel : bs.length ≤ fuel) (gap : Option ℕ) :
    h.morecore fuel gap nunits = some (h, 0) ∨
      ∃ h' bs', h.morecore fuel gap nunits = some (h', h'.freep) ∧ Good h' bs' al ∧ Keeps h h' ∧
        bs'.length ≤ bs.length + 1 ∧ ∃ b ∈ bs', nunits ≤ b.2 := by
  unfold Heap.morecore
  simp only
  generalize hnu : (if nunits < 4096 then 4096 else nunits) = nu
  have hle : nunits ≤ nu := by
    split at hnu <;> omega
  cases gap with
  | none => exact .inl rfl
  | some gap =>
    by_cases hlt : h.brk + gap + HDR * nu < 2 ^ 32
    · right
      rw [Heap.sbrk, if_pos hlt]
      have hext := hg.extend (hn.trans_le hle) hlt
      have hpred : pred (plus (h.brk + gap) 1) = h.brk + gap := by
        refine pred_plus_one (lt_of_le_of_lt (Nat.add_le_add_left ?_ _) hlt)
        exact Nat.le_mul_of_pos_right _ (hn.trans_le hle)
      obtain ⟨mem', freep', bs', hfree, hg', hlen, b, hb, hbig⟩ := free_spec hext hpred hfuel
      refine ⟨_, bs', ?_, hg', ⟨rfl, rfl⟩, hlen, b, hb, hle.trans hbig⟩
      simp only [hfree, Option.map_some]
    · left
      rw [Heap.sbrk, if_neg hlt]

def Allocates (h : Heap) (al : List (ℕ × ℕ)) (nunits : ℕ) (h' : Heap) (p : ℕ) : Prop :=
  Keeps h h' ∧ ((p = 0 ∧ ∃ bs', Good h' bs' al) ∨
    ∃ a bs', p = a + HDR ∧ Good h' bs' ((a, nunits) :: al))

theorem Allocates.of_carve (hg : Good h bs al) (hx : x ∈ bs.map Prod.fst)
    (hn : 0 < nunits) (hsize : nunits ≤ h.size (h.next x)) :
    ∃ h' p, h.carve x (h.next x) nunits = (h', p) ∧ Allocates h al nunits h' p := by
  obtain ⟨mem', freep', a, bs', hcarve, hg'⟩ := carve_spec hg hx hn hsize
  refine ⟨_, _, hcarve, ⟨rfl, rfl⟩, .inr ⟨a, bs', ?_, hg'⟩⟩
  have hend : a + HDR * nunits < 2 ^ 32 :=
    hg'.end_lt (b := (a, nunits)) (List.mem_append_right _ List.mem_cons_self)
  have hle : HDR * 1 ≤ HDR * nunits := Nat.mul_le_mul_left _ hn
  exact plus_eq (lt_of_le_of_lt (Nat.add_le_add_left hle a) hend)

theorem mallocLoop_found (hg : Good h bs al) (hn : 0 < nunits)
    (hfuel : bs.length ≤ fuel) (gaps : List (Option ℕ)) (hbig : ∃ b ∈ bs, nunits ≤ b.2) :
    ∃ h' p, Heap.mallocLoop nunits fuel gaps h.freep (h.next h.freep) h = some (h', p) ∧
      Allocates h al nunits h' p := by
  obtain ⟨l, hpath, hnot, hperm, hlen⟩ := hg.ring_from
  rcases scan nunits gaps hpath hnot with ⟨y, hy, hysize, hrun⟩ | ⟨hsmall, -⟩
  · obtain ⟨h', p, hcarve, hret⟩ := Allocates.of_carve hg (hperm.mem_iff.mp hy) hn hysize
    exact ⟨h', p, by rw [hrun fuel (by omega), hcarve], hret⟩
  · obtain ⟨b, hb, hle⟩ := hbig
    obtain ⟨x, hx, hnext⟩ := hg.ring.exists_pred (List.mem_map_of_mem hb)
    have hlt := hsmall x (hperm.mem_iff.mpr hx)
    rw [hnext, hg.size b (List.mem_append_left _ hb)] at hlt
    exact absurd hle hlt.not_ge

theorem mallocLoop_spec (hg : Good h bs al) (hn : 0 < nunits)
    (hfuel : 2 * bs.length + 1 ≤ fuel) (gaps : List (Option ℕ)) :
    ∃ h' p, Heap.mallocLoop nunits fuel gaps h.freep (h.next h.freep) h = some (h', p) ∧
      Allocates h al nunits h' p := by
  obtain ⟨l, hpath, hnot, hperm, hlen⟩ := hg.ring_from
  rcases scan nunits gaps hpath hnot with ⟨y, hy, hysize, hrun⟩ | ⟨-, hrun⟩
  · obtain ⟨h', p, hcarve, hret⟩ := Allocates.of_carve hg (hperm.mem_iff.mp hy) hn hysize
    exact ⟨h', p, by rw [hrun fuel (by omega), hcarve], hret⟩
  · obtain ⟨fuel, rfl⟩ : ∃ f, fuel = f + l.length + 1 := ⟨fuel - l.length - 1, by omega⟩
    rw [hrun fuel]
    unfold Heap.retry
    have hfuel' : bs.length + 1 ≤ fuel := by omega
    rcases morecore_spec hg hn (Nat.le_of_succ_le hfuel') gaps.head?.join with
      hmore | ⟨h1, bs1, hmore, hg1, hk, hlen1, hbig⟩
    · refine ⟨h, 0, ?_, ⟨rfl, rfl⟩, .inl ⟨rfl, bs, hg⟩⟩
      rw [hmore]
      rfl
    · obtain ⟨h', p, hrun', hk', hret⟩ :=
        mallocLoop_found hg1 hn (hlen1.trans hfuel') gaps.tail hbig
      refine ⟨h', p, ?_, ⟨hk'.live.trans hk.live, hk'.base.trans hk.base⟩, hret⟩
      rw [hmore, Option.bind_some]
      exact (if_neg hg1.freep_ne_zero).trans hrun'

end Malloc

/-! ## Runs -/

def Heap.blocks (h : Heap) : List (ℕ × ℕ) := h.live.map fun a => (a, h.size a)

structure Unused (h : Heap) : Prop where
  freep : h.freep = 0
  none : h.regions = []
  live : h.live = []
  base_pos : 0 < h.base
  base_le : h.base + HDR ≤ h.brk
  brk_lt : h.brk < 2 ^ 32

def Inv (h : Heap) : Prop := Unused h ∨ ∃ bs, Good h bs h.blocks

section Runs

variable {h h' : Heap} {bs al al' : List (ℕ × ℕ)}

theorem Good.perm (hg : Good h bs al) (hp : al.Perm al') : Good h bs al' :=
  ⟨hg.ring, hg.base, hg.sorted, fun b hb => hg.size b ((hp.append_left bs).mem_iff.mpr hb),
    hg.pos, fun b hb => hg.al_pos b (hp.mem_iff.mpr hb), hg.freep,
    fun x => by rw [← cover_perm hp]; exact hg.cover x, hg.regions⟩

theorem Good.blocks_eq (hg : Good h bs al) (hlive : h.live = al.map Prod.fst) : h.blocks = al := by
  unfold Heap.blocks
  rw [hlive, List.map_map]
  calc al.map ((fun a => (a, h.size a)) ∘ Prod.fst) = al.map id :=
        List.map_congr_left fun b hb => Prod.ext rfl (hg.size b (List.mem_append_right _ hb))
    _ = al := List.map_id al

theorem Heap.map_fst_blocks (h : Heap) : h.blocks.map Prod.fst = h.live := by
  unfold Heap.blocks
  rw [List.map_map]
  exact List.map_id h.live

theorem Good.congr (hg : Good h bs al) {mem' : ℕ → Header} {live' : List ℕ}
    (hmem : ∀ b ∈ bs ++ al, mem' b.1 = h.mem b.1) :
    Good { h with mem := mem', live := live' } bs al := by
  refine ⟨hg.ring.congr fun a ha => ?_, hg.base, hg.sorted, fun b hb => ?_, hg.pos, hg.al_pos,
    hg.freep, hg.cover, regions_congr hg.regions⟩
  · obtain ⟨b, hb, rfl⟩ := List.mem_map.mp ha
    exact congrArg Header.ptr (hmem b (List.mem_append_left _ hb))
  · exact (congrArg Header.size (hmem b hb)).trans (hg.size b hb)

theorem Good.not_inside (hg : Good h bs h.blocks) {b : ℕ × ℕ} (hb : b ∈ bs ++ h.blocks) :
    ¬ Inside h b.1 := by
  rintro ⟨a, ha, hlt, hend⟩
  have hab : (a, h.size a) ∈ h.blocks := List.mem_map_of_mem ha
  rcases List.mem_append.mp hb with hb | hb
  · exact absurd (hg.le_of_lt hb hab hlt) (Nat.not_le.mpr hend)
  · have hne : b ≠ (a, h.size a) := fun heq => hlt.ne' (congrArg Prod.fst heq)
    have h1 := two_le_cover hab hb hne ⟨hlt.le, hend⟩ (mem_first (hg.al_pos b hb))
    have h2 := hg.cover b.1
    have h3 := hg.regions.cover_le b.1
    omega

theorem init_good (hu : Unused h) : Good h.init [(h.base, 0)] [] ∧ Keeps h h.init := by
  have hinit : h.init = { (h.setPtr h.base h.base).setSize h.base 0 with freep := h.base } :=
    if_pos hu.freep
  have hnext : ((h.setPtr h.base h.base).setSize h.base 0).next h.base = h.base := by
    rw [Heap.next_setSize]
    exact h.next_setHeader_self _ _
  have hsize : ((h.setPtr h.base h.base).setSize h.base 0).size h.base = 0 := by
    rw [Heap.size_setSize, update_self]
  have hnil : h.regions.Pairwise fun r r' => r'.1 + HDR * r'.2 ≤ r.1 := by
    rw [hu.none]
    exact List.Pairwise.nil
  rw [hinit]
  refine ⟨⟨⟨rfl, hnext⟩, List.mem_cons_self, List.pairwise_singleton .., fun b hb => ?_,
    fun b hb hne => ?_, fun b hb => absurd hb List.not_mem_nil, List.mem_cons_self, fun x => ?_,
    ?_⟩, rfl, rfl⟩
  · obtain rfl := List.mem_singleton.mp hb
    exact hsize
  · obtain rfl := List.mem_singleton.mp hb
    exact absurd rfl hne
  · show _ = Segments.cover HDR h.regions x
    rw [hu.none, cover_cons, cover_nil, if_neg fun hx : Mem HDR (h.base, 0) x => ?_]
    have := hx.1.trans_lt hx.2
    simp at this
  · exact ⟨fun r hr => absurd (hu.none ▸ hr) List.not_mem_nil,
      fun r hr => absurd (hu.none ▸ hr) List.not_mem_nil,
      hnil, hu.base_pos, hu.base_le, hu.brk_lt⟩

theorem Inv.init (hi : Inv h) : ∃ bs, Good h.init bs h.blocks ∧ Keeps h h.init := by
  rcases hi with hu | ⟨bs, hg⟩
  · obtain ⟨hg, hk⟩ := init_good hu
    refine ⟨[(h.base, 0)], ?_, hk⟩
    rw [Heap.blocks, hu.live]
    exact hg
  · have hinit : h.init = h := if_neg hg.freep_ne_zero
    rw [hinit]
    exact ⟨bs, hg, rfl, rfl⟩

variable {nbytes : ℕ}

theorem le_nunits (hn : nbytes + HDR ≤ 2 ^ 32) :
    0 < nunits nbytes ∧ nbytes ≤ HDR * (nunits nbytes - 1) := by
  simp only [nunits, HDR] at hn ⊢
  omega

theorem malloc_spec (hi : Inv h) (hn : nbytes + HDR ≤ 2 ^ 32) :
    ∃ fuel0, ∀ gaps, ∀ fuel ≥ fuel0, ∃ h' p, h.malloc fuel gaps nbytes = some (h', p) ∧
      Allocates h h.blocks (nunits nbytes) h' p := by
  obtain ⟨bs, hg, hk⟩ := hi.init
  refine ⟨2 * bs.length + 1, fun gaps fuel hfuel => ?_⟩
  obtain ⟨h', p, hrun, hk', hret⟩ := mallocLoop_spec hg (le_nunits hn).1 hfuel gaps
  exact ⟨h', p, hrun, ⟨hk'.live.trans hk.live, hk'.base.trans hk.base⟩, hret⟩

theorem Inv.free (hi : Inv h) {ap : ℕ} (hap : pred ap ∈ h.live) :
    ∃ fuel0, ∀ fuel ≥ fuel0, ∃ h' bs', h.free fuel ap = some h' ∧ Keeps h h' ∧
      Good h' bs' ((h.live.erase (pred ap)).map fun a => (a, h.size a)) := by
  rcases hi with hu | ⟨bs, hg⟩
  · rw [hu.live] at hap
    exact absurd hap List.not_mem_nil
  · have hperm : h.blocks.Perm ((pred ap, h.size (pred ap)) ::
        (h.live.erase (pred ap)).map fun a => (a, h.size a)) :=
      (List.perm_cons_erase hap).map _
    refine ⟨bs.length, fun fuel hfuel => ?_⟩
    obtain ⟨mem', freep', bs', hfree, hg', -, -⟩ := free_spec (hg.perm hperm) rfl hfuel
    exact ⟨_, bs', hfree, ⟨rfl, rfl⟩, hg'⟩

/-! ### More iterations do not change a result -/

variable {fuel fuel' : ℕ}

theorem free_mono {ap : ℕ} (hle : fuel ≤ fuel') (hf : h.free fuel ap = some h') :
    h.free fuel' ap = some h' := by
  obtain ⟨p, hp, rfl⟩ := Option.map_eq_some_iff.mp hf
  exact Option.map_eq_some_iff.mpr ⟨p, Ring.walk_mono hle hp, rfl⟩

theorem morecore_mono {nu : ℕ} {gap : Option ℕ} {r : Heap × ℕ} (hle : fuel ≤ fuel')
    (hf : h.morecore fuel gap nu = some r) : h.morecore fuel' gap nu = some r := by
  unfold Heap.morecore at hf ⊢
  simp only at hf ⊢
  cases hs : h.sbrk gap (if nu < 4096 then 4096 else nu) with
  | none => rwa [hs] at hf
  | some q =>
    rw [hs] at hf
    obtain ⟨h1, h2, rfl⟩ := Option.map_eq_some_iff.mp hf
    exact Option.map_eq_some_iff.mpr ⟨h1, free_mono hle h2, rfl⟩

variable {n p : ℕ}

theorem mallocLoop_mono {x : ℕ} {gaps : List (Option ℕ)} {r : Heap × ℕ}
    (hle : fuel ≤ fuel') (hf : Heap.mallocLoop n fuel gaps x p h = some r) :
    Heap.mallocLoop n fuel' gaps x p h = some r := by
  induction fuel generalizing fuel' gaps x p h with
  | zero => cases hf
  | succ fuel ih =>
    obtain ⟨fuel', rfl⟩ := Nat.exists_eq_succ_of_ne_zero (Nat.ne_zero_of_lt hle)
    replace hle := Nat.le_of_succ_le_succ hle
    unfold Heap.mallocLoop at hf ⊢
    split at hf
    next hbig => rwa [if_pos hbig]
    next hsmall =>
      rw [if_neg hsmall]
      split at hf
      next hp =>
        rw [if_pos hp]
        obtain ⟨⟨h1, q⟩, hmore, hrest⟩ := Option.bind_eq_some_iff.mp hf
        refine Option.bind_eq_some_iff.mpr ⟨⟨h1, q⟩, morecore_mono hle hmore, ?_⟩
        simp only at hrest ⊢
        split at hrest
        next hq => rwa [if_pos hq]
        next hq =>
          rw [if_neg hq]
          exact ih hle hrest
      next hp =>
        rw [if_neg hp]
        exact ih hle hf

/-! ### Every call keeps the invariant -/

theorem Inv.malloc_of_some (hi : Inv h) {gaps : List (Option ℕ)}
    (hn : nbytes + HDR ≤ 2 ^ 32) (hf : h.malloc fuel gaps nbytes = some (h', p)) :
    Allocates h h.blocks (nunits nbytes) h' p := by
  obtain ⟨fuel0, hspec⟩ := malloc_spec hi hn
  obtain ⟨h1, p1, hrun, hret⟩ := hspec gaps (max fuel fuel0) (le_max_right _ _)
  have hsame : h.malloc (max fuel fuel0) gaps nbytes = some (h', p) :=
    mallocLoop_mono (le_max_left _ _) hf
  obtain ⟨rfl, rfl⟩ := Prod.mk.inj (Option.some.inj (hrun.symm.trans hsame))
  exact hret

def Heap.taken (h : Heap) (p : ℕ) : Heap := if p = 0 then h else { h with live := pred p :: h.live }

theorem Allocates.taken (hret : Allocates h h.blocks n h' p) :
    ∃ bs', Good (h'.taken p) bs' (h'.taken p).blocks ∧
      (p ≠ 0 → p = pred p + HDR ∧ (pred p, n) ∈ (h'.taken p).blocks) := by
  obtain ⟨hk, hret⟩ := hret
  have hlive : h'.live = h.blocks.map Prod.fst := hk.live.trans h.map_fst_blocks.symm
  unfold Heap.taken
  rcases hret with ⟨rfl, bs', hg⟩ | ⟨a, bs', rfl, hg⟩
  · rw [if_pos rfl, hg.blocks_eq hlive]
    exact ⟨bs', hg, fun hne => absurd rfl hne⟩
  · have hend : a + HDR * n < 2 ^ 32 :=
      hg.end_lt (b := (a, n)) (List.mem_append_right _ List.mem_cons_self)
    have hpos := hg.al_pos _ List.mem_cons_self
    have hpred : pred (a + HDR) = a := by
      simp only [pred, HDR] at hend hpos ⊢
      omega
    rw [if_neg (Nat.add_pos_right a (by decide)).ne', hpred]
    have hg' : Good { h' with live := a :: h'.live } bs' ((a, n) :: h.blocks) :=
      hg.congr fun _ _ => rfl
    rw [hg'.blocks_eq (congrArg (a :: ·) hlive)]
    exact ⟨bs', hg', fun _ => ⟨rfl, List.mem_cons_self⟩⟩

theorem Allocates.size_eq (hret : Allocates h h.blocks n h' p) (hp : p ≠ 0) :
    p = pred p + HDR ∧ h'.size (pred p) = n := by
  obtain ⟨bs', hg, hblock⟩ := hret.taken
  obtain ⟨hpred, hmem⟩ := hblock hp
  have hsize := hg.size _ (List.mem_append_right bs' hmem)
  rw [Heap.taken, if_neg hp] at hsize
  exact ⟨hpred, hsize⟩

theorem Inv.step {l : ℕ × HeapCall} (hi : Inv h) (hok : Allowed h l.2) (hs : h.step l = some h') :
    Inv h' := by
  obtain ⟨fuel, c⟩ := l
  cases c with
  | malloc gaps nbytes =>
    obtain ⟨⟨h1, p⟩, hf, rfl⟩ := Option.map_eq_some_iff.mp hs
    have hn : nbytes + HDR ≤ 2 ^ 32 := by
      have : nbytes < 2 ^ 30 := hok
      unfold HDR
      omega
    obtain ⟨bs', hg, -⟩ := (hi.malloc_of_some hn hf).taken
    exact .inr ⟨bs', hg⟩
  | free ap =>
    obtain ⟨h1, hf, heq⟩ := Option.map_eq_some_iff.mp hs
    obtain ⟨fuel0, hspec⟩ := hi.free hok
    obtain ⟨h2, bs', hrun, hk, hg⟩ := hspec (max fuel fuel0) (le_max_right _ _)
    obtain rfl := Option.some.inj (hrun.symm.trans (free_mono (le_max_left _ _) hf))
    have hg' : Good h' bs' ((h.live.erase (pred ap)).map fun a => (a, h.size a)) := by
      rw [← heq]
      exact hg.congr fun _ _ => rfl
    refine .inr ⟨bs', ?_⟩
    have hlive : h'.live =
        ((h.live.erase (pred ap)).map fun a => (a, h.size a)).map Prod.fst := by
      rw [← heq, List.map_map]
      show h2.live.erase (pred ap) = (h.live.erase (pred ap)).map id
      rw [List.map_id, hk.live]
    rw [hg'.blocks_eq hlive]
    exact hg'
  | store f =>
    cases hs
    rcases hi with hu | ⟨bs, hg⟩
    · exact .inl ⟨hu.freep, hu.none, hu.live, hu.base_pos, hu.base_le, hu.brk_lt⟩
    · have hmem : ∀ b ∈ bs ++ h.blocks,
          (if Inside h b.1 then f b.1 else h.mem b.1) = h.mem b.1 :=
        fun b hb => if_neg (hg.not_inside hb)
      have hg' : Good { h with mem := fun x => if Inside h x then f x else h.mem x, live := h.live }
          bs h.blocks := hg.congr hmem
      refine .inr ⟨bs, ?_⟩
      rw [hg'.blocks_eq h.map_fst_blocks.symm]
      exact hg'

def Heap.start (mem : ℕ → Header) (base brk : ℕ) : Heap := ⟨mem, base, 0, brk, [], []⟩

theorem Good.eq_cons (hg : Good h bs al) : ∃ fl, bs = (h.base, 0) :: fl := by
  cases bs with
  | nil => exact absurd hg.base List.not_mem_nil
  | cons b fl =>
    have hb : h.base = b.1 := hg.ring.1
    have hsize := hg.size b (List.mem_append_left _ List.mem_cons_self)
    rw [← hb, hg.size _ (List.mem_append_left _ hg.base)] at hsize
    exact ⟨fl, congrArg (· :: fl) (Prod.ext hb.symm hsize.symm)⟩

/-- **The user heap.** There is no list yet, or it is circular, goes from `base` up through the free
blocks, of which no two touch, and back; free and allocated blocks are disjoint and make up the
memory from `sbrk`. `malloc` and `free` return, and what `malloc` returns is large enough. -/
theorem heap_partition {mem : ℕ → Header} {base brk : ℕ} (hbase : 0 < base)
    (hle : base + HDR ≤ brk) (hlt : brk < 2 ^ 32) {h : Heap}
    (hr : Lts.Reach Heap.step (fun h l => Allowed h l.2) (Heap.start mem base brk) h) :
    (h.freep = 0 ∧ h.regions = [] ∧ h.live = [] ∨
      ∃ fl : List (ℕ × ℕ),
        Ring.Path h.next h.base (h.base :: fl.map Prod.fst) h.base ∧
        h.freep ∈ h.base :: fl.map Prod.fst ∧
        ((h.base, 0) :: fl).Pairwise (fun b c => b.1 + HDR * b.2 < c.1) ∧
        (∀ b ∈ (h.base, 0) :: fl, h.size b.1 = b.2) ∧ (∀ b ∈ fl, 0 < b.2) ∧
        (fl ++ h.blocks).Pairwise (fun b c => ∀ x, Mem HDR b x → ¬ Mem HDR c x) ∧
        ∀ x, (∃ b ∈ fl ++ h.blocks, Mem HDR b x) ↔ ∃ r ∈ h.regions, Mem HDR r x) ∧
    (∀ gaps nbytes, nbytes < 2 ^ 30 → ∃ fuel₀, ∀ fuel ≥ fuel₀, ∃ h' p,
      h.malloc fuel gaps nbytes = some (h', p) ∧
        (p ≠ 0 → p = pred p + HDR ∧ nbytes ≤ HDR * (h'.size (pred p) - 1))) ∧
    ∀ ap, pred ap ∈ h.live → ∃ fuel₀, ∀ fuel ≥ fuel₀, (h.free fuel ap).isSome = true := by
  have hi : Inv h := hr.invariant (I := Inv)
    (.inl ⟨rfl, rfl, rfl, hbase, hle, hlt⟩) fun _ _ _ hi hok hs => hi.step hok hs
  refine ⟨?_, fun gaps nbytes hn => ?_, fun ap hap => ?_⟩
  · rcases hi with hu | ⟨bs, hg⟩
    · exact .inl ⟨hu.freep, hu.none, hu.live⟩
    · obtain ⟨fl, rfl⟩ := hg.eq_cons
      have hcover : ∀ x, Segments.cover HDR (fl ++ h.blocks) x =
          Segments.cover HDR h.regions x := by
        intro x
        have hnot : ¬ Mem HDR (h.base, 0) x := fun hx => by
          have := hx.1.trans_lt hx.2
          simp at this
        rw [← hg.cover, cover_append, cover_cons, if_neg hnot, Nat.add_zero]
      refine .inr ⟨fl, hg.ring, hg.freep, hg.sorted, fun b hb => ?_, fun b hb => ?_, ?_,
        fun x => ⟨fun ⟨b, hb, hx⟩ => ?_, fun ⟨r, hr, hx⟩ => ?_⟩⟩
      · exact hg.size b (List.mem_append_left _ hb)
      · refine hg.pos b (List.mem_cons_of_mem _ hb) fun heq => ?_
        have := (List.pairwise_cons.mp hg.sorted).1 b hb
        unfold Before at this
        simp only at this
        omega
      · exact pairwise_disjoint fun x => (hcover x).trans_le (hg.regions.cover_le x)
      · exact exists_of_cover_pos (hcover x ▸ cover_pos hb hx)
      · exact exists_of_cover_pos ((hcover x).symm ▸ cover_pos hr hx)
  · have hn' : nbytes + HDR ≤ 2 ^ 32 := by
      unfold HDR
      omega
    obtain ⟨fuel₀, hspec⟩ := malloc_spec hi hn'
    refine ⟨fuel₀, fun fuel hfuel => ?_⟩
    obtain ⟨h', p, hrun, hret⟩ := hspec gaps fuel hfuel
    refine ⟨h', p, hrun, fun hp => ?_⟩
    obtain ⟨hpred, hsize⟩ := hret.size_eq hp
    rw [hsize]
    exact ⟨hpred, (le_nunits hn').2⟩
  · obtain ⟨fuel₀, hspec⟩ := hi.free hap
    refine ⟨fuel₀, fun fuel hfuel => ?_⟩
    obtain ⟨h', -, hrun, -⟩ := hspec fuel hfuel
    rw [hrun]
    rfl

/-- Two blocks are taken from the memory of one `sbrk`, and the first is given back: the list is
`base`, what is left of the memory, and the block. -/
theorem heap_partition_session :
    ∃ h, Lts.Reach Heap.step (fun h l => Allowed h l.2) (Heap.start (fun _ => ⟨0, 0⟩) 100 4096) h ∧
      h.live = [36728] ∧ h.freep = 4096 ∧
      (h.freep = 0 ∧ h.regions = [] ∧ h.live = [] ∨
        ∃ fl : List (ℕ × ℕ), Ring.Path h.next h.base (h.base :: fl.map Prod.fst) h.base) := by
  have hok : Lts.RunOk Heap.step (fun h l => Allowed h l.2)
      (Heap.start (fun _ => ⟨0, 0⟩) 100 4096)
      [(9, .malloc [some 0] 10), (9, .malloc [] 100), (9, .store fun _ => ⟨7, 7⟩),
        (9, .free 36848)] := by decide +kernel
  obtain ⟨h, -, hr, hq⟩ := Lts.exists_reach Heap.step _ _
    (fun h => decide (h.live = [36728] ∧ h.freep = 4096)) (by decide +kernel) hok
  obtain ⟨hlive, hfreep⟩ := of_decide_eq_true hq
  refine ⟨h, hr, hlive, hfreep, ?_⟩
  obtain ⟨hlist, -, -⟩ := heap_partition (by decide) (by decide) (by decide) hr
  exact hlist.imp_right fun ⟨fl, hpath, _⟩ => ⟨fl, hpath⟩

end Runs

end Xv6.Umalloc
