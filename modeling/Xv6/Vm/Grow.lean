import Xv6.Vm.Mapping
import Xv6.Vm.Proc

/-!
# Growing and shrinking a process

`growproc` changes the size of a process by `n` bytes, through 32-bit sums and through `allocuvm`
and `deallocuvm`, whose result 0 it takes for a failure.

1. `GrowsExactly`: the size and the user mappings change by exactly `n` bytes, or not at all.
2. The two directions: growth always does (`grow_exact`); a shrink does if a byte is left
   (`shrink_exact`).
3. `growproc_exact_iff`: and only then. A shrink to nothing frees all pages and fails; a shrink by
   more than the size does nothing and succeeds.
-/

namespace Xv6.Vm

open StateExcept Function

variable {img : KernelImage} {m m' : Mem} {L L' : List ℕ} {d p sz newsz : ℕ} {n : ℤ} {s : Kernel}

/-! ## What is expected -/

def mapping (m : Mem) (d k : ℕ) : Option ℕ :=
  if Present (pte m d k) then some (pte m d k) else none

/-- Page `k` is mapped as before, and has the contents that it had. -/
def Survives (m m' : Mem) (d k : ℕ) : Prop :=
  mapping m' d k = mapping m d k ∧
    (Present (pte m d k) → m'.page (pageOf (pte m d k)) = m.page (pageOf (pte m d k)))

/-- `growproc(n)` returns, and has changed the size by exactly `n` with the result 0, or nothing
with the result -1. -/
def GrowsExactly (img : KernelImage) (s : Kernel) (p : ℕ) (n : ℤ) : Prop :=
  Returns (growproc img p n) s fun r s' =>
    (s'.proc p).pgdir = (s.proc p).pgdir ∧
    if r then
      ((s'.proc p).sz : ℤ) = (s.proc p).sz + n ∧
      Exact s'.mem (s.proc p).pgdir (s'.proc p).sz ∧
      ∀ k < UPAGES, k * PGSIZE < (s'.proc p).sz → k * PGSIZE < (s.proc p).sz →
        Survives s.mem s'.mem (s.proc p).pgdir k
    else
      (s'.proc p).sz = (s.proc p).sz ∧
      ∀ k < UPAGES, Survives s.mem s'.mem (s.proc p).pgdir k

/-! ## The code -/

def resized (s : Kernel) (p r : ℕ) (m : Mem) : Bool × Kernel :=
  if r = 0 then (false, { s with mem := m })
  else (true, { s with mem := m }.setProc p { s.proc p with sz := r })

theorem growproc_grow {r : ℕ} (hn : 0 < n) (hmod : (((s.proc p).sz + n) % 2 ^ 32).toNat = newsz)
    (h : allocuvm img (s.proc p).pgdir (s.proc p).sz newsz s.mem = .ok (r, m')) :
    growproc img p n s = .ok (resized s p r m') := by
  have hmem : onMem (allocuvm img (s.proc p).pgdir (s.proc p).sz newsz) s =
      .ok (r, { s with mem := m' }) := by
    unfold onMem
    rw [h]
  unfold growproc resized
  rw [get_bind]
  dsimp only
  rw [if_pos hn, hmod, bind_eq hmem]
  split <;> rfl

theorem growproc_shrink {r : ℕ} (hn : n < 0) (hmod : (((s.proc p).sz + n) % 2 ^ 32).toNat = newsz)
    (h : deallocuvm img (s.proc p).pgdir (s.proc p).sz newsz s.mem = .ok (r, m')) :
    growproc img p n s = .ok (resized s p r m') := by
  have hmem : onMem (deallocuvm img (s.proc p).pgdir (s.proc p).sz newsz) s =
      .ok (r, { s with mem := m' }) := by
    unfold onMem
    rw [h]
  unfold growproc resized
  rw [get_bind]
  dsimp only
  rw [if_neg (by omega), if_pos hn, hmod, bind_eq hmem]
  split <;> rfl

theorem resized_zero : resized s p 0 m' = (false, { s with mem := m' }) := if_pos rfl

theorem resized_pos {r : ℕ} (h : 0 < r) :
    resized s p r m' = (true, { s with mem := m' }.setProc p { s.proc p with sz := r }) :=
  if_neg (by omega)

theorem setProc_self (s : Kernel) (p : ℕ) (pr : Proc) : (s.setProc p pr).proc p = pr :=
  update_self ..

theorem growsExactly_of_pos {r : ℕ} (hrun : growproc img p n s = .ok (resized s p r m'))
    (hpos : 0 < r) (hr : (s.proc p).sz + n = r) (hx : Exact m' (s.proc p).pgdir r)
    (hs : ∀ k < UPAGES, k * PGSIZE < r → k * PGSIZE < (s.proc p).sz →
      Survives s.mem m' (s.proc p).pgdir k) : GrowsExactly img s p n := by
  refine ⟨true, _, hrun.trans (congrArg _ (resized_pos hpos)), ?_⟩
  dsimp only
  rw [setProc_self, if_pos rfl]
  exact ⟨rfl, hr.symm, hx, hs⟩

theorem growsExactly_of_zero (hrun : growproc img p n s = .ok (resized s p 0 m'))
    (hs : ∀ k < UPAGES, Survives s.mem m' (s.proc p).pgdir k) : GrowsExactly img s p n := by
  refine ⟨false, _, hrun.trans (congrArg _ resized_zero), rfl, ?_⟩
  rw [if_neg Bool.false_ne_true]
  exact ⟨rfl, hs⟩

/-! ## Both directions -/

theorem Survives.refl (m : Mem) (d k : ℕ) : Survives m m d k := ⟨rfl, fun _ => rfl⟩

theorem Survives.of_eq {k : ℕ} (hpte : pte m' d k = pte m d k)
    (hpage : Present (pte m d k) → m'.page (pageOf (pte m d k)) = m.page (pageOf (pte m d k))) :
    Survives m m' d k := by
  refine ⟨?_, hpage⟩
  unfold mapping
  rw [hpte]

theorem Exact.of_survives (hx : Exact m d sz) (hs : ∀ k < UPAGES, Survives m m' d k) :
    Exact m' d sz := by
  intro k hk
  rw [← hx k hk]
  have hsame := (hs k hk).1
  unfold mapping at hsame
  by_cases h : Present (pte m d k)
  · rw [if_pos h] at hsame
    by_cases h' : Present (pte m' d k)
    · exact iff_of_true h' h
    · rw [if_neg h'] at hsame
      cases hsame
  · rw [if_neg h] at hsame
    by_cases h' : Present (pte m' d k)
    · rw [if_pos h'] at hsame
      cases hsame
    · exact iff_of_false h' h

theorem Grown.survives (hp : Pool img m L (space m d))
    (hg : Grown img m L m' L' d (npages sz) (npages newsz)) {k : ℕ} (hk : k < UPAGES)
    (hlt : k * PGSIZE < sz) : Survives m m' d k := by
  refine .of_eq (hg.rest k (.inl (lt_npages.mpr hlt))) fun hpr => ?_
  rw [Vm.space_eq] at hp
  exact hp.frame hg.moved (mem_between (Nat.zero_le k) hk hpr)

theorem Undone.survives (hp : Pool img m L (space m d)) (hx : Exact m d sz)
    (hu : Undone m L m' L' d (npages sz) (npages sz) (npages newsz)) {k : ℕ} (hk : k < UPAGES) :
    Survives m m' d k := by
  have hmv := hu.moved
  rw [between_self, add_zero] at hmv
  rw [Vm.space_eq] at hp
  have hpage : Present (pte m d k) →
      m'.page (pageOf (pte m d k)) = m.page (pageOf (pte m d k)) :=
    fun hpr => hp.frame hmv (mem_between (Nat.zero_le k) hk hpr)
  by_cases h1 : npages sz ≤ k ∧ k < npages newsz
  · have hbefore : ¬ Present (pte m d k) := by
      rw [hx k hk, ← lt_npages]
      omega
    refine ⟨?_, hpage⟩
    unfold mapping
    rw [if_neg (hu.gone k h1.1 h1.2), if_neg hbefore]
  · exact .of_eq (hu.rest k (by omega)) hpage

theorem Cleared.survives (hp : Pool img m L (space m d)) (hx : Exact m d sz) (hsz : sz < KERNBASE)
    (hle : newsz ≤ sz) (hc : Cleared m L m' L' d (npages newsz) (npages sz)) {k : ℕ}
    (hlt : k * PGSIZE < newsz) : Survives m m' d k := by
  have hkn := lt_npages.mpr hlt
  refine .of_eq ?_ fun hpr => ?_
  · rw [hc.pte, if_neg (by omega)]
  · rw [hx.space_eq hsz, between_add (Nat.zero_le _) (npages_mono hle),
      add_comm (between 0 (npages newsz) _), ← add_assoc] at hp
    exact hp.frame hc.moved (mem_between (Nat.zero_le k) hkn hpr)

/-! ## `growproc` -/

section Growproc

variable (hp : Pool img s.mem L (space s.mem (s.proc p).pgdir))
  (hx : Exact s.mem (s.proc p).pgdir (s.proc p).sz) (hsz : (s.proc p).sz < KERNBASE)

include hp hx hsz

omit hp hx in
theorem newsz_of_pos (hpos : 0 < (s.proc p).sz + n) (hn : n < 2 ^ 31) :
    ∃ newsz : ℕ, (s.proc p).sz + n = newsz ∧ (((s.proc p).sz + n) % 2 ^ 32).toNat = newsz := by
  unfold KERNBASE at hsz
  exact ⟨((s.proc p).sz + n).toNat, by omega, by omega⟩

omit hsz in
theorem grow_mapped (hle : (s.proc p).sz ≤ newsz) (hlt : newsz < KERNBASE) :
    ∃ (r : Bool) (m' : Mem) (L' : List ℕ),
      allocuvm img (s.proc p).pgdir (s.proc p).sz newsz s.mem = .ok (if r then newsz else 0, m') ∧
      if r then Grown img s.mem L m' L' (s.proc p).pgdir (npages (s.proc p).sz) (npages newsz)
      else Undone s.mem L m' L' (s.proc p).pgdir (npages (s.proc p).sz) (npages (s.proc p).sz)
        (npages newsz) := by
  have habs : ∀ j, npages (s.proc p).sz ≤ j → j < npages newsz →
      ¬ Present (pte s.mem (s.proc p).pgdir j) := by
    intro j h1 h2 hpr
    have hU := npages_le_UPAGES hlt.le
    exact absurd (lt_npages.mpr ((hx j (by omega)).mp hpr)) (by omega)
  have hpd := hp
  rw [Vm.space_eq] at hpd
  obtain ⟨r, m', L', h, hres⟩ := allocuvm_spec hle hlt hpd.left habs
  refine ⟨r, m', L', h, ?_⟩
  cases r with
  | true => exact hres
  | false => exact hres.1

theorem grow_exact (hn : 0 < n) (hn' : n < 2 ^ 31) : GrowsExactly img s p n := by
  obtain ⟨newsz, hnew, hmod⟩ := newsz_of_pos hsz (n := n) (by omega) hn'
  by_cases hbig : KERNBASE ≤ newsz
  · have h : allocuvm img (s.proc p).pgdir (s.proc p).sz newsz s.mem = .ok (0, s.mem) := by
      unfold allocuvm
      rw [if_pos hbig]
      rfl
    exact growsExactly_of_zero (growproc_grow hn hmod h) fun k _ => .refl ..
  obtain ⟨r, m', L', h, hres⟩ := grow_mapped hp hx (show (s.proc p).sz ≤ newsz by omega) (by omega)
  have hrun := growproc_grow hn hmod h
  cases r with
  | true =>
    rw [if_pos rfl] at hrun hres
    exact growsExactly_of_pos hrun (by omega) hnew (hres.exact hx (by omega))
      fun k hk _ hlt => hres.survives hp hk hlt
  | false =>
    rw [if_neg Bool.false_ne_true] at hrun hres
    exact growsExactly_of_zero hrun fun k hk => hres.survives hp hx hk

theorem shrink_cleared (hle : newsz ≤ (s.proc p).sz) :
    ∃ m' L', deallocuvm img (s.proc p).pgdir (s.proc p).sz newsz s.mem = .ok (newsz, m') ∧
      Cleared s.mem L m' L' (s.proc p).pgdir (npages newsz) (npages (s.proc p).sz) := by
  have hpd := hp
  rw [hx.space_eq hsz, between_add (Nat.zero_le _) (npages_mono hle),
    add_comm (between 0 (npages newsz) _), ← add_assoc] at hpd
  obtain ⟨m', L', h, hc⟩ := deallocuvm_spec _ hsz.le hpd.left
  rw [min_eq_right hle] at h
  exact ⟨m', L', h, hc⟩

theorem shrink_exact (hn : n < 0) (hpos : 0 < (s.proc p).sz + n) : GrowsExactly img s p n := by
  obtain ⟨newsz, hnew, hmod⟩ := newsz_of_pos hsz hpos (by omega)
  obtain ⟨m', L', h, hc⟩ := shrink_cleared hp hx hsz (show newsz ≤ (s.proc p).sz by omega)
  exact growsExactly_of_pos (growproc_shrink hn hmod h) (by omega) hnew
    (hc.exact hx (by omega)) fun k _ hlt _ => hc.survives hp hx hsz (by omega) hlt

theorem shrink_all (hpos : 0 < (s.proc p).sz) (hn : (s.proc p).sz + n = 0) :
    ¬ GrowsExactly img s p n := by
  obtain ⟨m', L', h, hc⟩ := shrink_cleared hp hx hsz (Nat.zero_le _)
  have hmod : (((s.proc p).sz + n) % 2 ^ 32).toNat = 0 := by
    rw [hn]
    rfl
  have hrun := growproc_shrink (by omega) hmod h
  rw [resized_zero] at hrun
  intro hg
  obtain ⟨-, hg⟩ := hg.of_ok hrun
  rw [if_neg Bool.false_ne_true] at hg
  have hfirst : Present (pte s.mem (s.proc p).pgdir 0) :=
    (hx 0 (by decide)).mpr (by rw [Nat.zero_mul]; exact hpos)
  have hgone : pte m' (s.proc p).pgdir 0 = 0 := by
    rw [hc.pte]
    exact if_pos ⟨by decide, lt_npages.mpr (by rw [Nat.zero_mul]; exact hpos), hfirst⟩
  have hsame := (hg.2 0 (by decide)).1
  unfold mapping at hsame
  rw [hgone, if_neg not_present_zero, if_pos hfirst] at hsame
  cases hsame

omit hp hx in
theorem shrink_more (hpos : 0 < (s.proc p).sz) (hn : (s.proc p).sz + n < 0) (hn' : -2 ^ 31 ≤ n) :
    ¬ GrowsExactly img s p n := by
  have hle : (s.proc p).sz ≤ (((s.proc p).sz + n) % 2 ^ 32).toNat := by
    unfold KERNBASE at hsz
    omega
  have h : deallocuvm img (s.proc p).pgdir (s.proc p).sz (((s.proc p).sz + n) % 2 ^ 32).toNat
      s.mem = .ok ((s.proc p).sz, s.mem) := by
    unfold deallocuvm
    rw [if_pos hle]
    rfl
  have hrun := growproc_shrink (by omega) rfl h
  rw [resized_pos hpos] at hrun
  intro hg
  obtain ⟨-, hg⟩ := hg.of_ok hrun
  rw [if_pos rfl, setProc_self] at hg
  have := hg.1
  dsimp only at this
  omega

/-- **`growproc` is exact or does nothing.** It does so exactly if the process keeps a byte. -/
theorem growproc_exact_iff (hpos : 0 < (s.proc p).sz) (hn : -2 ^ 31 ≤ n) (hn' : n < 2 ^ 31) :
    GrowsExactly img s p n ↔ 0 < (s.proc p).sz + n := by
  constructor
  · intro hg
    by_contra hle
    rcases lt_or_eq_of_le (not_lt.mp hle) with hlt | heq
    · exact shrink_more hsz hpos hlt hn hg
    · exact shrink_all hp hx hsz hpos heq hg
  · intro hkeep
    rcases lt_trichotomy n 0 with hneg | rfl | hgrow
    · exact shrink_exact hp hx hsz hneg hkeep
    · refine ⟨true, s, rfl, rfl, ?_⟩
      rw [if_pos rfl]
      exact ⟨(add_zero _).symm, hx, fun k _ _ _ => .refl ..⟩
    · exact grow_exact hp hx hsz hgrow hn'

end Growproc

/-! ## A process of one page -/

def blankMem : Mem := ⟨fun _ => Block.zero, 0, by norm_num⟩

def mapFirst (m : Mem) (d t v : ℕ) : Mem :=
  let m₁ := (m.write t Block.zero).write d ((m.page d).setWord 0 (V2P t ||| 7))
  m₁.write t ((m₁.page t).setWord 0 (mapEntry (V2P v) (PTE_W ||| PTE_U)))

def onePage : Mem := mapFirst blankMem 0x80200000 0x80201000 0x80202000

def sparePage : Mem :=
  mapFirst { blankMem with freelist := 0x80203000, freelist_lt := by decide }
    0x80200000 0x80201000 0x80202000

def oneProc : Kernel where
  mem := onePage
  kpgdir := 0
  cpuStacks := []
  proc _ := ⟨.alive, 0, 0x80200000, PGSIZE, none, fun _ => none, 0, 0, 0, []⟩
  ftable _ := ⟨.none, 0, false, false, 0⟩
  initproc := 0
  fs := []

def spareProc : Kernel := { oneProc with mem := sparePage }

theorem mapFirst_spec {t v : ℕ} (hp : Pool img m L ({d} + {t} + {v})) (hz : m.page d = Block.zero) :
    Pool img (mapFirst m d t v) L (space (mapFirst m d t v) d) ∧
      Exact (mapFirst m d t v) d PGSIZE := by
  obtain ⟨m1, hm1⟩ : ∃ m1, m1 = (m.write t Block.zero).write d
    ((m.page d).setWord 0 (V2P t ||| 7)) := ⟨_, rfl⟩
  obtain ⟨m2, hm2⟩ : ∃ m2, m2 = m1.write t
    ((m1.page t).setWord 0 (mapEntry (V2P v) (PTE_W ||| PTE_U))) := ⟨_, rfl⟩
  rw [show mapFirst m d t v = m2 by rw [hm2, hm1]; rfl]
  have habs : ∀ i, ¬ Present (pde m d i) := by
    intro i
    rw [pde, hz, Block.word_zero]
    exact not_present_zero
  have hdirs : dirs m d = {d} := by
    unfold dirs tables
    rw [pagesIn_eq_zero fun i _ => habs i, add_zero]
  have hv := hp.right.isPage (Multiset.mem_singleton_self v)
  rw [← hdirs] at hp
  obtain ⟨hpde1, hpg1, h7, hpte1, hmv1⟩ :=
    walk_new (show 0 < NPDENTRIES by decide) (habs 0) hp.left hm1
  have hp1 := hp.moved_add hmv1
  have hfirst : pde m1 d (0 / 1024) = V2P t ||| 7 := by
    rw [hpde1, Nat.zero_div, update_self]
  have hlt := mapEntry_lt hv.phys.1 hv.phys.2 (show PTE_W ||| PTE_U < PGSIZE by decide)
  rw [← hpg1, ← hfirst] at hm2
  obtain ⟨-, hpte, hmv⟩ :=
    set_entry (by decide) (hfirst ▸ present_of_seven h7) hlt hp1.left hm2
  have hpte' : pte m2 d = update (fun _ => 0) 0 (mapEntry (V2P v) (PTE_W ||| PTE_U)) := by
    have hnone : pte m d = fun _ => 0 := funext fun k => pte_of_not (habs _)
    rw [hpte, hpte1, hnone]
  have hx : Exact m2 d PGSIZE := by
    intro k _
    rw [hpte']
    by_cases hk : k = 0
    · rw [hk, update_self]
      exact iff_of_true (present_mapEntry _ _) (by decide)
    · rw [update_of_ne hk]
      refine iff_of_false not_present_zero ?_
      unfold PGSIZE
      omega
  refine ⟨?_, hx⟩
  have husers : between 0 (npages PGSIZE) (pte m2 d) = {v} := by
    rw [show npages PGSIZE = 0 + 1 from rfl, between_succ le_rfl, between_self, zero_add, hpte',
      update_self, (hv.map_entry (show PTE_W ||| PTE_U < PGSIZE by decide)).2]
  rw [hx.space_eq (by decide), husers]
  exact hp1.moved_add hmv

theorem onePage_spec : Pool smallImage onePage [] (space onePage 0x80200000) ∧
    Exact onePage 0x80200000 PGSIZE :=
  mapFirst_spec ⟨rfl, by decide, by decide⟩ rfl

theorem sparePage_spec : Pool smallImage sparePage [0x80203000] (space sparePage 0x80200000) ∧
    Exact sparePage 0x80200000 PGSIZE :=
  mapFirst_spec ⟨⟨rfl, by decide, rfl⟩, by decide, by decide⟩ rfl

/-- A process of one page gets a second one. -/
theorem growproc_one_page :
    ∃ s', growproc smallImage 0 PGSIZE spareProc = .ok (true, s') ∧ (s'.proc 0).sz = 2 * PGSIZE ∧
      Exact s'.mem 0x80200000 (2 * PGSIZE) := by
  have h : GrowsExactly smallImage spareProc 0 PGSIZE ↔ 0 < ((spareProc.proc 0).sz : ℤ) + PGSIZE :=
    growproc_exact_iff sparePage_spec.1 sparePage_spec.2 (by decide) (by decide) (by decide)
      (by decide)
  obtain ⟨r, s', hrun, -, hres⟩ := h.mpr (by decide)
  have hr : (growproc smallImage 0 PGSIZE spareProc).map Prod.fst = .ok true := by decide +kernel
  rw [hrun] at hr
  obtain rfl : r = true := Except.ok.inj hr
  rw [if_pos rfl] at hres
  have hsz : (s'.proc 0).sz = 2 * PGSIZE := by
    have h0 : (spareProc.proc 0).sz = PGSIZE := rfl
    omega
  exact ⟨s', hrun, hsz, hsz ▸ hres.2.1⟩

/-- `sbrk(-4096)` in a process of 4096 bytes unmaps its page and returns -1; `sbrk(-4097)` returns
the size, which stays as it is. -/
theorem growproc_not_exact :
    Pool smallImage oneProc.mem [] (space oneProc.mem (oneProc.proc 0).pgdir) ∧
    Exact oneProc.mem (oneProc.proc 0).pgdir (oneProc.proc 0).sz ∧
    ¬ GrowsExactly smallImage oneProc 0 (-4096) ∧ ¬ GrowsExactly smallImage oneProc 0 (-4097) :=
  ⟨onePage_spec.1, onePage_spec.2,
    shrink_all onePage_spec.1 onePage_spec.2 (by decide) (by decide) (by decide),
    shrink_more (by decide) (by decide) (by decide) (by decide)⟩

end Xv6.Vm
