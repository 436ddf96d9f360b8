import Xv6.Vm.Kvm
import Xv6.Vm.UserMem
import Xv6.Vm.Proc

/-!
# The address space that `exec` builds

1. `Image`: all pages below the size are mapped and accessible, and above `KERNBASE` there is the
   kernel. It holds of the new address space, and after every segment.
2. `Stacked`: two more pages, of which the lower one is not accessible.
3. `loadProgram` and `allocStack` return, and where they fail all pages are still accounted for.
-/

namespace Xv6.Vm

open Function StateExcept

variable {img : KernelImage} {m m' : Mem} {L L' : List ℕ} {X : Multiset ℕ} {d sz newsz : ℕ}

structure Image (img : KernelImage) (m : Mem) (L : List ℕ) (d sz : ℕ) : Prop where
  pool : Pool img m L (space m d)
  exact : Exact m d sz
  lt : sz < KERNBASE
  user : ∀ k < UPAGES, Present (pte m d k) → User (pte m d k)
  kernel : KernelPart img m d
  tables : ∀ i, Present (pde m d i) → i * 1024 < npages sz ∨ KernelTable i
  flags : ∀ i, Present (pde m d i) → pde m d i % 8 = 7

theorem user_mapEntry {v : ℕ} (hv : IsPage img v) : User (mapEntry (V2P v) (PTE_W ||| PTE_U)) := by
  rw [mapEntry_assoc, entry_eq hv.phys.1 (by decide)]
  have h := hv.phys.1
  rw [show PTE_W ||| PTE_U ||| PTE_P = 7 from rfl]
  unfold User PGSIZE at *
  omega

namespace Image

theorem of_newSpace (hp : Pool img m L 0) (h : NewSpace img m L m' L' d) : Image img m' L' d 0 := by
  refine ⟨?_, fun k hk => ?_, by decide, fun k hk hpr => absurd hpr (h.not_present k hk), h.kernel,
    fun i hi => .inr (h.tables i hi), h.flags⟩
  · rw [h.space_eq]
    exact hp.moved h.moved
  · exact iff_of_false (h.not_present k hk) (Nat.not_lt_zero _)

theorem grown (h : Image img m L d sz) (hle : sz ≤ newsz) (hlt : newsz < KERNBASE)
    (hg : Grown img m L m' L' d (npages sz) (npages newsz)) : Image img m' L' d newsz := by
  have hmono := npages_mono hle
  have hU := npages_le_UPAGES hlt.le
  refine ⟨h.pool.moved (hg.moved_space h.exact hle hlt), hg.exact h.exact hle, hlt,
    fun k hk hpr => ?_, h.kernel.congr fun j hj => hg.rest j (.inr (by omega)), fun i hi => ?_,
    fun i hi => ?_⟩
  · by_cases h1 : npages sz ≤ k ∧ k < npages newsz
    · obtain ⟨v, hv, hpte, -⟩ := hg.fresh k h1.1 h1.2
      rw [hpte]
      exact user_mapEntry hv
    · rw [hg.rest k (by omega)] at hpr ⊢
      exact h.user k hk hpr
  · rcases hg.ext.cases hi with hi | hi
    · exact (h.tables i hi).imp_left fun h => by omega
    · exact .inl hi.2
  · rcases hg.ext i with he | ⟨-, h7, -⟩
    · rw [he] at hi ⊢
      exact h.flags i hi
    · exact h7

theorem stored {lo hi : ℕ} {f : ℕ → UInt8} (h : Image img m L d sz) (hhi : npages hi ≤ UPAGES)
    (hs : Stored m m' d lo hi f) : Image img m' L d sz := by
  refine ⟨h.pool.moved (hs.moved_space h.pool hhi), fun k hk => ?_, h.lt, fun k hk => ?_,
    h.kernel.congr fun j _ => by rw [hs.pte], fun i hi => ?_, by rw [hs.pde]; exact h.flags⟩
  · rw [hs.pte]
    exact h.exact k hk
  · rw [hs.pte]
    exact h.user k hk
  · rw [hs.pde] at hi
    exact h.tables i hi

theorem mapped (h : Image img m L d sz) {x : ℕ} (hx : x < npages sz * PGSIZE) :
    x / PGSIZE < UPAGES ∧ Present (pte m d (x / PGSIZE)) := by
  have hU := npages_le_UPAGES h.lt.le
  have hk : x / PGSIZE < npages sz := Nat.div_lt_of_lt_mul (by rwa [Nat.mul_comm])
  exact ⟨hk.trans_le hU, (h.exact _ (hk.trans_le hU)).mpr (lt_npages.mp hk)⟩

theorem grown_byte (h : Image img m L d sz) (hg : Grown img m L m' L' d (npages sz) (npages newsz))
    {x : ℕ} (hx : x < npages newsz * PGSIZE) :
    userByte m' d x = if x < npages sz * PGSIZE then userByte m d x else 0 := by
  have hk : x / PGSIZE < npages newsz := Nat.div_lt_of_lt_mul (by rwa [Nat.mul_comm])
  unfold userByte
  by_cases hold : x < npages sz * PGSIZE
  · obtain ⟨hkU, hpr⟩ := h.mapped hold
    have hk' : x / PGSIZE < npages sz := Nat.div_lt_of_lt_mul (by rwa [Nat.mul_comm])
    have hp := h.pool
    rw [space_eq] at hp
    rw [if_pos hold, hg.rest _ (.inl hk'), hp.frame hg.moved (mem_between (Nat.zero_le _) hkU hpr)]
  · have hk' : npages sz ≤ x / PGSIZE := (Nat.le_div_iff_mul_le (by decide)).mpr (not_lt.mp hold)
    obtain ⟨v, hv, hpte, hz⟩ := hg.fresh _ hk' hk
    rw [if_neg hold, hpte, (hv.map_entry (show PTE_W ||| PTE_U < PGSIZE by decide)).1, hz]
    rfl

theorem allocuvm (h : Image img m L d sz) (newsz : ℕ) :
    ∃ r m' L', Vm.allocuvm img d sz newsz m = .ok (r, m') ∧
      Moved m L (space m d) m' L' (space m' d) ∧
      (r ≠ 0 → r = max sz newsz ∧ Image img m' L' d r ∧ ∀ x < npages r * PGSIZE,
        userByte m' d x = if x < npages sz * PGSIZE then userByte m d x else 0) ∧
      (r = 0 → 0 < newsz → KERNBASE ≤ newsz ∨ L.length ≤ 2 * (npages newsz - npages sz)) := by
  by_cases hbig : KERNBASE ≤ newsz
  · refine ⟨0, m, L, ?_, .refl h.pool.chain, fun h0 => absurd rfl h0, fun _ _ => .inl hbig⟩
    unfold Vm.allocuvm
    rw [if_pos hbig]
    rfl
  by_cases hsmall : newsz < sz
  · refine ⟨sz, m, L, ?_, .refl h.pool.chain, fun _ => ⟨(max_eq_left hsmall.le).symm, h,
      fun x hx => (if_pos hx).symm⟩,
      fun _ _ => by omega⟩
    unfold Vm.allocuvm
    rw [if_neg hbig, if_pos hsmall]
    rfl
  have hle : sz ≤ newsz := by omega
  have hlt : newsz < KERNBASE := by omega
  have hpd := h.pool
  rw [space_eq] at hpd
  have habs : ∀ j, npages sz ≤ j → j < npages newsz → ¬ Present (pte m d j) := by
    intro j h1 h2 hpr
    have hU := npages_le_UPAGES hlt.le
    exact absurd (lt_npages.mpr ((h.exact j (by omega)).mp hpr)) (by omega)
  obtain ⟨r, m', L', hrun, hres⟩ := allocuvm_spec hle hlt hpd.left habs
  cases r with
  | true =>
    rw [if_pos rfl] at hrun hres
    exact ⟨newsz, m', L', hrun, hres.moved_space h.exact hle hlt,
      fun _ => ⟨(max_eq_right hle).symm, h.grown hle hlt hres, fun x hx => h.grown_byte hres hx⟩,
      fun _ _ => by omega⟩
  | false =>
    rw [if_neg Bool.false_ne_true] at hrun hres
    exact ⟨0, m', L', hrun, (hres.1.moved_space h.exact hle hlt).2, fun h0 => absurd rfl h0,
      fun _ _ => .inr hres.2.2⟩

theorem loaduvm (h : Image img m L d sz) (file : ReadFile) {addr filesz : ℕ} (offset : ℕ)
    (haddr : addr % PGSIZE = 0) (hle : addr + filesz ≤ sz) :
    ∃ hi r m', Vm.loaduvm img file d addr offset filesz m = .ok (r, m') ∧
      Stored m m' d addr hi (segByte file addr offset filesz) ∧ npages hi ≤ UPAGES ∧
      (r = true → hi = addr + filesz) ∧
      (r = true ↔ ∀ i < filesz, i % PGSIZE = 0 → FullRead file offset filesz i) := by
  have hU : sz ≤ UPAGES * PGSIZE := by
    have := h.lt
    unfold KERNBASE UPAGES PGSIZE at *
    omega
  have hpr : ∀ k, addr ≤ k * PGSIZE → k * PGSIZE < addr + filesz → Present (pte m d k) := by
    intro k hk1 hk2
    refine (h.exact k ?_).mpr (by omega)
    unfold UPAGES PGSIZE at *
    omega
  obtain ⟨hi, r, m', hrun, hst, -, hhi, hdone⟩ :=
    loaduvm_spec file offset h.pool haddr (by omega) hpr
  exact ⟨hi, r, m', hrun, hst, npages_le.mpr (by omega), hdone⟩

end Image

/-! ## The segments -/

theorem proghdr_lt (bytes : List UInt8) :
    (proghdr bytes).vaddr < 2 ^ 32 ∧ (proghdr bytes).memsz < 2 ^ 32 :=
  ⟨Block.word_lt .., Block.word_lt ..⟩

def headers (file : ReadFile) : ℕ → ℕ → List Proghdr
  | 0, _ => []
  | n + 1, off => proghdr (file off PROGHDRSZ) :: headers file n ((off + PROGHDRSZ) % 2 ^ 32)

def loadable (phs : List Proghdr) : List Proghdr := phs.filter fun ph => ph.type = ELF_PROG_LOAD

structure SegLoaded (file : ReadFile) (d : ℕ) (m : Mem) (sz : ℕ) (ph : Proghdr) (m' : Mem)
    (sz' : ℕ) : Prop where
  size : sz' = max sz (ph.vaddr + ph.memsz)
  fits : ph.filesz ≤ ph.memsz
  full : ∀ i < ph.filesz, i % PGSIZE = 0 → FullRead file ph.off ph.filesz i
  byte : ∀ x < npages sz' * PGSIZE, userByte m' d x =
    if ph.vaddr ≤ x ∧ x < ph.vaddr + ph.filesz then segByte file ph.vaddr ph.off ph.filesz x
    else if x < npages sz * PGSIZE then userByte m d x else 0

inductive Loads (file : ReadFile) (d : ℕ) : List Proghdr → Mem → ℕ → Mem → ℕ → Prop
  | nil {m : Mem} {sz : ℕ} : Loads file d [] m sz m sz
  | cons {ph : Proghdr} {phs : List Proghdr} {m m₁ m' : Mem} {sz sz₁ sz' : ℕ}
      (hseg : SegLoaded file d m sz ph m₁ sz₁) (hrest : Loads file d phs m₁ sz₁ m' sz') :
      Loads file d (ph :: phs) m sz m' sz'

theorem loadSegments_spec (file : ReadFile) (n off : ℕ) (h : Image img m L d sz) :
    ∃ o m' L', loadSegments img file d n off sz m = .ok (o, m') ∧
      Moved m L (space m d) m' L' (space m' d) ∧ ∀ sz', o = some sz' →
        Image img m' L' d sz' ∧ Loads file d (loadable (headers file n off)) m sz m' sz' := by
  induction n generalizing m L off sz with
  | zero =>
    refine ⟨some sz, m, L, rfl, .refl h.pool.chain, fun sz' hsz => ?_⟩
    cases hsz
    exact ⟨h, .nil⟩
  | succ n ih =>
    have hbad : ∀ {m' : Mem} {L' : List ℕ}, Moved m L (space m d) m' L' (space m' d) →
        ∃ o m'' L'', (pure none : MemM (Option ℕ)) m' = .ok (o, m'') ∧
          Moved m L (space m d) m'' L'' (space m'' d) ∧
          ∀ sz', o = some sz' →
            Image img m'' L'' d sz' ∧
            Loads file d (loadable (headers file (n + 1) off)) m sz m'' sz' :=
      fun hmv => ⟨none, _, _, rfl, hmv, nofun⟩
    have hrefl : Moved m L (space m d) m L (space m d) := .refl h.pool.chain
    unfold loadSegments
    dsimp only
    set ph := proghdr (file off PROGHDRSZ) with hph
    by_cases h1 : (file off PROGHDRSZ).length ≠ PROGHDRSZ
    · rw [if_pos h1]
      exact hbad hrefl
    rw [if_neg h1]
    by_cases h2 : ph.type ≠ ELF_PROG_LOAD
    · have hskip : loadable (headers file (n + 1) off) =
          loadable (headers file n ((off + PROGHDRSZ) % 2 ^ 32)) :=
        List.filter_cons_of_neg (by simpa using h2)
      rw [if_pos h2, hskip]
      exact ih _ h
    rw [if_neg h2]
    by_cases h3 : ph.memsz < ph.filesz
    · rw [if_pos h3]
      exact hbad hrefl
    rw [if_neg h3]
    by_cases h4 : (ph.vaddr + ph.memsz) % 2 ^ 32 < ph.vaddr
    · rw [if_pos h4]
      exact hbad hrefl
    rw [if_neg h4]
    -- the sum does not overflow
    have hsum : (ph.vaddr + ph.memsz) % 2 ^ 32 = ph.vaddr + ph.memsz := by
      obtain ⟨hv, hm⟩ := proghdr_lt (file off PROGHDRSZ)
      rw [← hph] at hv hm
      omega
    obtain ⟨r, m1, L1, hrun, hmv, himg, -⟩ := h.allocuvm ((ph.vaddr + ph.memsz) % 2 ^ 32)
    rw [bind_eq hrun]
    by_cases h5 : r = 0
    · rw [if_pos h5]
      exact hbad hmv
    rw [if_neg h5]
    obtain ⟨hr, hI, hgrown⟩ := himg h5
    by_cases h6 : ph.vaddr % PGSIZE ≠ 0
    · rw [if_pos h6]
      exact hbad hmv
    rw [if_neg h6]
    obtain ⟨hi, b, m2, hload, hst, hhi', hend, hfull⟩ := hI.loaduvm file ph.off (not_not.mp h6)
      (show ph.vaddr + ph.filesz ≤ r by omega)
    have hmv2 := hmv.trans (hst.moved_space hI.pool hhi')
    rw [bind_eq hload]
    cases b with
    | true =>
      obtain ⟨o, m', L', hrun', hmv', himg'⟩ := ih _ (hI.stored hhi' hst)
      refine ⟨o, m', L', hrun', hmv2.trans hmv', fun sz' hsz => ⟨(himg' sz' hsz).1, ?_⟩⟩
      have hkeep : loadable (headers file (n + 1) off) =
          ph :: loadable (headers file n ((off + PROGHDRSZ) % 2 ^ 32)) :=
        List.filter_cons_of_pos (by simpa using h2)
      obtain rfl := hend rfl
      rw [hkeep]
      refine .cons ⟨by rw [hr, hsum], not_lt.mp h3, hfull.mp rfl, fun x hx => ?_⟩ (himg' sz' hsz).2
      obtain ⟨hk, hprx⟩ := hI.mapped hx
      rw [hst.byte x hk hprx, hgrown x hx]
    | false => exact hbad hmv2

def segments (file : ReadFile) : List Proghdr :=
  loadable (headers file ((ofBytes (file 0 ELFHDRSZ)).half 22) ((ofBytes (file 0 ELFHDRSZ)).word 7))

theorem loadProgram_spec (file : ReadFile) (hp : Pool img m L X) :
    ∃ o m' L', loadProgram img file m = .ok (o, m') ∧
      (o = none → Moved m L 0 m' L' 0) ∧
      ∀ d sz, o = some (d, sz) → d ≠ 0 ∧ Moved m L 0 m' L' (space m' d) ∧ Image img m' L' d sz ∧
        ∃ m0, Loads file d (segments file) m0 0 m' sz := by
  have hp0 : Pool img m L 0 := hp.mono (Multiset.zero_le X)
  have hbad : ∀ {m' : Mem} {L' : List ℕ}, Moved m L 0 m' L' 0 →
      ∃ o m'' L'', (pure none : MemM (Option (ℕ × ℕ))) m' = .ok (o, m'') ∧
        (o = none → Moved m L 0 m'' L'' 0) ∧
        ∀ d sz, o = some (d, sz) →
          d ≠ 0 ∧ Moved m L 0 m'' L'' (space m'' d) ∧ Image img m'' L'' d sz ∧
            ∃ m0, Loads file d (segments file) m0 0 m'' sz :=
    fun hmv => ⟨none, _, _, rfl, fun _ => hmv, nofun⟩
  have hrefl : Moved m L 0 m L 0 := .refl hp.chain
  unfold loadProgram
  by_cases h1 : (file 0 ELFHDRSZ).length ≠ ELFHDRSZ
  · rw [if_pos h1]
    exact hbad hrefl
  rw [if_neg h1]
  by_cases h2 : (ofBytes (file 0 ELFHDRSZ)).word 0 ≠ ELF_MAGIC
  · rw [if_pos h2]
    exact hbad hrefl
  rw [if_neg h2]
  rcases setupkvm_spec hp with ⟨m1, L1, hrun, hmv, -⟩ | ⟨d, m1, L1, hrun, hd0, hnew⟩
  · rw [bind_eq hrun, if_pos rfl]
    exact hbad hmv
  rw [bind_eq hrun, if_neg hd0]
  have hI := Image.of_newSpace hp0 hnew
  have hmv1 := hnew.moved
  rw [← hnew.space_eq] at hmv1
  obtain ⟨o, m2, L2, hrun2, hmv2, himg⟩ := loadSegments_spec file
    ((ofBytes (file 0 ELFHDRSZ)).half 22) ((ofBytes (file 0 ELFHDRSZ)).word 7) hI
  rw [bind_eq hrun2]
  cases o with
  | none =>
    obtain ⟨m', L', hfree, hmv3⟩ := freevm_spec (hI.pool.moved hmv2)
    dsimp only
    rw [bind_eq hfree]
    exact hbad (hmv1.trans (hmv2.trans hmv3))
  | some sz =>
    refine ⟨some (d, sz), m2, L2, rfl, nofun, fun d' sz' hsome => ?_⟩
    cases hsome
    obtain ⟨hI', hloads⟩ := himg sz rfl
    exact ⟨hd0, hmv1.trans hmv2, hI', m1, hloads⟩

/-! ## The stack -/

structure Stacked (img : KernelImage) (m : Mem) (L : List ℕ) (d sz : ℕ) : Prop where
  pool : Pool img m L (space m d)
  exact : Exact m d sz
  lt : sz < KERNBASE
  aligned : sz % PGSIZE = 0
  two : 2 * PGSIZE ≤ sz
  user : ∀ k, k * PGSIZE < sz → (User (pte m d k) ↔ k * PGSIZE ≠ sz - 2 * PGSIZE)
  kernel : KernelPart img m d
  tables : ∀ i, Present (pde m d i) → i * 1024 < npages sz ∨ KernelTable i
  flags : ∀ i, Present (pde m d i) → pde m d i % 8 = 7

theorem Stacked.stored {lo hi : ℕ} {f : ℕ → UInt8} (h : Stacked img m L d sz)
    (hhi : npages hi ≤ UPAGES) (hs : Stored m m' d lo hi f) : Stacked img m' L d sz := by
  refine ⟨h.pool.moved (hs.moved_space h.pool hhi), fun k hk => ?_, h.lt, h.aligned, h.two,
    fun k hk => ?_,
    h.kernel.congr fun j _ => by rw [hs.pte], fun i hi => ?_, by rw [hs.pde]; exact h.flags⟩
  · rw [hs.pte]
    exact h.exact k hk
  · rw [hs.pte]
    exact h.user k hk
  · rw [hs.pde] at hi
    exact h.tables i hi

theorem cleared_user {w : ℕ} (hp : Present w) (hu : User w) :
    Present (w - PTE_U) ∧ pageOf (w - PTE_U) = pageOf w ∧ ¬ User (w - PTE_U) := by
  unfold Present User PTE_U pageOf P2V PTE_ADDR PGSIZE at *
  omega

theorem clearpteu_spec {k : ℕ} (hp : Pool img m L (space m d)) (hk : k < UPAGES)
    (hpr : Present (pte m d k)) (hu : User (pte m d k)) :
    ∃ m', clearpteu img d (k * PGSIZE) m = .ok ((), m') ∧ pde m' d = pde m d ∧
      pte m' d = update (pte m d) k (pte m d k - PTE_U) ∧
      Moved m L (space m d) m' L (space m' d) ∧
      ∀ x, x / PGSIZE < UPAGES → Present (pte m d (x / PGSIZE)) →
        userByte m' d x = userByte m d x := by
  have hkV : k < VPAGES := by
    unfold UPAGES VPAGES at *
    omega
  have hpd := (present_pde hpr).2
  have hwalk := walk_page img m d hkV
  rw [if_pos hpd] at hwalk
  have hlt : pte m d k - PTE_U < 2 ^ 32 := by
    rw [pte_of_present hkV hpd]
    exact lt_of_le_of_lt (Nat.sub_le _ _) (Block.word_lt ..)
  rw [space_eq] at hp
  obtain ⟨hpde, hpte, hmv⟩ := set_entry hkV hpd hlt hp.left rfl
  obtain ⟨h1, h2, -⟩ := cleared_user hpr hu
  refine ⟨_, ?_, hpde, hpte, ?_, fun x hx hprx => ?_⟩
  · unfold clearpteu
    rw [bind_eq hwalk]
    dsimp only
    rw [get_bind, ← pte_of_present hkV hpd, if_pos hu]
    rfl
  · have hbet := pagesIn_update (f := pte m d) hk (pte m d k - PTE_U)
    rw [held_of_present hpr, held_of_present h1, h2, pagesIn_eq_between, pagesIn_eq_between,
      ← hpte] at hbet
    rw [space_eq, space_eq, add_right_cancel hbet]
    exact hmv.add_right _
  · have hpage : pageOf (update (pte m d) k (pte m d k - PTE_U) (x / PGSIZE)) =
        pageOf (pte m d (x / PGSIZE)) := by
      by_cases he : x / PGSIZE = k
      · rw [he, update_self, h2]
      · rw [update_of_ne he]
    unfold userByte
    rw [hpte, hpage, hp.frame hmv (mem_between (Nat.zero_le _) hx hprx)]

theorem roundup_eq (sz : ℕ) : PGROUNDUP sz = npages sz * PGSIZE := rfl

theorem le_roundup (sz : ℕ) : sz ≤ PGROUNDUP sz := by
  unfold PGROUNDUP PGSIZE
  omega

theorem npages_roundup (sz : ℕ) : npages (PGROUNDUP sz) = npages sz := by
  unfold PGROUNDUP npages PGSIZE
  omega

theorem Image.roundup (h : Image img m L d sz) (hlt : PGROUNDUP sz < KERNBASE) :
    Image img m L d (PGROUNDUP sz) := by
  refine ⟨h.pool, fun k hk => ?_, hlt, h.user, h.kernel, by rw [npages_roundup]; exact h.tables,
    h.flags⟩
  rw [h.exact k hk, ← lt_npages, ← lt_npages, npages_roundup]

theorem allocStack_spec (h : Image img m L d sz) :
    ∃ o m' L', allocStack img d sz m = .ok (o, m') ∧
      Moved m L (space m d) m' L' (space m' d) ∧
      (∀ sz', o = some sz' → sz' = PGROUNDUP sz + 2 * PGSIZE ∧ Stacked img m' L' d sz' ∧
        ∀ x < sz' - 2 * PGSIZE, userByte m' d x = userByte m d x) ∧
      (o = none → KERNBASE ≤ PGROUNDUP sz + 2 * PGSIZE ∨ L.length ≤ 4) := by
  unfold allocStack
  by_cases hbig : KERNBASE ≤ PGROUNDUP sz + 2 * PGSIZE
  · have hrun : Vm.allocuvm img d (PGROUNDUP sz) (PGROUNDUP sz + 2 * PGSIZE) m = .ok (0, m) := by
      unfold Vm.allocuvm
      rw [if_pos hbig]
      rfl
    rw [bind_eq hrun, if_pos rfl]
    exact ⟨none, m, L, rfl, .refl h.pool.chain, nofun, fun _ => .inl hbig⟩
  have hI := h.roundup (by omega)
  obtain ⟨r, m1, L1, hrun, hmv, himg, hfail⟩ := hI.allocuvm (PGROUNDUP sz + 2 * PGSIZE)
  rw [bind_eq hrun]
  by_cases hr : r = 0
  · rw [if_pos hr]
    refine ⟨none, m1, L1, rfl, hmv, nofun, fun _ =>
      (hfail hr (Nat.add_pos_right _ (by decide))).imp_right
      fun hle => hle.trans ?_⟩
    rw [npages_roundup]
    unfold PGROUNDUP npages PGSIZE
    omega
  rw [if_neg hr]
  obtain ⟨hmax, hI1, hgrown⟩ := himg hr
  rw [max_eq_right (Nat.le_add_right ..)] at hmax
  subst hmax
  have hk : npages sz < UPAGES := by
    rw [roundup_eq] at hbig
    unfold KERNBASE UPAGES PGSIZE at *
    omega
  have hpr : Present (pte m1 d (npages sz)) := by
    refine (hI1.exact _ hk).mpr ?_
    rw [roundup_eq]
    exact Nat.lt_add_of_pos_right (by decide)
  obtain ⟨m', hclear, hpde, hpte, hmv', hbyte⟩ := clearpteu_spec hI1.pool hk hpr (hI1.user _ hk hpr)
  rw [Nat.add_sub_cancel, roundup_eq, bind_eq hclear]
  refine ⟨some (npages sz * PGSIZE + 2 * PGSIZE), m', L1, rfl, hmv.trans hmv', fun sz' hsz => ?_,
    nofun⟩
  cases hsz
  obtain ⟨hpr', -, hu'⟩ := cleared_user hpr (hI1.user _ hk hpr)
  refine ⟨rfl, ⟨hI1.pool.moved hmv', fun k hkU => ?_, hI1.lt, ?_, Nat.le_add_left ..,
    fun k hlt => ?_, hI1.kernel.congr fun j hj => ?_, fun i hi => ?_,
    by rw [hpde]; exact hI1.flags⟩, fun x hx => ?_⟩
  · rw [hpte]
    by_cases heq : k = npages sz
    · rw [heq, update_self]
      exact iff_of_true hpr' (Nat.lt_add_of_pos_right (by decide))
    · rw [update_of_ne heq]
      exact hI1.exact k hkU
  · unfold PGSIZE
    omega
  · rw [hpte, Nat.add_sub_cancel]
    by_cases heq : k = npages sz
    · rw [heq, update_self]
      exact iff_of_false hu' fun h => h rfl
    · rw [update_of_ne heq]
      have hkU : k < UPAGES := by
        have := hI1.lt
        rw [roundup_eq] at this
        unfold KERNBASE UPAGES PGSIZE at *
        omega
      refine iff_of_true (hI1.user k hkU ((hI1.exact k hkU).mpr hlt)) fun h => heq ?_
      unfold PGSIZE at h
      omega
  · rw [hpte, update_of_ne (by omega)]
  · rw [hpde] at hi
    exact hI1.tables i hi
  · rw [Nat.add_sub_cancel] at hx
    have hx' : x < npages (npages sz * PGSIZE + 2 * PGSIZE) * PGSIZE :=
      hx.trans_le ((Nat.le_add_right ..).trans (le_roundup _))
    have hold : x < npages (PGROUNDUP sz) * PGSIZE :=
      hx.trans_eq (congrArg (· * PGSIZE) (npages_roundup sz).symm)
    obtain ⟨hxU, hprx⟩ := hI1.mapped hx'
    rw [hbyte x hxU hprx, hgrown x hx', if_pos hold]

end Xv6.Vm
