import Mathlib.Data.List.GetD
import Xv6.Vm.Mapping

/-!
# User memory

The kernel writes to the pages of an address space through their kernel addresses.

1. `userByte m d x` is the byte at user address `x`, and `Stored` says that a range of them got new
   values and nothing else changed.
2. `loaduvm` stores what it reads from the file.
3. `copyout` stores bytes up to the first page that the process may not access. Where there is no
   page table it loads through the null pointer.
-/

namespace Xv6.Vm

open StateExcept
open Fs (blit)

variable {img : KernelImage} {m m' m₁ : Mem} {L : List ℕ} {d lo mid hi : ℕ} {f g : ℕ → UInt8}

def userByte (m : Mem) (d x : ℕ) : UInt8 := m.page (pageOf (pte m d (x / PGSIZE))) (x % PGSIZE)

theorem userByte_frame {x : ℕ} (h : ∀ v ∈ space m d, m'.page v = m.page v)
    (hk : x / PGSIZE < UPAGES) (hpr : Present (pte m d (x / PGSIZE))) :
    userByte m' d x = userByte m d x := by
  rw [space_eq] at h
  have hpte := (view_frame fun v hv => h v (Multiset.mem_add.mpr (.inl hv))).2
  unfold userByte
  rw [hpte, h _ (Multiset.mem_add.mpr (.inr (mem_between (Nat.zero_le _) hk hpr)))]

structure Stored (m m' : Mem) (d lo hi : ℕ) (f : ℕ → UInt8) : Prop where
  frame : ∀ v, v ∉ between (lo / PGSIZE) (npages hi) (pte m d) → m'.page v = m.page v
  free : m'.freelist = m.freelist
  pde : pde m' d = pde m d
  pte : pte m' d = pte m d
  byte : ∀ x, x / PGSIZE < UPAGES → Present (Vm.pte m d (x / PGSIZE)) →
    userByte m' d x = if lo ≤ x ∧ x < hi then f x else userByte m d x

namespace Stored

theorem refl (m : Mem) (d : ℕ) (h : hi ≤ lo) (f : ℕ → UInt8) : Stored m m d lo hi f :=
  ⟨fun _ _ => rfl, rfl, rfl, rfl, fun x _ _ => (if_neg (by omega)).symm⟩

theorem congr (h : Stored m m' d lo hi f) (hfg : ∀ x, lo ≤ x → x < hi → f x = g x) :
    Stored m m' d lo hi g := by
  refine ⟨h.frame, h.free, h.pde, h.pte, fun x hx hpr => ?_⟩
  rw [h.byte x hx hpr]
  by_cases hr : lo ≤ x ∧ x < hi
  · rw [if_pos hr, if_pos hr, hfg x hr.1 hr.2]
  · rw [if_neg hr, if_neg hr]

theorem trans (h : Stored m m₁ d lo mid f) (h' : Stored m₁ m' d mid hi f) (h1 : lo ≤ mid)
    (h2 : mid ≤ hi) : Stored m m' d lo hi f := by
  refine ⟨fun v hv => ?_, h'.free.trans h.free, h'.pde.trans h.pde, h'.pte.trans h.pte,
    fun x hx hpr => ?_⟩
  · have hle := between_mono (le_refl (lo / PGSIZE)) (npages_mono h2) (Vm.pte m d)
    have hle' := between_mono (Nat.div_le_div_right (c := PGSIZE) h1) (le_refl (npages hi))
      (Vm.pte m d)
    rw [h'.frame v fun hm => hv (Multiset.mem_of_le hle' (h.pte ▸ hm)),
      h.frame v fun hm => hv (Multiset.mem_of_le hle hm)]
  · rw [h'.byte x hx (by rwa [h.pte]), h.byte x hx hpr]
    by_cases hr : mid ≤ x ∧ x < hi
    · rw [if_pos hr, if_pos (by omega)]
    · rw [if_neg hr]
      by_cases hr' : lo ≤ x ∧ x < mid
      · rw [if_pos hr', if_pos (by omega)]
      · rw [if_neg hr', if_neg (by omega)]

theorem space_eq (h : Stored m m' d lo hi f) : space m' d = space m d := by
  rw [Vm.space_eq, Vm.space_eq, dirs_congr h.pde, h.pte]

theorem moved_space (h : Stored m m' d lo hi f) (hp : Pool img m L (space m d))
    (hhi : npages hi ≤ UPAGES) : Moved m L (space m d) m' L (space m' d) := by
  have hle : between (lo / PGSIZE) (npages hi) (Vm.pte m d) ≤ space m d := by
    rw [Vm.space_eq]
    exact (between_mono (Nat.zero_le _) hhi _).trans (Multiset.le_add_left _ _)
  rw [h.space_eq]
  unfold Moved
  rw [h.free]
  exact FreeList.Moved.write hp.chain hp.nodup fun v hv =>
    h.frame v fun hm => hv (Multiset.mem_of_le hle hm)

end Stored

/-! ## One page -/

theorem page_ne_of_ne (hp : Pool img m L (space m d)) {j k : ℕ} (hj : j < UPAGES) (hk : k < UPAGES)
    (hpj : Present (pte m d j)) (hpk : Present (pte m d k)) (hjk : j ≠ k) :
    pageOf (pte m d j) ≠ pageOf (pte m d k) := by
  rw [space_eq] at hp
  intro h
  exact hjk (eq_of_between_nodup hp.right.nodup_held ⟨Nat.zero_le _, hj⟩
    ⟨Nat.zero_le _, hk⟩ hpj hpk h)

theorem copyTo_spec {k : ℕ} (off : ℕ) (bytes : List UInt8) (hp : Pool img m L (space m d))
    (hk : k < UPAGES) (hpr : Present (pte m d k)) (hoff : off + bytes.length ≤ PGSIZE) :
    ∃ m', copyTo img (pageOf (pte m d k)) off bytes m = .ok ((), m') ∧
      Stored m m' d (k * PGSIZE + off) (k * PGSIZE + off + bytes.length)
        fun x => bytes.getD (x - (k * PGSIZE + off)) 0 := by
  have hpu := hp
  rw [space_eq] at hpu
  have hmem := mem_between (b := UPAGES) (Nat.zero_le k) hk hpr
  have hpage : IsPage img (pageOf (pte m d k)) := hpu.right.isPage hmem
  refine ⟨m.write (pageOf (pte m d k)) (blit (m.page (pageOf (pte m d k))) off bytes), ?_, ?_⟩
  · unfold copyTo
    rw [if_pos hpage]
    rfl
  have hframe : ∀ u, u ∉ between ((k * PGSIZE + off) / PGSIZE)
      (npages (k * PGSIZE + off + bytes.length)) (pte m d) →
      (m.write (pageOf (pte m d k)) (blit (m.page (pageOf (pte m d k))) off bytes)).page u =
        m.page u := by
    intro u hu
    by_cases heq : u = pageOf (pte m d k)
    · rw [heq] at hu ⊢
      rw [Mem.write_self]
      cases bytes with
      | nil =>
        funext x
        unfold blit
        rw [List.getD_nil, ite_self]
      | cons b bs =>
        rw [List.length_cons] at hoff hu
        refine absurd (mem_between ?_ ?_ hpr) hu
        · unfold PGSIZE at *
          omega
        · rw [lt_npages]
          omega
    · exact m.write_of_ne heq _
  have hview : pde (m.write (pageOf (pte m d k)) (blit (m.page (pageOf (pte m d k))) off bytes)) d =
      pde m d ∧
      pte (m.write (pageOf (pte m d k)) (blit (m.page (pageOf (pte m d k))) off bytes)) d =
        pte m d := by
    refine view_frame fun u hu => m.write_of_ne (fun he => ?_) _
    rw [he] at hu
    exact Multiset.disjoint_left.mp (Multiset.nodup_add.mp hpu.nodup_held).2.2 hu hmem
  refine ⟨hframe, rfl, hview.1, hview.2, fun x hx hprx => ?_⟩
  unfold userByte
  rw [hview.2]
  by_cases hxk : x / PGSIZE = k
  · rw [hxk, Mem.write_self]
    unfold blit
    have hxe : x = k * PGSIZE + x % PGSIZE := by
      rw [← hxk, Nat.mul_comm]
      exact (Nat.div_add_mod x PGSIZE).symm
    by_cases hlo : x % PGSIZE < off
    · rw [if_pos hlo, if_neg (by omega)]
    · rw [if_neg hlo, show x % PGSIZE - off = x - (k * PGSIZE + off) by omega]
      by_cases hr : k * PGSIZE + off ≤ x ∧ x < k * PGSIZE + off + bytes.length
      · have hlt : x - (k * PGSIZE + off) < bytes.length := by omega
        rw [if_pos hr, List.getD_eq_getElem _ _ hlt, List.getD_eq_getElem _ _ hlt]
      · rw [if_neg hr, List.getD_eq_default _ _ (by omega)]
  · rw [m.write_of_ne (page_ne_of_ne hp hx hk hprx hpr hxk), if_neg]
    rintro ⟨h1, h2⟩
    apply hxk
    unfold PGSIZE at *
    omega

/-! ## `loaduvm` -/

def segByte (file : ReadFile) (addr offset sz x : ℕ) : UInt8 :=
  let i := (x - addr) / PGSIZE * PGSIZE
  (file ((offset + i) % 2 ^ 32) (min (sz - i) PGSIZE)).getD (x - addr - i) 0

def FullRead (file : ReadFile) (offset sz i : ℕ) : Prop :=
  min (sz - i) PGSIZE ≤ (file ((offset + i) % 2 ^ 32) (min (sz - i) PGSIZE)).length

section Load

variable {file : ReadFile} {addr offset sz n i : ℕ}

theorem loadLoop_spec (file : ReadFile) (offset : ℕ) (hp : Pool img m L (space m d))
    (haddr : addr % PGSIZE = 0)
    (hi : i % PGSIZE = 0) (hn : i / PGSIZE + n = npages sz) (htop : addr + sz ≤ UPAGES * PGSIZE)
    (hpr : ∀ k, addr ≤ k * PGSIZE → k * PGSIZE < addr + sz → Present (pte m d k)) :
    ∃ hi r m', loadLoop img file d addr offset sz n i m = .ok (r, m') ∧
      Stored m m' d (min (addr + i) (addr + sz)) hi (segByte file addr offset sz) ∧
      min (addr + i) (addr + sz) ≤ hi ∧ hi ≤ addr + sz ∧ (r = true → hi = addr + sz) ∧
      (r = true ↔ ∀ j, i ≤ j → j < sz → j % PGSIZE = 0 → FullRead file offset sz j) := by
  induction n generalizing m i with
  | zero =>
    have hle : sz ≤ i := by
      unfold npages PGSIZE at *
      omega
    exact ⟨addr + sz, true, m, rfl, .refl m d (by omega) _, by omega, le_rfl,
      fun _ => rfl, iff_of_true rfl fun j h1 h2 => by omega⟩
  | succ n ih =>
    have hlt : i < sz := by
      unfold npages PGSIZE at *
      omega
    obtain ⟨k, hk⟩ : ∃ k, addr + i = k * PGSIZE :=
      ⟨(addr + i) / PGSIZE, by unfold PGSIZE at *; omega⟩
    have hkU : k < UPAGES := by
      unfold UPAGES PGSIZE at *
      omega
    have hkV : k < VPAGES := by
      unfold UPAGES VPAGES at *
      omega
    have hpk : Present (pte m d k) := hpr k (by omega) (by omega)
    have hwalk := walk_page img m d hkV
    rw [if_pos (present_pde hpk).2] at hwalk
    set len := min (sz - i) PGSIZE with hlen
    set bytes := (file ((offset + i) % 2 ^ 32) len).take len with hbytes
    have hble : bytes.length ≤ len := List.length_take_le ..
    obtain ⟨m₁, hcopy, hst⟩ := copyTo_spec 0 bytes hp hkU hpk (by omega)
    rw [Nat.add_zero, ← hk] at hst
    have hseg : ∀ x, addr + i ≤ x → x < addr + i + bytes.length →
        bytes.getD (x - (addr + i)) 0 = segByte file addr offset sz x := by
      intro x h1 h2
      have hx : (x - addr) / PGSIZE * PGSIZE = i := by
        unfold PGSIZE at *
        omega
      unfold segByte
      rw [hx]
      dsimp only
      rw [hbytes, ← hlen, show x - addr - i = x - (addr + i) by omega, List.getD_eq_getElem?_getD,
        List.getD_eq_getElem?_getD, List.getElem?_take_of_lt (by omega)]
    have hst' := hst.congr hseg
    have hmin : min (addr + i) (addr + sz) = addr + i := by omega
    rw [hmin]
    have hstep : loadLoop img file d addr offset sz (n + 1) i m =
        (if bytes.length = len then loadLoop img file d addr offset sz n (i + PGSIZE)
          else pure false) m₁ := by
      rw [loadLoop, hk, bind_eq hwalk]
      dsimp only
      rw [get_bind, ← pte_of_present hkV (present_pde hpk).2, ← hlen, ← hbytes, bind_eq hcopy]
    have hbl : bytes.length = min len (file ((offset + i) % 2 ^ 32) len).length :=
      List.length_take
    have hread : FullRead file offset sz i ↔ bytes.length = len := by
      unfold FullRead
      rw [← hlen]
      omega
    by_cases hfull : bytes.length = len
    · have hp1 := hp.moved (hst'.moved_space hp ?_)
      swap
      · rw [npages_le]
        unfold UPAGES PGSIZE at *
        omega
      obtain ⟨hi', r, m', hrun, hst2, h1, h2, h3, h4⟩ := ih (m := m₁) (i := i + PGSIZE) hp1
        (by rw [Nat.add_mod_right]; exact hi) (by unfold PGSIZE at *; omega)
        (by rwa [hst'.pte])
      have hmid : min (addr + (i + PGSIZE)) (addr + sz) = addr + i + bytes.length := by omega
      rw [hmid] at hst2 h1
      refine ⟨hi', r, m', ?_, hst'.trans hst2 (by omega) h1, by omega, h2, h3, h4.trans
        ⟨fun h j hj1 hj2 hj3 => ?_, fun h j hj1 => h j (by omega)⟩⟩
      · rw [hstep, if_pos hfull]
        exact hrun
      · by_cases hj : j = i
        · rw [hj]
          exact hread.mpr hfull
        · exact h j (by unfold PGSIZE at *; omega) hj2 hj3
    · refine ⟨addr + i + bytes.length, false, m₁, ?_, hst', by omega, by omega, nofun,
        iff_of_false Bool.false_ne_true fun h => hfull (hread.mp (h i le_rfl hlt hi))⟩
      rw [hstep, if_neg hfull]
      rfl

theorem loaduvm_spec (file : ReadFile) (offset : ℕ) (hp : Pool img m L (space m d))
    (haddr : addr % PGSIZE = 0) (htop : addr + sz ≤ UPAGES * PGSIZE)
    (hpr : ∀ k, addr ≤ k * PGSIZE → k * PGSIZE < addr + sz → Present (pte m d k)) :
    ∃ hi r m', loaduvm img file d addr offset sz m = .ok (r, m') ∧
      Stored m m' d addr hi (segByte file addr offset sz) ∧ addr ≤ hi ∧ hi ≤ addr + sz ∧
      (r = true → hi = addr + sz) ∧
      (r = true ↔ ∀ i < sz, i % PGSIZE = 0 → FullRead file offset sz i) := by
  obtain ⟨hi, r, m', hrun, hst, h1, h2, h3, h4⟩ := loadLoop_spec file offset
    (n := npages sz) (i := 0) hp haddr rfl (by rw [Nat.zero_div, Nat.zero_add]) htop hpr
  rw [Nat.add_zero, min_eq_left (Nat.le_add_right ..)] at hst h1
  refine ⟨hi, r, m', ?_, hst, h1, h2, h3,
    h4.trans ⟨fun h i hi => h i (Nat.zero_le i) hi, fun h i _ hi => h i hi⟩⟩
  unfold loaduvm
  rw [if_neg (not_not.mpr haddr)]
  exact hrun

end Load

/-! ## `copyout` -/

section Copyout

variable {null : MemM ℕ} {va k fuel : ℕ} {bytes : List UInt8}

theorem uva2ka_eq (img : KernelImage) (null : MemM ℕ) (hk : k < VPAGES)
    (hpd : Present (pde m d (k / 1024))) :
    uva2ka img null d (k * PGSIZE) m =
      .ok (if Present (pte m d k) ∧ User (pte m d k) then pageOf (pte m d k) else 0, m) := by
  have hwalk := walk_page img m d hk
  rw [if_pos hpd] at hwalk
  have hload : loadPte img null d (k * PGSIZE) m = .ok (pte m d k, m) := by
    unfold loadPte
    rw [bind_eq hwalk, pte_of_present hk hpd]
    rfl
  unfold uva2ka
  rw [bind_eq hload]
  by_cases h1 : Present (pte m d k)
  · by_cases h2 : User (pte m d k)
    · rw [if_neg (not_not.mpr h1), if_neg (not_not.mpr h2), if_pos ⟨h1, h2⟩]
      rfl
    · rw [if_neg (not_not.mpr h1), if_pos h2, if_neg fun h => h2 h.2]
      rfl
  · rw [if_pos h1, if_neg fun h => h1 h.1]
    rfl

theorem uva2ka_null (hk : k < VPAGES) (hpd : ¬ Present (pde m d (k / 1024))) :
    uva2ka img (throw .null) d (k * PGSIZE) m = .error .null := by
  have hwalk := walk_page img m d hk
  rw [if_neg hpd] at hwalk
  unfold uva2ka
  refine bind_error ?_
  unfold loadPte
  rw [bind_eq hwalk]
  rfl

theorem same_page {x : ℕ} (h1 : va ≤ x) (h2 : x < va / PGSIZE * PGSIZE + PGSIZE) :
    x / PGSIZE = va / PGSIZE := by
  unfold PGSIZE at *
  omega

theorem copyout_nil (null : MemM ℕ) (fuel va : ℕ) : copyout img null d fuel va [] = pure true := by
  cases fuel with
  | zero => rfl
  | succ fuel =>
    unfold copyout
    rw [if_pos rfl]

theorem rounddown_eq (va : ℕ) : PGROUNDDOWN va = va / PGSIZE * PGSIZE := rfl

theorem copyout_stop (hb : bytes ≠ []) (hva : va < 2 ^ 32)
    (hpd : Present (pde m d (va / PGSIZE / 1024)))
    (hu : ¬ (Present (pte m d (va / PGSIZE)) ∧ User (pte m d (va / PGSIZE)))) :
    copyout img null d (fuel + 1) va bytes m = .ok (false, m) := by
  unfold copyout
  rw [if_neg hb, rounddown_eq, bind_eq (uva2ka_eq img null (page_lt hva) hpd),
    if_neg hu, if_pos rfl]
  rfl

theorem copyout_null (hb : bytes ≠ []) (hva : va < 2 ^ 32)
    (hpd : ¬ Present (pde m d (va / PGSIZE / 1024))) :
    copyout img (throw .null) d (fuel + 1) va bytes m = .error .null := by
  unfold copyout
  rw [if_neg hb]
  exact bind_error (uva2ka_null (page_lt hva) hpd)

theorem copyout_page (null : MemM ℕ) (fuel : ℕ) (hp : Pool img m L (space m d)) (hb : bytes ≠ [])
    (hkU : va / PGSIZE < UPAGES) (hpk : Present (pte m d (va / PGSIZE)))
    (hu : User (pte m d (va / PGSIZE))) :
    ∃ n m₁, 0 < n ∧ n ≤ bytes.length ∧ va + n ≤ va / PGSIZE * PGSIZE + PGSIZE ∧
      (n < bytes.length → va + n = va / PGSIZE * PGSIZE + PGSIZE) ∧
      copyout img null d (fuel + 1) va bytes m =
        copyout img null d fuel ((va / PGSIZE * PGSIZE + PGSIZE) % 2 ^ 32) (bytes.drop n) m₁ ∧
      Stored m m₁ d va (va + n) (fun x => bytes.getD (x - va) 0) := by
  have hpos := List.length_pos_iff.mpr hb
  have hdm := Nat.div_mul_le_self va PGSIZE
  set off := va - va / PGSIZE * PGSIZE with hoff
  have hofflt : off < PGSIZE := by
    unfold PGSIZE at *
    omega
  set n := min (PGSIZE - off) bytes.length with hn
  have hlen : (bytes.take n).length = n := List.length_take_of_le (by omega)
  obtain ⟨m₁, hcopy, hst⟩ := copyTo_spec off (bytes.take n) hp hkU hpk (by omega)
  rw [show va / PGSIZE * PGSIZE + off = va by omega, hlen] at hst
  refine ⟨n, m₁, by omega, by omega, by omega, by omega, ?_, hst.congr fun x h1 h2 => ?_⟩
  · have hne : pageOf (pte m d (va / PGSIZE)) ≠ 0 := by
      rw [space_eq] at hp
      exact (hp.right.isPage (mem_between (Nat.zero_le _) hkU hpk)).ne_zero
    have hkV : va / PGSIZE < VPAGES := hkU.trans (by decide)
    have huva := uva2ka_eq img null hkV (present_pde hpk).2
    rw [if_pos ⟨hpk, hu⟩] at huva
    rw [copyout, if_neg hb, rounddown_eq, bind_eq huva, if_neg hne, ← hoff, ← hn, bind_eq hcopy]
  · rw [List.getD_eq_getElem?_getD, List.getD_eq_getElem?_getD,
      List.getElem?_take_of_lt (by omega)]

theorem copyout_spec (null : MemM ℕ) (hp : Pool img m L (space m d)) (hfuel : bytes.length ≤ fuel)
    (htop : va + bytes.length ≤ UPAGES * PGSIZE)
    (hpr : ∀ k, va / PGSIZE ≤ k → k * PGSIZE < va + bytes.length → Present (pte m d k)) :
    ∃ n m', n ≤ bytes.length ∧
      copyout img null d fuel va bytes m = .ok (decide (n = bytes.length), m') ∧
      Stored m m' d va (va + n) (fun x => bytes.getD (x - va) 0) ∧
      (∀ x, va ≤ x → x < va + n → User (pte m d (x / PGSIZE))) ∧
      (n < bytes.length → ¬ User (pte m d ((va + n) / PGSIZE))) ∧ (n = 0 → m' = m) := by
  induction fuel generalizing m va bytes with
  | zero =>
    obtain rfl := List.length_eq_zero_iff.mp (Nat.le_zero.mp hfuel)
    exact ⟨0, m, le_rfl, rfl, .refl m d le_rfl _, fun x _ _ => by omega, nofun, fun _ => rfl⟩
  | succ fuel ih =>
    by_cases hb : bytes = []
    · subst hb
      exact ⟨0, m, le_rfl, rfl, .refl m d le_rfl _, fun x _ _ => by omega, nofun, fun _ => rfl⟩
    have hpos := List.length_pos_iff.mpr hb
    have hkU : va / PGSIZE < UPAGES := by
      unfold UPAGES PGSIZE at *
      omega
    have hpk : Present (pte m d (va / PGSIZE)) := hpr _ le_rfl (by unfold PGSIZE; omega)
    by_cases hu : User (pte m d (va / PGSIZE))
    swap
    · refine ⟨0, m, Nat.zero_le _, ?_, .refl m d le_rfl _, fun x _ _ => by omega, fun _ => hu,
        fun _ => rfl⟩
      have hva : va < 2 ^ 32 := by
        unfold UPAGES PGSIZE at htop
        omega
      rw [copyout_stop hb hva (present_pde hpk).2 fun h => hu h.2, decide_eq_false (by omega)]
    obtain ⟨n, m₁, hn, hnle, hpage, hnext, hstep, hst⟩ :=
      copyout_page null fuel hp hb hkU hpk hu
    have hp1 := hp.moved (hst.moved_space hp (npages_le.mpr (by omega)))
    -- the rest, if there is any, begins on the next page
    have hmod : n < bytes.length → (va / PGSIZE * PGSIZE + PGSIZE) % 2 ^ 32 = va + n := by
      intro hlt
      rw [← hnext hlt]
      unfold UPAGES PGSIZE at *
      omega
    have hdrop : (bytes.drop n).length = bytes.length - n := List.length_drop
    obtain ⟨n', m', hn', hrun, hst2, huser2, hstop2, -⟩ := @ih m₁ (va + n)
      (bytes.drop n) hp1 (by omega) (by omega) (by
        intro k h1 h2
        rw [hst.pte]
        refine hpr k (le_trans (Nat.div_le_div_right (Nat.le_add_right ..)) h1) (by omega))
    have hget2 : ∀ x, va + n ≤ x → x < va + n + n' →
        (bytes.drop n).getD (x - (va + n)) 0 = bytes.getD (x - va) 0 := by
      intro x h1 h2
      rw [List.getD_eq_getElem?_getD, List.getD_eq_getElem?_getD, List.getElem?_drop,
        show n + (x - (va + n)) = x - va by omega]
    refine ⟨n + n', m', by omega, ?_, ?_, fun x h1 h2 => ?_, fun hlt => ?_, by omega⟩
    · have hdec : decide (n' = bytes.length - n) = decide (n + n' = bytes.length) :=
        decide_eq_decide.mpr (by omega)
      rw [hstep, ← hdec, ← hdrop, ← hrun]
      by_cases hlt : n < bytes.length
      · rw [hmod hlt]
      · rw [List.drop_eq_nil_of_le (by omega), copyout_nil, copyout_nil]
    · rw [← Nat.add_assoc]
      exact hst.trans (hst2.congr hget2) (by omega) (by omega)
    · by_cases hx : x < va + n
      · rw [same_page h1 (by omega)]
        exact hu
      · rw [← hst.pte]
        exact huser2 x (by omega) (by omega)
    · rw [← hst.pte, ← Nat.add_assoc]
      exact hstop2 (by omega)

end Copyout

end Xv6.Vm
