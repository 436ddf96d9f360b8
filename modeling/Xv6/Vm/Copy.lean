import Xv6.Vm.Grow
import Xv6.Vm.Kvm
import Xv6.Vm.UserMem

/-!
# The address space of a child

1. `copyLoop` copies page after page (`Copied`); when a page is missing it stops, and the pages of
   the half-built copy are all accounted for.
2. Two address spaces without a common page are isolated: what is stored through one of them is not
   visible through the other (`isolated_of_pool`).
3. `copyuvm_copies`: the copy is faithful and isolated, or all pages are back on the free list. The
   address space of the parent is as before in both cases.
-/

namespace Xv6.Vm

open StateExcept Function

variable {img : KernelImage} {m m' : Mem} {L L' : List ℕ} {p d k K n : ℕ}

/-! ## The loop -/

structure Copied (img : KernelImage) (m : Mem) (p d k : ℕ) : Prop where
  copy : ∀ j < k, ∃ v, IsPage img v ∧ pte m d j = mapEntry (V2P v) (PTE_FLAGS (pte m p j)) ∧
    m.page v = m.page (pageOf (pte m p j))
  rest : ∀ j, k ≤ j → j < UPAGES → ¬ Present (pte m d j)
  kernel : KernelPart img m d

theorem flags_lt (w : ℕ) : PTE_FLAGS w < PGSIZE := Nat.mod_lt _ (by decide)

theorem PageMapped.moved_space {v perm : ℕ} {b : Block} (h : PageMapped m L m' L' d k v perm b)
    (hk : k < UPAGES) (habs : ¬ Present (Vm.pte m d k)) (hv : IsPage img v)
    (hperm : perm < PGSIZE) : Moved m L (space m d) m' L' (space m' d) := by
  have hbet := pagesIn_update (f := Vm.pte m d) hk (mapEntry (V2P v) perm)
  rw [held_of_not habs, add_zero, (hv.map_entry hperm).2, ← h.pte, pagesIn_eq_between,
    pagesIn_eq_between] at hbet
  rw [space_eq, space_eq, hbet, add_comm (between 0 UPAGES (Vm.pte m d)), ← add_assoc]
  exact h.moved.add_right _

theorem Copied.succ {v : ℕ} (hc : Copied img m p d k) (hk : k < UPAGES)
    (hp : Pool img m L (space m d + space m p)) (hv : IsPage img v)
    (hpr : ∀ j ≤ k, Present (pte m p j))
    (h : PageMapped m L m' L' d k v (PTE_FLAGS (pte m p k)) (m.page (pageOf (pte m p k)))) :
    pte m' p = pte m p ∧ space m' p = space m p ∧ Copied img m' p d (k + 1) := by
  have hmv := h.moved_space hk (hc.rest k le_rfl hk) hv (flags_lt _)
  have hframe : ∀ u ∈ space m p, m'.page u = m.page u := fun u hu => hp.frame hmv hu
  have hview : pde m' p = pde m p ∧ pte m' p = pte m p := by
    refine view_frame fun u hu => hframe u ?_
    rw [space_eq]
    exact Multiset.mem_add.mpr (.inl hu)
  have hparent : ∀ j ≤ k, m'.page (pageOf (pte m p j)) = m.page (pageOf (pte m p j)) := by
    intro j hj
    refine hframe _ ?_
    rw [space_eq]
    exact Multiset.mem_add.mpr (.inr (mem_between (Nat.zero_le j) (by omega) (hpr j hj)))
  refine ⟨hview.2, space_frame hframe, fun j hj => ?_, fun j h1 h2 => ?_, ?_⟩
  · rw [hview.2]
    by_cases hjk : j = k
    · subst hjk
      exact ⟨v, hv, by rw [h.pte, update_self], by rw [h.page, hparent j le_rfl]⟩
    · obtain ⟨u, hu, hpte, hpage⟩ := hc.copy j (by omega)
      refine ⟨u, hu, by rw [h.pte, update_of_ne hjk, hpte], ?_⟩
      -- the page is one that was mapped before: it is not touched
      have hmem : u ∈ between 0 UPAGES (pte m d) := by
        have hpage' := (hu.map_entry (flags_lt (pte m p j))).1
        have hin := mem_between (f := pte m d) (b := UPAGES) (Nat.zero_le j) (by omega)
          (hpte ▸ present_mapEntry _ _)
        rwa [hpte, hpage'] at hin
      rw [space_eq] at hp
      rw [hp.left.frame h.moved hmem, hpage, hparent j (by omega)]
  · rw [h.pte, update_of_ne (by omega)]
    exact hc.rest j (by omega) h2
  · refine hc.kernel.congr fun j hj => ?_
    rw [h.pte, update_of_ne (by omega)]

theorem memmove_bind {α : Type} (v u : ℕ) (f : Unit → MemM α) :
    ((modify fun m => { m with page := update m.page v (m.page u) } : MemM Unit) >>= f) m =
      f () (m.write v (m.page u)) := rfl

theorem copyLoop_spec (hpr : ∀ j < K, Present (pte m p j)) (hK : K ≤ UPAGES) (hkn : k + n = K)
    (hc : Copied img m p d k) (hp : Pool img m L (space m d + space m p)) :
    ∃ r m' L', copyLoop img p d n (k * PGSIZE) m = .ok (r, m') ∧
      Moved m L (space m d) m' L' (space m' d) ∧ (r = true → Copied img m' p d K) ∧
      (r = false → L.length ≤ 2 * n) := by
  induction n generalizing m L k with
  | zero => exact ⟨true, m, L, rfl, .refl hp.chain, fun _ => hkn ▸ hc, nofun⟩
  | succ n ih =>
    have hkU : k < UPAGES := by omega
    have hkV : k < VPAGES := by
      unfold UPAGES VPAGES at *
      omega
    have hpk := hpr k (by omega)
    have hpd := (present_pde hpk).2
    have hwalk := walk_page img m p hkV
    rw [if_pos hpd] at hwalk
    have habs := hc.rest k le_rfl hkU
    have hpd' := hp.left
    rw [space_eq] at hpd'
    unfold copyLoop
    rw [bind_eq hwalk]
    dsimp only
    rw [get_bind, ← pte_of_present hkV hpd, if_pos hpk]
    rcases map_new_page (m.page (pageOf (pte m p k))) hkV (flags_lt (pte m p k)) hpd'.left habs with
      ⟨rfl, ha⟩ | ⟨v, m₁, ha, hv0, hv, hpage, hmap⟩
    · rw [bind_eq ha, if_pos rfl]
      exact ⟨false, m, [], rfl, .refl hp.chain, nofun, fun _ => Nat.zero_le _⟩
    rw [bind_eq ha, if_neg hv0]
    rw [memmove_bind, hpage]
    rcases hmap with ⟨rfl, hmap, hmv⟩ | ⟨m3, L3, hmap, h3⟩
    · -- no page is free for the page table: the page is given back
      obtain ⟨m4, hfree, hmv4⟩ := kfree_spec ((hp.mono (Multiset.zero_le _)).moved hmv)
      have hback := hmv.trans hmv4
      rw [bind_eq hmap, if_neg Bool.false_ne_true, bind_eq hfree]
      refine ⟨false, m4, [v], rfl, ?_, nofun, fun _ => by rw [List.length_singleton]; omega⟩
      rw [← zero_add (space m d)] at hp
      have hspace : space m4 d = space m d := space_frame fun u hu => hp.left.frame hback hu
      have h := hback.add_right (space m d)
      rw [hspace]
      rwa [zero_add] at h
    · obtain ⟨hpte3, hspace3, hc3⟩ := hc.succ hkU hp hv (fun j hj => hpr j (by omega)) h3
      have hmv3 := h3.moved_space hkU habs hv (flags_lt _)
      have hp3 := hp.moved_add hmv3
      rw [← hspace3] at hp3
      obtain ⟨r, m', L', hrun, hmv', hc', hlen⟩ := ih (by rwa [hpte3]) (by omega) hc3 hp3
      refine ⟨r, m', L', ?_, hmv3.trans hmv', hc', fun hr => ?_⟩
      swap
      · have h1 := h3.short
        have h2 := hlen hr
        omega
      rw [bind_eq hmap, if_pos rfl, show k * PGSIZE + PGSIZE = (k + 1) * PGSIZE by ring]
      exact hrun

/-! ## Isolation -/

def storeByte (d x : ℕ) (b : UInt8) (m : Mem) : Mem :=
  m.write (pageOf (pte m d (x / PGSIZE)))
    (update (m.page (pageOf (pte m d (x / PGSIZE)))) (x % PGSIZE) b)

def stores : List (ℕ × ℕ × UInt8) → Mem → Mem
  | [], m => m
  | (d, x, b) :: ws, m => stores ws (storeByte d x b m)

def InUse (m : Mem) (d x : ℕ) : Prop := x / PGSIZE < UPAGES ∧ Present (pte m d (x / PGSIZE))

/-- Whatever is stored through the address spaces `p` and `d`, in any order, each of them has the
bytes that were stored through itself. -/
def Isolated (m : Mem) (p d : ℕ) : Prop :=
  ∀ ws : List (ℕ × ℕ × UInt8), (∀ w ∈ ws, (w.1 = p ∨ w.1 = d) ∧ InUse m w.1 w.2.1) →
    ∀ a, a = p ∨ a = d → ∀ x, InUse m a x →
      userByte (stores ws m) a x = userByte (stores (ws.filter (·.1 = a)) m) a x

section Isolation

variable {m₁ m₂ : Mem} {a c x : ℕ} {b : UInt8} {S : Set ℕ}

def SameDirs (m m' : Mem) (a : ℕ) : Prop := ∀ v ∈ dirs m a, m'.page v = m.page v

theorem SameDirs.pte (h : SameDirs m m₁ a) : pte m₁ a = pte m a := (view_frame h).2

theorem InUse.mem (h : InUse m c x) : pageOf (pte m c (x / PGSIZE)) ∈ between 0 UPAGES (pte m c) :=
  mem_between (Nat.zero_le _) h.1 h.2

theorem InUse.mem_space (h : InUse m c x) : pageOf (pte m c (x / PGSIZE)) ∈ space m c := by
  rw [space_eq]
  exact Multiset.mem_add.mpr (.inr h.mem)

theorem storeByte_of_ne {u : ℕ} (h : SameDirs m m₁ c) (hu : u ≠ pageOf (pte m c (x / PGSIZE))) :
    (storeByte c x b m₁).page u = m₁.page u := by
  rw [← h.pte] at hu
  exact m₁.write_of_ne hu _

variable (hn : ∀ c ∈ S, (space m c).Nodup)
  (hdis : ∀ c ∈ S, ∀ a ∈ S, c ≠ a → Disjoint (space m c) (space m a))

include hdis in
theorem storeByte_other (hc : c ∈ S) (ha : a ∈ S) (hca : c ≠ a) (h : SameDirs m m₁ c)
    (hx : InUse m c x) : ∀ u ∈ space m a, (storeByte c x b m₁).page u = m₁.page u := by
  intro u hu
  refine storeByte_of_ne h fun he => ?_
  exact Multiset.disjoint_left.mp (hdis c hc a ha hca) hx.mem_space (he ▸ hu)

include hn hdis in
theorem storeByte_sameDirs (hc : c ∈ S) (ha : a ∈ S) (h : ∀ a ∈ S, SameDirs m m₁ a)
    (hx : InUse m c x) : SameDirs m (storeByte c x b m₁) a := by
  intro u hu
  rw [← h a ha u hu]
  by_cases hca : c = a
  · subst hca
    refine storeByte_of_ne (h c hc) fun he => ?_
    have hnd := hn c hc
    rw [space_eq] at hnd
    exact Multiset.disjoint_left.mp (Multiset.nodup_add.mp hnd).2.2 hu (he ▸ hx.mem)
  · refine storeByte_other hdis hc ha hca (h c hc) hx u ?_
    rw [space_eq]
    exact Multiset.mem_add.mpr (.inl hu)

theorem storeByte_agree (h1 : SameDirs m m₁ a) (h2 : SameDirs m m₂ a)
    (hag : ∀ v ∈ space m a, m₁.page v = m₂.page v) (hx : InUse m a x) :
    ∀ v ∈ space m a, (storeByte a x b m₁).page v = (storeByte a x b m₂).page v := by
  intro v hv
  by_cases hu : v = pageOf (pte m a (x / PGSIZE))
  · unfold storeByte
    rw [h1.pte, h2.pte, hu, Mem.write_self, Mem.write_self, hag _ hx.mem_space]
  · rw [storeByte_of_ne h1 hu, storeByte_of_ne h2 hu, hag v hv]

include hn hdis in
theorem stores_agree {ws : List (ℕ × ℕ × UInt8)} (ha : a ∈ S)
    (hws : ∀ w ∈ ws, w.1 ∈ S ∧ InUse m w.1 w.2.1) (h1 : ∀ c ∈ S, SameDirs m m₁ c)
    (h2 : ∀ c ∈ S, SameDirs m m₂ c) (hag : ∀ v ∈ space m a, m₁.page v = m₂.page v) :
    SameDirs m (stores ws m₁) a ∧ SameDirs m (stores (ws.filter (·.1 = a)) m₂) a ∧
      ∀ v ∈ space m a, (stores ws m₁).page v = (stores (ws.filter (·.1 = a)) m₂).page v := by
  induction ws generalizing m₁ m₂ with
  | nil => exact ⟨h1 a ha, h2 a ha, hag⟩
  | cons w ws ih =>
    obtain ⟨c, x, b⟩ := w
    obtain ⟨hc, hx⟩ := hws _ List.mem_cons_self
    have hrest : ∀ w ∈ ws, w.1 ∈ S ∧ InUse m w.1 w.2.1 := fun w hw =>
      hws w (List.mem_cons_of_mem _ hw)
    have hs1 : ∀ e ∈ S, SameDirs m (storeByte c x b m₁) e := fun e he =>
      storeByte_sameDirs hn hdis hc he h1 hx
    by_cases hca : c = a
    · subst hca
      rw [List.filter_cons_of_pos (by simp)]
      exact ih hrest hs1 (fun e he => storeByte_sameDirs hn hdis hc he h2 hx)
        (storeByte_agree (h1 c hc) (h2 c hc) hag hx)
    · rw [List.filter_cons_of_neg (by simpa using hca)]
      refine ih hrest hs1 h2 fun v hv => ?_
      rw [storeByte_other hdis hc ha hca (h1 c hc) hx v hv, hag v hv]

end Isolation

theorem isolated_of_pool (hp : Pool img m L (space m p + space m d)) : Isolated m p d := by
  obtain ⟨hnp, hnd, hdis⟩ := Multiset.nodup_add.mp hp.nodup_held
  intro ws hws a ha x hx
  have hn : ∀ c ∈ ({p, d} : Set ℕ), (space m c).Nodup := by
    rintro c (rfl | rfl)
    · exact hnp
    · exact hnd
  have hdis' : ∀ c ∈ ({p, d} : Set ℕ), ∀ a ∈ ({p, d} : Set ℕ), c ≠ a →
      Disjoint (space m c) (space m a) := by
    rintro c (rfl | rfl) a (rfl | rfl) hne
    · exact absurd rfl hne
    · exact hdis
    · exact hdis.symm
    · exact absurd rfl hne
  have hrefl : ∀ c ∈ ({p, d} : Set ℕ), SameDirs m m c := fun _ _ _ _ => rfl
  obtain ⟨h1, h2, hag⟩ := stores_agree hn hdis' ha hws hrefl hrefl fun _ _ => rfl
  unfold userByte
  rw [h1.pte, h2.pte, hag _ hx.mem_space]

/-! ## `copyuvm` -/

structure CopyOf (img : KernelImage) (m m' : Mem) (p d sz : ℕ) : Prop where
  exact : Exact m' d sz
  page : ∀ k < npages sz, m'.page (pageOf (pte m' d k)) = m.page (pageOf (pte m p k))
  flags : ∀ k < npages sz, PTE_FLAGS (pte m' d k) = PTE_FLAGS (pte m p k)
  distinct : ∀ j < npages sz, ∀ k < npages sz, pageOf (pte m' d j) = pageOf (pte m' d k) → j = k
  apart : ∀ v ∈ space m' d, v ∉ space m p
  kernel : KernelPart img m' d

theorem flags_mapEntry {v w : ℕ} (hv : IsPage img v) (hw : Present w) :
    PTE_FLAGS (mapEntry (V2P v) (PTE_FLAGS w)) = PTE_FLAGS w := by
  have hor : PTE_FLAGS w ||| PTE_P = PTE_FLAGS w := by
    have hodd : PTE_FLAGS w = 2 ^ 1 * (PTE_FLAGS w / 2) + 1 := by
      unfold Present at hw
      unfold PTE_FLAGS PGSIZE
      omega
    have h := Nat.two_pow_add_eq_or_of_lt (show 1 < 2 ^ 1 by norm_num) (PTE_FLAGS w / 2)
    rw [hodd, h, Nat.or_assoc]
    rfl
  rw [mapEntry_assoc, hor, entry_eq hv.phys.1 (flags_lt w)]
  have h := hv.phys.1
  unfold PTE_FLAGS PGSIZE at *
  omega

theorem Copied.copyOf {sz : ℕ} (hc : Copied img m' p d (npages sz)) (hsz : sz ≤ KERNBASE)
    (hpr : ∀ k < npages sz, Present (pte m p k)) (hp' : Pool img m' L' (space m' d + space m' p))
    (hspace : space m' p = space m p) (hpte : pte m' p = pte m p)
    (hsame : ∀ k < npages sz, m'.page (pageOf (pte m p k)) = m.page (pageOf (pte m p k))) :
    CopyOf img m m' p d sz := by
  have hU := npages_le_UPAGES hsz
  have hin : ∀ k < npages sz, Present (pte m' d k) := by
    intro k hk
    obtain ⟨v, -, hd, -⟩ := hc.copy k hk
    rw [hd]
    exact present_mapEntry _ _
  refine ⟨fun k hk => ?_, fun k hk => ?_, fun k hk => ?_, fun j hj k hk he => ?_, fun v hv => ?_,
    hc.kernel⟩
  · rw [← lt_npages]
    exact ⟨fun h => not_le.mp fun hle => hc.rest k hle hk h, hin k⟩
  · obtain ⟨v, hv, hd, hpage⟩ := hc.copy k hk
    rw [hd, (hv.map_entry (flags_lt _)).1, hpage, hpte, hsame k hk]
  · obtain ⟨v, hv, hd, -⟩ := hc.copy k hk
    rw [hd, hpte, flags_mapEntry hv (hpr k hk)]
  · by_contra hne
    exact page_ne_of_ne hp'.left (by omega) (by omega) (hin j hj) (hin k hk) hne he
  · rw [← hspace]
    exact Multiset.disjoint_left.mp (Multiset.nodup_add.mp hp'.nodup_held).2.2 hv

/-- **`copyuvm` copies faithfully and in isolation.** With the result 0 all pages are back on the
free list, of which there were too few: `kalloc` fails when the list is empty, so its length says at
which page or page table. The address space of the parent is as before in any case. -/
theorem copyuvm_copies {sz : ℕ} (hp : Pool img m L (space m p)) (hsz : sz ≤ KERNBASE)
    (hpr : ∀ k < npages sz, Present (pte m p k)) :
    ∃ d m' L', copyuvm img p sz m = .ok (d, m') ∧ Free m' L' ∧
      (∀ v ∈ space m p, m'.page v = m.page v) ∧ pde m' p = pde m p ∧ pte m' p = pte m p ∧
      if d = 0 then (L' : Multiset ℕ) = L ∧ L.length ≤ 65 + 2 * npages sz
      else CopyOf img m m' p d sz ∧ (L' : Multiset ℕ) + space m' d = L ∧ Isolated m' p d := by
  have hp0 : Pool img m L (0 + space m p) := by rwa [zero_add]
  -- what holds of the parent when all that has moved came from the free list
  have hparent : ∀ {m' : Mem} {L' : List ℕ} {X : Multiset ℕ}, Moved m L 0 m' L' X →
      (∀ v ∈ space m p, m'.page v = m.page v) ∧ pde m' p = pde m p ∧ pte m' p = pte m p := by
    intro m' L' X hmv
    refine ⟨fun v hv => hp0.frame hmv hv, ?_⟩
    rw [space_eq, ← add_assoc] at hp0
    exact hp0.left.view hmv
  have hback : ∀ {m' : Mem} {L' : List ℕ}, Moved m L 0 m' L' 0 →
      L.length ≤ 65 + 2 * npages sz → copyuvm img p sz m = .ok (0, m') →
      ∃ d m' L', copyuvm img p sz m = .ok (d, m') ∧ Free m' L' ∧
        (∀ v ∈ space m p, m'.page v = m.page v) ∧ pde m' p = pde m p ∧ pte m' p = pte m p ∧
        if d = 0 then (L' : Multiset ℕ) = L ∧ L.length ≤ 65 + 2 * npages sz
        else CopyOf img m m' p d sz ∧ (L' : Multiset ℕ) + space m' d = L ∧ Isolated m' p d := by
    intro m' L' hmv hlen hrun
    obtain ⟨h1, h2, h3⟩ := hparent hmv
    have hsame := hmv.same
    rw [add_zero, add_zero] at hsame
    exact ⟨0, m', L', hrun, hmv.chain, h1, h2, h3, (if_pos rfl).mpr ⟨hsame, hlen⟩⟩
  rcases setupkvm_spec hp with ⟨m₁, L₁, hrun, hmv, hlen⟩ | ⟨d, m₁, L₁, hrun, hd0, hnew⟩
  · refine hback hmv (by omega) ?_
    unfold copyuvm
    rw [bind_eq hrun, if_pos rfl]
    rfl
  have hmv1 := hnew.moved
  rw [← hnew.space_eq] at hmv1
  obtain ⟨hkeep1, hpde1, hpte1⟩ := hparent hmv1
  have hspace1 : space m₁ p = space m p := space_frame hkeep1
  have hp1 := hp0.moved_add hmv1
  rw [← hspace1] at hp1
  have hc1 : Copied img m₁ p d 0 := by
    refine ⟨fun j hj => absurd hj (Nat.not_lt_zero j), fun j _ hj => ?_, hnew.kernel⟩
    rw [hnew.user j hj]
    exact not_present_zero
  obtain ⟨r, m₂, L₂, hloop, hmv2, hc2, hlen2⟩ := copyLoop_spec (K := npages sz)
    (n := npages sz) (k := 0) (by rwa [hpte1]) (npages_le_UPAGES hsz) (Nat.zero_add _) hc1 hp1
  rw [Nat.zero_mul] at hloop
  have hloop' : copyLoop img p d ((sz + PGSIZE - 1) / PGSIZE) 0 m₁ = .ok (r, m₂) := hloop
  have hmv := hmv1.trans hmv2
  cases r with
  | false =>
    obtain ⟨m', L', hfree, hmv3⟩ := freevm_spec (hp1.left.moved hmv2)
    have hlen1 := hnew.length_le
    have hlen2 := hlen2 rfl
    refine hback (hmv.trans hmv3) (by omega) ?_
    unfold copyuvm
    rw [bind_eq hrun, if_neg hd0, bind_eq hloop', if_neg Bool.false_ne_true, bind_eq hfree]
    rfl
  | true =>
    obtain ⟨hkeep, hpde, hpte⟩ := hparent hmv
    have hspace : space m₂ p = space m p := space_frame hkeep
    have hp2 := hp0.moved_add hmv
    rw [← hspace] at hp2
    have hrun' : copyuvm img p sz m = .ok (d, m₂) := by
      unfold copyuvm
      rw [bind_eq hrun, if_neg hd0, bind_eq hloop', if_pos rfl]
      rfl
    refine ⟨d, m₂, L₂, hrun', hmv.chain, hkeep, hpde, hpte, ?_⟩
    rw [if_neg hd0]
    refine ⟨(hc2 rfl).copyOf hsz hpr hp2 hspace hpte fun k hk => hkeep _ ?_, ?_, ?_⟩
    · rw [space_eq]
      exact Multiset.mem_add.mpr (.inr (mem_between (Nat.zero_le k)
        (hk.trans_le (npages_le_UPAGES hsz)) (hpr k hk)))
    · have hsame := hmv.same
      rwa [add_zero] at hsame
    · rw [add_comm] at hp2
      exact isolated_of_pool hp2

/-- A process of one page, with eighty free pages. -/
theorem copyuvm_onePage :
    ∃ m, Exact m 0x80300000 PGSIZE ∧ ∃ d m', copyuvm smallImage 0x80300000 PGSIZE m = .ok (d, m') ∧
      d ≠ 0 ∧ CopyOf smallImage m m' 0x80300000 d PGSIZE ∧ Isolated m' 0x80300000 d := by
  have hp0 : Pool smallImage freeMem (pagesFrom 80 0x80200000)
      ({0x80300000} + {0x80301000} + {0x80302000}) := by
    refine ⟨freeMem_pool.chain, ?_, ?_⟩
    · decide +kernel
    · decide +kernel
  obtain ⟨hp, hx⟩ := mapFirst_spec hp0 freeMem_zero
  obtain ⟨d, m', L', hrun, -, -, -, -, hres⟩ := copyuvm_copies hp (by decide) fun k hk =>
    (hx k (hk.trans (by decide))).mpr (lt_npages.mp hk)
  have hd : d ≠ 0 := by
    rintro rfl
    rw [if_pos rfl] at hres
    exact absurd hres.2 (by decide)
  rw [if_neg hd] at hres
  exact ⟨_, hx, d, m', hrun, hd, hres.1, hres.2.2⟩

end Xv6.Vm
