import Xv6.Vm.ArgStack
import Xv6.Vm.KernelMap

/-!
# The image of a program

What `exec` makes of the contents of a file, whatever they are.

1. `Contents`: the bytes of the segments that are loaded so far are those of the file, and the
   others are zero. One more segment keeps it if it is apart from the ones before
   (`Contents.segment`), so it holds of all segments (`Contents.loads`).
2. The panics of `mappages`, `loaduvm` and `clearpteu` are not reached (`execWith_raises`), and
   `loaduvm` writes to the new address space only (`LoaduvmCall.inside`).
3. What `exec` reads at the null pointer does not matter unless an argument misses the kernel's
   part (`execWith_eq`).
-/

namespace Xv6.Vm

open StateExcept

variable {img : KernelImage} {m m' : Mem} {L L' : List ℕ} {d sz sz' : ℕ} {c : List UInt8}

/-! ## Bytes of the file -/

/-- `readi` on a regular file with the contents `c`: nothing is read from beyond the end, or if the
end of the range overflows. -/
def fileOf (c : List UInt8) : ReadFile := fun off n =>
  if c.length < off ∨ 2 ^ 32 ≤ off + n then [] else (c.drop off).take n

variable {n : ℕ}

theorem fileOf_full {off : ℕ} (hn : 0 < n) (h : n ≤ (fileOf c off n).length) :
    off + n ≤ c.length ∧ off + n < 2 ^ 32 ∧ fileOf c off n = (c.drop off).take n := by
  unfold fileOf at h ⊢
  by_cases hout : c.length < off ∨ 2 ^ 32 ≤ off + n
  · rw [if_pos hout, List.length_nil] at h
    omega
  · rw [if_neg hout, List.length_take, List.length_drop] at h
    rw [if_neg hout]
    exact ⟨by omega, by omega, rfl⟩

theorem fullRead_offset {offset : ℕ} (hoff : offset < 2 ^ 32)
    (hfull : ∀ i < n, i % PGSIZE = 0 → FullRead (fileOf c) offset n i) (j : ℕ)
    (hj : j * PGSIZE < n) : offset + j * PGSIZE < 2 ^ 32 := by
  induction j with
  | zero => omega
  | succ j ih =>
    rw [Nat.succ_mul] at hj ⊢
    have hlt : j * PGSIZE < n := by omega
    have hread := hfull (j * PGSIZE) hlt (Nat.mul_mod_left ..)
    unfold FullRead at hread
    rw [Nat.mod_eq_of_lt (ih hlt), min_eq_right (by omega)] at hread
    have hend := (fileOf_full (by decide) hread).2.1
    omega

variable {x : ℕ}

theorem segByte_fileOf {addr offset : ℕ} (hoff : offset < 2 ^ 32)
    (hfull : ∀ i < n, i % PGSIZE = 0 → FullRead (fileOf c) offset n i) (h1 : addr ≤ x)
    (h2 : x < addr + n) :
    getElem? c (offset + (x - addr)) = some (segByte (fileOf c) addr offset n x) := by
  set i := (x - addr) / PGSIZE * PGSIZE with hi
  have hil : i ≤ x - addr ∧ x - addr < i + PGSIZE := by
    unfold PGSIZE at *
    omega
  have hlt : i < n := by omega
  have hread := hfull i hlt (Nat.mul_mod_left ..)
  have hsmall := fullRead_offset hoff hfull ((x - addr) / PGSIZE) hlt
  unfold FullRead at hread
  rw [Nat.mod_eq_of_lt hsmall] at hread
  obtain ⟨hlen, -, hbytes⟩ := fileOf_full (by unfold PGSIZE at *; omega) hread
  unfold segByte
  dsimp only
  rw [← hi, Nat.mod_eq_of_lt hsmall, hbytes, List.getD_eq_getElem?_getD,
    List.getElem?_take_of_lt (by omega), List.getElem?_drop,
    show offset + i + (x - addr - i) = offset + (x - addr) by omega,
    List.getElem?_eq_getElem (by omega)]
  rfl

/-! ## The segments -/

def Apart (p q : Proghdr) : Prop :=
  ∀ x, ¬ ((p.vaddr ≤ x ∧ x < p.vaddr + p.memsz) ∧ q.vaddr ≤ x ∧ x < q.vaddr + q.memsz)

def InFile (ph : Proghdr) (x : ℕ) : Prop := ph.vaddr ≤ x ∧ x < ph.vaddr + ph.filesz

structure Contents (c : List UInt8) (m : Mem) (d sz : ℕ) (phs : List Proghdr) : Prop where
  fits : ∀ ph ∈ phs, ph.filesz ≤ ph.memsz ∧ ph.vaddr + ph.memsz ≤ sz
  file : ∀ ph ∈ phs, ∀ x, InFile ph x → getElem? c (ph.off + (x - ph.vaddr)) = some (userByte m d x)
  zero : ∀ x < npages sz * PGSIZE, (∀ ph ∈ phs, ¬ InFile ph x) → userByte m d x = 0

theorem lt_npages_mul (h : sz ≤ sz') (hx : x < sz) : x < npages sz' * PGSIZE := by
  have := le_roundup sz'
  rw [roundup_eq] at this
  omega

variable {ph : Proghdr}

theorem Contents.segment {phs : List Proghdr} (h : Contents c m d sz phs)
    (hseg : SegLoaded (fileOf c) d m sz ph m' sz') (hoff : ph.off < 2 ^ 32)
    (hapart : ∀ q ∈ phs, Apart q ph) : Contents c m' d sz' (phs ++ [ph]) := by
  have hsize := hseg.size
  have hmono : npages sz * PGSIZE ≤ npages sz' * PGSIZE :=
    Nat.mul_le_mul_right _ (npages_mono (by omega))
  refine ⟨fun q hq => ?_, fun q hq x hx => ?_, fun x hx hout => ?_⟩
  · rcases List.mem_append.mp hq with hq | hq
    · have := h.fits q hq
      omega
    · rw [List.mem_singleton.mp hq]
      exact ⟨hseg.fits, by omega⟩
  · rcases List.mem_append.mp hq with hq | hq
    · -- the new segment is elsewhere
      have hfits := h.fits q hq
      have hxs : x < npages sz * PGSIZE := lt_npages_mul le_rfl (by unfold InFile at hx; omega)
      have hne : ¬ (ph.vaddr ≤ x ∧ x < ph.vaddr + ph.filesz) := fun hin =>
        hapart q hq x ⟨⟨hx.1, by have := hx.2; omega⟩, hin.1, hin.2.trans_le (by
          have := hseg.fits; omega)⟩
      rw [hseg.byte x (hxs.trans_le hmono), if_neg hne, if_pos hxs]
      exact h.file q hq x hx
    · rw [List.mem_singleton.mp hq] at hx ⊢
      have hxs : x < npages sz' * PGSIZE := lt_npages_mul le_rfl (by
        have := hseg.fits
        unfold InFile at hx
        omega)
      rw [hseg.byte x hxs, if_pos ⟨hx.1, hx.2⟩]
      exact segByte_fileOf hoff hseg.full hx.1 hx.2
  · have hne : ¬ (ph.vaddr ≤ x ∧ x < ph.vaddr + ph.filesz) :=
      hout ph (List.mem_append.mpr (.inr List.mem_cons_self))
    rw [hseg.byte x hx, if_neg hne]
    by_cases hold : x < npages sz * PGSIZE
    · rw [if_pos hold]
      exact h.zero x hold fun q hq => hout q (List.mem_append.mpr (.inl hq))
    · rw [if_neg hold]

theorem Contents.loads {done phs : List Proghdr} (hloads : Loads (fileOf c) d phs m sz m' sz')
    (h : Contents c m d sz done) (hoff : ∀ ph ∈ phs, ph.off < 2 ^ 32)
    (hapart : (done ++ phs).Pairwise Apart) : Contents c m' d sz' (done ++ phs) := by
  induction hloads generalizing done with
  | nil => rwa [List.append_nil]
  | @cons ph phs m m1 m' sz sz1 sz' hseg _ ih =>
    have happ : done ++ ph :: phs = done ++ [ph] ++ phs := by
      rw [List.append_assoc, List.singleton_append]
    have hone := h.segment hseg (hoff ph List.mem_cons_self) fun q hq =>
      (List.pairwise_append.mp hapart).2.2 q hq ph List.mem_cons_self
    rw [happ] at hapart ⊢
    exact ih hone (fun q hq => hoff q (List.mem_cons_of_mem _ hq)) hapart

theorem off_lt_of_mem_headers {file : ReadFile} {off : ℕ}
    (h : ph ∈ headers file n off) : ph.off < 2 ^ 32 := by
  induction n generalizing off with
  | zero => cases h
  | succ n ih =>
    rcases List.mem_cons.mp h with rfl | h
    · exact Block.word_lt ..
    · exact ih h

/-! ## Panics -/

def LoadPanic : Panic → Prop
  | .loaduvmExist | .loaduvmAlign | .remap | .clearpteu => True
  | _ => False

section Panics

variable {null : MemM ℕ}

theorem kfree_raises (v : ℕ) : Raises (¬ LoadPanic ·) (kfree img v) := by
  intro m e h
  unfold kfree at h
  by_cases hv : IsPage img v
  · rw [dif_pos hv] at h
    cases h
  · rw [dif_neg hv] at h
    cases h
    exact id

theorem copyTo_raises (v off : ℕ) (bytes : List UInt8) :
    Raises (¬ LoadPanic ·) (copyTo img v off bytes) := by
  intro m e h
  unfold copyTo at h
  by_cases hv : IsPage img v
  · rw [if_pos hv] at h
    cases h
  · rw [if_neg hv] at h
    cases h
    exact id

theorem walkpgdir_raises (d va : ℕ) : Raises (¬ LoadPanic ·) (walkpgdir img d va false) := by
  refine .bind .get fun _ => .ite (.pure _) ?_
  rw [if_neg Bool.false_ne_true]
  exact .pure _

theorem deallocLoop_raises (d oldsz fuel a : ℕ) :
    Raises (¬ LoadPanic ·) (deallocLoop img d oldsz fuel a) := by
  induction fuel generalizing a with
  | zero => exact .throw id
  | succ fuel ih =>
    refine .ite (.bind (walkpgdir_raises d a) fun o => ?_) (.pure _)
    cases o with
    | none => exact ih _
    | some q =>
      exact .bind .get fun _ => .ite
        (.ite (.throw id) (.bind (kfree_raises _) fun _ => .bind (.modify _) fun _ => ih _)) (ih _)

theorem freeTables_raises (d : ℕ) (is : List ℕ) : Raises (¬ LoadPanic ·) (freeTables img d is) := by
  induction is with
  | nil => exact .pure _
  | cons i is ih => exact .bind .get fun _ => .ite (.bind (kfree_raises _) fun _ => ih) ih

theorem freevm_raises (d : ℕ) : Raises (¬ LoadPanic ·) (freevm img d) := by
  have hdealloc : Raises (¬ LoadPanic ·) (deallocuvm img d KERNBASE 0) :=
    .ite (.pure _) (.bind (deallocLoop_raises d _ _ _) fun _ => .pure _)
  exact .ite (.throw id)
    (.bind hdealloc fun _ => .bind (freeTables_raises d _) fun _ => kfree_raises _)

theorem uva2ka_raises (hnull : Raises (¬ LoadPanic ·) null) (d va : ℕ) :
    Raises (¬ LoadPanic ·) (uva2ka img null d va) := by
  have hload : Raises (¬ LoadPanic ·) (loadPte img null d va) := by
    refine .bind (walkpgdir_raises d va) fun o => ?_
    cases o with
    | none => exact hnull
    | some q => exact .bind .get fun _ => .pure _
  exact .bind hload fun _ => .ite (.pure _) (.ite (.pure _) (.pure _))

theorem copyout_raises (hnull : Raises (¬ LoadPanic ·) null) (d fuel va : ℕ) (bytes : List UInt8) :
    Raises (¬ LoadPanic ·) (copyout img null d fuel va bytes) := by
  induction fuel generalizing va bytes with
  | zero => exact .pure _
  | succ fuel ih =>
    exact .ite (.pure _) (.bind (uva2ka_raises hnull d _) fun _ =>
      .ite (.pure _) (.bind (copyTo_raises _ _ _) fun _ => ih _ _))

theorem pushStack_raises (hnull : Raises (¬ LoadPanic ·) null) (d sz : ℕ)
    (argv : List (List UInt8)) : Raises (¬ LoadPanic ·) (pushStack img null d argv sz) := by
  have hargs : ∀ (args : List (List UInt8)) (sp : ℕ) (ustack : List ℕ),
      Raises (¬ LoadPanic ·) (pushArgs img null d args sp ustack) := by
    intro args
    induction args with
    | nil => exact fun _ _ => .pure _
    | cons a args ih =>
      exact fun _ _ => .ite (.pure _) (.bind (copyout_raises hnull d _ _ _) fun _ =>
        .ite (ih _ _) (.pure _))
  refine .bind (hargs argv sz []) fun o => ?_
  cases o with
  | none => exact .pure _
  | some q => exact .bind (copyout_raises hnull d _ _ _) fun _ => .ite (.pure _) (.pure _)

theorem makeStack_raises (hnull : Raises (¬ LoadPanic ·) null) (argv : List (List UInt8))
    (h : Image img m L d sz) : ∀ e, makeStack img null d sz argv m = .error e → ¬ LoadPanic e := by
  obtain ⟨o, m1, L', halloc, -⟩ := allocStack_spec h
  refine Raises.bind_left halloc ?_
  cases o with
  | none => exact Raises.bind (freevm_raises d) (fun _ => .pure _) m1
  | some sz' =>
    refine Raises.bind (pushStack_raises hnull d sz' argv) (fun o => ?_) m1
    cases o with
    | none => exact .bind (freevm_raises d) fun _ => .pure _
    | some sp => exact .pure _

theorem onMem_raises {α : Type} {E : Panic → Prop} {f : MemM α} {s : Kernel}
    (h : ∀ e, f s.mem = .error e → E e) : ∀ e, onMem f s = .error e → E e := by
  intro e he
  unfold onMem at he
  cases hf : f s.mem with
  | ok q =>
    rw [hf] at he
    cases he
  | error e' =>
    rw [hf] at he
    obtain rfl := Except.error.inj he
    exact h _ hf

theorem execWith_raises {s : Kernel} {X : Multiset ℕ} {p : ℕ} (path : List UInt8)
    (file : Option (ℕ × ReadFile)) (argv : List (List UInt8))
    (hnull : Raises (¬ LoadPanic ·) null) (hp : Pool img s.mem L X) :
    ∀ e, execWith img null p path file argv s = .error e → ¬ LoadPanic e := by
  refine Raises.bind_left rfl ?_
  cases file with
  | none => exact fun e he => nomatch he
  | some f =>
    obtain ⟨ip, file⟩ := f
    obtain ⟨o, m1, L1, hload, -, hgood⟩ := loadProgram_spec file hp
    refine Raises.bind_left rfl (Raises.bind_left rfl (Raises.bind_left (onMem_eq hload) ?_))
    cases o with
    | none => exact fun e he => nomatch he
    | some q =>
      obtain ⟨d, sz⟩ := q
      obtain ⟨-, -, himg, -⟩ := hgood d sz rfl
      refine Raises.bind_left rfl (Raises.bind_left rfl
        (Raises.bind_at (onMem_raises (makeStack_raises hnull argv himg)) fun o => ?_))
      cases o with
      | none => exact .pure _
      | some q =>
        exact .bind (.modify _) fun _ => .bind .get fun t => .bind (.modify _) fun _ =>
          .bind (fun u => onMem_raises (freevm_raises _ u.mem)) fun _ => .pure _

theorem loadNull_raises (cur : ℕ) : Raises (¬ LoadPanic ·) (loadNull img cur) := by
  refine .bind (walkpgdir_raises cur 0) fun o => ?_
  cases o with
  | none => exact .throw id
  | some q => exact .bind .get fun _ => .ite (.pure _) (.throw id)

end Panics

/-! ## What `loaduvm` writes -/

/-- In memory `m₂`, `exec` calls `loaduvm` for the header `ph`: it is the `i`-th one, the ones
before it have been loaded, it has passed the checks, and the program has grown. -/
inductive LoaduvmCall (img : KernelImage) (file : ReadFile) (m : Mem) : ℕ → Proghdr → Mem → Prop
  | call {d i sz sz' : ℕ} {m₀ m₁ m₂ : Mem} {hdr bytes : List UInt8} {ph : Proghdr}
      (hhdr : hdr = file 0 ELFHDRSZ) (hlen : hdr.length = ELFHDRSZ)
      (hmagic : (ofBytes hdr).word 0 = ELF_MAGIC) (hkvm : setupkvm img m = .ok (d, m₀))
      (hd : d ≠ 0) (hi : i < (ofBytes hdr).half 22)
      (hloop : loadSegments img file d i ((ofBytes hdr).word 7) 0 m₀ = .ok (some sz, m₁))
      (hbytes : bytes = file (((ofBytes hdr).word 7 + i * PROGHDRSZ) % 2 ^ 32) PROGHDRSZ)
      (hread : bytes.length = PROGHDRSZ) (hph : ph = proghdr bytes)
      (htype : ph.type = ELF_PROG_LOAD) (hmem : ¬ ph.memsz < ph.filesz)
      (hsum : ¬ (ph.vaddr + ph.memsz) % 2 ^ 32 < ph.vaddr)
      (halloc : allocuvm img d sz ((ph.vaddr + ph.memsz) % 2 ^ 32) m₁ = .ok (sz', m₂))
      (hsz : sz' ≠ 0) (halign : ph.vaddr % PGSIZE = 0) : LoaduvmCall img file m d ph m₂

variable {X : Multiset ℕ}

theorem LoaduvmCall.inside {file : ReadFile} {m2 : Mem}
    (hp : Pool img m L X) (h : LoaduvmCall img file m d ph m2) :
    ∃ r m3, loaduvm img file d ph.vaddr ph.off ph.filesz m2 = .ok (r, m3) ∧
      ∀ v, m3.page v ≠ m2.page v → v ∈ L ∧
        ∃ k < UPAGES, Present (pte m2 d k) ∧ pageOf (pte m2 d k) = v := by
  obtain ⟨-, -, -, hkvm, hd, -, hloop, -, -, hph, -, hmem, hsum, halloc, hsz, halign⟩ := h
  rename_i i sz sz' m0 m1 hdr bytes
  rcases setupkvm_spec hp with ⟨m', L', hrun, -⟩ | ⟨d', m₀', L0, hrun, -, hnew⟩
  · obtain ⟨rfl, -⟩ := Prod.mk.inj (Except.ok.inj (hkvm.symm.trans hrun))
    exact absurd rfl hd
  obtain ⟨rfl, rfl⟩ := Prod.mk.inj (Except.ok.inj (hkvm.symm.trans hrun))
  have hI := Image.of_newSpace (hp.mono (Multiset.zero_le X)) hnew
  have hmv0 := hnew.moved
  rw [← hnew.space_eq] at hmv0
  obtain ⟨o, m', L1, hrun1, hmv1, himg1⟩ := loadSegments_spec file i ((ofBytes hdr).word 7) hI
  obtain ⟨rfl, rfl⟩ := Prod.mk.inj (Except.ok.inj (hloop.symm.trans hrun1))
  obtain ⟨r, m'', L2, hrun2, hmv2, himg2, -⟩ :=
    (himg1 sz rfl).1.allocuvm ((ph.vaddr + ph.memsz) % 2 ^ 32)
  obtain ⟨rfl, rfl⟩ := Prod.mk.inj (Except.ok.inj (halloc.symm.trans hrun2))
  obtain ⟨hmax, hI2, -⟩ := himg2 hsz
  have hle : ph.vaddr + ph.filesz ≤ sz' := by
    obtain ⟨hv, hm⟩ := proghdr_lt bytes
    rw [← hph] at hv hm
    omega
  obtain ⟨hi, b, m3, hload, hst, hhi, -⟩ := hI2.loaduvm file ph.off halign hle
  refine ⟨b, m3, hload, fun v hv => ?_⟩
  have hmem : v ∈ between (ph.vaddr / PGSIZE) (npages hi) (pte m2 d) := by
    by_contra hnot
    exact hv (hst.frame v hnot)
  obtain ⟨k, -, hk, hpr, rfl⟩ := exists_of_mem_between hmem
  have hkU : k < UPAGES := by omega
  refine ⟨?_, k, hkU, hpr, rfl⟩
  -- all pages of the new address space come from the free list
  have hsame := (hmv0.trans (hmv1.trans hmv2)).same
  rw [add_zero, space_eq] at hsame
  have hin := mem_between (Nat.zero_le k) hkU hpr
  exact Multiset.mem_coe.mp (hsame ▸ Multiset.mem_add.mpr (.inr (Multiset.mem_add.mpr (.inr hin))))

/-! ## Loads through the null pointer -/

section Null

variable (null : MemM ℕ)

theorem copyout_agrees (d fuel va : ℕ) (bytes : List UInt8) :
    Agrees (copyout img (throw .null) d fuel va bytes) (copyout img null d fuel va bytes) := by
  have hload : ∀ va, Agrees (loadPte img (throw .null) d va) (loadPte img null d va) := by
    refine fun va => .bind (.refl _) fun o => ?_
    cases o with
    | none => exact .throw _ _
    | some q => exact .refl _
  induction fuel generalizing va bytes with
  | zero => exact .refl _
  | succ fuel ih =>
    exact .ite (.refl _) (.bind (.bind (hload _) fun _ => .refl _) fun _ =>
      .ite (.refl _) (.bind (.refl _) fun _ => ih _ _))

theorem pushArgs_agrees (d : ℕ) (args : List (List UInt8)) (sp : ℕ) (ustack : List ℕ) :
    Agrees (pushArgs img (throw .null) d args sp ustack) (pushArgs img null d args sp ustack) := by
  induction args generalizing sp ustack with
  | nil => exact .refl _
  | cons a args ih =>
    exact .ite (.refl _) (.bind (copyout_agrees null d _ _ _) fun _ => .ite (ih _ _) (.refl _))

theorem pushStack_agrees (d : ℕ) (argv : List (List UInt8)) (sz : ℕ) :
    Agrees (pushStack img (throw .null) d argv sz) (pushStack img null d argv sz) := by
  refine .bind (pushArgs_agrees null d argv sz []) fun o => ?_
  cases o with
  | none => exact .refl _
  | some q => exact .bind (copyout_agrees null d _ _ _) fun _ => .refl _

end Null

theorem argsSafe_of_short {args : List (List UInt8)} (sp sz : ℕ)
    (hshort : ∀ a ∈ args, a.length + 1 ≤ 0x2000000) : ArgsSafe sz sp args := by
  induction args generalizing sp with
  | nil => trivial
  | cons a args ih =>
    have hal := hshort a List.mem_cons_self
    refine ⟨fun hm => ?_, fun _ => ih _ fun b hb => hshort b (List.mem_cons_of_mem _ hb)⟩
    have := hm.1
    omega

theorem pushArgs_safe {args : List (List UInt8)} {sp : ℕ} (ustack : List ℕ)
    (h : Stacked img m L d sz) (hlow : sz - PGSIZE ≤ sp) (hsp : sp ≤ sz)
    (hsmall : ∀ a ∈ args, a.length + 1 ≤ KERNBASE)
    (hsafe : ArgsSafe sz sp (args.take (MAXARG - ustack.length))) :
    ∃ o m', pushArgs img (throw .null) d args sp ustack m = .ok (o, m') ∧
      ∀ sp' us, o = some (sp', us) → Stacked img m' L d sz ∧ sz - PGSIZE ≤ sp' ∧ sp' ≤ sz ∧
        us.length ≤ max MAXARG ustack.length := by
  induction args generalizing m sp ustack with
  | nil =>
    refine ⟨_, m, rfl, fun sp' us hsome => ?_⟩
    cases hsome
    exact ⟨h, hlow, hsp, le_max_right _ _⟩
  | cons a args ih =>
    by_cases hus : MAXARG ≤ ustack.length
    · refine ⟨none, m, ?_, nofun⟩
      unfold pushArgs
      rw [if_pos hus]
      rfl
    have hal := hsmall a List.mem_cons_self
    have hbl : (a ++ [0]).length = a.length + 1 := by
      rw [List.length_append, List.length_singleton]
    obtain ⟨n, hn⟩ : ∃ n, MAXARG - ustack.length = n + 1 :=
      ⟨_, (Nat.sub_add_cancel (by omega)).symm⟩
    rw [hn, List.take_succ_cons] at hsafe
    rcases h.push_cases (a ++ [0])
        (List.append_ne_nil_of_right_ne_nil _ (List.cons_ne_nil _ _)) hlow hsp (by omega) with
      ⟨hle, hfit, hend, -, m1, hcopy, hst⟩ | ⟨-, -, m1, hcopy, -⟩ | ⟨-, hm, -⟩
    · rw [pushArgs_cons (not_le.mp hus) hcopy, if_pos rfl]
      rw [hbl] at hle hfit hend hst
      have hleft : MAXARG - (ustack ++ [pushed sp (a.length + 1)]).length = n := by
        rw [List.length_append, List.length_singleton]
        omega
      obtain ⟨o, m', hrun, hres⟩ := ih (ustack ++ [pushed sp (a.length + 1)])
        (h.stored (h.npages_le hend) hst) hfit (by omega)
        (fun b hb => hsmall b (List.mem_cons_of_mem _ hb))
        (by rw [hleft]; exact hsafe.2 ⟨hle, hfit⟩)
      refine ⟨o, m', hrun, fun sp' us hsome => ?_⟩
      obtain ⟨h1, h2, h3, h4⟩ := hres sp' us hsome
      rw [List.length_append, List.length_singleton] at h4
      exact ⟨h1, h2, h3, by omega⟩
    · rw [pushArgs_cons (not_le.mp hus) hcopy, if_neg Bool.false_ne_true]
      exact ⟨none, m1, rfl, nofun⟩
    · rw [hbl] at hm
      exact absurd hm hsafe.1

variable {argv : List (List UInt8)}

theorem pushStack_eq (null : MemM ℕ) (h : Stacked img m L d sz)
    (hsmall : ∀ a ∈ argv, a.length + 1 ≤ KERNBASE) (hsafe : ArgsSafe sz sz (argv.take MAXARG)) :
    pushStack img null d argv sz m = pushStack img (pure 0) d argv sz m := by
  have hok : ∃ r, pushStack img (throw .null) d argv sz m = .ok r := by
    obtain ⟨o, m1, hrun, hres⟩ := pushArgs_safe [] h (Nat.sub_le _ _) le_rfl hsmall hsafe
    unfold pushStack
    rw [bind_eq hrun]
    cases o with
    | none => exact ⟨_, rfl⟩
    | some q =>
      obtain ⟨sp, us⟩ := q
      obtain ⟨h1, hlow, hsp, hus⟩ := hres sp us rfl
      have h2 := h.two
      have hlt := h.lt
      rw [List.length_nil, max_eq_left (Nat.zero_le _)] at hus
      have hend : framePtr sp us.length + (frame sp us).length ≤ sz := by
        rw [length_frame]
        unfold framePtr MAXARG KERNBASE PGSIZE at *
        omega
      obtain ⟨r, m2, hcopy, -⟩ := h1.inside hend
      dsimp only
      rw [bind_eq hcopy]
      cases r with
      | false => exact ⟨_, rfl⟩
      | true => exact ⟨_, rfl⟩
  obtain ⟨r, hr⟩ := hok
  rw [pushStack_agrees null d argv sz m r hr, pushStack_agrees (pure 0) d argv sz m r hr]

theorem execWith_eq {s : Kernel} (null : MemM ℕ) (p : ℕ) (path : List UInt8)
    (file : Option (ℕ × ReadFile)) (hp : Pool img s.mem L X)
    (hsmall : ∀ a ∈ argv, a.length + 1 ≤ KERNBASE)
    (hsafe : ∀ ip f, file = some (ip, f) → ∀ d sz m1, Prepared img f s.mem d sz m1 →
      ArgsSafe sz sz (argv.take MAXARG)) :
    execWith img null p path file argv s = execWith img (pure 0) p path file argv s := by
  refine bind_congr_left rfl ?_
  cases file with
  | none => rfl
  | some f =>
    obtain ⟨ip, file⟩ := f
    obtain ⟨o, m1, L1, hload, -, hgood⟩ := loadProgram_spec file hp
    refine bind_congr_left rfl (bind_congr_left rfl (bind_congr_left (onMem_eq hload) ?_))
    cases o with
    | none => rfl
    | some q =>
      obtain ⟨d, sz⟩ := q
      obtain ⟨-, -, himg, -⟩ := hgood d sz rfl
      have hstack : makeStack img null d sz argv m1 = makeStack img (pure 0) d sz argv m1 := by
        obtain ⟨o, m2, L2, halloc, -, hst, -⟩ := allocStack_spec himg
        refine bind_congr_left halloc ?_
        cases o with
        | none => rfl
        | some sz' =>
          exact bind_congr_right _ (pushStack_eq null (hst sz' rfl).2.1 hsmall
            (hsafe ip file rfl d sz' m2 ⟨sz, m1, hload, halloc⟩))
      refine bind_congr_left rfl (bind_congr_left rfl (bind_congr_right _ ?_))
      unfold onMem
      dsimp only
      rw [hstack]

/-! ## The image -/

/-- The program with the file contents `c`, of size `sz` with its stack: the bytes of the file at
the addresses of the segments and zeros elsewhere, below the two pages of the stack; all pages are
present, and one of them is not accessible to user code. -/
structure ProgramImage (c : List UInt8) (m : Mem) (d sz : ℕ) : Prop where
  file : ∀ ph ∈ segments (fileOf c), ∀ x, ph.vaddr ≤ x → x < ph.vaddr + ph.filesz →
    getElem? c (ph.off + (x - ph.vaddr)) = some (userByte m d x)
  zero : ∀ x < sz - 2 * PGSIZE,
    (∀ ph ∈ segments (fileOf c), ¬ (ph.vaddr ≤ x ∧ x < ph.vaddr + ph.filesz)) →
      userByte m d x = 0
  present : ∀ k, k * PGSIZE < sz → Present (pte m d k)
  access : ∀ x < sz, UserAccess m d x ↔ ¬ (sz - 2 * PGSIZE ≤ x ∧ x < sz - PGSIZE)

theorem Stacked.userAccess_iff (h : Stacked img m L d sz) (hx : x < sz) :
    UserAccess m d x ↔ ¬ (sz - 2 * PGSIZE ≤ x ∧ x < sz - PGSIZE) := by
  have hiff : UserAccess m d x ↔ Accessible m d x := by
    unfold UserAccess translate Accessible
    constructor
    · rintro ⟨hpr, -, hu⟩
      refine ⟨?_, hu⟩
      by_contra hnot
      rw [if_neg hnot] at hpr
      cases hpr
    · rintro ⟨hpr, hu⟩
      have h7 := h.flags _ (present_pde hpr).2
      rw [if_pos hpr]
      refine ⟨rfl, ?_, hu⟩
      unfold User
      omega
  rw [hiff, h.accessible_iff]
  omega

theorem Stacked.present (h : Stacked img m L d sz) {k : ℕ} (hk : k * PGSIZE < sz) :
    Present (pte m d k) := by
  refine (h.exact k ?_).mpr hk
  have := h.lt
  unfold KERNBASE UPAGES PGSIZE at *
  omega

theorem Installed.programImage {s s' : Kernel} {p : ℕ} (hp : Pool img s.mem L X)
    (hapart : (segments (fileOf c)).Pairwise Apart) (h : Installed img s p (fileOf c) argv s') :
    ProgramImage c s'.mem (s'.proc p).pgdir (s'.proc p).sz := by
  obtain ⟨sz0, m1, m2, hload, hmake, hpage⟩ := h
  generalize (s'.proc p).pgdir = d at *
  generalize (s'.proc p).sz = sz at *
  obtain ⟨o, m₁', L1, hload', -, himg⟩ := loadProgram_spec (fileOf c) hp
  obtain ⟨rfl, rfl⟩ := Prod.mk.inj (Except.ok.inj (hload.symm.trans hload'))
  obtain ⟨-, -, hI, m0, hloads⟩ := himg _ _ rfl
  obtain ⟨hsz, -, -, L', hS, hbelow⟩ := makeStack_done hI hmake
  have hempty : Contents c m0 d 0 [] := ⟨nofun, nofun, fun x hx => by
    rw [show npages 0 = 0 from rfl, Nat.zero_mul] at hx
    omega⟩
  have hc := Contents.loads hloads hempty
    (fun ph hph => off_lt_of_mem_headers (List.mem_of_mem_filter hph)) hapart
  rw [List.nil_append] at hc
  have hpages : sz - 2 * PGSIZE = npages sz0 * PGSIZE := by rw [hsz, Nat.add_sub_cancel, roundup_eq]
  have hbyte : ∀ x < sz - 2 * PGSIZE, userByte s'.mem d x = userByte m1 d x := fun x hx => by
    rw [hS.byte_frame hpage (by omega), hbelow x hx]
  have hview := view_frame fun v hv => hpage v (by
    rw [space_eq]
    exact Multiset.mem_add.mpr (.inl hv))
  refine ⟨fun ph hph x h1 h2 => ?_, fun x hx hout => ?_, fun k hk => ?_, fun x hx => ?_⟩
  · have hfits := hc.fits ph hph
    have hx : x < npages sz0 * PGSIZE := lt_npages_mul le_rfl (by omega)
    rw [hbyte x (by omega)]
    exact hc.file ph hph x ⟨h1, h2⟩
  · rw [hbyte x hx]
    exact hc.zero x (by omega) hout
  · rw [hview.2]
    exact hS.present hk
  · rw [← hS.userAccess_iff hx]
    unfold UserAccess translate
    rw [hview.1, hview.2]

section Call

variable {s : Kernel} {Z : Multiset ℕ} {p : ℕ}

/-- **The program image.** `exec` does not reach the panics of `mappages`, `loaduvm` and
`clearpteu`; `loaduvm` writes to pages of the new address space; and if `exec` returns 0 and the
segments are apart, the new address space is the image of the program. The last part says that the
result is that of `exec` itself unless an argument misses the kernel's part, so that `exec` loads
from the null pointer. -/
theorem exec_program_image (ip : ℕ) (path : List UInt8) (argv : List (List UInt8))
    (hp : Pool img s.mem L (space s.mem (s.proc p).pgdir + Z)) :
    (∀ file e, exec img p path (some (ip, file)) argv s = .error e → ¬ LoadPanic e) ∧
    (∀ file d ph m₂, LoaduvmCall img file s.mem d ph m₂ →
      ∃ r m₃, loaduvm img file d ph.vaddr ph.off ph.filesz m₂ = .ok (r, m₃) ∧
        ∀ v, m₃.page v ≠ m₂.page v → v ∈ L ∧
          ∃ k < UPAGES, Present (pte m₂ d k) ∧ pageOf (pte m₂ d k) = v) ∧
    (∀ c s', (segments (fileOf c)).Pairwise Apart →
      execWith img (pure 0) p path (some (ip, fileOf c)) argv s = .ok (true, s') →
      ProgramImage c s'.mem (s'.proc p).pgdir (s'.proc p).sz) ∧
    ((∀ a ∈ argv, a.length + 1 ≤ KERNBASE) → ∀ file,
      (∀ d sz m₁, Prepared img file s.mem d sz m₁ → ArgsSafe sz sz (argv.take MAXARG)) →
      exec img p path (some (ip, file)) argv s =
        execWith img (pure 0) p path (some (ip, file)) argv s) := by
  refine ⟨fun file e he => ?_, fun file d ph m₂ h => h.inside hp, fun c s' hapart hrun => ?_,
    fun hsmall file hsafe => ?_⟩
  · exact execWith_raises path (some (ip, file)) argv (loadNull_raises _) hp e he
  · obtain ⟨-, ip', f, hf, hinst⟩ := (execWith_spec path argv hp).of_ok hrun
    cases hf
    exact hinst.programImage hp hapart
  · refine execWith_eq _ p path (some (ip, file)) hp hsmall ?_
    rintro ip' f ⟨⟩
    exact hsafe

end Call

/-! ## A program with two segments -/

theorem Image.card_space_le (h : Image img m L d sz) (hsz : npages sz ≤ 1024) :
    (space m d).card ≤ 66 + npages sz := by
  have htables : (Vm.tables m d).card ≤
      ({0} ∪ (Finset.Ico 512 568 ∪ Finset.Ico 1016 1024) : Finset ℕ).card := by
    refine card_pagesIn_le_of_subset fun i _ hi => ?_
    rw [Finset.mem_union, Finset.mem_union, Finset.mem_Ico, Finset.mem_Ico, Finset.mem_singleton]
    refine (h.tables i hi).imp (fun hlt => by omega) id
  have hpages : (pagesIn UPAGES (pte m d)).card ≤ (Finset.range (npages sz)).card := by
    refine card_pagesIn_le_of_subset fun k hk hpr => ?_
    rw [Finset.mem_range, lt_npages]
    exact (h.exact k hk).mp hpr
  have h65 := Finset.card_union_le {0} (Finset.Ico 512 568 ∪ Finset.Ico 1016 1024)
  have h64 := Finset.card_union_le (Finset.Ico 512 568) (Finset.Ico 1016 1024)
  rw [Nat.card_Ico, Nat.card_Ico] at h64
  rw [Finset.card_singleton] at h65
  rw [Finset.card_range, pagesIn_eq_between] at hpages
  rw [space_eq, Multiset.card_add]
  unfold dirs
  rw [Multiset.card_add, Multiset.card_singleton]
  omega

theorem Image.loadSegments_cons (h : Image img m L d sz) (file : ReadFile) (off : ℕ) {ph : Proghdr}
    (hph : proghdr (file off PROGHDRSZ) = ph) (hlen : (file off PROGHDRSZ).length = PROGHDRSZ)
    (htype : ph.type = ELF_PROG_LOAD) (hfits : ph.filesz ≤ ph.memsz) (hpage : ph.vaddr % PGSIZE = 0)
    (hpos : 0 < ph.vaddr + ph.memsz) (hlt : ph.vaddr + ph.memsz < KERNBASE)
    (hfull : ∀ i < ph.filesz, i % PGSIZE = 0 → FullRead file ph.off ph.filesz i)
    (hL : 2 * (npages (ph.vaddr + ph.memsz) - npages sz) < L.length) :
    ∃ m' L', (∀ n, loadSegments img file d (n + 1) off sz m =
        loadSegments img file d n ((off + PROGHDRSZ) % 2 ^ 32) (max sz (ph.vaddr + ph.memsz)) m') ∧
      Image img m' L' d (max sz (ph.vaddr + ph.memsz)) ∧
      Moved m L (space m d) m' L' (space m' d) := by
  have hsum : (ph.vaddr + ph.memsz) % 2 ^ 32 = ph.vaddr + ph.memsz :=
    Nat.mod_eq_of_lt (hlt.trans (by decide))
  obtain ⟨r, m1, L1, halloc, hmv, himg, hfail⟩ := h.allocuvm (ph.vaddr + ph.memsz)
  have hr : r ≠ 0 := fun h0 => by
    rcases hfail h0 hpos with hbig | hshort <;> omega
  obtain ⟨rfl, hI, -⟩ := himg hr
  obtain ⟨hi, b, m2, hload, hst, hhi, -, hdone⟩ := hI.loaduvm file ph.off hpage
    (show ph.vaddr + ph.filesz ≤ _ by omega)
  rw [hdone.mpr hfull] at hload
  refine ⟨m2, L1, fun n => ?_, hI.stored hhi hst, hmv.trans (hst.moved_space hI.pool hhi)⟩
  rw [loadSegments, hph, if_neg (not_not.mpr hlen), if_neg (not_not.mpr htype),
    if_neg (not_lt.mpr hfits), hsum, if_neg (not_lt.mpr (Nat.le_add_right ..)), bind_eq halloc,
    if_neg hr, if_neg (not_not.mpr hpage), bind_eq hload]
  rfl

/-- An ELF file with two segments: three bytes at offset 116 for address 0, with eight bytes in
memory, and two bytes at offset 119 for the next page, with six bytes in memory. -/
def twoSegElf : List UInt8 :=
  [0x7f, 0x45, 0x4c, 0x46] ++ List.replicate 24 0 ++ [52, 0, 0, 0] ++ List.replicate 12 0 ++
    [2, 0] ++ List.replicate 6 0 ++
  [1, 0, 0, 0, 116, 0, 0, 0, 0, 0, 0, 0, 0, 0, 0, 0, 3, 0, 0, 0, 8, 0, 0, 0] ++
    List.replicate 8 0 ++
  [1, 0, 0, 0, 119, 0, 0, 0, 0, 16, 0, 0, 0, 0, 0, 0, 2, 0, 0, 0, 6, 0, 0, 0] ++
    List.replicate 8 0 ++
  [7, 8, 9, 10, 11]

theorem segments_twoSegElf :
    segments (fileOf twoSegElf) = [⟨1, 116, 0, 3, 8⟩, ⟨1, 119, 4096, 2, 6⟩] := by
  decide +kernel

theorem fullRead_small {file : ReadFile} {offset : ℕ} (hn : n ≤ PGSIZE)
    (h : FullRead file offset n 0) (i : ℕ) (hi : i < n) (hmod : i % PGSIZE = 0) :
    FullRead file offset n i := by
  obtain rfl : i = 0 := by
    unfold PGSIZE at *
    omega
  exact h

theorem loadProgram_twoSegElf (hp : Pool img m L X) (hL : 80 ≤ L.length) :
    ∃ d m1 L1, loadProgram img (fileOf twoSegElf) m = .ok (some (d, 4102), m1) ∧
      Image img m1 L1 d 4102 ∧ 4 < L1.length := by
  rcases setupkvm_spec hp with ⟨_, _, _, _, hle⟩ | ⟨d, m0, L0, hkvm, hd0, hnew⟩
  · omega
  have hlen := hnew.length_le
  have hI := Image.of_newSpace (hp.mono (Multiset.zero_le X)) hnew
  have hmv0 := hnew.moved
  rw [← hnew.space_eq] at hmv0
  have hph1 : proghdr (fileOf twoSegElf 52 PROGHDRSZ) = ⟨1, 116, 0, 3, 8⟩ := by decide +kernel
  have hph2 : proghdr (fileOf twoSegElf 84 PROGHDRSZ) = ⟨1, 119, 4096, 2, 6⟩ := by decide +kernel
  obtain ⟨m1, L1, hseg1, hI1, hmv1⟩ := hI.loadSegments_cons (fileOf twoSegElf) 52 hph1
    (by decide +kernel) rfl (by decide) rfl (by decide) (by decide)
    (fullRead_small (by decide) (by unfold FullRead; decide +kernel)) (by
      have hone : 2 * (npages (0 + 8) - npages 0) = 2 := rfl
      dsimp only
      omega)
  have hfree1 := (hmv0.trans hmv1).card
  have hspace1 := hI1.card_space_le (by decide)
  rw [Multiset.card_zero] at hfree1
  obtain ⟨m2, L2, hseg2, hI2, hmv2⟩ := hI1.loadSegments_cons (fileOf twoSegElf) 84 hph2
    (by decide +kernel) rfl (by decide) rfl (by decide) (by decide)
    (fullRead_small (by decide) (by unfold FullRead; decide +kernel)) (by
      have hone : 2 * (npages (4096 + 6) - npages (max 0 (0 + 8))) = 2 := rfl
      have hpage : npages (max 0 (0 + 8)) = 1 := rfl
      dsimp only at hspace1 ⊢
      omega)
  have hfree2 := ((hmv0.trans hmv1).trans hmv2).card
  have hspace2 := hI2.card_space_le (by decide)
  rw [Multiset.card_zero] at hfree2
  refine ⟨d, m2, L2, ?_, hI2, ?_⟩
  · have hhalf : (ofBytes (fileOf twoSegElf 0 ELFHDRSZ)).half 22 = 2 := by decide +kernel
    have hword : (ofBytes (fileOf twoSegElf 0 ELFHDRSZ)).word 7 = 52 := by decide +kernel
    have hloop : loadSegments img (fileOf twoSegElf) d 2 52 0 m0 = .ok (some 4102, m2) :=
      (hseg1 1).trans (hseg2 0)
    unfold loadProgram
    rw [if_neg (by decide +kernel), if_neg (by decide +kernel), bind_eq hkvm, if_neg hd0, hhalf,
      hword]
    exact bind_eq hloop
  · have hpages : npages (max (max 0 (0 + 8)) (4096 + 6)) = 2 := rfl
    dsimp only at hspace2
    omega

theorem execWith_twoSegElf (argv : List (List UInt8)) (hmax : argv.length ≤ MAXARG)
    (hfit : argBytes argv ≤ PGSIZE) :
    Returns (execWith smallImage (pure 0) 0 [47, 97] (some (2, fileOf twoSegElf)) argv) roomyProc
      fun r _ => r = true := by
  obtain ⟨d, m1, L1, hload, hI, hL⟩ := loadProgram_twoSegElf roomyProc_pool (by decide)
  obtain ⟨o, m2, L2, halloc, -, hst, hnone⟩ := allocStack_spec hI
  refine (execWith_spec [47, 97] argv roomyProc_pool).mono fun r s' hres => ?_
  cases r with
  | true => rfl
  | false =>
    obtain ⟨m3, hmake⟩ := hres.2 2 (fileOf twoSegElf) d 4102 m1 rfl hload
    unfold makeStack at hmake
    rw [bind_eq halloc] at hmake
    cases o with
    | none =>
      rcases hnone rfl with hbig | hshort
      · exact absurd hbig (by decide)
      · omega
    | some sz =>
      obtain ⟨esp, m4, hpush⟩ := pushStack_fits argv (hst sz rfl).2.1 hmax hfit
      cases (bind_eq hpush).symm.trans hmake

/-- The bytes of both segments are at their addresses and zeros follow them; the program has an
argument. -/
theorem exec_program_image_twoSegElf :
    ∃ s', exec smallImage 0 [47, 97] (some (2, fileOf twoSegElf)) [[104, 105]] roomyProc =
        .ok (true, s') ∧
      ProgramImage twoSegElf s'.mem (s'.proc 0).pgdir (s'.proc 0).sz := by
  obtain ⟨-, -, himage, hsame⟩ := exec_program_image 2 [47, 97] [[104, 105]] roomyProc_pool
  obtain ⟨r, s', hrun, rfl⟩ := execWith_twoSegElf [[104, 105]] (by decide) (by decide)
  have hexec := hsame (by decide) (fileOf twoSegElf) fun d sz m₁ _ =>
    argsSafe_of_short _ sz (by decide)
  refine ⟨s', hexec.trans hrun, himage twoSegElf s' ?_ hrun⟩
  rw [segments_twoSegElf, List.pairwise_pair]
  intro x hx
  dsimp only at hx
  omega

end Xv6.Vm
