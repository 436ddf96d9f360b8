import Xv6.Vm.Exec

/-!
# The stack of a new program

What the program finds on its stack when `exec` has returned 0. An access through an absent page
table is taken for a failed `copyout`, as in `Vm.Exec`.

1. `copyout` that succeeds has written to accessible pages only. The page below the stack page is
   not accessible, so a push that succeeds fits into the stack page (`push_done`), whatever the
   length of the string.
2. `Placed`: the strings, one below the other. `pushArgs_done` for the loop.
3. `ArgStack`: the strings, the array of pointers to them and the frame; `argBytes` is what they
   take. `exec_arg_stack` for the whole call.
-/

namespace Xv6.Vm

open StateExcept

variable {img : KernelImage} {m m' : Mem} {L L' : List ℕ} {d sz sp : ℕ} {bytes : List UInt8}

/-! ## One push -/

namespace Stacked

theorem accessible_iff (h : Stacked img m L d sz) (x : ℕ) :
    Accessible m d x ↔ x < sz - 2 * PGSIZE ∨ sz - PGSIZE ≤ x ∧ x < sz := by
  have h2 := h.two
  by_cases hlt : x < sz
  · have hlow : x / PGSIZE * PGSIZE < sz := lt_of_le_of_lt (Nat.div_mul_le_self ..) hlt
    have hkU : x / PGSIZE < UPAGES := by
      have := h.lt
      unfold KERNBASE UPAGES PGSIZE at *
      omega
    unfold Accessible
    rw [and_iff_right ((h.exact _ hkU).mpr hlow), h.user_iff hlt]
    omega
  · refine iff_of_false ?_ (by omega)
    rintro ⟨hpr, hu⟩
    by_cases hkU : x / PGSIZE < UPAGES
    · have hlow := (h.exact _ hkU).mp hpr
      have h4 := h.aligned
      unfold PGSIZE at *
      omega
    · exact h.kernel.not_user (not_lt.mp hkU) hu

theorem push_fits_of_true (h : Stacked img m L d sz) (hb : bytes ≠ [])
    (hlow : sz - PGSIZE ≤ sp) (h4 : sp % 4 = 0)
    (hrun : copyout img (pure 0) d bytes.length (pushed sp bytes.length) bytes m =
      .ok (true, m')) : bytes.length ≤ sp - (sz - PGSIZE) := by
  obtain ⟨r, m'', hrun', -, hacc⟩ := copyout_total bytes.length bytes h.pool
    (fun k hk => h.kernel.not_user hk) (pushed_lt sp bytes.length) le_rfl
  obtain ⟨rfl, -⟩ := Prod.mk.inj (Except.ok.inj (hrun.symm.trans hrun'))
  replace hacc := hacc rfl
  have hpos := List.length_pos_iff.mpr hb
  have hal := h.aligned
  have h2 := h.two
  have hlt := h.lt
  by_contra hbig
  -- some byte is in the page below the stack page: the last one of the string, or the last one of
  -- that page; a string of 2^32 bytes is everywhere
  obtain ⟨i, hi, hg1, hg2⟩ : ∃ i < bytes.length,
      sz - 2 * PGSIZE ≤ (pushed sp bytes.length + i) % 2 ^ 32 ∧
      (pushed sp bytes.length + i) % 2 ^ 32 < sz - PGSIZE := by
    by_cases hlen : 2 ^ 32 ≤ bytes.length
    · refine ⟨(sz - PGSIZE - 1 + 2 ^ 32 - pushed sp bytes.length) % 2 ^ 32, ?_, ?_⟩
      · omega
      · have := pushed_lt sp bytes.length
        unfold KERNBASE PGSIZE at *
        omega
    by_cases hend : sp = sz - PGSIZE
    · refine ⟨bytes.length - 1, by omega, ?_⟩
      unfold pushed KERNBASE PGSIZE at *
      omega
    · refine ⟨bytes.length + (sp + 2 ^ 32 - bytes.length) % 2 ^ 32 % 4 - (sp - (sz - PGSIZE) + 1),
        ?_, ?_⟩
      · unfold PGSIZE at *
        omega
      · unfold pushed KERNBASE PGSIZE at *
        omega
  have := (h.accessible_iff _).mp (hacc i hi)
  omega

theorem push_done (h : Stacked img m L d sz) (hb : bytes ≠ []) (hlow : sz - PGSIZE ≤ sp)
    (hsp : sp ≤ sz) (h4 : sp % 4 = 0)
    (hrun : copyout img (pure 0) d bytes.length (pushed sp bytes.length) bytes m = .ok (true, m')) :
    sz - PGSIZE ≤ pushed sp bytes.length ∧
      pushed sp bytes.length + (bytes.length + 3) / 4 * 4 = sp ∧
      Stored m m' d (pushed sp bytes.length) (pushed sp bytes.length + bytes.length)
        (fun x => bytes.getD (x - pushed sp bytes.length) 0) := by
  have hfit := h.push_fits_of_true hb hlow h4 hrun
  have hal := h.aligned
  have hlt := h.lt
  have hva : sz - PGSIZE ≤ pushed sp bytes.length ∧
      pushed sp bytes.length + (bytes.length + 3) / 4 * 4 = sp := by
    unfold pushed KERNBASE PGSIZE at *
    omega
  refine ⟨hva.1, hva.2, ?_⟩
  have hfits : ∃ m'', copyout img (pure 0) d bytes.length (pushed sp bytes.length) bytes m =
      .ok (true, m'') ∧ Stored m m'' d (pushed sp bytes.length)
        (pushed sp bytes.length + bytes.length)
        (fun x => bytes.getD (x - pushed sp bytes.length) 0) :=
    h.push_fits hva.1 (by omega)
  obtain ⟨m'', hrun', hst⟩ := hfits
  obtain ⟨-, rfl⟩ := Prod.mk.inj (Except.ok.inj (hrun.symm.trans hrun'))
  exact hst

end Stacked

/-! ## The strings -/

def HasBytes (m : Mem) (d x : ℕ) (bytes : List UInt8) : Prop :=
  ∀ j < bytes.length, userByte m d (x + j) = bytes.getD j 0

def strSpace (a : List UInt8) : ℕ := (a.length + 1 + 3) / 4 * 4

def Placed (m : Mem) (d : ℕ) : ℕ → List (List UInt8) → List ℕ → Prop
  | _, [], [] => True
  | sp, a :: args, q :: ptrs =>
    q + strSpace a = sp ∧ HasBytes m d q (a ++ [0]) ∧ Placed m d q args ptrs
  | _, _, _ => False

variable {ptrs : List ℕ} {args : List (List UInt8)}

theorem Placed.congr (h : Placed m d sp args ptrs)
    (hsame : ∀ x < sp, sp ≤ x + (args.map strSpace).sum → userByte m' d x = userByte m d x) :
    Placed m' d sp args ptrs := by
  induction args generalizing sp ptrs with
  | nil => cases ptrs with
    | nil => trivial
    | cons q ptrs => exact h
  | cons a args ih => cases ptrs with
    | nil => exact h
    | cons q ptrs =>
      obtain ⟨hq, hbytes, hrest⟩ := h
      rw [List.map_cons, List.sum_cons] at hsame
      refine ⟨hq, fun j hj => ?_, ih hrest fun x hx hge => hsame x (by omega) (by omega)⟩
      have hj' : j < strSpace a := by
        rw [List.length_append, List.length_singleton] at hj
        unfold strSpace
        omega
      rw [hsame _ (by omega) (by omega), hbytes j hj]

variable {x : ℕ}

theorem hasBytes_of_stored (h : Stacked img m L d sz) (hx : x + bytes.length ≤ sz)
    (hst : Stored m m' d x (x + bytes.length) (fun y => bytes.getD (y - x) 0)) :
    HasBytes m' d x bytes := by
  intro j hj
  have hkU : (x + j) / PGSIZE < UPAGES := by
    have := h.lt
    unfold KERNBASE UPAGES PGSIZE at *
    omega
  have hpr := (h.exact _ hkU).mpr (lt_of_le_of_lt (Nat.div_mul_le_self ..) (by omega))
  rw [hst.byte _ hkU hpr, if_pos (by omega), Nat.add_sub_cancel_left]

theorem Stacked.byte_of_stored {lo hi : ℕ} {f : ℕ → UInt8} (h : Stacked img m L d sz)
    (hst : Stored m m' d lo hi f) (hx : x < sz) (hout : x < lo ∨ hi ≤ x) :
    userByte m' d x = userByte m d x := by
  have hkU : x / PGSIZE < UPAGES := by
    have := h.lt
    unfold KERNBASE UPAGES PGSIZE at *
    omega
  have hpr := (h.exact _ hkU).mpr (lt_of_le_of_lt (Nat.div_mul_le_self ..) hx)
  rw [hst.byte _ hkU hpr, if_neg (by omega)]

theorem pushArgs_done {ustack us : List ℕ} {sp' : ℕ}
    (h : Stacked img m L d sz) (hlow : sz - PGSIZE ≤ sp) (hsp : sp ≤ sz) (h4 : sp % 4 = 0)
    (hrun : pushArgs img (pure 0) d args sp ustack m = .ok (some (sp', us), m')) :
    Stacked img m' L d sz ∧ sz - PGSIZE ≤ sp' ∧ sp' + (args.map strSpace).sum = sp ∧
      (∀ x < sz, x < sp' ∨ sp ≤ x → userByte m' d x = userByte m d x) ∧
      ∃ ptrs, us = ustack ++ ptrs ∧ ptrs.length = args.length ∧ Placed m' d sp args ptrs := by
  induction args generalizing m sp ustack with
  | nil =>
    obtain ⟨hsome, rfl⟩ := pure_ok hrun
    cases hsome
    exact ⟨h, hlow, rfl, fun _ _ _ => rfl, [], (List.append_nil _).symm, rfl, trivial⟩
  | cons a args ih =>
    unfold pushArgs at hrun
    by_cases hus : MAXARG ≤ ustack.length
    · rw [if_pos hus] at hrun
      cases hrun
    rw [if_neg hus] at hrun
    have hbl : (a ++ [0]).length = a.length + 1 := by
      rw [List.length_append, List.length_singleton]
    obtain ⟨b, m1, hcopy, hrest⟩ := bind_ok.mp hrun
    cases b with
    | false => cases hrest
    | true =>
      rw [← hbl] at hcopy
      obtain ⟨hlow1, hsum, hst⟩ := h.push_done
        (List.append_ne_nil_of_right_ne_nil _ (List.cons_ne_nil _ _)) hlow hsp h4 hcopy
      rw [hbl] at hlow1 hsum hst
      have hspace : (a.length + 1 + 3) / 4 * 4 = strSpace a := rfl
      have hle : a.length + 1 ≤ strSpace a := by
        unfold strSpace
        omega
      rw [hspace] at hsum
      have h1 := h.stored (h.npages_le (by omega)) hst
      obtain ⟨h', hlow', hsum', hsame, ptrs, rfl, hptrs, hplaced⟩ := ih h1 hlow1 (by omega)
        (by unfold pushed; omega) hrest
      rw [List.map_cons, List.sum_cons]
      refine ⟨h', hlow', by omega, fun x hx hout => ?_, pushed sp (a.length + 1) :: ptrs,
        by rw [List.append_assoc]; rfl, by rw [List.length_cons, List.length_cons, hptrs], hsum, ?_,
        hplaced⟩
      · rw [hsame x hx (by omega), h.byte_of_stored hst hx (by omega)]
      · -- what is pushed later is below
        rw [← hbl] at hst
        have hbytes := hasBytes_of_stored h (by rw [hbl]; omega) hst
        rw [hbl] at hbytes
        intro j hj
        rw [hsame _ (by omega) (.inr (Nat.le_add_right ..)), hbytes j hj]

/-! ## The frame -/

def userWord (m : Mem) (d x : ℕ) : ℕ := Block.word (fun i => userByte m d (x + i)) 0

theorem length_wordBytes (w : ℕ) : (wordBytes w).length = 4 := rfl

theorem userWord_of_bytes {w : ℕ} (hw : w < 2 ^ 32) (h : HasBytes m d x (wordBytes w)) :
    userWord m d x = w := by
  have h0 := h 0 (by rw [length_wordBytes]; omega)
  have h1 := h 1 (by rw [length_wordBytes]; omega)
  have h2 := h 2 (by rw [length_wordBytes]; omega)
  have h3 := h 3 (by rw [length_wordBytes]; omega)
  simp only [wordBytes, List.getD_cons_zero, List.getD_cons_succ] at h0 h1 h2 h3
  simp only [userWord, Block.word, Nat.mul_zero, Nat.zero_add, h0, h1, h2, h3, UInt8.toNat_ofNat']
  omega

theorem userWord_of_flatMap {ws : List ℕ} (hws : ∀ w ∈ ws, w < 2 ^ 32)
    (h : HasBytes m d x (ws.flatMap wordBytes)) {j : ℕ} (hj : j < ws.length) :
    userWord m d (x + 4 * j) = ws.getD j 0 := by
  induction ws generalizing x j with
  | nil => exact absurd hj (Nat.not_lt_zero j)
  | cons w ws ih =>
    have hfirst : HasBytes m d x (wordBytes w) := by
      intro i hi
      rw [h i (by rw [List.flatMap_cons, List.length_append]; omega), List.flatMap_cons,
        List.getD_append _ _ _ _ hi]
    have hrest : HasBytes m d (x + 4) (ws.flatMap wordBytes) := by
      intro i hi
      have hb := h (4 + i) (by
        rw [List.flatMap_cons, List.length_append, length_wordBytes]; omega)
      rw [List.flatMap_cons, List.getD_append_right _ _ _ _ (by rw [length_wordBytes]; omega),
        length_wordBytes, Nat.add_sub_cancel_left, ← Nat.add_assoc] at hb
      exact hb
    cases j with
    | zero =>
      rw [Nat.mul_zero, Nat.add_zero, List.getD_cons_zero]
      exact userWord_of_bytes (hws w List.mem_cons_self) hfirst
    | succ j =>
      rw [List.getD_cons_succ, ← ih (fun w hw => hws w (List.mem_cons_of_mem _ hw)) hrest
        (by rw [List.length_cons] at hj; omega)]
      congr 1
      omega

def argPtr (m : Mem) (d esp i : ℕ) : ℕ := userWord m d (esp + 12 + 4 * i)

/-- The stack of a program with the arguments `argv`, of which the top is at `sz`: from `esp` on a
return address, the number of arguments and a pointer to the array that follows; the array ends with
0, and its pointers lead to the strings above. -/
structure ArgStack (m : Mem) (d sz esp : ℕ) (argv : List (List UInt8)) : Prop where
  ret : userWord m d esp = 0xffffffff
  argc : userWord m d (esp + 4) = argv.length
  array : userWord m d (esp + 8) = esp + 12
  null : argPtr m d esp argv.length = 0
  string : ∀ i (hi : i < argv.length), HasBytes m d (argPtr m d esp i) (argv[i] ++ [0])
  aligned : esp % 4 = 0 ∧ ∀ i < argv.length, argPtr m d esp i % 4 = 0
  page : sz - PGSIZE ≤ esp ∧ esp + 12 + 4 * (argv.length + 1) ≤ sz
  inside : ∀ i (hi : i < argv.length), argPtr m d esp i + (argv[i].length + 1) ≤ sz
  above : ∀ i < argv.length, esp + 12 + 4 * (argv.length + 1) ≤ argPtr m d esp i
  apart : ∀ i j (hj : j < argv.length), i < j →
    argPtr m d esp j + (argv[j].length + 1) ≤ argPtr m d esp i

def argBytes (argv : List (List UInt8)) : ℕ := (argv.map strSpace).sum + (3 + argv.length + 1) * 4

theorem Placed.ptr (h : Placed m d sp args ptrs) {i : ℕ} (hi : i < args.length) :
    HasBytes m d (ptrs.getD i 0) (args[i] ++ [0]) ∧
      sp ≤ ptrs.getD i 0 + (args.map strSpace).sum ∧ ptrs.getD i 0 + strSpace args[i] ≤ sp ∧
      ptrs.getD i 0 % 4 = sp % 4 := by
  induction args generalizing sp ptrs i with
  | nil => exact absurd hi (Nat.not_lt_zero i)
  | cons a args ih => cases ptrs with
    | nil => exact absurd h id
    | cons q ptrs =>
      obtain ⟨hq, hbytes, hrest⟩ := h
      have h4 : q % 4 = sp % 4 := by
        unfold strSpace at hq
        omega
      rw [List.map_cons, List.sum_cons]
      cases i with
      | zero => exact ⟨hbytes, by rw [List.getD_cons_zero]; omega, hq.le, h4⟩
      | succ i =>
        obtain ⟨h1, h2, h3, h5⟩ := ih hrest (Nat.lt_of_succ_lt_succ hi)
        rw [List.getD_cons_succ, List.getElem_cons_succ]
        exact ⟨h1, by omega, by omega, h5.trans h4⟩

theorem Placed.apart (h : Placed m d sp args ptrs) {i j : ℕ} (hj : j < args.length) (hij : i < j) :
    ptrs.getD j 0 + strSpace args[j] ≤ ptrs.getD i 0 := by
  induction args generalizing sp ptrs i j with
  | nil => exact absurd hj (Nat.not_lt_zero j)
  | cons a args ih => cases ptrs with
    | nil => exact absurd h id
    | cons q ptrs =>
      obtain ⟨-, -, hrest⟩ := h
      obtain ⟨j, rfl⟩ := Nat.exists_eq_succ_of_ne_zero (Nat.ne_zero_of_lt hij)
      have hj' := Nat.lt_of_succ_lt_succ hj
      cases i with
      | zero => exact (hrest.ptr hj').2.2.1
      | succ i => exact ih hrest hj' (Nat.lt_of_succ_lt_succ hij)

theorem length_le_strSpace (args : List (List UInt8)) :
    args.length * 4 ≤ (args.map strSpace).sum := by
  have h := List.card_nsmul_le_sum (args.map strSpace) 4 fun n hn => by
    obtain ⟨a, -, rfl⟩ := List.mem_map.mp hn
    unfold strSpace
    omega
  rwa [List.length_map, smul_eq_mul] at h

theorem strSpace_sum_mod (args : List (List UInt8)) : (args.map strSpace).sum % 4 = 0 := by
  induction args with
  | nil => rfl
  | cons a args ih =>
    rw [List.map_cons, List.sum_cons]
    unfold strSpace at *
    omega

theorem userWord_of_frame {r n q : ℕ} (hws : ∀ w ∈ [r, n, q] ++ ptrs ++ [0], w < 2 ^ 32)
    (h : HasBytes m d x (([r, n, q] ++ ptrs ++ [0]).flatMap wordBytes)) :
    userWord m d x = r ∧ userWord m d (x + 4) = n ∧ userWord m d (x + 8) = q ∧
      (∀ i < ptrs.length, userWord m d (x + 12 + 4 * i) = ptrs.getD i 0) ∧
      userWord m d (x + 12 + 4 * ptrs.length) = 0 := by
  have hlen : ([r, n, q] ++ ptrs).length = 3 + ptrs.length := List.length_append
  have hword : ∀ j < 3 + ptrs.length + 1,
      userWord m d (x + 4 * j) = ([r, n, q] ++ ptrs ++ [0]).getD j 0 := fun j hj =>
    userWord_of_flatMap hws h (by rw [List.length_append, hlen]; exact hj)
  refine ⟨hword 0 (by omega), hword 1 (by omega), hword 2 (by omega), fun i hi => ?_, ?_⟩
  · rw [show x + 12 + 4 * i = x + 4 * (3 + i) by omega, hword (3 + i) (by omega),
      List.getD_append _ _ _ _ (by omega), List.getD_append_right _ _ _ _ (Nat.le_add_right 3 i)]
    exact congrArg (ptrs.getD · 0) (Nat.add_sub_cancel_left 3 i)
  · rw [show x + 12 + 4 * ptrs.length = x + 4 * (3 + ptrs.length) by omega,
      hword (3 + ptrs.length) (by omega), List.getD_append_right _ _ _ _ hlen.le, hlen,
      Nat.sub_self]
    rfl

variable {esp : ℕ} {argv : List (List UInt8)}

theorem argStack_of_placed (hframe : HasBytes m d esp (frame sp ptrs))
    (hplaced : Placed m d sz argv ptrs) (hptrs : ptrs.length = argv.length) (h4 : sz % 4 = 0)
    (hsum : sp + (argv.map strSpace).sum = sz) (hesp : esp + (3 + argv.length + 1) * 4 = sp)
    (hlow : sz - PGSIZE ≤ esp) (hlt : sz < 2 ^ 32) : ArgStack m d sz esp argv := by
  have hmod := strSpace_sum_mod argv
  have harray : (sp + 2 ^ 32 - (ptrs.length + 1) * 4) % 2 ^ 32 = esp + 12 := by omega
  have hptrlt : ∀ w ∈ ptrs, w < 2 ^ 32 := by
    intro w hw
    obtain ⟨i, hi, rfl⟩ := List.getElem_of_mem hw
    have := (hplaced.ptr (hptrs ▸ hi)).2.2.1
    rw [List.getD_eq_getElem _ _ hi] at this
    omega
  unfold frame at hframe
  rw [harray] at hframe
  obtain ⟨hret, hargc, harr, hptr, hnull⟩ := userWord_of_frame (by
    intro w hw
    simp only [List.cons_append, List.nil_append, List.mem_cons, List.mem_append,
      List.not_mem_nil, or_false] at hw
    rcases hw with rfl | rfl | rfl | hw | rfl
    · norm_num
    · omega
    · omega
    · exact hptrlt w hw
    · norm_num) hframe
  rw [hptrs] at hargc hptr hnull
  have hstr : ∀ i (hi : i < argv.length), argv[i].length + 1 ≤ strSpace argv[i] := fun i hi => by
    unfold strSpace
    omega
  refine ⟨hret, hargc, harr, hnull, fun i hi => ?_, ⟨by omega, fun i hi => ?_⟩, ⟨hlow, by omega⟩,
    fun i hi => ?_, fun i hi => ?_, fun i j hj hij => ?_⟩
  · rw [argPtr, hptr i hi]
    exact (hplaced.ptr hi).1
  · rw [argPtr, hptr i hi, (hplaced.ptr hi).2.2.2, h4]
  · have := (hplaced.ptr hi).2.2.1
    have := hstr i hi
    rw [argPtr, hptr i hi]
    omega
  · have := (hplaced.ptr hi).2.1
    rw [argPtr, hptr i hi]
    omega
  · have := hplaced.apart hj hij
    have := hstr j hj
    rw [argPtr, argPtr, hptr i (hij.trans hj), hptr j hj]
    omega

theorem framePtr_eq (h4 : sp % 4 = 0) (n : ℕ) : framePtr sp n = pushed sp ((3 + n + 1) * 4) := by
  unfold framePtr pushed
  omega

theorem pushStack_done (h : Stacked img m L d sz)
    (hrun : pushStack img (pure 0) d argv sz m = .ok (some esp, m')) :
    Stacked img m' L d sz ∧ ArgStack m' d sz esp argv ∧ argBytes argv ≤ PGSIZE ∧
      ∀ x < sz - PGSIZE, userByte m' d x = userByte m d x := by
  have hal := h.aligned
  have h2 := h.two
  have hlt := h.lt
  have hsz4 : sz % 4 = 0 := by
    unfold PGSIZE at hal
    omega
  obtain ⟨o, m1, hargs, hrest⟩ := bind_ok.mp hrun
  cases o with
  | none => cases hrest
  | some q =>
    obtain ⟨sp, us⟩ := q
    obtain ⟨h1, hlow, hsum, hsame, ptrs, hus, hptrs, hplaced⟩ := pushArgs_done h (Nat.sub_le ..)
      le_rfl hsz4 hargs
    obtain rfl : us = ptrs := hus
    have hspace := length_le_strSpace argv
    have hsp4 : sp % 4 = 0 := by
      have := strSpace_sum_mod argv
      omega
    have hfl : (frame sp us).length = (3 + argv.length + 1) * 4 := by rw [length_frame, hptrs]
    obtain ⟨b, m2, hcopy, hdone⟩ := bind_ok.mp hrest
    cases b with
    | false => cases hdone
    | true =>
      obtain ⟨hesp, rfl⟩ := pure_ok hdone
      cases hesp
      rw [hptrs, framePtr_eq hsp4, ← hfl] at hcopy
      rw [hptrs, framePtr_eq hsp4, ← hfl]
      obtain ⟨hlow', hsum', hst⟩ := h1.push_done
        (List.ne_nil_of_length_pos (by rw [hfl]; omega)) hlow (by omega) hsp4 hcopy
      have hbytes := hasBytes_of_stored h1 (by rw [hfl] at hsum' ⊢; omega) hst
      rw [hfl] at hlow' hsum' hst hbytes ⊢
      have hesp : pushed sp ((3 + argv.length + 1) * 4) + (3 + argv.length + 1) * 4 = sp := by
        omega
      -- the frame is below the strings
      have hplaced' : Placed m' d sz argv us := hplaced.congr fun x hx hge =>
        h1.byte_of_stored hst hx (by omega)
      refine ⟨h1.stored (h.npages_le (by omega)) hst, argStack_of_placed hbytes hplaced' hptrs hsz4
        hsum hesp hlow' (by unfold KERNBASE at hlt; omega), ?_, fun x hx => ?_⟩
      · unfold argBytes
        omega
      · rw [h1.byte_of_stored hst (by omega) (by omega), hsame x (by omega) (by omega)]

theorem pushArgs_fits (args : List (List UInt8)) (ustack : List ℕ) (h : Stacked img m L d sz)
    (hlow : sz - PGSIZE + (args.map strSpace).sum ≤ sp) (hsp : sp ≤ sz) (h4 : sp % 4 = 0)
    (hmax : ustack.length + args.length ≤ MAXARG) :
    ∃ us m', pushArgs img (pure 0) d args sp ustack m =
        .ok (some (sp - (args.map strSpace).sum, us), m') ∧ Stacked img m' L d sz ∧
      us.length = ustack.length + args.length := by
  induction args generalizing m sp ustack with
  | nil => exact ⟨ustack, m, rfl, h, rfl⟩
  | cons a args ih =>
    rw [List.map_cons, List.sum_cons] at hlow ⊢
    rw [List.length_cons] at hmax ⊢
    have hlt := h.lt
    have hbl : (a ++ [0]).length = a.length + 1 := by
      rw [List.length_append, List.length_singleton]
    have hpush : pushed sp (a.length + 1) + strSpace a = sp := by
      unfold pushed strSpace KERNBASE at *
      omega
    have hle : a.length + 1 ≤ strSpace a := by
      unfold strSpace
      omega
    have hcopied : ∃ m1, copyout img (pure 0) d (a ++ [0]).length (pushed sp (a ++ [0]).length)
        (a ++ [0]) m = .ok (true, m1) ∧ Stored m m1 d (pushed sp (a ++ [0]).length)
          (pushed sp (a ++ [0]).length + (a ++ [0]).length)
          (fun x => (a ++ [0]).getD (x - pushed sp (a ++ [0]).length) 0) :=
      h.push_fits (by rw [hbl]; omega) (by rw [hbl]; omega)
    obtain ⟨m1, hcopy, hst⟩ := hcopied
    rw [hbl] at hst
    have h1 := h.stored
      (h.npages_le (show pushed sp (a.length + 1) + (a.length + 1) ≤ sz by omega)) hst
    have h4₁ : pushed sp (a.length + 1) % 4 = 0 := by
      unfold pushed
      omega
    obtain ⟨us, m', hrun, h', hus⟩ := ih (ustack ++ [pushed sp (a.length + 1)]) h1 (by omega)
      (by omega) h4₁ (by rw [List.length_append, List.length_singleton]; omega)
    refine ⟨us, m', ?_, h', by rw [hus, List.length_append, List.length_singleton]; omega⟩
    rw [pushArgs_cons (by omega) hcopy, if_pos rfl, hrun]
    congr 4
    omega

theorem pushStack_fits (argv : List (List UInt8)) (h : Stacked img m L d sz)
    (hmax : argv.length ≤ MAXARG) (hfit : argBytes argv ≤ PGSIZE) :
    ∃ esp m', pushStack img (pure 0) d argv sz m = .ok (some esp, m') := by
  have h2 := h.two
  have hlt := h.lt
  have hal := h.aligned
  have hmod := strSpace_sum_mod argv
  have hsz4 : sz % 4 = 0 := by
    unfold PGSIZE at hal
    omega
  unfold argBytes at hfit
  obtain ⟨us, m1, hrun, h1, hus⟩ := pushArgs_fits argv [] h (by omega) le_rfl hsz4
    (by rwa [List.length_nil, Nat.zero_add])
  rw [List.length_nil, Nat.zero_add] at hus
  set sp := sz - (argv.map strSpace).sum with hsp
  have hptr : framePtr sp us.length + (3 + us.length + 1) * 4 = sp := by
    unfold framePtr KERNBASE PGSIZE at *
    omega
  have hcopied : ∃ m2, copyout img (pure 0) d (frame sp us).length (framePtr sp us.length)
      (frame sp us) m1 = .ok (true, m2) ∧ Stored m1 m2 d (framePtr sp us.length)
        (framePtr sp us.length + (frame sp us).length)
        (fun x => (frame sp us).getD (x - framePtr sp us.length) 0) :=
    h1.push_fits (by omega) (by rw [length_frame]; omega)
  obtain ⟨m2, hcopy, -⟩ := hcopied
  refine ⟨framePtr sp us.length, m2, ?_⟩
  unfold pushStack
  rw [bind_eq hrun]
  dsimp only
  rw [bind_eq hcopy]
  rfl

/-! ## The call -/

theorem makeStack_done {sz' : ℕ} (h : Image img m L d sz)
    (hrun : makeStack img (pure 0) d sz argv m = .ok (some (sz', esp), m')) :
    sz' = PGROUNDUP sz + 2 * PGSIZE ∧ argBytes argv ≤ PGSIZE ∧ ArgStack m' d sz' esp argv ∧
      ∃ L', Stacked img m' L' d sz' ∧ ∀ x < sz' - 2 * PGSIZE, userByte m' d x = userByte m d x := by
  obtain ⟨o, m1, L', halloc, -, hst, -⟩ := allocStack_spec h
  unfold makeStack at hrun
  rw [bind_eq halloc] at hrun
  cases o with
  | none =>
    obtain ⟨-, m2, -, hnone⟩ := bind_ok.mp hrun
    cases hnone
  | some sz1 =>
    obtain ⟨hsz, hS, hbyte⟩ := hst sz1 rfl
    obtain ⟨o, m2, hpush, hrest⟩ := bind_ok.mp hrun
    cases o with
    | none =>
      obtain ⟨-, m3, -, hnone⟩ := bind_ok.mp hrest
      cases hnone
    | some sp =>
      obtain ⟨hsome, rfl⟩ := pure_ok hrest
      cases hsome
      obtain ⟨hS', hstack, hfit, hbelow⟩ := pushStack_done hS hpush
      refine ⟨hsz, hfit, hstack, L', hS', fun x hx => ?_⟩
      rw [hbelow x (by omega), hbyte x hx]

theorem ArgStack.congr (h : ArgStack m d sz esp argv)
    (hsame : ∀ x < sz, userByte m' d x = userByte m d x) : ArgStack m' d sz esp argv := by
  have hbytes : ∀ {x : ℕ} {bytes : List UInt8}, x + bytes.length ≤ sz → HasBytes m d x bytes →
      HasBytes m' d x bytes := fun hx hb j hj => by rw [hsame _ (by omega), hb j hj]
  have hword : ∀ x, x + 4 ≤ sz → userWord m' d x = userWord m d x := by
    intro x hx
    simp only [userWord, Block.word]
    rw [hsame _ (by omega), hsame _ (by omega), hsame _ (by omega), hsame _ (by omega)]
  have hpage := h.page.2
  have hptr : ∀ i ≤ argv.length, argPtr m' d esp i = argPtr m d esp i := fun i hi =>
    hword _ (by omega)
  refine ⟨?_, ?_, ?_, ?_, fun i hi => ?_, ⟨h.aligned.1, fun i hi => ?_⟩, h.page, fun i hi => ?_,
    fun i hi => ?_, fun i j hj hij => ?_⟩
  · rw [hword _ (by omega), h.ret]
  · rw [hword _ (by omega), h.argc]
  · rw [hword _ (by omega), h.array]
  · rw [hptr _ le_rfl, h.null]
  · rw [hptr i hi.le]
    refine hbytes ?_ (h.string i hi)
    rw [List.length_append]
    exact h.inside i hi
  · rw [hptr i hi.le]
    exact h.aligned.2 i hi
  · rw [hptr i hi.le]
    exact h.inside i hi
  · rw [hptr i hi.le]
    exact h.above i hi
  · rw [hptr i (hij.trans hj).le, hptr j hj.le]
    exact h.apart i j hj hij

theorem Stacked.byte_frame (h : Stacked img m L d sz)
    (hpage : ∀ v ∈ space m d, m'.page v = m.page v) (hx : x < sz) :
    userByte m' d x = userByte m d x := by
  have hkU : x / PGSIZE < UPAGES := by
    have := h.lt
    unfold KERNBASE UPAGES PGSIZE at *
    omega
  exact userByte_frame hpage hkU
    ((h.exact _ hkU).mpr (lt_of_le_of_lt (Nat.div_mul_le_self ..) hx))

section Call

variable {s : Kernel} {Z : Multiset ℕ} {p : ℕ} {file : Option (ℕ × ReadFile)}

theorem Installed.argStack {s' : Kernel} {f : ReadFile}
    (hp : Pool img s.mem L (space s.mem (s.proc p).pgdir + Z)) (h : Installed img s p f argv s') :
    argBytes argv ≤ PGSIZE ∧
      ArgStack s'.mem (s'.proc p).pgdir (s'.proc p).sz (s'.proc p).esp argv := by
  obtain ⟨sz0, m1, m2, hload, hmake, hpage⟩ := h
  obtain ⟨o, m₁', L1, hload', -, himg⟩ := loadProgram_spec f hp
  obtain ⟨rfl, rfl⟩ := Prod.mk.inj (Except.ok.inj (hload.symm.trans hload'))
  obtain ⟨-, -, hI, -⟩ := himg _ _ rfl
  obtain ⟨-, hfit, hstack, L', hS, -⟩ := makeStack_done hI hmake
  exact ⟨hfit, hstack.congr fun x hx => hS.byte_frame hpage hx⟩

/-- **The stack of a new program.** `exec` returns; if the result is 0 the process has the arguments
on its stack, and if they take more than a page the result is -1. -/
theorem exec_arg_stack (path : List UInt8) (argv : List (List UInt8))
    (hp : Pool img s.mem L (space s.mem (s.proc p).pgdir + Z)) :
    Returns (execWith img (pure 0) p path file argv) s fun r s' =>
      (r = true → ArgStack s'.mem (s'.proc p).pgdir (s'.proc p).sz (s'.proc p).esp argv) ∧
      (PGSIZE < argBytes argv → r = false) := by
  refine (execWith_spec path argv hp).mono fun r s' hres => ?_
  cases r with
  | false => exact ⟨nofun, fun _ => rfl⟩
  | true =>
    obtain ⟨-, ip, f, -, hinst⟩ := hres
    obtain ⟨hfit, hstack⟩ := hinst.argStack hp
    exact ⟨fun _ => hstack, fun hbig => absurd hfit (by omega)⟩

end Call

/-! ## A program with one argument -/

def roomyPage : Mem := mapFirst freeMem 0x80300000 0x80301000 0x80302000

def roomyProc : Kernel :=
  { oneProc with mem := roomyPage, proc := fun p => { oneProc.proc p with pgdir := 0x80300000 } }

theorem roomyProc_pool : Pool smallImage roomyProc.mem (pagesFrom 80 0x80200000)
    (space roomyProc.mem (roomyProc.proc 0).pgdir + 0) := by
  have hp : Pool smallImage freeMem (pagesFrom 80 0x80200000)
      ({0x80300000} + {0x80301000} + {0x80302000}) := by
    refine ⟨freeMem_pool.chain, ?_, ?_⟩
    · decide +kernel
    · decide +kernel
  rw [add_zero]
  exact (mapFirst_spec hp freeMem_zero).1

theorem execWith_roomyProc (hmax : argv.length ≤ MAXARG) (hfit : argBytes argv ≤ PGSIZE) :
    Returns (execWith smallImage (pure 0) 0 [47, 97] (some (2, tinyElf)) argv) roomyProc
      fun r _ => r = true := by
  obtain ⟨d, m1, L1, ⟨sz0, m0, hload, halloc⟩, hS⟩ := prepared_tinyElf roomyProc_pool (by decide)
  obtain ⟨esp, m2, hpush⟩ := pushStack_fits argv hS hmax hfit
  have hmake : makeStack smallImage (pure 0) d sz0 argv m0 = .ok (some (2 * PGSIZE, esp), m2) := by
    unfold makeStack
    rw [bind_eq halloc]
    exact bind_eq hpush
  refine (execWith_spec [47, 97] argv roomyProc_pool).mono fun r s' hres => ?_
  cases r with
  | true => rfl
  | false =>
    obtain ⟨m3, hnone⟩ := hres.2 2 tinyElf d sz0 m0 rfl hload
    cases hmake.symm.trans hnone

theorem execWith_roomyProc_big (hbig : PGSIZE < argBytes argv) :
    Returns (execWith smallImage (pure 0) 0 [47, 97] (some (2, tinyElf)) argv) roomyProc
      fun r _ => r = false := by
  refine (execWith_spec [47, 97] argv roomyProc_pool).mono fun r s' hres => ?_
  cases r with
  | false => rfl
  | true =>
    obtain ⟨-, ip, f, -, hinst⟩ := hres
    exact absurd (hinst.argStack roomyProc_pool).1 (by omega)

/-- The argument vector `["hi"]`. -/
theorem exec_arg_stack_hi :
    ∃ s', execWith smallImage (pure 0) 0 [47, 97] (some (2, tinyElf)) [[104, 105]] roomyProc =
        .ok (true, s') ∧
      ArgStack s'.mem (s'.proc 0).pgdir (s'.proc 0).sz (s'.proc 0).esp [[104, 105]] := by
  obtain ⟨r, s', hrun, hres⟩ := exec_arg_stack [47, 97] [[104, 105]] roomyProc_pool
  obtain rfl : r = true := (execWith_roomyProc (by decide) (by decide)).of_ok hrun
  exact ⟨s', hrun, hres.1 rfl⟩

/-- The argument `"hi"`, and one of a page. -/
theorem execWith_all_or_nothing_roomyProc :
    (∃ s', execWith smallImage (pure 0) 0 [47, 97] (some (2, tinyElf)) [[104, 105]] roomyProc =
        .ok (true, s') ∧
      ExecDone smallImage roomyProc 0 [47, 97] (pagesFrom 80 0x80200000) 0 (some (2, tinyElf)) s') ∧
    ∃ s', execWith smallImage (pure 0) 0 [47, 97] (some (2, tinyElf)) [List.replicate PGSIZE 97]
        roomyProc = .ok (false, s') ∧
      ExecFailed roomyProc (pagesFrom 80 0x80200000)
        (space roomyProc.mem (roomyProc.proc 0).pgdir + 0) (some (2, tinyElf)) s' := by
  constructor
  · obtain ⟨r, s', hrun, hres⟩ : Returns
        (execWith smallImage (pure 0) 0 [47, 97] (some (2, tinyElf)) [[104, 105]]) roomyProc _ :=
      execWith_all_or_nothing roomyProc_pool
    obtain rfl : r = true := (execWith_roomyProc (by decide) (by decide)).of_ok hrun
    exact ⟨s', hrun, hres⟩
  · obtain ⟨r, s', hrun, hres⟩ : Returns (execWith smallImage (pure 0) 0 [47, 97]
        (some (2, tinyElf)) [List.replicate PGSIZE 97]) roomyProc _ :=
      execWith_all_or_nothing roomyProc_pool
    have hbig : PGSIZE < argBytes [List.replicate PGSIZE 97] := by
      simp only [argBytes, strSpace, List.map_cons, List.map_nil, List.sum_cons, List.sum_nil,
        List.length_replicate, List.length_cons, List.length_nil]
      decide
    obtain rfl : r = false := (execWith_roomyProc_big hbig).of_ok hrun
    exact ⟨s', hrun, hres⟩

end Xv6.Vm
