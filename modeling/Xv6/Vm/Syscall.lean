import Xv6.Vm.ArgStack

/-!
# Arguments of system calls

The arguments of a system call are on the user stack, and what the kernel takes from there is
chosen by the process: the stack pointer, the words and the sizes. The functions of `syscall.c`
compare 32-bit sums with the size of the process.

1. `fetchint`, `fetchstr`, `argint`, `argptr`, `argstr` and the loop of `sys_exec`; `none` is the
   result -1.
2. Each of them accepts exactly if what it takes is below the size, as unbounded integers.
3. What they return depends on the memory below the size only (`SameUser`).
-/

namespace Xv6.Vm

variable {s s' : Kernel} {p addr w len a : ℕ} {n size : ℤ}

/-! ## `syscall.c` -/

def Kernel.byte (s : Kernel) (p x : ℕ) : UInt8 := userByte s.mem (s.proc p).pgdir x

def Kernel.word (s : Kernel) (p x : ℕ) : ℕ := userWord s.mem (s.proc p).pgdir x

def fetchint (s : Kernel) (p addr : ℕ) : Option ℕ :=
  let sz := (s.proc p).sz
  if sz ≤ addr ∨ sz < (addr + 4) % 2 ^ 32 then none else some (s.word p addr)

def strLoop (s : Kernel) (p addr ep x : ℕ) : Option ℕ :=
  if x < ep then
    if s.byte p x = 0 then some (x - addr) else strLoop s p addr ep (x + 1)
  else none
termination_by ep - x

def fetchstr (s : Kernel) (p addr : ℕ) : Option ℕ :=
  let sz := (s.proc p).sz
  if sz ≤ addr then none else strLoop s p addr sz addr

def argAddr (s : Kernel) (p : ℕ) (n : ℤ) : ℕ := ((((s.proc p).esp : ℤ) + 4 + 4 * n) % 2 ^ 32).toNat

def argint (s : Kernel) (p : ℕ) (n : ℤ) : Option ℕ := fetchint s p (argAddr s p n)

def argptr (s : Kernel) (p : ℕ) (n size : ℤ) : Option ℕ := do
  let i ← argint s p n
  let sz := (s.proc p).sz
  if size < 0 ∨ sz ≤ i ∨ (sz : ℤ) < ((i : ℤ) + size) % 2 ^ 32 then none else some i

def argstr (s : Kernel) (p : ℕ) (n : ℤ) : Option (ℕ × ℕ) := do
  let addr ← argint s p n
  let len ← fetchstr s p addr
  return (addr, len)

def execArgs (s : Kernel) (p uargv : ℕ) : ℕ → ℕ → Option (List ℕ)
  | 0, _ => none
  | k + 1, i => do
    let uarg ← fetchint s p ((uargv + 4 * i) % 2 ^ 32)
    if uarg = 0 then return []
    else do
      let _ ← fetchstr s p uarg
      let argv ← execArgs s p uargv k (i + 1)
      return uarg :: argv

def sysExecArgs (s : Kernel) (p : ℕ) : Option (ℕ × List ℕ) := do
  let path ← argstr s p 0
  let uargv ← argint s p 1
  let argv ← execArgs s p uargv MAXARG 0
  return (path.1, argv)

/-! ## What is accepted -/

structure HasString (s : Kernel) (p addr len : ℕ) : Prop where
  inside : addr + len < (s.proc p).sz
  nul : s.byte p (addr + len) = 0
  bytes : ∀ j < len, s.byte p (addr + j) ≠ 0

section Accept

variable (hsz : (s.proc p).sz < KERNBASE)

include hsz

theorem fetchint_iff :
    fetchint s p addr = some w ↔ addr + 4 ≤ (s.proc p).sz ∧ s.word p addr = w := by
  unfold fetchint
  dsimp only
  unfold KERNBASE at hsz
  by_cases h : (s.proc p).sz ≤ addr ∨ (s.proc p).sz < (addr + 4) % 2 ^ 32
  · rw [if_pos h]
    exact iff_of_false nofun fun h' => by omega
  · rw [if_neg h, Option.some_inj]
    exact (and_iff_right (by omega)).symm

theorem argint_iff :
    argint s p n = some w ↔ argAddr s p n + 4 ≤ (s.proc p).sz ∧ s.word p (argAddr s p n) = w :=
  fetchint_iff hsz

theorem argptr_iff (h1 : -2 ^ 31 ≤ size) (h2 : size < 2 ^ 31) :
    argptr s p n size = some a ↔ argAddr s p n + 4 ≤ (s.proc p).sz ∧
      s.word p (argAddr s p n) = a ∧ a < (s.proc p).sz ∧
      a + (size % 2 ^ 32).toNat ≤ (s.proc p).sz := by
  unfold argptr
  rw [Option.bind_eq_bind, Option.bind_eq_some_iff]
  unfold KERNBASE at hsz
  constructor
  · rintro ⟨i, hi, hres⟩
    obtain ⟨haddr, hword⟩ := (argint_iff hsz).mp hi
    by_cases hbad : size < 0 ∨ (s.proc p).sz ≤ i ∨ ((s.proc p).sz : ℤ) < ((i : ℤ) + size) % 2 ^ 32
    · rw [if_pos hbad] at hres
      cases hres
    · rw [if_neg hbad] at hres
      cases hres
      exact ⟨haddr, hword, by omega, by omega⟩
  · rintro ⟨haddr, hword, hlt, hend⟩
    refine ⟨a, (argint_iff hsz).mpr ⟨haddr, hword⟩, if_neg ?_⟩
    omega

end Accept

theorem strLoop_iff {x : ℕ} (hx : addr ≤ x) (hbytes : ∀ y, addr ≤ y → y < x → s.byte p y ≠ 0) :
    strLoop s p addr (s.proc p).sz x = some len ↔ HasString s p addr len := by
  induction hn : (s.proc p).sz - x generalizing x with
  | zero =>
    rw [strLoop, if_neg (by omega)]
    refine iff_of_false nofun fun h => hbytes (addr + len) (Nat.le_add_right ..) ?_ h.nul
    have := h.inside
    omega
  | succ n ih =>
    rw [strLoop, if_pos (by omega)]
    by_cases h0 : s.byte p x = 0
    · rw [if_pos h0, Option.some_inj]
      constructor
      · rintro rfl
        refine ⟨by omega, by rwa [Nat.add_sub_of_le hx], fun j hj => hbytes _ ?_ ?_⟩ <;> omega
      · intro h
        have hle : ¬ addr + len < x := fun hlt => hbytes _ (Nat.le_add_right ..) hlt h.nul
        have hge : ¬ x - addr < len := fun hlt =>
          h.bytes _ hlt (by rwa [Nat.add_sub_of_le hx])
        omega
    · rw [if_neg h0]
      refine ih (by omega) (fun y h1 h2 => ?_) (by omega)
      by_cases hy : y = x
      · rwa [hy]
      · exact hbytes y h1 (by omega)

theorem fetchstr_iff : fetchstr s p addr = some len ↔ HasString s p addr len := by
  unfold fetchstr
  dsimp only
  by_cases h : (s.proc p).sz ≤ addr
  · rw [if_pos h]
    refine iff_of_false nofun fun hs => ?_
    have := hs.inside
    omega
  · rw [if_neg h]
    exact strLoop_iff le_rfl fun y h1 h2 => absurd h1 (by omega)

theorem argstr_iff (hsz : (s.proc p).sz < KERNBASE) :
    argstr s p n = some (a, len) ↔ argAddr s p n + 4 ≤ (s.proc p).sz ∧
      s.word p (argAddr s p n) = a ∧ HasString s p a len := by
  simp only [argstr, Option.bind_eq_bind, Option.bind_eq_some_iff, Option.pure_def,
    Option.some_inj, Prod.mk.injEq, argint_iff hsz, fetchstr_iff]
  constructor
  · rintro ⟨a', ⟨haddr, hword⟩, len', hstr, rfl, rfl⟩
    exact ⟨haddr, hword, hstr⟩
  · rintro ⟨haddr, hword, hstr⟩
    exact ⟨a, ⟨haddr, hword⟩, len, hstr, rfl, rfl⟩

/-! ## The loop of `sys_exec` -/

def argvAddr (uargv i : ℕ) : ℕ := (uargv + 4 * i) % 2 ^ 32

/-- The words of the argument vector from the `i`-th on are these pointers and 0, all below the
size, and there are strings at the pointers. -/
structure HasArgv (s : Kernel) (p uargv i : ℕ) (argv : List ℕ) : Prop where
  inside : ∀ j ≤ argv.length, argvAddr uargv (i + j) + 4 ≤ (s.proc p).sz
  word : ∀ j (hj : j < argv.length), s.word p (argvAddr uargv (i + j)) = argv[j]
  null : s.word p (argvAddr uargv (i + argv.length)) = 0
  string : ∀ a ∈ argv, ∃ len, HasString s p a len

theorem HasArgv.nil {uargv i : ℕ} (haddr : argvAddr uargv i + 4 ≤ (s.proc p).sz)
    (hword : s.word p (argvAddr uargv i) = 0) : HasArgv s p uargv i [] := by
  refine ⟨fun j hj => ?_, nofun, hword, nofun⟩
  obtain rfl := Nat.le_zero.mp hj
  exact haddr

theorem HasArgv.cons {uargv i : ℕ} {argv : List ℕ} (haddr : argvAddr uargv i + 4 ≤ (s.proc p).sz)
    (hword : s.word p (argvAddr uargv i) = a) (hstr : HasString s p a len)
    (h : HasArgv s p uargv (i + 1) argv) : HasArgv s p uargv i (a :: argv) := by
  have hshift : ∀ j, i + (j + 1) = i + 1 + j := fun j => by omega
  refine ⟨fun j hj => ?_, fun j hj => ?_, ?_, List.forall_mem_cons.mpr ⟨⟨len, hstr⟩, h.string⟩⟩
  · cases j with
    | zero => exact haddr
    | succ j =>
      rw [hshift]
      exact h.inside j (Nat.le_of_succ_le_succ hj)
  · cases j with
    | zero => exact hword
    | succ j =>
      rw [hshift, List.getElem_cons_succ]
      exact h.word j (Nat.lt_of_succ_lt_succ hj)
  · rw [List.length_cons, hshift]
    exact h.null

theorem execArgs_done (hsz : (s.proc p).sz < KERNBASE) {uargv k i : ℕ} {argv : List ℕ}
    (h : execArgs s p uargv k i = some argv) : HasArgv s p uargv i argv ∧ argv.length < k := by
  induction k generalizing i argv with
  | zero => cases h
  | succ k ih =>
    rw [execArgs, Option.bind_eq_bind, Option.bind_eq_some_iff] at h
    obtain ⟨uarg, hword, h⟩ := h
    obtain ⟨haddr, hword⟩ := (fetchint_iff hsz).mp hword
    by_cases h0 : uarg = 0
    · rw [if_pos h0] at h
      cases h
      exact ⟨.nil haddr (hword.trans h0), Nat.succ_pos k⟩
    · rw [if_neg h0, Option.bind_eq_bind, Option.bind_eq_some_iff] at h
      obtain ⟨len, hstr, h⟩ := h
      rw [Option.bind_eq_some_iff] at h
      obtain ⟨rest, hrest, h⟩ := h
      cases h
      obtain ⟨hargv, hlen⟩ := ih hrest
      exact ⟨hargv.cons haddr hword (fetchstr_iff.mp hstr), Nat.succ_lt_succ hlen⟩

/-! ## What is read -/

structure SameUser (s s' : Kernel) (p : ℕ) : Prop where
  sz : (s'.proc p).sz = (s.proc p).sz
  esp : (s'.proc p).esp = (s.proc p).esp
  byte : ∀ x < (s.proc p).sz, s'.byte p x = s.byte p x

section Read

variable (h : SameUser s s' p)

include h

theorem fetchint_congr (hsz : (s.proc p).sz < KERNBASE) (addr : ℕ) :
    fetchint s' p addr = fetchint s p addr := by
  have hword : addr + 4 ≤ (s.proc p).sz → s'.word p addr = s.word p addr := by
    intro hle
    have hb : ∀ i < 4, userByte s'.mem (s'.proc p).pgdir (addr + i) =
        userByte s.mem (s.proc p).pgdir (addr + i) := fun i hi => h.byte _ (by omega)
    simp only [Kernel.word, userWord, Block.word, Nat.mul_zero, Nat.zero_add]
    rw [hb 0 (by omega), hb 1 (by omega), hb 2 (by omega), hb 3 (by omega)]
  ext w
  rw [fetchint_iff (by rwa [h.sz]), fetchint_iff hsz, h.sz]
  exact and_congr_right fun hle => by rw [hword hle]

theorem fetchstr_congr (addr : ℕ) : fetchstr s' p addr = fetchstr s p addr := by
  ext len
  rw [fetchstr_iff, fetchstr_iff]
  constructor
  · rintro ⟨hin, hnul, hbytes⟩
    rw [h.sz] at hin
    refine ⟨hin, by rwa [← h.byte _ hin], fun j hj => ?_⟩
    rw [← h.byte _ (by omega)]
    exact hbytes j hj
  · rintro ⟨hin, hnul, hbytes⟩
    refine ⟨by rwa [h.sz], by rwa [h.byte _ hin], fun j hj => ?_⟩
    rw [h.byte _ (by omega)]
    exact hbytes j hj

theorem argint_congr (hsz : (s.proc p).sz < KERNBASE) (n : ℤ) : argint s' p n = argint s p n := by
  unfold argint argAddr
  rw [h.esp, fetchint_congr h hsz]

theorem argptr_congr (hsz : (s.proc p).sz < KERNBASE) (n size : ℤ) :
    argptr s' p n size = argptr s p n size := by
  unfold argptr
  rw [argint_congr h hsz, h.sz]

theorem argstr_congr (hsz : (s.proc p).sz < KERNBASE) (n : ℤ) : argstr s' p n = argstr s p n := by
  unfold argstr
  rw [argint_congr h hsz]
  simp only [fetchstr_congr h]

theorem execArgs_congr (hsz : (s.proc p).sz < KERNBASE) (uargv k i : ℕ) :
    execArgs s' p uargv k i = execArgs s p uargv k i := by
  induction k generalizing i with
  | zero => rfl
  | succ k ih =>
    unfold execArgs
    simp only [fetchint_congr h hsz, fetchstr_congr h, ih]

theorem sysExecArgs_congr (hsz : (s.proc p).sz < KERNBASE) :
    sysExecArgs s' p = sysExecArgs s p := by
  unfold sysExecArgs
  rw [argstr_congr h hsz, argint_congr h hsz]
  simp only [execArgs_congr h hsz]

end Read

/-! ## Every argument -/

/-- **The arguments of system calls are confined.** What is accepted is below the size of the
process, as unbounded integers; `argptr` rejects nothing else; and the results do not depend on
anything beyond the size. -/
theorem syscall_args_confined (hsz : (s.proc p).sz < KERNBASE) :
    (∀ addr w, fetchint s p addr = some w → addr + 4 ≤ (s.proc p).sz) ∧
    (∀ addr len, fetchstr s p addr = some len → HasString s p addr len) ∧
    (∀ n w, argint s p n = some w → argAddr s p n + 4 ≤ (s.proc p).sz) ∧
    (∀ n a len, argstr s p n = some (a, len) →
      argAddr s p n + 4 ≤ (s.proc p).sz ∧ HasString s p a len) ∧
    (∀ path argv, sysExecArgs s p = some (path, argv) →
      argAddr s p 0 + 4 ≤ (s.proc p).sz ∧ (∃ len, HasString s p path len) ∧
      argAddr s p 1 + 4 ≤ (s.proc p).sz ∧ HasArgv s p (s.word p (argAddr s p 1)) 0 argv) ∧
    (∀ n size : ℤ, -2 ^ 31 ≤ size → size < 2 ^ 31 →
      (∀ a, argptr s p n size = some a →
        argAddr s p n + 4 ≤ (s.proc p).sz ∧ a + (size % 2 ^ 32).toNat ≤ (s.proc p).sz) ∧
      (argptr s p n size = none → ¬ argAddr s p n + 4 ≤ (s.proc p).sz ∨
        ¬ s.word p (argAddr s p n) + (size % 2 ^ 32).toNat ≤ (s.proc p).sz ∨
        (s.proc p).sz ≤ s.word p (argAddr s p n))) ∧
    ∀ s', SameUser s s' p → (∀ addr, fetchint s' p addr = fetchint s p addr) ∧
      (∀ addr, fetchstr s' p addr = fetchstr s p addr) ∧
      (∀ n size, argptr s' p n size = argptr s p n size) ∧
      (∀ n, argstr s' p n = argstr s p n) ∧ sysExecArgs s' p = sysExecArgs s p := by
  refine ⟨fun addr w h => ((fetchint_iff hsz).mp h).1, fun addr len h => fetchstr_iff.mp h,
    fun n w h => ((argint_iff hsz).mp h).1, fun n a len h => ?_, fun path argv h => ?_,
    fun n size h1 h2 => ⟨fun a h => ?_, fun h => ?_⟩, fun s' h => ⟨fetchint_congr h hsz,
      fetchstr_congr h, argptr_congr h hsz, argstr_congr h hsz, sysExecArgs_congr h hsz⟩⟩
  · obtain ⟨haddr, -, hstr⟩ := (argstr_iff hsz).mp h
    exact ⟨haddr, hstr⟩
  · simp only [sysExecArgs, Option.bind_eq_bind, Option.bind_eq_some_iff, Option.pure_def,
      Option.some_inj, Prod.mk.injEq] at h
    obtain ⟨⟨a, len⟩, hpath, uargv, hint, argv', hargs, rfl, rfl⟩ := h
    obtain ⟨haddr, -, hstr⟩ := (argstr_iff hsz).mp hpath
    obtain ⟨haddr', rfl⟩ := (argint_iff hsz).mp hint
    exact ⟨haddr, ⟨len, hstr⟩, haddr', (execArgs_done hsz hargs).1⟩
  · obtain ⟨haddr, -, -, hend⟩ := (argptr_iff hsz h1 h2).mp h
    exact ⟨haddr, hend⟩
  · by_contra hall
    rw [not_or, not_or, not_not, not_not, not_le] at hall
    have hsome := (argptr_iff hsz h1 h2).mpr ⟨hall.1, rfl, hall.2.2, hall.2.1⟩
    rw [h] at hsome
    cases hsome

/-- A block of 16 bytes at the pointer 0, and one of -1 bytes. -/
theorem argptr_oneProc :
    argptr oneProc 0 0 16 = some 0 ∧ 0 + (16 % 2 ^ 32 : ℤ).toNat ≤ (oneProc.proc 0).sz ∧
      argptr oneProc 0 0 (-1) = none := by
  have hptr : argptr oneProc 0 0 16 = some 0 := by decide +kernel
  have hconf := (syscall_args_confined (show (oneProc.proc 0).sz < KERNBASE by decide)).2.2.2.2.2.1
  exact ⟨hptr, ((hconf 0 16 (by norm_num) (by norm_num)).1 0 hptr).2, by decide +kernel⟩

end Xv6.Vm
