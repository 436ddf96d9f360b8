import Xv6.Fs.ByteArray
import Xv6.Fs.Offset

/-!
# Seeking and reading

`lseek` moves the offset of an open file, and `read` returns the bytes of the file from the offset
on. For a regular file that nobody else is using the two together address its contents.

1. `OpenOn`: the open file and the contents of the regular file behind it.
2. `fileread_run`: one `read`. It leaves everything but the offset as it was.
3. `readEach_run`: a sequence of reads cuts what is left of the file into consecutive pieces.
4. `lseek_read`: all of this after an `lseek` from the start, the current position or the end.
-/

namespace Xv6.Fs

open Function Conc StateExcept

/-! ## Pieces of a list -/

def pieces {α : Type} : List ℕ → List α → List (List α)
  | [], _ => []
  | n :: ns, l => l.take n :: pieces ns (l.drop n)

section Pieces

variable {α : Type}

theorem pieces_flatten (ns : List ℕ) (l : List α) : (pieces ns l).flatten = l.take ns.sum := by
  induction ns generalizing l with
  | nil => rfl
  | cons n ns ih =>
    rw [pieces, List.flatten_cons, ih, List.sum_cons, List.take_add]

theorem pieces_getElem? (ns : List ℕ) (l : List α) {i n : ℕ} (hn : ns[i]? = some n) :
    (pieces ns l)[i]? = some ((l.drop (ns.take i).sum).take n) := by
  induction ns generalizing l i with
  | nil => cases hn
  | cons m ns ih =>
    cases i with
    | zero =>
      cases hn
      rfl
    | succ i =>
      rw [pieces, List.getElem?_cons_succ, ih _ hn, List.take_succ_cons, List.sum_cons,
        List.drop_drop]

end Pieces

/-! ## An open regular file -/

variable {P : Type} {sb : Superblock} {s : Kernel P} {f k n off : ℕ} {c : List UInt8}

structure OpenOn (s : Kernel P) (f k : ℕ) (c : List UInt8) : Prop where
  readable : (s.ftable f).readable = true
  type : (s.ftable f).type = .inode
  ip : (s.ftable f).ip = some k
  ref : 1 ≤ (s.icache k).ref
  valid : (s.icache k).valid = true
  file : (s.icache k).d.type = .file
  noHole : NoHole s.vol.data (s.icache k).d
  contents : contents s.vol (s.icache k).d = c

def Kernel.seek (s : Kernel P) (f off : ℕ) : Kernel P :=
  s.setFile f { s.ftable f with off := off }

@[simp] theorem seek_off (s : Kernel P) (f off : ℕ) : ((s.seek f off).ftable f).off = off := by
  rw [Kernel.seek, setFile_ftable, update_self]

theorem seek_seek (s : Kernel P) (f off off' : ℕ) : (s.seek f off).seek f off' = s.seek f off' := by
  simp only [Kernel.seek, Kernel.setFile, update_self, update_idem]

theorem seek_same (s : Kernel P) (f : ℕ) : s.seek f (s.ftable f).off = s := by
  simp only [Kernel.seek, Kernel.setFile, update_eq_self]

theorem OpenOn.seek (h : OpenOn s f k c) (off : ℕ) : OpenOn (s.seek f off) f k c where
  readable := by rw [Kernel.seek, setFile_ftable, update_self]; exact h.readable
  type := by rw [Kernel.seek, setFile_ftable, update_self]; exact h.type
  ip := by rw [Kernel.seek, setFile_ftable, update_self]; exact h.ip
  ref := h.ref
  valid := h.valid
  file := h.file
  noHole := h.noHole
  contents := h.contents

theorem OpenOn.size (h : OpenOn s f k c) : (s.icache k).d.size = c.length := by
  rw [← h.contents, length_contents]

theorem OpenOn.length_le (h : OpenOn s f k c) : c.length ≤ MAXFILE * BSIZE :=
  h.size ▸ h.noHole.size_le

/-! ## Seeking -/

theorem OpenOn.filelseek_ok (h : OpenOn s f k c) {pos offset : ℕ} {whence : ℤ}
    (hpos : pos ≤ c.length) (hseek : whence = 0 ∧ offset = pos ∨
      whence = 1 ∧ (s.ftable f).off + offset = pos ∨ whence = 2 ∧ offset = c.length - pos) :
    filelseek f offset whence s = .ok (.int 0, s.seek f pos) := by
  have hmax := h.length_le
  unfold MAXFILE NDIRECT NINDIRECT BSIZE at hmax
  unfold filelseek
  rw [h.ip]
  dsimp only
  rw [h.size, if_neg (by omega)]
  rcases hseek with ⟨rfl, rfl⟩ | ⟨rfl, rfl⟩ | ⟨rfl, rfl⟩
  · rfl
  · rw [if_neg (by decide), if_pos rfl, Nat.mod_eq_of_lt (by omega)]
    rfl
  · rw [if_neg (by decide), if_neg (by decide), if_pos rfl, Nat.sub_sub_self hpos]
    rfl

/-! ## One read -/

theorem OpenOn.readAt (h : OpenOn s f k c) (hoff : (s.ftable f).off ≤ c.length) (hn : n < 2 ^ 31) :
    readAt sb f k n s = .ok (some ((c.drop (s.ftable f).off).take n),
      s.seek f ((s.ftable f).off + min n (c.length - (s.ftable f).off))) := by
  have hmax := h.length_le
  unfold MAXFILE NDIRECT NINDIRECT BSIZE at hmax
  have hread : readi sb (s.ftable f).off n ((s.icache k).d, s.vol) = _ :=
    readi_contents h.noHole (h.size ▸ hoff) (by omega)
  rw [h.contents] at hread
  have hinode : onInode k (readi sb (s.ftable f).off n) s =
      .ok (some ((c.drop (s.ftable f).off).take n), s) := by
    unfold onInode
    rw [hread]
    simp only [Kernel.setInode, update_eq_self]
  unfold Fs.readAt
  rw [get_bind, bind_eq hinode]
  have hlen : ((c.drop (s.ftable f).off).take n).length = min n (c.length - (s.ftable f).off) := by
    rw [List.length_take, List.length_drop]
  have hadv : advance f ((c.drop (s.ftable f).off).take n).length s =
      .ok ((), s.seek f ((s.ftable f).off + min n (c.length - (s.ftable f).off))) := by
    unfold advance Kernel.seek
    rw [hlen, Nat.mod_eq_of_lt (by omega)]
  exact bind_eq hadv

def Kernel.withLock (s : Kernel P) (k : ℕ) (l : Option P) : Kernel P :=
  s.setInode k { s.icache k with lock := l }

theorem withLock_icache (s : Kernel P) (k : ℕ) (l : Option P) :
    (s.withLock k l).icache k = { s.icache k with lock := l } := by
  rw [Kernel.withLock, setInode_icache, update_self]

theorem withLock_none (hfree : (s.icache k).lock = none) (l : Option P) (off : ℕ) :
    ((s.withLock k l).seek f off).withLock k none = s.seek f off := by
  have hsame : { s.icache k with lock := none } = s.icache k := by rw [← hfree]
  simp only [Kernel.withLock, Kernel.seek, Kernel.setInode, Kernel.setFile, update_self,
    update_idem, hsame, update_eq_self]

theorem OpenOn.withLock (h : OpenOn s f k c) (l : Option P) : OpenOn (s.withLock k l) f k c where
  readable := h.readable
  type := h.type
  ip := h.ip
  ref := by rw [withLock_icache]; exact h.ref
  valid := by rw [withLock_icache]; exact h.valid
  file := by rw [withLock_icache]; exact h.file
  noHole := by rw [withLock_icache]; exact h.noHole
  contents := by rw [withLock_icache]; exact h.contents

section Run

variable {p : P} {piped : Ret} {con : Option (List UInt8)}

theorem OpenOn.ilock (h : OpenOn s f k c) (hfree : (s.icache k).lock = none) :
    (ilock k : Task P Unit).run arbiter p s = .ok ((), s.withLock k (some p)) := by
  have href : ¬ (s.icache k).ref < 1 := not_lt.mpr h.ref
  have hcheck : (act fun s => if (s.icache k).ref < 1 then .error .ilock else .ok ((), s) :
      Task P Unit).run arbiter p s = .ok ((), s) := Prog.run_lift_ok (if_neg href)
  unfold Fs.ilock
  rw [Prog.run_bind_ok hcheck,
    Prog.run_bind_ok (Prog.run_request_ok (Option.isNone_iff_eq_none.mpr hfree))]
  exact Prog.run_lift_ok (if_pos (h.withLock (some p)).valid)

variable [DecidableEq P]

theorem OpenOn.iunlock (h : OpenOn s f k c) (hlock : (s.icache k).lock = some p) :
    (iunlock p k).run arbiter p s = .ok ((), s.withLock k none) := by
  have href : ¬ (s.icache k).ref < 1 := not_lt.mpr h.ref
  exact Prog.run_lift_ok (if_neg (not_or.mpr ⟨not_not.mpr hlock, href⟩))

/-- **One read.** It returns what the file has at the offset, at most `n` bytes, and only moves the
offset. -/
theorem OpenOn.fileread_run (h : OpenOn s f k c) (hfree : (s.icache k).lock = none)
    (hoff : (s.ftable f).off ≤ c.length) (hn : n < 2 ^ 31) :
    (fileread sb p f n piped con).run arbiter p s =
      .ok (.bytes ((c.drop (s.ftable f).off).take n),
        s.seek f ((s.ftable f).off + min n (c.length - (s.ftable f).off))) := by
  have hl := h.withLock (some p)
  have hread : Fs.readAt sb f k n (s.withLock k (some p)) =
      .ok (some ((c.drop (s.ftable f).off).take n), (s.withLock k (some p)).seek f
        ((s.ftable f).off + min n (c.length - (s.ftable f).off))) := hl.readAt hoff hn
  have hlock : (((s.withLock k (some p)).seek f
      ((s.ftable f).off + min n (c.length - (s.ftable f).off))).icache k).lock = some p := by
    show ((s.withLock k (some p)).icache k).lock = some p
    rw [withLock_icache]
  unfold fileread
  rw [Prog.run_bind_ok (Prog.run_lift_ok rfl), if_neg (by rw [h.readable]; decide), h.type, h.ip]
  dsimp only
  rw [Prog.run_bind_ok (h.ilock hfree), Prog.run_bind_ok (Prog.run_lift_ok rfl),
    if_neg (by rw [hl.file]; decide), Prog.run_bind_ok (Prog.run_lift_ok hread),
    Prog.run_bind_ok ((hl.seek _).iunlock hlock)]
  dsimp only
  rw [Prog.run_pure]
  exact congrArg (fun t => Except.ok (_, t)) (withLock_none hfree _ _)

/-! ## Repeated reads -/

def readEach (sb : Superblock) (p : P) (f : ℕ) (piped : Ret) (con : Option (List UInt8)) :
    List ℕ → Task P (List Ret)
  | [] => return []
  | n :: ns => do
    let r ← fileread sb p f n piped con
    let rs ← readEach sb p f piped con ns
    return r :: rs

/-- **Repeated reads** return consecutive pieces of the file. -/
theorem OpenOn.readEach_run (h : OpenOn s f k c) (hfree : (s.icache k).lock = none)
    (hoff : (s.ftable f).off ≤ c.length) (ns : List ℕ) (hns : ∀ n ∈ ns, n < 2 ^ 31) :
    (readEach sb p f piped con ns).run arbiter p s =
      .ok ((pieces ns (c.drop (s.ftable f).off)).map .bytes,
        s.seek f ((s.ftable f).off + min ns.sum (c.length - (s.ftable f).off))) := by
  induction ns generalizing s with
  | nil =>
    rw [List.sum_nil, Nat.zero_min, Nat.add_zero, seek_same]
    rfl
  | cons n ns ih =>
    obtain ⟨hn, hns⟩ := List.forall_mem_cons.mp hns
    -- the offset after the first read, from which the rest is read
    set off := (s.ftable f).off + min n (c.length - (s.ftable f).off) with hdef
    have hrest := ih (h.seek off) hfree (by rw [seek_off]; omega) hns
    rw [seek_off, seek_seek] at hrest
    have hpieces : pieces ns (c.drop off) = pieces ns ((c.drop (s.ftable f).off).drop n) := by
      rw [List.drop_drop]
      rcases le_total n (c.length - (s.ftable f).off) with hle | hle
      · rw [hdef, min_eq_left hle]
      · rw [List.drop_eq_nil_of_le (by omega), List.drop_eq_nil_of_le (by omega)]
    have hsum : off + min ns.sum (c.length - off) =
        (s.ftable f).off + min (n + ns.sum) (c.length - (s.ftable f).off) := by omega
    unfold readEach
    rw [Prog.run_bind_ok (h.fileread_run hfree hoff hn), Prog.run_bind_ok hrest, Prog.run_pure,
      hpieces, hsum, List.sum_cons]
    rfl

/-! ## Both -/

variable (sb p piped con)

/-- **`lseek` then `read`.** After an `lseek` to position `pos` of a file, `read` returns the bytes
from there on, as many as it is asked for and the file has, and reads of any sizes return the rest
of the file piece by piece and then nothing. -/
theorem lseek_read (h : OpenOn s f k c) (hfree : (s.icache k).lock = none)
    {pos offset : ℕ} {whence : ℤ} (hpos : pos ≤ c.length)
    (hseek : whence = 0 ∧ offset = pos ∨ whence = 1 ∧ (s.ftable f).off + offset = pos ∨
      whence = 2 ∧ offset = c.length - pos) :
    ∃ s₁, filelseek f offset whence s = .ok (.int 0, s₁) ∧
      (∀ n < 2 ^ 31, ∃ bs s₂, (fileread sb p f n piped con).run arbiter p s₁ = .ok (.bytes bs, s₂) ∧
        bs.length = min n (c.length - pos) ∧
        bs = (c.drop pos).take (min n (c.length - pos)) ∧
        (s₂.ftable f).off = pos + min n (c.length - pos)) ∧
      ∀ ns : List ℕ, (∀ n ∈ ns, 0 < n ∧ n < 2 ^ 31) →
        ∃ (bss : List (List UInt8)) (s₂ : Kernel P),
        (readEach sb p f piped con ns).run arbiter p s₁ = .ok (bss.map .bytes, s₂) ∧
        bss.flatten = (c.drop pos).take ns.sum ∧
        (s₂.ftable f).off = pos + min ns.sum (c.length - pos) ∧
        ∀ i n, ns[i]? = some n → ∃ bs, bss[i]? = some bs ∧
          bs = (c.drop (pos + (ns.take i).sum)).take n ∧
          (bs = [] ↔ c.length ≤ pos + (ns.take i).sum) := by
  have h1 := h.seek pos
  have hoff1 : ((s.seek f pos).ftable f).off ≤ c.length := by rw [seek_off]; exact hpos
  refine ⟨s.seek f pos, h.filelseek_ok hpos hseek, fun n hn => ?_, fun ns hns => ?_⟩
  · have hread : (fileread sb p f n piped con).run arbiter p (s.seek f pos) = _ :=
      h1.fileread_run hfree hoff1 hn
    rw [seek_off, seek_seek] at hread
    refine ⟨_, _, hread, ?_, ?_, seek_off ..⟩
    · rw [List.length_take, List.length_drop]
    · rw [← List.length_drop, ← List.take_take, List.take_length]
  · have hread : (readEach sb p f piped con ns).run arbiter p (s.seek f pos) = _ :=
      h1.readEach_run hfree hoff1 ns fun n hn => (hns n hn).2
    rw [seek_off, seek_seek] at hread
    refine ⟨_, _, hread, pieces_flatten .., seek_off ..,
      fun i n hn => ⟨_, pieces_getElem? _ _ hn, ?_, ?_⟩⟩
    · rw [List.drop_drop]
    · have hpos' : n ≠ 0 := (hns n (List.mem_of_getElem? hn)).1.ne'
      rw [List.drop_drop, List.take_eq_nil_iff, or_iff_right hpos', List.drop_eq_nil_iff]

end Run

def numbers : List UInt8 := [1, 2, 3, 4, 5, 6, 7, 8, 9, 10]

def writeNumbers : List (Fin 1 × Call (Fin 1)) :=
  [(0, .open (some ([120], O_CREATE ||| O_RDWR))), (0, .write 0 numbers (.int 0))]

/-- 3 bytes before the end of the file `read` returns the last three numbers. -/
theorem lseek_read_end : ∃ s₀ s₁ s₂ : Kernel (Fin 1),
    Lts.Reach (callStep sb0 0) (fun _ _ => True) (boot bareDisk 0) s₀ ∧
    filelseek 0 3 2 s₀ = .ok (.int 0, s₁) ∧
    (fileread sb0 0 0 512 (.int 0) none).run arbiter 0 s₁ = .ok (.bytes [8, 9, 10], s₂) := by
  obtain ⟨s, -, hs, hq⟩ := Lts.exists_reach (callStep sb0 (0 : Fin 1)) (boot bareDisk 0)
    writeNumbers
    (fun s => ((s.ftable 0).readable = true ∧ (s.ftable 0).type = .inode ∧
        (s.ftable 0).ip = some 1) ∧
      (1 ≤ (s.icache 1).ref ∧ (s.icache 1).lock = none ∧ (s.icache 1).valid = true ∧
        (s.icache 1).d.type = .file) ∧
      (s.icache 1).d.size = 10 ∧ blockAt s.vol.data (s.icache 1).d (filePos 0) ≠ 0 ∧
      contents s.vol (s.icache 1).d = numbers)
    (by decide +kernel) (Lts.RunOk.trivial _ _)
  obtain ⟨⟨hreadable, htype, hip⟩, ⟨href, hfree, hvalid, hfile⟩, hsize, hblock, hcontents⟩ :=
    of_decide_eq_true hq
  have hhole : NoHole s.vol.data (s.icache 1).d := by
    intro n hn
    obtain rfl : n = 0 := by
      unfold BSIZE at hn
      omega
    exact ⟨by decide, hblock⟩
  have hopen : OpenOn s 0 1 _ := ⟨hreadable, htype, hip, href, hvalid, hfile, hhole, hcontents⟩
  obtain ⟨s₁, hseek, hread, -⟩ := lseek_read sb0 0 (.int 0) none hopen hfree
    (by decide : 7 ≤ numbers.length) (.inr (.inr ⟨rfl, rfl⟩))
  obtain ⟨bs, s₂, hread, -, rfl, -⟩ := hread 512 (by decide)
  exact ⟨s, s₁, s₂, hs, hseek, hread⟩

end Xv6.Fs
