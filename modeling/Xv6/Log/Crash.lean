import Xv6.Log.Recovery

/-!
# Crash atomicity of the redo log

The writes of `commit` are the log copies, the header, the home blocks and the empty header, in
this order (`commit_issued`). Up to the header the disk is `Old`: recovery finds no transaction
there. From the header on it is `Logged`, whatever part of the home blocks has been installed, until
the empty header makes it `Done`. Recovery keeps `Old` and `Done` and takes `Logged` to `Done`, and
each of its own crash points is again `Old`, `Logged` or `Done`; so it may be restarted at will.
-/

namespace Xv6.Log

open Function WriteTrace

/-! ## The writes each phase issues -/

def logWrites (start : ℕ) (data : ℕ → Block) : ℕ → List ℕ → List (ℕ × Block)
  | _, [] => []
  | tail, b :: bs => (start + tail + 1, data b) :: logWrites start data (tail + 1) bs

def homeWrites (data : ℕ → Block) (lh : List ℕ) : List (ℕ × Block) := lh.map fun b => (b, data b)

theorem mem_logWrites {start : ℕ} {data : ℕ → Block} {w : ℕ × Block} :
    ∀ {tail : ℕ} {bs : List ℕ}, w ∈ logWrites start data tail bs →
      start + tail < w.1 ∧ w.1 ≤ start + tail + bs.length := by
  intro tail bs
  induction bs generalizing tail with
  | nil => intro h; simp [logWrites] at h
  | cons b bs ih =>
    intro h
    rw [List.length_cons]
    rcases List.mem_cons.mp h with rfl | h
    · exact ⟨by simp only; omega, by simp only; omega⟩
    · have := ih h
      omega

theorem length_logWrites (start : ℕ) (data : ℕ → Block) (tail : ℕ) (bs : List ℕ) :
    (logWrites start data tail bs).length = bs.length := by
  induction bs generalizing tail with
  | nil => rfl
  | cons b bs ih => rw [logWrites, List.length_cons, ih, List.length_cons]

theorem replay_logWrites (start : ℕ) (data : ℕ → Block) :
    ∀ (bs : List ℕ) (tail : ℕ) (d : ℕ → Block) (i : ℕ) (hi : i < bs.length),
      replay d (logWrites start data tail bs) (start + tail + i + 1) = data bs[i] := by
  intro bs
  induction bs with
  | nil => intro tail d i hi; simp at hi
  | cons b bs ih =>
    intro tail d i hi
    rw [logWrites, replay_cons]
    cases i with
    | zero =>
      rw [replay_of_notMem _ (fun w hw => by have := mem_logWrites hw; omega), Nat.add_zero,
        update_self]
      rfl
    | succ i =>
      rw [show start + tail + (i + 1) + 1 = start + (tail + 1) + i + 1 by omega,
        ih _ _ i (by simpa using hi)]
      rfl

section Phases

variable (rc : Recycle) (start : ℕ) (data : ℕ → Block)

theorem writeLogFrom_spec :
    ∀ (bs : List ℕ) (tail : ℕ) (m : Machine), (∀ b ∈ bs, Pinned m b (data b)) →
      (∀ b ∈ bs, b < start ∨ start + tail + bs.length < b) →
      (writeLogFrom rc start tail bs m).issued = m.issued ++ logWrites start data tail bs ∧
      (writeLogFrom rc start tail bs m).disk = replay m.disk (logWrites start data tail bs) ∧
      (∀ i (hi : i < bs.length),
        Reads (writeLogFrom rc start tail bs m) (start + tail + i + 1) (data bs[i])) ∧
      ∀ x v, Reads m x v → x ≤ start + tail → Reads (writeLogFrom rc start tail bs m) x v := by
  intro bs
  induction bs with
  | nil => intro tail m _ _; exact ⟨by simp [writeLogFrom, logWrites], rfl, by simp,
      fun x v h _ => h⟩
  | cons b bs ih =>
    intro tail m hpin hout
    -- the machine after the first log block
    obtain ⟨m1, hm1⟩ : ∃ m1, m1 = bwrite (bread rc (bread rc m (start + tail + 1)).2 b).2
        (start + tail + 1) (data b) := ⟨_, rfl⟩
    have hb := (hpin b List.mem_cons_self)
    have hrec : writeLogFrom rc start tail (b :: bs) m =
      writeLogFrom rc start (tail + 1) bs m1 := by
      rw [hm1, writeLogFrom, hb.bread.bread_fst]
    have hpin1 : ∀ x ∈ bs, Pinned m1 x (data x) := by
      intro x hx
      rw [hm1]
      have := hout x (List.mem_cons_of_mem _ hx)
      rw [List.length_cons] at this
      exact (hpin x (List.mem_cons_of_mem _ hx)).bread.bread.bwrite (by omega) _
    obtain ⟨hi, hd, hr, hk⟩ := ih (tail + 1) m1 hpin1 (fun x hx => by
      have := hout x (List.mem_cons_of_mem _ hx)
      rw [List.length_cons] at this
      omega)
    rw [hrec]
    refine ⟨?_, ?_, ?_, ?_⟩
    · rw [hi, hm1, bwrite_issued, bread_issued, bread_issued, logWrites, List.append_assoc]
      rfl
    · rw [hd, hm1, bwrite_disk, bread_disk, bread_disk]
      rfl
    · intro i hlt
      cases i with
      | zero =>
        refine hk _ _ ?_ (by omega)
        rw [hm1]
        exact reads_bwrite_self _ _ _
      | succ i =>
        have := hr i (by simpa using hlt)
        rwa [show start + (tail + 1) + i + 1 = start + tail + (i + 1) + 1 by omega] at this
    · intro x v hx hle
      refine hk x v ?_ (by omega)
      rw [hm1]
      exact hx.bread.bread.bwrite (by omega) _

theorem installTransFrom_spec :
    ∀ (bs : List ℕ) (tail : ℕ) (m : Machine),
      (∀ i (hi : i < bs.length), Reads m (start + tail + i + 1) (data bs[i])) →
      (∀ b ∈ bs, b < start ∨ start + tail + bs.length < b) →
      (installTransFrom rc start tail bs m).issued = m.issued ++ homeWrites data bs ∧
      (installTransFrom rc start tail bs m).disk = replay m.disk (homeWrites data bs) := by
  intro bs
  induction bs with
  | nil => intro tail m _ _; exact ⟨by simp [installTransFrom, homeWrites], rfl⟩
  | cons b bs ih =>
    intro tail m hread hout
    have hlog : Reads m (start + tail + 1) (data b) := hread 0 (by simp)
    obtain ⟨m1, hm1⟩ : ∃ m1, m1 = bwrite (bread rc (bread rc m (start + tail + 1)).2 b).2 b
        (data b) := ⟨_, rfl⟩
    have hrec : installTransFrom rc start tail (b :: bs) m =
        installTransFrom rc start (tail + 1) bs m1 := by
      rw [hm1, installTransFrom, hlog.bread_fst]
    have hb := hout b List.mem_cons_self
    rw [List.length_cons] at hb
    obtain ⟨hi, hd⟩ := ih (tail + 1) m1 (fun i hlt => by
      have h := hread (i + 1) (by simpa using hlt)
      rw [show start + tail + (i + 1) + 1 = start + (tail + 1) + i + 1 by omega] at h
      rw [hm1]
      exact h.bread.bread.bwrite (by omega) _) (fun x hx => by
      have := hout x (List.mem_cons_of_mem _ hx)
      rw [List.length_cons] at this
      omega)
    rw [hrec]
    refine ⟨?_, ?_⟩
    · rw [hi, hm1, bwrite_issued, bread_issued, bread_issued, List.append_assoc]
      rfl
    · rw [hd, hm1, bwrite_disk, bread_disk, bread_disk]
      rfl

theorem writeHead_spec (lh : List ℕ) (m : Machine) :
    ∃ hb, (writeHead rc start lh m).issued = m.issued ++ [(start, fillHead lh hb)] ∧
      (writeHead rc start lh m).disk = update m.disk start (fillHead lh hb) ∧
      ∀ x v, Reads m x v → x ≠ start → Reads (writeHead rc start lh m) x v := by
  refine ⟨(bread rc m start).1, ?_, ?_, ?_⟩
  · rw [writeHead, bwrite_issued, bread_issued]
  · rw [writeHead, bwrite_disk, bread_disk]
  · intro x v hx hne
    exact hx.bread.bwrite hne _

end Phases

/-! ## The disk around a transaction -/

section Disk

variable {start size : ℕ} (tx : Transaction start size) (d₀ : ℕ → Block)

def Transaction.InLog (b : ℕ) : Prop := start ≤ b ∧ b ≤ start + tx.block.length

theorem Transaction.not_inLog {b : ℕ} (hb : b ∈ tx.block) : ¬ tx.InLog b := by
  have h := tx.outside b hb
  have hl := tx.lt_size
  unfold Transaction.InLog
  omega

structure Transaction.Old (d : ℕ → Block) : Prop where
  head : headN (d start) = 0
  same : ∀ b, ¬ tx.InLog b → d b = d₀ b

structure Transaction.Logged (d : ℕ → Block) : Prop where
  head : ∃ hb, d start = fillHead tx.block hb
  copy : ∀ i (hi : i < tx.block.length), d (start + i + 1) = tx.data tx.block[i]
  same : ∀ b ∉ tx.block, ¬ tx.InLog b → d b = d₀ b

structure Transaction.Done (d : ℕ → Block) : Prop where
  head : headN (d start) = 0
  new : ∀ b ∈ tx.block, d b = tx.data b
  same : ∀ b ∉ tx.block, ¬ tx.InLog b → d b = d₀ b

variable {tx d₀} {d : ℕ → Block}

theorem Transaction.Old.log_write (h : tx.Old d₀ d) {b : ℕ} (hb : tx.InLog b) (hs : b ≠ start)
    (v : Block) : tx.Old d₀ (update d b v) where
  head := by rw [update_of_ne hs.symm]; exact h.head
  same x hx := by
    rw [update_of_ne (by rintro rfl; exact hx hb)]
    exact h.same x hx

theorem Transaction.Old.head_write (h : tx.Old d₀ d) (hb : Block) :
    tx.Old d₀ (update d start (fillHead [] hb)) where
  head := by rw [update_self]; exact headN_fillHead [] hb (by simp)
  same x hx := by
    rw [update_of_ne (by rintro rfl; exact hx ⟨le_rfl, by omega⟩)]
    exact h.same x hx

theorem Transaction.Done.head_write (h : tx.Done d₀ d) (hb : Block) :
    tx.Done d₀ (update d start (fillHead [] hb)) where
  head := by rw [update_self]; exact headN_fillHead [] hb (by simp)
  new x hx := by
    rw [update_of_ne (by rintro rfl; exact tx.not_inLog hx ⟨le_rfl, by omega⟩)]
    exact h.new x hx
  same x hx hl := by
    rw [update_of_ne (by rintro rfl; exact hl ⟨le_rfl, by omega⟩)]
    exact h.same x hx hl

theorem Transaction.Logged.home_write (h : tx.Logged d₀ d) {b : ℕ} (hb : b ∈ tx.block)
    (v : Block) : tx.Logged d₀ (update d b v) := by
  have hout := tx.not_inLog hb
  have hne : ∀ i ≤ tx.block.length, start + i ≠ b := by
    rintro i hi rfl
    exact hout ⟨by omega, by omega⟩
  refine ⟨?_, ?_, ?_⟩
  · rw [update_of_ne (by simpa using hne 0 (by omega))]
    exact h.head
  · intro i hi
    rw [update_of_ne (show start + i + 1 ≠ b from hne (i + 1) hi)]
    exact h.copy i hi
  · intro x hx hl
    rw [update_of_ne (by rintro rfl; exact hx hb)]
    exact h.same x hx hl

theorem Transaction.Logged.homeWrites_take (h : tx.Logged d₀ d) (k : ℕ) :
    tx.Logged d₀ (replay d ((homeWrites tx.data tx.block).take k)) := by
  refine replay_take_induction (P := tx.Logged d₀) ?_ k d h
  intro w hw d hd
  obtain ⟨b, hb, rfl⟩ := List.mem_map.mp hw
  exact hd.home_write hb _

theorem Transaction.Logged.erase (h : tx.Logged d₀ d) (hb : Block) :
    tx.Done d₀ (update (replay d (homeWrites tx.data tx.block)) start
      (fillHead [] hb)) := by
  have hL : tx.Logged d₀ (replay d (homeWrites tx.data tx.block)) := by
    have := h.homeWrites_take (homeWrites tx.data tx.block).length
    rwa [List.take_length] at this
  refine ⟨?_, ?_, ?_⟩
  · rw [update_self]; exact headN_fillHead [] hb (by simp)
  · intro x hx
    rw [update_of_ne (by rintro rfl; exact tx.not_inLog hx ⟨le_rfl, by omega⟩)]
    exact replay_map_apply tx.data d hx
  · intro x hx hl
    rw [update_of_ne (by rintro rfl; exact hl ⟨le_rfl, by omega⟩)]
    exact hL.same x hx hl

theorem Transaction.Old.commit_point (h : tx.Old d₀ d) (hb : Block) :
    tx.Logged d₀ (update (replay d (logWrites start tx.data 0 tx.block)) start
      (fillHead tx.block hb)) := by
  refine ⟨⟨hb, update_self _ _ _⟩, ?_, ?_⟩
  · intro i hi
    rw [update_of_ne (by omega)]
    have := replay_logWrites start tx.data tx.block 0 d i hi
    rwa [Nat.add_zero] at this
  · intro x _ hl
    rw [update_of_ne (by rintro rfl; exact hl ⟨le_rfl, by omega⟩),
      replay_of_notMem _ (fun w hw => ?_)]
    · exact h.same x hl
    · rintro rfl
      have := mem_logWrites hw
      exact hl ⟨by omega, by omega⟩

end Disk

/-! ## Recovery -/

def RecoveryCrash (start : ℕ) (d d' : ℕ → Block) : Prop :=
  ∃ rc m k, recoverFromLog rc start (Machine.boot d) = some m ∧ d' = replay d (m.issued.take k)

section Recover

variable {start size : ℕ} {tx : Transaction start size} {d₀ d : ℕ → Block}

theorem recoverFromLog_of_empty (rc : Recycle) (h : headN (d start) = 0) :
    ∃ m hb, recoverFromLog rc start (Machine.boot d) = some m ∧
      m.issued = [(start, fillHead [] hb)] ∧ m.disk = replay d m.issued := by
  have hread : (bread rc (Machine.boot d) start).1 = d start := (reads_boot d start).bread_fst
  have hnil : headBlocks (d start) = [] := by unfold headBlocks; rw [h]; rfl
  obtain ⟨hb, hi, hd, -⟩ := writeHead_spec rc start []
    (bread rc (Machine.boot d) start).2
  refine ⟨writeHead rc start [] (bread rc (Machine.boot d) start).2, hb, ?_, ?_, ?_⟩
  · unfold recoverFromLog readHead
    simp only [hread, h, hnil]
    rfl
  · rw [hi, bread_issued]; rfl
  · rw [hd, hi, bread_disk, bread_issued]; rfl

theorem recoverFromLog_of_logged (rc : Recycle) (h : tx.Logged d₀ d) :
    ∃ m hb, recoverFromLog rc start (Machine.boot d) = some m ∧
      m.issued = homeWrites tx.data tx.block ++ [(start, fillHead [] hb)] ∧
      m.disk = replay d m.issued := by
  obtain ⟨hb0, hhead⟩ := h.head
  have hread : (bread rc (Machine.boot d) start).1 = d start := (reads_boot d start).bread_fst
  have hn : headN (d start) = tx.block.length := by
    rw [hhead, headN_fillHead _ _ tx.le_logsize]
  have hblocks : headBlocks (d start) = tx.block := by
    rw [hhead, headBlocks_fillHead _ _ tx.le_logsize tx.isWord]
  obtain ⟨m1, hm1⟩ : ∃ m1, m1 = (bread rc (Machine.boot d) start).2 := ⟨_, rfl⟩
  obtain ⟨hi, hd⟩ := installTransFrom_spec rc start tx.data
    tx.block 0 m1 (fun i hlt => by
      have hr : Reads m1 (start + i + 1) (d (start + i + 1)) := by
        rw [hm1]; exact (reads_boot d _).bread
      rw [h.copy i hlt] at hr
      exact hr) (fun b hb => by
      have := tx.outside b hb
      have := tx.lt_size
      omega)
  obtain ⟨hb, hwi, hwd, -⟩ := writeHead_spec rc start []
    (installTransFrom rc start 0 tx.block m1)
  have hiss : (installTransFrom rc start 0 tx.block m1).issued = homeWrites tx.data tx.block := by
    rw [hi, hm1, bread_issued]; rfl
  refine ⟨writeHead rc start [] (installTransFrom rc start 0 tx.block m1), hb, ?_, ?_, ?_⟩
  · unfold recoverFromLog readHead
    simp only [hread, hn, hblocks]
    rw [if_pos (by exact_mod_cast tx.le_logsize), ← hm1]
    rfl
  · rw [hwi, hiss]
  · rw [hwd, hwi, hiss, replay_concat, hd, hm1, bread_disk]
    rfl

theorem Transaction.Old.recoveryCrash {d' : ℕ → Block} (h : tx.Old d₀ d)
    (hc : RecoveryCrash start d d') : tx.Old d₀ d' := by
  obtain ⟨rc, m, k, hrun, rfl⟩ := hc
  obtain ⟨m', hb, hrun', hi, -⟩ := recoverFromLog_of_empty rc h.head
  obtain rfl : m = m' := Option.some.inj (hrun.symm.trans hrun')
  rw [hi]
  refine replay_take_induction (P := tx.Old d₀) ?_ k d h
  intro w hw d hd
  obtain rfl := List.mem_singleton.mp hw
  exact hd.head_write hb

theorem Transaction.committed_recoveryCrash {d' : ℕ → Block} (h : tx.Logged d₀ d ∨ tx.Done d₀ d)
    (hc : RecoveryCrash start d d') : tx.Logged d₀ d' ∨ tx.Done d₀ d' := by
  obtain ⟨rc, m, k, hrun, rfl⟩ := hc
  rcases h with h | h
  · obtain ⟨m', hb, hrun', hi, -⟩ := recoverFromLog_of_logged rc h
    obtain rfl : m = m' := Option.some.inj (hrun.symm.trans hrun')
    rw [hi]
    rcases take_append_cons (homeWrites tx.data tx.block) [] (start, fillHead [] hb) k with
      ⟨-, ht⟩ | ⟨-, ht⟩
    · rw [ht]
      exact Or.inl (h.homeWrites_take k)
    · rw [ht, List.take_nil, replay_concat]
      exact Or.inr (h.erase hb)
  · obtain ⟨m', hb, hrun', hi, -⟩ := recoverFromLog_of_empty rc h.head
    obtain rfl : m = m' := Option.some.inj (hrun.symm.trans hrun')
    rw [hi]
    refine Or.inr (replay_take_induction (P := tx.Done d₀) ?_ k d h)
    intro w hw d hd
    obtain rfl := List.mem_singleton.mp hw
    exact hd.head_write hb

end Recover

/-! ## Commit -/

section Commit

variable {start size : ℕ} {tx : Transaction start size}

/-- **The writes of `commit`**: log copies, header, home blocks, empty header. -/
theorem commit_issued (rc : Recycle) {m : Machine} (hm : m.issued = [])
    (hpin : ∀ b ∈ tx.block, Pinned m b (tx.data b)) (hne : 0 < tx.block.length) :
    ∃ hb hb', (commit rc start tx.block m).issued =
      logWrites start tx.data 0 tx.block ++ (start, fillHead tx.block hb) ::
        (homeWrites tx.data tx.block ++ [(start, fillHead [] hb')]) := by
  have hout : ∀ b ∈ tx.block, b < start ∨ start + 0 + tx.block.length < b := by
    intro b hb
    have := tx.outside b hb
    have := tx.lt_size
    omega
  obtain ⟨hi1, -, hr1, -⟩ := writeLogFrom_spec rc start tx.data tx.block 0 m hpin hout
  obtain ⟨hb, hi2, -, hr2⟩ := writeHead_spec rc start tx.block
    (writeLogFrom rc start 0 tx.block m)
  obtain ⟨hi3, -⟩ := installTransFrom_spec rc start tx.data tx.block 0
    (writeHead rc start tx.block (writeLogFrom rc start 0 tx.block m))
    (fun i hlt => hr2 _ _ (hr1 i hlt) (by omega)) hout
  obtain ⟨hb', hi4, -, -⟩ := writeHead_spec rc start []
    (installTransFrom rc start 0 tx.block
      (writeHead rc start tx.block (writeLogFrom rc start 0 tx.block m)))
  refine ⟨hb, hb', ?_⟩
  unfold commit
  rw [if_pos hne]
  unfold installTrans writeLog
  rw [hi4, hi3, hi2, hi1, hm]
  simp

theorem commit_crash (rc : Recycle) {m : Machine} (hm : m.issued = [])
    (hempty : headN (m.disk start) = 0) (hpin : ∀ b ∈ tx.block, Pinned m b (tx.data b)) (k : ℕ) :
    (k ≤ tx.block.length ∨ tx.block.length = 0 →
      tx.Old m.disk (replay m.disk ((commit rc start tx.block m).issued.take k))) ∧
    (tx.block.length < k → 0 < tx.block.length →
      tx.Logged m.disk (replay m.disk ((commit rc start tx.block m).issued.take k)) ∨
      tx.Done m.disk (replay m.disk ((commit rc start tx.block m).issued.take k))) := by
  have hold : tx.Old m.disk m.disk := ⟨hempty, fun _ _ => rfl⟩
  by_cases hne : 0 < tx.block.length
  · obtain ⟨hb, hb', hi⟩ := commit_issued rc hm hpin hne
    have hlen := length_logWrites start tx.data 0 tx.block
    rw [hi]
    rcases take_append_cons (logWrites start tx.data 0 tx.block)
      (homeWrites tx.data tx.block ++ [(start, fillHead [] hb')])
        (start, fillHead tx.block hb) k with
      ⟨hk, ht⟩ | ⟨hk, ht⟩
    · refine ⟨fun _ => ?_, fun h => by omega⟩
      rw [ht]
      refine replay_take_induction (P := tx.Old m.disk) ?_ k _ hold
      intro w hw d hd
      have := mem_logWrites hw
      exact hd.log_write ⟨by omega, by omega⟩ (by omega) _
    · refine ⟨fun h => by omega, fun _ _ => ?_⟩
      have hL := hold.commit_point hb
      rw [ht, replay_append, replay_cons]
      rcases take_append_cons (homeWrites tx.data tx.block) [] (start, fillHead [] hb')
        (k - (logWrites start tx.data 0 tx.block).length - 1) with ⟨-, ht'⟩ | ⟨-, ht'⟩
      · rw [ht']
        exact Or.inl (hL.homeWrites_take _)
      · rw [ht', List.take_nil, replay_concat]
        exact Or.inr (hL.erase hb')
  · refine ⟨fun _ => ?_, fun _ h => absurd h hne⟩
    unfold commit
    rw [if_neg hne, hm]
    simpa using hold

end Commit

/-- **Crash atomicity.** Take a disk with an empty log header and a transaction pinned in the
buffer cache. Crash `commit` after any `k` of its block writes, then crash recovery any number of
times; the next complete recovery leaves all home blocks old if the crash came before the header
write and all new if it came after it, every block outside the transaction untouched, and the header
empty. -/
theorem commit_crash_atomic {start size : ℕ} (tx : Transaction start size) (m : Machine)
    (hm : m.issued = []) (hempty : headN (m.disk start) = 0)
    (hpin : ∀ b ∈ tx.block, Pinned m b (tx.data b)) (rc : Recycle) (k : ℕ) (d : ℕ → Block)
    (hcrash : Relation.ReflTransGen (RecoveryCrash start)
      (replay m.disk ((commit rc start tx.block m).issued.take k)) d) (rc' : Recycle) :
    ∃ r, recoverFromLog rc' start (Machine.boot d) = some r ∧
      (k ≤ tx.block.length → ∀ b ∈ tx.block, r.disk b = m.disk b) ∧
      (tx.block.length < k → ∀ b ∈ tx.block, r.disk b = tx.data b) ∧
      (∀ b ∉ tx.block, ¬ (start ≤ b ∧ b ≤ start + tx.block.length) → r.disk b = m.disk b) ∧
      headN (r.disk start) = 0 := by
  obtain ⟨hold, hnew⟩ := commit_crash rc hm hempty hpin k
  by_cases hk : k ≤ tx.block.length ∨ tx.block.length = 0
  · have hd : tx.Old m.disk d := by
      induction hcrash with
      | refl => exact hold hk
      | tail _ hstep ih => exact ih.recoveryCrash hstep
    obtain ⟨r, hb, hrun, hi, hdisk⟩ := recoverFromLog_of_empty rc' hd.head
    have hr : tx.Old m.disk r.disk := by
      rw [hdisk, hi]
      exact hd.head_write hb
    refine ⟨r, hrun, fun _ b hb => hr.same b (tx.not_inLog hb), fun h b hb => ?_,
      fun b _ hb => hr.same b hb, hr.head⟩
    have := List.length_pos_of_mem hb
    omega
  · have hd : tx.Logged m.disk d ∨ tx.Done m.disk d := by
      induction hcrash with
      | refl => exact hnew (by omega) (by omega)
      | tail _ hstep ih => exact Transaction.committed_recoveryCrash ih hstep
    have hr : ∃ r, recoverFromLog rc' start (Machine.boot d) = some r ∧ tx.Done m.disk r.disk := by
      rcases hd with hd | hd
      · obtain ⟨r, hb, hrun, hi, hdisk⟩ := recoverFromLog_of_logged rc' hd
        refine ⟨r, hrun, ?_⟩
        rw [hdisk, hi, replay_concat]
        exact hd.erase hb
      · obtain ⟨r, hb, hrun, hi, hdisk⟩ := recoverFromLog_of_empty rc' hd.head
        refine ⟨r, hrun, ?_⟩
        rw [hdisk, hi]
        exact hd.head_write hb
    obtain ⟨r, hrun, hr⟩ := hr
    exact ⟨r, hrun, fun h => by omega, fun _ => hr.new, hr.same, hr.head⟩

def twoBlocks : Transaction 2 30 where
  block := [59, 61]
  data b _ := UInt8.ofNat b
  nodup := by decide
  le_logsize := by decide
  lt_size := by decide
  outside := by decide
  isWord := by decide

def twoBlocksPinned : Machine where
  disk _ := Block.zero
  cache b := if b ∈ twoBlocks.block then some (twoBlocks.data b) else none
  dirty b := b ∈ twoBlocks.block
  issued := []

def halfInstalled : ℕ → Block :=
  replay twoBlocksPinned.disk
    ((commit (fun _ _ _ => true) 2 [59, 61] twoBlocksPinned).issued.take 4)

/-- Recovery crashes there as well, after its first write; the next one installs both blocks and
leaves the block between them alone. -/
theorem commit_crash_atomic_two_blocks : ∃ m r,
    recoverFromLog (fun _ _ _ => true) 2 (Machine.boot halfInstalled) = some m ∧
    recoverFromLog (fun _ _ _ => true) 2
      (Machine.boot (replay halfInstalled (m.issued.take 1))) = some r ∧
    (∀ i, r.disk 59 i = 59 ∧ r.disk 61 i = 61) ∧ r.disk 60 = Block.zero := by
  have hsome :
      (recoverFromLog (fun _ _ _ => true) 2 (Machine.boot halfInstalled)).isSome = true := by
    decide +kernel
  obtain ⟨m, hm⟩ := Option.isSome_iff_exists.mp hsome
  have hpin : ∀ b ∈ twoBlocks.block, Pinned twoBlocksPinned b (twoBlocks.data b) := fun b hb =>
    ⟨if_pos hb, decide_eq_true hb⟩
  obtain ⟨r, hr, -, hnew, hsame, -⟩ := commit_crash_atomic twoBlocks twoBlocksPinned rfl rfl hpin
    (fun _ _ _ => true) 4 _ (.single ⟨_, m, 1, hm, rfl⟩) (fun _ _ _ => true)
  refine ⟨m, r, hm, hr, fun i => ?_, hsame 60 (by decide) (by decide)⟩
  rw [hnew (by decide) 59 (by decide), hnew (by decide) 61 (by decide)]
  exact ⟨rfl, rfl⟩

end Xv6.Log
