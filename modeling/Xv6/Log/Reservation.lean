import Xv6.Log.GroupCommit

/-!
# Log space reservation

`begin_op` admits an operation when `log.lh.n + (log.outstanding + 1) * MAXOPBLOCKS` is at most
`LOGSIZE`, as if the log had room for `LOGSIZE` blocks. `mkfs` gives the log `nlog = LOGSIZE`
blocks, one of which is the header, and `log_write` refuses to start once `log.lh.n` has reached
`log.size - 1`, also when the block is already in the header and would be absorbed.

`reservation_insufficient` runs three operations within their budget into the panic, and, because
the test is made outside `log.lock`, past the end of the log. `reservation_sufficient` is the
accounting that would be enough: if at each admission the blocks in the header plus all that the
operations in flight and the new one may still log stay at most `log.size - 2`, neither happens.
-/

namespace Xv6.Log

open Function Lts

def nlog : ℕ := LOGSIZE

section Budget

variable {P : Type}

/-- Each operation logs at most `MAXOPBLOCKS` distinct blocks. -/
def InBudget (s : GState P) : GLabel P → Prop
  | .logWrite p b => ∀ o ∈ (s.pc p).op, (s.logged o ++ [b]).dedup.length ≤ MAXOPBLOCKS
  | _ => True

instance (s : GState P) : ∀ l, Decidable (InBudget s l)
  | .logWrite p b => inferInstanceAs
      (Decidable (∀ o ∈ (s.pc p).op, (s.logged o ++ [b]).dedup.length ≤ MAXOPBLOCKS))
  | .beginOp _ | .tryBegin _ | .kill _ | .record _ | .endOp _ | .commit _ => isTrue trivial

def GState.remaining (s : GState P) (o : ℕ) : ℕ := MAXOPBLOCKS - (s.logged o).dedup.length

/-- Blocks in the header and blocks the operations in flight may still add. -/
def GState.reserved (s : GState P) : ℕ := s.lh.length + (s.active.map s.remaining).sum

/-- `begin_op` admits an operation only while everything it and the others may log fits strictly
below the limit `log.size - 1` that `log_write` tests. -/
def Roomy (size : ℕ) (s : GState P) : GLabel P → Prop
  | .tryBegin p => s.pc p = .trying → s.committing = false →
      (s.lh.length : ℤ) + (s.outstanding + 1) * MAXOPBLOCKS ≤ LOGSIZE →
      s.reserved + MAXOPBLOCKS + 2 ≤ size
  | _ => True

instance (size : ℕ) (s : GState P) : ∀ l, Decidable (Roomy size s l)
  | .tryBegin p => inferInstanceAs (Decidable (s.pc p = .trying → s.committing = false →
      (s.lh.length : ℤ) + (s.outstanding + 1) * MAXOPBLOCKS ≤ LOGSIZE →
      s.reserved + MAXOPBLOCKS + 2 ≤ size))
  | .beginOp _ | .kill _ | .logWrite _ _ | .record _ | .endOp _ | .commit _ => isTrue trivial

end Budget

/-! ## Three operations exhaust the log -/

def writeBlock (p : Fin 3) (b : ℕ) : List (GLabel (Fin 3)) := [.logWrite p b, .record p]

def threeOps (k : ℕ) : List (GLabel (Fin 3)) :=
  ([0, 1, 2].flatMap fun p => [.beginOp p, .tryBegin p]) ++
    ((List.range 10).flatMap fun j => writeBlock 0 (100 + j)) ++
    ((List.range 9).flatMap fun j => writeBlock 1 (200 + j)) ++
    (List.range k).flatMap fun j => writeBlock 2 (300 + j)

def overrunPanic : List (GLabel (Fin 3)) := threeOps 10 ++ [.logWrite 1 209]

def overrunRace : List (GLabel (Fin 3)) :=
  threeOps 9 ++ [.logWrite 1 209, .logWrite 2 309, .record 1, .record 2]

/-- **The reservation is not sufficient.** Three operations of ten distinct blocks each reach the
panic at the thirtieth block; and if two of them test the size of the log together while 28 blocks
are in the header, the header ends with 30 blocks. -/
theorem reservation_insufficient :
    (∃ s, Reach (gstep nlog) InBudget (ginit : GState (Fin 3)) s ∧ s.panic = some .tooBig) ∧
    ∃ s, Reach (gstep nlog) InBudget (ginit : GState (Fin 3)) s ∧ nlog - 1 < s.lh.length := by
  have hreach : ∀ ls, (run (gstep nlog) (ginit : GState (Fin 3)) ls).isSome →
      RunOk (gstep nlog) InBudget (ginit : GState (Fin 3)) ls →
      ∃ s, run (gstep nlog) ginit ls = some s ∧ Reach (gstep nlog) InBudget ginit s := by
    intro ls hsome hok
    obtain ⟨s, hs⟩ := Option.isSome_iff_exists.mp hsome
    exact ⟨s, hs, Reach.of_run hs hok⟩
  refine ⟨?_, ?_⟩
  · obtain ⟨s, hs, hr⟩ := hreach overrunPanic (by decide +kernel) (by decide +kernel)
    have hp : (run (gstep nlog) (ginit : GState (Fin 3)) overrunPanic).map (·.panic) =
        some (some .tooBig) := by decide +kernel
    rw [hs] at hp
    exact ⟨s, hr, Option.some.inj hp⟩
  · obtain ⟨s, hs, hr⟩ := hreach overrunRace (by decide +kernel) (by decide +kernel)
    have hp : (run (gstep nlog) (ginit : GState (Fin 3)) overrunRace).map (·.lh.length) =
        some 30 := by decide +kernel
    rw [hs] at hp
    have hlen : s.lh.length = 30 := Option.some.inj hp
    refine ⟨s, hr, ?_⟩
    rw [hlen]
    decide

/-! ## Enough room -/

section Sufficient

variable {P : Type} [DecidableEq P] {size : ℕ} {s s' : GState P} {l : GLabel P}

structure RInv (size : ℕ) (s : GState P) : Prop where
  room : s.reserved + 2 ≤ size
  pending : ∀ p o b, s.pc p = .logging o b → (s.logged o ++ [b]).dedup.length ≤ MAXOPBLOCKS
  safe : s.panic ≠ some .tooBig

omit [DecidableEq P] in
theorem length_le_reserved (s : GState P) : s.lh.length ≤ s.reserved := Nat.le_add_right _ _

omit [DecidableEq P] in
theorem RInv.of_le (h : RInv size s) (hle : s'.reserved ≤ s.reserved)
    (hlog : s'.logged = s.logged) (hpc : ∀ p o b, s'.pc p = .logging o b → s.pc p = .logging o b)
    (hsafe : s'.panic ≠ some .tooBig) : RInv size s' where
  room := le_trans (Nat.add_le_add_right hle 2) h.room
  pending p o b hp := by rw [hlog]; exact h.pending p o b (hpc p o b hp)
  safe := hsafe

theorem update_logging {pc : P → Pc} {p q : P} {c : Pc} {o b : ℕ} (hc : ∀ o b, c ≠ .logging o b)
    (h : update pc p c q = .logging o b) : pc q = .logging o b := by
  by_cases hq : q = p
  · subst hq; rw [update_self] at h; exact absurd h (hc o b)
  · rwa [update_of_ne hq] at h

omit [DecidableEq P] in
theorem wakeup_logging {pc : P → Pc} {q : P} {o b : ℕ} (h : wakeup pc q = .logging o b) :
    pc q = .logging o b := by
  unfold wakeup at h
  split_ifs at h
  exact h

theorem record_reserved_le (hi : GInv s) (hr : RInv size s) {p : P} {o b : ℕ}
    (hp : s.pc p = .logging o b) : (record s p o b).reserved ≤ s.reserved := by
  have hop : (s.pc p).op = some o := by rw [hp]; rfl
  have hact := hi.pcs.mem_of_op hop
  have hbud := hr.pending p o b hp
  have hsum := List.sum_map_erase s.remaining hact
  have hsum' := List.sum_map_erase (record s p o b).remaining hact
  -- the other operations keep their reservation
  have hrest : (s.active.erase o).map (record s p o b).remaining =
      (s.active.erase o).map s.remaining := by
    refine List.map_congr_left fun x hx => ?_
    have hne : x ≠ o := ((hi.pcs.nodup.mem_erase_iff).mp hx).1
    unfold GState.remaining
    rw [show (record s p o b).logged x = s.logged x from update_of_ne hne _ s.logged]
  have hlogged : (record s p o b).logged o = s.logged o ++ [b] := update_self o _ s.logged
  have hrem : (record s p o b).remaining o = MAXOPBLOCKS - (s.logged o ++ [b]).dedup.length := by
    unfold GState.remaining; rw [hlogged]
  have hrem0 : s.remaining o = MAXOPBLOCKS - (s.logged o).dedup.length := rfl
  have hcard : (s.logged o ++ [b]).dedup.length = (insert b (s.logged o).toFinset).card := by
    rw [← List.card_toFinset, List.toFinset_append, List.toFinset_cons, List.toFinset_nil]
    congr 1
    ext x
    simp
  have hcard0 : (s.logged o).dedup.length = (s.logged o).toFinset.card :=
    (List.card_toFinset _).symm
  have hres : (record s p o b).reserved =
      (record s p o b).lh.length + (s.active.map (record s p o b).remaining).sum := rfl
  have hres0 : s.reserved = s.lh.length + (s.active.map s.remaining).sum := rfl
  rw [hres, hres0, ← hsum, ← hsum', hrest]
  by_cases hb : b ∈ s.lh
  · have hlh : (record s p o b).lh = s.lh := if_pos hb
    have := Finset.card_le_card (Finset.subset_insert b (s.logged o).toFinset)
    rw [hlh, hrem, hrem0]
    omega
  · have hlh : (record s p o b).lh.length = s.lh.length + 1 := by
      rw [show (record s p o b).lh = s.lh ++ [b] from if_neg hb, List.length_append,
        List.length_singleton]
    have hnew : b ∉ (s.logged o).toFinset := fun hm =>
      hb (hi.hist.kept o (hi.hist.sub o hact) b (List.mem_toFinset.mp hm))
    have := Finset.card_insert_of_notMem hnew
    rw [hlh, hrem, hrem0]
    omega

theorem rinv_step (hsz : size ≤ LOGSIZE) (hi : GInv s) (hr : RInv size s) (hb : InBudget s l)
    (hroom : Roomy size s l) (hs : gstep size s l = some s') : RInv size s' := by
  have hlen := length_le_reserved s
  have hfit := hr.room
  obtain ⟨hn, hs⟩ := gstep_cases hs
  have hsafe : s.panic ≠ some .tooBig := by simp [hn]
  cases hs with
  | @move _ p c hp hc hph =>
    refine hr.of_le le_rfl rfl (fun q o b hq => update_logging ?_ hq) hsafe
    rcases hc with rfl | rfl <;> simp
  | @enter p hp hc hadm =>
    have hlogged : s.logged s.nextOp = [] := hi.hist.fresh _ le_rfl
    have hbound := hroom hp hc hadm
    refine ⟨?_, ?_, hsafe⟩
    · show s.lh.length + ((s.nextOp :: s.active).map s.remaining).sum + 2 ≤ size
      have hrem : s.remaining s.nextOp = MAXOPBLOCKS := by
        unfold GState.remaining; rw [hlogged]; rfl
      have hres0 : s.reserved = s.lh.length + (s.active.map s.remaining).sum := rfl
      rw [List.map_cons, List.sum_cons, hrem]
      omega
    · intro q o b hq
      exact hr.pending q o b (update_logging (by simp) hq)
  | @tooBig p o b hp hbig => omega
  | @outsideTrans p o b hp hout => exact hr.of_le le_rfl rfl (fun _ _ _ h => h) (by simp)
  | @test p o b hp hlt hlt' =>
    refine ⟨hr.room, ?_, hsafe⟩
    intro q o' b' hq
    by_cases hqp : q = p
    · subst hqp
      rw [goto_pc, update_self] at hq
      obtain ⟨rfl, rfl⟩ := Pc.logging.inj hq
      exact hb o (by rw [hp]; rfl)
    · rw [goto_pc, update_of_ne hqp] at hq
      exact hr.pending q o' b' hq
  | @record p o b hp =>
    refine ⟨le_trans (Nat.add_le_add_right (record_reserved_le hi hr hp) 2) hr.room, ?_, hsafe⟩
    intro q o' b' hq
    have hq' := update_logging (by simp) hq
    have hne : o' ≠ o := by
      rintro rfl
      have hqp := hi.pcs.unique q p o' (by rw [hq']; rfl) (by rw [hp]; rfl)
      subst hqp
      rw [show (record s q o' b).pc q = .inOp o' from update_self q _ s.pc] at hq
      exact absurd hq (by simp)
    rw [show (record s p o b).logged o' = s.logged o' from update_of_ne hne _ s.logged]
    exact hr.pending q o' b' hq'
  | @endPanic p o hp hc => exact hr.of_le le_rfl rfl (fun _ _ _ h => h) (by simp)
  | @endLast p o hp hc hlast =>
    have hsum := List.sum_map_erase s.remaining (hi.pcs.mem_of_op (p := p) (o := o)
      (by rw [hp]; rfl))
    refine hr.of_le ?_ rfl (fun q o b hq => update_logging (by simp) hq) hsafe
    show s.lh.length + ((s.active.erase o).map s.remaining).sum ≤
      s.lh.length + (s.active.map s.remaining).sum
    omega
  | @endMore p o hp hc hmore =>
    have hsum := List.sum_map_erase s.remaining (hi.pcs.mem_of_op (p := p) (o := o)
      (by rw [hp]; rfl))
    refine hr.of_le ?_ rfl (fun q o b hq => update_logging (by simp) (wakeup_logging hq)) hsafe
    show s.lh.length + ((s.active.erase o).map s.remaining).sum ≤
      s.lh.length + (s.active.map s.remaining).sum
    omega
  | @commit p ph hp =>
    have hgoto : ∀ (c : Phase) (s' : GState P), s'.pc = update s.pc p (.committing c) →
        s'.active = s.active → s'.logged = s.logged → s'.lh.length ≤ s.lh.length →
        s'.panic = s.panic → RInv size s' := by
      intro c s' hpc ha hl hlh hpn
      refine hr.of_le ?_ hl (fun q o b hq => ?_) (by rw [hpn]; exact hsafe)
      · have hrem : s'.remaining = s.remaining := by
          funext x; unfold GState.remaining; rw [hl]
        unfold GState.reserved
        rw [ha, hrem]
        omega
      · rw [hpc] at hq
        exact update_logging (by simp) hq
    cases ph with
    | test =>
      unfold commitPhase
      split_ifs
      · exact hgoto .writeLog _ rfl rfl rfl le_rfl rfl
      · exact hgoto .finish _ rfl rfl rfl le_rfl rfl
    | writeLog => exact hgoto .writeHead _ rfl rfl rfl le_rfl rfl
    | writeHead => exact hgoto .install _ rfl rfl rfl le_rfl rfl
    | install => exact hgoto .clear _ rfl rfl rfl le_rfl rfl
    | clear => exact hgoto .erase _ rfl rfl rfl (Nat.zero_le _) rfl
    | erase => exact hgoto .finish _ rfl rfl rfl le_rfl rfl
    | finish =>
      exact hr.of_le le_rfl rfl (fun q o b hq => update_logging (by simp) (wakeup_logging hq)) hsafe

end Sufficient

/-- **When the reservation is sufficient.** In every run in which each operation logs at most
`MAXOPBLOCKS` distinct blocks and `begin_op` admits an operation only while the blocks in the header
plus all that the operations in flight and the new one may still log stay at most `log.size - 2`,
the panic "too big a transaction" is not reached and `log.lh.n` never exceeds `log.size - 1`. -/
theorem reservation_sufficient {P : Type} [DecidableEq P] {s : GState P}
    (h : Reach (gstep nlog) (fun s l => InBudget s l ∧ Roomy nlog s l) ginit s) :
    s.panic ≠ some .tooBig ∧ s.lh.length ≤ nlog - 1 := by
  have hinv : GInv s ∧ RInv nlog s := by
    refine h.invariant (I := fun s => GInv s ∧ RInv nlog s) ⟨ginv_ginit, ?_⟩ ?_
    · have h0 : (ginit : GState P).reserved + 2 ≤ nlog := show 0 + 2 ≤ 30 by omega
      exact ⟨h0, fun _ _ _ hp => by simp [ginit] at hp, by simp [ginit]⟩
    · rintro s s' l ⟨hi, hr⟩ ⟨hb, hroom⟩ hs
      obtain ⟨hn, hg⟩ := gstep_cases hs
      exact ⟨ginv_step hi hn hg, rinv_step le_rfl hi hr hb hroom hs⟩
  have hlen := length_le_reserved s
  have hroom := hinv.2.room
  exact ⟨hinv.2.safe, by omega⟩

def twoInFlight : List (GLabel (Fin 3)) :=
  ([0, 1].flatMap fun p => [.beginOp p, .tryBegin p]) ++
    ((List.range 10).flatMap fun j => writeBlock 0 (100 + j)) ++ writeBlock 1 200

theorem reservation_sufficient_two_ops : ∃ s,
    run (gstep nlog) (ginit : GState (Fin 3)) twoInFlight = some s ∧ s.lh.length = 11 ∧
    s.panic ≠ some .tooBig ∧ s.lh.length ≤ nlog - 1 := by
  obtain ⟨s, hs⟩ := Option.isSome_iff_exists.mp
    (by decide +kernel : (run (gstep nlog) (ginit : GState (Fin 3)) twoInFlight).isSome)
  have hlen : (run (gstep nlog) (ginit : GState (Fin 3)) twoInFlight).map
    (·.lh.length) = some 11 := by
    decide +kernel
  rw [hs] at hlen
  have hr : Reach (gstep nlog) (fun s l => InBudget s l ∧ Roomy nlog s l) ginit s :=
    Reach.of_run hs (by decide +kernel)
  exact ⟨s, hs, Option.some.inj hlen, reservation_sufficient hr⟩

end Xv6.Log
