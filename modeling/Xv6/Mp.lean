import Mathlib.Tactic

/-!
# The multiprocessor table

`mpinit` walks the entries of the table that the firmware has left in memory. An entry of a known
type moves the cursor behind it; `default: ismp = 0; break` leaves the `switch` and not the loop, so
the cursor stays where it is. `scan_stuck` says that such a walk never ends, `scan_ends` that every
other one does.
-/

namespace Xv6.Mp

def NCPU : ℕ := 8

def CONF : ℕ := 44

abbrev Table := ℕ → UInt8

def length (t : Table) : ℕ := (t 4).toNat + 256 * (t 5).toNat

def lapicaddr (t : Table) : ℕ :=
  (t 36).toNat + 256 * ((t 37).toNat + 256 * ((t 38).toNat + 256 * (t 39).toNat))

def sum (t : Table) (len : ℕ) : ℕ := ((List.range len).map fun i => (t i).toNat).sum % 256

def accepts (t : Table) : Bool :=
  [t 0, t 1, t 2, t 3] = [80, 67, 77, 80] ∧ (t 6 = 1 ∨ t 6 = 4) ∧ sum t (length t) = 0

def mpconfig (mem : ℕ → UInt8) (physaddr : Option ℕ) : Option Table := do
  let a ← physaddr
  if a = 0 then none
  else
    let conf : Table := fun i => mem (a + i)
    if accepts conf then some conf else none

/-- What the loop of `mpinit` works on; `cpus` are the recorded processors' `apicid`s. -/
structure Scan where
  p : ℕ
  ismp : Bool
  cpus : List UInt8
  ioapicid : UInt8
  lapic : ℕ

def types : List UInt8 := [0, 1, 2, 3, 4]

def size (type : UInt8) : ℕ := if type = 0 then 20 else 8

def entry (t : Table) (s : Scan) : Scan :=
  if t s.p = 0 then
    { s with cpus := if s.cpus.length < NCPU then s.cpus ++ [t (s.p + 1)] else s.cpus
             p := s.p + size (t s.p) }
  else if t s.p = 2 then { s with ioapicid := t (s.p + 1), p := s.p + size (t s.p) }
  else if t s.p = 1 ∨ t s.p = 3 ∨ t s.p = 4 then { s with p := s.p + size (t s.p) }
  else { s with ismp := false }

def scan (t : Table) : ℕ → Scan → Option Scan
  | 0, _ => none
  | fuel + 1, s => if s.p < length t then scan t fuel (entry t s) else some s

/-- `mpinit` up to the interrupt mode; `none` has not ended within `fuel`. -/
def mpinit (mem : ℕ → UInt8) (physaddr : Option ℕ) (fuel : ℕ) : Option (Except String Scan) :=
  match mpconfig mem physaddr with
  | none => some (.error "Expect to run on an SMP")
  | some t => do
    let s ← scan t fuel ⟨CONF, true, [], 0, lapicaddr t⟩
    some (if s.ismp then .ok s else .error "Didn't find a suitable machine")

inductive EntryAt (t : Table) : ℕ → Prop
  | first : EntryAt t CONF
  | next {p : ℕ} : EntryAt t p → t p ∈ types → EntryAt t (p + size (t p))

def Known (t : Table) : Prop := ∀ p, EntryAt t p → p < length t → t p ∈ types

variable {t : Table} {s r : Scan}

theorem size_pos (type : UInt8) : 0 < size type := by
  unfold size
  split_ifs <;> omega

theorem entry_known (h : t s.p ∈ types) :
    (entry t s).p = s.p + size (t s.p) ∧ (entry t s).ismp = s.ismp ∧
      (s.cpus.length ≤ NCPU → (entry t s).cpus.length ≤ NCPU) := by
  unfold entry
  split_ifs with h0 hfree h2 hother
  · exact ⟨rfl, rfl, fun _ => by simpa using hfree⟩
  · exact ⟨rfl, rfl, id⟩
  · exact ⟨rfl, rfl, id⟩
  · exact ⟨rfl, rfl, id⟩
  · simp [types] at h
    tauto

theorem entry_unknown (h : t s.p ∉ types) : (entry t s).p = s.p := by
  simp only [types, List.mem_cons, List.not_mem_nil, or_false, not_or] at h
  simp [entry, h]

theorem scan_stuck (hlt : s.p < length t) (h : t s.p ∉ types) (fuel : ℕ) :
    scan t fuel s = none := by
  induction fuel generalizing s with
  | zero => rfl
  | succ fuel ih =>
    rw [scan, if_pos hlt]
    have hp := entry_unknown h
    exact ih (hp ▸ hlt) (hp ▸ h)

theorem scan_meets {fuel : ℕ} (hp : s.p = CONF) (hend : scan t fuel s = some r) {p : ℕ}
    (h : EntryAt t p) (hlt : p < length t) : ∃ fuel' s', s'.p = p ∧ scan t fuel' s' = some r := by
  induction h with
  | first => exact ⟨fuel, s, hp, hend⟩
  | @next p _ hk ih =>
    obtain ⟨fuel', s', rfl, hs'⟩ := ih (by omega)
    cases fuel' with
    | zero => cases hs'
    | succ fuel' =>
      rw [scan, if_pos (by omega)] at hs'
      exact ⟨fuel', _, (entry_known hk).1, hs'⟩

theorem scan_ends (h : Known t) {fuel : ℕ} (hat : EntryAt t s.p) (hlen : length t ≤ s.p + fuel)
    (hn : s.cpus.length ≤ NCPU) :
    ∃ r, scan t (fuel + 1) s = some r ∧ r.ismp = s.ismp ∧ r.cpus.length ≤ NCPU := by
  induction fuel generalizing s with
  | zero => exact ⟨s, by rw [scan, if_neg (by omega)], rfl, hn⟩
  | succ fuel ih =>
    by_cases hlt : s.p < length t
    · have hk := h s.p hat hlt
      obtain ⟨hp, hmp, hcpus⟩ := entry_known hk
      have hpos := size_pos (t s.p)
      obtain ⟨r, hr, hrmp, hrn⟩ := ih (hp ▸ .next hat hk) (by omega) (hcpus hn)
      exact ⟨r, by rw [scan, if_pos hlt, hr], hrmp.trans hmp, hrn⟩
    · exact ⟨s, by rw [scan, if_neg hlt], rfl, hn⟩

/-- **The scan of the table.** For every table that `mpconfig` accepts, `mpinit` comes to an end,
with at most `NCPU` processors recorded or with its panic, exactly if every entry has a known
type. -/
theorem mpinit_ends_iff {mem : ℕ → UInt8} {physaddr : Option ℕ} {t : Table}
    (h : mpconfig mem physaddr = some t) :
    (∃ fuel r, mpinit mem physaddr fuel = some r ∧
      (r = .error "Didn't find a suitable machine" ∨ ∃ s, r = .ok s ∧ s.cpus.length ≤ NCPU)) ↔
    Known t := by
  unfold mpinit
  rw [h]
  constructor
  · rintro ⟨fuel, r, hr, -⟩ p hat hlt
    by_contra hbad
    cases hs : scan t fuel ⟨CONF, true, [], 0, lapicaddr t⟩ with
    | none => simp [hs] at hr
    | some s =>
      obtain ⟨fuel', s', rfl, hs'⟩ := scan_meets rfl hs hat hlt
      exact absurd hs' (by rw [scan_stuck hlt hbad]; simp)
  · intro hk
    obtain ⟨s, hs, hmp, hn⟩ := scan_ends hk (s := ⟨CONF, true, [], 0, lapicaddr t⟩) .first
      (Nat.le_add_left (length t) _) (by simp)
    exact ⟨length t + 1, .ok s, by simp [hs, hmp], .inr ⟨s, rfl, hn⟩⟩

theorem mpconfig_at (h : accepts t) : mpconfig (fun a => t (a - 16)) (some 16) = some t := by
  show (if accepts (fun i => t (16 + i - 16)) then _ else none) = _
  simp only [Nat.add_sub_cancel_left]
  rw [if_pos h]

def unknownEntry : Table := fun i =>
  [80, 67, 77, 80, 45, 0, 1, 157].getD i (if i = CONF then 5 else 0)

/-- An entry of type 5 is scanned forever. -/
theorem mpinit_hangs : mpconfig (fun a => unknownEntry (a - 16)) (some 16) ≠ none ∧
    ∀ fuel, mpinit (fun a => unknownEntry (a - 16)) (some 16) fuel = none := by
  have hconf := @mpconfig_at unknownEntry (by decide)
  refine ⟨by simp [hconf], fun fuel => ?_⟩
  have hstuck := scan_stuck (t := unknownEntry)
    (s := ⟨CONF, true, [], 0, lapicaddr unknownEntry⟩) (by decide) (by decide) fuel
  simp [mpinit, hconf, hstuck]

def twoEntries : Table := fun i =>
  [80, 67, 77, 80, 72, 0, 4, 118].getD i
    (if i = CONF + 1 then 3 else if i = CONF + 20 then 2 else if i = CONF + 21 then 9 else 0)

theorem mpinit_two_entries :
    mpinit (fun a => twoEntries (a - 16)) (some 16) 3 = some (.ok ⟨72, true, [3], 9, 0⟩) ∧
    ∃ fuel r, mpinit (fun a => twoEntries (a - 16)) (some 16) fuel = some r ∧
      (r = .error "Didn't find a suitable machine" ∨ ∃ s, r = .ok s ∧ s.cpus.length ≤ NCPU) := by
  have hconf := @mpconfig_at twoEntries (by decide)
  refine ⟨?_, (mpinit_ends_iff hconf).mpr fun p hat hlt => ?_⟩
  · have hscan : scan twoEntries 3 ⟨CONF, true, [], 0, lapicaddr twoEntries⟩ =
        some ⟨72, true, [3], 9, 0⟩ := rfl
    simp [mpinit, hconf, hscan]
  · have hentry : p = CONF ∨ p = CONF + 20 ∨ 72 ≤ p := by
      clear hlt
      induction hat with
      | first => exact .inl rfl
      | next _ _ ih =>
        obtain rfl | rfl | hle := ih
        · exact .inr (.inl rfl)
        · exact .inr (.inr (by decide))
        · exact .inr (.inr (by omega))
    obtain rfl | rfl | hle := hentry
    · decide
    · decide
    · exact absurd hlt (Nat.not_lt.mpr hle)

end Xv6.Mp
