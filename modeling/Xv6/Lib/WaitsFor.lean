import Mathlib.Tactic

/-!
# Waits-for graphs

Processes `P` hold locks `L`, each at most one process at a time, and ask for one lock at a time.
A cycle of processes that wait for each other is a deadlock. The usual way to exclude it is to rank
the locks: a process asks only for locks of higher rank than those it holds. `acyclic_of_turn` lets
some processes ask downwards instead. There is no deadlock as long as nobody who asks downwards
waits for one who asks upwards: a cycle then goes one way, and the ranks along it as well. The
order need only hold among some of the locks, the good ones.
-/

namespace WaitsFor

variable {P L : Type*} (owner : L → Option P) (wants : P → Option L)

def Waits (p q : P) : Prop := ∃ l, wants p = some l ∧ owner l = some q

def Deadlocked (p : P) : Prop := Relation.TransGen (Waits owner wants) p p

variable {owner wants} {p q r : P}

theorem Waits.unique (hq : Waits owner wants p q) (hr : Waits owner wants p r) : q = r := by
  obtain ⟨l, hl, hq⟩ := hq
  obtain ⟨m, hm, hr⟩ := hr
  obtain rfl := Option.some.inj (hl.symm.trans hm)
  exact Option.some.inj (hq.symm.trans hr)

theorem Deadlocked.back (hp : Deadlocked owner wants p) (hw : Waits owner wants p q) :
    Relation.ReflTransGen (Waits owner wants) q p := by
  obtain ⟨r, hr, hrest⟩ := Relation.TransGen.head'_iff.mp hp
  obtain rfl := hw.unique hr
  exact hrest

theorem Deadlocked.next (hp : Deadlocked owner wants p) (hw : Waits owner wants p q) :
    Deadlocked owner wants q :=
  Relation.TransGen.tail' (hp.back hw) hw

theorem Deadlocked.waits (hp : Deadlocked owner wants p) : ∃ q, Waits owner wants p q := by
  obtain ⟨q, hq, -⟩ := Relation.TransGen.head'_iff.mp hp
  exact ⟨q, hq⟩

theorem Deadlocked.holds (hp : Deadlocked owner wants p) : ∃ l, owner l = some p := by
  obtain ⟨q, -, l, -, hl⟩ := Relation.TransGen.tail'_iff.mp hp
  exact ⟨l, hl⟩

theorem of_path {S : P → Prop} (hS : ∀ p q, S p → Waits owner wants p q → S q)
    (hpath : Relation.ReflTransGen (Waits owner wants) p q) (hp : S p) : S q := by
  induction hpath with
  | refl => exact hp
  | tail _ hw ih => exact hS _ _ ih hw

theorem lt_of_path {S : P → Prop} {ι : Type*} [Preorder ι] {f : P → ι}
    (hS : ∀ p q, S p → Waits owner wants p q → S q)
    (hlt : ∀ p q, S p → Waits owner wants p q → f p < f q)
    (hpath : Relation.TransGen (Waits owner wants) p q) (hp : S p) : f p < f q := by
  induction hpath with
  | single hw => exact hlt _ _ hp hw
  | tail hpath hw ih => exact ih.trans (hlt _ _ (of_path hS hpath.to_reflTransGen hp) hw)

section Turn

variable {good : L → Prop} {rank : L → ℕ} {down : P → Prop}

def asks (wants : P → Option L) (rank : L → ℕ) (p : P) : ℕ := ((wants p).map rank).getD 0

theorem asks_eq {l : L} (h : wants p = some l) : asks wants rank p = rank l := by
  unfold asks
  rw [h]
  rfl

variable
  (hup : ∀ p l m, ¬ down p → wants p = some m → owner l = some p →
    good l ∧ (good m → rank l < rank m))
  (hdown : ∀ p l m, down p → wants p = some m → owner l = some p →
    good m ∧ (good l → rank m < rank l))
  (hturn : ∀ p q, down p → Waits owner wants p q → (∃ r, Waits owner wants q r) → down q)

include hdown hturn in
theorem not_down (hp : Deadlocked owner wants p) : ¬ down p := by
  intro hd
  refine lt_irrefl (OrderDual.toDual (asks wants rank p)) (lt_of_path
    (S := fun p => Deadlocked owner wants p ∧ down p)
    (f := fun p => OrderDual.toDual (asks wants rank p)) ?_ ?_ hp ⟨hp, hd⟩)
  · rintro p q ⟨hp, hd⟩ hw
    exact ⟨hp.next hw, hturn p q hd hw (hp.next hw).waits⟩
  · rintro p q ⟨hp, hd⟩ hw
    obtain ⟨r, m, hm, -⟩ := (hp.next hw).waits
    have hdq := hturn p q hd hw (hp.next hw).waits
    obtain ⟨l, hl, hq⟩ := hw
    obtain ⟨l0, hl0⟩ := hp.holds
    rw [asks_eq hl, asks_eq hm]
    exact (hdown q l m hdq hm hq).2 (hdown p l0 l hd hl hl0).1

variable (good rank down) in
include hup hdown hturn in
/-- **No deadlock.** A process that asks upwards holds only good locks and, if it asks for a good
one, only such of lower rank; one that asks downwards asks for a good lock, lower than the good ones
it holds, and waits only for processes that ask downwards or do not wait. -/
theorem acyclic_of_turn (p : P) : ¬ Deadlocked owner wants p := by
  intro hp
  have hnot : ∀ p, Deadlocked owner wants p → ¬ down p := fun _ => not_down hdown hturn
  refine lt_irrefl (asks wants rank p) (lt_of_path (S := Deadlocked owner wants)
    (fun _ _ hp => hp.next) (fun p q hp hw => ?_) hp hp)
  obtain ⟨l, hl, hq⟩ := id hw
  obtain ⟨r, m, hm, hr⟩ := (hp.next hw).waits
  obtain ⟨t, n, hn, -⟩ := ((hp.next hw).next ⟨m, hm, hr⟩).waits
  rw [asks_eq hl, asks_eq hm]
  -- whoever holds `m` is on the cycle too, so `m` is good
  have hgood := (hup r m n (hnot r ((hp.next hw).next ⟨m, hm, hr⟩)) hn hr).1
  exact (hup q l m (hnot q (hp.next hw)) hm hq).2 hgood

end Turn

end WaitsFor
