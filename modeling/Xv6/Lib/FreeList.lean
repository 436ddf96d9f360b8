import Mathlib.Tactic

/-!
# Cells that pass between a free list and their users

A free list is threaded through its own cells: a free cell holds the address of the next one, and
`nil` ends the list. `Moved` is what an allocator and its callers do to the cells that are free and
those that they hold: cells pass from one side to the other, none is lost or doubled, and no other
cell changes.
-/

namespace FreeList

open Function

variable {A B : Type*} {link : B → A} {nil head : A} {c c' c'' : A → B} {l l' l'' : List A}

/-! ## The list -/

def Chain (link : B → A) (nil : A) (c : A → B) : A → List A → Prop
  | head, [] => head = nil
  | head, a :: l => head = a ∧ a ≠ nil ∧ Chain link nil c (link (c a)) l

theorem Chain.congr (h : Chain link nil c head l) (hc : ∀ a ∈ l, c' a = c a) :
    Chain link nil c' head l := by
  induction l generalizing head with
  | nil => exact h
  | cons a l ih =>
    obtain ⟨rfl, hne, hrest⟩ := h
    refine ⟨rfl, hne, ?_⟩
    rw [hc head List.mem_cons_self]
    exact ih hrest fun b hb => hc b (List.mem_cons_of_mem _ hb)

theorem Chain.eq_nil (h : Chain link nil c nil l) : l = [] := by
  cases l with
  | nil => rfl
  | cons a l => exact absurd h.1.symm h.2.1

theorem Chain.eq_cons (h : Chain link nil c head l) (hne : head ≠ nil) :
    ∃ l', l = head :: l' ∧ Chain link nil c (link (c head)) l' := by
  cases l with
  | nil => exact absurd h hne
  | cons a l =>
    obtain ⟨rfl, -, hrest⟩ := h
    exact ⟨l, rfl, hrest⟩

theorem Chain.update [DecidableEq A] {a : A} (h : Chain link nil c head l) (ha : a ∉ l) (b : B) :
    Chain link nil (update c a b) head l := by
  refine h.congr fun a' ha' => update_of_ne ?_ ..
  rintro rfl
  exact ha ha'

/-! ## Passing cells -/

/-- From cells `c`, of which those of `l` are free and those of `x` are held, to cells `c'`, with
`l'` free and `x'` held. -/
structure Moved (link : B → A) (nil : A) (c : A → B) (l : List A) (x : Multiset A) (c' : A → B)
    (head : A) (l' : List A) (x' : Multiset A) : Prop where
  chain : Chain link nil c' head l'
  same : (l' : Multiset A) + x' = l + x
  frame : ∀ a, a ∉ (l : Multiset A) + x → c' a = c a

variable {x x' x'' z : Multiset A} {head' : A}

namespace Moved

theorem refl (h : Chain link nil c head l) : Moved link nil c l x c head l x :=
  ⟨h, rfl, fun _ _ => rfl⟩

section

variable (h : Moved link nil c l x c' head l' x')

include h

theorem trans
    (h' : Moved link nil c' l' x' c'' head' l'' x'') : Moved link nil c l x c'' head' l'' x'' := by
  refine ⟨h'.chain, h'.same.trans h.same, fun a ha => ?_⟩
  rw [h'.frame a (h.same ▸ ha), h.frame a ha]

theorem add_right (z : Multiset A) : Moved link nil c l (x + z) c' head l' (x' + z) := by
  refine ⟨h.chain, ?_, fun a ha => h.frame a fun hx => ha ?_⟩
  · rw [← add_assoc, h.same, add_assoc]
  · rw [← add_assoc]
    exact Multiset.mem_add.mpr (.inl hx)

theorem nodup (hn : ((l : Multiset A) + x).Nodup) :
    ((l' : Multiset A) + x').Nodup := h.same ▸ hn

theorem card : l'.length + x'.card = l.length + x.card := by
  have := congrArg Multiset.card h.same
  simpa only [Multiset.card_add, Multiset.coe_card] using this

theorem frame_of_mem (hn : ((l : Multiset A) + x + z).Nodup) {a : A} (ha : a ∈ z) : c' a = c a :=
  h.frame a fun hx => Multiset.disjoint_left.mp (Multiset.nodup_add.mp hn).2.2 hx ha

end

theorem alloc (h : Chain link nil c head l) (hne : head ≠ nil) :
    ∃ l', l = head :: l' ∧ Moved link nil c l x c (link (c head)) l' ({head} + x) := by
  obtain ⟨l', rfl, hrest⟩ := h.eq_cons hne
  refine ⟨l', rfl, hrest, ?_, fun _ _ => rfl⟩
  rw [← Multiset.cons_coe, Multiset.cons_add, Multiset.singleton_add, Multiset.add_cons]

theorem write (h : Chain link nil c head l) (hn : ((l : Multiset A) + x).Nodup)
    (hc : ∀ a, a ∉ x → c' a = c a) : Moved link nil c l x c' head l x := by
  have hdis := (Multiset.nodup_add.mp hn).2.2
  refine ⟨h.congr fun a ha => hc a ?_, rfl, fun a ha => hc a fun hx => ha ?_⟩
  · exact Multiset.disjoint_left.mp hdis (Multiset.mem_coe.mpr ha)
  · exact Multiset.mem_add.mpr (.inr hx)

variable [DecidableEq A] {a : A} {b : B}

theorem free (h : Chain link nil c head l) (hne : a ≠ nil) (hb : link b = head)
    (hn : ((l : Multiset A) + ({a} + x)).Nodup) :
    Moved link nil c l ({a} + x) (update c a b) a (a :: l) x := by
  have hmem : a ∈ {a} + x := Multiset.mem_add.mpr (.inl (Multiset.mem_singleton_self a))
  have hal : a ∉ l := fun hl =>
    Multiset.disjoint_left.mp (Multiset.nodup_add.mp hn).2.2 (Multiset.mem_coe.mpr hl) hmem
  refine ⟨⟨rfl, hne, ?_⟩, ?_, fun a' ha' => ?_⟩
  · rw [update_self, hb]
    exact h.update hal b
  · rw [← Multiset.cons_coe, Multiset.cons_add, Multiset.singleton_add, Multiset.add_cons]
  · refine update_of_ne ?_ ..
    rintro rfl
    exact ha' (Multiset.mem_add.mpr (.inr hmem))

end Moved

end FreeList
