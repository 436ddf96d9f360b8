import Xv6.Param

/-!
# Disk blocks

A block is an array of `BSIZE` bytes, here a function on byte offsets of which only the offsets
below `BSIZE` are ever written. The log header and the indirect block of a file are read through
an `int*`: `word` and `setWord` are the little-endian reading and writing of the `i`-th word, `half`
and `setHalf` those of a `short`.
-/

namespace Xv6

abbrev Block := ℕ → UInt8

def Block.word (b : Block) (i : ℕ) : ℕ :=
  (b (4 * i)).toNat + 256 * (b (4 * i + 1)).toNat + 65536 * (b (4 * i + 2)).toNat +
    16777216 * (b (4 * i + 3)).toNat

def Block.setWord (b : Block) (i v : ℕ) : Block := fun k =>
  if k = 4 * i then UInt8.ofNat v
  else if k = 4 * i + 1 then UInt8.ofNat (v / 256)
  else if k = 4 * i + 2 then UInt8.ofNat (v / 65536)
  else if k = 4 * i + 3 then UInt8.ofNat (v / 16777216)
  else b k

def Block.half (b : Block) (i : ℕ) : ℕ := (b (2 * i)).toNat + 256 * (b (2 * i + 1)).toNat

def Block.setHalf (b : Block) (i v : ℕ) : Block := fun k =>
  if k = 2 * i then UInt8.ofNat v else if k = 2 * i + 1 then UInt8.ofNat (v / 256) else b k

def Block.zero : Block := fun _ => 0

theorem Block.word_lt (b : Block) (i : ℕ) : b.word i < 2 ^ 32 := by
  have h0 := (b (4 * i)).toNat_lt
  have h1 := (b (4 * i + 1)).toNat_lt
  have h2 := (b (4 * i + 2)).toNat_lt
  have h3 := (b (4 * i + 3)).toNat_lt
  unfold Block.word
  omega

theorem Block.word_congr {a b : Block} {i : ℕ} (h : ∀ k < 4, a (4 * i + k) = b (4 * i + k)) :
    a.word i = b.word i := by
  unfold Block.word
  have h0 := h 0 (by omega)
  rw [Nat.add_zero] at h0
  rw [h0, h 1 (by omega), h 2 (by omega), h 3 (by omega)]

theorem Block.half_congr {a b : Block} {i : ℕ} (h : ∀ k < 2, a (2 * i + k) = b (2 * i + k)) :
    a.half i = b.half i := by
  unfold Block.half
  have h0 := h 0 (by omega)
  rw [Nat.add_zero] at h0
  rw [h0, h 1 (by omega)]

@[simp] theorem Block.word_zero (i : ℕ) : Block.zero.word i = 0 := rfl

theorem Block.setWord_of_lt (b : Block) {i v k : ℕ} (hk : k < 4 * i) : b.setWord i v k = b k := by
  unfold Block.setWord
  rw [if_neg (by omega), if_neg (by omega), if_neg (by omega), if_neg (by omega)]

theorem Block.setWord_of_ge (b : Block) {i v k : ℕ} (hk : 4 * i + 4 ≤ k) :
    b.setWord i v k = b k := by
  unfold Block.setWord
  rw [if_neg (by omega), if_neg (by omega), if_neg (by omega), if_neg (by omega)]

theorem Block.word_setWord_self (b : Block) (i : ℕ) {v : ℕ} (hv : v < 2 ^ 32) :
    (b.setWord i v).word i = v := by
  have h0 : b.setWord i v (4 * i) = UInt8.ofNat v := by
    unfold Block.setWord; rw [if_pos rfl]
  have h1 : b.setWord i v (4 * i + 1) = UInt8.ofNat (v / 256) := by
    unfold Block.setWord; rw [if_neg (by omega), if_pos rfl]
  have h2 : b.setWord i v (4 * i + 2) = UInt8.ofNat (v / 65536) := by
    unfold Block.setWord; rw [if_neg (by omega), if_neg (by omega), if_pos rfl]
  have h3 : b.setWord i v (4 * i + 3) = UInt8.ofNat (v / 16777216) := by
    unfold Block.setWord; rw [if_neg (by omega), if_neg (by omega), if_neg (by omega), if_pos rfl]
  unfold Block.word
  rw [h0, h1, h2, h3]
  simp only [UInt8.toNat_ofNat']
  omega

theorem Block.word_setWord_of_ne (b : Block) {i j : ℕ} (v : ℕ) (hij : j ≠ i) :
    (b.setWord i v).word j = b.word j := by
  have hb : ∀ t < 4, b.setWord i v (4 * j + t) = b (4 * j + t) := by
    intro t ht
    by_cases h : j < i
    · exact b.setWord_of_lt (by omega)
    · exact b.setWord_of_ge (by omega)
  exact Block.word_congr hb

end Xv6
