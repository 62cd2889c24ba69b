import Mathlib.Data.Nat.Basic
import Mathlib.Data.List.Basic

/-!
# Words of 32 bits in memory

Memory as bytes and as words, both functions of the index: a word lies in four
bytes, the least significant one first. The two views are inverse to each other,
and an exclusive or can be taken in either. A string is copied to the front of
the memory and back.
-/

namespace Lib

/-- The words in memory that holds the bytes `b`. -/
def wordsOf (b : Nat → UInt8) (i : Nat) : BitVec 32 :=
  (b (4 * i + 3)).toBitVec ++ (b (4 * i + 2)).toBitVec ++ (b (4 * i + 1)).toBitVec ++
    (b (4 * i)).toBitVec

/-- The bytes in memory that holds the words `w`. -/
def bytesOf (w : Nat → BitVec 32) (k : Nat) : UInt8 :=
  UInt8.ofBitVec ((w (k / 4)).extractLsb' (8 * (k % 4)) 8)

/-- The byte at offset `r` of a word. -/
theorem extract_wordsOf (b : Nat → UInt8) (i : Nat) {r : Nat} (hr : r < 4) :
    (wordsOf b i).extractLsb' (8 * r) 8 = (b (4 * i + r)).toBitVec := by
  ext j hj
  simp only [wordsOf, BitVec.getElem_extractLsb', BitVec.getLsbD_append]
  have hCases : r = 0 ∨ r = 1 ∨ r = 2 ∨ r = 3 := by omega
  rcases hCases with rfl | rfl | rfl | rfl
  · rw [if_pos (by omega), Nat.mul_zero, Nat.zero_add, Nat.add_zero, BitVec.getLsbD_eq_getElem hj]
  · rw [if_neg (by omega), if_pos (by omega), show 8 * 1 + j - 8 = j by omega,
      BitVec.getLsbD_eq_getElem hj]
  · rw [if_neg (by omega), if_neg (by omega), if_pos (by omega),
      show 8 * 2 + j - 8 - 8 = j by omega, BitVec.getLsbD_eq_getElem hj]
  · rw [if_neg (by omega), if_neg (by omega), if_neg (by omega),
      show 8 * 3 + j - 8 - 8 - 8 = j by omega, BitVec.getLsbD_eq_getElem hj]

@[simp] theorem bytesOf_wordsOf (b : Nat → UInt8) : bytesOf (wordsOf b) = b := by
  funext k
  rw [bytesOf, extract_wordsOf b _ (Nat.mod_lt k (by decide)), Nat.div_add_mod,
    UInt8.ofBitVec_toBitVec]

@[simp] theorem wordsOf_bytesOf (w : Nat → BitVec 32) : wordsOf (bytesOf w) = w := by
  funext i
  have hByte : ∀ r < 4, (bytesOf w (4 * i + r)).toBitVec = (w i).extractLsb' (8 * r) 8 := by
    intro r hr
    rw [bytesOf, Nat.mul_add_div (by decide), Nat.div_eq_of_lt hr, Nat.add_zero, Nat.mul_add_mod,
      Nat.mod_eq_of_lt hr]
  ext j hj
  have h0 := hByte 0 (by decide)
  rw [Nat.add_zero] at h0
  simp only [wordsOf, h0, hByte 1 (by decide), hByte 2 (by decide), hByte 3 (by decide)]
  rw [← BitVec.getLsbD_eq_getElem, ← BitVec.getLsbD_eq_getElem]
  simp only [BitVec.getLsbD_append, BitVec.getLsbD_extractLsb']
  have hBit : ∀ {t m : Nat}, t < 8 → m = j → (decide (t < 8) && (w i).getLsbD m) =
      (w i).getLsbD j := by
    rintro t m ht rfl
    rw [decide_eq_true ht, Bool.true_and]
  split_ifs with h₀ h₁ h₂
  · exact hBit h₀ (by omega)
  · exact hBit h₁ (by omega)
  · exact hBit h₂ (by omega)
  · exact hBit (by omega) (by omega)

/-- An exclusive or of words is one of bytes. -/
theorem bytesOf_xor (w w' : Nat → BitVec 32) (k : Nat) :
    bytesOf (fun i => w i ^^^ w' i) k = bytesOf w k ^^^ bytesOf w' k := by
  rw [← UInt8.toBitVec_inj]
  ext j hj
  simp [bytesOf, BitVec.getElem_extractLsb']

/-- A byte depends on its word only. -/
theorem bytesOf_congr {w w' : Nat → BitVec 32} {k : Nat} (h : w (k / 4) = w' (k / 4)) :
    bytesOf w k = bytesOf w' k := by
  rw [bytesOf, bytesOf, h]

theorem wordsOf_congr {b b' : Nat → UInt8} {i : Nat} (h : ∀ r < 4, b (4 * i + r) = b' (4 * i + r)) :
    wordsOf b i = wordsOf b' i := by
  rw [wordsOf, wordsOf, h 3 (by decide), h 2 (by decide), h 1 (by decide), ← Nat.add_zero (4 * i),
    h 0 (by decide)]

/-! ## Strings -/

/-- A string in memory; what follows it is zero. -/
def copyIn (bs : List UInt8) (k : Nat) : UInt8 := bs.getD k 0

/-- The first bytes of an array of words. -/
def copyOut (n : Nat) (w : Nat → BitVec 32) : List UInt8 := (List.range n).map (bytesOf w)

/-- A block of at most `rate` bytes: behind a shorter one stand a byte `0x80` and
zeros. -/
def padCopy (rate : Nat) (block : List UInt8) (k : Nat) : UInt8 :=
  if block.length < rate ∧ k = block.length then 0x80 else copyIn block k

section Strings

variable {b b' : List UInt8} {k : Nat}

theorem copyIn_of_lt (h : k < b.length) : copyIn b k = b[k] := by
  rw [copyIn, List.getD_eq_getElem?_getD, List.getElem?_eq_getElem h, Option.getD_some]

theorem copyIn_of_le (h : b.length ≤ k) : copyIn b k = 0 := by
  rw [copyIn, List.getD_eq_getElem?_getD, List.getElem?_eq_none h, Option.getD_none]

/-- Strings of one length with the same bytes. -/
theorem copyIn_ext (hLen : b.length = b'.length) (h : ∀ k < b.length, copyIn b k = copyIn b' k) :
    b = b' := by
  refine List.ext_getElem hLen fun k hk hk' => ?_
  rw [← copyIn_of_lt hk, ← copyIn_of_lt hk', h k hk]

@[simp] theorem length_copyOut (n : Nat) (w : Nat → BitVec 32) : (copyOut n w).length = n := by
  simp [copyOut]

theorem copyIn_copyOut {n : Nat} {w : Nat → BitVec 32} (h : k < n) :
    copyIn (copyOut n w) k = bytesOf w k := by
  rw [copyIn_of_lt (by rwa [length_copyOut])]
  simp [copyOut]

theorem copyOut_eq {w : Nat → BitVec 32} (h : ∀ k < b.length, bytesOf w k = copyIn b k) :
    copyOut b.length w = b :=
  copyIn_ext (length_copyOut _ _) fun k hk => by
    rw [length_copyOut] at hk
    rw [copyIn_copyOut hk, h k hk]

/-- The padding can be taken off. -/
theorem padCopy_injective {rate : Nat} (hb : b.length < rate) (hb' : b'.length < rate)
    (hEq : ∀ k < rate, padCopy rate b k = padCopy rate b' k) : b = b' := by
  -- the mark is the last byte that is not zero
  have hMark : ∀ {c c' : List UInt8}, c'.length < rate →
      (∀ k < rate, padCopy rate c k = padCopy rate c' k) → ¬ c.length < c'.length := by
    intro c c' hc' hSame hLt
    have hByte := hSame c'.length hc'
    rw [padCopy, padCopy, if_neg (by omega), if_pos ⟨hc', rfl⟩, copyIn_of_le (Nat.le_of_lt hLt)]
      at hByte
    exact absurd hByte (by decide)
  have hLen : b.length = b'.length :=
    Nat.le_antisymm (Nat.le_of_not_lt (hMark hb fun k hk => (hEq k hk).symm))
      (Nat.le_of_not_lt (hMark hb' hEq))
  refine copyIn_ext hLen fun k hk => ?_
  have hByte := hEq k (by omega)
  rwa [padCopy, padCopy, if_neg (by omega), if_neg (by omega)] at hByte

end Strings

end Lib
