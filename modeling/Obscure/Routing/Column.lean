import Obscure.Routing.Shuffle
import Mathlib.Data.Nat.Bitwise
import Mathlib.Data.Nat.Bits
import Mathlib.Tactic.Ring

/-!
# OBSCURE — columns of a Benes network

`apply_col` walks the submasks of a mask with one bit cleared, from the mask down
to 0, and pops one control bit for each. The `t`-th submask is `spread ibit t`:
the binary digits of `t` with a zero inserted at position `ibit`. A column
therefore exchanges the two indices that differ in that digit only, for every
pair whose control bit is set, and is an involution (`colPerm`).

* `applyCol_swaps` — the loop uses up the control bits, and swaps these pairs.
-/

namespace Obscure.Routing

open Lib

/-- `pi[i], pi[j] = pi[j], pi[i]`. -/
def swapAt {α : Type} (pi : List α) (i j : Nat) : Except Fault (List α) :=
  match pi[i]?, pi[j]? with
  | some a, some b => .ok ((pi.set i b).set j a)
  | _, _ => .error .indexError

/-- Exchange `pi[j]` and `pi[j ^ bit]` when the control bit is set. -/
def popBit {α : Type} (c bit j : Nat) (pi : List α) : Except Fault (List α) :=
  if c ≠ 0 then swapAt pi j (j ^^^ bit) else .ok pi

/-- The loop of `apply_col`; the control bits come last first. -/
def applyColLoop {α : Type} (mask bit : Nat) :
    List Nat → Nat → List α → Except Fault (List α)
  | [], _, _ => .error .indexError
  | c :: col, j, pi => do
    let pi ← popBit c bit j pi
    -- `(j - 1) & mask`, where `-1 & mask` is the mask
    let j := if j = 0 then mask else (j - 1) &&& mask
    if j = mask then .ok pi else applyColLoop mask bit col j pi

/-- One round of the same loop as the source has it: the state is `j`, `col` and `pi`. At the end
it is `col` and `pi`. -/
def applyColRound {α : Type} (mask bit _ : Nat) (st : Nat × List Nat × List α) :
    Except Fault ((Nat × List Nat × List α) ⊕ (List Nat × List α)) :=
  match st.2.1.getLast? with
  | none => .error .indexError
  | some c => do
    let pi ← popBit c bit st.1 st.2.2
    let col := st.2.1.dropLast
    let j := if st.1 = 0 then mask else (st.1 - 1) &&& mask
    if j = mask then .ok (.inr (col, pi)) else .ok (.inl (j, col, pi))

/-- `apply_col`. -/
def applyCol {α : Type} (pi : List α) (m ibit : Nat) (col : List Nat) : Except Fault (List α) :=
  let bit := 1 <<< ibit
  let mask := (1 <<< m) - 1 - bit
  if pi.length = 2 ^ m then applyColLoop mask bit col.reverse mask pi
  else .error .assertionError

/-- `apply_col`, with what it leaves of `col`. -/
def applyColLeft {α : Type} (fuel : Nat) (pi : List α) (m ibit : Nat) (col : List Nat) :
    Except Fault (List Nat × List α) :=
  let bit := 1 <<< ibit
  let mask := (1 <<< m) - 1 - bit
  if pi.length = 2 ^ m then loop .diverges (applyColRound mask bit) fuel 0 (mask, col, pi)
  else .error .assertionError

/-! ## One binary digit -/

section Flip

variable (b x : Nat)

/-- The digits below stay. -/
theorem flip_mod : (x ^^^ 2 ^ b) % 2 ^ b = x % 2 ^ b := by
  rw [Nat.xor_mod_two_pow, Nat.mod_self, Nat.xor_zero]

/-- The digit is the lowest one after a shift. -/
theorem flip_div : (x ^^^ 2 ^ b) / 2 ^ b = (x / 2 ^ b) ^^^ 1 := by
  rw [Nat.xor_div_two_pow, Nat.div_self (Nat.two_pow_pos b)]

/-- Flipping the lowest digit goes to the other number of a pair. -/
theorem xor_one (q : Nat) : q ^^^ 1 = if q % 2 = 0 then q + 1 else q - 1 := by
  split
  · next h => exact Nat.xor_one_of_even (Nat.even_iff.mpr h)
  · next h => exact Nat.xor_one_of_odd (Nat.odd_iff.mpr (by omega))

/-- The digits above stay. -/
theorem flip_div_succ : (x ^^^ 2 ^ b) / 2 ^ (b + 1) = x / 2 ^ (b + 1) := by
  rw [pow_succ, ← Nat.div_div_eq_div_mul, ← Nat.div_div_eq_div_mul, flip_div, xor_one]
  generalize x / 2 ^ b = q
  split <;> omega

variable {b x}

/-- A digit 0 is flipped by adding its weight. -/
theorem flip_of_zero (h : x / 2 ^ b % 2 = 0) : x ^^^ 2 ^ b = x + 2 ^ b := by
  rw [← Nat.div_add_mod (x ^^^ 2 ^ b) (2 ^ b), flip_mod, flip_div, xor_one, if_pos h, mul_add,
    mul_one, add_right_comm, Nat.div_add_mod]

theorem flip_of_one (h : x / 2 ^ b % 2 = 1) : x ^^^ 2 ^ b = x - 2 ^ b := by
  have hx := Nat.div_add_mod x (2 ^ b)
  rw [← Nat.div_add_mod (x ^^^ 2 ^ b) (2 ^ b), flip_mod, flip_div]
  generalize x / 2 ^ b = q at h hx
  have hLe : 2 ^ b ≤ 2 ^ b * q := Nat.le_mul_of_pos_right _ (by omega)
  rw [xor_one, if_neg (by omega), Nat.mul_sub_one]
  omega

theorem flip_flip : (x ^^^ 2 ^ b) ^^^ 2 ^ b = x := by
  rw [Nat.xor_assoc, Nat.xor_self, Nat.xor_zero]

end Flip

/-- The digits of `t` with a zero inserted at `b`. -/
def spread (b t : Nat) : Nat := t % 2 ^ b + 2 ^ (b + 1) * (t / 2 ^ b)

/-- The pair that an index belongs to: its digits without the one at `b`. -/
def pairIndex (b x : Nat) : Nat := x % 2 ^ b + 2 ^ b * (x / 2 ^ (b + 1))

section Pairs

variable {b m t x : Nat}

/-- Both positions of a pair have the same index. -/
theorem pairIndex_flip : pairIndex b (x ^^^ 2 ^ b) = pairIndex b x := by
  rw [pairIndex, flip_mod, flip_div_succ, pairIndex]

theorem pairIndex_mod : pairIndex b x % 2 ^ b = x % 2 ^ b := by
  rw [pairIndex, Nat.add_mul_mod_self_left, Nat.mod_mod]

/-- The digits above move down by one. -/
theorem pairIndex_div : pairIndex b x / 2 ^ b = x / 2 ^ (b + 1) := by
  rw [pairIndex, Nat.add_mul_div_left _ _ (Nat.two_pow_pos b),
    Nat.div_eq_of_lt (Nat.mod_lt _ (Nat.two_pow_pos b)), zero_add]

/-- The digits of the index move up to make room. -/
theorem spread_div : spread b t / 2 ^ b = 2 * (t / 2 ^ b) := by
  rw [spread, pow_succ, mul_assoc, Nat.add_mul_div_left _ _ (Nat.two_pow_pos b),
    Nat.div_eq_of_lt (Nat.mod_lt _ (Nat.two_pow_pos b)), zero_add]

/-- The room is a digit 0. -/
theorem spread_digit : spread b t / 2 ^ b % 2 = 0 := by
  rw [spread_div]
  omega

/-- The other position of the pair. -/
theorem spread_flip : spread b t ^^^ 2 ^ b = spread b t + 2 ^ b := flip_of_zero spread_digit

/-- A pair has the index that it was made from. -/
theorem pairIndex_spread : pairIndex b (spread b t) = t := by
  have hMod : spread b t % 2 ^ b = t % 2 ^ b := by
    rw [spread, pow_succ, mul_assoc, Nat.add_mul_mod_self_left, Nat.mod_mod]
  have hDiv : spread b t / 2 ^ (b + 1) = t / 2 ^ b := by
    rw [pow_succ, ← Nat.div_div_eq_div_mul, spread_div]
    omega
  rw [pairIndex, hMod, hDiv, Nat.mod_add_div]

/-- An index is the lower or the upper one of its pair. -/
theorem eq_spread_or (b x : Nat) :
    x = spread b (pairIndex b x) ∨ x = spread b (pairIndex b x) ^^^ 2 ^ b := by
  have hx := Nat.mod_add_div x (2 ^ b)
  have hTwo : x / 2 ^ b = 2 * (x / 2 ^ (b + 1)) + x / 2 ^ b % 2 := by
    rw [pow_succ, ← Nat.div_div_eq_div_mul]
    omega
  have hSpread : spread b (pairIndex b x) = x % 2 ^ b + 2 ^ b * (2 * (x / 2 ^ (b + 1))) := by
    rw [spread, pairIndex_mod, pairIndex_div, pow_succ, mul_assoc]
  rcases Nat.mod_two_eq_zero_or_one (x / 2 ^ b) with h | h
  · left
    rw [hSpread, ← hx]
    conv_rhs => rw [hx, show 2 * (x / 2 ^ (b + 1)) = x / 2 ^ b by omega]
  · right
    rw [spread_flip, hSpread]
    conv_lhs => rw [← hx, hTwo, h, mul_add, mul_one, ← add_assoc]

/-- The positions of the pair with an index are the two with the digit 0 and 1. -/
theorem pairIndex_eq_iff : pairIndex b x = t ↔ x = spread b t ∨ x = spread b t ^^^ 2 ^ b := by
  constructor
  · rintro rfl
    exact eq_spread_or b x
  · rintro (rfl | rfl)
    · exact pairIndex_spread
    · rw [pairIndex_flip, pairIndex_spread]

/-- The indices below `2 ^ m` form `2 ^ (m - 1)` pairs. -/
theorem pairIndex_lt (hb : b < m) (hx : x < 2 ^ m) : pairIndex b x < 2 ^ (m - 1) := by
  have hHigh : x / 2 ^ (b + 1) < 2 ^ (m - 1 - b) := by
    rw [Nat.div_lt_iff_lt_mul (Nat.two_pow_pos _), ← pow_add]
    rwa [show m - 1 - b + (b + 1) = m by omega]
  have hLow : x % 2 ^ b < 2 ^ b := Nat.mod_lt _ (Nat.two_pow_pos b)
  calc pairIndex b x < 2 ^ b + 2 ^ b * (x / 2 ^ (b + 1)) := by unfold pairIndex; omega
    _ = 2 ^ b * (x / 2 ^ (b + 1) + 1) := by ring
    _ ≤ 2 ^ b * 2 ^ (m - 1 - b) := Nat.mul_le_mul_left _ hHigh
    _ = 2 ^ (m - 1) := by rw [← pow_add]; congr 1; omega

/-- Both positions of a pair are within the array. -/
theorem spread_add_lt (hb : b < m) (ht : t < 2 ^ (m - 1)) : spread b t + 2 ^ b < 2 ^ m := by
  have hHigh : t / 2 ^ b < 2 ^ (m - 1 - b) := by
    rw [Nat.div_lt_iff_lt_mul (Nat.two_pow_pos _), ← pow_add]
    rwa [show m - 1 - b + b = m - 1 by omega]
  have hLow : t % 2 ^ b < 2 ^ b := Nat.mod_lt _ (Nat.two_pow_pos b)
  calc spread b t + 2 ^ b < 2 ^ (b + 1) + 2 ^ (b + 1) * (t / 2 ^ b) := by
        unfold spread; rw [pow_succ] at *; omega
    _ = 2 ^ (b + 1) * (t / 2 ^ b + 1) := by ring
    _ ≤ 2 ^ (b + 1) * 2 ^ (m - 1 - b) := Nat.mul_le_mul_left _ hHigh
    _ = 2 ^ m := by rw [← pow_add]; congr 1; omega

/-! ## The submasks in order -/

/-- The mask has all digits but the one of the column. -/
theorem mask_eq (hb : b < m) : 2 ^ m - 1 - 2 ^ b = (2 ^ m - 1) ^^^ 2 ^ b := by
  refine (flip_of_one ?_).symm
  have hSplit : 2 ^ m = 2 ^ b * (2 * 2 ^ (m - 1 - b)) := by
    rw [← pow_succ', ← pow_add]
    congr 1
    omega
  have hPos := Nat.two_pow_pos (m - 1 - b)
  have hDiv : (2 ^ m - 1) / 2 ^ b = 2 * 2 ^ (m - 1 - b) - 1 := by
    rw [hSplit, Nat.mul_sub_div 0 _ _ (Nat.mul_pos (Nat.two_pow_pos b) (by omega)), Nat.zero_div]
  rw [hDiv]
  omega

/-- Masking clears the digit. -/
theorem and_mask (hb : b < m) (hx : x < 2 ^ m) :
    x &&& (2 ^ m - 1 - 2 ^ b) = if x / 2 ^ b % 2 = 0 then x else x ^^^ 2 ^ b := by
  rw [mask_eq hb, Nat.and_xor_distrib_left, Nat.and_two_pow_sub_one_of_lt_two_pow hx,
    Nat.and_two_pow, Nat.testBit_eq_decide_div_mod_eq]
  rcases Nat.mod_two_eq_zero_or_one (x / 2 ^ b) with h | h <;> simp [h]

theorem spread_lt (hb : b < m) (ht : t < 2 ^ (m - 1)) : spread b t < 2 ^ m :=
  lt_of_le_of_lt (Nat.le_add_right _ _) (spread_add_lt hb ht)

/-- One more in `t` carries over the inserted digit or not. -/
theorem spread_succ (b t : Nat) :
    spread b (t + 1) = spread b t + 1 ∨ spread b (t + 1) = (spread b t ^^^ 2 ^ b) + 1 := by
  have hPos := Nat.two_pow_pos b
  have hMod := Nat.mod_lt t hPos
  have ht := Nat.mod_add_div t (2 ^ b)
  by_cases hCarry : t % 2 ^ b + 1 < 2 ^ b
  · obtain ⟨hDiv, hMod'⟩ := (Nat.div_mod_unique (a := t + 1) hPos).mpr
      ⟨show (t % 2 ^ b + 1) + 2 ^ b * (t / 2 ^ b) = t + 1 by omega, hCarry⟩
    left
    rw [spread, hDiv, hMod', spread, add_right_comm]
  · obtain ⟨hDiv, hMod'⟩ := (Nat.div_mod_unique (a := t + 1) hPos).mpr
      ⟨show 0 + 2 ^ b * (t / 2 ^ b + 1) = t + 1 by rw [mul_add]; omega, hPos⟩
    right
    rw [spread_flip, spread, hDiv, hMod', spread, pow_succ, mul_add]
    omega

/-- The submask below that of `t + 1` is that of `t`. -/
theorem spread_succ_sub_one (hb : b < m) (ht : t < 2 ^ (m - 1)) :
    (spread b (t + 1) - 1) &&& (2 ^ m - 1 - 2 ^ b) = spread b t := by
  rcases spread_succ b t with h | h
  · rw [h, Nat.add_sub_cancel, and_mask hb (spread_lt hb ht), if_pos spread_digit]
  · have hDigit : (spread b t ^^^ 2 ^ b) / 2 ^ b % 2 ≠ 0 := by
      rw [flip_div, xor_one, if_pos spread_digit, spread_div]
      omega
    have hLt : spread b t ^^^ 2 ^ b < 2 ^ m := by
      rw [spread_flip]
      exact spread_add_lt hb ht
    rw [h, Nat.add_sub_cancel, and_mask hb hLt, if_neg hDigit, flip_flip]

/-- Pairs are in the order of their indices. -/
theorem spread_strictMono (b : Nat) : StrictMono (spread b) := by
  refine strictMono_nat_of_lt_succ fun t => ?_
  rcases spread_succ b t with h | h
  · omega
  · rw [spread_flip] at h
    have := Nat.two_pow_pos b
    omega

/-- The last submask is the mask itself. -/
theorem spread_last (hb : b < m) : spread b (2 ^ (m - 1) - 1) = 2 ^ m - 1 - 2 ^ b := by
  obtain ⟨k, rfl⟩ : ∃ k, m = b + 1 + k := ⟨m - 1 - b, by omega⟩
  have hPos := Nat.two_pow_pos b
  have hPow : 2 ^ (b + 1 + k - 1) = 2 ^ b * 2 ^ k := by
    rw [← pow_add]
    congr 1
    omega
  have hLe : 2 ^ b ≤ 2 ^ b * 2 ^ k := Nat.le_mul_of_pos_right _ (Nat.two_pow_pos k)
  obtain ⟨hDiv, hMod⟩ := (Nat.div_mod_unique (a := 2 ^ b * 2 ^ k - 1) hPos).mpr
    ⟨show (2 ^ b - 1) + 2 ^ b * (2 ^ k - 1) = 2 ^ b * 2 ^ k - 1 by rw [Nat.mul_sub_one]; omega,
      by omega⟩
  have hMask : 2 ^ (b + 1 + k) = 2 * (2 ^ b * 2 ^ k) := by
    rw [← pow_add, ← pow_succ']
    congr 1
    omega
  have hHigh : 2 ^ (b + 1) * (2 ^ k - 1) = 2 * (2 ^ b * 2 ^ k) - 2 * 2 ^ b := by
    rw [Nat.mul_sub_one, pow_succ', mul_assoc]
  rw [hPow, spread, hDiv, hMod, hHigh, hMask]
  omega

end Pairs

/-! ## A column -/

/-- Exchange the two indices of every pair whose control bit is set. -/
def colMap (b : Nat) (c : Nat → Nat) (x : Nat) : Nat :=
  if c (pairIndex b x) ≠ 0 then x ^^^ 2 ^ b else x

/-- A column keeps positions within their pairs. -/
theorem pairIndex_colMap (b : Nat) (c : Nat → Nat) (x : Nat) :
    pairIndex b (colMap b c x) = pairIndex b x := by
  unfold colMap
  split
  · exact pairIndex_flip
  · rfl

/-- A column undoes itself. -/
theorem colMap_colMap (b : Nat) (c : Nat → Nat) : Function.Involutive (colMap b c) := by
  intro x
  rw [colMap, pairIndex_colMap, colMap]
  split
  · exact flip_flip
  · rfl

/-- A column as a permutation of the indices. -/
def colPerm (b : Nat) (c : Nat → Nat) : Equiv.Perm Nat := (colMap_colMap b c).toPerm

@[simp] theorem colPerm_apply (b : Nat) (c : Nat → Nat) (x : Nat) :
    colPerm b c x = colMap b c x := rfl

theorem colPerm_inv (b : Nat) (c : Nat → Nat) : (colPerm b c)⁻¹ = colPerm b c := rfl

/-- It stays within the array. -/
theorem colMap_lt {b m x : Nat} (c : Nat → Nat) (hb : b < m) (hx : x < 2 ^ m) :
    colMap b c x < 2 ^ m := by
  unfold colMap
  split
  · exact Nat.xor_lt_two_pow hx (Nat.pow_lt_pow_right (by decide) hb)
  · exact hx

/-- It permutes the positions of the array. -/
theorem colPerm_below {b m : Nat} (c : Nat → Nat) (hb : b < m) : Below (2 ^ m) (colPerm b c) := by
  intro x
  refine ⟨fun h => ?_, colMap_lt c hb⟩
  have := colMap_lt c hb h
  rwa [colPerm_apply, colMap_colMap b c x] at this

section Apply

variable {α : Type} {b m n : Nat} {X : Nat → α}

/-- A swap exchanges two entries. -/
theorem swapAt_tab {i j : Nat} (hi : i < n) (hj : j < n) (hne : i ≠ j) :
    swapAt (tab n X) i j =
      .ok (tab n (X ∘ fun x => if x = i then j else if x = j then i else x)) := by
  unfold swapAt
  rw [getElem?_tab hi, getElem?_tab hj]
  show Except.ok _ = _
  congr 1
  refine List.ext_getElem (by simp) fun x h₁ h₂ => ?_
  simp only [List.getElem_set, getElem_tab, Function.comp_apply]
  by_cases hxi : x = i
  · subst hxi
    rw [if_neg (fun h => hne h.symm), if_pos rfl, if_pos rfl]
  · by_cases hxj : x = j
    · subst hxj
      rw [if_pos rfl, if_neg hxi, if_pos rfl]
    · rw [if_neg (fun h => hxj h.symm), if_neg (fun h => hxi h.symm), if_neg hxi, if_neg hxj]

/-- Exchanging the two indices of one pair. -/
theorem swapAt_pair (hb : b < m) {t : Nat} (ht : t < 2 ^ (m - 1)) :
    swapAt (tab (2 ^ m) X) (spread b t) (spread b t ^^^ 2 ^ b) =
      .ok (tab (2 ^ m) (X ∘ fun x => if pairIndex b x = t then x ^^^ 2 ^ b else x)) := by
  have hUpper : spread b t ^^^ 2 ^ b < 2 ^ m := by
    rw [spread_flip]
    exact spread_add_lt hb ht
  have hne : spread b t ≠ spread b t ^^^ 2 ^ b := by
    rw [spread_flip]
    have := Nat.two_pow_pos b
    omega
  rw [swapAt_tab (spread_lt hb ht) hUpper hne]
  congr 2
  funext x
  rw [Function.comp_apply, Function.comp_apply]
  congr 1
  by_cases hLow : x = spread b t
  · rw [if_pos hLow, if_pos (pairIndex_eq_iff.mpr (Or.inl hLow)), hLow]
  · by_cases hHigh : x = spread b t ^^^ 2 ^ b
    · rw [if_neg hLow, if_pos hHigh, if_pos (pairIndex_eq_iff.mpr (Or.inr hHigh)), hHigh, flip_flip]
    · rw [if_neg hLow, if_neg hHigh, if_neg]
      intro h
      rcases pairIndex_eq_iff.mp h with h | h
      · exact hLow h
      · exact hHigh h

/-- One control bit. -/
theorem popBit_tab (hb : b < m) (c : Nat → Nat) {t : Nat} (ht : t < 2 ^ (m - 1)) :
    popBit (c t) (2 ^ b) (spread b t) (tab (2 ^ m) X) =
      .ok (tab (2 ^ m) (X ∘ fun x => if pairIndex b x = t then colMap b c x else x)) := by
  unfold popBit
  by_cases hc : c t ≠ 0
  · rw [if_pos hc, swapAt_pair hb ht]
    congr 2
    funext x
    rw [Function.comp_apply, Function.comp_apply]
    congr 1
    by_cases hx : pairIndex b x = t
    · rw [if_pos hx, if_pos hx, colMap, hx, if_pos hc]
    · rw [if_neg hx, if_neg hx]
  · rw [if_neg hc]
    congr 2
    funext x
    rw [Function.comp_apply]
    congr 1
    by_cases hx : pairIndex b x = t
    · rw [if_pos hx, colMap, hx, if_neg hc]
    · rw [if_neg hx]

/-- One round takes the last bit of the column, and goes on unless it was at the first pair. -/
theorem applyColRound_concat (mask bit i j c : Nat) (col : List Nat) (pi : List α) :
    applyColRound mask bit i (j, col ++ [c], pi) = popBit c bit j pi >>= fun pi =>
      if (if j = 0 then mask else (j - 1) &&& mask) = mask then .ok (.inr (col, pi))
      else .ok (.inl (if j = 0 then mask else (j - 1) &&& mask, col, pi)) := by
  simp [applyColRound]

/-- Popping the bits of a list from its end, or taking those of its reverse one by one. -/
theorem applyColLoop_reverse (mask bit i j : Nat) (col : List Nat) (pi : List α) {fuel : Nat}
    (hFuel : col.length < fuel) : applyColLoop mask bit col.reverse j pi =
      Prod.snd <$> loop .diverges (applyColRound mask bit) fuel i (j, col, pi) := by
  induction col using List.reverseRecOn generalizing i j pi fuel with
  | nil =>
    obtain ⟨fuel, rfl⟩ := Nat.exists_eq_succ_of_ne_zero (show fuel ≠ 0 by omega)
    rfl
  | append_singleton col c ih =>
    obtain ⟨fuel, rfl⟩ := Nat.exists_eq_succ_of_ne_zero (show fuel ≠ 0 by omega)
    have hFuel : col.length < fuel := by simpa using hFuel
    rw [List.reverse_append, loop, applyColRound_concat]
    show applyColLoop mask bit (c :: col.reverse) j pi = _
    rw [applyColLoop]
    cases popBit c bit j pi with
    | error e => rfl
    | ok pi =>
      rw [ok_bind, ok_bind]
      by_cases hEnd : (if j = 0 then mask else (j - 1) &&& mask) = mask
      · rw [if_pos hEnd, if_pos hEnd]
        rfl
      · rw [if_neg hEnd, if_neg hEnd]
        exact ih (i + 1) _ pi hFuel

/-- The loop at the submask of `k` still has the bits of the pairs up to `k` to
pop, and pops them all. -/
theorem loop_applyColRound_tab (hb : b < m) (c : Nat → Nat) {k fuel : Nat} (hk : k < 2 ^ (m - 1))
    (hFuel : k < fuel) (i : Nat) :
    loop .diverges (applyColRound (2 ^ m - 1 - 2 ^ b) (2 ^ b)) fuel i
        (spread b k, tab (k + 1) c, tab (2 ^ m) X) =
      .ok ([], tab (2 ^ m) (X ∘ fun x => if pairIndex b x ≤ k then colMap b c x else x)) := by
  induction k generalizing X fuel i with
  | zero =>
    obtain ⟨fuel, rfl⟩ := Nat.exists_eq_succ_of_ne_zero (show fuel ≠ 0 by omega)
    have hZero : spread b 0 = 0 := by simp [spread]
    have hBit := popBit_tab (X := X) hb c hk
    rw [hZero] at hBit
    rw [tab_succ, loop, hZero, applyColRound_concat, hBit, ok_bind, if_pos rfl, if_pos rfl]
    refine congrArg (fun pi => Except.ok ([], pi)) (tab_congr fun x _ => ?_)
    simp only [Function.comp_apply, Nat.le_zero]
  | succ k ih =>
    obtain ⟨fuel, rfl⟩ := Nat.exists_eq_succ_of_ne_zero (show fuel ≠ 0 by omega)
    have hk' : k < 2 ^ (m - 1) := by omega
    have hPos : spread b (k + 1) ≠ 0 := by
      have := spread_strictMono b (show 0 < k + 1 by omega)
      omega
    -- the walk is over only behind the last submask
    have hGoOn : spread b k ≠ 2 ^ m - 1 - 2 ^ b := by
      rw [← spread_last hb]
      exact (spread_strictMono b).injective.ne (by omega)
    rw [tab_succ, loop, applyColRound_concat, popBit_tab hb c hk, ok_bind, if_neg hPos,
      spread_succ_sub_one hb hk', if_neg hGoOn]
    show loop _ _ fuel (i + 1) (spread b k, tab (k + 1) c, _) = _
    rw [ih hk' (by omega)]
    refine congrArg (fun pi => Except.ok ([], pi)) (tab_congr fun x _ => ?_)
    rw [Function.comp_apply, Function.comp_apply, Function.comp_apply]
    congr 1
    by_cases hLe : pairIndex b x ≤ k
    · rw [if_pos hLe, pairIndex_colMap, if_neg (by omega), if_pos (by omega)]
    · rw [if_neg hLe]
      by_cases hEq : pairIndex b x = k + 1
      · rw [if_pos hEq, if_pos (by omega)]
      · rw [if_neg hEq, if_neg (by omega)]

/-- The whole loop exchanges the two indices of every pair whose bit is set. -/
theorem loop_applyColRound_mask (hb : b < m) (c : Nat → Nat) {fuel : Nat}
    (hFuel : 2 ^ (m - 1) ≤ fuel) :
    loop .diverges (applyColRound (2 ^ m - 1 - 2 ^ b) (2 ^ b)) fuel 0
        (2 ^ m - 1 - 2 ^ b, tab (2 ^ (m - 1)) c, tab (2 ^ m) X) =
      .ok ([], tab (2 ^ m) (X ∘ colMap b c)) := by
  have hPos := Nat.two_pow_pos (m - 1)
  have hLast := loop_applyColRound_tab (X := X) hb c (k := 2 ^ (m - 1) - 1) (by omega)
    (show _ < fuel by omega) 0
  rw [Nat.sub_add_cancel hPos, spread_last hb] at hLast
  rw [hLast]
  refine congrArg (fun pi => Except.ok ([], pi)) (tab_congr fun x hx => ?_)
  have := pairIndex_lt hb hx
  rw [Function.comp_apply, Function.comp_apply, if_pos (by omega)]

/-- `apply_col` is the loop over the mask. -/
theorem applyCol_eq {pi : List α} (hpi : pi.length = 2 ^ m) (col : List Nat) :
    applyCol pi m b col =
      applyColLoop (2 ^ m - 1 - 2 ^ b) (2 ^ b) col.reverse (2 ^ m - 1 - 2 ^ b) pi := by
  unfold applyCol
  simp only [Nat.one_shiftLeft, hpi, if_true]

/-- `apply_col` rearranges along the column. -/
theorem applyCol_tab (hb : b < m) (c : Nat → Nat) :
    applyCol (tab (2 ^ m) X) m b (tab (2 ^ (m - 1)) c) =
      .ok (tab (2 ^ m) (X ∘ colMap b c)) := by
  rw [applyCol_eq (length_tab _ _), applyColLoop_reverse _ _ 0 _ _ _ (Nat.lt_succ_self _),
    loop_applyColRound_mask hb c (by simp)]
  rfl

/-- The loop uses up the bits and applies the column. -/
theorem applyColLeft_tab (hb : b < m) (c : Nat → Nat) :
    Returns (fun fuel => applyColLeft fuel (tab (2 ^ m) X) m b (tab (2 ^ (m - 1)) c))
      ([], tab (2 ^ m) (X ∘ colMap b c)) := by
  refine ⟨2 ^ (m - 1), fun fuel hFuel => ?_⟩
  unfold applyColLeft
  simp only [Nat.one_shiftLeft, length_tab, if_true]
  exact loop_applyColRound_mask hb c hFuel

/-- **A column swaps the pairs whose bits are set**, uses up its bits, and undoes itself. -/
theorem applyCol_swaps {ibit : Nat} (hIbit : ibit < m) {pi : List α} (hpi : pi.length = 2 ^ m)
    {col : List Nat} (hcol : col.length = 2 ^ (m - 1)) :
    ∃ pi', applyCol pi m ibit col = .ok pi' ∧
      Returns (fun fuel => applyColLeft fuel pi m ibit col) ([], pi') ∧
      (∀ t (ht : t < col.length), col[t] ≠ 0 →
        pi'[spread ibit t]? = pi[spread ibit t + 2 ^ ibit]? ∧
        pi'[spread ibit t + 2 ^ ibit]? = pi[spread ibit t]?) ∧
      (∀ x, (∀ t (ht : t < col.length), col[t] ≠ 0 →
        x ≠ spread ibit t ∧ x ≠ spread ibit t + 2 ^ ibit) → pi'[x]? = pi[x]?) ∧
      applyCol pi' m ibit col = .ok pi := by
  obtain ⟨X, rfl⟩ := exists_tab (Nat.two_pow_pos m) hpi
  obtain ⟨c, rfl⟩ := exists_tab (Nat.two_pow_pos (m - 1)) hcol
  refine ⟨tab (2 ^ m) (X ∘ colMap ibit c), applyCol_tab hIbit c, applyColLeft_tab hIbit c,
    fun t ht hSet => ?_, fun x hApart => ?_, ?_⟩
  · have ht : t < 2 ^ (m - 1) := by simpa using ht
    have hSet : c t ≠ 0 := by simpa using hSet
    have hLow := spread_lt hIbit ht
    have hHigh := spread_add_lt hIbit ht
    rw [getElem?_tab hLow, getElem?_tab hHigh, getElem?_tab hLow, getElem?_tab hHigh, ← spread_flip]
    constructor
    · rw [Function.comp_apply, colMap, pairIndex_spread, if_pos hSet]
    · rw [Function.comp_apply, colMap, pairIndex_flip, pairIndex_spread, if_pos hSet, flip_flip]
  · by_cases hx : x < 2 ^ m
    · -- the bit of the pair that the index belongs to is not set
      have hClear : c (pairIndex ibit x) = 0 := by
        by_contra hSet
        have hIn := pairIndex_lt hIbit hx
        obtain ⟨hLow, hHigh⟩ := hApart (pairIndex ibit x) (by simpa using hIn) (by simpa using hSet)
        rw [← spread_flip] at hHigh
        exact (eq_spread_or ibit x).elim hLow hHigh
      rw [getElem?_tab hx, getElem?_tab hx, Function.comp_apply, colMap,
        if_neg (not_not.mpr hClear)]
    · rw [List.getElem?_eq_none (by simpa using hx), List.getElem?_eq_none (by simpa using hx)]
  · rw [applyCol_tab hIbit c]
    refine congrArg Except.ok (tab_congr fun x _ => ?_)
    rw [Function.comp_apply, Function.comp_apply, colMap_colMap]

/-- The second of two pairs of neighbours. -/
theorem applyCol_swaps_four : ∃ pi', applyCol [5, 6, 7, 8] 2 0 [0, 1] = .ok pi' ∧
    Returns (fun fuel => applyColLeft fuel [5, 6, 7, 8] 2 0 [0, 1]) ([], pi') ∧
    pi'[2]? = some 8 ∧ pi'[3]? = some 7 := by
  obtain ⟨pi', hRun, hLeft, hSwap, -⟩ := applyCol_swaps (show 0 < 2 by decide)
    (show [5, 6, 7, 8].length = 2 ^ 2 from rfl) (show [0, 1].length = 2 ^ (2 - 1) from rfl)
  exact ⟨pi', hRun, hLeft, hSwap 1 (by decide) (by decide)⟩

end Apply

end Obscure.Routing
