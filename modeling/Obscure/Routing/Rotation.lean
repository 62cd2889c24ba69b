import Obscure.Routing.Column

/-!
# OBSCURE — rotations of the indices

`make_index_ROTL(m, s)` lists the indices with their `m` binary digits rotated
by `s`. The rotations are the powers of one permutation, so they commute, and a
rotation by `s` brings the digits `s … s + le - 1` to the low end: permuting
only these digits, seen after the rotation, stays within windows of `2 ^ le`.
-/

namespace Obscure.Routing

open Lib

/-- Rotate the `m` digits of an index by one to the right. -/
def rotOne (m : Nat) (x : Nat) : Nat :=
  if x < 2 ^ m then x / 2 + x % 2 * 2 ^ (m - 1) else x

def unrotOne (m : Nat) (y : Nat) : Nat :=
  if y < 2 ^ m then 2 * (y % 2 ^ (m - 1)) + y / 2 ^ (m - 1) else y

section Rotations

variable {m : Nat}

theorem rotOne_lt (hm : 0 < m) {x : Nat} (hx : x < 2 ^ m) : rotOne m x < 2 ^ m := by
  have hPow : 2 ^ m = 2 * 2 ^ (m - 1) := by
    rw [← pow_succ', Nat.sub_add_cancel hm]
  rw [rotOne, if_pos hx]
  rcases Nat.mod_two_eq_zero_or_one x with h | h <;> rw [h] <;> omega

theorem unrotOne_rotOne (hm : 0 < m) (x : Nat) : unrotOne m (rotOne m x) = x := by
  have hPow : 2 ^ m = 2 * 2 ^ (m - 1) := by
    rw [← pow_succ', Nat.sub_add_cancel hm]
  by_cases hx : x < 2 ^ m
  · have hLt := rotOne_lt hm hx
    have hHalf : x / 2 < 2 ^ (m - 1) := by omega
    rw [unrotOne, if_pos hLt, rotOne, if_pos hx, Nat.add_mul_mod_self_right,
      Nat.mod_eq_of_lt hHalf, Nat.add_mul_div_right _ _ (Nat.two_pow_pos _),
      Nat.div_eq_of_lt hHalf, zero_add, Nat.div_add_mod]
  · rw [rotOne, if_neg hx, unrotOne, if_neg hx]

theorem rotOne_unrotOne (hm : 0 < m) (y : Nat) : rotOne m (unrotOne m y) = y := by
  have hPow : 2 ^ m = 2 * 2 ^ (m - 1) := by
    rw [← pow_succ', Nat.sub_add_cancel hm]
  by_cases hy : y < 2 ^ m
  · have hMod : y % 2 ^ (m - 1) < 2 ^ (m - 1) := Nat.mod_lt _ (Nat.two_pow_pos _)
    have hDiv : y / 2 ^ (m - 1) < 2 := (Nat.div_lt_iff_lt_mul (Nat.two_pow_pos _)).mpr (by omega)
    rw [unrotOne, if_pos hy, rotOne, if_pos (by omega), Nat.mul_add_div (by decide),
      Nat.div_eq_of_lt hDiv, add_zero, Nat.mul_add_mod, Nat.mod_eq_of_lt hDiv, mul_comm,
      Nat.mod_add_div]
  · rw [unrotOne, if_neg hy, rotOne, if_neg hy]

/-- The rotation by one as a permutation of the indices. -/
def rot (m : Nat) (hm : 0 < m) : Equiv.Perm Nat where
  toFun := rotOne m
  invFun := unrotOne m
  left_inv := unrotOne_rotOne hm
  right_inv := rotOne_unrotOne hm

theorem rot_below (hm : 0 < m) : Below (2 ^ m) (rot m hm) := by
  intro x
  refine ⟨fun h => ?_, rotOne_lt hm⟩
  by_contra hx
  rw [show rot m hm x = rotOne m x from rfl, rotOne, if_neg hx] at h
  exact hx h

/-- The rotation by `s` splits an index between the digits `s - 1` and `s`. -/
theorem rot_pow_apply (hm : 0 < m) {s x : Nat} (hs : s ≤ m) (hx : x < 2 ^ m) :
    (rot m hm ^ s) x = x / 2 ^ s + x % 2 ^ s * 2 ^ (m - s) := by
  induction s with
  | zero => simp [Nat.mod_one]
  | succ s ih =>
    have hLt : (rot m hm ^ s) x < 2 ^ m := ((rot_below hm).pow s x).mpr hx
    have hSplit : 2 ^ (m - s) = 2 * 2 ^ (m - (s + 1)) := by
      rw [← pow_succ']
      congr 1
      omega
    have hTop : 2 ^ (m - 1) = 2 ^ s * 2 ^ (m - (s + 1)) := by
      rw [← pow_add]
      congr 1
      omega
    rw [pow_succ', Equiv.Perm.mul_apply]
    show rotOne m ((rot m hm ^ s) x) = _
    rw [rotOne, if_pos hLt, ih (by omega), hSplit, Nat.mul_left_comm,
      Nat.add_mul_div_left _ _ (by decide), Nat.add_mul_mod_self_left, hTop, pow_succ,
      Nat.mod_mul, Nat.div_div_eq_div_mul, add_assoc, add_mul, mul_assoc]
    congr 2
    ring

/-- The window of a rotated index, before the rotation. -/
theorem rot_pow_div (hm : 0 < m) {s le y : Nat} (hs : s + le ≤ m) (hy : y < 2 ^ m) :
    (rot m hm ^ s) y / 2 ^ le = y / 2 ^ (s + le) + y % 2 ^ s * 2 ^ (m - s - le) := by
  have hSplit : 2 ^ (m - s) = 2 ^ (m - s - le) * 2 ^ le := by
    rw [← pow_add]
    congr 1
    omega
  rw [rot_pow_apply hm (by omega) hy, hSplit, ← mul_assoc,
    Nat.add_mul_div_right _ _ (Nat.two_pow_pos _), Nat.div_div_eq_div_mul, ← pow_add]

/-- `ROTR` is the rotation. -/
theorem rotr_eq (hm : 0 < m) {s x : Nat} (hs : s < m) (hx : x < 2 ^ m) :
    Shuffle.rotr x m s = .ok ((rot m hm ^ s) x) := by
  have hPos := Nat.two_pow_pos m
  have hHigh : x / 2 ^ s < 2 ^ (m - s) := by
    rw [Nat.div_lt_iff_lt_mul (Nat.two_pow_pos _), ← pow_add, Nat.sub_add_cancel hs.le]
    exact hx
  have hMod : x * 2 ^ (m - s) = x % 2 ^ s * 2 ^ (m - s) + 2 ^ m * (x / 2 ^ s) := by
    have hPow : 2 ^ m = 2 ^ s * 2 ^ (m - s) := by
      rw [← pow_add]
      congr 1
      omega
    conv_lhs => rw [← Nat.mod_add_div x (2 ^ s)]
    rw [add_mul, hPow]
    ring
  have hLt : x / 2 ^ s + x % 2 ^ s * 2 ^ (m - s) < 2 ^ m := by
    rw [← rot_pow_apply hm hs.le hx]
    exact ((rot_below hm).pow s x).mpr hx
  unfold Shuffle.rotr
  simp only [Nat.mod_eq_of_lt hs, Nat.one_shiftLeft]
  rw [if_pos (by omega), Nat.and_two_pow_sub_one_eq_mod, Nat.shiftRight_eq_div_pow, Nat.or_comm,
    ← Nat.shiftLeft_add_eq_or_of_lt hHigh, Nat.shiftLeft_eq, hMod, rot_pow_apply hm hs.le hx,
    add_right_comm, Nat.add_mul_mod_self_left, add_comm, Nat.mod_eq_of_lt hLt]

theorem makeIndexROTL_eq (hm : 0 < m) {s : Nat} (hs : s < m) :
    Shuffle.makeIndexROTL m s =
      .ok (Shuffle.ofPerm (2 ^ m) (Nat.two_pow_pos m) (rot m hm ^ s) ((rot_below hm).pow s)) := by
  unfold Shuffle.makeIndexROTL
  rw [mapM_ok (g := ⇑(rot m hm ^ s)) fun x hx => rotr_eq hm hs (List.mem_range.mp hx)]
  exact Shuffle.ofNats_tab (Nat.two_pow_pos m) fun i hi => ((rot_below hm).pow s i).mpr hi

end Rotations

end Obscure.Routing
