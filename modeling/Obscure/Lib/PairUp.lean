import Mathlib.Data.List.Basic

/-!
# Reducing a list level by level

One level of a tree reduction combines neighbours, and keeps the last element when it
has none. For an associative operation a level does not change what the list folds to.
A level can be written over the list it is read from, front to back: the elements read
for position `i` are not before `i`.

* `foldl_pairUp`   — a level folds to the same value;
* `overlay_set`    — one more position of the level is written.
-/

namespace Lib

variable {α : Type*} {op : α → α → α}

/-- Neighbours combined. -/
def pairUp (op : α → α → α) : List α → List α
  | a :: b :: l => op a b :: pairUp op l
  | [a] => [a]
  | [] => []

theorem length_pairUp (op : α → α → α) (l : List α) :
    (pairUp op l).length = (l.length + 1) / 2 := by
  induction l using pairUp.induct with
  | case1 a b l ih =>
    rw [pairUp, List.length_cons, ih, List.length_cons, List.length_cons]
    omega
  | case2 a => simp [pairUp]
  | case3 => simp [pairUp]

theorem getElem?_pairUp (op : α → α → α) {l : List α} {i : Nat} {a b : α}
    (ha : l[2 * i]? = some a) (hb : l[2 * i + 1]? = some b) :
    (pairUp op l)[i]? = some (op a b) := by
  induction l using pairUp.induct generalizing i with
  | case1 x y l ih =>
    cases i with
    | zero =>
      cases ha
      cases hb
      rfl
    | succ i => exact ih ha hb
  | case2 x => cases hb
  | case3 => cases ha

/-- An element without a neighbour. -/
theorem getElem?_pairUp_last {l : List α} {i : Nat} (h : l.length = 2 * i + 1) :
    (pairUp op l)[i]? = l[2 * i]? := by
  induction l using pairUp.induct generalizing i with
  | case1 x y l ih =>
    cases i with
    | zero => cases h
    | succ i =>
      refine ih ?_
      rw [List.length_cons, List.length_cons] at h
      omega
  | case2 x =>
    obtain rfl : i = 0 := by
      rw [List.length_singleton] at h
      omega
    rfl
  | case3 => cases h

theorem foldl_pairUp [Std.Associative op] (x : α) (l : List α) :
    (pairUp op l).foldl op x = l.foldl op x := by
  induction l using pairUp.induct generalizing x with
  | case1 a b l ih =>
    have hAssoc : op (op x a) b = op x (op a b) := Std.Associative.assoc x a b
    rw [pairUp, List.foldl_cons, ih, List.foldl_cons, List.foldl_cons, hAssoc]
  | case2 a => rfl
  | case3 => rfl

/-! ## Writing a list over another -/

/-- The first `j` positions of `d` overwritten with those of `p`. -/
def overlay (p d : List α) (j : Nat) : List α := p.take j ++ d.drop j

theorem overlay_zero (p d : List α) : overlay p d 0 = d := by simp [overlay]

section Overlay

variable {p d : List α} {j : Nat}

theorem length_overlay (hp : j ≤ p.length) (hd : j ≤ d.length) :
    (overlay p d j).length = d.length := by
  rw [overlay, List.length_append, List.length_take, List.length_drop]
  omega

/-- What is behind the written positions is as before. -/
theorem getElem?_overlay (hp : j ≤ p.length) {i : Nat} (hi : j ≤ i) :
    (overlay p d j)[i]? = d[i]? := by
  have hLen : (p.take j).length = j := by rw [List.length_take, Nat.min_eq_left hp]
  rw [overlay, List.getElem?_append_right (by omega), hLen, List.getElem?_drop,
    Nat.add_sub_cancel' hi]

theorem overlay_set {v : α} (hp : p[j]? = some v) (hd : j < d.length) :
    (overlay p d j).set j v = overlay p d (j + 1) := by
  obtain ⟨hj, rfl⟩ := List.getElem?_eq_some_iff.mp hp
  have hLen : (p.take j).length = j := by rw [List.length_take, Nat.min_eq_left (Nat.le_of_lt hj)]
  rw [overlay, overlay, List.set_append_right _ _ (by omega), hLen, Nat.sub_self,
    List.drop_eq_getElem_cons hd, List.set_cons_zero, List.take_succ_eq_append_getElem hj,
    List.append_assoc, List.singleton_append]

theorem overlay_full (h : j = p.length) : overlay p d j = p ++ d.drop p.length := by
  rw [overlay, h, List.take_length]

end Overlay

end Lib
