import Mathlib.Data.List.Sort
import Mathlib.Data.List.Nodup
import Mathlib.Data.List.GetD
import Mathlib.Data.List.Forall2
import Mathlib.Algebra.Group.End

/-!
# Tables

A list of known length is the table of a function on the indices below it. Wires
that are rearranged, index by index, are tables of composed functions: reading
the table of `X` at the entries of the table of `p` gives the table of `X ∘ p`.
A rearrangement without loss is a permutation of `ℕ` that moves only indices
below the length (`Below`).

* `exists_below`      — every list that rearranges `0 … n - 1` is such a table;
* `sort_zip_tab`      — sorting by a permutation composes with its inverse.
-/

namespace Lib

variable {α β : Type*}

/-- The values of `g` at the indices below `n`. -/
def tab (n : Nat) (g : Nat → α) : List α := (List.range n).map g

@[simp] theorem length_tab (n : Nat) (g : Nat → α) : (tab n g).length = n := by
  simp [tab]

@[simp] theorem getElem_tab {n : Nat} {g : Nat → α} {i : Nat} (h : i < (tab n g).length) :
    (tab n g)[i] = g i := by
  simp [tab]

theorem getElem?_tab {n : Nat} {g : Nat → α} {i : Nat} (h : i < n) :
    (tab n g)[i]? = some (g i) := by
  simp [tab, h]

theorem getD_tab {n : Nat} {g : Nat → α} {i : Nat} {d : α} (h : i < n) :
    (tab n g).getD i d = g i := by
  simp [tab, h]

@[simp] theorem map_tab (n : Nat) (g : Nat → α) (f : α → β) : (tab n g).map f = tab n (f ∘ g) := by
  simp [tab]

theorem mem_tab {n : Nat} {g : Nat → α} {a : α} : a ∈ tab n g ↔ ∃ i < n, g i = a := by
  simp [tab]

/-- Tables are equal if all entries are. -/
theorem tab_inj {n : Nat} {f g : Nat → α} : tab n f = tab n g ↔ ∀ i < n, f i = g i := by
  simp [tab]

theorem tab_congr {n : Nat} {f g : Nat → α} (h : ∀ i < n, f i = g i) : tab n f = tab n g :=
  tab_inj.mpr h

/-- Every list is a table. -/
theorem eq_tab [Inhabited α] (l : List α) : l = tab l.length fun i => l.getD i default := by
  refine List.ext_getElem (by simp) fun i h _ => ?_
  simp [h]

/-- Every list is a table. -/
theorem exists_tab {n : Nat} (hn : 0 < n) {l : List α} (h : l.length = n) :
    ∃ g : Nat → α, l = tab n g := by
  have : Inhabited α := ⟨l[0]⟩
  exact ⟨_, by conv_lhs => rw [eq_tab l, h]⟩

/-- A list of indices below its length is the table of a map of these indices. -/
theorem exists_tab_lt {n : Nat} {l : List Nat} (h : l.length = n) (hl : ∀ a ∈ l, a < n) :
    ∃ g : Nat → Nat, l = tab n g ∧ ∀ i < n, g i < n := by
  have hTab : l = tab n fun i => l.getD i default := by
    conv_lhs => rw [eq_tab l, h]
  refine ⟨_, hTab, fun i hi => hl _ ?_⟩
  rw [List.getD_eq_getElem _ _ (h ▸ hi)]
  exact List.getElem_mem _

/-- A table in two parts. -/
theorem tab_add (n k : Nat) (g : Nat → α) :
    tab (n + k) g = tab n g ++ tab k fun i => g (n + i) := by
  simp [tab, List.range_add, Function.comp_def]

/-- A table with a last entry. -/
theorem tab_succ (n : Nat) (g : Nat → α) : tab (n + 1) g = tab n g ++ [g n] := by
  simp [tab, List.range_succ]

/-- A table with a first entry. -/
theorem tab_succ_eq_cons (n : Nat) (g : Nat → α) :
    tab (n + 1) g = g 0 :: tab n fun i => g (i + 1) := by
  simp [tab, List.range_succ_eq_map, Function.comp_def]

/-- A part of a table is one. -/
theorem take_drop_tab {n i w : Nat} (g : Nat → α) (h : i + w ≤ n) :
    ((tab n g).drop i).take w = tab w fun j => g (i + j) := by
  refine List.ext_getElem (by simp; omega) fun j _ _ => ?_
  simp

/-- A list that is filled up to a size. -/
theorem append_replicate_eq_tab {l : List α} {n : Nat} (h : l.length ≤ n) (d : α) :
    l ++ List.replicate (n - l.length) d = tab n fun i => l.getD i d := by
  refine List.ext_getElem (by simp; omega) fun i h₁ h₂ => ?_
  rw [getElem_tab]
  by_cases hi : i < l.length
  · rw [List.getElem_append_left hi, List.getD_eq_getElem _ _ hi]
  · rw [List.getElem_append_right (by omega), List.getElem_replicate,
      List.getD_eq_default _ _ (by omega)]

/-- Tables are related entry by entry. -/
theorem forall₂_tab {R : α → β → Prop} {n : Nat} {f : Nat → α} {g : Nat → β}
    (h : ∀ i < n, R (f i) (g i)) : List.Forall₂ R (tab n f) (tab n g) := by
  induction n with
  | zero => exact .nil
  | succ n ih =>
    rw [tab_succ, tab_succ]
    exact List.rel_append (ih fun i hi => h i (by omega)) (.cons (h n (by omega)) .nil)

/-- A table with a list written over it. -/
theorem tab_overwrite {n off : Nat} (g : Nat → α) {new : List α} (h : off + new.length ≤ n)
    (d : α) :
    (tab n g).take off ++ (new ++ (tab n g).drop (off + new.length)) =
      tab n fun j => if off ≤ j ∧ j < off + new.length then new.getD (j - off) d else g j := by
  refine List.ext_getElem (by simp; omega) fun j h₁ h₂ => ?_
  have hj : j < n := by simpa using h₂
  rw [getElem_tab, List.getElem_append]
  by_cases hBefore : j < off
  · rw [dif_pos (by simp; omega), if_neg (by omega)]
    simp
  · rw [dif_neg (by simp; omega), List.getElem_append]
    by_cases hIn : j < off + new.length
    · rw [dif_pos (by simp; omega), if_pos (by omega), List.getD_eq_getElem _ _ (by omega)]
      simp [min_eq_left (show off ≤ n by omega)]
    · rw [dif_neg (by simp; omega), if_neg (by omega)]
      simp only [List.getElem_drop, getElem_tab]
      congr 1
      simp
      omega

/-! ## Permutations of the indices -/

/-- A permutation that moves only indices below `n`. -/
def Below (n : Nat) (p : Equiv.Perm Nat) : Prop := ∀ x, p x < n ↔ x < n

namespace Below

variable {n : Nat} {p q : Equiv.Perm Nat}

theorem one (n : Nat) : Below n 1 := fun _ => Iff.rfl

theorem mul (hp : Below n p) (hq : Below n q) : Below n (p * q) := fun x =>
  (hp (q x)).trans (hq x)

theorem inv (hp : Below n p) : Below n p⁻¹ := fun x => by
  have := hp (p⁻¹ x)
  simpa using this.symm

theorem pow (hp : Below n p) (k : Nat) : Below n (p ^ k) := by
  induction k with
  | zero => exact one n
  | succ k ih => exact pow_succ p k ▸ ih.mul hp

/-- The table of the permutation lists every index below `n` once. -/
theorem perm_range (hp : Below n p) : (tab n p).Perm (List.range n) := by
  refine (List.perm_ext_iff_of_nodup ?_ List.nodup_range).mpr fun x => ?_
  · exact List.nodup_range.map p.injective
  · rw [mem_tab, List.mem_range]
    constructor
    · rintro ⟨i, hi, rfl⟩
      exact (hp i).mpr hi
    · intro hx
      exact ⟨p⁻¹ x, (hp.inv x).mpr hx, by simp⟩

end Below

/-- A list that rearranges the indices below `n` is the table of a permutation. -/
theorem exists_below {n : Nat} {l : List Nat} (h : l.Perm (List.range n)) :
    ∃ p : Equiv.Perm Nat, Below n p ∧ l = tab n p := by
  have hLen : l.length = n := by rw [h.length_eq, List.length_range]
  have hNodup : l.Nodup := h.nodup_iff.mpr List.nodup_range
  have hMem : ∀ x, x ∈ l ↔ x < n := fun x => h.mem_iff.trans List.mem_range
  have hGet : ∀ i < n, l.getD i i ∈ l := by
    intro i hi
    rw [List.getD_eq_getElem _ _ (hLen ▸ hi)]
    exact List.getElem_mem _
  -- outside of the list nothing moves
  have hOut : ∀ i, ¬ i < n → l.getD i i = i := fun i hi =>
    List.getD_eq_default _ _ (by omega)
  refine ⟨⟨fun i => l.getD i i, fun x => if x ∈ l then l.idxOf x else x, fun i => ?_, fun x => ?_⟩,
    fun i => ?_, ?_⟩
  · by_cases hi : i < n
    · show (if l.getD i i ∈ l then l.idxOf (l.getD i i) else l.getD i i) = i
      rw [if_pos (hGet i hi), List.getD_eq_getElem _ _ (hLen ▸ hi)]
      exact hNodup.idxOf_getElem i _
    · show (if l.getD i i ∈ l then l.idxOf (l.getD i i) else l.getD i i) = i
      rw [hOut i hi, if_neg (fun hIn => hi ((hMem i).mp hIn))]
  · by_cases hx : x ∈ l
    · show l.getD (if x ∈ l then l.idxOf x else x) (if x ∈ l then l.idxOf x else x) = x
      rw [if_pos hx, List.getD_eq_getElem _ _ (List.idxOf_lt_length_iff.mpr hx)]
      exact List.getElem_idxOf _
    · show l.getD (if x ∈ l then l.idxOf x else x) (if x ∈ l then l.idxOf x else x) = x
      rw [if_neg hx]
      exact hOut x (fun hIn => hx ((hMem x).mpr hIn))
  · show l.getD i i < n ↔ i < n
    by_cases hi : i < n
    · exact iff_of_true ((hMem _).mp (hGet i hi)) hi
    · rw [hOut i hi]
  · refine List.ext_getElem (by simp [hLen]) fun i hi _ => ?_
    rw [getElem_tab]
    exact (List.getD_eq_getElem _ _ hi).symm

/-- An injective map of the indices below `n` into themselves is a permutation
there. -/
theorem exists_below_of_inj {n : Nat} {g : Nat → Nat} (hlt : ∀ i < n, g i < n)
    (hInj : ∀ i < n, ∀ j < n, g i = g j → i = j) :
    ∃ p : Equiv.Perm Nat, Below n p ∧ ∀ i < n, p i = g i := by
  have hNodup : (tab n g).Nodup :=
    List.Nodup.map_on (fun i hi j hj h =>
      hInj i (List.mem_range.mp hi) j (List.mem_range.mp hj) h) List.nodup_range
  have hSub : tab n g ⊆ List.range n := by
    intro x hx
    obtain ⟨i, hi, rfl⟩ := mem_tab.mp hx
    exact List.mem_range.mpr (hlt i hi)
  have hPerm : (tab n g).Perm (List.range n) :=
    (List.subperm_of_subset hNodup hSub).perm_of_length_le (by simp)
  obtain ⟨p, hp, hEq⟩ := exists_below hPerm
  exact ⟨p, hp, fun i hi => (tab_inj.mp hEq i hi).symm⟩

/-- Pairs of a key and a value, in lexicographic order. -/
def PairLE (a b : Nat × Nat) : Prop := a.1 < b.1 ∨ a.1 = b.1 ∧ a.2 ≤ b.2

instance : DecidableRel PairLE := fun a b => by
  unfold PairLE
  infer_instance

instance : IsTrans (Nat × Nat) PairLE := ⟨fun a b c hab hbc => by
  unfold PairLE at *
  omega⟩

instance : Std.Total PairLE := ⟨fun a b => by
  unfold PairLE
  omega⟩

instance : Std.Antisymm PairLE := ⟨fun a b hab hba => by
  unfold PairLE at *
  exact Prod.ext (by omega) (by omega)⟩

/-- Sorting the pairs `(p i, c i)` lists the values in the order of the keys. -/
theorem sort_zip_tab {n : Nat} {p : Equiv.Perm Nat} (hp : Below n p) (c : Nat → Nat) :
    (((tab n p).zip (tab n c)).insertionSort PairLE).map Prod.snd = tab n (c ∘ ⇑p⁻¹) := by
  have hZip : (tab n p).zip (tab n c) = tab n fun i => (p i, c i) := by
    simp [tab, List.zip_map']
  have hSorted : (tab n fun j => (j, c (p⁻¹ j))).Pairwise PairLE := by
    rw [tab, List.pairwise_map]
    exact List.pairwise_lt_range.imp fun hlt => Or.inl hlt
  have hPerm : (tab n fun i => (p i, c i)).Perm (tab n fun j => (j, c (p⁻¹ j))) := by
    have hMap := hp.perm_range.map fun j => (j, c (p⁻¹ j))
    simpa [tab, Function.comp_def] using hMap
  have hEq : ((tab n p).zip (tab n c)).insertionSort PairLE = tab n fun j => (j, c (p⁻¹ j)) := by
    refine List.Perm.eq_of_pairwise' (List.pairwise_insertionSort _ _) hSorted ?_
    rw [hZip]
    exact (List.perm_insertionSort _ _).trans hPerm
  rw [hEq, map_tab]
  rfl

end Lib
