import Mathlib.Data.List.Basic
import Mathlib.Data.List.Forall2
import Mathlib.Data.List.Nodup
import Mathlib.Data.List.TakeWhile
import Mathlib.Tactic.Tauto

/-!
# Lists and association lists

Facts about positions in a list, about association lists used as dictionaries,
with the newest binding first, and about lists with separators.
-/

namespace Lib

variable {α β : Type*}

theorem lookup_cons_ite [DecidableEq α] {k k' : α} {v : β} {l : List (α × β)} :
    List.lookup k ((k', v) :: l) = if k = k' then some v else l.lookup k := by
  rw [List.lookup_cons]
  by_cases h : k = k'
  · simp [h]
  · have hb : (k == k') = false := by simpa using h
    simp [h, hb]

/-- A dictionary with a new value for a key, in the place of the old one if there is one. -/
def dictSet {α β : Type} [DecidableEq α] : List (α × β) → α → β → List (α × β)
  | [], k, v => [(k, v)]
  | (k', v') :: l, k, v => if k' = k then (k, v) :: l else (k', v') :: dictSet l k v

theorem lookup_dictSet {α β : Type} [DecidableEq α] (l : List (α × β)) (k : α) (v : β) (x : α) :
    (dictSet l k v).lookup x = if x = k then some v else l.lookup x := by
  induction l with
  | nil => simp [dictSet, lookup_cons_ite]
  | cons e l ih =>
    obtain ⟨k', v'⟩ := e
    rw [dictSet]
    split
    · next h =>
      subst h
      rw [lookup_cons_ite, lookup_cons_ite]
      split <;> rfl
    · next h =>
      rw [lookup_cons_ite, lookup_cons_ite, ih]
      split
      · next hx => rw [if_neg fun hk => h (hx.symm.trans hk)]
      · rfl

theorem map_fst_dictSet {α β : Type} [DecidableEq α] (l : List (α × β)) (k : α) (v : β) :
    (dictSet l k v).map Prod.fst =
      if k ∈ l.map Prod.fst then l.map Prod.fst else l.map Prod.fst ++ [k] := by
  induction l with
  | nil => rfl
  | cons e l ih =>
    obtain ⟨k', v'⟩ := e
    rw [dictSet]
    split
    · next h => simp [h]
    · next h =>
      have hNe : k ≠ k' := fun hEq => h hEq.symm
      simp only [List.map_cons, ih, List.mem_cons, hNe, false_or]
      split <;> rfl

/-- In a dictionary without duplicate keys the entries are what the lookups find. -/
theorem mem_iff_lookup {α β : Type} [DecidableEq α] {l : List (α × β)} (h : (l.map Prod.fst).Nodup)
    {k : α} {v : β} : (k, v) ∈ l ↔ l.lookup k = some v := by
  induction l with
  | nil => simp
  | cons e l ih =>
    obtain ⟨k', v'⟩ := e
    obtain ⟨hNew, hTail⟩ := List.nodup_cons.mp h
    rw [List.mem_cons, lookup_cons_ite, Prod.mk.injEq, ih hTail]
    by_cases hk : k = k'
    · subst hk
      have hNone : (k, v) ∉ l := fun hMem => hNew (List.mem_map.mpr ⟨(k, v), hMem, rfl⟩)
      rw [ih hTail] at hNone
      simp [hNone, eq_comm]
    · simp [hk]

/-- A list with an element satisfying `p` has a first such element. -/
theorem exists_first_satisfying (p : α → Prop) [DecidablePred p] :
    ∀ {l : List α}, (∃ a ∈ l, p a) → ∃ pre a post, l = pre ++ a :: post ∧ p a ∧ ∀ b ∈ pre, ¬ p b
  | [], h => by simp at h
  | a :: l, h => by
    by_cases ha : p a
    · exact ⟨[], a, l, rfl, ha, by simp⟩
    · obtain ⟨b, hb, hpb⟩ := h
      have hbl : b ∈ l := (List.mem_cons.mp hb).resolve_left fun h => ha (h ▸ hpb)
      obtain ⟨pre, c, post, rfl, hc, hFirst⟩ := exists_first_satisfying p ⟨b, hbl, hpb⟩
      refine ⟨a :: pre, c, post, rfl, hc, fun d hd => ?_⟩
      rcases List.mem_cons.mp hd with rfl | hd
      · exact ha
      · exact hFirst d hd

/-- A list with an element satisfying `p` has a last such element. -/
theorem exists_last_satisfying (p : α → Prop) [DecidablePred p] :
    ∀ {l : List α}, (∃ a ∈ l, p a) → ∃ pre a post, l = pre ++ a :: post ∧ p a ∧ ∀ b ∈ post, ¬ p b
  | [], h => by simp at h
  | a :: l, h => by
    by_cases hl : ∃ b ∈ l, p b
    · obtain ⟨pre, b, post, rfl, hb, hLast⟩ := exists_last_satisfying p hl
      exact ⟨a :: pre, b, post, rfl, hb, hLast⟩
    · obtain ⟨b, hb, hpb⟩ := h
      push Not at hl
      rcases List.mem_cons.mp hb with rfl | hb
      · exact ⟨[], b, l, rfl, hpb, hl⟩
      · exact absurd hpb (hl b hb)

theorem map_eq_map_of_forall₂ {α β γ : Type} {f : α → γ} {g : β → γ} {xs : List α} {ys : List β}
    (h : List.Forall₂ (fun x y => g y = f x) xs ys) : ys.map g = xs.map f := by
  induction h with
  | nil => rfl
  | cons hxy _ ih => rw [List.map_cons, List.map_cons, hxy, ih]

/-- A list that is related to another by a function is its image. -/
theorem map_eq_of_forall₂ {α β : Type} {R : α → β → Prop} {f : α → β} {xs : List α} {ys : List β}
    (h : List.Forall₂ R xs ys) (hR : ∀ x y, R x y → f x = y) : xs.map f = ys := by
  induction h with
  | nil => rfl
  | cons hxy _ ih => rw [List.map_cons, hR _ _ hxy, ih]

/-- Every element of the right list of a `Forall₂` has a partner on the left. -/
theorem exists_left_of_forall₂ {α β : Type} {R : α → β → Prop} {xs : List α} {ys : List β}
    (h : List.Forall₂ R xs ys) {y : β} (hy : y ∈ ys) : ∃ x ∈ xs, R x y := by
  induction h with
  | nil => cases hy
  | cons hxy _ ih =>
    rcases List.mem_cons.mp hy with rfl | hTail
    · exact ⟨_, List.mem_cons_self, hxy⟩
    · obtain ⟨x, hx, hR⟩ := ih hTail
      exact ⟨x, List.mem_cons_of_mem _ hx, hR⟩

theorem exists_right_of_forall₂ {α β : Type} {R : α → β → Prop} {xs : List α} {ys : List β}
    (h : List.Forall₂ R xs ys) {x : α} (hx : x ∈ xs) : ∃ y ∈ ys, R x y :=
  exists_left_of_forall₂ h.flip hx

/-- Two related lists split at the same place. -/
theorem forall₂_append_cons {α β : Type} {R : α → β → Prop} {xs pre post : List _} {y : β}
    (h : List.Forall₂ R xs (pre ++ y :: post)) :
    ∃ (pre' : List α) (x : α) (post' : List α), xs = pre' ++ x :: post' ∧
      List.Forall₂ R pre' pre ∧ R x y ∧ List.Forall₂ R post' post := by
  induction pre generalizing xs with
  | nil =>
    obtain ⟨x, post', hxy, hPost, rfl⟩ := List.forall₂_cons_right_iff.mp h
    exact ⟨[], x, post', rfl, .nil, hxy, hPost⟩
  | cons b pre ih =>
    obtain ⟨a, rest, hab, hRest, rfl⟩ := List.forall₂_cons_right_iff.mp h
    obtain ⟨pre', x, post', rfl, hPre, hxy, hPost⟩ := ih hRest
    exact ⟨a :: pre', x, post', rfl, .cons hab hPre, hxy, hPost⟩

/-- A traversal in which every element succeeds is a map. -/
theorem mapM_eq_some_map {α β : Type} {f : α → Option β} {g : α → β} {xs : List α}
    (h : ∀ x ∈ xs, f x = some (g x)) : xs.mapM f = some (xs.map g) := by
  induction xs with
  | nil => rfl
  | cons x xs ih =>
    have hHead := h x List.mem_cons_self
    have hTail := ih fun y hy => h y (List.mem_cons_of_mem x hy)
    simp [List.mapM_cons, hHead, hTail]

/-- A successful traversal relates every element to its result. -/
theorem forall₂_of_mapM_eq_some {α β : Type} {f : α → Option β} {xs : List α} {ys : List β}
    (h : xs.mapM f = some ys) : List.Forall₂ (fun x y => f x = some y) xs ys := by
  induction xs generalizing ys with
  | nil =>
    obtain rfl : [] = ys := by simpa using h
    exact List.Forall₂.nil
  | cons x xs ih =>
    simp only [List.mapM_cons, Option.bind_eq_bind, Option.bind_eq_some_iff, Option.pure_def,
      Option.some.injEq] at h
    obtain ⟨y, hy, ys', hys', rfl⟩ := h
    exact List.Forall₂.cons hy (ih hys')

theorem length_of_mapM_eq_some {α β : Type} {f : α → Option β} {xs : List α} {ys : List β}
    (h : xs.mapM f = some ys) : ys.length = xs.length :=
  (forall₂_of_mapM_eq_some h).length_eq.symm

/-- Pairing the values of a function on a range with their positions. -/
theorem zipIdx_map_range {α : Type} (f : Nat → α) (n : Nat) :
    ((List.range n).map f).zipIdx = (List.range n).map fun j => (f j, j) := by
  apply List.ext_getElem
  · simp
  · intro j h₁ h₂
    simp

/-- Adding a list of elements to a set. -/
theorem mem_foldl_insert [DecidableEq α] {xs s : List α} {a : α} :
    a ∈ xs.foldl (fun s x => s.insert x) s ↔ a ∈ xs ∨ a ∈ s := by
  induction xs generalizing s with
  | nil => simp
  | cons x xs ih =>
    rw [List.foldl_cons, ih, List.mem_insert_iff, List.mem_cons]
    tauto

theorem nodup_foldl_insert [DecidableEq α] {xs s : List α} (h : s.Nodup) :
    (xs.foldl (fun s x => s.insert x) s).Nodup := by
  induction xs generalizing s with
  | nil => exact h
  | cons x xs ih => exact ih h.insert

/-- Counting past one element of a set finds another. -/
theorem one_lt_countP_iff [DecidableEq α] {l : List α} (hl : l.Nodup) {p : α → Bool} {x : α}
    (hx : x ∈ l) (hp : p x = true) : 1 < l.countP p ↔ ∃ y ∈ l, y ≠ x ∧ p y = true := by
  have hSplit : l.countP p = (l.erase x).countP p + 1 := by
    rw [(List.perm_cons_erase hx).countP_eq p, List.countP_cons_of_pos hp]
  have hPos : 1 < l.countP p ↔ 0 < (l.erase x).countP p := by omega
  rw [hPos, List.countP_pos_iff]
  constructor
  · rintro ⟨y, hy, hpy⟩
    obtain ⟨hne, hy⟩ := hl.mem_erase_iff.mp hy
    exact ⟨y, hy, hne, hpy⟩
  · rintro ⟨y, hy, hne, hpy⟩
    exact ⟨y, hl.mem_erase_iff.mpr ⟨hne, hy⟩, hpy⟩

/-- An element of a list without repetitions does not stand before itself. -/
theorem not_mem_of_nodup_split {l done rest : List α} {x : α} (h : l.Nodup)
    (hSplit : l = done ++ x :: rest) : x ∉ done := by
  rw [hSplit, List.nodup_append] at h
  exact fun hMem => h.2.2 x hMem x List.mem_cons_self rfl

section Separators

variable [DecidableEq α]

theorem length_splitOn (a : α) (l : List α) : (l.splitOn a).length = l.count a + 1 := by
  induction l with
  | nil => rfl
  | cons x l ih =>
    rw [List.splitOn_cons_eq_if_modifyHead, List.count_cons]
    split
    · simp [ih]
    · simp [ih]

/-- What is not empty between separators: what stands before the first one, and so on behind it. -/
theorem filter_splitOn (a : α) (l : List α) : (l.splitOn a).filter (· ≠ []) =
    (l.takeWhile (· ≠ a) :: (l.dropWhile (· ≠ a)).tail.splitOn a).filter (· ≠ []) := by
  have hFirst : a ∉ l.takeWhile (· ≠ a) := fun ha => by simpa using List.mem_takeWhile_imp ha
  have hHead := List.head_dropWhile_not (fun x => decide (x ≠ a)) (l := l)
  have hSplit : l.takeWhile (· ≠ a) ++ l.dropWhile (· ≠ a) = l := List.takeWhile_append_dropWhile
  generalize l.takeWhile (· ≠ a) = front at hFirst hSplit ⊢
  generalize l.dropWhile (· ≠ a) = rest at hHead hSplit ⊢
  cases rest with
  | nil =>
    rw [← hSplit, List.append_nil, List.splitOn_eq_singleton hFirst]
    simp [List.filter_cons]
  | cons x rest =>
    obtain rfl : x = a := not_not.mp (of_decide_eq_false (hHead (by simp)))
    rw [← hSplit, List.splitOn_append_cons_self, List.splitOn_eq_singleton hFirst]
    rfl

/-- Separators in front are followed by nothing. -/
theorem filter_splitOn_dropWhile (a : α) (l : List α) :
    ((l.dropWhile (· = a)).splitOn a).filter (· ≠ []) = (l.splitOn a).filter (· ≠ []) := by
  induction l with
  | nil => rfl
  | cons x l ih =>
    by_cases hx : x = a
    · rw [List.dropWhile_cons_of_pos (by simpa using hx), ih, hx, filter_splitOn a (a :: l)]
      simp
    · rw [List.dropWhile_cons_of_neg (by simpa using hx)]

end Separators

end Lib
