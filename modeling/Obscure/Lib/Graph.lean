import Mathlib.Logic.Relation
import Mathlib.Data.List.Perm.Basic
import Mathlib.Data.Set.Finite.List
import Mathlib.Order.WellFounded

/-!
# Directed graphs as relations

Reachability, acyclicity and the contraction of two vertices into one. A graph
is its edge relation; a contraction stays acyclic when the only paths between
the two vertices are edges, and the vertices of a finite acyclic graph can be
listed along its edges.
-/

namespace Lib

open Relation

variable {α : Type*} {r r' : α → α → Prop}

/-- No path leads back to where it started. -/
def Acyclic (r : α → α → Prop) : Prop := ∀ x, ¬ TransGen r x x

/-- A graph whose edges lead upwards is acyclic. -/
theorem acyclic_of_lt {f : α → Nat} (h : ∀ a b, r a b → f a < f b) : Acyclic r := by
  intro x hPath
  have hLt : ∀ {y}, TransGen r x y → f x < f y := by
    intro y hy
    induction hy with
    | single hEdge => exact h _ _ hEdge
    | tail _ hEdge ih => exact lt_trans ih (h _ _ hEdge)
  exact lt_irrefl _ (hLt hPath)

/-- A graph is acyclic when its vertices are listed with all edges leading forwards. -/
theorem acyclic_of_before [DecidableEq α] {l : List α} (hNodup : l.Nodup)
    (hMem : ∀ a b, r a b → b ∈ l)
    (hBefore : ∀ pre b post, l = pre ++ b :: post → ∀ a, r a b → a ∈ pre) : Acyclic r := by
  refine acyclic_of_lt (f := l.idxOf) fun a b hEdge => ?_
  obtain ⟨pre, post, hSplit⟩ := List.append_of_mem (hMem a b hEdge)
  have ha := hBefore pre b post hSplit a hEdge
  rw [hSplit] at hNodup ⊢
  have hbPre : b ∉ pre := fun hIn => (List.nodup_append.mp hNodup).2.2 b hIn b (by simp) rfl
  rw [List.idxOf_append_of_mem ha, List.idxOf_append_of_notMem hbPre, List.idxOf_cons_self]
  have := List.idxOf_lt_length_of_mem ha
  omega

/-- A set closed under successors holds whatever is reachable from it. -/
theorem mem_of_reflTransGen {S : α → Prop} (hClosed : ∀ a b, S a → r a b → S b) {x y : α}
    (hx : S x) (h : ReflTransGen r x y) : S y := by
  induction h with
  | refl => exact hx
  | tail _ hEdge ih => exact hClosed _ _ ih hEdge

/-- Apart from an edge, no path leads from `a` to `b`. -/
def NoDetour (r : α → α → Prop) (a b : α) : Prop :=
  ∀ x, r a x → x ≠ b → ¬ ReflTransGen r x b

/-- In an acyclic graph a vertex with one successor has no detour to it. -/
theorem noDetour_of_unique {a b : α} (h : ∀ x, r a x → x = b) : NoDetour r a b :=
  fun x hx hne => absurd (h x hx) hne

/-- In an acyclic graph no detour leads back along an edge. -/
theorem noDetour_of_edge (hAcyclic : Acyclic r) {a b : α} (h : r a b) : NoDetour r b a := by
  intro x hx _ hPath
  exact hAcyclic a ((TransGen.head h (TransGen.single hx)).trans_left hPath)

/-- `r'` is `r` with `a` and `b` contracted into the vertex `c`. -/
structure Contracts (r r' : α → α → Prop) (a b c : α) : Prop where
  edge_from : ∀ x, r' c x → x ≠ c ∧ x ≠ a ∧ x ≠ b ∧ (r a x ∨ r b x)
  edge_to : ∀ x, r' x c → r x a ∨ r x b
  edge_other : ∀ x y, r' x y → x ≠ c → y ≠ c → r x y

/-- A path that leaves `c` follows a path from one of the contracted vertices,
and never comes back. -/
theorem Contracts.path_from {a b c : α} (hCon : Contracts r r' a b c) (hAcyclic : Acyclic r)
    (hab : NoDetour r a b) (hba : NoDetour r b a) {y : α} (h : TransGen r' c y) :
    y ≠ c ∧ ∃ v x, (v = a ∨ v = b) ∧ r v x ∧ x ≠ a ∧ x ≠ b ∧ ReflTransGen r x y := by
  induction h with
  | @single y hEdge =>
    obtain ⟨hc, ha, hb, h | h⟩ := hCon.edge_from y hEdge
    · exact ⟨hc, a, y, Or.inl rfl, h, ha, hb, .refl⟩
    · exact ⟨hc, b, y, Or.inr rfl, h, ha, hb, .refl⟩
  | @tail y z _ hEdge ih =>
    obtain ⟨hy, v, x, hv, hvx, hxa, hxb, hPath⟩ := ih
    have hz : z ≠ c := by
      rintro rfl
      -- the edge back to `c` closes a cycle or a detour
      have hBack : ∀ w, w = a ∨ w = b → r y w → False := by
        intro w hw hyw
        have hCycle : v = w → False := by
          rintro rfl
          exact hAcyclic v ((TransGen.head' hvx hPath).tail hyw)
        rcases hv with rfl | rfl <;> rcases hw with rfl | rfl
        · exact hCycle rfl
        · exact hab x hvx hxb (hPath.tail hyw)
        · exact hba x hvx hxa (hPath.tail hyw)
        · exact hCycle rfl
      rcases hCon.edge_to y hEdge with h | h
      · exact hBack a (Or.inl rfl) h
      · exact hBack b (Or.inr rfl) h
    exact ⟨hz, v, x, hv, hvx, hxa, hxb, hPath.tail (hCon.edge_other y z hEdge hy hz)⟩

/-- A path avoids `c` or goes through it. -/
theorem Contracts.path_cases {a b c : α} (hCon : Contracts r r' a b c) {x y : α}
    (h : TransGen r' x y) :
    TransGen r x y ∨ ReflTransGen r' x c ∧ ReflTransGen r' c y := by
  induction h with
  | @single y hEdge =>
    by_cases hx : x = c
    · subst hx
      exact Or.inr ⟨.refl, .single hEdge⟩
    by_cases hy : y = c
    · subst hy
      exact Or.inr ⟨.single hEdge, .refl⟩
    · exact Or.inl (.single (hCon.edge_other x y hEdge hx hy))
  | @tail y z hPath hEdge ih =>
    rcases ih with h | ⟨hx, hy⟩
    · by_cases hz : z = c
      · subst hz
        exact Or.inr ⟨hPath.to_reflTransGen.tail hEdge, .refl⟩
      by_cases hy : y = c
      · subst hy
        exact Or.inr ⟨hPath.to_reflTransGen, .single hEdge⟩
      · exact Or.inl (h.tail (hCon.edge_other y z hEdge hy hz))
    · exact Or.inr ⟨hx, hy.tail hEdge⟩

/-- Contracting two vertices without a detour keeps a graph acyclic. -/
theorem Acyclic.contract {a b c : α} (hAcyclic : Acyclic r) (hCon : Contracts r r' a b c)
    (hab : NoDetour r a b) (hba : NoDetour r b a) : Acyclic r' := by
  have hThrough : ¬ TransGen r' c c := by
    intro h
    exact (hCon.path_from hAcyclic hab hba h).1 rfl
  intro x h
  rcases hCon.path_cases h with h' | ⟨hxc, hcx⟩
  · exact hAcyclic x h'
  · exact hThrough (TransGen.trans_left (TransGen.trans_right hcx h) hxc)

/-- The edges that a contraction has to keep. -/
structure KeepsEdges (r r' : α → α → Prop) (a b c : α) : Prop where
  edge_from : ∀ x, r a x ∨ r b x → x ≠ a → x ≠ b → r' c x
  edge_to : ∀ x, r x a ∨ r x b → x ≠ a → x ≠ b → r' x c
  edge_other : ∀ x y, r x y → x ≠ a → x ≠ b → y ≠ a → y ≠ b → r' x y

/-- A path to `b` that stays clear of `a` becomes one to the new vertex. -/
theorem KeepsEdges.path_to {a b c : α} (hKeeps : KeepsEdges r r' a b c) {x : α}
    (h : ReflTransGen r x b) (hxb : x ≠ b) (hxa : ¬ ReflTransGen r x a) : TransGen r' x c := by
  induction h using ReflTransGen.head_induction_on with
  | refl => exact absurd rfl hxb
  | @head x y hEdge _ ih =>
    have hxa' : x ≠ a := by
      rintro rfl
      exact hxa .refl
    by_cases hyb : y = b
    · subst hyb
      exact .single (hKeeps.edge_to x (Or.inr hEdge) hxa' hxb)
    have hya : ¬ ReflTransGen r y a := fun hPath => hxa (.head hEdge hPath)
    have hya' : y ≠ a := by
      rintro rfl
      exact hya .refl
    exact .head (hKeeps.edge_other x y hEdge hxa' hxb hya' hyb) (ih hyb hya)

/-- A contraction that is acyclic leaves no detour out. -/
theorem KeepsEdges.noDetour {a b c : α} (hKeeps : KeepsEdges r r' a b c) (hAcyclic : Acyclic r)
    (hAfter : Acyclic r') : NoDetour r a b := by
  intro x hEdge hxb hPath
  have hxa : ¬ ReflTransGen r x a := fun hBack => hAcyclic a (.head' hEdge hBack)
  have hxa' : x ≠ a := by
    rintro rfl
    exact hxa .refl
  exact hAfter c (.head (hKeeps.edge_from x (Or.inl hEdge) hxa' hxb) (hKeeps.path_to hPath hxb hxa))

theorem KeepsEdges.symm {a b c : α} (hKeeps : KeepsEdges r r' a b c) : KeepsEdges r r' b a c where
  edge_from := fun x hEdge hb ha => hKeeps.edge_from x hEdge.symm ha hb
  edge_to := fun x hEdge hb ha => hKeeps.edge_to x hEdge.symm ha hb
  edge_other := fun x y hEdge hxb hxa hyb hya => hKeeps.edge_other x y hEdge hxa hxb hya hyb

/-- **Contraction.** Contracting two vertices of an acyclic graph leaves it
acyclic exactly when there is no detour between them, in either direction. -/
theorem Acyclic.contract_iff {a b c : α} (hAcyclic : Acyclic r) (hCon : Contracts r r' a b c)
    (hKeeps : KeepsEdges r r' a b c) : Acyclic r' ↔ NoDetour r a b ∧ NoDetour r b a :=
  ⟨fun hAfter => ⟨hKeeps.noDetour hAcyclic hAfter, hKeeps.symm.noDetour hAcyclic hAfter⟩,
    fun h => hAcyclic.contract hCon h.1 h.2⟩

/-- A nonempty finite set of vertices of an acyclic graph has one without a
predecessor in the set. -/
theorem Acyclic.exists_source (hAcyclic : Acyclic r) {l : List α} (hl : l ≠ []) :
    ∃ x ∈ l, ∀ y ∈ l, ¬ r y x := by
  have : IsTrans {x // x ∈ l} fun a b => TransGen r a.1 b.1 := ⟨fun _ _ _ => TransGen.trans⟩
  have : Std.Irrefl fun a b : {x // x ∈ l} => TransGen r a.1 b.1 := ⟨fun a => hAcyclic a.1⟩
  have : Finite {x // x ∈ l} := List.finite_toSet l
  have hWf : WellFounded fun a b : {x // x ∈ l} => TransGen r a.1 b.1 :=
    Finite.wellFounded_of_trans_of_irrefl _
  obtain ⟨x, hx⟩ := List.exists_mem_of_ne_nil l hl
  obtain ⟨m, -, hMin⟩ := hWf.has_min Set.univ ⟨⟨x, hx⟩, trivial⟩
  exact ⟨m.1, m.2, fun y hy hEdge => hMin ⟨y, hy⟩ trivial (.single hEdge)⟩

/-- A finite set of vertices of an acyclic graph can be listed along the
edges. -/
theorem Acyclic.exists_order [DecidableEq α] (hAcyclic : Acyclic r) (l : List α) :
    ∃ order : List α, order.Perm l ∧
      ∀ pre x post, order = pre ++ x :: post → ∀ y ∈ l, r y x → y ∈ pre := by
  induction hLen : l.length generalizing l with
  | zero =>
    rw [List.length_eq_zero_iff] at hLen
    subst hLen
    exact ⟨[], List.Perm.refl _, fun pre x post h => by simp at h⟩
  | succ n ih =>
    have hne : l ≠ [] := by
      rintro rfl
      cases hLen
    obtain ⟨x, hx, hSource⟩ := hAcyclic.exists_source hne
    obtain ⟨order, hPerm, hAfter⟩ := ih (l.erase x) (by rw [List.length_erase_of_mem hx]; omega)
    refine ⟨x :: order, (hPerm.cons x).trans (List.perm_cons_erase hx).symm, ?_⟩
    intro pre z post hSplit y hy hEdge
    cases pre with
    | nil =>
      rw [List.nil_append, List.cons.injEq] at hSplit
      obtain ⟨rfl, -⟩ := hSplit
      exact absurd hEdge (hSource y hy)
    | cons w pre =>
      rw [List.cons_append, List.cons.injEq] at hSplit
      obtain ⟨rfl, hSplit⟩ := hSplit
      by_cases hyx : y = x
      · rw [hyx]
        exact List.mem_cons_self
      · exact List.mem_cons_of_mem _
          (hAfter pre z post hSplit y ((List.mem_erase_of_ne hyx).mpr hy) hEdge)

end Lib
