import Mathlib.Data.List.GetD

/-!
# Random choices

A generator answers every request for an element of a list; what it answers may
depend on the moment and on the list. A moment is a path: part `k` of a
computation sees the moments that start with `k`. A generator is fair when,
asked again and again for an element of one list, it sooner or later leaves any
set that does not cover the list.
-/

namespace Lib

/-- The answers of `random.choice` on nonempty lists. -/
structure Random where
  choice : List Nat → List Nat → Nat
  mem : ∀ path l, l ≠ [] → choice path l ∈ l

/-- The generator seen by part `k` of a computation. -/
def Random.fork (rnd : Random) (k : Nat) : Random where
  choice := fun path => rnd.choice (k :: path)
  mem := fun path => rnd.mem (k :: path)

/-- The answer to the `t`-th request. -/
def Random.draw (rnd : Random) (t : Nat) (l : List Nat) : Nat := rnd.choice [t] l

/-- Requests do not stay in a set that misses an element of the list. -/
def Random.Fair (rnd : Random) : Prop :=
  ∀ path l (s : List Nat), (∃ x ∈ l, x ∉ s) → ∃ t, rnd.choice (path ++ [t]) l ∉ s

theorem Random.Fair.fork {rnd : Random} (h : rnd.Fair) (k : Nat) : (rnd.fork k).Fair := by
  intro path l s hx
  exact h (k :: path) l s hx

/-- A generator that goes through the list again and again. -/
def Random.cycle : Random where
  choice := fun path l => l.getD (path.getLastD 0 % l.length) 0
  mem := by
    intro path l hl
    have hLt := Nat.mod_lt (path.getLastD 0) (List.length_pos_iff.mpr hl)
    rw [List.getD_eq_getElem _ _ hLt]
    exact List.getElem_mem hLt

theorem Random.cycle_fair : Random.cycle.Fair := by
  rintro path l s ⟨x, hx, hNot⟩
  obtain ⟨i, hi, rfl⟩ := List.getElem_of_mem hx
  refine ⟨i, ?_⟩
  show l.getD ((path ++ [i]).getLastD 0 % l.length) 0 ∉ s
  rw [List.getLastD_concat, Nat.mod_eq_of_lt hi, List.getD_eq_getElem _ _ hi]
  exact hNot

end Lib
