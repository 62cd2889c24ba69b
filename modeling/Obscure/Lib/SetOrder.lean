import Mathlib.Data.List.Perm.Basic
import Mathlib.Data.List.Nodup
import Mathlib.Data.Nat.Pairing

/-!
# Sets with an unspecified iteration order

A hash set fixes which elements it holds but not the order in which it hands
them out: two iterations, or two `pop` calls, over the same set may disagree.
A set is modelled as a duplicate-free list, and everything that depends on the
order goes through a `SetOrder`, which may answer differently at every moment
`t` and for every set. A statement quantified over all `SetOrder`s therefore
covers every order any run can observe.

* `SetOrder.enum` — one iteration over the set;
* `SetOrder.pop`  — one `pop`, the element returned and the set that remains;
* `SetOrder.fork` — the orders seen by one part of a computation.
-/

namespace Lib

/-- The order in which a set hands out its elements, at every moment. -/
structure SetOrder (α : Type*) where
  enum : Nat → List α → List α
  perm : ∀ t s, (enum t s).Perm s

/-- The order that lists elements as they are stored. -/
def SetOrder.stored (α : Type*) : SetOrder α where
  enum := fun _ s => s
  perm := fun _ s => List.Perm.refl s

variable {α : Type*}

/-- The orders one part of a computation observes: the moments of part `k` are
kept apart from those of every other part. -/
def SetOrder.fork (ord : SetOrder α) (k : Nat) : SetOrder α where
  enum := fun t s => ord.enum (Nat.pair k t) s
  perm := fun t s => ord.perm (Nat.pair k t) s

theorem SetOrder.mem_enum (ord : SetOrder α) {t : Nat} {s : List α} {x : α} :
    x ∈ ord.enum t s ↔ x ∈ s :=
  (ord.perm t s).mem_iff

/-- `pop`: the element returned with the set that remains, or nothing when the
set is empty. -/
def SetOrder.pop (ord : SetOrder α) (t : Nat) (s : List α) : Option (α × List α) :=
  match ord.enum t s with
  | [] => none
  | x :: rest => some (x, rest)

/-- `pop` splits the set into the element and the rest. -/
theorem SetOrder.pop_perm {ord : SetOrder α} {t : Nat} {s rest : List α} {x : α}
    (h : ord.pop t s = some (x, rest)) : (x :: rest).Perm s := by
  unfold SetOrder.pop at h
  split at h
  · exact absurd h (by simp)
  · next y ys hEnum =>
      simp only [Option.some.injEq, Prod.mk.injEq] at h
      obtain ⟨rfl, rfl⟩ := h
      exact hEnum ▸ ord.perm t s

/-- `pop` succeeds exactly on a nonempty set. -/
theorem SetOrder.pop_eq_none {ord : SetOrder α} {t : Nat} {s : List α} :
    ord.pop t s = none ↔ s = [] := by
  unfold SetOrder.pop
  split
  · next hEnum =>
      have hPerm : s.Perm [] := hEnum ▸ (ord.perm t s).symm
      simpa using hPerm.eq_nil
  · next y ys hEnum =>
      have hMem : y ∈ s := ord.mem_enum.mp (hEnum ▸ List.mem_cons_self)
      simpa using List.ne_nil_of_mem hMem

end Lib
