import Mathlib.Data.List.Nodup

/-!
# Loops over an array in place

A loop whose rounds change an array, which is read through a function of the
index. When the rounds have footprints, sets of indices that no two rounds share and outside which
a round reads only what no round writes, the rounds do not see each other, and the
array after the loop is known index by index.

* `Footprints.foldl_footprint` — what a round leaves in its footprint;
* `Footprints.foldl_outside`   — the rest is as it was;
* `foldl_undo`                 — a loop backwards undoes a loop whose rounds it undoes.
-/

namespace Lib

variable {ι κ α σ : Type*}

/-- The rounds of a loop with their footprints; `get` reads the array. -/
structure Footprints (get : σ → κ → α) (f : σ → ι → σ) (foot : ι → κ → Prop) (l : List ι) :
    Prop where
  disjoint : ∀ i ∈ l, ∀ j ∈ l, ∀ k, foot i k → foot j k → i = j
  frame : ∀ s, ∀ i ∈ l, ∀ k, ¬ foot i k → get (f s i) k = get s k
  reads : ∀ s s', ∀ i ∈ l, (∀ k, foot i k ∨ (∀ j ∈ l, ¬ foot j k) → get s k = get s' k) →
    ∀ k, foot i k → get (f s i) k = get (f s' i) k

section Footprints

variable {get : σ → κ → α} {f : σ → ι → σ} {foot : ι → κ → Prop} {l : List ι}

/-- An index that no round writes. -/
theorem foldl_frame {k : κ} (h : ∀ i ∈ l, ∀ s, get (f s i) k = get s k) (s : σ) :
    get (l.foldl f s) k = get s k := by
  induction l generalizing s with
  | nil => rfl
  | cons i l ih =>
    obtain ⟨hi, hl⟩ := List.forall_mem_cons.mp h
    rw [List.foldl_cons, ih hl, hi]

theorem Footprints.foldl_outside (h : Footprints get f foot l) {k : κ} (hk : ∀ i ∈ l, ¬ foot i k)
    (s : σ) : get (l.foldl f s) k = get s k :=
  foldl_frame (fun i hi s => h.frame s i hi k (hk i hi)) s

/-- A round finds its footprint as it was before the loop, and keeps it after. -/
theorem Footprints.foldl_footprint (h : Footprints get f foot l) (hNodup : l.Nodup) {i : ι}
    (hi : i ∈ l) {k : κ} (hk : foot i k) (s : σ) : get (l.foldl f s) k = get (f s i) k := by
  obtain ⟨pre, post, rfl⟩ := List.append_of_mem hi
  obtain ⟨-, hPost, hDisj⟩ := List.nodup_append'.mp hNodup
  obtain ⟨hiPost, -⟩ := List.nodup_cons.mp hPost
  -- no other round writes where this one reads or writes
  have hPre : ∀ k', foot i k' ∨ (∀ j ∈ pre ++ i :: post, ¬ foot j k') →
      get (pre.foldl f s) k' = get s k' := by
    refine fun k' hk' => foldl_frame (fun j hj s => ?_) s
    have hjAll : j ∈ pre ++ i :: post := List.mem_append_left _ hj
    refine h.frame s j hjAll k' fun hjk => ?_
    rcases hk' with hk' | hk'
    · exact hDisj hj (h.disjoint j hjAll i hi k' hjk hk' ▸ List.mem_cons_self)
    · exact hk' j hjAll hjk
  have hAfter : ∀ t, get (post.foldl f t) k = get t k := by
    refine fun t => foldl_frame (fun j hj t => ?_) t
    have hjAll : j ∈ pre ++ i :: post := List.mem_append_right _ (List.mem_cons_of_mem _ hj)
    exact h.frame t j hjAll k fun hjk => hiPost (h.disjoint j hjAll i hi k hjk hk ▸ hj)
  rw [List.foldl_append, List.foldl_cons, hAfter]
  exact h.reads _ _ i hi hPre k hk

end Footprints

/-- A loop backwards, each round of which undoes a round. -/
theorem foldl_undo {f g : σ → ι → σ} (h : ∀ s i, g (f s i) i = s) (l : List ι) (s : σ) :
    l.reverse.foldl g (l.foldl f s) = s := by
  induction l generalizing s with
  | nil => rfl
  | cons i l ih =>
    rw [List.foldl_cons, List.reverse_cons, List.foldl_append, ih]
    exact h s i

end Lib
