import Mathlib.GroupTheory.Perm.Basic
import Mathlib.Order.Bounds.Basic
import Mathlib.Data.Finset.Card
import Mathlib.Data.Fintype.Prod
import Mathlib.Algebra.Ring.Parity
import Mathlib.Algebra.Group.End

/-!
# Cycles of a permutation against a pairing

A pairing `χ` is an involution without fixed points. For a permutation `π` the
product `π χ π⁻¹ χ` walks alternately along `χ` and along the image of `χ` under
`π`, and a walk never meets the partner of the point it started from: the cycles
of the product come in pairs, which `χ` exchanges. On a finite set they
therefore have at most half its size, and a `χ` that keeps the order between
pairs sends the least point of a cycle to the least point of the partner cycle.

* `Pairing.turn_pow_ne`       — a walk does not meet the partner of its start;
* `Pairing.exists_period`     — the bound on the length of a cycle;
* `Pairing.isLeast_partner`   — the least point of the partner cycle.
-/

namespace Lib

/-- An involution without fixed points. -/
structure Pairing (α : Type*) where
  swap : Equiv.Perm α
  swap_swap : ∀ x, swap (swap x) = x
  swap_ne : ∀ x, swap x ≠ x

namespace Pairing

variable {α : Type*} (χ : Pairing α) (π : Equiv.Perm α)

/-- `π χ π⁻¹ χ`. -/
def turn : Equiv.Perm α := π * χ.swap * π⁻¹ * χ.swap

theorem turn_apply (x : α) : χ.turn π x = π (χ.swap (π⁻¹ (χ.swap x))) := rfl

/-- Conjugating with `χ` turns the walk around. -/
theorem turn_swap_turn (x : α) : χ.turn π (χ.swap (χ.turn π x)) = χ.swap x := by
  simp [turn_apply, χ.swap_swap]

theorem turn_pow_swap (k : Nat) (x : α) :
    (χ.turn π ^ k) (χ.swap ((χ.turn π ^ k) x)) = χ.swap x := by
  induction k generalizing x with
  | zero => rfl
  | succ k ih =>
    have hLast : (χ.turn π ^ (k + 1)) x = χ.turn π ((χ.turn π ^ k) x) := by
      rw [pow_succ', Equiv.Perm.mul_apply]
    rw [hLast, pow_succ, Equiv.Perm.mul_apply, turn_swap_turn, ih]

/-- A walk does not meet the partner of its start: half-way it would meet its
own partner, or a point whose image under `π⁻¹` is its own partner. -/
theorem turn_pow_ne (k : Nat) (x : α) : (χ.turn π ^ k) x ≠ χ.swap x := by
  intro h
  obtain ⟨i, hi | hi⟩ := Nat.even_or_odd' k
  · rw [← χ.turn_pow_swap π i x, hi, two_mul, pow_add, Equiv.Perm.mul_apply] at h
    exact χ.swap_ne _ ((χ.turn π ^ i).injective h).symm
  · rw [← χ.turn_pow_swap π i x, hi, two_mul, add_assoc, pow_add, Equiv.Perm.mul_apply,
      pow_succ', Equiv.Perm.mul_apply] at h
    have hMid := (χ.turn π ^ i).injective h
    rw [turn_apply] at hMid
    have hFixed := congrArg (π⁻¹ : Equiv.Perm α) hMid
    rw [Equiv.Perm.coe_inv, Equiv.symm_apply_apply] at hFixed
    exact χ.swap_ne _ hFixed

theorem turn_pow_apart (i j : Nat) (x : α) :
    (χ.turn π ^ i) x ≠ χ.swap ((χ.turn π ^ j) x) := by
  intro h
  have hMeet := congrArg (χ.turn π ^ j) h
  rw [turn_pow_swap, ← Equiv.Perm.mul_apply, ← pow_add] at hMeet
  exact χ.turn_pow_ne π _ x hMeet

/-- The points of a walk. -/
def orbit (x : α) : Set α := Set.range fun k : Nat => (χ.turn π ^ k) x

/-- The first `N` points of a walk. -/
def walk (N : Nat) (x : α) : Set α := (fun k : Nat => (χ.turn π ^ k) x) '' Set.Iio N

theorem walk_two (x : α) : χ.walk π 2 x = {x, χ.turn π x} := by
  have hTwo : Set.Iio 2 = ({0, 1} : Set Nat) := by
    ext k
    simp only [Set.mem_Iio, Set.mem_insert_iff, Set.mem_singleton_iff]
    omega
  simp [walk, hTwo, Set.image_insert_eq]

/-- A walk of double length goes on from where its first half ends. -/
theorem walk_double (N : Nat) (x : α) :
    χ.walk π (2 * N) x = χ.walk π N x ∪ χ.walk π N ((χ.turn π ^ N) x) := by
  ext y
  constructor
  · rintro ⟨k, hk, rfl⟩
    rw [Set.mem_Iio] at hk
    by_cases hHalf : k < N
    · exact Or.inl ⟨k, hHalf, rfl⟩
    · refine Or.inr ⟨k - N, Set.mem_Iio.mpr (by omega), ?_⟩
      show (χ.turn π ^ (k - N)) ((χ.turn π ^ N) x) = (χ.turn π ^ k) x
      rw [← Equiv.Perm.mul_apply, ← pow_add, Nat.sub_add_cancel (by omega)]
  · rintro (⟨k, hk, rfl⟩ | ⟨k, hk, rfl⟩)
    · exact ⟨k, Set.mem_Iio.mpr (by have := Set.mem_Iio.mp hk; omega), rfl⟩
    · refine ⟨k + N, Set.mem_Iio.mpr (by have := Set.mem_Iio.mp hk; omega), ?_⟩
      simp only [pow_add, Equiv.Perm.mul_apply]

/-- A walk that is back after at most `N` steps has met all its points. -/
theorem orbit_eq_walk {N L : Nat} {x : α} (hL : 0 < L) (hLe : L ≤ N)
    (h : (χ.turn π ^ L) x = x) : χ.orbit π x = χ.walk π N x := by
  ext y
  constructor
  · rintro ⟨k, rfl⟩
    have hMod : k % L < L := Nat.mod_lt k hL
    refine ⟨k % L, Set.mem_Iio.mpr (by omega), ?_⟩
    have hFixed : (χ.turn π ^ (L * (k / L))) x = x := by
      rw [pow_mul, ← Equiv.Perm.iterate_eq_pow]
      exact Function.iterate_fixed h _
    show (χ.turn π ^ (k % L)) x = (χ.turn π ^ k) x
    conv_rhs => rw [← Nat.mod_add_div k L, pow_add, Equiv.Perm.mul_apply, hFixed]
  · rintro ⟨k, -, rfl⟩
    exact ⟨k, rfl⟩

section Finite

variable {π} {s : Finset α}

theorem turn_pow_mem (hχ : ∀ x ∈ s, χ.swap x ∈ s) (hπ : ∀ x ∈ s, π x ∈ s)
    (hπ' : ∀ x ∈ s, π⁻¹ x ∈ s) {x : α} (hx : x ∈ s) (k : Nat) : (χ.turn π ^ k) x ∈ s := by
  induction k with
  | zero => exact hx
  | succ k ih =>
    rw [pow_succ', Equiv.Perm.mul_apply, turn_apply]
    exact hπ _ (hχ _ (hπ' _ (hχ _ ih)))

/-- A cycle and its partner are apart, so a walk is back after at most half of
the points. -/
theorem exists_period (hχ : ∀ x ∈ s, χ.swap x ∈ s) (hπ : ∀ x ∈ s, π x ∈ s)
    (hπ' : ∀ x ∈ s, π⁻¹ x ∈ s) {N : Nat} (hN : s.card ≤ 2 * N) {x : α} (hx : x ∈ s) :
    ∃ L, 0 < L ∧ L ≤ N ∧ (χ.turn π ^ L) x = x := by
  classical
  -- the first `N + 1` points of the walk and their partners
  set walk : Bool × Nat → α := fun p =>
    if p.1 then χ.swap ((χ.turn π ^ p.2) x) else (χ.turn π ^ p.2) x with hWalk
  have hMaps : ∀ p ∈ (Finset.univ ×ˢ Finset.range (N + 1) : Finset (Bool × Nat)), walk p ∈ s := by
    rintro ⟨b, k⟩ -
    have hk := χ.turn_pow_mem hχ hπ hπ' hx k
    cases b
    · simpa [hWalk] using hk
    · simpa [hWalk] using hχ _ hk
  have hCard : s.card < (Finset.univ ×ˢ Finset.range (N + 1) : Finset (Bool × Nat)).card := by
    rw [Finset.card_product, Finset.card_univ, Fintype.card_bool, Finset.card_range]
    omega
  have hBack : ∀ i j, i < j → j < N + 1 → (χ.turn π ^ i) x = (χ.turn π ^ j) x →
      ∃ L, 0 < L ∧ L ≤ N ∧ (χ.turn π ^ L) x = x := by
    intro i j hij hj h
    refine ⟨j - i, by omega, by omega, ?_⟩
    have hSplit : (χ.turn π ^ i) x = (χ.turn π ^ i) ((χ.turn π ^ (j - i)) x) := by
      rw [← Equiv.Perm.mul_apply, ← pow_add, Nat.add_sub_cancel' hij.le, h]
    exact ((χ.turn π ^ i).injective hSplit).symm
  have hClash : ∀ i j, i < N + 1 → j < N + 1 → i ≠ j → (χ.turn π ^ i) x = (χ.turn π ^ j) x →
      ∃ L, 0 < L ∧ L ≤ N ∧ (χ.turn π ^ L) x = x := by
    intro i j hi hj hne h
    rcases Nat.lt_or_gt_of_ne hne with hij | hij
    · exact hBack i j hij hj h
    · exact hBack j i hij hi h.symm
  obtain ⟨⟨b, i⟩, hi, ⟨b', j⟩, hj, hne, hEq⟩ :=
    Finset.exists_ne_map_eq_of_card_lt_of_maps_to hCard hMaps
  simp only [Finset.mem_product, Finset.mem_range] at hi hj
  cases b <;> cases b' <;> simp only [hWalk, Bool.false_eq_true, if_true, if_false] at hEq
  · exact hClash i j hi.2 hj.2 (fun h => hne (by rw [h])) hEq
  · exact absurd hEq (χ.turn_pow_apart π i j x)
  · exact absurd hEq.symm (χ.turn_pow_apart π j i x)
  · exact hClash i j hi.2 hj.2 (fun h => hne (by rw [h])) (χ.swap.injective hEq)

variable (hBack : ∀ x ∈ s, ∃ L, 0 < L ∧ (χ.turn π ^ L) x = x)

include hBack in
/-- The points before `x` on a walk are met again after it. -/
theorem mem_orbit_of_pow (k : Nat) {x y : α} (hy : y ∈ s) (h : (χ.turn π ^ k) y = x) :
    y ∈ χ.orbit π x := by
  obtain ⟨L, hL, hPeriod⟩ := hBack y hy
  refine ⟨L * k - k, ?_⟩
  have hMul : (χ.turn π ^ (L * k)) y = y := by
    rw [pow_mul, ← Equiv.Perm.iterate_eq_pow]
    exact Function.iterate_fixed hPeriod k
  have hLe : k ≤ L * k := Nat.le_mul_of_pos_left k hL
  show (χ.turn π ^ (L * k - k)) x = y
  rw [← h, ← Equiv.Perm.mul_apply, ← pow_add, Nat.sub_add_cancel hLe, hMul]

include hBack in
theorem orbit_turn {x : α} (hx : x ∈ s) : χ.orbit π (χ.turn π x) = χ.orbit π x := by
  ext y
  constructor
  · rintro ⟨k, rfl⟩
    exact ⟨k + 1, by simp only [pow_succ, Equiv.Perm.mul_apply]⟩
  · rintro ⟨k, rfl⟩
    obtain ⟨L, hL, hPeriod⟩ := hBack x hx
    refine ⟨k + (L - 1), ?_⟩
    show (χ.turn π ^ (k + (L - 1))) (χ.turn π x) = (χ.turn π ^ k) x
    rw [← Equiv.Perm.mul_apply, ← pow_succ, add_assoc, Nat.sub_add_cancel hL, pow_add,
      Equiv.Perm.mul_apply, hPeriod]

section Order

variable [LinearOrder α] (hOrder : ∀ a b, a ≤ b → b ≠ χ.swap a → χ.swap a ≤ χ.swap b)

include hBack hOrder in
/-- The partner of the least point of a cycle is the least point of the partner
cycle. -/
theorem isLeast_partner (hχ : ∀ x ∈ s, χ.swap x ∈ s)
    (hTurn : ∀ x ∈ s, ∀ k : Nat, (χ.turn π ^ k) x ∈ s) {x a : α} (hx : x ∈ s)
    (h : IsLeast (χ.orbit π x) a) : IsLeast (χ.orbit π (χ.swap x)) (χ.swap a) := by
  -- the partner of a point of a walk is on the walk from the partner
  have hPartner : ∀ x ∈ s, ∀ y ∈ χ.orbit π x, χ.swap y ∈ χ.orbit π (χ.swap x) := by
    rintro x hx y ⟨k, rfl⟩
    exact χ.mem_orbit_of_pow hBack k (hχ _ (hTurn x hx k)) (χ.turn_pow_swap π k x)
  refine ⟨hPartner x hx a h.1, fun b hb => ?_⟩
  have hb' := hPartner (χ.swap x) (hχ x hx) b hb
  rw [χ.swap_swap] at hb'
  have hne : χ.swap b ≠ χ.swap a := by
    obtain ⟨k, rfl⟩ := h.1
    obtain ⟨i, hi⟩ := hb'
    rw [← hi]
    exact χ.turn_pow_apart π i k x
  have := hOrder a (χ.swap b) (h.2 hb') hne
  rwa [χ.swap_swap] at this

end Order

end Finite

end Pairing

end Lib
