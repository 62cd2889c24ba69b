import Obscure.Routing.Column
import Obscure.Lib.CycleMin

/-!
# OBSCURE — control bits of a Benes network

`BenesPerm` computes the control bits of the two outer columns from the minima
of the cycles of `π χ π⁻¹ χ`, where `χ` exchanges `2 j` and `2 j + 1`; what is
left to do between these columns keeps even and odd indices apart, and two
networks of half the size, interleaved, do it.

* `cycleMins_spec`   — the doubling loop computes the minima of the cycles;
* `outer_parity`     — between the outer columns parity is kept;
* `benesCols_spec`   — the columns together are the permutation.
-/

namespace Obscure.Routing

open Lib

/-- The loop that doubles the steps over which minima are taken. -/
def cycleMinLoop (n : Nat) : Nat → List Nat → List Nat → List Nat → List Nat
  | 0, c, _, _ => c
  | k + 1, c, p, q =>
    let cp := composeinv c q
    cycleMinLoop n k ((List.range n).map fun x => min (c.getD x 0) (cp.getD x 0))
      (composeinv p q) (composeinv q p)

/-- The list `c` of `BenesPerm._compile`, for `n = 2 ** m`. -/
def cycleMins (n m : Nat) (pi : List Nat) : List Nat :=
  let p := (List.range n).map fun x => pi.getD (x ^^^ 1) 0
  let q := (List.range n).map fun x => pi.getD x 0 ^^^ 1
  let p₁ := composeinv p q
  let q₁ := composeinv q p
  let c := (List.range n).map fun x => min x (p₁.getD x 0)
  cycleMinLoop n (m - 2) c (composeinv p₁ q₁) (composeinv q₁ p₁)

/-- The outer columns `f` and `l` with the lists `subM`. -/
structure Outer where
  f : List Nat
  l : List Nat
  sub0 : List Nat
  sub1 : List Nat

def outerColumns (n m : Nat) (pi : List Nat) : Outer :=
  let piinv := composeinv (List.range n) pi
  let c := cycleMins n m pi
  let f := (List.range (n / 2)).map fun j => c.getD (2 * j) 0 % 2
  let F := (List.range n).map fun x => x ^^^ f.getD (x / 2) 0
  let Fpi := composeinv F piinv
  let l := (List.range (n / 2)).map fun k => Fpi.getD (2 * k) 0 % 2
  let L := (List.range n).map fun y => y ^^^ l.getD (y / 2) 0
  let M := composeinv Fpi L
  { f := f
    l := l
    sub0 := (List.range (n / 2)).map fun j => M.getD (2 * j + 0) 0 / 2
    sub1 := (List.range (n / 2)).map fun j => M.getD (2 * j + 1) 0 / 2 }

/-- `cur[0::2] = s0; cur[1::2] = s1`. -/
def interleave (s0 s1 : List Nat) : List Nat :=
  (s0.zip s1).flatMap fun ab => [ab.1, ab.2]

/-- The columns of `BenesPerm`, for `2 ** m` indices. A single index has no
partner, and `pi[0 ^ 1]` raises. -/
def benesCols : Nat → List Nat → Except Fault (List (List Nat))
  | 0, _ => .error .indexError
  | 1, pi => .ok [[pi.getD 0 0]]
  | m + 2, pi => do
    let outer := outerColumns (2 ^ (m + 2)) (m + 2) pi
    let z0 ← benesCols (m + 1) outer.sub0
    let z1 ← benesCols (m + 1) outer.sub1
    let z := (z0.zip z1).map fun ss => interleave ss.1 ss.2
    return [outer.f] ++ z ++ [outer.l]

/-- `BenesPerm(pi).cols`. -/
def benesPerm (pi : List Nat) : Except Fault (List (List Nat)) := do
  let m ← log2exact pi.length
  benesCols m pi

/-! ## The minima of the cycles -/

theorem xor_one_xor_one (x : Nat) : x ^^^ 1 ^^^ 1 = x := by
  rw [Nat.xor_assoc, Nat.xor_self, Nat.xor_zero]

/-- Flipping the last digit keeps the order between pairs. -/
theorem xor_one_le_xor_one {a b : Nat} (h : a ≤ b) (hne : b ≠ a ^^^ 1) : a ^^^ 1 ≤ b ^^^ 1 := by
  have ha := xor_one a
  have hb := xor_one b
  split at ha <;> split at hb <;> omega

/-- `x ^ 1`. -/
def xorOne : Pairing Nat where
  swap := Function.Involutive.toPerm (fun x => x ^^^ 1) xor_one_xor_one
  swap_swap := xor_one_xor_one
  swap_ne := fun x => by
    show x ^^^ 1 ≠ x
    rw [xor_one]
    split <;> omega

@[simp] theorem xorOne_swap (x : Nat) : xorOne.swap x = x ^^^ 1 := rfl

theorem xorOne_swap_inv : xorOne.swap⁻¹ = xorOne.swap := rfl

/-- The inverse is composed on the right. -/
theorem composeinv_tab {n : Nat} {p : Equiv.Perm Nat} (hp : Below n p) (c : Nat → Nat) :
    composeinv (tab n c) (tab n p) = tab n (c ∘ ⇑p⁻¹) :=
  sort_zip_tab hp c

section Minima

variable {n : Nat} {π : Equiv.Perm Nat}

/-- Neighbours are swapped within an even number of positions. -/
theorem xorOne_below (hn : n % 2 = 0) : Below n xorOne.swap := by
  intro x
  rw [xorOne_swap, xor_one]
  split <;> omega

/-- So are the steps along a cycle. -/
theorem turn_below (hn : n % 2 = 0) (hπ : Below n π) : Below n (xorOne.turn π) :=
  ((hπ.mul (xorOne_below hn)).mul hπ.inv).mul (xorOne_below hn)

/-- The rounds of the loop double the length of the walks over which minima are
taken. -/
theorem cycleMinLoop_spec (hn : n % 2 = 0) (hπ : Below n π) (r k : Nat) {c : Nat → Nat}
    (hc : ∀ x < n, IsLeast (xorOne.walk π (2 ^ k) x) (c x)) :
    ∃ c' : Nat → Nat,
      cycleMinLoop n r (tab n c) (tab n ⇑(xorOne.turn π ^ 2 ^ k))
        (tab n ⇑(xorOne.turn π ^ 2 ^ k)⁻¹) = tab n c' ∧
      ∀ x < n, IsLeast (xorOne.walk π (2 ^ (k + r)) x) (c' x) := by
  induction r generalizing k c with
  | zero => exact ⟨c, rfl, hc⟩
  | succ r ih =>
    have hT := (turn_below hn hπ).pow (2 ^ k)
    have hDouble : xorOne.turn π ^ 2 ^ k * xorOne.turn π ^ 2 ^ k = xorOne.turn π ^ 2 ^ (k + 1) := by
      rw [← pow_add, pow_succ, mul_two]
    obtain ⟨c', hEq, hLeast⟩ := ih (k + 1) (c := fun x => min (c x) (c ((xorOne.turn π ^ 2 ^ k) x)))
      fun x hx => by
        have hHere := hc x hx
        have hThere := hc _ ((hT x).mpr hx)
        rw [pow_succ', Pairing.walk_double]
        exact hHere.union hThere
    refine ⟨c', ?_, fun x hx => ?_⟩
    · rw [cycleMinLoop, composeinv_tab hT.inv, composeinv_tab hT.inv, composeinv_tab hT]
      rw [inv_inv, ← Equiv.Perm.coe_mul, hDouble, ← Equiv.Perm.coe_mul, ← mul_inv_rev, hDouble]
      rw [← hEq]
      congr 1
      refine tab_congr fun x hx => ?_
      rw [getD_tab hx, getD_tab hx]
      rfl
    · rw [show k + (r + 1) = k + 1 + r by omega]
      exact hLeast x hx

/-- Before the loop the minima are over two steps. -/
theorem cycleMins_eq (hn : n % 2 = 0) (hπ : Below n π) (m : Nat) :
    cycleMins n m (tab n π) = cycleMinLoop n (m - 2) (tab n fun x => min x (xorOne.turn π x))
      (tab n ⇑(xorOne.turn π ^ 2 ^ 1)) (tab n ⇑(xorOne.turn π ^ 2 ^ 1)⁻¹) := by
  have hχ := xorOne_below hn
  have hT := turn_below hn hπ
  have hp : ((List.range n).map fun x => (tab n π).getD (x ^^^ 1) 0) = tab n ⇑(π * xorOne.swap) :=
    tab_congr fun x hx => getD_tab ((hχ x).mpr hx)
  have hq : ((List.range n).map fun x => (tab n π).getD x 0 ^^^ 1) = tab n ⇑(xorOne.swap * π) :=
    tab_congr fun x hx => by rw [getD_tab hx]; rfl
  have hTurn : π * xorOne.swap * (xorOne.swap * π)⁻¹ = xorOne.turn π := by
    rw [mul_inv_rev, xorOne_swap_inv, Pairing.turn, ← mul_assoc]
  have hTurn' : xorOne.swap * π * (π * xorOne.swap)⁻¹ = (xorOne.turn π)⁻¹ := by
    rw [← hTurn, mul_inv_rev _ (xorOne.swap * π)⁻¹, inv_inv]
  have hTwo : xorOne.turn π * xorOne.turn π = xorOne.turn π ^ 2 ^ 1 := by
    rw [pow_one, pow_two]
  unfold cycleMins
  simp only [hp, hq]
  rw [composeinv_tab (hχ.mul hπ), composeinv_tab (hπ.mul hχ), ← Equiv.Perm.coe_mul, hTurn,
    ← Equiv.Perm.coe_mul, hTurn', composeinv_tab hT.inv, composeinv_tab hT, inv_inv,
    ← Equiv.Perm.coe_mul, ← Equiv.Perm.coe_mul, ← mul_inv_rev, hTwo]
  congr 1
  exact tab_congr fun x hx => by rw [getD_tab hx]

/-- The entries of `c` are the least indices of the cycles. -/
structure IsCycleMin (n : Nat) (π : Equiv.Perm Nat) (c : Nat → Nat) : Prop where
  turn : ∀ x < n, c (xorOne.turn π x) = c x
  swap : ∀ x < n, c (x ^^^ 1) = c x ^^^ 1

/-- The loop computes the least position of each cycle. -/
theorem cycleMins_spec {m : Nat} (hπ : Below (2 ^ (m + 2)) π) :
    ∃ c : Nat → Nat, cycleMins (2 ^ (m + 2)) (m + 2) (tab (2 ^ (m + 2)) π) =
      tab (2 ^ (m + 2)) c ∧ IsCycleMin (2 ^ (m + 2)) π c := by
  have hn : 2 ^ (m + 2) % 2 = 0 := by
    rw [pow_succ]
    omega
  have hχ := xorOne_below hn
  have hT := turn_below hn hπ
  -- cycles have at most half of the indices
  have hPeriod : ∀ x ∈ Finset.range (2 ^ (m + 2)), ∃ L, 0 < L ∧ L ≤ 2 ^ (m + 1) ∧
      (xorOne.turn π ^ L) x = x := by
    intro x hx
    refine xorOne.exists_period (s := Finset.range (2 ^ (m + 2))) ?_ ?_ ?_ ?_ hx
    · exact fun x hx => Finset.mem_range.mpr ((hχ x).mpr (Finset.mem_range.mp hx))
    · exact fun x hx => Finset.mem_range.mpr ((hπ x).mpr (Finset.mem_range.mp hx))
    · exact fun x hx => Finset.mem_range.mpr ((hπ.inv x).mpr (Finset.mem_range.mp hx))
    · rw [Finset.card_range, pow_succ']
  have hBack : ∀ x ∈ Finset.range (2 ^ (m + 2)), ∃ L, 0 < L ∧ (xorOne.turn π ^ L) x = x :=
    fun x hx => by
      obtain ⟨L, hL, -, h⟩ := hPeriod x hx
      exact ⟨L, hL, h⟩
  obtain ⟨c, hEq, hWalk⟩ := cycleMinLoop_spec hn hπ m 1
    (c := fun x => min x (xorOne.turn π x)) fun x _ => by
      rw [pow_one, Pairing.walk_two]
      exact isLeast_pair
  have hLeast : ∀ x < 2 ^ (m + 2), IsLeast (xorOne.orbit π x) (c x) := by
    intro x hx
    obtain ⟨L, hL, hLe, h⟩ := hPeriod x (Finset.mem_range.mpr hx)
    rw [xorOne.orbit_eq_walk π hL hLe h, show m + 1 = 1 + m by omega]
    exact hWalk x hx
  refine ⟨c, by rw [cycleMins_eq hn hπ]; exact hEq, fun x hx => ?_, fun x hx => ?_⟩
  · have hNext := hLeast _ ((hT x).mpr hx)
    rw [xorOne.orbit_turn hBack (Finset.mem_range.mpr hx)] at hNext
    exact hNext.unique (hLeast x hx)
  · refine (hLeast _ ((hχ x).mpr hx)).unique ?_
    refine xorOne.isLeast_partner hBack ?_ ?_ ?_ (Finset.mem_range.mpr hx) (hLeast x hx)
    · exact fun a b hab hne => xor_one_le_xor_one hab hne
    · exact fun x hx => Finset.mem_range.mpr ((hχ x).mpr (Finset.mem_range.mp hx))
    · exact fun x hx k => Finset.mem_range.mpr ((hT.pow k x).mpr (Finset.mem_range.mp hx))

end Minima

/-! ## The outer columns -/

/-- Both outer columns flip the last digit. -/
theorem colMap_zero {f : Nat → Nat} (hf : ∀ j, f j < 2) (x : Nat) :
    colMap 0 f x = x ^^^ f (x / 2) := by
  have hPair : pairIndex 0 x = x / 2 := by simp [pairIndex, Nat.mod_one]
  rw [colMap, hPair, pow_zero]
  have := hf (x / 2)
  split
  · rw [show f (x / 2) = 1 by omega]
  · rw [show f (x / 2) = 0 by omega, Nat.xor_zero]

section Outer

variable {n : Nat} {π : Equiv.Perm Nat} {c : Nat → Nat}

/-- The bits of the first column. -/
def firstBits (c : Nat → Nat) (j : Nat) : Nat := c (2 * j) % 2

/-- The bits of the last column. -/
def lastBits (π : Equiv.Perm Nat) (c : Nat → Nat) (k : Nat) : Nat :=
  colMap 0 (firstBits c) (π (2 * k)) % 2

/-- What is left to do between the outer columns. -/
def inner (π : Equiv.Perm Nat) (c : Nat → Nat) : Equiv.Perm Nat :=
  colPerm 0 (firstBits c) * π * colPerm 0 (lastBits π c)

/-- The bits of the first column are bits. -/
theorem firstBits_lt (c : Nat → Nat) (j : Nat) : firstBits c j < 2 := Nat.mod_lt _ (by decide)

theorem lastBits_lt (π : Equiv.Perm Nat) (c : Nat → Nat) (k : Nat) : lastBits π c k < 2 :=
  Nat.mod_lt _ (by decide)

/-- The first column gives every index the parity of its cycle. -/
theorem colMap_firstBits_mod (h : IsCycleMin n π c) {x : Nat} (hx : x < n) :
    colMap 0 (firstBits c) x % 2 = c x % 2 := by
  rw [colMap_zero (firstBits_lt c), Nat.xor_mod_two_eq, firstBits]
  rcases Nat.mod_two_eq_zero_or_one x with hEven | hOdd
  · rw [show 2 * (x / 2) = x by omega]
    omega
  · have hSwap := h.swap x hx
    have hLow : x ^^^ 1 = 2 * (x / 2) := by
      rw [xor_one, if_neg (by omega)]
      omega
    rw [hLow] at hSwap
    have := Nat.xor_mod_two_eq (m := c x) (n := 1)
    omega

/-- The images of the two indices of a pair lie in partner cycles. -/
theorem parity_pair (hn : n % 2 = 0) (hπ : Below n π) (h : IsCycleMin n π c) {x : Nat}
    (hx : x < n) :
    colMap 0 (firstBits c) (π (x ^^^ 1)) % 2 ≠ colMap 0 (firstBits c) (π x) % 2 := by
  have hχ := xorOne_below hn
  have hPartner : π (x ^^^ 1) < n := (hπ _).mpr ((hχ x).mpr hx)
  have hLt : π x ^^^ 1 < n := (hχ _).mpr ((hπ x).mpr hx)
  have hTurn : xorOne.turn π (π x ^^^ 1) = π (x ^^^ 1) := by
    show π ((π⁻¹ (π x ^^^ 1 ^^^ 1)) ^^^ 1) = _
    rw [xor_one_xor_one, Equiv.Perm.coe_inv, Equiv.symm_apply_apply]
  have hMin := h.turn _ hLt
  rw [hTurn, h.swap _ ((hπ x).mpr hx)] at hMin
  rw [colMap_firstBits_mod h hPartner, colMap_firstBits_mod h ((hπ x).mpr hx), hMin,
    Nat.xor_mod_two_eq]
  omega

/-- Between the outer columns parity is kept. -/
theorem outer_parity (hn : n % 2 = 0) (hπ : Below n π) (h : IsCycleMin n π c) {y : Nat}
    (hy : y < n) : inner π c y % 2 = y % 2 := by
  show colMap 0 (firstBits c) (π (colMap 0 (lastBits π c) y)) % 2 = y % 2
  have hBit : lastBits π c (y / 2) = colMap 0 (firstBits c) (π (2 * (y / 2))) % 2 := rfl
  have hPair := parity_pair hn hπ h (show 2 * (y / 2) < n by omega)
  have hUpper : 2 * (y / 2) ^^^ 1 = 2 * (y / 2) + 1 := by
    rw [xor_one, if_pos (by omega)]
  have hStep : colMap 0 (lastBits π c) y = y ^^^ lastBits π c (y / 2) :=
    colMap_zero (lastBits_lt π c) y
  have hLast := lastBits_lt π c (y / 2)
  rw [hUpper] at hPair
  rw [hStep]
  -- the bit of the last column brings the index of the right parity first
  obtain hBit0 | hBit1 : lastBits π c (y / 2) = 0 ∨ lastBits π c (y / 2) = 1 := by omega
  · rw [hBit0, Nat.xor_zero]
    obtain hy2 | hy2 : y = 2 * (y / 2) ∨ y = 2 * (y / 2) + 1 := by omega
    · rw [← hy2] at hBit
      omega
    · rw [← hy2] at hPair
      omega
  · have hFlip := xor_one y
    rw [hBit1]
    split at hFlip
    · rw [hFlip, show y + 1 = 2 * (y / 2) + 1 by omega]
      omega
    · rw [hFlip, show y - 1 = 2 * (y / 2) by omega]
      omega

/-- What is left between the two columns permutes the positions. -/
theorem inner_below (hn : Below n π) (hFirst : Below n (colPerm 0 (firstBits c)))
    (hLast : Below n (colPerm 0 (lastBits π c))) : Below n (inner π c) :=
  (hFirst.mul hn).mul hLast

/-- The outer columns and the two lists of half the length. -/
theorem outerColumns_spec {m : Nat} (hπ : Below (2 ^ (m + 1)) π)
    (hc : cycleMins (2 ^ (m + 1)) (m + 1) (tab (2 ^ (m + 1)) π) = tab (2 ^ (m + 1)) c) :
    outerColumns (2 ^ (m + 1)) (m + 1) (tab (2 ^ (m + 1)) π) =
      { f := tab (2 ^ m) (firstBits c)
        l := tab (2 ^ m) (lastBits π c)
        sub0 := tab (2 ^ m) fun j => inner π c (2 * j) / 2
        sub1 := tab (2 ^ m) fun j => inner π c (2 * j + 1) / 2 } := by
  have hHalf : 2 ^ (m + 1) / 2 = 2 ^ m := by
    rw [pow_succ]
    omega
  have hDouble : 2 ^ (m + 1) = 2 * 2 ^ m := pow_succ' 2 m
  have hFirst : Below (2 ^ (m + 1)) (colPerm 0 (firstBits c)) := colPerm_below _ (by omega)
  have hLast : Below (2 ^ (m + 1)) (colPerm 0 (lastBits π c)) := colPerm_below _ (by omega)
  -- each intermediate table of the computation is the table of a permutation
  have hInv : composeinv (List.range (2 ^ (m + 1))) (tab (2 ^ (m + 1)) π) =
      tab (2 ^ (m + 1)) ⇑π⁻¹ := by
    have hId : List.range (2 ^ (m + 1)) = tab (2 ^ (m + 1)) id := by simp [tab]
    rw [hId, composeinv_tab hπ]
    rfl
  have hf : ((List.range (2 ^ m)).map fun j => (tab (2 ^ (m + 1)) c).getD (2 * j) 0 % 2) =
      tab (2 ^ m) (firstBits c) :=
    tab_congr fun j hj => by rw [getD_tab (by omega)]; rfl
  have hF : ((List.range (2 ^ (m + 1))).map fun x =>
      x ^^^ (tab (2 ^ m) (firstBits c)).getD (x / 2) 0) =
      tab (2 ^ (m + 1)) ⇑(colPerm 0 (firstBits c)) :=
    tab_congr fun x hx => by
      rw [getD_tab (by omega), colPerm_apply, colMap_zero (firstBits_lt c)]
  have hFpi : composeinv (tab (2 ^ (m + 1)) ⇑(colPerm 0 (firstBits c))) (tab (2 ^ (m + 1)) ⇑π⁻¹) =
      tab (2 ^ (m + 1)) ⇑(colPerm 0 (firstBits c) * π) := by
    rw [composeinv_tab hπ.inv, inv_inv]
    rfl
  have hl : ((List.range (2 ^ m)).map fun k =>
      (tab (2 ^ (m + 1)) ⇑(colPerm 0 (firstBits c) * π)).getD (2 * k) 0 % 2) =
      tab (2 ^ m) (lastBits π c) :=
    tab_congr fun k hk => by rw [getD_tab (by omega)]; rfl
  have hL : ((List.range (2 ^ (m + 1))).map fun y =>
      y ^^^ (tab (2 ^ m) (lastBits π c)).getD (y / 2) 0) =
      tab (2 ^ (m + 1)) ⇑(colPerm 0 (lastBits π c)) :=
    tab_congr fun y hy => by
      rw [getD_tab (by omega), colPerm_apply, colMap_zero (lastBits_lt π c)]
  have hM : composeinv (tab (2 ^ (m + 1)) ⇑(colPerm 0 (firstBits c) * π))
      (tab (2 ^ (m + 1)) ⇑(colPerm 0 (lastBits π c))) = tab (2 ^ (m + 1)) ⇑(inner π c) := by
    rw [composeinv_tab hLast, colPerm_inv]
    rfl
  unfold outerColumns
  simp only [hc, hInv, hHalf, hf, hF, hFpi, hl, hL, hM]
  congr 1
  · exact tab_congr fun j hj => by rw [getD_tab (by omega)]; rfl
  · exact tab_congr fun j hj => by rw [getD_tab (by omega)]

end Outer

/-! ## Networks -/

/-- The digit each column works on: `0, 1, …, m - 1, …, 1, 0`. -/
def ibits (m : Nat) : List Nat := (List.range (2 * m - 1)).map fun i => min i (2 * m - 2 - i)

/-- The columns one after the other. -/
def netWire (net : List (Nat × (Nat → Nat))) (x : Nat) : Nat :=
  net.foldr (fun bc => colMap bc.1 bc.2) x

/-- The digits of a network are those of the smaller one moved up, between two lowest digits. -/
theorem ibits_succ (m : Nat) : ibits (m + 2) = 0 :: (ibits (m + 1)).map (· + 1) ++ [0] := by
  rw [ibits, show 2 * (m + 2) - 1 = 2 * (m + 1) - 1 + 1 + 1 by omega, List.range_succ_eq_map,
    List.range_succ]
  simp only [ibits, List.map_cons, List.map_append, List.map_nil, List.map_map, List.cons_append]
  congr 2
  · refine List.map_congr_left fun i hi => ?_
    have := List.mem_range.mp hi
    simp only [Function.comp_apply]
    omega
  · simp only [List.cons.injEq, and_true]
    omega

theorem length_ibits (m : Nat) : (ibits m).length = 2 * m - 1 := by simp [ibits]

/-- Two half-size columns side by side. -/
def weave (s0 s1 : Nat → Nat) (t : Nat) : Nat := if t % 2 = 0 then s0 (t / 2) else s1 (t / 2)

/-- Even pairs are of the first half. -/
theorem weave_even (s0 s1 : Nat → Nat) (t : Nat) : weave s0 s1 (2 * t) = s0 t := by
  rw [weave, if_pos (by omega), Nat.mul_div_cancel_left t (by decide)]

theorem weave_odd (s0 s1 : Nat → Nat) (t : Nat) : weave s0 s1 (2 * t + 1) = s1 t := by
  rw [weave, if_neg (by omega), show (2 * t + 1) / 2 = t by omega]

/-- Columns of bits, woven, are columns of bits. -/
theorem weave_bits {k : Nat} {cs0 cs1 : List (Nat → Nat)} (h0 : ∀ c ∈ cs0, ∀ j < k, c j < 2)
    (h1 : ∀ c ∈ cs1, ∀ j < k, c j < 2) :
    ∀ c ∈ List.zipWith weave cs0 cs1, ∀ j < 2 * k, c j < 2 := by
  rw [← List.map_uncurry_zip_eq_zipWith]
  intro c hc j hj
  obtain ⟨⟨s0, s1⟩, hMem, rfl⟩ := List.mem_map.mp hc
  obtain ⟨hMem0, hMem1⟩ := List.of_mem_zip hMem
  show weave s0 s1 j < 2
  unfold weave
  split
  · exact h0 s0 hMem0 _ (by omega)
  · exact h1 s1 hMem1 _ (by omega)

/-- Interleaving two columns weaves them. -/
theorem interleave_tab (k : Nat) (s0 s1 : Nat → Nat) :
    interleave (tab k s0) (tab k s1) = tab (2 * k) (weave s0 s1) := by
  induction k with
  | zero => rfl
  | succ k ih =>
    have hTwo : tab (2 * (k + 1)) (weave s0 s1) =
        tab (2 * k) (weave s0 s1) ++ [s0 k, s1 k] := by
      rw [mul_add, tab_add]
      simp [tab, List.range_succ, weave_even, weave_odd]
    rw [tab_succ, tab_succ, interleave, List.zip_append (by simp), List.flatMap_append, hTwo, ← ih]
    rfl

/-- The same for all columns of two networks. -/
theorem interleave_zip (k : Nat) (cs0 cs1 : List (Nat → Nat)) :
    ((cs0.map (tab k)).zip (cs1.map (tab k))).map (fun ss => interleave ss.1 ss.2) =
      (List.zipWith weave cs0 cs1).map (tab (2 * k)) := by
  induction cs0 generalizing cs1 with
  | nil => rfl
  | cons s0 cs0 ih =>
    cases cs1 with
    | nil => rfl
    | cons s1 cs1 =>
      simp only [List.map_cons, List.zip_cons_cons, List.zipWith_cons_cons, interleave_tab, ih]

section Weave

variable {b : Nat} {s0 s1 : Nat → Nat}

/-- Doubling moves the pairs of a column up. -/
theorem pairIndex_double (b y e : Nat) (he : e < 2) :
    pairIndex (b + 1) (2 * y + e) = 2 * pairIndex b y + e := by
  have hMod : (2 * y + e) % 2 ^ (b + 1) = 2 * (y % 2 ^ b) + e := by
    rw [pow_succ', Nat.mod_mul, Nat.mul_add_mod, Nat.mod_eq_of_lt he, Nat.mul_add_div (by decide),
      Nat.div_eq_of_lt he, add_zero, add_comm]
  have hDiv : (2 * y + e) / 2 ^ (b + 1 + 1) = y / 2 ^ (b + 1) := by
    rw [pow_succ' 2 (b + 1), ← Nat.div_div_eq_div_mul, Nat.mul_add_div (by decide),
      Nat.div_eq_of_lt he, add_zero]
  rw [pairIndex, hMod, hDiv, pairIndex, pow_succ' 2 b]
  ring

/-- It moves the digit that is flipped up. -/
theorem flip_double (b y e : Nat) (he : e < 2) :
    (2 * y + e) ^^^ 2 ^ (b + 1) = 2 * (y ^^^ 2 ^ b) + e := by
  have hDiv : ((2 * y + e) ^^^ 2 ^ (b + 1)) / 2 = y ^^^ 2 ^ b := by
    have := Nat.xor_div_two_pow (a := 2 * y + e) (b := 2 ^ (b + 1)) (n := 1)
    rw [pow_one, pow_succ, Nat.mul_div_cancel _ (by decide), Nat.mul_add_div (by decide),
      Nat.div_eq_of_lt he, add_zero] at this
    rwa [pow_succ]
  have hMod : ((2 * y + e) ^^^ 2 ^ (b + 1)) % 2 = e := by
    rw [Nat.xor_mod_two_eq, pow_succ]
    omega
  omega

/-- A woven column works on the even indices as `s0` and on the odd ones as
`s1`. -/
theorem colMap_weave_even (y : Nat) :
    colMap (b + 1) (weave s0 s1) (2 * y) = 2 * colMap b s0 y := by
  have hPair := pairIndex_double b y 0 (by decide)
  have hFlip := flip_double b y 0 (by decide)
  simp only [add_zero] at hPair hFlip
  rw [colMap, hPair, hFlip, weave_even, colMap]
  split <;> rfl

/-- At odd positions a woven column is the second one. -/
theorem colMap_weave_odd (y : Nat) :
    colMap (b + 1) (weave s0 s1) (2 * y + 1) = 2 * colMap b s1 y + 1 := by
  rw [colMap, pairIndex_double b y 1 (by decide), flip_double b y 1 (by decide), weave_odd, colMap]
  split <;> rfl

end Weave

/-- Two networks that are woven work on the even and the odd positions: induction on the columns.
-/
theorem netWire_weave (bs : List Nat) (cs0 cs1 : List (Nat → Nat)) (h0 : cs0.length = bs.length)
    (h1 : cs1.length = bs.length) (y : Nat) :
    netWire ((bs.map (· + 1)).zip (List.zipWith weave cs0 cs1)) (2 * y) =
        2 * netWire (bs.zip cs0) y ∧
      netWire ((bs.map (· + 1)).zip (List.zipWith weave cs0 cs1)) (2 * y + 1) =
        2 * netWire (bs.zip cs1) y + 1 := by
  induction bs generalizing cs0 cs1 with
  | nil => exact ⟨rfl, rfl⟩
  | cons b bs ih =>
    match cs0, cs1, h0, h1 with
    | s0 :: cs0, s1 :: cs1, h0, h1 =>
      obtain ⟨hEven, hOdd⟩ := ih cs0 cs1 (by simpa using h0) (by simpa using h1)
      constructor
      · exact (congrArg (colMap (b + 1) (weave s0 s1)) hEven).trans (colMap_weave_even _)
      · exact (congrArg (colMap (b + 1) (weave s0 s1)) hOdd).trans (colMap_weave_odd _)

/-- The two lists of half the length are permutations, and together they do what
is left between the outer columns. -/
theorem exists_halves {m : Nat} {π : Equiv.Perm Nat} {c : Nat → Nat} (hπ : Below (2 ^ (m + 1)) π)
    (h : IsCycleMin (2 ^ (m + 1)) π c) :
    ∃ p0 p1 : Equiv.Perm Nat, Below (2 ^ m) p0 ∧ Below (2 ^ m) p1 ∧
      ∀ j < 2 ^ m, inner π c (2 * j) = 2 * p0 j ∧ inner π c (2 * j + 1) = 2 * p1 j + 1 := by
  have hDouble : 2 ^ (m + 1) = 2 * 2 ^ m := pow_succ' 2 m
  have hn : 2 ^ (m + 1) % 2 = 0 := by omega
  have hInner : Below (2 ^ (m + 1)) (inner π c) :=
    inner_below hπ (colPerm_below _ (by omega)) (colPerm_below _ (by omega))
  have hParity : ∀ y < 2 ^ (m + 1), inner π c y % 2 = y % 2 := fun y hy => outer_parity hn hπ h hy
  -- for each parity, halving the indices gives an injective map
  have hHalf : ∀ e < 2, ∃ p : Equiv.Perm Nat, Below (2 ^ m) p ∧
      ∀ j < 2 ^ m, inner π c (2 * j + e) = 2 * p j + e := by
    intro e he
    have hMod : ∀ j < 2 ^ m, inner π c (2 * j + e) % 2 = e := fun j hj => by
      have := hParity (2 * j + e) (by omega)
      omega
    obtain ⟨p, hp, hEq⟩ := exists_below_of_inj (n := 2 ^ m)
      (g := fun j => inner π c (2 * j + e) / 2)
      (fun j hj => by
        have := (hInner (2 * j + e)).mpr (by omega)
        omega)
      (fun i hi j hj hij => by
        have hi' := hMod i hi
        have hj' := hMod j hj
        have hSame : inner π c (2 * i + e) = inner π c (2 * j + e) := by omega
        have := (inner π c).injective hSame
        omega)
    refine ⟨p, hp, fun j hj => ?_⟩
    have := hMod j hj
    rw [hEq j hj]
    omega
  obtain ⟨p0, hp0, hEven⟩ := hHalf 0 (by decide)
  obtain ⟨p1, hp1, hOdd⟩ := hHalf 1 (by decide)
  exact ⟨p0, p1, hp0, hp1, fun j hj => ⟨hEven j hj, hOdd j hj⟩⟩

/-- The columns of `BenesPerm`, one after the other, are the permutation. -/
theorem benesCols_spec (m : Nat) {π : Equiv.Perm Nat} (hπ : Below (2 ^ (m + 1)) π) :
    ∃ cs : List (Nat → Nat),
      benesCols (m + 1) (tab (2 ^ (m + 1)) π) = .ok (cs.map (tab (2 ^ m))) ∧
      cs.length = 2 * m + 1 ∧ (∀ c ∈ cs, ∀ j < 2 ^ m, c j < 2) ∧
      ∀ x < 2 ^ (m + 1), netWire ((ibits (m + 1)).zip cs) x = π x := by
  induction m generalizing π with
  | zero =>
    -- one switch: straight or crossed
    refine ⟨[fun _ => π 0], rfl, rfl, fun c hc j _ => ?_, fun x hx => ?_⟩
    · rw [List.mem_singleton.mp hc]
      exact (hπ 0).mpr (by decide)
    show colMap 0 (fun _ => π 0) x = π x
    have h0 := (hπ 0).mpr (by decide)
    have h1 := (hπ 1).mpr (by decide)
    have hne : π 0 ≠ π 1 := π.injective.ne (by decide)
    obtain rfl | rfl : x = 0 ∨ x = 1 := by omega
    · rw [colMap, show 0 ^^^ 2 ^ 0 = 1 from rfl]
      split <;> omega
    · rw [colMap, show 1 ^^^ 2 ^ 0 = 0 from rfl]
      split <;> omega
  | succ m ih =>
    obtain ⟨c, hc, hMin⟩ := cycleMins_spec hπ
    obtain ⟨p0, p1, hp0, hp1, hInner⟩ := exists_halves hπ hMin
    obtain ⟨cs0, hCols0, hLen0, hBits0, hNet0⟩ := ih hp0
    obtain ⟨cs1, hCols1, hLen1, hBits1, hNet1⟩ := ih hp1
    -- the outer columns put each wire into its half, and the halves are routed alone
    refine ⟨firstBits c :: List.zipWith weave cs0 cs1 ++ [lastBits π c], ?_, ?_, ?_, fun x hx => ?_⟩
    · have hSub0 : (tab (2 ^ (m + 1)) fun j => inner π c (2 * j) / 2) = tab (2 ^ (m + 1)) p0 :=
        tab_congr fun j hj => by
          rw [(hInner j hj).1]
          omega
      have hSub1 : (tab (2 ^ (m + 1)) fun j => inner π c (2 * j + 1) / 2) = tab (2 ^ (m + 1)) p1 :=
        tab_congr fun j hj => by
          rw [(hInner j hj).2]
          omega
      rw [benesCols, outerColumns_spec hπ hc]
      simp only [hSub0, hSub1, hCols0, hCols1]
      show Except.ok _ = Except.ok _
      rw [interleave_zip, ← pow_succ']
      simp only [List.map_append, List.map_cons, List.map_nil, List.cons_append, List.nil_append]
    · simp [hLen0, hLen1]
      omega
    · intro d hd j hj
      rcases List.mem_append.mp hd with hd | hd
      · rcases List.mem_cons.mp hd with rfl | hd
        · exact firstBits_lt c j
        · exact weave_bits hBits0 hBits1 d hd j (pow_succ' 2 m ▸ hj)
      · rw [List.mem_singleton.mp hd]
        exact lastBits_lt π c j
    -- the woven columns act on the even wires as the first half and on the odd ones as the second
    · have hWeave := netWire_weave (ibits (m + 1)) cs0 cs1 (by rw [hLen0, length_ibits]; omega)
        (by rw [hLen1, length_ibits]; omega)
      have hMid : ∀ y < 2 ^ (m + 2), netWire (((ibits (m + 1)).map (· + 1)).zip
          (List.zipWith weave cs0 cs1)) y = inner π c y := by
        intro y hy
        rw [pow_succ'] at hy
        obtain hEven | hOdd : y = 2 * (y / 2) ∨ y = 2 * (y / 2) + 1 := by omega
        · rw [hEven, (hWeave _).1, hNet0 _ (by omega), (hInner _ (by omega)).1]
        · rw [hOdd, (hWeave _).2, hNet1 _ (by omega), (hInner _ (by omega)).2]
      have hZip : (ibits (m + 2)).zip
        (firstBits c :: List.zipWith weave cs0 cs1 ++ [lastBits π c]) =
          (0, firstBits c) :: ((ibits (m + 1)).map (· + 1)).zip (List.zipWith weave cs0 cs1) ++
            [(0, lastBits π c)] := by
        rw [ibits_succ, List.cons_append, List.cons_append, List.zip_cons_cons,
          List.zip_append (by simp [length_ibits, hLen0, hLen1]; omega)]
        rfl
      rw [hZip, netWire, List.foldr_append]
      show colMap 0 (firstBits c) (netWire _ (colMap 0 (lastBits π c) x)) = π x
      rw [hMid _ (colMap_lt _ (by omega) hx)]
      -- each outer column undoes itself
      show colMap 0 (firstBits c) (colMap 0 (firstBits c)
        (π (colMap 0 (lastBits π c) (colMap 0 (lastBits π c) x)))) = π x
      rw [colMap_colMap 0 (firstBits c), colMap_colMap 0 (lastBits π c)]

end Obscure.Routing
