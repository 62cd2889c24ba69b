import Obscure.Routing.Apply

/-!
# OBSCURE — forward duplication of low depth

`ForwardDupLowDepth` has one column for each power of two below the size, and each
column copies over that distance where the list says so. The columns are applied in
place and upwards, so the first one, of distance 1, is the scan of `ForwardDup`
already; when equal entries of the list are neighbours, the others have nothing left
to do.

* `applyLowDepthCol_one`      — the first column fills the runs;
* `applyLowDepthCol_settled`  — a column that finds equal values keeps them;
* `forwardDup_agree`          — the three networks copy the head of each block over it.
-/

namespace Obscure.Routing

open Lib

variable {α β : Type} [DecidableEq β]

/-- Column `h` of `ForwardDupLowDepth._compile`. -/
def lowDepthCol (f : List β) (m h : Nat) : List Bool :=
  (List.range (2 ^ m - 2 ^ h)).map fun i => f[i + 2 ^ h]? = f[i]?

/-- `ForwardDupLowDepth(f).cols`. -/
def lowDepthCols (f : List β) (m : Nat) : List (List Bool) := (List.range m).map (lowDepthCol f m)

/-- `f[i+step] = f[i] if col[i] else f[i+step]`. -/
def copyForward (step : Nat) (col : List Bool) (f : List α) (i : Nat) : Except Fault (List α) :=
  match col[i]?, f[i]?, f[i + step]? with
  | some flag, some a, some b => .ok (f.set (i + step) (if flag then a else b))
  | _, _, _ => .error .indexError

/-- One column of `ForwardDupLowDepth._apply`. -/
def applyLowDepthCol (m h : Nat) (col : List Bool) (f : List α) : Except Fault (List α) :=
  (List.range (2 ^ m - 2 ^ h)).foldlM (copyForward (2 ^ h) col) f

/-- `ForwardDupLowDepth(f).apply(x)`. -/
def forwardDupLowDepthApply (f : List β) (x : List α) : Except Fault (List α) := do
  let m ← log2exact f.length
  if x.length = f.length then
    (lowDepthCols f m).zipIdx.foldlM (fun x ch => applyLowDepthCol m ch.2 ch.1 x) x
  else .error .assertionError

-- ---------------------------------------------------------------------------
-- Blocks
-- ---------------------------------------------------------------------------

/-- Equal values are neighbours. -/
def Contiguous (n : Nat) (P : Nat → β) : Prop :=
  ∀ i j k, i ≤ j → j ≤ k → k < n → P i = P k → P j = P i

theorem runHead_value (P : Nat → β) (i : Nat) : P (runHead P i) = P i := by
  induction i with
  | zero => rfl
  | succ i ih =>
    rw [runHead]
    split
    · next hSame => rw [ih, hSame]
    · rfl

section Contiguous

variable {n : Nat} {P : Nat → β}

/-- Equal values are in one run. -/
theorem Contiguous.runHead_eq (hP : Contiguous n P) {i d : Nat} (hd : i + d < n)
    (h : P i = P (i + d)) : runHead P (i + d) = runHead P i := by
  induction d with
  | zero => rfl
  | succ d ih =>
    have hBefore : P (i + d) = P i := hP i (i + d) (i + (d + 1)) (by omega) (by omega) hd h
    rw [← add_assoc, runHead, if_pos (by rw [hBefore, h, add_assoc])]
    exact ih (by omega) hBefore.symm

/-- The head of the run is the first index of the block. -/
theorem Contiguous.runHead_least (hP : Contiguous n P) {i : Nat} (hi : i < n) :
    IsLeast {j | j < n ∧ P j = P i} (runHead P i) := by
  refine ⟨⟨lt_of_le_of_lt (runHead_le P i) hi, runHead_value P i⟩, ?_⟩
  rintro j ⟨hj, hEq⟩
  rcases Nat.le_total j i with hji | hij
  · obtain ⟨d, rfl⟩ := Nat.exists_eq_add_of_le hji
    rw [hP.runHead_eq hi hEq]
    exact runHead_le P j
  · exact (runHead_le P i).trans hij

end Contiguous

-- ---------------------------------------------------------------------------
-- The columns
-- ---------------------------------------------------------------------------

section Columns

variable {m h : Nat} {P : Nat → β} {Y : Nat → α}

theorem lowDepthCol_tab :
    lowDepthCol (tab (2 ^ m) P) m h =
      tab (2 ^ m - 2 ^ h) fun i => decide (P (i + 2 ^ h) = P i) := by
  refine List.map_congr_left fun i hi => ?_
  have hlt := List.mem_range.mp hi
  have hpos := Nat.two_pow_pos h
  simp only [getElem?_tab (show i + 2 ^ h < 2 ^ m by omega), getElem?_tab (show i < 2 ^ m by omega),
    Option.some.injEq]

/-- One step of a column. -/
theorem copyForward_tab {i : Nat} (hi : i < 2 ^ m - 2 ^ h) :
    copyForward (2 ^ h) (lowDepthCol (tab (2 ^ m) P) m h) (tab (2 ^ m) Y) i =
      .ok (tab (2 ^ m) fun x => if x = i + 2 ^ h ∧ P (i + 2 ^ h) = P i then Y i else Y x) := by
  have hpos := Nat.two_pow_pos h
  rw [copyForward, lowDepthCol_tab, getElem?_tab hi, getElem?_tab (by omega),
    getElem?_tab (by omega)]
  refine congrArg Except.ok (List.ext_getElem (by simp) fun x h₁ h₂ => ?_)
  rw [List.getElem_set, getElem_tab, getElem_tab]
  by_cases hx : i + 2 ^ h = x
  · subst hx
    by_cases hP : P (i + 2 ^ h) = P i <;> simp [hP]
  · rw [if_neg hx, if_neg fun hAnd => hx hAnd.1.symm]

/-- The column of distance 1 fills the runs. -/
theorem applyLowDepthCol_one :
    applyLowDepthCol m 0 (lowDepthCol (tab (2 ^ m) P) m 0) (tab (2 ^ m) Y) =
      .ok (tab (2 ^ m) (Y ∘ runHead P)) := by
  have hUpTo : ∀ k ≤ 2 ^ m - 2 ^ 0,
      (List.range k).foldlM (copyForward (2 ^ 0) (lowDepthCol (tab (2 ^ m) P) m 0))
        (tab (2 ^ m) Y) =
        .ok (tab (2 ^ m) fun x => if x ≤ k then Y (runHead P x) else Y x) := by
    intro k hk
    induction k with
    | zero =>
      refine congrArg Except.ok (tab_congr fun x _ => ?_)
      split
      · next hx => rw [Nat.le_zero.mp hx, runHead]
      · rfl
    | succ k ih =>
      rw [List.range_succ, List.foldlM_append, ih (by omega), ok_bind, List.foldlM_cons,
        copyForward_tab (by omega), ok_bind, List.foldlM_nil]
      refine congrArg Except.ok (tab_congr fun x hx => ?_)
      rw [pow_zero, if_pos le_rfl]
      by_cases hEq : x = k + 1
      · subst hEq
        rw [if_pos le_rfl, runHead]
        by_cases hP : P (k + 1) = P k <;> simp [hP]
      · rw [if_neg fun hAnd => hEq hAnd.1]
        by_cases hLe : x ≤ k
        · rw [if_pos hLe, if_pos (by omega)]
        · rw [if_neg hLe, if_neg (by omega)]
  have hn := Nat.two_pow_pos m
  rw [applyLowDepthCol, hUpTo _ le_rfl]
  exact congrArg Except.ok (tab_congr fun x hx => if_pos (by rw [pow_zero]; omega))

/-- A column that copies values onto equal ones changes nothing. -/
theorem applyLowDepthCol_settled
    (hY : ∀ i < 2 ^ m - 2 ^ h, P (i + 2 ^ h) = P i → Y (i + 2 ^ h) = Y i) :
    applyLowDepthCol m h (lowDepthCol (tab (2 ^ m) P) m h) (tab (2 ^ m) Y) =
      .ok (tab (2 ^ m) Y) := by
  have hStep : ∀ i ∈ List.range (2 ^ m - 2 ^ h),
      copyForward (2 ^ h) (lowDepthCol (tab (2 ^ m) P) m h) (tab (2 ^ m) Y) i =
        .ok (tab (2 ^ m) Y) := by
    intro i hi
    have hLt := List.mem_range.mp hi
    rw [copyForward_tab hLt]
    refine congrArg Except.ok (tab_congr fun x _ => ?_)
    split
    · next hx => rw [hx.1, hY i hLt hx.2]
    · rfl
  unfold applyLowDepthCol
  generalize List.range (2 ^ m - 2 ^ h) = is at hStep ⊢
  induction is with
  | nil => rfl
  | cons i l ih =>
    rw [List.foldlM_cons, hStep i (by simp), ok_bind]
    exact ih fun j hj => hStep j (by simp [hj])

/-- All columns together fill the runs, when equal values are neighbours. -/
theorem forwardDupLowDepth_spec (hm : 0 < m) (hP : Contiguous (2 ^ m) P) :
    forwardDupLowDepthApply (tab (2 ^ m) P) (tab (2 ^ m) Y) =
      .ok (tab (2 ^ m) (Y ∘ runHead P)) := by
  obtain ⟨k, rfl⟩ : ∃ k, m = k + 1 := ⟨m - 1, by omega⟩
  have hCols : ∀ n, ((List.range (n + 1)).map
    (lowDepthCol (tab (2 ^ (k + 1)) P) (k + 1))).zipIdx.foldlM
      (fun x ch => applyLowDepthCol (k + 1) ch.2 ch.1 x) (tab (2 ^ (k + 1)) Y) =
        .ok (tab (2 ^ (k + 1)) (Y ∘ runHead P)) := by
    intro n
    induction n with
    | zero =>
      show (applyLowDepthCol (k + 1) 0 (lowDepthCol _ (k + 1) 0) _ >>= pure) = _
      rw [applyLowDepthCol_one]
      rfl
    | succ n ih =>
      rw [List.range_succ, List.map_append, List.zipIdx_append, List.foldlM_append, ih, ok_bind]
      simp only [List.map_cons, List.map_nil, List.length_map, List.length_range, zero_add,
        List.zipIdx_singleton, List.foldlM_cons, List.foldlM_nil]
      rw [applyLowDepthCol_settled (P := P)]
      · rfl
      · intro i hi hEq
        exact congrArg Y (hP.runHead_eq (by omega) hEq.symm)
  rw [forwardDupLowDepthApply, length_tab, log2exact_two_pow, ok_bind, length_tab, if_pos rfl]
  exact hCols k

end Columns

/-- **The three networks agree**: on a list whose equal values are contiguous,
`ForwardDup`, `ForwardDupLowDepth` and `ForwardDupMI` put at each position what is at
the first index of its block. -/
theorem forwardDup_agree {m le : Nat} (hm : 1 ≤ m) (hle : 1 ≤ le) {f : List β}
    (hf : f.length = 2 ^ m)
    (hBlocks : ∀ i j k, i ≤ j → j ≤ k → k < 2 ^ m → f[i]? = f[k]? → f[j]? = f[i]?)
    (x : List α) (hx : x.length = 2 ^ m) :
    ∃ y, forwardDupApply f x = .ok y ∧ forwardDupLowDepthApply f x = .ok y ∧
      forwardDupMIApply f le x = .ok y ∧ y.length = 2 ^ m ∧
      ∀ i < 2 ^ m, ∃ h, IsLeast {j : Nat | f[j]? = f[i]?} h ∧ y[i]? = x[h]? := by
  obtain ⟨P, rfl⟩ := exists_tab (Nat.two_pow_pos m) hf
  obtain ⟨X, rfl⟩ := exists_tab (Nat.two_pow_pos m) hx
  have hP : Contiguous (2 ^ m) P := by
    intro i j k hij hjk hk hEq
    have hSome := hBlocks i j k hij hjk hk
    rw [getElem?_tab (show i < 2 ^ m by omega), getElem?_tab (show j < 2 ^ m by omega),
      getElem?_tab hk] at hSome
    exact Option.some.inj (hSome (congrArg some hEq))
  refine ⟨tab (2 ^ m) (X ∘ runHead P), forwardDup_spec, forwardDupLowDepth_spec hm hP,
    forwardDupMIApply_spec hm hle, length_tab _ _, fun i hi => ⟨runHead P i, ?_, ?_⟩⟩
  · have hSet : {j : Nat | (tab (2 ^ m) P)[j]? = (tab (2 ^ m) P)[i]?} =
        {j | j < 2 ^ m ∧ P j = P i} := by
      ext j
      rw [Set.mem_ofPred_eq, Set.mem_ofPred_eq, getElem?_tab hi]
      by_cases hj : j < 2 ^ m
      · simp [hj]
      · rw [List.getElem?_eq_none (by rw [length_tab]; omega)]
        simp [hj]
    rw [hSet]
    exact hP.runHead_least hi
  · rw [getElem?_tab hi, getElem?_tab (lt_of_le_of_lt (runHead_le P i) hi), Function.comp_apply]

/-- The theorem at `[7, 7, 7, 2]`. -/
theorem forwardDup_agree_four : ∃ y, forwardDupApply [7, 7, 7, 2] ["a", "b", "c", "d"] = .ok y ∧
    forwardDupLowDepthApply [7, 7, 7, 2] ["a", "b", "c", "d"] = .ok y ∧
    forwardDupMIApply [7, 7, 7, 2] 1 ["a", "b", "c", "d"] = .ok y := by
  obtain ⟨y, hDup, hLow, hMI, -⟩ := forwardDup_agree (show 1 ≤ 2 by decide) (Nat.le_refl 1)
    (f := [7, 7, 7, 2]) rfl (by
      intro i j k hij hjk hk h
      have hSmall : ∀ k < 4, ∀ j ≤ k, ∀ i ≤ j, [7, 7, 7, 2][i]? = [7, 7, 7, 2][k]? →
          [7, 7, 7, 2][j]? = [7, 7, 7, 2][i]? := by decide
      exact hSmall k hk j hjk i hij h) ["a", "b", "c", "d"] rfl
  exact ⟨y, hDup, hLow, hMI⟩

end Obscure.Routing
