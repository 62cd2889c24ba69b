import Obscure.Routing.BDB

/-!
# OBSCURE — applying the networks

Each compiler of `routing.py` has an `apply` beside its canonical program. On the
rows that the compilers produce they all rearrange a list along the wires of the
rows.

* `bdbFuncApply_spec`    — `BDBFunc(f).apply(x)`;
* `bdbFuncMIApply_spec`  — `BDBFuncMI(f, le).apply(x)`;
* `bdbProgram_spec`      — running the optimized canonical program.
-/

namespace Obscure.Routing

open Lib

/-- `BenesPerm(pi).apply(x)`. -/
def benesPermApply {α : Type} (pi : List Nat) (x : List α) : Except Fault (List α) := do
  let cols ← benesPerm pi
  let m ← log2exact pi.length
  if x.length = pi.length then
    cols.zipIdx.foldlM (fun x ci => applyCol x m (min ci.2 (2 * m - 2 - ci.2)) ci.1) x
  else .error .assertionError

/-- `BDBFunc(f).apply(x)`. -/
def bdbFuncApply {α : Type} (ord : Orders) (f : List Nat) (x : List α) : Except Fault (List α) := do
  let _ ← log2exact f.length
  let split ← splitFunc ord f
  if x.length = f.length then
    let x ← benesPermApply split.pi x
    let x ← forwardDupApply split.pif x
    benesPermApply split.pi2 x
  else .error .assertionError

/-- One window of `BenesPermMI._apply`: the output so far, and the offset. -/
def applyWindow {α : Type} (f : List α) (st : List α × Nat) (window : Nat × Shuffle) :
    Except Fault (List α × Nat) := do
  if window.1 ≠ st.2 then .error .assertionError
  else
    let new ← gather window.2.entries ((f.drop st.2).take window.2.entries.length)
    return (st.1 ++ new, st.2 + window.2.entries.length)

/-- One row of `BenesPermMI._apply`. -/
def applyRow {α : Type} (f : List α) : Row → Except Fault (List α)
  | .publicShuffle p => gather p.entries f
  | .secretShuffles windows => do
    let (f2, off) ← windows.foldlM (applyWindow f) ([], 0)
    if off = f.length ∧ f.length = f2.length then return f2 else .error .assertionError

/-- `BenesPermMI(pi, le).apply(x)`. -/
def benesPermMIApply {α : Type} (pi : List Nat) (le : Nat) (x : List α) :
    Except Fault (List α) := do
  let rows ← benesPermMI pi le
  if x.length = pi.length then rows.foldlM applyRow x else .error .assertionError

/-- One window of `ForwardDupMI._apply`. -/
def applyDupWindow {α : Type} (ff : List α) (window : Nat × Shuffle) : Except Fault (List α) :=
  if window.2.entries.length > 1 then do
    let sub ← gather window.2.entries ((ff.drop window.1).take window.2.entries.length)
    return ff.take window.1 ++ (sub ++ ff.drop (window.1 + sub.length))
  else .error .assertionError

/-- One row of `ForwardDupMI._apply`. -/
def applyDupRow {α : Type} (ff : List α) : Row → Except Fault (List α)
  | .publicShuffle _ => .error .assertionError
  | .secretShuffles windows => windows.foldlM applyDupWindow ff

/-- `ForwardDupMI(f, le).apply(x)`. -/
def forwardDupMIApply {α β : Type} [DecidableEq β] (f : List β) (le : Nat) (x : List α) :
    Except Fault (List α) := do
  let rows ← forwardDupMI f le
  if x.length = f.length then
    let ff ← rows.foldlM applyDupRow x
    if ff.length = x.length then return ff else .error .assertionError
  else .error .assertionError

/-- `BDBFuncMI(f, le).apply(x)`. -/
def bdbFuncMIApply {α : Type} (ord : Orders) (f : List Nat) (le : Nat) (x : List α) :
    Except Fault (List α) := do
  if le < 1 then .error .assertionError
  else
    let _ ← log2exact f.length
    let split ← splitFunc ord f
    if x.length = f.length then
      let x ← benesPermMIApply split.pi le x
      let x ← forwardDupMIApply split.pif le x
      benesPermMIApply split.pi2 le x
    else .error .assertionError

/-! ## Tiled rows -/

/-- The windows of a secret row lie side by side and cover all positions. -/
def RowShape.Tiled (n : Nat) : RowShape → Prop
  | .publicShuffle _ => True
  | .secretShuffles windows =>
    ∃ w k, 0 < w ∧ k * w = n ∧ windows = (List.range k).map fun t => (t * w, w)

theorem tiled_whole {n : Nat} (hn : 0 < n) : RowShape.Tiled n (.secretShuffles [(0, n)]) :=
  ⟨n, 1, hn, one_mul n, by simp⟩

/-- The rows of a Benes network are public, or one window, or tiles. -/
theorem forall_benesShapes {P : RowShape → Prop} {m le : Nat} (hPublic : ∀ p, P (.publicShuffle p))
    (hWhole : m ≤ le → P (.secretShuffles [(0, 2 ^ m)]))
    (hTiles : le < m →
      P (.secretShuffles ((List.range (2 ^ (m - le))).map fun t => (t * 2 ^ le, 2 ^ le)))) :
    ∀ sh ∈ benesShapes m le, P sh := by
  unfold benesShapes
  split
  · next hBig =>
    intro sh hsh
    rw [List.mem_singleton.mp hsh]
    exact hWhole hBig
  · next hBig =>
    have hm : 0 < m := by omega
    have hAdd : ∀ {shapes : List RowShape} {s : Nat}, (∀ sh ∈ shapes, P sh) →
        ∀ sh ∈ addShape m hm le shapes s, P sh := by
      intro shapes s h sh hsh
      unfold addShape at hsh
      rcases List.mem_append.mp hsh with hsh | hsh
      · exact h sh (List.mem_of_mem_dropLast hsh)
      · simp only [List.mem_cons, List.not_mem_nil, or_false] at hsh
        rcases hsh with rfl | rfl | rfl
        · exact hPublic _
        · exact hTiles (by omega)
        · exact hPublic _
    have hFold : ∀ {l : List Nat} {shift : Nat → Nat} {shapes : List RowShape},
        (∀ sh ∈ shapes, P sh) →
        ∀ sh ∈ l.foldl (fun shapes i => addShape m hm le shapes (shift i)) shapes, P sh := by
      intro l shift
      induction l with
      | nil => exact fun h => h
      | cons i l ih => exact fun h => ih (hAdd h)
    exact hFold (hAdd (@hFold _ id _ (by simp)))

theorem tiled_benesShapes (m le : Nat) : ∀ sh ∈ benesShapes m le, sh.Tiled (2 ^ m) := by
  refine forall_benesShapes (fun _ => trivial) (fun _ => tiled_whole (Nat.two_pow_pos m))
    fun hlt => ?_
  exact ⟨2 ^ le, 2 ^ (m - le), Nat.two_pow_pos le, by rw [← pow_add, Nat.sub_add_cancel hlt.le],
    rfl⟩

section Tiled

variable {α : Type} {n : Nat} {X : Nat → α}

/-- The windows before position `e` leave everything from there on alone. -/
theorem foldr_windowWire_ge {windows : List (Nat × Shuffle)} {e j : Nat}
    (h : ∀ w ∈ windows, w.1 + w.2.entries.length ≤ e) (hj : e ≤ j) :
    windows.foldr windowWire j = j := by
  induction windows with
  | nil => rfl
  | cons w windows ih =>
    have := h w (by simp)
    rw [List.foldr_cons, ih fun a ha => h a (by simp [ha]), windowWire, if_neg (by omega)]

/-- The windows up to the `k`-th have filled the output up to there. -/
theorem foldlM_applyWindow {w k : Nat} {windows : List (Nat × Shuffle)}
    (hn : k * w ≤ n)
    (h : (windows.map fun a => (a.1, a.2.entries.length)) = (List.range k).map fun t =>
      (t * w, w)) :
    windows.foldlM (applyWindow (tab n X)) ([], 0) =
      .ok (tab (k * w) (X ∘ fun j => windows.foldr windowWire j), k * w) := by
  -- on the number of windows, taking off the last one
  induction k generalizing windows with
  | zero =>
    have hNil : windows = [] := by simpa using h
    subst hNil
    rw [zero_mul]
    rfl
  | succ k ih =>
    rw [List.range_succ, List.map_append, List.map_eq_append_iff] at h
    obtain ⟨before, last, rfl, hBefore, hLast⟩ := h
    rw [List.map_singleton, List.map_eq_singleton_iff] at hLast
    obtain ⟨win, rfl, hWin⟩ := hLast
    obtain ⟨hOff, hLen⟩ := Prod.mk.inj hWin
    rw [Nat.succ_mul] at hn ⊢
    have hEnd : ∀ a ∈ before, a.1 + a.2.entries.length ≤ k * w := by
      intro a ha
      have hMem : (a.1, a.2.entries.length) ∈ before.map fun a => (a.1, a.2.entries.length) :=
        List.mem_map_of_mem ha
      rw [hBefore, List.mem_map] at hMem
      obtain ⟨t, ht, hEq⟩ := hMem
      obtain ⟨h1, h2⟩ := Prod.mk.inj hEq
      rw [← h1, ← h2, ← Nat.succ_mul]
      exact Nat.mul_le_mul_right w (List.mem_range.mp ht)
    have hGather : gather win.2.entries (((tab n X).drop (k * w)).take win.2.entries.length) =
        .ok (win.2.entries.map fun i => X (k * w + i)) := by
      rw [hLen, take_drop_tab X hn]
      exact gather_tab fun i hi => hLen ▸ win.2.lt_length i hi
    rw [List.foldlM_append, ih (by omega) hBefore, ok_bind, List.foldlM_cons]
    rw [applyWindow, if_neg (not_not.mpr hOff), hGather]
    refine congrArg Except.ok (Prod.ext ?_ (congrArg (k * w + ·) hLen))
    refine List.ext_getElem (by simp [hLen]) fun j h₁ h₂ => ?_
    rw [getElem_tab, Function.comp_apply, List.foldr_append, List.foldr_cons, List.foldr_nil,
      windowWire, List.getElem_append]
    have hj : j < k * w + w := by simpa using h₂
    -- a wire of an earlier window, or of the last one
    by_cases hIn : j < k * w
    · rw [dif_pos (by simpa using hIn), getElem_tab, if_neg (by omega)]
      rfl
    · rw [dif_neg (by simpa using hIn), if_pos (by omega), List.getElem_map, hOff,
        foldr_windowWire_ge hEnd (Nat.le_add_right _ _), List.getD_eq_getElem _ _ (by omega)]
      simp

theorem applyRow_tab {row : Row} (hFits : row.Fits n) (hTiled : row.shape.Tiled n) :
    applyRow (tab n X) row = .ok (tab n (X ∘ row.wire)) := by
  cases row with
  | publicShuffle p => exact Row.run_tab hFits
  | secretShuffles windows =>
    obtain ⟨w, k, -, hSize, hWindows⟩ := hTiled
    rw [applyRow, foldlM_applyWindow hSize.le hWindows, ok_bind]
    simp only [hSize, length_tab]
    rfl

/-- A window of `ForwardDupMI` is applied as any other. -/
theorem applyDupWindow_tab {w : Nat × Shuffle} (hFits : w.1 + w.2.entries.length ≤ n)
    (hSize : 1 < w.2.entries.length) :
    applyDupWindow (tab n X) w = .ok (tab n (X ∘ windowWire w)) := by
  have hSlice : gather w.2.entries (((tab n X).drop w.1).take w.2.entries.length) =
      gather (w.2.entries.map (w.1 + ·)) (tab n X) := by
    have hBound : ∀ i ∈ w.2.entries.map (w.1 + ·), i < n := by
      intro i hi
      obtain ⟨k, hk, rfl⟩ := List.mem_map.mp hi
      have := w.2.lt_length k hk
      omega
    rw [take_drop_tab X hFits, gather_tab w.2.lt_length, gather_tab hBound, List.map_map]
    rfl
  have hRun := runWindow_tab (X := X) hFits
  rw [runWindow] at hRun
  obtain ⟨new, hNew, hEq⟩ := bind_eq_ok.mp hRun
  have hLen : new.length = w.2.entries.length := by
    have hGather := hSlice.trans hNew
    rw [take_drop_tab X hFits, gather_tab w.2.lt_length] at hGather
    cases hGather
    simp
  rw [applyDupWindow, if_pos hSize, hSlice, hNew, ok_bind, hLen]
  exact hEq

end Tiled

/-! ## Benes networks -/

section Benes

variable {α : Type} {m : Nat} {π : Equiv.Perm Nat} {X : Nat → α}

theorem benesPermApply_spec (hm : 0 < m) (hπ : Below (2 ^ m) π) :
    benesPermApply (tab (2 ^ m) π) (tab (2 ^ m) X) = .ok (tab (2 ^ m) (X ∘ π)) := by
  obtain ⟨k, rfl⟩ : ∃ k, m = k + 1 := ⟨m - 1, by omega⟩
  obtain ⟨cs, hCols, hLen, -, hNet⟩ := benesCols_spec k hπ
  have hcs : cs.length = 2 * (k + 1) - 1 := by omega
  have hBits : ∀ bc ∈ (ibits (k + 1)).zip cs, bc.1 < k + 1 := by
    intro bc hbc
    have hMem : bc.1 ∈ ibits (k + 1) := List.of_mem_zip (show (bc.1, bc.2) ∈ _ from hbc) |>.1
    obtain ⟨i, hi, hEq⟩ := List.mem_map.mp hMem
    have := List.mem_range.mp hi
    omega
  have hFold := foldlM_applyCol (X := X) hBits
  rw [← icols_eq hcs, List.foldlM_map, Nat.add_sub_cancel] at hFold
  unfold benesPermApply
  rw [benesPerm, length_tab, log2exact_two_pow, ok_bind, hCols, ok_bind, ok_bind, length_tab,
    if_pos rfl, hFold]
  congr 1
  exact tab_congr fun x hx => congrArg X (hNet x hx)

theorem benesPermMIApply_spec {le : Nat} (hle : 0 < le) (hπ : Below (2 ^ m) π) :
    benesPermMIApply (tab (2 ^ m) π) le (tab (2 ^ m) X) = .ok (tab (2 ^ m) (X ∘ π)) := by
  obtain ⟨rows, hRows, hFits, hWire, hShape⟩ := benesPermMI_spec hle hπ
  have hTiled : ∀ row ∈ rows, row.shape.Tiled (2 ^ m) := fun row hRow =>
    tiled_benesShapes m le _ (hShape ▸ List.mem_map_of_mem hRow)
  rw [benesPermMIApply, hRows, ok_bind, length_tab, length_tab, if_pos rfl,
    foldlM_tab fun row hRow X => applyRow_tab (X := X) (hFits row hRow) (hTiled row hRow)]
  congr 1
  exact tab_congr fun x hx => congrArg X (hWire x hx)

end Benes

/-! ## Duplication -/

/-- All windows of `ForwardDupMI` have more than one position. -/
theorem dupShapes_size {m le : Nat} (hm : 0 < m) (hle : 0 < le) {sh : RowShape}
    (h : sh ∈ dupShapes m le) : ∃ off size, sh = .secretShuffles [(off, size)] ∧ 1 < size := by
  have hn : 2 ^ 1 ≤ 2 ^ m := Nat.pow_le_pow_right (by decide) hm
  have hl : 2 ^ 1 ≤ 2 ^ le := Nat.pow_le_pow_right (by decide) hle
  unfold dupShapes at h
  split at h
  · exact ⟨0, 2 ^ m, List.mem_singleton.mp h, by omega⟩
  · rcases List.mem_cons.mp h with rfl | h
    · exact ⟨0, 2 ^ le, rfl, by omega⟩
    · obtain ⟨off, hOff, rfl⟩ := List.mem_map.mp h
      obtain ⟨done, rest, hSplit⟩ := List.append_of_mem hOff
      obtain ⟨-, hLt⟩ := rangeStep_split (by omega) hSplit
      exact ⟨off, _, rfl, by omega⟩

theorem forwardDupMIApply_spec {α β : Type} [DecidableEq β] {m le : Nat} (hm : 0 < m) (hle : 0 < le)
    {P : Nat → β} {X : Nat → α} :
    forwardDupMIApply (tab (2 ^ m) P) le (tab (2 ^ m) X) = .ok (tab (2 ^ m) (X ∘ runHead P)) := by
  obtain ⟨rows, hRows, hFits, hWire, hShape⟩ := forwardDupMI_spec (P := P) (m := m) hle
  have hRow : ∀ row ∈ rows, ∀ X : Nat → α,
      applyDupRow (tab (2 ^ m) X) row = .ok (tab (2 ^ m) (X ∘ row.wire)) := by
    intro row hRow X
    have hMem : row.shape ∈ dupShapes m le := hShape ▸ List.mem_map_of_mem hRow
    obtain ⟨off, size, hEq, hSize⟩ := dupShapes_size hm hle hMem
    cases row with
    | publicShuffle p => cases hEq
    | secretShuffles windows =>
      refine foldlM_tab fun w hw X => applyDupWindow_tab (hFits _ hRow w hw) ?_
      have hMem : (w.1, w.2.entries.length) ∈ windows.map fun w => (w.1, w.2.entries.length) :=
        List.mem_map_of_mem hw
      rw [Row.shape, RowShape.secretShuffles.injEq] at hEq
      rw [hEq, List.mem_singleton] at hMem
      rw [(Prod.mk.inj hMem).2]
      exact hSize
  rw [forwardDupMIApply, hRows, ok_bind, length_tab, length_tab, if_pos rfl, foldlM_tab hRow,
    ok_bind, length_tab, if_pos rfl]
  show Except.ok _ = Except.ok _
  congr 1
  exact tab_congr fun x hx => congrArg X (hWire x hx)

/-! ## The whole network -/

section Whole

variable {α : Type} {m le : Nat} {F : Nat → Nat} {X : Nat → α}

theorem bdbFuncApply_spec (ord : Orders) (hm : 0 < m) (hF : ∀ i < 2 ^ m, F i < 2 ^ m) :
    bdbFuncApply ord (tab (2 ^ m) F) (tab (2 ^ m) X) = .ok (tab (2 ^ m) (X ∘ F)) := by
  obtain ⟨split, π, π₂, P, hSplit, hπ, hπ₂, hpi, hpif, hpi2, hRoute⟩ := splitFunc_spec ord hF
  rw [bdbFuncApply, length_tab, log2exact_two_pow, ok_bind, hSplit, ok_bind, length_tab,
    if_pos rfl, hpi, benesPermApply_spec hm hπ, ok_bind, hpif, forwardDup_spec, ok_bind, hpi2,
    benesPermApply_spec hm hπ₂]
  congr 1
  exact tab_congr fun i hi => congrArg X (hRoute i hi)

theorem bdbFuncMIApply_spec (ord : Orders) (hm : 0 < m) (hle : 0 < le)
    (hF : ∀ i < 2 ^ m, F i < 2 ^ m) :
    bdbFuncMIApply ord (tab (2 ^ m) F) le (tab (2 ^ m) X) = .ok (tab (2 ^ m) (X ∘ F)) := by
  obtain ⟨split, π, π₂, P, hSplit, hπ, hπ₂, hpi, hpif, hpi2, hRoute⟩ := splitFunc_spec ord hF
  rw [bdbFuncMIApply, if_neg (by omega), length_tab, log2exact_two_pow, ok_bind, hSplit, ok_bind,
    length_tab, if_pos rfl, hpi, benesPermMIApply_spec hle hπ, ok_bind, hpif,
    forwardDupMIApply_spec hm hle, ok_bind, hpi2, benesPermMIApply_spec hle hπ₂]
  congr 1
  exact tab_congr fun i hi => congrArg X (hRoute i hi)

/-- No window is larger than `2 ^ le`. -/
theorem bdbShapes_size {m le : Nat} : ∀ sh ∈ bdbShapes m le,
    ∀ windows, sh = .secretShuffles windows → ∀ w ∈ windows, w.2 ≤ 2 ^ le := by
  have hBenes : ∀ sh ∈ benesShapes m le,
      ∀ windows, sh = .secretShuffles windows → ∀ w ∈ windows, w.2 ≤ 2 ^ le := by
    refine forall_benesShapes nofun (fun hBig windows hEq w hw => ?_) fun _ windows hEq w hw => ?_
    · cases hEq
      rw [List.mem_singleton.mp hw]
      exact Nat.pow_le_pow_right (by decide) hBig
    · cases hEq
      obtain ⟨t, -, rfl⟩ := List.mem_map.mp hw
      exact le_rfl
  intro sh hsh windows hEq w hw
  unfold bdbShapes at hsh
  rcases List.mem_append.mp hsh with hsh | hsh
  · rcases List.mem_append.mp hsh with hsh | hsh
    · exact hBenes sh hsh windows hEq w hw
    · unfold dupShapes at hsh
      split at hsh
      · next hBig =>
        rw [List.mem_singleton.mp hsh] at hEq
        cases hEq
        rw [List.mem_singleton.mp hw]
        exact Nat.pow_le_pow_right (by decide) hBig
      · rcases List.mem_cons.mp hsh with rfl | hsh
        · cases hEq
          rw [List.mem_singleton.mp hw]
        · obtain ⟨off, -, rfl⟩ := List.mem_map.mp hsh
          cases hEq
          rw [List.mem_singleton.mp hw]
          exact min_le_left _ _
  · exact hBenes sh hsh windows hEq w hw

/-- The optimized canonical program, run on any values. -/
theorem bdbProgram_spec (ord : Orders) (hle : 0 < le) (hF : ∀ i < 2 ^ m, F i < 2 ^ m) :
    ∃ rows, bdbFuncMI ord (tab (2 ^ m) F) le = .ok rows ∧
      runProgram (optimize rows) (tab (2 ^ m) X) = .ok (tab (2 ^ m) (X ∘ F)) := by
  obtain ⟨rows, hRows, hFits, hWire, -⟩ := bdbFuncMI_spec ord hle hF
  refine ⟨rows, hRows, ?_⟩
  have hFits' : ∀ row ∈ optimize rows, row.Fits (2 ^ m) := fun row hRow => by
    rw [optimize_eq] at hRow
    exact hFits row (List.mem_of_mem_filter hRow)
  rw [runProgram_tab hFits']
  congr 1
  refine tab_congr fun i hi => congrArg X ?_
  rw [programWire_optimize hFits hi, hWire i hi]

end Whole

end Obscure.Routing
