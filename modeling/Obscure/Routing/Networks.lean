import Obscure.Routing.Apply

/-!
# OBSCURE — what the networks do to lists

The compilers of `routing.py` take lists. A list that rearranges the positions is
the table of a permutation, and any list of positions the table of a map, so what
is known of tables holds for the lists that the compilers are called with.

* `benesPerm_realises`    — `BenesPerm`: the columns, and what they do to a list;
* `benesPermMI_refines`   — `BenesPermMI`: windows that stay within themselves, and the
  same list as `BenesPerm`;
* `bdbFuncMI_samePublic`  — `BDBFuncMI`: the wiring shows only in the secret windows.
-/

namespace Obscure.Routing

open Lib

-- ---------------------------------------------------------------------------
-- The columns
-- ---------------------------------------------------------------------------

/-- **`BenesPerm` realises every permutation**: it yields `2 m - 1` columns of
`2 ** (m - 1)` bits, and applied to a list they put at position `i` what was at
position `pi[i]`. -/
theorem benesPerm_realises {m : Nat} (hm : 1 ≤ m) {pi : List Nat}
    (hpi : pi.Perm (List.range (2 ^ m))) :
    (∃ cols, benesPerm pi = .ok cols ∧ cols.length = 2 * m - 1 ∧
      ∀ col ∈ cols, col.length = 2 ^ (m - 1) ∧ ∀ b ∈ col, b < 2) ∧
    ∀ {α : Type} (x : List α), x.length = 2 ^ m →
      ∃ y, benesPermApply pi x = .ok y ∧ y.length = 2 ^ m ∧
        ∀ i < 2 ^ m, y[i]? = pi[i]?.bind fun a => x[a]? := by
  obtain ⟨π, hπ, rfl⟩ := exists_below hpi
  refine ⟨?_, fun {α} x hx => ?_⟩
  · obtain ⟨k, rfl⟩ : ∃ k, m = k + 1 := ⟨m - 1, by omega⟩
    obtain ⟨cs, hCols, hLen, hBits, -⟩ := benesCols_spec k hπ
    refine ⟨cs.map (tab (2 ^ k)), ?_, ?_, fun col hCol => ?_⟩
    · rw [benesPerm, length_tab, log2exact_two_pow, ok_bind, hCols]
    · rw [List.length_map, hLen]
      omega
    · obtain ⟨c, hc, rfl⟩ := List.mem_map.mp hCol
      refine ⟨length_tab _ _, fun b hb => ?_⟩
      obtain ⟨j, hj, rfl⟩ := mem_tab.mp hb
      exact hBits c hc j hj
  · obtain ⟨X, rfl⟩ := exists_tab (Nat.two_pow_pos m) hx
    refine ⟨tab (2 ^ m) (X ∘ π), benesPermApply_spec hm hπ, length_tab _ _, fun i hi => ?_⟩
    rw [getElem?_tab hi, getElem?_tab hi, Option.bind_some, getElem?_tab ((hπ i).mpr hi)]
    rfl

/-- The theorem at the permutation `[2, 0, 3, 1]`. -/
theorem benesPerm_realises_four : ∃ y, benesPermApply [2, 0, 3, 1] ["a", "b", "c", "d"] = .ok y ∧
    y.length = 4 ∧ y[2]? = some "d" := by
  obtain ⟨y, hy, hLen, hAt⟩ := (benesPerm_realises (show 1 ≤ 2 by decide)
    (show [2, 0, 3, 1].Perm (List.range (2 ^ 2)) by decide)).2 ["a", "b", "c", "d"] rfl
  exact ⟨y, hy, hLen, hAt 2 (by decide)⟩

-- ---------------------------------------------------------------------------
-- The windows
-- ---------------------------------------------------------------------------

/-- A secret row of consecutive windows of `w` positions that cover `n` positions,
each permuted within itself. -/
def Row.PermutesWindows (n w : Nat) : Row → Prop
  | .publicShuffle _ => True
  | .secretShuffles windows =>
    (windows.map Prod.fst = (List.range (n / w)).map fun t => t * w) ∧
      ∀ win ∈ windows, win.2.entries.Perm (List.range w)

/-- Maps whose composition is injective on the indices below `n` are injective there,
each of them. -/
theorem foldr_injOn {β : Type} {n : Nat} {f : β → Nat → Nat} {l : List β}
    (hlt : ∀ b ∈ l, ∀ j < n, f b j < n) (h : Set.InjOn (fun j => l.foldr f j) (Set.Iio n)) :
    ∀ b ∈ l, Set.InjOn (f b) (Set.Iio n) := by
  induction l with
  | nil => simp
  | cons a l ih =>
    have hRest : ∀ b ∈ l, ∀ j < n, f b j < n := fun b hb => hlt b (by simp [hb])
    have hInner : Set.InjOn (fun j => l.foldr f j) (Set.Iio n) := fun i hi j hj hij =>
      h hi hj (congrArg (f a) hij)
    intro b hb
    rcases List.mem_cons.mp hb with rfl | hb
    · -- what is behind the first map reaches every index
      obtain ⟨p, hp, hEq⟩ := exists_below_of_inj (fun i hi => foldr_lt hRest hi)
        fun i hi j hj hij => hInner hi hj hij
      intro i hi j hj hij
      have hi' := (hp.inv i).mpr hi
      have hj' := (hp.inv j).mpr hj
      have hSame : p⁻¹ i = p⁻¹ j := by
        refine h hi' hj' ?_
        show f b (l.foldr f _) = f b (l.foldr f _)
        rw [← hEq _ hi', ← hEq _ hj', show p (p⁻¹ i) = i by simp, show p (p⁻¹ j) = j by simp]
        exact hij
      exact p⁻¹.injective hSame
    · exact ih hRest hInner b hb

/-- A window takes the positions it covers from where its entries say, whatever the
windows beside it do. -/
theorem foldr_windowWire_in {before after : List (Nat × Shuffle)} {win : Nat × Shuffle} {j : Nat}
    (hOrder : (before ++ win :: after).Pairwise fun a b => a.1 + a.2.entries.length ≤ b.1)
    (hj : j < win.2.entries.length) :
    (before ++ win :: after).foldr windowWire (win.1 + j) = win.1 + win.2.entries[j] := by
  obtain ⟨-, hHere, hBefore⟩ := List.pairwise_append.mp hOrder
  have hAfter := (List.pairwise_cons.mp hHere).1
  have hStay : after.foldr windowWire (win.1 + j) = win.1 + j := by
    clear hOrder hHere hBefore
    induction after with
    | nil => rfl
    | cons w after ih =>
      have := hAfter w (by simp)
      rw [List.foldr_cons, ih fun a ha => hAfter a (by simp [ha]), windowWire, if_neg (by omega)]
  rw [List.foldr_append, List.foldr_cons, hStay, windowWire, if_pos (by omega),
    Nat.add_sub_cancel_left, List.getD_eq_getElem _ _ hj]
  exact foldr_windowWire_ge (fun w hw => hBefore w hw win (by simp)) (Nat.le_add_right _ _)

/-- In a row of tiles that loses nothing, no window loses anything. -/
theorem permutesWindows_of_injOn {n w k : Nat} (hw : 0 < w) (hSize : k * w = n)
    {windows : List (Nat × Shuffle)}
    (hInj : Set.InjOn (Row.secretShuffles windows).wire (Set.Iio n))
    (hTiles : (windows.map fun a => (a.1, a.2.entries.length)) =
      (List.range k).map fun t => (t * w, w)) :
    Row.PermutesWindows n w (.secretShuffles windows) := by
  refine ⟨?_, fun win hWin => ?_⟩
  · have hOffs := congrArg (List.map Prod.fst) hTiles
    rw [List.map_map, List.map_map] at hOffs
    rw [← hSize, Nat.mul_div_cancel k hw]
    exact hOffs
  · have hOrder : windows.Pairwise fun a b => a.1 + a.2.entries.length ≤ b.1 := by
      have hRange : ((List.range k).map fun t => (t * w, w)).Pairwise
          fun a b : Nat × Nat => a.1 + a.2 ≤ b.1 := by
        refine List.pairwise_map.mpr (List.pairwise_lt_range.imp fun {a b} hlt => ?_)
        rw [← Nat.succ_mul]
        exact Nat.mul_le_mul_right w hlt
      rw [← hTiles] at hRange
      exact List.pairwise_map.mp hRange
    have hMem : (win.1, win.2.entries.length) ∈ windows.map fun a => (a.1, a.2.entries.length) :=
      List.mem_map_of_mem hWin
    rw [hTiles] at hMem
    obtain ⟨t, ht, hEq⟩ := List.mem_map.mp hMem
    obtain ⟨hOff, hLen⟩ := Prod.mk.inj hEq
    have hEnd : win.1 + win.2.entries.length ≤ n := by
      rw [← hOff, ← hLen, ← Nat.succ_mul, ← hSize]
      exact Nat.mul_le_mul_right w (List.mem_range.mp ht)
    obtain ⟨before, after, rfl⟩ := List.append_of_mem hWin
    have hNodup : win.2.entries.Nodup := by
      rw [List.nodup_iff_injective_get]
      intro i j hij
      have hSame : win.1 + i.1 = win.1 + j.1 := by
        refine hInj (show _ < n by omega) (show _ < n by omega) ?_
        show (before ++ win :: after).foldr windowWire _ =
          (before ++ win :: after).foldr windowWire _
        rw [foldr_windowWire_in hOrder i.2, foldr_windowWire_in hOrder j.2]
        exact congrArg (win.1 + ·) hij
      exact Fin.ext (by omega)
    have hSub : win.2.entries ⊆ List.range w := fun i hi =>
      List.mem_range.mpr (hLen ▸ win.2.lt_length i hi)
    exact (List.subperm_of_subset hNodup hSub).perm_of_length_le (by rw [List.length_range, hLen])

/-- The secret rows of a Benes network are tiles of `2 ** min(le, m)` positions. -/
theorem tiles_benesShapes {m le : Nat} : ∀ sh ∈ benesShapes m le, ∀ windows,
    sh = .secretShuffles windows →
      windows = (List.range (2 ^ (m - min le m))).map fun t =>
        (t * 2 ^ min le m, 2 ^ min le m) := by
  refine forall_benesShapes nofun (fun hBig windows hEq => ?_) fun hlt windows hEq => ?_
  · cases hEq
    rw [min_eq_right hBig, Nat.sub_self]
    simp
  · cases hEq
    rw [min_eq_left hlt.le]

/-- **`BenesPermMI` refines `BenesPerm`**: it compiles every permutation into rows
whose secret ones cut the positions into windows of `2 ** min(le, m)`, each permuted
within itself, and applying the rows to a list gives what `BenesPerm` gives. -/
theorem benesPermMI_refines {m le : Nat} (hm : 1 ≤ m) (hle : 1 ≤ le) {pi : List Nat}
    (hpi : pi.Perm (List.range (2 ^ m))) :
    ∃ rows, benesPermMI pi le = .ok rows ∧
      (∀ row ∈ rows, row.PermutesWindows (2 ^ m) (2 ^ min le m)) ∧
      ∀ {α : Type} (x : List α), x.length = 2 ^ m →
        ∃ y, rows.foldlM applyRow x = .ok y ∧ benesPermMIApply pi le x = .ok y ∧
          benesPermApply pi x = .ok y := by
  obtain ⟨π, hπ, rfl⟩ := exists_below hpi
  obtain ⟨rows, hRows, hFits, hWire, hShape⟩ := benesPermMI_spec hle hπ
  refine ⟨rows, hRows, fun row hRow => ?_, fun {α} x hx => ?_⟩
  · have hAll : Set.InjOn (fun j => rows.foldr Row.wire j) (Set.Iio (2 ^ m)) := by
      intro i hi j hj hij
      refine π.injective ?_
      rw [← hWire i hi, ← hWire j hj]
      exact hij
    have hInj := foldr_injOn (fun row hRow j hj => row.wire_lt (hFits row hRow) hj) hAll row hRow
    cases row with
    | publicShuffle p => trivial
    | secretShuffles windows =>
      have hMem : (Row.secretShuffles windows).shape ∈ benesShapes m le :=
        hShape ▸ List.mem_map_of_mem hRow
      refine permutesWindows_of_injOn (Nat.two_pow_pos _) ?_ hInj (tiles_benesShapes _ hMem _ rfl)
      rw [← pow_add, Nat.sub_add_cancel (min_le_right le m)]
  · obtain ⟨X, rfl⟩ := exists_tab (Nat.two_pow_pos m) hx
    have hApply := benesPermMIApply_spec (X := X) hle hπ
    refine ⟨tab (2 ^ m) (X ∘ π), ?_, hApply, benesPermApply_spec hm hπ⟩
    rwa [benesPermMIApply, hRows, ok_bind, length_tab, length_tab, if_pos rfl] at hApply

/-- The theorem at the permutation `[2, 0, 3, 1]` with windows of two positions. -/
theorem benesPermMI_refines_four : ∃ rows, benesPermMI [2, 0, 3, 1] 1 = .ok rows ∧
    ∀ row ∈ rows, row.PermutesWindows 4 2 := by
  obtain ⟨rows, hRows, hWindows, -⟩ := benesPermMI_refines (show 1 ≤ 2 by decide) (Nat.le_refl 1)
    (show [2, 0, 3, 1].Perm (List.range (2 ^ 2)) by decide)
  exact ⟨rows, hRows, hWindows⟩

-- ---------------------------------------------------------------------------
-- What everyone may see
-- ---------------------------------------------------------------------------

/-- Rows that differ in the contents of secret windows at most. -/
inductive Row.SamePublic : Row → Row → Prop
  | publicShuffle (p : Shuffle) : Row.SamePublic (.publicShuffle p) (.publicShuffle p)
  | secretShuffles {ws vs : List (Nat × Shuffle)}
      (h : List.Forall₂ (fun w v => w.1 = v.1 ∧ w.2.entries.length = v.2.entries.length) ws vs) :
      Row.SamePublic (.secretShuffles ws) (.secretShuffles vs)

theorem Row.SamePublic.of_shape {r s : Row} (h : r.shape = s.shape) : r.SamePublic s := by
  cases r with
  | publicShuffle p =>
    cases s with
    | publicShuffle q =>
      have hEntries : p.entries = q.entries := RowShape.publicShuffle.inj h
      cases p
      cases q
      cases hEntries
      exact .publicShuffle _
    | secretShuffles vs => cases h
  | secretShuffles ws =>
    cases s with
    | publicShuffle q => cases h
    | secretShuffles vs =>
      have hWindows : (ws.map fun w => (w.1, w.2.entries.length)) =
        vs.map fun w => (w.1, w.2.entries.length) := RowShape.secretShuffles.inj h
      rw [← List.forall₂_eq_eq_eq, List.forall₂_map_left_iff, List.forall₂_map_right_iff]
        at hWindows
      exact .secretShuffles (hWindows.imp fun w v hEq => Prod.mk.inj hEq)

theorem Row.SamePublic.isPublicIdentity {r s : Row} (h : r.SamePublic s) :
    r.isPublicIdentity = s.isPublicIdentity := by
  cases h with
  | publicShuffle p => rfl
  | secretShuffles h => rfl

/-- `optimize` looks at public rows only. -/
theorem samePublic_optimize {rs ss : List Row} (h : List.Forall₂ Row.SamePublic rs ss) :
    List.Forall₂ Row.SamePublic (optimize rs) (optimize ss) := by
  rw [optimize_eq, optimize_eq]
  refine List.rel_filter (fun r s hrs => ?_) h
  show (!r.isPublicIdentity) = true ↔ (!s.isPublicIdentity) = true
  rw [hrs.isPublicIdentity]

/-- **The public part of a routing program is independent of the wiring**: the
optimized programs of two lists of positions have the same rows, but for the contents
of their secret windows, whatever the order of the unused positions. -/
theorem bdbFuncMI_samePublic {k le : Nat} (hle : 1 ≤ le) {f g : List Nat}
    (hf : f.length = 2 ^ k) (hfLt : ∀ a ∈ f, a < 2 ^ k) (hg : g.length = 2 ^ k)
    (hgLt : ∀ a ∈ g, a < 2 ^ k) (ordF ordG : Orders) :
    ∃ rf rg, bdbFuncMI ordF f le = .ok rf ∧ bdbFuncMI ordG g le = .ok rg ∧
      List.Forall₂ Row.SamePublic (optimize rf) (optimize rg) := by
  obtain ⟨F, rfl, hF⟩ := exists_tab_lt hf hfLt
  obtain ⟨G, rfl, hG⟩ := exists_tab_lt hg hgLt
  obtain ⟨rf, hRf, -, -, hShapeF⟩ := bdbFuncMI_spec ordF hle hF
  obtain ⟨rg, hRg, -, -, hShapeG⟩ := bdbFuncMI_spec ordG hle hG
  refine ⟨rf, rg, hRf, hRg, samePublic_optimize ?_⟩
  have hShapes := hShapeF.trans hShapeG.symm
  rw [← List.forall₂_eq_eq_eq, List.forall₂_map_left_iff, List.forall₂_map_right_iff] at hShapes
  exact hShapes.imp fun r s => Row.SamePublic.of_shape

/-- The theorem at `[2, 0, 2, 1]` and `[3, 3, 3, 3]`. -/
theorem bdbFuncMI_samePublic_four : ∃ rf rg,
    bdbFuncMI ⟨.stored Nat, .stored HLI⟩ [2, 0, 2, 1] 1 = .ok rf ∧
      bdbFuncMI ⟨.stored Nat, .stored HLI⟩ [3, 3, 3, 3] 1 = .ok rg ∧
      List.Forall₂ Row.SamePublic (optimize rf) (optimize rg) :=
  bdbFuncMI_samePublic (k := 2) (Nat.le_refl 1) rfl (by decide) rfl (by decide) _ _

end Obscure.Routing
