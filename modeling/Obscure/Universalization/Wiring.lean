import Obscure.Routing.Apply
import Obscure.Universalization.Universalizer

/-!
# OBSCURE — the routing networks realise every wiring

`add_permutation` runs a list of positions through the network beside the real
operands, and raises when the list is not what the network was built for. Each
row moves the check as `canononical_run` does, so the comparison never fails.

* `bdb_realises_wiring` — `BDBFunc`, `BDBFuncMI` and the optimized rows all route
  `f`, and the exception of `add_permutation` is unreachable.
-/

namespace Obscure

open Lib Routing

-- ---------------------------------------------------------------------------
-- Other exceptions
-- ---------------------------------------------------------------------------

/-- A wrong index is no `RuntimeError`. -/
theorem gather_ne_runtimeError {α : Type} (idx : List Nat) (xs : List α) :
    gather idx xs ≠ .error .runtimeError := by
  refine mapM_ne_error fun i => ?_
  split <;> simp

/-- Nor is a location without a node. -/
theorem defNode_ne_runtimeError (g : DFG) (m : Nat) : g.defNode m ≠ .error .runtimeError := by
  unfold DFG.defNode
  split <;> simp

/-- Nor is what can go wrong in a window. -/
theorem applySecretPerm_ne_runtimeError (st : Wires) (window : Nat × Shuffle) :
    applySecretPerm st window ≠ .error .runtimeError := by
  unfold applySecretPerm
  exact bind_ne_error (gather_ne_runtimeError _ _) fun _ _ =>
    bind_ne_error (gather_ne_runtimeError _ _) fun _ _ => nofun

/-- Nor in a row. -/
theorem routeRow_ne_runtimeError (st : Wires × List (List Nat)) (row : Row) :
    routeRow st row ≠ .error .runtimeError := by
  cases row with
  | publicShuffle p =>
    exact bind_ne_error (gather_ne_runtimeError _ _) fun _ _ =>
      bind_ne_error (gather_ne_runtimeError _ _) fun _ _ => nofun
  | secretShuffles windows =>
    exact bind_ne_error (foldlM_ne_error (fun w _ st => applySecretPerm_ne_runtimeError st w) _)
      fun _ _ => nofun

/-- Nor when a node is connected. -/
theorem connectNode_ne_runtimeError (inputs : List (Operand Nat)) (st : DFG × Nat) (node : Nat) :
    connectNode inputs st node ≠ .error .runtimeError := by
  unfold connectNode
  refine bind_ne_error (mapM_ne_error fun i => ?_) fun new _ =>
    bind_ne_error (foldlM_ne_error (fun m _ g => ?_) _) fun _ _ => nofun
  · unfold wireAt
    split <;> simp
  · exact bind_ne_error (defNode_ne_runtimeError g m) fun _ _ => nofun

-- ---------------------------------------------------------------------------
-- The check
-- ---------------------------------------------------------------------------

/-- As many entries as indices. -/
theorem length_gather {α : Type} {idx : List Nat} {xs ys : List α} (h : gather idx xs = .ok ys) :
    ys.length = idx.length := by
  induction idx generalizing ys with
  | nil =>
    cases h
    rfl
  | cons i idx ih =>
    rw [gather, List.mapM_cons] at h
    obtain ⟨a, -, h⟩ := bind_eq_ok.mp h
    obtain ⟨as, hRest, h⟩ := bind_eq_ok.mp h
    cases h
    rw [List.length_cons, List.length_cons, ih hRest]

/-- A window moves the check as `canononical_run` moves its list. -/
theorem applySecretPerm_checker {st st' : Wires} {window : Nat × Shuffle}
    (h : applySecretPerm st window = .ok st') :
    runWindow st.inputsChecker window = .ok st'.inputsChecker := by
  obtain ⟨srcs, -, h⟩ := bind_eq_ok.mp h
  obtain ⟨checked, hChecked, h⟩ := bind_eq_ok.mp h
  cases h
  have hLen := length_gather hChecked
  rw [List.length_map] at hLen
  rw [runWindow, hChecked, ok_bind]
  simp only [overwrite, hLen]
  rfl

/-- A row moves the check as `canononical_run` moves its list. -/
theorem routeRow_checker {st st' : Wires × List (List Nat)} {row : Row}
    (h : routeRow st row = .ok st') : row.run st.1.inputsChecker = .ok st'.1.inputsChecker := by
  cases row with
  | publicShuffle p =>
    obtain ⟨inputs, -, h⟩ := bind_eq_ok.mp h
    obtain ⟨checker, hChecker, h⟩ := bind_eq_ok.mp h
    cases h
    exact hChecker
  | secretShuffles windows =>
    obtain ⟨wires, hFold, h⟩ := bind_eq_ok.mp h
    cases h
    have hRun := foldlM_map_ok (f := Wires.inputsChecker)
      (fun _ _ _ h => applySecretPerm_checker h) hFold
    exact hRun

/-- The check of the wires runs the program on its own. -/
theorem routeProgram_checker {st st' : Wires × List (List Nat)} {program : List Row}
    (h : program.foldlM routeRow st = .ok st') :
    runProgram program st.1.inputsChecker = .ok st'.1.inputsChecker :=
  foldlM_map_ok (f := fun st : Wires × List (List Nat) => st.1.inputsChecker)
    (fun _ _ _ h => routeRow_checker h) h

-- ---------------------------------------------------------------------------
-- The size of the network
-- ---------------------------------------------------------------------------

/-- `perm_layer_size` is the next power of two. -/
theorem permLayerSize_ok {n size : Nat} (h : permLayerSize n = .ok size) :
    n ≤ size ∧ ∃ m, size = 2 ^ m := by
  unfold permLayerSize at h
  split at h
  · cases h
  · next hn =>
    split at h
    · next hPow =>
      cases h
      exact ⟨le_rfl, _, hPow.symm⟩
    · cases h
      have := Nat.lt_pow_succ_log_self (b := 2) (by decide) n
      rw [Nat.succ_eq_add_one, Nat.add_comm] at this
      exact ⟨this.le, _, rfl⟩

/-- The dictionary of positions. -/
theorem getElem?_of_lookup_zipIdx {inputs : List Nat} {m i : Nat}
    (h : inputs.zipIdx.reverse.lookup m = some i) : inputs[i]? = some m := by
  obtain ⟨pre, post, hSplit, -⟩ := List.lookup_eq_some_iff.mp h
  have hMem : (m, i) ∈ inputs.zipIdx.reverse := by simp [hSplit]
  rw [List.mem_reverse] at hMem
  exact List.mk_mem_zipIdx_iff_getElem?.mp hMem

/-- Targets are positions of the operands before the network. -/
theorem targetsOf_lt {inputs outputs targets : List Nat}
    (h : targetsOf inputs outputs = .ok targets) :
    targets.length = outputs.length ∧ ∀ t ∈ targets, t < inputs.length := by
  induction outputs generalizing targets with
  | nil =>
    cases h
    simp
  | cons m outputs ih =>
    rw [targetsOf, List.mapM_cons] at h
    obtain ⟨t, ht, h⟩ := bind_eq_ok.mp h
    obtain ⟨ts, hts, h⟩ := bind_eq_ok.mp h
    cases h
    obtain ⟨hLen, hLt⟩ := ih hts
    refine ⟨by rw [List.length_cons, List.length_cons, hLen], fun x hx => ?_⟩
    rcases List.mem_cons.mp hx with rfl | hx
    · split at ht
      · next i hi =>
        cases ht
        exact (List.getElem?_eq_some_iff.mp (getElem?_of_lookup_zipIdx hi)).1
      · cases ht
    · exact hLt x hx

/-- A missing position is no `RuntimeError`. -/
theorem targetsOf_ne_runtimeError (inputs outputs : List Nat) :
    targetsOf inputs outputs ≠ .error .runtimeError := by
  refine mapM_ne_error fun m => ?_
  split <;> simp

/-- Nor is a layer without outputs. -/
theorem permLayerSize_ne_runtimeError (n : Nat) : permLayerSize n ≠ .error .runtimeError := by
  unfold permLayerSize
  split
  · simp
  · split <;> simp

-- ---------------------------------------------------------------------------
-- The comparison never fails
-- ---------------------------------------------------------------------------

section Compiled

variable {m le : Nat} {f : List Nat}

/-- Whatever else happens, the check ends as the list the network was compiled
for. -/
theorem routeProgram_check (ord : Orders) (hLen : f.length = 2 ^ m) (hf : ∀ a ∈ f, a < 2 ^ m)
    {program : List Row} (hProgram : bdbFuncMI ord f le = .ok program)
    {st st' : Wires × List (List Nat)} (hStart : st.1.inputsChecker = List.range (2 ^ m))
    (h : (optimize program).foldlM routeRow st = .ok st') : f = st'.1.inputsChecker := by
  obtain ⟨F, rfl, hF⟩ := exists_tab_lt hLen hf
  have hle : 0 < le := by
    rcases Nat.eq_zero_or_pos le with rfl | hle
    · cases hProgram
    · exact hle
  obtain ⟨rows, hRows, hRun⟩ := bdbProgram_spec (X := id) ord hle hF
  rw [hProgram] at hRows
  cases hRows
  have hChecker := routeProgram_checker h
  rw [hStart, show List.range (2 ^ m) = tab (2 ^ m) id by simp [tab], hRun] at hChecker
  exact Except.ok.inj hChecker

/-- The generator of the network raises none. -/
theorem bdbFuncMI_ne_runtimeError (ord : Orders) (hLen : f.length = 2 ^ m)
    (hf : ∀ a ∈ f, a < 2 ^ m) : bdbFuncMI ord f le ≠ .error .runtimeError := by
  obtain ⟨F, rfl, hF⟩ := exists_tab_lt hLen hf
  rcases Nat.eq_zero_or_pos le with rfl | hle
  · exact nofun
  · obtain ⟨rows, hRows, -⟩ := bdbFuncMI_spec ord hle hF
    rw [hRows]
    exact nofun

end Compiled

/-- The only `RuntimeError` of `add_permutation` is the check, and it is never raised. -/
theorem routeLayers_ne_runtimeError (ord : Orders) (cfg : Config) (g : DFG)
    (before after : List Nat) : routeLayers ord cfg g before after ≠ .error .runtimeError := by
  refine bind_ne_error (permLayerSize_ne_runtimeError _) fun size hSize =>
    bind_ne_error (targetsOf_ne_runtimeError _ _) fun targets hTargets => ?_
  obtain ⟨hLe, m, rfl⟩ := permLayerSize_ok hSize
  obtain ⟨hLen, hLt⟩ := targetsOf_lt hTargets
  have hIn := le_trans (le_max_left _ _) hLe
  have hOut := le_trans (le_max_right _ _) hLe
  rw [← hLen] at hOut
  -- the padded targets are a table of positions of the network
  set permOutputs := targets ++ List.replicate (2 ^ m - targets.length) 0 with hPerm
  have hPermLen : permOutputs.length = 2 ^ m := by
    rw [hPerm, List.length_append, List.length_replicate]
    omega
  have hPermLt : ∀ a ∈ permOutputs, a < 2 ^ m := by
    intro a ha
    rcases List.mem_append.mp ha with ha | ha
    · exact lt_of_lt_of_le (hLt a ha) hIn
    · rw [List.eq_of_mem_replicate ha]
      exact Nat.two_pow_pos m
  refine bind_ne_error (bdbFuncMI_ne_runtimeError ord hPermLen hPermLt) fun program hProgram =>
    bind_ne_error (foldlM_ne_error (fun row _ st => routeRow_ne_runtimeError st row) _)
      fun st hRoute => ?_
  have hCheck := routeProgram_check ord hPermLen hPermLt hProgram ?_ hRoute
  · show (if permOutputs ≠ st.1.inputsChecker then _ else _) ≠ _
    rw [if_neg (not_not.mpr hCheck)]
    exact bind_ne_error
      (foldlM_ne_error (fun node _ st => connectNode_ne_runtimeError _ st node) _) fun _ _ => nofun
  · refine congrArg List.range ?_
    rw [List.length_append, List.length_map, List.length_replicate]
    omega

/-- `add_permutation` never finds an error in the permutation. -/
theorem addPermutation_ne_runtimeError (ord : Orders) (cfg : Config) (g : DFG)
    (layers : List (List Nat)) : addPermutation ord cfg g layers ≠ .error .runtimeError := by
  cases layers with
  | nil => exact nofun
  | cons first rest =>
    refine bind_ne_error (foldlM_ne_error (fun after _ st => ?_) _) fun _ _ => nofun
    exact bind_ne_error (routeLayers_ne_runtimeError _ _ _ _ _) fun _ _ => nofun

/-- **The routing compiler realises every wiring**, whatever values it routes and
whatever the order of the unused positions. The rows give the same list when
`canononical_run` runs them, and when `add_permutation` runs its check along. -/
theorem bdb_realises_wiring {k le : Nat} (hk : 1 ≤ k) (hle : 1 ≤ le) {f : List Nat}
    (hLen : f.length = 2 ^ k) (hf : ∀ a ∈ f, a < 2 ^ k) {α : Type} (x : List α)
    (hx : x.length = 2 ^ k) (ord ordMI : Orders) :
    (∃ y, bdbFuncApply ord f x = .ok y ∧ bdbFuncMIApply ordMI f le x = .ok y ∧
      (∃ rows, bdbFuncMI ordMI f le = .ok rows ∧ runProgram (optimize rows) x = .ok y ∧
        ∀ st st', st.1.inputsChecker = List.range (2 ^ k) →
          (optimize rows).foldlM routeRow st = .ok st' → st'.1.inputsChecker = f) ∧
      y.length = 2 ^ k ∧ ∀ i < 2 ^ k, y[i]? = f[i]?.bind fun a => x[a]?) ∧
    ∀ cfg g layers, addPermutation ordMI cfg g layers ≠ .error .runtimeError := by
  refine ⟨?_, fun cfg g layers => addPermutation_ne_runtimeError ordMI cfg g layers⟩
  obtain ⟨F, rfl, hF⟩ := exists_tab_lt hLen hf
  obtain ⟨X, rfl⟩ := exists_tab (Nat.two_pow_pos k) hx
  obtain ⟨rows, hRows, hRun⟩ := bdbProgram_spec (X := X) ordMI hle hF
  refine ⟨tab (2 ^ k) (X ∘ F), bdbFuncApply_spec ord hk hF, bdbFuncMIApply_spec ordMI hk hle hF,
    ⟨rows, hRows, hRun, fun st st' hStart h => ?_⟩, length_tab _ _, fun i hi => ?_⟩
  · exact (routeProgram_check ordMI hLen hf hRows hStart h).symm
  · rw [getElem?_tab hi, getElem?_tab hi, Option.bind_some, getElem?_tab (hF i hi)]
    rfl

/-- The theorem at `f = [2, 0, 2, 1]`. -/
theorem bdb_realises_reuse : ∃ y,
    bdbFuncMIApply ⟨.stored Nat, .stored HLI⟩ [2, 0, 2, 1] 1 ["a", "b", "c", "d"] = .ok y ∧
      y.length = 4 ∧ y[2]? = some "c" := by
  obtain ⟨⟨y, -, hMI, -, hLen, hAt⟩, -⟩ := bdb_realises_wiring (show 1 ≤ 2 by decide)
    (Nat.le_refl 1) (f := [2, 0, 2, 1]) rfl (by decide) ["a", "b", "c", "d"] rfl
    ⟨.stored Nat, .stored HLI⟩ ⟨.stored Nat, .stored HLI⟩
  exact ⟨y, hMI, hLen, hAt 2 (by decide)⟩

end Obscure
