import Obscure.Clusterization.InitialGraph
import Obscure.Clusterization.Runs

/-!
# OBSCURE — do clustered nodes fit the secure element?

A node fits when its inputs, outputs and instructions are within the limits of
the configuration and the allocator gives out existing registers only. Merges
that went through `merge_score` produce nodes that fit. `merge_1_output_nodes`
never looks at the number of outputs of the node it makes, and the allocator
does not either: outputs are pinned from register `r - l_out` on, however many
there are.

* `clustering_fits_iff` — every node of every graph of a run fits exactly when
  the merges of the first phase make no node with too many outputs.
-/

namespace Obscure

open Lib

/-! ## Registers -/

/-- Every register in use or free is below `k`. -/
structure AllocState.Below (k : Nat) (st : AllocState) : Prop where
  regs_lt : ∀ m q, st.regs.lookup m = some q → q < k
  free_lt : ∀ q ∈ st.free, q < k

/-- A register that is given back is one of the `k`. -/
theorem AllocState.Below.freeRegisters {k : Nat} {ms : List Nat} {st st' : AllocState}
    (hBelow : st.Below k) (h : Obscure.freeRegisters ms st = .ok st') : st'.Below k := by
  induction ms generalizing st with
  | nil =>
    cases h
    exact hBelow
  | cons m ms ih =>
    rw [Obscure.freeRegisters] at h
    split at h
    · cases h
    · next r hr =>
      have hNext : AllocState.Below k { st with free := st.free.insert r } := by
        refine ⟨hBelow.regs_lt, fun q hq => ?_⟩
        rcases List.mem_insert_iff.mp hq with rfl | hq
        · exact hBelow.regs_lt m _ hr
        · exact hBelow.free_lt q hq
      exact ih hNext h

/-- A register that is handed out is one of the `k`. -/
theorem AllocState.Below.allocateNew {k : Nat} {ord : SetOrder Nat} {t : Nat} {ms : List Nat}
    {st st' : AllocState} (hBelow : st.Below k) (h : Obscure.allocateNew ord t ms st = .ok st') :
    st'.Below k := by
  induction ms generalizing st with
  | nil =>
    cases h
    exact hBelow
  | cons m ms ih =>
    rw [Obscure.allocateNew] at h
    split at h
    · exact ih hBelow h
    · split at h
      · cases h
      · next r free hPop =>
        have hPerm := SetOrder.pop_perm hPop
        refine ih ⟨fun m' q hq => ?_, fun q hq => ?_⟩ h
        · rw [lookup_cons_ite] at hq
          split at hq
          · obtain rfl := Option.some.inj hq
            exact hBelow.free_lt _ (hPerm.mem_iff.mp List.mem_cons_self)
          · exact hBelow.regs_lt m' q hq
        · exact hBelow.free_lt q (hPerm.mem_iff.mp (List.mem_cons_of_mem _ hq))

/-- The allocator stays below `k`, by induction along the sequence. -/
theorem AllocState.Below.allocate {k : Nat} {ord : SetOrder Nat} {births deaths : Events}
    {i n : Nat} {st st' : AllocState} (hBelow : st.Below k)
    (h : Obscure.allocate ord births deaths i n st = .ok st') : st'.Below k := by
  induction n generalizing i st with
  | zero =>
    cases h
    exact hBelow
  | succ n ih =>
    rw [Obscure.allocate] at h
    split at h
    · cases h
    · next st₁ hFree =>
      split at h
      · cases h
      · next st₂ hNew => exact ih ((hBelow.freeRegisters hFree).allocateNew hNew) h

/-- The inputs have the registers from `idx` on. -/
theorem lookup_mapInputs_lt {used ins : List Nat} {idx k : Nat} {regs : RegMap}
    (hRegs : ∀ m q, regs.lookup m = some q → q < k) (hFit : idx + ins.length ≤ k) :
    ∀ m q, (mapInputs used idx ins regs).lookup m = some q → q < k := by
  induction ins generalizing idx regs with
  | nil => exact hRegs
  | cons i ins ih =>
    rw [List.length_cons] at hFit
    rw [mapInputs]
    split
    · refine ih (fun m q hq => ?_) (by omega)
      rw [lookup_cons_ite] at hq
      split at hq
      · obtain rfl := Option.some.inj hq
        omega
      · exact hRegs m q hq
    · exact ih hRegs (by omega)

/-- The outputs have the registers from `first` on. -/
theorem lookup_mapOutputs_lt {outs : List Nat} {first k : Nat} {regs : RegMap}
    (hRegs : ∀ m q, regs.lookup m = some q → q < k) (hFit : first + outs.length ≤ k) :
    ∀ m q, (mapOutputs first outs regs).lookup m = some q → q < k := by
  induction outs generalizing first regs with
  | nil => exact hRegs
  | cons o outs ih =>
    rw [List.length_cons] at hFit
    rw [mapOutputs]
    refine ih (fun m q hq => ?_) (by omega)
    rw [lookup_cons_ite] at hq
    split at hq
    · obtain rfl := Option.some.inj hq
      omega
    · exact hRegs m q hq

/-- The allocator stays below `k` when its inputs and outputs do. -/
theorem getRegistersMapping_lt {ord : SetOrder Nat} {seq : List HLI} {inputs outputs : List Nat}
    {k maxOut : Nat} (hMax : maxOut ≤ k) (hIn : inputs.length ≤ k)
    (hOut : outputs.length ≤ maxOut) {regs : RegMap}
    (h : getRegistersMapping ord seq inputs outputs k maxOut = .ok regs) :
    ∀ m q, regs.lookup m = some q → q < k := by
  rw [getRegistersMapping] at h
  split at h
  next births deaths _ =>
  have hInit : (allocInit seq inputs outputs k maxOut).Below k := by
    refine ⟨?_, fun q hq => ?_⟩
    · refine lookup_mapOutputs_lt (lookup_mapInputs_lt ?_ (by omega)) (by omega)
      intro m q hq
      cases hq
    · have := List.mem_range'_1.mp hq
      omega
  cases hAlloc : allocate ord births deaths 0 seq.length
      (allocInit seq inputs outputs k maxOut) with
  | error e =>
    rw [hAlloc] at h
    cases h
  | ok st =>
    rw [hAlloc] at h
    cases h
    exact (hInit.allocate hAlloc).regs_lt

/-! ## Fitting -/

/-- The node can be given to the secure element. -/
structure MLMI.Fits (cfg : SEConfig) (n : MLMI) : Prop where
  inputs_le : n.inputs.length ≤ cfg.lIn
  outputs_le : n.outputs.length ≤ cfg.lOut
  seq_le : n.seq.length ≤ cfg.s
  registers_lt : ∀ ord regs,
    getRegistersMapping ord n.seq n.loweredInputs n.outputs cfg.r cfg.lOut = .ok regs →
      ∀ m q, regs.lookup m = some q → q < cfg.r

/-- Every node of the graph fits. -/
def DFG.Fits (cfg : SEConfig) (g : DFG) : Prop := ∀ n ∈ g.nodes, (g.mlmi n).Fits cfg

/-- The registers are no condition of their own. -/
theorem fits_of_counts {cfg : Config} (hAcc : cfg.Accepted) (hIn : 3 ≤ cfg.lIn) {n : MLMI}
    (hInputs : n.inputs.length ≤ cfg.lIn) (hOutputs : n.outputs.length ≤ cfg.lOut)
    (hSeq : n.seq.length ≤ cfg.s) : n.Fits cfg.toSEConfig := by
  obtain ⟨hRegs, -, -⟩ := hAcc
  refine ⟨hInputs, hOutputs, hSeq, fun ord regs h => ?_⟩
  refine getRegistersMapping_lt (by omega) ?_ hOutputs h
  unfold MLMI.loweredInputs
  split
  · rw [List.length_singleton]
    omega
  · omega

/-! ## Fitting along a run -/

/-- A merge makes a node with at most `l_out` outputs. -/
def MergeStep.OutputsFit (cfg : SEConfig) (e : MergeStep) : Prop :=
  ∀ ord outputs, e.graph.computeMergedOutputs ord e.n1 e.n2 = .ok outputs →
    outputs.length ≤ cfg.lOut

section Limits

variable {cfg : Config} {hlir : HLIRProgram} {g g' : DFG}

/-- One instruction fits when an output does. -/
theorem fits_start (hAcc : cfg.Accepted) (hIn : 3 ≤ cfg.lIn)
    (h : DFG.buildGraph (initialConvertionToMLIR hlir) = .ok g) :
    g.Fits cfg.toSEConfig ↔ hlir.instrs = [] ∨ 1 ≤ cfg.lOut := by
  constructor
  · intro hFits
    by_cases hInstrs : hlir.instrs = []
    · exact Or.inl hInstrs
    · obtain ⟨n, hn⟩ := DFG.buildGraph_nonempty h hInstrs
      obtain ⟨hli, -, hEq⟩ := DFG.buildGraph_node h hn
      have := (hFits n hn).outputs_le
      rw [hEq] at this
      exact Or.inr this
  · intro hOne n hn
    obtain ⟨hli, hGet, hEq⟩ := DFG.buildGraph_node h hn
    have hOut : 1 ≤ cfg.lOut := by
      refine hOne.resolve_left fun hNil => ?_
      rw [hNil] at hGet
      cases hGet
    have hSrcs : hli.memInputs.length ≤ 3 := List.length_filterMap_le _ hli.srcs
    have hS := hAcc.2.1
    rw [hEq]
    refine fits_of_counts hAcc hIn (le_trans hSrcs hIn) hOut ?_
    show 1 ≤ cfg.s
    omega

/-- A merge keeps every node fitting, if the new node has few enough outputs. -/
theorem fits_merge (hAcc : cfg.Accepted) (hIn : 3 ≤ cfg.lIn) {n1 n2 new fuel fuel' : Nat}
    {ord ord' ord'' : Orders} {mls : List HLI} (check : MergeCheck)
    (hSeq : (g.mlmi n1).seq.length + (g.mlmi n2).seq.length ≤ cfg.s)
    (hInputs : (g.mergedInputSet n1 n2).length ≤ cfg.lIn)
    (hInstrs : g.computeMergedInstrs ord fuel n1 n2 (g.computeMergedInputs ord' n1 n2) = .ok mls)
    (hMerge : g.mergeNodes ord'' fuel' n1 n2 (some mls) = .ok (new, g'))
    (hFits : g.Fits cfg.toSEConfig) :
    g'.Fits cfg.toSEConfig ↔ MergeStep.OutputsFit cfg.toSEConfig ⟨check, g, n1, n2⟩ := by
  obtain ⟨outputs, hOutputs, hReplace⟩ := DFG.mergeNodes_some_ok hMerge
  obtain ⟨-, hReplaced⟩ := DFG.replaceNodes_ok hReplace
  have hNodes := hReplaced.nodes_eq
  have hMlmi := hReplaced.mlmi_eq
  have hNew : g'.mlmi g.fresh = ⟨mls, g.computeMergedInputs (ord''.fork 0) n1 n2, outputs⟩ := by
    rw [hMlmi, Function.update_self]
  constructor
  · intro hFits' ord₁ outputs₁ h₁
    have hMem : g.fresh ∈ g'.nodes := by
      rw [hNodes]
      exact List.mem_insert_self
    have := (hFits' g.fresh hMem).outputs_le
    rw [hNew] at this
    rw [DFG.computeMergedOutputs_length h₁ hOutputs]
    exact this
  · intro hOut n hn
    by_cases hEq : n = g.fresh
    · subst hEq
      rw [hNew]
      refine fits_of_counts hAcc hIn ?_ (hOut _ _ hOutputs) ?_
      · show (g.computeMergedInputs _ n1 n2).length ≤ cfg.lIn
        rw [DFG.computeMergedInputs, Orders.length_list]
        exact hInputs
      · have hPerm := (DFG.computeMergedInstrs_ok hInstrs).1
        have hDedup := (List.dedup_sublist ((g.mlmi n1).seq ++ (g.mlmi n2).seq)).length_le
        rw [List.length_append] at hDedup
        show mls.length ≤ cfg.s
        rw [hPerm.length_eq]
        omega
    · rw [hMlmi, Function.update_of_ne hEq]
      rw [hNodes, List.mem_insert_iff] at hn
      exact hFits n (List.mem_of_mem_erase (List.mem_of_mem_erase (hn.resolve_left hEq)))

/-- A merge of a run keeps every node fitting, unless the first phase makes too
many outputs. -/
theorem fits_mergedBy (hAcc : cfg.Accepted) (hIn : 3 ≤ cfg.lIn) {check : MergeCheck} {n1 n2 : Nat}
    (hMerge : MergedBy cfg check g n1 n2 g') (hFits : g.Fits cfg.toSEConfig) :
    g'.Fits cfg.toSEConfig ↔ (check = .shouldMergeWithNext →
      MergeStep.OutputsFit cfg.toSEConfig ⟨check, g, n1, n2⟩) := by
  cases hMerge with
  | oneOutput hShould hMerge =>
    obtain ⟨-, hInputs, hSeq, hInstrs⟩ := shouldMergeWithNext_ok hShould
    have hStep := fits_merge hAcc hIn .shouldMergeWithNext hSeq hInputs hInstrs hMerge hFits
    exact hStep.trans ⟨fun h _ => h, fun h => h rfl⟩
  | scored hScore hMerge =>
    obtain ⟨-, hNone⟩ | ⟨mls', hMls, hOk⟩ := mergeScore_ok hScore
    · cases hNone
    cases hMls
    have hStep := fits_merge hAcc hIn .mergeScore hOk.seq_le hOk.inputs_le hOk.instrs_eq hMerge
      hFits
    -- this merge was checked
    obtain ⟨outputs, hOutputs, hLe⟩ := hOk.outputs_le
    have hChecked : MergeStep.OutputsFit cfg.toSEConfig ⟨.mergeScore, g, n1, n2⟩ := by
      intro ord₁ outputs₁ h₁
      rw [DFG.computeMergedOutputs_length h₁ hOutputs]
      exact hLe
    exact ⟨fun _ hCheck => MergeCheck.noConfusion hCheck, fun _ => hStep.mpr hChecked⟩

/-- Every node of every graph of a run fits, the start included. -/
def RunFits (cfg : SEConfig) (log : List MergeStep) (g : DFG) : Prop :=
  g.Fits cfg ∧ ∀ e ∈ log, e.graph.Fits cfg

/-- **When clustered nodes fit.** `clusterize` returns the last graph of a run;
in a run all nodes fit at all times exactly when a single instruction does and
no merge of the first phase makes a node with more than `l_out` outputs. -/
theorem clustering_fits_iff (hAcc : cfg.Accepted) (hIn : 3 ≤ cfg.lIn) (hlir : HLIRProgram) :
    (∀ ord fuel g, clusterize ord fuel cfg hlir = .ok g → ∃ log, Clustering cfg hlir log g) ∧
      ∀ log g, Clustering cfg hlir log g → (RunFits cfg.toSEConfig log g ↔
        (hlir.instrs = [] ∨ 1 ≤ cfg.lOut) ∧
          ∀ e ∈ log, e.check = .shouldMergeWithNext → e.OutputsFit cfg.toSEConfig) := by
  refine ⟨fun ord fuel g h => clusterize_run h, fun log g hRun => ?_⟩
  induction hRun with
  | start h =>
    simpa [RunFits] using fits_start hAcc hIn h
  | @merge log g g' check n1 n2 hRun hMerge ih =>
    have hStep := fits_mergedBy hAcc hIn hMerge
    rw [RunFits, List.forall_mem_cons, List.forall_mem_cons]
    constructor
    · rintro ⟨hg', hg, hLog⟩
      obtain ⟨hStart, hEarlier⟩ := ih.mp ⟨hg, hLog⟩
      exact ⟨hStart, (hStep hg).mp hg', hEarlier⟩
    · rintro ⟨hStart, hLast, hEarlier⟩
      obtain ⟨hg, hLog⟩ := ih.mpr ⟨hStart, hEarlier⟩
      exact ⟨(hStep hg).mpr hLast, hg, hLog⟩

end Limits

/-! ## A chain of returned values -/

/-- `m[i + 1] = m[i] + 1` nine times, and every value is returned. -/
def chainProgram : HLIRProgram where
  instrs := (List.range 9).map fun i =>
    { opcode := .ADD, dst := i + 1, src1 := some (.loc i), src2 := some (.imm 1) }
  inputs := [0]
  outputs := [1, 2, 3, 4, 5, 6, 7, 8, 9]
  memoryCount := 10

/-- `SE_SMALL` with the default options. -/
def smallConfig : Config where
  toSEConfig := seSmall
  width := 0
  depth := 0
  simpleClusterizer := false
  fast := true

/-- All nine instructions end up in one node, with nine outputs. -/
theorem clusterize_chainProgram :
    ∃ g n, clusterize storedOrders 20 smallConfig chainProgram = .ok g ∧ n ∈ g.nodes ∧
      (g.mlmi n).outputs.length = 9 := by
  have hRun : (clusterize storedOrders 20 smallConfig chainProgram).map (fun g =>
      g.nodes.map fun n => (g.mlmi n).outputs.length) = .ok [9] := by decide +kernel
  cases h : clusterize storedOrders 20 smallConfig chainProgram with
  | error e =>
    rw [h] at hRun
    cases hRun
  | ok g =>
    rw [h] at hRun
    have hNodes : (g.nodes.map fun n => (g.mlmi n).outputs.length) = [9] := Except.ok.inj hRun
    obtain ⟨n, hn, hLen⟩ := List.mem_map.mp (hNodes ▸ List.mem_singleton_self 9)
    exact ⟨g, n, rfl, hn, hLen⟩

/-- The chain is in SSA, and one of its nodes has an output too many. -/
theorem chainProgram_overflows :
    smallConfig.Accepted ∧ 3 ≤ smallConfig.lIn ∧ (defs chainProgram.instrs).Nodup ∧
      (∀ m ∈ chainProgram.inputs, m ∉ defs chainProgram.instrs) ∧
      DefBeforeUse chainProgram.instrs ∧
      ∃ g, clusterize storedOrders 20 smallConfig chainProgram = .ok g ∧
        ¬ ∀ n ∈ g.nodes, (g.mlmi n).inputs.length ≤ smallConfig.lIn ∧
          (g.mlmi n).outputs.length ≤ smallConfig.lOut ∧ (g.mlmi n).seq.length ≤ smallConfig.s := by
  obtain ⟨g, n, hRun, hn, hLen⟩ := clusterize_chainProgram
  refine ⟨by decide, by decide, by decide, by decide, ?_, g, hRun, fun hAll => ?_⟩
  · exact defBeforeUse_iff.mpr (by decide)
  · have hLe : 9 ≤ 8 := hLen ▸ (hAll n hn).2.1
    omega

/-- The first two instructions of the chain. -/
def shortChain : HLIRProgram where
  instrs := chainProgram.instrs.take 2
  inputs := [0]
  outputs := [1, 2]
  memoryCount := 3

/-- The first phase merges the two nodes into one with two outputs. -/
theorem shortChain_merged :
    ∃ g g', Clustering smallConfig shortChain [⟨.shouldMergeWithNext, g, 0, 1⟩] g' ∧
      MergeStep.OutputsFit seSmall ⟨.shouldMergeWithNext, g, 0, 1⟩ := by
  have hCheck : (do
      let g ← DFG.buildGraph (initialConvertionToMLIR shortChain)
      let found ← shouldMergeWithNext storedOrders 20 smallConfig g 0
      found.elim (.error .valueError) fun pair => do
        let _ ← g.mergeNodes storedOrders 20 0 pair.1 (some pair.2)
        let outputs ← g.computeMergedOutputs storedOrders 0 pair.1
        return (pair.1, outputs.length)) = .ok (1, 2) := by
    decide +kernel
  obtain ⟨g, hBuild, hCheck⟩ := bind_eq_ok.mp hCheck
  obtain ⟨_ | ⟨next, mls⟩, hShould, hCheck⟩ := bind_eq_ok.mp hCheck
  · cases hCheck
  obtain ⟨⟨new, g'⟩, hMerge, hCheck⟩ := bind_eq_ok.mp hCheck
  obtain ⟨outputs, hOutputs, hCheck⟩ := bind_eq_ok.mp hCheck
  obtain ⟨rfl, hLen⟩ := Prod.mk.inj (Except.ok.inj hCheck)
  refine ⟨g, g', .merge (.start hBuild) (.oneOutput hShould hMerge), fun ord outs hOuts => ?_⟩
  rw [DFG.computeMergedOutputs_length hOuts hOutputs, hLen]
  decide

/-- The run over the long chain has a first-phase merge that makes too many outputs; in the one over
its first two instructions there is such a merge as well, and everything fits. -/
theorem chainProgram_runs :
    (∃ log g, Clustering smallConfig chainProgram log g ∧
      ¬ ∀ e ∈ log, e.check = .shouldMergeWithNext → e.OutputsFit seSmall) ∧
    ∃ g g', Clustering smallConfig shortChain [⟨.shouldMergeWithNext, g, 0, 1⟩] g' ∧
      RunFits seSmall [⟨.shouldMergeWithNext, g, 0, 1⟩] g' := by
  constructor
  · obtain ⟨g, n, hRun, hn, hLen⟩ := clusterize_chainProgram
    obtain ⟨hReached, hIff⟩ := clustering_fits_iff
      (show smallConfig.Accepted by decide) (by decide) chainProgram
    obtain ⟨log, hLog⟩ := hReached _ _ _ hRun
    refine ⟨log, g, hLog, fun hFit => ?_⟩
    have hLe := (((hIff log g hLog).mpr ⟨Or.inr (by decide), hFit⟩).1 n hn).outputs_le
    rw [hLen] at hLe
    exact absurd hLe (by decide)
  · obtain ⟨g, g', hRun, hFit⟩ := shortChain_merged
    refine ⟨g, g', hRun, ((clustering_fits_iff (show smallConfig.Accepted by decide) (by decide)
      shortChain).2 _ g' hRun).mpr ⟨Or.inr (by decide), fun e he _ => ?_⟩⟩
    rw [List.mem_singleton.mp he]
    exact hFit

end Obscure
