import Obscure.Lowering.Reveal
import Obscure.Universalization.Meaning

/-!
# OBSCURE — what is revealed with universalization

The clusters go through `universalize` before they are lowered. Program outputs are then given
out by the final layer alone, which `propagate_outputs_to_last_layer` adds; neither the padding
nor the networks take anything from it.

* `clusterize_ready`     — `universalize` can be called on what `clusterize` returns;
* `revealsLayer_of_finished` — the last layer of the final graph holds the outputs;
* `universalize_reveals` — from the program to the multi-instructions.
-/

namespace Obscure

open Lib

-- ---------------------------------------------------------------------------
-- From the clusters on
-- ---------------------------------------------------------------------------

/-- Cells as the frontend numbers them: all below the counter, and every output there. -/
structure HLIRProgram.Numbered (ir : HLIRProgram) : Prop where
  inputs_lt : ∀ m ∈ ir.inputs, m < ir.memoryCount
  defs_lt : ∀ m ∈ defs ir.instrs, m < ir.memoryCount
  outputs_from : ∀ m ∈ ir.outputs, m ∈ ir.inputs ∨ m ∈ defs ir.instrs

/-- What merging keeps of the lists of the initial graph. -/
structure DFG.Neat (ir : HLIRProgram) (g : DFG) : Prop where
  progInputs_nodup : g.progInputs.Nodup
  memoryCount_eq : g.memoryCount = ir.memoryCount
  outputs_nodup : ∀ n ∈ g.nodes, (g.mlmi n).outputs.Nodup
  inputs_nodup : ∀ n ∈ g.nodes, (g.mlmi n).inputs.Nodup ∨
    ∀ x ∈ (g.mlmi n).seq, x.dst ∈ (g.mlmi n).outputs

section Clusters

variable {cfg : Config} {ir : HLIRProgram} {g g' : DFG}

/-- Merging makes no locations. -/
theorem replaceNodes_memoryCount {n1 n2 k : Nat} {new : MLMI}
    (h : g.replaceNodes n1 n2 new = .ok (k, g')) : g'.memoryCount = g.memoryCount := by
  obtain ⟨_, -, h⟩ := bind_eq_ok.mp h
  obtain ⟨_, -, h⟩ := bind_eq_ok.mp h
  obtain ⟨_, -, h⟩ := bind_eq_ok.mp h
  obtain ⟨_, -, h⟩ := bind_eq_ok.mp h
  cases h
  rfl

/-- A merge keeps the numbering. -/
theorem DFG.Neat.mergeNodes (h : g.Neat ir) {ord : Orders} {fuel n1 n2 k : Nat} {mls : List HLI}
    (hMerge : g.mergeNodes ord fuel n1 n2 (some mls) = .ok (k, g')) : g'.Neat ir := by
  obtain ⟨outputs, hOutputs, hReplace⟩ := DFG.mergeNodes_some_ok hMerge
  obtain ⟨-, hReplaced⟩ := DFG.replaceNodes_ok hReplace
  have hOld : ∀ n ∈ g'.nodes, n ≠ g.fresh → n ∈ g.nodes := by
    intro n hn hFresh
    rw [hReplaced.nodes_eq] at hn
    have hOld := (List.mem_insert_iff.mp hn).resolve_left hFresh
    exact List.mem_of_mem_erase (List.mem_of_mem_erase hOld)
  refine ⟨hReplaced.progInputs_eq ▸ h.progInputs_nodup,
    (replaceNodes_memoryCount hReplace).trans h.memoryCount_eq, fun n hn => ?_, fun n hn => ?_⟩
  · rw [hReplaced.mlmi_eq]
    by_cases hFresh : n = g.fresh
    · rw [hFresh, Function.update_self]
      exact (DFG.computeMergedOutputs_ok hOutputs).1
    · rw [Function.update_of_ne hFresh]
      exact h.outputs_nodup n (hOld n hn hFresh)
  · rw [hReplaced.mlmi_eq]
    by_cases hFresh : n = g.fresh
    · rw [hFresh, Function.update_self]
      refine Or.inl (((ord.fork 0).perm_list _).nodup_iff.mpr ?_)
      exact (List.nodup_dedup _).filter _
    · rw [Function.update_of_ne hFresh]
      exact h.inputs_nodup n (hOld n hn hFresh)

/-- So does a whole run. -/
theorem Clustering.neat {log : List MergeStep} (hRun : Clustering cfg ir log g) : g.Neat ir := by
  induction hRun with
  | start h =>
    refine ⟨?_, ?_, fun n hn => ?_, fun n hn => Or.inr ?_⟩
    · obtain ⟨fwd, -, rfl⟩ := DFG.buildGraph_ok h
      exact List.nodup_dedup _
    · obtain ⟨fwd, -, rfl⟩ := DFG.buildGraph_ok h
      rfl
    · obtain ⟨hli, -, hNode⟩ := DFG.buildGraph_node h hn
      rw [hNode]
      exact List.nodup_singleton _
    · -- a single instruction may read an operand twice, but its result is an output
      obtain ⟨hli, -, hNode⟩ := DFG.buildGraph_node h hn
      rw [hNode]
      intro x hx
      obtain rfl : x = hli := List.mem_singleton.mp hx
      exact List.mem_singleton_self _
  | merge _ hMerge ih =>
    cases hMerge with
    | oneOutput _ hMerge => exact ih.mergeNodes hMerge
    | scored _ hMerge => exact ih.mergeNodes hMerge

/-- A sound graph is one that the universalizer works on. -/
theorem DFG.Sound.good (h : g.Sound ir) (hIr : ir.Clean) (hNum : ir.Numbered) (hNeat : g.Neat ir) :
    g.Good where
  nodes_nodup := h.nodes_nodup
  nodes_lt := h.nodes_lt
  seq_nodup := fun n hn => h.seq_nodup hIr hn
  outputs_nodup := hNeat.outputs_nodup
  outputs_sub := fun n hn m hm => h.outputs_sub hn hm
  scheduled := h.scheduled
  inputs_from := fun n hn m hm => (h.consistent hIr).inputs_from n hn m hm
  backward_iff := h.backward_iff
  defs_lt := fun n hn m hm => hNeat.memoryCount_eq ▸ hNum.defs_lt m (h.mem_defs hn hm)
  progInputs_nodup := hNeat.progInputs_nodup
  progInputs_lt := fun m hm =>
    hNeat.memoryCount_eq ▸ hNum.inputs_lt m ((h.progInputs_iff m).mp hm)
  progInputs_kept := fun n hn m hm => h.not_input hIr hn hm
  progOutputs_from := by
    intro m hm
    rw [h.progOutputs_eq] at hm
    rcases hNum.outputs_from m hm with hIn | hDef
    · exact Or.inl ((h.progInputs_iff m).mpr hIn)
    · obtain ⟨n, hn, hDef⟩ := h.exists_def hDef
      exact Or.inr ⟨n, hn, (h.outputs_iff n hn m).mpr ⟨hDef, Or.inl hm⟩⟩

/-- Its edges are those of the data flow. -/
theorem DFG.Sound.exact (h : g.Sound ir) : g.Exact [] := fun a b => by
  simp only [List.not_mem_nil, not_false_eq_true, true_and]
  exact h.forward_iff a b

/-- Clusters within the limits are what `universalize` is made for. -/
theorem clusterize_ready (hIr : ir.Clean) (hNum : ir.Numbered) {ord : Orders} {fuel : Nat}
    (hCluster : clusterize ord fuel cfg ir = .ok g) (hWithin : ∀ n ∈ g.nodes, (g.mlmi n).Within cfg)
    (hInputs : g.progInputs ≠ []) : g.Ready cfg := by
  obtain ⟨log, hRun⟩ := clusterize_run hCluster
  have hSound := hRun.sound hIr
  exact ⟨hSound.good hIr hNum hRun.neat, hSound.exact, hSound.acyclic, hWithin, hInputs⟩

end Clusters

-- ---------------------------------------------------------------------------
-- The last layer
-- ---------------------------------------------------------------------------

/-- Exactly the multi-instructions of a layer reveal: they give out the outputs of the program,
all of them, and nothing that a multi-instruction reads. -/
structure LLIRProgram.RevealsLayer (cfg : Config) (g : DFG) (layer : List Nat) (ir : LLIRProgram) :
    Prop where
  layer_sub : ∀ n ∈ layer, n ∈ g.nodes
  flag_iff : ∃ order, order.Perm g.nodes ∧ List.Forall₂ (fun n llmi =>
    (∃ o, mlmiToLLMI o (g.mlmi n) cfg.r cfg.lOut = .ok llmi) ∧ (ir.revealFlag llmi = 1 ↔ n ∈ layer))
    order ir.instrs
  only_outputs : ∀ llmi ∈ ir.instrs, ir.revealFlag llmi = 1 → ∀ m ∈ llmi.outputs, m ∈ ir.outputs
  unread : ∀ llmi ∈ ir.instrs, ir.revealFlag llmi = 1 → ∀ m ∈ llmi.outputs,
    ∀ other ∈ ir.instrs, m ∉ other.inputs
  all_outputs : ∀ m ∈ ir.outputs, ∃ llmi ∈ ir.instrs, ir.revealFlag llmi = 1 ∧ m ∈ llmi.outputs

/-- No node of a filled layer is empty. -/
theorem pos_of_mem_fillSizes {cap k size : Nat} (h : size ∈ fillSizes cap k) : 0 < size := by
  induction k generalizing size with
  | zero => cases h
  | succ k ih =>
    rw [fillSizes] at h
    rcases List.eq_nil_or_concat' (fillSizes cap k) with hNil | ⟨sizes, last, hSizes⟩
    · rw [hNil] at h
      rw [List.mem_singleton.mp h]
      exact Nat.one_pos
    · rw [hSizes] at h ih
      rw [fillStep_concat] at h
      split at h
      · rcases List.mem_append.mp h with h | h
        · exact ih (List.mem_append_left _ h)
        · rw [List.mem_singleton.mp h]
          exact Nat.succ_pos last
      · rcases List.mem_append.mp h with h | h
        · exact ih h
        · rw [List.mem_singleton.mp h]
          exact Nat.one_pos

/-- Every node of the last layer has an output. -/
theorem Shaped.outputs_ne {cfg : Config} {g₀ g : DFG} {depth width : Nat} {first last : List Nat}
    {middle : List (List Nat)} (h : Shaped cfg g₀ g depth width first middle last) {n : Nat}
    (hn : n ∈ last) : (g.mlmi n).outputs ≠ [] := by
  intro hNil
  have hSize : (g.mlmi n).inputs.length ∈ fillSizes cfg.lIn g₀.progOutputs.dedup.length := by
    rw [← h.filled.sizes]
    exact List.mem_map_of_mem hn
  have hPos := pos_of_mem_fillSizes hSize
  rw [← h.filled.outputs_length n hn, hNil] at hPos
  exact absurd hPos (Nat.lt_irrefl 0)

section Last

variable {cfg : Config} {g₀ g₁ g : DFG} {rows : List (List Nat)} {first last : List Nat}
  {middle : List (List Nat)} {sk : List (List NodeSkeleton)} {depth width : Nat}

/-- The final graph can be scheduled. -/
theorem Finished.consistent (h : Finished cfg g₀ g₁ g rows last sk) : g.Consistent where
  nodes_nodup := h.good.nodes_nodup
  inputs_from := h.good.inputs_from
  output_unique := fun _ ha _ hb _ hm hm' => h.good.output_unique ha hb hm hm'
  output_fresh := fun a ha m hm => h.good.progInputs_kept a ha m (h.good.outputs_sub a ha m hm)
  forward_iff := fun a b => by
    have hIff := h.exact a b
    simp only [List.not_mem_nil, not_false_eq_true, true_and] at hIff
    exact hIff
  acyclic := h.acyclic

/-- Program outputs are what the last layer of the final graph gives out. -/
theorem Finished.mem_outputs (h : Finished cfg g₀ g₁ g rows last sk)
    (hShaped : Shaped cfg g₀ g₁ depth width first middle last) {m : Nat} :
    m ∈ g.progOutputs ↔ ∃ n ∈ last, m ∈ (g.mlmi n).outputs := by
  rw [h.progOutputs_eq, hShaped.mem_outputs]
  refine exists_congr fun n => and_congr_right fun hn => ?_
  rw [(h.kept n (hShaped.stretched.layered.mem_nodes (by simp) hn)).2]

/-- Lowered, the last layer reveals, and nothing else does. -/
theorem revealsLayer_of_finished (h : Finished cfg g₀ g₁ g rows last sk)
    (hShaped : Shaped cfg g₀ g₁ depth width first middle last) (hFresh : 0 ∉ g.progOutputs)
    {ord : Orders} {fuel : Nat} {prog : MLIRProgram} {llir : LLIRProgram}
    (hLower : lower ord fuel cfg prog g = .ok llir) : llir.RevealsLayer cfg g last := by
  obtain ⟨order, hTop, hInstrs, -, hOutputs, -⟩ := DFG.toLLIR_order h.consistent hLower
  have hNodes : ∀ n ∈ order, n ∈ g.nodes := fun n hn => hTop.perm.mem_iff.mp hn
  have hMirror : Mirrors g order llir := hInstrs.imp fun n llmi ⟨o, hLlmi⟩ => mlmiToLLMI_io hLlmi
  have hLast : ∀ n ∈ last, n ∈ g₁.nodes := fun n hn =>
    hShaped.stretched.layered.mem_nodes (by simp) hn
  have hOut : ∀ m, m ∈ llir.outputs ↔ ∃ n ∈ last, m ∈ (g.mlmi n).outputs := fun m => by
    rw [hOutputs, h.mem_outputs hShaped]
  -- a node that gives out a program output is the one of the last layer that does
  have hFlag : ∀ n ∈ g.nodes, ∀ llmi : LLMI, llmi.outputs = (g.mlmi n).outputs →
      (llir.revealFlag llmi = 1 ↔ n ∈ last) := by
    intro n hn llmi hEq
    rw [revealFlag_eq_one, hEq]
    constructor
    · rintro ⟨m, hm, hmOut⟩
      obtain ⟨a, ha, hm'⟩ := (hOut m).mp hmOut
      rwa [h.good.output_unique hn (h.nodes_sub a (hLast a ha)) hm hm']
    · intro hn'
      have hNe := hShaped.outputs_ne hn'
      rw [← (h.kept n (hLast n hn')).2] at hNe
      obtain ⟨m, hm⟩ := List.exists_mem_of_ne_nil _ hNe
      exact ⟨m, hm, (hOut m).mpr ⟨n, hn', hm⟩⟩
  have hBack : ∀ llmi ∈ llir.instrs, llir.revealFlag llmi = 1 →
      ∃ n ∈ last, llmi.outputs = (g.mlmi n).outputs := by
    intro llmi hLlmi hOne
    obtain ⟨n, hn, -, hEq⟩ := exists_left_of_forall₂ hMirror hLlmi
    exact ⟨n, (hFlag n (hNodes n hn) llmi hEq).mp hOne, hEq⟩
  refine ⟨fun n hn => h.nodes_sub n (hLast n hn), ⟨order, hTop.perm, ?_⟩,
    fun llmi hLlmi hOne m hm => ?_, fun llmi hLlmi hOne m hm other hOther hIn => ?_, fun m hm => ?_⟩
  · have hBoth := (List.forall₂_and_left order llir.instrs).mpr ⟨hNodes, hInstrs⟩
    refine hBoth.imp fun n llmi ⟨hn, o, hLlmi⟩ => ?_
    exact ⟨⟨o, hLlmi⟩, hFlag n hn llmi (mlmiToLLMI_io hLlmi).2⟩
  · obtain ⟨n, hn, hEq⟩ := hBack llmi hLlmi hOne
    exact (hOut m).mpr ⟨n, hn, hEq ▸ hm⟩
  · obtain ⟨n, hn, hEq⟩ := hBack llmi hLlmi hOne
    rw [hEq] at hm
    obtain ⟨n', hn', hInputs, -⟩ := exists_left_of_forall₂ hMirror hOther
    rw [hInputs, MLMI.loweredInputs] at hIn
    split at hIn
    · -- the dummy input is cell 0
      rw [List.mem_singleton.mp hIn] at hm
      exact hFresh ((h.mem_outputs hShaped).mpr ⟨n, hn, hm⟩)
    · exact h.unread n' (hNodes n' hn') m hIn n hn hm
  · obtain ⟨n, hn, hm'⟩ := (hOut m).mp hm
    have hMem := h.nodes_sub n (hLast n hn)
    obtain ⟨llmi, hLlmi, hIo⟩ := exists_right_of_forall₂ hMirror (hTop.perm.mem_iff.mpr hMem)
    exact ⟨llmi, hLlmi, (hFlag n hMem llmi hIo.2).mpr hn, hIo.2 ▸ hm'⟩

end Last

-- ---------------------------------------------------------------------------
-- The fuel
-- ---------------------------------------------------------------------------

section Fuel

variable (ord : Orders) (rnd : Random) (cfg : Config)

/-- More fuel does not change the result. -/
theorem rectangularize_stable (g : DFG) : Stable fun fuel => rectangularize ord fuel cfg g := by
  have hLayers : Stable fun fuel => layerize ord fuel g :=
    (Stable.loop _ _ _ _).bind fun _ => .const _
  exact hLayers.bind fun _ => .const _

/-- Nor that of the passes up to the outputs. -/
theorem propagated_stable (g : DFG) : Stable fun fuel => propagated ord fuel cfg g :=
  (Stable.const (checkSizes cfg)).bind fun _ =>
    (rectangularize_stable (ord.fork 0) cfg g).bind fun _ => .const _

/-- Nor that of the padding of a node. -/
theorem padInputs_stable (prev : List Nat) (g : DFG) (node : Nat) :
    Stable fun fuel => padInputs rnd fuel cfg prev g node := by
  have hDraw : ∀ (rnd : Random) inputs, Stable fun fuel => drawInput rnd fuel prev inputs := by
    intro rnd inputs
    unfold drawInput
    split
    · exact .const _
    · exact .loop _ _ _ _
  have hPad : ∀ (rnd : Random) g i, Stable fun fuel => padInput rnd fuel prev node g i :=
    fun rnd g i => (hDraw (rnd.fork i) _).bind fun _ => .const _
  exact (Stable.const _).bind fun rounds => Stable.foldlM (hPad _) rounds g

/-- Nor that of all nodes. -/
theorem matchLayersInputsOutputs_stable (g : DFG) (layers : List (List Nat)) :
    Stable fun fuel => matchLayersInputsOutputs ord rnd fuel cfg g layers := by
  have hLayer : ∀ (ord : Orders) st layer, Stable fun fuel =>
      matchLayer ord rnd fuel cfg st layer :=
    fun ord st layer =>
      (Stable.foldlM (padInputs_stable rnd cfg st.2) layer.1 st.1).bind fun _ => .const _
  exact (Stable.foldlM (hLayer (ord.fork 1)) _ _).bind fun _ => .const _

/-- Nor that of `universalize`. -/
theorem universalizeRows_stable (g : DFG) :
    Stable fun fuel => universalizeRows ord rnd fuel cfg g := by
  have hPadded : Stable fun fuel => padded ord rnd fuel cfg g :=
    (propagated_stable ord cfg g).bind fun st =>
      (matchLayersInputsOutputs_stable (ord.fork 3) rnd cfg _ _).bind fun _ => .const _
  exact hPadded.bind fun _ => .const _

end Fuel

-- ---------------------------------------------------------------------------
-- From the program to the multi-instructions
-- ---------------------------------------------------------------------------

/-- Without program inputs there is no node in the initial layer. -/
theorem addInputMaskingLayer_raises (ord : Orders) (cfg : Config) {g : DFG} (h : g.progInputs = [])
    (layers : List (List Nat)) : addInputMaskingLayer ord cfg g layers = .error .indexError := by
  have hList : ord.list [] = [] := (ord.perm_list []).eq_nil
  unfold addInputMaskingLayer
  rw [if_neg (fun hNone => hNone.2 h), h, hList]
  rfl

/-- A graph that gets through the first passes has inputs. -/
theorem progInputs_ne_of_propagated {cfg : Config} {g : DFG} (hg : g.Good) (hExact : g.Exact [])
    (hAcyclic : Acyclic g.Edge) (hWithin : ∀ n ∈ g.nodes, (g.mlmi n).Within cfg) {ord : Orders}
    {fuel : Nat} {st : DFG × List (List Nat)} (h : propagated ord fuel cfg g = .ok st) :
    g.progInputs ≠ [] := by
  intro hNil
  obtain ⟨-, -, h⟩ := bind_eq_ok.mp h
  obtain ⟨rect, hRect, h⟩ := bind_eq_ok.mp h
  obtain ⟨g₁, layers, hReturns, hStretched, -⟩ := rectangularize_returns hg hExact hAcyclic hWithin
    (ord.fork 0)
  obtain rfl : rect = (g₁, layers) :=
    ((rectangularize_stable (ord.fork 0) cfg g).returns hRect).unique hReturns
  obtain ⟨g₂, added, hDepth, hStretched₂, -⟩ := addDepthPadding_spec hStretched
  simp only [hDepth] at h
  obtain ⟨masked, hMask, -⟩ := bind_eq_ok.mp h
  rw [addInputMaskingLayer_raises _ _ (hStretched₂.meaning.progInputs_eq.trans hNil)] at hMask
  cases hMask

/-- **Exactly the final layer reveals.** In a program that is compiled with universalization, a
multi-instruction has the flag if and only if it is from the layer that
`propagate_outputs_to_last_layer` added. Its outputs are program outputs, no multi-instruction
reads them, and every program output is among them. -/
theorem universalize_reveals {cfg : Config} (hCfg : cfg.Balanced) {ir : HLIRProgram}
    (hIr : ir.Clean) (hNum : ir.Numbered) {ordC : Orders} {fuelC : Nat} {g : DFG}
    (hCluster : clusterize ordC fuelC cfg ir = .ok g)
    (hWithin : ∀ n ∈ g.nodes, (g.mlmi n).Within cfg) {ord : Orders} {rnd : Random}
    (hFair : rnd.Fair) {fuel : Nat} {g' : DFG}
    (hUniversal : universalize ord rnd fuel cfg g = .ok g') {ordL : Orders} {fuelL : Nat}
    {llir : LLIRProgram}
    (hLower : lower ordL fuelL cfg (initialConvertionToMLIR ir) g' = .ok llir) :
    ∃ g₁ layers last, propagated ord fuel cfg g = .ok (g₁, layers ++ [last]) ∧
      llir.RevealsLayer cfg g' last := by
  obtain ⟨⟨g'', rows⟩, hRows, hEq⟩ := bind_eq_ok.mp hUniversal
  cases hEq
  obtain ⟨pad, hPad, -⟩ := bind_eq_ok.mp hRows
  obtain ⟨prop, hProp, -⟩ := bind_eq_ok.mp hPad
  have hStable := (universalizeRows_stable ord rnd cfg g).returns hRows
  obtain ⟨log, hRun⟩ := clusterize_run hCluster
  have hSound := hRun.sound hIr
  have hGood := hSound.good hIr hNum hRun.neat
  have hReady : g.Ready cfg := clusterize_ready hIr hNum hCluster hWithin
    (progInputs_ne_of_propagated hGood (hSound.exact) hSound.acyclic hWithin hProp)
  have hBusy : ¬ g.Idle cfg := by
    intro hIdle
    obtain ⟨N, hN⟩ := universalize_raises hCfg hReady hIdle ord hFair
    obtain ⟨M, hM⟩ := hStable.bind (g := fun _ st => Except.ok st.1) (Returns.of_eq fun _ => rfl)
    have hOk := hM (max N M) (le_max_right _ _)
    cases (hN _ (le_max_left _ _)).symm.trans hOk
  obtain ⟨_, _, g₂, first, middle, last, g₃, middle', g₄, rows', -, hPropagated, -, hReturns,
    hShaped, -, hFinished, hFresh⟩ := universalizeRows_returns hCfg hReady hBusy ord hFair
  obtain ⟨rfl, rfl⟩ := Prod.mk.inj (hStable.unique hReturns)
  obtain rfl : prop = (g₂, first :: middle ++ [last]) :=
    ((propagated_stable ord cfg g).returns hProp).unique hPropagated
  refine ⟨g₂, first :: middle, last, hProp, revealsLayer_of_finished hFinished hShaped
    (fun hZero => ?_) hLower⟩
  -- a new cell is not the first one, as there are inputs below it
  obtain ⟨m, hm⟩ := List.exists_mem_of_ne_nil _ hReady.progInputs_ne
  have hLt := hReady.good.progInputs_lt m hm
  have := hFresh 0 hZero
  omega

/-- `m1 = m0 + m0`, returning `m1`. -/
def doubleProgram : HLIRProgram where
  instrs := [{ opcode := .ADD, dst := 1, src1 := some (.loc 0), src2 := some (.loc 0) }]
  inputs := [0]
  outputs := [1]
  memoryCount := 2

/-- The example is clean. -/
theorem doubleProgram_clean : doubleProgram.Clean where
  written_once := by decide
  inputs_kept := by decide
  scheduled := by
    simp only [doubleProgram, scheduled_cons]
    exact ⟨by decide, Scheduled.nil _⟩
  no_dead := by decide

/-- Its locations are numbered. -/
theorem doubleProgram_numbered : doubleProgram.Numbered := ⟨by decide, by decide, by decide⟩

/-- It is compiled, and its output gets a location of its own. -/
theorem lower_doubleProgram : ∃ g g' llir,
    clusterize storedOrders 3 pairConfig doubleProgram = .ok g ∧
    (∀ n ∈ g.nodes, (g.mlmi n).Within pairConfig) ∧
    universalize storedOrders .cycle 10 pairConfig g = .ok g' ∧
    lower storedOrders 50 pairConfig (initialConvertionToMLIR doubleProgram) g' = .ok llir ∧
    llir.outputs = [4] := by
  have hRun : (do
      let g ← clusterize storedOrders 3 pairConfig doubleProgram
      let g' ← universalize storedOrders .cycle 10 pairConfig g
      let llir ← lower storedOrders 50 pairConfig (initialConvertionToMLIR doubleProgram) g'
      return (decide (∀ n ∈ g.nodes, (g.mlmi n).Within pairConfig), llir.outputs)) =
        (.ok (true, [4]) : Except Fault (Bool × List Nat)) := by decide +kernel
  obtain ⟨g, hCluster, hRun⟩ := bind_eq_ok.mp hRun
  obtain ⟨g', hUniversal, hRun⟩ := bind_eq_ok.mp hRun
  obtain ⟨llir, hLower, hRun⟩ := bind_eq_ok.mp hRun
  obtain ⟨hWithin, hOutputs⟩ := Prod.mk.inj (Except.ok.inj hRun)
  exact ⟨g, g', llir, hCluster, of_decide_eq_true hWithin, hUniversal, hLower, hOutputs⟩

/-- The theorem at a program that doubles its input. -/
theorem universalize_reveals_doubleProgram : ∃ llir : LLIRProgram, llir.outputs = [4] ∧
    ∃ g' last, llir.RevealsLayer pairConfig g' last := by
  obtain ⟨g, g', llir, hCluster, hWithin, hUniversal, hLower, hOutputs⟩ := lower_doubleProgram
  obtain ⟨-, -, last, -, hReveals⟩ := universalize_reveals pairConfig_balanced doubleProgram_clean
    doubleProgram_numbered hCluster hWithin Random.cycle_fair hUniversal hLower
  exact ⟨llir, hOutputs, g', last, hReveals⟩

end Obscure
