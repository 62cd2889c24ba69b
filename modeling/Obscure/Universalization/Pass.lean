import Obscure.Universalization.Rows

/-!
# OBSCURE — the whole pass

The passes one after another. What is known of the graph before the networks are
laid depends on few numbers; `Spread` and `Shaped` say which.

* `propagated_returns`, `padded_returns` — the layers before the networks;
* `universalizeRows_returns`             — the whole pass, when there is something to
  route;
* `universalizeRows_raises`              — a graph with nothing to route.
-/

namespace Obscure

open Lib Routing

/-- The secure elements that `universalize` is made for. -/
structure Config.Balanced (cfg : Config) : Prop where
  lIn_pow : ∃ e, 1 ≤ e ∧ cfg.lIn = 2 ^ e
  lOut_eq : cfg.lOut = cfg.lIn
  lIn_le_s : cfg.lIn ≤ cfg.s

/-- An element has two inputs at least. -/
theorem Config.Balanced.two_le {cfg : Config} (h : cfg.Balanced) : 2 ≤ cfg.lIn := by
  obtain ⟨e, he, hPow⟩ := h.lIn_pow
  rw [hPow]
  exact Nat.le_self_pow (by omega) 2

/-- The graphs that `universalize` is made for: acyclic, with exact edges, and with
nodes that fit the secure element. -/
structure DFG.Ready (cfg : Config) (g : DFG) : Prop where
  good : g.Good
  exact : g.Exact []
  acyclic : Acyclic g.Edge
  within : ∀ n ∈ g.nodes, (g.mlmi n).Within cfg
  progInputs_ne : g.progInputs ≠ []

/-- Nothing is computed, nothing is returned, and no option asks for a node. -/
def DFG.Idle (cfg : Config) (g : DFG) : Prop :=
  g.nodes = [] ∧ g.progOutputs = [] ∧ cfg.width = 0 ∧ cfg.depth ≤ 1

-- ---------------------------------------------------------------------------
-- Before the padding
-- ---------------------------------------------------------------------------

/-- The graph after `propagate_outputs_to_last_layer`; `depth` is its number of layers
after rectangularization. -/
structure Spread (cfg : Config) (g₀ g : DFG) (depth : Nat) (first : List Nat)
    (middle : List (List Nat)) (last : List Nat) : Prop where
  stretched : Stretched cfg g₀ g (first :: middle ++ [last])
  depth_ne : depth ≠ 0
  depth_eq : middle.length = depthOf cfg depth
  input_sizes : (first.map fun n => (g.mlmi n).inputs.length) =
    fillSizes cfg.lIn g₀.progInputs.length
  output_sizes : (first.map fun n => (g.mlmi n).outputs.length) =
    maskSizes cfg.lIn g₀.progInputs.length
  filled : Filled cfg.lIn g last g₀.progOutputs.dedup.length
  mem_outputs : ∀ m, m ∈ g.progOutputs ↔ ∃ n ∈ last, m ∈ (g.mlmi n).outputs
  empty_iff : (∀ l ∈ middle, l = []) ↔ g₀.nodes = [] ∧ g₀.progOutputs = [] ∧ cfg.depth ≤ 1

/-- Two lists without duplicates of the same length are empty together. -/
theorem dedup_eq_nil_of_length {l l' : List Nat} (h : l.dedup.length = l'.dedup.length) :
    l = [] ↔ l' = [] := by
  rw [← List.dedup_eq_nil, ← List.length_eq_zero_iff, h, List.length_eq_zero_iff, List.dedup_eq_nil]

/-- The depth of one layer is one if no greater one is asked for. -/
theorem depthOf_one {cfg : Config} : depthOf cfg 1 ≤ 1 ↔ cfg.depth ≤ 1 := by
  unfold depthOf
  split <;> omega

/-- The first two passes end with the outputs in a last layer of their own. -/
theorem propagated_returns {cfg : Config} (hCfg : cfg.Balanced) {g : DFG} (hg : g.Ready cfg)
    (ord : Orders) :
    ∃ g₁ layers g₂ first middle last,
      Returns (fun fuel => rectangularize (ord.fork 0) fuel cfg g) (g₁, layers) ∧
      Returns (fun fuel => propagated ord fuel cfg g) (g₂, first :: middle ++ [last]) ∧
      Spread cfg g g₂ layers.length first middle last ∧
        ∀ m ∈ g₂.progOutputs, g.memoryCount ≤ m := by
  have hTwo := hCfg.two_le
  have hSeq := hCfg.lIn_le_s
  have hOut := hCfg.lOut_eq
  obtain ⟨g₁, layers, hRect, hStretched₁, hOut₁, hne, hSub, hEmpty⟩ := rectangularize_returns
    hg.good hg.exact hg.acyclic hg.within (ord.fork 0)
  obtain ⟨g₂, added, hDepth, hStretched₂, hOut₂, hAdded, hAddedNe, -⟩ :=
    addDepthPadding_spec hStretched₁
  have hProg₂ : g₂.progInputs = g.progInputs := hStretched₂.meaning.progInputs_eq
  obtain ⟨g₃, first, hMask, hMasked⟩ := addInputMaskingLayer_ok (by omega) hOut hSeq hStretched₂
    (hProg₂ ▸ hg.progInputs_ne) (ord.fork 1)
  obtain ⟨g₄, middle, last, hProp, hPropagated, hFresh⟩ :=
    propagateOutputsToLastLayer_ok (by omega) hOut hSeq
    hMasked.stretched (by simp [hne]) hMasked.outputs_from (ord.fork 2)
  -- masking renames outputs but does not make two of them one
  have hCount : g₃.progOutputs.dedup.length = g.progOutputs.dedup.length := by
    rw [hMasked.outputs_count, hOut₂, hOut₁]
  have hNone : g₃.progOutputs = [] ↔ g.progOutputs = [] := dedup_eq_nil_of_length hCount
  have hLen : layers.length ≤ depthOf cfg layers.length := by
    unfold depthOf
    split <;> omega
  refine ⟨g₁, layers, g₄, first, middle, last, hRect, ?_, ⟨hPropagated.stretched,
    mt List.length_eq_zero_iff.mp hne, ?_, ?_, ?_, ?_, hPropagated.mem_outputs, ?_⟩, hFresh⟩
  -- the three passes run one after the other, on as much fuel as the first needs
  · have hCheck : checkSizes cfg = .ok () := by
      unfold checkSizes
      rw [if_neg (not_not.mpr hOut.symm), if_neg (by omega)]
    obtain ⟨N, hN⟩ := hRect
    refine ⟨N, fun fuel hFuel => ?_⟩
    unfold propagated
    simp only [hCheck, hN fuel hFuel, ok_bind, hDepth, hMask, hProp]
  · rw [hPropagated.length_eq, List.length_append, hAdded]
    omega
  · rw [← hProg₂, ← hMasked.input_sizes]
    exact List.map_congr_left fun n hn => by rw [hPropagated.first_eq n hn]
  · rw [← hProg₂, ← hMasked.output_sizes]
    exact List.map_congr_left fun n hn => by rw [hPropagated.first_eq n hn]
  · rw [← hCount]
    exact hPropagated.filled
  -- every layer is idle exactly when the graph has neither nodes nor outputs and the depth is one
  · constructor
    · intro hAll
      have hNoOut : g₃.progOutputs = [] := by
        by_contra hSome
        obtain ⟨l, hl, hne⟩ := hPropagated.busy hSome
        exact hne (hAll l hl)
      rw [hPropagated.idle hNoOut] at hAll
      have hNoAdded : added = [] := by
        by_contra hSome
        obtain ⟨l, hl⟩ := List.exists_mem_of_ne_nil _ hSome
        exact hAddedNe l hl (hAll l (List.mem_append_right _ hl))
      have hNodes : g.nodes = [] := by
        refine List.eq_nil_iff_forall_not_mem.mpr fun n hn => ?_
        obtain ⟨l, hl, hnl⟩ := List.mem_flatten.mp ((hStretched₁.layered.mem_iff n).mpr (hSub n hn))
        rw [hAll l (List.mem_append_left _ hl)] at hnl
        cases hnl
      refine ⟨hNodes, hNone.mp hNoOut, ?_⟩
      rw [(hEmpty hNodes).2, hNoAdded] at hAdded
      rw [← depthOf_one]
      simp at hAdded
      omega
    · rintro ⟨hNodes, hNoOut, hDepthOne⟩ l hl
      rw [hPropagated.idle (hNone.mpr hNoOut), (hEmpty hNodes).2] at hl
      have hNoAdded : added = [] := by
        rw [(hEmpty hNodes).2] at hAdded
        rw [← List.length_eq_zero_iff, hAdded]
        have := depthOf_one.mpr hDepthOne
        simp
        omega
      simpa [hNoAdded] using hl

-- ---------------------------------------------------------------------------
-- Before the networks
-- ---------------------------------------------------------------------------

/-- The graph after `match_layers_inputs_outputs`: `depth` middle layers of `width`
full nodes. -/
structure Shaped (cfg : Config) (g₀ g : DFG) (depth width : Nat) (first : List Nat)
    (middle : List (List Nat)) (last : List Nat) : Prop where
  stretched : Stretched cfg g₀ g (first :: middle ++ [last])
  depth_eq : middle.length = depth
  width_eq : ∀ l ∈ middle, l.length = width
  full : ∀ l ∈ middle, ∀ n ∈ l, (g.mlmi n).inputs.length = cfg.lIn ∧
    (g.mlmi n).outputs.length = cfg.lIn
  input_sizes : (first.map fun n => (g.mlmi n).inputs.length) =
    fillSizes cfg.lIn g₀.progInputs.length
  output_sizes : (first.map fun n => (g.mlmi n).outputs.length) =
    maskSizes cfg.lIn g₀.progInputs.length
  filled : Filled cfg.lIn g last g₀.progOutputs.dedup.length
  mem_outputs : ∀ m, m ∈ g.progOutputs ↔ ∃ n ∈ last, m ∈ (g.mlmi n).outputs

/-- The width is zero if there is nothing and none is asked for. -/
theorem widthOf_eq_zero {cfg : Config} {width : Nat} :
    widthOf cfg width = 0 ↔ width = 0 ∧ cfg.width = 0 := by
  unfold widthOf
  split <;> omega

theorem Filled.congr {cap k : Nat} {g g' : DFG} {layer : List Nat} (h : Filled cap g layer k)
    (hSame : ∀ n ∈ layer, g'.mlmi n = g.mlmi n) : Filled cap g' layer k := by
  refine ⟨fun n hn => ?_, fun n hn => ?_, fun n hn => ?_, ?_⟩
  · rw [hSame n hn]
    exact h.outputs_length n hn
  · rw [hSame n hn]
    exact h.seq_length n hn
  · rw [hSame n hn]
    exact h.le_cap n hn
  · rw [← h.sizes]
    exact List.map_congr_left fun n hn => by rw [hSame n hn]

/-- The first layer has a full node. -/
theorem exists_full_first {cap k : Nat} (hk : k ≠ 0) {g : DFG} {first : List Nat}
    (h : (first.map fun n => (g.mlmi n).outputs.length) = maskSizes cap k) :
    ∃ n ∈ first, (g.mlmi n).outputs.length = cap := by
  have hMem : cap ∈ maskSizes cap k := by
    unfold maskSizes
    obtain ⟨size, sizes, hSizes⟩ := List.exists_cons_of_ne_nil (@fillSizes_ne_nil cap k hk)
    simp [hSizes]
  rw [← h] at hMem
  exact List.mem_map.mp hMem

/-- So do the passes that pad the layers, and all layers have their sizes. -/
theorem padded_returns {cfg : Config} (hCfg : cfg.Balanced) {g : DFG} (hg : g.Ready cfg)
    (ord : Orders) {rnd : Random} (hFair : rnd.Fair) :
    ∃ g₁ layers g₂ first middle last g₃ middle',
      Returns (fun fuel => rectangularize (ord.fork 0) fuel cfg g) (g₁, layers) ∧
      Returns (fun fuel => propagated ord fuel cfg g) (g₂, first :: middle ++ [last]) ∧
      Spread cfg g g₂ layers.length first middle last ∧
      Returns (fun fuel => padded ord rnd fuel cfg g) (g₃, first :: middle' ++ [last]) ∧
      Shaped cfg g g₃ (depthOf cfg layers.length) (widthOf cfg (widest middle)) first middle' last ∧
      ∀ m ∈ g₃.progOutputs, g.memoryCount ≤ m := by
  obtain ⟨g₁, layers, g₂, first, middle, last, hRect, hPropagated, hSpread, hFresh⟩ :=
    propagated_returns hCfg hg ord
  obtain ⟨gw, middle', hWiden, hStretched, hOutputs, hLen, hWidth, hOld⟩ :=
    equalizeLayers_spec hSpread.stretched
  have hFirstMem : ∀ n ∈ first, n ∈ g₂.nodes := fun n hn =>
    hSpread.stretched.layered.mem_nodes (by simp) hn
  have hLastMem : ∀ n ∈ last, n ∈ g₂.nodes := fun n hn =>
    hSpread.stretched.layered.mem_nodes (by simp) hn
  -- a full node of the masking layer gives the first middle layer enough values
  obtain ⟨n, hn, hFull⟩ := exists_full_first
    (mt List.length_eq_zero_iff.mp hg.progInputs_ne) hSpread.output_sizes
  obtain ⟨g₃, hMatch, hMatched⟩ := matchLayersInputsOutputs_returns hFair hCfg.lOut_eq hCfg.lIn_le_s
    hStretched hWidth ⟨n, hn, by rw [(hOld n (hFirstMem n hn)).2]; exact hFull⟩ (ord.fork 3)
  -- the first and the last layer are not padded
  have hFirst : ∀ n ∈ first, g₃.mlmi n = g₂.mlmi n := fun n hn => by
    rw [hMatched.first_eq n hn, (hOld n (hFirstMem n hn)).2]
  have hLast : ∀ n ∈ last, g₃.mlmi n = g₂.mlmi n := fun n hn => by
    rw [hMatched.last_eq n hn, (hOld n (hLastMem n hn)).2]
  have hSame : g₃.progOutputs = g₂.progOutputs := hMatched.progOutputs_eq.trans hOutputs
  refine ⟨g₁, layers, g₂, first, middle, last, g₃, middle', hRect, hPropagated, hSpread, ?_,
    ⟨hMatched.stretched, hLen.trans hSpread.depth_eq, hWidth, fun l hl n hn => ?_, ?_, ?_,
    hSpread.filled.congr hLast, fun m => ?_⟩, fun m hm => hFresh m (hSame ▸ hm)⟩
  · have hRest := hPropagated.bind (g := fun fuel (st : DFG × List (List Nat)) => do
      let g ← matchLayersInputsOutputs (ord.fork 3) rnd fuel cfg (equalizeLayers cfg st.1 st.2).1
        (equalizeLayers cfg st.1 st.2).2
      return (g, (equalizeLayers cfg st.1 st.2).2)) (b := (g₃, first :: middle' ++ [last])) ?_
    · exact hRest
    · simp only [hWiden]
      exact hMatch.bind (Returns.of_eq fun _ => rfl)
  · obtain ⟨hIn, hOut⟩ := hMatched.full l hl n hn
    exact ⟨hIn, hOut.trans hCfg.lOut_eq⟩
  · rw [← hSpread.input_sizes]
    exact List.map_congr_left fun n hn => by rw [hFirst n hn]
  · rw [← hSpread.output_sizes]
    exact List.map_congr_left fun n hn => by rw [hFirst n hn]
  · rw [hSame, hSpread.mem_outputs]
    exact exists_congr fun n => and_congr_right fun hn => by rw [hLast n hn]

-- ---------------------------------------------------------------------------
-- The final graph
-- ---------------------------------------------------------------------------

/-- The final graph in its rows. -/
structure Finished (cfg : Config) (g₀ g₁ g : DFG) (rows : List (List Nat)) (last : List Nat)
    (sk : List (List NodeSkeleton)) : Prop where
  good : g.Good
  exact : g.Exact []
  meaning : DFG.Extends g₀ g
  within : ∀ n ∈ g.nodes, (g.mlmi n).Within cfg
  nodup : rows.flatten.Nodup
  mem_iff : ∀ n, n ∈ rows.flatten ↔ n ∈ g.nodes
  last_row : ∃ init, rows = init ++ [last]
  sorted : SortedFrom g [] rows.flatten
  unread : ∀ n ∈ g.nodes, ∀ m ∈ (g.mlmi n).inputs, ∀ a ∈ last, m ∉ (g.mlmi a).outputs
  progOutputs_eq : g.progOutputs = g₁.progOutputs
  nodes_sub : ∀ n ∈ g₁.nodes, n ∈ g.nodes
  kept : ∀ n ∈ g₁.nodes, (g.mlmi n).inputs.length = (g₁.mlmi n).inputs.length ∧
    (g.mlmi n).outputs = (g₁.mlmi n).outputs
  skeleton_eq : g.skeleton rows = sk

/-- When no layer is left, the rows are the graph. -/
theorem InRows.finished {cfg : Config} {g₀ g₁ g : DFG} {rows : List (List Nat)} {last : List Nat}
    {sk : List (List NodeSkeleton)} (h : InRows cfg g₀ g₁ rows last [] sk g) :
    Finished cfg g₀ g₁ g rows last sk := by
  have hNodup : rows.flatten.Nodup := by simpa using h.nodup
  have hMem : ∀ n, n ∈ rows.flatten ↔ n ∈ g.nodes := fun n => by simp [h.mem_iff]
  exact ⟨h.good, h.exact, h.meaning, h.within, hNodup, hMem, h.last_row, h.sorted,
    fun n hn => h.unread n ((hMem n).mpr hn), h.progOutputs_eq, h.nodes_sub, h.kept,
    skeleton_eq h.good hNodup (fun n hn => (hMem n).mp hn) h.drawn⟩

section Final

variable {cfg : Config} {g₀ g₁ g : DFG} {rows : List (List Nat)} {last : List Nat}
  {sk : List (List NodeSkeleton)}

/-- Who reads a node comes after it. -/
theorem Finished.edge_before (h : Finished cfg g₀ g₁ g rows last sk) {pre post : List Nat}
    {n a : Nat} (hSplit : rows.flatten = pre ++ n :: post) (hEdge : g.Edge a n) : a ∈ pre := by
  refine h.good.edge_before h.exact (fun b hb => (h.mem_iff b).mp ?_) (fun m hm => ?_) hEdge
  · rw [hSplit]
    exact List.mem_append_left _ hb
  · simpa using h.sorted pre n post hSplit m hm

/-- The finished graph has no cycle. -/
theorem Finished.acyclic (h : Finished cfg g₀ g₁ g rows last sk) : Acyclic g.Edge := by
  refine acyclic_of_before h.nodup (fun a b hEdge => ?_) fun pre b post hSplit a hEdge =>
    h.edge_before hSplit hEdge
  exact (h.mem_iff b).mpr ((h.exact a b).mp hEdge).2.1

/-- The graph passes the check at the end. -/
theorem Finished.integrity (h : Finished cfg g₀ g₁ g rows last sk) :
    g.checkDfgIntegrity = .ok () := by
  refine if_pos ?_
  simp only [List.all_eq_true, Bool.or_eq_true, Bool.and_eq_true, decide_eq_true_eq,
    List.any_eq_true]
  intro n hn m hm
  rcases h.good.inputs_from n hn m hm with hProg | ⟨a, ha, hOut⟩
  · exact Or.inl hProg
  · refine Or.inr ⟨?_, fun next hNext => ?_⟩
    · rw [(h.good.backward_iff m a).mpr ⟨ha, h.good.outputs_sub a ha m hOut⟩]
      exact decide_eq_true ((h.exact a n).mpr ⟨ha, hn, List.not_mem_nil, m, hOut, hm⟩)
    · obtain ⟨-, -, -, o, ho, hoIn⟩ := (h.exact n next).mp hNext
      exact ⟨o, ho, hoIn⟩

end Final

-- ---------------------------------------------------------------------------
-- What the layers look like
-- ---------------------------------------------------------------------------

/-- The skeleton of a universalized program: its numbers of layers and nodes, of inputs
and of outputs decide everything. -/
def publicSkeleton (cfg : Config) (depth width inputs outputs : Nat) : List (List NodeSkeleton) :=
  layersSkeleton (Nat.log 2 cfg.lIn) ((fillSizes cfg.lIn inputs).zip (maskSizes cfg.lIn inputs))
    (List.replicate depth (List.replicate width (cfg.lIn, cfg.lIn)) ++
      [(fillSizes cfg.lIn outputs).map fun size => (size, size)])

section Shape

variable {cfg : Config} {g₀ g : DFG} {depth width : Nat} {first last : List Nat}
  {middle : List (List Nat)}

/-- The sizes of the first layer. -/
theorem Shaped.sizes_first (h : Shaped cfg g₀ g depth width first middle last) :
    g.sizes first = (fillSizes cfg.lIn g₀.progInputs.length).zip
      (maskSizes cfg.lIn g₀.progInputs.length) := by
  rw [← h.input_sizes, ← h.output_sizes, List.zip_map', DFG.sizes]

/-- All nodes of the middle layers are full. -/
theorem Shaped.sizes_middle (h : Shaped cfg g₀ g depth width first middle last) :
    middle.map g.sizes = List.replicate depth (List.replicate width (cfg.lIn, cfg.lIn)) := by
  refine List.eq_replicate_iff.mpr ⟨by rw [List.length_map, h.depth_eq], fun l hl => ?_⟩
  obtain ⟨layer, hLayer, rfl⟩ := List.mem_map.mp hl
  refine List.eq_replicate_iff.mpr ⟨by rw [DFG.sizes, List.length_map, h.width_eq layer hLayer], ?_⟩
  intro size hSize
  obtain ⟨n, hn, rfl⟩ := List.mem_map.mp hSize
  obtain ⟨hIn, hOut⟩ := h.full layer hLayer n hn
  rw [hIn, hOut]

/-- The sizes of the last layer. -/
theorem Shaped.sizes_last (h : Shaped cfg g₀ g depth width first middle last) :
    g.sizes last = (fillSizes cfg.lIn g₀.progOutputs.dedup.length).map fun size =>
      (size, size) := by
  rw [← h.filled.sizes, List.map_map]
  exact List.map_congr_left fun n hn => by rw [h.filled.outputs_length n hn]; rfl

/-- A node with an output is enough. -/
theorem outputsOf_ne_nil {layer : List Nat} {n : Nat} (hn : n ∈ layer)
    (h : (g.mlmi n).outputs ≠ []) :
    g.outputsOf layer ≠ [] := by
  obtain ⟨m, hm⟩ := List.exists_mem_of_ne_nil _ h
  exact List.ne_nil_of_mem (List.mem_flatMap.mpr ⟨n, hn, hm⟩)

/-- The first layer has outputs. -/
theorem Shaped.room_first (hTwo : 2 ≤ cfg.lIn) (hProg : g₀.progInputs ≠ [])
    (h : Shaped cfg g₀ g depth width first middle last) : g.outputsOf first ≠ [] := by
  obtain ⟨n, hn, hFull⟩ := exists_full_first (mt List.length_eq_zero_iff.mp hProg) h.output_sizes
  refine outputsOf_ne_nil hn fun hNil => ?_
  rw [hNil, List.length_nil] at hFull
  omega

/-- So have the middle layers. -/
theorem Shaped.room_middle (hTwo : 2 ≤ cfg.lIn) (hWidth : width ≠ 0)
    (h : Shaped cfg g₀ g depth width first middle last) :
    ∀ layer ∈ middle, g.outputsOf layer ≠ [] := by
  intro layer hLayer
  have hLen := h.width_eq layer hLayer
  obtain ⟨n, hn⟩ := List.exists_mem_of_length_pos (show 0 < layer.length by omega)
  refine outputsOf_ne_nil hn fun hNil => ?_
  have hOut := (h.full layer hLayer n hn).2
  rw [hNil, List.length_nil] at hOut
  omega

end Shape

-- ---------------------------------------------------------------------------
-- The pass
-- ---------------------------------------------------------------------------

/-- The rounds of `add_permutation` and the check at the end. -/
theorem universalizeRows_of_padded {cfg : Config} (hCfg : cfg.Balanced) {g₀ g₁ : DFG}
    (hProg : g₀.progInputs ≠ []) {depth width : Nat} (hWidth : width ≠ 0) {first last : List Nat}
    {middle : List (List Nat)} {ord : Orders} {rnd : Random}
    (hPadded : Returns (fun fuel => padded ord rnd fuel cfg g₀) (g₁, first :: middle ++ [last]))
    (h : Shaped cfg g₀ g₁ depth width first middle last) :
    ∃ g rows, Returns (fun fuel => universalizeRows ord rnd fuel cfg g₀) (g, rows) ∧
      (∀ layer ∈ first :: middle ++ [last], layer ∈ rows) ∧
      Finished cfg g₀ g₁ g rows last
        (publicSkeleton cfg depth width g₀.progInputs.length g₀.progOutputs.dedup.length) := by
  have hTwo := hCfg.two_le
  have hRoom : ∀ layer ∈ first :: middle, g₁.outputsOf layer ≠ [] := by
    intro layer hLayer
    rcases List.mem_cons.mp hLayer with rfl | hLayer
    · exact h.room_first hTwo hProg
    · exact h.room_middle hTwo hWidth layer hLayer
  obtain ⟨g, rows, hPerm, hPlaced, hRows⟩ :=
    addPermutation_ok hTwo hCfg.lOut_eq hCfg.lIn_le_s h.stretched hRoom
    (ord.fork 4)
  have hFinished := hRows.finished
  rw [h.sizes_first, h.sizes_middle, h.sizes_last] at hFinished
  refine ⟨g, rows, hPadded.bind (Returns.of_eq fun _ => ?_), hPlaced, hFinished⟩
  show (addPermutation (ord.fork 4) cfg g₁ (first :: middle ++ [last]) >>= _) = _
  rw [hPerm, ok_bind]
  show (g.checkDfgIntegrity >>= _) = _
  rw [hFinished.integrity]
  rfl

/-- Without a node in the middle layers the pass raises. -/
theorem universalizeRows_raises {cfg : Config} (hCfg : cfg.Balanced) {g₀ g₁ : DFG}
    (hProg : g₀.progInputs ≠ []) (hNone : g₀.progOutputs = []) {depth : Nat} (hDepth : depth ≠ 0)
    {first last : List Nat} {middle : List (List Nat)} {ord : Orders} {rnd : Random}
    (hPadded : Returns (fun fuel => padded ord rnd fuel cfg g₀) (g₁, first :: middle ++ [last]))
    (h : Shaped cfg g₀ g₁ depth 0 first middle last) :
    ∃ N, ∀ fuel ≥ N, universalizeRows ord rnd fuel cfg g₀ = .error .valueError := by
  have hLast : last = [] := by
    have hSizes := h.filled.sizes
    rw [hNone] at hSizes
    exact List.map_eq_nil_iff.mp hSizes
  have hMiddle : ∀ l ∈ middle, l = [] := fun l hl => List.length_eq_zero_iff.mp (h.width_eq l hl)
  -- at least two layers in a row are empty
  obtain ⟨rest, hRest⟩ : ∃ rest, first :: middle ++ [last] = first :: [] :: [] :: rest := by
    subst hLast
    have hLen := h.depth_eq
    match middle, hLen, hMiddle with
    | [], hLen, _ => exact absurd hLen.symm hDepth
    | [a], _, hMiddle => exact ⟨[], by rw [hMiddle a (by simp)]; rfl⟩
    | a :: b :: middle, _, hMiddle =>
      exact ⟨middle ++ [[]], by rw [hMiddle a (by simp), hMiddle b (by simp)]; rfl⟩
  have hStretched := h.stretched
  rw [hRest] at hPadded hStretched
  obtain ⟨N, hN⟩ := hPadded
  refine ⟨N, fun fuel hFuel => ?_⟩
  have hPadded : padded ord rnd fuel cfg g₀ = _ := hN fuel hFuel
  unfold universalizeRows
  rw [hPadded, ok_bind]
  show (addPermutation (ord.fork 4) cfg g₁ (first :: [] :: [] :: rest) >>= _) = _
  rw [addPermutation_raises hCfg.two_le hCfg.lOut_eq hCfg.lIn_le_s hStretched
    (h.room_first hCfg.two_le hProg)]
  rfl

/-- The width of the middle layers is zero for graphs that are idle. -/
theorem Spread.width_eq_zero {cfg : Config} {g₀ g : DFG} {depth : Nat} {first last : List Nat}
    {middle : List (List Nat)} (h : Spread cfg g₀ g depth first middle last) :
    widthOf cfg (widest middle) = 0 ↔ g₀.Idle cfg := by
  rw [widthOf_eq_zero, widest_eq_zero, h.empty_iff, DFG.Idle]
  tauto

end Obscure
