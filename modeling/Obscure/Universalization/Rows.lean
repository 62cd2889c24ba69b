import Obscure.Universalization.Permutation

/-!
# OBSCURE — the rows of the final graph

`add_permutation` goes through all pairs of neighbouring layers.

* `routeLayers_ok`     — the network between two layers;
* `addPermutation_ok`  — all networks: every node reads what comes before it, and the
  skeleton depends on the sizes of the layers alone.
-/

namespace Obscure

open Lib Routing

-- ---------------------------------------------------------------------------
-- The routing program
-- ---------------------------------------------------------------------------

/-- Whether a row is a public identity can be seen from its shape. -/
theorem Row.isPublicIdentity_shape (row : Row) :
    row.shape.isPublicIdentity = row.isPublicIdentity := by
  cases row <;> rfl

/-- The rows that `optimize` leaves have the shapes of the network. -/
theorem map_shape_optimize {program : List Row} {m le : Nat}
    (h : program.map Row.shape = bdbShapes m le) :
    (optimize program).map Row.shape = networkShapes (2 ^ m) le := by
  rw [optimize_eq, dropIdentities, networkShapes, Nat.log_pow (by decide), ← h, List.filter_map]
  congr 1
  refine List.filter_congr fun row _ => ?_
  rw [Function.comp_apply, Row.isPublicIdentity_shape]

/-- No window is too large for the secure element. -/
theorem fitsElement_of_fits {cfg : Config} (hIn : cfg.lIn ≠ 0) (hOut : cfg.lOut = cfg.lIn)
    (hSeq : cfg.lIn ≤ cfg.s) {n m : Nat} {row : Row} (hFits : row.Fits n)
    (hShape : row.shape ∈ bdbShapes m (Nat.log 2 cfg.lIn)) : Row.FitsElement cfg n row := by
  cases row with
  | publicShuffle p => exact hFits
  | secretShuffles windows =>
    intro w hw
    have hSize : w.2.entries.length ≤ 2 ^ Nat.log 2 cfg.lIn :=
      bdbShapes_size _ hShape _ rfl _ (List.mem_map.mpr ⟨w, hw, rfl⟩)
    have hPow := Nat.pow_log_le_self 2 hIn
    exact ⟨hFits w hw, by omega, by omega, by omega⟩

/-- The rows of the network: they fit the element, and their shapes do not depend on
the wiring. -/
theorem network_spec {cfg : Config} (hTwo : 2 ≤ cfg.lIn) (hOut : cfg.lOut = cfg.lIn)
    (hSeq : cfg.lIn ≤ cfg.s) (ord : Orders) {m : Nat} {f : List Nat} (hLen : f.length = 2 ^ m)
    (hf : ∀ a ∈ f, a < 2 ^ m) :
    ∃ program, bdbFuncMI ord f (Nat.log 2 cfg.lIn) = .ok program ∧
      (∀ row ∈ optimize program, Row.FitsElement cfg (2 ^ m) row) ∧
      (optimize program).map Row.shape = networkShapes (2 ^ m) (Nat.log 2 cfg.lIn) := by
  obtain ⟨F, rfl, hF⟩ := exists_tab_lt hLen hf
  have hle : 0 < Nat.log 2 cfg.lIn := Nat.log_pos (by decide) hTwo
  obtain ⟨program, hProgram, hFits, -, hShape⟩ := bdbFuncMI_spec ord hle hF
  refine ⟨program, hProgram, fun row hRow => ?_, map_shape_optimize hShape⟩
  rw [optimize_eq] at hRow
  have hMem := List.mem_of_mem_filter hRow
  have hMemShape : row.shape ∈ bdbShapes m (Nat.log 2 cfg.lIn) := hShape ▸ List.mem_map_of_mem hMem
  exact fitsElement_of_fits (by omega) hOut hSeq (hFits row hMem) hMemShape

-- ---------------------------------------------------------------------------
-- Positions
-- ---------------------------------------------------------------------------

/-- The size of the network between `needed` positions, when there are any. -/
theorem permLayerSize_eq {needed : Nat} (h : needed ≠ 0) :
    permLayerSize needed = .ok (networkSize needed) := by
  unfold permLayerSize networkSize
  rw [if_neg h]
  split <;> rfl

/-- Operands that are all there have their positions. -/
theorem targetsOf_ok {inputs outputs : List Nat} (h : ∀ m ∈ outputs, m ∈ inputs) :
    ∃ targets, targetsOf inputs outputs = .ok targets ∧
      List.Forall₂ (fun m t => inputs[t]? = some m) outputs targets := by
  refine exists_mapM_ok fun m hm => ?_
  cases hLook : inputs.zipIdx.reverse.lookup m with
  | some i => exact ⟨i, rfl, getElem?_of_lookup_zipIdx hLook⟩
  | none =>
    obtain ⟨i, hi⟩ := List.mem_iff_getElem?.mp (h m hm)
    have hIn : (m, i) ∈ inputs.zipIdx.reverse := by
      rw [List.mem_reverse]
      exact List.mk_mem_zipIdx_iff_getElem?.mpr hi
    have := List.lookup_eq_none_iff.mp hLook _ hIn
    simp at this

/-- What a wire carries at the start. -/
def startWire (outputs : List Nat) (i : Nat) : Operand Nat :=
  (outputs.map Operand.loc).getD i (.imm 0)

/-- The wires at the start as a table. -/
theorem startWires_eq {outputs : List Nat} {size : Nat} (h : outputs.length ≤ size) :
    startWires outputs size = tab size (startWire outputs) := by
  have hTab := append_replicate_eq_tab (l := outputs.map Operand.loc) (by simpa using h) (.imm 0)
  rwa [List.length_map] at hTab

/-- A wire carries an output at the start if there is one at its position. -/
theorem startWire_eq_loc {outputs : List Nat} {i m : Nat} :
    startWire outputs i = .loc m ↔ outputs[i]? = some m := by
  unfold startWire
  rw [List.getD_eq_getElem?_getD, List.getElem?_map]
  cases outputs[i]? <;> simp

-- ---------------------------------------------------------------------------
-- One round
-- ---------------------------------------------------------------------------

/-- The graph without the edges from a layer. -/
def DFG.without (g : DFG) (layer : List Nat) : DFG :=
  { g with forwardEdges := fun a => if a ∈ layer then [] else g.forwardEdges a }

section Round

variable {cfg : Config} {g₀ g₁ g : DFG} {rows rest : List (List Nat)} {last after : List Nat}
  {sk : List (List NodeSkeleton)} {size : Nat}

/-- The last layer is the last row. -/
theorem InRows.last_mem (h : InRows cfg g₀ g₁ rows last rest sk g) {a : Nat} (ha : a ∈ last) :
    a ∈ rows.flatten := by
  obtain ⟨init, hInit⟩ := h.last_row
  simp [hInit, ha]

/-- The nodes of the rows are nodes. -/
theorem InRows.row_mem (h : InRows cfg g₀ g₁ rows last rest sk g) {a : Nat}
    (ha : a ∈ rows.flatten) :
    a ∈ g.nodes := (h.mem_iff a).mpr (Or.inl ha)

/-- So are those of the next layer. -/
theorem InRows.after_mem (h : InRows cfg g₀ g₁ rows last (after :: rest) sk g) {a : Nat}
    (ha : a ∈ after) : a ∈ g.nodes := (h.mem_iff a).mpr (Or.inr (by simp [ha]))

/-- No node is in a row and in the next layer. -/
theorem InRows.row_not_after (h : InRows cfg g₀ g₁ rows last (after :: rest) sk g) {a : Nat}
    (ha : a ∈ rows.flatten) : a ∉ after := fun hIn =>
  (List.nodup_append.mp h.nodup).2.2 a ha a (by simp [hIn]) rfl

/-- The next layer reads the last row. -/
theorem InRows.reads_last (h : InRows cfg g₀ g₁ rows last (after :: rest) sk g) {m : Nat}
    (hm : m ∈ g.layerInputs after) : ∃ a ∈ last, m ∈ (g.mlmi a).outputs := by
  obtain ⟨n, hn, hIn⟩ := List.mem_flatMap.mp hm
  have hAv : Available g ([] ++ [last]) m := h.reads [] after rest rfl n hn m hIn
  exact available_concat.mp hAv

/-- The sources of the wires, as the last row is drawn. -/
theorem InRows.sources (h : InRows cfg g₀ g₁ rows last rest sk g) :
    List.Forall₂ (fun m s => Carries g rows (.loc m) s) (g.outputsOf last) (sourcesOf sk) := by
  obtain ⟨init, rfl⟩ := h.last_row
  obtain ⟨skInit, skRow, post, rfl, hInit, hRow, hPost⟩ := forall₂_append_cons h.drawn.flip
  cases hPost
  have hLen : skInit.length = init.length := hInit.length_eq
  unfold sourcesOf
  rw [List.getLastD_concat, List.length_append, List.length_singleton, Nat.add_sub_cancel, hLen]
  refine forall₂_sources hRow fun i n hn => ?_
  rw [Nat.zero_add]
  exact nodeAt_last init hn

/-- The network before its first row. -/
theorem InRows.start (h : InRows cfg g₀ g₁ rows last (after :: rest) sk g)
    (hSize : (g.outputsOf last).length ≤ size) :
    Routed cfg (g.without last) last after rows size (startWire (g.outputsOf last))
      (sourcesOf sk ++ List.replicate (size - (sourcesOf sk).length) none, sk) []
      (⟨g.without last, startWires (g.outputsOf last) size, List.range size, []⟩, [])
      (startWire (g.outputsOf last)) id (fun i => (sourcesOf sk).getD i none) sk := by
  have hSources := h.sources
  have hLen : (g.outputsOf last).length = (sourcesOf sk).length := hSources.length_eq
  refine ⟨⟨h.good.of_forward _, h.exact_clear, .refl _, rfl, by simp, fun _ _ => rfl,
    List.nodup_nil, nofun, nofun, by simp, startWires_eq hSize, by simp [tab], fun _ hi => hi, ?_,
    fun _ _ _ hk => hk, fun _ _ _ _ => rfl⟩, ⟨?_, .nil, fun i hi => ?_⟩, ?_⟩
  · intro i _ m hm
    have hMem := List.mem_of_getElem? (startWire_eq_loc.mp hm)
    obtain ⟨b, hb, hOut⟩ := List.mem_flatMap.mp hMem
    exact ⟨b, by simpa using hb, hOut⟩
  · rw [List.append_nil]
    exact h.drawn.mono (fun r k n hn => nodeAt_append hn) (fun _ _ => rfl) rfl fun _ _ => rfl
  · show Carries _ _ (startWire _ i) ((sourcesOf sk).getD i none)
    unfold startWire
    by_cases hIn : i < (g.outputsOf last).length
    · have hCarry := hSources.get hIn (hLen ▸ hIn)
      rw [List.getD_eq_getElem _ _ (by simpa using hIn), List.getD_eq_getElem _ _ (hLen ▸ hIn),
        List.getElem_map]
      refine Carries.mono hCarry (fun r k n hn => ?_) fun _ _ => rfl
      rw [List.append_nil]
      exact nodeAt_append hn
    · rw [List.getD_eq_default _ _ (by simpa using hIn), List.getD_eq_default _ _ (by omega)]
      trivial
  · rw [append_replicate_eq_tab (hLen ▸ hSize)]
    rfl

/-- The check names for each wire the position of the input at its end. -/
theorem startWire_of_check {outputs inputs targets : List Nat}
    (hTargets : List.Forall₂ (fun m t => outputs[t]? = some m) inputs targets) {C : Nat → Nat}
    (hCheck : targets ++ List.replicate (size - targets.length) 0 = tab size C)
    (hSize : inputs.length ≤ size) {i m : Nat} (hm : inputs[i]? = some m) :
    startWire outputs (C i) = .loc m := by
  obtain ⟨hi, rfl⟩ := List.getElem?_eq_some_iff.mp hm
  have hLen := hTargets.length_eq
  have hAt := hTargets.get hi (hLen ▸ hi)
  rw [startWire_eq_loc]
  rw [append_replicate_eq_tab (hLen ▸ hSize), tab_inj] at hCheck
  rw [← hCheck i (by omega), List.getD_eq_getElem _ _ (hLen ▸ hi)]
  exact hAt

/-- The operand on a wire. -/
def endOf (W : Nat → Operand Nat) (i : Nat) : Nat := (W i).loc?.getD 0

theorem layerInputs_congr {g g' : DFG} {layer : List Nat}
    (h : ∀ n ∈ layer, (g'.mlmi n).inputs = (g.mlmi n).inputs) :
    g'.layerInputs layer = g.layerInputs layer :=
  List.flatMap_congr h

/-- The network has come to its end. -/
theorem InRows.ends (h : InRows cfg g₀ g₁ rows last (after :: rest) sk g)
    {start : List (Option Src) × List (List NodeSkeleton)} {shapes : List RowShape}
    {st : Wires × List (List Nat)} {W : Nat → Operand Nat} {C : Nat → Nat} {S : Nat → Option Src}
    {sk' : List (List NodeSkeleton)}
    (hRouted : Routed cfg (g.without last) last after rows size (startWire (g.outputsOf last)) start
      shapes st W C S sk')
    (hStart : ∀ i m, (g.layerInputs after)[i]? = some m → startWire (g.outputsOf last) (C i) =
      .loc m)
    (hSize : (g.layerInputs after).length ≤ size) :
    (∀ i < (g.layerInputs after).length, W i = .loc (endOf W i)) ∧
      st.1.dfg.layerInputs after = g.layerInputs after ∧ Ends st.1.dfg after (endOf W) := by
  have hR := hRouted.routing
  have hOld : ∀ a ∈ g.nodes, st.1.dfg.mlmi a = g.mlmi a := hR.old
  have hMem : ∀ a ∈ g.nodes, a ∈ st.1.dfg.nodes := fun a ha => (hR.mem_nodes a).mpr (Or.inl ha)
  have hInputs : st.1.dfg.layerInputs after = g.layerInputs after :=
    layerInputs_congr fun n hn => by rw [hOld n (h.after_mem hn)]
  -- a wire that ends in the layer is no constant
  have hLoc : ∀ i < (g.layerInputs after).length, W i = .loc (endOf W i) := by
    intro i hi
    have hAt := hStart i _ (List.getElem?_eq_getElem hi)
    cases hW : W i with
    | loc m =>
      rw [endOf, hW]
      rfl
    | imm k =>
      rw [hR.const i (by omega) k hW] at hAt
      cases hAt
  have hNot : ∀ b ∈ last ++ st.2.flatten, b ∈ st.1.dfg.nodes ∧ b ∉ after := by
    intro b hb
    rcases List.mem_append.mp hb with hb | hb
    · have hRow := h.last_mem hb
      exact ⟨hMem b (h.row_mem hRow), h.row_not_after hRow⟩
    · exact ⟨(hR.mem_nodes b).mpr (Or.inr hb), fun hIn => hR.apart b hb (h.after_mem hIn)⟩
  refine ⟨hLoc, hInputs, hR.good, hR.exact, ?_, fun n hn => hMem n (h.after_mem hn), ?_, ?_, ?_⟩
  · exact (List.nodup_append.mp (List.nodup_append.mp h.nodup).2.1).1
  · intro n hn m hm
    rw [hOld n (h.after_mem hn)] at hm
    obtain ⟨a, ha, hOut⟩ := h.reads_last (List.mem_flatMap.mpr ⟨n, hn, hm⟩)
    obtain ⟨haMem, haNot⟩ := hNot a (List.mem_append_left _ ha)
    refine ⟨a, haMem, haNot, ?_⟩
    rw [hOld a (h.row_mem (h.last_mem ha))]
    exact hOut
  · intro i hi
    rw [hInputs] at hi
    obtain ⟨b, hb, hOut⟩ := hR.gives i (by omega) _ (hLoc i hi)
    obtain ⟨hbMem, hbNot⟩ := hNot b hb
    exact ⟨b, hbMem, hbNot, hOut⟩
  · intro τ hτ i m hm
    rw [hInputs] at hm
    have hi := (List.getElem?_eq_some_iff.mp hm).1
    have hValue := hR.value τ hτ i (by omega)
    rw [hLoc i hi, hStart i m hm] at hValue
    exact hValue

/-- Connected nodes keep the number of their inputs. -/
theorem Connecting.inputs_length {g₂ g' : DFG} {R : Nat → Nat} {done : List Nat}
    (h : Connecting g₂ R done [] g') (n : Nat) :
    (g'.mlmi n).inputs.length = (g₂.mlmi n).inputs.length := by
  by_cases hn : n ∈ done
  · obtain ⟨pre, post, hSplit⟩ := List.append_of_mem hn
    rw [h.inputs_eq pre n post hSplit, length_tab]
  · rw [h.other n hn]

/-- The numbers of inputs and outputs of the nodes of a layer. -/
def DFG.sizes (g : DFG) (layer : List Nat) : List (Nat × Nat) :=
  layer.map fun n => ((g.mlmi n).inputs.length, (g.mlmi n).outputs.length)

/-- The inputs of a layer are counted node by node. -/
theorem sum_sizes (g : DFG) (layer : List Nat) :
    ((g.sizes layer).map Prod.fst).sum = (g.layerInputs layer).length := by
  rw [DFG.sizes, DFG.layerInputs, List.length_flatMap, List.map_map]
  rfl

/-- The skeleton of the connected layer. -/
theorem Connecting.draws {g₂ g' : DFG} {R : Nat → Nat} (h : Connecting g₂ R after [] g')
    {all : List (List Nat)} {S : Nat → Option Src} (hSize : (g₂.layerInputs after).length ≤ size)
    (hShows : ∀ i < (g₂.layerInputs after).length, Shows g' all (R i) (S i)) :
    List.Forall₂ (Draws g' all) after ((g₂.sizes after).foldl (connectSkeleton (tab size S))
      ([], 0)).1 := by
  rw [DFG.sizes, List.foldl_map]
  refine (foldl_induct (P := fun done (st : List NodeSkeleton × Nat) => List.Forall₂
    (Draws g' all) done st.1 ∧
    st.2 = (g₂.layerInputs done).length) (fun done n rest hSplit st hst => ?_) ⟨.nil, rfl⟩).1
  obtain ⟨hDone, hOff⟩ := hst
  have hBound : (g₂.layerInputs done).length + (g₂.mlmi n).inputs.length ≤
      (g₂.layerInputs after).length := by
    rw [hSplit, layerInputs_append, layerInputs_cons, List.length_append, List.length_append]
    omega
  refine ⟨List.rel_append hDone (.cons ⟨?_, ?_⟩ .nil), ?_⟩
  · show List.Forall₂ _ _ (((tab size S).drop st.2).take (g₂.mlmi n).inputs.length)
    rw [h.inputs_eq done n rest hSplit, hOff, take_drop_tab S (by omega)]
    exact forall₂_tab fun i hi => hShows _ (by omega)
  · rw [h.outputs_eq]
  · show st.2 + (g₂.mlmi n).inputs.length = _
    rw [hOff, layerInputs_append, List.length_append, layerInputs_cons, List.length_append]
    rfl

theorem Carries.shows {rows : List (List Nat)} {m : Nat} {o : Option Src}
    (h : Carries g rows (.loc m) o) : Shows g rows m o := by
  cases o with
  | none => exact absurd h id
  | some s => exact h

/-- What the network and the connections to the layer `after` change in the graph `g`: there are
new nodes, every old one keeps its sizes and outputs, and only those of the layer read something
else. -/
structure Crossing (cfg : Config) (last after new : List Nat) (g g' : DFG) : Prop where
  good : g'.Good
  progInputs_eq : g'.progInputs = g.progInputs
  mem_nodes : ∀ a, a ∈ g'.nodes ↔ a ∈ g.nodes ∨ a ∈ new
  nodup : new.Nodup
  apart : ∀ a ∈ new, a ∉ g.nodes
  within : ∀ a ∈ new, (g'.mlmi a).Within cfg
  inputs_length : ∀ a ∈ g.nodes, (g'.mlmi a).inputs.length = (g.mlmi a).inputs.length
  outputs_eq : ∀ a ∈ g.nodes, (g'.mlmi a).outputs = (g.mlmi a).outputs
  seq_length : ∀ a ∈ g.nodes, (g'.mlmi a).seq.length = (g.mlmi a).seq.length
  other : ∀ a ∈ g.nodes, a ∉ after → g'.mlmi a = g.mlmi a
  new_reads : ∀ pre a post, new = pre ++ a :: post → ∀ m ∈ (g'.mlmi a).inputs,
    ∃ b ∈ last ++ pre, m ∈ (g'.mlmi b).outputs
  after_reads : ∀ n ∈ after, ∀ m ∈ (g'.mlmi n).inputs,
    ∃ b ∈ last ++ new, m ∈ (g'.mlmi b).outputs

/-- The network and the connections to the next layer are a crossing. -/
theorem InRows.crossing {g' : DFG} (h : InRows cfg g₀ g₁ rows last (after :: rest) sk g)
    {new : List Nat} {st : Wires} {I W : Nat → Operand Nat} {C : Nat → Nat}
    (hR : Routing cfg (g.without last) last after size I new st W C)
    (hLoc : ∀ i < (g.layerInputs after).length, W i = .loc (endOf W i))
    (hInputs : st.dfg.layerInputs after = g.layerInputs after)
    (hSize : (g.layerInputs after).length ≤ size)
    (hConn : Connecting st.dfg (endOf W) after [] g') : Crossing cfg last after new g g' := by
  have hOld : ∀ a ∈ g.nodes, st.dfg.mlmi a = g.mlmi a := hR.old
  have hNewSame : ∀ a ∈ new, g'.mlmi a = st.dfg.mlmi a := fun a ha =>
    hConn.other a fun hIn => hR.apart a ha (h.after_mem hIn)
  exact {
    good := hConn.good
    progInputs_eq := hConn.meaning.progInputs_eq.trans hR.meaning.progInputs_eq
    mem_nodes := fun a => by
      rw [hConn.nodes_eq]
      exact hR.mem_nodes a
    nodup := hR.nodup
    apart := hR.apart
    within := fun a ha => by
      rw [hNewSame a ha]
      exact hR.within a ha
    inputs_length := fun a ha => by rw [hConn.inputs_length, hOld a ha]
    outputs_eq := fun a ha => by rw [hConn.outputs_eq, hOld a ha]
    seq_length := fun a ha => by rw [hConn.seq_length, hOld a ha]
    other := fun a ha hNot => by rw [hConn.other a hNot, hOld a ha]
    new_reads := fun pre a post hSplit m hm => by
      rw [hNewSame a (by simp [hSplit])] at hm
      obtain ⟨b, hb, hbOut⟩ := hR.reads pre a post hSplit m hm
      exact ⟨b, hb, hConn.outputs_eq b ▸ hbOut⟩
    after_reads := fun n hn m hm => by
      -- an input of the layer is the end of a wire
      obtain ⟨pre, post, hSplit⟩ := List.append_of_mem hn
      rw [hConn.inputs_eq pre n post hSplit] at hm
      obtain ⟨i, hi, rfl⟩ := mem_tab.mp hm
      have hi' : (st.dfg.layerInputs pre).length + i < (g.layerInputs after).length := by
        rw [← hInputs, hSplit, layerInputs_append, layerInputs_cons, List.length_append,
          List.length_append]
        omega
      obtain ⟨b, hb, hbOut⟩ := hR.gives _ (by omega) _ (hLoc _ hi')
      exact ⟨b, hb, hConn.outputs_eq b ▸ hbOut⟩ }

section Crossing

variable {g' : DFG} {new : List Nat}

/-- The rows and the network are read from before them. -/
theorem Crossing.sorted (hC : Crossing cfg last after new g g')
    (h : InRows cfg g₀ g₁ rows last (after :: rest) sk g) :
    SortedFrom g' [] (rows.flatten ++ new) := by
  have hSame : ∀ a ∈ rows.flatten, g'.mlmi a = g.mlmi a := fun a ha =>
    hC.other a (h.row_mem ha) (h.row_not_after ha)
  have hRows : SortedFrom g' [] rows.flatten :=
    h.sorted.congr hC.progInputs_eq (fun a ha => by rw [hSame a ha]) fun a ha => by
      rw [hSame a (by simpa using ha)]
  refine hRows.append fun pre a post hSplit m hm => ?_
  obtain ⟨b, hb, hOut⟩ := hC.new_reads pre a post hSplit m hm
  refine Or.inr ⟨b, ?_, hOut⟩
  exact (List.mem_append.mp hb).elim (fun hb => List.mem_append_left _ (h.last_mem hb))
    (List.mem_append_right _)

/-- The layer reads the rows and the network. -/
theorem Crossing.after_reads_rows (hC : Crossing cfg last after new g g')
    (h : InRows cfg g₀ g₁ rows last (after :: rest) sk g) {n : Nat} (hn : n ∈ after) {m : Nat}
    (hm : m ∈ (g'.mlmi n).inputs) : ∃ b ∈ rows.flatten ++ new, m ∈ (g'.mlmi b).outputs := by
  obtain ⟨b, hb, hOut⟩ := hC.after_reads n hn m hm
  refine ⟨b, ?_, hOut⟩
  exact (List.mem_append.mp hb).elim (fun hb => List.mem_append_left _ (h.last_mem hb))
    (List.mem_append_right _)

/-- A location that comes from before the layer is no output of it. -/
theorem Crossing.not_output (hC : Crossing cfg last after new g g')
    (h : InRows cfg g₀ g₁ rows last (after :: rest) sk g) {m : Nat}
    (hm : m ∈ g'.progInputs ∨ ∃ b ∈ rows.flatten ++ new, m ∈ (g'.mlmi b).outputs) {a : Nat}
    (ha : a ∈ after) : m ∉ (g'.mlmi a).outputs := by
  intro hIn
  have haMem : a ∈ g'.nodes := (hC.mem_nodes a).mpr (Or.inl (h.after_mem ha))
  rcases hm with hm | ⟨b, hb, hbOut⟩
  · exact hC.good.progInputs_kept a haMem m (hC.good.outputs_sub a haMem m hIn) hm
  · rcases List.mem_append.mp hb with hb | hb
    · have hbMem : b ∈ g'.nodes := (hC.mem_nodes b).mpr (Or.inl (h.row_mem hb))
      exact h.row_not_after hb (hC.good.output_unique hbMem haMem hbOut hIn ▸ ha)
    · have hbMem : b ∈ g'.nodes := (hC.mem_nodes b).mpr (Or.inr hb)
      have hEq := hC.good.output_unique hbMem haMem hbOut hIn
      exact hC.apart b hb (hEq ▸ h.after_mem ha)

/-- Nobody reads the layer yet. -/
theorem Crossing.unread (hC : Crossing cfg last after new g g')
    (h : InRows cfg g₀ g₁ rows last (after :: rest) sk g) :
    ∀ n ∈ rows.flatten ++ new ++ after, ∀ m ∈ (g'.mlmi n).inputs,
      ∀ a ∈ after, m ∉ (g'.mlmi a).outputs := by
  intro n hn m hm a ha
  rcases List.mem_append.mp hn with hn | hn
  · exact hC.not_output h ((hC.sorted h).mem hn hm) ha
  · exact hC.not_output h (Or.inr (hC.after_reads_rows h hn hm)) ha

/-- No node is in two rows. -/
theorem Crossing.nodup_rows (hC : Crossing cfg last after new g g')
    (h : InRows cfg g₀ g₁ rows last (after :: rest) sk g) :
    (rows.flatten ++ new ++ after ++ rest.flatten).Nodup := by
  have hPerm : (rows.flatten ++ new ++ after ++ rest.flatten).Perm
      (new ++ (rows.flatten ++ (after :: rest).flatten)) := by
    rw [List.flatten_cons, List.append_assoc, List.append_assoc, ← List.append_assoc]
    exact (List.perm_append_comm.append_right _).trans (by rw [List.append_assoc])
  rw [hPerm.nodup_iff]
  refine hC.nodup.append h.nodup fun a ha hIn => ?_
  exact hC.apart a ha ((h.mem_iff a).mpr (List.mem_append.mp hIn))

/-- The sizes stay within those of the element. -/
theorem Crossing.all_within (hC : Crossing cfg last after new g g')
    (h : InRows cfg g₀ g₁ rows last (after :: rest) sk g) :
    ∀ n ∈ g'.nodes, (g'.mlmi n).Within cfg := by
  intro n hn
  rcases (hC.mem_nodes n).mp hn with hn | hn
  · obtain ⟨hIn, hOuts, hSeq⟩ := h.within n hn
    exact ⟨hC.inputs_length n hn ▸ hIn, hC.outputs_eq n hn ▸ hOuts, hC.seq_length n hn ▸ hSeq⟩
  · exact hC.within n hn

/-- The layers to come read the ones before them, as they did. -/
theorem Crossing.reads (hC : Crossing cfg last after new g g')
    (h : InRows cfg g₀ g₁ rows last (after :: rest) sk g) :
    ∀ mid layer post, rest = mid ++ layer :: post → ∀ n ∈ layer, ∀ m ∈ (g'.mlmi n).inputs,
      Available g' (after :: mid) m := by
  intro mid layer post hSplit n hn m hm
  have hnRest : n ∈ (after :: rest).flatten := by simp [hSplit, hn]
  have hnNot : n ∉ after := by
    intro hIn
    have hNodup := (List.nodup_append.mp h.nodup).2.1
    rw [List.flatten_cons, List.nodup_append] at hNodup
    exact hNodup.2.2 n hIn n (by simp [hSplit, hn]) rfl
  rw [hC.other n ((h.mem_iff n).mpr (Or.inr hnRest)) hnNot] at hm
  have hAv := h.reads (after :: mid) layer post (by rw [hSplit]; rfl) n hn m hm
  obtain ⟨init, prev, hPrev⟩ := (List.eq_nil_or_concat' (after :: mid)).resolve_left (by simp)
  rw [hPrev, ← List.cons_append] at hAv
  rw [hPrev]
  obtain ⟨a, ha, haOut⟩ := available_concat.mp hAv
  refine available_concat.mpr ⟨a, ha, ?_⟩
  have haMem : a ∈ g.nodes := by
    refine (h.mem_iff a).mpr (Or.inr ?_)
    rw [hSplit, ← List.cons_append, hPrev]
    simp [ha]
  rw [hC.outputs_eq a haMem]
  exact haOut

/-- What was kept of the graph without networks still is. -/
theorem Crossing.kept (hC : Crossing cfg last after new g g')
    (h : InRows cfg g₀ g₁ rows last (after :: rest) sk g) {n : Nat} (hn : n ∈ g₁.nodes) :
    (g'.mlmi n).inputs.length = (g₁.mlmi n).inputs.length ∧
      (g'.mlmi n).outputs = (g₁.mlmi n).outputs := by
  obtain ⟨hIn, hOuts⟩ := h.kept n hn
  have hMem := h.nodes_sub n hn
  exact ⟨(hC.inputs_length n hMem).trans hIn, (hC.outputs_eq n hMem).trans hOuts⟩

/-- The rows of the network and the layer are drawn as the skeleton says. -/
theorem Crossing.drawn {start : List (Option Src) × List (List NodeSkeleton)}
    {shapes : List RowShape} {st : Wires × List (List Nat)} {W : Nat → Operand Nat}
    {C : Nat → Nat} {S : Nat → Option Src} {sk' : List (List NodeSkeleton)}
    (hC : Crossing cfg last after st.2.flatten g g')
    (h : InRows cfg g₀ g₁ rows last (after :: rest) sk g)
    (hRouted : Routed cfg (g.without last) last after rows size (startWire (g.outputsOf last)) start
      shapes st W C S sk')
    (hLoc : ∀ i < (g.layerInputs after).length, W i = .loc (endOf W i))
    (hInputs : st.1.dfg.layerInputs after = g.layerInputs after)
    (hSize : (g.layerInputs after).length ≤ size)
    (hConn : Connecting st.1.dfg (endOf W) after [] g') :
    Drawn g' (rows ++ st.2 ++ [after]) (rows ++ st.2 ++ [after])
      (sk' ++ [((g.sizes after).foldl (connectSkeleton (tab size S)) ([], 0)).1]) := by
  have hOld : ∀ a ∈ g.nodes, st.1.dfg.mlmi a = g.mlmi a := hRouted.routing.old
  have hSizes : st.1.dfg.sizes after = g.sizes after :=
    List.map_congr_left fun n hn => by rw [hOld n (h.after_mem hn)]
  have hAt : ∀ r k a, nodeAt (rows ++ st.2 ++ [[]]) r k = some a →
      nodeAt (rows ++ st.2 ++ [after]) r k = some a := fun r k a ha => nodeAt_concat ha
  refine List.rel_append ?_ (.cons ?_ .nil)
  · refine hRouted.sketch.drawn.mono hAt (fun a _ => hConn.outputs_eq a) hConn.meaning.progInputs_eq
      fun a ha => ?_
    rw [List.flatten_append, List.mem_append] at ha
    exact hConn.other a (ha.elim h.row_not_after fun ha hIn => hC.apart a ha (h.after_mem hIn))
  · rw [← hSizes]
    refine hConn.draws (hInputs ▸ hSize) fun i hi => ?_
    rw [hInputs] at hi
    have hCarry := hRouted.sketch.wires i (by omega)
    rw [hLoc i hi] at hCarry
    exact (hCarry.mono hAt fun a _ => hConn.outputs_eq a).shows

end Crossing

/-- The rows of the network and the next layer join the rows. -/
theorem InRows.crossed {g' : DFG} (h : InRows cfg g₀ g₁ rows last (after :: rest) sk g)
    {start : List (Option Src) × List (List NodeSkeleton)} {shapes : List RowShape}
    {st : Wires × List (List Nat)} {W : Nat → Operand Nat} {C : Nat → Nat} {S : Nat → Option Src}
    {sk' : List (List NodeSkeleton)}
    (hRouted : Routed cfg (g.without last) last after rows size (startWire (g.outputsOf last)) start
      shapes st W C S sk')
    (hLoc : ∀ i < (g.layerInputs after).length, W i = .loc (endOf W i))
    (hInputs : st.1.dfg.layerInputs after = g.layerInputs after)
    (hSize : (g.layerInputs after).length ≤ size)
    (hConn : Connecting st.1.dfg (endOf W) after [] g') :
    InRows cfg g₀ g₁ (rows ++ st.2 ++ [after]) after rest
      (sk' ++ [((g.sizes after).foldl (connectSkeleton (tab size S)) ([], 0)).1]) g' := by
  have hR := hRouted.routing
  have hC := h.crossing hR hLoc hInputs hSize hConn
  have hFlat : (rows ++ st.2 ++ [after]).flatten = rows.flatten ++ st.2.flatten ++ after := by simp
  exact {
    good := hConn.good
    exact := hConn.exact
    meaning := (h.meaning.trans (DFG.extends_of_forward g _)).trans (hR.meaning.trans hConn.meaning)
    progOutputs_eq := hConn.progOutputs_eq.trans (hR.progOutputs_eq.trans h.progOutputs_eq)
    within := hC.all_within h
    nodup := hFlat ▸ hC.nodup_rows h
    mem_iff := fun n => by
      rw [hC.mem_nodes, h.mem_iff, hFlat]
      simp only [List.mem_append, List.flatten_cons]
      tauto
    last_row := ⟨_, rfl⟩
    sorted := by
      rw [hFlat]
      refine (hC.sorted h).append (SortedFrom.of_mem fun n hn m hm => Or.inr ?_)
      exact hC.after_reads_rows h hn hm
    unread := hFlat ▸ hC.unread h
    reads := hC.reads h
    nodes_sub := fun n hn => (hC.mem_nodes n).mpr (Or.inl (h.nodes_sub n hn))
    kept := fun n hn => hC.kept h hn
    drawn := hC.drawn h hRouted hLoc hInputs hSize hConn }

/-- The network between two layers. -/
theorem routeLayers_ok (hTwo : 2 ≤ cfg.lIn) (hOut : cfg.lOut = cfg.lIn) (hSeq : cfg.lIn ≤ cfg.s)
    (h : InRows cfg g₀ g₁ rows last (after :: rest) sk g) (hRoom : g.outputsOf last ≠ [])
    (ord : Orders) :
    ∃ g' newRows, routeLayers ord cfg g last after = .ok (g', newRows) ∧
      InRows cfg g₀ g₁ (rows ++ newRows ++ [after]) after rest
        (layerSkeleton (Nat.log 2 cfg.lIn) sk (g.sizes after)) g' := by
  have hNeeded : max (g.outputsOf last).length (g.layerInputs after).length ≠ 0 := by
    have := List.length_pos_iff.mpr hRoom
    omega
  have hSize := permLayerSize_eq hNeeded
  set size := networkSize (max (g.outputsOf last).length (g.layerInputs after).length) with hSizeEq
  obtain ⟨hLe, m, hPow⟩ := permLayerSize_ok hSize
  have hLeOut := le_trans (le_max_left _ _) hLe
  have hLeIn := le_trans (le_max_right _ _) hLe
  -- the wiring
  have hReads : ∀ m ∈ g.layerInputs after, m ∈ g.outputsOf last := by
    intro m hm
    obtain ⟨a, ha, hMem⟩ := h.reads_last hm
    exact List.mem_flatMap.mpr ⟨a, ha, hMem⟩
  obtain ⟨targets, hTargets, hAll⟩ := targetsOf_ok hReads
  have hTargetsLen : (g.layerInputs after).length = targets.length := hAll.length_eq
  have hTargetsLt := (targetsOf_lt hTargets).2
  set permOutputs := targets ++ List.replicate (size - targets.length) 0 with hPerm
  have hPermLen : permOutputs.length = 2 ^ m := by
    rw [hPerm, List.length_append, List.length_replicate, ← hPow]
    omega
  have hPermLt : ∀ a ∈ permOutputs, a < 2 ^ m := by
    intro a ha
    rcases List.mem_append.mp ha with ha | ha
    · exact lt_of_lt_of_le (hTargetsLt a ha) (hPow ▸ hLeOut)
    · rw [List.eq_of_mem_replicate ha]
      exact Nat.two_pow_pos m
  obtain ⟨program, hProgram, hFits, hShapes⟩ := network_spec hTwo hOut hSeq ord hPermLen hPermLt
  rw [← hPow] at hFits hShapes
  -- the run
  have hBefore : ∀ a ∈ last, a ∈ (g.without last).nodes := fun a ha => h.row_mem (h.last_mem ha)
  have hAfter : ∀ a ∈ after, a ∈ (g.without last).nodes := fun a ha => h.after_mem ha
  have hRows : ∀ a ∈ rows.flatten, a ∈ (g.without last).nodes := fun a ha => h.row_mem ha
  obtain ⟨st, hRun, W, C, S, sk', hRouted⟩ :=
    routeProgram_ok hBefore hAfter hRows (h.start hLeOut) hFits
  have hStartLen : (startWires (g.outputsOf last) size).length = size := by
    rw [startWires_eq hLeOut, length_tab]
  have hCheck : permOutputs = st.1.inputsChecker :=
    routeProgram_check ord hPermLen hPermLt hProgram (by rw [← hPow]) hRun
  have hStart : ∀ i m, (g.layerInputs after)[i]? = some m → startWire (g.outputsOf last) (C i) =
      .loc m :=
    fun i m hm => startWire_of_check hAll (hCheck.trans hRouted.routing.check_eq) hLeIn hm
  obtain ⟨hLoc, hInputs, hEnds⟩ := h.ends hRouted hStart hLeIn
  have hWires : ∀ i < (st.1.dfg.layerInputs after).length,
      st.1.inputs[i]? = some (.loc (endOf W i)) := by
    intro i hi
    rw [hInputs] at hi
    rw [hRouted.routing.wires_eq, getElem?_tab (by omega), hLoc i hi]
  obtain ⟨g', hConnect, hConn⟩ := connectNodes_ok hEnds hWires
  refine ⟨g', st.2, ?_, ?_⟩
  · unfold routeLayers
    rw [foldl_clear]
    refine bind_eq_ok.mpr ⟨size, hSize, bind_eq_ok.mpr ⟨targets, hTargets,
      bind_eq_ok.mpr ⟨program, hProgram, bind_eq_ok.mpr ⟨st, ?_, ?_⟩⟩⟩⟩
    · show (optimize program).foldlM routeRow (⟨g.without last, startWires (g.outputsOf last) size,
        List.range (startWires (g.outputsOf last) size).length, []⟩, []) = _
      rw [hStartLen, hRun]
    · show (if permOutputs ≠ st.1.inputsChecker then _ else _) = _
      rw [if_neg (not_not.mpr hCheck), hConnect]
      rfl
  · have hSkel := hRouted.skeleton
    rw [hShapes] at hSkel
    have hLayer : layerSkeleton (Nat.log 2 cfg.lIn) sk (g.sizes after) =
        sk' ++ [((g.sizes after).foldl (connectSkeleton (tab size S)) ([], 0)).1] := by
      rw [← h.sources.length_eq] at hSkel
      simp only [layerSkeleton, sum_sizes, ← h.sources.length_eq, ← hSizeEq, hSkel]
    rw [hLayer]
    exact h.crossed hRouted hLoc hInputs hLeIn hConn

end Round

-- ---------------------------------------------------------------------------
-- All rounds
-- ---------------------------------------------------------------------------

/-- The first layer reads program inputs. -/
def firstSkeleton (sizes : List (Nat × Nat)) : List NodeSkeleton :=
  sizes.map fun size => ⟨List.replicate size.1 none, size.2⟩

/-- The skeleton of layers of some sizes with networks between them. -/
def layersSkeleton (le : Nat) (first : List (Nat × Nat)) (rest : List (List (Nat × Nat))) :
    List (List NodeSkeleton) :=
  rest.foldl (layerSkeleton le) [firstSkeleton first]

/-- The skeleton grows layer by layer. -/
theorem layersSkeleton_concat (le : Nat) (first : List (Nat × Nat)) (rest : List (List (Nat × Nat)))
    (after : List (Nat × Nat)) : layersSkeleton le first (rest ++ [after]) =
      layerSkeleton le (layersSkeleton le first rest) after := by
  rw [layersSkeleton, List.foldl_append, List.foldl_cons, List.foldl_nil, layersSkeleton]

section Rounds

variable {cfg : Config} {g₀ g₁ : DFG} {first : List Nat} {rest : List (List Nat)}

/-- Before the first round. -/
theorem inRows_first (h : Stretched cfg g₀ g₁ (first :: rest)) :
    InRows cfg g₀ g₁ [first] first rest [firstSkeleton (g₁.sizes first)] g₁ := by
  have hFirst : ∀ n ∈ first, ∀ m ∈ (g₁.mlmi n).inputs, m ∈ g₁.progInputs := fun n hn m hm =>
    available_nil.mp (h.layered.reads [] first rest rfl n hn m hm)
  have hFlat : [first].flatten = first := by simp
  refine ⟨h.good, h.exact, h.meaning, rfl, h.within, ?nodup, fun n => ?mem_iff, ⟨[], rfl⟩,
    ?sorted, ?unread, ?reads, fun n hn => hn, fun _ _ => ⟨rfl, rfl⟩, .cons ?drawn .nil⟩
  case nodup =>
    rw [hFlat, ← List.flatten_cons]
    exact h.layered.nodup
  case mem_iff =>
    rw [hFlat, ← List.mem_append, ← List.flatten_cons]
    exact (h.layered.mem_iff n).symm
  case sorted =>
    rw [hFlat]
    exact SortedFrom.of_mem fun n hn m hm => Or.inl (hFirst n hn m hm)
  case unread =>
    rw [hFlat]
    intro n hn m hm a ha hOut
    have haMem := h.layered.mem_nodes List.mem_cons_self ha
    exact h.good.progInputs_kept a haMem m (h.good.outputs_sub a haMem m hOut) (hFirst n hn m hm)
  case reads =>
    intro mid layer post hSplit n hn m hm
    exact h.layered.reads (first :: mid) layer post (by rw [hSplit]; rfl) n hn m hm
  case drawn =>
    unfold firstSkeleton DFG.sizes
    rw [List.map_map, List.forall₂_map_right_iff, List.forall₂_same]
    intro n hn
    refine ⟨?_, rfl⟩
    show List.Forall₂ _ _ (List.replicate (g₁.mlmi n).inputs.length none)
    rw [← List.map_const', List.forall₂_map_right_iff, List.forall₂_same]
    exact hFirst n hn

/-- The nodes of the graph without networks keep their sizes. -/
theorem InRows.sizes_eq {rows : List (List Nat)} {last : List Nat} {sk : List (List NodeSkeleton)}
    {g : DFG} (h : InRows cfg g₀ g₁ rows last rest sk g) {layer : List Nat}
    (hLayer : ∀ n ∈ layer, n ∈ g₁.nodes) :
    g.sizes layer = g₁.sizes layer := by
  refine List.map_congr_left fun n hn => ?_
  obtain ⟨hIn, hOut⟩ := h.kept n (hLayer n hn)
  rw [hIn, hOut]

/-- They keep their outputs. -/
theorem InRows.outputsOf_eq {rows : List (List Nat)} {last : List Nat}
    {sk : List (List NodeSkeleton)} {g : DFG} (h : InRows cfg g₀ g₁ rows last rest sk g)
    {layer : List Nat} (hLayer : ∀ n ∈ layer, n ∈ g₁.nodes) :
    g.outputsOf layer = g₁.outputsOf layer :=
  List.flatMap_congr fun n hn => (h.kept n (hLayer n hn)).2

/-- The rounds up to the layers `done`, all of them in rows; the last of them is the
current one. -/
def RoundsDone (cfg : Config) (g₀ g₁ : DFG) (first : List Nat) (rest done : List (List Nat))
    (st : DFG × List (List Nat) × List Nat) : Prop :=
  ∃ post init, rest = done ++ post ∧ first :: done = init ++ [st.2.2] ∧
    (∀ layer ∈ first :: done, layer ∈ st.2.1) ∧
    InRows cfg g₀ g₁ st.2.1 st.2.2 post
      (layersSkeleton (Nat.log 2 cfg.lIn) (g₁.sizes first) (done.map g₁.sizes)) st.1

/-- One round of `add_permutation` adds the network and the layer. -/
theorem routeStep_ok (hTwo : 2 ≤ cfg.lIn) (hOut : cfg.lOut = cfg.lIn) (hSeq : cfg.lIn ≤ cfg.s)
    (h : Stretched cfg g₀ g₁ (first :: rest))
    (hRoom : ∀ layer ∈ (first :: rest).dropLast, g₁.outputsOf layer ≠ []) (ord : Orders)
    {done post : List (List Nat)} {after : List Nat × Nat} (hRest : rest = done ++ after.1 :: post)
    {st : DFG × List (List Nat) × List Nat} (hst : RoundsDone cfg g₀ g₁ first rest done st) :
    ∃ st', routeStep ord cfg st after = .ok st' ∧
      RoundsDone cfg g₀ g₁ first rest (done ++ [after.1]) st' := by
  obtain ⟨post', init, hPost, hInit, hPlaced, hRows⟩ := hst
  obtain rfl : after.1 :: post = post' := List.append_cancel_left (hRest.symm.trans hPost)
  have hAll : first :: rest = init ++ st.2.2 :: after.1 :: post := by
    rw [hRest, ← List.cons_append, hInit]
    simp
  have hMem : ∀ layer ∈ first :: rest, ∀ n ∈ layer, n ∈ g₁.nodes := fun layer hl n hn =>
    h.layered.mem_nodes hl hn
  have hLast : g₁.outputsOf st.2.2 ≠ [] := by
    refine hRoom _ ?_
    rw [hAll, List.dropLast_append_of_ne_nil (by simp)]
    simp
  have hLastMem := hMem st.2.2 (by rw [hAll]; simp)
  have hAfterMem := hMem after.1 (by rw [hAll]; simp)
  obtain ⟨g', newRows, hRoute, hRows'⟩ := routeLayers_ok hTwo hOut hSeq hRows
    (by rw [hRows.outputsOf_eq hLastMem]; exact hLast) (ord.fork after.2)
  refine ⟨(g', st.2.1 ++ newRows ++ [after.1], after.1), bind_eq_ok.mpr ⟨_, hRoute, rfl⟩, post,
    init ++ [st.2.2], ?_, ?_, fun layer hLayer => ?_, ?_⟩
  · rw [hRest]
    simp
  · rw [← List.cons_append, hInit]
  · rw [← List.cons_append] at hLayer
    rcases List.mem_append.mp hLayer with hLayer | hLayer
    · simp [hPlaced layer hLayer]
    · simp [List.mem_singleton.mp hLayer]
  · rw [List.map_append, List.map_singleton, layersSkeleton_concat, ← hRows.sizes_eq hAfterMem]
    exact hRows'

/-- `add_permutation` goes through layers that have outputs. -/
theorem addPermutation_ok {middle : List (List Nat)} {last : List Nat} (hTwo : 2 ≤ cfg.lIn)
    (hOut : cfg.lOut = cfg.lIn) (hSeq : cfg.lIn ≤ cfg.s)
    (h : Stretched cfg g₀ g₁ (first :: middle ++ [last]))
    (hRoom : ∀ layer ∈ first :: middle, g₁.outputsOf layer ≠ []) (ord : Orders) :
    ∃ g rows, addPermutation ord cfg g₁ (first :: middle ++ [last]) = .ok (g, rows) ∧
      (∀ layer ∈ first :: middle ++ [last], layer ∈ rows) ∧
      InRows cfg g₀ g₁ rows last [] (layersSkeleton (Nat.log 2 cfg.lIn) (g₁.sizes first)
        (middle.map g₁.sizes ++ [g₁.sizes last])) g := by
  have hRoom' : ∀ layer ∈ (first :: (middle ++ [last])).dropLast, g₁.outputsOf layer ≠ [] := by
    rw [← List.cons_append, List.dropLast_concat]
    exact hRoom
  obtain ⟨st, hFold, post, init, hPost, hInit, hPlaced, hRows⟩ :=
    exists_foldlM_ok (f := routeStep ord cfg)
    (l := (middle ++ [last]).zipIdx) (s := (g₁, [first], first))
    (P := fun done st => RoundsDone cfg g₀ g₁ first (middle ++ [last]) (done.map Prod.fst) st)
    (fun done after post hSplit st hst => by
      have hRest := congrArg (List.map Prod.fst) hSplit
      rw [List.zipIdx_map_fst, List.map_append, List.map_cons] at hRest
      rw [List.map_append]
      exact routeStep_ok hTwo hOut hSeq h hRoom' ord hRest hst)
    ⟨_, [], rfl, rfl, by simp, inRows_first h⟩
  rw [List.zipIdx_map_fst] at hPost hRows hInit hPlaced
  have hNil : post = [] := by simpa using hPost
  subst hNil
  rw [← List.cons_append] at hInit
  obtain ⟨-, hLast⟩ := List.append_inj' hInit rfl
  obtain rfl : last = st.2.2 := by simpa using hLast
  refine ⟨st.1, st.2.1, ?_, hPlaced, ?_⟩
  · rw [List.cons_append, addPermutation, hFold]
    rfl
  · rw [List.map_append] at hRows
    exact hRows

/-- Between two layers without operands there is no network to lay: the logarithm
of zero raises. -/
theorem addPermutation_raises {rest : List (List Nat)} (hTwo : 2 ≤ cfg.lIn)
    (hOut : cfg.lOut = cfg.lIn) (hSeq : cfg.lIn ≤ cfg.s)
    (h : Stretched cfg g₀ g₁ (first :: [] :: [] :: rest)) (hRoom : g₁.outputsOf first ≠ [])
    (ord : Orders) :
    addPermutation ord cfg g₁ (first :: [] :: [] :: rest) = .error .valueError := by
  obtain ⟨g', newRows, hRoute, -⟩ := routeLayers_ok hTwo hOut hSeq (inRows_first h) hRoom
    (ord.fork 0)
  have hFirst : routeStep ord cfg (g₁, [first], first) ([], 0) =
      .ok (g', [first] ++ newRows ++ [[]], []) :=
    bind_eq_ok.mpr ⟨_, hRoute, rfl⟩
  have hSecond : routeStep ord cfg (g', [first] ++ newRows ++ [[]], []) ([], 1) =
    .error .valueError := rfl
  rw [addPermutation, List.zipIdx_cons, List.zipIdx_cons, List.foldlM_cons, hFirst, ok_bind,
    List.foldlM_cons, hSecond]
  rfl

end Rounds

end Obscure
