import Obscure.Universalization.Copies

/-!
# OBSCURE — the input masking layer

`add_input_masking_layer` copies every program input in a new first layer and
sends all readers, and the program outputs, to the copies. Its first node is
filled up with zeros, so that the layer gives out at least `l_out` cells.

* `addInputMaskingLayer_ok` — the pass returns; the layer is the only one that
  reads program inputs, and its shape depends on their number alone.
-/

namespace Obscure

open Lib

-- ---------------------------------------------------------------------------
-- The layer
-- ---------------------------------------------------------------------------

/-- The loops that create the layer. -/
theorem foldl_maskInput {cfg : Config} {cap : Nat} (hCap : 1 ≤ cap) (hIn : cfg.lIn = cap)
    (hOut : cfg.lOut = cap) {g : DFG} (hg : g.Good) (hExact : g.Exact []) {inputs : List Nat}
    (hInputs : inputs.Nodup) (hProg : ∀ m ∈ inputs, m ∈ g.progInputs) :
    Gathered cap g inputs (inputs.foldl (maskInput cfg) ⟨g, [], []⟩) := by
  refine foldl_induct (P := Gathered cap g) (fun done m rest hSplit st h => ?_)
    (Gathered.start hg hExact)
  have hNew : m ∉ done := not_mem_of_nodup_split hInputs hSplit
  obtain ⟨node, g₂, layer₂, hPlace, hPlaces, hNode⟩ := h.place fun n =>
    (st.dfg.mlmi n).inputs.length < cfg.lIn && (st.dfg.mlmi n).outputs.length < cfg.lOut
  have hm : m ∈ g₂.progInputs := by
    rw [hPlaces.meaning.progInputs_eq, h.meaning.progInputs_eq]
    exact hProg m (by simp [hSplit])
  have hCopied := copied_prog hPlaces.good hPlaces.exact hNode hm
  have hStep := h.step hCap (fun n hn => by simp [hIn, hOut, h.filled.outputs_length n hn]) hNew
    hPlace hPlaces hCopied
  unfold maskInput
  rw [hPlace]
  exact hStep

/-- The sizes of a filled layer are positive, and at most `cap`. -/
theorem fillSizes_ne_nil {cap k : Nat} (h : k ≠ 0) : fillSizes cap k ≠ [] := by
  obtain ⟨k, rfl⟩ := Nat.exists_eq_succ_of_ne_zero h
  exact fillStep_ne_nil cap _

-- ---------------------------------------------------------------------------
-- The readers
-- ---------------------------------------------------------------------------

/-- The new layer of `g₂` has copies `d` of the program inputs of `g₁`. -/
structure Copying.Complete (g₁ g₂ : DFG) (layer : List Nat) (d : List (Nat × Nat)) : Prop where
  progInputs_eq : g₂.progInputs = g₁.progInputs
  mem_nodes : ∀ n, n ∈ g₂.nodes ↔ n ∈ g₁.nodes ∨ n ∈ layer
  apart : ∀ n ∈ layer, n ∉ g₁.nodes
  keys : ∀ m, (∃ c, d.lookup m = some c) ↔ m ∈ g₁.progInputs
  copy : ∀ m c, d.lookup m = some c → CopyIn g₂ layer m c

/-- The nodes `done` read the copies. -/
structure Masking (g₁ g₂ : DFG) (layer : List Nat) (d : List (Nat × Nat)) (done : List Nat)
    (g : DFG) : Prop where
  good : g.Good
  exact : g.Exact []
  meaning : DFG.Extends g₂ g
  nodes_eq : g.nodes = g₂.nodes
  progOutputs_eq : g.progOutputs = g₂.progOutputs
  layer_eq : ∀ n ∈ layer, g.mlmi n = g₂.mlmi n
  masked : ∀ n ∈ done, g.mlmi n = (g₁.mlmi n).renameSources (getOrSelf d)
  old : ∀ n ∈ g₁.nodes, n ∉ done → g.mlmi n = g₁.mlmi n

/-- A source is a program input with a copy, or stays. -/
theorem Copying.Complete.cases {g₁ g₂ : DFG} {layer : List Nat} {d : List (Nat × Nat)}
    (h : Copying.Complete g₁ g₂ layer d) (m : Nat) :
    (m ∈ g₁.progInputs ∧ d.lookup m = some (getOrSelf d m) ∧ CopyIn g₂ layer m (getOrSelf d m)) ∨
      (m ∉ g₁.progInputs ∧ d.lookup m = none ∧ getOrSelf d m = m) := by
  unfold getOrSelf
  cases hm : d.lookup m with
  | none =>
    refine Or.inr ⟨fun hIn => ?_, rfl, rfl⟩
    obtain ⟨c, hc⟩ := (h.keys m).mpr hIn
    rw [hm] at hc
    cases hc
  | some c => exact Or.inl ⟨(h.keys m).mp ⟨c, hm⟩, rfl, h.copy m c hm⟩

/-- One reader. -/
theorem maskNode_ok {g₁ g₂ g : DFG} {layer : List Nat} {d : List (Nat × Nat)} {done : List Nat}
    (hCopies : Copying.Complete g₁ g₂ layer d) (h : Masking g₁ g₂ layer d done g) {n : Nat}
    (hn : n ∈ g₁.nodes) (hNew : n ∉ done) :
    ∃ g', maskNode d g n = .ok g' ∧ Masking g₁ g₂ layer d (done ++ [n]) g' := by
  have hSelf : g.mlmi n = g₁.mlmi n := h.old n hn hNew
  have hnMem : n ∈ g.nodes := h.nodes_eq ▸ (hCopies.mem_nodes n).mpr (Or.inl hn)
  have hProg : g.progInputs = g₁.progInputs :=
    h.meaning.progInputs_eq.trans hCopies.progInputs_eq
  have hLayer : ∀ a ∈ layer, a ∈ g.nodes ∧ a ≠ n := fun a ha =>
    ⟨h.nodes_eq ▸ (hCopies.mem_nodes a).mpr (Or.inr ha), fun hEq => hCopies.apart a ha (hEq ▸ hn)⟩
  have hCopyIn : ∀ {m c}, CopyIn g₂ layer m c → CopyIn g layer m c := fun hCopy =>
    hCopy.mono fun a ha => by
      rw [h.layer_eq a ha]
      exact ⟨ha, fun _ hx => hx, fun _ hi => hi⟩
  -- the edges
  have hGives : ∀ c ∈ (g.mlmi n).inputs.filterMap fun m => d.lookup m,
      ∃ a ∈ g.nodes, c ∈ (g.mlmi a).outputs := by
    intro c hc
    obtain ⟨m, -, hm⟩ := List.mem_filterMap.mp hc
    obtain ⟨a, ha, hOut, -⟩ := hCopyIn (hCopies.copy m c hm)
    exact ⟨a, (hLayer a ha).1, hOut⟩
  obtain ⟨fwd, hLink, hFwd⟩ := h.good.link_ok n hGives
  -- the sources
  have hf : ∀ m, m ∉ g₁.progInputs → getOrSelf d m = m := fun m hm =>
    ((hCopies.cases m).resolve_left fun hIn => hm hIn.1).2.2
  have hDefs : ∀ m ∈ (g.mlmi n).getDefs, getOrSelf d m = m := fun m hm =>
    hf m (hProg ▸ h.good.progInputs_kept n hnMem m hm)
  have hGiven : ∀ m ∈ (g.mlmi n).inputs.map (getOrSelf d), g.Given m := by
    intro m hm
    obtain ⟨k, hk, rfl⟩ := List.mem_map.mp hm
    rcases hCopies.cases k with ⟨-, -, hCopy⟩ | ⟨-, -, hEq⟩
    · obtain ⟨a, ha, hOut, -⟩ := hCopyIn hCopy
      exact Or.inr ⟨a, (hLayer a ha).1, hOut⟩
    · rw [hEq]
      exact h.good.inputs_from n hnMem k hk
  have hValue : ∀ τ, g.ModelsOff [n] τ → ∀ m ∈ (g.mlmi n).inputs, τ (getOrSelf d m) = τ m := by
    intro τ hτ m _
    rcases hCopies.cases m with ⟨-, -, hCopy⟩ | ⟨-, -, hEq⟩
    · exact (hCopyIn hCopy).value
        (fun a ha => ⟨(hLayer a ha).1, by simpa using (hLayer a ha).2⟩) hτ
    · rw [hEq]
  have hSame : ∀ a ∈ g.nodes,
      (∃ m ∈ (g.mlmi a).outputs, m ∈ (g.mlmi n).inputs.map (getOrSelf d)) ↔
      (n ∉ [] ∧ g.Feeds a n) ∨
        ∃ m ∈ (g.mlmi n).inputs.filterMap fun m => d.lookup m, m ∈ (g.mlmi a).outputs := by
    intro a ha
    constructor
    · rintro ⟨m, hOut, hm⟩
      obtain ⟨k, hk, rfl⟩ := List.mem_map.mp hm
      rcases hCopies.cases k with ⟨-, hLook, -⟩ | ⟨-, -, hEq⟩
      · exact Or.inr ⟨_, List.mem_filterMap.mpr ⟨k, hk, hLook⟩, hOut⟩
      · exact Or.inl ⟨List.not_mem_nil, k, hEq ▸ hOut, hk⟩
    · rintro (⟨-, k, hOut, hk⟩ | ⟨c, hc, hOut⟩)
      · refine ⟨k, hOut, List.mem_map.mpr ⟨k, hk, hf k ?_⟩⟩
        exact hProg ▸ h.good.progInputs_kept a ha k (h.good.outputs_sub a ha k hOut)
      · obtain ⟨m, hm, hLook⟩ := List.mem_filterMap.mp hc
        refine ⟨c, hOut, List.mem_map.mpr ⟨m, hm, ?_⟩⟩
        rw [getOrSelf, hLook]
        rfl
  have hgFwd := h.good.of_forward fwd
  have hEdited := hgFwd.rewire_edited hnMem (fun m hm => List.mem_map_of_mem hm) hDefs hGiven
  refine ⟨({ g with forwardEdges := fwd } : DFG).renameIn n (getOrSelf d), ?_, ?_⟩
  · refine bind_eq_ok.mpr ⟨{ g with forwardEdges := fwd }, ?_, rfl⟩
    rw [← hLink, List.foldlM_filterMap]
    congr 1
    funext g m
    cases d.lookup m with
    | none => rfl
    | some c => rfl
  rw [DFG.renameIn_eq_rewire]
  refine ⟨hgFwd.edited hnMem hEdited, DFG.exact_rewire h.exact hnMem hFwd (by simp) hSame, ?_,
    h.nodes_eq, h.progOutputs_eq, fun a ha => ?_, fun a ha => ?_, fun a ha hNot => ?_⟩
  · refine (h.meaning.trans (DFG.extends_of_forward g fwd)).trans ?_
    exact hgFwd.extends_rewire hnMem (fun m hm => List.mem_map_of_mem hm) hDefs hGiven hValue
  · rw [hEdited.mlmi_of_ne (hLayer a ha).2]
    exact h.layer_eq a ha
  · by_cases han : a = n
    · rw [han, hEdited.mlmi_self, ← hSelf]
      rfl
    · rw [hEdited.mlmi_of_ne han]
      refine h.masked a ((List.mem_append.mp ha).resolve_right ?_)
      simpa using han
  · have han : a ≠ n := fun hEq => hNot (by simp [hEq])
    rw [hEdited.mlmi_of_ne han]
    exact h.old a ha fun hIn => hNot (List.mem_append_left _ hIn)

/-- All readers. -/
theorem maskNodes_ok {g₁ g₂ : DFG} {layer : List Nat} {d : List (Nat × Nat)}
    (hCopies : Copying.Complete g₁ g₂ layer d) (hg₂ : g₂.Good) (hExact : g₂.Exact [])
    (hOld : ∀ n ∈ g₁.nodes, g₂.mlmi n = g₁.mlmi n) {nodes : List Nat} (hNodes : nodes.Nodup)
    (hMem : ∀ n ∈ nodes, n ∈ g₁.nodes) :
    ∃ g', nodes.foldlM (maskNode d) g₂ = .ok g' ∧ Masking g₁ g₂ layer d nodes g' := by
  refine exists_foldlM_ok (P := Masking g₁ g₂ layer d) (fun done n rest hSplit g h => ?_)
    ⟨hg₂, hExact, .refl g₂, rfl, rfl, fun _ _ => rfl, by simp, fun n hn _ => hOld n hn⟩
  have hNew : n ∉ done := not_mem_of_nodup_split hNodes hSplit
  exact maskNode_ok hCopies h (hMem n (by simp [hSplit])) hNew

/-- The layers read from the layer before again, the first of them from the new
one. -/
theorem Masking.layered {g₁ g₂ g : DFG} {layer : List Nat} {layers : List (List Nat)}
    {d : List (Nat × Nat)} {nodes : List Nat} (h : Masking g₁ g₂ layer d nodes g) (hg₁ : g₁.Good)
    (hCopies : Copying.Complete g₁ g₂ layer d) (hNodes : ∀ n, n ∈ nodes ↔ n ∈ g₁.nodes)
    (hLayers : Layered g₁ layers) (hNodup : layer.Nodup)
    (hReads : ∀ n ∈ layer, ∀ m ∈ (g₂.mlmi n).inputs, m ∈ g₁.progInputs) :
    Layered g (layer :: layers) := by
  have hMasked : ∀ n ∈ g₁.nodes, g.mlmi n = (g₁.mlmi n).renameSources (getOrSelf d) := fun n hn =>
    h.masked n ((hNodes n).mpr hn)
  refine ⟨?_, fun n => ?_, ?_⟩
  · rw [List.flatten_cons]
    refine hNodup.append hLayers.nodup fun n hn hn' => ?_
    exact hCopies.apart n hn ((hLayers.mem_iff n).mp hn')
  · rw [List.flatten_cons, List.mem_append, hLayers.mem_iff, h.nodes_eq, hCopies.mem_nodes, or_comm]
  · intro before row after hSplit n hn m hm
    cases before with
    | nil =>
      obtain ⟨rfl, rfl⟩ := List.cons.inj hSplit
      rw [h.layer_eq n hn] at hm
      refine available_nil.mpr ?_
      rw [h.meaning.progInputs_eq, hCopies.progInputs_eq]
      exact hReads n hn m hm
    | cons first before =>
      obtain ⟨rfl, hRest⟩ := List.cons.inj hSplit
      have hnMem : n ∈ g₁.nodes := hLayers.mem_nodes (by simp [hRest]) hn
      rw [hMasked n hnMem] at hm
      obtain ⟨k, hk, rfl⟩ := List.mem_map.mp hm
      have hAv := hLayers.reads before row after hRest n hn k hk
      rcases List.eq_nil_or_concat' before with rfl | ⟨before, prev, rfl⟩
      · obtain ⟨-, -, a, ha, hOut, -⟩ :=
          (hCopies.cases k).resolve_right fun hNot => hNot.1 (available_nil.mp hAv)
        show Available g ([] ++ [layer]) _
        exact available_concat.mpr ⟨a, ha, (h.layer_eq a ha).symm ▸ hOut⟩
      · obtain ⟨a, ha, hOut⟩ := available_concat.mp hAv
        have haMem : a ∈ g₁.nodes := hLayers.mem_nodes (by simp [hRest]) ha
        have hNot : k ∉ g₁.progInputs :=
          hg₁.progInputs_kept a haMem k (hg₁.outputs_sub a haMem k hOut)
        have hEq := ((hCopies.cases k).resolve_left fun hIn => hNot hIn.1).2.2
        rw [hEq, ← List.cons_append]
        refine available_concat.mpr ⟨a, ha, ?_⟩
        rw [hMasked a haMem]
        exact hOut

-- ---------------------------------------------------------------------------
-- The pass
-- ---------------------------------------------------------------------------

/-- The numbers of outputs in the initial layer: its first node is full. -/
def maskSizes (cap k : Nat) : List Nat := (fillSizes cap k).set 0 cap

/-- The graph with the initial layer. -/
structure Masked (cfg : Config) (g₀ g g' : DFG) (layer : List Nat) (layers : List (List Nat)) :
    Prop where
  stretched : Stretched cfg g₀ g' (layer :: layers)
  outputs_from : ∀ m ∈ g'.progOutputs, ∃ a ∈ g'.nodes, m ∈ (g'.mlmi a).outputs
  outputs_count : g'.progOutputs.dedup.length = g.progOutputs.dedup.length
  input_sizes : (layer.map fun n => (g'.mlmi n).inputs.length) =
    fillSizes cfg.lIn g.progInputs.length
  output_sizes : (layer.map fun n => (g'.mlmi n).outputs.length) =
    maskSizes cfg.lIn g.progInputs.length

theorem addInputMaskingLayer_ok {cfg : Config} (hCap : 1 ≤ cfg.lIn) (hOut : cfg.lOut = cfg.lIn)
    (hSeq : cfg.lIn ≤ cfg.s) {g₀ g : DFG} {layers : List (List Nat)} (h : Stretched cfg g₀ g layers)
    (hProg : g.progInputs ≠ []) (ord : Orders) :
    ∃ g' layer, addInputMaskingLayer ord cfg g layers = .ok (g', layer :: layers) ∧
      Masked cfg g₀ g g' layer layers := by
  have hPerm := ord.perm_list g.progInputs
  have hInputs : (ord.list g.progInputs).Nodup := hPerm.nodup_iff.mpr h.good.progInputs_nodup
  have hGather := foldl_maskInput hCap rfl hOut h.good h.exact hInputs fun m => ord.mem_list.mp
  have hLen : (ord.list g.progInputs).length = g.progInputs.length := ord.length_list _
  generalize hSt : (ord.list g.progInputs).foldl (maskInput cfg) ⟨g, [], []⟩ = st at hGather
  have hSizes := hGather.filled.sizes
  rw [hLen] at hSizes
  -- the layer has a first node
  obtain ⟨first, rest, hLayer⟩ : ∃ first rest, st.layer = first :: rest := by
    refine List.exists_cons_of_ne_nil fun hNil => ?_
    rw [hNil] at hSizes
    exact fillSizes_ne_nil (mt List.length_eq_zero_iff.mp hProg) hSizes.symm
  have hFirst : first ∈ st.layer := by simp [hLayer]
  have hFirstMem := hGather.layer_mem hFirst
  have hFirstIn := hGather.filled.le_cap first hFirst
  have hFirstOut := hGather.filled.outputs_length first hFirst
  have hFirstSeq := hGather.filled.seq_length first hFirst
  have hRounds : roundsUntil (st.dfg.mlmi first).outputs.length cfg.lOut =
      .ok (List.range (cfg.lIn - (st.dfg.mlmi first).outputs.length)) := by
    rw [roundsUntil, if_pos (by omega), hOut]
  -- zeros in the first node
  have hZeros := returnZeros_spec hGather.good hGather.exact hFirstMem
    (List.range (cfg.lIn - (st.dfg.mlmi first).outputs.length))
  rw [List.length_range] at hZeros
  generalize hgz : st.dfg.returnZeros first
    (List.range (cfg.lIn - (st.dfg.mlmi first).outputs.length)) = gz at hZeros
  have hZeroMem : ∀ n, n ∈ gz.nodes ↔ n ∈ g.nodes ∨ n ∈ st.layer := by
    intro n
    rw [hZeros.work.nodes_eq]
    exact hGather.mem_nodes n
  have hZeroOld : ∀ n ∈ g.nodes, gz.mlmi n = g.mlmi n := by
    intro n hn
    have hne : n ≠ first := fun hEq => hGather.apart first hFirst (hEq ▸ hn)
    rw [hZeros.work.other n hne, hGather.old n hn]
  have hZeroIn : ∀ n, (gz.mlmi n).inputs = (st.dfg.mlmi n).inputs := by
    intro n
    by_cases hn : n = first
    · rw [hn, hZeros.inputs_eq]
    · rw [hZeros.work.other n hn]
  have hZeroCopies : Copies g.memoryCount (ord.list g.progInputs) gz st.layer st.copies :=
    hGather.copies.mono fun a ha => by
      refine ⟨ha, hZeros.work.outputs_sub a, fun i hi => ?_⟩
      by_cases han : a = first
      · rw [han] at hi ⊢
        exact hZeros.seq_sub i hi
      · rwa [hZeros.work.other a han]
  -- the program outputs
  have hZeroOut : gz.progOutputs = g.progOutputs :=
    hZeros.work.progOutputs_eq.trans hGather.progOutputs_eq
  obtain ⟨hgr, hgrExt, hgrCount⟩ := hZeroCopies.renameOutputs hZeros.work.good
    (fun n hn => (hZeroMem n).mpr (Or.inr hn))
    (fun m hm => h.good.given_lt (h.good.progOutputs_from m (hZeroOut ▸ hm)))
  have hComplete : Copying.Complete g (gz.renameOutputs st.copies) st.layer st.copies :=
    ⟨(hGather.meaning.trans hZeros.work.meaning).progInputs_eq, hZeroMem, hGather.apart,
      fun m => (hZeroCopies.keys m).trans ord.mem_list, fun m c hc => (hZeroCopies.copy m c hc).2⟩
  -- the readers
  have hNodesPerm := (ord.fork 1).perm_list g.nodes
  obtain ⟨g', hFold, hMasking⟩ := maskNodes_ok hComplete hgr hZeros.work.exact hZeroOld
    (hNodesPerm.nodup_iff.mpr h.good.nodes_nodup) fun n hn => (ord.fork 1).mem_list.mp hn
  have hLayered := hMasking.layered h.good hComplete (fun n => (ord.fork 1).mem_list) h.layered
    hGather.nodup fun n hn m hm => ord.mem_list.mp (hGather.reads n hn m (hZeroIn n ▸ hm))
  have hLayerEq : ∀ n ∈ st.layer, g'.mlmi n = gz.mlmi n := hMasking.layer_eq
  have hRestEq : ∀ n ∈ rest, g'.mlmi n = st.dfg.mlmi n := by
    intro n hn
    have hne : n ≠ first := by
      rintro rfl
      have := hGather.nodup
      rw [hLayer] at this
      exact (List.nodup_cons.mp this).1 hn
    rw [hLayerEq n (by simp [hLayer, hn]), hZeros.work.other n hne]
  have hFirstLen : (gz.mlmi first).outputs.length = cfg.lIn := by
    rw [hZeros.outputs_length]
    omega
  refine ⟨g', st.layer, ?_, ⟨hMasking.good, hMasking.exact, ?_, fun n hn => ?_, hLayered⟩,
    fun m hm => ?_, ?_, ?_, ?_⟩
  · unfold addInputMaskingLayer
    have hMin : ¬ (min cfg.lIn cfg.lOut = 0 ∧ g.progInputs ≠ []) := by
      rw [hOut]
      omega
    rw [if_neg hMin]
    simp only [hSt, hLayer, hRounds, ok_bind, hgz]
    exact bind_eq_ok.mpr ⟨g', hFold, rfl⟩
  · exact ((h.meaning.trans (hGather.meaning.trans hZeros.work.meaning)).trans hgrExt).trans
      hMasking.meaning
  · rcases (hComplete.mem_nodes n).mp (hMasking.nodes_eq ▸ hn) with hn | hn
    · rw [hMasking.masked n ((ord.fork 1).mem_list.mpr hn)]
      obtain ⟨hInLe, hOutLe, hSeqLe⟩ := h.within n hn
      exact ⟨by simpa [MLMI.renameSources] using hInLe, hOutLe,
        by simpa [MLMI.renameSources] using hSeqLe⟩
    · rw [hLayer] at hn
      rcases List.mem_cons.mp hn with rfl | hn
      · rw [hLayerEq n hFirst]
        refine ⟨?_, ?_, ?_⟩
        · rw [hZeroIn]
          exact hFirstIn
        · rw [hFirstLen, hOut]
        · rw [hZeros.seq_length]
          omega
      · have hnLayer : n ∈ st.layer := by simp [hLayer, hn]
        have hLe := hGather.filled.le_cap n hnLayer
        rw [hRestEq n hn]
        refine ⟨hLe, ?_, ?_⟩
        · rw [hGather.filled.outputs_length n hnLayer, hOut]
          exact hLe
        · rw [hGather.filled.seq_length n hnLayer]
          omega
  · rw [hMasking.progOutputs_eq] at hm
    obtain ⟨k, hk, rfl⟩ := List.mem_map.mp hm
    rcases hComplete.cases k with ⟨-, -, a, ha, hOut, -⟩ | ⟨hNot, -, hEq⟩
    · exact ⟨a, hMasking.nodes_eq ▸ (hComplete.mem_nodes a).mpr (Or.inr ha),
        (hLayerEq a ha).symm ▸ hOut⟩
    · obtain ⟨a, ha, hOut⟩ := (h.good.progOutputs_from k (hZeroOut ▸ hk)).resolve_left hNot
      refine ⟨a, hMasking.nodes_eq ▸ (hComplete.mem_nodes a).mpr (Or.inl ha), ?_⟩
      rw [hMasking.masked a ((ord.fork 1).mem_list.mpr ha), hEq]
      exact hOut
  · rw [hMasking.progOutputs_eq, hgrCount, hZeroOut]
  · rw [← hSizes]
    refine List.map_congr_left fun n hn => ?_
    rw [hLayerEq n hn, hZeroIn]
  · rw [maskSizes, ← hSizes, hLayer, List.map_cons, List.map_cons, List.set_cons_zero,
      hLayerEq first hFirst, hFirstLen]
    congr 1
    refine List.map_congr_left fun n hn => ?_
    rw [hRestEq n hn, hGather.filled.outputs_length n (by simp [hLayer, hn])]

end Obscure
