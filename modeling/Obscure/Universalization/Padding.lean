import Obscure.Universalization.Propagation

/-!
# OBSCURE — the same arity for all nodes

`match_layers_inputs_outputs`: every node between the first and the last layer gets
`l_in` inputs, chosen at random among what the layer before gives out, and `l_out`
outputs, first variables it does not return yet and then zeros.

* `drawInput_returns`  — a fair generator finds an operand the node does not have;
* `matchLayersInputsOutputs_returns` — the loops end, and every node between the
  first and the last layer is full.
-/

namespace Obscure

open Lib

-- ---------------------------------------------------------------------------
-- Inputs
-- ---------------------------------------------------------------------------

theorem drawInput_returns {rnd : Random} (hFair : rnd.Fair) {prev inputs : List Nat}
    (hNew : ∃ x ∈ prev, x ∉ inputs) :
    ∃ m, Returns (fun fuel => drawInput rnd fuel prev inputs) m ∧ m ∈ prev ∧ m ∉ inputs := by
  obtain ⟨x, hx, hxNot⟩ := hNew
  have hne : prev ≠ [] := List.ne_nil_of_mem hx
  obtain ⟨t, ht⟩ := hFair [] prev inputs ⟨x, hx, hxNot⟩
  have hBody : ∀ i, (if rnd.draw i prev ∈ inputs then
      (.ok (.inl ()) : Except Fault (Unit ⊕ Nat)) else .ok (.inr (rnd.draw i prev))) = .ok
        (.inl ()) ∨
      ∃ b, (if rnd.draw i prev ∈ inputs then
        (.ok (.inl ()) : Except Fault (Unit ⊕ Nat)) else .ok (.inr (rnd.draw i prev))) = .ok
          (.inr b) ∧
        b ∈ prev ∧ b ∉ inputs := by
    intro i
    by_cases hi : rnd.draw i prev ∈ inputs
    · exact Or.inl (if_pos hi)
    · exact Or.inr ⟨_, if_neg hi, rnd.mem [i] prev hne, hi⟩
  obtain ⟨m, hm, hQ⟩ := loop_search_returns (e := Fault.diverges)
    (f := fun i _ => if rnd.draw i prev ∈ inputs then .ok (.inl ()) else .ok
      (.inr (rnd.draw i prev)))
    hBody (t := t) ⟨_, if_neg ht⟩
  refine ⟨m, hm.congr fun k => ?_, hQ⟩
  rw [drawInput, if_neg hne]

/-- A longer list without repetitions has a new element. -/
theorem exists_mem_not_mem {l l' : List Nat} (hl : l.Nodup) (hLen : l'.length < l.length) :
    ∃ x ∈ l, x ∉ l' := by
  by_contra hAll
  push Not at hAll
  exact absurd (hl.length_le_of_subset hAll) (by omega)

/-- Node `n` has taken more inputs from `prev`. -/
structure Took (prev : List Nat) (g g' : DFG) (n : Nat) : Prop where
  work : DFG.Worked [] g g' n
  seq_eq : (g'.mlmi n).seq = (g.mlmi n).seq
  outputs_eq : (g'.mlmi n).outputs = (g.mlmi n).outputs
  inputs_from : ∀ m ∈ (g'.mlmi n).inputs, m ∈ (g.mlmi n).inputs ∨ m ∈ prev

section Inputs

variable {cfg : Config} {g : DFG} {n : Nat} {prev : List Nat}

/-- One input. -/
theorem padInput_returns {rnd : Random} (hFair : rnd.Fair) (hg : g.Good) (hExact : g.Exact [])
    (hn : n ∈ g.nodes) (hNodup : prev.Nodup)
    (hPrev : ∀ m ∈ prev, ∃ a ∈ g.nodes, m ∈ (g.mlmi a).outputs)
    (hRoom : (g.mlmi n).inputs.length < prev.length) (i : Nat) :
    ∃ g', Returns (fun fuel => padInput rnd fuel prev n g i) g' ∧ Took prev g g' n ∧
      (g'.mlmi n).inputs.length = (g.mlmi n).inputs.length + 1 := by
  obtain ⟨m, hDraw, hm, -⟩ := drawInput_returns (hFair.fork i) (exists_mem_not_mem hNodup hRoom)
  obtain ⟨d, hd, hOut⟩ := hPrev m hm
  have hWork := hg.worked_takeInput hExact hn List.not_mem_nil hd hOut
  have hSelf : ((g.takeInput n m).addEdge d n).mlmi n =
      ⟨(g.mlmi n).seq, (g.mlmi n).inputs ++ [m], (g.mlmi n).outputs⟩ :=
    (hg.takeInput_edited hn (Or.inr ⟨d, hd, hOut⟩)).mlmi_self
  refine ⟨(g.takeInput n m).addEdge d n, hDraw.bind (Returns.of_eq fun _ => ?_),
    ⟨hWork, ?_, ?_, ?_⟩, ?_⟩
  · have hDef : (g.takeInput n m).defNode m = .ok d := hg.defNode_output hd hOut
    exact bind_eq_ok.mpr ⟨d, hDef, rfl⟩
  · rw [hSelf]
  · rw [hSelf]
  · intro k hk
    rw [hSelf] at hk
    rcases List.mem_append.mp hk with hk | hk
    · exact Or.inl hk
    · exact Or.inr (List.mem_singleton.mp hk ▸ hm)
  · rw [hSelf]
    simp

theorem Took.refl (hg : g.Good) (hExact : g.Exact []) (n : Nat) (prev : List Nat) :
    Took prev g g n :=
  ⟨.refl hg hExact n, rfl, rfl, fun _ hm => Or.inl hm⟩

theorem Took.trans {g' g'' : DFG} (h : Took prev g g' n) (h' : Took prev g' g'' n) :
    Took prev g g'' n :=
  ⟨h.work.trans h'.work, h'.seq_eq.trans h.seq_eq, h'.outputs_eq.trans h.outputs_eq, fun m hm =>
    (h'.inputs_from m hm).elim (fun hm => h.inputs_from m hm) Or.inr⟩

/-- All inputs of a node. -/
theorem padInputs_returns {rnd : Random} (hFair : rnd.Fair) (hg : g.Good) (hExact : g.Exact [])
    (hn : n ∈ g.nodes) (hNodup : prev.Nodup)
    (hPrev : ∀ m ∈ prev, ∃ a ∈ g.nodes, m ∈ (g.mlmi a).outputs) (hLen : cfg.lIn ≤ prev.length)
    (hIn : (g.mlmi n).inputs.length ≤ cfg.lIn) :
    ∃ g', Returns (fun fuel => padInputs rnd fuel cfg prev g n) g' ∧ Took prev g g' n ∧
      (g'.mlmi n).inputs.length = cfg.lIn := by
  have hRounds : roundsUntil (g.mlmi n).inputs.length cfg.lIn =
      .ok (List.range (cfg.lIn - (g.mlmi n).inputs.length)) := if_pos hIn
  obtain ⟨g', hFold, hTook, hCount⟩ := exists_foldlM_returns
    (f := fun fuel => padInput (rnd.fork n) fuel prev n)
    (l := List.range (cfg.lIn - (g.mlmi n).inputs.length)) (s := g)
    (P := fun done g' => Took prev g g' n ∧
      (g'.mlmi n).inputs.length = (g.mlmi n).inputs.length + done.length)
    (fun done i rest hSplit g' hg' => by
      obtain ⟨hTook, hCount⟩ := hg'
      have hBound := congrArg List.length hSplit
      rw [List.length_range, List.length_append, List.length_cons] at hBound
      obtain ⟨g'', hOne, hTook', hCount'⟩ := padInput_returns (hFair.fork n) hTook.work.good
        hTook.work.exact (hTook.work.nodes_eq.symm ▸ hn) hNodup
        (fun m hm => by
          obtain ⟨a, ha, hOut⟩ := hPrev m hm
          exact ⟨a, hTook.work.nodes_eq.symm ▸ ha, hTook.work.outputs_sub a m hOut⟩)
        (show (g'.mlmi n).inputs.length < prev.length by omega) i
      refine ⟨g'', hOne, hTook.trans hTook', ?_⟩
      rw [hCount', hCount, List.length_append, List.length_singleton]
      omega)
    ⟨.refl hg hExact n prev, rfl⟩
  rw [List.length_range] at hCount
  refine ⟨g', (Returns.of_eq (fun _ => hRounds)).bind hFold, hTook, ?_⟩
  omega

end Inputs

-- ---------------------------------------------------------------------------
-- Outputs
-- ---------------------------------------------------------------------------

/-- Variables that become outputs. -/
theorem exposeAll_spec {g : DFG} {n : Nat} (hg : g.Good) (hExact : g.Exact []) (hn : n ∈ g.nodes)
    {ms : List Nat} (hNodup : ms.Nodup) (hDefs : ∀ m ∈ ms, m ∈ (g.mlmi n).getDefs)
    (hNew : ∀ m ∈ ms, m ∉ (g.mlmi n).outputs) :
    DFG.Worked [] g (ms.foldl (fun g m => g.expose n m) g) n ∧
      (ms.foldl (fun g m => g.expose n m) g).mlmi n =
        ⟨(g.mlmi n).seq, (g.mlmi n).inputs, (g.mlmi n).outputs ++ ms⟩ := by
  refine foldl_induct (P := fun done g' => DFG.Worked [] g g' n ∧
    g'.mlmi n = ⟨(g.mlmi n).seq, (g.mlmi n).inputs, (g.mlmi n).outputs ++ done⟩)
    (fun done m rest hSplit g' hg' => ?_) ⟨.refl hg hExact n, by simp⟩
  obtain ⟨hWork, hSelf⟩ := hg'
  have hDef : m ∈ (g'.mlmi n).getDefs := by
    rw [hSelf]
    exact hDefs m (by simp [hSplit])
  have hNot : m ∉ (g'.mlmi n).outputs := by
    rw [hSelf]
    exact fun hIn => (List.mem_append.mp hIn).elim (hNew m (by simp [hSplit]))
      (not_mem_of_nodup_split hNodup hSplit)
  have hExpose := hWork.good.worked_expose hWork.exact (hWork.nodes_eq.symm ▸ hn) hDef hNot
  refine ⟨hWork.trans hExpose, ?_⟩
  rw [(hWork.good.expose_edited (hWork.nodes_eq.symm ▸ hn) hDef hNot).mlmi_self, hSelf]
  simp

/-- Node `n` is full of outputs. -/
structure Returned (cfg : Config) (g g' : DFG) (n : Nat) : Prop where
  work : DFG.Worked [] g g' n
  inputs_eq : (g'.mlmi n).inputs = (g.mlmi n).inputs
  outputs_length : (g'.mlmi n).outputs.length = cfg.lOut
  seq_length : (g'.mlmi n).seq.length ≤ cfg.s

/-- The variables of a node are its outputs and those that are not returned. -/
theorem length_getDefs_eq {g : DFG} {n : Nat} (hg : g.Good) (hn : n ∈ g.nodes) :
    (g.mlmi n).getDefs.length = (g.mlmi n).outputs.length +
      ((g.mlmi n).getDefs.filter fun m => m ∉ (g.mlmi n).outputs).dedup.length := by
  have hDefs := hg.seq_nodup n hn
  have hOutputs : ((g.mlmi n).getDefs.filter fun m => m ∈ (g.mlmi n).outputs).Perm
      (g.mlmi n).outputs := by
    refine (List.perm_ext_iff_of_nodup (hDefs.filter _) (hg.outputs_nodup n hn)).mpr fun m => ?_
    simpa using hg.outputs_sub n hn m
  rw [(hDefs.filter _).dedup, ← hOutputs.length_eq,
    List.length_eq_length_filter_add (l := (g.mlmi n).getDefs) fun m => m ∈ (g.mlmi n).outputs]
  simp

theorem padOutputs_ok {cfg : Config} (hSeq : cfg.lOut ≤ cfg.s) {g : DFG} {n : Nat} (hg : g.Good)
    (hExact : g.Exact []) (hn : n ∈ g.nodes) (hOut : (g.mlmi n).outputs.length ≤ cfg.lOut)
    (hLen : (g.mlmi n).seq.length ≤ cfg.s) (ord : Orders) :
    ∃ g', padOutputs ord cfg g n = .ok g' ∧ Returned cfg g g' n := by
  have hRounds : roundsUntil (g.mlmi n).outputs.length cfg.lOut =
      .ok (List.range (cfg.lOut - (g.mlmi n).outputs.length)) := if_pos hOut
  generalize hPossible : ((g.mlmi n).getDefs.filter fun m => m ∉ (g.mlmi n).outputs).dedup =
    possible
  have hMem : ∀ m, m ∈ possible ↔ m ∈ (g.mlmi n).getDefs ∧ m ∉ (g.mlmi n).outputs := by
    intro m
    rw [← hPossible]
    simp
  have hPerm := (ord.fork n).perm_list possible
  have hNodup : possible.Nodup := hPossible ▸ List.nodup_dedup _
  have hListNodup : ((ord.fork n).list possible).Nodup := hPerm.nodup_iff.mpr hNodup
  generalize hRet : ((ord.fork n).list possible).take
    (List.range (cfg.lOut - (g.mlmi n).outputs.length)).length = returned
  have hRetMem : ∀ m ∈ returned, m ∈ possible := fun m hm =>
    (ord.fork n).mem_list.mp (List.mem_of_mem_take (hRet ▸ hm))
  have hRetLen : returned.length = min (cfg.lOut - (g.mlmi n).outputs.length) possible.length := by
    rw [← hRet, List.length_take, List.length_range, (ord.fork n).length_list]
  obtain ⟨hWork, hSelf⟩ := exposeAll_spec hg hExact hn (hRet ▸ hListNodup.take)
    (fun m hm => ((hMem m).mp (hRetMem m hm)).1) fun m hm => ((hMem m).mp (hRetMem m hm)).2
  have hZeros := returnZeros_spec hWork.good hWork.exact (hWork.nodes_eq.symm ▸ hn)
    ((List.range (cfg.lOut - (g.mlmi n).outputs.length)).drop returned.length)
  rw [List.length_drop, List.length_range] at hZeros
  refine ⟨_, ?_, ⟨hWork.trans hZeros.work, ?_, ?_, ?_⟩⟩
  · refine bind_eq_ok.mpr ⟨_, hRounds, ?_⟩
    simp only [hPossible, hRet]
    rfl
  · rw [hZeros.inputs_eq, hSelf]
  · rw [hZeros.outputs_length, hSelf, List.length_append]
    omega
  · rw [hZeros.seq_length, hSelf]
    -- zeros are added only when all variables are outputs, and then there are few of them
    have hAll := length_getDefs_eq hg hn
    rw [hPossible, MLMI.getDefs, defs, List.length_map] at hAll
    show (g.mlmi n).seq.length + _ ≤ _
    omega

-- ---------------------------------------------------------------------------
-- One layer
-- ---------------------------------------------------------------------------

/-- The graph while a layer is padded: other nodes stay as they are. -/
structure Padding (cfg : Config) (g₀ g₁ : DFG) (layers : List (List Nat)) (layer : List Nat)
    (g : DFG) :
    Prop where
  stretched : Stretched cfg g₀ g layers
  nodes_eq : g.nodes = g₁.nodes
  progInputs_eq : g.progInputs = g₁.progInputs
  progOutputs_eq : g.progOutputs = g₁.progOutputs
  other : ∀ n ∉ layer, g.mlmi n = g₁.mlmi n

section Layer

variable {cfg : Config} {g₀ g₁ g g' : DFG} {layers before after : List (List Nat)}
  {layer prev : List Nat} {n : Nat}

theorem Padding.start (h : Stretched cfg g₀ g₁ layers) : Padding cfg g₀ g₁ layers layer g₁ :=
  ⟨h, rfl, rfl, rfl, fun _ _ => rfl⟩

theorem Padding.trans {layer' : List Nat} (h : Padding cfg g₀ g₁ layers layer g)
    (h' : Padding cfg g₀ g layers layer' g') (hSub : ∀ n ∈ layer', n ∈ layer) :
    Padding cfg g₀ g₁ layers layer g' :=
  ⟨h'.stretched, h'.nodes_eq.trans h.nodes_eq, h'.progInputs_eq.trans h.progInputs_eq,
    h'.progOutputs_eq.trans h.progOutputs_eq, fun n hn => by
      rw [h'.other n fun hIn => hn (hSub n hIn), h.other n hn]⟩

/-- Work on one node of the layer. -/
theorem Padding.worked (h : Padding cfg g₀ g₁ layers layer g)
    (hSplit : layers = before ++ layer :: after) (hn : n ∈ layer) (hWork : DFG.Worked [] g g' n)
    (hIn : ∀ m ∈ (g'.mlmi n).inputs, m ∈ (g.mlmi n).inputs ∨ Available g before m)
    (hWithin : (g'.mlmi n).Within cfg) : Padding cfg g₀ g₁ layers layer g' where
  stretched := h.stretched.worked hSplit hn hWork hIn hWithin
  nodes_eq := hWork.nodes_eq.trans h.nodes_eq
  progInputs_eq := hWork.meaning.progInputs_eq.trans h.progInputs_eq
  progOutputs_eq := hWork.progOutputs_eq.trans h.progOutputs_eq
  other := fun a ha => by
    have hne : a ≠ n := fun hEq => ha (hEq ▸ hn)
    rw [hWork.other a hne, h.other a ha]

/-- What the layer before gives out stays available. -/
theorem Padding.available (h : Padding cfg g₀ g₁ layers layer g)
    (h₁ : Layered g₁ layers) (hSplit : layers = before ++ layer :: after) {m : Nat}
    (hm : Available g₁ before m) : Available g before m := by
  refine hm.mono h.progInputs_eq fun l hl a ha x hx => ?_
  rw [h.other a fun hIn => ?_]
  · exact hx
  · subst hSplit
    exact h₁.ne_of_mem (List.mem_append_left _ hl) ha hIn rfl

/-- The inputs of a layer. -/
theorem padLayerInputs_returns {rnd : Random} (hFair : rnd.Fair) (h : Stretched cfg g₀ g₁ layers)
    (hSplit : layers = before ++ layer :: after) (hBefore : before ≠ []) (hNodup : prev.Nodup)
    (hPrev : ∀ m ∈ prev, Available g₁ before m) (hLen : layer ≠ [] → cfg.lIn ≤ prev.length) :
    ∃ g, Returns (fun fuel => layer.foldlM (padInputs rnd fuel cfg prev) g₁) g ∧
      Padding cfg g₀ g₁ layers layer g ∧ ∀ n ∈ layer, (g.mlmi n).inputs.length = cfg.lIn := by
  refine exists_foldlM_returns (f := fun fuel => padInputs rnd fuel cfg prev)
    (P := fun done g => Padding cfg g₀ g₁ layers layer g ∧
      ∀ n ∈ done, (g.mlmi n).inputs.length = cfg.lIn)
    (fun done n rest hNodes g hg => ?_) ⟨.start h, by simp⟩
  obtain ⟨hPad, hDone⟩ := hg
  have hn : n ∈ layer := by simp [hNodes]
  have hnMem : n ∈ g.nodes := hPad.stretched.layered.mem_nodes (by simp [hSplit]) hn
  have hAv : ∀ m ∈ prev, Available g before m := fun m hm =>
    hPad.available h.layered hSplit (hPrev m hm)
  have hGives : ∀ m ∈ prev, ∃ a ∈ g.nodes, m ∈ (g.mlmi a).outputs := by
    intro m hm
    obtain ⟨before', last, rfl⟩ := (List.eq_nil_or_concat' before).resolve_left hBefore
    obtain ⟨a, ha, hOut⟩ := available_concat.mp (hAv m hm)
    exact ⟨a, hPad.stretched.layered.mem_nodes (by simp [hSplit]) ha, hOut⟩
  have hWithin := hPad.stretched.within n hnMem
  obtain ⟨g', hOne, hTook, hFull⟩ :=
    padInputs_returns hFair hPad.stretched.good hPad.stretched.exact
    hnMem hNodup hGives (hLen (List.ne_nil_of_mem hn)) hWithin.inputs_le
  refine ⟨g', hOne, hPad.worked hSplit hn hTook.work (fun m hm => ?_) ⟨?_, ?_, ?_⟩, fun a ha => ?_⟩
  · exact (hTook.inputs_from m hm).imp_right (hAv m)
  · exact hFull.le
  · rw [hTook.outputs_eq]
    exact hWithin.outputs_le
  · rw [hTook.seq_eq]
    exact hWithin.seq_le
  · by_cases han : a = n
    · rw [han, hFull]
    · rw [hTook.work.other a han]
      refine hDone a ((List.mem_append.mp ha).resolve_right ?_)
      simpa using han

/-- The outputs of a layer. -/
theorem padLayerOutputs_ok (hSeq : cfg.lOut ≤ cfg.s) (h : Stretched cfg g₀ g₁ layers)
    (hSplit : layers = before ++ layer :: after) (ord : Orders) :
    ∃ g, layer.foldlM (padOutputs ord cfg) g₁ = .ok g ∧ Padding cfg g₀ g₁ layers layer g ∧
      ∀ n ∈ layer, (g.mlmi n).inputs = (g₁.mlmi n).inputs ∧
        (g.mlmi n).outputs.length = cfg.lOut := by
  obtain ⟨g, hFold, hPad, hInputs, hDone⟩ := exists_foldlM_ok (f := padOutputs ord cfg) (l := layer)
    (s := g₁) (P := fun done g => Padding cfg g₀ g₁ layers layer g ∧
      (∀ n ∈ layer, (g.mlmi n).inputs = (g₁.mlmi n).inputs) ∧
      ∀ n ∈ done, (g.mlmi n).outputs.length = cfg.lOut)
    (fun done n rest hNodes g hg => by
      obtain ⟨hPad, hInputs, hDone⟩ := hg
      have hn : n ∈ layer := by simp [hNodes]
      have hnMem : n ∈ g.nodes := hPad.stretched.layered.mem_nodes (by simp [hSplit]) hn
      have hWithin := hPad.stretched.within n hnMem
      obtain ⟨g', hOne, hRet⟩ := padOutputs_ok hSeq hPad.stretched.good hPad.stretched.exact hnMem
        hWithin.outputs_le hWithin.seq_le ord
      refine ⟨g', hOne, hPad.worked hSplit hn hRet.work (fun m hm => ?_) ⟨?_, ?_, ?_⟩,
        fun a ha => ?_, fun a ha => ?_⟩
      · exact Or.inl (hRet.inputs_eq ▸ hm)
      · rw [hRet.inputs_eq]
        exact hWithin.inputs_le
      · exact hRet.outputs_length.le
      · exact hRet.seq_length
      · by_cases han : a = n
        · rw [han, hRet.inputs_eq, hInputs n hn]
        · rw [hRet.work.other a han, hInputs a ha]
      · by_cases han : a = n
        · rw [han, hRet.outputs_length]
        · rw [hRet.work.other a han]
          refine hDone a ((List.mem_append.mp ha).resolve_right ?_)
          simpa using han)
    ⟨.start h, fun _ _ => rfl, by simp⟩
  exact ⟨g, hFold, hPad, fun n hn => ⟨hInputs n hn, hDone n hn⟩⟩

end Layer

-- ---------------------------------------------------------------------------
-- The pass
-- ---------------------------------------------------------------------------

theorem mem_layerOutputs {g : DFG} {layer : List Nat} {m : Nat} :
    m ∈ g.layerOutputs layer ↔ ∃ a ∈ layer, m ∈ (g.mlmi a).outputs := by
  simp [DFG.layerOutputs]

/-- A layer with a full node gives out enough. -/
theorem le_length_layerOutputs {g : DFG} {layer : List Nat} {n : Nat} (hg : g.Good) (hn : n ∈ layer)
    (hnMem : n ∈ g.nodes) : (g.mlmi n).outputs.length ≤ (g.layerOutputs layer).length :=
  (hg.outputs_nodup n hnMem).length_le_of_subset fun _ hm => mem_layerOutputs.mpr ⟨n, hn, hm⟩

/-- The graph with all nodes of the layers `middle` full. -/
structure Matched (cfg : Config) (g₀ g₁ g : DFG) (first : List Nat) (middle : List (List Nat))
    (last : List Nat) : Prop where
  stretched : Stretched cfg g₀ g (first :: middle ++ [last])
  nodes_eq : g.nodes = g₁.nodes
  progOutputs_eq : g.progOutputs = g₁.progOutputs
  first_eq : ∀ n ∈ first, g.mlmi n = g₁.mlmi n
  last_eq : ∀ n ∈ last, g.mlmi n = g₁.mlmi n
  full : ∀ l ∈ middle, ∀ n ∈ l, (g.mlmi n).inputs.length = cfg.lIn ∧
    (g.mlmi n).outputs.length = cfg.lOut

/-- The layers `done` are full and `prev` is what the last of them gives out. -/
structure Matching (cfg : Config) (g₀ g₁ : DFG) (first : List Nat) (done rest : List (List Nat))
    (last : List Nat) (g : DFG) (prev : List Nat) : Prop where
  stretched : Stretched cfg g₀ g (first :: (done ++ rest) ++ [last])
  nodes_eq : g.nodes = g₁.nodes
  progOutputs_eq : g.progOutputs = g₁.progOutputs
  first_eq : ∀ n ∈ first, g.mlmi n = g₁.mlmi n
  last_eq : ∀ n ∈ last, g.mlmi n = g₁.mlmi n
  full : ∀ l ∈ done, ∀ n ∈ l, (g.mlmi n).inputs.length = cfg.lIn ∧
    (g.mlmi n).outputs.length = cfg.lOut
  nodup : prev.Nodup
  available : ∀ m ∈ prev, Available g (first :: done) m
  enough : (∀ l ∈ rest, l = []) ∨ cfg.lIn ≤ prev.length

section Pass

variable {cfg : Config} {g₀ g₁ g : DFG} {first layer last prev : List Nat}
  {done rest : List (List Nat)}

/-- One layer. -/
theorem matchLayer_returns {rnd : Random} (hFair : rnd.Fair) (hOut : cfg.lOut = cfg.lIn)
    (hSeq : cfg.lIn ≤ cfg.s) (h : Matching cfg g₀ g₁ first done (layer :: rest) last g prev)
    (hWidth : layer = [] → ∀ l ∈ rest, l = []) (ord : Orders) (i : Nat) :
    ∃ g' prev', Returns (fun fuel => matchLayer ord rnd fuel cfg (g, prev) (layer, i)) (g', prev') ∧
      Matching cfg g₀ g₁ first (done ++ [layer]) rest last g' prev' := by
  have hSplit : first :: (done ++ layer :: rest) ++ [last] =
      (first :: done) ++ layer :: (rest ++ [last]) := by simp
  have hStretched := h.stretched
  rw [hSplit] at hStretched
  -- the layer before gives enough values to draw from
  have hLen : layer ≠ [] → cfg.lIn ≤ prev.length := fun hne =>
    h.enough.resolve_left fun hAll => hne (hAll layer (by simp))
  obtain ⟨gIn, hInputs, hPadIn, hFullIn⟩ := padLayerInputs_returns hFair hStretched rfl (by simp)
    h.nodup h.available hLen
  obtain ⟨g', hOutputs, hPadOut, hFullOut⟩ := padLayerOutputs_ok (by omega) hPadIn.stretched rfl
    (ord.fork 0)
  have hPad := hPadIn.trans hPadOut fun _ hn => hn
  have hFull : ∀ n ∈ layer, (g'.mlmi n).inputs.length = cfg.lIn ∧
      (g'.mlmi n).outputs.length = cfg.lOut := by
    intro n hn
    rw [(hFullOut n hn).1]
    exact ⟨hFullIn n hn, (hFullOut n hn).2⟩
  -- only the nodes of this layer change
  have hFrame : ∀ l ∈ first :: done ++ (rest ++ [last]), ∀ n ∈ l, g'.mlmi n = g.mlmi n :=
    fun l hl n hn => hPad.other n fun hIn => hStretched.layered.ne_of_mem hl hn hIn rfl
  generalize hPrev : ((ord.fork 1).fork i).list (g'.layerOutputs layer) = prev'
  have hPerm := hPrev ▸ ((ord.fork 1).fork i).perm_list (g'.layerOutputs layer)
  refine ⟨g', prev', ?_, ?_⟩
  · refine hInputs.bind (Returns.of_eq fun _ => bind_eq_ok.mpr ⟨g', hOutputs, ?_⟩)
    rw [hPrev]
    rfl
  refine ⟨by simpa using hPad.stretched, hPad.nodes_eq.trans h.nodes_eq,
    hPad.progOutputs_eq.trans h.progOutputs_eq, fun n hn => ?_, fun n hn => ?_, fun l hl n hn => ?_,
    hPerm.nodup_iff.mpr (List.nodup_dedup _), fun m hm => ?_, ?_⟩
  · rw [hFrame first (by simp) n hn, h.first_eq n hn]
  · rw [hFrame last (by simp) n hn, h.last_eq n hn]
  · rcases List.mem_append.mp hl with hl | hl
    · rw [hFrame l (by simp [hl]) n hn]
      exact h.full l hl n hn
    · rw [List.mem_singleton.mp hl] at hn
      exact hFull n hn
  · rw [← List.cons_append]
    exact available_concat.mpr (mem_layerOutputs.mp (hPerm.mem_iff.mp hm))
  -- a full node gives enough values for the next layer
  · rcases List.eq_nil_or_concat' layer with hNil | ⟨init, n, rfl⟩
    · exact Or.inl (hWidth hNil)
    · have hn : n ∈ init ++ [n] := by simp
      have hLe := le_length_layerOutputs hPad.stretched.good hn
        (hPad.stretched.layered.mem_nodes (by simp) hn)
      rw [(hFull n hn).2, hOut] at hLe
      exact Or.inr (hPerm.length_eq ▸ hLe)

theorem matchLayersInputsOutputs_returns {rnd : Random} (hFair : rnd.Fair)
    (hOut : cfg.lOut = cfg.lIn) (hSeq : cfg.lIn ≤ cfg.s) {middle : List (List Nat)} {width : Nat}
    (h : Stretched cfg g₀ g₁ (first :: middle ++ [last])) (hWidth : ∀ l ∈ middle, l.length = width)
    (hFirst : ∃ n ∈ first, (g₁.mlmi n).outputs.length = cfg.lIn) (ord : Orders) :
    ∃ g, Returns (fun fuel => matchLayersInputsOutputs ord rnd fuel cfg g₁
      (first :: middle ++ [last])) g ∧
      Matched cfg g₀ g₁ g first middle last := by
  generalize hPrev : (ord.fork 0).list (g₁.layerOutputs first) = prev
  have hPerm := hPrev ▸ (ord.fork 0).perm_list (g₁.layerOutputs first)
  -- the first layer gives at least as many values as an input list takes
  have hStart : Matching cfg g₀ g₁ first [] middle last g₁ prev := by
    refine ⟨h, rfl, rfl, fun _ _ => rfl, fun _ _ => rfl, by simp,
      hPerm.nodup_iff.mpr (List.nodup_dedup _), fun m hm => ?_, ?_⟩
    · show Available g₁ ([] ++ [first]) m
      exact available_concat.mpr (mem_layerOutputs.mp (hPerm.mem_iff.mp hm))
    · obtain ⟨n, hn, hLen⟩ := hFirst
      have hLe := le_length_layerOutputs h.good hn (h.layered.mem_nodes (by simp) hn)
      exact Or.inr (hLen ▸ hPerm.length_eq ▸ hLe)
  obtain ⟨st, hFold, rest, done, hRest, hDone, hMatching⟩ := exists_foldlM_returns
    (f := fun fuel => matchLayer (ord.fork 1) rnd fuel cfg)
    (l := middle.zipIdx 1) (s := (g₁, prev))
    (P := fun taken st => ∃ rest done, middle.zipIdx 1 = taken ++ rest ∧
      middle = done ++ rest.map Prod.fst ∧
      Matching cfg g₀ g₁ first done (rest.map Prod.fst) last st.1 st.2)
    (fun taken layer rest hSplit st hst => by
      obtain ⟨rest', done, hRest, hDone, hMatching⟩ := hst
      obtain rfl : layer :: rest = rest' := List.append_cancel_left (hSplit.symm.trans hRest)
      obtain ⟨g, prev⟩ := st
      -- all middle layers have one width, so one of them is idle only when all are
      have hSame : layer.1 = [] → ∀ l ∈ rest.map Prod.fst, l = [] := by
        intro hNil l hl
        have hZero := hWidth layer.1 (by simp [hDone])
        have hEq := hWidth l (by rw [hDone]; simp only [List.map_cons, List.mem_append]; simp [hl])
        rw [hNil, List.length_nil] at hZero
        exact List.length_eq_zero_iff.mp (hEq.trans hZero.symm)
      obtain ⟨g', prev', hOne, hMatching'⟩ :=
        matchLayer_returns hFair hOut hSeq hMatching hSame (ord.fork 1) layer.2
      exact ⟨(g', prev'), hOne, rest, done ++ [layer.1], by simp [hSplit], by simp [hDone],
        hMatching'⟩)
    ⟨middle.zipIdx 1, [], rfl, by simp, by simpa using hStart⟩
  have hNil : rest = [] := by simpa using hRest
  subst hNil
  obtain rfl : middle = done := by simpa using hDone
  refine ⟨st.1, ?_, ?_⟩
  · have hEq : ∀ fuel, matchLayersInputsOutputs ord rnd fuel cfg g₁ (first :: middle ++ [last]) =
        (middle.zipIdx 1).foldlM (matchLayer (ord.fork 1) rnd fuel cfg) (g₁, prev) >>=
          fun st => (.ok st.1 : Except Fault DFG) := by
      intro fuel
      rw [matchLayersInputsOutputs, middleLayers_eq, ← hPrev]
      rfl
    refine Returns.congr ?_ fun fuel => (hEq fuel).symm
    exact hFold.bind (g := fun _ st => .ok st.1) (Returns.of_eq fun _ => rfl)
  · exact ⟨by simpa using hMatching.stretched, hMatching.nodes_eq, hMatching.progOutputs_eq,
      hMatching.first_eq, hMatching.last_eq, hMatching.full⟩

end Pass

end Obscure
