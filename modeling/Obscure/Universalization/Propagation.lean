import Obscure.Universalization.Masking

/-!
# OBSCURE — the way of the outputs

`propagate_outputs_to_last_layer`: from layer to layer, the outputs of the program
that the layer before gives out are copied into nodes with room, and from the last
layer into a final one that holds nothing else.

* `propagateOutputsToLastLayer_ok` — the pass returns; the final layer gives out
  exactly the program outputs, and its shape depends on their number alone.
-/

namespace Obscure

open Lib

-- ---------------------------------------------------------------------------
-- One layer
-- ---------------------------------------------------------------------------

/-- The operands `done`, given out by the last of the layers `before`, are copied in
a layer that had the nodes `layer₀`. -/
structure Carried (cfg : Config) (g₀ g₁ : DFG) (before after : List (List Nat)) (done : List Nat)
    (st : Copying) : Prop where
  stretched : Stretched cfg g₀ st.dfg (before ++ st.layer :: after)
  progInputs_eq : st.dfg.progInputs = g₁.progInputs
  progOutputs_eq : st.dfg.progOutputs = g₁.progOutputs
  memoryCount_le : g₁.memoryCount ≤ st.dfg.memoryCount
  nodes_sub : ∀ n ∈ g₁.nodes, n ∈ st.dfg.nodes
  outputs_sub : ∀ n ∈ g₁.nodes, ∀ m ∈ (g₁.mlmi n).outputs, m ∈ (st.dfg.mlmi n).outputs
  frame : ∀ l ∈ before ++ after, ∀ n ∈ l, st.dfg.mlmi n = g₁.mlmi n
  copies : Copies g₁.memoryCount done st.dfg st.layer st.copies

section Carry

variable {cfg : Config} {g₀ g₁ : DFG} {before after : List (List Nat)} {done : List Nat}
  {st : Copying} {m : Nat}

theorem Carried.start {layer : List Nat} (h : Stretched cfg g₀ g₁ (before ++ layer :: after)) :
    Carried cfg g₀ g₁ before after [] ⟨g₁, layer, []⟩ :=
  ⟨h, rfl, rfl, le_rfl, fun _ hn => hn, fun _ _ _ hm => hm, fun _ _ _ _ => rfl, copies_nil _ _ _⟩

theorem Carried.layer_mem (h : Carried cfg g₀ g₁ before after done st) {n : Nat}
    (hn : n ∈ st.layer) : n ∈ st.dfg.nodes :=
  h.stretched.layered.mem_nodes (by simp) hn

/-- What `carry_output` does: a node is picked or made, and takes the copy. -/
theorem Carried.carryOutput_ok (h : Carried cfg g₀ g₁ before after done st)
    (pick : DFG → List Nat → Option Nat)
    (hPick : ∀ n, pick st.dfg st.layer = some n → n ∈ st.layer) (hm : Available g₁ before m)
    (hBefore : before ≠ []) :
    ∃ node g₂ layer₂ g', st.dfg.place st.layer (pick st.dfg st.layer) = (node, g₂, layer₂) ∧
      Places st.dfg g₂ layer₂ node ∧ Copied g₂ g' node m ∧
      carryOutput pick st m = .ok ⟨g', layer₂, (m, g₂.memoryCount) :: st.copies⟩ := by
  obtain ⟨node, g₂, layer₂, hPlace, hPlaces, -⟩ := place_spec h.stretched.good h.stretched.exact
    (fun n hn => h.layer_mem hn) hPick
  -- the node that gives out `m` is in the layer before
  obtain ⟨before', prev, rfl⟩ := (List.eq_nil_or_concat' before).resolve_left hBefore
  obtain ⟨a, ha, hOut⟩ := available_concat.mp hm
  have haMem : a ∈ st.dfg.nodes := h.stretched.layered.mem_nodes (by simp) ha
  have hOut₂ : m ∈ (g₂.mlmi a).outputs := by
    rw [hPlaces.old a haMem, h.frame prev (by simp) a ha]
    exact hOut
  obtain ⟨g', hAdd, hCopied⟩ := addInputOutputToNode_ok hPlaces.good hPlaces.exact
    ((hPlaces.mem_nodes node).mpr (Or.inr hPlaces.node_mem))
    ((hPlaces.mem_nodes a).mpr (Or.inl haMem)) hOut₂
  refine ⟨node, g₂, layer₂, g', hPlace, hPlaces, hCopied, ?_⟩
  unfold carryOutput
  rw [hPlace]
  exact bind_eq_ok.mpr ⟨g', hAdd, rfl⟩

/-- One more copy. -/
theorem Carried.step (hIn : 1 ≤ cfg.lIn) (hOut : 1 ≤ cfg.lOut) (hSeq : 1 ≤ cfg.s)
    (h : Carried cfg g₀ g₁ before after done st) {pick : Option Nat}
    (hPick : ∀ n, pick = some n → n ∈ st.layer ∧ st.dfg.hasRoom cfg n = true)
    (hm : Available g₁ before m) {node : Nat} {g₂ g' : DFG} {layer₂ : List Nat}
    (hPlace : st.dfg.place st.layer pick = (node, g₂, layer₂))
    (hPlaces : Places st.dfg g₂ layer₂ node) (hCopied : Copied g₂ g' node m) :
    Carried cfg g₀ g₁ before after (done ++ [m])
      ⟨g', layer₂, (m, g₂.memoryCount) :: st.copies⟩ := by
  have hOther : ∀ l ∈ before ++ after, ∀ n ∈ l, n ∈ st.dfg.nodes := fun l hl n hn => by
    refine h.stretched.layered.mem_nodes ?_ hn
    simp only [List.mem_append, List.mem_cons] at hl ⊢
    tauto
  have hGood := h.stretched.good
  -- the node has room
  have hStretched : Stretched cfg g₀ g₂ (before ++ layer₂ :: after) ∧
      (∀ n ∈ st.layer, n ∈ layer₂) ∧ (g₂.mlmi node).inputs.length < cfg.lIn ∧
      (g₂.mlmi node).outputs.length < cfg.lOut ∧ (g₂.mlmi node).seq.length < cfg.s := by
    cases pick with
    | some n =>
      simp only [DFG.place, Prod.mk.injEq] at hPlace
      obtain ⟨rfl, rfl, rfl⟩ := hPlace
      have hRoom := (hPick n rfl).2
      simp only [DFG.hasRoom, Bool.and_eq_true, decide_eq_true_eq] at hRoom
      exact ⟨h.stretched, fun _ hn => hn, hRoom.1.1, hRoom.1.2, hRoom.2⟩
    | none =>
      cases hPlace
      refine ⟨h.stretched.newNode, fun n hn => List.mem_append_left _ hn, ?_⟩
      rw [DFG.newNode_mlmi_fresh]
      exact ⟨hIn, hOut, hSeq⟩
  obtain ⟨hStretched, hSub, hRoomIn, hRoomOut, hRoomSeq⟩ := hStretched
  have hFrame₂ : ∀ l ∈ before ++ after, ∀ n ∈ l, g₂.mlmi n = g₁.mlmi n := fun l hl n hn => by
    rw [hPlaces.old n (hOther l hl n hn), h.frame l hl n hn]
  -- the copied cell still comes from the layers before
  have hAv : Available g₂ before m := by
    refine hm.mono ?_ fun l hl a ha x hx => ?_
    · rw [hPlaces.meaning.progInputs_eq, h.progInputs_eq]
    · rw [hFrame₂ l (by simp [hl]) a ha]
      exact hx
  -- the copy adds one input, one output and one instruction
  have hWithin : (g'.mlmi node).Within cfg := by
    rw [hCopied.mlmi_eq]
    refine ⟨?_, ?_, ?_⟩
    · rw [List.length_append]
      exact hRoomIn
    · rw [List.length_append]
      exact hRoomOut
    · rw [List.length_append]
      exact hRoomSeq
  refine ⟨hStretched.worked rfl hPlaces.node_mem hCopied.work (fun k hk => ?stretched) hWithin,
    ?progInputs_eq, ?progOutputs_eq, ?memoryCount_le, fun n hn => ?nodes_sub,
    fun n hn k hk => ?outputs_sub, fun l hl n hn => ?frame, ?copies⟩
  case stretched =>
    rw [hCopied.mlmi_eq] at hk
    rcases List.mem_append.mp hk with hk | hk
    · exact Or.inl hk
    · rw [List.mem_singleton.mp hk]
      exact Or.inr hAv
  case progInputs_eq =>
    exact hCopied.work.meaning.progInputs_eq.trans
      (hPlaces.meaning.progInputs_eq.trans h.progInputs_eq)
  case progOutputs_eq =>
    exact hCopied.work.progOutputs_eq.trans (hPlaces.progOutputs_eq.trans h.progOutputs_eq)
  case memoryCount_le =>
    have := hCopied.memoryCount_eq
    have := hPlaces.memoryCount_eq
    have := h.memoryCount_le
    show _ ≤ g'.memoryCount
    omega
  case nodes_sub =>
    show n ∈ g'.nodes
    rw [hCopied.work.nodes_eq]
    exact (hPlaces.mem_nodes n).mpr (Or.inl (h.nodes_sub n hn))
  case outputs_sub =>
    refine (hCopied.grows n).1 k ?_
    rw [hPlaces.old n (h.nodes_sub n hn)]
    exact h.outputs_sub n hn k hk
  case frame =>
    show g'.mlmi n = _
    rw [hCopied.work.other n (hStretched.layered.ne_of_mem hl hn hPlaces.node_mem)]
    exact hFrame₂ l hl n hn
  case copies =>
    exact h.copies.step h.memoryCount_le (fun n hn => h.layer_mem hn) hSub hPlaces hCopied

/-- Nodes stay in the layer. -/
theorem Carried.layer_sub {layer : List Nat} (h₁ : Stretched cfg g₀ g₁ (before ++ layer :: after))
    (h : Carried cfg g₀ g₁ before after done st) {n : Nat} (hn : n ∈ layer) : n ∈ st.layer := by
  have hMem := h.nodes_sub n (h₁.layered.mem_nodes (by simp) hn)
  obtain ⟨l, hl, hnl⟩ := List.mem_flatten.mp ((h.stretched.layered.mem_iff n).mpr hMem)
  rcases List.mem_append.mp hl with hl | hl
  · exact absurd rfl (h₁.layered.ne_of_mem (by simp [hl]) hnl hn)
  · rcases List.mem_cons.mp hl with rfl | hl
    · exact hnl
    · exact absurd rfl (h₁.layered.ne_of_mem (by simp [hl]) hnl hn)

/-- All copies for one layer. -/
theorem carryOutputs_ok (hIn : 1 ≤ cfg.lIn) (hOut : 1 ≤ cfg.lOut) (hSeq : 1 ≤ cfg.s)
    {layer : List Nat} (h : Stretched cfg g₀ g₁ (before ++ layer :: after)) (hBefore : before ≠ [])
    {toTake : List Nat} (hTake : ∀ m ∈ toTake, Available g₁ before m) :
    ∃ st, toTake.foldlM (carryOutput fun g layer => layer.find? (g.hasRoom cfg)) ⟨g₁, layer, []⟩ =
      .ok st ∧ Carried cfg g₀ g₁ before after toTake st := by
  refine exists_foldlM_ok (P := Carried cfg g₀ g₁ before after) (fun done m rest hSplit st hst =>
    ?_)
    (.start h)
  have hPick : ∀ n, st.layer.find? (st.dfg.hasRoom cfg) = some n →
      n ∈ st.layer ∧ st.dfg.hasRoom cfg n = true := fun n hn =>
    ⟨List.mem_of_find?_eq_some hn, List.find?_some hn⟩
  have hm := hTake m (by simp [hSplit])
  obtain ⟨node, g₂, layer₂, g', hPlace, hPlaces, hCopied, hEq⟩ := hst.carryOutput_ok
    (fun g layer => layer.find? (g.hasRoom cfg)) (fun n hn => (hPick n hn).1) hm hBefore
  exact ⟨_, hEq, hst.step hIn hOut hSeq hPick hm hPlace hPlaces hCopied⟩

end Carry

-- ---------------------------------------------------------------------------
-- All layers
-- ---------------------------------------------------------------------------

theorem mem_returnedBy {g : DFG} {layer : List Nat} {m : Nat} :
    m ∈ g.returnedBy layer ↔ m ∈ g.progOutputs ∧ ∃ a ∈ layer, m ∈ (g.mlmi a).outputs := by
  simp [DFG.returnedBy, and_comm]

/-- The outputs have come to the last of the layers `mid`, or are not met yet. -/
structure Propagating (cfg : Config) (g₀ g₁ : DFG) (first : List Nat)
    (layers mid rest : List (List Nat)) (g : DFG) (toTake : List Nat) : Prop where
  stretched : Stretched cfg g₀ g (first :: mid ++ rest)
  nodup : toTake.Nodup
  mem_toTake : ∀ m, m ∈ toTake ↔ m ∈ g.progOutputs ∧ Available g (first :: mid) m
  waiting : ∀ m ∈ g.progOutputs, m ∈ toTake ∨ ∃ l ∈ rest, ∃ a ∈ l, m ∈ (g.mlmi a).outputs
  count : g.progOutputs.dedup.length = g₁.progOutputs.dedup.length
  first_eq : ∀ n ∈ first, g.mlmi n = g₁.mlmi n
  length_eq : mid.length + rest.length = layers.length
  idle : g₁.progOutputs = [] → mid ++ rest = layers

theorem eq_nil_of_length_dedup {l l' : List Nat} (h : l.dedup.length = l'.dedup.length)
    (hNil : l' = []) : l = [] := by
  subst hNil
  simpa using h

section Layers

variable {cfg : Config} {g₀ g₁ g : DFG} {first layer toTake : List Nat}
  {layers mid rest : List (List Nat)}

theorem Propagating.toTake_eq_nil (h : Propagating cfg g₀ g₁ first layers mid rest g toTake)
    (hNil : g₁.progOutputs = []) : toTake = [] := by
  have hOut := eq_nil_of_length_dedup h.count hNil
  refine List.eq_nil_iff_forall_not_mem.mpr fun m hm => ?_
  have := ((h.mem_toTake m).mp hm).1
  rw [hOut] at this
  cases this

/-- One layer. -/
theorem propagateLayer_ok (hIn : 1 ≤ cfg.lIn) (hOut : 1 ≤ cfg.lOut) (hSeq : 1 ≤ cfg.s)
    (h : Propagating cfg g₀ g₁ first layers mid (layer :: rest) g toTake) (ord : Orders) (i : Nat) :
    ∃ g' layer' toTake', propagateLayer ord cfg (g, first :: mid, toTake) (layer, i) =
      .ok (g', first :: (mid ++ [layer']), toTake') ∧
      Propagating cfg g₀ g₁ first layers (mid ++ [layer']) rest g' toTake' := by
  have hPerm := (ord.fork i).perm_list toTake
  obtain ⟨st, hFold, hst⟩ := carryOutputs_ok hIn hOut hSeq h.stretched (by simp)
    fun m (hm : m ∈ (ord.fork i).list toTake) =>
      ((h.mem_toTake m).mp ((ord.fork i).mem_list.mp hm)).2
  -- the copies are new cells, so renaming the outputs captures nothing
  have hLt : ∀ m ∈ st.dfg.progOutputs, m < g.memoryCount := fun m hm =>
    h.stretched.good.given_lt (h.stretched.good.progOutputs_from m (hst.progOutputs_eq ▸ hm))
  obtain ⟨hGood, hExt, hCount⟩ := hst.copies.renameOutputs hst.stretched.good
    (fun n hn => hst.layer_mem hn) hLt
  have hStretched := hst.stretched.renameOutputs hGood hExt
  refine ⟨st.dfg.renameOutputs st.copies, st.layer,
    (st.dfg.renameOutputs st.copies).returnedBy st.layer, bind_eq_ok.mpr ⟨st, hFold, rfl⟩, ?_⟩
  refine ⟨by simpa using hStretched, List.nodup_dedup _, fun m => ?_, fun m hm => ?_, ?_,
    fun n hn => ?_, ?_, fun hNil => ?_⟩
  · rw [mem_returnedBy, ← List.cons_append, available_concat]
  -- an output waits in this layer when it was carried into it or is made in it
  · obtain ⟨k, hk, rfl⟩ := List.mem_map.mp hm
    rcases hst.copies.getOrSelf_cases k with ⟨hNot, hEq⟩ | ⟨-, -, -, a, ha, hOut, -⟩
    · rw [hst.progOutputs_eq] at hk
      have hNot' : k ∉ toTake := fun hIn => hNot ((ord.fork i).mem_list.mpr hIn)
      obtain ⟨l, hl, a, ha, hOut⟩ := (h.waiting k hk).resolve_left hNot'
      have haMem : a ∈ g.nodes := h.stretched.layered.mem_nodes (List.mem_append_right _ hl) ha
      have hOut' := hst.outputs_sub a haMem k hOut
      rw [hEq] at hm ⊢
      rcases List.mem_cons.mp hl with rfl | hl
      · exact Or.inl (mem_returnedBy.mpr ⟨hm, a, hst.layer_sub h.stretched ha, hOut'⟩)
      · exact Or.inr ⟨l, hl, a, ha, hOut'⟩
    · exact Or.inl (mem_returnedBy.mpr ⟨hm, a, ha, hOut⟩)
  · rw [hCount, hst.progOutputs_eq, h.count]
  · show st.dfg.mlmi n = _
    rw [hst.frame first (by simp) n hn, h.first_eq n hn]
  · have := h.length_eq
    simp only [List.length_append, List.length_cons, List.length_nil] at this ⊢
    omega
  · have hTake := h.toTake_eq_nil hNil
    have hList : (ord.fork i).list toTake = [] := by
      rw [hTake]
      exact ((ord.fork i).perm_list []).eq_nil
    rw [hList] at hFold
    cases hFold
    rw [List.append_assoc]
    exact h.idle hNil

/-- The first layer takes nothing. -/
theorem propagateLayer_first (ord : Orders) (g : DFG) (first : List Nat) (i : Nat) :
    propagateLayer ord cfg (g, [], []) (first, i) = .ok (g, [first], g.returnedBy first) := by
  have hList : (ord.fork i).list [] = [] := ((ord.fork i).perm_list []).eq_nil
  have hSame : g.renameOutputs [] = g := by
    unfold DFG.renameOutputs
    have hMap : g.progOutputs.map (getOrSelf []) = g.progOutputs := by
      refine (List.map_congr_left fun m _ => ?_).trans (List.map_id _)
      rfl
    rw [hMap]
  unfold propagateLayer
  simp only [hList, List.foldlM_nil]
  show Except.ok (g.renameOutputs [], [] ++ [first], (g.renameOutputs []).returnedBy first) = _
  rw [hSame]
  rfl

/-- The layers between the first and the final one. -/
theorem propagateLayers_ok (hIn : 1 ≤ cfg.lIn) (hOut : 1 ≤ cfg.lOut) (hSeq : 1 ≤ cfg.s)
    (h : Stretched cfg g₀ g₁ (first :: layers))
    (hFrom : ∀ m ∈ g₁.progOutputs, ∃ a ∈ g₁.nodes, m ∈ (g₁.mlmi a).outputs) (ord : Orders) :
    ∃ g mid toTake, (first :: layers).zipIdx.foldlM (propagateLayer ord cfg) (g₁, [], []) =
      .ok (g, first :: mid, toTake) ∧ Propagating cfg g₀ g₁ first layers mid [] g toTake := by
  have hStart : Propagating cfg g₀ g₁ first layers [] layers g₁ (g₁.returnedBy first) := by
    refine ⟨h, List.nodup_dedup _, fun m => mem_returnedBy, fun m hm => ?_, rfl, fun _ _ => rfl, ?_,
      fun _ => rfl⟩
    · obtain ⟨a, ha, hOut⟩ := hFrom m hm
      obtain ⟨l, hl, hal⟩ := List.mem_flatten.mp ((h.layered.mem_iff a).mpr ha)
      rcases List.mem_cons.mp hl with rfl | hl
      · exact Or.inl (mem_returnedBy.mpr ⟨hm, a, hal, hOut⟩)
      · exact Or.inr ⟨l, hl, a, hal, hOut⟩
    · simp
  obtain ⟨st, hFold, rest, hRest, mid, hMid, hProp⟩ :=
    exists_foldlM_ok (f := propagateLayer ord cfg)
    (l := layers.zipIdx 1) (s := (g₁, [first], g₁.returnedBy first))
    (P := fun done st => ∃ rest, layers.zipIdx 1 = done ++ rest ∧ ∃ mid, st.2.1 = first :: mid ∧
      Propagating cfg g₀ g₁ first layers mid (rest.map Prod.fst) st.1 st.2.2)
    (fun done layer rest hSplit st hst => by
      obtain ⟨rest', hRest, mid, hMid, hProp⟩ := hst
      obtain rfl : layer :: rest = rest' := List.append_cancel_left (hSplit.symm.trans hRest)
      obtain ⟨g, done', toTake⟩ := st
      obtain rfl : done' = first :: mid := hMid
      obtain ⟨g', layer', toTake', hOne, hProp'⟩ :=
        propagateLayer_ok hIn hOut hSeq hProp ord layer.2
      exact ⟨_, hOne, rest, by simp [hSplit], mid ++ [layer'], rfl, hProp'⟩)
    ⟨layers.zipIdx 1, rfl, [], rfl, by rw [List.zipIdx_map_fst]; exact hStart⟩
  have hNil : rest = [] := by simpa using hRest
  rw [hNil] at hProp
  refine ⟨st.1, mid, st.2.2, ?_, hProp⟩
  rw [List.zipIdx_cons, List.foldlM_cons, propagateLayer_first, ok_bind, Nat.zero_add, hFold,
    ← hMid]

end Layers

-- ---------------------------------------------------------------------------
-- The final layer
-- ---------------------------------------------------------------------------

/-- The graph with the final layer. -/
structure Propagated (cfg : Config) (g₀ g₁ g : DFG) (first : List Nat)
    (layers middle : List (List Nat)) (last : List Nat) : Prop where
  stretched : Stretched cfg g₀ g (first :: middle ++ [last])
  length_eq : middle.length = layers.length
  first_eq : ∀ n ∈ first, g.mlmi n = g₁.mlmi n
  filled : Filled cfg.lIn g last g₁.progOutputs.dedup.length
  mem_outputs : ∀ m, m ∈ g.progOutputs ↔ ∃ n ∈ last, m ∈ (g.mlmi n).outputs
  idle : g₁.progOutputs = [] → middle = layers
  busy : g₁.progOutputs ≠ [] → ∃ l ∈ middle, l ≠ []

/-- The outputs in the final layer. -/
theorem finalLayer_ok {cfg : Config} (hIn : 1 ≤ cfg.lIn) (hOut : cfg.lOut = cfg.lIn)
    (hSeq : cfg.lIn ≤ cfg.s) {g₀ g : DFG} {layers : List (List Nat)} (h : Stretched cfg g₀ g layers)
    (hLayers : layers ≠ []) {toTake : List Nat} (hNodup : toTake.Nodup)
    (hTake : ∀ m ∈ toTake, Available g layers m) :
    ∃ st, toTake.foldlM (carryOutput fun g layer => layer.getLast?.filter (g.hasRoom cfg))
      ⟨g, [], []⟩ =
      .ok st ∧ Carried cfg g₀ g layers [] toTake st ∧ Gathered cfg.lIn g toTake st := by
  refine exists_foldlM_ok
    (P := fun done st => Carried cfg g₀ g layers [] done st ∧ Gathered cfg.lIn g done st)
    (fun done m rest hSplit st hst => ?_) ⟨.start h.concat_nil, .start h.good h.exact⟩
  obtain ⟨hCarried, hGathered⟩ := hst
  have hNew : m ∉ done := not_mem_of_nodup_split hNodup hSplit
  have hPick : ∀ n, st.layer.getLast?.filter (st.dfg.hasRoom cfg) = some n →
      n ∈ st.layer ∧ st.dfg.hasRoom cfg n = true := fun n hn => by
    rw [Option.filter_eq_some_iff] at hn
    exact ⟨List.mem_of_getLast? hn.1, hn.2⟩
  have hRoom : ∀ n ∈ st.layer, st.dfg.hasRoom cfg n = true ↔
      (st.dfg.mlmi n).inputs.length < cfg.lIn := by
    intro n hn
    have hOutLen := hGathered.filled.outputs_length n hn
    have hSeqLen := hGathered.filled.seq_length n hn
    simp only [DFG.hasRoom, Bool.and_eq_true, decide_eq_true_eq]
    omega
  have hm := hTake m (by simp [hSplit])
  obtain ⟨node, g₂, layer₂, g', hPlace, hPlaces, hCopied, hEq⟩ := hCarried.carryOutput_ok
    (fun g layer => layer.getLast?.filter (g.hasRoom cfg)) (fun n hn => (hPick n hn).1) hm
    hLayers
  exact ⟨_, hEq, hCarried.step hIn (by omega) (by omega) hPick hm hPlace hPlaces hCopied,
    hGathered.step hIn hRoom hNew hPlace hPlaces hCopied⟩

theorem propagateOutputsToLastLayer_ok {cfg : Config} (hIn : 1 ≤ cfg.lIn)
    (hOut : cfg.lOut = cfg.lIn) (hSeq : cfg.lIn ≤ cfg.s) {g₀ g₁ : DFG} {first : List Nat}
    {layers : List (List Nat)} (h : Stretched cfg g₀ g₁ (first :: layers)) (hLayers : layers ≠ [])
    (hFrom : ∀ m ∈ g₁.progOutputs, ∃ a ∈ g₁.nodes, m ∈ (g₁.mlmi a).outputs) (ord : Orders) :
    ∃ g middle last, propagateOutputsToLastLayer ord cfg g₁ (first :: layers) =
      .ok (g, first :: middle ++ [last]) ∧ Propagated cfg g₀ g₁ g first layers middle last ∧
      ∀ m ∈ g.progOutputs, g₀.memoryCount ≤ m := by
  obtain ⟨g, mid, toTake, hFold, hProp⟩ :=
    propagateLayers_ok hIn (by omega) (by omega) h hFrom ord
  -- what waits after the last layer is exactly the program outputs
  have hAll : ∀ m, m ∈ toTake ↔ m ∈ g.progOutputs := fun m =>
    ⟨fun hm => ((hProp.mem_toTake m).mp hm).1, fun hm => (hProp.waiting m hm).resolve_right
      (by simp)⟩
  have hCount : toTake.length = g₁.progOutputs.dedup.length := by
    rw [← hProp.count]
    refine ((List.perm_ext_iff_of_nodup hProp.nodup (List.nodup_dedup _)).mpr fun m => ?_).length_eq
    rw [hAll m, List.mem_dedup]
  generalize hOrd : ord.fork (first :: mid).length = ord' at *
  have hPerm := ord'.perm_list toTake
  have hStretched : Stretched cfg g₀ g (first :: mid) := by simpa using hProp.stretched
  obtain ⟨st, hFinal, hCarried, hGathered⟩ := finalLayer_ok hIn hOut hSeq hStretched (by simp)
    (hPerm.nodup_iff.mpr hProp.nodup)
    fun m hm => ((hProp.mem_toTake m).mp (ord'.mem_list.mp hm)).2
  -- the copies are new cells, so renaming the outputs captures nothing
  have hLt : ∀ m ∈ st.dfg.progOutputs, m < g.memoryCount := fun m hm =>
    hStretched.good.given_lt (hStretched.good.progOutputs_from m (hCarried.progOutputs_eq ▸ hm))
  obtain ⟨hGood, hExt, -⟩ := hCarried.copies.renameOutputs hCarried.stretched.good
    (fun n hn => hCarried.layer_mem hn) hLt
  -- a program output is a copy, and so a new cell
  have hFresh : ∀ m ∈ (st.dfg.renameOutputs st.copies).progOutputs, g₀.memoryCount ≤ m := by
    intro m hm
    obtain ⟨k, hk, rfl⟩ := List.mem_map.mp hm
    rcases hCarried.copies.getOrSelf_cases k with ⟨hNot, -⟩ | ⟨-, -, hLow, -⟩
    · rw [hCarried.progOutputs_eq] at hk
      exact absurd (ord'.mem_list.mpr ((hAll k).mpr hk)) hNot
    · exact hStretched.meaning.memoryCount_le.trans hLow
  refine ⟨st.dfg.renameOutputs st.copies, mid, st.layer, ?_, ?_, hFresh⟩
  · unfold propagateOutputsToLastLayer
    rw [hFold, ok_bind]
    have hMin : ¬ (min (min cfg.lIn cfg.lOut) cfg.s = 0 ∧ toTake ≠ []) := by
      omega
    simp only [if_neg hMin, hOrd]
    exact bind_eq_ok.mpr ⟨st, hFinal, rfl⟩
  refine ⟨hCarried.stretched.renameOutputs hGood hExt, ?_, fun n hn => ?_, ?_,
    fun m => ⟨fun hm => ?_, ?_⟩, fun hNil => ?_, fun hne => ?_⟩
  · simpa using hProp.length_eq
  · show st.dfg.mlmi n = _
    rw [hCarried.frame first (by simp) n hn, hProp.first_eq n hn]
  · have hFilled := hGathered.filled
    rw [ord'.length_list, hCount] at hFilled
    exact ⟨hFilled.outputs_length, hFilled.seq_length, hFilled.le_cap, hFilled.sizes⟩
  -- an output that was renamed comes from the layer of its copy
  · obtain ⟨k, hk, rfl⟩ := List.mem_map.mp hm
    rcases hCarried.copies.getOrSelf_cases k with ⟨hNot, -⟩ | ⟨-, -, -, a, ha, hOut, -⟩
    · rw [hCarried.progOutputs_eq] at hk
      exact absurd (ord'.mem_list.mpr ((hAll k).mpr hk)) hNot
    · exact ⟨a, ha, hOut⟩
  · rintro ⟨n, hn, hm⟩
    obtain ⟨k, hk, hLook⟩ := hGathered.gives n hn m hm
    refine List.mem_map.mpr ⟨k, ?_, ?_⟩
    · rw [hCarried.progOutputs_eq]
      exact (hAll k).mp (ord'.mem_list.mp hk)
    · rw [getOrSelf, hLook]
      rfl
  · simpa using hProp.idle hNil
  -- with an output to carry, the layer before the last one is busy
  · have hMid : mid ≠ [] := by
      rintro rfl
      exact hLayers (List.length_eq_zero_iff.mp (by simpa using hProp.length_eq.symm))
    obtain ⟨mid', prev, rfl⟩ := (List.eq_nil_or_concat' mid).resolve_left hMid
    have hOuts : g.progOutputs ≠ [] :=
      fun hNil => hne (eq_nil_of_length_dedup hProp.count.symm hNil)
    obtain ⟨m, hm⟩ := List.exists_mem_of_ne_nil _ hOuts
    have hAv := ((hProp.mem_toTake m).mp ((hAll m).mpr hm)).2
    rw [← List.cons_append] at hAv
    obtain ⟨a, ha, -⟩ := available_concat.mp hAv
    exact ⟨prev, by simp, List.ne_nil_of_mem ha⟩

end Obscure
