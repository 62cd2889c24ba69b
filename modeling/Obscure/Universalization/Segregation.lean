import Obscure.Universalization.Layering

/-!
# OBSCURE — no edge skips a layer

`segregate_layers` goes from the last layer to the first. When it is done with a
node, every operand the node reads is an output of the layer before; the copies
that this takes are made in that layer, within the limits of its nodes, or in new
nodes of it. A copy made for one reader is used again for the next ones.

* `breakEdge_ok`            — one edge;
* `rectangularize_returns`  — the pass ends; the graph means what it meant before,
  its nodes stay within the limits, and every layer reads from the one before.
-/

namespace Obscure

open Lib

/-- The sizes of a node are those the secure element can take. -/
structure MLMI.Within (cfg : Config) (x : MLMI) : Prop where
  inputs_le : x.inputs.length ≤ cfg.lIn
  outputs_le : x.outputs.length ≤ cfg.lOut
  seq_le : x.seq.length ≤ cfg.s

instance (cfg : Config) (x : MLMI) : Decidable (x.Within cfg) :=
  decidable_of_iff (x.inputs.length ≤ cfg.lIn ∧ x.outputs.length ≤ cfg.lOut ∧ x.seq.length ≤ cfg.s)
    ⟨fun h => ⟨h.1, h.2.1, h.2.2⟩, fun h => ⟨h.inputs_le, h.outputs_le, h.seq_le⟩⟩

namespace DFG

-- ---------------------------------------------------------------------------
-- A reader is sent to a copy
-- ---------------------------------------------------------------------------

/-- `b` gives out `c`, a copy of `m` that `dst` can read instead of `m`. -/
structure Redirects (g : DFG) (dst b m c : Nat) : Prop where
  good : g.Good
  exact : g.Exact []
  dst_mem : dst ∈ g.nodes
  b_mem : b ∈ g.nodes
  ne : b ≠ dst
  output : c ∈ (g.mlmi b).outputs
  copy : mov c (.loc m) ∈ (g.mlmi b).seq
  copy_ne : c ≠ m
  other : m ∉ (g.mlmi dst).getDefs
  reads : m ∈ (g.mlmi dst).inputs ∨ c ∈ (g.mlmi dst).inputs

section Redirect

variable {g : DFG} {dst b m c : Nat}

/-- The node does not define the location that is replaced. -/
theorem Redirects.defs_fixed (h : g.Redirects dst b m c) :
    ∀ k ∈ (g.mlmi dst).getDefs, replaceInput m c k = k := fun k hk =>
  if_neg (show ¬ k = m from fun hEq => h.other (hEq ▸ hk))

/-- Its new inputs are given. -/
theorem Redirects.given (h : g.Redirects dst b m c) :
    ∀ k ∈ (g.mlmi dst).inputs.map (replaceInput m c), g.Given k := by
  intro k hk
  obtain ⟨j, hj, rfl⟩ := List.mem_map.mp hk
  unfold replaceInput
  split
  · exact Or.inr ⟨b, h.b_mem, h.output⟩
  · exact h.good.inputs_from dst h.dst_mem j hj

/-- The replacement is one edit. -/
theorem Redirects.edited (h : g.Redirects dst b m c) :
    Edited g (g.renameIn dst (replaceInput m c)) dst
      ⟨(g.mlmi dst).seq.map (Instr.rename (replaceInput m c) id),
        (g.mlmi dst).inputs.map (replaceInput m c), (g.mlmi dst).outputs⟩ :=
  h.good.rewire_edited h.dst_mem (fun _ hk => List.mem_map_of_mem hk) h.defs_fixed h.given

/-- The copy has the value of what it replaces, so that the meaning stays. -/
theorem Redirects.meaning (h : g.Redirects dst b m c) :
    Extends g (g.renameIn dst (replaceInput m c)) := by
  refine h.good.extends_rewire h.dst_mem (fun _ hk => List.mem_map_of_mem hk) h.defs_fixed h.given
    fun τ hτ k _ => ?_
  unfold replaceInput
  split
  · next hk =>
    have hHolds := hτ b h.b_mem (by simpa using h.ne) _ h.copy
    rw [holds_mov] at hHolds
    rw [hk, hHolds]
    rfl
  · rfl

/-- No outputs change. -/
theorem Redirects.outputs_eq (h : g.Redirects dst b m c) (a : Nat) :
    ((g.renameIn dst (replaceInput m c)).mlmi a).outputs = (g.mlmi a).outputs := by
  by_cases ha : a = dst
  · rw [ha, h.edited.mlmi_self]
  · rw [h.edited.mlmi_of_ne ha]

/-- Other nodes are fed as before. -/
theorem Redirects.feeds_other (h : g.Redirects dst b m c) {a e : Nat} (he : e ≠ dst) :
    (g.renameIn dst (replaceInput m c)).Feeds a e ↔ g.Feeds a e := by
  unfold Feeds
  rw [h.outputs_eq, h.edited.mlmi_of_ne he]

/-- Who feeds the node afterwards. -/
theorem Redirects.feeds_dst (h : g.Redirects dst b m c) {a : Nat} :
    (g.renameIn dst (replaceInput m c)).Feeds a dst ↔
      ∃ k ∈ (g.mlmi dst).inputs, replaceInput m c k ∈ (g.mlmi a).outputs := by
  unfold Feeds
  rw [h.outputs_eq, h.edited.mlmi_self]
  constructor
  · rintro ⟨k, hOut, hIn⟩
    obtain ⟨j, hj, rfl⟩ := List.mem_map.mp hIn
    exact ⟨j, hj, hOut⟩
  · rintro ⟨j, hj, hOut⟩
    exact ⟨_, hOut, List.mem_map_of_mem hj⟩

/-- A node that does not give out `m` feeds the reader as before; in addition `b`
does. -/
theorem Redirects.feeds_dst_iff (h : g.Redirects dst b m c) {a : Nat} (ha : a ∈ g.nodes)
    (hm : m ∉ (g.mlmi a).outputs) :
    (g.renameIn dst (replaceInput m c)).Feeds a dst ↔ g.Feeds a dst ∨ a = b := by
  rw [h.feeds_dst]
  constructor
  · rintro ⟨k, hk, hOut⟩
    unfold replaceInput at hOut
    split at hOut
    · exact Or.inr (h.good.output_unique ha h.b_mem hOut h.output)
    · exact Or.inl ⟨k, hOut, hk⟩
  · rintro (⟨k, hOut, hk⟩ | rfl)
    · have hkm : k ≠ m := fun hEq => hm (hEq ▸ hOut)
      exact ⟨k, hk, by rwa [replaceInput, if_neg hkm]⟩
    · rcases h.reads with hRead | hRead
      · exact ⟨m, hRead, by rw [replaceInput, if_pos rfl]; exact h.output⟩
      · exact ⟨c, hRead, by rw [replaceInput, if_neg h.copy_ne]; exact h.output⟩

/-- The edges when `m` is a program input. -/
theorem Redirects.exact_prog (h : g.Redirects dst b m c) (hm : m ∈ g.progInputs) :
    ((g.renameIn dst (replaceInput m c)).addEdge b dst).Exact [] := by
  intro a e
  rw [mem_addEdge]
  show e ∈ g.forwardEdges a ∨ _ ↔
    a ∈ g.nodes ∧ e ∈ g.nodes ∧ e ∉ [] ∧ (g.renameIn dst (replaceInput m c)).Feeds a e
  rw [h.exact a e]
  have hNot : ∀ a ∈ g.nodes, m ∉ (g.mlmi a).outputs := fun a ha hOut =>
    h.good.progInputs_kept a ha m (h.good.outputs_sub a ha m hOut) hm
  by_cases he : e = dst
  · subst he
    constructor
    · rintro (⟨ha, hb, hp, hF⟩ | ⟨rfl, -⟩)
      · exact ⟨ha, hb, hp, (h.feeds_dst_iff ha (hNot a ha)).mpr (Or.inl hF)⟩
      · exact ⟨h.b_mem, h.dst_mem, List.not_mem_nil,
          (h.feeds_dst_iff h.b_mem (hNot a h.b_mem)).mpr (Or.inr rfl)⟩
    · rintro ⟨ha, hb, hp, hF⟩
      exact ((h.feeds_dst_iff ha (hNot a ha)).mp hF).imp (fun hF => ⟨ha, hb, hp, hF⟩)
        fun hEq => ⟨hEq, rfl⟩
  · rw [h.feeds_other he]
    simp [he]

/-- The edges when `d` gives out `m`. -/
theorem Redirects.exact_output (h : g.Redirects dst b m c) {d : Nat} (hd : d ∈ g.nodes)
    (hm : m ∈ (g.mlmi d).outputs) :
    (((g.renameIn dst (replaceInput m c)).addEdge b dst).removeForwardEdgeIfNeeded d dst).Exact
    [] := by
  set g₁ := (g.renameIn dst (replaceInput m c)).addEdge b dst with hg₁
  have hNot : ∀ a ∈ g.nodes, a ≠ d → m ∉ (g.mlmi a).outputs := fun a ha hne hOut =>
    hne (h.good.output_unique ha hd hOut hm)
  have hMem : ∀ a e, e ∈ g₁.forwardEdges a ↔
      (a ∈ g.nodes ∧ e ∈ g.nodes ∧ e ∉ [] ∧ g.Feeds a e) ∨ a = b ∧ e = dst := by
    intro a e
    rw [hg₁, mem_addEdge, ← h.exact a e]
    rfl
  -- away from `d`, and at other readers, nothing is removed
  have hKept : ∀ a e, (a ≠ d ∨ e ≠ dst) →
      (e ∈ g₁.forwardEdges a ↔ a ∈ g₁.nodes ∧ e ∈ g₁.nodes ∧ e ∉ [] ∧ g₁.Feeds a e) := by
    intro a e hae
    rw [hMem]
    by_cases he : e = dst
    · subst he
      have had : a ≠ d := hae.resolve_right fun hne => hne rfl
      constructor
      · rintro (⟨ha, hb, hp, hF⟩ | ⟨rfl, -⟩)
        · exact ⟨ha, hb, hp, (h.feeds_dst_iff ha (hNot a ha had)).mpr (Or.inl hF)⟩
        · exact ⟨h.b_mem, h.dst_mem, List.not_mem_nil,
            (h.feeds_dst_iff h.b_mem (hNot a h.b_mem had)).mpr (Or.inr rfl)⟩
      · rintro ⟨ha, hb, hp, hF⟩
        exact ((h.feeds_dst_iff ha (hNot a ha had)).mp hF).imp (fun hF => ⟨ha, hb, hp, hF⟩)
          fun hEq => ⟨hEq, rfl⟩
    · have hOther := h.feeds_other (a := a) he
      show _ ↔ a ∈ g.nodes ∧ e ∈ g.nodes ∧ e ∉ [] ∧ (g.renameIn dst (replaceInput m c)).Feeds a e
      rw [hOther]
      simp [he]
  have hAny : ((g₁.mlmi dst).inputs.any fun k => k ∈ (g₁.mlmi d).outputs) = true ↔
      g₁.Feeds d dst := by
    simp only [List.any_eq_true, decide_eq_true_eq, Feeds]
    exact exists_congr fun k => and_comm
  unfold removeForwardEdgeIfNeeded
  -- `d` keeps its edge to `dst` when `dst` still reads one of its other outputs
  split
  · next hStill =>
    have hFeeds := hAny.mp hStill
    intro a e
    by_cases hae : a ≠ d ∨ e ≠ dst
    · exact hKept a e hae
    · obtain ⟨rfl, rfl⟩ : a = d ∧ e = dst := by
        push Not at hae
        exact hae
      refine iff_of_true ((hMem a e).mpr ?_) ⟨hd, h.dst_mem, List.not_mem_nil, hFeeds⟩
      obtain ⟨k, hk, hOut⟩ := h.feeds_dst.mp hFeeds
      unfold replaceInput at hOut
      split at hOut
      · exact Or.inr ⟨h.good.output_unique hd h.b_mem hOut h.output, rfl⟩
      · exact Or.inl ⟨hd, h.dst_mem, List.not_mem_nil, k, hOut, hk⟩
  · next hGone =>
    have hFeeds : ¬ g₁.Feeds d dst := fun hF => hGone (hAny.mpr hF)
    intro a e
    show e ∈ Function.update g₁.forwardEdges d _ a ↔
      a ∈ g₁.nodes ∧ e ∈ g₁.nodes ∧ e ∉ [] ∧ g₁.Feeds a e
    by_cases had : a = d
    · subst had
      rw [Function.update_self, List.mem_filter]
      by_cases he : e = dst
      · subst he
        simp [hFeeds]
      · rw [hKept a e (Or.inr he)]
        simp [he]
    · rw [Function.update_of_ne had]
      exact hKept a e (Or.inl had)

end Redirect

/-- An edge that is there already. -/
theorem Exact.addEdge_of_feeds {g : DFG} {pending : List Nat} (h : g.Exact pending) {d n : Nat}
    (hd : d ∈ g.nodes) (hn : n ∈ g.nodes) (hPend : n ∉ pending) (hFeeds : g.Feeds d n) :
    (g.addEdge d n).Exact pending := by
  intro a b
  rw [mem_addEdge]
  show _ ↔ a ∈ g.nodes ∧ b ∈ g.nodes ∧ b ∉ pending ∧ g.Feeds a b
  rw [h a b]
  constructor
  · rintro (hOld | ⟨rfl, rfl⟩)
    · exact hOld
    · exact ⟨hd, hn, hPend, hFeeds⟩
  · exact Or.inl

-- ---------------------------------------------------------------------------
-- A copy is made
-- ---------------------------------------------------------------------------

/-- An input can be taken before or after a copy is given out. -/
theorem takeInput_giveOutFirst (g : DFG) (n m : Nat) (src : Operand Nat) :
    (g.giveOutFirst n src).takeInput n m = (g.takeInput n m).giveOutFirst n src := by
  simp [takeInput, giveOutFirst, edit]

/-- What `make_alternative` does to the graph. -/
structure Alternative (g g' : DFG) (m node : Nat) : Prop where
  good : g'.Good
  exact : g'.Exact []
  meaning : Extends g g'
  nodes_eq : g'.nodes = g.nodes
  fresh_eq : g'.fresh = g.fresh
  progOutputs_eq : g'.progOutputs = g.progOutputs
  other : ∀ a ≠ node, g'.mlmi a = g.mlmi a
  seq_eq : (g'.mlmi node).seq = mov g.memoryCount (.loc m) :: (g.mlmi node).seq
  outputs_eq : (g'.mlmi node).outputs = (g.mlmi node).outputs ++ [g.memoryCount]
  inputs_eq : (g'.mlmi node).inputs =
    if m ∈ (g.mlmi node).inputs then (g.mlmi node).inputs else (g.mlmi node).inputs ++ [m]

/-- An alternative can be made in every node. -/
theorem makeAlternative_ok {g : DFG} (hg : g.Good) (hExact : g.Exact []) {m node : Nat}
    (hn : node ∈ g.nodes) (hm : g.Given m) :
    ∃ g', g.makeAlternative m node = .ok g' ∧ Alternative g g' m node := by
  unfold makeAlternative
  by_cases hRead : m ∈ (g.mlmi node).inputs
  · have hSrc : g.Readable node (.loc m) := fun k hk => by
      cases hk
      exact hRead
    have hEdited := hg.giveOutFirst_edited hn hSrc
    refine ⟨_, if_pos hRead, hg.edited hn hEdited, hg.exact_giveOutFirst hExact hn hSrc,
      hg.extends_giveOutFirst hn hSrc, rfl, rfl, rfl, fun a ha => hEdited.mlmi_of_ne ha, ?_, ?_, ?_⟩
    · rw [hEdited.mlmi_self]
    · rw [hEdited.mlmi_self]
    · rw [hEdited.mlmi_self, if_pos hRead]
  · rw [if_neg hRead]
    -- the input first, then the copy of it
    have hTake := hg.takeInput_edited hn hm
    have hGood := hg.edited hn hTake
    have hSrc : (g.takeInput node m).Readable node (.loc m) := fun k hk => by
      cases hk
      rw [hTake.mlmi_self]
      simp
    have hGive := hGood.giveOutFirst_edited hn hSrc
    have hGood' := hGood.edited hn hGive
    have hExt := (hg.extends_takeInput hn hm).trans (hGood.extends_giveOutFirst hn hSrc)
    have hOther : ∀ a ≠ node, ((g.takeInput node m).giveOutFirst node (.loc m)).mlmi a = g.mlmi a :=
      fun a ha => (hGive.mlmi_of_ne ha).trans (hTake.mlmi_of_ne ha)
    have hSelf : ((g.takeInput node m).giveOutFirst node (.loc m)).mlmi node =
        ⟨mov g.memoryCount (.loc m) :: (g.mlmi node).seq, (g.mlmi node).inputs ++ [m],
          (g.mlmi node).outputs ++ [g.memoryCount]⟩ := by
      rw [hGive.mlmi_self, hTake.mlmi_self]
      rfl
    rw [takeInput_giveOutFirst]
    by_cases hProg : m ∈ g.progInputs
    · refine ⟨_, if_pos hProg, hGood', hGood.exact_giveOutFirst
        (hg.exact_takeInput_prog hExact hn hProg) hn hSrc, hExt, rfl, rfl, rfl, hOther, ?_, ?_, ?_⟩
      · rw [hSelf]
      · rw [hSelf]
      · rw [hSelf, if_neg hRead]
    · obtain ⟨d, hd, hOut⟩ := hm.resolve_left hProg
      have hOut' : m ∈ (((g.takeInput node m).giveOutFirst node (.loc m)).mlmi d).outputs := by
        by_cases hdn : d = node
        · subst hdn
          rw [hSelf]
          exact List.mem_append_left _ hOut
        · rwa [hOther d hdn]
      have hEdge := hg.exact_takeInput hExact hn List.not_mem_nil hd hOut
      refine ⟨((g.takeInput node m).giveOutFirst node (.loc m)).addEdge d node, ?_,
        hGood'.addEdge d node, (hGood.addEdge d node).exact_giveOutFirst hEdge hn hSrc,
        hExt.trans (extends_of_forward _ _), rfl, rfl, rfl, hOther, ?_, ?_, ?_⟩
      · refine (if_neg hProg).trans ?_
        rw [hGood'.defNode_output hd hOut']
        rfl
      · exact congrArg MLMI.seq hSelf
      · exact congrArg MLMI.outputs hSelf
      · rw [if_neg hRead]
        exact congrArg MLMI.inputs hSelf

end DFG

-- ---------------------------------------------------------------------------
-- The state of the pass
-- ---------------------------------------------------------------------------

/-- What holds while the layer after `mid` is worked on: `g₀` is the graph the pass
started from. -/
structure Segregating (cfg : Config) (g₀ : DFG) (mid : Nat) (st : SegState) : Prop where
  good : st.dfg.Good
  exact : st.dfg.Exact []
  meaning : DFG.Extends g₀ st.dfg
  outputs_eq : st.dfg.progOutputs = g₀.progOutputs
  nodes_sub : ∀ n ∈ g₀.nodes, n ∈ st.dfg.nodes
  within : ∀ n ∈ st.dfg.nodes, (st.dfg.mlmi n).Within cfg
  ranked : Ranked st.dfg st.nodeLayers st.layers
  mid_lt : mid < st.layers.length
  alternative : ∀ m c, st.alternativeDefs m mid = some c →
    ∃ a ∈ st.layers.getD mid [], c ∈ (st.dfg.mlmi a).outputs ∧ mov c (.loc m) ∈ (st.dfg.mlmi a).seq
  untouched : ∀ k < mid, ∀ m, st.alternativeDefs m k = none

/-- What a step may change: nodes of layer `mid`, and the inputs of `dst`. -/
structure SegStep (mid dst : Nat) (st st' : SegState) : Prop where
  length_eq : st'.layers.length = st.layers.length
  layer_other : ∀ k, k ≠ mid → st'.layers.getD k [] = st.layers.getD k []
  layer_mid : ∀ n ∈ st.layers.getD mid [], n ∈ st'.layers.getD mid []
  inputs_other : ∀ n ∈ st.dfg.nodes, n ≠ dst → n ∉ st.layers.getD mid [] →
    (st'.dfg.mlmi n).inputs = (st.dfg.mlmi n).inputs
  outputs_kept : ∀ n ∈ st.dfg.nodes, ∀ m ∈ (st.dfg.mlmi n).outputs, m ∈ (st'.dfg.mlmi n).outputs
  nodes_kept : ∀ n ∈ st.dfg.nodes, n ∈ st'.dfg.nodes
  alternatives_kept : ∀ m c, st.alternativeDefs m mid = some c → st'.alternativeDefs m mid = some c

theorem SegStep.refl (mid dst : Nat) (st : SegState) : SegStep mid dst st st :=
  ⟨rfl, fun _ _ => rfl, fun _ h => h, fun _ _ _ _ => rfl, fun _ _ _ h => h, fun _ h => h,
    fun _ _ h => h⟩

section Facts

variable {cfg : Config} {g₀ : DFG} {mid dst : Nat} {st st' st'' : SegState}

/-- Layers do not overlap. -/
theorem Ranked.layer_unique {g : DFG} {nodeLayers : List (Nat × Nat)} {layers : List (List Nat)}
    (h : Ranked g nodeLayers layers) {n j k : Nat} (hj : n ∈ layers.getD j [])
    (hk : n ∈ layers.getD k []) : j = k :=
  Option.some.inj (((h.mem_layer j n).mp hj).2.symm.trans ((h.mem_layer k n).mp hk).2)

/-- The nodes of the layers are those of the graph. -/
theorem Segregating.mem_nodes (h : Segregating cfg g₀ mid st) {k n : Nat}
    (hn : n ∈ st.layers.getD k []) : n ∈ st.dfg.nodes :=
  ((h.ranked.mem_layer k n).mp hn).1

/-- What comes from a layer still does. -/
theorem SegStep.fromLayer (h : Segregating cfg g₀ mid st) (hStep : SegStep mid dst st st')
    {k m : Nat} (hm : FromLayer st.dfg st.layers k m) : FromLayer st'.dfg st'.layers k m := by
  obtain ⟨a, ha, hOut⟩ := hm
  refine ⟨a, ?_, hStep.outputs_kept a (h.mem_nodes ha) m hOut⟩
  by_cases hk : k = mid
  · subst hk
    exact hStep.layer_mid a ha
  · rwa [hStep.layer_other k hk]

/-- One step after the other. -/
theorem SegStep.trans (h : Segregating cfg g₀ mid st) (h' : Segregating cfg g₀ mid st')
    (hStep : SegStep mid dst st st') (hStep' : SegStep mid dst st' st'') :
    SegStep mid dst st st'' where
  length_eq := hStep'.length_eq.trans hStep.length_eq
  layer_other := fun k hk => (hStep'.layer_other k hk).trans (hStep.layer_other k hk)
  layer_mid := fun n hn => hStep'.layer_mid n (hStep.layer_mid n hn)
  inputs_other := by
    intro n hn hne hOut
    -- a node that was not in layer `mid` has not moved there
    have hOut' : n ∉ st'.layers.getD mid [] := by
      intro hIn
      obtain ⟨k, hk⟩ := h.ranked.placed n hn
      have hLayer : n ∈ st.layers.getD k [] := (h.ranked.mem_layer k n).mpr ⟨hn, hk⟩
      have hkm : k ≠ mid := by
        rintro rfl
        exact hOut hLayer
      rw [← hStep.layer_other k hkm] at hLayer
      exact hkm (h'.ranked.layer_unique hLayer hIn)
    rw [hStep'.inputs_other n (hStep.nodes_kept n hn) hne hOut', hStep.inputs_other n hn hne hOut]
  outputs_kept := fun n hn m hm =>
    hStep'.outputs_kept n (hStep.nodes_kept n hn) m (hStep.outputs_kept n hn m hm)
  nodes_kept := fun n hn => hStep'.nodes_kept n (hStep.nodes_kept n hn)
  alternatives_kept := fun m c hc => hStep'.alternatives_kept m c (hStep.alternatives_kept m c hc)

/-- Where `m` comes from, as the loop finds out. -/
def DefinedBy (st : SegState) (mid m : Nat) : Option Nat → Prop
  | none => m ∈ st.dfg.progInputs
  | some d => m ∈ (st.dfg.mlmi d).outputs ∧ ∃ j < mid, d ∈ st.layers.getD j []

/-- The node of a location stays the same over a step. -/
theorem DefinedBy.step (h : Segregating cfg g₀ mid st) (h' : Segregating cfg g₀ mid st')
    (hStep : SegStep mid dst st st') {m : Nat} {d : Option Nat} (hd : DefinedBy st mid m d) :
    DefinedBy st' mid m d := by
  cases d with
  | none =>
    show m ∈ st'.dfg.progInputs
    rw [h'.meaning.progInputs_eq, ← h.meaning.progInputs_eq]
    exact hd
  | some d =>
    obtain ⟨hOut, j, hj, hLayer⟩ := hd
    refine ⟨hStep.outputs_kept d (h.mem_nodes hLayer) m hOut, j, hj, ?_⟩
    rwa [hStep.layer_other j (Nat.ne_of_lt hj)]

/-- A location with a node is given. -/
theorem DefinedBy.given (h : Segregating cfg g₀ mid st) {m : Nat} {d : Option Nat}
    (hd : DefinedBy st mid m d) : st.dfg.Given m := by
  cases d with
  | none => exact Or.inl hd
  | some d =>
    obtain ⟨hOut, j, -, hLayer⟩ := hd
    exact Or.inr ⟨d, h.mem_nodes hLayer, hOut⟩

/-- Nodes from layer `mid` on do not define `m`. -/
theorem DefinedBy.not_defs (h : Segregating cfg g₀ mid st) {m : Nat} {d : Option Nat}
    (hd : DefinedBy st mid m d) {k a : Nat} (hk : mid ≤ k) (ha : a ∈ st.layers.getD k []) :
    m ∉ (st.dfg.mlmi a).getDefs := by
  intro hDef
  cases d with
  | none => exact h.good.progInputs_kept a (h.mem_nodes ha) m hDef hd
  | some d =>
    obtain ⟨hOut, j, hj, hLayer⟩ := hd
    have hEq := h.good.def_unique (h.mem_nodes hLayer) (h.mem_nodes ha)
      (h.good.outputs_sub d (h.mem_nodes hLayer) m hOut) hDef
    subst hEq
    have := h.ranked.layer_unique hLayer ha
    omega

end Facts

-- ---------------------------------------------------------------------------
-- Breaking one edge
-- ---------------------------------------------------------------------------

section Break

variable {cfg : Config} {g₀ : DFG} {mid dst m : Nat} {st : SegState}

/-- The graph of `break_edge` once there is a copy `c` in `b`. -/
def redirect (g : DFG) (defNode : Option Nat) (dst b m c : Nat) : DFG :=
  match defNode with
  | none => (g.renameIn dst (replaceInput m c)).addEdge b dst
  | some d => ((g.renameIn dst (replaceInput m c)).addEdge b dst).removeForwardEdgeIfNeeded d dst

/-- To redirect is to rename an input and to change edges. -/
theorem redirect_eq (g : DFG) (defNode : Option Nat) (dst b m c : Nat) :
    ∃ fwd, redirect g defNode dst b m c =
      { g.renameIn dst (replaceInput m c) with forwardEdges := fwd } := by
  cases defNode with
  | none => exact ⟨_, rfl⟩
  | some d =>
    rw [redirect, DFG.removeForwardEdgeIfNeeded]
    split
    · exact ⟨_, rfl⟩
    · exact ⟨_, rfl⟩

/-- The other nodes are left alone. -/
theorem redirect_mlmi_of_ne (g : DFG) (defNode : Option Nat) {dst b m c a : Nat} (ha : a ≠ dst) :
    (redirect g defNode dst b m c).mlmi a = g.mlmi a := by
  obtain ⟨fwd, hEq⟩ := redirect_eq g defNode dst b m c
  rw [hEq]
  exact Function.update_of_ne ha _ _

/-- Sending the reader to a copy in layer `mid`. -/
theorem Segregating.redirected (h : Segregating cfg g₀ mid st)
    (hdst : dst ∈ st.layers.getD (mid + 1) []) {b c : Nat} (hb : b ∈ st.layers.getD mid [])
    (hOut : c ∈ (st.dfg.mlmi b).outputs) (hCopy : mov c (.loc m) ∈ (st.dfg.mlmi b).seq)
    (hRead : m ∈ (st.dfg.mlmi dst).inputs ∨ c ∈ (st.dfg.mlmi dst).inputs) {d : Option Nat}
    (hd : DefinedBy st mid m d) :
    Segregating cfg g₀ mid { st with dfg := redirect st.dfg d dst b m c } ∧
      SegStep mid dst st { st with dfg := redirect st.dfg d dst b m c } ∧
      ((redirect st.dfg d dst b m c).mlmi dst).inputs =
        (st.dfg.mlmi dst).inputs.map (replaceInput m c) := by
  have hbMem := h.mem_nodes hb
  have hdstMem := h.mem_nodes hdst
  -- the two nodes are of consecutive layers, and a node has one layer only
  have hne : b ≠ dst := by
    rintro rfl
    have := h.ranked.layer_unique hb hdst
    omega
  have hcm : c ≠ m := by
    rintro rfl
    exact hd.not_defs h le_rfl hb (h.good.outputs_sub b hbMem c hOut)
  have hRedirects : st.dfg.Redirects dst b m c :=
    ⟨h.good, h.exact, hdstMem, hbMem, hne, hOut, hCopy, hcm, hd.not_defs h (Nat.le_succ mid) hdst,
      hRead⟩
  have hEdited := hRedirects.edited
  -- the edge of `m` goes from its old producer, or there was none
  have hExact : (redirect st.dfg d dst b m c).Exact [] := by
    cases d with
    | none => exact hRedirects.exact_prog hd
    | some d =>
      obtain ⟨hmOut, j, -, hLayer⟩ := hd
      exact hRedirects.exact_output (h.mem_nodes hLayer) hmOut
  obtain ⟨fwd, hEq⟩ := redirect_eq st.dfg d dst b m c
  rw [hEq] at hExact ⊢
  set g' : DFG := { st.dfg.renameIn dst (replaceInput m c) with forwardEdges := fwd } with hg'
  have hSelf : g'.mlmi dst = _ := hEdited.mlmi_self
  have hOther : ∀ a ≠ dst, g'.mlmi a = st.dfg.mlmi a := fun a ha => hEdited.mlmi_of_ne ha
  have hOuts : ∀ a, (g'.mlmi a).outputs = (st.dfg.mlmi a).outputs := hRedirects.outputs_eq
  have hFrom : ∀ k x, FromLayer st.dfg st.layers k x → FromLayer g' st.layers k x := by
    rintro k x ⟨a, ha, hx⟩
    exact ⟨a, ha, (hOuts a).symm ▸ hx⟩
  refine ⟨⟨(h.good.edited hdstMem hEdited).of_forward _, hExact,
    (h.meaning.trans hRedirects.meaning).trans (DFG.extends_of_forward _ _), h.outputs_eq,
    h.nodes_sub, fun n hn => ?within, ⟨h.ranked.mem_layer, h.ranked.layer_nodup, h.ranked.placed,
    fun k n hn x hx => ?ranked⟩, h.mid_lt, fun x y hxy => ?alternative, h.untouched⟩, ⟨rfl,
    fun _ _ => rfl, fun _ hn => hn, fun n _ hne _ => ?inputs_other,
    fun n _ x hx => (hOuts n).symm ▸ hx, fun _ hn => hn, fun _ _ hc => hc⟩, ?redirected⟩
  -- renaming an input keeps the number of inputs
  case within =>
    by_cases hnd : n = dst
    · subst hnd
      obtain ⟨h1, h2, h3⟩ := h.within n hdstMem
      rw [hSelf]
      exact ⟨by simpa using h1, h2, by simpa using h3⟩
    · rw [hOther n hnd]
      exact h.within n hn
  case ranked =>
    by_cases hnd : n = dst
    · subst hnd
      have hk : k = mid + 1 := h.ranked.layer_unique hn hdst
      rw [hSelf] at hx
      obtain ⟨y, hy, rfl⟩ := List.mem_map.mp hx
      unfold replaceInput
      split
      -- the new input comes from the layer just before
      · exact Or.inr ⟨mid, by omega, hFrom mid c ⟨b, hb, hOut⟩⟩
      · exact (h.ranked.ranked k n hn y hy).imp_right fun ⟨j, hj, hFromJ⟩ =>
          ⟨j, hj, hFrom j y hFromJ⟩
    · rw [hOther n hnd] at hx
      exact (h.ranked.ranked k n hn x hx).imp_right fun ⟨j, hj, hFromJ⟩ => ⟨j, hj, hFrom j x hFromJ⟩
  case alternative =>
    obtain ⟨a, ha, hy, hMov⟩ := h.alternative x y hxy
    have had : a ≠ dst := by
      rintro rfl
      have := h.ranked.layer_unique ha hdst
      omega
    exact ⟨a, ha, (hOther a had).symm ▸ hy, (hOther a had).symm ▸ hMov⟩
  case inputs_other =>
    rw [show ({ st with dfg := g' } : SegState).dfg.mlmi n = _ from hOther n hne]
  case redirected =>
    rw [hSelf]

/-- The node that `break_edge` finds has room for a copy. -/
structure Roomy (cfg : Config) (m : Nat) (x : MLMI) : Prop where
  outputs_lt : x.outputs.length < cfg.lOut
  seq_lt : x.seq.length < cfg.s
  inputs_lt : m ∉ x.inputs → x.inputs.length < cfg.lIn

/-- A candidate is a node of the layer with room for the copy. -/
theorem candidate_roomy {g : DFG} {layer : List Nat} {found : Option Nat} {n : Nat}
    (h : candidate cfg g m layer found = some n) :
    found = some n ∨ n ∈ layer ∧ Roomy cfg m (g.mlmi n) := by
  induction layer generalizing found with
  | nil => exact Or.inl h
  | cons a layer ih =>
    have hTail : ∀ {found}, candidate cfg g m layer found = some n →
        found = some n ∨ n ∈ a :: layer ∧ Roomy cfg m (g.mlmi n) := fun h =>
      (ih h).imp_right fun ⟨hn, hRoom⟩ => ⟨List.mem_cons_of_mem _ hn, hRoom⟩
    rw [candidate] at h
    split at h
    · next hRoom =>
      split at h
      · next hIn =>
        cases h
        exact Or.inr ⟨List.mem_cons_self, hRoom.1, hRoom.2, fun hNot => absurd hIn hNot⟩
      · next hIn =>
        split at h
        · next hLt =>
          rcases hTail h with hFound | hRest
          · cases hFound
            exact Or.inr ⟨List.mem_cons_self, hRoom.1, hRoom.2, fun _ => hLt⟩
          · exact Or.inr hRest
        · exact hTail h
    · exact hTail h

theorem getD_set {α : Type} {l : List (List α)} {i : Nat} (hi : i < l.length) (x : List α)
    (k : Nat) :
    (l.set i x).getD k [] = if k = i then x else l.getD k [] := by
  rw [List.getD_eq_getElem?_getD, List.getD_eq_getElem?_getD, List.getElem?_set]
  by_cases hk : k = i
  · subst hk
    simp [hi]
  · simp [hk, Ne.symm hk]

theorem set_getD_self {α : Type} {l : List (List α)} {i : Nat} (hi : i < l.length) :
    l.set i (l.getD i []) = l := by
  rw [List.getD_eq_getElem _ _ hi]
  exact List.set_getElem_self hi

/-- A new empty node at the end of layer `mid`. -/
def SegState.withNode (st : SegState) (mid : Nat) : SegState :=
  { st with
    dfg := st.dfg.newNode
    nodeLayers := (st.dfg.fresh, mid) :: st.nodeLayers
    layers := st.layers.set mid (st.layers.getD mid [] ++ [st.dfg.fresh]) }

/-- A new node in a layer keeps the invariant. -/
theorem Segregating.withNode (h : Segregating cfg g₀ mid st) (dst : Nat) :
    Segregating cfg g₀ mid (st.withNode mid) ∧ SegStep mid dst st (st.withNode mid) := by
  have hFresh := h.good.fresh_not_mem
  have hGet : ∀ k, (st.withNode mid).layers.getD k [] =
      if k = mid then st.layers.getD mid [] ++ [st.dfg.fresh] else st.layers.getD k [] :=
    getD_set h.mid_lt _
  have hOld : ∀ n ∈ st.dfg.nodes, (st.withNode mid).dfg.mlmi n = st.dfg.mlmi n := fun n hn =>
    h.good.newNode_mlmi hn
  have hSub : ∀ k, ∀ n ∈ st.layers.getD k [], n ∈ (st.withNode mid).layers.getD k [] := by
    intro k n hn
    rw [hGet]
    split
    · next hk => exact List.mem_append_left _ (hk ▸ hn)
    · exact hn
  have hFrom : ∀ k m, FromLayer st.dfg st.layers k m →
      FromLayer (st.withNode mid).dfg (st.withNode mid).layers k m := by
    rintro k m ⟨a, ha, hOut⟩
    exact ⟨a, hSub k a ha, (hOld a (h.mem_nodes ha)).symm ▸ hOut⟩
  have hLook : ∀ n, (st.withNode mid).nodeLayers.lookup n =
      if n = st.dfg.fresh then some mid else st.nodeLayers.lookup n := fun n => lookup_cons_ite
  refine ⟨⟨h.good.newNode, h.good.exact_newNode h.exact, h.meaning.trans h.good.extends_newNode,
    h.outputs_eq, fun n hn => DFG.mem_newNode.mpr (Or.inr (h.nodes_sub n hn)),
    fun n hn => ?within, ⟨fun k n => ?mem_layer, fun k => ?layer_nodup, fun n hn => ?placed,
    fun k n hn m hm => ?ranked⟩, ?mid_lt, fun m c hc => ?alternative, h.untouched⟩,
    ⟨List.length_set, fun k hk => ?layer_other, hSub mid, fun n hn _ _ => by rw [hOld n hn],
    fun n hn m hm => (hOld n hn).symm ▸ hm, fun n hn => DFG.mem_newNode.mpr (Or.inr hn),
    fun _ _ hc => hc⟩⟩
  case within =>
    rcases DFG.mem_newNode.mp hn with rfl | hn
    · show (st.dfg.newNode.mlmi st.dfg.fresh).Within cfg
      rw [DFG.newNode_mlmi_fresh]
      exact ⟨Nat.zero_le _, Nat.zero_le _, Nat.zero_le _⟩
    · rw [hOld n hn]
      exact h.within n hn
  -- the new node is in the layer `mid` only
  case mem_layer =>
    rw [hGet, hLook]
    by_cases hn : n = st.dfg.fresh
    · subst hn
      have hNot : ∀ k, st.dfg.fresh ∉ st.layers.getD k [] := fun k hIn => hFresh (h.mem_nodes hIn)
      rw [if_pos rfl, Option.some.injEq]
      by_cases hk : k = mid
      · subst hk
        simp [DFG.mem_newNode, SegState.withNode]
      · have hkm : ¬ mid = k := fun hEq => hk hEq.symm
        rw [if_neg hk]
        exact iff_of_false (hNot k) fun hEq => hkm hEq.2
    · have hNew : n ∈ (st.withNode mid).dfg.nodes ↔ n ∈ st.dfg.nodes := by
        show n ∈ st.dfg.newNode.nodes ↔ _
        rw [DFG.mem_newNode, or_iff_right hn]
      rw [if_neg hn, hNew, ← h.ranked.mem_layer]
      by_cases hk : k = mid
      · subst hk
        simp [hn]
      · rw [if_neg hk]
  case layer_nodup =>
    rw [hGet]
    split
    · refine (h.ranked.layer_nodup mid).append (List.nodup_singleton _) ?_
      rw [List.disjoint_singleton]
      exact fun hIn => hFresh (h.mem_nodes hIn)
    · exact h.ranked.layer_nodup k
  case placed =>
    rw [hLook]
    rcases DFG.mem_newNode.mp hn with rfl | hn
    · exact ⟨mid, if_pos rfl⟩
    · obtain ⟨k, hk⟩ := h.ranked.placed n hn
      have hne : n ≠ st.dfg.fresh := by
        rintro rfl
        exact hFresh hn
      exact ⟨k, by rw [if_neg hne, hk]⟩
  -- the new node reads nothing yet
  case ranked =>
    rw [hGet] at hn
    have hCases : n = st.dfg.fresh ∨ n ∈ st.layers.getD k [] := by
      split at hn
      · next hk =>
        rcases List.mem_append.mp hn with hn | hn
        · exact Or.inr (hk ▸ hn)
        · exact Or.inl (List.mem_singleton.mp hn)
      · exact Or.inr hn
    rcases hCases with rfl | hn
    · have hNil : (st.withNode mid).dfg.mlmi st.dfg.fresh = ⟨[], [], []⟩ :=
        DFG.newNode_mlmi_fresh st.dfg
      rw [hNil] at hm
      cases hm
    · rw [hOld n (h.mem_nodes hn)] at hm
      exact (h.ranked.ranked k n hn m hm).imp_right fun ⟨j, hj, hFromJ⟩ => ⟨j, hj, hFrom j m hFromJ⟩
  case mid_lt =>
    rw [show (st.withNode mid).layers.length = _ from List.length_set]
    exact h.mid_lt
  case alternative =>
    obtain ⟨a, ha, hOut, hMov⟩ := h.alternative m c hc
    have hEq := hOld a (h.mem_nodes ha)
    exact ⟨a, hSub mid a ha, hEq.symm ▸ hOut, hEq.symm ▸ hMov⟩
  case layer_other =>
    rw [hGet, if_neg hk]

/-- A copy of `m` in a node of layer `mid` with room. -/
theorem Segregating.copied (h : Segregating cfg g₀ mid st) (dst : Nat) {d : Option Nat}
    (hd : DefinedBy st mid m d) (hNone : st.alternativeDefs m mid = none) {node : Nat}
    (hNode : node ∈ st.layers.getD mid []) (hRoom : Roomy cfg m (st.dfg.mlmi node)) {g' : DFG}
    (hAlt : DFG.Alternative st.dfg g' m node) {st' : SegState}
    (hst' : st' = { st with
      dfg := g'
      alternativeDefs := fun x layer =>
        if x = m ∧ layer = mid then some st.dfg.memoryCount else st.alternativeDefs x layer }) :
    Segregating cfg g₀ mid st' ∧ SegStep mid dst st st' := by
  have hNodeMem := h.mem_nodes hNode
  have hOuts : ∀ a, ∀ x ∈ (st.dfg.mlmi a).outputs, x ∈ (g'.mlmi a).outputs := by
    intro a x hx
    by_cases ha : a = node
    · subst ha
      rw [hAlt.outputs_eq]
      exact List.mem_append_left _ hx
    · rwa [hAlt.other a ha]
  have hFrom : ∀ k x, FromLayer st.dfg st.layers k x → FromLayer g' st.layers k x := by
    rintro k x ⟨a, ha, hx⟩
    exact ⟨a, ha, hOuts a x hx⟩
  subst hst'
  refine ⟨⟨hAlt.good, hAlt.exact, h.meaning.trans hAlt.meaning,
    hAlt.progOutputs_eq.trans h.outputs_eq, fun n hn => hAlt.nodes_eq.symm ▸ h.nodes_sub n hn,
    fun n hn => ?within, ⟨fun k n => ?mem_layer, h.ranked.layer_nodup, fun n hn => ?placed,
    fun k n hn x hx => ?ranked⟩, h.mid_lt, fun x c hc => ?alternative, fun k hk x => ?untouched⟩,
    ⟨rfl, fun _ _ => rfl, fun _ hn => hn, fun n _ _ hOut => ?inputs_other, fun n _ => hOuts n,
    fun n hn => hAlt.nodes_eq.symm ▸ hn, fun x c hc => ?alternatives_kept⟩⟩
  -- there was room for one more input, output and instruction
  case within =>
    rw [show ({ st with dfg := g', alternativeDefs := _ } : SegState).dfg.nodes = _ from
      hAlt.nodes_eq] at hn
    by_cases ha : n = node
    · subst ha
      obtain ⟨h1, h2, h3⟩ := h.within n hn
      refine ⟨?_, ?_, ?_⟩
      · show (g'.mlmi n).inputs.length ≤ _
        rw [hAlt.inputs_eq]
        split
        · exact h1
        · next hNot =>
          have := hRoom.inputs_lt hNot
          rw [List.length_append, List.length_singleton]
          omega
      · show (g'.mlmi n).outputs.length ≤ _
        have := hRoom.outputs_lt
        rw [hAlt.outputs_eq, List.length_append, List.length_singleton]
        omega
      · show (g'.mlmi n).seq.length ≤ _
        have := hRoom.seq_lt
        rw [hAlt.seq_eq, List.length_cons]
        omega
    · show (g'.mlmi n).Within cfg
      rw [hAlt.other n ha]
      exact h.within n hn
  case mem_layer =>
    show _ ↔ n ∈ g'.nodes ∧ _
    rw [hAlt.nodes_eq]
    exact h.ranked.mem_layer k n
  case placed =>
    exact h.ranked.placed n (hAlt.nodes_eq ▸ hn)
  case ranked =>
    show x ∈ g'.progInputs ∨ _
    rw [hAlt.meaning.progInputs_eq]
    -- only the node of the copy reads something new, and that is `m` itself
    have hOld : x ∈ (st.dfg.mlmi n).inputs ∨ x = m ∧ n = node := by
      change x ∈ (g'.mlmi n).inputs at hx
      by_cases ha : n = node
      · subst ha
        rw [hAlt.inputs_eq] at hx
        split at hx
        · exact Or.inl hx
        · rcases List.mem_append.mp hx with hx | hx
          · exact Or.inl hx
          · exact Or.inr ⟨List.mem_singleton.mp hx, rfl⟩
      · rw [hAlt.other n ha] at hx
        exact Or.inl hx
    rcases hOld with hx | ⟨rfl, rfl⟩
    · exact (h.ranked.ranked k n hn x hx).imp_right fun ⟨j, hj, hFromJ⟩ => ⟨j, hj, hFrom j x hFromJ⟩
    -- `m` is an input of the program or comes from a layer before `mid`
    · have hk : mid = k := h.ranked.layer_unique hNode hn
      subst hk
      cases d with
      | none => exact Or.inl hd
      | some d =>
        obtain ⟨hOut, j, hj, hLayer⟩ := hd
        exact Or.inr ⟨j, hj, hFrom j x ⟨d, hLayer, hOut⟩⟩
  case alternative =>
    have hc' : (if x = m ∧ mid = mid then some st.dfg.memoryCount else st.alternativeDefs x mid) =
      some c := hc
    -- either the alternative that was just made, or one that was there before
    split at hc'
    · next hx =>
      cases hc'
      refine ⟨node, hNode, ?_, ?_⟩
      · show _ ∈ (g'.mlmi node).outputs
        rw [hAlt.outputs_eq]
        simp
      · show _ ∈ (g'.mlmi node).seq
        rw [hAlt.seq_eq, hx.1]
        exact List.mem_cons_self
    · obtain ⟨a, ha, hOut, hMov⟩ := h.alternative x c hc'
      refine ⟨a, ha, hOuts a c hOut, ?_⟩
      show _ ∈ (g'.mlmi a).seq
      by_cases han : a = node
      · subst han
        rw [hAlt.seq_eq]
        exact List.mem_cons_of_mem _ hMov
      · rwa [hAlt.other a han]
  case untouched =>
    show (if x = m ∧ k = mid then _ else _) = none
    rw [if_neg fun hEq => absurd hEq.2 (Nat.ne_of_lt hk)]
    exact h.untouched k hk x
  case inputs_other =>
    show (g'.mlmi n).inputs = _
    rw [hAlt.other n fun hEq => hOut (hEq ▸ hNode)]
  -- the entry that is written was empty
  case alternatives_kept =>
    show (if x = m ∧ mid = mid then _ else _) = some c
    rw [if_neg]
    · exact hc
    · rintro ⟨rfl, -⟩
      rw [hNone] at hc
      cases hc

/-- The node for the copy: one of the layer that has room, or a new one. -/
theorem Segregating.place (hIn : 1 ≤ cfg.lIn) (hOut : 1 ≤ cfg.lOut) (hSeq : 1 ≤ cfg.s)
    (h : Segregating cfg g₀ mid st) (dst : Nat) {found : Option Nat}
    (hFound : candidate cfg st.dfg m (st.layers.getD mid []) none = found) :
    ∃ node midNodes st₁, st.dfg.place (st.layers.getD mid []) found = (node, st₁.dfg, midNodes) ∧
      st₁ = ⟨st₁.dfg, if found.isNone then (node, mid) :: st.nodeLayers else st.nodeLayers,
        st.layers.set mid midNodes, st.alternativeDefs⟩ ∧
      Segregating cfg g₀ mid st₁ ∧ SegStep mid dst st st₁ ∧ node ∈ st₁.layers.getD mid [] ∧
      Roomy cfg m (st₁.dfg.mlmi node) ∧ ∀ n ∈ st.dfg.nodes, st₁.dfg.mlmi n = st.dfg.mlmi n := by
  cases found with
  | some n =>
    obtain ⟨hn, hRoom⟩ := (candidate_roomy hFound).resolve_left (by simp)
    refine ⟨n, _, st, rfl, ?_, h, .refl _ _ _, hn, hRoom, fun _ _ => rfl⟩
    rw [set_getD_self h.mid_lt]
    rfl
  | none =>
    obtain ⟨hInv, hStep⟩ := h.withNode dst
    refine ⟨st.dfg.fresh, _, st.withNode mid, rfl, rfl, hInv, hStep, ?_, ?_,
      fun n hn => h.good.newNode_mlmi hn⟩
    · rw [show (st.withNode mid).layers.getD mid [] = _ from getD_set h.mid_lt _ _, if_pos rfl]
      simp
    · have hNil : (st.withNode mid).dfg.mlmi st.dfg.fresh = ⟨[], [], []⟩ :=
        DFG.newNode_mlmi_fresh st.dfg
      rw [hNil]
      exact ⟨hOut, hSeq, fun _ => hIn⟩

/-- An edge that is there already does not matter. -/
theorem Segregating.addEdge (h : Segregating cfg g₀ mid st) {d n : Nat} (hd : d ∈ st.dfg.nodes)
    (hn : n ∈ st.dfg.nodes) (hFeeds : st.dfg.Feeds d n) :
    Segregating cfg g₀ mid { st with dfg := st.dfg.addEdge d n } :=
  ⟨h.good.addEdge d n, h.exact.addEdge_of_feeds hd hn List.not_mem_nil hFeeds,
    h.meaning.trans (DFG.extends_of_forward _ _), h.outputs_eq, h.nodes_sub, h.within,
    ⟨h.ranked.mem_layer, h.ranked.layer_nodup, h.ranked.placed, h.ranked.ranked⟩, h.mid_lt,
    h.alternative, h.untouched⟩

/-- Breaking one edge: afterwards the reader has a copy from layer `mid` in the
place of `m`. -/
theorem breakEdge_ok (hIn : 1 ≤ cfg.lIn) (hOut : 1 ≤ cfg.lOut) (hSeq : 1 ≤ cfg.s)
    (h : Segregating cfg g₀ mid st) (hdst : dst ∈ st.layers.getD (mid + 1) [])
    {d : Option Nat} (hd : DefinedBy st mid m d)
    (hRead : m ∈ (st.dfg.mlmi dst).inputs ∨
      ∃ c, st.alternativeDefs m mid = some c ∧ c ∈ (st.dfg.mlmi dst).inputs) :
    ∃ st' c, breakEdge cfg d dst mid m st = .ok st' ∧ Segregating cfg g₀ mid st' ∧
      SegStep mid dst st st' ∧ st'.alternativeDefs m mid = some c ∧
      FromLayer st'.dfg st'.layers mid c ∧
      (st'.dfg.mlmi dst).inputs = (st.dfg.mlmi dst).inputs.map (replaceInput m c) := by
  unfold breakEdge
  cases hAlt : st.alternativeDefs m mid with
  | some c =>
    obtain ⟨b, hb, hcOut, hCopy⟩ := h.alternative m c hAlt
    have hReadC : m ∈ (st.dfg.mlmi dst).inputs ∨ c ∈ (st.dfg.mlmi dst).inputs := by
      refine hRead.imp_right ?_
      rintro ⟨c', hc', hMem⟩
      rw [hAlt] at hc'
      cases hc'
      exact hMem
    obtain ⟨hInv, hStep, hInputs⟩ := h.redirected hdst hb hcOut hCopy hReadC hd
    refine ⟨_, c, ?_, hInv, hStep, hAlt, hStep.fromLayer h ⟨b, hb, hcOut⟩, hInputs⟩
    show (st.dfg.defNode c >>= _) = _
    rw [h.good.defNode_output (h.mem_nodes hb) hcOut]
    cases d <;> rfl
  | none =>
    have hReadM : m ∈ (st.dfg.mlmi dst).inputs := by
      refine hRead.resolve_right ?_
      rintro ⟨c, hc, -⟩
      rw [hAlt] at hc
      cases hc
    obtain ⟨node, midNodes, st₁, hPlace, hst₁, hInv₁, hStep₁, hNode, hRoom, hSame₁⟩ :=
      h.place hIn hOut hSeq dst rfl
    have hAlt₁ : st₁.alternativeDefs = st.alternativeDefs := by rw [hst₁]
    have hd₁ := hd.step h hInv₁ hStep₁
    obtain ⟨g₂, hMake, hCopied⟩ := DFG.makeAlternative_ok hInv₁.good hInv₁.exact
      (hInv₁.mem_nodes hNode) (hd₁.given hInv₁)
    obtain ⟨hInv₂, hStep₂⟩ := hInv₁.copied dst hd₁ (by rw [hAlt₁, hAlt]) hNode hRoom hCopied rfl
    set c := st₁.dfg.memoryCount
    set st₂ : SegState := { st₁ with
      dfg := g₂
      alternativeDefs := fun x layer =>
        if x = m ∧ layer = mid then some c else st₁.alternativeDefs x layer } with hst₂
    have hcOut : c ∈ (st₂.dfg.mlmi node).outputs := by
      show _ ∈ (g₂.mlmi node).outputs
      rw [hCopied.outputs_eq]
      simp [c]
    have hCopy : mov c (.loc m) ∈ (st₂.dfg.mlmi node).seq := by
      show _ ∈ (g₂.mlmi node).seq
      rw [hCopied.seq_eq]
      exact List.mem_cons_self
    have hmNode : m ∈ (st₂.dfg.mlmi node).inputs := by
      show _ ∈ (g₂.mlmi node).inputs
      rw [hCopied.inputs_eq]
      split
      · assumption
      · simp
    have hStep₁₂ := hStep₁.trans h hInv₁ hStep₂
    have hdst₂ : dst ∈ st₂.layers.getD (mid + 1) [] := by
      rwa [hStep₁₂.layer_other (mid + 1) (by omega)]
    -- the reader is not in layer `mid`, so it is as before
    have hne : node ≠ dst := by
      rintro rfl
      have := hInv₂.ranked.layer_unique hdst₂ hNode
      omega
    have hInputs₂ : (st₂.dfg.mlmi dst).inputs = (st.dfg.mlmi dst).inputs := by
      show (g₂.mlmi dst).inputs = _
      rw [hCopied.other dst hne.symm, hSame₁ dst (h.mem_nodes hdst)]
    have hd₂ := hd₁.step hInv₁ hInv₂ hStep₂
    obtain ⟨hInv₃, hStep₃, hInputs₃⟩ := hInv₂.redirected hdst₂ hNode hcOut hCopy
      (Or.inl (hInputs₂.symm ▸ hReadM)) hd₂
    have hFrom := hStep₃.fromLayer hInv₂ ⟨node, hNode, hcOut⟩
    have hStep := hStep₁₂.trans h hInv₂ hStep₃
    rw [hInputs₂] at hInputs₃
    simp only [hPlace]
    rw [hMake, ok_bind]
    cases d with
    | none =>
      refine ⟨{ st₂ with dfg := redirect g₂ none dst node m c }, c, ?_, hInv₃, hStep, ?_, hFrom,
        hInputs₃⟩
      · rw [hst₂, hst₁]
        rfl
      · exact if_pos ⟨rfl, rfl⟩
    | some d =>
      obtain ⟨hmOut, j, -, hdLayer⟩ := hd₂
      have hdMem := hInv₂.mem_nodes hdLayer
      -- the edge to the copy is there since the copy was made
      have hFeeds : (redirect g₂ (some d) dst node m c).Feeds d node :=
        ⟨m, hStep₃.outputs_kept d hdMem m hmOut, (redirect_mlmi_of_ne g₂ _ hne).symm ▸ hmNode⟩
      refine ⟨{ st₂ with dfg := (redirect g₂ (some d) dst node m c).addEdge d node }, c, ?_,
        hInv₃.addEdge (hStep₃.nodes_kept d hdMem) (hStep₃.nodes_kept node (hInv₂.mem_nodes hNode))
          hFeeds, ⟨hStep.length_eq, hStep.layer_other, hStep.layer_mid, hStep.inputs_other,
          hStep.outputs_kept, hStep.nodes_kept, hStep.alternatives_kept⟩, ?_, hFrom, hInputs₃⟩
      · rw [hst₂, hst₁]
        rfl
      · exact if_pos ⟨rfl, rfl⟩

end Break

-- ---------------------------------------------------------------------------
-- The loops
-- ---------------------------------------------------------------------------

section Loops

variable {cfg : Config} {g₀ : DFG} {mid dst : Nat} {st : SegState}

/-- The inputs of `dst` that are not dealt with yet are among `rest`. -/
structure Pending (mid dst : Nat) (st : SegState) (rest : List Nat) : Prop where
  inputs : ∀ m ∈ (st.dfg.mlmi dst).inputs, FromLayer st.dfg st.layers mid m ∨ m ∈ rest
  reads : ∀ m ∈ rest, m ∈ (st.dfg.mlmi dst).inputs ∨
    ∃ c, st.alternativeDefs m mid = some c ∧ c ∈ (st.dfg.mlmi dst).inputs
  defined : ∀ m ∈ rest, m ∈ st.dfg.progInputs ∨ ∃ j ≤ mid, FromLayer st.dfg st.layers j m

/-- One input. -/
theorem segregateInput_ok (hIn : 1 ≤ cfg.lIn) (hOut : 1 ≤ cfg.lOut) (hSeq : 1 ≤ cfg.s)
    (h : Segregating cfg g₀ mid st) (hdst : dst ∈ st.layers.getD (mid + 1) []) {m : Nat}
    {rest : List Nat} (hPending : Pending mid dst st (m :: rest)) :
    ∃ st', segregateInput cfg (mid + 1) dst st m = .ok st' ∧ Segregating cfg g₀ mid st' ∧
      SegStep mid dst st st' ∧ Pending mid dst st' rest := by
  -- a copy takes the place of `m`
  have hBroken : ∀ d, DefinedBy st mid m d → ∃ st', breakEdge cfg d dst mid m st = .ok st' ∧
      Segregating cfg g₀ mid st' ∧ SegStep mid dst st st' ∧ Pending mid dst st' rest := by
    intro d hd
    obtain ⟨st', c, hBreak, hInv, hStep, hAlt, hFrom, hInputs⟩ :=
      breakEdge_ok hIn hOut hSeq h hdst hd (hPending.reads m (by simp))
    refine ⟨st', hBreak, hInv, hStep, ⟨fun x hx => ?_, fun x hx => ?_, fun x hx => ?_⟩⟩
    · rw [hInputs] at hx
      obtain ⟨y, hy, rfl⟩ := List.mem_map.mp hx
      unfold replaceInput
      split
      · exact Or.inl hFrom
      · next hne =>
        rcases hPending.inputs y hy with hy | hy
        · exact Or.inl (hStep.fromLayer h hy)
        · exact Or.inr ((List.mem_cons.mp hy).resolve_left hne)
    · rw [hInputs]
      by_cases hxm : x = m
      · subst hxm
        refine Or.inr ⟨c, hAlt, ?_⟩
        rcases hPending.reads x (by simp) with hMem | ⟨c', hc', hMem⟩
        · exact List.mem_map.mpr ⟨x, hMem, if_pos rfl⟩
        · rw [hStep.alternatives_kept x c' hc'] at hAlt
          cases hAlt
          refine List.mem_map.mpr ⟨c, hMem, ?_⟩
          unfold replaceInput
          split
          · rfl
          · rfl
      · rcases hPending.reads x (by simp [hx]) with hMem | ⟨c', hc', hMem⟩
        · exact Or.inl (List.mem_map.mpr ⟨x, hMem, if_neg hxm⟩)
        · refine Or.inr ⟨c', hStep.alternatives_kept x c' hc', List.mem_map.mpr ⟨c', hMem, ?_⟩⟩
          -- a copy in layer `mid` is not what comes from a layer before
          obtain ⟨a, ha, hcOut, -⟩ := h.alternative x c' hc'
          refine if_neg fun hEq => ?_
          exact hd.not_defs h le_rfl ha (hEq ▸ h.good.outputs_sub a (h.mem_nodes ha) c' hcOut)
    · rcases hPending.defined x (by simp [hx]) with hx | ⟨j, hj, hx⟩
      · refine Or.inl ?_
        rw [hInv.meaning.progInputs_eq, ← h.meaning.progInputs_eq]
        exact hx
      · exact Or.inr ⟨j, hj, hStep.fromLayer h hx⟩
  unfold segregateInput
  rw [Nat.add_sub_cancel]
  by_cases hProg : m ∈ st.dfg.progInputs
  · rw [if_pos hProg]
    exact hBroken none hProg
  · obtain ⟨j, hj, a, ha, hmOut⟩ := (hPending.defined m (by simp)).resolve_left hProg
    have haMem := h.mem_nodes ha
    have hLook := ((h.ranked.mem_layer j a).mp ha).2
    rw [if_neg hProg, h.good.defNode_output haMem hmOut, ok_bind, hLook]
    by_cases hMid : j = mid
    · subst hMid
      refine ⟨st, if_pos rfl, h, .refl _ _ _, ⟨fun x hx => ?_, fun x hx => ?_, fun x hx => ?_⟩⟩
      · rcases hPending.inputs x hx with hx | hx
        · exact Or.inl hx
        · rcases List.mem_cons.mp hx with rfl | hx
          · exact Or.inl ⟨a, ha, hmOut⟩
          · exact Or.inr hx
      · exact hPending.reads x (by simp [hx])
      · exact hPending.defined x (by simp [hx])
    · show ∃ st', (if j = mid then _ else _) = _ ∧ _
      rw [if_neg hMid]
      exact hBroken (some a) ⟨hmOut, j, by omega, ha⟩

/-- One node: all it reads comes from layer `mid` now. -/
theorem segregateNode_ok (hIn : 1 ≤ cfg.lIn) (hOut : 1 ≤ cfg.lOut) (hSeq : 1 ≤ cfg.s)
    (h : Segregating cfg g₀ mid st) (hdst : dst ∈ st.layers.getD (mid + 1) []) :
    ∃ st', segregateNode cfg (mid + 1) st dst = .ok st' ∧ Segregating cfg g₀ mid st' ∧
      SegStep mid dst st st' ∧
      ∀ m ∈ (st'.dfg.mlmi dst).inputs, FromLayer st'.dfg st'.layers mid m := by
  obtain ⟨st', hFold, hInv, hStep, rest, hRest, hPending⟩ := exists_foldlM_ok
    (f := segregateInput cfg (mid + 1) dst) (l := (st.dfg.mlmi dst).inputs) (s := st)
    (P := fun done s => Segregating cfg g₀ mid s ∧ SegStep mid dst st s ∧
      ∃ rest, (st.dfg.mlmi dst).inputs = done ++ rest ∧ Pending mid dst s rest)
    (fun done m rest hSplit s hs => by
      obtain ⟨hInv, hStep, rest', hRest, hPending⟩ := hs
      obtain rfl : m :: rest = rest' := List.append_cancel_left (hSplit.symm.trans hRest)
      have hdst' : dst ∈ s.layers.getD (mid + 1) [] := by
        rwa [hStep.layer_other (mid + 1) (by omega)]
      obtain ⟨s', hOne, hInv', hStep', hPending'⟩ :=
        segregateInput_ok hIn hOut hSeq hInv hdst' hPending
      exact ⟨s', hOne, hInv', hStep.trans h hInv hStep', rest, by rw [hSplit]; simp, hPending'⟩)
    ⟨h, .refl _ _ _, _, rfl, fun m hm => Or.inr hm, fun m hm => Or.inl hm, fun m hm => by
      refine (h.ranked.ranked (mid + 1) dst hdst m hm).imp_right ?_
      rintro ⟨j, hj, hFrom⟩
      exact ⟨j, by omega, hFrom⟩⟩
  refine ⟨st', hFold, hInv, hStep, fun m hm => ?_⟩
  have hNil : rest = [] := by simpa using hRest
  exact (hPending.inputs m hm).resolve_right (by rw [hNil]; exact List.not_mem_nil)

/-- The layers from `k` on read from the layer before. -/
def SegregatedFrom (k : Nat) (st : SegState) : Prop :=
  ∀ j, k ≤ j → ∀ n ∈ st.layers.getD (j + 1) [], ∀ m ∈ (st.dfg.mlmi n).inputs,
    FromLayer st.dfg st.layers j m

/-- One layer. -/
theorem segregateLayer_ok (hIn : 1 ≤ cfg.lIn) (hOut : 1 ≤ cfg.lOut) (hSeq : 1 ≤ cfg.s)
    (h : Segregating cfg g₀ mid st) (hLater : SegregatedFrom (mid + 1) st) :
    ∃ st', segregateLayer cfg st (mid + 1) = .ok st' ∧ Segregating cfg g₀ mid st' ∧
      st'.layers.length = st.layers.length ∧ SegregatedFrom mid st' := by
  unfold segregateLayer
  rw [if_neg (Nat.succ_ne_zero mid)]
  obtain ⟨st', hFold, hInv, hLen, hLayer, hLater', hDone⟩ := exists_foldlM_ok
    (f := segregateNode cfg (mid + 1)) (l := st.layers.getD (mid + 1) []) (s := st)
    (P := fun done s => Segregating cfg g₀ mid s ∧ s.layers.length = st.layers.length ∧
      s.layers.getD (mid + 1) [] = st.layers.getD (mid + 1) [] ∧ SegregatedFrom (mid + 1) s ∧
      ∀ n ∈ done, ∀ m ∈ (s.dfg.mlmi n).inputs, FromLayer s.dfg s.layers mid m)
    (fun done dst rest hSplit s hs => by
      obtain ⟨hInv, hLen, hLayer, hLater, hDone⟩ := hs
      have hdst : dst ∈ s.layers.getD (mid + 1) [] := by
        rw [hLayer, hSplit]
        simp
      obtain ⟨s', hOne, hInv', hStep, hFrom⟩ := segregateNode_ok hIn hOut hSeq hInv hdst
      have hLayer' := hStep.layer_other (mid + 1) (by omega)
      -- other nodes below layer `mid` keep their inputs
      have hKept : ∀ {j n}, mid ≤ j → n ∈ s.layers.getD (j + 1) [] → n ≠ dst →
          (s'.dfg.mlmi n).inputs = (s.dfg.mlmi n).inputs := by
        intro j n hj hn hne
        refine hStep.inputs_other n (hInv.mem_nodes hn) hne fun hMid => ?_
        have := hInv.ranked.layer_unique hn hMid
        omega
      refine ⟨s', hOne, hInv', hStep.length_eq.trans hLen, hLayer'.trans hLayer, ?_, ?_⟩
      · intro j hj n hn m hm
        rw [hStep.layer_other (j + 1) (by omega)] at hn
        have hne : n ≠ dst := by
          rintro rfl
          have := hInv.ranked.layer_unique hn hdst
          omega
        rw [hKept (by omega) hn hne] at hm
        exact hStep.fromLayer hInv (hLater j hj n hn m hm)
      · intro n hn m hm
        by_cases hne : n = dst
        · subst hne
          exact hFrom m hm
        · have hn' : n ∈ done := by
            rcases List.mem_append.mp hn with hn | hn
            · exact hn
            · exact absurd (List.mem_singleton.mp hn) hne
          have hnLayer : n ∈ s.layers.getD (mid + 1) [] := by
            rw [hLayer, hSplit]
            exact List.mem_append_left _ hn'
          rw [hKept le_rfl hnLayer hne] at hm
          exact hStep.fromLayer hInv (hDone n hn' m hm))
    ⟨h, rfl, rfl, hLater, by simp⟩
  refine ⟨st', hFold, hInv, hLen, fun j hj n hn m hm => ?_⟩
  rcases Nat.eq_or_lt_of_le hj with rfl | hj
  · exact hDone n (hLayer ▸ hn) m hm
  · exact hLater' j hj n hn m hm

/-- The next layer starts without copies. -/
theorem Segregating.lower (h : Segregating cfg g₀ mid st) : Segregating cfg g₀ (mid - 1) st := by
  rcases Nat.eq_zero_or_pos mid with rfl | hPos
  · exact h
  · refine ⟨h.good, h.exact, h.meaning, h.outputs_eq, h.nodes_sub, h.within, h.ranked,
      lt_of_le_of_lt (Nat.sub_le _ _) h.mid_lt, fun m c hc => ?_,
      fun k hk => h.untouched k (by omega)⟩
    rw [h.untouched (mid - 1) (by omega) m] at hc
    cases hc

/-- The layers from `k` down to the first. -/
theorem segregateLayers_from (k : Nat) (hRoom : k ≠ 0 → 1 ≤ cfg.lIn ∧ 1 ≤ cfg.lOut ∧ 1 ≤ cfg.s)
    (h : Segregating cfg g₀ (k - 1) st) (hLater : SegregatedFrom k st) :
    ∃ st', (List.range (k + 1)).reverse.foldlM (segregateLayer cfg) st = .ok st' ∧
      Segregating cfg g₀ 0 st' ∧ st'.layers.length = st.layers.length ∧ SegregatedFrom 0 st' := by
  induction k generalizing st with
  | zero => exact ⟨st, rfl, h, rfl, hLater⟩
  | succ mid ih =>
    rw [Nat.add_sub_cancel] at h
    obtain ⟨hIn, hOut, hSeq⟩ := hRoom (Nat.succ_ne_zero mid)
    obtain ⟨st₁, hOne, hInv₁, hLen₁, hFrom₁⟩ := segregateLayer_ok hIn hOut hSeq h hLater
    obtain ⟨st', hRest, hInv, hLen, hFrom⟩ := ih (fun _ => ⟨hIn, hOut, hSeq⟩) hInv₁.lower hFrom₁
    refine ⟨st', ?_, hInv, hLen.trans hLen₁, hFrom⟩
    rw [List.range_succ, List.reverse_append, List.reverse_singleton, List.singleton_append,
      List.foldlM_cons, hOne]
    exact hRest

end Loops

-- ---------------------------------------------------------------------------
-- The pass
-- ---------------------------------------------------------------------------

/-- The operand is given out by the last of the layers, or is a program input when
there is none. -/
def Available (g : DFG) (layers : List (List Nat)) (m : Nat) : Prop :=
  match layers.getLast? with
  | none => m ∈ g.progInputs
  | some layer => ∃ a ∈ layer, m ∈ (g.mlmi a).outputs

/-- The nodes in layers, each of which reads from the one before. -/
structure Layered (g : DFG) (layers : List (List Nat)) : Prop where
  nodup : layers.flatten.Nodup
  mem_iff : ∀ n, n ∈ layers.flatten ↔ n ∈ g.nodes
  reads : ∀ before layer after, layers = before ++ layer :: after →
    ∀ n ∈ layer, ∀ m ∈ (g.mlmi n).inputs, Available g before m

/-- A node of the layers is one of some layer. -/
theorem mem_flatten_iff {layers : List (List Nat)} {n : Nat} :
    n ∈ layers.flatten ↔ ∃ k, n ∈ layers.getD k [] := by
  rw [List.mem_flatten]
  constructor
  · rintro ⟨l, hl, hn⟩
    obtain ⟨k, hk, rfl⟩ := List.getElem_of_mem hl
    exact ⟨k, by rwa [List.getD_eq_getElem _ _ hk]⟩
  · rintro ⟨k, hn⟩
    by_cases hk : k < layers.length
    · rw [List.getD_eq_getElem _ _ hk] at hn
      exact ⟨_, List.getElem_mem hk, hn⟩
    · rw [List.getD_eq_default _ _ (by omega)] at hn
      cases hn

/-- When all layers are done, every node reads the layer before its own only. -/
theorem Segregating.layered {cfg : Config} {g₀ : DFG} {st : SegState}
    (h : Segregating cfg g₀ 0 st) (hFrom : SegregatedFrom 0 st) : Layered st.dfg st.layers where
  nodup := by
    rw [List.nodup_flatten]
    refine ⟨fun l hl => ?_, List.pairwise_iff_getElem.mpr fun i j hi hj hij n hn hn' => ?_⟩
    · obtain ⟨k, hk, rfl⟩ := List.getElem_of_mem hl
      have := h.ranked.layer_nodup k
      rwa [List.getD_eq_getElem _ _ hk] at this
    · rw [← List.getD_eq_getElem _ [] hi] at hn
      rw [← List.getD_eq_getElem _ [] hj] at hn'
      exact (Nat.ne_of_lt hij) (h.ranked.layer_unique hn hn')
  mem_iff := by
    intro n
    rw [mem_flatten_iff]
    constructor
    · rintro ⟨k, hn⟩
      exact h.mem_nodes hn
    · intro hn
      obtain ⟨k, hk⟩ := h.ranked.placed n hn
      exact ⟨k, (h.ranked.mem_layer k n).mpr ⟨hn, hk⟩⟩
  reads := by
    intro before layer after hSplit n hn m hm
    have hAt : n ∈ st.layers.getD before.length [] := by simpa [hSplit] using hn
    rcases List.eq_nil_or_concat before with rfl | ⟨before, prev, rfl⟩
    · refine (h.ranked.ranked 0 n hAt m hm).resolve_right ?_
      rintro ⟨j, hj, -⟩
      omega
    · rw [List.concat_eq_append, List.length_append, List.length_singleton] at hAt
      obtain ⟨a, ha, hOut⟩ := hFrom before.length (Nat.zero_le _) n hAt m hm
      have ha' : a ∈ prev := by simpa [hSplit] using ha
      simp only [Available, List.concat_eq_append, List.getLast?_concat]
      exact ⟨a, ha', hOut⟩

/-- A graph in layers that means what `g₀` means. -/
structure Stretched (cfg : Config) (g₀ g : DFG) (layers : List (List Nat)) : Prop where
  good : g.Good
  exact : g.Exact []
  meaning : DFG.Extends g₀ g
  within : ∀ n ∈ g.nodes, (g.mlmi n).Within cfg
  layered : Layered g layers

/-- A node that reads from another has room for a copy, and so has the other. -/
theorem room_of_feeds {cfg : Config} {g : DFG} (hg : g.Good)
    (hWithin : ∀ n ∈ g.nodes, (g.mlmi n).Within cfg) {a n : Nat} (ha : a ∈ g.nodes)
    (hn : n ∈ g.nodes) (hFeeds : g.Feeds a n) :
    1 ≤ cfg.lIn ∧ 1 ≤ cfg.lOut ∧ 1 ≤ cfg.s := by
  obtain ⟨m, hOut, hIn⟩ := hFeeds
  refine ⟨le_trans (List.length_pos_of_mem hIn) (hWithin n hn).inputs_le,
    le_trans (List.length_pos_of_mem hOut) (hWithin a ha).outputs_le, ?_⟩
  have hDefs := List.length_pos_of_mem (hg.outputs_sub a ha m hOut)
  rw [MLMI.getDefs, defs, List.length_map] at hDefs
  exact le_trans hDefs (hWithin a ha).seq_le

/-- `rectangularize` ends. -/
theorem rectangularize_returns {cfg : Config} {g : DFG} (hg : g.Good) (hExact : g.Exact [])
    (hAcyclic : Acyclic g.Edge) (hWithin : ∀ n ∈ g.nodes, (g.mlmi n).Within cfg) (ord : Orders) :
    ∃ g' layers, Returns (fun fuel => rectangularize ord fuel cfg g) (g', layers) ∧
      Stretched cfg g g' layers ∧ g'.progOutputs = g.progOutputs ∧ layers ≠ [] ∧
      (∀ n ∈ g.nodes, n ∈ g'.nodes) ∧ (g.nodes = [] → g' = g ∧ layers = [[]]) := by
  obtain ⟨nodeLayers, layers, last, hLayers, hLast, hEmpty, hPlaced, hRanked⟩ :=
    layerize_returns hg hExact hAcyclic ord
  -- with more than one layer, some node reads from another
  have hRoom : last ≠ 0 → 1 ≤ cfg.lIn ∧ 1 ≤ cfg.lOut ∧ 1 ≤ cfg.s := by
    intro hLater
    obtain ⟨n, hn⟩ := hPlaced.last_eq.resolve_left hLater
    obtain ⟨k, rfl⟩ := Nat.exists_eq_succ_of_ne_zero hLater
    obtain ⟨a, ha, -⟩ := hPlaced.latest n k hn
    have hnMem := hPlaced.keys_sub n (DFG.lookup_isSome_iff.mp (by rw [hn]; rfl))
    obtain ⟨haMem, hFeeds⟩ := (hg.mem_prevNodes hnMem).mp ha
    exact room_of_feeds hg hWithin haMem hnMem hFeeds
  have hStart : Segregating cfg g (last - 1) ⟨g, nodeLayers, layers, fun _ _ => none⟩ :=
    ⟨hg, hExact, .refl g, rfl, fun _ hn => hn, hWithin, hRanked,
      (show last - 1 < layers.length by omega), nofun, fun _ _ _ => rfl⟩
  have hLater : SegregatedFrom last ⟨g, nodeLayers, layers, fun _ _ => none⟩ := by
    intro j hj n hn
    change n ∈ layers.getD (j + 1) [] at hn
    rw [List.getD_eq_default _ _ (by omega)] at hn
    cases hn
  obtain ⟨st, hFold, hInv, hLen, hFrom⟩ := segregateLayers_from last hRoom hStart hLater
  have hSegregate : segregateLayers cfg ⟨g, nodeLayers, layers, fun _ _ => none⟩ = .ok st := by
    unfold segregateLayers
    rw [hLast]
    exact hFold
  refine ⟨st.dfg, st.layers, hLayers.bind (Returns.of_eq fun _ => ?_),
    ⟨hInv.good, hInv.exact, hInv.meaning, hInv.within, hInv.layered hFrom⟩, hInv.outputs_eq, ?_,
    hInv.nodes_sub, fun hNil => ?_⟩
  · show (segregateLayers cfg _ >>= _) = _
    rw [hSegregate]
    rfl
  · rw [← List.length_pos_iff, hLen]
    show 0 < layers.length
    omega
  · have hOne := hEmpty hNil
    rw [hOne] at hSegregate
    cases hSegregate
    exact ⟨rfl, rfl⟩

end Obscure
