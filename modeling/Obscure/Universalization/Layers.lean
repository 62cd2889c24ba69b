import Obscure.Universalization.Segregation
import Obscure.Universalization.Universalizer

/-!
# OBSCURE — layers that grow

What the passes after rectangularization do to layers: new empty nodes, and nodes
that take more inputs from the layer before or give out more cells. `Stretched` is
kept by each of these steps. `add_depth_padding` and `equalize_layers` are made of
new nodes alone.
-/

namespace Obscure

open Lib

-- ---------------------------------------------------------------------------
-- Layers of a graph that is edited
-- ---------------------------------------------------------------------------

/-- A node is in one layer only. -/
theorem split_unique {layers before before' after after' : List (List Nat)}
    {layer layer' : List Nat} (hNodup : layers.flatten.Nodup)
    (h : layers = before ++ layer :: after) (h' : layers = before' ++ layer' :: after') {n : Nat}
    (hn : n ∈ layer) (hn' : n ∈ layer') :
    before = before' ∧ layer = layer' ∧ after = after' := by
  subst h
  induction before generalizing before' with
  | nil =>
    cases before' with
    | nil =>
      obtain ⟨h1, h2⟩ := List.cons.inj h'
      exact ⟨rfl, h1, h2⟩
    | cons b before' =>
      obtain ⟨rfl, rfl⟩ := List.cons.inj h'
      rw [List.nil_append, List.flatten_cons, List.nodup_append] at hNodup
      exact absurd rfl (hNodup.2.2 n hn n (by simp [hn']))
  | cons a before ih =>
    cases before' with
    | nil =>
      obtain ⟨rfl, rfl⟩ := List.cons.inj h'
      rw [List.cons_append, List.flatten_cons, List.nodup_append] at hNodup
      exact absurd rfl (hNodup.2.2 n hn' n (by simp [hn]))
    | cons b before' =>
      obtain ⟨rfl, hRest⟩ := List.cons.inj h'
      rw [List.cons_append, List.flatten_cons, List.nodup_append] at hNodup
      obtain ⟨rfl, h2, h3⟩ := ih hNodup.2.1 hRest
      exact ⟨rfl, h2, h3⟩

theorem available_nil {g : DFG} {m : Nat} : Available g [] m ↔ m ∈ g.progInputs := Iff.rfl

/-- A layer has the outputs of the one before it. -/
theorem available_concat {g : DFG} {layers : List (List Nat)} {layer : List Nat} {m : Nat} :
    Available g (layers ++ [layer]) m ↔ ∃ a ∈ layer, m ∈ (g.mlmi a).outputs := by
  simp [Available]

/-- What is available stays so when nodes give out more. -/
theorem Available.mono {g g' : DFG} {layers : List (List Nat)} {m : Nat} (h : Available g layers m)
    (hProg : g'.progInputs = g.progInputs)
    (hOut : ∀ layer ∈ layers, ∀ a ∈ layer, ∀ x ∈ (g.mlmi a).outputs, x ∈ (g'.mlmi a).outputs) :
    Available g' layers m := by
  rcases List.eq_nil_or_concat layers with rfl | ⟨layers, layer, rfl⟩
  · exact available_nil.mpr (hProg ▸ available_nil.mp h)
  · rw [List.concat_eq_append] at h hOut ⊢
    obtain ⟨a, ha, hm⟩ := available_concat.mp h
    exact available_concat.mpr ⟨a, ha, hOut layer (by simp) a ha m hm⟩

/-- The nodes of a layer are nodes. -/
theorem Layered.mem_nodes {g : DFG} {layers : List (List Nat)} (h : Layered g layers)
    {layer : List Nat} (hl : layer ∈ layers) {n : Nat} (hn : n ∈ layer) : n ∈ g.nodes :=
  (h.mem_iff n).mp (List.mem_flatten.mpr ⟨layer, hl, hn⟩)

/-- Every edge of a layered graph leads from one layer to the next. -/
theorem Layered.acyclic {g : DFG} {layers : List (List Nat)} (h : Layered g layers) (hg : g.Good)
    (hExact : g.Exact []) : Acyclic g.Edge := by
  refine acyclic_of_before h.nodup
    (fun a b hEdge => (h.mem_iff b).mpr ((hExact a b).mp hEdge).2.1) ?_
  intro pre b post hSplit a hEdge
  have hPre : ∀ x ∈ pre, x ∈ g.nodes := fun x hx => (h.mem_iff x).mp (by simp [hSplit, hx])
  refine hg.edge_before hExact hPre (fun m hm => ?_) hEdge
  -- the layer of `b`, in which the list is split at `b` too
  have hb : b ∈ layers.flatten := by simp [hSplit]
  obtain ⟨layer, hLayer, hbLayer⟩ := List.mem_flatten.mp hb
  obtain ⟨before, after, rfl⟩ := List.append_of_mem hLayer
  obtain ⟨left, right, rfl⟩ := List.append_of_mem hbLayer
  have hEq : before.flatten ++ left = pre := by
    have hNodup := h.nodup
    rw [hSplit, List.nodup_middle, List.nodup_cons, List.mem_append, not_or] at hNodup
    have hAppend : pre ++ b :: post = (before.flatten ++ left) ++ b ::
        (right ++ after.flatten) := by
      rw [← hSplit]
      simp
    exact ((List.append_cons_inj_of_notMem hNodup.1.1 hNodup.1.2).mp hAppend).1.symm
  have hAv := h.reads before (left ++ b :: right) after rfl b (by simp) m hm
  rcases List.eq_nil_or_concat before with rfl | ⟨before, prev, rfl⟩
  · exact Or.inl hAv
  · rw [List.concat_eq_append] at hAv hEq
    obtain ⟨c, hc, hOut⟩ := available_concat.mp hAv
    refine Or.inr ⟨c, ?_, hOut⟩
    rw [← hEq]
    simp [hc]

/-- Other layers have other nodes. -/
theorem Layered.ne_of_mem {g : DFG} {before after : List (List Nat)} {layer l : List Nat}
    (h : Layered g (before ++ layer :: after)) (hl : l ∈ before ++ after) {a n : Nat} (ha : a ∈ l)
    (hn : n ∈ layer) : a ≠ n := by
  rintro rfl
  have hNodup := h.nodup
  rw [List.flatten_append, List.flatten_cons, List.nodup_append] at hNodup
  rcases List.mem_append.mp hl with hl | hl
  · exact hNodup.2.2 a (List.mem_flatten.mpr ⟨l, hl, ha⟩) a (by simp [hn]) rfl
  · exact (List.nodup_append.mp hNodup.2.1).2.2 a hn a (List.mem_flatten.mpr ⟨l, hl, ha⟩) rfl

/-- Work on a node that takes new inputs from the layer before. -/
theorem Layered.worked {pending : List Nat} {g g' : DFG} {layers before after : List (List Nat)}
    {layer : List Nat} (h : Layered g layers) (hSplit : layers = before ++ layer :: after) {n : Nat}
    (hn : n ∈ layer) (hWork : DFG.Worked pending g g' n)
    (hIn : ∀ m ∈ (g'.mlmi n).inputs, m ∈ (g.mlmi n).inputs ∨ Available g before m) :
    Layered g' layers := by
  have hMono : ∀ {layers m}, Available g layers m → Available g' layers m := fun hAv =>
    hAv.mono hWork.meaning.progInputs_eq fun _ _ a _ => hWork.outputs_sub a
  refine ⟨h.nodup, fun a => by rw [hWork.nodes_eq]; exact h.mem_iff a, ?_⟩
  intro before' layer' after' hSplit' a ha m hm
  by_cases han : a = n
  · subst han
    obtain ⟨rfl, -, -⟩ := split_unique h.nodup hSplit hSplit' hn ha
    rcases hIn m hm with hm | hm
    · exact hMono (h.reads before layer' after' hSplit' a ha m hm)
    · exact hMono hm
  · rw [hWork.other a han] at hm
    exact hMono (h.reads before' layer' after' hSplit' a ha m hm)

/-- A new empty node at the end of a layer. -/
theorem Layered.newNode {g : DFG} (hg : g.Good) {before after : List (List Nat)} {layer : List Nat}
    (h : Layered g (before ++ layer :: after)) :
    Layered g.newNode (before ++ (layer ++ [g.fresh]) :: after) := by
  have hFresh : g.fresh ∉ (before ++ layer :: after).flatten := fun hIn =>
    hg.fresh_not_mem ((h.mem_iff _).mp hIn)
  have hPerm : (before ++ (layer ++ [g.fresh]) :: after).flatten.Perm
      (g.fresh :: (before ++ layer :: after).flatten) := by
    simp only [List.flatten_append, List.flatten_cons, List.append_assoc, List.singleton_append]
    refine ((List.perm_middle.append_left before.flatten)).trans ?_
    exact List.perm_middle
  have hOld : ∀ {layers m}, (∀ l ∈ layers, ∀ a ∈ l, a ∈ g.nodes) → Available g layers m →
      Available g.newNode layers m := fun hLayers hAv =>
    hAv.mono rfl fun l hl a ha m hm => (hg.newNode_mlmi (hLayers l hl a ha)).symm ▸ hm
  refine ⟨?_, fun a => ?_, ?_⟩
  · exact hPerm.nodup_iff.mpr (List.nodup_cons.mpr ⟨hFresh, h.nodup⟩)
  · rw [hPerm.mem_iff, List.mem_cons, h.mem_iff, DFG.mem_newNode]
  · intro before' layer' after' hSplit a ha m hm
    by_cases haFresh : a = g.fresh
    · subst haFresh
      rw [DFG.newNode_mlmi_fresh] at hm
      cases hm
    -- the layer of the old graph that `layer'` comes from, and those before it
    have hCases : ∃ before₀ layer₀ after₀, before ++ layer :: after = before₀ ++ layer₀ :: after₀ ∧
        a ∈ layer₀ ∧ ∀ m, Available g before₀ m → Available g.newNode before' m := by
      -- `layer'` is the grown layer, or lies behind it, or before it
      rcases List.append_eq_append_iff.mp hSplit with ⟨mid, rfl, hMid⟩ | ⟨mid, rfl, hMid⟩
      · cases mid with
        | nil =>
          obtain ⟨rfl, rfl⟩ := List.cons.inj hMid
          refine ⟨before, layer, after, rfl, ?_, fun m hAv => ?_⟩
          · rcases List.mem_append.mp ha with ha | ha
            · exact ha
            · exact absurd (List.mem_singleton.mp ha) haFresh
          · rw [List.append_nil]
            exact hOld (fun l hl a ha => h.mem_nodes (by simp [hl]) ha) hAv
        | cons l mid =>
          obtain ⟨rfl, rfl⟩ := List.cons.inj hMid
          refine ⟨before ++ layer :: mid, layer', after', by simp, ha, fun m hAv => ?_⟩
          rcases List.eq_nil_or_concat mid with rfl | ⟨mid, last, rfl⟩
          · obtain ⟨b, hb, hOut⟩ := available_concat.mp hAv
            refine available_concat.mpr ⟨b, by simp [hb], ?_⟩
            rwa [hg.newNode_mlmi (h.mem_nodes (by simp) hb)]
          · rw [List.concat_eq_append, ← List.cons_append, ← List.append_assoc] at hAv ⊢
            obtain ⟨b, hb, hOut⟩ := available_concat.mp hAv
            refine available_concat.mpr ⟨b, hb, ?_⟩
            rwa [hg.newNode_mlmi (h.mem_nodes (by simp) hb)]
      · cases mid with
        | nil =>
          obtain ⟨rfl, rfl⟩ := List.cons.inj hMid
          refine ⟨before', layer, after', by simp, ?_, fun m hAv => ?_⟩
          · rcases List.mem_append.mp ha with ha | ha
            · exact ha
            · exact absurd (List.mem_singleton.mp ha) haFresh
          · exact hOld (fun l hl a ha => h.mem_nodes (by simp [hl]) ha) hAv
        | cons l mid =>
          obtain ⟨rfl, rfl⟩ := List.cons.inj hMid
          refine ⟨before', layer', mid ++ layer :: after, by simp, ha, fun m hAv => ?_⟩
          exact hOld (fun l hl a ha => h.mem_nodes (by simp [hl]) ha) hAv
    obtain ⟨before₀, layer₀, after₀, hSplit₀, ha₀, hAv⟩ := hCases
    have haMem : a ∈ g.nodes := h.mem_nodes (by simp [hSplit₀]) ha₀
    rw [hg.newNode_mlmi haMem] at hm
    exact hAv m (h.reads before₀ layer₀ after₀ hSplit₀ a ha₀ m hm)

/-- An empty layer at the end. -/
theorem Layered.concat_nil {g : DFG} {layers : List (List Nat)} (h : Layered g layers) :
    Layered g (layers ++ [[]]) := by
  refine ⟨by simpa using h.nodup, fun n => by simpa using h.mem_iff n, ?_⟩
  intro before layer after hSplit n hn m hm
  rcases List.eq_nil_or_concat after with rfl | ⟨after, last, rfl⟩
  · obtain ⟨-, hLast⟩ := List.append_inj' hSplit rfl
    obtain ⟨rfl, -⟩ := List.cons.inj hLast
    cases hn
  · rw [List.concat_eq_append, ← List.cons_append, ← List.append_assoc] at hSplit
    obtain ⟨hRest, -⟩ := List.append_inj' hSplit rfl
    exact h.reads before layer after hRest n hn m hm

-- ---------------------------------------------------------------------------
-- Stretched graphs
-- ---------------------------------------------------------------------------

namespace Stretched

variable {cfg : Config} {g₀ g g' : DFG} {layers before after : List (List Nat)} {layer : List Nat}

/-- A new node in a layer changes nothing. -/
theorem newNode (h : Stretched cfg g₀ g (before ++ layer :: after)) :
    Stretched cfg g₀ g.newNode (before ++ (layer ++ [g.fresh]) :: after) where
  good := h.good.newNode
  exact := h.good.exact_newNode h.exact
  meaning := h.meaning.trans h.good.extends_newNode
  within := by
    intro n hn
    rcases DFG.mem_newNode.mp hn with rfl | hn
    · rw [DFG.newNode_mlmi_fresh]
      exact ⟨Nat.zero_le _, Nat.zero_le _, Nat.zero_le _⟩
    · rw [h.good.newNode_mlmi hn]
      exact h.within n hn
  layered := h.layered.newNode h.good

/-- An empty layer at the end. -/
theorem concat_nil (h : Stretched cfg g₀ g layers) : Stretched cfg g₀ g (layers ++ [[]]) :=
  { h with layered := h.layered.concat_nil }

/-- Work on a node of a layer. -/
theorem worked (h : Stretched cfg g₀ g layers) (hSplit : layers = before ++ layer :: after)
    {n : Nat} (hn : n ∈ layer) (hWork : DFG.Worked [] g g' n)
    (hIn : ∀ m ∈ (g'.mlmi n).inputs, m ∈ (g.mlmi n).inputs ∨ Available g before m)
    (hWithin : (g'.mlmi n).Within cfg) : Stretched cfg g₀ g' layers where
  good := hWork.good
  exact := hWork.exact
  meaning := h.meaning.trans hWork.meaning
  within := by
    intro a ha
    by_cases han : a = n
    · rwa [han]
    · rw [hWork.other a han]
      exact h.within a (hWork.nodes_eq ▸ ha)
  layered := h.layered.worked hSplit hn hWork hIn

/-- New names for the program outputs. -/
theorem renameOutputs (h : Stretched cfg g₀ g layers) {d : List (Nat × Nat)}
    (hGood : (g.renameOutputs d).Good) (hExt : DFG.Extends g (g.renameOutputs d)) :
    Stretched cfg g₀ (g.renameOutputs d) layers :=
  ⟨hGood, h.exact, h.meaning.trans hExt, h.within,
    ⟨h.layered.nodup, h.layered.mem_iff, h.layered.reads⟩⟩

/-- Some empty nodes at the end of a layer. -/
theorem newNodes (h : Stretched cfg g₀ g (before ++ layer :: after)) (k : Nat) :
    ∃ g' layer', (List.range k).foldl (fun st _ => (st.1.newNode, st.2 ++ [st.1.fresh]))
      (g, layer) =
      (g', layer') ∧ Stretched cfg g₀ g' (before ++ layer' :: after) ∧
      g'.progOutputs = g.progOutputs ∧ layer'.length = layer.length + k ∧
      (∀ n ∈ layer, n ∈ layer') ∧ ∀ n ∈ g.nodes, n ∈ g'.nodes ∧ g'.mlmi n = g.mlmi n := by
  induction k with
  | zero => exact ⟨g, layer, rfl, h, rfl, rfl, fun _ hn => hn, fun _ hn => ⟨hn, rfl⟩⟩
  | succ k ih =>
    obtain ⟨g', layer', hFold, hInv, hOut, hLen, hSub, hOld⟩ := ih
    refine ⟨g'.newNode, layer' ++ [g'.fresh], ?_, hInv.newNode, hOut, ?_,
      fun n hn => List.mem_append_left _ (hSub n hn), fun n hn => ?_⟩
    · rw [List.range_succ, List.foldl_append, hFold]
      rfl
    · rw [List.length_append, List.length_singleton, hLen]
      omega
    · obtain ⟨hn', hEq⟩ := hOld n hn
      exact ⟨DFG.mem_newNode.mpr (Or.inr hn'), (hInv.good.newNode_mlmi hn').trans hEq⟩

end Stretched

-- ---------------------------------------------------------------------------
-- Depth
-- ---------------------------------------------------------------------------

/-- The layers that are added make up the depth, and none of them is empty. -/
theorem addDepthPadding_spec {cfg : Config} {g₀ g : DFG} {layers : List (List Nat)}
    (h : Stretched cfg g₀ g layers) :
    ∃ g' added, addDepthPadding cfg g layers = (g', layers ++ added) ∧
      Stretched cfg g₀ g' (layers ++ added) ∧ g'.progOutputs = g.progOutputs ∧
      added.length = depthOf cfg layers.length - layers.length ∧ (∀ l ∈ added, l ≠ []) ∧
      (added = [] → g' = g) := by
  unfold addDepthPadding
  induction depthOf cfg layers.length - layers.length with
  | zero => exact ⟨g, [], by simp, by simpa using h, rfl, rfl, by simp, fun _ => rfl⟩
  | succ k ih =>
    obtain ⟨g', added, hFold, hInv, hOut, hLen, hne, -⟩ := ih
    refine ⟨g'.newNode, added ++ [[g'.fresh]], ?_, ?_, hOut, by simp [hLen],
      fun l hl => ?_, by simp⟩
    · rw [List.range_succ, List.foldl_append, hFold]
      simp
    · have := hInv.concat_nil.newNode
      rwa [List.nil_append, List.append_assoc] at this
    · rcases List.mem_append.mp hl with hl | hl
      · exact hne l hl
      · rw [List.mem_singleton.mp hl]
        simp

-- ---------------------------------------------------------------------------
-- Width
-- ---------------------------------------------------------------------------

theorem widest_append_singleton (layers : List (List Nat)) (layer : List Nat) :
    widest (layers ++ [layer]) = max (widest layers) layer.length := by
  simp [widest]

/-- No layer is wider than the widest. -/
theorem length_le_widest {layers : List (List Nat)} {layer : List Nat} (h : layer ∈ layers) :
    layer.length ≤ widest layers := by
  induction layers using List.reverseRecOn with
  | nil => cases h
  | append_singleton layers last ih =>
    rw [widest_append_singleton]
    rcases List.mem_append.mp h with h | h
    · exact le_trans (ih h) (le_max_left _ _)
    · rw [List.mem_singleton.mp h]
      exact le_max_right _ _

/-- The width is zero if all layers are empty. -/
theorem widest_eq_zero {layers : List (List Nat)} : widest layers = 0 ↔ ∀ l ∈ layers, l = [] := by
  induction layers using List.reverseRecOn with
  | nil => simp [widest]
  | append_singleton layers last ih =>
    rw [widest_append_singleton, Nat.max_eq_zero_iff, ih, List.length_eq_zero_iff]
    simp [or_imp, forall_and]

/-- The layers are made no narrower. -/
theorem le_widthOf (cfg : Config) (width : Nat) : width ≤ widthOf cfg width := by
  unfold widthOf
  split
  · next h => exact h.2
  · exact le_rfl

/-- They are as wide as is asked for. -/
theorem width_le_widthOf (cfg : Config) (width : Nat) : cfg.width ≤ widthOf cfg width := by
  unfold widthOf
  split
  · exact le_rfl
  · next h =>
    rcases Nat.eq_zero_or_pos cfg.width with hZero | hPos
    · omega
    · have : ¬ width ≤ cfg.width := fun hle => h ⟨by omega, hle⟩
      omega

/-- Widening the middle layers. -/
theorem foldl_widenLayer {cfg : Config} {g₀ g : DFG} {first last : List Nat} (width : Nat)
    {done middle : List (List Nat)} (hWidth : ∀ l ∈ middle, l.length ≤ width)
    (h : Stretched cfg g₀ g (first :: (done ++ middle) ++ [last])) :
    ∃ g' middle', middle.foldl (widenLayer width) (g, done) = (g', done ++ middle') ∧
      Stretched cfg g₀ g' (first :: (done ++ middle') ++ [last]) ∧ g'.progOutputs = g.progOutputs ∧
      middle'.length = middle.length ∧ (∀ l ∈ middle', l.length = width) ∧
      ∀ n ∈ g.nodes, n ∈ g'.nodes ∧ g'.mlmi n = g.mlmi n := by
  induction middle generalizing g done with
  | nil => exact ⟨g, [], by simp, h, rfl, rfl, by simp, fun n hn => ⟨hn, rfl⟩⟩
  | cons l middle ih =>
    have hSplit : first :: (done ++ l :: middle) ++ [last] =
        (first :: done) ++ l :: (middle ++ [last]) := by simp
    rw [hSplit] at h
    obtain ⟨g₁, l', hFold, hInv, hOut, hLen, -, hOld⟩ := h.newNodes (width - l.length)
    have hl := hWidth l (by simp)
    have hInv' : Stretched cfg g₀ g₁ (first :: ((done ++ [l']) ++ middle) ++ [last]) := by
      simpa using hInv
    obtain ⟨g', middle', hRest, hInv'', hOut', hLen', hAll, hOld'⟩ :=
      ih (fun x hx => hWidth x (by simp [hx])) hInv'
    refine ⟨g', l' :: middle', ?_, by simpa using hInv'', hOut'.trans hOut, by simp [hLen'],
      fun x hx => ?_, fun n hn => ?_⟩
    · rw [List.foldl_cons, widenLayer, hFold]
      simpa using hRest
    · rcases List.mem_cons.mp hx with rfl | hx
      · omega
      · exact hAll x hx
    · obtain ⟨hn₁, hEq₁⟩ := hOld n hn
      obtain ⟨hn', hEq'⟩ := hOld' n hn₁
      exact ⟨hn', hEq'.trans hEq₁⟩

theorem middleLayers_eq (first last : List Nat) (middle : List (List Nat)) :
    middleLayers (first :: middle ++ [last]) = middle := by
  simp [middleLayers]

/-- The middle layers get the same width, by nodes without instructions. -/
theorem equalizeLayers_spec {cfg : Config} {g₀ g : DFG} {first last : List Nat}
    {middle : List (List Nat)} (h : Stretched cfg g₀ g (first :: middle ++ [last])) :
    ∃ g' middle', equalizeLayers cfg g (first :: middle ++ [last]) =
      (g', first :: middle' ++ [last]) ∧
      Stretched cfg g₀ g' (first :: middle' ++ [last]) ∧ g'.progOutputs = g.progOutputs ∧
      middle'.length = middle.length ∧ (∀ l ∈ middle', l.length = widthOf cfg (widest middle)) ∧
      ∀ n ∈ g.nodes, n ∈ g'.nodes ∧ g'.mlmi n = g.mlmi n := by
  have hStart : Stretched cfg g₀ g (first :: ([] ++ middle) ++ [last]) := h
  obtain ⟨g', middle', hFold, hInv, hOut, hLen, hAll, hOld⟩ :=
    foldl_widenLayer (widthOf cfg (widest middle))
      (fun l hl => (length_le_widest hl).trans (le_widthOf cfg _)) hStart
  rw [List.nil_append] at hFold hInv
  refine ⟨g', middle', ?_, hInv, hOut, hLen, hAll, hOld⟩
  simp only [equalizeLayers, middleLayers_eq, hFold]
  simp [hLen, Nat.add_comm 1]

end Obscure
