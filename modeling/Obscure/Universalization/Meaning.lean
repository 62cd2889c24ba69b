import Mathlib.Tactic.IntervalCases
import Obscure.Universalization.Pass
import Obscure.Clusterization.Meaning

/-!
# OBSCURE — universalization preserves meaning

A good graph computes the values of its models. Graphs that extend each other
compute the same values.

* `DFG.Extends.eval_eq`      — extended graphs compute what they computed before;
* `rectangularize_preserves` — the layers that `rectangularize` makes read from one
  another in turn, and the graph computes what it computed before;
* `universalize_preserves`   — `universalize` returns such a graph, unless there is
  nothing to route.
-/

namespace Obscure

open Lib

namespace DFG

section Models

variable {g g' : DFG} {junk junk' : Nat → Store Nat} {order order' : List Nat} {σ σ' : Store Nat}

/-- Good acyclic graphs can be evaluated. -/
theorem Good.evaluable (hg : g.Good) (hExact : g.Exact []) (hAcyclic : Acyclic g.Edge) :
    g.Evaluable := by
  have hGiven : ∀ m, g.Given m → (∀ a ∈ g.nodes, m ∉ (g.mlmi a).getDefs) ∨
      ∃ a ∈ g.nodes, m ∈ (g.mlmi a).outputs := fun m hm =>
    hm.imp_left fun hProg a ha hDef => hg.progInputs_kept a ha m hDef hProg
  have hInputs : ∀ n ∈ g.nodes, ∀ m ∈ (g.mlmi n).inputs, (∀ a ∈ g.nodes, m ∉ (g.mlmi a).getDefs) ∨
      ∃ a ∈ g.nodes, g.Edge a n ∧ m ∈ (g.mlmi a).outputs := by
    intro n hn m hm
    refine (hGiven m (hg.inputs_from n hn m hm)).imp_right ?_
    rintro ⟨a, ha, hOut⟩
    exact ⟨a, ha, (hExact a n).mpr ⟨ha, hn, List.not_mem_nil, m, hOut, hm⟩, hOut⟩
  refine ⟨hg.nodes_nodup, hg.seq_nodup, fun n hn pre i post hSplit m hm hDef => ?_,
    fun n hn i hi m hm => hg.reads_cases hn hi hm, hg.outputs_sub,
    fun a ha b hb m hm hm' => hg.def_unique ha hb hm hm', hInputs,
    fun m hm => hGiven m (hg.progOutputs_from m hm)⟩
  refine (hg.scheduled n hn pre i post hSplit m hm).resolve_left fun hIn => ?_
  rcases hInputs n hn m hIn with hNone | ⟨a, ha, hEdge, hOut⟩
  · exact hNone n hn hDef
  · -- the node would feed itself
    obtain rfl := hg.def_unique ha hn (hg.outputs_sub a ha m hOut) hDef
    exact hAcyclic a (.single hEdge)

/-- A graph computes the values of its models. -/
theorem Good.eval_eq_some_iff (hg : g.Good) (hExact : g.Exact []) (hAcyclic : Acyclic g.Edge)
    (hTop : g.Topological order) {vals : List Word} :
    g.eval junk order σ = some vals ↔
      ∃ τ, g.Models τ ∧ (∀ m ∈ g.progInputs, τ m = σ m) ∧ g.progOutputs.map τ = vals := by
  rw [(hg.evaluable hExact hAcyclic).eval_eq_some_iff hTop]
  constructor
  · rintro ⟨τ, hModels, hKept, hVals⟩
    exact ⟨τ, hModels, fun m hm => hKept m fun a ha hDef => hg.progInputs_kept a ha m hDef hm,
      hVals⟩
  · rintro ⟨τ, hModels, hIn, rfl⟩
    classical
    -- cells that no node defines get the values of the start
    set τ' : Store Nat :=
      fun m => if ∃ a ∈ g.nodes, m ∈ (g.mlmi a).getDefs then τ m else σ m with hτ'
    have hDef : ∀ n ∈ g.nodes, ∀ m ∈ (g.mlmi n).getDefs, τ' m = τ m := fun n hn m hm =>
      if_pos ⟨n, hn, hm⟩
    have hGiven : ∀ m, g.Given m → τ' m = τ m := by
      rintro m (hProg | ⟨a, ha, hOut⟩)
      · rw [hτ']
        simp only [hIn m hProg, ite_self]
      · exact hDef a ha m (hg.outputs_sub a ha m hOut)
    refine ⟨τ', fun n hn i hi => ?_, fun m hm => if_neg fun ⟨a, ha, hDef⟩ => hm a ha hDef,
      List.map_congr_left fun m hm => hGiven m (hg.progOutputs_from m hm)⟩
    have hSame : i.result τ' = i.result τ := Instr.result_congr fun m hm => by
      rcases hg.reads_cases hn hi hm with hm | hm
      · exact hGiven m (hg.inputs_from n hn m hm)
      · exact hDef n hn m hm
    rw [Instr.Holds, hSame, hDef n hn i.dst (List.mem_map_of_mem hi)]
    exact hModels n hn i hi

/-- Extended graphs compute what they computed before. -/
theorem Extends.eval_eq (h : Extends g g') (hg : g.Good) (hExact : g.Exact [])
    (hAcyclic : Acyclic g.Edge) (hg' : g'.Good) (hExact' : g'.Exact [])
    (hAcyclic' : Acyclic g'.Edge) (hTop : g.Topological order) (hTop' : g'.Topological order')
    (hSame : ∀ m ∈ g.progInputs, σ' m = σ m) :
    g'.eval junk' order' σ' = g.eval junk order σ := by
  refine Option.ext fun vals => ?_
  rw [hg'.eval_eq_some_iff hExact' hAcyclic' hTop', hg.eval_eq_some_iff hExact hAcyclic hTop]
  constructor
  · rintro ⟨τ, hModels, hIn, rfl⟩
    refine ⟨τ, h.back τ hModels, fun m hm => ?_, (h.outputs τ hModels).symm⟩
    rw [hIn m (h.progInputs_eq.symm ▸ hm), hSame m hm]
  · rintro ⟨τ, hModels, hIn, rfl⟩
    obtain ⟨τ', hModels', hOld⟩ := h.forth τ hModels
    refine ⟨τ', hModels', fun m hm => ?_, ?_⟩
    · have hm' : m ∈ g.progInputs := h.progInputs_eq ▸ hm
      rw [hOld m (hg.progInputs_lt m hm'), hIn m hm', hSame m hm']
    · rw [h.outputs τ' hModels']
      exact List.map_congr_left fun m hm => hOld m (hg.given_lt (hg.progOutputs_from m hm))

/-- There is a topological order. -/
theorem exists_topological (hExact : g.Exact []) (hAcyclic : Acyclic g.Edge) :
    ∃ order, g.Topological order := by
  obtain ⟨order, hPerm, hAfter⟩ := hAcyclic.exists_order g.nodes
  exact ⟨order, hPerm, fun pre n post hSplit a hEdge =>
    hAfter pre n post hSplit a ((hExact a n).mp hEdge).1 hEdge⟩

end Models

end DFG

-- ---------------------------------------------------------------------------
-- The pass
-- ---------------------------------------------------------------------------

section Pass

variable {cfg : Config} {g : DFG}

/-- The pass raises when there is nothing to route. -/
theorem universalize_raises (hCfg : cfg.Balanced) (hg : g.Ready cfg) (hIdle : g.Idle cfg)
    (ord : Orders) {rnd : Random} (hFair : rnd.Fair) :
    ∃ N, ∀ fuel ≥ N, universalize ord rnd fuel cfg g = .error .valueError := by
  obtain ⟨g₁, layers, g₂, first, middle, last, g₃, middle', -, -, hSpread, hPadded, hShaped, -⟩ :=
    padded_returns hCfg hg ord hFair
  rw [hSpread.width_eq_zero.mpr hIdle] at hShaped
  have hDepth : depthOf cfg layers.length ≠ 0 := by
    have := hSpread.depth_ne
    unfold depthOf
    split <;> omega
  obtain ⟨N, hN⟩ := universalizeRows_raises hCfg hg.progInputs_ne hIdle.2.1 hDepth hPadded hShaped
  refine ⟨N, fun fuel hFuel => ?_⟩
  rw [universalize, hN fuel hFuel]
  rfl

/-- The pass returns when there is something to route. -/
theorem universalizeRows_returns (hCfg : cfg.Balanced) (hg : g.Ready cfg) (hBusy : ¬ g.Idle cfg)
    (ord : Orders) {rnd : Random} (hFair : rnd.Fair) :
    ∃ g₁ layers g₂ first middle last g₃ middle' g' rows,
      Returns (fun fuel => rectangularize (ord.fork 0) fuel cfg g) (g₁, layers) ∧
      Returns (fun fuel => propagated ord fuel cfg g) (g₂, first :: middle ++ [last]) ∧
      Returns (fun fuel => padded ord rnd fuel cfg g) (g₃, first :: middle' ++ [last]) ∧
      Returns (fun fuel => universalizeRows ord rnd fuel cfg g) (g', rows) ∧
      Shaped cfg g g₃ (depthOf cfg layers.length) (widthOf cfg (widest middle)) first middle' last ∧
      (∀ layer ∈ first :: middle' ++ [last], layer ∈ rows) ∧
      Finished cfg g g₃ g' rows last (publicSkeleton cfg (depthOf cfg layers.length)
        (widthOf cfg (widest middle)) g.progInputs.length g.progOutputs.dedup.length) ∧
      ∀ m ∈ g'.progOutputs, g.memoryCount ≤ m := by
  obtain ⟨g₁, layers, g₂, first, middle, last, g₃, middle', hRect, hProp, hSpread, hPadded, hShaped,
      hFresh⟩ :=
    padded_returns hCfg hg ord hFair
  have hWidth : widthOf cfg (widest middle) ≠ 0 := mt hSpread.width_eq_zero.mp hBusy
  obtain ⟨g', rows, hRows, hPlaced, hFinished⟩ :=
    universalizeRows_of_padded hCfg hg.progInputs_ne hWidth hPadded hShaped
  exact ⟨g₁, layers, g₂, first, middle, last, g₃, middle', g', rows, hRect, hProp, hPadded, hRows,
    hShaped, hPlaced, hFinished, fun m hm => hFresh m (hFinished.progOutputs_eq ▸ hm)⟩

end Pass

/-- What is known of a universalized graph: its edges are exact, it is acyclic, and it
computes what the graph computed before, in every topological order. -/
structure DFG.Preserves (g g' : DFG) : Prop where
  good : g'.Good
  exact : g'.Exact []
  acyclic : Acyclic g'.Edge
  topological : ∃ order, g'.Topological order
  eval_eq : ∀ order order', g.Topological order → g'.Topological order' → ∀ junk junk' σ,
    g'.eval junk' order' σ = g.eval junk order σ

/-- **Rectangularization is correct.** `layerize` puts every node one layer after the latest of
those it reads from. `rectangularize` returns a graph that computes what it computed before,
within the limits; the nodes of the first layer read program inputs only, those of any other
layer read outputs of the layer before. -/
theorem rectangularize_preserves {cfg : Config} {g : DFG} (hg : g.Good) (hExact : g.Exact [])
    (hAcyclic : Acyclic g.Edge) (hWithin : ∀ n ∈ g.nodes, (g.mlmi n).Within cfg) (ord : Orders) :
    (∃ nodeLayers layers lastLayer, Returns (fun fuel => layerize ord fuel g) (nodeLayers, layers) ∧
      g.Placed nodeLayers lastLayer ∧ Ranked g nodeLayers layers) ∧
    ∃ g' layers, Returns (fun fuel => rectangularize ord fuel cfg g) (g', layers) ∧
      Layered g' layers ∧ (∀ n ∈ g'.nodes, (g'.mlmi n).Within cfg) ∧ g.Preserves g' := by
  constructor
  · obtain ⟨nodeLayers, layers, lastLayer, hReturns, -, -, hPlaced, hRanked⟩ :=
      layerize_returns hg hExact hAcyclic ord
    exact ⟨nodeLayers, layers, lastLayer, hReturns, hPlaced, hRanked⟩
  · obtain ⟨g', layers, hReturns, hStretched, -⟩ :=
      rectangularize_returns hg hExact hAcyclic hWithin ord
    have hAcyclic' := hStretched.layered.acyclic hStretched.good hStretched.exact
    refine ⟨g', layers, hReturns, hStretched.layered, hStretched.within, hStretched.good,
      hStretched.exact, hAcyclic', DFG.exists_topological hStretched.exact hAcyclic', ?_⟩
    intro order order' hTop hTop' junk junk' σ
    exact hStretched.meaning.eval_eq hg hExact hAcyclic hStretched.good hStretched.exact hAcyclic'
      hTop hTop' fun _ _ => rfl

/-- **Universalization is correct** for all graphs that are not idle, whatever the
options, the iteration orders and the random choices; for idle ones it does not
return. -/
theorem universalize_preserves {cfg : Config} (hCfg : cfg.Balanced) {g : DFG} (hg : g.Ready cfg)
    (ord : Orders) {rnd : Random} (hFair : rnd.Fair) :
    (∃ g', Returns (fun fuel => universalize ord rnd fuel cfg g) g' ∧ g.Preserves g') ↔
      ¬ g.Idle cfg := by
  constructor
  · rintro ⟨g', ⟨N, hN⟩, -⟩ hIdle
    obtain ⟨M, hM⟩ := universalize_raises hCfg hg hIdle ord hFair
    have hOk : universalize ord rnd (max N M) cfg g = .ok g' := hN _ (le_max_left _ _)
    rw [hM _ (le_max_right _ _)] at hOk
    cases hOk
  · intro hBusy
    obtain ⟨_, _, _, _, _, _, _, _, g', rows, -, -, -, hRows, -, -, hFinished, -⟩ :=
      universalizeRows_returns hCfg hg hBusy ord hFair
    refine ⟨g', hRows.bind (Returns.of_eq fun _ => rfl), hFinished.good, hFinished.exact,
      hFinished.acyclic, DFG.exists_topological hFinished.exact hFinished.acyclic, ?_⟩
    intro order order' hTop hTop' junk junk' σ
    exact hFinished.meaning.eval_eq hg.good hg.exact hg.acyclic hFinished.good hFinished.exact
      hFinished.acyclic hTop hTop' fun _ _ => rfl

/-- Two inputs and outputs a node, and no padding. -/
def pairConfig : Config :=
  { version := 0, wordSize := 32, lIn := 2, lOut := 2, r := 4, s := 2, width := 0, depth := 0,
    simpleClusterizer := false, fast := false }

theorem pairConfig_balanced : pairConfig.Balanced := ⟨⟨1, by decide, rfl⟩, rfl, by decide⟩

/-- `m1 = m0 + m0; m2 = m1 + m0; m3 = m2 + m1`, returning `m3`, one instruction a node. The
input is read again in the second layer and the first sum in the third. -/
def skipGraph : DFG where
  nodes := [0, 1, 2]
  mlmi := fun
    | 0 => ⟨[{ opcode := .ADD, dst := 1, src1 := some (.loc 0), src2 := some (.loc 0) }], [0], [1]⟩
    | 1 =>
      ⟨[{ opcode := .ADD, dst := 2, src1 := some (.loc 1), src2 := some (.loc 0) }], [1, 0], [2]⟩
    | _ =>
      ⟨[{ opcode := .ADD, dst := 3, src1 := some (.loc 2), src2 := some (.loc 1) }], [2, 1], [3]⟩
  fresh := 3
  backwardEdges := fun m => if 1 ≤ m ∧ m ≤ 3 then some (m - 1) else none
  forwardEdges := fun
    | 0 => [1, 2]
    | 1 => [2]
    | _ => []
  progInputs := [0]
  progOutputs := [3]
  memoryCount := 4

theorem mem_skipGraph {n : Nat} : n ∈ skipGraph.nodes ↔ n < 3 := by
  simp only [skipGraph, List.mem_cons, List.not_mem_nil, or_false]
  omega

theorem skipGraph_good : skipGraph.Good where
  nodes_nodup := by decide
  nodes_lt := by decide
  seq_nodup := by decide
  outputs_nodup := by decide
  outputs_sub := by decide
  scheduled := by
    intro n hn
    rw [mem_skipGraph] at hn
    interval_cases n <;> exact scheduled_cons.mpr ⟨by decide, Scheduled.nil _⟩
  inputs_from := by
    have hGiven : ∀ m < 4, skipGraph.Given m := by
      intro m hm
      rcases Nat.eq_zero_or_pos m with rfl | hPos
      · exact Or.inl (by decide)
      · refine Or.inr ⟨m - 1, mem_skipGraph.mpr (by omega), ?_⟩
        interval_cases m <;> decide
    have hRead : ∀ n ∈ skipGraph.nodes, ∀ m ∈ (skipGraph.mlmi n).inputs, m < 4 := by decide
    exact fun n hn m hm => hGiven m (hRead n hn m hm)
  backward_iff := by
    intro m n
    have hDefs : ∀ n ∈ skipGraph.nodes, (skipGraph.mlmi n).getDefs = [n + 1] := by decide
    have hEdge : skipGraph.backwardEdges m = some n ↔ n < 3 ∧ m = n + 1 := by
      simp only [skipGraph, Option.ite_none_right_eq_some, Option.some.injEq]
      omega
    rw [hEdge, ← mem_skipGraph]
    refine and_congr_right fun hn => ?_
    rw [hDefs n hn, List.mem_singleton]
  defs_lt := by decide
  progInputs_nodup := by decide
  progInputs_lt := by decide
  progInputs_kept := by decide
  progOutputs_from := fun m hm => Or.inr ⟨2, by decide, hm⟩

theorem skipGraph_edge {a b : Nat} (h : b ∈ skipGraph.forwardEdges a) : a < b ∧ b < 3 := by
  match a, h with
  | 0, h | 1, h =>
    simp only [skipGraph, List.mem_cons, List.not_mem_nil, or_false] at h
    omega

theorem skipGraph_ready : skipGraph.Ready pairConfig where
  good := skipGraph_good
  exact := by
    have hFeeds : ∀ a ∈ skipGraph.nodes, ∀ b ∈ skipGraph.nodes, b ∈ skipGraph.forwardEdges a ↔
        ∃ m ∈ (skipGraph.mlmi a).outputs, m ∈ (skipGraph.mlmi b).inputs := by decide
    intro a b
    constructor
    · intro h
      obtain ⟨hLt, hb⟩ := skipGraph_edge h
      have ha := mem_skipGraph.mpr (hLt.trans hb)
      rw [← mem_skipGraph] at hb
      exact ⟨ha, hb, List.not_mem_nil, (hFeeds a ha b hb).mp h⟩
    · rintro ⟨ha, hb, -, h⟩
      exact (hFeeds a ha b hb).mpr h
  acyclic := acyclic_of_lt (f := id) fun _ _ h => (skipGraph_edge h).1
  within := by
    intro n hn
    rw [mem_skipGraph] at hn
    interval_cases n <;> exact ⟨by decide, by decide, by decide⟩
  progInputs_ne := List.cons_ne_nil _ _

/-- Layers that can be computed for all fuel are those of the result. -/
theorem layers_eq_of_returns {f : Nat → Except Fault (DFG × List (List Nat))} {g : DFG}
    {layers layers' : List (List Nat)} (k : Nat) (h : Returns f (g, layers))
    (hEq : ∀ fuel, (f (fuel + k)).map Prod.snd = .ok layers') : layers = layers' := by
  obtain ⟨N, hN⟩ := h
  have hMap := hEq N
  rw [hN (N + k) (by omega)] at hMap
  exact Except.ok.inj hMap

/-- The theorem at a graph in which two edges skip a layer. -/
theorem rectangularize_skipGraph : ∃ g' layers,
    Returns (fun fuel => rectangularize storedOrders fuel pairConfig skipGraph) (g', layers) ∧
      layers = [[0], [1], [2]] ∧ Layered g' layers ∧ skipGraph.Preserves g' := by
  have hReady := skipGraph_ready
  obtain ⟨-, g', layers, hReturns, hLayered, -, hPreserves⟩ :=
    rectangularize_preserves hReady.good hReady.exact hReady.acyclic hReady.within storedOrders
  exact ⟨g', layers, hReturns, layers_eq_of_returns 5 hReturns fun _ => rfl, hLayered, hPreserves⟩

/-- The theorem at the same graph. -/
theorem universalize_skipGraph :
    ∃ g', Returns (fun fuel => universalize storedOrders .cycle fuel pairConfig skipGraph) g' ∧
      skipGraph.Preserves g' :=
  (universalize_preserves pairConfig_balanced skipGraph_ready storedOrders Random.cycle_fair).mpr
    fun hIdle => List.cons_ne_nil _ _ hIdle.1

/-- A program without instructions: one input, which it may return. -/
def wireGraph (outputs : List Nat) : DFG where
  nodes := []
  mlmi := fun _ => ⟨[], [], []⟩
  fresh := 0
  backwardEdges := fun _ => none
  forwardEdges := fun _ => []
  progInputs := [0]
  progOutputs := outputs
  memoryCount := 1

theorem wireGraph_ready {outputs : List Nat} (h : ∀ m ∈ outputs, m = 0) :
    (wireGraph outputs).Ready pairConfig where
  good := by
    refine ⟨List.nodup_nil, nofun, nofun, nofun, nofun, nofun, nofun, by simp [wireGraph], nofun,
      ?_, ?_, nofun, fun m hm => Or.inl ?_⟩
    · exact List.nodup_singleton 0
    · intro m hm
      rw [List.mem_singleton.mp hm]
      exact Nat.one_pos
    · rw [h m hm]
      exact List.mem_singleton.mpr rfl
  exact := by simp [DFG.Exact, wireGraph]
  acyclic := acyclic_of_lt (f := id) fun a b hEdge => absurd hEdge List.not_mem_nil
  within := nofun
  progInputs_ne := List.cons_ne_nil _ _

/-- A program that returns nothing makes the logarithm fail. -/
theorem universalize_idle_raises : pairConfig.Balanced ∧ (wireGraph []).Ready pairConfig ∧
    Random.cycle.Fair ∧ ∀ ord, ¬ ∃ g',
      Returns (fun fuel => universalize ord .cycle fuel pairConfig (wireGraph [])) g' ∧
        (wireGraph []).Preserves g' := by
  have hReady : (wireGraph []).Ready pairConfig := wireGraph_ready (by simp)
  refine ⟨pairConfig_balanced, hReady, Random.cycle_fair, ?_⟩
  rintro ord ⟨g', ⟨N, hN⟩, -⟩
  obtain ⟨M, hM⟩ := universalize_raises pairConfig_balanced hReady
    ⟨rfl, rfl, rfl, by decide⟩ ord Random.cycle_fair
  have hOk : universalize ord .cycle (max N M) pairConfig (wireGraph []) = .ok g' :=
    hN _ (le_max_left _ _)
  rw [hM _ (le_max_right _ _)] at hOk
  cases hOk

end Obscure
