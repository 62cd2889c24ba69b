import Obscure.Universalization.Meaning

/-!
# OBSCURE — what a universalized program shows

* `universalize_fits`  — every node fits the secure element, and the middle layers are
  full;
* `universalize_hides` — the skeleton depends on the numbers of inputs and outputs, and
  on the options.
-/

namespace Obscure

open Lib

-- ---------------------------------------------------------------------------
-- Sizes
-- ---------------------------------------------------------------------------

/-- The final graph keeps the layers in its rows, its nodes fit the secure element, and
those of the middle layers are full. -/
structure FitsRows (cfg : Config) (g : DFG) (rows : List (List Nat)) (first : List Nat)
    (middle : List (List Nat)) (last : List Nat) : Prop where
  placed : ∀ layer ∈ first :: middle ++ [last], layer ∈ rows
  mem_iff : ∀ n, n ∈ rows.flatten ↔ n ∈ g.nodes
  within : ∀ n ∈ g.nodes, (g.mlmi n).Within cfg
  full : ∀ layer ∈ middle, ∀ n ∈ layer,
    (g.mlmi n).inputs.length = cfg.lIn ∧ (g.mlmi n).outputs.length = cfg.lIn

/-- **Every node fits the secure element.** The padding loops end. All nodes of the
result are within the limits, the middle layers have the same width, at least the one
asked for, and full nodes. -/
theorem universalize_fits {cfg : Config} (hCfg : cfg.Balanced) {g : DFG} (hg : g.Ready cfg)
    (ord : Orders) {rnd : Random} (hFair : rnd.Fair) :
    ∃ g₁ first middle last width,
      Returns (fun fuel => padded ord rnd fuel cfg g) (g₁, first :: middle ++ [last]) ∧
      cfg.width ≤ width ∧ (∀ layer ∈ middle, layer.length = width) ∧
      (¬ g.Idle cfg → ∃ res, Returns (fun fuel => universalizeRows ord rnd fuel cfg g) res) ∧
      ∀ g' rows, Returns (fun fuel => universalizeRows ord rnd fuel cfg g) (g', rows) →
        FitsRows cfg g' rows first middle last := by
  obtain ⟨g₁, layers, g₂, first, middle, last, g₃, middle', -, -, hSpread, hPadded, hShaped, -⟩ :=
    padded_returns hCfg hg ord hFair
  refine ⟨g₃, first, middle', last, widthOf cfg (widest middle), hPadded, width_le_widthOf _ _,
    hShaped.width_eq, ?_⟩
  by_cases hIdle : g.Idle cfg
  · refine ⟨fun h => absurd hIdle h, fun g' rows hRows => ?_⟩
    have hRun : Returns (fun fuel => universalize ord rnd fuel cfg g) g' :=
      hRows.bind (Returns.of_eq fun _ => rfl)
    obtain ⟨N, hN⟩ := hRun
    obtain ⟨M, hM⟩ := universalize_raises hCfg hg hIdle ord hFair
    have hOk : universalize ord rnd (max N M) cfg g = .ok g' := hN _ (le_max_left _ _)
    rw [hM _ (le_max_right _ _)] at hOk
    cases hOk
  · have hWidth : widthOf cfg (widest middle) ≠ 0 := mt hSpread.width_eq_zero.mp hIdle
    obtain ⟨g₄, rows₄, hReturns, hPlaced, hFinished⟩ :=
      universalizeRows_of_padded hCfg hg.progInputs_ne hWidth hPadded hShaped
    refine ⟨fun _ => ⟨_, hReturns⟩, fun g' rows hRows => ?_⟩
    obtain ⟨rfl, rfl⟩ := Prod.mk.inj (hRows.unique hReturns)
    refine ⟨hPlaced, hFinished.mem_iff, hFinished.within, fun layer hLayer n hn => ?_⟩
    obtain ⟨hIn, hOut⟩ :=
      hFinished.kept n (hShaped.stretched.layered.mem_nodes (by simp [hLayer]) hn)
    obtain ⟨hFullIn, hFullOut⟩ := hShaped.full layer hLayer n hn
    exact ⟨hIn.trans hFullIn, (congrArg List.length hOut).trans hFullOut⟩

/-- The theorem at a graph of three layers: they become the middle layers, between the
masking of the inputs and the last layer, and their nodes are full. -/
theorem universalize_fits_skipGraph : ∃ (res : DFG × List (List Nat)) (middle : List (List Nat)),
    Returns (fun fuel => universalizeRows storedOrders .cycle fuel pairConfig skipGraph) res ∧
      middle = [[0], [1], [2]] ∧ (∀ n ∈ res.1.nodes, (res.1.mlmi n).Within pairConfig) ∧
      ∀ layer ∈ middle, layer ∈ res.2 ∧ ∀ n ∈ layer,
        (res.1.mlmi n).inputs.length = 2 ∧ (res.1.mlmi n).outputs.length = 2 := by
  obtain ⟨g₁, first, middle, last, width, hPadded, -, -, hReturns, hFits⟩ :=
    universalize_fits pairConfig_balanced skipGraph_ready storedOrders Random.cycle_fair
  obtain ⟨res, hRes⟩ := hReturns fun hIdle => List.cons_ne_nil _ _ hIdle.1
  have hRows := hFits res.1 res.2 hRes
  have hLayers : first :: middle ++ [last] = [[3], [0], [1], [2], [4]] :=
    layers_eq_of_returns 5 hPadded fun _ => rfl
  have hTail : middle ++ [last] = [[0], [1], [2]] ++ [[4]] := (List.cons.inj hLayers).2
  have hMiddle : middle = [[0], [1], [2]] := (List.append_inj' hTail rfl).1
  refine ⟨res, middle, hRes, hMiddle, hRows.within, fun layer hLayer =>
    ⟨?_, hRows.full layer hLayer⟩⟩
  exact hRows.placed layer (List.mem_append_left _ (List.mem_cons_of_mem _ hLayer))

-- ---------------------------------------------------------------------------
-- Skeletons
-- ---------------------------------------------------------------------------

/-- What the options and the numbers of inputs and outputs decide. -/
def publicOutcome (cfg : Config) (inputs outputs : Nat) : Except Fault (List (List NodeSkeleton)) :=
  if cfg.width = 0 then .error .valueError
  else .ok (publicSkeleton cfg cfg.depth cfg.width inputs outputs)

/-- The options leave enough room for the program. -/
structure Roomed (cfg : Config) (ord : Orders) (g : DFG) : Prop where
  depth_le : ∀ g' layers, Returns (fun fuel => rectangularize (ord.fork 0) fuel cfg g)
    (g', layers) →
    layers.length ≤ cfg.depth
  width_le : ∀ g' layers, Returns (fun fuel => propagated ord fuel cfg g) (g', layers) →
    widest (middleLayers layers) ≤ cfg.width

/-- The skeleton of the result, seen through what the pass may raise. -/
def skeletonOf (res : Except Fault (DFG × List (List Nat))) :
    Except Fault (List (List NodeSkeleton)) :=
  res.map fun st => st.1.skeleton st.2

theorem skeletonOf_universalizeRows {cfg : Config} (hCfg : cfg.Balanced) {g : DFG}
    (hg : g.Ready cfg) {ord : Orders} (hRoomed : Roomed cfg ord g) {rnd : Random}
    (hFair : rnd.Fair) :
    ∃ N, ∀ fuel ≥ N, skeletonOf (universalizeRows ord rnd fuel cfg g) =
      publicOutcome cfg g.progInputs.length g.progOutputs.dedup.length := by
  obtain ⟨g₁, layers, g₂, first, middle, last, g₃, middle', hRect, hProp, hSpread, hPadded, hShaped,
      -⟩ :=
    padded_returns hCfg hg ord hFair
  have hDepth := hRoomed.depth_le _ _ hRect
  have hWidth := hRoomed.width_le _ _ hProp
  rw [middleLayers_eq] at hWidth
  have hDepthEq : depthOf cfg layers.length = cfg.depth := by
    have := hSpread.depth_ne
    exact if_pos ⟨by omega, hDepth⟩
  have hWidthEq : widthOf cfg (widest middle) = cfg.width := by
    unfold widthOf
    split <;> omega
  rw [hDepthEq, hWidthEq] at hShaped
  unfold publicOutcome
  split
  · next hZero =>
    rw [hZero] at hShaped
    have hIdle := hSpread.width_eq_zero.mp (hWidthEq.trans hZero)
    have hDepthNe : cfg.depth ≠ 0 := by
      have := hSpread.depth_ne
      omega
    obtain ⟨N, hN⟩ := universalizeRows_raises hCfg hg.progInputs_ne hIdle.2.1 hDepthNe hPadded
      hShaped
    refine ⟨N, fun fuel hFuel => ?_⟩
    rw [hN fuel hFuel]
    rfl
  · next hNe =>
    obtain ⟨g', rows, ⟨N, hN⟩, -, hFinished⟩ :=
      universalizeRows_of_padded hCfg hg.progInputs_ne hNe hPadded hShaped
    refine ⟨N, fun fuel hFuel => ?_⟩
    have hRun : universalizeRows ord rnd fuel cfg g = .ok (g', rows) := hN fuel hFuel
    rw [hRun, ← hFinished.skeleton_eq]
    rfl

/-- **Universalization hides the data flow.** Programs with the same numbers of inputs
and of distinct outputs, for which the options leave enough room, end with the same
skeleton: a function of these numbers and the options. -/
theorem universalize_hides {cfg : Config} (hCfg : cfg.Balanced) {p q : DFG} (hp : p.Ready cfg)
    (hq : q.Ready cfg) (hInputs : p.progInputs.length = q.progInputs.length)
    (hOutputs : p.progOutputs.dedup.length = q.progOutputs.dedup.length) {ordP ordQ : Orders}
    (hRoomP : Roomed cfg ordP p) (hRoomQ : Roomed cfg ordQ q) {rndP rndQ : Random}
    (hFairP : rndP.Fair) (hFairQ : rndQ.Fair) :
    ∃ N, ∀ fuel ≥ N, ∀ fuel' ≥ N,
      skeletonOf (universalizeRows ordP rndP fuel cfg p) =
        skeletonOf (universalizeRows ordQ rndQ fuel' cfg q) ∧
      skeletonOf (universalizeRows ordP rndP fuel cfg p) =
        publicOutcome cfg p.progInputs.length p.progOutputs.dedup.length := by
  obtain ⟨N, hN⟩ := skeletonOf_universalizeRows hCfg hp hRoomP hFairP
  obtain ⟨M, hM⟩ := skeletonOf_universalizeRows hCfg hq hRoomQ hFairQ
  refine ⟨max N M, fun fuel hFuel fuel' hFuel' => ?_⟩
  have hLeft := hN fuel (le_trans (le_max_left N M) hFuel)
  have hRight := hM fuel' (le_trans (le_max_right N M) hFuel')
  rw [← hInputs, ← hOutputs] at hRight
  exact ⟨hLeft.trans hRight.symm, hLeft⟩

/-- Two nodes in each of two layers, with two inputs and outputs. -/
def squareConfig : Config := { pairConfig with width := 2, depth := 2 }

/-- `m1 = m0 + m0`, returning `m1`. -/
def doubleGraph : DFG where
  nodes := [0]
  mlmi := fun _ =>
    ⟨[{ opcode := .ADD, dst := 1, src1 := some (.loc 0), src2 := some (.loc 0) }], [0], [1]⟩
  fresh := 1
  backwardEdges := fun m => if m = 1 then some 0 else none
  forwardEdges := fun _ => []
  progInputs := [0]
  progOutputs := [1]
  memoryCount := 2

theorem doubleGraph_ready : doubleGraph.Ready squareConfig where
  good := by
    refine ⟨by decide, by decide, by decide, by decide, by decide, fun n _ => ?_, fun n _ m hm =>
      Or.inl ?_, fun m n => ?_, by decide, by decide, by decide, by decide,
        fun m hm => Or.inr ⟨0, by decide, hm⟩⟩
    · exact scheduled_cons.mpr ⟨show ∀ m ∈ [0, 0], m ∈ [0] by decide, Scheduled.nil _⟩
    · exact hm
    · by_cases hm : m = 1
      · simp [doubleGraph, MLMI.getDefs, defs, hm, eq_comm]
      · simp [doubleGraph, MLMI.getDefs, defs, hm]
  exact := by simp [DFG.Exact, DFG.Feeds, doubleGraph]
  acyclic := acyclic_of_lt (f := id) fun a b hEdge => absurd hEdge List.not_mem_nil
  within := fun _ _ => ⟨show 1 ≤ 2 by decide, show 1 ≤ 2 by decide, show 1 ≤ 2 by decide⟩
  progInputs_ne := List.cons_ne_nil _ _

theorem doubleGraph_roomed : Roomed squareConfig storedOrders doubleGraph where
  depth_le := by
    intro g' layers h
    obtain rfl : layers = [[0]] := layers_eq_of_returns 2 h fun _ => rfl
    decide
  width_le := by
    intro g' layers h
    obtain rfl : layers = [[2], [0], [1], [3]] := layers_eq_of_returns 2 h fun _ => rfl
    decide

theorem wireGraph_roomed : Roomed squareConfig storedOrders (wireGraph [0, 0]) where
  depth_le := by
    intro g' layers h
    obtain rfl : layers = [[]] := layers_eq_of_returns 2 h fun _ => rfl
    decide
  width_le := by
    intro g' layers h
    obtain rfl : layers = [[1], [2], [0], [3]] := layers_eq_of_returns 2 h fun _ => rfl
    decide

/-- The theorem at a program that doubles its input and at one that returns it
twice. -/
theorem universalize_hides_double : ∃ N, ∀ fuel ≥ N,
    skeletonOf (universalizeRows storedOrders .cycle fuel squareConfig doubleGraph) =
      skeletonOf (universalizeRows storedOrders .cycle fuel squareConfig (wireGraph [0, 0])) := by
  have hBalanced : squareConfig.Balanced := ⟨⟨1, by decide, rfl⟩, rfl, by decide⟩
  have hWire : (wireGraph [0, 0]).Ready squareConfig :=
    let h := wireGraph_ready (by decide : ∀ m ∈ [0, 0], m = 0)
    ⟨h.good, h.exact, h.acyclic, nofun, h.progInputs_ne⟩
  obtain ⟨N, hN⟩ := universalize_hides hBalanced doubleGraph_ready hWire rfl rfl doubleGraph_roomed
    wireGraph_roomed Random.cycle_fair Random.cycle_fair
  exact ⟨N, fun fuel hFuel => (hN fuel hFuel fuel hFuel).1⟩

end Obscure
