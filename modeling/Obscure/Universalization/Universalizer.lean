import Obscure.Universalization.Rectangularize
import Obscure.Routing.BDB

/-!
# OBSCURE — universalization

`compiler/src/universalization/universalizer.py`: after rectangularization, an
initial layer hides where the inputs go, program outputs travel to a final layer
of their own, all layers between the two get the same width and all their nodes
the same numbers of inputs and outputs, and a routing network takes the place of
the edges between any two layers.

`universalizeRows` also returns the rows the final graph is made of: the layers,
with the rows of routing nodes between them. The source forgets them.
-/

namespace Obscure

open Lib Routing

/-- The rounds of `while len(x) != l`, each of which makes `x` longer by one. -/
def roundsUntil (len l : Nat) : Except Fault (List Nat) :=
  if len ≤ l then .ok (List.range (l - len)) else .error .diverges

/-- Copies made in a layer: `copies` maps an operand to its copy. -/
structure Copying where
  dfg : DFG
  layer : List Nat
  copies : List (Nat × Nat)

-- ---------------------------------------------------------------------------
-- Depth
-- ---------------------------------------------------------------------------

/-- The number of layers after `add_depth_padding`. -/
def depthOf (cfg : Config) (depth : Nat) : Nat :=
  if cfg.depth ≠ 0 ∧ depth ≤ cfg.depth then cfg.depth else depth

/-- `add_depth_padding`. -/
def addDepthPadding (cfg : Config) (g : DFG) (layers : List (List Nat)) : DFG × List (List Nat) :=
  (List.range (depthOf cfg layers.length - layers.length)).foldl
    (fun st _ => (st.1.newNode, st.2 ++ [[st.1.fresh]])) (g, layers)

-- ---------------------------------------------------------------------------
-- Inputs
-- ---------------------------------------------------------------------------

/-- One round of the loops that create the initial layer: a node takes inputs as
long as it has room, then the next one is created. -/
def maskInput (cfg : Config) (st : Copying) (m : Nat) : Copying :=
  let (node, g, layer) := st.dfg.place st.layer (st.layer.getLast?.filter fun n =>
    (st.dfg.mlmi n).inputs.length < cfg.lIn && (st.dfg.mlmi n).outputs.length < cfg.lOut)
  ⟨(g.takeInput node m).giveOut node (.loc m), layer, (m, g.memoryCount) :: st.copies⟩

/-- `MOV out, 0` for a new output, once a round. -/
def DFG.returnZeros (g : DFG) (node : Nat) (rounds : List Nat) : DFG :=
  rounds.foldl (fun g _ => g.giveOut node (.imm 0)) g

/-- A node of the old graph reads the copies of the program inputs. -/
def maskNode (oldToNew : List (Nat × Nat)) (g : DFG) (node : Nat) : Except Fault DFG := do
  let g ← (g.mlmi node).inputs.foldlM (fun g m =>
    match oldToNew.lookup m with
    | none => .ok g
    | some newInput => do
      let d ← g.defNode newInput
      return g.addEdge d node) g
  return g.renameIn node (getOrSelf oldToNew)

/-- `add_input_masking_layer`. The nodes of the initial layer join `dfg.nodes` at
once here; the loop over `dfg.nodes` runs over the nodes from before. Without
room for anything the first loop would create nodes forever. -/
def addInputMaskingLayer (ord : Orders) (cfg : Config) (g : DFG) (layers : List (List Nat)) :
    Except Fault (DFG × List (List Nat)) := do
  if min cfg.lIn cfg.lOut = 0 ∧ g.progInputs ≠ [] then .error .diverges
  else
    let st := (ord.list g.progInputs).foldl (maskInput cfg) ⟨g, [], []⟩
    match st.layer with
    | [] => .error .indexError
    | first :: _ =>
      let rounds ← roundsUntil (st.dfg.mlmi first).outputs.length cfg.lOut
      let g' := (st.dfg.returnZeros first rounds).renameOutputs st.copies
      let g' ← ((ord.fork 1).list g.nodes).foldlM (maskNode st.copies) g'
      return (g', st.layer :: layers)

-- ---------------------------------------------------------------------------
-- Outputs
-- ---------------------------------------------------------------------------

/-- `add_input_output_to_node`; the copy is the next cell of `g`. -/
def DFG.addInputOutputToNode (g : DFG) (m node : Nat) : Except Fault DFG := do
  let g' := (g.takeInput node m).giveOut node (.loc m)
  let d ← g'.defNode m
  return g'.addEdge d node

/-- One output is copied in a layer, in the node that `pick` finds or in a new
one. -/
def carryOutput (pick : DFG → List Nat → Option Nat) (st : Copying) (m : Nat) :
    Except Fault Copying := do
  let (node, g, layer) := st.dfg.place st.layer (pick st.dfg st.layer)
  let g' ← g.addInputOutputToNode m node
  return ⟨g', layer, (m, g.memoryCount) :: st.copies⟩

/-- The outputs of a layer that the program returns. -/
def DFG.returnedBy (g : DFG) (layer : List Nat) : List Nat :=
  ((layer.flatMap fun n => (g.mlmi n).outputs).filter fun m => m ∈ g.progOutputs).dedup

/-- One layer of `propagate_outputs_to_last_layer`: the graph, the layers done and
`to_take_as_inputs`. -/
def propagateLayer (ord : Orders) (cfg : Config) (st : DFG × List (List Nat) × List Nat)
    (layer : List Nat × Nat) : Except Fault (DFG × List (List Nat) × List Nat) := do
  let copying ← ((ord.fork layer.2).list st.2.2).foldlM
    (carryOutput fun g layer => layer.find? (g.hasRoom cfg)) ⟨st.1, layer.1, []⟩
  let g := copying.dfg.renameOutputs copying.copies
  return (g, st.2.1 ++ [copying.layer], g.returnedBy copying.layer)

/-- `propagate_outputs_to_last_layer`. -/
def propagateOutputsToLastLayer (ord : Orders) (cfg : Config) (g : DFG) (layers : List (List Nat)) :
    Except Fault (DFG × List (List Nat)) := do
  let (g, layers, toTake) ← layers.zipIdx.foldlM (propagateLayer ord cfg) (g, [], [])
  if min (min cfg.lIn cfg.lOut) cfg.s = 0 ∧ toTake ≠ [] then .error .diverges
  else
    let final ← ((ord.fork layers.length).list toTake).foldlM
      (carryOutput fun g layer => layer.getLast?.filter (g.hasRoom cfg)) ⟨g, [], []⟩
    return (final.dfg.renameOutputs final.copies, layers ++ [final.layer])

-- ---------------------------------------------------------------------------
-- Width
-- ---------------------------------------------------------------------------

/-- The layers between the first and the last. -/
def middleLayers (layers : List (List Nat)) : List (List Nat) := layers.tail.dropLast

/-- The length of the longest list. -/
def widest (layers : List (List Nat)) : Nat := (layers.map List.length).foldl max 0

/-- The width that `equalize_layers` gives to the layers. -/
def widthOf (cfg : Config) (width : Nat) : Nat :=
  if cfg.width ≠ 0 ∧ width ≤ cfg.width then cfg.width else width

/-- Empty nodes until the layer has `width` nodes. -/
def widenLayer (width : Nat) (st : DFG × List (List Nat)) (layer : List Nat) :
    DFG × List (List Nat) :=
  let (g, layer) := (List.range (width - layer.length)).foldl
    (fun st _ => (st.1.newNode, st.2 ++ [st.1.fresh])) (st.1, layer)
  (g, st.2 ++ [layer])

/-- `equalize_layers`. -/
def equalizeLayers (cfg : Config) (g : DFG) (layers : List (List Nat)) : DFG × List (List Nat) :=
  let middle := middleLayers layers
  let (g, middle) := middle.foldl (widenLayer (widthOf cfg (widest middle))) (g, [])
  (g, layers.take 1 ++ middle ++ layers.drop (1 + middle.length))

-- ---------------------------------------------------------------------------
-- Arity
-- ---------------------------------------------------------------------------

/-- The two lines that choose an input: ask again until the answer is new. -/
def drawInput (rnd : Random) (fuel : Nat) (prev inputs : List Nat) : Except Fault Nat :=
  if prev = [] then .error .indexError
  else
    loop .diverges (fun t (_ : Unit) =>
      if rnd.draw t prev ∈ inputs then .ok (.inl ()) else .ok (.inr (rnd.draw t prev))) fuel 0 ()

/-- One more input, from the outputs of the previous layer. -/
def padInput (rnd : Random) (fuel : Nat) (prev : List Nat) (node : Nat) (g : DFG) (i : Nat) :
    Except Fault DFG := do
  let newInput ← drawInput (rnd.fork i) fuel prev (g.mlmi node).inputs
  let g := g.takeInput node newInput
  let d ← g.defNode newInput
  return g.addEdge d node

/-- `Add inputs`, for one node. -/
def padInputs (rnd : Random) (fuel : Nat) (cfg : Config) (prev : List Nat) (g : DFG) (node : Nat) :
    Except Fault DFG := do
  let rounds ← roundsUntil (g.mlmi node).inputs.length cfg.lIn
  rounds.foldlM (padInput (rnd.fork node) fuel prev node) g

/-- `Add outputs`, for one node: variables that are not returned yet as long as
there are any, then zeros. -/
def padOutputs (ord : Orders) (cfg : Config) (g : DFG) (node : Nat) : Except Fault DFG := do
  let rounds ← roundsUntil (g.mlmi node).outputs.length cfg.lOut
  let possibleReturns := ((g.mlmi node).getDefs.filter fun m => m ∉ (g.mlmi node).outputs).dedup
  let returned := ((ord.fork node).list possibleReturns).take rounds.length
  return (returned.foldl (fun g m => g.expose node m) g).returnZeros node
    (rounds.drop returned.length)

/-- The set of outputs of a layer. -/
def DFG.layerOutputs (g : DFG) (layer : List Nat) : List Nat :=
  (layer.flatMap fun n => (g.mlmi n).outputs).dedup

/-- One layer of `match_layers_inputs_outputs`: the graph and
`prev_layer_outputs`. -/
def matchLayer (ord : Orders) (rnd : Random) (fuel : Nat) (cfg : Config) (st : DFG × List Nat)
    (layer : List Nat × Nat) : Except Fault (DFG × List Nat) := do
  let g ← layer.1.foldlM (padInputs rnd fuel cfg st.2) st.1
  let g ← layer.1.foldlM (padOutputs (ord.fork 0) cfg) g
  return (g, ((ord.fork 1).fork layer.2).list (g.layerOutputs layer.1))

/-- `match_layers_inputs_outputs`. -/
def matchLayersInputsOutputs (ord : Orders) (rnd : Random) (fuel : Nat) (cfg : Config) (g : DFG)
    (layers : List (List Nat)) : Except Fault DFG := do
  let prev := (ord.fork 0).list (g.layerOutputs (layers.headD []))
  let st ← ((middleLayers layers).zipIdx 1).foldlM
    (matchLayer (ord.fork 1) rnd fuel cfg) (g, prev)
  return st.1

-- ---------------------------------------------------------------------------
-- Routing
-- ---------------------------------------------------------------------------

/-- `perm_layer_size`. The logarithm is exact here; `math.log2(0)` raises. -/
def permLayerSize (n : Nat) : Except Fault Nat :=
  if n = 0 then .error .valueError
  else if 2 ^ Nat.log 2 n = n then .ok n
  else .ok (2 ^ (1 + Nat.log 2 n))

/-- `perm_outputs` without its padding: the positions of the operands. In the
dictionary a later position replaces an earlier one. -/
def targetsOf (inputs outputs : List Nat) : Except Fault (List Nat) :=
  outputs.mapM fun m =>
    match inputs.zipIdx.reverse.lookup m with
    | some i => .ok i
    | none => .error .keyError

/-- The wires between two layers: what they carry, the check that runs along, and
the nodes of the current row. -/
structure Wires where
  dfg : DFG
  inputs : List (Operand Nat)
  inputsChecker : List Nat
  row : List Nat

/-- Write `new` over the list, from position `off` on. -/
def overwrite {α : Type} (xs : List α) (off : Nat) (new : List α) : List α :=
  xs.take off ++ (new ++ xs.drop (off + new.length))

/-- The edges to a routing node: program inputs and constants have none. -/
def DFG.addEdgesTo (g : DFG) (node : Nat) : DFG :=
  (g.mlmi node).inputs.foldl (fun g m =>
    match g.backwardEdges m with
    | some d => g.addEdge d node
    | none => g) g

/-- `apply_secret_perm`. -/
def applySecretPerm (st : Wires) (window : Nat × Shuffle) : Except Fault Wires := do
  let p := window.2.entries
  let srcs ← gather (p.map (window.1 + ·)) st.inputs
  let checked ← gather (p.map (window.1 + ·)) st.inputsChecker
  let node := st.dfg.fresh
  let g := st.dfg.newNode.edit node fun x =>
    { x with inputs := ((st.inputs.drop window.1).take p.length).filterMap Operand.loc? }
  let outs := (List.range p.length).map fun i => Operand.loc (g.memoryCount + i)
  let g := srcs.foldl (fun g src => g.giveOut node src) g
  return {
    dfg := g.addEdgesTo node
    inputs := overwrite st.inputs window.1 outs
    inputsChecker := overwrite st.inputsChecker window.1 checked
    row := st.row ++ [node] }

/-- One row of the routing program, with the rows of nodes so far. -/
def routeRow (st : Wires × List (List Nat)) : Row → Except Fault (Wires × List (List Nat))
  | .publicShuffle p => do
    let inputs ← gather p.entries st.1.inputs
    let checker ← gather p.entries st.1.inputsChecker
    return ({ st.1 with inputs := inputs, inputsChecker := checker }, st.2)
  | .secretShuffles windows => do
    let wires ← windows.foldlM applySecretPerm { st.1 with row := [] }
    return (wires, st.2 ++ [wires.row])

/-- The operand on a wire; a constant has no node that defines it. -/
def wireAt (inputs : List (Operand Nat)) (i : Nat) : Except Fault Nat :=
  match inputs[i]? with
  | some (.loc m) => .ok m
  | some (.imm _) => .error .keyError
  | none => .error .indexError

/-- A node of the next layer takes its inputs from the wires. Inputs are replaced
one by one, sources through the dictionary, in which the last of several equal
inputs wins. -/
def connectNode (inputs : List (Operand Nat)) (st : DFG × Nat) (node : Nat) :
    Except Fault (DFG × Nat) := do
  let (g, off) := st
  let old := (g.mlmi node).inputs
  let new ← (List.range old.length).mapM fun i => wireAt inputs (off + i)
  let g ← new.foldlM (fun g m => do
    let d ← g.defNode m
    return g.addEdge d node) g
  let oldToNew := (old.zip new).reverse
  let g := g.edit node fun x =>
    { x with inputs := new, seq := x.seq.map (Instr.rename (getOrSelf oldToNew) id) }
  return (g, off + new.length)

/-- One round of `add_permutation`: the network between two layers. -/
def routeLayers (ord : Orders) (cfg : Config) (g : DFG) (before after : List Nat) :
    Except Fault (DFG × List (List Nat)) := do
  let inputs := before.flatMap fun n => (g.mlmi n).outputs
  let outputs := after.flatMap fun n => (g.mlmi n).inputs
  let g := before.foldl (fun g n =>
    { g with forwardEdges := Function.update g.forwardEdges n [] }) g
  let size ← permLayerSize (max inputs.length outputs.length)
  let targets ← targetsOf inputs outputs
  let permOutputs := targets ++ List.replicate (size - targets.length) 0
  let wires := inputs.map Operand.loc ++ List.replicate (size - inputs.length) (.imm 0)
  let program ← bdbFuncMI ord permOutputs (Nat.log 2 cfg.lIn)
  let (st, rows) ← (optimize program).foldlM routeRow
    (⟨g, wires, List.range wires.length, []⟩, [])
  if permOutputs ≠ st.inputsChecker then .error .runtimeError
  else
    let (g, _) ← after.foldlM (connectNode st.inputs) (st.dfg, 0)
    return (g, rows)

/-- One round with the layer it leads to: the graph, the rows so far and the last
layer. -/
def routeStep (ord : Orders) (cfg : Config) (st : DFG × List (List Nat) × List Nat)
    (after : List Nat × Nat) : Except Fault (DFG × List (List Nat) × List Nat) := do
  let (g, rows) ← routeLayers (ord.fork after.2) cfg st.1 st.2.2 after.1
  return (g, st.2.1 ++ rows ++ [after.1], after.1)

/-- `add_permutation`: the graph and all its rows. -/
def addPermutation (ord : Orders) (cfg : Config) (g : DFG) (layers : List (List Nat)) :
    Except Fault (DFG × List (List Nat)) := do
  match layers with
  | [] => return (g, [])
  | first :: rest =>
    let st ← rest.zipIdx.foldlM (routeStep ord cfg) (g, [first], first)
    return (st.1, st.2.1)

-- ---------------------------------------------------------------------------
-- The pass
-- ---------------------------------------------------------------------------

/-- `check_dfg_integrity`. Outgoing edges are looked at once for every input that
is not a program input. -/
def DFG.checkDfgIntegrity (g : DFG) : Except Fault Unit :=
  if g.nodes.all fun node => (g.mlmi node).inputs.all fun m =>
      m ∈ g.progInputs ||
        (match g.backwardEdges m with
          | none => false
          | some d => node ∈ g.forwardEdges d) &&
        (g.forwardEdges node).all fun next =>
          (g.mlmi node).outputs.any fun o => o ∈ (g.mlmi next).inputs
  then .ok ()
  else .error .systemExit

/-- The assertion at the start. Its second half, `2**math.log2(l_in) == l_in`, holds
of every positive number up to the rounding of floats. -/
def checkSizes (cfg : Config) : Except Fault Unit :=
  if cfg.lIn ≠ cfg.lOut then .error .assertionError
  else if cfg.lIn = 0 then .error .valueError
  else .ok ()

/-- The passes up to `propagate_outputs_to_last_layer`. -/
def propagated (ord : Orders) (fuel : Nat) (cfg : Config) (g : DFG) :
    Except Fault (DFG × List (List Nat)) := do
  checkSizes cfg
  let (g, layers) ← rectangularize (ord.fork 0) fuel cfg g
  let (g, layers) := addDepthPadding cfg g layers
  let (g, layers) ← addInputMaskingLayer (ord.fork 1) cfg g layers
  propagateOutputsToLastLayer (ord.fork 2) cfg g layers

/-- The passes up to `match_layers_inputs_outputs`. -/
def padded (ord : Orders) (rnd : Random) (fuel : Nat) (cfg : Config) (g : DFG) :
    Except Fault (DFG × List (List Nat)) := do
  let (g, layers) ← propagated ord fuel cfg g
  let (g, layers) := equalizeLayers cfg g layers
  let g ← matchLayersInputsOutputs (ord.fork 3) rnd fuel cfg g layers
  return (g, layers)

/-- `universalize`, with the rows of the result. -/
def universalizeRows (ord : Orders) (rnd : Random) (fuel : Nat) (cfg : Config) (g : DFG) :
    Except Fault (DFG × List (List Nat)) := do
  let (g, layers) ← padded ord rnd fuel cfg g
  let (g, rows) ← addPermutation (ord.fork 4) cfg g layers
  g.checkDfgIntegrity
  return (g, rows)

/-- `universalize`. -/
def universalize (ord : Orders) (rnd : Random) (fuel : Nat) (cfg : Config) (g : DFG) :
    Except Fault DFG := do
  let (g, _) ← universalizeRows ord rnd fuel cfg g
  return g

end Obscure
