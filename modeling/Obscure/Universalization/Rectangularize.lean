import Obscure.Universalization.Editing

/-!
# OBSCURE — rectangularization

`compiler/src/universalization/rectangularize.py`: nodes are put in layers, each
one layer below the last of its predecessors; then every edge that skips a layer
is broken by a copy in the layer above its end, from the last layer to the first.
-/

namespace Obscure

open Lib

-- ---------------------------------------------------------------------------
-- Layers
-- ---------------------------------------------------------------------------

/-- The layer of a node whose predecessors all have one. -/
def DFG.layerOf (g : DFG) (nodeLayers : List (Nat × Nat)) (node : Nat) : Option Nat :=
  (g.prevNodes node).foldlM (fun layer prev => (nodeLayers.lookup prev).map fun k =>
    max layer (k + 1)) 0

/-- One `for` loop over the nodes to visit: `node_layers` with `last_layer`. A
node can be placed by a loop that has just placed its predecessor. -/
def DFG.layerPass (g : DFG) (st : List (Nat × Nat) × Nat) (node : Nat) : List (Nat × Nat) × Nat :=
  match g.layerOf st.1 node with
  | none => st
  | some layer => (st.1 ++ [(node, layer)], max st.2 layer)

/-- One round of `layerize`: the nodes to visit, `node_layers`, `last_layer`. -/
def DFG.layerStep (ord : Orders) (g : DFG) (i : Nat) (st : List Nat × List (Nat × Nat) × Nat) :
    Except Fault ((List Nat × List (Nat × Nat) × Nat) ⊕ (List (Nat × Nat) × Nat)) :=
  if st.1 = [] then .ok (.inr st.2)
  else
    let st' := ((ord.fork i).list st.1).foldl g.layerPass st.2
    .ok (.inl (st.1.filter fun n => (st'.1.lookup n).isNone, st'))

/-- `layerize`. -/
def layerize (ord : Orders) (fuel : Nat) (g : DFG) :
    Except Fault (List (Nat × Nat) × List (List Nat)) := do
  let (nodeLayers, lastLayer) ← loop .diverges (g.layerStep ord) fuel 0 (g.nodes, [], 0)
  return (nodeLayers, (List.range (lastLayer + 1)).map fun k =>
    (nodeLayers.filter fun e => e.2 = k).map Prod.fst)

-- ---------------------------------------------------------------------------
-- Edges that skip a layer
-- ---------------------------------------------------------------------------

/-- The local state of `segregate_layers`. `alternativeDefs m layer` is the copy
of `m` in that layer. -/
structure SegState where
  dfg : DFG
  nodeLayers : List (Nat × Nat)
  layers : List (List Nat)
  alternativeDefs : Nat → Nat → Option Nat

/-- The search of `break_edge`: a node with room that reads `m` already ends it,
otherwise the last one that can take `m` as a new input. -/
def candidate (cfg : Config) (g : DFG) (m : Nat) : List Nat → Option Nat → Option Nat
  | [], found => found
  | n :: rest, found =>
    if (g.mlmi n).outputs.length < cfg.lOut ∧ (g.mlmi n).seq.length < cfg.s then
      if m ∈ (g.mlmi n).inputs then some n
      else if (g.mlmi n).inputs.length < cfg.lIn then candidate cfg g m rest (some n)
      else candidate cfg g m rest found
    else candidate cfg g m rest found

/-- The renaming of `replace_input`. -/
def replaceInput (oldM newM m : Nat) : Nat := if m = oldM then newM else m

/-- `remove_forward_edge_if_needed`. -/
def DFG.removeForwardEdgeIfNeeded (g : DFG) (defNode dstNode : Nat) : DFG :=
  if (g.mlmi dstNode).inputs.any fun m => m ∈ (g.mlmi defNode).outputs then g
  else
    let users := (g.forwardEdges defNode).filter fun n => n ≠ dstNode
    { g with forwardEdges := Function.update g.forwardEdges defNode users }

/-- `make_alternative`, in the graph; the copy is the next cell of `g`. -/
def DFG.makeAlternative (g : DFG) (oldM node : Nat) : Except Fault DFG :=
  if oldM ∈ (g.mlmi node).inputs then .ok (g.giveOutFirst node (.loc oldM))
  else do
    let g' := (g.giveOutFirst node (.loc oldM)).takeInput node oldM
    if oldM ∈ g'.progInputs then return g'
    else
      let oldMDef ← g'.defNode oldM
      return g'.addEdge oldMDef node

/-- `break_edge`. No `defNode` stands for `None`: the operand is a program
input. -/
def breakEdge (cfg : Config) (defNode : Option Nat) (dstNode midLayer m : Nat) (st : SegState) :
    Except Fault SegState :=
  match st.alternativeDefs m midLayer with
  | some altM => do
    let altMDef ← st.dfg.defNode altM
    let g := (st.dfg.addEdge altMDef dstNode).renameIn dstNode (replaceInput m altM)
    return { st with dfg := match defNode with
      | none => g
      | some d => g.removeForwardEdgeIfNeeded d dstNode }
  | none => do
    let found := candidate cfg st.dfg m (st.layers.getD midLayer []) none
    let (node, g, midNodes) := st.dfg.place (st.layers.getD midLayer []) found
    let altM := g.memoryCount
    let g ← g.makeAlternative m node
    let g := (g.renameIn dstNode (replaceInput m altM)).addEdge node dstNode
    return {
      dfg := match defNode with
        | none => g
        | some d => (g.removeForwardEdgeIfNeeded d dstNode).addEdge d node
      nodeLayers := if found.isNone then (node, midLayer) :: st.nodeLayers else st.nodeLayers
      layers := st.layers.set midLayer midNodes
      alternativeDefs := fun x layer =>
        if x = m ∧ layer = midLayer then some altM else st.alternativeDefs x layer }

/-- One input of a node of layer `idx`. -/
def segregateInput (cfg : Config) (idx node : Nat) (st : SegState) (m : Nat) :
    Except Fault SegState :=
  if m ∈ st.dfg.progInputs then breakEdge cfg none node (idx - 1) m st
  else do
    let defPoint ← st.dfg.defNode m
    match st.nodeLayers.lookup defPoint with
    | none => .error .keyError
    | some layer =>
      if layer = idx - 1 then return st else breakEdge cfg (some defPoint) node (idx - 1) m st

/-- One node of layer `idx`. The loop runs over the list that `inputs` is when it
starts. -/
def segregateNode (cfg : Config) (idx : Nat) (st : SegState) (node : Nat) : Except Fault SegState :=
  (st.dfg.mlmi node).inputs.foldlM (segregateInput cfg idx node) st

/-- One layer; there is nothing to do in the first. -/
def segregateLayer (cfg : Config) (st : SegState) (idx : Nat) : Except Fault SegState :=
  if idx = 0 then .ok st else (st.layers.getD idx []).foldlM (segregateNode cfg idx) st

/-- `segregate_layers`. -/
def segregateLayers (cfg : Config) (st : SegState) : Except Fault SegState :=
  (List.range st.layers.length).reverse.foldlM (segregateLayer cfg) st

/-- `rectangularize`: the graph and its layers. -/
def rectangularize (ord : Orders) (fuel : Nat) (cfg : Config) (g : DFG) :
    Except Fault (DFG × List (List Nat)) := do
  let (nodeLayers, layers) ← layerize ord fuel g
  let st ← segregateLayers cfg ⟨g, nodeLayers, layers, fun _ _ => none⟩
  return (st.dfg, st.layers)

end Obscure
