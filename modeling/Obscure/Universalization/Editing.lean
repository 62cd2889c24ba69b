import Obscure.Config
import Obscure.DFG
import Obscure.Lib.Random

/-!
# OBSCURE — editing the data-flow graph

The steps that the passes of `compiler/src/universalization` are made of: a new
empty node, a new cell given out by a node, an operand taken as input, sources
replaced in a node, an edge. A pass gets the number of a new node or cell from
the graph before the step (`fresh`, `memoryCount`).
-/

namespace Obscure

open Lib

/-- `HLI(Opcode.MOV, dst, src)`. -/
def mov (dst : Nat) (src : Operand Nat) : HLI where
  opcode := .MOV
  dst := dst
  src1 := some src

/-- `d.get(m, m)`, the newest binding first. -/
def getOrSelf (d : List (Nat × Nat)) (m : Nat) : Nat := (d.lookup m).getD m

/-- Replace sources: in the inputs and in the operands of every instruction. -/
def MLMI.renameSources (f : Nat → Nat) (mlmi : MLMI) : MLMI where
  seq := mlmi.seq.map (Instr.rename f id)
  inputs := mlmi.inputs.map f
  outputs := mlmi.outputs

namespace DFG

/-- Change the object of a node. -/
def edit (g : DFG) (n : Nat) (f : MLMI → MLMI) : DFG :=
  { g with mlmi := Function.update g.mlmi n (f (g.mlmi n)) }

/-- `node = MLMI(MLS([]), [], [])` and `dfg.nodes.add(node)`. -/
def newNode (g : DFG) : DFG :=
  { g with
    nodes := g.nodes.insert g.fresh
    mlmi := Function.update g.mlmi g.fresh ⟨[], [], []⟩
    fresh := g.fresh + 1 }

/-- `node.inputs.append(m)`. -/
def takeInput (g : DFG) (n m : Nat) : DFG :=
  g.edit n fun x => { x with inputs := x.inputs ++ [m] }

/-- A new cell, given out by `n` and set to `src` by a last instruction. -/
def giveOut (g : DFG) (n : Nat) (src : Operand Nat) : DFG :=
  { g.edit n fun x =>
      { x with seq := x.seq ++ [mov g.memoryCount src], outputs :=
        x.outputs ++ [g.memoryCount] } with
    memoryCount := g.memoryCount + 1
    backwardEdges := Function.update g.backwardEdges g.memoryCount (some n) }

/-- A new cell, given out by `n` and set to `src` by a first instruction. -/
def giveOutFirst (g : DFG) (n : Nat) (src : Operand Nat) : DFG :=
  { g.edit n fun x =>
      { x with seq := mov g.memoryCount src :: x.seq, outputs := x.outputs ++ [g.memoryCount] } with
    memoryCount := g.memoryCount + 1
    backwardEdges := Function.update g.backwardEdges g.memoryCount (some n) }

/-- A cell of `n` becomes an output. -/
def expose (g : DFG) (n m : Nat) : DFG :=
  { g.edit n fun x => { x with outputs := x.outputs ++ [m] } with
    backwardEdges := Function.update g.backwardEdges m (some n) }

/-- Replace sources in a node. -/
def renameIn (g : DFG) (n : Nat) (f : Nat → Nat) : DFG := g.edit n (MLMI.renameSources f)

/-- `dfg.prog_outputs = [ d.get(m, m) for m in dfg.prog_outputs ]`. -/
def renameOutputs (g : DFG) (d : List (Nat × Nat)) : DFG :=
  { g with progOutputs := g.progOutputs.map (getOrSelf d) }

/-- `dfg.forward_edges[d].add(n)`. -/
def addEdge (g : DFG) (d n : Nat) : DFG :=
  { g with forwardEdges := Function.update g.forwardEdges d ((g.forwardEdges d).insert n) }

/-- `dfg.backward_edges[m]`. -/
def defNode (g : DFG) (m : Nat) : Except Fault Nat :=
  match g.backwardEdges m with
  | some d => .ok d
  | none => .error .keyError

/-- `len(mlmi.inputs) < l_in and len(mlmi.outputs) < l_out and len(seq) < s`. -/
def hasRoom (cfg : Config) (g : DFG) (n : Nat) : Bool :=
  (g.mlmi n).inputs.length < cfg.lIn && (g.mlmi n).outputs.length < cfg.lOut &&
    (g.mlmi n).seq.length < cfg.s

/-- Use the node that was picked, or put a new one at the end of the layer. -/
def place (g : DFG) (layer : List Nat) : Option Nat → Nat × DFG × List Nat
  | some n => (n, g, layer)
  | none => (g.fresh, g.newNode, layer ++ [g.fresh])

end DFG

end Obscure
