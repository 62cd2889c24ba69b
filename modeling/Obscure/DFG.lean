import Obscure.Lowering.RegAlloc
import Obscure.Lib.Loop

/-!
# OBSCURE — the data-flow graph

The graph of `compiler/src/DFG.py`. A node is an `MLMI` object; Python compares
and hashes these objects by identity, so a node is a number here and `mlmi` says
what the object holds. `backward_edges` is a dictionary from an operand to the
node that defines it, `forward_edges` a `defaultdict` from a node to the set of
nodes that use its outputs: looking up a node that is not there, or that was
deleted, gives the empty set.

Sets are duplicate-free lists. Whenever Python turns a set into a list, pops
from it or stops in the middle of it, the order is taken from an `Orders`; each
such moment of a run has its own, since every part of a computation is handed a
`fork` of the orders of the whole.

Exceptions are `Except` values. Loops that the source does not bound get fuel,
and `Fault.diverges` is what they end in without it.
-/

namespace Obscure

open Lib

/-- What can go wrong in a pass. -/
inductive Fault where
  | keyError
  | indexError
  | valueError
  | assertionError
  | runtimeError
  | systemExit
  | allocator (e : AllocError)
  | diverges
deriving DecidableEq, Repr

/-- The iteration orders of a run: of sets of operands, registers or nodes, and
of sets of instructions. -/
structure Orders where
  nats : SetOrder Nat
  hlis : SetOrder HLI

/-- The orders seen by part `k` of a computation. -/
def Orders.fork (ord : Orders) (k : Nat) : Orders where
  nats := ord.nats.fork k
  hlis := ord.hlis.fork k

/-- The orders as stored. -/
def storedOrders : Orders := ⟨.stored Nat, .stored HLI⟩

/-- `list(s)`. -/
def Orders.list (ord : Orders) (s : List Nat) : List Nat := ord.nats.enum 0 s

theorem Orders.perm_list (ord : Orders) (s : List Nat) : (ord.list s).Perm s :=
  ord.nats.perm 0 s

theorem Orders.mem_list (ord : Orders) {s : List Nat} {x : Nat} : x ∈ ord.list s ↔ x ∈ s :=
  ord.nats.mem_enum

theorem Orders.length_list (ord : Orders) (s : List Nat) : (ord.list s).length = s.length :=
  (ord.perm_list s).length_eq

/-- Mid-level program. -/
structure MLIRProgram where
  instrs : List MLMI
  inputs : List Nat
  outputs : List Nat
  memoryCount : Nat

/-- `MLMI.FromHLI`. -/
def MLMI.fromHLI (hli : HLI) : MLMI where
  seq := [hli]
  inputs := hli.memInputs
  outputs := [hli.dst]

/-- `get_defs`. -/
def MLMI.getDefs (mlmi : MLMI) : List Nat := defs mlmi.seq

/-- `get_used`. -/
def MLMI.getUsed (mlmi : MLMI) : List Nat := Obscure.getUsed mlmi.seq

structure DFG where
  nodes : List Nat
  /-- The objects; those with a number from `fresh` on do not exist yet. -/
  mlmi : Nat → MLMI
  fresh : Nat
  backwardEdges : Nat → Option Nat
  forwardEdges : Nat → List Nat
  progInputs : List Nat
  progOutputs : List Nat
  memoryCount : Nat

namespace DFG

/-! ## Construction -/

/-- The dictionary comprehension of `build_graph`: a later definition replaces
an earlier one. -/
def collectDefs : Nat → List MLMI → (Nat → Option Nat) → Nat → Option Nat
  | _, [], bwd => bwd
  | k, mlmi :: rest, bwd =>
    collectDefs (k + 1) rest fun m => if m ∈ mlmi.getDefs then some k else bwd m

/-- For each of the operands that is not a program input, edit the users of the
node that defines it. -/
def editUsers (progInputs : List Nat) (bwd : Nat → Option Nat) (edit : List Nat → List Nat) :
    List Nat → (Nat → List Nat) → Except Fault (Nat → List Nat)
  | [], fwd => .ok fwd
  | src :: srcs, fwd =>
    if src ∈ progInputs then editUsers progInputs bwd edit srcs fwd
    else
      match bwd src with
      | none => .error .keyError
      | some d => editUsers progInputs bwd edit srcs (Function.update fwd d (edit (fwd d)))

/-- The loop of `build_graph` that computes the forward edges. -/
def collectUses (progInputs : List Nat) (bwd : Nat → Option Nat) :
    Nat → List MLMI → (Nat → List Nat) → Except Fault (Nat → List Nat)
  | _, [], fwd => .ok fwd
  | k, mlmi :: rest, fwd => do
    let fwd ← editUsers progInputs bwd (fun users => users.insert k) mlmi.getUsed fwd
    collectUses progInputs bwd (k + 1) rest fwd

/-- `build_graph`. The nodes are the values of `backward_edges`, so an
instruction all of whose definitions are replaced is none. -/
def buildGraph (mlir : MLIRProgram) : Except Fault DFG := do
  let bwd := collectDefs 0 mlir.instrs fun _ => none
  let fwd ← collectUses mlir.inputs bwd 0 mlir.instrs fun _ => []
  return {
    nodes := (List.range mlir.instrs.length).filter fun k =>
      (mlir.instrs.flatMap MLMI.getDefs).any fun m => bwd m = some k
    mlmi := fun k => mlir.instrs.getD k ⟨[], [], []⟩
    fresh := mlir.instrs.length
    backwardEdges := bwd
    forwardEdges := fwd
    progInputs := mlir.inputs.dedup
    progOutputs := mlir.outputs
    memoryCount := mlir.memoryCount }

/-! ## Navigation -/

/-- `output_count`. -/
def outputCount (g : DFG) (n : Nat) : Nat := (g.forwardEdges n).length

/-- `next_nodes`. -/
def nextNodes (g : DFG) (n : Nat) : List Nat := g.forwardEdges n

/-- `prev_nodes`. -/
def prevNodes (g : DFG) (n : Nat) : List Nat :=
  ((g.mlmi n).inputs.filterMap g.backwardEdges).dedup

/-- One round of a traversal: the nodes to visit and those visited. -/
def visitStep (ord : Orders) (g : DFG) (nend : Nat) (i : Nat) (st : List Nat × List Nat) :
    Except Fault ((List Nat × List Nat) ⊕ Bool) :=
  match ord.nats.pop i st.1 with
  | none => .ok (.inr true)
  | some (n, toVisit) =>
    if n ∈ st.2 then .ok (.inl (toVisit, st.2))
    else if n = nend then .ok (.inr false)
    else .ok (.inl ((g.nextNodes n).foldl (fun s x => s.insert x) toVisit, n :: st.2))

/-- One traversal of `check_domination_for_merge`: whether `nend` is not met
again behind the other successors of `nstart`. -/
def notReached (ord : Orders) (fuel : Nat) (g : DFG) (nstart nend : Nat) : Except Fault Bool :=
  loop .diverges (g.visitStep ord nend) fuel 0
    ((g.nextNodes nstart).filter fun n => n ≠ nend, [])

/-- `check_domination_for_merge`. -/
def checkDominationForMerge (ord : Orders) (fuel : Nat) (g : DFG) (n1 n2 : Nat) :
    Except Fault Bool := do
  if ← g.notReached (ord.fork 0) fuel n1 n2 then
    g.notReached (ord.fork 1) fuel n2 n1
  else
    return false

/-! ## Merging two nodes -/

/-- One `for` loop of `compute_merged_instrs`: the instructions it schedules, in
order, and the operands defined after it. -/
def schedulePass : List HLI → List Nat → List HLI × List Nat
  | [], defined => ([], defined)
  | i :: rest, defined =>
    if i.memInputs.all fun m => m ∈ defined then
      let (scheduled, defined') := schedulePass rest (i.dst :: defined)
      (i :: scheduled, defined')
    else schedulePass rest defined

/-- One round of `compute_merged_instrs`: the instructions to schedule, the
operands defined and the instructions scheduled. -/
def scheduleStep (ord : Orders) (i : Nat) (st : List HLI × List Nat × List HLI) :
    Except Fault ((List HLI × List Nat × List HLI) ⊕ List HLI) :=
  if st.1 = [] then .ok (.inr st.2.2)
  else
    let (scheduled, defined) := schedulePass (ord.hlis.enum i st.1) st.2.1
    .ok (.inl (st.1.filter fun x => x ∉ scheduled, defined, st.2.2 ++ scheduled))

/-- `compute_merged_instrs`. -/
def computeMergedInstrs (ord : Orders) (fuel : Nat) (g : DFG) (n1 n2 : Nat)
    (mergedInputs : List Nat) : Except Fault (List HLI) :=
  loop .diverges (scheduleStep ord) fuel 0
    (((g.mlmi n1).seq ++ (g.mlmi n2).seq).dedup, mergedInputs, [])

/-- The set that `compute_merged_inputs` lists. -/
def mergedInputSet (g : DFG) (n1 n2 : Nat) : List Nat :=
  ((g.mlmi n1).inputs ++ (g.mlmi n2).inputs).dedup.filter fun m =>
    m ∉ (g.mlmi n1).outputs ++ (g.mlmi n2).outputs

/-- `compute_merged_inputs`. -/
def computeMergedInputs (ord : Orders) (g : DFG) (n1 n2 : Nat) : List Nat :=
  ord.list (g.mergedInputSet n1 n2)

/-- The outputs of `first` that stay outputs when it is merged with `second`.
An output that `second` reads is kept when the program returns it or another
node reads it too. -/
def keptOutputs (g : DFG) (first second : Nat) : List Nat → List Nat → Except Fault (List Nat)
  | [], kept => .ok kept
  | o :: os, kept =>
    if o ∈ (g.mlmi second).inputs then
      let useCount := (g.nextNodes first).countP fun n => o ∈ (g.mlmi n).inputs
      if useCount = 0 then .error .assertionError
      else if useCount + (if o ∈ g.progOutputs then 1 else 0) > 1 then
        keptOutputs g first second os (kept.insert o)
      else keptOutputs g first second os kept
    else keptOutputs g first second os (kept.insert o)

/-- `compute_merged_outputs`. -/
def computeMergedOutputs (ord : Orders) (g : DFG) (n1 n2 : Nat) : Except Fault (List Nat) := do
  let kept ← g.keptOutputs n1 n2 (g.mlmi n1).outputs []
  let kept ← g.keptOutputs n2 n1 (g.mlmi n2).outputs kept
  return ord.list kept

/-- `set.remove`. -/
def removeNode (n : Nat) (nodes : List Nat) : Except Fault (List Nat) :=
  if n ∈ nodes then .ok (nodes.erase n) else .error .keyError

/-- `discard` of the two nodes. -/
def discardBoth (n1 n2 : Nat) (users : List Nat) : List Nat :=
  users.filter fun u => u ≠ n1 ∧ u ≠ n2

/-- The second half of `merge_nodes`: `new` takes the place of the two nodes,
and the edges follow. -/
def replaceNodes (g : DFG) (n1 n2 : Nat) (new : MLMI) : Except Fault (Nat × DFG) := do
  let nodes ← removeNode n1 g.nodes
  let nodes ← removeNode n2 nodes
  -- out-dated edges go while the backward edges still name the old nodes
  let fwd ← editUsers g.progInputs g.backwardEdges (discardBoth n1 n2) new.getUsed g.forwardEdges
  let users := ((fwd n1).filter (fun u => u ≠ n2) ++ (fwd n2).filter (fun u => u ≠ n1)).dedup
  let fwd := Function.update fwd g.fresh users
  let bwd := fun m => if m ∈ new.getDefs then some g.fresh else g.backwardEdges m
  let fwd := Function.update (Function.update fwd n1 []) n2 []
  let fwd ← editUsers g.progInputs bwd (fun users => users.insert g.fresh) new.getUsed fwd
  return (g.fresh, { g with
    nodes := nodes.insert g.fresh
    mlmi := Function.update g.mlmi g.fresh new
    fresh := g.fresh + 1
    backwardEdges := bwd
    forwardEdges := fwd })

/-- `merge_nodes`: the new node with the graph it is in. -/
def mergeNodes (ord : Orders) (fuel : Nat) (g : DFG) (n1 n2 : Nat)
    (mergedMls : Option (List HLI)) : Except Fault (Nat × DFG) := do
  let inputs := g.computeMergedInputs (ord.fork 0) n1 n2
  let outputs ← g.computeMergedOutputs (ord.fork 1) n1 n2
  let seq ← match mergedMls with
    | none => g.computeMergedInstrs (ord.fork 2) fuel n1 n2 inputs
    | some mls => .ok mls
  g.replaceNodes n1 n2 ⟨seq, inputs, outputs⟩

/-! ## What a merge leaves behind -/

theorem removeNode_eq_ok {n : Nat} {nodes nodes' : List Nat} :
    removeNode n nodes = .ok nodes' ↔ n ∈ nodes ∧ nodes' = nodes.erase n := by
  unfold removeNode
  split <;> simp [*, eq_comm]

/-- The forward edges between the two editing loops: the new node has the users
of the two it replaces, and these have none. -/
def takeOverUsers (fwd : Nat → List Nat) (fresh n1 n2 : Nat) : Nat → List Nat :=
  Function.update (Function.update (Function.update fwd fresh
    ((fwd n1).filter (fun u => u ≠ n2) ++ (fwd n2).filter (fun u => u ≠ n1)).dedup) n1 []) n2 []

/-- `g'` is `g` with `new` in the place of `n1` and `n2`. -/
structure Replaced (g g' : DFG) (n1 n2 : Nat) (new : MLMI) : Prop where
  n1_mem : n1 ∈ g.nodes
  n2_mem : n2 ∈ g.nodes.erase n1
  nodes_eq : g'.nodes = ((g.nodes.erase n1).erase n2).insert g.fresh
  mlmi_eq : g'.mlmi = Function.update g.mlmi g.fresh new
  fresh_eq : g'.fresh = g.fresh + 1
  progInputs_eq : g'.progInputs = g.progInputs
  progOutputs_eq : g'.progOutputs = g.progOutputs
  backward_eq : g'.backwardEdges =
    fun m => if m ∈ new.getDefs then some g.fresh else g.backwardEdges m
  forward_eq : ∃ fwd, editUsers g.progInputs g.backwardEdges (discardBoth n1 n2) new.getUsed
      g.forwardEdges = .ok fwd ∧
    editUsers g.progInputs g'.backwardEdges (fun users => users.insert g.fresh) new.getUsed
      (takeOverUsers fwd g.fresh n1 n2) = .ok g'.forwardEdges

theorem replaceNodes_ok {g g' : DFG} {n1 n2 k : Nat} {new : MLMI}
    (h : g.replaceNodes n1 n2 new = .ok (k, g')) : k = g.fresh ∧ Replaced g g' n1 n2 new := by
  unfold replaceNodes at h
  obtain ⟨nodes, hRemove, h⟩ := bind_eq_ok.mp h
  obtain ⟨nodes', hRemove', h⟩ := bind_eq_ok.mp h
  obtain ⟨fwd, hFwd, h⟩ := bind_eq_ok.mp h
  obtain ⟨fwd', hFwd', h⟩ := bind_eq_ok.mp h
  obtain ⟨hn1, rfl⟩ := removeNode_eq_ok.mp hRemove
  obtain ⟨hn2, rfl⟩ := removeNode_eq_ok.mp hRemove'
  cases h
  exact ⟨rfl, hn1, hn2, rfl, rfl, rfl, rfl, rfl, rfl, fwd, hFwd, hFwd'⟩

/-- `merge_nodes` with the sequence given. -/
theorem mergeNodes_some_ok {ord : Orders} {fuel : Nat} {g g' : DFG} {n1 n2 k : Nat}
    {mls : List HLI} (h : g.mergeNodes ord fuel n1 n2 (some mls) = .ok (k, g')) :
    ∃ outputs, g.computeMergedOutputs (ord.fork 1) n1 n2 = .ok outputs ∧
      g.replaceNodes n1 n2 ⟨mls, g.computeMergedInputs (ord.fork 0) n1 n2, outputs⟩ =
        .ok (k, g') := by
  obtain ⟨outputs, hOutputs, h⟩ := bind_eq_ok.mp h
  exact ⟨outputs, hOutputs, h⟩

end DFG

end Obscure
