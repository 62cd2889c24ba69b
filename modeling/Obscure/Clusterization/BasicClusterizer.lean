import Obscure.Config
import Obscure.DFG

/-!
# OBSCURE — the clusterizer

`clusterization/basic_clusterizer.py`. The program starts as a graph with one
node per instruction and nodes are merged as long as the result fits the secure
element, in three greedy phases:

1. `mergeOneOutputNodes` — a node with a single successor joins it;
2. `mergeParentsChilds`  — a node joins one of its successors;
3. `mergeSiblings`       — two successors of one node join.

The phases do not check the same things. The second and the third go through
`mergeScore`, which looks at the numbers of instructions, inputs and outputs, at
the registers and at cycles; the first one looks at inputs, instructions and
registers only.
-/

namespace Obscure

open Lib

/-- `initial_convertion_to_mlir`. -/
def initialConvertionToMLIR (hlir : HLIRProgram) : MLIRProgram where
  instrs := hlir.instrs.map MLMI.fromHLI
  inputs := hlir.inputs
  outputs := hlir.outputs
  memoryCount := hlir.memoryCount

/-- The allocator asked whether a sequence fits, its exceptions passed on. -/
def fitsRegisters (ord : Orders) (cfg : Config) (instrs : List HLI) (inputs outputs : List Nat) :
    Except Fault Bool :=
  (needsLeqKRegisters ord.nats instrs inputs outputs cfg.r cfg.lOut).mapError Fault.allocator

/-! ## Phase 1 -/

/-- `should_merge_with_next`: the successor to merge with and the merged
sequence. -/
def shouldMergeWithNext (ord : Orders) (fuel : Nat) (cfg : Config) (g : DFG) (node : Nat) :
    Except Fault (Option (Nat × List HLI)) :=
  match g.nextNodes node with
  | [next] => do
    let mergedInputs := g.computeMergedInputs (ord.fork 0) node next
    if mergedInputs.length > cfg.lIn then return none
    if (g.mlmi node).seq.length + (g.mlmi next).seq.length > cfg.s then return none
    let mergedInstrs ← g.computeMergedInstrs (ord.fork 1) fuel node next mergedInputs
    let mergedOutputs ← g.computeMergedOutputs (ord.fork 2) node next
    if ← fitsRegisters (ord.fork 3) cfg mergedInstrs mergedInputs mergedOutputs then
      return some (next, mergedInstrs)
    else
      return none
  | _ => return none

/-- The nodes to look at again once `new` has been made. -/
def revisit (g : DFG) (new : Nat) (toVisit : List Nat) : List Nat :=
  ((g.nextNodes new ++ g.prevNodes new).foldl (fun s n => s.insert n) toVisit).insert new

/-- One round of the worklist of `merge_1_output_nodes`. Nodes that were merged
away stay in the worklist. -/
def visitOneOutput (ord : Orders) (fuel : Nat) (cfg : Config) (i : Nat) (st : DFG × List Nat) :
    Except Fault ((DFG × List Nat) ⊕ DFG) :=
  let (g, toVisit) := st
  match (ord.fork 0).nats.pop i toVisit with
  | none => .ok (.inr g)
  | some (candidate, toVisit) => do
    match ← shouldMergeWithNext ((ord.fork 1).fork i) fuel cfg g candidate with
    | none => return .inl (g, toVisit)
    | some (next, mergedSeq) =>
      let (new, g) ← g.mergeNodes ((ord.fork 2).fork i) fuel candidate next (some mergedSeq)
      return .inl (g, revisit g new toVisit)

/-- The first of the nodes that should be merged. -/
def findOneOutput (ord : Orders) (fuel : Nat) (cfg : Config) (g : DFG) :
    Nat → List Nat → Except Fault (Option (Nat × Nat × List HLI))
  | _, [] => .ok none
  | k, node :: rest => do
    match ← shouldMergeWithNext (ord.fork k) fuel cfg g node with
    | some (next, mergedSeq) => return some (node, next, mergedSeq)
    | none => findOneOutput ord fuel cfg g (k + 1) rest

/-- One round of the other loop of `merge_1_output_nodes`. -/
def searchOneOutput (ord : Orders) (fuel : Nat) (cfg : Config) (i : Nat) (g : DFG) :
    Except Fault (DFG ⊕ DFG) := do
  match ← findOneOutput ((ord.fork 1).fork i) fuel cfg g 0 ((ord.fork 0).nats.enum i g.nodes) with
  | none => return .inr g
  | some (candidate, next, mergedSeq) =>
    let (_, g) ← g.mergeNodes ((ord.fork 2).fork i) fuel candidate next (some mergedSeq)
    return .inl g

/-- `merge_1_output_nodes`. -/
def mergeOneOutputNodes (ord : Orders) (fuel : Nat) (cfg : Config) (g : DFG) : Except Fault DFG :=
  if cfg.simpleClusterizer then
    loop .diverges (visitOneOutput ord fuel cfg) fuel 0 (g, g.nodes)
  else
    loop .diverges (searchOneOutput ord fuel cfg) fuel 0 g

/-! ## Phases 2 and 3 -/

/-- `merge_score`: -1 for a merge that is not possible. -/
def mergeScore (ord : Orders) (fuel : Nat) (cfg : Config) (g : DFG) (n1 n2 : Nat) :
    Except Fault (Int × Option (List HLI)) := do
  if (g.mlmi n1).seq.length + (g.mlmi n2).seq.length > cfg.s then return (-1, none)
  let mergedInputs := g.computeMergedInputs (ord.fork 0) n1 n2
  if mergedInputs.length > cfg.lIn then return (-1, none)
  let mergedOutputs ← g.computeMergedOutputs (ord.fork 1) n1 n2
  if mergedOutputs.length > cfg.lOut then return (-1, none)
  let mergedInstrs ← g.computeMergedInstrs (ord.fork 2) fuel n1 n2 mergedInputs
  if !(← fitsRegisters (ord.fork 3) cfg mergedInstrs mergedInputs mergedOutputs) then
    return (-1, none)
  if !(← g.checkDominationForMerge (ord.fork 4) fuel n1 n2) then return (-1, none)
  let score : Int := (g.mlmi n1).inputs.length + (g.mlmi n2).inputs.length - mergedInputs.length
    + (g.mlmi n1).outputs.length + (g.mlmi n2).outputs.length - mergedOutputs.length
  return (score, some mergedInstrs)

/-- The best merge met so far. -/
structure Best where
  score : Int
  nodes : Option (Nat × Nat)
  mls : Option (List HLI)

/-- The value of the variables before any merge was looked at. -/
def Best.start : Best := ⟨-1, none, none⟩

/-- The first of the pairs with the best score. -/
def bestMerge (ord : Orders) (fuel : Nat) (cfg : Config) (g : DFG) :
    Nat → List (Nat × Nat) → Best → Except Fault Best
  | _, [], best => .ok best
  | k, (n1, n2) :: rest, best => do
    let (score, mergedInstrs) ← mergeScore (ord.fork k) fuel cfg g n1 n2
    bestMerge ord fuel cfg g (k + 1) rest
      (if score > best.score then ⟨score, some (n1, n2), mergedInstrs⟩ else best)

/-- The merges of a node with a successor. -/
def parentPairs (ord : Orders) (g : DFG) (n1 : Nat) : List (Nat × Nat) :=
  (ord.list (g.nextNodes n1)).map fun n2 => (n1, n2)

/-- The pairs of a list, the earlier element first. -/
def pairs : List Nat → List (Nat × Nat)
  | [] => []
  | n :: rest => rest.map (fun n' => (n, n')) ++ pairs rest

/-- The merges of two successors of a node. -/
def siblingPairs (ord : Orders) (g : DFG) (parent : Nat) : List (Nat × Nat) :=
  pairs (ord.list (g.nextNodes parent))

/-- Carry out the chosen merge. -/
def mergeBest (ord : Orders) (fuel : Nat) (g : DFG) (best : Best) : Except Fault (Nat × DFG) :=
  match best.nodes with
  | none => .error .assertionError
  | some (n1, n2) => g.mergeNodes ord fuel n1 n2 best.mls

/-- One round of the worklist of `merge_parents_childs`. -/
def visitParent (ord : Orders) (fuel : Nat) (cfg : Config) (i : Nat) (st : DFG × List Nat) :
    Except Fault ((DFG × List Nat) ⊕ DFG) :=
  let (g, toVisit) := st
  match (ord.fork 0).nats.pop i toVisit with
  | none => .ok (.inr g)
  | some (n1, toVisit) => do
    let best ← bestMerge ((ord.fork 1).fork i) fuel cfg g 0
      (parentPairs ((ord.fork 2).fork i) g n1) Best.start
    if best.score = -1 then return .inl (g, toVisit)
    let (new, g) ← mergeBest ((ord.fork 3).fork i) fuel g best
    return .inl (g, if cfg.fast then toVisit else revisit g new toVisit)

/-- The first node that has a merge worth making, over the merges `cands` lists
for it; with `fast`, nodes without one are not looked at again. -/
def findMerge (ord : Orders) (fuel : Nat) (cfg : Config) (g : DFG)
    (cands : Orders → DFG → Nat → List (Nat × Nat)) (worth : Int → Bool) :
    Nat → List Nat → List Nat → Except Fault (Option Best × List Nat)
  | _, [], toSkip => .ok (none, toSkip)
  | k, n :: rest, toSkip =>
    if cfg.fast ∧ n ∈ toSkip then findMerge ord fuel cfg g cands worth (k + 1) rest toSkip
    else do
      let best ← bestMerge ((ord.fork 0).fork k) fuel cfg g 0 (cands ((ord.fork 1).fork k) g n)
        Best.start
      if worth best.score then return (some best, toSkip)
      else
        findMerge ord fuel cfg g cands worth (k + 1) rest
          (if cfg.fast then toSkip.insert n else toSkip)

/-- One round of a search for a merge. -/
def searchMerge (ord : Orders) (fuel : Nat) (cfg : Config)
    (cands : Orders → DFG → Nat → List (Nat × Nat)) (worth : Int → Bool) (i : Nat)
    (st : DFG × List Nat) : Except Fault ((DFG × List Nat) ⊕ DFG) := do
  let (g, toSkip) := st
  let (found, toSkip) ← findMerge ((ord.fork 1).fork i) fuel cfg g cands worth 0
    ((ord.fork 0).nats.enum i g.nodes) toSkip
  match found with
  | none => return .inr g
  | some best =>
    let (_, g) ← mergeBest ((ord.fork 2).fork i) fuel g best
    return .inl (g, toSkip)

/-- `merge_parents_childs`. -/
def mergeParentsChilds (ord : Orders) (fuel : Nat) (cfg : Config) (g : DFG) : Except Fault DFG :=
  if cfg.simpleClusterizer then
    loop .diverges (visitParent ord fuel cfg) fuel 0 (g, g.nodes)
  else
    loop .diverges (searchMerge ord fuel cfg parentPairs fun score => score ≠ -1) fuel 0 (g, [])

/-- `merge_siblings`. -/
def mergeSiblings (ord : Orders) (fuel : Nat) (cfg : Config) (g : DFG) : Except Fault DFG :=
  loop .diverges (searchMerge ord fuel cfg siblingPairs fun score => score > 0) fuel 0 (g, [])

/-- `clusterize`. -/
def clusterize (ord : Orders) (fuel : Nat) (cfg : Config) (hlir : HLIRProgram) :
    Except Fault DFG := do
  let g ← DFG.buildGraph (initialConvertionToMLIR hlir)
  let g ← mergeOneOutputNodes (ord.fork 0) fuel cfg g
  let g ← mergeParentsChilds (ord.fork 1) fuel cfg g
  mergeSiblings (ord.fork 2) fuel cfg g

/-! ## What the checks promise -/

/-- A merge of the first phase: the node has one successor, and inputs,
instructions and registers were looked at. -/
theorem shouldMergeWithNext_ok {ord : Orders} {fuel : Nat} {cfg : Config} {g : DFG}
    {node next : Nat} {mls : List HLI}
    (h : shouldMergeWithNext ord fuel cfg g node = .ok (some (next, mls))) :
    g.nextNodes node = [next] ∧ (g.mergedInputSet node next).length ≤ cfg.lIn ∧
      (g.mlmi node).seq.length + (g.mlmi next).seq.length ≤ cfg.s ∧
      g.computeMergedInstrs (ord.fork 1) fuel node next
        (g.computeMergedInputs (ord.fork 0) node next) = .ok mls := by
  unfold shouldMergeWithNext at h
  split at h
  · next next' hNext =>
    by_cases hIn : (g.computeMergedInputs (ord.fork 0) node next').length > cfg.lIn
    · rw [if_pos hIn] at h
      cases h
    rw [if_neg hIn] at h
    by_cases hSeq : (g.mlmi node).seq.length + (g.mlmi next').seq.length > cfg.s
    · rw [if_pos hSeq] at h
      cases h
    rw [if_neg hSeq] at h
    obtain ⟨instrs, hInstrs, h⟩ := bind_eq_ok.mp h
    obtain ⟨outputs, -, h⟩ := bind_eq_ok.mp h
    obtain ⟨fits, -, h⟩ := bind_eq_ok.mp h
    cases fits with
    | false => cases h
    | true =>
      cases h
      rw [DFG.computeMergedInputs, (ord.fork 0).length_list] at hIn
      exact ⟨hNext, by omega, by omega, hInstrs⟩
  · cases h

/-- A merge that got a score: everything was looked at. -/
structure ScoredMerge (ord : Orders) (fuel : Nat) (cfg : Config) (g : DFG) (n1 n2 : Nat)
    (mls : List HLI) : Prop where
  seq_le : (g.mlmi n1).seq.length + (g.mlmi n2).seq.length ≤ cfg.s
  inputs_le : (g.mergedInputSet n1 n2).length ≤ cfg.lIn
  outputs_le : ∃ outputs, g.computeMergedOutputs (ord.fork 1) n1 n2 = .ok outputs ∧
    outputs.length ≤ cfg.lOut
  instrs_eq : g.computeMergedInstrs (ord.fork 2) fuel n1 n2
    (g.computeMergedInputs (ord.fork 0) n1 n2) = .ok mls
  domination : g.checkDominationForMerge (ord.fork 4) fuel n1 n2 = .ok true

theorem mergeScore_ok {ord : Orders} {fuel : Nat} {cfg : Config} {g : DFG} {n1 n2 : Nat}
    {score : Int} {m : Option (List HLI)}
    (h : mergeScore ord fuel cfg g n1 n2 = .ok (score, m)) :
    (score = -1 ∧ m = none) ∨ ∃ mls, m = some mls ∧ ScoredMerge ord fuel cfg g n1 n2 mls := by
  have hStop : ∀ {r : Except Fault (Int × Option (List HLI))}, r = .ok (-1, none) →
      r = .ok (score, m) → score = -1 ∧ m = none := by
    rintro r rfl hr
    cases hr
    exact ⟨rfl, rfl⟩
  unfold mergeScore at h
  by_cases hSeq : (g.mlmi n1).seq.length + (g.mlmi n2).seq.length > cfg.s
  · rw [if_pos hSeq] at h
    exact Or.inl (hStop rfl h)
  rw [if_neg hSeq] at h
  by_cases hIn : (g.computeMergedInputs (ord.fork 0) n1 n2).length > cfg.lIn
  · simp only [if_pos hIn] at h
    exact Or.inl (hStop rfl h)
  simp only [if_neg hIn] at h
  obtain ⟨outputs, hOutputs, h⟩ := bind_eq_ok.mp h
  by_cases hOut : outputs.length > cfg.lOut
  · rw [if_pos hOut] at h
    exact Or.inl (hStop rfl h)
  rw [if_neg hOut] at h
  obtain ⟨mls, hInstrs, h⟩ := bind_eq_ok.mp h
  obtain ⟨fits, -, h⟩ := bind_eq_ok.mp h
  cases fits with
  | false => exact Or.inl (hStop rfl h)
  | true =>
    obtain ⟨free, hFree, h⟩ := bind_eq_ok.mp h
    cases free with
    | false => exact Or.inl (hStop rfl h)
    | true =>
      cases h
      rw [DFG.computeMergedInputs, (ord.fork 0).length_list] at hIn
      exact Or.inr ⟨mls, rfl, by omega, by omega, ⟨outputs, hOutputs, by omega⟩, hInstrs, hFree⟩

end Obscure
