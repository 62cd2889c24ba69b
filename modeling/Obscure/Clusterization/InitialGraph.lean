import Obscure.Clusterization.BasicClusterizer
import Obscure.Clusterization.Merge

/-!
# OBSCURE — the graph before any merge

What `build_graph` makes of a program with one node per instruction. For a
program in SSA, node `n` is instruction `n`, and the edges lead from a definition
to its uses.
-/

namespace Obscure

open Lib

/-- The programs the clusterizer is given: in SSA, every operand defined before
it is read, nothing computed in vain. -/
structure HLIRProgram.Clean (ir : HLIRProgram) : Prop where
  written_once : (defs ir.instrs).Nodup
  inputs_kept : ∀ m ∈ ir.inputs, m ∉ defs ir.instrs
  scheduled : Scheduled ir.inputs ir.instrs
  no_dead : ∀ m ∈ defs ir.instrs, m ∈ ir.outputs ∨ m ∈ reads ir.instrs

/-- An instruction does not read its own destination. -/
theorem HLIRProgram.Clean.not_self {ir : HLIRProgram} (hIr : ir.Clean) {i : HLI}
    (hi : i ∈ ir.instrs) : i.dst ∉ i.memInputs := by
  intro hm
  obtain ⟨pre, post, hSplit⟩ := List.append_of_mem hi
  rcases hIr.scheduled pre i post hSplit i.dst hm with hIn | hPre
  · exact hIr.inputs_kept i.dst hIn (List.mem_map_of_mem hi)
  · have hNodup := hIr.written_once
    rw [hSplit, defs_append, defs_cons, List.nodup_middle] at hNodup
    exact (List.nodup_cons.mp hNodup).1 (by simp [hPre])

namespace DFG

/-- The node of a location is one that defines it. -/
theorem collectDefs_eq_some {k : Nat} {instrs : List MLMI} {bwd : Nat → Option Nat} {m j : Nat}
    (h : collectDefs k instrs bwd m = some j) :
    bwd m = some j ∨ ∃ i mlmi, instrs[i]? = some mlmi ∧ j = k + i ∧ m ∈ mlmi.getDefs := by
  induction instrs generalizing k bwd with
  | nil => exact Or.inl h
  | cons mlmi instrs ih =>
    rcases ih h with h | ⟨i, mlmi', hi, rfl, hm⟩
    · split at h
      · next hm => exact Or.inr ⟨0, mlmi, rfl, (Option.some.inj h).symm, hm⟩
      · exact Or.inl h
    · exact Or.inr ⟨i + 1, mlmi', hi, by omega, hm⟩

/-- The definition of an operand that is there already stays, or is replaced. -/
theorem collectDefs_isSome_of {k : Nat} {instrs : List MLMI} {bwd : Nat → Option Nat} {m : Nat}
    (h : (bwd m).isSome) : (collectDefs k instrs bwd m).isSome := by
  induction instrs generalizing k bwd with
  | nil => exact h
  | cons mlmi instrs ih =>
    refine ih ?_
    split
    · rfl
    · exact h

/-- Every definition is collected. -/
theorem collectDefs_isSome (k : Nat) {instrs : List MLMI} (bwd : Nat → Option Nat) {m : Nat}
    (h : m ∈ instrs.flatMap MLMI.getDefs) : (collectDefs k instrs bwd m).isSome := by
  induction instrs generalizing k bwd with
  | nil => cases h
  | cons mlmi instrs ih =>
    rw [List.flatMap_cons, List.mem_append] at h
    by_cases hm : m ∈ mlmi.getDefs
    · have hHead : (if m ∈ mlmi.getDefs then some k else bwd m).isSome := by
        rw [if_pos hm]
        rfl
      rw [collectDefs]
      exact collectDefs_isSome_of hHead
    · exact ih (k + 1) _ (h.resolve_left hm)

/-- The graph that is built has one node for each multi-instruction, and the edges that were
collected. -/
theorem buildGraph_ok {mlir : MLIRProgram} {g : DFG} (h : buildGraph mlir = .ok g) :
    ∃ fwd, collectUses mlir.inputs (collectDefs 0 mlir.instrs fun _ => none) 0 mlir.instrs
        (fun _ => []) = .ok fwd ∧
      g = {
        nodes := (List.range mlir.instrs.length).filter fun k =>
          (mlir.instrs.flatMap MLMI.getDefs).any fun m =>
            collectDefs 0 mlir.instrs (fun _ => none) m = some k
        mlmi := fun k => mlir.instrs.getD k ⟨[], [], []⟩
        fresh := mlir.instrs.length
        backwardEdges := collectDefs 0 mlir.instrs fun _ => none
        forwardEdges := fwd
        progInputs := mlir.inputs.dedup
        progOutputs := mlir.outputs
        memoryCount := mlir.memoryCount } := by
  obtain ⟨fwd, hFwd, h⟩ := bind_eq_ok.mp h
  cases h
  exact ⟨fwd, hFwd, rfl⟩

/-- A node of the initial graph is an instruction of its own. -/
theorem buildGraph_node {hlir : HLIRProgram} {g : DFG}
    (h : buildGraph (initialConvertionToMLIR hlir) = .ok g) {n : Nat} (hn : n ∈ g.nodes) :
    ∃ hli, hlir.instrs[n]? = some hli ∧ g.mlmi n = MLMI.fromHLI hli := by
  obtain ⟨fwd, -, rfl⟩ := buildGraph_ok h
  have hLt : n < hlir.instrs.length := by
    simpa [initialConvertionToMLIR] using (List.mem_filter.mp hn).1
  refine ⟨hlir.instrs[n], List.getElem?_eq_getElem hLt, ?_⟩
  simp [initialConvertionToMLIR, List.getD, List.getElem?_map, List.getElem?_eq_getElem hLt]

/-- A program with instructions has nodes. -/
theorem buildGraph_nonempty {hlir : HLIRProgram} {g : DFG}
    (h : buildGraph (initialConvertionToMLIR hlir) = .ok g) (hInstrs : hlir.instrs ≠ []) :
    ∃ n, n ∈ g.nodes := by
  obtain ⟨fwd, -, rfl⟩ := buildGraph_ok h
  obtain ⟨i, hi⟩ := List.exists_mem_of_ne_nil _ hInstrs
  have hDef : i.dst ∈ (initialConvertionToMLIR hlir).instrs.flatMap MLMI.getDefs := by
    simp only [initialConvertionToMLIR, List.mem_flatMap, List.mem_map, exists_exists_and_eq_and]
    exact ⟨i, hi, by simp [MLMI.fromHLI, MLMI.getDefs]⟩
  obtain ⟨j, hj⟩ := Option.isSome_iff_exists.mp (collectDefs_isSome 0 (fun _ => none) hDef)
  rcases collectDefs_eq_some hj with h | ⟨k, mlmi, hk, rfl, -⟩
  · cases h
  · refine ⟨0 + k, List.mem_filter.mpr ⟨List.mem_range.mpr ?_, ?_⟩⟩
    · rw [Nat.zero_add]
      exact (List.getElem?_eq_some_iff.mp hk).1
    · exact List.any_eq_true.mpr ⟨i.dst, hDef, by simpa using hj⟩

/-! ## Programs in SSA -/

section Clean

variable {ir : HLIRProgram} {g : DFG}

/-- In SSA an operand is defined by the instruction at one position. -/
theorem collectDefs_iff (hIr : ir.Clean) {m j : Nat} :
    collectDefs 0 (ir.instrs.map MLMI.fromHLI) (fun _ => none) m = some j ↔
      ∃ i, ir.instrs[j]? = some i ∧ i.dst = m := by
  have hSome : ∀ j, collectDefs 0 (ir.instrs.map MLMI.fromHLI) (fun _ => none) m = some j →
      ∃ i, ir.instrs[j]? = some i ∧ i.dst = m := by
    intro j h
    rcases collectDefs_eq_some h with h | ⟨k, mlmi, hk, rfl, hm⟩
    · cases h
    · rw [List.getElem?_map, Option.map_eq_some_iff] at hk
      obtain ⟨i, hi, rfl⟩ := hk
      refine ⟨i, by simpa using hi, ?_⟩
      simpa [MLMI.fromHLI, MLMI.getDefs, eq_comm] using hm
  refine ⟨hSome j, ?_⟩
  rintro ⟨i, hi, rfl⟩
  have hDef : i.dst ∈ (ir.instrs.map MLMI.fromHLI).flatMap MLMI.getDefs := by
    simp only [List.mem_flatMap, List.mem_map, exists_exists_and_eq_and]
    exact ⟨i, List.mem_of_getElem? hi, by simp [MLMI.fromHLI, MLMI.getDefs]⟩
  obtain ⟨j', hj'⟩ := Option.isSome_iff_exists.mp (collectDefs_isSome 0 (fun _ => none) hDef)
  obtain ⟨i', hi', hEq⟩ := hSome j' hj'
  -- two positions with one destination are the same
  have hSame : j' = j := by
    have hAt : ∀ {j : Nat} {i : HLI}, ir.instrs[j]? = some i →
        (defs ir.instrs)[j]? = some i.dst := fun h => by simp [defs, h]
    have hLt : j' < (defs ir.instrs).length := (List.getElem?_eq_some_iff.mp (hAt hi')).1
    exact (List.getElem?_inj hLt hIr.written_once).mp (by rw [hAt hi', hAt hi, hEq])
  rw [hj', hSame]

/-- The edges from a node go to the nodes that use what it defines. -/
theorem collectUses_ok {inputs : List Nat} {bwd : Nat → Option Nat} {k : Nat} {instrs : List MLMI}
    {fwd fwd' : Nat → List Nat} (h : collectUses inputs bwd k instrs fwd = .ok fwd') (d : Nat) :
    ((fwd d).Nodup → (fwd' d).Nodup) ∧ ∀ b, b ∈ fwd' d ↔ b ∈ fwd d ∨
      ∃ i mlmi, instrs[i]? = some mlmi ∧ b = k + i ∧
        ∃ src ∈ mlmi.getUsed, src ∉ inputs ∧ bwd src = some d := by
  induction instrs generalizing k fwd with
  | nil =>
    cases h
    simp
  | cons mlmi instrs ih =>
    obtain ⟨fwd₁, hEdit, h⟩ := bind_eq_ok.mp h
    obtain ⟨hNodup, hMem⟩ := ih h
    obtain ⟨hYes, hNo⟩ := editUsers_ok (fun l => List.insert_of_mem List.mem_insert_self) hEdit d
    have hFirst : ∀ b, b ∈ fwd₁ d ↔ b ∈ fwd d ∨
        (b = k ∧ ∃ src ∈ mlmi.getUsed, src ∉ inputs ∧ bwd src = some d) := by
      intro b
      by_cases hUse : ∃ src ∈ mlmi.getUsed, src ∉ inputs ∧ bwd src = some d
      · rw [hYes hUse, List.mem_insert_iff]
        tauto
      · rw [hNo hUse, or_iff_left fun hHere => hUse hHere.2]
    refine ⟨fun hd => hNodup ?_, fun b => ?_⟩
    · by_cases hUse : ∃ src ∈ mlmi.getUsed, src ∉ inputs ∧ bwd src = some d
      · rw [hYes hUse]
        exact hd.insert
      · rw [hNo hUse]
        exact hd
    · rw [hMem, hFirst, or_assoc]
      refine or_congr_right ⟨?_, ?_⟩
      · rintro (⟨rfl, hUse⟩ | ⟨i, mlmi', hi, rfl, hUse⟩)
        · exact ⟨0, mlmi, rfl, rfl, hUse⟩
        · exact ⟨i + 1, mlmi', hi, by omega, hUse⟩
      · rintro ⟨i, mlmi', hi, rfl, hUse⟩
        cases i with
        | zero =>
          cases hi
          exact Or.inl ⟨rfl, hUse⟩
        | succ i => exact Or.inr ⟨i, mlmi', hi, by omega, hUse⟩

/-- The edges can be collected if everything that is used is defined. -/
theorem collectUses_returns {inputs : List Nat} {bwd : Nat → Option Nat} {k : Nat}
    {instrs : List MLMI} (fwd : Nat → List Nat)
    (hDef : ∀ mlmi ∈ instrs, ∀ src ∈ mlmi.getUsed, src ∉ inputs → (bwd src).isSome) :
    ∃ fwd', collectUses inputs bwd k instrs fwd = .ok fwd' := by
  induction instrs generalizing k fwd with
  | nil => exact ⟨fwd, rfl⟩
  | cons mlmi instrs ih =>
    obtain ⟨fwd₁, hEdit⟩ := editUsers_returns (fun users => users.insert k) fwd
      (hDef mlmi List.mem_cons_self)
    obtain ⟨fwd', hRest⟩ := ih (k := k + 1) fwd₁ fun x hx => hDef x (List.mem_cons_of_mem _ hx)
    exact ⟨fwd', bind_eq_ok.mpr ⟨fwd₁, hEdit, hRest⟩⟩

/-- The graph of a clean program can be built. -/
theorem buildGraph_returns (hIr : ir.Clean) :
    ∃ g, buildGraph (initialConvertionToMLIR ir) = .ok g := by
  have hDefined : ∀ mlmi ∈ ir.instrs.map MLMI.fromHLI, ∀ src ∈ mlmi.getUsed, src ∉ ir.inputs →
      (collectDefs 0 (ir.instrs.map MLMI.fromHLI) (fun _ => none) src).isSome := by
    intro mlmi hMlmi src hSrc hNot
    obtain ⟨i, hi, rfl⟩ := List.mem_map.mp hMlmi
    obtain ⟨pre, post, hSplit⟩ := List.append_of_mem hi
    have hRead : src ∈ i.memInputs := by
      simpa [MLMI.fromHLI] using (mem_getUsed.mp hSrc).1
    have hDef := (hIr.scheduled pre i post hSplit src hRead).resolve_left hNot
    obtain ⟨i', hi', rfl⟩ := List.mem_map.mp hDef
    refine collectDefs_isSome 0 _ (List.mem_flatMap.mpr ⟨MLMI.fromHLI i',
      List.mem_map_of_mem (by simp [hSplit, hi']), ?_⟩)
    simp [MLMI.fromHLI, MLMI.getDefs]
  obtain ⟨fwd, hFwd⟩ := collectUses_returns (k := 0) (fun _ => []) hDefined
  exact ⟨_, bind_eq_ok.mpr ⟨fwd, hFwd, rfl⟩⟩

/-- The initial graph in the terms of the program: node `n` is instruction
`n`. -/
structure Initial (ir : HLIRProgram) (g : DFG) : Prop where
  fresh_eq : g.fresh = ir.instrs.length
  progInputs_iff : ∀ m, m ∈ g.progInputs ↔ m ∈ ir.inputs
  progOutputs_eq : g.progOutputs = ir.outputs
  nodes_eq : g.nodes = List.range ir.instrs.length
  mlmi_eq : ∀ n i, ir.instrs[n]? = some i → g.mlmi n = MLMI.fromHLI i
  backward_iff : ∀ m n, g.backwardEdges m = some n ↔ ∃ i, ir.instrs[n]? = some i ∧ i.dst = m
  forward_iff : ∀ a b, b ∈ g.forwardEdges a ↔ ∃ i j, ir.instrs[a]? = some i ∧
    ir.instrs[b]? = some j ∧ i.dst ∈ j.memInputs
  forward_nodup : ∀ a, (g.forwardEdges a).Nodup

/-- A node of one instruction uses what the instruction reads. -/
theorem mem_getUsed_fromHLI (hIr : ir.Clean) {i : HLI} (hi : i ∈ ir.instrs) {m : Nat} :
    m ∈ (MLMI.fromHLI i).getUsed ↔ m ∈ i.memInputs := by
  rw [mem_getUsed]
  have hNot := hIr.not_self hi
  simp only [MLMI.fromHLI, reads_cons, reads_nil, List.append_nil, MLMI.getDefs, defs_cons,
    defs_nil, List.mem_singleton]
  constructor
  · exact fun h => h.1
  · intro hm
    exact ⟨hm, fun hEq => hNot (hEq ▸ hm)⟩

/-- The graph has the edges of the program. -/
theorem buildGraph_initial (hIr : ir.Clean) (h : buildGraph (initialConvertionToMLIR ir) = .ok g) :
    Initial ir g := by
  obtain ⟨fwd, hFwd, rfl⟩ := buildGraph_ok h
  have hUses := collectUses_ok hFwd
  refine ⟨by simp [initialConvertionToMLIR], fun m => List.mem_dedup, rfl, ?_, ?_, ?_, ?_, ?_⟩
  · simp only [initialConvertionToMLIR, List.length_map]
    refine List.filter_eq_self.mpr fun n hn => ?_
    have hLt := List.mem_range.mp hn
    have hGet := List.getElem?_eq_getElem hLt
    refine List.any_eq_true.mpr ⟨ir.instrs[n].dst, ?_, ?_⟩
    · refine List.mem_flatMap.mpr ⟨MLMI.fromHLI ir.instrs[n],
        List.mem_map_of_mem (List.getElem_mem hLt), ?_⟩
      simp [MLMI.fromHLI, MLMI.getDefs]
    · exact decide_eq_true ((collectDefs_iff hIr).mpr ⟨_, hGet, rfl⟩)
  · intro n i hi
    simp [initialConvertionToMLIR, List.getD, List.getElem?_map, hi]
  · exact fun m n => collectDefs_iff hIr
  · intro a b
    simp only [(hUses a).2, List.not_mem_nil, false_or, Nat.zero_add]
    constructor
    · rintro ⟨j, mlmi, hj, rfl, src, hSrc, -, hDef⟩
      rw [initialConvertionToMLIR, List.getElem?_map, Option.map_eq_some_iff] at hj
      obtain ⟨i', hi', rfl⟩ := hj
      obtain ⟨i, hi, rfl⟩ := (collectDefs_iff hIr).mp hDef
      exact ⟨i, i', hi, hi', (mem_getUsed_fromHLI hIr (List.mem_of_getElem? hi')).mp hSrc⟩
    · rintro ⟨i, i', hi, hi', hm⟩
      refine ⟨b, MLMI.fromHLI i', by simp [initialConvertionToMLIR, hi'], rfl, i.dst,
        (mem_getUsed_fromHLI hIr (List.mem_of_getElem? hi')).mpr hm, ?_,
        (collectDefs_iff hIr).mpr ⟨i, hi, rfl⟩⟩
      exact fun hIn => hIr.inputs_kept i.dst hIn (List.mem_map_of_mem (List.mem_of_getElem? hi))
  · exact fun a => (hUses a).1 List.nodup_nil

end Clean

end DFG

end Obscure
