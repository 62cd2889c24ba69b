import Obscure.Clusterization.Merge

/-!
# OBSCURE — a merge as a contraction

What `merge_nodes` does to the edges of a graph, and what
`check_domination_for_merge` has to do with it. All that is asked of the graph is
that its two edge maps and the fields of its nodes say the same (`Coherent`);
where the instructions come from does not matter here.

* `computeMergedInstrs_complete`  — the instructions of two nodes can be scheduled;
* `Fusion.edge_iff`               — the edges after a merge;
* `notReached_iff`                — a traversal finds exactly the detours;
* `checkDominationForMerge_exact` — the check accepts a pair exactly when merging
  it leaves the graph acyclic, and a node with one successor needs no check.
-/

namespace Obscure

open Lib

namespace DFG

-- ---------------------------------------------------------------------------
-- Coherent graphs
-- ---------------------------------------------------------------------------

/-- The edge maps and the fields of the nodes agree, and cells are defined
once. -/
structure Coherent (g : DFG) : Prop where
  nodes_nodup : g.nodes.Nodup
  nodes_lt : ∀ n ∈ g.nodes, n < g.fresh
  seq_nodup : ∀ n ∈ g.nodes, (g.mlmi n).getDefs.Nodup
  scheduled : ∀ n ∈ g.nodes, Scheduled (g.mlmi n).inputs (g.mlmi n).seq
  inputs_iff : ∀ n ∈ g.nodes, ∀ m, m ∈ (g.mlmi n).inputs ↔ m ∈ (g.mlmi n).getUsed
  outputs_sub : ∀ n ∈ g.nodes, ∀ m ∈ (g.mlmi n).outputs, m ∈ (g.mlmi n).getDefs
  inputs_from : ∀ n ∈ g.nodes, ∀ m ∈ (g.mlmi n).inputs,
    m ∈ g.progInputs ∨ ∃ a ∈ g.nodes, m ∈ (g.mlmi a).outputs
  defs_fresh : ∀ n ∈ g.nodes, ∀ m ∈ (g.mlmi n).getDefs, m ∉ g.progInputs
  backward_iff : ∀ m n, g.backwardEdges m = some n ↔ n ∈ g.nodes ∧ m ∈ (g.mlmi n).getDefs
  forward_iff : ∀ a b, g.Edge a b ↔ a ∈ g.nodes ∧ b ∈ g.nodes ∧
    ∃ m ∈ (g.mlmi a).outputs, m ∈ (g.mlmi b).inputs

section Facts

variable {g : DFG}

/-- No operand is defined in two nodes. -/
theorem Coherent.def_unique (h : g.Coherent) {a b m : Nat} (ha : a ∈ g.nodes) (hb : b ∈ g.nodes)
    (hm : m ∈ (g.mlmi a).getDefs) (hm' : m ∈ (g.mlmi b).getDefs) : a = b :=
  Option.some.inj (((h.backward_iff m a).mpr ⟨ha, hm⟩).symm.trans
    ((h.backward_iff m b).mpr ⟨hb, hm'⟩))

/-- An input that the program does not give has a definition. -/
theorem Coherent.defined (h : g.Coherent) {n m : Nat} (hn : n ∈ g.nodes)
    (hm : m ∈ (g.mlmi n).inputs) (hNot : m ∉ g.progInputs) : (g.backwardEdges m).isSome := by
  obtain ⟨a, ha, hOut⟩ := (h.inputs_from n hn m hm).resolve_left hNot
  rw [(h.backward_iff m a).mpr ⟨ha, h.outputs_sub a ha m hOut⟩]
  rfl

/-- The number of the new node is new. -/
theorem Coherent.fresh_notMem (h : g.Coherent) : g.fresh ∉ g.nodes :=
  fun hMem => absurd (h.nodes_lt _ hMem) (lt_irrefl _)

end Facts

/-- What scheduling the instructions of two nodes relies on: every node can run on
the inputs it lists, no instruction stands in the graph twice, and the edges, which
lead from outputs to inputs, make no cycle. -/
structure Schedulable (g : DFG) : Prop where
  scheduled : ∀ n ∈ g.nodes, Scheduled (g.mlmi n).inputs (g.mlmi n).seq
  instrs_nodup : (g.nodes.flatMap fun n => (g.mlmi n).seq).Nodup
  outputs_sub : ∀ n ∈ g.nodes, ∀ m ∈ (g.mlmi n).outputs, m ∈ (g.mlmi n).getDefs
  forward_iff : ∀ a b, g.Edge a b ↔ a ∈ g.nodes ∧ b ∈ g.nodes ∧
    ∃ m ∈ (g.mlmi a).outputs, m ∈ (g.mlmi b).inputs
  acyclic : Acyclic g.Edge

-- ---------------------------------------------------------------------------
-- The edges after a merge
-- ---------------------------------------------------------------------------

/-- What is put in the place of `n1` and `n2`: it defines what they define and
reads what they read from outside. -/
structure Fusion (g : DFG) (n1 n2 : Nat) (new : MLMI) : Prop where
  coherent : g.Coherent
  acyclic : Acyclic g.Edge
  n1_mem : n1 ∈ g.nodes
  n2_mem : n2 ∈ g.nodes
  ne : n1 ≠ n2
  defs_iff : ∀ m, m ∈ new.getDefs ↔ m ∈ (g.mlmi n1).getDefs ∨ m ∈ (g.mlmi n2).getDefs
  used_iff : ∀ m, m ∈ new.getUsed ↔
    (m ∈ (g.mlmi n1).inputs ∨ m ∈ (g.mlmi n2).inputs) ∧ m ∉ new.getDefs

/-- A node that leads to one of the merged ones. -/
def LeadsTo (g : DFG) (n1 n2 d : Nat) : Prop := d ≠ n1 ∧ d ≠ n2 ∧ (g.Edge d n1 ∨ g.Edge d n2)

/-- The forward edges after a merge, node by node. -/
structure ForwardAfter (g g' : DFG) (n1 n2 : Nat) : Prop where
  fresh : g'.forwardEdges g.fresh = ((g.forwardEdges n1).filter (fun u => u ≠ n2) ++
    (g.forwardEdges n2).filter (fun u => u ≠ n1)).dedup
  first : g'.forwardEdges n1 = []
  second : g'.forwardEdges n2 = []
  leading : ∀ d, g.LeadsTo n1 n2 d →
    g'.forwardEdges d = (discardBoth n1 n2 (g.forwardEdges d)).insert g.fresh
  other : ∀ d, d ≠ g.fresh → d ≠ n1 → d ≠ n2 → ¬ g.LeadsTo n1 n2 d →
    g'.forwardEdges d = g.forwardEdges d

section Fusion

open scoped List

variable {g g' : DFG} {n1 n2 : Nat} {new : MLMI}

/-- The nodes whose users the two editing loops touch: those that lead to one of
the merged nodes. -/
theorem Fusion.defines_input (h : Fusion g n1 n2 new) {d : Nat} :
    (∃ src ∈ new.getUsed, src ∉ g.progInputs ∧ g.backwardEdges src = some d) ↔
      g.LeadsTo n1 n2 d := by
  have hg := h.coherent
  constructor
  · rintro ⟨src, hUsed, hNot, hDef⟩
    obtain ⟨hIn, hNew⟩ := (h.used_iff src).mp hUsed
    obtain ⟨hd, hDef⟩ := (hg.backward_iff src d).mp hDef
    rw [h.defs_iff, not_or] at hNew
    have hEdge : ∀ n ∈ g.nodes, src ∈ (g.mlmi n).inputs → g.Edge d n := by
      intro n hn hIn
      obtain ⟨a, ha, hOut⟩ := (hg.inputs_from n hn src hIn).resolve_left hNot
      obtain rfl := hg.def_unique ha hd (hg.outputs_sub a ha src hOut) hDef
      exact (hg.forward_iff a n).mpr ⟨ha, hn, src, hOut, hIn⟩
    refine ⟨?_, ?_, hIn.imp (hEdge n1 h.n1_mem) (hEdge n2 h.n2_mem)⟩
    · rintro rfl
      exact hNew.1 hDef
    · rintro rfl
      exact hNew.2 hDef
  · rintro ⟨h1, h2, hEdge⟩
    have hFind : ∃ m, d ∈ g.nodes ∧ m ∈ (g.mlmi d).outputs ∧
        (m ∈ (g.mlmi n1).inputs ∨ m ∈ (g.mlmi n2).inputs) := by
      rcases hEdge with hEdge | hEdge
      · obtain ⟨hd, -, m, hOut, hIn⟩ := (hg.forward_iff d n1).mp hEdge
        exact ⟨m, hd, hOut, Or.inl hIn⟩
      · obtain ⟨hd, -, m, hOut, hIn⟩ := (hg.forward_iff d n2).mp hEdge
        exact ⟨m, hd, hOut, Or.inr hIn⟩
    obtain ⟨m, hd, hOut, hIn⟩ := hFind
    have hDef := hg.outputs_sub d hd m hOut
    refine ⟨m, (h.used_iff m).mpr ⟨hIn, ?_⟩, hg.defs_fresh d hd m hDef,
      (hg.backward_iff m d).mpr ⟨hd, hDef⟩⟩
    rw [h.defs_iff]
    rintro (hDef' | hDef')
    · exact h1 (hg.def_unique hd h.n1_mem hDef hDef')
    · exact h2 (hg.def_unique hd h.n2_mem hDef hDef')

/-- The forward edges after the replacement. -/
theorem Fusion.forwardAfter (h : Fusion g n1 n2 new) (hr : Replaced g g' n1 n2 new) :
    ForwardAfter g g' n1 n2 := by
  have hg := h.coherent
  obtain ⟨fwd, hErase, hInsert⟩ := hr.forward_eq
  -- both loops touch the nodes that lead to one of the two
  have hBwd : ∀ d, (∃ src ∈ new.getUsed, src ∉ g.progInputs ∧ g'.backwardEdges src = some d) ↔
      g.LeadsTo n1 n2 d := by
    intro d
    rw [← h.defines_input]
    refine exists_congr fun src => and_congr_right fun hUsed => and_congr_right fun _ => ?_
    rw [hr.backward_eq]
    simp only [if_neg (mem_getUsed.mp hUsed).2]
  have hFresh : ¬ g.LeadsTo n1 n2 g.fresh := by
    rintro ⟨-, -, hEdge | hEdge⟩
    · exact hg.fresh_notMem ((hg.forward_iff _ _).mp hEdge).1
    · exact hg.fresh_notMem ((hg.forward_iff _ _).mp hEdge).1
  have hFirst : ¬ g.LeadsTo n1 n2 n1 := fun hLeads => hLeads.1 rfl
  have hSecond : ¬ g.LeadsTo n1 n2 n2 := fun hLeads => hLeads.2.1 rfl
  have hErased : ∀ d, (g.LeadsTo n1 n2 d → fwd d = discardBoth n1 n2 (g.forwardEdges d)) ∧
      (¬ g.LeadsTo n1 n2 d → fwd d = g.forwardEdges d) := by
    intro d
    have := editUsers_ok (fun l => by simp [discardBoth]) hErase d
    rwa [h.defines_input] at this
  have hInserted : ∀ d,
      (g.LeadsTo n1 n2 d →
        g'.forwardEdges d = (takeOverUsers fwd g.fresh n1 n2 d).insert g.fresh) ∧
      (¬ g.LeadsTo n1 n2 d → g'.forwardEdges d = takeOverUsers fwd g.fresh n1 n2 d) := by
    intro d
    have := editUsers_ok (fun l => List.insert_of_mem List.mem_insert_self) hInsert d
    rwa [hBwd] at this
  have hne1 : g.fresh ≠ n1 := fun hEq => hg.fresh_notMem (hEq ▸ h.n1_mem)
  have hne2 : g.fresh ≠ n2 := fun hEq => hg.fresh_notMem (hEq ▸ h.n2_mem)
  refine ⟨?_, ?_, ?_, fun d hLeads => ?_, fun d hd hd1 hd2 hNot => ?_⟩
  · rw [(hInserted _).2 hFresh, takeOverUsers, Function.update_of_ne hne2,
      Function.update_of_ne hne1, Function.update_self, (hErased n1).2 hFirst,
      (hErased n2).2 hSecond]
  · rw [(hInserted _).2 hFirst, takeOverUsers, Function.update_of_ne h.ne, Function.update_self]
  · rw [(hInserted _).2 hSecond, takeOverUsers, Function.update_self]
  · have hd : d ≠ g.fresh := fun hEq => hFresh (hEq ▸ hLeads)
    rw [(hInserted d).1 hLeads, takeOverUsers, Function.update_of_ne hLeads.2.1,
      Function.update_of_ne hLeads.1, Function.update_of_ne hd, (hErased d).1 hLeads]
  · rw [(hInserted d).2 hNot, takeOverUsers, Function.update_of_ne hd2, Function.update_of_ne hd1,
      Function.update_of_ne hd, (hErased d).2 hNot]

/-- The edges after a merge. -/
theorem Fusion.edge_iff (h : Fusion g n1 n2 new) (hr : Replaced g g' n1 n2 new) {a b : Nat} :
    g'.Edge a b ↔
      (a = g.fresh ∧ b ≠ n1 ∧ b ≠ n2 ∧ (g.Edge n1 b ∨ g.Edge n2 b)) ∨
      (b = g.fresh ∧ g.LeadsTo n1 n2 a) ∨
      (a ≠ n1 ∧ a ≠ n2 ∧ b ≠ n1 ∧ b ≠ n2 ∧ g.Edge a b) := by
  have hg := h.coherent
  have hAfter := h.forwardAfter hr
  have hMem : ∀ {a b}, g.Edge a b → a ∈ g.nodes ∧ b ∈ g.nodes := fun hEdge =>
    ⟨((hg.forward_iff _ _).mp hEdge).1, ((hg.forward_iff _ _).mp hEdge).2.1⟩
  have hLoop : ∀ {a}, ¬ g.Edge a a := fun hEdge => h.acyclic _ (.single hEdge)
  -- out of the new node, out of the two it replaces, out of their predecessors, out of the rest
  by_cases ha : a = g.fresh
  · subst ha
    have hNo : ¬ g.LeadsTo n1 n2 g.fresh := by
      rintro ⟨-, -, hEdge | hEdge⟩
      · exact hg.fresh_notMem (hMem hEdge).1
      · exact hg.fresh_notMem (hMem hEdge).1
    have hNone : ∀ b, ¬ g.Edge g.fresh b := fun b hEdge => hg.fresh_notMem (hMem hEdge).1
    show b ∈ g'.forwardEdges g.fresh ↔ _
    rw [hAfter.fresh, List.mem_dedup, List.mem_append, List.mem_filter, List.mem_filter]
    simp only [decide_eq_true_eq, hNo, hNone, and_false, or_false, true_and]
    constructor
    · rintro (⟨hEdge, hne⟩ | ⟨hEdge, hne⟩)
      · exact ⟨fun hEq => hLoop (hEq ▸ hEdge), hne, Or.inl hEdge⟩
      · exact ⟨hne, fun hEq => hLoop (hEq ▸ hEdge), Or.inr hEdge⟩
    · rintro ⟨hb1, hb2, hEdge | hEdge⟩
      · exact Or.inl ⟨hEdge, hb2⟩
      · exact Or.inr ⟨hEdge, hb1⟩
  by_cases ha1 : a = n1
  · subst ha1
    have hNo : ¬ g.LeadsTo a n2 a := fun hLeads => hLeads.1 rfl
    show b ∈ g'.forwardEdges a ↔ _
    simp [hAfter.first, hNo, ha]
  by_cases ha2 : a = n2
  · subst ha2
    have hNo : ¬ g.LeadsTo n1 a a := fun hLeads => hLeads.2.1 rfl
    show b ∈ g'.forwardEdges a ↔ _
    simp [hAfter.second, hNo, ha]
  by_cases hLeads : g.LeadsTo n1 n2 a
  · show b ∈ g'.forwardEdges a ↔ _
    rw [hAfter.leading a hLeads, List.mem_insert_iff, discardBoth, List.mem_filter]
    simp only [ha, false_and, hLeads, and_true, false_or, ne_eq, ha1, not_false_eq_true, ha2,
      true_and, decide_eq_true_eq]
    refine or_congr_right ?_
    show g.Edge a b ∧ _ ↔ _
    tauto
  · show b ∈ g'.forwardEdges a ↔ _
    rw [hAfter.other a ha ha1 ha2 hLeads]
    simp only [ha, false_and, hLeads, and_false, false_or, ne_eq, ha1, not_false_eq_true, ha2,
      true_and]
    show g.Edge a b ↔ _
    constructor
    · intro hEdge
      refine ⟨fun hEq => ?_, fun hEq => ?_, hEdge⟩
      · exact hLeads ⟨ha1, ha2, Or.inl (hEq ▸ hEdge)⟩
      · exact hLeads ⟨ha1, ha2, Or.inr (hEq ▸ hEdge)⟩
    · exact fun hAll => hAll.2.2

/-- The edges are those of the graph in which the two nodes are one. -/
theorem Fusion.contracts (h : Fusion g n1 n2 new) (hr : Replaced g g' n1 n2 new) :
    Contracts g.Edge g'.Edge n1 n2 g.fresh := by
  have hg := h.coherent
  have hFresh : ∀ {a b}, g.Edge a b → a ≠ g.fresh ∧ b ≠ g.fresh := fun hEdge =>
    ⟨fun hEq => hg.fresh_notMem (hEq ▸ ((hg.forward_iff _ _).mp hEdge).1),
      fun hEq => hg.fresh_notMem (hEq ▸ ((hg.forward_iff _ _).mp hEdge).2.1)⟩
  refine ⟨fun x hEdge => ?_, fun x hEdge => ?_, fun x y hEdge hx hy => ?_⟩
  · rcases (h.edge_iff hr).mp hEdge with ⟨-, h1, h2, hOld⟩ | ⟨-, -, -, hOld⟩ | ⟨-, -, -, -, hOld⟩
    · refine ⟨?_, h1, h2, hOld⟩
      rcases hOld with hOld | hOld
      · exact (hFresh hOld).2
      · exact (hFresh hOld).2
    · rcases hOld with hOld | hOld
      · exact absurd rfl (hFresh hOld).1
      · exact absurd rfl (hFresh hOld).1
    · exact absurd rfl (hFresh hOld).1
  · rcases (h.edge_iff hr).mp hEdge with ⟨-, -, -, hOld⟩ | ⟨-, -, -, hOld⟩ | ⟨-, -, -, -, hOld⟩
    · rcases hOld with hOld | hOld
      · exact absurd rfl (hFresh hOld).2
      · exact absurd rfl (hFresh hOld).2
    · exact hOld
    · exact absurd rfl (hFresh hOld).2
  · rcases (h.edge_iff hr).mp hEdge with ⟨hEq, -⟩ | ⟨hEq, -⟩ | ⟨-, -, -, -, hOld⟩
    · exact absurd hEq hx
    · exact absurd hEq hy
    · exact hOld

/-- No edge between other nodes is lost. -/
theorem Fusion.keepsEdges (h : Fusion g n1 n2 new) (hr : Replaced g g' n1 n2 new) :
    KeepsEdges g.Edge g'.Edge n1 n2 g.fresh where
  edge_from := fun _ hEdge hx1 hx2 => (h.edge_iff hr).mpr (Or.inl ⟨rfl, hx1, hx2, hEdge⟩)
  edge_to := fun _ hEdge hx1 hx2 =>
    (h.edge_iff hr).mpr (Or.inr (Or.inl ⟨rfl, hx1, hx2, hEdge⟩))
  edge_other := fun _ _ hEdge hx1 hx2 hy1 hy2 =>
    (h.edge_iff hr).mpr (Or.inr (Or.inr ⟨hx1, hx2, hy1, hy2, hEdge⟩))

/-- A merge leaves the graph acyclic exactly when there is no detour between the
two nodes. -/
theorem Fusion.acyclic_iff (h : Fusion g n1 n2 new) (hr : Replaced g g' n1 n2 new) :
    Acyclic g'.Edge ↔ NoDetour g.Edge n1 n2 ∧ NoDetour g.Edge n2 n1 :=
  h.acyclic.contract_iff (h.contracts hr) (h.keepsEdges hr)

end Fusion

-- ---------------------------------------------------------------------------
-- Merges return
-- ---------------------------------------------------------------------------

section Returns

variable {g : DFG} {n1 n2 : Nat}

/-- The inputs of both nodes, without what one of them gives to the other. -/
theorem mem_computeMergedInputs {ord : Orders} {m : Nat} :
    m ∈ g.computeMergedInputs ord n1 n2 ↔ (m ∈ (g.mlmi n1).inputs ∨ m ∈ (g.mlmi n2).inputs) ∧
      m ∉ (g.mlmi n1).outputs ∧ m ∉ (g.mlmi n2).outputs := by
  simp [computeMergedInputs, mergedInputSet, ord.mem_list]

/-- No instruction is in both nodes. -/
theorem Schedulable.merged_nodup (h : g.Schedulable) (hn1 : n1 ∈ g.nodes) (hn2 : n2 ∈ g.nodes)
    (hne : n1 ≠ n2) : ((g.mlmi n1).seq ++ (g.mlmi n2).seq).Nodup := by
  obtain ⟨hEach, hApart⟩ := List.nodup_flatMap.mp h.instrs_nodup
  have : Std.Symm (Function.onFun List.Disjoint fun n => (g.mlmi n).seq) :=
    ⟨fun _ _ hab => hab.symm⟩
  exact (hEach n1 hn1).append (hEach n2 hn2) (hApart.forall hn1 hn2 hne)

/-- Without an edge from `b` back to `a`, the instructions of `a` can stand
before those of `b`. -/
theorem Schedulable.scheduled_append (h : g.Schedulable) {a b : Nat} (ha : a ∈ g.nodes)
    (hb : b ∈ g.nodes) (hBack : ¬ g.Edge b a) {inputs : List Nat}
    (hInputs : ∀ m, (m ∈ (g.mlmi a).inputs ∨ m ∈ (g.mlmi b).inputs) → m ∉ (g.mlmi a).outputs →
      m ∉ (g.mlmi b).outputs → m ∈ inputs) :
    Scheduled inputs ((g.mlmi a).seq ++ (g.mlmi b).seq) := by
  have hLoop : ∀ n ∈ g.nodes, ∀ m ∈ (g.mlmi n).inputs, m ∉ (g.mlmi n).outputs :=
    fun n hn m hm hOut =>
    h.acyclic n (.single ((h.forward_iff n n).mpr ⟨hn, hn, m, hOut, hm⟩))
  refine Scheduled.append ((h.scheduled a ha).mono fun m hm => ?_)
    ((h.scheduled b hb).mono fun m hm => ?_)
  · exact hInputs m (Or.inl hm) (hLoop a ha m hm)
      fun hOut => hBack ((h.forward_iff b a).mpr ⟨hb, ha, m, hOut, hm⟩)
  · rw [List.mem_append]
    by_cases hOut : m ∈ (g.mlmi a).outputs
    · exact Or.inr (h.outputs_sub a ha m hOut)
    · exact Or.inl (hInputs m (Or.inr hm) hOut (hLoop b hb m hm))

/-- Some order of the instructions of two nodes is possible: the node that does
not depend on the other goes first. -/
theorem Schedulable.exists_schedule (h : g.Schedulable) (hn1 : n1 ∈ g.nodes)
    (hn2 : n2 ∈ g.nodes) (ord : Orders) :
    ∃ seq : List HLI, seq.Perm ((g.mlmi n1).seq ++ (g.mlmi n2).seq) ∧
      Scheduled (g.computeMergedInputs ord n1 n2) seq := by
  by_cases hBack : g.Edge n2 n1
  · refine ⟨(g.mlmi n2).seq ++ (g.mlmi n1).seq, List.perm_append_comm,
      h.scheduled_append hn2 hn1 (fun hEdge => ?_) fun m hIn h2 h1 => ?_⟩
    · exact h.acyclic n1 (.head hEdge (.single hBack))
    · exact mem_computeMergedInputs.mpr ⟨hIn.symm, h1, h2⟩
  · exact ⟨_, List.Perm.refl _, h.scheduled_append hn1 hn2 hBack fun m hIn h1 h2 =>
      mem_computeMergedInputs.mpr ⟨hIn, h1, h2⟩⟩

/-- The instructions of two nodes are put in an order that can be run. -/
theorem Schedulable.mergedInstrs (h : g.Schedulable) (hn1 : n1 ∈ g.nodes) (hn2 : n2 ∈ g.nodes)
    (hne : n1 ≠ n2) (ord ord' : Orders) :
    ∃ mls, Returns (fun fuel =>
        g.computeMergedInstrs ord fuel n1 n2 (g.computeMergedInputs ord' n1 n2)) mls ∧
      mls.Perm ((g.mlmi n1).seq ++ (g.mlmi n2).seq) ∧
      Scheduled (g.computeMergedInputs ord' n1 n2) mls := by
  have hDedup := (h.merged_nodup hn1 hn2 hne).dedup
  obtain ⟨seq, hPerm, hSched⟩ := h.exists_schedule hn1 hn2 ord'
  obtain ⟨mls, N, hN⟩ := DFG.computeMergedInstrs_returns ord (hDedup.symm ▸ hPerm) hSched
  obtain ⟨hMls, hOrder⟩ := computeMergedInstrs_ok (hN N le_rfl)
  exact ⟨mls, ⟨N, hN⟩, hDedup ▸ hMls, hOrder⟩

/-- **Merged instructions can be scheduled**, whatever stands between the two nodes: all of
them end up in the result, once, and behind the definitions of what they read. -/
theorem Schedulable.computeMergedInstrs_complete (h : g.Schedulable) (ord ord' : Orders) :
    ∀ n1 ∈ g.nodes, ∀ n2 ∈ g.nodes, n1 ≠ n2 → ∃ mls,
      Returns (fun fuel =>
        g.computeMergedInstrs ord fuel n1 n2 (g.computeMergedInputs ord' n1 n2)) mls ∧
      mls.Perm ((g.mlmi n1).seq ++ (g.mlmi n2).seq) ∧
      ∀ before i after, mls = before ++ i :: after → ∀ m ∈ i.memInputs,
        m ∈ g.computeMergedInputs ord' n1 n2 ∨ ∃ j ∈ before, j.dst = m := by
  intro n1 hn1 n2 hn2 hne
  obtain ⟨mls, hRet, hPerm, hSched⟩ := h.mergedInstrs hn1 hn2 hne ord ord'
  refine ⟨mls, hRet, hPerm, fun before i after hSplit m hm => ?_⟩
  exact (hSched before i after hSplit m hm).imp_right List.mem_map.mp

/-- Cells that are defined once are defined by instructions that stand there once. -/
theorem Coherent.schedulable (h : g.Coherent) (hAcyclic : Acyclic g.Edge) : g.Schedulable := by
  refine ⟨h.scheduled, List.nodup_flatMap.mpr ⟨fun n hn => (h.seq_nodup n hn).of_map, ?_⟩,
    h.outputs_sub, h.forward_iff, hAcyclic⟩
  refine h.nodes_nodup.pairwise_of_forall_ne fun a ha b hb hne i hia hib => hne ?_
  exact h.def_unique ha hb (List.mem_map_of_mem hia) (List.mem_map_of_mem hib)

/-- The outputs can be computed: an edge is known for each of them. -/
theorem Coherent.computeMergedOutputs_returns (h : g.Coherent) (hn1 : n1 ∈ g.nodes)
    (hn2 : n2 ∈ g.nodes) (ord : Orders) :
    ∃ outputs, g.computeMergedOutputs ord n1 n2 = .ok outputs :=
  DFG.computeMergedOutputs_returns ord
    (fun o hOut hIn => (h.forward_iff n1 n2).mpr ⟨hn1, hn2, o, hOut, hIn⟩)
    (fun o hOut hIn => (h.forward_iff n2 n1).mpr ⟨hn2, hn1, o, hOut, hIn⟩)

/-- What a node made of the merged instructions defines and reads. -/
theorem Coherent.fusion (h : g.Coherent) (hAcyclic : Acyclic g.Edge) (hn1 : n1 ∈ g.nodes)
    (hn2 : n2 ∈ g.nodes) (hne : n1 ≠ n2) {new : MLMI}
    (hPerm : new.seq.Perm ((g.mlmi n1).seq ++ (g.mlmi n2).seq)) : Fusion g n1 n2 new := by
  have hDefs : ∀ m, m ∈ new.getDefs ↔ m ∈ (g.mlmi n1).getDefs ∨ m ∈ (g.mlmi n2).getDefs := by
    intro m
    unfold MLMI.getDefs defs
    rw [(hPerm.map Instr.dst).mem_iff, List.map_append, List.mem_append]
  refine ⟨h, hAcyclic, hn1, hn2, hne, hDefs, fun m => ?_⟩
  have hReads : m ∈ reads new.seq ↔ m ∈ reads (g.mlmi n1).seq ∨ m ∈ reads (g.mlmi n2).seq := by
    rw [← List.mem_append, ← reads_append]
    exact (hPerm.flatMap_right _).mem_iff
  rw [mem_getUsed, hReads, h.inputs_iff n1 hn1, h.inputs_iff n2 hn2, mem_getUsed, mem_getUsed,
    hDefs]
  tauto

/-- Every operand the new node reads has a definition, before and after. -/
theorem Fusion.replaceNodes_returns {new : MLMI} (h : Fusion g n1 n2 new) :
    ∃ r, g.replaceNodes n1 n2 new = .ok r := by
  have hg := h.coherent
  have hn2 : n2 ∈ g.nodes.erase n1 := hg.nodes_nodup.mem_erase_iff.mpr ⟨h.ne.symm, h.n2_mem⟩
  have hDefined : ∀ src ∈ new.getUsed, src ∉ g.progInputs → (g.backwardEdges src).isSome := by
    intro src hSrc hNot
    rcases ((h.used_iff src).mp hSrc).1 with hIn | hIn
    · exact hg.defined h.n1_mem hIn hNot
    · exact hg.defined h.n2_mem hIn hNot
  obtain ⟨fwd, hFwd⟩ := editUsers_returns (discardBoth n1 n2) g.forwardEdges hDefined
  have hDefined' : ∀ src ∈ new.getUsed, src ∉ g.progInputs →
      (if src ∈ new.getDefs then some g.fresh else g.backwardEdges src).isSome := by
    intro src hSrc hNot
    rw [if_neg (mem_getUsed.mp hSrc).2]
    exact hDefined src hSrc hNot
  obtain ⟨fwd', hFwd'⟩ := editUsers_returns (fun users => users.insert g.fresh)
    (takeOverUsers fwd g.fresh n1 n2) hDefined'
  exact ⟨_, bind_eq_ok.mpr ⟨_, removeNode_eq_ok.mpr ⟨h.n1_mem, rfl⟩,
    bind_eq_ok.mpr ⟨_, removeNode_eq_ok.mpr ⟨hn2, rfl⟩,
    bind_eq_ok.mpr ⟨fwd, hFwd, bind_eq_ok.mpr ⟨fwd', hFwd', rfl⟩⟩⟩⟩⟩

/-- The sequences `merge_nodes` is given: none, or one that
`compute_merged_instrs` returned for the two nodes. -/
def MergedSeq (g : DFG) (n1 n2 : Nat) : Option (List HLI) → Prop
  | none => True
  | some mls => ∃ ord ord' fuel,
    g.computeMergedInstrs ord fuel n1 n2 (g.computeMergedInputs ord' n1 n2) = .ok mls

/-- **A merge returns**, and contracts the two nodes into one. -/
theorem Coherent.mergeNodes_returns (h : g.Coherent) (hAcyclic : Acyclic g.Edge)
    (hn1 : n1 ∈ g.nodes) (hn2 : n2 ∈ g.nodes) (hne : n1 ≠ n2) (ord : Orders)
    {merged : Option (List HLI)} (hMerged : g.MergedSeq n1 n2 merged) :
    ∃ k g', Returns (fun fuel => g.mergeNodes ord fuel n1 n2 merged) (k, g') ∧
      ∃ new, Fusion g n1 n2 new ∧ Replaced g g' n1 n2 new := by
  -- either way the new node has a permutation of the instructions of the two
  have hSeq : ∃ mls, Returns (fun fuel => match merged with
        | none => g.computeMergedInstrs (ord.fork 2) fuel n1 n2
            (g.computeMergedInputs (ord.fork 0) n1 n2)
        | some mls => .ok mls) mls ∧
      mls.Perm ((g.mlmi n1).seq ++ (g.mlmi n2).seq) := by
    have hSchedulable := h.schedulable hAcyclic
    cases merged with
    | none =>
      obtain ⟨mls, hRet, hPerm, -⟩ := hSchedulable.mergedInstrs hn1 hn2 hne (ord.fork 2)
        (ord.fork 0)
      exact ⟨mls, hRet, hPerm⟩
    | some mls =>
      obtain ⟨ord₁, ord₂, fuel, hInstrs⟩ := hMerged
      have hDedup := (hSchedulable.merged_nodup hn1 hn2 hne).dedup
      exact ⟨mls, Returns.of_eq fun _ => rfl, hDedup ▸ (computeMergedInstrs_ok hInstrs).1⟩
  obtain ⟨mls, hRet, hPerm⟩ := hSeq
  obtain ⟨outputs, hOutputs⟩ := h.computeMergedOutputs_returns hn1 hn2 (ord.fork 1)
  set new : MLMI := ⟨mls, g.computeMergedInputs (ord.fork 0) n1 n2, outputs⟩
  have hFusion : Fusion g n1 n2 new := h.fusion hAcyclic hn1 hn2 hne hPerm
  obtain ⟨⟨k, g'⟩, hReplace⟩ := hFusion.replaceNodes_returns
  refine ⟨k, g', ?_, new, hFusion, (replaceNodes_ok hReplace).2⟩
  have hBoth := hRet.bind (g := fun _ mls => g.replaceNodes n1 n2
    ⟨mls, g.computeMergedInputs (ord.fork 0) n1 n2, outputs⟩) (Returns.of_eq fun _ => hReplace)
  refine hBoth.congr fun fuel => ?_
  rw [mergeNodes, hOutputs]
  cases merged <;> rfl

end Returns

-- ---------------------------------------------------------------------------
-- The guard
-- ---------------------------------------------------------------------------

section Guard

open Relation

variable {g : DFG} {ord : Orders} {nstart nend : Nat}

/-- Every node a traversal knows of lies behind a successor it started from. -/
def Behind (g : DFG) (nstart nend : Nat) (st : List Nat × List Nat) : Prop :=
  ∀ x ∈ st.1, ∃ s, g.Edge nstart s ∧ s ≠ nend ∧ ReflTransGen g.Edge s x

/-- The node that is taken from the worklist is behind the start, and so are the others. -/
theorem Behind.pop {st : List Nat × List Nat} {toVisit : List Nat} {n : Nat}
    (h : Behind g nstart nend st) (hPerm : (n :: toVisit).Perm st.1) :
    (∃ s, g.Edge nstart s ∧ s ≠ nend ∧ ReflTransGen g.Edge s n) ∧
      ∀ x ∈ toVisit, ∃ s, g.Edge nstart s ∧ s ≠ nend ∧ ReflTransGen g.Edge s x :=
  ⟨h n (hPerm.mem_iff.mp List.mem_cons_self),
    fun x hx => h x (hPerm.mem_iff.mp (List.mem_cons_of_mem n hx))⟩

/-- A step of the search visits nodes behind the start only. -/
theorem Behind.step {st st' : List Nat × List Nat} {i : Nat} (h : Behind g nstart nend st)
    (hStep : g.visitStep ord nend i st = .ok (.inl st')) : Behind g nstart nend st' := by
  rw [visitStep] at hStep
  split at hStep
  · cases hStep
  next n toVisit hPop =>
  obtain ⟨⟨s, hEdge, hne, hPath⟩, hRest⟩ := h.pop (SetOrder.pop_perm hPop)
  split at hStep
  · cases hStep
    exact hRest
  split at hStep
  · cases hStep
  cases hStep
  intro x hx
  rcases mem_foldl_insert.mp hx with hNext | hx
  · exact ⟨s, hEdge, hne, hPath.tail hNext⟩
  · exact hRest x hx

/-- A traversal answers `False` only at `nend` itself, reached on a detour. -/
theorem notReached_false {fuel : Nat} (h : g.notReached ord fuel nstart nend = .ok false) :
    ¬ NoDetour g.Edge nstart nend := by
  refine loop_ok (P := Behind g nstart nend)
    (Q := fun b => b = false → ¬ NoDetour g.Edge nstart nend) ?_ ?_ ?_ h rfl
  · intro i st st' hInv hStep
    exact hInv.step hStep
  · intro i st b hInv hStep hb hNo
    rw [visitStep] at hStep
    split at hStep
    · cases hStep
      cases hb
    next n toVisit hPop =>
    split at hStep
    · cases hStep
    split at hStep
    · next hEnd =>
      obtain ⟨⟨s, hEdge, hne, hPath⟩, -⟩ := hInv.pop (SetOrder.pop_perm hPop)
      exact hNo s hEdge hne (hEnd ▸ hPath)
    · cases hStep
  · intro x hx
    obtain ⟨hEdge, hne⟩ := List.mem_filter.mp hx
    exact ⟨x, hEdge, by simpa using hne, .refl⟩

/-- **A traversal finds exactly the detours.** -/
theorem notReached_iff {fuel : Nat} {b : Bool} (h : g.notReached ord fuel nstart nend = .ok b) :
    b = true ↔ NoDetour g.Edge nstart nend := by
  cases b with
  | true => exact iff_of_true rfl (notReached_ok h)
  | false => exact iff_of_false Bool.false_ne_true (notReached_false h)

/-- The answer is yes if there is no detour in either direction. -/
theorem checkDominationForMerge_iff {fuel : Nat} {n1 n2 : Nat} {b : Bool}
    (h : g.checkDominationForMerge ord fuel n1 n2 = .ok b) :
    b = true ↔ NoDetour g.Edge n1 n2 ∧ NoDetour g.Edge n2 n1 := by
  obtain ⟨first, hFirst, h⟩ := bind_eq_ok.mp h
  have hFirst := notReached_iff hFirst
  cases first with
  | false =>
    cases h
    exact iff_of_false Bool.false_ne_true fun hBoth => Bool.false_ne_true (hFirst.mpr hBoth.1)
  | true => rw [notReached_iff h, and_iff_right (hFirst.mp rfl)]

/-- **The guard is exact.** On a coherent acyclic graph the check returns, and it
accepts two nodes exactly when the graph with the two merged is acyclic. Merging
a node with its only successor never closes a cycle. -/
theorem checkDominationForMerge_exact (hg : g.Coherent) (hAcyclic : Acyclic g.Edge)
    (ord ord' : Orders) :
    (∀ n1 ∈ g.nodes, ∀ n2 ∈ g.nodes, n1 ≠ n2 → ∀ merged, g.MergedSeq n1 n2 merged →
      ∃ b k g', Returns (fun fuel => g.checkDominationForMerge ord fuel n1 n2) b ∧
        Returns (fun fuel => g.mergeNodes ord' fuel n1 n2 merged) (k, g') ∧
        (b = true ↔ Acyclic g'.Edge)) ∧
    ∀ n ∈ g.nodes, g.outputCount n = 1 → ∃ next, g.nextNodes n = [next] ∧
      ∀ merged, g.MergedSeq n next merged → ∃ k g',
        Returns (fun fuel => g.mergeNodes ord' fuel n next merged) (k, g') ∧ Acyclic g'.Edge := by
  constructor
  · intro n1 hn1 n2 hn2 hne merged hMerged
    obtain ⟨b, hCheck⟩ : ∃ b, Returns (fun fuel => g.checkDominationForMerge ord fuel n1 n2) b :=
      checkDominationForMerge_returns ord fun x y hEdge => ((hg.forward_iff x y).mp hEdge).2.1
    obtain ⟨k, g', hRet, new, hFusion, hr⟩ :=
      hg.mergeNodes_returns hAcyclic hn1 hn2 hne ord' hMerged
    refine ⟨b, k, g', hCheck, hRet, ?_⟩
    obtain ⟨N, hN⟩ := hCheck
    rw [hFusion.acyclic_iff hr, checkDominationForMerge_iff (hN N le_rfl)]
  · intro n hn hCount
    obtain ⟨next, hNext⟩ := List.length_eq_one_iff.mp hCount
    have hEdge : g.Edge n next := by
      show next ∈ g.nextNodes n
      simp [nextNodes, hNext]
    refine ⟨next, hNext, fun merged hMerged => ?_⟩
    have hne : n ≠ next := by
      rintro rfl
      exact hAcyclic n (.single hEdge)
    obtain ⟨k, g', hRet, new, hFusion, hr⟩ := hg.mergeNodes_returns hAcyclic hn
      ((hg.forward_iff n next).mp hEdge).2.1 hne ord' hMerged
    refine ⟨k, g', hRet, (hFusion.acyclic_iff hr).mpr ⟨noDetour_of_unique fun x hx => ?_,
      noDetour_of_edge hAcyclic hEdge⟩⟩
    have hx' : x ∈ g.forwardEdges n := hx
    rw [hNext] at hx'
    exact List.mem_singleton.mp hx'

end Guard

/-- `m1 = m0 + m0; m2 = m1 * m1; m3 = m1 + m2`: node 1 is a detour from node 0 to
node 2. -/
def detourGraph : DFG where
  nodes := [0, 1, 2]
  mlmi := fun n =>
    if n = 0 then
      ⟨[{ opcode := .ADD, dst := 1, src1 := some (.loc 0), src2 := some (.loc 0) }], [0], [1]⟩
    else if n = 1 then
      ⟨[{ opcode := .MUL, dst := 2, src1 := some (.loc 1), src2 := some (.loc 1) }], [1], [2]⟩
    else
      ⟨[{ opcode := .ADD, dst := 3, src1 := some (.loc 1), src2 := some (.loc 2) }], [1, 2], [3]⟩
  fresh := 3
  backwardEdges := fun m => if m = 1 then some 0 else if m = 2 then some 1 else
    if m = 3 then some 2 else none
  forwardEdges := fun n => if n = 0 then [1, 2] else if n = 1 then [2] else []
  progInputs := [0]
  progOutputs := [3]
  memoryCount := 4

/-- The example is a graph that the clusterizer can have. -/
theorem detourGraph_coherent : detourGraph.Coherent where
  nodes_nodup := by decide
  nodes_lt := by decide
  seq_nodup := by decide
  scheduled := by
    intro n hn
    simp only [detourGraph, List.mem_cons, List.not_mem_nil, or_false] at hn
    rcases hn with rfl | rfl | rfl <;> exact scheduled_cons.mpr ⟨by decide, Scheduled.nil _⟩
  inputs_iff := by
    intro n hn m
    simp only [detourGraph, List.mem_cons, List.not_mem_nil, or_false] at hn
    rcases hn with rfl | rfl | rfl <;>
      simp [detourGraph, MLMI.getUsed, getUsed, reads, defs, Instr.memInputs, Instr.srcs,
        Operand.loc?]
  outputs_sub := by decide
  inputs_from := by decide
  defs_fresh := by decide
  backward_iff := by
    intro m n
    simp only [detourGraph, List.mem_cons, List.not_mem_nil, or_false]
    constructor
    · intro h
      split_ifs at h with h1 h2 h3 <;> cases h <;> simp [MLMI.getDefs, defs, *]
    · rintro ⟨rfl | rfl | rfl, h⟩ <;> simp_all [MLMI.getDefs, defs]
  forward_iff := by
    intro a b
    simp only [Edge, detourGraph, List.mem_cons, List.not_mem_nil, or_false]
    constructor
    · intro h
      split_ifs at h with h0 h1 <;> simp at h
      · rcases h with rfl | rfl <;> simp [h0]
      · simp [h1, h]
    · rintro ⟨rfl | rfl | rfl, rfl | rfl | rfl, m, hOut, hIn⟩ <;> simp_all

/-- It has no cycle. -/
theorem detourGraph_acyclic : Acyclic detourGraph.Edge := by
  refine acyclic_of_lt (f := id) fun a b h => ?_
  simp only [Edge, detourGraph] at h
  split_ifs at h <;> simp at h
  · simp only [id_eq]
    omega
  · simp only [id_eq]
    omega

/-- The guard on the pair with a detour, and the node with one successor. -/
theorem checkDominationForMerge_exact_detourGraph :
    (∃ b k g', Returns (fun fuel => detourGraph.checkDominationForMerge storedOrders fuel 0 2) b ∧
      Returns (fun fuel => detourGraph.mergeNodes storedOrders fuel 0 2 none) (k, g') ∧
      (b = true ↔ Acyclic g'.Edge)) ∧
    ∃ next, detourGraph.nextNodes 1 = [next] ∧ ∃ k g',
      Returns (fun fuel => detourGraph.mergeNodes storedOrders fuel 1 next none) (k, g') ∧
        Acyclic g'.Edge := by
  obtain ⟨hPair, hOne⟩ := checkDominationForMerge_exact detourGraph_coherent detourGraph_acyclic
    storedOrders storedOrders
  refine ⟨hPair 0 (by decide) 2 (by decide) (by decide) none trivial, ?_⟩
  obtain ⟨next, hNext, hMerge⟩ := hOne 1 (by decide) (by decide)
  exact ⟨next, hNext, hMerge none trivial⟩

/-- The first and the last node are linked through the one between them as well. -/
theorem computeMergedInstrs_complete_detourGraph :
    ∃ mls, Returns (fun fuel => detourGraph.computeMergedInstrs storedOrders fuel 0 2
        (detourGraph.computeMergedInputs storedOrders 0 2)) mls ∧
      mls.Perm ((detourGraph.mlmi 0).seq ++ (detourGraph.mlmi 2).seq) := by
  obtain ⟨mls, hRet, hPerm, -⟩ := (detourGraph_coherent.schedulable
    detourGraph_acyclic).computeMergedInstrs_complete storedOrders storedOrders 0 (by decide) 2
    (by decide) (by decide)
  exact ⟨mls, hRet, hPerm⟩

end DFG

end Obscure
