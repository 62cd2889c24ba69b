import Obscure.Clusterization.Soundness
import Obscure.Universalization.Editing

/-!
# OBSCURE — the invariant of the universalizer

A graph is good when its nodes are in SSA together, each of them lists what it
reads, and `backward_edges` names the node of every operand. Forward edges are
exact except at nodes whose inputs are about to be replaced. Every edit the
passes make keeps a graph good and adds to its meaning: a store in which the
instructions of the old graph hold extends to the new one, and in the new one the
instructions of the old one hold.

* `Good`, `Exact`   — the two parts of the invariant;
* `Models`, `Extends` — the meaning of a graph, and a graph that means the same.
-/

namespace Obscure

open Lib

/-- A copy reads its source, unless that is a constant. -/
theorem mem_memInputs_mov {m dst : Nat} {src : Operand Nat} :
    m ∈ (mov dst src).memInputs ↔ src = .loc m := by
  simp [mem_memInputs, mov]

/-- Renaming the sources of a sequence. -/
theorem Scheduled.rename {inputs inputs' : List Nat} {seq : List HLI} (h : Scheduled inputs seq)
    {f : Nat → Nat} (hIn : ∀ m ∈ inputs, f m ∈ inputs') (hDefs : ∀ m ∈ defs seq, f m = m) :
    Scheduled inputs' (seq.map (Instr.rename f id)) := by
  intro pre i post hSplit m hm
  obtain ⟨pre₀, rest, rfl, rfl, hRest⟩ := List.map_eq_append_iff.mp hSplit
  obtain ⟨i₀, post₀, rfl, rfl, rfl⟩ := List.map_eq_cons_iff.mp hRest
  obtain ⟨k, hk, rfl⟩ := mem_memInputs_rename.mp hm
  rcases h pre₀ i₀ post₀ rfl k hk with hInput | hPre
  · exact Or.inl (hIn k hInput)
  · rw [hDefs k (by simp [hPre])]
    refine Or.inr ?_
    rw [defs, List.map_map]
    exact hPre

/-- Renaming what is read changes no definition. -/
theorem defs_map_rename {f : Nat → Nat} (seq : List HLI) :
    defs (seq.map (Instr.rename f id)) = defs seq := by
  rw [defs, List.map_map]
  rfl

namespace DFG

-- ---------------------------------------------------------------------------
-- Good graphs
-- ---------------------------------------------------------------------------

/-- The operand is there for every node to read. -/
def Given (g : DFG) (m : Nat) : Prop :=
  m ∈ g.progInputs ∨ ∃ a ∈ g.nodes, m ∈ (g.mlmi a).outputs

structure Good (g : DFG) : Prop where
  nodes_nodup : g.nodes.Nodup
  nodes_lt : ∀ n ∈ g.nodes, n < g.fresh
  seq_nodup : ∀ n ∈ g.nodes, (g.mlmi n).getDefs.Nodup
  outputs_nodup : ∀ n ∈ g.nodes, (g.mlmi n).outputs.Nodup
  outputs_sub : ∀ n ∈ g.nodes, ∀ m ∈ (g.mlmi n).outputs, m ∈ (g.mlmi n).getDefs
  scheduled : ∀ n ∈ g.nodes, Scheduled (g.mlmi n).inputs (g.mlmi n).seq
  inputs_from : ∀ n ∈ g.nodes, ∀ m ∈ (g.mlmi n).inputs, g.Given m
  backward_iff : ∀ m n, g.backwardEdges m = some n ↔ n ∈ g.nodes ∧ m ∈ (g.mlmi n).getDefs
  defs_lt : ∀ n ∈ g.nodes, ∀ m ∈ (g.mlmi n).getDefs, m < g.memoryCount
  progInputs_nodup : g.progInputs.Nodup
  progInputs_lt : ∀ m ∈ g.progInputs, m < g.memoryCount
  progInputs_kept : ∀ n ∈ g.nodes, ∀ m ∈ (g.mlmi n).getDefs, m ∉ g.progInputs
  progOutputs_from : ∀ m ∈ g.progOutputs, g.Given m

section Facts

variable {g : DFG} {n m : Nat}

/-- Locations that are given have been handed out. -/
theorem Good.given_lt (h : g.Good) (hm : g.Given m) : m < g.memoryCount := by
  rcases hm with hm | ⟨a, ha, hm⟩
  · exact h.progInputs_lt m hm
  · exact h.defs_lt a ha m (h.outputs_sub a ha m hm)

theorem Good.inputs_lt (h : g.Good) (hn : n ∈ g.nodes) (hm : m ∈ (g.mlmi n).inputs) :
    m < g.memoryCount :=
  h.given_lt (h.inputs_from n hn m hm)

/-- What an instruction reads is an input of its node, or defined in the node. -/
theorem Good.reads_cases (h : g.Good) (hn : n ∈ g.nodes) {i : HLI} (hi : i ∈ (g.mlmi n).seq)
    (hm : m ∈ i.memInputs) : m ∈ (g.mlmi n).inputs ∨ m ∈ (g.mlmi n).getDefs := by
  obtain ⟨pre, post, hSplit⟩ := List.append_of_mem hi
  refine (h.scheduled n hn pre i post hSplit m hm).imp_right fun hPre => ?_
  rw [MLMI.getDefs, hSplit, defs_append]
  exact List.mem_append_left _ hPre

/-- So has everything that an instruction reads. -/
theorem Good.reads_lt (h : g.Good) (hn : n ∈ g.nodes) {i : HLI} (hi : i ∈ (g.mlmi n).seq)
    (hm : m ∈ i.memInputs) : m < g.memoryCount := by
  rcases h.reads_cases hn hi hm with hIn | hDef
  · exact h.inputs_lt hn hIn
  · exact h.defs_lt n hn m hDef

/-- No operand is defined in two nodes. -/
theorem Good.def_unique (h : g.Good) {a b : Nat} (ha : a ∈ g.nodes) (hb : b ∈ g.nodes)
    (hm : m ∈ (g.mlmi a).getDefs) (hm' : m ∈ (g.mlmi b).getDefs) : a = b := by
  have hA := (h.backward_iff m a).mpr ⟨ha, hm⟩
  have hB := (h.backward_iff m b).mpr ⟨hb, hm'⟩
  exact Option.some.inj (hA.symm.trans hB)

/-- A location is an output of one node. -/
theorem Good.output_unique (h : g.Good) {a b : Nat} (ha : a ∈ g.nodes) (hb : b ∈ g.nodes)
    (hm : m ∈ (g.mlmi a).outputs) (hm' : m ∈ (g.mlmi b).outputs) : a = b :=
  h.def_unique ha hb (h.outputs_sub a ha m hm) (h.outputs_sub b hb m hm')

/-- `backward_edges` at an output. -/
theorem Good.defNode_output (h : g.Good) (hn : n ∈ g.nodes) (hm : m ∈ (g.mlmi n).outputs) :
    g.defNode m = .ok n := by
  rw [defNode, (h.backward_iff m n).mpr ⟨hn, h.outputs_sub n hn m hm⟩]

/-- The next node number is new. -/
theorem Good.fresh_not_mem (h : g.Good) : g.fresh ∉ g.nodes := fun hMem =>
  absurd (h.nodes_lt _ hMem) (lt_irrefl _)

end Facts

-- ---------------------------------------------------------------------------
-- Edits of one node
-- ---------------------------------------------------------------------------

/-- `g'` is `g` with `x` in the place of the object of `n`: a node that may define
new cells and have new outputs, but loses none. -/
structure Edited (g g' : DFG) (n : Nat) (x : MLMI) : Prop where
  nodes_eq : g'.nodes = g.nodes
  fresh_eq : g'.fresh = g.fresh
  mlmi_eq : g'.mlmi = Function.update g.mlmi n x
  progInputs_eq : g'.progInputs = g.progInputs
  progOutputs_eq : g'.progOutputs = g.progOutputs
  memoryCount_le : g.memoryCount ≤ g'.memoryCount
  backward_eq : ∀ m, g'.backwardEdges m = if m ∈ x.getDefs then some n else g.backwardEdges m
  defs_nodup : x.getDefs.Nodup
  defs_kept : ∀ m ∈ (g.mlmi n).getDefs, m ∈ x.getDefs
  defs_new : ∀ m ∈ x.getDefs, m ∈ (g.mlmi n).getDefs ∨ g.memoryCount ≤ m ∧ m < g'.memoryCount
  outputs_nodup : x.outputs.Nodup
  outputs_kept : ∀ m ∈ (g.mlmi n).outputs, m ∈ x.outputs
  outputs_sub : ∀ m ∈ x.outputs, m ∈ x.getDefs
  scheduled : Scheduled x.inputs x.seq
  inputs_from : ∀ m ∈ x.inputs, g.Given m

section Edits

variable {g g' : DFG} {n : Nat} {x : MLMI}

/-- The node has the new multi-instruction. -/
theorem Edited.mlmi_self (h : Edited g g' n x) : g'.mlmi n = x := by
  rw [h.mlmi_eq, Function.update_self]

/-- The other nodes keep theirs. -/
theorem Edited.mlmi_of_ne (h : Edited g g' n x) {a : Nat} (ha : a ≠ n) : g'.mlmi a = g.mlmi a := by
  rw [h.mlmi_eq, Function.update_of_ne ha]

/-- What was given still is. -/
theorem Edited.given (h : Edited g g' n x) {m : Nat} (hm : g.Given m) : g'.Given m := by
  rcases hm with hm | ⟨a, ha, hm⟩
  · exact Or.inl (h.progInputs_eq ▸ hm)
  · refine Or.inr ⟨a, h.nodes_eq ▸ ha, ?_⟩
    by_cases han : a = n
    · subst han
      rw [h.mlmi_self]
      exact h.outputs_kept m hm
    · rwa [h.mlmi_of_ne han]

/-- An edit of one node keeps a graph good. -/
theorem Good.edited (hg : g.Good) (hn : n ∈ g.nodes) (h : Edited g g' n x) : g'.Good := by
  -- other nodes are as before, and their cells are not those of `n`
  have hApart : ∀ a ∈ g.nodes, a ≠ n → ∀ m ∈ (g.mlmi a).getDefs, m ∉ x.getDefs := by
    intro a ha hne m hm hx
    rcases h.defs_new m hx with hOld | ⟨hLow, -⟩
    · exact hne (hg.def_unique ha hn hm hOld)
    · exact absurd (hg.defs_lt a ha m hm) (not_lt.mpr hLow)
  -- what is said of each node is to be shown of the new body, and known of the others
  have hEach : ∀ {P : Nat → MLMI → Prop}, P n x → (∀ a ∈ g.nodes, a ≠ n → P a (g.mlmi a)) →
      ∀ a ∈ g'.nodes, P a (g'.mlmi a) := by
    intro P hx hOther a ha
    rw [h.nodes_eq] at ha
    by_cases han : a = n
    · subst han
      rwa [h.mlmi_self]
    · rw [h.mlmi_of_ne han]
      exact hOther a ha han
  constructor
  · exact h.nodes_eq ▸ hg.nodes_nodup
  · intro a ha
    exact h.fresh_eq ▸ hg.nodes_lt a (h.nodes_eq ▸ ha)
  · exact hEach (P := fun _ y => y.getDefs.Nodup) h.defs_nodup fun a ha _ => hg.seq_nodup a ha
  · exact hEach (P := fun _ y => y.outputs.Nodup) h.outputs_nodup fun a ha _ =>
      hg.outputs_nodup a ha
  · exact hEach (P := fun _ y => ∀ m ∈ y.outputs, m ∈ y.getDefs) h.outputs_sub fun a ha _ =>
      hg.outputs_sub a ha
  · exact hEach (P := fun _ y => Scheduled y.inputs y.seq) h.scheduled fun a ha _ =>
      hg.scheduled a ha
  · exact hEach (P := fun _ y => ∀ m ∈ y.inputs, g'.Given m)
      (fun m hm => h.given (h.inputs_from m hm))
      fun a ha _ m hm => h.given (hg.inputs_from a ha m hm)
  -- the producer of a cell: `n` for the cells of the new body, and no other node
  · intro m a
    rw [h.backward_eq, h.nodes_eq]
    by_cases hx : m ∈ x.getDefs
    · rw [if_pos hx, Option.some.injEq]
      constructor
      · rintro rfl
        exact ⟨hn, h.mlmi_self ▸ hx⟩
      · rintro ⟨ha, hm⟩
        by_contra hne
        have hne' : a ≠ n := fun hEq => hne hEq.symm
        rw [h.mlmi_of_ne hne'] at hm
        exact hApart a ha hne' m hm hx
    · rw [if_neg hx, hg.backward_iff]
      refine and_congr_right fun ha => ?_
      by_cases han : a = n
      · subst han
        rw [h.mlmi_self]
        exact iff_of_false (fun hm => hx (h.defs_kept m hm)) hx
      · rw [h.mlmi_of_ne han]
  · refine hEach (P := fun _ y => ∀ m ∈ y.getDefs, m < g'.memoryCount) (fun m hm => ?_)
      fun a ha _ m hm => lt_of_lt_of_le (hg.defs_lt a ha m hm) h.memoryCount_le
    rcases h.defs_new m hm with hOld | ⟨-, hLt⟩
    · exact lt_of_lt_of_le (hg.defs_lt n hn m hOld) h.memoryCount_le
    · exact hLt
  · exact h.progInputs_eq ▸ hg.progInputs_nodup
  · intro m hm
    exact lt_of_lt_of_le (hg.progInputs_lt m (h.progInputs_eq ▸ hm)) h.memoryCount_le
  · rw [h.progInputs_eq]
    refine hEach (P := fun _ y => ∀ m ∈ y.getDefs, m ∉ g.progInputs) (fun m hm hIn => ?_)
      fun a ha _ => hg.progInputs_kept a ha
    -- a new cell is above all program inputs
    rcases h.defs_new m hm with hOld | ⟨hLow, -⟩
    · exact hg.progInputs_kept n hn m hOld hIn
    · exact absurd (hg.progInputs_lt m hIn) (not_lt.mpr hLow)
  · intro m hm
    rw [h.progOutputs_eq] at hm
    exact h.given (hg.progOutputs_from m hm)

end Edits

/-! ### The edits -/

section Steps

variable {g : DFG} {n m : Nat}

/-- An edit that leaves the definitions alone. -/
theorem Good.edited_of_defs {g' : DFG} {x : MLMI} (hg : g.Good) (hn : n ∈ g.nodes)
    (hSame : g' = { g with mlmi := Function.update g.mlmi n x, forwardEdges := g'.forwardEdges })
    (hDefs : x.getDefs = (g.mlmi n).getDefs) (hNodup : x.outputs.Nodup)
    (hKept : ∀ m ∈ (g.mlmi n).outputs, m ∈ x.outputs) (hSub : ∀ m ∈ x.outputs, m ∈ x.getDefs)
    (hSched : Scheduled x.inputs x.seq) (hIn : ∀ m ∈ x.inputs, g.Given m) : Edited g g' n x := by
  rw [hSame]
  refine ⟨rfl, rfl, rfl, rfl, rfl, le_rfl, fun m => ?_, hDefs ▸ hg.seq_nodup n hn,
    fun m hm => hDefs ▸ hm, fun m hm => Or.inl (hDefs ▸ hm), hNodup, hKept, hSub, hSched, hIn⟩
  by_cases hm : m ∈ x.getDefs
  · rw [if_pos hm]
    exact (hg.backward_iff m n).mpr ⟨hn, hDefs ▸ hm⟩
  · rw [if_neg hm]

/-- One more input is one edit. -/
theorem Good.takeInput_edited (hg : g.Good) (hn : n ∈ g.nodes) (hm : g.Given m) :
    Edited g (g.takeInput n m) n
      ⟨(g.mlmi n).seq, (g.mlmi n).inputs ++ [m], (g.mlmi n).outputs⟩ := by
  refine hg.edited_of_defs hn rfl rfl (hg.outputs_nodup n hn) (fun _ h => h)
    (hg.outputs_sub n hn) ((hg.scheduled n hn).mono fun k hk => List.mem_append_left _ hk) ?_
  intro k hk
  rcases List.mem_append.mp hk with hk | hk
  · exact hg.inputs_from n hn k hk
  · exact List.mem_singleton.mp hk ▸ hm

/-- One more output is one edit. -/
theorem Good.expose_edited (hg : g.Good) (hn : n ∈ g.nodes) (hDef : m ∈ (g.mlmi n).getDefs)
    (hNew : m ∉ (g.mlmi n).outputs) :
    Edited g (g.expose n m) n
      ⟨(g.mlmi n).seq, (g.mlmi n).inputs, (g.mlmi n).outputs ++ [m]⟩ := by
  refine ⟨rfl, rfl, rfl, rfl, rfl, le_rfl, fun k => ?_, hg.seq_nodup n hn, fun _ h => h,
    fun _ h => Or.inl h, ?_, fun k hk => List.mem_append_left _ hk, fun k hk => ?_,
    hg.scheduled n hn, hg.inputs_from n hn⟩
  · show Function.update g.backwardEdges m (some n) k = _
    by_cases hk : k = m
    · subst hk
      rw [Function.update_self]
      exact (if_pos hDef).symm
    · rw [Function.update_of_ne hk]
      by_cases hkDef : k ∈ (g.mlmi n).getDefs
      · rw [(hg.backward_iff k n).mpr ⟨hn, hkDef⟩]
        exact (if_pos hkDef).symm
      · exact (if_neg hkDef).symm
  · exact (hg.outputs_nodup n hn).append (List.nodup_singleton m) (by simpa using hNew)
  · rcases List.mem_append.mp hk with hk | hk
    · exact hg.outputs_sub n hn k hk
    · exact List.mem_singleton.mp hk ▸ hDef

/-- Both ways to give out a new cell. -/
theorem Good.mov_edited (hg : g.Good) (hn : n ∈ g.nodes) {g' : DFG} {seq : List HLI}
    {src : Operand Nat}
    (hSame : g' = { g with
      mlmi := Function.update g.mlmi n
        ⟨seq, (g.mlmi n).inputs, (g.mlmi n).outputs ++ [g.memoryCount]⟩
      memoryCount := g.memoryCount + 1
      backwardEdges := Function.update g.backwardEdges g.memoryCount (some n) })
    (hPerm : seq.Perm (mov g.memoryCount src :: (g.mlmi n).seq))
    (hSched : Scheduled (g.mlmi n).inputs seq) :
    Edited g g' n ⟨seq, (g.mlmi n).inputs, (g.mlmi n).outputs ++ [g.memoryCount]⟩ := by
  have hDefs : (defs seq).Perm (g.memoryCount :: (g.mlmi n).getDefs) := hPerm.map Instr.dst
  have hNew : g.memoryCount ∉ (g.mlmi n).getDefs := fun h =>
    absurd (hg.defs_lt n hn _ h) (lt_irrefl _)
  rw [hSame]
  refine ⟨rfl, rfl, rfl, rfl, rfl, Nat.le_succ _, fun k => ?backward_eq, ?defs_nodup,
    fun k hk => ?defs_kept, fun k hk => ?defs_new, ?outputs_nodup,
    fun k hk => List.mem_append_left _ hk, fun k hk => ?outputs_sub, hSched, hg.inputs_from n hn⟩
  case backward_eq =>
    show Function.update g.backwardEdges g.memoryCount (some n) k = if k ∈ defs seq then _ else _
    by_cases hk : k = g.memoryCount
    · subst hk
      rw [Function.update_self, if_pos (hDefs.mem_iff.mpr List.mem_cons_self)]
    · rw [Function.update_of_ne hk]
      by_cases hkDef : k ∈ (g.mlmi n).getDefs
      · rw [(hg.backward_iff k n).mpr ⟨hn, hkDef⟩,
          if_pos (hDefs.mem_iff.mpr (List.mem_cons_of_mem _ hkDef))]
      · rw [if_neg fun hIn => (List.mem_cons.mp (hDefs.mem_iff.mp hIn)).elim hk hkDef]
  case defs_nodup =>
    exact hDefs.nodup_iff.mpr (List.nodup_cons.mpr ⟨hNew, hg.seq_nodup n hn⟩)
  case defs_kept =>
    exact hDefs.mem_iff.mpr (List.mem_cons_of_mem _ hk)
  case defs_new =>
    rcases List.mem_cons.mp (hDefs.mem_iff.mp hk) with rfl | hk
    · exact Or.inr ⟨le_rfl, Nat.lt_succ_self _⟩
    · exact Or.inl hk
  case outputs_nodup =>
    refine (hg.outputs_nodup n hn).append (List.nodup_singleton _) ?_
    rw [List.disjoint_singleton]
    exact fun h => hNew (hg.outputs_sub n hn _ h)
  case outputs_sub =>
    rcases List.mem_append.mp hk with hk | hk
    · exact hDefs.mem_iff.mpr (List.mem_cons_of_mem _ (hg.outputs_sub n hn k hk))
    · rw [List.mem_singleton.mp hk]
      exact hDefs.mem_iff.mpr List.mem_cons_self

/-- The operand is a constant or an input of the node. -/
def Readable (g : DFG) (n : Nat) (src : Operand Nat) : Prop :=
  ∀ m, src = .loc m → m ∈ (g.mlmi n).inputs

/-- A copy at the end of the node, with an output for it, is one edit. -/
theorem Good.giveOut_edited (hg : g.Good) (hn : n ∈ g.nodes) {src : Operand Nat}
    (hSrc : g.Readable n src) :
    Edited g (g.giveOut n src) n ⟨(g.mlmi n).seq ++ [mov g.memoryCount src], (g.mlmi n).inputs,
      (g.mlmi n).outputs ++ [g.memoryCount]⟩ := by
  refine hg.mov_edited hn rfl (List.perm_append_singleton _ _) ?_
  refine (hg.scheduled n hn).append (scheduled_cons.mpr ⟨fun k hk => ?_, Scheduled.nil _⟩)
  exact List.mem_append_left _ (hSrc k (mem_memInputs_mov.mp hk))

/-- So is a copy at its start. -/
theorem Good.giveOutFirst_edited (hg : g.Good) (hn : n ∈ g.nodes) {src : Operand Nat}
    (hSrc : g.Readable n src) :
    Edited g (g.giveOutFirst n src) n ⟨mov g.memoryCount src :: (g.mlmi n).seq, (g.mlmi n).inputs,
      (g.mlmi n).outputs ++ [g.memoryCount]⟩ := by
  refine hg.mov_edited hn rfl (List.Perm.refl _) (scheduled_cons.mpr ⟨fun k hk => ?_, ?_⟩)
  · exact hSrc k (mem_memInputs_mov.mp hk)
  · exact (hg.scheduled n hn).mono fun k hk => List.mem_cons_of_mem _ hk

/-- New inputs, and sources renamed to them. -/
def rewire (g : DFG) (n : Nat) (f : Nat → Nat) (inputs : List Nat) : DFG :=
  g.edit n fun x => { x with inputs := inputs, seq := x.seq.map (Instr.rename f id) }

/-- Renaming inputs is to rewire them to the renamed ones. -/
theorem renameIn_eq_rewire (g : DFG) (n : Nat) (f : Nat → Nat) :
    g.renameIn n f = g.rewire n f ((g.mlmi n).inputs.map f) := rfl

/-- Rewiring is one edit, if the new inputs are given and no definition is renamed. -/
theorem Good.rewire_edited (hg : g.Good) (hn : n ∈ g.nodes) {f : Nat → Nat} {inputs : List Nat}
    (hIn : ∀ m ∈ (g.mlmi n).inputs, f m ∈ inputs) (hDefs : ∀ m ∈ (g.mlmi n).getDefs, f m = m)
    (hGiven : ∀ m ∈ inputs, g.Given m) :
    Edited g (g.rewire n f inputs) n
      ⟨(g.mlmi n).seq.map (Instr.rename f id), inputs, (g.mlmi n).outputs⟩ := by
  have hSame : defs ((g.mlmi n).seq.map (Instr.rename f id)) = (g.mlmi n).getDefs :=
    defs_map_rename _
  refine hg.edited_of_defs hn rfl hSame (hg.outputs_nodup n hn) (fun _ h => h) (fun m hm => ?_)
    ((hg.scheduled n hn).rename hIn hDefs) hGiven
  show m ∈ defs _
  rw [hSame]
  exact hg.outputs_sub n hn m hm

/-- Edges do not matter. -/
theorem Good.of_forward (hg : g.Good) (fwd : Nat → List Nat) :
    ({ g with forwardEdges := fwd } : DFG).Good :=
  ⟨hg.nodes_nodup, hg.nodes_lt, hg.seq_nodup, hg.outputs_nodup, hg.outputs_sub, hg.scheduled,
    hg.inputs_from, hg.backward_iff, hg.defs_lt, hg.progInputs_nodup, hg.progInputs_lt,
    hg.progInputs_kept, hg.progOutputs_from⟩

theorem Good.addEdge (hg : g.Good) (d n : Nat) : (g.addEdge d n).Good := hg.of_forward _

/-- A new node has nothing in it yet. -/
theorem newNode_mlmi_fresh (g : DFG) : g.newNode.mlmi g.fresh = ⟨[], [], []⟩ :=
  Function.update_self _ _ _

theorem newNode_mlmi_of_ne (g : DFG) {a : Nat} (h : a ≠ g.fresh) : g.newNode.mlmi a = g.mlmi a :=
  Function.update_of_ne h _ _

theorem mem_newNode {a : Nat} : a ∈ g.newNode.nodes ↔ a = g.fresh ∨ a ∈ g.nodes :=
  List.mem_insert_iff

/-- In particular those that exist. -/
theorem Good.newNode_mlmi (hg : g.Good) {a : Nat} (ha : a ∈ g.nodes) :
    g.newNode.mlmi a = g.mlmi a :=
  g.newNode_mlmi_of_ne fun hEq => hg.fresh_not_mem (hEq ▸ ha)

theorem Good.newNode_given (hg : g.Good) (hm : g.Given m) : g.newNode.Given m := by
  rcases hm with hm | ⟨a, ha, hm⟩
  · exact Or.inl hm
  · exact Or.inr ⟨a, mem_newNode.mpr (Or.inr ha), (hg.newNode_mlmi ha).symm ▸ hm⟩

/-- A node without instructions keeps the invariant. -/
theorem Good.newNode (hg : g.Good) : g.newNode.Good := by
  have hEach : ∀ {P : MLMI → Prop}, P ⟨[], [], []⟩ → (∀ a ∈ g.nodes, P (g.mlmi a)) →
      ∀ a ∈ g.newNode.nodes, P (g.newNode.mlmi a) := by
    intro P hNew hOld a ha
    rcases mem_newNode.mp ha with rfl | ha
    · rwa [newNode_mlmi_fresh]
    · rw [hg.newNode_mlmi ha]
      exact hOld a ha
  constructor
  · exact hg.nodes_nodup.insert
  · intro a ha
    rcases mem_newNode.mp ha with rfl | ha
    · exact Nat.lt_succ_self _
    · exact Nat.lt_succ_of_lt (hg.nodes_lt a ha)
  · exact hEach (P := fun y => y.getDefs.Nodup) List.nodup_nil hg.seq_nodup
  · exact hEach (P := fun y => y.outputs.Nodup) List.nodup_nil hg.outputs_nodup
  · exact hEach (P := fun y => ∀ m ∈ y.outputs, m ∈ y.getDefs) (fun _ h => h) hg.outputs_sub
  · exact hEach (P := fun y => Scheduled y.inputs y.seq) (Scheduled.nil _) hg.scheduled
  · exact hEach (P := fun y => ∀ m ∈ y.inputs, g.newNode.Given m)
      (fun m hm => absurd hm List.not_mem_nil)
      fun a ha m hm => hg.newNode_given (hg.inputs_from a ha m hm)
  · intro m a
    refine (hg.backward_iff m a).trans ⟨fun ⟨ha, hm⟩ => ?_, fun ⟨ha, hm⟩ => ?_⟩
    · exact ⟨mem_newNode.mpr (Or.inr ha), (hg.newNode_mlmi ha).symm ▸ hm⟩
    · rcases mem_newNode.mp ha with rfl | ha
      · rw [newNode_mlmi_fresh] at hm
        exact absurd hm List.not_mem_nil
      · exact ⟨ha, hg.newNode_mlmi ha ▸ hm⟩
  · exact hEach (P := fun y => ∀ m ∈ y.getDefs, m < g.memoryCount)
      (fun m hm => absurd hm List.not_mem_nil) hg.defs_lt
  · exact hg.progInputs_nodup
  · exact hg.progInputs_lt
  · exact hEach (P := fun y => ∀ m ∈ y.getDefs, m ∉ g.progInputs)
      (fun m hm => absurd hm List.not_mem_nil) hg.progInputs_kept
  · exact fun m hm => hg.newNode_given (hg.progOutputs_from m hm)

/-- So does renaming the outputs of the program to locations that are given. -/
theorem Good.renameOutputs (hg : g.Good) {d : List (Nat × Nat)}
    (h : ∀ m ∈ g.progOutputs, g.Given (getOrSelf d m)) : (g.renameOutputs d).Good := by
  refine ⟨hg.nodes_nodup, hg.nodes_lt, hg.seq_nodup, hg.outputs_nodup, hg.outputs_sub, hg.scheduled,
    hg.inputs_from, hg.backward_iff, hg.defs_lt, hg.progInputs_nodup, hg.progInputs_lt,
    hg.progInputs_kept, fun m hm => ?_⟩
  obtain ⟨k, hk, rfl⟩ := List.mem_map.mp hm
  exact h k hk

end Steps

-- ---------------------------------------------------------------------------
-- Meaning
-- ---------------------------------------------------------------------------

/-- Every instruction of the graph holds in the store. -/
def Models (g : DFG) (τ : Store Nat) : Prop :=
  ∀ n ∈ g.nodes, ∀ i ∈ (g.mlmi n).seq, i.Holds τ

/-- Every instruction outside of some nodes holds. -/
def ModelsOff (g : DFG) (nodes : List Nat) (τ : Store Nat) : Prop :=
  ∀ n ∈ g.nodes, n ∉ nodes → ∀ i ∈ (g.mlmi n).seq, i.Holds τ

/-- A model of all nodes is one of some. -/
theorem Models.off {g : DFG} {τ : Store Nat} (h : g.Models τ) (nodes : List Nat) :
    g.ModelsOff nodes τ := fun n hn _ => h n hn

/-- `g'` means what `g` means, with more cells. -/
structure Extends (g g' : DFG) : Prop where
  progInputs_eq : g'.progInputs = g.progInputs
  memoryCount_le : g.memoryCount ≤ g'.memoryCount
  back : ∀ τ, g'.Models τ → g.Models τ
  forth : ∀ τ, g.Models τ → ∃ τ', g'.Models τ' ∧ ∀ m < g.memoryCount, τ' m = τ m
  outputs : ∀ τ, g'.Models τ → g'.progOutputs.map τ = g.progOutputs.map τ

theorem Extends.refl (g : DFG) : Extends g g :=
  ⟨rfl, le_rfl, fun _ h => h, fun τ h => ⟨τ, h, fun _ _ => rfl⟩, fun _ _ => rfl⟩

/-- Extensions compose: the models of the last graph are extended from those of the first. -/
theorem Extends.trans {g g' g'' : DFG} (h : Extends g g') (h' : Extends g' g'') :
    Extends g g'' where
  progInputs_eq := h'.progInputs_eq.trans h.progInputs_eq
  memoryCount_le := h.memoryCount_le.trans h'.memoryCount_le
  back := fun τ hτ => h.back τ (h'.back τ hτ)
  forth := by
    intro τ hτ
    obtain ⟨τ₁, hτ₁, hSame₁⟩ := h.forth τ hτ
    obtain ⟨τ₂, hτ₂, hSame₂⟩ := h'.forth τ₁ hτ₁
    refine ⟨τ₂, hτ₂, fun m hm => ?_⟩
    rw [hSame₂ m (lt_of_lt_of_le hm h.memoryCount_le), hSame₁ m hm]
  outputs := fun τ hτ => (h'.outputs τ hτ).trans (h.outputs τ (h'.back τ hτ))

/-- Graphs with the same models and outputs. -/
theorem Extends.of_models {g g' : DFG} (hIn : g'.progInputs = g.progInputs)
    (hCount : g'.memoryCount = g.memoryCount) (hOut : g'.progOutputs = g.progOutputs)
    (h : ∀ τ, g'.Models τ ↔ g.Models τ) : Extends g g' :=
  ⟨hIn, hCount.ge, fun τ => (h τ).mp, fun τ hτ => ⟨τ, (h τ).mpr hτ, fun _ _ => rfl⟩,
    fun _ _ => by rw [hOut]⟩

section Meaning

variable {g g' : DFG} {n : Nat} {x : MLMI}

/-- A model of the edited graph is one of the other nodes in which the new instructions hold. -/
theorem Edited.models_iff (h : Edited g g' n x) (hn : n ∈ g.nodes) (τ : Store Nat) :
    g'.Models τ ↔ g.ModelsOff [n] τ ∧ ∀ i ∈ x.seq, i.Holds τ := by
  unfold Models ModelsOff
  rw [h.nodes_eq]
  constructor
  · intro hAll
    refine ⟨fun a ha hne i hi => hAll a ha i ?_, fun i hi => hAll n hn i (h.mlmi_self ▸ hi)⟩
    rwa [h.mlmi_of_ne (by simpa using hne)]
  · rintro ⟨hOff, hx⟩ a ha i hi
    by_cases han : a = n
    · subst han
      exact hx i (h.mlmi_self ▸ hi)
    · exact hOff a ha (by simpa using han) i (h.mlmi_of_ne han ▸ hi)

/-- The same for the graph before the edit. -/
theorem models_split (hn : n ∈ g.nodes) (τ : Store Nat) :
    g.Models τ ↔ g.ModelsOff [n] τ ∧ ∀ i ∈ (g.mlmi n).seq, i.Holds τ := by
  constructor
  · exact fun h => ⟨h.off [n], h n hn⟩
  · rintro ⟨hOff, hSelf⟩ a ha i hi
    by_cases han : a = n
    · subst han
      exact hSelf i hi
    · exact hOff a ha (by simpa using han) i hi

/-- New inputs and outputs change nothing. -/
theorem Edited.extends_of_seq (h : Edited g g' n x) (hn : n ∈ g.nodes)
    (hSeq : x.seq = (g.mlmi n).seq) (hCount : g'.memoryCount = g.memoryCount) : Extends g g' := by
  refine Extends.of_models h.progInputs_eq hCount h.progOutputs_eq fun τ => ?_
  rw [h.models_iff hn, models_split hn, hSeq]

/-- A copy holds where the destination has the value of the source. -/
theorem holds_mov {dst : Nat} {src : Operand Nat} {τ : Store Nat} :
    (mov dst src).Holds τ ↔ τ dst = srcVal τ (some src) := by
  simp [Instr.Holds, Instr.result, mov, instructionExecute, eq_comm]

/-- A copy to a new cell. -/
theorem Edited.extends_of_mov (h : Edited g g' n x) (hg : g.Good) (hn : n ∈ g.nodes)
    {src : Operand Nat} (hSrc : g.Readable n src)
    (hSeq : ∀ i, i ∈ x.seq ↔ i = mov g.memoryCount src ∨ i ∈ (g.mlmi n).seq) : Extends g g' := by
  refine ⟨h.progInputs_eq, h.memoryCount_le, fun τ hτ => ?_, fun τ hτ => ?_,
    fun τ _ => by rw [h.progOutputs_eq]⟩
  · obtain ⟨hOff, hx⟩ := (h.models_iff hn τ).mp hτ
    exact (models_split hn τ).mpr ⟨hOff, fun i hi => hx i ((hSeq i).mpr (Or.inr hi))⟩
  · -- the store of the old graph gets the value of the copy; nothing there mentions the new cell
    set τ' : Store Nat := Function.update τ g.memoryCount (srcVal τ (some src)) with hτ'
    have hOld : ∀ m < g.memoryCount, τ' m = τ m := fun m hm =>
      Function.update_of_ne (Nat.ne_of_lt hm) _ _
    have hHolds : ∀ a ∈ g.nodes, ∀ i ∈ (g.mlmi a).seq, i.Holds τ' := by
      intro a ha i hi
      have hRes : i.result τ' = i.result τ :=
        Instr.result_congr fun m hm => hOld m (hg.reads_lt ha hi hm)
      rw [Instr.Holds, hRes, hOld i.dst (hg.defs_lt a ha _ (List.mem_map_of_mem hi))]
      exact hτ a ha i hi
    refine ⟨τ', (h.models_iff hn τ').mpr ⟨fun a ha _ => hHolds a ha, fun i hi => ?_⟩, hOld⟩
    rcases (hSeq i).mp hi with rfl | hi
    · rw [holds_mov, hτ', Function.update_self]
      cases src with
      | imm k => rfl
      | loc m => exact (hOld m (hg.inputs_lt hn (hSrc m rfl))).symm
    · exact hHolds n hn i hi

/-- An input that is not read changes no meaning. -/
theorem Good.extends_takeInput (hg : g.Good) (hn : n ∈ g.nodes) {m : Nat} (hm : g.Given m) :
    Extends g (g.takeInput n m) :=
  (hg.takeInput_edited hn hm).extends_of_seq hn rfl rfl

/-- A copy into a new location changes no meaning. -/
theorem Good.extends_giveOut (hg : g.Good) (hn : n ∈ g.nodes) {src : Operand Nat}
    (hSrc : g.Readable n src) : Extends g (g.giveOut n src) :=
  (hg.giveOut_edited hn hSrc).extends_of_mov hg hn hSrc fun i => by simp [or_comm]

/-- Nor does one at the start of the node. -/
theorem Good.extends_giveOutFirst (hg : g.Good) (hn : n ∈ g.nodes) {src : Operand Nat}
    (hSrc : g.Readable n src) : Extends g (g.giveOutFirst n src) :=
  (hg.giveOutFirst_edited hn hSrc).extends_of_mov hg hn hSrc fun i => by simp

/-- Sources are renamed to operands that have the same value whenever the other
nodes hold. -/
theorem Good.extends_rewire (hg : g.Good) (hn : n ∈ g.nodes) {f : Nat → Nat} {inputs : List Nat}
    (hIn : ∀ m ∈ (g.mlmi n).inputs, f m ∈ inputs) (hDefs : ∀ m ∈ (g.mlmi n).getDefs, f m = m)
    (hGiven : ∀ m ∈ inputs, g.Given m)
    (hSame : ∀ τ, g.ModelsOff [n] τ → ∀ m ∈ (g.mlmi n).inputs, τ (f m) = τ m) :
    Extends g (g.rewire n f inputs) := by
  have hEdited := hg.rewire_edited hn hIn hDefs hGiven
  refine Extends.of_models rfl rfl rfl fun τ => ?_
  rw [hEdited.models_iff hn, models_split hn]
  refine and_congr_right fun hOff => ?_
  rw [List.forall_mem_map]
  refine forall₂_congr fun i hi => ?_
  have hRes : (i.rename f id).result τ = i.result τ := Instr.result_rename fun m hm => by
    rcases hg.reads_cases hn hi hm with hRead | hDef
    · exact hSame τ hOff m hRead
    · rw [hDefs m hDef]
  rw [Instr.Holds, Instr.Holds, hRes]
  rfl

/-- Edges play no part in the meaning. -/
theorem extends_of_forward (g : DFG) (fwd : Nat → List Nat) :
    Extends g { g with forwardEdges := fwd } :=
  Extends.of_models rfl rfl rfl fun _ => Iff.rfl

/-- Nor does a node without instructions. -/
theorem Good.extends_newNode (hg : g.Good) : Extends g g.newNode := by
  refine Extends.of_models rfl rfl rfl fun τ => ⟨fun h a ha i hi => ?_, fun h a ha i hi => ?_⟩
  · exact h a (mem_newNode.mpr (Or.inr ha)) i ((hg.newNode_mlmi ha).symm ▸ hi)
  · rcases mem_newNode.mp ha with rfl | ha
    · rw [newNode_mlmi_fresh] at hi
      exact absurd hi List.not_mem_nil
    · exact h a ha i (hg.newNode_mlmi ha ▸ hi)

/-- Outputs can be renamed to locations with the same value. -/
theorem extends_renameOutputs {d : List (Nat × Nat)}
    (h : ∀ τ, g.Models τ → ∀ m ∈ g.progOutputs, τ (getOrSelf d m) = τ m) :
    Extends g (g.renameOutputs d) := by
  refine ⟨rfl, le_rfl, fun _ h => h, fun τ hτ => ⟨τ, hτ, fun _ _ => rfl⟩, fun τ hτ => ?_⟩
  show (g.progOutputs.map (getOrSelf d)).map τ = _
  rw [List.map_map]
  exact List.map_congr_left fun m hm => h τ hτ m hm

end Meaning

-- ---------------------------------------------------------------------------
-- Forward edges
-- ---------------------------------------------------------------------------

/-- `b` reads an output of `a`. -/
def Feeds (g : DFG) (a b : Nat) : Prop := ∃ m ∈ (g.mlmi a).outputs, m ∈ (g.mlmi b).inputs

/-- `forward_edges` leads from every node to those it feeds, except to the nodes
that wait for their inputs: to these it does not lead at all. -/
def Exact (g : DFG) (pending : List Nat) : Prop :=
  ∀ a b, b ∈ g.forwardEdges a ↔ a ∈ g.nodes ∧ b ∈ g.nodes ∧ b ∉ pending ∧ g.Feeds a b

section Edges

variable {g g' : DFG} {pending : List Nat} {n m d : Nat} {x : MLMI}

/-- When what a node reads is given out by earlier nodes, its edges come from these. -/
theorem Good.edge_before (hg : g.Good) (hExact : g.Exact []) {pre : List Nat}
    (hPre : ∀ b ∈ pre, b ∈ g.nodes)
    (hReads : ∀ m ∈ (g.mlmi n).inputs, m ∈ g.progInputs ∨ ∃ b ∈ pre, m ∈ (g.mlmi b).outputs)
    {a : Nat} (hEdge : g.Edge a n) : a ∈ pre := by
  obtain ⟨ha, -, -, m, hOut, hIn⟩ := (hExact a n).mp hEdge
  rcases hReads m hIn with hProg | ⟨b, hb, hOut'⟩
  · exact absurd hProg (hg.progInputs_kept a ha m (hg.outputs_sub a ha m hOut))
  · exact hg.output_unique ha (hPre b hb) hOut hOut' ▸ hb

/-- The edges are the old ones and the new one. -/
theorem mem_addEdge {a b : Nat} :
    b ∈ (g.addEdge d n).forwardEdges a ↔ b ∈ g.forwardEdges a ∨ a = d ∧ b = n := by
  unfold addEdge
  by_cases h : a = d
  · subst h
    simp [List.mem_insert_iff, or_comm]
  · simp [h]

/-- Nobody reads the new outputs of an edited node yet. -/
theorem Edited.feeds_iff (h : Edited g g' n x) (hg : g.Good) (hIn : x.inputs = (g.mlmi n).inputs)
    (hNew : ∀ m ∈ x.outputs, m ∉ (g.mlmi n).outputs → ¬ g.Given m) {a b : Nat}
    (hb : b ∈ g.nodes) : g'.Feeds a b ↔ g.Feeds a b := by
  have hInputs : (g'.mlmi b).inputs = (g.mlmi b).inputs := by
    by_cases hbn : b = n
    · rw [hbn, h.mlmi_self, hIn]
    · rw [h.mlmi_of_ne hbn]
  unfold Feeds
  rw [hInputs]
  by_cases han : a = n
  · subst han
    rw [h.mlmi_self]
    constructor
    · rintro ⟨m, hm, hRead⟩
      refine ⟨m, ?_, hRead⟩
      by_contra hNot
      exact hNew m hm hNot (hg.inputs_from b hb m hRead)
    · rintro ⟨m, hm, hRead⟩
      exact ⟨m, h.outputs_kept m hm, hRead⟩
  · rw [h.mlmi_of_ne han]

/-- An edit that keeps the inputs, and whose new outputs nobody knows yet, needs no new edge. -/
theorem Edited.exact (h : Edited g g' n x) (hg : g.Good) (hExact : g.Exact pending)
    (hFwd : g'.forwardEdges = g.forwardEdges) (hIn : x.inputs = (g.mlmi n).inputs)
    (hNew : ∀ m ∈ x.outputs, m ∉ (g.mlmi n).outputs → ¬ g.Given m) : g'.Exact pending := by
  intro a b
  rw [hFwd, hExact a b, h.nodes_eq]
  refine and_congr_right fun _ => and_congr_right fun hb => and_congr_right fun _ => ?_
  exact (h.feeds_iff hg hIn hNew hb).symm

/-- The next location is not given. -/
theorem Good.not_given_memoryCount (hg : g.Good) : ¬ g.Given g.memoryCount := fun h =>
  absurd (hg.given_lt h) (lt_irrefl _)

/-- A new location has no reader, so that no edge is missing. -/
theorem Good.exact_giveOut (hg : g.Good) (hExact : g.Exact pending) (hn : n ∈ g.nodes)
    {src : Operand Nat} (hSrc : g.Readable n src) : (g.giveOut n src).Exact pending := by
  refine (hg.giveOut_edited hn hSrc).exact hg hExact rfl rfl fun m hm hNot => ?_
  rw [(List.mem_append.mp hm).resolve_left hNot |> List.mem_singleton.mp]
  exact hg.not_given_memoryCount

/-- The same for a copy at the start. -/
theorem Good.exact_giveOutFirst (hg : g.Good) (hExact : g.Exact pending) (hn : n ∈ g.nodes)
    {src : Operand Nat} (hSrc : g.Readable n src) : (g.giveOutFirst n src).Exact pending := by
  refine (hg.giveOutFirst_edited hn hSrc).exact hg hExact rfl rfl fun m hm hNot => ?_
  rw [(List.mem_append.mp hm).resolve_left hNot |> List.mem_singleton.mp]
  exact hg.not_given_memoryCount

/-- An internal cell is not given to anyone. -/
theorem Good.not_given_internal (hg : g.Good) (hn : n ∈ g.nodes) (hDef : m ∈ (g.mlmi n).getDefs)
    (hNot : m ∉ (g.mlmi n).outputs) : ¬ g.Given m := by
  rintro (hIn | ⟨a, ha, hOut⟩)
  · exact hg.progInputs_kept n hn m hDef hIn
  · exact hNot (hg.def_unique ha hn (hg.outputs_sub a ha m hOut) hDef ▸ hOut)

/-- A definition that was no output has no reader in another node. -/
theorem Good.exact_expose (hg : g.Good) (hExact : g.Exact pending) (hn : n ∈ g.nodes)
    (hDef : m ∈ (g.mlmi n).getDefs) (hNew : m ∉ (g.mlmi n).outputs) :
    (g.expose n m).Exact pending := by
  refine (hg.expose_edited hn hDef hNew).exact hg hExact rfl rfl fun k hk hNot => ?_
  rw [(List.mem_append.mp hk).resolve_left hNot |> List.mem_singleton.mp]
  exact hg.not_given_internal hn hDef hNew

/-- A node without inputs needs no edge. -/
theorem Good.exact_newNode (hg : g.Good) (hExact : g.Exact pending) : g.newNode.Exact pending := by
  intro a b
  refine (hExact a b).trans ⟨?_, ?_⟩
  · rintro ⟨ha, hb, hPend, m, hOut, hIn⟩
    refine ⟨mem_newNode.mpr (Or.inr ha), mem_newNode.mpr (Or.inr hb), hPend, m, ?_, ?_⟩
    · rwa [hg.newNode_mlmi ha]
    · rwa [hg.newNode_mlmi hb]
  · rintro ⟨ha, hb, hPend, m, hOut, hIn⟩
    rcases mem_newNode.mp ha with rfl | ha
    · rw [newNode_mlmi_fresh] at hOut
      exact absurd hOut List.not_mem_nil
    rcases mem_newNode.mp hb with rfl | hb
    · rw [newNode_mlmi_fresh] at hIn
      exact absurd hIn List.not_mem_nil
    · exact ⟨ha, hb, hPend, m, hg.newNode_mlmi ha ▸ hOut, hg.newNode_mlmi hb ▸ hIn⟩

/-- A program input comes without an edge. -/
theorem Good.exact_takeInput_prog (hg : g.Good) (hExact : g.Exact pending) (hn : n ∈ g.nodes)
    (hm : m ∈ g.progInputs) : (g.takeInput n m).Exact pending := by
  have h := hg.takeInput_edited hn (Or.inl hm)
  intro a b
  refine (hExact a b).trans (and_congr_right fun ha => and_congr_right fun hb =>
    and_congr_right fun _ => ?_)
  have hOuts : ((g.takeInput n m).mlmi a).outputs = (g.mlmi a).outputs := by
    by_cases han : a = n
    · rw [han, h.mlmi_self]
    · rw [h.mlmi_of_ne han]
  unfold Feeds
  rw [hOuts]
  by_cases hbn : b = n
  · subst hbn
    rw [h.mlmi_self]
    constructor
    · rintro ⟨k, hOut, hIn⟩
      exact ⟨k, hOut, List.mem_append_left _ hIn⟩
    · rintro ⟨k, hOut, hIn⟩
      rcases List.mem_append.mp hIn with hIn | hIn
      · exact ⟨k, hOut, hIn⟩
      · rw [List.mem_singleton.mp hIn] at hOut
        exact absurd hm (hg.progInputs_kept a ha m (hg.outputs_sub a ha m hOut))
  · rw [h.mlmi_of_ne hbn]

/-- An output of `d` comes with an edge from `d`. -/
theorem Good.exact_takeInput (hg : g.Good) (hExact : g.Exact pending) (hn : n ∈ g.nodes)
    (hPend : n ∉ pending) (hd : d ∈ g.nodes) (hm : m ∈ (g.mlmi d).outputs) :
    ((g.takeInput n m).addEdge d n).Exact pending := by
  have h := hg.takeInput_edited hn (Or.inr ⟨d, hd, hm⟩)
  have hOuts : ∀ a, ((g.takeInput n m).mlmi a).outputs = (g.mlmi a).outputs := by
    intro a
    by_cases han : a = n
    · rw [han, h.mlmi_self]
    · rw [h.mlmi_of_ne han]
  have hFeeds : ∀ a ∈ g.nodes, ∀ b,
      (g.takeInput n m).Feeds a b ↔ g.Feeds a b ∨ a = d ∧ b = n := by
    intro a ha b
    unfold Feeds
    rw [hOuts]
    by_cases hbn : b = n
    · subst hbn
      rw [h.mlmi_self]
      constructor
      · rintro ⟨k, hOut, hIn⟩
        rcases List.mem_append.mp hIn with hIn | hIn
        · exact Or.inl ⟨k, hOut, hIn⟩
        · rw [List.mem_singleton.mp hIn] at hOut
          exact Or.inr ⟨hg.output_unique ha hd hOut hm, rfl⟩
      · rintro (⟨k, hOut, hIn⟩ | ⟨rfl, -⟩)
        · exact ⟨k, hOut, List.mem_append_left _ hIn⟩
        · exact ⟨m, hm, by simp⟩
    · rw [h.mlmi_of_ne hbn]
      simp [hbn]
  intro a b
  rw [mem_addEdge]
  show b ∈ g.forwardEdges a ∨ _ ↔ a ∈ g.nodes ∧ b ∈ g.nodes ∧ b ∉ pending ∧
    (g.takeInput n m).Feeds a b
  rw [hExact a b]
  constructor
  · rintro (⟨ha, hb, hp, hF⟩ | ⟨rfl, rfl⟩)
    · exact ⟨ha, hb, hp, (hFeeds a ha b).mpr (Or.inl hF)⟩
    · exact ⟨hd, hn, hPend, (hFeeds a hd b).mpr (Or.inr ⟨rfl, rfl⟩)⟩
  · rintro ⟨ha, hb, hp, hF⟩
    exact ((hFeeds a ha b).mp hF).imp_left fun hF => ⟨ha, hb, hp, hF⟩

/-- Edges to `n` from every node that gives out one of some operands. -/
theorem Good.link_ok (hg : g.Good) (n : Nat) {ms : List Nat}
    (h : ∀ m ∈ ms, ∃ a ∈ g.nodes, m ∈ (g.mlmi a).outputs) :
    ∃ fwd, ms.foldlM (fun g m => do
        let d ← g.defNode m
        return g.addEdge d n) g = .ok { g with forwardEdges := fwd } ∧
      ∀ a b, b ∈ fwd a ↔ b ∈ g.forwardEdges a ∨
        b = n ∧ a ∈ g.nodes ∧ ∃ m ∈ ms, m ∈ (g.mlmi a).outputs := by
  obtain ⟨g', hFold, fwd, rfl, hFwd⟩ := exists_foldlM_ok
    (f := fun (g : DFG) m => do
      let d ← g.defNode m
      return g.addEdge d n) (l := ms) (s := g)
    (P := fun done g' => ∃ fwd, g' = { g with forwardEdges := fwd } ∧
      ∀ a b, b ∈ fwd a ↔ b ∈ g.forwardEdges a ∨
        b = n ∧ a ∈ g.nodes ∧ ∃ m ∈ done, m ∈ (g.mlmi a).outputs)
    (fun done m rest hSplit g' hg' => by
      obtain ⟨fwd, rfl, hFwd⟩ := hg'
      obtain ⟨d, hd, hm⟩ := h m (by simp [hSplit])
      have hDef : ({ g with forwardEdges := fwd } : DFG).defNode m = .ok d :=
        hg.defNode_output hd hm
      refine ⟨({ g with forwardEdges := fwd } : DFG).addEdge d n, ?_, _, rfl, fun a b => ?_⟩
      · rw [hDef]
        rfl
      · refine (mem_addEdge (g := { g with forwardEdges := fwd })).trans ?_
        show b ∈ fwd a ∨ _ ↔ _
        rw [hFwd a b, or_assoc]
        refine or_congr_right ⟨?_, ?_⟩
        · rintro (⟨hb, ha, k, hk, hOut⟩ | ⟨rfl, rfl⟩)
          · exact ⟨hb, ha, k, List.mem_append_left _ hk, hOut⟩
          · exact ⟨rfl, hd, m, by simp, hm⟩
        · rintro ⟨hb, ha, k, hk, hOut⟩
          rcases List.mem_append.mp hk with hk | hk
          · exact Or.inl ⟨hb, ha, k, hk, hOut⟩
          · rw [List.mem_singleton.mp hk] at hOut
            exact Or.inr ⟨hg.output_unique ha hd hOut hm, hb⟩)
    ⟨g.forwardEdges, rfl, by simp⟩
  exact ⟨fwd, hFold, hFwd⟩

/-- The same edges where nothing is raised. -/
theorem foldl_addEdge_of_link {ms : List Nat}
    (h : ms.foldlM (fun g m => do
      let d ← g.defNode m
      return g.addEdge d n) g = .ok g') :
    ms.foldl (fun g m =>
      match g.backwardEdges m with
      | some d => g.addEdge d n
      | none => g) g = g' := by
  induction ms generalizing g with
  | nil =>
    cases h
    rfl
  | cons m ms ih =>
    rw [List.foldlM_cons] at h
    obtain ⟨g₁, hOne, hRest⟩ := bind_eq_ok.mp h
    obtain ⟨d, hDef, hEdge⟩ := bind_eq_ok.mp hOne
    cases hEdge
    unfold defNode at hDef
    rw [List.foldl_cons]
    cases hBack : g.backwardEdges m with
    | none =>
      rw [hBack] at hDef
      cases hDef
    | some d' =>
      rw [hBack] at hDef
      cases hDef
      exact ih hRest

/-- A node that gets its inputs waits for its edges. -/
theorem Edited.exact_pending (h : Edited g g' n x) (hExact : g.Exact pending)
    (hFwd : g'.forwardEdges = g.forwardEdges) (hOut : x.outputs = (g.mlmi n).outputs)
    (hUnread : ∀ a, ¬ g.Feeds a n) : g'.Exact (n :: pending) := by
  intro a b
  rw [hFwd, hExact a b, h.nodes_eq]
  have hOuts : (g'.mlmi a).outputs = (g.mlmi a).outputs := by
    by_cases han : a = n
    · rw [han, h.mlmi_self, hOut]
    · rw [h.mlmi_of_ne han]
  by_cases hbn : b = n
  · subst hbn
    constructor
    · rintro ⟨-, -, -, hFeeds⟩
      exact absurd hFeeds (hUnread a)
    · rintro ⟨-, -, hPend, -⟩
      exact absurd List.mem_cons_self hPend
  · unfold Feeds
    rw [hOuts, h.mlmi_of_ne hbn]
    simp [hbn]

/-- A node that waited is linked to what it reads. -/
theorem exact_link {fwd : Nat → List Nat} (hExact : g.Exact (n :: pending)) (hn : n ∈ g.nodes)
    (hPend : n ∉ pending) (hFwd : ∀ a b, b ∈ fwd a ↔ b ∈ g.forwardEdges a ∨
      b = n ∧ a ∈ g.nodes ∧ ∃ m ∈ (g.mlmi n).inputs, m ∈ (g.mlmi a).outputs) :
    ({ g with forwardEdges := fwd } : DFG).Exact pending := by
  intro a b
  show b ∈ fwd a ↔ a ∈ g.nodes ∧ b ∈ g.nodes ∧ b ∉ pending ∧ g.Feeds a b
  rw [hFwd, hExact a b]
  constructor
  · rintro (⟨ha, hb, hNot, hFeeds⟩ | ⟨rfl, ha, m, hIn, hOut⟩)
    · exact ⟨ha, hb, fun hMem => hNot (List.mem_cons_of_mem _ hMem), hFeeds⟩
    · exact ⟨ha, hn, hPend, m, hOut, hIn⟩
  · rintro ⟨ha, hb, hNot, hFeeds⟩
    by_cases hbn : b = n
    · subst hbn
      obtain ⟨m, hOut, hIn⟩ := hFeeds
      exact Or.inr ⟨rfl, ha, m, hIn, hOut⟩
    · exact Or.inl ⟨ha, hb, by simp [hbn, hNot], hFeeds⟩

/-- A node is rewired once it is linked to what it will read. -/
theorem exact_rewire {fwd : Nat → List Nat} {f : Nat → Nat} {inputs ms pending' : List Nat}
    (hExact : g.Exact pending) (hn : n ∈ g.nodes)
    (hFwd : ∀ a b, b ∈ fwd a ↔ b ∈ g.forwardEdges a ∨
      b = n ∧ a ∈ g.nodes ∧ ∃ m ∈ ms, m ∈ (g.mlmi a).outputs)
    (hPend : ∀ b, b ∈ pending' ↔ b ∈ pending ∧ b ≠ n)
    (hSame : ∀ a ∈ g.nodes, (∃ m ∈ (g.mlmi a).outputs, m ∈ inputs) ↔
      (n ∉ pending ∧ g.Feeds a n) ∨ ∃ m ∈ ms, m ∈ (g.mlmi a).outputs) :
    (({ g with forwardEdges := fwd } : DFG).rewire n f inputs).Exact pending' := by
  intro a b
  show b ∈ fwd a ↔ a ∈ g.nodes ∧ b ∈ g.nodes ∧ b ∉ pending' ∧ _
  have hOuts : (({ g with forwardEdges := fwd } : DFG).rewire n f inputs |>.mlmi a).outputs =
      (g.mlmi a).outputs := by
    by_cases han : a = n
    · subst han
      simp [rewire, edit]
    · simp [rewire, edit, han]
  rw [hFwd, hExact a b, hPend]
  simp only [Feeds]
  rw [hOuts]
  by_cases hbn : b = n
  · subst hbn
    have hIns : (({ g with forwardEdges := fwd } : DFG).rewire b f inputs |>.mlmi b).inputs =
        inputs := by
      simp [rewire, edit]
    rw [hIns]
    constructor
    · rintro (⟨ha, hb, hp, hFeeds⟩ | ⟨-, ha, hLink⟩)
      · exact ⟨ha, hn, by simp, (hSame a ha).mpr (Or.inl ⟨hp, hFeeds⟩)⟩
      · exact ⟨ha, hn, by simp, (hSame a ha).mpr (Or.inr hLink)⟩
    · rintro ⟨ha, -, -, hReads⟩
      rcases (hSame a ha).mp hReads with ⟨hp, hFeeds⟩ | hLink
      · exact Or.inl ⟨ha, hn, hp, hFeeds⟩
      · exact Or.inr ⟨rfl, ha, hLink⟩
  · have hIns : (({ g with forwardEdges := fwd } : DFG).rewire n f inputs |>.mlmi b).inputs =
        (g.mlmi b).inputs := by
      simp [rewire, edit, hbn]
    rw [hIns]
    simp only [hbn, false_and, or_false, ne_eq, not_false_eq_true, and_true]

end Edges

-- ---------------------------------------------------------------------------
-- Work on one node
-- ---------------------------------------------------------------------------

/-- `g'` is `g` after work on node `n` that adds to it and takes nothing away. -/
structure Worked (pending : List Nat) (g g' : DFG) (n : Nat) : Prop where
  good : g'.Good
  exact : g'.Exact pending
  meaning : Extends g g'
  nodes_eq : g'.nodes = g.nodes
  fresh_eq : g'.fresh = g.fresh
  progOutputs_eq : g'.progOutputs = g.progOutputs
  other : ∀ a ≠ n, g'.mlmi a = g.mlmi a
  outputs_kept : ∀ m ∈ (g.mlmi n).outputs, m ∈ (g'.mlmi n).outputs

section Work

variable {pending : List Nat} {g g' g'' : DFG} {n m d : Nat}

theorem Worked.refl (hg : g.Good) (hExact : g.Exact pending) (n : Nat) : Worked pending g g n :=
  ⟨hg, hExact, .refl g, rfl, rfl, rfl, fun _ _ => rfl, fun _ h => h⟩

/-- Work on one node after other work on it. -/
theorem Worked.trans (h : Worked pending g g' n) (h' : Worked pending g' g'' n) :
    Worked pending g g'' n :=
  ⟨h'.good, h'.exact, h.meaning.trans h'.meaning, h'.nodes_eq.trans h.nodes_eq,
    h'.fresh_eq.trans h.fresh_eq, h'.progOutputs_eq.trans h.progOutputs_eq,
    fun a ha => (h'.other a ha).trans (h.other a ha),
    fun m hm => h'.outputs_kept m (h.outputs_kept m hm)⟩

/-- No node loses an output. -/
theorem Worked.outputs_sub (h : Worked pending g g' n) (a : Nat) :
    ∀ m ∈ (g.mlmi a).outputs, m ∈ (g'.mlmi a).outputs := by
  intro m hm
  by_cases ha : a = n
  · subst ha
    exact h.outputs_kept m hm
  · rwa [h.other a ha]

/-- An edit that keeps the edges right and the meaning is work on the node. -/
theorem Edited.worked {x : MLMI} (h : Edited g g' n x) (hg : g.Good) (hn : n ∈ g.nodes)
    (hExact : g'.Exact pending) (hMeaning : Extends g g') : Worked pending g g' n :=
  ⟨hg.edited hn h, hExact, hMeaning, h.nodes_eq, h.fresh_eq, h.progOutputs_eq,
    fun _ ha => h.mlmi_of_ne ha, fun m hm => h.mlmi_self ▸ h.outputs_kept m hm⟩

/-- To give out a copy is work on the node. -/
theorem Good.worked_giveOut (hg : g.Good) (hExact : g.Exact pending) (hn : n ∈ g.nodes)
    {src : Operand Nat} (hSrc : g.Readable n src) : Worked pending g (g.giveOut n src) n :=
  (hg.giveOut_edited hn hSrc).worked hg hn (hg.exact_giveOut hExact hn hSrc)
    (hg.extends_giveOut hn hSrc)

/-- So is to make a definition an output. -/
theorem Good.worked_expose (hg : g.Good) (hExact : g.Exact pending) (hn : n ∈ g.nodes)
    (hDef : m ∈ (g.mlmi n).getDefs) (hNew : m ∉ (g.mlmi n).outputs) :
    Worked pending g (g.expose n m) n :=
  (hg.expose_edited hn hDef hNew).worked hg hn (hg.exact_expose hExact hn hDef hNew)
    ((hg.expose_edited hn hDef hNew).extends_of_seq hn rfl rfl)

/-- So is to take an input of the program. -/
theorem Good.worked_takeInput_prog (hg : g.Good) (hExact : g.Exact pending) (hn : n ∈ g.nodes)
    (hm : m ∈ g.progInputs) : Worked pending g (g.takeInput n m) n :=
  (hg.takeInput_edited hn (Or.inl hm)).worked hg hn (hg.exact_takeInput_prog hExact hn hm)
    (hg.extends_takeInput hn (Or.inl hm))

/-- So is to take an output of another node, with the edge for it. -/
theorem Good.worked_takeInput (hg : g.Good) (hExact : g.Exact pending) (hn : n ∈ g.nodes)
    (hPend : n ∉ pending) (hd : d ∈ g.nodes) (hm : m ∈ (g.mlmi d).outputs) :
    Worked pending g ((g.takeInput n m).addEdge d n) n := by
  have hEdited := hg.takeInput_edited hn (Or.inr ⟨d, hd, hm⟩)
  exact ⟨(hg.edited hn hEdited).addEdge d n, hg.exact_takeInput hExact hn hPend hd hm,
    (hg.extends_takeInput hn (Or.inr ⟨d, hd, hm⟩)).trans (extends_of_forward _ _), rfl, rfl, rfl,
    fun _ ha => hEdited.mlmi_of_ne ha,
    fun k hk => (hEdited.mlmi_self ▸ hEdited.outputs_kept k hk :)⟩

end Work

end DFG

end Obscure
