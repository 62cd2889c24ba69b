import Obscure.Clusterization.Contraction
import Obscure.Clusterization.InitialGraph
import Obscure.Clusterization.Runs

/-!
# OBSCURE — the invariant of the clusterizer

A graph is sound for a program when its nodes partition the instructions, every
node lists exactly what it reads from and gives to the others, both edge maps
say exactly that, and no path of edges returns to where it started. A merge of
two nodes without a detour between them keeps all of it, and the checks of the
three phases rule out detours: `merge_score` by two traversals,
`should_merge_with_next` because the only successor of a node is the one it is
merged with.

* `DFG.Sound`           — the invariant;
* `Merging.sound_after` — a merge keeps it;
* `Clustering.sound`    — every graph of every run is sound.
-/

namespace Obscure

open Lib

namespace DFG

structure Sound (ir : HLIRProgram) (g : DFG) : Prop where
  nodes_nodup : g.nodes.Nodup
  nodes_lt : ∀ n ∈ g.nodes, n < g.fresh
  progInputs_iff : ∀ m, m ∈ g.progInputs ↔ m ∈ ir.inputs
  progOutputs_eq : g.progOutputs = ir.outputs
  instrs_perm : (g.nodes.flatMap fun n => (g.mlmi n).seq).Perm ir.instrs
  scheduled : ∀ n ∈ g.nodes, Scheduled (g.mlmi n).inputs (g.mlmi n).seq
  inputs_iff : ∀ n ∈ g.nodes, ∀ m, m ∈ (g.mlmi n).inputs ↔ m ∈ (g.mlmi n).getUsed
  outputs_iff : ∀ n ∈ g.nodes, ∀ m, m ∈ (g.mlmi n).outputs ↔ m ∈ (g.mlmi n).getDefs ∧
    (m ∈ ir.outputs ∨ ∃ n' ∈ g.nodes, n' ≠ n ∧ m ∈ (g.mlmi n').inputs)
  backward_iff : ∀ m n, g.backwardEdges m = some n ↔ n ∈ g.nodes ∧ m ∈ (g.mlmi n).getDefs
  forward_iff : ∀ a b, g.Edge a b ↔ a ∈ g.nodes ∧ b ∈ g.nodes ∧
    ∃ m ∈ (g.mlmi a).outputs, m ∈ (g.mlmi b).inputs
  forward_nodup : ∀ a, (g.forwardEdges a).Nodup
  acyclic : Acyclic g.Edge

section Facts

variable {ir : HLIRProgram} {g : DFG}

/-- What a node defines, the program defines. -/
theorem Sound.mem_defs (h : g.Sound ir) {n m : Nat} (hn : n ∈ g.nodes)
    (hm : m ∈ (g.mlmi n).getDefs) : m ∈ defs ir.instrs := by
  obtain ⟨i, hi, rfl⟩ := List.mem_map.mp hm
  exact List.mem_map_of_mem (h.instrs_perm.mem_iff.mp (List.mem_flatMap.mpr ⟨n, hn, hi⟩))

/-- What the program defines, a node defines. -/
theorem Sound.exists_def (h : g.Sound ir) {m : Nat} (hm : m ∈ defs ir.instrs) :
    ∃ n ∈ g.nodes, m ∈ (g.mlmi n).getDefs := by
  obtain ⟨i, hi, rfl⟩ := List.mem_map.mp hm
  obtain ⟨n, hn, hi⟩ := List.mem_flatMap.mp (h.instrs_perm.mem_iff.mpr hi)
  exact ⟨n, hn, List.mem_map_of_mem hi⟩

/-- Each location is defined in one node, and once. -/
theorem Sound.defs_nodup (h : g.Sound ir) (hIr : ir.Clean) :
    (g.nodes.flatMap fun n => (g.mlmi n).getDefs).Nodup := by
  have hEq : (g.nodes.flatMap fun n => (g.mlmi n).getDefs) =
      defs (g.nodes.flatMap fun n => (g.mlmi n).seq) := by
    rw [defs, List.map_flatMap]
    rfl
  rw [hEq]
  exact (h.instrs_perm.map Instr.dst).nodup_iff.mpr hIr.written_once

/-- No operand is defined in two nodes. -/
theorem Sound.def_unique (h : g.Sound ir) (hIr : ir.Clean) {n n' m : Nat} (hn : n ∈ g.nodes)
    (hn' : n' ∈ g.nodes) (hm : m ∈ (g.mlmi n).getDefs) (hm' : m ∈ (g.mlmi n').getDefs) :
    n = n' := by
  by_contra hne
  have : Std.Symm (Function.onFun List.Disjoint fun n => (g.mlmi n).getDefs) :=
    ⟨fun _ _ hDisj => hDisj.symm⟩
  exact (List.nodup_flatMap.mp (h.defs_nodup hIr)).2.forall hn hn' hne hm hm'

/-- In particular once in the sequence of a node. -/
theorem Sound.seq_nodup (h : g.Sound ir) (hIr : ir.Clean) {n : Nat} (hn : n ∈ g.nodes) :
    (g.mlmi n).getDefs.Nodup :=
  (List.nodup_flatMap.mp (h.defs_nodup hIr)).1 n hn

/-- An input of a node is a program input or comes from another node. -/
theorem Sound.input_cases (h : g.Sound ir) (hIr : ir.Clean) {n m : Nat} (hn : n ∈ g.nodes)
    (hm : m ∈ (g.mlmi n).inputs) :
    m ∈ ir.inputs ∨ ∃ n' ∈ g.nodes, n' ≠ n ∧ m ∈ (g.mlmi n').outputs := by
  obtain ⟨hRead, hDef⟩ := mem_getUsed.mp ((h.inputs_iff n hn m).mp hm)
  obtain ⟨i, hi, hm'⟩ := List.mem_flatMap.mp hRead
  have hi' : i ∈ ir.instrs := h.instrs_perm.mem_iff.mp (List.mem_flatMap.mpr ⟨n, hn, hi⟩)
  obtain ⟨pre, post, hSplit⟩ := List.append_of_mem hi'
  rcases hIr.scheduled pre i post hSplit m hm' with hIn | hPre
  · exact Or.inl hIn
  · obtain ⟨n', hn', hm''⟩ := h.exists_def (show m ∈ defs ir.instrs by simp [hSplit, hPre])
    have hne : n' ≠ n := by
      rintro rfl
      exact hDef hm''
    exact Or.inr ⟨n', hn', hne,
      (h.outputs_iff n' hn' m).mpr ⟨hm'', Or.inr ⟨n, hn, hne.symm, hm⟩⟩⟩

/-- No input of the program is defined. -/
theorem Sound.not_input (h : g.Sound ir) (hIr : ir.Clean) {n m : Nat} (hn : n ∈ g.nodes)
    (hm : m ∈ (g.mlmi n).getDefs) : m ∉ g.progInputs := by
  intro hIn
  exact hIr.inputs_kept m ((h.progInputs_iff m).mp hIn) (h.mem_defs hn hm)

/-- A node does not read what it defines. -/
theorem Sound.not_self (h : g.Sound ir) {n m : Nat} (hn : n ∈ g.nodes)
    (hm : m ∈ (g.mlmi n).outputs) : m ∉ (g.mlmi n).inputs := by
  intro hIn
  exact (mem_getUsed.mp ((h.inputs_iff n hn m).mp hIn)).2 ((h.outputs_iff n hn m).mp hm).1

/-- An output of `n1` stays an output exactly when it is still needed outside of
the two nodes. -/
theorem Sound.keeps_iff (h : g.Sound ir) {n1 n2 o : Nat} (hn1 : n1 ∈ g.nodes)
    (hn2 : n2 ∈ g.nodes) (ho : o ∈ (g.mlmi n1).outputs) :
    g.Keeps n1 n2 o ↔
      o ∈ ir.outputs ∨ ∃ n' ∈ g.nodes, n' ≠ n1 ∧ n' ≠ n2 ∧ o ∈ (g.mlmi n').inputs := by
  unfold Keeps
  rw [h.progOutputs_eq]
  by_cases hRead : o ∈ (g.mlmi n2).inputs
  · have hNext : n2 ∈ g.nextNodes n1 := (h.forward_iff n1 n2).mpr ⟨hn1, hn2, o, ho, hRead⟩
    have hOthers := one_lt_countP_iff (h.forward_nodup n1) hNext
      (p := fun n => decide (o ∈ (g.mlmi n).inputs)) (by simpa using hRead)
    have hPos : 0 < (g.nextNodes n1).countP (fun n => o ∈ (g.mlmi n).inputs) :=
      List.countP_pos_iff.mpr ⟨n2, hNext, by simpa using hRead⟩
    by_cases hOut : o ∈ ir.outputs
    · simp only [hOut, if_true, true_or, iff_true]
      intro _
      omega
    · simp only [hRead, forall_const, hOut, if_false, Nat.add_zero, false_or]
      refine hOthers.trans ⟨?_, ?_⟩
      · rintro ⟨n', hn', hne, hIn⟩
        obtain ⟨-, hMem, -⟩ := (h.forward_iff n1 n').mp hn'
        have hSelf : n' ≠ n1 := by
          rintro rfl
          exact h.not_self hn1 ho (by simpa using hIn)
        exact ⟨n', hMem, hSelf, hne, by simpa using hIn⟩
      · rintro ⟨n', hn', -, hne, hIn⟩
        exact ⟨n', (h.forward_iff n1 n').mpr ⟨hn1, hn', o, ho, hIn⟩, hne, by simpa using hIn⟩
  · simp only [hRead, IsEmpty.forall_iff, true_iff]
    rcases ((h.outputs_iff n1 hn1 o).mp ho).2 with hOut | ⟨n', hn', hne, hIn⟩
    · exact Or.inl hOut
    · exact Or.inr ⟨n', hn', hne, fun hEq => hRead (hEq ▸ hIn), hIn⟩

/-- The invariant says more than that the parts of a graph agree. -/
theorem Sound.coherent (h : g.Sound ir) (hIr : ir.Clean) : g.Coherent where
  nodes_nodup := h.nodes_nodup
  nodes_lt := h.nodes_lt
  seq_nodup := fun n hn => h.seq_nodup hIr hn
  scheduled := h.scheduled
  inputs_iff := h.inputs_iff
  outputs_sub := fun n hn m hm => ((h.outputs_iff n hn m).mp hm).1
  inputs_from := by
    intro n hn m hm
    rcases h.input_cases hIr hn hm with hIn | ⟨a, ha, -, hOut⟩
    · exact Or.inl ((h.progInputs_iff m).mpr hIn)
    · exact Or.inr ⟨a, ha, hOut⟩
  defs_fresh := fun n hn m hm => h.not_input hIr hn hm
  backward_iff := h.backward_iff
  forward_iff := h.forward_iff

end Facts

/-! ## One merge -/

/-- What a merge of `n1` and `n2` is about to put in their place. -/
structure Merging (ir : HLIRProgram) (g : DFG) (n1 n2 : Nat) (new : MLMI) : Prop where
  sound : g.Sound ir
  clean : ir.Clean
  n1_mem : n1 ∈ g.nodes
  n2_mem : n2 ∈ g.nodes
  ne : n1 ≠ n2
  seq_perm : new.seq.Perm ((g.mlmi n1).seq ++ (g.mlmi n2).seq)
  scheduled : Scheduled new.inputs new.seq
  inputs_iff : ∀ m, m ∈ new.inputs ↔ (m ∈ (g.mlmi n1).inputs ∨ m ∈ (g.mlmi n2).inputs) ∧
    m ∉ (g.mlmi n1).outputs ∧ m ∉ (g.mlmi n2).outputs
  outputs_iff : ∀ m, m ∈ new.outputs ↔
    (m ∈ (g.mlmi n1).outputs ∧ g.Keeps n1 n2 m) ∨ (m ∈ (g.mlmi n2).outputs ∧ g.Keeps n2 n1 m)

section Merge

open scoped List

variable {ir : HLIRProgram} {g g' : DFG} {n1 n2 k : Nat} {new : MLMI}

/-- A merge has what the contraction of the edges needs. -/
theorem Merging.fusion (h : Merging ir g n1 n2 new) : Fusion g n1 n2 new :=
  (h.sound.coherent h.clean).fusion h.sound.acyclic h.n1_mem h.n2_mem h.ne h.seq_perm

/-- The new node defines what the two nodes define. -/
theorem Merging.mem_getDefs (h : Merging ir g n1 n2 new) {m : Nat} :
    m ∈ new.getDefs ↔ m ∈ (g.mlmi n1).getDefs ∨ m ∈ (g.mlmi n2).getDefs :=
  h.fusion.defs_iff m

/-- The new node reads from outside what one of the two read, and neither
defines. -/
theorem Merging.mem_inputs (h : Merging ir g n1 n2 new) {m : Nat} :
    m ∈ new.inputs ↔ (m ∈ (g.mlmi n1).inputs ∨ m ∈ (g.mlmi n2).inputs) ∧ m ∉ new.getDefs := by
  have hs := h.sound
  rw [h.inputs_iff, h.mem_getDefs]
  refine and_congr_right fun hIn => ?_
  constructor
  · rintro ⟨h1, h2⟩ hDef
    -- an operand that one node defines and the other reads is an output
    rcases hDef with hDef | hDef
    · rcases hIn with hIn | hIn
      · exact (mem_getUsed.mp ((hs.inputs_iff n1 h.n1_mem m).mp hIn)).2 hDef
      · exact h1 ((hs.outputs_iff n1 h.n1_mem m).mpr
          ⟨hDef, Or.inr ⟨n2, h.n2_mem, h.ne.symm, hIn⟩⟩)
    · rcases hIn with hIn | hIn
      · exact h2 ((hs.outputs_iff n2 h.n2_mem m).mpr
          ⟨hDef, Or.inr ⟨n1, h.n1_mem, h.ne, hIn⟩⟩)
      · exact (mem_getUsed.mp ((hs.inputs_iff n2 h.n2_mem m).mp hIn)).2 hDef
  · intro hNot
    rw [not_or] at hNot
    exact ⟨fun h1 => hNot.1 ((hs.outputs_iff n1 h.n1_mem m).mp h1).1,
      fun h2 => hNot.2 ((hs.outputs_iff n2 h.n2_mem m).mp h2).1⟩

/-- Its inputs are what it reads and does not define. -/
theorem Merging.inputs_eq_used (h : Merging ir g n1 n2 new) {m : Nat} :
    m ∈ new.inputs ↔ m ∈ new.getUsed := by
  rw [h.mem_inputs, h.fusion.used_iff]

/-- Another node that reads an operand of the new one. -/
def OutsideUse (g : DFG) (n1 n2 m : Nat) : Prop :=
  ∃ n' ∈ g.nodes, n' ≠ n1 ∧ n' ≠ n2 ∧ m ∈ (g.mlmi n').inputs

/-- Its outputs are the definitions that the program or another node needs. -/
theorem Merging.mem_outputs (h : Merging ir g n1 n2 new) {m : Nat} :
    m ∈ new.outputs ↔ m ∈ new.getDefs ∧ (m ∈ ir.outputs ∨ g.OutsideUse n1 n2 m) := by
  have hs := h.sound
  have hSide : ∀ {a b}, a ∈ g.nodes → b ∈ g.nodes →
      ((m ∈ (g.mlmi a).outputs ∧ g.Keeps a b m) ↔
        m ∈ (g.mlmi a).getDefs ∧ (m ∈ ir.outputs ∨ g.OutsideUse a b m)) := by
    intro a b ha hb
    constructor
    · rintro ⟨hOut, hKeeps⟩
      exact ⟨((hs.outputs_iff a ha m).mp hOut).1, (hs.keeps_iff ha hb hOut).mp hKeeps⟩
    · rintro ⟨hDef, hUse⟩
      have hOut : m ∈ (g.mlmi a).outputs := (hs.outputs_iff a ha m).mpr ⟨hDef, hUse.imp_right
        fun ⟨n', hn', hne, _, hIn⟩ => ⟨n', hn', hne, hIn⟩⟩
      exact ⟨hOut, (hs.keeps_iff ha hb hOut).mpr hUse⟩
  have hSwap : g.OutsideUse n2 n1 m ↔ g.OutsideUse n1 n2 m := by
    unfold OutsideUse
    constructor
    · rintro ⟨n', hn', h2, h1, hIn⟩
      exact ⟨n', hn', h1, h2, hIn⟩
    · rintro ⟨n', hn', h1, h2, hIn⟩
      exact ⟨n', hn', h2, h1, hIn⟩
  rw [h.outputs_iff, hSide h.n1_mem h.n2_mem, hSide h.n2_mem h.n1_mem, hSwap, h.mem_getDefs]
  tauto

/-- The number of the new node is new. -/
theorem Merging.fresh_notMem (h : Merging ir g n1 n2 new) : g.fresh ∉ g.nodes :=
  h.fusion.coherent.fresh_notMem

/-- The new node stands for the two. -/
theorem Merging.mem_nodes (h : Merging ir g n1 n2 new) (hr : Replaced g g' n1 n2 new) {n : Nat} :
    n ∈ g'.nodes ↔ n = g.fresh ∨ (n ∈ g.nodes ∧ n ≠ n1 ∧ n ≠ n2) := by
  have hNodup := h.sound.nodes_nodup
  rw [hr.nodes_eq, List.mem_insert_iff, (hNodup.erase n1).mem_erase_iff, hNodup.mem_erase_iff]
  tauto

/-- The new node has the merged multi-instruction. -/
theorem Merging.mlmi_fresh (hr : Replaced g g' n1 n2 new) : g'.mlmi g.fresh = new := by
  rw [hr.mlmi_eq, Function.update_self]

/-- The other nodes keep theirs. -/
theorem Merging.mlmi_old (h : Merging ir g n1 n2 new) (hr : Replaced g g' n1 n2 new) {n : Nat}
    (hn : n ∈ g.nodes) : g'.mlmi n = g.mlmi n := by
  have hne : n ≠ g.fresh := fun hEq => h.fresh_notMem (hEq ▸ hn)
  rw [hr.mlmi_eq, Function.update_of_ne hne]

/-- The instructions are regrouped. -/
theorem Merging.instrs_perm (h : Merging ir g n1 n2 new) (hr : Replaced g g' n1 n2 new) :
    (g'.nodes.flatMap fun n => (g'.mlmi n).seq).Perm ir.instrs := by
  have hn2 := hr.n2_mem
  set rest := (g.nodes.erase n1).erase n2 with hRest
  have hOld : g.nodes.Perm (n1 :: n2 :: rest) :=
    (List.perm_cons_erase h.n1_mem).trans ((List.perm_cons_erase hn2).cons n1)
  have hSub : ∀ n ∈ rest, n ∈ g.nodes := fun n hn =>
    List.mem_of_mem_erase (List.mem_of_mem_erase hn)
  have hNodes : g'.nodes = g.fresh :: rest := by
    rw [hr.nodes_eq, List.insert_of_not_mem fun hMem => h.fresh_notMem (hSub _ hMem)]
  have hSame : (rest.flatMap fun n => (g'.mlmi n).seq) = rest.flatMap fun n => (g.mlmi n).seq :=
    List.flatMap_congr fun n hn => by rw [h.mlmi_old hr (hSub n hn)]
  calc (g'.nodes.flatMap fun n => (g'.mlmi n).seq)
      = new.seq ++ rest.flatMap fun n => (g.mlmi n).seq := by
        rw [hNodes, List.flatMap_cons, Merging.mlmi_fresh hr, hSame]
    _ ~ ((g.mlmi n1).seq ++ (g.mlmi n2).seq) ++ rest.flatMap fun n => (g.mlmi n).seq :=
        h.seq_perm.append_right _
    _ = (n1 :: n2 :: rest).flatMap fun n => (g.mlmi n).seq := by simp
    _ ~ g.nodes.flatMap fun n => (g.mlmi n).seq := (hOld.flatMap_right _).symm
    _ ~ ir.instrs := h.sound.instrs_perm

/-- An operand read by another node of the new graph. -/
theorem Merging.use_iff (h : Merging ir g n1 n2 new) (hr : Replaced g g' n1 n2 new) {n m : Nat}
    (hn : n ∈ g.nodes) (hn1 : n ≠ n1) (hn2 : n ≠ n2) (hm : m ∈ (g.mlmi n).getDefs) :
    (∃ n' ∈ g'.nodes, n' ≠ n ∧ m ∈ (g'.mlmi n').inputs) ↔
      ∃ n' ∈ g.nodes, n' ≠ n ∧ m ∈ (g.mlmi n').inputs := by
  have hs := h.sound
  have hNotNew : m ∉ new.getDefs := by
    rw [h.mem_getDefs]
    rintro (hDef | hDef)
    · exact hn1 (hs.def_unique h.clean hn h.n1_mem hm hDef)
    · exact hn2 (hs.def_unique h.clean hn h.n2_mem hm hDef)
  constructor
  · rintro ⟨n', hn', hne, hIn⟩
    rcases (h.mem_nodes hr).mp hn' with rfl | ⟨hn', -, -⟩
    · rw [Merging.mlmi_fresh hr, h.mem_inputs] at hIn
      rcases hIn.1 with hIn | hIn
      · exact ⟨n1, h.n1_mem, hn1.symm, hIn⟩
      · exact ⟨n2, h.n2_mem, hn2.symm, hIn⟩
    · rw [h.mlmi_old hr hn'] at hIn
      exact ⟨n', hn', hne, hIn⟩
  · rintro ⟨n', hn', hne, hIn⟩
    -- a reader that was merged away lives on in the new node
    have hNew : m ∈ (g.mlmi n1).inputs ∨ m ∈ (g.mlmi n2).inputs →
        ∃ n' ∈ g'.nodes, n' ≠ n ∧ m ∈ (g'.mlmi n').inputs := by
      intro hIn
      refine ⟨g.fresh, (h.mem_nodes hr).mpr (Or.inl rfl), fun hEq => h.fresh_notMem (hEq ▸ hn), ?_⟩
      rw [Merging.mlmi_fresh hr]
      exact h.mem_inputs.mpr ⟨hIn, hNotNew⟩
    by_cases h1 : n' = n1
    · exact hNew (Or.inl (h1 ▸ hIn))
    by_cases h2 : n' = n2
    · exact hNew (Or.inr (h2 ▸ hIn))
    · exact ⟨n', (h.mem_nodes hr).mpr (Or.inr ⟨hn', h1, h2⟩), hne, by rwa [h.mlmi_old hr hn']⟩

/-- What another node needs of the two is what another node needs of the new one. -/
theorem Merging.outsideUse_iff (h : Merging ir g n1 n2 new) (hr : Replaced g g' n1 n2 new)
    {m : Nat} : g.OutsideUse n1 n2 m ↔
      ∃ n' ∈ g'.nodes, n' ≠ g.fresh ∧ m ∈ (g'.mlmi n').inputs := by
  constructor
  · rintro ⟨n', hn', h1, h2, hIn⟩
    exact ⟨n', (h.mem_nodes hr).mpr (Or.inr ⟨hn', h1, h2⟩), fun hEq => h.fresh_notMem (hEq ▸ hn'),
      by rwa [h.mlmi_old hr hn']⟩
  · rintro ⟨n', hn', hne, hIn⟩
    obtain ⟨hn', h1, h2⟩ := ((h.mem_nodes hr).mp hn').resolve_left hne
    exact ⟨n', hn', h1, h2, by rwa [h.mlmi_old hr hn'] at hIn⟩

/-- An edge of the new graph is an output that another node reads. -/
theorem Merging.forward_iff (h : Merging ir g n1 n2 new) (hr : Replaced g g' n1 n2 new)
    (a b : Nat) :
    g'.Edge a b ↔ a ∈ g'.nodes ∧ b ∈ g'.nodes ∧
      ∃ m ∈ (g'.mlmi a).outputs, m ∈ (g'.mlmi b).inputs := by
  have hs := h.sound
  rw [h.fusion.edge_iff hr, h.mem_nodes hr, h.mem_nodes hr]
  constructor
  · rintro (⟨rfl, hb1, hb2, hEdge⟩ | ⟨rfl, ha1, ha2, hEdge⟩ | ⟨ha1, ha2, hb1, hb2, hEdge⟩)
    · -- out of the new node: the output is still needed outside
      have hFind : ∃ n m, (n = n1 ∨ n = n2) ∧ b ∈ g.nodes ∧ m ∈ (g.mlmi n).getDefs ∧
          m ∈ (g.mlmi b).inputs := by
        rcases hEdge with hEdge | hEdge
        · obtain ⟨hn, hb, m, hOut, hIn⟩ := (hs.forward_iff _ _).mp hEdge
          exact ⟨n1, m, Or.inl rfl, hb, ((hs.outputs_iff _ hn m).mp hOut).1, hIn⟩
        · obtain ⟨hn, hb, m, hOut, hIn⟩ := (hs.forward_iff _ _).mp hEdge
          exact ⟨n2, m, Or.inr rfl, hb, ((hs.outputs_iff _ hn m).mp hOut).1, hIn⟩
      obtain ⟨n, m, hn, hb, hDef, hIn⟩ := hFind
      refine ⟨Or.inl rfl, Or.inr ⟨hb, hb1, hb2⟩, m, ?_, by rwa [h.mlmi_old hr hb]⟩
      rw [Merging.mlmi_fresh hr, h.mem_outputs, h.mem_getDefs]
      refine ⟨?_, Or.inr ⟨b, hb, hb1, hb2, hIn⟩⟩
      rcases hn with rfl | rfl
      · exact Or.inl hDef
      · exact Or.inr hDef
    · -- into the new node: what was read by one of the two
      obtain ⟨m, hUsed, -, hDef⟩ := h.fusion.defines_input.mpr ⟨ha1, ha2, hEdge⟩
      obtain ⟨ha, hDef⟩ := (hs.backward_iff m a).mp hDef
      have hIn := h.inputs_eq_used.mpr hUsed
      refine ⟨Or.inr ⟨ha, ha1, ha2⟩, Or.inl rfl, m, ?_, by rwa [Merging.mlmi_fresh hr]⟩
      rw [h.mlmi_old hr ha, hs.outputs_iff a ha]
      refine ⟨hDef, Or.inr ?_⟩
      rcases (h.mem_inputs.mp hIn).1 with hIn | hIn
      · exact ⟨n1, h.n1_mem, ha1.symm, hIn⟩
      · exact ⟨n2, h.n2_mem, ha2.symm, hIn⟩
    -- between two other nodes nothing has changed
    · obtain ⟨ha, hb, m, hOut, hIn⟩ := (hs.forward_iff a b).mp hEdge
      exact ⟨Or.inr ⟨ha, ha1, ha2⟩, Or.inr ⟨hb, hb1, hb2⟩, m, by rwa [h.mlmi_old hr ha],
        by rwa [h.mlmi_old hr hb]⟩
  · rintro ⟨rfl | ⟨ha, ha1, ha2⟩, hb, m, hOut, hIn⟩
    · rw [Merging.mlmi_fresh hr, h.mem_outputs] at hOut
      rcases hb with rfl | ⟨hb, hb1, hb2⟩
      · rw [Merging.mlmi_fresh hr] at hIn
        -- the new node does not read what it defines
        exact absurd hOut.1 (h.mem_inputs.mp hIn).2
      rw [h.mlmi_old hr hb] at hIn
      refine Or.inl ⟨rfl, hb1, hb2, ?_⟩
      rcases h.mem_getDefs.mp hOut.1 with hDef | hDef
      · exact Or.inl ((hs.forward_iff n1 b).mpr ⟨h.n1_mem, hb, m,
          (hs.outputs_iff n1 h.n1_mem m).mpr ⟨hDef, Or.inr ⟨b, hb, hb1, hIn⟩⟩, hIn⟩)
      · exact Or.inr ((hs.forward_iff n2 b).mpr ⟨h.n2_mem, hb, m,
          (hs.outputs_iff n2 h.n2_mem m).mpr ⟨hDef, Or.inr ⟨b, hb, hb2, hIn⟩⟩, hIn⟩)
    · rw [h.mlmi_old hr ha] at hOut
      rcases hb with rfl | ⟨hb, hb1, hb2⟩
      · rw [Merging.mlmi_fresh hr] at hIn
        refine Or.inr (Or.inl ⟨rfl, h.fusion.defines_input.mp ⟨m, h.inputs_eq_used.mp hIn, ?_, ?_⟩⟩)
        · exact hs.not_input h.clean ha ((hs.outputs_iff a ha m).mp hOut).1
        · exact (hs.backward_iff m a).mpr ⟨ha, ((hs.outputs_iff a ha m).mp hOut).1⟩
      · rw [h.mlmi_old hr hb] at hIn
        exact Or.inr (Or.inr ⟨ha1, ha2, hb1, hb2, (hs.forward_iff a b).mpr ⟨ha, hb, m, hOut, hIn⟩⟩)

/-- The new node is in a list of edges once. -/
theorem Merging.forward_nodup (h : Merging ir g n1 n2 new) (hr : Replaced g g' n1 n2 new)
    (a : Nat) : (g'.forwardEdges a).Nodup := by
  have hs := h.sound
  have hAfter := h.fusion.forwardAfter hr
  by_cases ha : a = g.fresh
  · rw [ha, hAfter.fresh]
    exact List.nodup_dedup _
  by_cases ha1 : a = n1
  · rw [ha1, hAfter.first]
    exact List.nodup_nil
  by_cases ha2 : a = n2
  · rw [ha2, hAfter.second]
    exact List.nodup_nil
  by_cases hLeads : g.LeadsTo n1 n2 a
  · rw [hAfter.leading a hLeads]
    exact ((hs.forward_nodup a).filter _).insert
  · rw [hAfter.other a ha ha1 ha2 hLeads]
    exact hs.forward_nodup a

/-- **A merge keeps the invariant**, if there is no detour between the nodes. -/
theorem Merging.sound_after (h : Merging ir g n1 n2 new) (hr : Replaced g g' n1 n2 new)
    (h12 : NoDetour g.Edge n1 n2) (h21 : NoDetour g.Edge n2 n1) : g'.Sound ir := by
  have hs := h.sound
  refine ⟨?nodes_nodup, ?nodes_lt, ?progInputs_iff, ?progOutputs_eq, h.instrs_perm hr, ?scheduled,
    ?inputs_iff, ?outputs_iff, ?backward_iff, h.forward_iff hr, h.forward_nodup hr,
    hs.acyclic.contract (h.fusion.contracts hr) h12 h21⟩
  case nodes_nodup =>
    rw [hr.nodes_eq]
    exact ((hs.nodes_nodup.erase n1).erase n2).insert
  case nodes_lt =>
    intro n hn
    rw [hr.fresh_eq]
    rcases (h.mem_nodes hr).mp hn with rfl | ⟨hn, -, -⟩
    · exact Nat.lt_succ_self _
    · exact Nat.lt_succ_of_lt (hs.nodes_lt n hn)
  case progInputs_iff =>
    rw [hr.progInputs_eq]
    exact hs.progInputs_iff
  case progOutputs_eq =>
    rw [hr.progOutputs_eq]
    exact hs.progOutputs_eq
  case scheduled =>
    intro n hn
    rcases (h.mem_nodes hr).mp hn with rfl | ⟨hn, -, -⟩
    · rw [Merging.mlmi_fresh hr]
      exact h.scheduled
    · rw [h.mlmi_old hr hn]
      exact hs.scheduled n hn
  case inputs_iff =>
    intro n hn m
    rcases (h.mem_nodes hr).mp hn with rfl | ⟨hn, -, -⟩
    · rw [Merging.mlmi_fresh hr]
      exact h.inputs_eq_used
    · rw [h.mlmi_old hr hn]
      exact hs.inputs_iff n hn m
  -- the new node gives what either gave and is used outside both
  case outputs_iff =>
    intro n hn m
    rcases (h.mem_nodes hr).mp hn with rfl | ⟨hn, hn1, hn2⟩
    · rw [← h.outsideUse_iff hr, Merging.mlmi_fresh hr]
      exact h.mem_outputs
    · rw [h.mlmi_old hr hn, hs.outputs_iff n hn m]
      refine and_congr_right fun hDef => or_congr_right ?_
      exact (h.use_iff hr hn hn1 hn2 hDef).symm
  -- the cell is defined in the new node, or where it was
  case backward_iff =>
    intro m n
    rw [hr.backward_eq, h.mem_nodes hr]
    by_cases hDef : m ∈ new.getDefs
    · simp only [if_pos hDef, Option.some.injEq]
      constructor
      · rintro rfl
        exact ⟨Or.inl rfl, by rwa [Merging.mlmi_fresh hr]⟩
      · rintro ⟨rfl | ⟨hn, hn1, hn2⟩, hm⟩
        · rfl
        · rw [h.mlmi_old hr hn] at hm
          rcases h.mem_getDefs.mp hDef with hDef | hDef
          · exact absurd (hs.def_unique h.clean hn h.n1_mem hm hDef) hn1
          · exact absurd (hs.def_unique h.clean hn h.n2_mem hm hDef) hn2
    · simp only [if_neg hDef]
      rw [hs.backward_iff m n]
      constructor
      · rintro ⟨hn, hm⟩
        have hNot : ¬ (m ∈ (g.mlmi n1).getDefs ∨ m ∈ (g.mlmi n2).getDefs) := fun hOr =>
          hDef (h.mem_getDefs.mpr hOr)
        refine ⟨Or.inr ⟨hn, ?_, ?_⟩, by rwa [h.mlmi_old hr hn]⟩
        · rintro rfl
          exact hNot (Or.inl hm)
        · rintro rfl
          exact hNot (Or.inr hm)
      · rintro ⟨rfl | ⟨hn, -, -⟩, hm⟩
        · rw [Merging.mlmi_fresh hr] at hm
          exact absurd hm hDef
        · rw [h.mlmi_old hr hn] at hm
          exact ⟨hn, hm⟩

/-- The node the passes are about to make. -/
theorem Sound.merging_of (h : g.Sound ir) (hIr : ir.Clean) (hn1 : n1 ∈ g.nodes)
    (hn2 : n2 ∈ g.nodes) (hne : n1 ≠ n2) {ord ord₁ ord₂ : Orders} {fuel : Nat} {mls : List HLI}
    {outputs : List Nat}
    (hInstrs : g.computeMergedInstrs ord fuel n1 n2 (g.computeMergedInputs ord₁ n1 n2) = .ok mls)
    (hOutputs : g.computeMergedOutputs ord₂ n1 n2 = .ok outputs) (ord₃ : Orders) :
    Merging ir g n1 n2 ⟨mls, g.computeMergedInputs ord₃ n1 n2, outputs⟩ := by
  obtain ⟨hPerm, hSched⟩ := computeMergedInstrs_ok hInstrs
  rw [(((h.coherent hIr).schedulable h.acyclic).merged_nodup hn1 hn2 hne).dedup] at hPerm
  refine ⟨h, hIr, hn1, hn2, hne, hPerm, hSched.mono fun m hm => ?_,
    fun m => mem_computeMergedInputs, (computeMergedOutputs_ok hOutputs).2⟩
  exact mem_computeMergedInputs.mpr (mem_computeMergedInputs.mp hm)

/-- What `merge_nodes` is given by the passes, and what it does. -/
theorem Sound.merging (h : g.Sound ir) (hIr : ir.Clean) {ord ord₁ ord₂ : Orders}
    {fuel fuel' : Nat} {mls : List HLI}
    (hInstrs : g.computeMergedInstrs ord fuel n1 n2 (g.computeMergedInputs ord₁ n1 n2) = .ok mls)
    (hMerge : g.mergeNodes ord₂ fuel' n1 n2 (some mls) = .ok (k, g')) :
    ∃ new, Merging ir g n1 n2 new ∧ Replaced g g' n1 n2 new := by
  obtain ⟨outputs, hOutputs, hReplace⟩ := mergeNodes_some_ok hMerge
  obtain ⟨-, hr⟩ := replaceNodes_ok hReplace
  obtain ⟨hne, hn2⟩ := h.nodes_nodup.mem_erase_iff.mp hr.n2_mem
  exact ⟨_, h.merging_of hIr hr.n1_mem hn2 hne.symm hInstrs hOutputs _, hr⟩

end Merge

/-! ## Runs -/

section Runs

variable {ir : HLIRProgram} {g : DFG}

/-- The nodes of the initial graph are the positions of the instructions. -/
theorem Initial.mem_nodes (h : Initial ir g) {n : Nat} :
    n ∈ g.nodes ↔ ∃ i, ir.instrs[n]? = some i := by
  rw [h.nodes_eq, List.mem_range]
  constructor
  · exact fun hn => ⟨ir.instrs[n], List.getElem?_eq_getElem hn⟩
  · rintro ⟨i, hi⟩
    exact (List.getElem?_eq_some_iff.mp hi).1

/-- An edge of the initial graph goes forward in the program. -/
theorem Initial.edge_lt (h : Initial ir g) (hIr : ir.Clean) {a b : Nat} (hEdge : g.Edge a b) :
    a < b := by
  obtain ⟨i, j, hi, hj, hm⟩ := (h.forward_iff a b).mp hEdge
  obtain ⟨hb, rfl⟩ := List.getElem?_eq_some_iff.mp hj
  have hSplit : ir.instrs = ir.instrs.take b ++ ir.instrs[b] :: ir.instrs.drop (b + 1) := by
    rw [← List.drop_eq_getElem_cons hb, List.take_append_drop]
  have hPre := (hIr.scheduled _ _ _ hSplit i.dst hm).resolve_left fun hIn =>
    hIr.inputs_kept i.dst hIn (List.mem_map_of_mem (List.mem_of_getElem? hi))
  -- the definition found before `b` is the one at `a`
  obtain ⟨c, hc⟩ := List.mem_iff_getElem?.mp hPre
  rw [defs, List.map_take, List.getElem?_take] at hc
  split at hc
  · next hcb =>
    have hLt : c < (ir.instrs.map Instr.dst).length := (List.getElem?_eq_some_iff.mp hc).1
    have hSame : c = a := (List.getElem?_inj hLt hIr.written_once).mp (by
      rw [hc, List.getElem?_map, hi]
      rfl)
    omega
  · cases hc

/-- The initial graph is sound: one node for each instruction. -/
theorem Initial.sound (h : Initial ir g) (hIr : ir.Clean) : g.Sound ir := by
  have hRead : ∀ n i, ir.instrs[n]? = some i → (g.mlmi n).inputs = i.memInputs := fun n i hi => by
    rw [h.mlmi_eq n i hi, MLMI.fromHLI]
  have hDefs : ∀ n i, ir.instrs[n]? = some i → (g.mlmi n).getDefs = [i.dst] := fun n i hi => by
    rw [h.mlmi_eq n i hi]
    rfl
  refine ⟨?nodes_nodup, ?nodes_lt, h.progInputs_iff, h.progOutputs_eq, ?instrs_perm, ?scheduled,
    ?inputs_iff, ?outputs_iff, ?backward_iff, ?forward_iff, h.forward_nodup, ?acyclic⟩
  case nodes_nodup =>
    rw [h.nodes_eq]
    exact List.nodup_range
  case nodes_lt =>
    intro n hn
    rw [h.nodes_eq, List.mem_range] at hn
    rw [h.fresh_eq]
    exact hn
  case instrs_perm =>
    -- one instruction per node, in order
    have hSeq : (List.range ir.instrs.length).map (fun n => (g.mlmi n).seq) =
        ir.instrs.map fun i => [i] := by
      apply List.ext_getElem
      · simp
      · intro n hn hn'
        have hLt : n < ir.instrs.length := by simpa using hn
        simp [h.mlmi_eq n _ (List.getElem?_eq_getElem hLt), MLMI.fromHLI]
    rw [h.nodes_eq, List.flatMap_def, hSeq, ← List.flatMap_def]
    simp
  case scheduled =>
    intro n hn
    obtain ⟨i, hi⟩ := h.mem_nodes.mp hn
    rw [h.mlmi_eq n i hi]
    exact scheduled_cons.mpr ⟨fun m hm => hm, Scheduled.nil _⟩
  case inputs_iff =>
    intro n hn m
    obtain ⟨i, hi⟩ := h.mem_nodes.mp hn
    rw [hRead n i hi, h.mlmi_eq n i hi, mem_getUsed_fromHLI hIr (List.mem_of_getElem? hi)]
  case outputs_iff =>
    intro n hn m
    obtain ⟨i, hi⟩ := h.mem_nodes.mp hn
    rw [hDefs n i hi, h.mlmi_eq n i hi]
    show m ∈ [i.dst] ↔ _
    refine ⟨fun hm => ⟨hm, ?_⟩, fun hm => hm.1⟩
    obtain rfl := List.mem_singleton.mp hm
    have hMem := List.mem_of_getElem? hi
    -- no instruction is dead: its result is an output or another node reads it
    refine (hIr.no_dead i.dst (List.mem_map_of_mem hMem)).imp_right fun hUse => ?_
    obtain ⟨j, hj, hm⟩ := List.mem_flatMap.mp hUse
    obtain ⟨n', hn'⟩ := List.mem_iff_getElem?.mp hj
    refine ⟨n', h.mem_nodes.mpr ⟨j, hn'⟩, ?_, by rwa [hRead n' j hn']⟩
    rintro rfl
    rw [hi, Option.some.injEq] at hn'
    subst hn'
    exact hIr.not_self hMem hm
  case backward_iff =>
    intro m n
    rw [h.backward_iff, h.mem_nodes]
    constructor
    · rintro ⟨i, hi, rfl⟩
      exact ⟨⟨i, hi⟩, by simp [hDefs n i hi]⟩
    · rintro ⟨⟨i, hi⟩, hm⟩
      rw [hDefs n i hi, List.mem_singleton] at hm
      exact ⟨i, hi, hm.symm⟩
  case forward_iff =>
    intro a b
    show b ∈ g.forwardEdges a ↔ _
    rw [h.forward_iff, h.mem_nodes, h.mem_nodes]
    constructor
    · rintro ⟨i, j, hi, hj, hm⟩
      exact ⟨⟨i, hi⟩, ⟨j, hj⟩, i.dst, by simp [h.mlmi_eq a i hi, MLMI.fromHLI],
        by rwa [hRead b j hj]⟩
    · rintro ⟨⟨i, hi⟩, ⟨j, hj⟩, m, hOut, hIn⟩
      rw [h.mlmi_eq a i hi, MLMI.fromHLI, List.mem_singleton] at hOut
      rw [hRead b j hj] at hIn
      exact ⟨i, j, hi, hj, hOut ▸ hIn⟩
  -- edges go from earlier instructions to later ones
  case acyclic =>
    have hLt : ∀ {a b}, Relation.TransGen g.Edge a b → a < b := by
      intro a b hPath
      induction hPath with
      | single hEdge => exact h.edge_lt hIr hEdge
      | tail _ hEdge ih => exact lt_trans ih (h.edge_lt hIr hEdge)
    exact fun x hPath => lt_irrefl x (hLt hPath)

end Runs

end DFG

/-- One merge of a run keeps the invariant: no check lets a detour through. -/
theorem DFG.Sound.mergedBy {cfg : Config} {ir : HLIRProgram} {check : MergeCheck} {g g' : DFG}
    {n1 n2 : Nat} (h : g.Sound ir) (hIr : ir.Clean) (hMerge : MergedBy cfg check g n1 n2 g') :
    g'.Sound ir := by
  cases hMerge with
  | oneOutput hShould hMerge =>
    obtain ⟨hNext, -, -, hInstrs⟩ := shouldMergeWithNext_ok hShould
    obtain ⟨new, hMerging, hReplaced⟩ := h.merging hIr hInstrs hMerge
    -- the only successor is the one it is merged with, so nothing leads around
    have hOnly : ∀ x, g.Edge n1 x → x = n2 := by
      intro x hx
      have hMem : x ∈ g.nextNodes n1 := hx
      rw [hNext] at hMem
      exact List.mem_singleton.mp hMem
    have hEdge : g.Edge n1 n2 := by
      show n2 ∈ g.nextNodes n1
      rw [hNext]
      exact List.mem_singleton_self n2
    exact hMerging.sound_after hReplaced (noDetour_of_unique hOnly)
      (noDetour_of_edge h.acyclic hEdge)
  | scored hScore hMerge =>
    obtain ⟨-, hNone⟩ | ⟨mls', hMls, hOk⟩ := mergeScore_ok hScore
    · cases hNone
    cases hMls
    obtain ⟨new, hMerging, hReplaced⟩ := h.merging hIr hOk.instrs_eq hMerge
    obtain ⟨h12, h21⟩ := DFG.checkDominationForMerge_ok hOk.domination
    exact hMerging.sound_after hReplaced h12 h21

/-- **Every graph of every run is sound.** -/
theorem Clustering.sound {cfg : Config} {ir : HLIRProgram} (hIr : ir.Clean) {log : List MergeStep}
    {g : DFG} (hRun : Clustering cfg ir log g) : g.Sound ir := by
  induction hRun with
  | start h => exact (DFG.buildGraph_initial hIr h).sound hIr
  | merge _ hMerge ih => exact ih.mergedBy hIr hMerge

end Obscure
