import Obscure.Clusterization.Limits
import Obscure.Lowering.ToLLIR
import Obscure.Runtime.Refinement

/-!
# OBSCURE — what is revealed without universalization

`serialize` marks a multi-instruction as revealing as soon as one of its outputs
is a program output, and the secure element then returns all of its outputs in
clear. With `-no-universal` the clusters go to `lower` as they are: nothing
separates program outputs from values that other clusters read, and nothing
copies a program output that is an input cell.

* `RevealsOutputs`      — what the runtime relies on;
* `revealsOutputs_iff`  — it holds exactly when every program output is computed,
  and no cluster that computes one computes a value that another cluster reads;
* `runnable_of_revealsOutputs` — with the limits, it is what `interpret` needs.
-/

namespace Obscure

open Lib

/-- A revealing multi-instruction only has program outputs, which no other one
reads, and every program output is revealed. -/
structure LLIRProgram.RevealsOutputs (ir : LLIRProgram) : Prop where
  only_outputs : ∀ pre llmi post, ir.instrs = pre ++ llmi :: post → ir.revealFlag llmi = 1 →
    ∀ m ∈ llmi.outputs, m ∈ ir.outputs ∧ ∀ other ∈ pre ++ post, m ∉ other.inputs
  all_outputs : ∀ m ∈ ir.outputs, ∃ llmi ∈ ir.instrs, ir.revealFlag llmi = 1 ∧ m ∈ llmi.outputs

/-- Every program output is computed, and a cluster that computes one computes
nothing that another cluster reads. A cluster without inputs is lowered with
cell 0 as a dummy input, which must not be an output of another cluster. -/
structure DFG.OutputsApart (ir : HLIRProgram) (g : DFG) : Prop where
  computed : ∀ o ∈ ir.outputs, o ∈ defs ir.instrs
  apart : ∀ n ∈ g.nodes, (∃ o ∈ ir.outputs, o ∈ defs (g.mlmi n).seq) →
    ∀ n' ∈ g.nodes, n' ≠ n → ∀ m ∈ defs (g.mlmi n).seq,
      m ∉ reads (g.mlmi n').seq
  dummy : 0 ∈ ir.outputs → ∀ n ∈ g.nodes, 0 ∈ defs (g.mlmi n).seq →
    ∀ n' ∈ g.nodes, n' ≠ n → (g.mlmi n').inputs ≠ []

theorem revealFlag_eq_one {ir : LLIRProgram} {llmi : LLMI} :
    ir.revealFlag llmi = 1 ↔ ∃ m ∈ llmi.outputs, m ∈ ir.outputs := by
  rw [LLIRProgram.revealFlag]
  by_cases h : ∃ m ∈ llmi.outputs, m ∈ ir.outputs
  · simp [h]
  · simp [h]

/-- Lowering keeps the outputs of a node and its inputs. -/
theorem mlmiToLLMI_io {o : SetOrder Nat} {mlmi : MLMI} {r lOut : Nat} {llmi : LLMI}
    (h : mlmiToLLMI o mlmi r lOut = .ok llmi) :
    llmi.inputs = mlmi.loweredInputs ∧ llmi.outputs = mlmi.outputs := by
  unfold mlmiToLLMI at h
  split at h
  · cases h
  · split at h
    · cases h
    · cases h
      exact ⟨rfl, rfl⟩

section Reveal

variable {ir : HLIRProgram} {g : DFG} {llir : LLIRProgram} {order : List Nat}

/-- The multi-instructions are the nodes of `order`, as far as cells go. -/
def Mirrors (g : DFG) (order : List Nat) (llir : LLIRProgram) : Prop :=
  List.Forall₂ (fun n (llmi : LLMI) => llmi.inputs = (g.mlmi n).loweredInputs ∧
    llmi.outputs = (g.mlmi n).outputs) order llir.instrs

/-- Another node reads the cell, or is lowered with it as a dummy. -/
theorem mem_loweredInputs (h : g.Sound ir) (hIr : ir.Clean) {n n' m : Nat} (hn : n ∈ g.nodes)
    (hn' : n' ∈ g.nodes) (hne : n' ≠ n) (hm : m ∈ (g.mlmi n).getDefs) :
    m ∈ (g.mlmi n').loweredInputs ↔
      m ∈ reads (g.mlmi n').seq ∨ (m = 0 ∧ (g.mlmi n').inputs = []) := by
  have hApart : m ∉ (g.mlmi n').getDefs := fun hm' => hne (h.def_unique hIr hn' hn hm' hm)
  have hInputs : m ∈ (g.mlmi n').inputs ↔ m ∈ reads (g.mlmi n').seq := by
    rw [h.inputs_iff n' hn', DFG.mem_getUsed]
    exact ⟨fun h => h.1, fun h => ⟨h, hApart⟩⟩
  unfold MLMI.loweredInputs
  split
  · next hNil =>
      have hNot : m ∉ reads (g.mlmi n').seq := fun hRead => by
        have := hInputs.mpr hRead
        rw [hNil] at this
        cases this
      simp [hNot, hNil]
  · next hSome => simp [hInputs, hSome]

/-- Clusters that keep outputs apart reveal exactly the outputs. -/
theorem revealsOutputs_of_apart (h : g.Sound ir) (hIr : ir.Clean) (hPerm : order.Perm g.nodes)
    (hMirror : Mirrors g order llir) (hOutputs : llir.outputs = ir.outputs)
    (hApart : g.OutputsApart ir) : llir.RevealsOutputs := by
  have hNodup : order.Nodup := hPerm.nodup_iff.mpr h.nodes_nodup
  refine ⟨fun pre llmi post hSplit hFlag m hm => ?_, fun o ho => ?_⟩
  · rw [Mirrors, hSplit] at hMirror
    obtain ⟨pre', n, post', rfl, hPre, ⟨-, hOut⟩, hPost⟩ := forall₂_append_cons hMirror
    have hn : n ∈ g.nodes := hPerm.mem_iff.mp (by simp)
    obtain ⟨o, ho, hoOut⟩ := revealFlag_eq_one.mp hFlag
    rw [hOutputs] at hoOut ⊢
    rw [hOut] at ho hm
    have hUnread := hApart.apart n hn ⟨o, hoOut, h.outputs_sub hn ho⟩
    have hmOut : m ∈ ir.outputs := by
      refine ((h.outputs_iff n hn m).mp hm).2.resolve_right ?_
      rintro ⟨n', hn', hne, hIn⟩
      have hRead := (DFG.mem_getUsed.mp ((h.inputs_iff n' hn' m).mp hIn)).1
      exact hUnread n' hn' hne m (h.outputs_sub hn hm) hRead
    refine ⟨hmOut, fun other hOther hIn => ?_⟩
    obtain ⟨n', hn', hIo⟩ := exists_left_of_forall₂ (List.rel_append hPre hPost) hOther
    have hne : n' ≠ n := by
      rintro rfl
      exact (List.nodup_cons.mp (List.nodup_middle.mp hNodup)).1 hn'
    have hMem : n' ∈ g.nodes := by
      refine hPerm.mem_iff.mp ?_
      rw [List.mem_append, List.mem_cons]
      exact (List.mem_append.mp hn').imp_right Or.inr
    rw [hIo.1, mem_loweredInputs h hIr hn hMem hne (h.outputs_sub hn hm)] at hIn
    rcases hIn with hRead | ⟨rfl, hNil⟩
    · exact hUnread n' hMem hne m (h.outputs_sub hn hm) hRead
    · exact hApart.dummy hmOut n hn (h.outputs_sub hn hm) n' hMem hne hNil
  · rw [hOutputs] at ho
    obtain ⟨n, hn, hDef⟩ := h.exists_def (hApart.computed o ho)
    have hOut : o ∈ (g.mlmi n).outputs := (h.outputs_iff n hn o).mpr ⟨hDef, Or.inl ho⟩
    obtain ⟨llmi, hLlmi, hIo⟩ := exists_right_of_forall₂ hMirror (hPerm.mem_iff.mpr hn)
    refine ⟨llmi, hLlmi, revealFlag_eq_one.mpr ⟨o, hIo.2 ▸ hOut, hOutputs ▸ ho⟩, hIo.2 ▸ hOut⟩

/-- Clusters that reveal exactly the outputs keep them apart. -/
theorem apart_of_revealsOutputs (h : g.Sound ir) (hIr : ir.Clean) (hPerm : order.Perm g.nodes)
    (hMirror : Mirrors g order llir) (hOutputs : llir.outputs = ir.outputs)
    (hReveals : llir.RevealsOutputs) : g.OutputsApart ir := by
  -- an output of a revealing cluster is not among the inputs of another one
  have hUnread : ∀ n ∈ g.nodes, ∀ o ∈ ir.outputs, o ∈ (g.mlmi n).getDefs →
      ∀ n' ∈ g.nodes, n' ≠ n → ∀ m ∈ (g.mlmi n).outputs, m ∉ (g.mlmi n').loweredInputs := by
    intro n hn o ho hDef n' hn' hne m hm hIn
    obtain ⟨before, after, rfl⟩ := List.append_of_mem (hPerm.mem_iff.mpr hn)
    obtain ⟨pre, llmi, post, hSplit, hPre, hIo, hPost⟩ := forall₂_append_cons hMirror.flip
    have hFlag : llir.revealFlag llmi = 1 := by
      refine revealFlag_eq_one.mpr ⟨o, ?_, hOutputs ▸ ho⟩
      rw [hIo.2]
      exact (h.outputs_iff n hn o).mpr ⟨hDef, Or.inl ho⟩
    have hMem : n' ∈ before ++ after := by
      have := hPerm.mem_iff.mpr hn'
      simp only [List.mem_append, List.mem_cons, hne, false_or] at this ⊢
      exact this
    obtain ⟨other, hOther, hEq⟩ := exists_left_of_forall₂ (List.rel_append hPre hPost) hMem
    exact (hReveals.only_outputs pre llmi post hSplit hFlag m (hIo.2 ▸ hm)).2 other hOther
      (hEq.1 ▸ hIn)
  refine ⟨fun o ho => ?_, fun n hn ⟨o, ho, hDef⟩ n' hn' hne m hm hRead => ?_,
    fun h0 n hn hDef n' hn' hne hNil => ?_⟩
  · obtain ⟨llmi, hLlmi, -, hOut⟩ := hReveals.all_outputs o (hOutputs ▸ ho)
    obtain ⟨n, hn, hIo⟩ := exists_left_of_forall₂ hMirror hLlmi
    have hn := hPerm.mem_iff.mp hn
    exact h.mem_defs hn (h.outputs_sub hn (hIo.2 ▸ hOut))
  · have hIn : m ∈ (g.mlmi n').inputs := by
      rw [h.inputs_iff n' hn', DFG.mem_getUsed]
      exact ⟨hRead, fun hm' => hne (h.def_unique hIr hn' hn hm' hm)⟩
    have hOut : m ∈ (g.mlmi n).outputs :=
      (h.outputs_iff n hn m).mpr ⟨hm, Or.inr ⟨n', hn', hne, hIn⟩⟩
    exact hUnread n hn o ho hDef n' hn' hne m hOut
      ((mem_loweredInputs h hIr hn hn' hne hm).mpr (Or.inl hRead))
  · have hOut : 0 ∈ (g.mlmi n).outputs := (h.outputs_iff n hn 0).mpr ⟨hDef, Or.inl h0⟩
    exact hUnread n hn 0 h0 hDef n' hn' hne 0 hOut
      ((mem_loweredInputs h hIr hn hn' hne hDef).mpr (Or.inr ⟨rfl, hNil⟩))

/-- **What `-no-universal` reveals.** From the clusters on, the program handed to
`serialize` reveals exactly its outputs if and only if every output is computed
and the clusters keep outputs apart from what others read. -/
theorem revealsOutputs_iff (hIr : ir.Clean) {cfg : Config} {ord ord' : Orders} {fuel fuel' : Nat}
    (hCluster : clusterize ord fuel cfg ir = .ok g)
    (hLower : lower ord' fuel' cfg (initialConvertionToMLIR ir) g = .ok llir) :
    llir.RevealsOutputs ↔ g.OutputsApart ir := by
  obtain ⟨log, hRun⟩ := clusterize_run hCluster
  have hSound := hRun.sound hIr
  obtain ⟨order, hTop, hInstrs, -, hOutputs, -⟩ :=
    DFG.toLLIR_order (hSound.consistent hIr) hLower
  have hMirror : Mirrors g order llir := by
    refine hInstrs.imp fun n llmi ⟨o, hLlmi⟩ => ?_
    exact mlmiToLLMI_io hLlmi
  rw [hSound.progOutputs_eq] at hOutputs
  exact ⟨apart_of_revealsOutputs hSound hIr hTop.perm hMirror hOutputs,
    revealsOutputs_of_apart hSound hIr hTop.perm hMirror hOutputs⟩

end Reveal

/-- The reveal flags are then what `interpret` needs to decrypt every word it
reads and to return every output in clear. -/
theorem runnable_of_revealsOutputs {llir : LLIRProgram} {cfg : SEConfig}
    (h : llir.RevealsOutputs) (hMemory : 2 ≤ llir.memoryCount)
    (hInputs : llir.inputs.length < 2 ^ 31)
    (hFits : ∀ llmi ∈ llir.instrs, llmi.inputs.length ≤ cfg.lIn ∧
      llmi.outputs.length ≤ cfg.lOut ∧ llmi.seq.length ≤ cfg.s) : llir.Runnable cfg where
  memoryCount_ge := hMemory
  inputCount_lt := hInputs
  inputs_le := fun llmi hMem => (hFits llmi hMem).1
  outputs_le := fun llmi hMem => (hFits llmi hMem).2.1
  seq_le := fun llmi hMem => (hFits llmi hMem).2.2
  outputs_produced := by
    intro m hm
    obtain ⟨llmi, hMem, -, hOut⟩ := h.all_outputs m hm
    exact ⟨llmi, hMem, hOut⟩
  reveal_only := by
    intro llmi hMem m hm hOut m' hm'
    obtain ⟨pre, post, hSplit⟩ := List.append_of_mem hMem
    exact (h.only_outputs pre llmi post hSplit (revealFlag_eq_one.mpr ⟨m, hm, hOut⟩) m' hm').1
  reveal_unread := by
    intro pre llmi post hSplit m hm hOut before hBefore hIn
    obtain ⟨a, b, rfl⟩ := List.append_of_mem hBefore
    have hFlag := revealFlag_eq_one.mpr ⟨m, hIn, hOut⟩
    have hUnread := (h.only_outputs a before (b ++ llmi :: post) (by simp [hSplit]) hFlag m hIn).2
    exact hUnread llmi (by simp) hm

end Obscure
