import Obscure.Clusterization.Progress

/-!
# OBSCURE — clustering preserves meaning

A node is evaluated as the secure element will run it: it sees the cells it
lists as inputs, computes in private, and writes the cells it lists as outputs;
whatever else its private cells held before is arbitrary. A graph is evaluated
node by node, in any order in which a node comes after the nodes it depends on.

* `DFG.eval_eq`             — a sound graph computes what its program does;
* `clusterize_preserves`    — `clusterize` returns such a graph.
-/

namespace Obscure

open Lib

/-- A clean program defines before it reads. -/
theorem HLIRProgram.Clean.defBeforeUse {ir : HLIRProgram} (hIr : ir.Clean) :
    DefBeforeUse ir.instrs :=
  hIr.scheduled.defBeforeUse hIr.inputs_kept

/-- One node: `junk` is what its private cells hold at the start. -/
def MLMI.eval (mlmi : MLMI) (junk mem : Store Nat) : Option (Store Nat) :=
  (run mlmi.seq fun m => if m ∈ mlmi.inputs then mem m else junk m).map fun st m =>
    if m ∈ mlmi.outputs then st m else mem m

namespace DFG

/-- The nodes of a list, one after the other. -/
def evalNodes (g : DFG) (junk : Nat → Store Nat) : List Nat → Store Nat → Option (Store Nat)
  | [], mem => some mem
  | n :: rest, mem => ((g.mlmi n).eval (junk n) mem).bind (g.evalNodes junk rest)

/-- The value the graph gives to each position of the outputs list. -/
def eval (g : DFG) (junk : Nat → Store Nat) (order : List Nat) (σ : Store Nat) :
    Option (List Word) :=
  (g.evalNodes junk order σ).map fun mem => g.progOutputs.map mem

/-- Every node once, after those it depends on. -/
structure Topological (g : DFG) (order : List Nat) : Prop where
  perm : order.Perm g.nodes
  after : ∀ pre n post, order = pre ++ n :: post → ∀ a, g.Edge a n → a ∈ pre

/-- The graphs that can be evaluated: cells are defined once, and a node reads what no
node defines or what a node before it gives out. -/
structure Evaluable (g : DFG) : Prop where
  nodes_nodup : g.nodes.Nodup
  seq_nodup : ∀ n ∈ g.nodes, (g.mlmi n).getDefs.Nodup
  defBeforeUse : ∀ n ∈ g.nodes, DefBeforeUse (g.mlmi n).seq
  reads_cases : ∀ n ∈ g.nodes, ∀ i ∈ (g.mlmi n).seq, ∀ m ∈ i.memInputs,
    m ∈ (g.mlmi n).inputs ∨ m ∈ (g.mlmi n).getDefs
  outputs_sub : ∀ n ∈ g.nodes, ∀ m ∈ (g.mlmi n).outputs, m ∈ (g.mlmi n).getDefs
  def_unique : ∀ a ∈ g.nodes, ∀ b ∈ g.nodes, ∀ m ∈ (g.mlmi a).getDefs, m ∈ (g.mlmi b).getDefs →
    a = b
  input_cases : ∀ n ∈ g.nodes, ∀ m ∈ (g.mlmi n).inputs, (∀ a ∈ g.nodes, m ∉ (g.mlmi a).getDefs) ∨
    ∃ a ∈ g.nodes, g.Edge a n ∧ m ∈ (g.mlmi a).outputs
  progOutputs_cases : ∀ m ∈ g.progOutputs, (∀ a ∈ g.nodes, m ∉ (g.mlmi a).getDefs) ∨
    ∃ a ∈ g.nodes, m ∈ (g.mlmi a).outputs

section Evaluation

variable {g : DFG} {junk : Nat → Store Nat} {σ τ : Store Nat}

/-- A cell given out by one of the nodes. -/
def GivenBy (g : DFG) (nodes : List Nat) (m : Nat) : Prop := ∃ n ∈ nodes, m ∈ (g.mlmi n).outputs

/-- The memory after the nodes of a list: their outputs hold the values of `τ`,
other cells are as at the start. -/
structure Agrees (g : DFG) (σ τ : Store Nat) (done : List Nat) (mem : Store Nat) : Prop where
  given : ∀ m, g.GivenBy done m → mem m = τ m
  kept : ∀ m, ¬ g.GivenBy done m → mem m = σ m

/-- One node runs to the store in which its instructions hold. -/
theorem Evaluable.eval_node (h : g.Evaluable) {n : Nat} (hn : n ∈ g.nodes)
    {junk mem mem' : Store Nat} :
    (g.mlmi n).eval junk mem = some mem' ↔ ∃ t : Store Nat,
      (∀ i ∈ (g.mlmi n).seq, i.Holds t) ∧
      (∀ m, m ∉ (g.mlmi n).getDefs → t m = if m ∈ (g.mlmi n).inputs then mem m else junk m) ∧
      mem' = fun m => if m ∈ (g.mlmi n).outputs then t m else mem m := by
  rw [MLMI.eval, Option.map_eq_some_iff]
  refine exists_congr fun t => ?_
  rw [run_eq_some_iff (h.seq_nodup n hn) (h.defBeforeUse n hn), and_assoc]
  refine and_congr_right fun _ => and_congr_right fun _ => ?_
  exact eq_comm

section Order

variable {order : List Nat} {n : Nat} {mem : Store Nat}

/-- A node comes once in an order. -/
theorem Topological.not_mem_done (hTop : g.Topological order) (h : g.Evaluable)
    {done rest : List Nat} (hSplit : order = done ++ n :: rest) : n ∉ done := by
  have hNodup := hTop.perm.nodup_iff.mpr h.nodes_nodup
  rw [hSplit, List.nodup_middle, List.nodup_cons, List.mem_append, not_or] at hNodup
  exact hNodup.1.1

/-- A node does not define what it lists as an input. -/
theorem Evaluable.input_not_def (h : g.Evaluable) (hTop : g.Topological order) (hn : n ∈ g.nodes)
    {m : Nat} (hm : m ∈ (g.mlmi n).inputs) : m ∉ (g.mlmi n).getDefs := by
  intro hDef
  rcases h.input_cases n hn m hm with hNone | ⟨a, ha, hEdge, hOut⟩
  · exact hNone n hn hDef
  · obtain rfl := h.def_unique a ha n hn m (h.outputs_sub a ha m hOut) hDef
    obtain ⟨pre, post, hSplit⟩ := List.append_of_mem (hTop.perm.mem_iff.mpr ha)
    exact hTop.not_mem_done h hSplit (hTop.after pre a post hSplit a hEdge)

/-- When its turn comes, a node finds the values of `τ` in its inputs. -/
theorem Agrees.inputs {done rest : List Nat} (h : g.Evaluable) (hTop : g.Topological order)
    (hSplit : order = done ++ n :: rest) (hAgrees : g.Agrees σ τ done mem)
    (hKept : ∀ m, (∀ a ∈ g.nodes, m ∉ (g.mlmi a).getDefs) → τ m = σ m) :
    ∀ m ∈ (g.mlmi n).inputs, mem m = τ m := by
  have hMem : ∀ x ∈ done ++ n :: rest, x ∈ g.nodes := fun x hx =>
    hTop.perm.mem_iff.mp (hSplit ▸ hx)
  intro m hm
  rcases h.input_cases n (hMem n (by simp)) m hm with hNone | ⟨a, ha, hEdge, hOut⟩
  · rw [hKept m hNone]
    refine hAgrees.kept m ?_
    rintro ⟨d, hd, hOut⟩
    have hd' := hMem d (by simp [hd])
    exact hNone d hd' (h.outputs_sub d hd' m hOut)
  · exact hAgrees.given m ⟨a, hTop.after done n rest hSplit a hEdge, hOut⟩

/-- A node adds its outputs. -/
theorem Agrees.snoc {done : List Nat} (hAgrees : g.Agrees σ τ done mem) {t : Store Nat}
    (hOut : ∀ m ∈ (g.mlmi n).outputs, t m = τ m) :
    g.Agrees σ τ (done ++ [n]) fun m => if m ∈ (g.mlmi n).outputs then t m else mem m := by
  refine ⟨fun m hm => ?_, fun m hm => ?_⟩
  · by_cases hHere : m ∈ (g.mlmi n).outputs
    · rw [if_pos hHere, hOut m hHere]
    · rw [if_neg hHere]
      obtain ⟨d, hd, hmd⟩ := hm
      refine hAgrees.given m ⟨d, ?_, hmd⟩
      rcases List.mem_append.mp hd with hd | hd
      · exact hd
      · rw [List.mem_singleton.mp hd] at hmd
        exact absurd hmd hHere
  · have hHere : m ∉ (g.mlmi n).outputs := fun hIn => hm ⟨n, by simp, hIn⟩
    rw [if_neg hHere]
    exact hAgrees.kept m fun ⟨d, hd, hmd⟩ => hm ⟨d, by simp [hd], hmd⟩

/-- If all instructions hold in `τ`, the nodes run and give out its values. -/
theorem evalNodes_of_holds (junk : Nat → Store Nat) (h : g.Evaluable) (hTop : g.Topological order)
    (hHolds : ∀ n ∈ g.nodes, ∀ i ∈ (g.mlmi n).seq, i.Holds τ)
    (hKept : ∀ m, (∀ a ∈ g.nodes, m ∉ (g.mlmi a).getDefs) → τ m = σ m) (done rest : List Nat)
    (hSplit : order = done ++ rest) (hAgrees : g.Agrees σ τ done mem) :
    ∃ mem', g.evalNodes junk rest mem = some mem' ∧ g.Agrees σ τ order mem' := by
  induction rest generalizing done mem with
  | nil =>
    rw [List.append_nil] at hSplit
    exact ⟨mem, rfl, hSplit ▸ hAgrees⟩
  | cons n rest ih =>
    have hn : n ∈ g.nodes := hTop.perm.mem_iff.mp (by simp [hSplit])
    have hIn := Agrees.inputs h hTop hSplit hAgrees hKept
    set t : Store Nat := fun m => if m ∈ (g.mlmi n).getDefs then τ m
      else if m ∈ (g.mlmi n).inputs then mem m else junk n m with ht
    have hDefs : ∀ m ∈ (g.mlmi n).getDefs, t m = τ m := fun m hm => if_pos hm
    have hEval : (g.mlmi n).eval (junk n) mem =
        some fun m => if m ∈ (g.mlmi n).outputs then t m else mem m := by
      refine (h.eval_node hn).mpr ⟨t, fun i hi => ?_, fun m hm => if_neg hm, rfl⟩
      have hSame : i.result t = i.result τ := by
        refine Instr.result_congr fun m hm => ?_
        rcases h.reads_cases n hn i hi m hm with hm | hm
        · simp only [ht, if_neg (h.input_not_def hTop hn hm), if_pos hm]
          exact hIn m hm
        · exact hDefs m hm
      rw [Instr.Holds, hSame, hDefs i.dst (List.mem_map_of_mem hi)]
      exact hHolds n hn i hi
    obtain ⟨mem', hRest, hAll⟩ := ih (done ++ [n]) (by simp [hSplit])
      (hAgrees.snoc fun m hm => hDefs m (h.outputs_sub n hn m hm))
    exact ⟨mem', by rw [evalNodes, hEval]; exact hRest, hAll⟩

/-- If the nodes run, the private stores together make up a store in which all
instructions hold. -/
theorem holds_of_evalNodes (h : g.Evaluable) (hTop : g.Topological order)
    (done rest : List Nat) (hSplit : order = done ++ rest)
    (hHolds : ∀ d ∈ done, ∀ i ∈ (g.mlmi d).seq, i.Holds τ)
    (hKept : ∀ m, (∀ d ∈ done, m ∉ (g.mlmi d).getDefs) → τ m = σ m)
    (hAgrees : g.Agrees σ τ done mem) {mem' : Store Nat}
    (hEval : g.evalNodes junk rest mem = some mem') :
    ∃ τ', (∀ d ∈ order, ∀ i ∈ (g.mlmi d).seq, i.Holds τ') ∧
      ∀ m, (∀ d ∈ order, m ∉ (g.mlmi d).getDefs) → τ' m = σ m := by
  -- along the order; `τ` grows by what each node defines
  induction rest generalizing done mem τ with
  | nil =>
    rw [List.append_nil] at hSplit
    exact ⟨τ, hSplit ▸ hHolds, hSplit ▸ hKept⟩
  | cons n rest ih =>
    have hMem : ∀ x ∈ done ++ n :: rest, x ∈ g.nodes := fun x hx =>
      hTop.perm.mem_iff.mp (hSplit ▸ hx)
    have hn := hMem n (by simp)
    have hNew : n ∉ done := hTop.not_mem_done h hSplit
    have hIn := Agrees.inputs h hTop hSplit hAgrees fun m hm =>
      hKept m fun d hd => hm d (hMem d (by simp [hd]))
    rw [evalNodes, Option.bind_eq_some_iff] at hEval
    obtain ⟨mem₁, hNode, hRest⟩ := hEval
    obtain ⟨t, hHere, hLocal, rfl⟩ := (h.eval_node hn).mp hNode
    -- `τ` is extended with what `n` defines; the nodes before it do not notice
    set τ' : Store Nat := fun m => if m ∈ (g.mlmi n).getDefs then t m else τ m with hτ'
    have hFrom : ∀ m ∈ (g.mlmi n).getDefs, τ' m = t m := fun m hm => if_pos hm
    have hOld : ∀ m, m ∉ (g.mlmi n).getDefs → τ' m = τ m := fun m hm => if_neg hm
    have hApart : ∀ d ∈ done, ∀ m, m ∈ (g.mlmi d).getDefs ∨ m ∈ (g.mlmi d).inputs →
        m ∉ (g.mlmi n).getDefs := by
      intro d hd m hm hDef
      have hd' := hMem d (by simp [hd])
      rcases hm with hm | hm
      · exact hNew (h.def_unique d hd' n hn m hm hDef ▸ hd)
      · rcases h.input_cases d hd' m hm with hNone | ⟨a, ha, hEdge, hOut⟩
        · exact hNone n hn hDef
        · obtain rfl := h.def_unique a ha n hn m (h.outputs_sub a ha m hOut) hDef
          obtain ⟨d₁, d₂, rfl⟩ := List.append_of_mem hd
          have hBefore := hTop.after d₁ d (d₂ ++ a :: rest) (by simp [hSplit]) a hEdge
          exact hNew (List.mem_append_left _ hBefore)
    refine ih (τ := τ') (done ++ [n]) (by simp [hSplit]) ?_ ?_ ?_ hRest
    · intro d hd i hi
      rcases List.mem_append.mp hd with hd | hd
      · have hd' := hMem d (by simp [hd])
        -- an instruction of an earlier node reads nothing that `n` defines
        have hSame : i.result τ' = i.result τ := Instr.result_congr fun m hm =>
          hOld m (hApart d hd m (h.reads_cases d hd' i hi m hm).symm)
        rw [Instr.Holds, hSame, hOld _ (hApart d hd _ (Or.inl (List.mem_map_of_mem hi)))]
        exact hHolds d hd i hi
      · rw [List.mem_singleton.mp hd] at hi
        have hSame : i.result τ' = i.result t := Instr.result_congr fun m hm => by
          rcases h.reads_cases n hn i hi m hm with hm | hm
          · have hNot := h.input_not_def hTop hn hm
            rw [hOld m hNot, hLocal m hNot, if_pos hm, hIn m hm]
          · exact hFrom m hm
        rw [Instr.Holds, hSame, hFrom _ (List.mem_map_of_mem hi)]
        exact hHere i hi
    · intro m hm
      rw [hOld m (hm n (by simp))]
      exact hKept m fun d hd => hm d (by simp [hd])
    · refine Agrees.snoc ⟨fun m hm => ?_, hAgrees.kept⟩ fun m hm => ?_
      · obtain ⟨d, hd, hOut⟩ := hm
        rw [hOld m (hApart d hd m (Or.inl (h.outputs_sub d (hMem d (by simp [hd])) m hOut)))]
        exact hAgrees.given m ⟨d, hd, hOut⟩
      · exact (hFrom m (h.outputs_sub n hn m hm)).symm

/-- A graph computes the values of the store in which all its instructions hold, in
every topological order and whatever private cells hold. -/
theorem Evaluable.eval_eq_some_iff (h : g.Evaluable) (hTop : g.Topological order)
    {vals : List Word} :
    g.eval junk order σ = some vals ↔ ∃ τ : Store Nat,
      (∀ n ∈ g.nodes, ∀ i ∈ (g.mlmi n).seq, i.Holds τ) ∧
      (∀ m, (∀ a ∈ g.nodes, m ∉ (g.mlmi a).getDefs) → τ m = σ m) ∧ g.progOutputs.map τ = vals := by
  have hStart : ∀ τ, g.Agrees σ τ [] σ := fun τ =>
    ⟨fun m ⟨d, hd, _⟩ => absurd hd List.not_mem_nil, fun m _ => rfl⟩
  have hNodes : ∀ n, n ∈ order ↔ n ∈ g.nodes := fun n => hTop.perm.mem_iff
  -- the values of a store in which everything holds
  have hForth : ∀ τ : Store Nat, (∀ n ∈ g.nodes, ∀ i ∈ (g.mlmi n).seq, i.Holds τ) →
      (∀ m, (∀ a ∈ g.nodes, m ∉ (g.mlmi a).getDefs) → τ m = σ m) →
      g.eval junk order σ = some (g.progOutputs.map τ) := by
    intro τ hHolds hKept
    obtain ⟨mem', hEval, hAgrees⟩ := evalNodes_of_holds junk h hTop hHolds hKept [] order rfl
      (hStart τ)
    rw [eval, hEval, Option.map_some]
    refine congrArg some (List.map_congr_left fun m hm => ?_)
    rcases h.progOutputs_cases m hm with hNone | ⟨a, ha, hOut⟩
    · rw [hKept m hNone]
      refine hAgrees.kept m ?_
      rintro ⟨n, hn, hOut⟩
      have hn := (hNodes n).mp hn
      exact hNone n hn (h.outputs_sub n hn m hOut)
    · exact hAgrees.given m ⟨a, (hNodes a).mpr ha, hOut⟩
  constructor
  · intro hEval
    obtain ⟨mem', hRun, -⟩ := Option.map_eq_some_iff.mp hEval
    obtain ⟨τ, hHolds, hKept⟩ := holds_of_evalNodes (τ := σ) h hTop [] order rfl
      (fun d hd => absurd hd List.not_mem_nil) (fun m _ => rfl) (hStart σ) hRun
    have hHolds' := fun n hn => hHolds n ((hNodes n).mpr hn)
    have hKept' := fun m (hm : ∀ a ∈ g.nodes, m ∉ (g.mlmi a).getDefs) =>
      hKept m fun d hd => hm d ((hNodes d).mp hd)
    rw [hForth τ hHolds' hKept'] at hEval
    exact ⟨τ, hHolds', hKept', Option.some.inj hEval⟩
  · rintro ⟨τ, hHolds, hKept, rfl⟩
    exact hForth τ hHolds hKept

end Order

end Evaluation

section Meaning

variable {ir : HLIRProgram} {g : DFG}

/-- The sequence of a node defines before it reads. -/
theorem Sound.defBeforeUse (h : g.Sound ir) {n : Nat} (hn : n ∈ g.nodes) :
    DefBeforeUse (g.mlmi n).seq := by
  intro pre i post hSplit m hm hDef
  refine (h.scheduled n hn pre i post hSplit m hm).resolve_left fun hIn => ?_
  exact (mem_getUsed.mp ((h.inputs_iff n hn m).mp hIn)).2 hDef

/-- The outputs of a node are defined in it. -/
theorem Sound.outputs_sub (h : g.Sound ir) {n m : Nat} (hn : n ∈ g.nodes)
    (hm : m ∈ (g.mlmi n).outputs) : m ∈ (g.mlmi n).getDefs :=
  ((h.outputs_iff n hn m).mp hm).1

/-- What an instruction of a node reads is an input of the node or defined in
it. -/
theorem Sound.reads_cases (h : g.Sound ir) {n : Nat} (hn : n ∈ g.nodes) {i : HLI}
    (hi : i ∈ (g.mlmi n).seq) {m : Nat} (hm : m ∈ i.memInputs) :
    m ∈ (g.mlmi n).inputs ∨ m ∈ (g.mlmi n).getDefs := by
  by_cases hDef : m ∈ (g.mlmi n).getDefs
  · exact Or.inr hDef
  · exact Or.inl ((h.inputs_iff n hn m).mpr
      (mem_getUsed.mpr ⟨List.mem_flatMap.mpr ⟨i, hi, hm⟩, hDef⟩))

/-- A sound graph can be evaluated in every topological order. -/
theorem Sound.evaluable (h : g.Sound ir) (hIr : ir.Clean) : g.Evaluable where
  nodes_nodup := h.nodes_nodup
  seq_nodup := fun _ hn => h.seq_nodup hIr hn
  defBeforeUse := fun _ hn => h.defBeforeUse hn
  reads_cases := fun _ hn _ hi _ hm => h.reads_cases hn hi hm
  outputs_sub := fun _ hn _ hm => h.outputs_sub hn hm
  def_unique := fun _ ha _ hb _ hm hm' => h.def_unique hIr ha hb hm hm'
  input_cases := by
    intro n hn m hm
    rcases h.input_cases hIr hn hm with hIn | ⟨a, ha, -, hOut⟩
    · exact Or.inl fun a ha hDef => hIr.inputs_kept m hIn (h.mem_defs ha hDef)
    · exact Or.inr ⟨a, ha, (h.forward_iff a n).mpr ⟨ha, hn, m, hOut, hm⟩, hOut⟩
  progOutputs_cases := by
    intro m hm
    by_cases hDef : m ∈ defs ir.instrs
    · obtain ⟨n, hn, hmn⟩ := h.exists_def hDef
      exact Or.inr ⟨n, hn, (h.outputs_iff n hn m).mpr ⟨hmn, Or.inl (h.progOutputs_eq ▸ hm)⟩⟩
    · exact Or.inl fun a ha hIn => hDef (h.mem_defs ha hIn)

/-- A sound graph computes what its program does, in every topological order and
whatever private cells hold. -/
theorem eval_eq (h : g.Sound ir) (hIr : ir.Clean) {order : List Nat} (hTop : g.Topological order)
    (junk : Nat → Store Nat) (σ : Store Nat) : g.eval junk order σ = ir.eval σ := by
  refine Option.ext fun vals => ?_
  rw [(h.evaluable hIr).eval_eq_some_iff hTop, HLIRProgram.eval, Option.map_eq_some_iff,
    h.progOutputs_eq]
  refine exists_congr fun τ => ?_
  rw [run_eq_some_iff hIr.written_once hIr.defBeforeUse, ← and_assoc]
  refine and_congr_left fun _ => and_congr ?_ ?_
  · constructor
    · intro hHolds i hi
      obtain ⟨n, hn, hi⟩ := List.mem_flatMap.mp (h.instrs_perm.mem_iff.mpr hi)
      exact hHolds n hn i hi
    · intro hHolds n hn i hi
      exact hHolds i (h.instrs_perm.mem_iff.mp (List.mem_flatMap.mpr ⟨n, hn, hi⟩))
  · refine forall_congr' fun m => imp_congr_left ?_
    constructor
    · intro hNone hDef
      obtain ⟨n, hn, hm⟩ := h.exists_def hDef
      exact hNone n hn hm
    · exact fun hNot a ha hDef => hNot (h.mem_defs ha hDef)

end Meaning

/-- There is a topological order. -/
theorem Sound.exists_topological {ir : HLIRProgram} {g : DFG} (h : g.Sound ir) :
    ∃ order, g.Topological order := by
  obtain ⟨order, hPerm, hAfter⟩ := h.acyclic.exists_order g.nodes
  refine ⟨order, hPerm, fun pre n post hSplit a hEdge => ?_⟩
  exact hAfter pre n post hSplit a ((h.forward_iff a n).mp hEdge).1 hEdge

end DFG

/-- **Clustering is correct.** Whatever the options and the iteration orders,
`clusterize` returns; the graph it returns is sound for the program, has a
topological order, and computes the same outputs as the program in each. -/
theorem clusterize_preserves {ir : HLIRProgram} (hIr : ir.Clean) (cfg : Config) (ord : Orders) :
    ∃ g, Returns (fun fuel => clusterize ord fuel cfg ir) g ∧ g.Sound ir ∧
      (∃ order, g.Topological order) ∧
      ∀ order, g.Topological order → ∀ junk σ, g.eval junk order σ = ir.eval σ := by
  obtain ⟨g, hReturns, hSound⟩ := clusterize_returns hIr cfg ord
  exact ⟨g, hReturns, hSound, hSound.exists_topological,
    fun order hTop junk σ => DFG.eval_eq hSound hIr hTop junk σ⟩

/-- `m1 = m0 + 1; m2 = m1 * m1; m3 = m1 - m2`, returning `m3` and `m1`. -/
def diamondProgram : HLIRProgram where
  instrs := [
    { opcode := .ADD, dst := 1, src1 := some (.loc 0), src2 := some (.imm 1) },
    { opcode := .MUL, dst := 2, src1 := some (.loc 1), src2 := some (.loc 1) },
    { opcode := .SUB, dst := 3, src1 := some (.loc 1), src2 := some (.loc 2) }]
  inputs := [0]
  outputs := [3, 1]
  memoryCount := 4

/-- The example is clean. -/
theorem diamondProgram_clean : diamondProgram.Clean where
  written_once := by decide
  inputs_kept := by decide
  scheduled := by
    simp only [diamondProgram, scheduled_cons]
    exact ⟨by decide, by decide, by decide, Scheduled.nil _⟩
  no_dead := by decide

/-- The theorem at the diamond. -/
theorem clusterize_diamondProgram :
    diamondProgram.Clean ∧ ∀ cfg ord, ∃ g,
      Returns (fun fuel => clusterize ord fuel cfg diamondProgram) g ∧
      ∀ order, g.Topological order → ∀ junk, g.eval junk order (fun _ => 4) = some [-20, 5] := by
  refine ⟨diamondProgram_clean, fun cfg ord => ?_⟩
  obtain ⟨g, hReturns, -, -, hEval⟩ := clusterize_preserves diamondProgram_clean cfg ord
  refine ⟨g, hReturns, fun order hTop junk => ?_⟩
  rw [hEval order hTop junk]
  decide

end Obscure
