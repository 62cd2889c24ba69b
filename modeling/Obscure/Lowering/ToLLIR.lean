import Obscure.Clusterization.Meaning
import Obscure.CodeGen.Serializer

/-!
# OBSCURE — lowering the data-flow graph

`DFG.to_LLIR`: nodes are taken from a work set, lowered when every operand they
list as input is there, and their successors join the work set. A node that is
popped too early is dropped and comes back with its last predecessor.

* `DFG.Consistent`  — what the scheduling relies on: one producer for each
  operand, edges exactly between producers and consumers, no cycle;
* `toLLIR_order`    — whatever the order of `pop`, the multi-instructions are
  the lowered nodes, each once, in a topological order;
* `toLLIR_returns`  — the loop ends and schedules every node;
* `toLLIR_schedules` — both, with the order spelled out for operands.
-/

namespace Obscure

open Lib

-- ---------------------------------------------------------------------------
-- The pass
-- ---------------------------------------------------------------------------

/-- The local state of `to_LLIR`. -/
structure LowerState where
  todo : List Nat
  done : List Nat
  memReady : List Nat
  instrs : List LLMI

/-- An exception of the allocator ends the pass. -/
def liftAlloc {α : Type} : Except AllocError α → Except Fault α
  | .error e => .error (.allocator e)
  | .ok a => .ok a

namespace DFG

/-- `node_is_ready`. -/
def nodeIsReady (g : DFG) (memReady : List Nat) (node : Nat) : Bool :=
  (g.mlmi node).inputs.all fun m => m ∈ memReady

/-- One round of the loop; at its end, the check that all nodes were
scheduled. -/
def scheduleNode (ord : Orders) (cfg : Config) (prog : MLIRProgram) (g : DFG) (i : Nat)
    (st : LowerState) : Except Fault (LowerState ⊕ LLIRProgram) :=
  match ord.nats.pop i st.todo with
  | none =>
    if g.nodes.all fun node => node ∈ st.done then
      .ok (.inr ⟨st.instrs, prog.inputs, g.progOutputs, g.memoryCount⟩)
    else .error .runtimeError
  | some (node, todo) =>
    if g.nodeIsReady st.memReady node then do
      let llmi ← liftAlloc (mlmiToLLMI (ord.fork i).nats (g.mlmi node) cfg.r cfg.lOut)
      .ok (.inl {
        todo := (g.forwardEdges node).foldl (fun s x => s.insert x) todo
        done := st.done.insert node
        memReady := st.memReady ++ (g.mlmi node).outputs
        instrs := st.instrs ++ [llmi] })
    else .ok (.inl { st with todo := todo })

/-- `to_LLIR`; `prog` is the program the graph was built from. -/
def toLLIR (ord : Orders) (fuel : Nat) (cfg : Config) (prog : MLIRProgram) (g : DFG) :
    Except Fault LLIRProgram :=
  loop .diverges (g.scheduleNode ord cfg prog) fuel 0
    { todo := g.nodes.filter fun node => g.nodeIsReady g.progInputs node
      done := []
      memReady := g.progInputs
      instrs := [] }

end DFG

/-- `lower`. -/
def lower (ord : Orders) (fuel : Nat) (cfg : Config) (prog : MLIRProgram) (g : DFG) :
    Except Fault LLIRProgram :=
  g.toLLIR ord fuel cfg prog

namespace DFG

-- ---------------------------------------------------------------------------
-- The invariant of the loop
-- ---------------------------------------------------------------------------

/-- What the scheduling relies on. -/
structure Consistent (g : DFG) : Prop where
  nodes_nodup : g.nodes.Nodup
  inputs_from : ∀ n ∈ g.nodes, ∀ m ∈ (g.mlmi n).inputs,
    m ∈ g.progInputs ∨ ∃ a ∈ g.nodes, m ∈ (g.mlmi a).outputs
  output_unique : ∀ a ∈ g.nodes, ∀ b ∈ g.nodes, ∀ m ∈ (g.mlmi a).outputs,
    m ∈ (g.mlmi b).outputs → a = b
  output_fresh : ∀ a ∈ g.nodes, ∀ m ∈ (g.mlmi a).outputs, m ∉ g.progInputs
  forward_iff : ∀ a b, g.Edge a b ↔ a ∈ g.nodes ∧ b ∈ g.nodes ∧
    ∃ m ∈ (g.mlmi a).outputs, m ∈ (g.mlmi b).inputs
  acyclic : Acyclic g.Edge

/-- A sound graph is consistent. -/
theorem Sound.consistent {ir : HLIRProgram} {g : DFG} (h : g.Sound ir) (hIr : ir.Clean) :
    g.Consistent where
  nodes_nodup := h.nodes_nodup
  inputs_from := by
    intro n hn m hm
    rcases h.input_cases hIr hn hm with hIn | ⟨a, ha, -, hOut⟩
    · exact Or.inl ((h.progInputs_iff m).mpr hIn)
    · exact Or.inr ⟨a, ha, hOut⟩
  output_unique := fun a ha b hb m hm hm' =>
    h.def_unique hIr ha hb (h.outputs_sub ha hm) (h.outputs_sub hb hm')
  output_fresh := fun a ha m hm => h.not_input hIr ha (h.outputs_sub ha hm)
  forward_iff := h.forward_iff
  acyclic := h.acyclic

/-- `order` lists the nodes scheduled so far. -/
structure Emitted (g : DFG) (cfg : Config) (order : List Nat) (st : LowerState) : Prop where
  done_eq : st.done = order.reverse
  order_nodup : order.Nodup
  order_sub : ∀ n ∈ order, n ∈ g.nodes
  after : ∀ pre n post, order = pre ++ n :: post → ∀ a, g.Edge a n → a ∈ pre
  ready_iff : ∀ m, m ∈ st.memReady ↔ m ∈ g.progInputs ∨ ∃ n ∈ order, m ∈ (g.mlmi n).outputs
  todo_nodup : st.todo.Nodup
  todo_sub : ∀ n ∈ st.todo, n ∈ g.nodes ∧ n ∉ order
  waiting : ∀ n ∈ g.nodes, n ∉ order → g.nodeIsReady st.memReady n = true → n ∈ st.todo
  instrs_eq : List.Forall₂ (fun n llmi => ∃ o, mlmiToLLMI o (g.mlmi n) cfg.r cfg.lOut = .ok llmi)
    order st.instrs

section Scheduling

variable {g : DFG} {cfg : Config}

theorem nodeIsReady_iff {ready : List Nat} {n : Nat} :
    g.nodeIsReady ready n = true ↔ ∀ m ∈ (g.mlmi n).inputs, m ∈ ready := by
  simp [nodeIsReady]

/-- A node is ready exactly when its predecessors are scheduled. -/
theorem Emitted.ready_of_preds {order : List Nat} {st : LowerState} (h : g.Consistent)
    (hEm : g.Emitted cfg order st) {n : Nat} (hn : n ∈ g.nodes)
    (hPreds : ∀ a, g.Edge a n → a ∈ order) : g.nodeIsReady st.memReady n = true := by
  rw [nodeIsReady_iff]
  intro m hm
  rw [hEm.ready_iff]
  rcases h.inputs_from n hn m hm with hIn | ⟨a, ha, hOut⟩
  · exact Or.inl hIn
  · exact Or.inr ⟨a, hPreds a ((h.forward_iff a n).mpr ⟨ha, hn, m, hOut, hm⟩), hOut⟩

theorem Emitted.preds_of_ready {order : List Nat} {st : LowerState} (h : g.Consistent)
    (hEm : g.Emitted cfg order st) {n : Nat} (hReady : g.nodeIsReady st.memReady n = true) {a : Nat}
    (hEdge : g.Edge a n) : a ∈ order := by
  obtain ⟨ha, -, m, hOut, hm⟩ := (h.forward_iff a n).mp hEdge
  rcases (hEm.ready_iff m).mp (nodeIsReady_iff.mp hReady m hm) with hIn | ⟨b, hb, hOut'⟩
  · exact absurd hIn (h.output_fresh a ha m hOut)
  · rw [h.output_unique a ha b (hEm.order_sub b hb) m hOut hOut']
    exact hb

theorem emitted_start (h : g.Consistent) (cfg : Config) :
    g.Emitted cfg [] {
      todo := g.nodes.filter fun node => g.nodeIsReady g.progInputs node
      done := []
      memReady := g.progInputs
      instrs := [] } where
  done_eq := rfl
  order_nodup := List.nodup_nil
  order_sub := by simp
  after := by simp
  ready_iff := by simp
  todo_nodup := h.nodes_nodup.filter _
  todo_sub := fun n hn => ⟨(List.mem_filter.mp hn).1, by simp⟩
  waiting := fun n hn _ hReady => List.mem_filter.mpr ⟨hn, hReady⟩
  instrs_eq := .nil

/-- A node that is not ready is dropped. -/
theorem Emitted.drop {order : List Nat} {st : LowerState} (hEm : g.Emitted cfg order st)
    {n : Nat} {todo : List Nat} (hPerm : (n :: todo).Perm st.todo)
    (hNot : ¬ g.nodeIsReady st.memReady n = true) :
    g.Emitted cfg order { st with todo := todo } := by
  have hNodup := hPerm.nodup_iff.mpr hEm.todo_nodup
  refine { hEm with
    todo_nodup := (List.nodup_cons.mp hNodup).2
    todo_sub := fun x hx => hEm.todo_sub x (hPerm.mem_iff.mp (List.mem_cons_of_mem _ hx))
    waiting := fun x hx hNew hReady => ?_ }
  rcases List.mem_cons.mp (hPerm.mem_iff.mpr (hEm.waiting x hx hNew hReady)) with rfl | hIn
  · exact absurd hReady hNot
  · exact hIn

/-- A node that is ready is scheduled. -/
theorem Emitted.schedule {order : List Nat} {st : LowerState} (h : g.Consistent)
    (hEm : g.Emitted cfg order st) {n : Nat} {todo : List Nat} (hPerm : (n :: todo).Perm st.todo)
    (hReady : g.nodeIsReady st.memReady n = true) {o : SetOrder Nat} {llmi : LLMI}
    (hLower : mlmiToLLMI o (g.mlmi n) cfg.r cfg.lOut = .ok llmi) :
    g.Emitted cfg (order ++ [n]) {
      todo := (g.forwardEdges n).foldl (fun s x => s.insert x) todo
      done := st.done.insert n
      memReady := st.memReady ++ (g.mlmi n).outputs
      instrs := st.instrs ++ [llmi] } := by
  obtain ⟨hn, hNew⟩ := hEm.todo_sub n (hPerm.mem_iff.mp List.mem_cons_self)
  have hNodup := hPerm.nodup_iff.mpr hEm.todo_nodup
  -- a ready node has all its producers before it
  have hPreds : ∀ a, g.Edge a n → a ∈ order := fun a => hEm.preds_of_ready h hReady
  have hSelf : ¬ g.Edge n n := fun hEdge => h.acyclic n (.single hEdge)
  have hReadyIff : ∀ m, m ∈ st.memReady ++ (g.mlmi n).outputs ↔
      m ∈ g.progInputs ∨ ∃ x ∈ order ++ [n], m ∈ (g.mlmi x).outputs := by
    intro m
    simp only [List.mem_append, hEm.ready_iff, List.mem_singleton, or_and_right, exists_or,
      exists_eq_left, or_assoc]
  refine ⟨?done_eq, ?order_nodup, ?order_sub, ?after, hReadyIff, ?todo_nodup, ?todo_sub, ?waiting,
    ?instrs_eq⟩
  case done_eq =>
    show st.done.insert n = _
    rw [List.insert_of_not_mem (by rw [hEm.done_eq]; simpa using hNew), hEm.done_eq]
    simp
  case order_nodup =>
    exact List.nodup_append.mpr ⟨hEm.order_nodup, List.nodup_singleton n, fun a ha b hb hEq =>
      hNew (by rw [← List.mem_singleton.mp hb, ← hEq]; exact ha)⟩
  case order_sub =>
    intro x hx
    rcases List.mem_append.mp hx with hx | hx
    · exact hEm.order_sub x hx
    · exact List.mem_singleton.mp hx ▸ hn
  -- for the new node by `hPreds`, for the others as before
  case after =>
    intro pre x post hSplit a hEdge
    rcases List.eq_nil_or_concat post with rfl | ⟨post', y, rfl⟩
    · obtain ⟨rfl, hx⟩ := List.append_inj' hSplit rfl
      rw [List.cons.injEq] at hx
      exact hPreds a (hx.1 ▸ hEdge)
    · rw [List.concat_eq_append, ← List.cons_append, ← List.append_assoc] at hSplit
      exact hEm.after pre x post' (List.append_inj' hSplit rfl).1 a hEdge
  case todo_nodup =>
    exact nodup_foldl_insert (List.nodup_cons.mp hNodup).2
  -- what is left to do is an old node, or a successor of the new one
  case todo_sub =>
    intro x hx
    rcases (mem_foldl_insert.mp hx).symm with hx | hEdge
    · obtain ⟨hxn, hxo⟩ := hEm.todo_sub x (hPerm.mem_iff.mp (List.mem_cons_of_mem _ hx))
      refine ⟨hxn, fun hIn => ?_⟩
      rcases List.mem_append.mp hIn with hIn | hIn
      · exact hxo hIn
      · exact (List.nodup_cons.mp hNodup).1 (List.mem_singleton.mp hIn ▸ hx)
    · -- a successor cannot have been scheduled before
      refine ⟨((h.forward_iff n x).mp hEdge).2.1, fun hIn => ?_⟩
      rcases List.mem_append.mp hIn with hIn | hIn
      · obtain ⟨pre, post, hSplit⟩ := List.append_of_mem hIn
        exact hNew (by rw [hSplit]; simp [hEm.after pre x post hSplit n hEdge])
      · exact hSelf (List.mem_singleton.mp hIn ▸ hEdge)
  -- a node that has just become ready reads an output of the new one
  case waiting =>
    intro x hx hxNew hxReady
    rw [List.mem_append, not_or] at hxNew
    rw [mem_foldl_insert]
    by_cases hEdge : g.Edge n x
    · exact Or.inl hEdge
    · -- nothing `x` waits for was added
      have hBefore : g.nodeIsReady st.memReady x = true := by
        refine hEm.ready_of_preds h hx fun a ha => ?_
        obtain ⟨haN, -, m, hOut, hm⟩ := (h.forward_iff a x).mp ha
        rcases (hReadyIff m).mp (nodeIsReady_iff.mp hxReady m hm) with hIn | ⟨b, hb, hOut'⟩
        · exact absurd hIn (h.output_fresh a haN m hOut)
        · have hbN : b ∈ g.nodes := by
            rcases List.mem_append.mp hb with hb | hb
            · exact hEm.order_sub b hb
            · exact List.mem_singleton.mp hb ▸ hn
          have hab := h.output_unique a haN b hbN m hOut hOut'
          rcases List.mem_append.mp hb with hb | hb
          · exact hab ▸ hb
          · rw [List.mem_singleton] at hb
            exact absurd (hb ▸ hab ▸ ha) hEdge
      have hTodo := hPerm.mem_iff.mpr (hEm.waiting x hx hxNew.1 hBefore)
      rcases List.mem_cons.mp hTodo with rfl | hIn
      · exact absurd (List.mem_singleton_self x) hxNew.2
      · exact Or.inr hIn
  case instrs_eq =>
    exact List.rel_append hEm.instrs_eq (.cons ⟨o, hLower⟩ .nil)

-- ---------------------------------------------------------------------------
-- The run
-- ---------------------------------------------------------------------------

/-- What one round does, from a state the loop can be in. -/
theorem scheduleNode_cases {ord : Orders} {prog : MLIRProgram} {i : Nat} {st : LowerState}
    {r : LowerState ⊕ LLIRProgram} (h : g.scheduleNode ord cfg prog i st = .ok r) :
    (st.todo = [] ∧ (∀ n ∈ g.nodes, n ∈ st.done) ∧
      r = .inr ⟨st.instrs, prog.inputs, g.progOutputs, g.memoryCount⟩) ∨
    ∃ n todo, (n :: todo).Perm st.todo ∧
      ((∃ o llmi, g.nodeIsReady st.memReady n = true ∧
        mlmiToLLMI o (g.mlmi n) cfg.r cfg.lOut = .ok llmi ∧
        r = .inl {
          todo := (g.forwardEdges n).foldl (fun s x => s.insert x) todo
          done := st.done.insert n
          memReady := st.memReady ++ (g.mlmi n).outputs
          instrs := st.instrs ++ [llmi] }) ∨
      (¬ g.nodeIsReady st.memReady n = true ∧ r = .inl { st with todo := todo })) := by
  unfold scheduleNode at h
  split at h
  · next hPop =>
      split at h
      · next hAll =>
          cases h
          exact Or.inl ⟨SetOrder.pop_eq_none.mp hPop, by simpa using hAll, rfl⟩
      · cases h
  · next n todo hPop =>
      refine Or.inr ⟨n, todo, SetOrder.pop_perm hPop, ?_⟩
      split at h
      · next hReady =>
          obtain ⟨llmi, hLower, h⟩ := bind_eq_ok.mp h
          cases h
          refine Or.inl ⟨(ord.fork i).nats, llmi, hReady, ?_, rfl⟩
          cases hEq : mlmiToLLMI (ord.fork i).nats (g.mlmi n) cfg.r cfg.lOut with
          | error e =>
            rw [hEq] at hLower
            cases hLower
          | ok x =>
            rw [hEq] at hLower
            cases hLower
            rfl
      · next hNot =>
          cases h
          exact Or.inr ⟨hNot, rfl⟩

/-- **Order of the multi-instructions.** Whatever `pop` returns, the result holds
the lowered nodes, each once, after those it depends on. -/
theorem toLLIR_order (h : g.Consistent) {ord : Orders} {fuel : Nat} {prog : MLIRProgram}
    {llir : LLIRProgram} (hRun : g.toLLIR ord fuel cfg prog = .ok llir) :
    ∃ order, g.Topological order ∧
      List.Forall₂ (fun n llmi => ∃ o, mlmiToLLMI o (g.mlmi n) cfg.r cfg.lOut = .ok llmi)
        order llir.instrs ∧
      llir.inputs = prog.inputs ∧ llir.outputs = g.progOutputs ∧
      llir.memoryCount = g.memoryCount := by
  refine loop_ok (P := fun st => ∃ order, g.Emitted cfg order st)
    (Q := fun llir : LLIRProgram => ∃ order, g.Topological order ∧
      List.Forall₂ (fun n llmi => ∃ o, mlmiToLLMI o (g.mlmi n) cfg.r cfg.lOut = .ok llmi)
        order llir.instrs ∧
      llir.inputs = prog.inputs ∧ llir.outputs = g.progOutputs ∧
      llir.memoryCount = g.memoryCount) ?_ ?_ ⟨[], emitted_start h cfg⟩ hRun
  · rintro i st st' ⟨order, hEm⟩ hStep
    rcases scheduleNode_cases hStep with ⟨-, -, hEq⟩ | ⟨n, todo, hPerm, hCase⟩
    · cases hEq
    · rcases hCase with ⟨o, llmi, hReady, hLower, hEq⟩ | ⟨hNot, hEq⟩
      · cases hEq
        exact ⟨_, hEm.schedule h hPerm hReady hLower⟩
      · cases hEq
        exact ⟨_, hEm.drop hPerm hNot⟩
  · rintro i st llir ⟨order, hEm⟩ hStep
    rcases scheduleNode_cases hStep with ⟨-, hAll, hEq⟩ | ⟨n, todo, -, hCase⟩
    · cases hEq
      have hPerm : order.Perm g.nodes := by
        refine (List.perm_ext_iff_of_nodup hEm.order_nodup h.nodes_nodup).mpr fun x => ?_
        refine ⟨hEm.order_sub x, fun hx => ?_⟩
        simpa [hEm.done_eq] using hAll x hx
      exact ⟨order, ⟨hPerm, hEm.after⟩, hEm.instrs_eq, rfl, rfl, rfl⟩
    · rcases hCase with ⟨o, llmi, -, -, hEq⟩ | ⟨-, hEq⟩
      · cases hEq
      · cases hEq

/-- Every node can be lowered, whatever `pop` returns. -/
def Lowerable (cfg : Config) (g : DFG) : Prop :=
  ∀ n ∈ g.nodes, ∀ o, ∃ llmi, mlmiToLLMI o (g.mlmi n) cfg.r cfg.lOut = .ok llmi

/-- When the work set is empty, no node was left out: of the nodes that were, one
would have no predecessor among them, and would be ready. -/
theorem Emitted.all_done (h : g.Consistent) {order : List Nat} {st : LowerState}
    (hEm : g.Emitted cfg order st) (hEmpty : st.todo = []) : ∀ n ∈ g.nodes, n ∈ st.done := by
  intro n hn
  rw [hEm.done_eq, List.mem_reverse]
  by_contra hNot
  have hne : (g.nodes.filter fun x => x ∉ order) ≠ [] :=
    List.ne_nil_of_mem (List.mem_filter.mpr ⟨hn, by simpa using hNot⟩)
  obtain ⟨x, hx, hSource⟩ := h.acyclic.exists_source hne
  obtain ⟨hxn, hxo⟩ := List.mem_filter.mp hx
  have hxReady : g.nodeIsReady st.memReady x = true := by
    refine hEm.ready_of_preds h hxn fun a ha => ?_
    by_contra hao
    exact hSource a (List.mem_filter.mpr ⟨((h.forward_iff a x).mp ha).1, by simpa using hao⟩) ha
  have := hEm.waiting x hxn (by simpa using hxo) hxReady
  rw [hEmpty] at this
  cases this

/-- **The loop ends.** Every round schedules a node or shrinks the work set, and
the check at the end passes. -/
theorem toLLIR_returns (h : g.Consistent) (hLower : g.Lowerable cfg) (ord : Orders)
    (prog : MLIRProgram) :
    ∃ llir, Returns (fun fuel => g.toLLIR ord fuel cfg prog) llir := by
  -- a round schedules a node, or drops one from the waiting set
  have hWf : WellFounded fun a b : LowerState => Prod.Lex (· < ·) (· < ·)
      (g.nodes.length - a.done.length, a.todo.length)
      (g.nodes.length - b.done.length, b.todo.length) :=
    InvImage.wf (fun a : LowerState => (g.nodes.length - a.done.length, a.todo.length))
      (WellFounded.prod_lex Nat.lt_wfRel.wf Nat.lt_wfRel.wf)
  suffices hRun : ∃ llir, Returns (fun fuel => g.toLLIR ord fuel cfg prog) llir ∧ True by
    obtain ⟨llir, hReturns, -⟩ := hRun
    exact ⟨llir, hReturns⟩
  refine loop_returns (P := fun st => ∃ order, g.Emitted cfg order st) (Q := fun _ => True) hWf ?_
    0 ⟨[], emitted_start h cfg⟩
  rintro i st ⟨order, hEm⟩
  cases hPop : ord.nats.pop i st.todo with
  | none =>
    have hAll := hEm.all_done h (SetOrder.pop_eq_none.mp hPop)
    refine ⟨.inr ⟨st.instrs, prog.inputs, g.progOutputs, g.memoryCount⟩, .of_eq fun _ => ?_,
      trivial⟩
    simp only [scheduleNode, hPop]
    rw [if_pos (by simpa using hAll)]
  | some p =>
    obtain ⟨n, todo⟩ := p
    have hPerm := SetOrder.pop_perm hPop
    have hLen : todo.length + 1 = st.todo.length := by simpa using hPerm.length_eq
    by_cases hReady : g.nodeIsReady st.memReady n = true
    · obtain ⟨hn, hNew⟩ := hEm.todo_sub n (hPerm.mem_iff.mp List.mem_cons_self)
      obtain ⟨llmi, hLLMI⟩ := hLower n hn (ord.fork i).nats
      have hEm' := hEm.schedule h hPerm hReady hLLMI
      refine ⟨.inl _, .of_eq fun _ => ?_, ⟨_, hEm'⟩, ?_⟩
      · simp only [scheduleNode, hPop, hReady, if_true, hLLMI, liftAlloc, ok_bind]
      · refine Prod.Lex.left _ _ ?_
        have hInsert : (st.done.insert n).length = st.done.length + 1 := by
          rw [List.length_insert_of_not_mem]
          rw [hEm.done_eq]
          simpa using hNew
        have hBound : (order ++ [n]).length ≤ g.nodes.length :=
          (List.subperm_of_subset hEm'.order_nodup hEm'.order_sub).length_le
        rw [List.length_append, List.length_singleton] at hBound
        have hDone : st.done.length = order.length := by rw [hEm.done_eq, List.length_reverse]
        show g.nodes.length - (st.done.insert n).length < _
        omega
    · refine ⟨.inl { st with todo := todo }, .of_eq fun _ => ?_, ⟨_, hEm.drop hPerm hReady⟩, ?_⟩
      · simp only [scheduleNode, hPop]
        rw [if_neg hReady]
      · refine Prod.Lex.right _ ?_
        show todo.length < _
        omega

/-- **Scheduling.** Whatever `pop` returns, `to_LLIR` ends with one multi-instruction for each
node, and all producers of what a node reads come before it. -/
theorem toLLIR_schedules (h : g.Consistent) (hLower : g.Lowerable cfg) (ord : Orders)
    (prog : MLIRProgram) :
    ∃ llir, Returns (fun fuel => g.toLLIR ord fuel cfg prog) llir ∧ ∃ order, order.Perm g.nodes ∧
      List.Forall₂ (fun n llmi => ∃ o, mlmiToLLMI o (g.mlmi n) cfg.r cfg.lOut = .ok llmi)
        order llir.instrs ∧
      ∀ pre n post, order = pre ++ n :: post → ∀ a ∈ g.nodes,
        (∃ m ∈ (g.mlmi a).outputs, m ∈ (g.mlmi n).inputs) → a ∈ pre := by
  obtain ⟨llir, hReturns⟩ := toLLIR_returns h hLower ord prog
  obtain ⟨N, hN⟩ := hReturns
  obtain ⟨order, ⟨hPerm, hAfter⟩, hLLMIs, -⟩ := toLLIR_order h (hN N le_rfl)
  refine ⟨llir, ⟨N, hN⟩, order, hPerm, hLLMIs, fun pre n post hSplit a ha hReads => ?_⟩
  have hn : n ∈ g.nodes := hPerm.mem_iff.mp (by simp [hSplit])
  exact hAfter pre n post hSplit a ((h.forward_iff a n).mpr ⟨ha, hn, hReads⟩)

end Scheduling

/-- Two doublings, one after the other. -/
def quadrupleGraph : DFG where
  nodes := [0, 1]
  mlmi := fun n =>
    if n = 0 then
      ⟨[{ opcode := .ADD, dst := 1, src1 := some (.loc 0), src2 := some (.loc 0) }], [0], [1]⟩
    else ⟨[{ opcode := .ADD, dst := 2, src1 := some (.loc 1), src2 := some (.loc 1) }], [1], [2]⟩
  fresh := 2
  backwardEdges := fun m => if m = 1 then some 0 else if m = 2 then some 1 else none
  forwardEdges := fun n => if n = 0 then [1] else []
  progInputs := [0]
  progOutputs := [2]
  memoryCount := 3

/-- Room for two inputs and two outputs. -/
def roomyConfig : Config :=
  { version := 0, wordSize := 32, lIn := 2, lOut := 2, r := 4, s := 2, width := 0, depth := 0,
    simpleClusterizer := false, fast := false }

theorem quadrupleGraph_consistent : quadrupleGraph.Consistent where
  nodes_nodup := by decide
  inputs_from := by decide
  output_unique := by decide
  output_fresh := by decide
  forward_iff := fun a b => by
    simp only [Edge, quadrupleGraph, List.mem_cons, List.not_mem_nil, or_false]
    constructor
    · intro h
      split at h
      · next ha => exact ⟨Or.inl ha, Or.inr (by simpa using h), by simp_all⟩
      · cases h
    · rintro ⟨rfl | rfl, rfl | rfl, m, hOut, hIn⟩ <;> simp_all
  acyclic := acyclic_of_lt (f := id) fun a b h => by
    simp only [Edge, quadrupleGraph] at h
    split at h
    · simp_all
    · cases h

theorem quadrupleGraph_lowerable : quadrupleGraph.Lowerable roomyConfig := by
  intro n hn o
  rcases List.mem_pair.mp hn with rfl | rfl
  · exact ⟨_, rfl⟩
  · exact ⟨_, rfl⟩

/-- The theorem at two doublings. -/
theorem toLLIR_quadrupleGraph : ∃ llir,
    Returns (fun fuel => quadrupleGraph.toLLIR storedOrders fuel roomyConfig ⟨[], [0], [2], 3⟩)
      llir ∧
      llir.instrs.length = 2 := by
  obtain ⟨llir, hReturns, order, hPerm, hLLMIs, -⟩ := toLLIR_schedules quadrupleGraph_consistent
    quadrupleGraph_lowerable storedOrders ⟨[], [0], [2], 3⟩
  exact ⟨llir, hReturns, hLLMIs.length_eq ▸ hPerm.length_eq⟩

end DFG

end Obscure
