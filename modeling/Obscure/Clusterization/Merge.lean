import Obscure.DFG
import Obscure.Lib.Graph
import Obscure.Lib.Lists

/-!
# OBSCURE — what the parts of a merge compute

One specification for each function a merge is made of, in both directions where
the passes need it: what its result is when it returns (`_ok`), and when it
returns (`_returns`). The passes reason from these and do not look at the loops
again.
-/

namespace Obscure

open Lib

/-! ## Scheduling the instructions of two nodes -/

namespace DFG

/-- What is used is read and not defined. -/
theorem mem_getUsed {mlmi : MLMI} {m : Nat} :
    m ∈ mlmi.getUsed ↔ m ∈ reads mlmi.seq ∧ m ∉ mlmi.getDefs := by
  simp [MLMI.getUsed, Obscure.getUsed, MLMI.getDefs]

/-- One pass takes a sublist whose operands are ready, and keeps track of what
is defined. -/
theorem schedulePass_spec (todo : List HLI) (defined : List Nat) :
    (schedulePass todo defined).1.Sublist todo ∧
      Scheduled defined (schedulePass todo defined).1 ∧
      ∀ m, m ∈ (schedulePass todo defined).2 ↔
        m ∈ defined ∨ m ∈ defs (schedulePass todo defined).1 := by
  induction todo generalizing defined with
  | nil => exact ⟨List.Sublist.refl _, Scheduled.nil _, fun m => by simp [schedulePass]⟩
  | cons i todo ih =>
    rw [schedulePass]
    split
    · next hReady =>
      obtain ⟨hSub, hSched, hDefined⟩ := ih (i.dst :: defined)
      refine ⟨hSub.cons_cons i, scheduled_cons.mpr ⟨?_, hSched⟩, fun m => ?_⟩
      · simpa using hReady
      · rw [hDefined m, defs_cons, List.mem_cons, List.mem_cons]
        tauto
    · obtain ⟨hSub, hSched, hDefined⟩ := ih defined
      exact ⟨hSub.cons i, hSched, hDefined⟩

/-- A pass schedules every instruction that is ready from the start. -/
theorem mem_schedulePass {todo : List HLI} {defined : List Nat} {i : HLI} (hi : i ∈ todo)
    (hReady : ∀ m ∈ i.memInputs, m ∈ defined) : i ∈ (schedulePass todo defined).1 := by
  induction todo generalizing defined with
  | nil => cases hi
  | cons j todo ih =>
    rw [schedulePass]
    split
    · rcases List.mem_cons.mp hi with rfl | hi
      · exact List.mem_cons_self
      · exact List.mem_cons_of_mem _
          (ih hi fun m hm => List.mem_cons_of_mem _ (hReady m hm))
    · next hNot =>
      rcases List.mem_cons.mp hi with rfl | hi
      · exact absurd (by simpa using hReady) hNot
      · exact ih hi hReady

/-- The state of the scheduling loop: `start` is split into what is scheduled
and what is not. -/
structure Scheduling (start : List HLI) (inputs : List Nat)
    (st : List HLI × List Nat × List HLI) : Prop where
  perm : (st.2.2 ++ st.1).Perm start
  nodup : st.1.Nodup
  defined : ∀ m, m ∈ st.2.1 ↔ m ∈ inputs ∨ m ∈ defs st.2.2
  scheduled : Scheduled inputs st.2.2

/-- A pass over the instructions that are left, in any order, schedules those whose operands are
defined. -/
theorem Scheduling.pass {start : List HLI} {inputs : List Nat} {todo instrs : List HLI}
    {defined : List Nat} (h : Scheduling start inputs (todo, defined, instrs)) {order : List HLI}
    (hOrder : order.Perm todo) :
    Scheduling start inputs (todo.filter (fun x => x ∉ (schedulePass order defined).1),
      (schedulePass order defined).2, instrs ++ (schedulePass order defined).1) := by
  obtain ⟨hSub, hSched, hDefined⟩ := schedulePass_spec order defined
  set scheduled := (schedulePass order defined).1
  have hNodup : scheduled.Nodup := hSub.nodup (hOrder.nodup_iff.mpr h.nodup)
  have hSplit : (scheduled ++ todo.filter fun x => x ∉ scheduled).Perm todo := by
    rw [List.perm_ext_iff_of_nodup _ h.nodup]
    · intro x
      simp only [List.mem_append, List.mem_filter, decide_eq_true_eq]
      constructor
      · rintro (hx | hx)
        · exact hOrder.mem_iff.mp (hSub.subset hx)
        · exact hx.1
      · intro hx
        by_cases hs : x ∈ scheduled
        · exact Or.inl hs
        · exact Or.inr ⟨hx, hs⟩
    · refine List.nodup_append.mpr ⟨hNodup, h.nodup.filter _, ?_⟩
      rintro x hx y hy rfl
      simp [hx] at hy
  refine ⟨?_, h.nodup.filter _, fun m => ?_, h.scheduled.append (hSched.mono fun m hm => ?_)⟩
  · rw [List.append_assoc]
    exact (hSplit.append_left instrs).trans h.perm
  · rw [hDefined m, h.defined m, defs_append, List.mem_append]
    tauto
  · rw [List.mem_append]
    exact (h.defined m).mp hm

/-- Before the first pass everything is left. -/
theorem scheduling_start (start : List HLI) (inputs : List Nat) (h : start.Nodup) :
    Scheduling start inputs (start, inputs, []) :=
  ⟨by simp, h, by simp, Scheduled.nil _⟩

/-- `compute_merged_instrs` puts the instructions of the two nodes in an order
in which every operand is defined before it is read. -/
theorem computeMergedInstrs_ok {ord : Orders} {fuel : Nat} {g : DFG} {n1 n2 : Nat}
    {mergedInputs : List Nat} {mls : List HLI}
    (h : g.computeMergedInstrs ord fuel n1 n2 mergedInputs = .ok mls) :
    mls.Perm ((g.mlmi n1).seq ++ (g.mlmi n2).seq).dedup ∧ Scheduled mergedInputs mls := by
  refine loop_ok (P := Scheduling ((g.mlmi n1).seq ++ (g.mlmi n2).seq).dedup mergedInputs)
    (Q := fun mls => mls.Perm ((g.mlmi n1).seq ++ (g.mlmi n2).seq).dedup ∧
      Scheduled mergedInputs mls) ?_ ?_ (scheduling_start _ _ (List.nodup_dedup _)) h
  · rintro i ⟨todo, defined, instrs⟩ st' hInv hBody
    rw [scheduleStep] at hBody
    split at hBody
    · cases hBody
    · cases hBody
      exact hInv.pass (ord.hlis.perm i todo)
  · rintro i ⟨todo, defined, instrs⟩ mls hInv hBody
    rw [scheduleStep] at hBody
    split at hBody
    · next hNil =>
      cases hBody
      have hPerm := hInv.perm
      simp only at hNil hPerm
      rw [hNil, List.append_nil] at hPerm
      exact ⟨hPerm, hInv.scheduled⟩
    · cases hBody

/-- As long as some order of the instructions is possible, one of those left is
ready. -/
theorem Scheduling.exists_ready {start : List HLI} {inputs : List Nat} {todo instrs : List HLI}
    {defined : List Nat} (h : Scheduling start inputs (todo, defined, instrs)) {seq : List HLI}
    (hPerm : seq.Perm start) (hSched : Scheduled inputs seq) (hTodo : todo ≠ []) :
    ∃ i ∈ todo, ∀ m ∈ i.memInputs, m ∈ defined := by
  obtain ⟨j, hj⟩ := List.exists_mem_of_ne_nil todo hTodo
  have hMem : ∀ i, i ∈ seq ↔ i ∈ instrs ∨ i ∈ todo := fun i => by
    rw [hPerm.mem_iff, ← h.perm.mem_iff, List.mem_append]
  -- the first instruction of that order that is still left
  obtain ⟨pre, i, post, hSplit, hi, hFirst⟩ :=
    exists_first_satisfying (fun i => i ∈ todo) ⟨j, (hMem j).mpr (Or.inr hj), hj⟩
  refine ⟨i, hi, fun m hm => (h.defined m).mpr ?_⟩
  rcases hSched pre i post hSplit m hm with hIn | hDef
  · exact Or.inl hIn
  · obtain ⟨i', hi', rfl⟩ := List.mem_map.mp hDef
    have hInstrs : i' ∈ instrs :=
      ((hMem i').mp (by simp [hSplit, hi'])).resolve_right (hFirst i' hi')
    exact Or.inr (List.mem_map_of_mem hInstrs)

/-- It returns when some order of the instructions is possible. -/
theorem computeMergedInstrs_returns (ord : Orders) {g : DFG} {n1 n2 : Nat}
    {mergedInputs : List Nat} {seq : List HLI}
    (hPerm : seq.Perm ((g.mlmi n1).seq ++ (g.mlmi n2).seq).dedup)
    (hSched : Scheduled mergedInputs seq) :
    ∃ mls, Returns (fun fuel => g.computeMergedInstrs ord fuel n1 n2 mergedInputs) mls := by
  -- the number of instructions left goes down in every pass
  have hWf : WellFounded fun a b : List HLI × List Nat × List HLI => a.1.length < b.1.length :=
    InvImage.wf (fun st : List HLI × List Nat × List HLI => st.1.length) Nat.lt_wfRel.wf
  suffices h : ∃ mls, Returns (fun fuel => g.computeMergedInstrs ord fuel n1 n2 mergedInputs) mls ∧
      True by
    obtain ⟨mls, hRet, -⟩ := h
    exact ⟨mls, hRet⟩
  refine loop_returns (P := Scheduling ((g.mlmi n1).seq ++ (g.mlmi n2).seq).dedup mergedInputs)
    (Q := fun _ => True) hWf ?_ 0 (scheduling_start _ _ (List.nodup_dedup _))
  rintro i ⟨todo, defined, instrs⟩ hInv
  by_cases hTodo : todo = []
  · exact ⟨.inr instrs, Returns.of_eq fun _ => by rw [scheduleStep, if_pos hTodo], trivial⟩
  refine ⟨.inl _, Returns.of_eq fun _ => by rw [scheduleStep, if_neg hTodo],
    hInv.pass (ord.hlis.perm i todo), ?_⟩
  obtain ⟨x, hx, hReady⟩ := hInv.exists_ready hPerm hSched hTodo
  have hDone := mem_schedulePass ((ord.hlis.perm i todo).mem_iff.mpr hx) hReady
  exact List.length_filter_lt_length_iff_exists.mpr ⟨x, hx, by simpa using hDone⟩

/-! ## Traversals -/

/-- An edge of the graph. -/
def Edge (g : DFG) (a b : Nat) : Prop := b ∈ g.forwardEdges a

/-- The state of a traversal from `starts`: whatever was visited has its
successors visited or waiting, and `nend` was not met. -/
structure Visiting (g : DFG) (starts : List Nat) (nend : Nat) (st : List Nat × List Nat) :
    Prop where
  starts : ∀ x ∈ starts, x ∈ st.1 ∨ x ∈ st.2
  closed : ∀ v ∈ st.2, ∀ y ∈ g.nextNodes v, y ∈ st.1 ∨ y ∈ st.2
  not_met : nend ∉ st.2

/-- A step marks a node as visited and adds its successors. -/
theorem Visiting.step {g : DFG} {starts : List Nat} {nend : Nat} {st st' : List Nat × List Nat}
    {ord : Orders} {i : Nat} (h : Visiting g starts nend st)
    (hStep : g.visitStep ord nend i st = .ok (.inl st')) : Visiting g starts nend st' := by
  rw [visitStep] at hStep
  split at hStep
  · cases hStep
  next n toVisit hPop =>
  have hMem : ∀ x, x ∈ st.1 ↔ x = n ∨ x ∈ toVisit := fun x => by
    rw [← (SetOrder.pop_perm hPop).mem_iff, List.mem_cons]
  split at hStep
  · next hSeen =>
    cases hStep
    -- dropping a node that was visited before
    have hKeep : ∀ x, x ∈ st.1 ∨ x ∈ st.2 → x ∈ toVisit ∨ x ∈ st.2 := by
      intro x hx
      rcases hx with hx | hx
      · rcases (hMem x).mp hx with rfl | hx
        · exact Or.inr hSeen
        · exact Or.inl hx
      · exact Or.inr hx
    exact ⟨fun x hx => hKeep x (h.starts x hx), fun v hv y hy => hKeep y (h.closed v hv y hy),
      h.not_met⟩
  · split at hStep
    · cases hStep
    next hNe =>
    cases hStep
    have hKeep : ∀ x, x ∈ st.1 ∨ x ∈ st.2 →
        x ∈ (g.nextNodes n).foldl (fun s x => s.insert x) toVisit ∨ x ∈ n :: st.2 := by
      intro x hx
      rw [mem_foldl_insert, List.mem_cons]
      rcases hx with hx | hx
      · rcases (hMem x).mp hx with rfl | hx
        · exact Or.inr (Or.inl rfl)
        · exact Or.inl (Or.inr hx)
      · exact Or.inr (Or.inr hx)
    refine ⟨fun x hx => hKeep x (h.starts x hx), fun v hv y hy => ?_, ?_⟩
    · rcases List.mem_cons.mp hv with rfl | hv
      · exact Or.inl (mem_foldl_insert.mpr (Or.inl hy))
      · exact hKeep y (h.closed v hv y hy)
    · rw [List.mem_cons, not_or]
      exact ⟨fun hEq => hNe hEq.symm, h.not_met⟩

/-- A traversal that does not meet `nend` rules out a detour to it. -/
theorem notReached_ok {ord : Orders} {fuel : Nat} {g : DFG} {nstart nend : Nat}
    (h : g.notReached ord fuel nstart nend = .ok true) : NoDetour g.Edge nstart nend := by
  refine loop_ok (P := Visiting g ((g.nextNodes nstart).filter fun n => n ≠ nend) nend)
    (Q := fun b => b = true → NoDetour g.Edge nstart nend) ?_ ?_ ?_ h rfl
  · intro i st st' hInv hStep
    exact hInv.step hStep
  · intro i st b hInv hStep hb x hEdge hne hPath
    rw [visitStep] at hStep
    split at hStep
    · next hPop =>
      have hEmpty : st.1 = [] := SetOrder.pop_eq_none.mp hPop
      -- nothing is waiting, so the visited nodes are closed under successors
      have hVisited : ∀ y, y ∈ st.1 ∨ y ∈ st.2 → y ∈ st.2 := by
        intro y hy
        rw [hEmpty] at hy
        exact hy.resolve_left List.not_mem_nil
      have hStart : x ∈ st.2 :=
        hVisited x (hInv.starts x (List.mem_filter.mpr ⟨hEdge, by simpa using hne⟩))
      exact hInv.not_met (mem_of_reflTransGen
        (fun a c ha hac => hVisited c (hInv.closed a ha c hac)) hStart hPath)
    · split at hStep
      · cases hStep
      · split at hStep
        · cases hStep
          cases hb
        · cases hStep
  · exact ⟨fun x hx => Or.inl hx, fun v hv => absurd hv List.not_mem_nil, List.not_mem_nil⟩

/-- A traversal of a finite graph ends. -/
theorem notReached_returns (ord : Orders) {g : DFG} {nstart nend : Nat}
    (hEdges : ∀ a b, g.Edge a b → b ∈ g.nodes) :
    ∃ b, Returns (fun fuel => g.notReached ord fuel nstart nend) b := by
  -- a round visits a new node, or leaves one node less to visit
  have hWf : WellFounded fun a b : List Nat × List Nat =>
      Prod.Lex (· < ·) (· < ·) ((g.nodes.filter fun n => n ∉ a.2).length, a.1.length)
        ((g.nodes.filter fun n => n ∉ b.2).length, b.1.length) :=
    InvImage.wf (fun st : List Nat × List Nat =>
      ((g.nodes.filter fun n => n ∉ st.2).length, st.1.length))
      (WellFounded.prod_lex Nat.lt_wfRel.wf Nat.lt_wfRel.wf)
  suffices h : ∃ b, Returns (fun fuel => g.notReached ord fuel nstart nend) b ∧ True by
    obtain ⟨b, hRet, -⟩ := h
    exact ⟨b, hRet⟩
  refine loop_returns (P := fun st : List Nat × List Nat => ∀ x ∈ st.1, x ∈ g.nodes)
    (Q := fun _ => True) hWf ?_ 0 fun x hx => hEdges nstart x (List.mem_filter.mp hx).1
  intro i st hNodes
  cases hPop : ord.nats.pop i st.1 with
  | none => exact ⟨.inr true, Returns.of_eq fun _ => by rw [visitStep, hPop], trivial⟩
  | some popped =>
    obtain ⟨n, toVisit⟩ := popped
    have hPerm := SetOrder.pop_perm hPop
    by_cases hSeen : n ∈ st.2
    · refine ⟨.inl (toVisit, st.2), Returns.of_eq fun _ => ?_, fun x hx => ?_, ?_⟩
      · simp only [visitStep, hPop, if_pos hSeen]
      · exact hNodes x (hPerm.mem_iff.mp (List.mem_cons_of_mem _ hx))
      · refine Prod.Lex.right _ ?_
        rw [← hPerm.length_eq]
        exact Nat.lt_succ_self _
    by_cases hEnd : n = nend
    · refine ⟨.inr false, Returns.of_eq fun _ => ?_, trivial⟩
      simp only [visitStep, hPop, if_neg hSeen, if_pos hEnd]
    · refine ⟨.inl ((g.nextNodes n).foldl (fun s x => s.insert x) toVisit, n :: st.2),
        Returns.of_eq fun _ => ?_, fun x hx => ?_, ?_⟩
      · simp only [visitStep, hPop, if_neg hSeen, if_neg hEnd]
      · rcases mem_foldl_insert.mp hx with hx | hx
        · exact hEdges n x hx
        · exact hNodes x (hPerm.mem_iff.mp (List.mem_cons_of_mem _ hx))
      · refine Prod.Lex.left _ _ ?_
        have hFilter : g.nodes.filter (fun x => x ∉ n :: st.2) =
            (g.nodes.filter fun x => x ∉ st.2).filter fun x => x ≠ n := by
          rw [List.filter_filter]
          congr 1
          funext x
          simp
        rw [hFilter]
        refine List.length_filter_lt_length_iff_exists.mpr ⟨n, List.mem_filter.mpr ⟨?_, ?_⟩, ?_⟩
        · exact hNodes n (hPerm.mem_iff.mp List.mem_cons_self)
        · simpa using hSeen
        · simp

/-- `check_domination_for_merge` accepts only pairs without a detour. -/
theorem checkDominationForMerge_ok {ord : Orders} {fuel : Nat} {g : DFG} {n1 n2 : Nat}
    (h : g.checkDominationForMerge ord fuel n1 n2 = .ok true) :
    NoDetour g.Edge n1 n2 ∧ NoDetour g.Edge n2 n1 := by
  obtain ⟨b, hFirst, h⟩ := bind_eq_ok.mp h
  cases b with
  | false => cases h
  | true => exact ⟨notReached_ok hFirst, notReached_ok h⟩

/-- The search ends: each node is visited once. -/
theorem checkDominationForMerge_returns (ord : Orders) {g : DFG} {n1 n2 : Nat}
    (hEdges : ∀ a b, g.Edge a b → b ∈ g.nodes) :
    ∃ b, Returns (fun fuel => g.checkDominationForMerge ord fuel n1 n2) b := by
  obtain ⟨b, hFirst⟩ := notReached_returns (ord.fork 0) hEdges
  obtain ⟨b', hSecond⟩ := notReached_returns (ord.fork 1) hEdges
  cases b with
  | false => exact ⟨false, hFirst.bind (Returns.of_eq fun _ => rfl)⟩
  | true => exact ⟨b', hFirst.bind hSecond⟩

/-! ## The outputs of the merged node -/

/-- An output of `first` stays an output: `second` does not read it, or someone
else does, or the program returns it. -/
def Keeps (g : DFG) (first second o : Nat) : Prop :=
  o ∈ (g.mlmi second).inputs →
    (g.nextNodes first).countP (fun n => o ∈ (g.mlmi n).inputs) +
      (if o ∈ g.progOutputs then 1 else 0) > 1

instance (g : DFG) (first second o : Nat) : Decidable (g.Keeps first second o) := by
  unfold Keeps
  infer_instance

/-- The outputs that are kept, as a list. -/
theorem keptOutputs_ok {g : DFG} {first second : Nat} {os kept kept' : List Nat}
    (h : g.keptOutputs first second os kept = .ok kept') :
    kept' = (os.filter fun o => g.Keeps first second o).foldl (fun s x => s.insert x) kept := by
  induction os generalizing kept with
  | nil =>
    cases h
    rfl
  | cons o os ih =>
    rw [keptOutputs] at h
    split at h
    · next hRead =>
      simp only at h
      split at h
      · cases h
      by_cases hUses : (g.nextNodes first).countP (fun n => o ∈ (g.mlmi n).inputs) +
          (if o ∈ g.progOutputs then 1 else 0) > 1
      · have hKeeps : g.Keeps first second o := fun _ => hUses
        rw [if_pos hUses] at h
        rw [ih h, List.filter_cons_of_pos (by simpa using hKeeps), List.foldl_cons]
      · have hNot : ¬ g.Keeps first second o := fun hKeeps => hUses (hKeeps hRead)
        rw [if_neg hUses] at h
        rw [ih h, List.filter_cons_of_neg (by simpa using hNot)]
    · next hRead =>
      have hKeeps : g.Keeps first second o := fun hIn => absurd hIn hRead
      rw [ih h, List.filter_cons_of_pos (by simpa using hKeeps), List.foldl_cons]

/-- The assertion holds when the readers of an output are successors. -/
theorem keptOutputs_returns {g : DFG} {first second : Nat} {os : List Nat} (kept : List Nat)
    (hUsed : ∀ o ∈ os, o ∈ (g.mlmi second).inputs → g.Edge first second) :
    ∃ kept', g.keptOutputs first second os kept = .ok kept' := by
  induction os generalizing kept with
  | nil => exact ⟨kept, rfl⟩
  | cons o os ih =>
    have hTail := fun kept => ih kept fun o ho => hUsed o (List.mem_cons_of_mem _ ho)
    rw [keptOutputs]
    split
    · next hRead =>
      have hEdge := hUsed o List.mem_cons_self hRead
      have hCount : (g.nextNodes first).countP (fun n => o ∈ (g.mlmi n).inputs) ≠ 0 := by
        have : 0 < (g.nextNodes first).countP (fun n => o ∈ (g.mlmi n).inputs) :=
          List.countP_pos_iff.mpr ⟨second, hEdge, by simpa using hRead⟩
        omega
      simp only [if_neg hCount]
      by_cases hUses : (g.nextNodes first).countP (fun n => o ∈ (g.mlmi n).inputs) +
          (if o ∈ g.progOutputs then 1 else 0) > 1
      · rw [if_pos hUses]
        exact hTail _
      · rw [if_neg hUses]
        exact hTail _
    · exact hTail _

/-- `compute_merged_outputs` lists the outputs that are kept, on both sides. -/
theorem computeMergedOutputs_ok {ord : Orders} {g : DFG} {n1 n2 : Nat} {outputs : List Nat}
    (h : g.computeMergedOutputs ord n1 n2 = .ok outputs) :
    outputs.Nodup ∧ ∀ o, o ∈ outputs ↔
      (o ∈ (g.mlmi n1).outputs ∧ g.Keeps n1 n2 o) ∨
        (o ∈ (g.mlmi n2).outputs ∧ g.Keeps n2 n1 o) := by
  obtain ⟨kept, hKept, h⟩ := bind_eq_ok.mp h
  obtain ⟨kept', hKept', h⟩ := bind_eq_ok.mp h
  cases h
  rw [keptOutputs_ok hKept', keptOutputs_ok hKept]
  constructor
  · exact (ord.nats.perm 0 _).nodup_iff.mpr (nodup_foldl_insert (nodup_foldl_insert List.nodup_nil))
  · intro o
    simp only [ord.mem_list, mem_foldl_insert, List.mem_filter, decide_eq_true_eq,
      List.not_mem_nil, or_false]
    exact or_comm

/-- The number of outputs does not depend on the order. -/
theorem computeMergedOutputs_length {ord ord' : Orders} {g : DFG} {n1 n2 : Nat}
    {outputs outputs' : List Nat} (h : g.computeMergedOutputs ord n1 n2 = .ok outputs)
    (h' : g.computeMergedOutputs ord' n1 n2 = .ok outputs') :
    outputs.length = outputs'.length := by
  obtain ⟨hNodup, hMem⟩ := computeMergedOutputs_ok h
  obtain ⟨hNodup', hMem'⟩ := computeMergedOutputs_ok h'
  refine ((List.perm_ext_iff_of_nodup hNodup hNodup').mpr fun o => ?_).length_eq
  rw [hMem, hMem']

/-- The outputs can be computed if there is an edge for each location that one node gives to the
other. -/
theorem computeMergedOutputs_returns (ord : Orders) {g : DFG} {n1 n2 : Nat}
    (h12 : ∀ o ∈ (g.mlmi n1).outputs, o ∈ (g.mlmi n2).inputs → g.Edge n1 n2)
    (h21 : ∀ o ∈ (g.mlmi n2).outputs, o ∈ (g.mlmi n1).inputs → g.Edge n2 n1) :
    ∃ outputs, g.computeMergedOutputs ord n1 n2 = .ok outputs := by
  obtain ⟨kept, hKept⟩ := keptOutputs_returns [] h12
  obtain ⟨kept', hKept'⟩ := keptOutputs_returns kept h21
  refine ⟨ord.list kept', ?_⟩
  rw [computeMergedOutputs, hKept]
  show (g.keptOutputs n2 n1 (g.mlmi n2).outputs kept >>= fun kept => pure (ord.list kept)) = _
  rw [hKept']
  rfl

/-! ## Edges -/

section Edit

variable {progInputs : List Nat} {bwd : Nat → Option Nat} {edit : List Nat → List Nat}
variable {srcs : List Nat} {fwd fwd' : Nat → List Nat}

/-- An idempotent edit reaches the nodes that define one of the operands, and
only those. -/
theorem editUsers_ok (hIdem : ∀ s, edit (edit s) = edit s)
    (h : editUsers progInputs bwd edit srcs fwd = .ok fwd') (d : Nat) :
    ((∃ src ∈ srcs, src ∉ progInputs ∧ bwd src = some d) → fwd' d = edit (fwd d)) ∧
      ((¬ ∃ src ∈ srcs, src ∉ progInputs ∧ bwd src = some d) → fwd' d = fwd d) := by
  induction srcs generalizing fwd with
  | nil =>
    cases h
    simp
  | cons src srcs ih =>
    rw [editUsers] at h
    split at h
    · next hIn =>
      have hSame : (∃ x ∈ src :: srcs, x ∉ progInputs ∧ bwd x = some d) ↔
          ∃ x ∈ srcs, x ∉ progInputs ∧ bwd x = some d := by simp [hIn]
      rw [hSame]
      exact ih h
    · next hNot =>
      split at h
      · cases h
      next d₀ hDef =>
      obtain ⟨hYes, hNo⟩ := ih h
      by_cases hd : d = d₀
      · subst hd
        have hHead : ∃ x ∈ src :: srcs, x ∉ progInputs ∧ bwd x = some d :=
          ⟨src, List.mem_cons_self, hNot, hDef⟩
        refine ⟨fun _ => ?_, fun hNone => absurd hHead hNone⟩
        by_cases hTail : ∃ x ∈ srcs, x ∉ progInputs ∧ bwd x = some d
        · rw [hYes hTail, Function.update_self, hIdem]
        · rw [hNo hTail, Function.update_self]
      · have hSame : (∃ x ∈ src :: srcs, x ∉ progInputs ∧ bwd x = some d) ↔
            ∃ x ∈ srcs, x ∉ progInputs ∧ bwd x = some d := by
          have hne : ¬ some d₀ = some d := fun hEq => hd (Option.some.inj hEq).symm
          simp [hDef, hne]
        rw [hSame]
        rw [Function.update_of_ne hd] at hYes hNo
        exact ⟨hYes, hNo⟩

/-- The lists of edges can be edited if every location has a definition. -/
theorem editUsers_returns (edit : List Nat → List Nat) (fwd : Nat → List Nat)
    (hDef : ∀ src ∈ srcs, src ∉ progInputs → (bwd src).isSome) :
    ∃ fwd', editUsers progInputs bwd edit srcs fwd = .ok fwd' := by
  induction srcs generalizing fwd with
  | nil => exact ⟨fwd, rfl⟩
  | cons src srcs ih =>
    have hTail := fun fwd => ih fwd fun x hx => hDef x (List.mem_cons_of_mem _ hx)
    rw [editUsers]
    split
    · exact hTail _
    · next hNot =>
      obtain ⟨d, hd⟩ := Option.isSome_iff_exists.mp (hDef src List.mem_cons_self hNot)
      rw [hd]
      exact hTail _

end Edit

end DFG

end Obscure
