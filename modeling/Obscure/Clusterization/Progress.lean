import Obscure.Clusterization.Soundness
import Obscure.Lowering.Correct

/-!
# OBSCURE — the clusterizer returns

On a sound graph nothing raises and every loop ends: scheduling finds an
instruction that is ready because the program itself is an order in which all of
them are, a traversal visits every node once, a merge takes nodes that are still
there, and a round of a phase makes a merge or shortens its worklist.

* `clusterize_returns` — with enough fuel, every run of `clusterize` returns.
-/

namespace Obscure

open Lib

/-! ## The allocator -/

/-- A location that has a register keeps one when the outputs get theirs. -/
theorem isSome_lookup_mapOutputs {outs : List Nat} {first : Nat} {regs : RegMap} {m : Nat}
    (h : (regs.lookup m).isSome) : ((mapOutputs first outs regs).lookup m).isSome := by
  induction outs generalizing first regs with
  | nil => exact h
  | cons o outs ih =>
    refine ih ?_
    rw [lookup_cons_ite]
    split
    · rfl
    · exact h

/-- Every location that is read has a register by then: induction along the sequence, in which
each read comes after its definition. -/
theorem allocate_noKeyError (ord : SetOrder Nat) {seq : List HLI} (outputs : List Nat)
    {A : Nat → Prop} (hReads : ∀ pre i post, seq = pre ++ i :: post →
      ∀ m ∈ i.memInputs, A m ∨ m ∈ defs pre)
    (done rest : List HLI) (hSplit : seq = done ++ rest) (st : AllocState)
    (hBound : ∀ m, A m ∨ m ∈ defs done → (st.regs.lookup m).isSome) (m : Nat) :
    allocate ord (computeLiveIntervals seq outputs).1 (computeLiveIntervals seq outputs).2
      done.length rest.length st ≠ .error (.keyError m) := by
  induction rest generalizing done st with
  | nil => simp [allocate]
  | cons x rest ih =>
    -- what dies here was read, so it has a register
    have hDying : ∀ m ∈ (computeLiveIntervals seq outputs).2.at done.length,
        (st.regs.lookup m).isSome := by
      intro m hm
      rw [hSplit, mem_deaths_at] at hm
      exact hBound m (hReads done x rest hSplit m hm.1)
    obtain ⟨st₁, hFree, -⟩ := freeRegisters_ok st hDying
    have hRegs := (freeRegisters_spec hFree).1
    have hBirths : (computeLiveIntervals seq outputs).1.at done.length = [x.dst] := by
      rw [hSplit, births_at]
    rw [List.length_cons, allocate, hFree, hBirths]
    simp only
    cases hNew : allocateNew ord done.length [x.dst] st₁ with
    | error e =>
      -- a birth fails for want of a free register, not for a key
      simp only [allocateNew] at hNew
      split at hNew
      · cases hNew
      · split at hNew
        · cases hNew
          simp
        · cases hNew
    | ok st₂ =>
      have hNext := ih (done ++ [x]) (by simp [hSplit]) st₂ (by
        intro m hm
        have hOld : A m ∨ m ∈ defs done → (st₁.regs.lookup m).isSome := by
          rw [hRegs]
          exact hBound m
        -- after the step the new cell has a register too
        have hm' : (A m ∨ m ∈ defs done) ∨ m = x.dst := by
          rw [defs_append, List.mem_append] at hm
          rcases hm with hm | hm | hm
          · exact Or.inl (Or.inl hm)
          · exact Or.inl (Or.inr hm)
          · exact Or.inr (by simpa using hm)
        rcases allocateNew_spec hNew with ⟨hSome, rfl⟩ | ⟨hNone, r, free, -, rfl⟩
        · rcases hm' with hm' | rfl
          · exact hOld hm'
          · exact hSome
        · show (List.lookup m ((x.dst, r) :: st₁.regs)).isSome
          rw [lookup_cons_ite]
          split
          · rfl
          · next hne => exact hOld (hm'.resolve_right hne))
      rw [List.length_append, List.length_singleton] at hNext
      exact hNext

/-- On a scheduled sequence the allocator answers. -/
theorem needsLeqKRegisters_returns (ord : SetOrder Nat) {seq : List HLI}
    {inputs : List Nat} (outputs : List Nat) (k maxOut : Nat) (hSched : Scheduled inputs seq)
    (hInputs : ∀ m ∈ inputs, m ∈ getUsed seq) :
    ∃ b, needsLeqKRegisters ord seq inputs outputs k maxOut = .ok b := by
  have hNo := allocate_noKeyError ord outputs hSched [] seq rfl
    (allocInit seq inputs outputs k maxOut) (by
      rintro m (hm | hm)
      · refine isSome_lookup_mapOutputs ?_
        rw [lookup_mapInputs]
        simp [hInputs m hm, hm]
      · cases hm)
  unfold needsLeqKRegisters getRegistersMapping
  cases hAlloc : allocate ord (computeLiveIntervals seq outputs).1
      (computeLiveIntervals seq outputs).2 0 seq.length
      (allocInit seq inputs outputs k maxOut) with
  | ok st => exact ⟨true, by simp [hAlloc, Except.map]⟩
  | error e =>
    cases e with
    | notEnoughRegisters => exact ⟨false, by simp [hAlloc, Except.map]⟩
    | keyError m => exact absurd hAlloc (hNo m)

/-! ## Checks and merges on a sound graph -/

namespace DFG

section Sound

variable {ir : HLIRProgram} {g : DFG} {n1 n2 : Nat}

/-- The search for a detour ends, in whatever order. -/
theorem Sound.checkDominationForMerge_returns (h : g.Sound ir) (ord : Orders) :
    ∃ b, Returns (fun fuel => g.checkDominationForMerge ord fuel n1 n2) b :=
  DFG.checkDominationForMerge_returns ord fun a b hEdge => ((h.forward_iff a b).mp hEdge).2.1

/-- The merged sequence is one the allocator can be asked about. -/
theorem Merging.fitsRegisters_returns {new : MLMI} (h : Merging ir g n1 n2 new) (cfg : Config)
    (ord : Orders) : ∃ b, fitsRegisters ord cfg new.seq new.inputs new.outputs = .ok b := by
  obtain ⟨b, hb⟩ := needsLeqKRegisters_returns ord.nats new.outputs cfg.r cfg.lOut h.scheduled
    fun m hm => h.inputs_eq_used.mp hm
  exact ⟨b, by rw [fitsRegisters, hb]; rfl⟩

/-- A merge of two nodes of the graph, with a sequence the passes computed. -/
theorem Sound.mergeNodes_returns (h : g.Sound ir) (hIr : ir.Clean) (hn1 : n1 ∈ g.nodes)
    (hn2 : n2 ∈ g.nodes) (hne : n1 ≠ n2) {ord ord₁ : Orders} {fuel : Nat} {mls : List HLI}
    (hInstrs : g.computeMergedInstrs ord fuel n1 n2 (g.computeMergedInputs ord₁ n1 n2) = .ok mls)
    (ord₂ : Orders) : ∃ r, ∀ fuel', g.mergeNodes ord₂ fuel' n1 n2 (some mls) = .ok r := by
  obtain ⟨outputs, hOutputs⟩ := (h.coherent hIr).computeMergedOutputs_returns hn1 hn2 (ord₂.fork 1)
  obtain ⟨r, hr⟩ := (h.merging_of hIr hn1 hn2 hne hInstrs hOutputs
    (ord₂.fork 0)).fusion.replaceNodes_returns
  exact ⟨r, fun fuel' => bind_eq_ok.mpr ⟨outputs, hOutputs, hr⟩⟩

end Sound

end DFG

/-! ## The checks of the phases -/

section Checks

variable {ir : HLIRProgram} {g : DFG} (cfg : Config) (ord : Orders)

/-- Two ends of an edge are different nodes of the graph. -/
theorem DFG.Sound.edge_nodes (h : g.Sound ir) {a b : Nat} (hEdge : g.Edge a b) :
    a ∈ g.nodes ∧ b ∈ g.nodes ∧ a ≠ b := by
  obtain ⟨ha, hb, -⟩ := (h.forward_iff a b).mp hEdge
  refine ⟨ha, hb, ?_⟩
  rintro rfl
  exact h.acyclic a (.single hEdge)

/-- The test of a node with one output ends. -/
theorem shouldMergeWithNext_returns (h : g.Sound ir) (hIr : ir.Clean) (node : Nat) :
    ∃ r, Returns (fun fuel => shouldMergeWithNext ord fuel cfg g node) r := by
  unfold shouldMergeWithNext
  split
  · next next hNext =>
    have hEdge : g.Edge node next := by
      show next ∈ g.nextNodes node
      rw [hNext]
      exact List.mem_singleton_self next
    obtain ⟨hn1, hn2, hne⟩ := h.edge_nodes hEdge
    by_cases hIn : (g.computeMergedInputs (ord.fork 0) node next).length > cfg.lIn
    · exact ⟨none, Returns.of_eq fun _ => by simp only [if_pos hIn]; rfl⟩
    by_cases hSeq : (g.mlmi node).seq.length + (g.mlmi next).seq.length > cfg.s
    · exact ⟨none, Returns.of_eq fun _ => by simp only [if_neg hIn, if_pos hSeq]; rfl⟩
    simp only [if_neg hIn, if_neg hSeq]
    obtain ⟨mls, hMls, -⟩ := ((h.coherent hIr).schedulable h.acyclic).mergedInstrs hn1 hn2 hne
      (ord.fork 1) (ord.fork 0)
    obtain ⟨outputs, hOutputs⟩ := (h.coherent hIr).computeMergedOutputs_returns hn1 hn2 (ord.fork 2)
    obtain ⟨N, hN⟩ := id hMls
    obtain ⟨fits, hFits⟩ := (h.merging_of hIr hn1 hn2 hne (hN N le_rfl) hOutputs
      (ord.fork 0)).fitsRegisters_returns cfg (ord.fork 3)
    refine hMls.exists_bind ((Returns.of_eq fun _ => hOutputs).exists_bind
      ((Returns.of_eq fun _ => hFits).exists_bind ?_))
    cases fits with
    | false => exact ⟨none, Returns.of_eq fun _ => rfl⟩
    | true => exact ⟨some (next, mls), Returns.of_eq fun _ => rfl⟩
  · exact ⟨none, Returns.of_eq fun _ => rfl⟩

/-- The score of two nodes is computed. -/
theorem mergeScore_returns (h : g.Sound ir) (hIr : ir.Clean) {n1 n2 : Nat} (hn1 : n1 ∈ g.nodes)
    (hn2 : n2 ∈ g.nodes) (hne : n1 ≠ n2) :
    ∃ r, Returns (fun fuel => mergeScore ord fuel cfg g n1 n2) r := by
  unfold mergeScore
  by_cases hSeq : (g.mlmi n1).seq.length + (g.mlmi n2).seq.length > cfg.s
  · exact ⟨_, Returns.of_eq fun _ => by simp only [if_pos hSeq]; rfl⟩
  by_cases hIn : (g.computeMergedInputs (ord.fork 0) n1 n2).length > cfg.lIn
  · exact ⟨_, Returns.of_eq fun _ => by simp only [if_neg hSeq, if_pos hIn]; rfl⟩
  simp only [if_neg hSeq, if_neg hIn]
  obtain ⟨outputs, hOutputs⟩ := (h.coherent hIr).computeMergedOutputs_returns hn1 hn2 (ord.fork 1)
  refine (Returns.of_eq fun _ => hOutputs).exists_bind ?_
  by_cases hOut : outputs.length > cfg.lOut
  · exact ⟨_, Returns.of_eq fun _ => by simp only [if_pos hOut]; rfl⟩
  simp only [if_neg hOut]
  obtain ⟨mls, hMls, -⟩ := ((h.coherent hIr).schedulable h.acyclic).mergedInstrs hn1 hn2 hne
    (ord.fork 2) (ord.fork 0)
  obtain ⟨N, hN⟩ := id hMls
  obtain ⟨fits, hFits⟩ := (h.merging_of hIr hn1 hn2 hne (hN N le_rfl) hOutputs
    (ord.fork 0)).fitsRegisters_returns cfg (ord.fork 3)
  refine hMls.exists_bind ((Returns.of_eq fun _ => hFits).exists_bind ?_)
  cases fits with
  | false => exact ⟨_, Returns.of_eq fun _ => rfl⟩
  | true =>
    obtain ⟨free, hFree⟩ := h.checkDominationForMerge_returns (ord.fork 4)
    refine hFree.exists_bind ?_
    cases free with
    | false => exact ⟨_, Returns.of_eq fun _ => rfl⟩
    | true => exact ⟨_, Returns.of_eq fun _ => rfl⟩

end Checks

/-! ## The rounds of the phases -/

section Rounds

variable {ir : HLIRProgram} {g : DFG} {cfg : Config}

/-- What `should_merge_with_next` proposes can be merged. -/
theorem merge_oneOutput_returns (h : g.Sound ir) (hIr : ir.Clean) {ord : Orders}
    {node next : Nat} {mls : List HLI}
    (hShould : Returns (fun fuel => shouldMergeWithNext ord fuel cfg g node) (some (next, mls)))
    (ord' : Orders) : ∃ r, ∀ fuel, g.mergeNodes ord' fuel node next (some mls) = .ok r := by
  obtain ⟨N, hN⟩ := hShould
  obtain ⟨hNext, -, -, hInstrs⟩ := shouldMergeWithNext_ok (hN N le_rfl)
  have hEdge : g.Edge node next := by
    show next ∈ g.nextNodes node
    rw [hNext]
    exact List.mem_singleton_self next
  obtain ⟨hn1, hn2, hne⟩ := h.edge_nodes hEdge
  exact h.mergeNodes_returns hIr hn1 hn2 hne hInstrs ord'

/-- A visit of the first pass ends. -/
theorem visitOneOutput_returns (h : g.Sound ir) (hIr : ir.Clean) (ord : Orders) (i : Nat)
    (toVisit : List Nat) :
    ∃ r, Returns (fun fuel => visitOneOutput ord fuel cfg i (g, toVisit)) r := by
  simp only [visitOneOutput]
  cases hPop : (ord.fork 0).nats.pop i toVisit with
  | none => exact ⟨_, Returns.of_eq fun _ => rfl⟩
  | some popped =>
    obtain ⟨candidate, rest⟩ := popped
    obtain ⟨found, hFound⟩ := shouldMergeWithNext_returns cfg ((ord.fork 1).fork i) h hIr candidate
    refine hFound.exists_bind ?_
    cases found with
    | none => exact ⟨_, Returns.of_eq fun _ => rfl⟩
    | some found =>
      obtain ⟨r, hr⟩ := merge_oneOutput_returns h hIr hFound ((ord.fork 2).fork i)
      exact (Returns.of_eq hr).exists_bind ⟨_, Returns.of_eq fun _ => rfl⟩

/-- So does the search for a pair, and what it finds was accepted. -/
theorem findOneOutput_returns (cfg : Config) (h : g.Sound ir) (hIr : ir.Clean) (ord : Orders)
    (k : Nat) (nodes : List Nat) :
    ∃ r, Returns (fun fuel => findOneOutput ord fuel cfg g k nodes) r ∧
      ∀ node next mls, r = some (node, next, mls) → ∃ ord', Returns (fun fuel =>
        shouldMergeWithNext ord' fuel cfg g node) (some (next, mls)) := by
  induction nodes generalizing k with
  | nil => exact ⟨none, Returns.of_eq fun _ => rfl, fun _ _ _ hNone => by cases hNone⟩
  | cons n nodes ih =>
    obtain ⟨found, hFound⟩ := shouldMergeWithNext_returns cfg (ord.fork k) h hIr n
    cases found with
    | none =>
      obtain ⟨r, hr, hWhy⟩ := ih (k + 1)
      exact ⟨r, hFound.bind hr, hWhy⟩
    | some found =>
      obtain ⟨next, mls⟩ := found
      refine ⟨some (n, next, mls), hFound.bind (Returns.of_eq fun _ => rfl), ?_⟩
      intro node next' mls' hEq
      cases hEq
      exact ⟨ord.fork k, hFound⟩

/-- So does one round of the loop. -/
theorem searchOneOutput_returns (h : g.Sound ir) (hIr : ir.Clean) (ord : Orders) (i : Nat) :
    ∃ r, Returns (fun fuel => searchOneOutput ord fuel cfg i g) r := by
  obtain ⟨found, hFound, hWhy⟩ := findOneOutput_returns cfg h hIr ((ord.fork 1).fork i) 0
    ((ord.fork 0).nats.enum i g.nodes)
  refine hFound.exists_bind ?_
  cases found with
  | none => exact ⟨_, Returns.of_eq fun _ => rfl⟩
  | some found =>
    obtain ⟨node, next, mls⟩ := found
    obtain ⟨ord', hShould⟩ := hWhy node next mls rfl
    obtain ⟨r, hr⟩ := merge_oneOutput_returns h hIr hShould ((ord.fork 2).fork i)
    exact (Returns.of_eq hr).exists_bind ⟨_, Returns.of_eq fun _ => rfl⟩

/-- Two different nodes of the graph. -/
def DFG.Pair (g : DFG) (p : Nat × Nat) : Prop := p.1 ∈ g.nodes ∧ p.2 ∈ g.nodes ∧ p.1 ≠ p.2

/-- The best merge can be made, if it is worth it. -/
def Best.Mergeable (cfg : Config) (g : DFG) (best : Best) : Prop :=
  best.score = -1 ∨ ∃ n1 n2, best.nodes = some (n1, n2) ∧ g.Pair (n1, n2) ∧
    ∃ ord score mls, best.mls = some mls ∧
      Returns (fun fuel => mergeScore ord fuel cfg g n1 n2) (score, some mls)

theorem Best.mergeable_start (cfg : Config) (g : DFG) : Best.start.Mergeable cfg g := Or.inl rfl

/-- All candidates are scored, and the best one can be merged. -/
theorem bestMerge_returns (h : g.Sound ir) (hIr : ir.Clean) (ord : Orders) (k : Nat)
    {cands : List (Nat × Nat)} (hCands : ∀ p ∈ cands, g.Pair p) (best : Best)
    (hBest : best.Mergeable cfg g) (hLow : -1 ≤ best.score) :
    ∃ best', Returns (fun fuel => bestMerge ord fuel cfg g k cands best) best' ∧
      best'.Mergeable cfg g := by
  induction cands generalizing k best with
  | nil => exact ⟨best, Returns.of_eq fun _ => rfl, hBest⟩
  | cons p cands ih =>
    obtain ⟨n1, n2⟩ := p
    have hPair := hCands (n1, n2) List.mem_cons_self
    obtain ⟨⟨score, mls⟩, hScore⟩ :=
      mergeScore_returns cfg (ord.fork k) h hIr hPair.1 hPair.2.1 hPair.2.2
    have hNext : ∀ best₁ : Best, best₁.Mergeable cfg g → -1 ≤ best₁.score →
        (if score > best.score then ⟨score, some (n1, n2), mls⟩ else best) = best₁ →
        ∃ best', Returns (fun fuel => bestMerge ord fuel cfg g k ((n1, n2) :: cands) best) best' ∧
          best'.Mergeable cfg g := by
      intro best₁ hBest₁ hLow₁ hEq
      obtain ⟨best', hRest, hBest'⟩ :=
        ih (k + 1) (fun p hp => hCands p (List.mem_cons_of_mem _ hp)) best₁ hBest₁ hLow₁
      refine ⟨best', hScore.bind ?_, hBest'⟩
      simp only [hEq]
      exact hRest
    by_cases hBetter : score > best.score
    · refine hNext ⟨score, some (n1, n2), mls⟩ (Or.inr ⟨n1, n2, rfl, hPair, ?_⟩)
        (show -1 ≤ score by omega) (if_pos hBetter)
      obtain ⟨N, hN⟩ := id hScore
      rcases mergeScore_ok (hN N le_rfl) with ⟨hNo, -⟩ | ⟨mls', rfl, -⟩
      · omega
      · exact ⟨ord.fork k, score, mls', rfl, hScore⟩
    · exact hNext best hBest hLow (if_neg hBetter)

/-- The best candidate is merged. -/
theorem mergeBest_returns (h : g.Sound ir) (hIr : ir.Clean) {best : Best}
    (hBest : best.Mergeable cfg g) (hScore : best.score ≠ -1) (ord : Orders) :
    ∃ r, ∀ fuel, mergeBest ord fuel g best = .ok r := by
  obtain ⟨n1, n2, hNodes, hPair, ord', score, mls, hMls, hRet⟩ := hBest.resolve_left hScore
  obtain ⟨N, hN⟩ := hRet
  obtain ⟨-, hNone⟩ | ⟨mls', hEq, hOk⟩ := mergeScore_ok (hN N le_rfl)
  · cases hNone
  cases hEq
  obtain ⟨r, hr⟩ := h.mergeNodes_returns hIr hPair.1 hPair.2.1 hPair.2.2 hOk.instrs_eq ord
  refine ⟨r, fun fuel => ?_⟩
  rw [mergeBest, hNodes, hMls]
  exact hr fuel

/-- A node and a parent are two nodes. -/
theorem mem_parentPairs (h : g.Sound ir) (ord : Orders) (n : Nat) :
    ∀ p ∈ parentPairs ord g n, g.Pair p := by
  intro p hp
  obtain ⟨n2, hn2, rfl⟩ := List.mem_map.mp hp
  exact h.edge_nodes (ord.mem_list.mp hn2)

/-- The pairs of a list are of different elements. -/
theorem mem_pairs {l : List Nat} (hl : l.Nodup) {p : Nat × Nat} (hp : p ∈ pairs l) :
    p.1 ∈ l ∧ p.2 ∈ l ∧ p.1 ≠ p.2 := by
  induction l with
  | nil => cases hp
  | cons x l ih =>
    obtain ⟨hx, hl⟩ := List.nodup_cons.mp hl
    rcases List.mem_append.mp hp with hp | hp
    · obtain ⟨y, hy, rfl⟩ := List.mem_map.mp hp
      refine ⟨List.mem_cons_self, List.mem_cons_of_mem _ hy, fun hEq => hx ?_⟩
      have hEq : x = y := hEq
      rwa [hEq]
    · obtain ⟨h1, h2, hne⟩ := ih hl hp
      exact ⟨List.mem_cons_of_mem _ h1, List.mem_cons_of_mem _ h2, hne⟩

/-- Two children of a node are two nodes. -/
theorem mem_siblingPairs (h : g.Sound ir) (ord : Orders) (parent : Nat) :
    ∀ p ∈ siblingPairs ord g parent, g.Pair p := by
  intro p hp
  have hNodup : (ord.list (g.nextNodes parent)).Nodup :=
    (ord.nats.perm 0 _).nodup_iff.mpr (h.forward_nodup parent)
  obtain ⟨h1, h2, hne⟩ := mem_pairs hNodup hp
  exact ⟨(h.edge_nodes (ord.mem_list.mp h1)).2.1, (h.edge_nodes (ord.mem_list.mp h2)).2.1, hne⟩

/-- A visit of the second pass ends. -/
theorem visitParent_returns (h : g.Sound ir) (hIr : ir.Clean) (ord : Orders) (i : Nat)
    (toVisit : List Nat) :
    ∃ r, Returns (fun fuel => visitParent ord fuel cfg i (g, toVisit)) r := by
  simp only [visitParent]
  cases hPop : (ord.fork 0).nats.pop i toVisit with
  | none => exact ⟨_, Returns.of_eq fun _ => rfl⟩
  | some popped =>
    obtain ⟨n1, rest⟩ := popped
    obtain ⟨best, hBest, hMergeable⟩ := bestMerge_returns h hIr ((ord.fork 1).fork i) 0
      (mem_parentPairs h ((ord.fork 2).fork i) n1) Best.start (Best.mergeable_start cfg g) le_rfl
    refine hBest.exists_bind ?_
    by_cases hNo : best.score = -1
    · exact ⟨_, Returns.of_eq fun _ => by simp only [if_pos hNo]; rfl⟩
    · simp only [if_neg hNo]
      obtain ⟨r, hr⟩ := mergeBest_returns h hIr hMergeable hNo ((ord.fork 3).fork i)
      exact (Returns.of_eq hr).exists_bind ⟨_, Returns.of_eq fun _ => rfl⟩

section Search

variable {cands : Orders → DFG → Nat → List (Nat × Nat)} {worth : Int → Bool}

/-- So does the search for the best pair, and what it finds can be merged. -/
theorem findMerge_returns (worth : Int → Bool) (h : g.Sound ir) (hIr : ir.Clean)
    (hCands : ∀ ord n, ∀ p ∈ cands ord g n, g.Pair p) (ord : Orders) (k : Nat)
    (nodes toSkip : List Nat) :
    ∃ r, Returns (fun fuel => findMerge ord fuel cfg g cands worth k nodes toSkip) r ∧
      ∀ best, r.1 = some best → best.Mergeable cfg g ∧ worth best.score = true := by
  induction nodes generalizing k toSkip with
  | nil => exact ⟨(none, toSkip), Returns.of_eq fun _ => rfl, fun _ hNone => by cases hNone⟩
  | cons n nodes ih =>
    by_cases hSkip : cfg.fast = true ∧ n ∈ toSkip
    · obtain ⟨r, hr, hWhy⟩ := ih (k + 1) toSkip
      refine ⟨r, hr.congr fun fuel => ?_, hWhy⟩
      rw [findMerge, if_pos hSkip]
    · obtain ⟨best, hBest, hMergeable⟩ := bestMerge_returns h hIr ((ord.fork 0).fork k) 0
        (hCands ((ord.fork 1).fork k) n) Best.start (Best.mergeable_start cfg g) le_rfl
      by_cases hWorth : worth best.score = true
      · refine ⟨(some best, toSkip), ?_, fun best' hEq => ?_⟩
        · simp only [findMerge, if_neg hSkip]
          refine hBest.bind (Returns.of_eq fun _ => ?_)
          simp only [if_pos hWorth]
          rfl
        · cases hEq
          exact ⟨hMergeable, hWorth⟩
      · obtain ⟨r, hr, hWhy⟩ := ih (k + 1) (if cfg.fast = true then toSkip.insert n else toSkip)
        refine ⟨r, ?_, hWhy⟩
        simp only [findMerge, if_neg hSkip]
        refine hBest.bind ?_
        simp only [if_neg hWorth]
        exact hr

/-- So does one round of the loop. -/
theorem searchMerge_returns (h : g.Sound ir) (hIr : ir.Clean) (hWorth : worth (-1) = false)
    (hCands : ∀ ord n, ∀ p ∈ cands ord g n, g.Pair p) (ord : Orders) (i : Nat)
    (toSkip : List Nat) :
    ∃ r, Returns (fun fuel => searchMerge ord fuel cfg cands worth i (g, toSkip)) r := by
  obtain ⟨⟨found, toSkip'⟩, hFound, hWhy⟩ := findMerge_returns worth h hIr hCands
    ((ord.fork 1).fork i) 0 ((ord.fork 0).nats.enum i g.nodes) toSkip
  refine hFound.exists_bind ?_
  cases found with
  | none => exact ⟨_, Returns.of_eq fun _ => rfl⟩
  | some best =>
    obtain ⟨hMergeable, hGood⟩ := hWhy best rfl
    have hScore : best.score ≠ -1 := by
      intro hNo
      rw [hNo, hWorth] at hGood
      cases hGood
    obtain ⟨r, hr⟩ := mergeBest_returns h hIr hMergeable hScore ((ord.fork 2).fork i)
    exact (Returns.of_eq hr).exists_bind ⟨_, Returns.of_eq fun _ => rfl⟩

end Search

end Rounds

/-! ## The phases -/

section Phases

variable {ir : HLIRProgram} {g g' : DFG} {cfg : Config}

/-- A merge takes two nodes and adds one. -/
theorem OneMerge.nodes_lt (h : OneMerge cfg g g') : g'.nodes.length < g.nodes.length := by
  obtain ⟨check, n1, n2, hMerge⟩ := h
  have hReplaced : ∃ new, DFG.Replaced g g' n1 n2 new := by
    cases hMerge with
    | oneOutput _ hMerge =>
      obtain ⟨outputs, -, hReplace⟩ := DFG.mergeNodes_some_ok hMerge
      exact ⟨_, (DFG.replaceNodes_ok hReplace).2⟩
    | scored _ hMerge =>
      obtain ⟨outputs, -, hReplace⟩ := DFG.mergeNodes_some_ok hMerge
      exact ⟨_, (DFG.replaceNodes_ok hReplace).2⟩
  obtain ⟨new, hr⟩ := hReplaced
  have h1 := List.length_erase_of_mem hr.n1_mem
  have h2 := List.length_erase_of_mem hr.n2_mem
  have hPos := List.length_pos_of_mem hr.n2_mem
  have hInsert : (((g.nodes.erase n1).erase n2).insert g.fresh).length ≤
      ((g.nodes.erase n1).erase n2).length + 1 := by
    by_cases hMem : g.fresh ∈ (g.nodes.erase n1).erase n2
    · rw [List.insert_of_mem hMem]
      exact Nat.le_succ _
    · rw [List.insert_of_not_mem hMem, List.length_cons]
  rw [hr.nodes_eq]
  omega

/-- A merge keeps the graph sound. -/
theorem OneMerge.sound (h : OneMerge cfg g g') (hg : g.Sound ir) (hIr : ir.Clean) :
    g'.Sound ir := by
  obtain ⟨check, n1, n2, hMerge⟩ := h
  exact hg.mergedBy hIr hMerge

/-- A loop over a worklist returns: a round makes a merge, or shortens the
list. -/
theorem worklist_returns (hIr : ir.Clean)
    {body : Nat → Nat → DFG × List Nat → Except Fault ((DFG × List Nat) ⊕ DFG)}
    (hInl : ∀ fuel i st st', body fuel i st = .ok (.inl st') → WorklistStep cfg st st')
    (hBody : ∀ i (d : DFG) todo, d.Sound ir → ∃ r, Returns (fun fuel => body fuel i (d, todo)) r)
    (hg : g.Sound ir) (todo : List Nat) :
    ∃ g', Returns (fun fuel => loop .diverges (body fuel) fuel 0 (g, todo)) g' := by
  have hWf : WellFounded fun a b : DFG × List Nat => Prod.Lex (· < ·) (· < ·)
      (a.1.nodes.length, a.2.length) (b.1.nodes.length, b.2.length) :=
    InvImage.wf (fun st : DFG × List Nat => (st.1.nodes.length, st.2.length))
      (WellFounded.prod_lex Nat.lt_wfRel.wf Nat.lt_wfRel.wf)
  suffices h : ∃ g', Returns (fun fuel => loop .diverges (body fuel) fuel 0 (g, todo)) g' ∧ True by
    obtain ⟨g', hRet, -⟩ := h
    exact ⟨g', hRet⟩
  refine loop_returns (P := fun st : DFG × List Nat => st.1.Sound ir) (Q := fun _ => True) hWf
    (fun i st hst => ?_) 0 hg
  obtain ⟨d, todo⟩ := st
  obtain ⟨r, hr⟩ := hBody i d todo hst
  refine ⟨r, hr, ?_⟩
  cases r with
  | inr _ => trivial
  | inl st' =>
    obtain ⟨N, hN⟩ := hr
    rcases hInl N i (d, todo) st' (hN N le_rfl) with ⟨hSame, hShorter⟩ | hMerge
    · refine ⟨hSame ▸ hst, ?_⟩
      rw [hSame]
      exact Prod.Lex.right _ hShorter
    · exact ⟨hMerge.sound hst hIr, Prod.Lex.left _ _ hMerge.nodes_lt⟩

/-- The first pass ends: every merge takes a node away. -/
theorem mergeOneOutputNodes_returns (cfg : Config) (hg : g.Sound ir) (hIr : ir.Clean)
    (ord : Orders) :
    ∃ g', Returns (fun fuel => mergeOneOutputNodes ord fuel cfg g) g' := by
  unfold mergeOneOutputNodes
  split
  · exact worklist_returns hIr (fun _ _ _ _ => visitOneOutput_inl)
      (fun i d todo hd => visitOneOutput_returns hd hIr ord i todo) hg g.nodes
  · have hWf : WellFounded fun a b : DFG => a.nodes.length < b.nodes.length :=
      InvImage.wf (fun d : DFG => d.nodes.length) Nat.lt_wfRel.wf
    suffices h : ∃ g', Returns (fun fuel =>
        loop .diverges (searchOneOutput ord fuel cfg) fuel 0 g) g' ∧ True by
      obtain ⟨g', hRet, -⟩ := h
      exact ⟨g', hRet⟩
    refine loop_returns (P := fun d : DFG => d.Sound ir) (Q := fun _ => True) hWf
      (fun i d hd => ?_) 0 hg
    obtain ⟨r, hr⟩ := searchOneOutput_returns hd hIr ord i
    refine ⟨r, hr, ?_⟩
    cases r with
    | inr _ => trivial
    | inl d' =>
      obtain ⟨N, hN⟩ := hr
      have hMerge := searchOneOutput_inl (hN N le_rfl)
      exact ⟨hMerge.sound hd hIr, hMerge.nodes_lt⟩

/-- The loops that search for merges return, whatever pairs of nodes they look
at. -/
theorem searchLoop_returns {cands : Orders → DFG → Nat → List (Nat × Nat)} {worth : Int → Bool}
    (hWorth : worth (-1) = false)
    (hCands : ∀ d : DFG, d.Sound ir → ∀ ord n, ∀ p ∈ cands ord d n, d.Pair p) (hg : g.Sound ir)
    (hIr : ir.Clean) (ord : Orders) :
    ∃ g', Returns (fun fuel =>
      loop .diverges (searchMerge ord fuel cfg cands worth) fuel 0 (g, [])) g' :=
  worklist_returns hIr (fun _ _ _ _ hBody => Or.inr (searchMerge_inl hWorth hBody))
    (fun i d todo hd => searchMerge_returns hd hIr hWorth (hCands d hd) ord i todo) hg []

/-- So does the second. -/
theorem mergeParentsChilds_returns (cfg : Config) (hg : g.Sound ir) (hIr : ir.Clean)
    (ord : Orders) :
    ∃ g', Returns (fun fuel => mergeParentsChilds ord fuel cfg g) g' := by
  unfold mergeParentsChilds
  split
  · exact worklist_returns hIr (fun _ _ _ _ => visitParent_inl)
      (fun i d todo hd => visitParent_returns hd hIr ord i todo) hg g.nodes
  · exact searchLoop_returns rfl (fun d hd => mem_parentPairs hd) hg hIr ord

/-- So does the third. -/
theorem mergeSiblings_returns (cfg : Config) (hg : g.Sound ir) (hIr : ir.Clean) (ord : Orders) :
    ∃ g', Returns (fun fuel => mergeSiblings ord fuel cfg g) g' :=
  searchLoop_returns rfl (fun _ hd => mem_siblingPairs hd) hg hIr ord

/-- `clusterize` returns, and what it returns is sound. -/
theorem clusterize_returns (hIr : ir.Clean) (cfg : Config) (ord : Orders) :
    ∃ g, Returns (fun fuel => clusterize ord fuel cfg ir) g ∧ g.Sound ir := by
  obtain ⟨g₀, hBuild⟩ := DFG.buildGraph_returns hIr
  have hStart : Reached cfg ir g₀ := ⟨[], .start hBuild⟩
  have hSound : ∀ {d : DFG}, Reached cfg ir d → d.Sound ir := fun ⟨log, hRun⟩ => hRun.sound hIr
  obtain ⟨g₁, hOne⟩ := mergeOneOutputNodes_returns cfg (hSound hStart) hIr (ord.fork 0)
  have hReached₁ : Reached cfg ir g₁ := by
    obtain ⟨N, hN⟩ := hOne
    exact mergeOneOutputNodes_reached hStart (hN N le_rfl)
  obtain ⟨g₂, hParents⟩ := mergeParentsChilds_returns cfg (hSound hReached₁) hIr (ord.fork 1)
  have hReached₂ : Reached cfg ir g₂ := by
    obtain ⟨N, hN⟩ := hParents
    exact mergeParentsChilds_reached hReached₁ (hN N le_rfl)
  obtain ⟨g₃, hSiblings⟩ := mergeSiblings_returns cfg (hSound hReached₂) hIr (ord.fork 2)
  refine ⟨g₃, (Returns.of_eq fun _ => hBuild).bind (hOne.bind (hParents.bind hSiblings)), ?_⟩
  obtain ⟨N, hN⟩ := hSiblings
  exact hSound (searchMerge_reached rfl hReached₂ (hN N le_rfl))

end Phases

end Obscure
