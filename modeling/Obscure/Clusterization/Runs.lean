import Obscure.Clusterization.BasicClusterizer

/-!
# OBSCURE — runs of the clusterizer

The loops of the three phases differ in what they look at and in which order,
but all a round of any of them does to the graph is nothing, or one merge of two
nodes that passed a check. A run is the sequence of these merges; what holds
along every run holds of every result, whatever the options and the iteration
orders.

* `MergedBy`       — one merge;
* `Clustering`     — the runs, with the graph each merge was made in;
* `clusterize_run` — every result of `clusterize` is reached by a run.
-/

namespace Obscure

open Lib

/-- Which check a merge went through. -/
inductive MergeCheck where
  | shouldMergeWithNext
  | mergeScore
deriving DecidableEq

/-- `g'` is `g` after a merge of `n1` and `n2` that passed its check. -/
inductive MergedBy (cfg : Config) : MergeCheck → DFG → Nat → Nat → DFG → Prop
  | oneOutput {g g' : DFG} {ord ord' : Orders} {fuel node next new : Nat} {mls : List HLI}
      (hShould : shouldMergeWithNext ord fuel cfg g node = .ok (some (next, mls)))
      (hMerge : g.mergeNodes ord' fuel node next (some mls) = .ok (new, g')) :
      MergedBy cfg .shouldMergeWithNext g node next g'
  | scored {g g' : DFG} {ord ord' : Orders} {fuel n1 n2 new : Nat} {score : Int} {mls : List HLI}
      (hScore : mergeScore ord fuel cfg g n1 n2 = .ok (score, some mls))
      (hMerge : g.mergeNodes ord' fuel n1 n2 (some mls) = .ok (new, g')) :
      MergedBy cfg .mergeScore g n1 n2 g'

/-- A merge of a run, with the graph it was made in. -/
structure MergeStep where
  check : MergeCheck
  graph : DFG
  n1 : Nat
  n2 : Nat

/-- The merges made so far, the latest one first, and the graph they lead to. -/
inductive Clustering (cfg : Config) (hlir : HLIRProgram) : List MergeStep → DFG → Prop
  | start {g : DFG} (h : DFG.buildGraph (initialConvertionToMLIR hlir) = .ok g) :
      Clustering cfg hlir [] g
  | merge {log : List MergeStep} {g g' : DFG} {check : MergeCheck} {n1 n2 : Nat}
      (hRun : Clustering cfg hlir log g) (hMerge : MergedBy cfg check g n1 n2 g') :
      Clustering cfg hlir (⟨check, g, n1, n2⟩ :: log) g'

/-- One merge, whichever. -/
def OneMerge (cfg : Config) (g g' : DFG) : Prop := ∃ check n1 n2, MergedBy cfg check g n1 n2 g'

/-- A graph some run leads to. -/
def Reached (cfg : Config) (hlir : HLIRProgram) (g : DFG) : Prop :=
  ∃ log, Clustering cfg hlir log g

/-- A graph that one more merge gives is reached as well. -/
theorem Reached.step {cfg : Config} {hlir : HLIRProgram} {g g' : DFG} (h : Reached cfg hlir g)
    (hStep : OneMerge cfg g g') : Reached cfg hlir g' := by
  obtain ⟨log, hRun⟩ := h
  obtain ⟨check, n1, n2, hMerge⟩ := hStep
  exact ⟨_, hRun.merge hMerge⟩

/-! ## What a round does -/

section Rounds

variable {ord : Orders} {fuel : Nat} {cfg : Config} {g : DFG}

/-- A pair that the search returns is one that `should_merge_with_next` accepted. -/
theorem findOneOutput_ok {k : Nat} {nodes : List Nat} {node next : Nat} {mls : List HLI}
    (h : findOneOutput ord fuel cfg g k nodes = .ok (some (node, next, mls))) :
    ∃ ord', shouldMergeWithNext ord' fuel cfg g node = .ok (some (next, mls)) := by
  induction nodes generalizing k with
  | nil => cases h
  | cons n nodes ih =>
    obtain ⟨found, hShould, h⟩ := bind_eq_ok.mp h
    cases found with
    | none => exact ih h
    | some found =>
      cases h
      exact ⟨ord.fork k, hShould⟩

/-- The best merge so far got its score from `merge_score`. -/
def Best.Justified (fuel : Nat) (cfg : Config) (g : DFG) (best : Best) : Prop :=
  -1 ≤ best.score ∧ (best.score = -1 ∨ ∃ ord n1 n2 mls, best.nodes = some (n1, n2) ∧
    best.mls = some mls ∧ mergeScore ord fuel cfg g n1 n2 = .ok (best.score, some mls))

/-- Before the first candidate nothing has to be justified. -/
theorem Best.justified_start : Best.start.Justified fuel cfg g := ⟨le_rfl, Or.inl rfl⟩

/-- The best candidate is one whose score was computed, whatever the order of the candidates. -/
theorem bestMerge_ok {k : Nat} {cands : List (Nat × Nat)} {best best' : Best}
    (hBest : best.Justified fuel cfg g) (h : bestMerge ord fuel cfg g k cands best = .ok best') :
    best'.Justified fuel cfg g := by
  induction cands generalizing k best with
  | nil =>
    cases h
    exact hBest
  | cons cand cands ih =>
    obtain ⟨n1, n2⟩ := cand
    obtain ⟨⟨score, mls⟩, hScore, h⟩ := bind_eq_ok.mp h
    simp only at h
    refine ih ?_ h
    split
    · next hBetter =>
      have hLow := hBest.1
      refine ⟨show -1 ≤ score by omega, Or.inr ?_⟩
      rcases mergeScore_ok hScore with ⟨hNo, -⟩ | ⟨mls', rfl, -⟩
      · omega
      · exact ⟨ord.fork k, n1, n2, mls', rfl, rfl, hScore⟩
    · exact hBest

/-- The pair that is found was scored, and its score is worth the merge. -/
theorem findMerge_ok {cands : Orders → DFG → Nat → List (Nat × Nat)} {worth : Int → Bool}
    {k : Nat} {nodes toSkip toSkip' : List Nat} {best : Best}
    (h : findMerge ord fuel cfg g cands worth k nodes toSkip = .ok (some best, toSkip')) :
    best.Justified fuel cfg g ∧ worth best.score = true := by
  induction nodes generalizing k toSkip with
  | nil => cases h
  | cons n nodes ih =>
    rw [findMerge] at h
    split at h
    · exact ih h
    obtain ⟨found, hFound, h⟩ := bind_eq_ok.mp h
    split at h
    · next hWorth =>
      cases h
      exact ⟨bestMerge_ok Best.justified_start hFound, hWorth⟩
    · exact ih h

/-- Merging a justified candidate is one merge of the run. -/
theorem mergeBest_ok {best : Best} {new : Nat} {g' : DFG} (hBest : best.Justified fuel cfg g)
    (hScore : best.score ≠ -1) (h : mergeBest ord fuel g best = .ok (new, g')) :
    OneMerge cfg g g' := by
  obtain ⟨ord', n1, n2, mls, hNodes, hMls, hOk⟩ := hBest.2.resolve_left hScore
  rw [mergeBest, hNodes, hMls] at h
  exact ⟨_, n1, n2, .scored hOk h⟩

/-- What a round over a worklist leaves: the graph with one node less to visit,
or one merge. -/
def WorklistStep (cfg : Config) (st st' : DFG × List Nat) : Prop :=
  (st'.1 = st.1 ∧ st'.2.length < st.2.length) ∨ OneMerge cfg st.1 st'.1

/-- A visit that goes on has merged the node or has dropped it from the worklist. -/
theorem visitOneOutput_inl {i : Nat} {st st' : DFG × List Nat}
    (h : visitOneOutput ord fuel cfg i st = .ok (.inl st')) : WorklistStep cfg st st' := by
  obtain ⟨g, toVisit⟩ := st
  rw [visitOneOutput] at h
  split at h
  · cases h
  next candidate toVisit' hPop =>
  obtain ⟨found, hShould, h⟩ := bind_eq_ok.mp h
  cases found with
  | none =>
    cases h
    refine Or.inl ⟨rfl, ?_⟩
    rw [← (SetOrder.pop_perm hPop).length_eq]
    exact Nat.lt_succ_self _
  | some found =>
    obtain ⟨⟨new, g'⟩, hMerge, h⟩ := bind_eq_ok.mp h
    cases h
    exact Or.inr ⟨_, _, _, .oneOutput hShould hMerge⟩

theorem visitOneOutput_inr {i : Nat} {st : DFG × List Nat} {g' : DFG}
    (h : visitOneOutput ord fuel cfg i st = .ok (.inr g')) : g' = st.1 := by
  obtain ⟨g, toVisit⟩ := st
  rw [visitOneOutput] at h
  split at h
  · cases h
    rfl
  obtain ⟨found, -, h⟩ := bind_eq_ok.mp h
  cases found with
  | none => cases h
  | some found =>
    obtain ⟨_, -, h⟩ := bind_eq_ok.mp h
    cases h

/-- A search that goes on has merged one pair. -/
theorem searchOneOutput_inl {i : Nat} {g' : DFG}
    (h : searchOneOutput ord fuel cfg i g = .ok (.inl g')) : OneMerge cfg g g' := by
  obtain ⟨found, hFound, h⟩ := bind_eq_ok.mp h
  cases found with
  | none => cases h
  | some found =>
    obtain ⟨node, next, mls⟩ := found
    obtain ⟨⟨new, g₁⟩, hMerge, h⟩ := bind_eq_ok.mp h
    cases h
    obtain ⟨ord', hShould⟩ := findOneOutput_ok hFound
    exact ⟨_, _, _, .oneOutput hShould hMerge⟩

theorem searchOneOutput_inr {i : Nat} {g' : DFG}
    (h : searchOneOutput ord fuel cfg i g = .ok (.inr g')) : g' = g := by
  obtain ⟨found, -, h⟩ := bind_eq_ok.mp h
  cases found with
  | none =>
    cases h
    rfl
  | some found =>
    obtain ⟨_, -, h⟩ := bind_eq_ok.mp h
    cases h

/-- A visit that goes on has merged the node with a child or has dropped it. -/
theorem visitParent_inl {i : Nat} {st st' : DFG × List Nat}
    (h : visitParent ord fuel cfg i st = .ok (.inl st')) : WorklistStep cfg st st' := by
  obtain ⟨g, toVisit⟩ := st
  rw [visitParent] at h
  split at h
  · cases h
  next n1 toVisit' hPop =>
  obtain ⟨best, hBest, h⟩ := bind_eq_ok.mp h
  by_cases hNo : best.score = -1
  · rw [if_pos hNo] at h
    cases h
    refine Or.inl ⟨rfl, ?_⟩
    rw [← (SetOrder.pop_perm hPop).length_eq]
    exact Nat.lt_succ_self _
  · rw [if_neg hNo] at h
    obtain ⟨⟨new, g'⟩, hMerge, h⟩ := bind_eq_ok.mp h
    cases h
    exact Or.inr (mergeBest_ok (bestMerge_ok Best.justified_start hBest) hNo hMerge)

theorem visitParent_inr {i : Nat} {st : DFG × List Nat} {g' : DFG}
    (h : visitParent ord fuel cfg i st = .ok (.inr g')) : g' = st.1 := by
  obtain ⟨g, toVisit⟩ := st
  rw [visitParent] at h
  split at h
  · cases h
    rfl
  obtain ⟨best, -, h⟩ := bind_eq_ok.mp h
  by_cases hNo : best.score = -1
  · rw [if_pos hNo] at h
    cases h
  · rw [if_neg hNo] at h
    obtain ⟨_, -, h⟩ := bind_eq_ok.mp h
    cases h

/-- A search that goes on has merged the best pair. A pair that cannot be merged has the score -1,
which is not worth it. -/
theorem searchMerge_inl {cands : Orders → DFG → Nat → List (Nat × Nat)} {worth : Int → Bool}
    (hWorth : worth (-1) = false) {i : Nat} {st st' : DFG × List Nat}
    (h : searchMerge ord fuel cfg cands worth i st = .ok (.inl st')) :
    OneMerge cfg st.1 st'.1 := by
  obtain ⟨g, toSkip⟩ := st
  obtain ⟨⟨found, toSkip'⟩, hFound, h⟩ := bind_eq_ok.mp h
  cases found with
  | none => cases h
  | some best =>
    obtain ⟨⟨new, g'⟩, hMerge, h⟩ := bind_eq_ok.mp h
    cases h
    obtain ⟨hBest, hGood⟩ := findMerge_ok hFound
    refine mergeBest_ok hBest (fun hNo => ?_) hMerge
    rw [hNo, hWorth] at hGood
    cases hGood

/-- A search that ends leaves the graph as it is. -/
theorem searchMerge_inr {cands : Orders → DFG → Nat → List (Nat × Nat)} {worth : Int → Bool}
    {i : Nat} {st : DFG × List Nat} {g' : DFG}
    (h : searchMerge ord fuel cfg cands worth i st = .ok (.inr g')) : g' = st.1 := by
  obtain ⟨g, toSkip⟩ := st
  obtain ⟨⟨found, toSkip'⟩, -, h⟩ := bind_eq_ok.mp h
  cases found with
  | none =>
    cases h
    rfl
  | some best =>
    obtain ⟨_, -, h⟩ := bind_eq_ok.mp h
    cases h

end Rounds

/-! ## Every result is reached by a run -/

section Results

variable {ord : Orders} {fuel : Nat} {cfg : Config} {hlir : HLIRProgram} {g g' : DFG}

/-- A loop over a worklist whose rounds do nothing or merge. -/
theorem worklist_reached {body : Nat → DFG × List Nat → Except Fault ((DFG × List Nat) ⊕ DFG)}
    (hInl : ∀ i st st', body i st = .ok (.inl st') → WorklistStep cfg st st')
    (hInr : ∀ i st d, body i st = .ok (.inr d) → d = st.1) {todo : List Nat}
    (hReached : Reached cfg hlir g) (h : loop .diverges body fuel 0 (g, todo) = .ok g') :
    Reached cfg hlir g' := by
  refine loop_ok (P := fun st : DFG × List Nat => Reached cfg hlir st.1) ?_ ?_ hReached h
  · intro i st st' hst hBody
    rcases hInl i st st' hBody with ⟨hSame, -⟩ | hMerge
    · exact hSame ▸ hst
    · exact hst.step hMerge
  · intro i st d hst hBody
    exact hInr i st d hBody ▸ hst

/-- The first pass is a part of the run. -/
theorem mergeOneOutputNodes_reached (hReached : Reached cfg hlir g)
    (h : mergeOneOutputNodes ord fuel cfg g = .ok g') : Reached cfg hlir g' := by
  rw [mergeOneOutputNodes] at h
  split at h
  · exact worklist_reached (fun _ _ _ => visitOneOutput_inl) (fun _ _ _ => visitOneOutput_inr)
      hReached h
  · refine loop_ok (P := Reached cfg hlir) ?_ ?_ hReached h
    · exact fun i d d' hd hBody => hd.step (searchOneOutput_inl hBody)
    · exact fun i d d' hd hBody => searchOneOutput_inr hBody ▸ hd

/-- The loops that search for merges, whatever the candidates. -/
theorem searchMerge_reached {cands : Orders → DFG → Nat → List (Nat × Nat)} {worth : Int → Bool}
    (hWorth : worth (-1) = false) (hReached : Reached cfg hlir g)
    (h : loop .diverges (searchMerge ord fuel cfg cands worth) fuel 0 (g, []) = .ok g') :
    Reached cfg hlir g' :=
  worklist_reached (fun _ _ _ hBody => Or.inr (searchMerge_inl hWorth hBody))
    (fun _ _ _ => searchMerge_inr) hReached h

/-- The second pass is a part of the run. -/
theorem mergeParentsChilds_reached (hReached : Reached cfg hlir g)
    (h : mergeParentsChilds ord fuel cfg g = .ok g') : Reached cfg hlir g' := by
  rw [mergeParentsChilds] at h
  split at h
  · exact worklist_reached (fun _ _ _ => visitParent_inl) (fun _ _ _ => visitParent_inr)
      hReached h
  · exact searchMerge_reached rfl hReached h

/-- Every graph `clusterize` returns is the end of a run. -/
theorem clusterize_run (h : clusterize ord fuel cfg hlir = .ok g) : Reached cfg hlir g := by
  obtain ⟨g₀, hBuild, h⟩ := bind_eq_ok.mp h
  obtain ⟨g₁, hOne, h⟩ := bind_eq_ok.mp h
  obtain ⟨g₂, hParents, h⟩ := bind_eq_ok.mp h
  have h₁ := mergeOneOutputNodes_reached ⟨[], .start hBuild⟩ hOne
  exact searchMerge_reached rfl (mergeParentsChilds_reached h₁ hParents) h

end Results

end Obscure
