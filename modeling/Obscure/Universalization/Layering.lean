import Obscure.Universalization.Invariant
import Obscure.Universalization.Rectangularize
import Mathlib.Data.List.GetD

/-!
# OBSCURE — the layers of an acyclic graph

`layerize` ends on an acyclic graph, and gives every node a layer below those of
all nodes it reads from.

* `Ranked`           — layers that respect the edges;
* `layerize_returns` — the loop ends with such layers.
-/

namespace Obscure

open Lib

namespace DFG

variable {g : DFG}

/-- A predecessor of a node gives it one of its inputs. -/
theorem Good.mem_prevNodes (hg : g.Good) {a n : Nat} (hn : n ∈ g.nodes) :
    a ∈ g.prevNodes n ↔ a ∈ g.nodes ∧ g.Feeds a n := by
  unfold prevNodes Feeds
  rw [List.mem_dedup, List.mem_filterMap]
  constructor
  · rintro ⟨m, hm, hBack⟩
    obtain ⟨ha, hDef⟩ := (hg.backward_iff m a).mp hBack
    refine ⟨ha, m, ?_, hm⟩
    by_contra hNot
    exact hg.not_given_internal ha hDef hNot (hg.inputs_from n hn m hm)
  · rintro ⟨ha, m, hOut, hIn⟩
    exact ⟨m, hIn, (hg.backward_iff m a).mpr ⟨ha, hg.outputs_sub a ha m hOut⟩⟩

-- ---------------------------------------------------------------------------
-- One node
-- ---------------------------------------------------------------------------

/-- The maximum that `layerOf` computes. -/
theorem foldlM_layer {nodeLayers : List (Nat × Nat)} {prevs : List Nat} {start layer : Nat}
    (h : prevs.foldlM (fun layer prev => (nodeLayers.lookup prev).map fun k => max layer (k + 1))
      start = some layer) :
    start ≤ layer ∧ (∀ a ∈ prevs, ∃ j, nodeLayers.lookup a = some j ∧ j < layer) ∧
      (layer = start ∨ ∃ a ∈ prevs, ∃ j, nodeLayers.lookup a = some j ∧ layer = j + 1) := by
  induction prevs generalizing start with
  | nil =>
    cases h
    exact ⟨le_rfl, fun a ha => absurd ha List.not_mem_nil, Or.inl rfl⟩
  | cons p prevs ih =>
    rw [List.foldlM_cons, Option.bind_eq_bind, Option.bind_eq_some_iff] at h
    obtain ⟨mid, hMid, hRest⟩ := h
    obtain ⟨k, hk, rfl⟩ := Option.map_eq_some_iff.mp hMid
    obtain ⟨hLe, hAll, hFrom⟩ := ih hRest
    have hk' : k + 1 ≤ layer := le_trans (le_max_right _ _) hLe
    refine ⟨le_trans (le_max_left _ _) hLe, fun a ha => ?_, ?_⟩
    · rcases List.mem_cons.mp ha with rfl | ha
      · exact ⟨k, hk, hk'⟩
      · exact hAll a ha
    · rcases hFrom with hMax | ⟨a, ha, hLayer⟩
      · rcases max_choice start (k + 1) with hEq | hEq
        · exact Or.inl (hMax.trans hEq)
        · exact Or.inr ⟨p, by simp, k, hk, hMax.trans hEq⟩
      · exact Or.inr ⟨a, by simp [ha], hLayer⟩

theorem foldlM_layer_isSome {nodeLayers : List (Nat × Nat)} {prevs : List Nat} (start : Nat)
    (h : ∀ a ∈ prevs, (nodeLayers.lookup a).isSome) :
    (prevs.foldlM (fun layer prev => (nodeLayers.lookup prev).map fun k => max layer (k + 1))
      start).isSome := by
  induction prevs generalizing start with
  | nil => rfl
  | cons p prevs ih =>
    obtain ⟨k, hk⟩ := Option.isSome_iff_exists.mp (h p (by simp))
    rw [List.foldlM_cons, hk]
    exact ih _ fun a ha => h a (by simp [ha])

-- ---------------------------------------------------------------------------
-- Rounds
-- ---------------------------------------------------------------------------

/-- The nodes placed so far come one layer after the latest of those they read from, and
in the first layer if they read from none. -/
structure Placed (g : DFG) (nodeLayers : List (Nat × Nat)) (lastLayer : Nat) : Prop where
  keys_nodup : (nodeLayers.map Prod.fst).Nodup
  keys_sub : ∀ n ∈ nodeLayers.map Prod.fst, n ∈ g.nodes
  le_last : ∀ n k, nodeLayers.lookup n = some k → k ≤ lastLayer
  last_eq : lastLayer = 0 ∨ ∃ n, nodeLayers.lookup n = some lastLayer
  after : ∀ n k, nodeLayers.lookup n = some k → ∀ a ∈ g.prevNodes n,
    ∃ j < k, nodeLayers.lookup a = some j
  latest : ∀ n k, nodeLayers.lookup n = some (k + 1) →
    ∃ a ∈ g.prevNodes n, nodeLayers.lookup a = some k

theorem lookup_isSome_iff {l : List (Nat × Nat)} {n : Nat} :
    (l.lookup n).isSome ↔ n ∈ l.map Prod.fst := by
  rw [List.lookup_isSome_iff, List.mem_map]
  simp only [Prod.exists, beq_iff_eq]
  constructor
  · rintro ⟨a, b, hMem, rfl⟩
    exact ⟨n, b, hMem, rfl⟩
  · rintro ⟨a, b, hMem, rfl⟩
    exact ⟨a, b, hMem, rfl⟩

/-- Bindings are added at the end: a node that is placed keeps its layer. -/
theorem lookup_append_singleton {l : List (Nat × Nat)} {n k a : Nat} (hn : n ∉ l.map Prod.fst) :
    (l ++ [(n, k)]).lookup a = if a = n then some k else l.lookup a := by
  rw [List.lookup_append]
  by_cases ha : a = n
  · subst ha
    have hNone : l.lookup a = none := by
      rw [← Option.not_isSome_iff_eq_none, lookup_isSome_iff]
      exact hn
    rw [if_pos rfl, hNone]
    simp
  · rw [if_neg ha]
    simp [Lib.lookup_cons_ite, ha]

/-- Placing one node. -/
theorem Placed.pass {nodeLayers : List (Nat × Nat)} {lastLayer n : Nat}
    (h : g.Placed nodeLayers lastLayer) (hn : n ∈ g.nodes) (hNew : n ∉ nodeLayers.map Prod.fst) :
    g.Placed (g.layerPass (nodeLayers, lastLayer) n).1
      (g.layerPass (nodeLayers, lastLayer) n).2 := by
  unfold layerPass
  cases hLayer : g.layerOf nodeLayers n with
  | none => exact h
  | some layer =>
    obtain ⟨-, hPrev, hLatest⟩ := foldlM_layer hLayer
    have hLook := fun a => lookup_append_singleton (a := a) (k := layer) hNew
    have hKeep : ∀ b j, nodeLayers.lookup b = some j →
        (nodeLayers ++ [(n, layer)]).lookup b = some j := by
      intro b j hj
      rw [hLook, if_neg, hj]
      rintro rfl
      exact hNew (lookup_isSome_iff.mp (by rw [hj]; rfl))
    refine ⟨?keys_nodup, fun a ha => ?keys_sub, fun a k ha => ?le_last, ?last_eq,
      fun a k ha b hb => ?after, fun a k ha => ?latest⟩
    case keys_nodup =>
      rw [List.map_append]
      exact h.keys_nodup.append (List.nodup_singleton _) (by simpa using hNew)
    case keys_sub =>
      rw [List.map_append, List.mem_append] at ha
      rcases ha with ha | ha
      · exact h.keys_sub a ha
      · rw [List.map_singleton, List.mem_singleton] at ha
        exact ha ▸ hn
    case le_last =>
      rw [hLook] at ha
      split at ha
      · cases ha
        exact le_max_right _ _
      · exact le_trans (h.le_last a k ha) (le_max_left _ _)
    -- the last layer is reached by the new node or by the one that reached it before
    case last_eq =>
      show max lastLayer layer = 0 ∨ ∃ a, (nodeLayers ++ [(n, layer)]).lookup a =
        some (max lastLayer layer)
      rcases max_choice lastLayer layer with hEq | hEq
      · rw [hEq]
        exact h.last_eq.imp_right fun ⟨a, ha⟩ => ⟨a, hKeep a _ ha⟩
      · rw [hEq]
        exact Or.inr ⟨n, by rw [hLook, if_pos rfl]⟩
    case after =>
      rw [hLook] at ha
      -- predecessors are placed before, so their layers are those of the old list
      have hOld : ∃ j < k, nodeLayers.lookup b = some j := by
        split at ha
        · next hEq =>
          cases ha
          obtain ⟨j, hj, hLt⟩ := hPrev b (hEq ▸ hb)
          exact ⟨j, hLt, hj⟩
        · exact h.after a k ha b hb
      obtain ⟨j, hLt, hj⟩ := hOld
      exact ⟨j, hLt, hKeep b j hj⟩
    -- a node of a layer above the first has a producer in the layer just before
    case latest =>
      rw [hLook] at ha
      split at ha
      · next hEq =>
        cases ha
        obtain ⟨b, hb, j, hj, hSucc⟩ := hLatest.resolve_left (Nat.succ_ne_zero k)
        obtain rfl : k = j := Nat.succ.inj hSucc
        exact ⟨b, hEq ▸ hb, hKeep b k hj⟩
      · obtain ⟨b, hb, hj⟩ := h.latest a k ha
        exact ⟨b, hb, hKeep b k hj⟩

/-- A node is placed when all its predecessors are, and what is placed stays. -/
theorem layerPass_keys {st : List (Nat × Nat) × Nat} {n : Nat} :
    (∀ a ∈ st.1.map Prod.fst, a ∈ (g.layerPass st n).1.map Prod.fst) ∧
      (∀ a ∈ (g.layerPass st n).1.map Prod.fst, a ∈ st.1.map Prod.fst ∨ a = n) ∧
      ((∀ a ∈ g.prevNodes n, a ∈ st.1.map Prod.fst) → n ∈ (g.layerPass st n).1.map Prod.fst) := by
  unfold layerPass
  cases hLayer : g.layerOf st.1 n with
  | none =>
    refine ⟨fun a ha => ha, fun a ha => Or.inl ha, fun hAll => ?_⟩
    have hSome := foldlM_layer_isSome 0 fun a ha => lookup_isSome_iff.mpr (hAll a ha)
    rw [DFG.layerOf] at hLayer
    rw [hLayer] at hSome
    cases hSome
  | some layer =>
    refine ⟨fun a ha => ?_, fun a ha => ?_, fun _ => ?_⟩
    · simp only [List.map_append, List.mem_append]
      exact Or.inl ha
    · simpa using ha
    · simp

/-- One `for` loop. -/
theorem Placed.fold {toVisit : List Nat} {st : List (Nat × Nat) × Nat} (h : g.Placed st.1 st.2)
    (hNodup : toVisit.Nodup) (hVisit : ∀ n ∈ toVisit, n ∈ g.nodes ∧ n ∉ st.1.map Prod.fst) :
    g.Placed (toVisit.foldl g.layerPass st).1 (toVisit.foldl g.layerPass st).2 ∧
      (∀ a ∈ st.1.map Prod.fst, a ∈ (toVisit.foldl g.layerPass st).1.map Prod.fst) ∧
      ∀ n ∈ toVisit, (∀ a ∈ g.prevNodes n, a ∈ st.1.map Prod.fst) →
        n ∈ (toVisit.foldl g.layerPass st).1.map Prod.fst := by
  induction toVisit generalizing st with
  | nil => exact ⟨h, fun a ha => ha, fun n hn => absurd hn List.not_mem_nil⟩
  | cons x toVisit ih =>
    obtain ⟨hx, hNodup⟩ := List.nodup_cons.mp hNodup
    obtain ⟨hxMem, hxNew⟩ := hVisit x (by simp)
    obtain ⟨hKeep, hOnly, hPlace⟩ := @layerPass_keys g st x
    have hRest : ∀ n ∈ toVisit, n ∈ g.nodes ∧ n ∉ (g.layerPass st x).1.map Prod.fst := by
      intro n hn
      obtain ⟨hMem, hNew⟩ := hVisit n (by simp [hn])
      refine ⟨hMem, fun hIn => ?_⟩
      rcases hOnly n hIn with hIn | rfl
      · exact hNew hIn
      · exact hx hn
    obtain ⟨hPlaced, hStay, hAll⟩ := ih (h.pass hxMem hxNew) hNodup hRest
    refine ⟨hPlaced, fun a ha => hStay a (hKeep a ha), fun n hn hPrev => ?_⟩
    rcases List.mem_cons.mp hn with rfl | hn
    · exact hStay n (hPlace hPrev)
    · exact hAll n hn fun a ha => hKeep a (hPrev a ha)

-- ---------------------------------------------------------------------------
-- The loop
-- ---------------------------------------------------------------------------

/-- The state between two rounds: what is not placed is to be visited. -/
structure Layerizing (g : DFG) (st : List Nat × List (Nat × Nat) × Nat) : Prop where
  placed : g.Placed st.2.1 st.2.2
  nodup : st.1.Nodup
  mem_iff : ∀ n, n ∈ st.1 ↔ n ∈ g.nodes ∧ n ∉ st.2.1.map Prod.fst

/-- A round places at least one node. -/
theorem Layerizing.step (hg : g.Good) (hExact : g.Exact []) (hAcyclic : Acyclic g.Edge)
    {st : List Nat × List (Nat × Nat) × Nat} (h : g.Layerizing st) (hne : st.1 ≠ [])
    (ord : Orders) (i : Nat) :
    ∃ st', g.layerStep ord i st = .ok (.inl st') ∧ g.Layerizing st' ∧
      st'.1.length < st.1.length := by
  have hVisit : ∀ n ∈ (ord.fork i).list st.1, n ∈ g.nodes ∧ n ∉ st.2.1.map Prod.fst := fun n hn =>
    (h.mem_iff n).mp ((ord.fork i).mem_list.mp hn)
  have hNodup : ((ord.fork i).list st.1).Nodup :=
    ((ord.fork i).nats.perm 0 st.1).nodup_iff.mpr h.nodup
  obtain ⟨hPlaced, hStay, hAll⟩ := h.placed.fold hNodup hVisit
  refine ⟨_, if_neg hne, ⟨hPlaced, h.nodup.filter _, fun n => ?_⟩, ?_⟩
  · rw [List.mem_filter, h.mem_iff, Option.isNone_iff_eq_none, ← Option.not_isSome_iff_eq_none,
      lookup_isSome_iff]
    constructor
    · rintro ⟨⟨hn, -⟩, hNot⟩
      exact ⟨hn, hNot⟩
    · rintro ⟨hn, hNot⟩
      exact ⟨⟨hn, fun hIn => hNot (hStay n hIn)⟩, hNot⟩
  · -- a node without predecessors among those to visit is placed
    obtain ⟨x, hx, hSource⟩ := hAcyclic.exists_source hne
    have hxMem := ((h.mem_iff x).mp hx).1
    have hPrev : ∀ a ∈ g.prevNodes x, a ∈ st.2.1.map Prod.fst := by
      intro a ha
      obtain ⟨haMem, hFeeds⟩ := (hg.mem_prevNodes hxMem).mp ha
      have hEdge : g.Edge a x := (hExact a x).mpr ⟨haMem, hxMem, List.not_mem_nil, hFeeds⟩
      by_contra hNot
      exact hSource a ((h.mem_iff a).mpr ⟨haMem, hNot⟩) hEdge
    have hDone := hAll x ((ord.fork i).mem_list.mpr hx) hPrev
    refine List.length_filter_lt_length_iff_exists.mpr ⟨x, hx, ?_⟩
    rw [Option.isNone_iff_eq_none, ← Option.not_isSome_iff_eq_none, not_not, lookup_isSome_iff]
    exact hDone

end DFG

-- ---------------------------------------------------------------------------
-- The layers
-- ---------------------------------------------------------------------------

/-- The operand is an output of the layer. -/
def FromLayer (g : DFG) (layers : List (List Nat)) (k m : Nat) : Prop :=
  ∃ a ∈ layers.getD k [], m ∈ (g.mlmi a).outputs

/-- Layers that respect the edges. -/
structure Ranked (g : DFG) (nodeLayers : List (Nat × Nat)) (layers : List (List Nat)) : Prop where
  mem_layer : ∀ k n, n ∈ layers.getD k [] ↔ n ∈ g.nodes ∧ nodeLayers.lookup n = some k
  layer_nodup : ∀ k, (layers.getD k []).Nodup
  placed : ∀ n ∈ g.nodes, ∃ k, nodeLayers.lookup n = some k
  ranked : ∀ k, ∀ n ∈ layers.getD k [], ∀ m ∈ (g.mlmi n).inputs,
    m ∈ g.progInputs ∨ ∃ j < k, FromLayer g layers j m

/-- In a dictionary without duplicates every entry is found. -/
theorem lookup_eq_some_of_mem {l : List (Nat × Nat)} (h : (l.map Prod.fst).Nodup) {n k : Nat}
    (hMem : (n, k) ∈ l) : l.lookup n = some k := by
  induction l with
  | nil => cases hMem
  | cons e l ih =>
    obtain ⟨hNot, hRest⟩ := List.nodup_cons.mp h
    rw [show e = (e.1, e.2) from rfl, lookup_cons_ite]
    rcases List.mem_cons.mp hMem with rfl | hMem
    · rw [if_pos rfl]
    · have hne : n ≠ e.1 := by
        rintro rfl
        exact hNot (List.mem_map.mpr ⟨_, hMem, rfl⟩)
      rw [if_neg hne]
      exact ih hRest hMem

theorem mem_of_lookup {l : List (Nat × Nat)} {n k : Nat} (h : l.lookup n = some k) :
    (n, k) ∈ l := by
  obtain ⟨pre, post, rfl, -⟩ := List.lookup_eq_some_iff.mp h
  simp

/-- The layers as `layerize` builds them. -/
theorem DFG.Placed.ranked {g : DFG} (hg : g.Good) {nodeLayers : List (Nat × Nat)} {lastLayer : Nat}
    (h : g.Placed nodeLayers lastLayer) (hAll : ∀ n ∈ g.nodes, n ∈ nodeLayers.map Prod.fst) :
    Ranked g nodeLayers ((List.range (lastLayer + 1)).map fun k =>
      (nodeLayers.filter fun e => e.2 = k).map Prod.fst) := by
  have hGet : ∀ k, ((List.range (lastLayer + 1)).map fun k =>
      (nodeLayers.filter fun e => e.2 = k).map Prod.fst).getD k [] =
      if k ≤ lastLayer then (nodeLayers.filter fun e => e.2 = k).map Prod.fst else [] := by
    intro k
    by_cases hk : k ≤ lastLayer
    · rw [if_pos hk, List.getD_eq_getElem _ _ (by simp; omega)]
      simp
    · rw [if_neg hk, List.getD_eq_default _ _ (by simp; omega)]
  -- the `k`-th list holds the nodes that were given the layer `k`
  have hMem : ∀ k n, n ∈ ((List.range (lastLayer + 1)).map fun k =>
      (nodeLayers.filter fun e => e.2 = k).map Prod.fst).getD k [] ↔
      n ∈ g.nodes ∧ nodeLayers.lookup n = some k := by
    intro k n
    rw [hGet]
    constructor
    · intro hn
      split at hn
      · obtain ⟨⟨a, j⟩, hFilter, rfl⟩ := List.mem_map.mp hn
        obtain ⟨hEntry, hj⟩ := List.mem_filter.mp hFilter
        have hjk : j = k := by simpa using hj
        subst hjk
        have hKey : a ∈ nodeLayers.map Prod.fst := List.mem_map.mpr ⟨(a, j), hEntry, rfl⟩
        exact ⟨h.keys_sub a hKey, lookup_eq_some_of_mem h.keys_nodup hEntry⟩
      · cases hn
    · rintro ⟨-, hLook⟩
      rw [if_pos (h.le_last n k hLook)]
      exact List.mem_map.mpr ⟨(n, k), List.mem_filter.mpr ⟨mem_of_lookup hLook, by simp⟩, rfl⟩
  have hLayer : ∀ n ∈ g.nodes, ∃ k, nodeLayers.lookup n = some k := fun n hn =>
    Option.isSome_iff_exists.mp (DFG.lookup_isSome_iff.mpr (hAll n hn))
  refine ⟨hMem, fun k => ?_, hLayer, fun k n hn m hm => ?_⟩
  · rw [hGet]
    split
    · exact h.keys_nodup.sublist (List.filter_sublist.map Prod.fst)
    · exact List.nodup_nil
  · obtain ⟨hnMem, hk⟩ := (hMem k n).mp hn
    refine (hg.inputs_from n hnMem m hm).imp_right ?_
    rintro ⟨a, ha, hOut⟩
    have hPrev : a ∈ g.prevNodes n := (hg.mem_prevNodes hnMem).mpr ⟨ha, m, hOut, hm⟩
    obtain ⟨j, hLt, hj⟩ := h.after n k hk a hPrev
    exact ⟨j, hLt, a, (hMem j a).mpr ⟨ha, hj⟩, hOut⟩

/-- `layerize` ends on an acyclic graph. -/
theorem layerize_returns {g : DFG} (hg : g.Good) (hExact : g.Exact []) (hAcyclic : Acyclic g.Edge)
    (ord : Orders) : ∃ nodeLayers layers lastLayer,
      Returns (fun fuel => layerize ord fuel g) (nodeLayers, layers) ∧
        layers.length = lastLayer + 1 ∧
        (g.nodes = [] → layers = [[]]) ∧ g.Placed nodeLayers lastLayer ∧
        Ranked g nodeLayers layers := by
  obtain ⟨⟨nodeLayers, lastLayer⟩, hLoop, hPlaced, hAll⟩ :=
    @loop_returns _ _ _ Fault.diverges (fun _ => g.layerStep ord) g.Layerizing
      (fun r => g.Placed r.1 r.2 ∧ ∀ n ∈ g.nodes, n ∈ r.1.map Prod.fst) _
      (measure fun st : List Nat × List (Nat × Nat) × Nat => st.1.length).wf
      (fun i st hst => by
        by_cases hne : st.1 = []
        · refine ⟨.inr st.2, Returns.of_eq fun _ => if_pos hne, hst.placed, fun n hn => ?_⟩
          by_contra hNot
          have := (hst.mem_iff n).mpr ⟨hn, hNot⟩
          rw [hne] at this
          cases this
        · obtain ⟨st', hStep, hst', hLt⟩ := hst.step hg hExact hAcyclic hne ord i
          exact ⟨.inl st', Returns.of_eq fun _ => hStep, hst', hLt⟩)
      0 (s := (g.nodes, [], 0))
      ⟨⟨List.nodup_nil, by simp, by simp, Or.inl rfl, by simp, by simp⟩, hg.nodes_nodup, by simp⟩
  refine ⟨_, _, lastLayer, hLoop.bind (Returns.of_eq fun _ => rfl), by simp, fun hNil => ?_,
    hPlaced, hPlaced.ranked hg hAll⟩
  -- without nodes the loop ends at once
  obtain ⟨N, hN⟩ := hLoop
  have hRun := hN (N + 1) (by omega)
  simp only [loop, DFG.layerStep, hNil, if_true] at hRun
  cases hRun
  rfl

end Obscure
