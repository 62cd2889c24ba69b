import Obscure.Universalization.Universalizer
import Obscure.Universalization.Invariant

/-!
# OBSCURE — skeletons

What an observer sees of a universalized program: the rows of nodes, and for every
input of a node the output that it is, by row, node and position. The skeleton of a
graph erases the instructions and the numbers of the cells; a program input has no
place.

* `DFG.skeleton`     — the skeleton of a graph in rows;
* `skeleton_eq`      — how to know it from relations that grow with the graph.
-/

namespace Obscure

open Lib

/-- An output: the row, the node in the row and the position among its outputs. -/
abbrev Src := Nat × Nat × Nat

structure NodeSkeleton where
  inputs : List (Option Src)
  outputs : Nat
deriving DecidableEq, Repr

/-- All outputs with their places. -/
def DFG.outputTable (g : DFG) (rows : List (List Nat)) : List (Nat × Src) :=
  rows.zipIdx.flatMap fun row => row.1.zipIdx.flatMap fun n =>
    (g.mlmi n.1).outputs.zipIdx.map fun o => (o.1, row.2, n.2, o.2)

/-- Where an operand is given out. -/
def DFG.locate (g : DFG) (rows : List (List Nat)) (m : Nat) : Option Src :=
  (g.outputTable rows).lookup m

def DFG.skeleton (g : DFG) (rows : List (List Nat)) : List (List NodeSkeleton) :=
  rows.map fun row => row.map fun n =>
    ⟨(g.mlmi n).inputs.map (g.locate rows), (g.mlmi n).outputs.length⟩

-- ---------------------------------------------------------------------------
-- Places
-- ---------------------------------------------------------------------------

/-- The node at a place. -/
def nodeAt (rows : List (List Nat)) (r k : Nat) : Option Nat := rows[r]?.bind fun row => row[k]?

/-- The output at place `s` is `m`. -/
def Locates (g : DFG) (rows : List (List Nat)) (m : Nat) (s : Src) : Prop :=
  ∃ n, nodeAt rows s.1 s.2.1 = some n ∧ (g.mlmi n).outputs[s.2.2]? = some m

theorem nodeAt_append {rows more : List (List Nat)} {r k n : Nat} (h : nodeAt rows r k = some n) :
    nodeAt (rows ++ more) r k = some n := by
  obtain ⟨row, hRow, hn⟩ := Option.bind_eq_some_iff.mp h
  have hr := (List.getElem?_eq_some_iff.mp hRow).1
  refine Option.bind_eq_some_iff.mpr ⟨row, ?_, hn⟩
  rw [List.getElem?_append_left hr, hRow]

/-- The last row grows. -/
theorem nodeAt_concat {rows : List (List Nat)} {row more : List Nat} {r k n : Nat}
    (h : nodeAt (rows ++ [row]) r k = some n) : nodeAt (rows ++ [row ++ more]) r k = some n := by
  obtain ⟨row', hRow, hn⟩ := Option.bind_eq_some_iff.mp h
  by_cases hr : r < rows.length
  · rw [List.getElem?_append_left hr] at hRow
    exact Option.bind_eq_some_iff.mpr ⟨row', by rw [List.getElem?_append_left hr, hRow], hn⟩
  · have hEq : r = rows.length := by
      have := (List.getElem?_eq_some_iff.mp hRow).1
      rw [List.length_append, List.length_singleton] at this
      omega
    subst hEq
    rw [List.getElem?_concat_length] at hRow
    cases hRow
    refine Option.bind_eq_some_iff.mpr ⟨row ++ more, List.getElem?_concat_length, ?_⟩
    rw [List.getElem?_append_left (List.getElem?_eq_some_iff.mp hn).1, hn]

theorem nodeAt_last (rows : List (List Nat)) {row : List Nat} {k n : Nat} (h : row[k]? = some n) :
    nodeAt (rows ++ [row]) rows.length k = some n :=
  Option.bind_eq_some_iff.mpr ⟨row, List.getElem?_concat_length, h⟩

theorem mem_flatten_of_nodeAt {rows : List (List Nat)} {r k n : Nat}
    (h : nodeAt rows r k = some n) :
    n ∈ rows.flatten := by
  obtain ⟨row, hRow, hn⟩ := Option.bind_eq_some_iff.mp h
  exact List.mem_flatten.mpr ⟨row, List.mem_of_getElem? hRow, List.mem_of_getElem? hn⟩

/-- A node has one place. -/
theorem nodeAt_unique {rows : List (List Nat)} (hNodup : rows.flatten.Nodup) {r k r' k' n : Nat}
    (h : nodeAt rows r k = some n) (h' : nodeAt rows r' k' = some n) : r = r' ∧ k = k' := by
  obtain ⟨row, hRow, hn⟩ := Option.bind_eq_some_iff.mp h
  obtain ⟨row', hRow', hn'⟩ := Option.bind_eq_some_iff.mp h'
  obtain ⟨hr, rfl⟩ := List.getElem?_eq_some_iff.mp hRow
  obtain ⟨hr', rfl⟩ := List.getElem?_eq_some_iff.mp hRow'
  obtain ⟨hEach, hApart⟩ := List.nodup_flatten.mp hNodup
  have hEq : r = r' := by
    by_contra hne
    rcases Nat.lt_or_gt_of_ne hne with hlt | hgt
    · exact (List.pairwise_iff_getElem.mp hApart r r' hr hr' hlt) (List.mem_of_getElem? hn)
        (List.mem_of_getElem? hn')
    · exact (List.pairwise_iff_getElem.mp hApart r' r hr' hr hgt) (List.mem_of_getElem? hn')
        (List.mem_of_getElem? hn)
  subst hEq
  obtain ⟨hk, hkEq⟩ := List.getElem?_eq_some_iff.mp hn
  obtain ⟨hk', hkEq'⟩ := List.getElem?_eq_some_iff.mp hn'
  have := (hEach _ (List.getElem_mem hr)).getElem_inj_iff.mp (hkEq.trans hkEq'.symm)
  exact ⟨rfl, this⟩

/-- Places stay when rows are added. -/
theorem Locates.mono {g g' : DFG} {rows rows' : List (List Nat)} {m : Nat} {s : Src}
    (h : Locates g rows m s) (hAt : ∀ r k n, nodeAt rows r k = some n → nodeAt rows' r k = some n)
    (hOut : ∀ n ∈ rows.flatten, (g'.mlmi n).outputs = (g.mlmi n).outputs) :
    Locates g' rows' m s := by
  obtain ⟨n, hn, hm⟩ := h
  exact ⟨n, hAt _ _ n hn, by rw [hOut n (mem_flatten_of_nodeAt hn)]; exact hm⟩

/-- An operand has one place. -/
theorem Locates.unique {g : DFG} {rows : List (List Nat)} (hg : g.Good)
    (hNodup : rows.flatten.Nodup) (hMem : ∀ n ∈ rows.flatten, n ∈ g.nodes) {m : Nat} {s s' : Src}
    (h : Locates g rows m s) (h' : Locates g rows m s') : s = s' := by
  obtain ⟨r, k, p⟩ := s
  obtain ⟨r', k', p'⟩ := s'
  obtain ⟨n, hn, hm⟩ := h
  obtain ⟨n', hn', hm'⟩ := h'
  have hnMem := hMem n (mem_flatten_of_nodeAt hn)
  have hnMem' := hMem n' (mem_flatten_of_nodeAt hn')
  obtain rfl := hg.output_unique hnMem hnMem' (List.mem_of_getElem? hm) (List.mem_of_getElem? hm')
  obtain ⟨rfl, rfl⟩ := nodeAt_unique hNodup hn hn'
  obtain ⟨hp, hpEq⟩ := List.getElem?_eq_some_iff.mp hm
  obtain ⟨hp', hpEq'⟩ := List.getElem?_eq_some_iff.mp hm'
  have hEq : p = p' := (hg.outputs_nodup n hnMem).getElem_inj_iff.mp (hpEq.trans hpEq'.symm)
  rw [hEq]

theorem mem_outputTable {g : DFG} {rows : List (List Nat)} {m : Nat} {s : Src} :
    (m, s) ∈ g.outputTable rows ↔ Locates g rows m s := by
  obtain ⟨r, k, p⟩ := s
  simp only [DFG.outputTable, List.mem_flatMap, List.mem_map, Prod.exists,
    List.mk_mem_zipIdx_iff_getElem?, Prod.mk.injEq, Locates, nodeAt, Option.bind_eq_some_iff]
  constructor
  · rintro ⟨row, r', hRow, n, k', hn, o, p', ho, rfl, rfl, rfl, rfl⟩
    exact ⟨n, ⟨row, hRow, hn⟩, ho⟩
  · rintro ⟨n, ⟨row, hRow, hn⟩, ho⟩
    exact ⟨row, r, hRow, n, k, hn, m, p, ho, rfl, rfl, rfl, rfl⟩

theorem locate_eq_some {g : DFG} {rows : List (List Nat)} (hg : g.Good)
    (hNodup : rows.flatten.Nodup) (hMem : ∀ n ∈ rows.flatten, n ∈ g.nodes) {m : Nat} {s : Src}
    (h : Locates g rows m s) :
    g.locate rows m = some s := by
  have hIn := mem_outputTable.mpr h
  unfold DFG.locate
  cases hLook : (g.outputTable rows).lookup m with
  | none =>
    have := List.lookup_eq_none_iff.mp hLook _ hIn
    simp at this
  | some s' =>
    obtain ⟨pre, post, hSplit, -⟩ := List.lookup_eq_some_iff.mp hLook
    have hIn' : (m, s') ∈ g.outputTable rows := by simp [hSplit]
    rw [(mem_outputTable.mp hIn').unique hg hNodup hMem h]

theorem locate_eq_none {g : DFG} {rows : List (List Nat)} (hg : g.Good)
    (hMem : ∀ n ∈ rows.flatten, n ∈ g.nodes) {m : Nat} (h : m ∈ g.progInputs) :
    g.locate rows m = none := by
  refine List.lookup_eq_none_iff.mpr fun p hp => ?_
  obtain ⟨o, s⟩ := p
  obtain ⟨n, hn, ho⟩ := mem_outputTable.mp hp
  have hnMem := hMem n (mem_flatten_of_nodeAt hn)
  rw [bne_iff_ne]
  rintro rfl
  exact hg.progInputs_kept n hnMem _ (hg.outputs_sub n hnMem _ (List.mem_of_getElem? ho)) h

-- ---------------------------------------------------------------------------
-- Drawings
-- ---------------------------------------------------------------------------

/-- Where an input comes from. -/
def Shows (g : DFG) (rows : List (List Nat)) (m : Nat) : Option Src → Prop
  | none => m ∈ g.progInputs
  | some s => Locates g rows m s

/-- The skeleton of a node. -/
def Draws (g : DFG) (rows : List (List Nat)) (n : Nat) (sk : NodeSkeleton) : Prop :=
  List.Forall₂ (Shows g rows) (g.mlmi n).inputs sk.inputs ∧ (g.mlmi n).outputs.length = sk.outputs

/-- The skeletons of some rows. -/
def Drawn (g : DFG) (all rows : List (List Nat)) (sk : List (List NodeSkeleton)) : Prop :=
  List.Forall₂ (List.Forall₂ (Draws g all)) rows sk

theorem Shows.mono {g g' : DFG} {rows rows' : List (List Nat)} {m : Nat} {o : Option Src}
    (h : Shows g rows m o) (hAt : ∀ r k n, nodeAt rows r k = some n → nodeAt rows' r k = some n)
    (hOut : ∀ n ∈ rows.flatten, (g'.mlmi n).outputs = (g.mlmi n).outputs)
    (hProg : g'.progInputs = g.progInputs) : Shows g' rows' m o := by
  cases o with
  | none =>
    show m ∈ g'.progInputs
    rw [hProg]
    exact h
  | some s => exact Locates.mono h hAt hOut

/-- A drawing stays when rows are added. -/
theorem Drawn.mono {g g' : DFG} {all all' rows : List (List Nat)} {sk : List (List NodeSkeleton)}
    (h : Drawn g all rows sk) (hAt : ∀ r k n, nodeAt all r k = some n → nodeAt all' r k = some n)
    (hOut : ∀ n ∈ all.flatten, (g'.mlmi n).outputs = (g.mlmi n).outputs)
    (hProg : g'.progInputs = g.progInputs) (hSame : ∀ n ∈ rows.flatten, g'.mlmi n = g.mlmi n) :
    Drawn g' all' rows sk := by
  have hRows : ∀ row ∈ rows, ∀ n ∈ row, g'.mlmi n = g.mlmi n := fun row hRow n hn =>
    hSame n (List.mem_flatten.mpr ⟨row, hRow, hn⟩)
  clear hSame
  induction h with
  | nil => exact .nil
  | @cons row s rows sk hRow hRest ih =>
    refine .cons ?_ (ih fun row' hRow' => hRows row' (List.mem_cons_of_mem _ hRow'))
    have hNodes := hRows row List.mem_cons_self
    clear ih hRest hRows
    induction hRow with
    | nil => exact .nil
    | @cons n t row s hDraw _ ihRow =>
      refine .cons ⟨?_, ?_⟩ (ihRow fun a ha => hNodes a (List.mem_cons_of_mem _ ha))
      · rw [hNodes n List.mem_cons_self]
        exact hDraw.1.imp fun m o hm => hm.mono hAt hOut hProg
      · rw [hNodes n List.mem_cons_self]
        exact hDraw.2

/-- A complete drawing is the skeleton. -/
theorem skeleton_eq {g : DFG} {rows : List (List Nat)} (hg : g.Good) (hNodup : rows.flatten.Nodup)
    (hMem : ∀ n ∈ rows.flatten, n ∈ g.nodes) {sk : List (List NodeSkeleton)}
    (h : Drawn g rows rows sk) : g.skeleton rows = sk := by
  have hShows : ∀ m o, Shows g rows m o → g.locate rows m = o := by
    intro m o hm
    cases o with
    | none => exact locate_eq_none hg hMem hm
    | some s => exact locate_eq_some hg hNodup hMem hm
  have hNode : ∀ n s, Draws g rows n s →
      (⟨(g.mlmi n).inputs.map (g.locate rows), (g.mlmi n).outputs.length⟩ : NodeSkeleton) = s := by
    rintro n s ⟨hIn, hOut⟩
    rw [map_eq_of_forall₂ hIn hShows, hOut]
  exact map_eq_of_forall₂ h fun row s hs => map_eq_of_forall₂ hs hNode

-- ---------------------------------------------------------------------------
-- The skeleton of a network
-- ---------------------------------------------------------------------------

/-- One window of row `r`: the wires and the nodes of the row so far. A wire without
a source carries a constant. -/
def windowSkeleton (r : Nat) (st : List (Option Src) × List NodeSkeleton) (w : Nat × Nat) :
    List (Option Src) × List NodeSkeleton :=
  (overwrite st.1 w.1 ((List.range w.2).map fun i => some (r, st.2.length, i)),
    st.2 ++ [⟨((st.1.drop w.1).take w.2).filter Option.isSome, w.2⟩])

/-- One row of the routing program: the wires and all rows so far. -/
def rowSkeleton (st : List (Option Src) × List (List NodeSkeleton)) :
    Routing.RowShape → List (Option Src) × List (List NodeSkeleton)
  | .publicShuffle p => (p.map fun i => st.1.getD i none, st.2)
  | .secretShuffles windows =>
    let (wires, row) := windows.foldl (windowSkeleton st.2.length) (st.1, [])
    (wires, st.2 ++ [row])

def Routing.RowShape.isPublicIdentity : Routing.RowShape → Bool
  | .publicShuffle p => p = List.range p.length
  | .secretShuffles _ => false

/-- The rows of the optimized network. -/
def networkShapes (size le : Nat) : List Routing.RowShape :=
  (Routing.bdbShapes (Nat.log 2 size) le).filter fun sh => !sh.isPublicIdentity

/-- The outputs of the last row. -/
def sourcesOf (rows : List (List NodeSkeleton)) : List (Option Src) :=
  (rows.getLastD []).zipIdx.flatMap fun node =>
    (List.range node.1.outputs).map fun p => some (rows.length - 1, node.2, p)

/-- A node of the next layer, with its numbers of inputs and outputs, at an offset of
the wires. -/
def connectSkeleton (wires : List (Option Src)) (st : List NodeSkeleton × Nat) (sizes : Nat × Nat) :
    List NodeSkeleton × Nat :=
  (st.1 ++ [⟨(wires.drop st.2).take sizes.1, sizes.2⟩], st.2 + sizes.1)

/-- The size of the network for some number of positions. -/
def networkSize (needed : Nat) : Nat :=
  if 2 ^ Nat.log 2 needed = needed then needed else 2 ^ (1 + Nat.log 2 needed)

/-- The network to the next layer, and this layer. -/
def layerSkeleton (le : Nat) (rows : List (List NodeSkeleton)) (after : List (Nat × Nat)) :
    List (List NodeSkeleton) :=
  let sources := sourcesOf rows
  let size := networkSize (max sources.length (after.map Prod.fst).sum)
  let (wires, rows) := (networkShapes size le).foldl rowSkeleton
    (sources ++ List.replicate (size - sources.length) none, rows)
  rows ++ [(after.foldl (connectSkeleton wires) ([], 0)).1]

end Obscure
