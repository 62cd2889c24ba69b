import Obscure.Universalization.Network

/-!
# OBSCURE — the ends of a network

The nodes of the second layer are connected to the ends of the wires.

* `connectNodes_ok` — the second layer reads the wires, and means the same;
* `InRows`          — a graph with networks up to some layer: every node reads what
  comes before it, and the skeleton is known.
-/

namespace Obscure

open Lib Routing

-- ---------------------------------------------------------------------------
-- The ends of the wires
-- ---------------------------------------------------------------------------

/-- The inputs of a layer, one after another. -/
def DFG.layerInputs (g : DFG) (layer : List Nat) : List Nat :=
  layer.flatMap fun n => (g.mlmi n).inputs

/-- Wire `i` ends in the operand `R i`, which has the value of input `i` of the
layer. -/
structure Ends (g : DFG) (after : List Nat) (R : Nat → Nat) : Prop where
  good : g.Good
  exact : g.Exact after
  nodup : after.Nodup
  mem : ∀ n ∈ after, n ∈ g.nodes
  reads : ∀ n ∈ after, ∀ m ∈ (g.mlmi n).inputs, ∃ b ∈ g.nodes, b ∉ after ∧ m ∈ (g.mlmi b).outputs
  gives : ∀ i < (g.layerInputs after).length, ∃ b ∈ g.nodes, b ∉ after ∧ R i ∈ (g.mlmi b).outputs
  value : ∀ τ, g.ModelsOff after τ → ∀ i m, (g.layerInputs after)[i]? = some m → τ (R i) = τ m

/-- The nodes `done` read the ends of the wires, `rest` still waits. -/
structure Connecting (g₂ : DFG) (R : Nat → Nat) (done rest : List Nat) (g : DFG) : Prop where
  good : g.Good
  exact : g.Exact rest
  meaning : DFG.Extends g₂ g
  nodes_eq : g.nodes = g₂.nodes
  progOutputs_eq : g.progOutputs = g₂.progOutputs
  other : ∀ a ∉ done, g.mlmi a = g₂.mlmi a
  outputs_eq : ∀ a, (g.mlmi a).outputs = (g₂.mlmi a).outputs
  seq_length : ∀ a, (g.mlmi a).seq.length = (g₂.mlmi a).seq.length
  inputs_eq : ∀ pre n post, done = pre ++ n :: post → (g.mlmi n).inputs =
    tab (g₂.mlmi n).inputs.length fun i => R ((g₂.layerInputs pre).length + i)

/-- The dictionary of replaced inputs. -/
theorem getOrSelf_zip_mem {old new : List Nat} {m : Nat} (hLen : old.length = new.length)
    (hm : m ∈ old) : ∃ i : Nat, old[i]? = some m ∧
      new[i]? = some (getOrSelf (old.zip new).reverse m) := by
  unfold getOrSelf
  cases hLook : (old.zip new).reverse.lookup m with
  | none =>
    obtain ⟨i, hi, rfl⟩ := List.getElem_of_mem hm
    have hIn : (old[i], new[i]) ∈ (old.zip new).reverse := by
      rw [List.mem_reverse]
      exact List.mem_iff_getElem.mpr ⟨i, by simp; omega, by simp⟩
    have := List.lookup_eq_none_iff.mp hLook _ hIn
    simp at this
  | some c =>
    obtain ⟨pre, post, hSplit, -⟩ := List.lookup_eq_some_iff.mp hLook
    have hIn : (m, c) ∈ old.zip new := by
      rw [← List.mem_reverse, hSplit]
      simp
    obtain ⟨i, hi, hEq⟩ := List.getElem_of_mem hIn
    rw [List.getElem_zip] at hEq
    obtain ⟨hOld, hNew⟩ := Prod.mk.inj hEq
    have hi' : i < old.length ∧ i < new.length := by simpa using hi
    exact ⟨i, List.getElem?_eq_some_iff.mpr ⟨hi'.1, hOld⟩,
      List.getElem?_eq_some_iff.mpr ⟨hi'.2, hNew⟩⟩

theorem getOrSelf_zip_not_mem {old new : List Nat} {m : Nat} (hm : m ∉ old) :
    getOrSelf (old.zip new).reverse m = m := by
  unfold getOrSelf
  have hNone : (old.zip new).reverse.lookup m = none := by
    refine List.lookup_eq_none_iff.mpr fun p hp => ?_
    rw [bne_iff_ne]
    rintro rfl
    rw [List.mem_reverse] at hp
    exact hm (List.of_mem_zip (show (p.1, p.2) ∈ _ from hp)).1
  rw [hNone]
  rfl

section Connect

variable {g₂ g : DFG} {after done rest : List Nat} {R : Nat → Nat} {n : Nat}

theorem layerInputs_append (g : DFG) (l l' : List Nat) :
    g.layerInputs (l ++ l') = g.layerInputs l ++ g.layerInputs l' := List.flatMap_append

theorem layerInputs_cons (g : DFG) (n : Nat) (l : List Nat) :
    g.layerInputs (n :: l) = (g.mlmi n).inputs ++ g.layerInputs l := rfl

/-- One node. -/
theorem connectNode_ok (hEnds : Ends g₂ after R) (hAfter : after = done ++ n :: rest)
    (h : Connecting g₂ R done (n :: rest) g) {wires : List (Operand Nat)}
    (hWires : ∀ i < (g₂.layerInputs after).length, wires[i]? = some (.loc (R i))) :
    ∃ g', connectNode wires (g, (g₂.layerInputs done).length) n =
      .ok (g', (g₂.layerInputs (done ++ [n])).length) ∧ Connecting g₂ R (done ++ [n]) rest g' := by
  have hNodup := hEnds.nodup
  rw [hAfter, List.nodup_append, List.nodup_cons] at hNodup
  have hnDone : n ∉ done := fun hIn => hNodup.2.2 n hIn n (by simp) rfl
  have hnAfter : n ∈ after := by simp [hAfter]
  have hnMem : n ∈ g.nodes := h.nodes_eq ▸ hEnds.mem n hnAfter
  have hSelf : g.mlmi n = g₂.mlmi n := h.other n hnDone
  have hAll : g₂.layerInputs after =
      g₂.layerInputs done ++ ((g₂.mlmi n).inputs ++ g₂.layerInputs rest) := by
    rw [hAfter, layerInputs_append, layerInputs_cons]
  have hBound : ∀ i < (g₂.mlmi n).inputs.length,
      (g₂.layerInputs done).length + i < (g₂.layerInputs after).length := by
    intro i hi
    rw [hAll, List.length_append, List.length_append]
    omega
  -- nodes that are not in the layer are as before
  have hOther : ∀ b, b ∉ after → g.mlmi b = g₂.mlmi b := fun b hb =>
    h.other b fun hIn => hb (by simp [hAfter, hIn])
  set off := (g₂.layerInputs done).length with hOff
  set new := tab (g₂.mlmi n).inputs.length fun i => R (off + i) with hNew
  -- each end of a wire is the output of a node outside the layer
  have hGives : ∀ m ∈ new, ∃ b ∈ g.nodes, m ∈ (g.mlmi b).outputs := by
    intro m hm
    obtain ⟨i, hi, rfl⟩ := mem_tab.mp hm
    obtain ⟨b, hb, hNot, hOut⟩ := hEnds.gives _ (hBound i hi)
    exact ⟨b, h.nodes_eq ▸ hb, (hOther b hNot).symm ▸ hOut⟩
  obtain ⟨fwd, hLink, hFwd⟩ := h.good.link_ok n hGives
  have hLen : (g.mlmi n).inputs.length = new.length := by rw [hSelf, hNew, length_tab]
  set f := getOrSelf ((g.mlmi n).inputs.zip new).reverse with hf
  -- an input is replaced by the end of one of its wires
  have hReplaced : ∀ m ∈ (g.mlmi n).inputs, ∃ i < (g₂.mlmi n).inputs.length,
      (g₂.mlmi n).inputs[i]? = some m ∧ f m = R (off + i) := by
    intro m hm
    obtain ⟨i, hOld, hAt⟩ := getOrSelf_zip_mem hLen hm
    have hi := (List.getElem?_eq_some_iff.mp hOld).1
    rw [hSelf] at hi hOld
    refine ⟨i, hi, hOld, ?_⟩
    rw [hNew, getElem?_tab hi, Option.some.injEq] at hAt
    exact hAt.symm
  have hIn : ∀ m ∈ (g.mlmi n).inputs, f m ∈ new := by
    intro m hm
    obtain ⟨i, hi, -, hEq⟩ := hReplaced m hm
    rw [hEq]
    exact mem_tab.mpr ⟨i, hi, rfl⟩
  -- the renaming touches inputs only: a cell of `n` itself is not one
  have hDefs : ∀ m ∈ (g.mlmi n).getDefs, f m = m := by
    intro m hm
    refine getOrSelf_zip_not_mem fun hInput => ?_
    rw [hSelf] at hm hInput
    obtain ⟨b, hb, hNot, hOut⟩ := hEnds.reads n hnAfter m hInput
    have hEq := hEnds.good.def_unique hb (hEnds.mem n hnAfter)
      (hEnds.good.outputs_sub b hb m hOut) hm
    exact hNot (hEq ▸ hnAfter)
  -- an end has the value of its wire, which is that of the input it replaces
  have hValue : ∀ τ, g.ModelsOff [n] τ → ∀ m ∈ (g.mlmi n).inputs, τ (f m) = τ m := by
    intro τ hτ m hm
    obtain ⟨i, hi, hAt, hEq⟩ := hReplaced m hm
    have hτ₂ : g₂.ModelsOff after τ := by
      intro b hb hNot j hj
      refine hτ b (h.nodes_eq ▸ hb) ?_ j ((hOther b hNot).symm ▸ hj)
      rintro hMem
      exact hNot (List.mem_singleton.mp hMem ▸ hnAfter)
    rw [hEq]
    refine hEnds.value τ hτ₂ (off + i) m ?_
    rw [hAll, List.getElem?_append_right (by omega), ← hOff, Nat.add_sub_cancel_left,
      List.getElem?_append_left hi, hAt]
  have hgFwd := h.good.of_forward fwd
  have hGiven : ∀ m ∈ new, ({ g with forwardEdges := fwd } : DFG).Given m := fun m hm =>
    Or.inr (hGives m hm)
  have hEdited := hgFwd.rewire_edited hnMem hIn hDefs hGiven
  refine ⟨({ g with forwardEdges := fwd } : DFG).rewire n f new, ?_, ?_⟩
  · have hMap : (List.range (g.mlmi n).inputs.length).mapM (fun i => wireAt wires (off + i)) =
        .ok new := by
      rw [hSelf]
      refine mapM_ok fun i hi => ?_
      rw [wireAt, hWires _ (hBound i (List.mem_range.mp hi))]
    unfold connectNode
    simp only [hMap, ok_bind]
    refine bind_eq_ok.mpr ⟨_, hLink, ?_⟩
    have hCount : off + new.length = (g₂.layerInputs (done ++ [n])).length := by
      rw [layerInputs_append, List.length_append, layerInputs_cons, List.length_append, hNew,
        length_tab]
      rfl
    rw [hCount]
    rfl
  · have hPend : ∀ b, b ∈ rest ↔ b ∈ n :: rest ∧ b ≠ n := by
      intro b
      constructor
      · intro hb
        exact ⟨List.mem_cons_of_mem _ hb, fun hEq => hNodup.2.1.1 (hEq ▸ hb)⟩
      · rintro ⟨hb, hne⟩
        exact (List.mem_cons.mp hb).resolve_left hne
    refine ⟨hgFwd.edited hnMem hEdited, DFG.exact_rewire h.exact hnMem hFwd hPend ?edges,
      ?meaning, h.nodes_eq, h.progOutputs_eq, fun a ha => ?other, fun a => ?outputs_eq,
      fun a => ?seq_length, ?inputs_eq⟩
    -- the new edges are exactly those of the new inputs
    case edges =>
      intro a _
      constructor
      · rintro ⟨m, hOut, hMem⟩
        exact Or.inr ⟨m, hMem, hOut⟩
      · rintro (⟨hNot, -⟩ | ⟨m, hMem, hOut⟩)
        · exact absurd List.mem_cons_self hNot
        · exact ⟨m, hOut, hMem⟩
    case meaning =>
      exact (h.meaning.trans (DFG.extends_of_forward g fwd)).trans
        (hgFwd.extends_rewire hnMem hIn hDefs hGiven hValue)
    case other =>
      have hne : a ≠ n := fun hEq => ha (by simp [hEq])
      rw [hEdited.mlmi_of_ne hne]
      exact h.other a fun hMem => ha (List.mem_append_left _ hMem)
    case outputs_eq =>
      by_cases ha : a = n
      · rw [ha, hEdited.mlmi_self]
        exact h.outputs_eq n
      · rw [hEdited.mlmi_of_ne ha]
        exact h.outputs_eq a
    case seq_length =>
      by_cases ha : a = n
      · rw [ha, hEdited.mlmi_self, List.length_map]
        exact h.seq_length n
      · rw [hEdited.mlmi_of_ne ha]
        exact h.seq_length a
    -- the node just connected, or one connected before
    case inputs_eq =>
      intro pre a post hSplit
      rcases List.eq_nil_or_concat' post with rfl | ⟨post', last, rfl⟩
      · obtain ⟨rfl, hEq⟩ := List.append_inj' hSplit rfl
        obtain rfl : n = a := by simpa using hEq
        rw [hEdited.mlmi_self]
      · rw [← List.cons_append, ← List.append_assoc] at hSplit
        obtain ⟨hDone, -⟩ := List.append_inj' hSplit rfl
        have hne : a ≠ n := by
          rintro rfl
          exact hnDone (by simp [hDone])
        rw [hEdited.mlmi_of_ne hne]
        exact h.inputs_eq pre a post' hDone

/-- The whole layer. -/
theorem connectNodes_ok (hEnds : Ends g₂ after R) {wires : List (Operand Nat)}
    (hWires : ∀ i < (g₂.layerInputs after).length, wires[i]? = some (.loc (R i))) :
    ∃ g, after.foldlM (connectNode wires) (g₂, 0) = .ok (g, (g₂.layerInputs after).length) ∧
      Connecting g₂ R after [] g := by
  obtain ⟨st, hFold, rest, hRest, hOff, hConn⟩ :=
    exists_foldlM_ok (f := connectNode wires) (l := after)
    (s := (g₂, 0)) (P := fun done st => ∃ rest, after = done ++ rest ∧
      st.2 = (g₂.layerInputs done).length ∧ Connecting g₂ R done rest st.1)
    (fun done n rest hSplit st hst => by
      obtain ⟨rest', hRest, hOff, hConn⟩ := hst
      obtain rfl : n :: rest = rest' := List.append_cancel_left (hSplit.symm.trans hRest)
      obtain ⟨g, off⟩ := st
      obtain rfl : off = (g₂.layerInputs done).length := hOff
      obtain ⟨g', hOne, hConn'⟩ := connectNode_ok hEnds hSplit hConn hWires
      exact ⟨_, hOne, rest, by simp [hSplit], rfl, hConn'⟩)
    ⟨after, rfl, rfl, hEnds.good, hEnds.exact, .refl g₂, rfl, rfl, fun _ _ => rfl, fun _ => rfl,
      fun _ => rfl, by simp⟩
  have hNil : rest = [] := by simpa using hRest
  subst hNil
  refine ⟨st.1, ?_, hConn⟩
  rw [hFold, ← hOff]

end Connect

-- ---------------------------------------------------------------------------
-- A graph in rows
-- ---------------------------------------------------------------------------

/-- The nodes of a list read program inputs, or what comes before them. -/
def SortedFrom (g : DFG) (base nodes : List Nat) : Prop :=
  ∀ pre n post, nodes = pre ++ n :: post → ∀ m ∈ (g.mlmi n).inputs,
    m ∈ g.progInputs ∨ ∃ a ∈ base ++ pre, m ∈ (g.mlmi a).outputs

theorem SortedFrom.append {g : DFG} {base nodes nodes' : List Nat} (h : SortedFrom g base nodes)
    (h' : SortedFrom g (base ++ nodes) nodes') : SortedFrom g base (nodes ++ nodes') := by
  intro pre n post hSplit m hm
  rcases List.append_eq_append_iff.mp hSplit with ⟨mid, rfl, hMid⟩ | ⟨mid, rfl, hMid⟩
  · rw [← List.append_assoc]
    exact h' mid n post hMid m hm
  · cases mid with
    | nil =>
      rw [List.append_nil] at h'
      exact (List.append_nil (base ++ pre)) ▸ h' [] n post hMid.symm m hm
    | cons x mid =>
      obtain ⟨rfl, -⟩ := List.cons.inj hMid
      exact h pre n mid rfl m hm

theorem SortedFrom.of_mem {g : DFG} {base nodes : List Nat}
    (h : ∀ n ∈ nodes, ∀ m ∈ (g.mlmi n).inputs, m ∈ g.progInputs ∨
      ∃ a ∈ base, m ∈ (g.mlmi a).outputs) :
    SortedFrom g base nodes := by
  rintro pre n post rfl m hm
  refine (h n (by simp) m hm).imp_right ?_
  rintro ⟨a, ha, hOut⟩
  exact ⟨a, List.mem_append_left _ ha, hOut⟩

theorem SortedFrom.mem {g : DFG} {base nodes : List Nat} (h : SortedFrom g base nodes) {n m : Nat}
    (hn : n ∈ nodes) (hm : m ∈ (g.mlmi n).inputs) :
    m ∈ g.progInputs ∨ ∃ a ∈ base ++ nodes, m ∈ (g.mlmi a).outputs := by
  obtain ⟨pre, post, rfl⟩ := List.append_of_mem hn
  refine (h pre n post rfl m hm).imp_right ?_
  rintro ⟨a, ha, hOut⟩
  refine ⟨a, ?_, hOut⟩
  rcases List.mem_append.mp ha with ha | ha <;> simp [ha]

theorem SortedFrom.congr {g g' : DFG} {base nodes : List Nat} (h : SortedFrom g base nodes)
    (hProg : g'.progInputs = g.progInputs)
    (hIn : ∀ n ∈ nodes, (g'.mlmi n).inputs = (g.mlmi n).inputs)
    (hOut : ∀ n ∈ base ++ nodes, (g'.mlmi n).outputs = (g.mlmi n).outputs) :
    SortedFrom g' base nodes := by
  rintro pre n post rfl m hm
  rw [hIn n (by simp)] at hm
  rw [hProg]
  refine (h pre n post rfl m hm).imp_right ?_
  rintro ⟨a, ha, hm'⟩
  refine ⟨a, ha, ?_⟩
  rw [hOut a (by rcases List.mem_append.mp ha with ha | ha <;> simp [ha])]
  exact hm'

/-- The graph with networks up to the layer `last`, and the layers to come; `g₁` is
the graph without networks. -/
structure InRows (cfg : Config) (g₀ g₁ : DFG) (rows : List (List Nat)) (last : List Nat)
    (rest : List (List Nat)) (sk : List (List NodeSkeleton)) (g : DFG) : Prop where
  good : g.Good
  exact : g.Exact []
  meaning : DFG.Extends g₀ g
  progOutputs_eq : g.progOutputs = g₁.progOutputs
  within : ∀ n ∈ g.nodes, (g.mlmi n).Within cfg
  nodup : (rows.flatten ++ rest.flatten).Nodup
  mem_iff : ∀ n, n ∈ g.nodes ↔ n ∈ rows.flatten ∨ n ∈ rest.flatten
  last_row : ∃ init, rows = init ++ [last]
  sorted : SortedFrom g [] rows.flatten
  unread : ∀ n ∈ rows.flatten, ∀ m ∈ (g.mlmi n).inputs, ∀ a ∈ last, m ∉ (g.mlmi a).outputs
  reads : ∀ mid layer post, rest = mid ++ layer :: post → ∀ n ∈ layer, ∀ m ∈ (g.mlmi n).inputs,
    Available g (last :: mid) m
  nodes_sub : ∀ n ∈ g₁.nodes, n ∈ g.nodes
  kept : ∀ n ∈ g₁.nodes, (g.mlmi n).inputs.length = (g₁.mlmi n).inputs.length ∧
    (g.mlmi n).outputs = (g₁.mlmi n).outputs
  drawn : Drawn g rows rows sk

/-- Edges from a layer are taken away. -/
theorem foldl_clear (g : DFG) (before : List Nat) :
    before.foldl (fun g n => { g with forwardEdges := Function.update g.forwardEdges n [] }) g =
      { g with forwardEdges := fun a => if a ∈ before then [] else g.forwardEdges a } := by
  induction before generalizing g with
  | nil => simp
  | cons b before ih =>
    rw [List.foldl_cons, ih]
    have hFwd : (fun a => if a ∈ before then [] else Function.update g.forwardEdges b [] a) =
        fun a => if a ∈ b :: before then [] else g.forwardEdges a := by
      funext a
      by_cases ha : a = b
      · subst ha
        simp
      · simp [ha]
    rw [← hFwd]

/-- The next layer waits for its edges. -/
theorem InRows.exact_clear {cfg : Config} {g₀ g₁ g : DFG} {rows rest : List (List Nat)}
    {last after : List Nat} {sk : List (List NodeSkeleton)}
    (h : InRows cfg g₀ g₁ rows last (after :: rest) sk g) :
    ({ g with forwardEdges := fun a => if a ∈ last then [] else g.forwardEdges a } :
    DFG).Exact after := by
  obtain ⟨init, hInit⟩ := h.last_row
  have hLastRow : ∀ a ∈ last, a ∈ rows.flatten := fun a ha => by simp [hInit, ha]
  have hNodup := List.nodup_append.mp h.nodup
  have hAfterRest : ∀ a ∈ after, a ∈ (after :: rest).flatten := fun a ha => by simp [ha]
  -- who reads `last` is in the next layer, and reads nothing else
  have hWho : ∀ a ∈ g.nodes, ∀ b ∈ g.nodes, g.Feeds a b → (a ∈ last ↔ b ∈ after) := by
    rintro a ha b hb ⟨m, hOut, hIn⟩
    constructor
    · intro haLast
      rcases (h.mem_iff b).mp hb with hb | hb
      · exact absurd hOut (h.unread b hb m hIn a haLast)
      · obtain ⟨layer, hLayer, hbLayer⟩ := List.mem_flatten.mp hb
        obtain ⟨mid, post, hSplit⟩ := List.append_of_mem hLayer
        have hAv := h.reads mid layer post hSplit b hbLayer m hIn
        rcases List.eq_nil_or_concat' mid with rfl | ⟨mid, prev, rfl⟩
        · obtain ⟨rfl, -⟩ := List.cons.inj hSplit
          exact hbLayer
        · rw [← List.cons_append] at hAv
          obtain ⟨a', ha', hOut'⟩ := available_concat.mp hAv
          have haMem' : a' ∈ (after :: rest).flatten := by
            rw [hSplit]
            simp [ha']
          have haNode : a' ∈ g.nodes := (h.mem_iff a').mpr (Or.inr haMem')
          have hEq := h.good.output_unique ha haNode hOut hOut'
          exact absurd hEq (hNodup.2.2 a (hLastRow a haLast) a' haMem')
    · intro hbAfter
      have hAv : Available g ([] ++ [last]) m := h.reads [] after rest rfl b hbAfter m hIn
      obtain ⟨a', ha', hOut'⟩ := available_concat.mp hAv
      have haNode : a' ∈ g.nodes := (h.mem_iff a').mpr (Or.inl (hLastRow a' ha'))
      rw [h.good.output_unique ha haNode hOut hOut']
      exact ha'
  intro a b
  show b ∈ (if a ∈ last then [] else g.forwardEdges a) ↔
    a ∈ g.nodes ∧ b ∈ g.nodes ∧ b ∉ after ∧ g.Feeds a b
  split
  · next haLast =>
    refine iff_of_false List.not_mem_nil ?_
    rintro ⟨ha, hb, hNot, hFeeds⟩
    exact hNot ((hWho a ha b hb hFeeds).mp haLast)
  · next haLast =>
    rw [h.exact a b]
    constructor
    · rintro ⟨ha, hb, -, hFeeds⟩
      exact ⟨ha, hb, fun hIn => haLast ((hWho a ha b hb hFeeds).mpr hIn), hFeeds⟩
    · rintro ⟨ha, hb, -, hFeeds⟩
      exact ⟨ha, hb, List.not_mem_nil, hFeeds⟩

-- ---------------------------------------------------------------------------
-- The start of a network
-- ---------------------------------------------------------------------------

/-- The outputs of a layer, one after another. -/
def DFG.outputsOf (g : DFG) (layer : List Nat) : List Nat :=
  layer.flatMap fun n => (g.mlmi n).outputs

/-- The wires at the start of a network. -/
def startWires (outputs : List Nat) (size : Nat) : List (Operand Nat) :=
  outputs.map Operand.loc ++ List.replicate (size - outputs.length) (.imm 0)

/-- The outputs of a drawn row have the places that the drawing tells. -/
theorem forall₂_sources {g : DFG} {rows : List (List Nat)} {r k : Nat} {row : List Nat}
    {skRow : List NodeSkeleton} (h : List.Forall₂ (Draws g rows) row skRow)
    (hAt : ∀ i n, row[i]? = some n → nodeAt rows r (k + i) = some n) :
    List.Forall₂ (fun m s => Carries g rows (.loc m) s) (g.outputsOf row)
      ((skRow.zipIdx k).flatMap fun node => (List.range node.1.outputs).map fun p =>
        some (r, node.2, p)) := by
  induction h generalizing k with
  | nil => exact .nil
  | @cons n s row skRow hDraw _ ih =>
    rw [List.zipIdx_cons, List.flatMap_cons]
    refine List.rel_append ?_ (ih fun i a ha => ?_)
    · have hTab : (g.mlmi n).outputs = tab (g.mlmi n).outputs.length fun i =>
          (g.mlmi n).outputs.getD i 0 :=
        eq_tab _
      have hOuts : List.Forall₂ (fun m s => Carries g rows (.loc m) s)
          (tab (g.mlmi n).outputs.length fun i => (g.mlmi n).outputs.getD i 0)
          (tab (g.mlmi n).outputs.length fun p => some (r, k, p)) := by
        refine forall₂_tab fun p hp => ⟨n, hAt 0 n rfl, ?_⟩
        show (g.mlmi n).outputs[p]? = _
        rw [List.getD_eq_getElem _ _ hp, List.getElem?_eq_getElem hp]
      rw [← hTab, hDraw.2] at hOuts
      exact hOuts
    · rw [Nat.add_assoc, Nat.add_comm 1]
      exact hAt (i + 1) a ha

end Obscure
