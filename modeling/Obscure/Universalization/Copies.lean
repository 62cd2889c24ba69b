import Obscure.Universalization.Layers

/-!
# OBSCURE — copies

Two passes copy operands from one layer to the next: the program inputs into the
initial layer, and the program outputs towards the final one. Each copy goes to a
node with room or to a new one, and a dictionary remembers it.

* `Copied` — one copy in a node;
* `Filled` — the shape of a layer that is made of copies alone;
* `Copies` — what the dictionary says about the graph.
-/

namespace Obscure

open Lib

-- ---------------------------------------------------------------------------
-- One copy in a node
-- ---------------------------------------------------------------------------

/-- Node `n` has taken `m` as an input and gives out a copy of it. -/
structure Copied (g g' : DFG) (n m : Nat) : Prop where
  work : DFG.Worked [] g g' n
  mlmi_eq : g'.mlmi n = ⟨(g.mlmi n).seq ++ [mov g.memoryCount (.loc m)], (g.mlmi n).inputs ++ [m],
    (g.mlmi n).outputs ++ [g.memoryCount]⟩
  memoryCount_eq : g'.memoryCount = g.memoryCount + 1

section Copy

variable {g : DFG} {n m : Nat}

/-- A node can read an input that it has taken. -/
theorem readable_takeInput : (g.takeInput n m).Readable n (.loc m) := by
  intro k hk
  cases hk
  simp [DFG.takeInput, DFG.edit]

/-- A program input is copied without an edge. -/
theorem copied_prog (hg : g.Good) (hExact : g.Exact []) (hn : n ∈ g.nodes) (hm : m ∈ g.progInputs) :
    Copied g ((g.takeInput n m).giveOut n (.loc m)) n m := by
  have hTake := hg.worked_takeInput_prog hExact hn hm
  have hGive := hTake.good.worked_giveOut hTake.exact (hTake.nodes_eq.symm ▸ hn) readable_takeInput
  refine ⟨hTake.trans hGive, ?_, rfl⟩
  simp [DFG.giveOut, DFG.takeInput, DFG.edit]

/-- An output of another node is copied with an edge from that node. -/
theorem addInputOutputToNode_ok (hg : g.Good) (hExact : g.Exact []) (hn : n ∈ g.nodes) {d : Nat}
    (hd : d ∈ g.nodes) (hm : m ∈ (g.mlmi d).outputs) :
    ∃ g', g.addInputOutputToNode m n = .ok g' ∧ Copied g g' n m := by
  have hTake := hg.worked_takeInput hExact hn List.not_mem_nil hd hm
  have hGive := hTake.good.worked_giveOut hTake.exact (hTake.nodes_eq.symm ▸ hn)
    (show ((g.takeInput n m).addEdge d n).Readable n (.loc m) from readable_takeInput)
  refine ⟨((g.takeInput n m).addEdge d n).giveOut n (.loc m), ?_, hTake.trans hGive, ?_, rfl⟩
  · have hDef : ((g.takeInput n m).giveOut n (.loc m)).defNode m = .ok d := by
      have hOut := (hTake.trans hGive).outputs_sub d m hm
      have hMem : d ∈ (((g.takeInput n m).addEdge d n).giveOut n (.loc m)).nodes :=
        (hTake.trans hGive).nodes_eq.symm ▸ hd
      exact (hTake.trans hGive).good.defNode_output hMem hOut
    show (DFG.defNode _ m >>= _) = _
    rw [hDef]
    rfl
  · simp [DFG.giveOut, DFG.takeInput, DFG.edit, DFG.addEdge]

end Copy

/-- Node `n` gives out one new cell for each of the sources. -/
structure GaveOut (pending : List Nat) (g g' : DFG) (n : Nat) (srcs : List (Operand Nat)) :
    Prop where
  work : DFG.Worked pending g g' n
  mlmi_eq : g'.mlmi n = ⟨(g.mlmi n).seq ++ srcs.zipIdx.map fun s => mov (g.memoryCount + s.2) s.1,
    (g.mlmi n).inputs, (g.mlmi n).outputs ++ (List.range srcs.length).map (g.memoryCount + ·)⟩
  memoryCount_eq : g'.memoryCount = g.memoryCount + srcs.length

/-- Several copies are given out one after the other. -/
theorem giveOuts_spec {pending : List Nat} {g : DFG} {n : Nat} (hg : g.Good)
    (hExact : g.Exact pending) (hn : n ∈ g.nodes) {srcs : List (Operand Nat)}
    (hSrcs : ∀ src ∈ srcs, g.Readable n src) :
    GaveOut pending g (srcs.foldl (fun g src => g.giveOut n src) g) n srcs := by
  refine foldl_induct (P := fun done g' => GaveOut pending g g' n done)
    (fun done src rest hSplit g' h => ?_) ⟨.refl hg hExact n, by simp, rfl⟩
  have hSrc : g'.Readable n src := by
    intro m hm
    rw [h.mlmi_eq]
    exact hSrcs src (by simp [hSplit]) m hm
  have hGive := h.work.good.worked_giveOut h.work.exact (h.work.nodes_eq.symm ▸ hn) hSrc
  refine ⟨h.work.trans hGive, ?_, ?_⟩
  · have hSelf : (g'.giveOut n src).mlmi n = ⟨(g'.mlmi n).seq ++ [mov g'.memoryCount src],
        (g'.mlmi n).inputs, (g'.mlmi n).outputs ++ [g'.memoryCount]⟩ := by
      simp [DFG.giveOut, DFG.edit]
    rw [hSelf, h.mlmi_eq, h.memoryCount_eq]
    simp [List.zipIdx_append, List.range_succ]
  · show g'.memoryCount + 1 = _
    rw [h.memoryCount_eq, List.length_append, List.length_singleton]
    omega

/-- Zeros added to a node. -/
structure Zeros (pending : List Nat) (g g' : DFG) (n k : Nat) : Prop where
  work : DFG.Worked pending g g' n
  inputs_eq : (g'.mlmi n).inputs = (g.mlmi n).inputs
  outputs_length : (g'.mlmi n).outputs.length = (g.mlmi n).outputs.length + k
  seq_length : (g'.mlmi n).seq.length = (g.mlmi n).seq.length + k
  seq_sub : ∀ i ∈ (g.mlmi n).seq, i ∈ (g'.mlmi n).seq

/-- So are several zeros. -/
theorem returnZeros_spec {pending : List Nat} {g : DFG} {n : Nat} (hg : g.Good)
    (hExact : g.Exact pending) (hn : n ∈ g.nodes) (rounds : List Nat) :
    Zeros pending g (g.returnZeros n rounds) n rounds.length := by
  have hSrcs : ∀ src ∈ rounds.map fun _ => Operand.imm 0, g.Readable n src := by
    intro src hsrc m hm
    obtain ⟨-, -, rfl⟩ := List.mem_map.mp hsrc
    cases hm
  have h := giveOuts_spec hg hExact hn hSrcs
  rw [List.foldl_map] at h
  refine ⟨h.work, ?_, ?_, ?_, fun i hi => ?_⟩
  · rw [DFG.returnZeros, h.mlmi_eq]
  · rw [DFG.returnZeros, h.mlmi_eq]
    simp
  · rw [DFG.returnZeros, h.mlmi_eq]
    simp
  · rw [DFG.returnZeros, h.mlmi_eq]
    exact List.mem_append_left _ hi

-- ---------------------------------------------------------------------------
-- Layers that are filled from the end
-- ---------------------------------------------------------------------------

/-- The sizes of the nodes after one more element: the last node takes it if it
has room. -/
def fillStep (cap : Nat) (sizes : List Nat) : List Nat :=
  match sizes.getLast? with
  | some size => if size < cap then sizes.dropLast ++ [size + 1] else sizes ++ [1]
  | none => [1]

/-- The sizes of the nodes that take `k` elements. -/
def fillSizes (cap : Nat) : Nat → List Nat
  | 0 => []
  | k + 1 => fillStep cap (fillSizes cap k)

/-- One more output goes to the last node, if there is room, or to a new one. -/
theorem fillStep_concat (cap : Nat) (sizes : List Nat) (size : Nat) :
    fillStep cap (sizes ++ [size]) =
      if size < cap then sizes ++ [size + 1] else sizes ++ [size] ++ [1] := by
  simp [fillStep]

theorem fillStep_ne_nil (cap : Nat) (sizes : List Nat) : fillStep cap sizes ≠ [] := by
  unfold fillStep
  split
  · split <;> simp
  · simp

/-- A layer whose nodes copy `k` elements. -/
structure Filled (cap : Nat) (g : DFG) (layer : List Nat) (k : Nat) : Prop where
  outputs_length : ∀ n ∈ layer, (g.mlmi n).outputs.length = (g.mlmi n).inputs.length
  seq_length : ∀ n ∈ layer, (g.mlmi n).seq.length = (g.mlmi n).inputs.length
  le_cap : ∀ n ∈ layer, (g.mlmi n).inputs.length ≤ cap
  sizes : (layer.map fun n => (g.mlmi n).inputs.length) = fillSizes cap k

theorem filled_nil (cap : Nat) (g : DFG) : Filled cap g [] 0 :=
  ⟨by simp, by simp, by simp, rfl⟩

/-- Where the next element goes. -/
structure Places (g g₁ : DFG) (layer₁ : List Nat) (node : Nat) : Prop where
  good : g₁.Good
  exact : g₁.Exact []
  meaning : DFG.Extends g g₁
  node_mem : node ∈ layer₁
  mem_nodes : ∀ n, n ∈ g₁.nodes ↔ n ∈ g.nodes ∨ n ∈ layer₁
  memoryCount_eq : g₁.memoryCount = g.memoryCount
  progOutputs_eq : g₁.progOutputs = g.progOutputs
  old : ∀ n ∈ g.nodes, g₁.mlmi n = g.mlmi n

/-- The copy goes to the node that was picked, or to a new one. -/
theorem place_spec {g : DFG} (hg : g.Good) (hExact : g.Exact []) {layer : List Nat}
    (hLayer : ∀ n ∈ layer, n ∈ g.nodes) {pick : Option Nat}
    (hPick : ∀ n, pick = some n → n ∈ layer) :
    ∃ node g₁ layer₁, g.place layer pick = (node, g₁, layer₁) ∧ Places g g₁ layer₁ node ∧
      ((pick = some node ∧ g₁ = g ∧ layer₁ = layer) ∨ (pick = none ∧ node = g.fresh ∧
        g₁ = g.newNode ∧ layer₁ = layer ++ [g.fresh])) := by
  cases pick with
  | some n =>
    refine ⟨n, g, layer, rfl, ⟨hg, hExact, .refl g, hPick n rfl, fun a => ?_, rfl, rfl,
      fun _ _ => rfl⟩, Or.inl ⟨rfl, rfl, rfl⟩⟩
    exact ⟨Or.inl, fun h => h.elim id (hLayer a)⟩
  | none =>
    refine ⟨g.fresh, g.newNode, layer ++ [g.fresh], rfl, ⟨hg.newNode, hg.exact_newNode hExact,
      hg.extends_newNode, by simp, fun a => ?_, rfl, rfl, fun n hn => hg.newNode_mlmi hn⟩,
      Or.inr ⟨rfl, rfl, rfl, rfl⟩⟩
    rw [DFG.mem_newNode, List.mem_append, List.mem_singleton]
    constructor
    · rintro (rfl | ha)
      · exact Or.inr (Or.inr rfl)
      · exact Or.inl ha
    · rintro (ha | ha | rfl)
      · exact Or.inr ha
      · exact Or.inr (hLayer a ha)
      · exact Or.inl rfl

/-- One more element in a filled layer. -/
theorem Filled.step {cap : Nat} (hCap : 1 ≤ cap) {g g₁ g' : DFG} (hg : g.Good)
    {layer layer₁ : List Nat} {k node m : Nat} {room : Nat → Bool} (h : Filled cap g layer k)
    (hNodup : layer.Nodup) (hLayer : ∀ n ∈ layer, n ∈ g.nodes)
    (hRoom : ∀ n ∈ layer, room n = true ↔ (g.mlmi n).inputs.length < cap)
    (hPlace : g.place layer (layer.getLast?.filter room) = (node, g₁, layer₁))
    (hCopied : Copied g₁ g' node m) : Filled cap g' layer₁ (k + 1) := by
  have hSelf := hCopied.mlmi_eq
  have hOther := hCopied.work.other
  rcases List.eq_nil_or_concat' layer with rfl | ⟨init, last, rfl⟩
  · -- the first node
    cases hPlace
    have hk : fillSizes cap k = [] := h.sizes.symm
    rw [DFG.newNode_mlmi_fresh] at hSelf
    refine ⟨?_, ?_, ?_, ?_⟩
    · simp [hSelf]
    · simp [hSelf]
    · simpa [hSelf] using hCap
    · simp [hSelf, fillSizes, hk, fillStep]
  have hLast : last ∈ init ++ [last] := by simp
  have hSizes := h.sizes
  rw [List.map_append, List.map_singleton] at hSizes
  rw [List.getLast?_concat] at hPlace
  by_cases hr : room last = true
  · -- room in the last node
    have hLt := (hRoom last hLast).mp hr
    rw [Option.filter_some, if_pos hr] at hPlace
    simp only [DFG.place, Prod.mk.injEq] at hPlace
    obtain ⟨hNode, hGraph, hSame⟩ := hPlace
    subst hNode hGraph hSame
    -- only the last node takes the copy
    have hInit : ∀ n ∈ init, g'.mlmi n = g.mlmi n := by
      intro n hn
      refine hOther n ?_
      rintro rfl
      exact (List.nodup_append.mp hNodup).2.2 n hn n (by simp) rfl
    -- so what holds of each node is to be shown of the last one alone
    have hEach : ∀ {P : MLMI → Prop}, P (g'.mlmi last) → (∀ n ∈ init, P (g.mlmi n)) →
        ∀ n ∈ init ++ [last], P (g'.mlmi n) := by
      intro P hP hOld n hn
      rcases List.mem_append.mp hn with hn | hn
      · rw [hInit n hn]
        exact hOld n hn
      · rwa [List.mem_singleton.mp hn]
    refine ⟨?_, ?_, ?_, ?_⟩
    · refine hEach (P := fun x => x.outputs.length = x.inputs.length) ?_
        fun n hn => h.outputs_length n (by simp [hn])
      simp [hSelf, h.outputs_length last hLast]
    · refine hEach (P := fun x => x.seq.length = x.inputs.length) ?_
        fun n hn => h.seq_length n (by simp [hn])
      simp [hSelf, h.seq_length last hLast]
    · refine hEach (P := fun x => x.inputs.length ≤ cap) ?_ fun n hn => h.le_cap n (by simp [hn])
      simp [hSelf]
      omega
    · rw [fillSizes, ← hSizes, fillStep_concat, if_pos hLt, List.map_append, List.map_singleton,
        hSelf, List.length_append, List.length_singleton]
      congr 1
      exact List.map_congr_left fun n hn => by rw [hInit n hn]
  · -- a new node
    have hFull : ¬ (g.mlmi last).inputs.length < cap := fun hLt => hr ((hRoom last hLast).mpr hLt)
    rw [Option.filter_some, if_neg hr] at hPlace
    cases hPlace
    rw [DFG.newNode_mlmi_fresh] at hSelf
    -- the nodes that are full stay as they are
    have hOld : ∀ n ∈ init ++ [last], g'.mlmi n = g.mlmi n := by
      intro n hn
      have hMem := hLayer n hn
      have hne : n ≠ g.fresh := by
        rintro rfl
        exact hg.fresh_not_mem hMem
      rw [hOther n hne, hg.newNode_mlmi hMem]
    have hEach : ∀ {P : MLMI → Prop}, P (g'.mlmi g.fresh) → (∀ n ∈ init ++ [last], P (g.mlmi n)) →
        ∀ n ∈ init ++ [last] ++ [g.fresh], P (g'.mlmi n) := by
      intro P hP hAll n hn
      rcases List.mem_append.mp hn with hn | hn
      · rw [hOld n hn]
        exact hAll n hn
      · rwa [List.mem_singleton.mp hn]
    refine ⟨?_, ?_, ?_, ?_⟩
    · exact hEach (P := fun x => x.outputs.length = x.inputs.length)
        (by simp [hSelf]) h.outputs_length
    · exact hEach (P := fun x => x.seq.length = x.inputs.length) (by simp [hSelf]) h.seq_length
    · exact hEach (P := fun x => x.inputs.length ≤ cap) (by simpa [hSelf] using hCap) h.le_cap
    · have hMap : ((init ++ [last]).map fun n => (g'.mlmi n).inputs.length) =
          (init ++ [last]).map fun n => (g.mlmi n).inputs.length :=
        List.map_congr_left fun n hn => by rw [hOld n hn]
      rw [fillSizes, ← hSizes, fillStep_concat, if_neg hFull, List.map_append, hMap]
      simp [hSelf]

-- ---------------------------------------------------------------------------
-- The dictionary
-- ---------------------------------------------------------------------------

/-- A node of the layer gives out `c`, a copy of `m`. -/
def CopyIn (g : DFG) (layer : List Nat) (m c : Nat) : Prop :=
  ∃ a ∈ layer, c ∈ (g.mlmi a).outputs ∧ mov c (.loc m) ∈ (g.mlmi a).seq

/-- The dictionary `d` of the operands copied so far, to cells from `start` on. -/
structure Copies (start : Nat) (done : List Nat) (g : DFG) (layer : List Nat)
    (d : List (Nat × Nat)) : Prop where
  keys : ∀ m, (∃ c, d.lookup m = some c) ↔ m ∈ done
  copy : ∀ m c, d.lookup m = some c → start ≤ c ∧ CopyIn g layer m c

theorem copies_nil (start : Nat) (g : DFG) (layer : List Nat) : Copies start [] g layer [] :=
  ⟨by simp, by simp⟩

section Dictionary

variable {start m c : Nat} {done layer : List Nat} {g g₁ g' : DFG} {d : List (Nat × Nat)}

/-- Copies stay when nodes grow. -/
theorem CopyIn.mono {layer' : List Nat} (h : CopyIn g layer m c)
    (hGrow : ∀ a ∈ layer, a ∈ layer' ∧ (∀ x ∈ (g.mlmi a).outputs, x ∈ (g'.mlmi a).outputs) ∧
      ∀ i ∈ (g.mlmi a).seq, i ∈ (g'.mlmi a).seq) : CopyIn g' layer' m c := by
  obtain ⟨a, ha, hOut, hSeq⟩ := h
  obtain ⟨ha', hOuts, hSeqs⟩ := hGrow a ha
  exact ⟨a, ha', hOuts c hOut, hSeqs _ hSeq⟩

/-- Copies stay where the nodes of the layer grow. -/
theorem Copies.mono {layer' : List Nat} (h : Copies start done g layer d)
    (hGrow : ∀ a ∈ layer, a ∈ layer' ∧ (∀ x ∈ (g.mlmi a).outputs, x ∈ (g'.mlmi a).outputs) ∧
      ∀ i ∈ (g.mlmi a).seq, i ∈ (g'.mlmi a).seq) : Copies start done g' layer' d :=
  ⟨h.keys, fun m c hc => ⟨(h.copy m c hc).1, (h.copy m c hc).2.mono hGrow⟩⟩

/-- Nobody loses anything when a node takes a copy. -/
theorem Copied.grows {n : Nat} (h : Copied g g' n m) (a : Nat) :
    (∀ x ∈ (g.mlmi a).outputs, x ∈ (g'.mlmi a).outputs) ∧
      ∀ i ∈ (g.mlmi a).seq, i ∈ (g'.mlmi a).seq := by
  refine ⟨h.work.outputs_sub a, fun i hi => ?_⟩
  by_cases ha : a = n
  · subst ha
    rw [h.mlmi_eq]
    exact List.mem_append_left _ hi
  · rwa [h.work.other a ha]

/-- One more copy. -/
theorem Copies.step {layer₁ : List Nat} {node : Nat} (h : Copies start done g layer d)
    (hStart : start ≤ g.memoryCount) (hLayer : ∀ n ∈ layer, n ∈ g.nodes)
    (hSub : ∀ n ∈ layer, n ∈ layer₁) (hPlace : Places g g₁ layer₁ node)
    (hCopied : Copied g₁ g' node m) :
    Copies start (done ++ [m]) g' layer₁ ((m, g₁.memoryCount) :: d) := by
  have hOld : Copies start done g' layer₁ d := h.mono fun a ha => by
    refine ⟨hSub a ha, ?_⟩
    rw [← hPlace.old a (hLayer a ha)]
    exact hCopied.grows a
  have hNew : CopyIn g' layer₁ m g₁.memoryCount :=
    ⟨node, hPlace.node_mem, by rw [hCopied.mlmi_eq]; simp, by rw [hCopied.mlmi_eq]; simp⟩
  refine ⟨fun k => ?_, fun k c hc => ?_⟩
  · rw [lookup_cons_ite, List.mem_append, List.mem_singleton]
    by_cases hk : k = m
    · simp [hk]
    · rw [if_neg hk, hOld.keys k]
      simp [hk]
  · rw [lookup_cons_ite] at hc
    by_cases hk : k = m
    · rw [if_pos hk, Option.some.injEq] at hc
      rw [hk, ← hc]
      exact ⟨hPlace.memoryCount_eq ▸ hStart, hNew⟩
    · rw [if_neg hk] at hc
      exact hOld.copy k c hc

/-- A location is replaced by its copy, if it has one. -/
theorem Copies.getOrSelf_cases (h : Copies start done g layer d) (m : Nat) :
    (m ∉ done ∧ getOrSelf d m = m) ∨
      (m ∈ done ∧ d.lookup m = some (getOrSelf d m) ∧ start ≤ getOrSelf d m ∧
        CopyIn g layer m (getOrSelf d m)) := by
  unfold getOrSelf
  cases hm : d.lookup m with
  | none =>
    refine Or.inl ⟨fun hIn => ?_, rfl⟩
    obtain ⟨c, hc⟩ := (h.keys m).mpr hIn
    rw [hm] at hc
    cases hc
  | some c => exact Or.inr ⟨(h.keys m).mp ⟨c, hm⟩, rfl, (h.copy m c hm).1, (h.copy m c hm).2⟩

/-- A copy has the value of what it copies. -/
theorem CopyIn.value (h : CopyIn g layer m c) {pending : List Nat}
    (hLayer : ∀ n ∈ layer, n ∈ g.nodes ∧ n ∉ pending) {τ : Store Nat} (hτ : g.ModelsOff pending τ) :
    τ c = τ m := by
  obtain ⟨a, ha, -, hSeq⟩ := h
  exact DFG.holds_mov.mp (hτ a (hLayer a ha).1 (hLayer a ha).2 _ hSeq)

/-- A copy has the value of its location. -/
theorem Copies.value (h : Copies start done g layer d) {pending : List Nat}
    (hLayer : ∀ n ∈ layer, n ∈ g.nodes ∧ n ∉ pending) {τ : Store Nat} (hτ : g.ModelsOff pending τ)
    (m : Nat) : τ (getOrSelf d m) = τ m := by
  rcases h.getOrSelf_cases m with ⟨-, hSelf⟩ | ⟨-, -, -, hCopy⟩
  · rw [hSelf]
  · exact hCopy.value hLayer hτ

/-- A cell is the copy of one operand only. -/
theorem CopyIn.unique (hg : g.Good) (hLayer : ∀ n ∈ layer, n ∈ g.nodes) {m' : Nat}
    (h : CopyIn g layer m c) (h' : CopyIn g layer m' c) : m = m' := by
  obtain ⟨a, ha, hOut, hSeq⟩ := h
  obtain ⟨b, hb, hOut', hSeq'⟩ := h'
  have hab := hg.output_unique (hLayer a ha) (hLayer b hb) hOut hOut'
  subst hab
  have hEq : mov c (.loc m) = mov c (.loc m') :=
    List.inj_on_of_nodup_map (hg.seq_nodup a (hLayer a ha)) hSeq hSeq' rfl
  cases hEq
  rfl

/-- Different operands have different copies. -/
theorem Copies.inj (h : Copies start done g layer d) (hg : g.Good)
    (hLayer : ∀ n ∈ layer, n ∈ g.nodes) {m m' : Nat} (hm : m < start) (hm' : m' < start)
    (hEq : getOrSelf d m = getOrSelf d m') :
    m = m' := by
  rcases h.getOrSelf_cases m with ⟨-, hSelf⟩ | ⟨-, -, hLow, hCopy⟩ <;>
    rcases h.getOrSelf_cases m' with ⟨-, hSelf'⟩ | ⟨-, -, hLow', hCopy'⟩
  · rwa [hSelf, hSelf'] at hEq
  · omega
  · omega
  · rw [hEq] at hCopy
    exact hCopy.unique hg hLayer hCopy'

/-- Renaming by an injective function keeps the number of different elements. -/
theorem length_dedup_map {f : Nat → Nat} {l : List Nat}
    (h : ∀ x ∈ l, ∀ y ∈ l, f x = f y → x = y) : (l.map f).dedup.length = l.dedup.length := by
  have hImage : (l.map f).toFinset = l.toFinset.image f := by
    ext
    simp
  rw [← List.card_toFinset, ← List.card_toFinset, hImage]
  refine Finset.card_image_of_injOn fun x hx y hy hxy => ?_
  exact h x (by simpa using hx) y (by simpa using hy) hxy

/-- The outputs of the program follow their copies. -/
theorem Copies.renameOutputs (h : Copies start done g layer d) (hg : g.Good)
    (hLayer : ∀ n ∈ layer, n ∈ g.nodes) (hOut : ∀ m ∈ g.progOutputs, m < start) :
    (g.renameOutputs d).Good ∧ DFG.Extends g (g.renameOutputs d) ∧
      (g.renameOutputs d).progOutputs.dedup.length = g.progOutputs.dedup.length := by
  refine ⟨hg.renameOutputs fun m hm => ?_, DFG.extends_renameOutputs fun τ hτ m _ => ?_, ?_⟩
  · rcases h.getOrSelf_cases m with ⟨-, hSelf⟩ | ⟨-, -, -, a, ha, hOut, -⟩
    · rw [hSelf]
      exact hg.progOutputs_from m hm
    · exact Or.inr ⟨a, hLayer a ha, hOut⟩
  · exact h.value (fun n hn => ⟨hLayer n hn, List.not_mem_nil⟩) (hτ.off []) m
  · exact length_dedup_map fun x hx y hy hEq => h.inj hg hLayer (hOut x hx) (hOut y hy) hEq

end Dictionary

-- ---------------------------------------------------------------------------
-- A new layer
-- ---------------------------------------------------------------------------

/-- `st` has a new layer of nodes that copy the operands `done` of `g₁`. -/
structure Gathered (cap : Nat) (g₁ : DFG) (done : List Nat) (st : Copying) : Prop where
  good : st.dfg.Good
  exact : st.dfg.Exact []
  meaning : DFG.Extends g₁ st.dfg
  progOutputs_eq : st.dfg.progOutputs = g₁.progOutputs
  mem_nodes : ∀ n, n ∈ st.dfg.nodes ↔ n ∈ g₁.nodes ∨ n ∈ st.layer
  old : ∀ n ∈ g₁.nodes, st.dfg.mlmi n = g₁.mlmi n
  nodup : st.layer.Nodup
  apart : ∀ n ∈ st.layer, n ∉ g₁.nodes
  reads : ∀ n ∈ st.layer, ∀ m ∈ (st.dfg.mlmi n).inputs, m ∈ done
  gives : ∀ n ∈ st.layer, ∀ c ∈ (st.dfg.mlmi n).outputs, ∃ m ∈ done, st.copies.lookup m = some c
  filled : Filled cap st.dfg st.layer done.length
  copies : Copies g₁.memoryCount done st.dfg st.layer st.copies

namespace Gathered

variable {cap m : Nat} {g₁ : DFG} {done : List Nat} {st : Copying}

theorem start (hg : g₁.Good) (hExact : g₁.Exact []) : Gathered cap g₁ [] ⟨g₁, [], []⟩ where
  good := hg
  exact := hExact
  meaning := .refl g₁
  progOutputs_eq := rfl
  mem_nodes := by simp
  old := fun _ _ => rfl
  nodup := List.nodup_nil
  apart := by simp
  reads := by simp
  gives := by simp
  filled := filled_nil cap g₁
  copies := copies_nil _ _ _

theorem layer_mem (h : Gathered cap g₁ done st) {n : Nat} (hn : n ∈ st.layer) : n ∈ st.dfg.nodes :=
  (h.mem_nodes n).mpr (Or.inr hn)

/-- The node for the next copy. -/
theorem place (h : Gathered cap g₁ done st) (room : Nat → Bool) :
    ∃ node g₂ layer₂, st.dfg.place st.layer (st.layer.getLast?.filter room) = (node, g₂, layer₂) ∧
      Places st.dfg g₂ layer₂ node ∧ node ∈ g₂.nodes := by
  obtain ⟨node, g₂, layer₂, hPlace, hPlaces, -⟩ := place_spec h.good h.exact
    (fun n hn => h.layer_mem hn) fun n (hn : st.layer.getLast?.filter room = some n) => by
      rw [Option.filter_eq_some_iff] at hn
      exact List.mem_of_getLast? hn.1
  exact ⟨node, g₂, layer₂, hPlace, hPlaces, (hPlaces.mem_nodes node).mpr (Or.inr hPlaces.node_mem)⟩

/-- One more copy. -/
theorem step (h : Gathered cap g₁ done st) (hCap : 1 ≤ cap) {room : Nat → Bool}
    (hRoom : ∀ n ∈ st.layer, room n = true ↔ (st.dfg.mlmi n).inputs.length < cap)
    (hNew : m ∉ done) {node : Nat} {g₂ g' : DFG} {layer₂ : List Nat}
    (hPlace : st.dfg.place st.layer (st.layer.getLast?.filter room) = (node, g₂, layer₂))
    (hPlaces : Places st.dfg g₂ layer₂ node) (hCopied : Copied g₂ g' node m) :
    Gathered cap g₁ (done ++ [m]) ⟨g', layer₂, (m, g₂.memoryCount) :: st.copies⟩ := by
  have hLayer : ∀ n ∈ st.layer, n ∈ st.dfg.nodes := fun n hn => h.layer_mem hn
  -- the layer stays, or grows by a node that was not there
  have hGrow : layer₂ = st.layer ∧ node ∈ st.layer ∧ g₂ = st.dfg ∨
      layer₂ = st.layer ++ [st.dfg.fresh] ∧ node = st.dfg.fresh ∧ g₂ = st.dfg.newNode := by
    have hNode := hPlaces.node_mem
    cases hPick : st.layer.getLast?.filter room with
    | none =>
      rw [hPick] at hPlace
      cases hPlace
      exact Or.inr ⟨rfl, rfl, rfl⟩
    | some n =>
      rw [hPick] at hPlace
      cases hPlace
      exact Or.inl ⟨rfl, hNode, rfl⟩
  have hFresh : st.dfg.fresh ∉ st.layer := fun hIn => h.good.fresh_not_mem (hLayer _ hIn)
  have hSub : ∀ n ∈ st.layer, n ∈ layer₂ := by
    intro n hn
    rcases hGrow with ⟨rfl, -, -⟩ | ⟨rfl, -, -⟩
    · exact hn
    · exact List.mem_append_left _ hn
  have hApart : ∀ n ∈ layer₂, n ∉ g₁.nodes := by
    intro n hn hOld
    rcases hGrow with ⟨rfl, -, -⟩ | ⟨rfl, -, -⟩
    · exact h.apart n hn hOld
    · rcases List.mem_append.mp hn with hn | hn
      · exact h.apart n hn hOld
      · rw [List.mem_singleton.mp hn] at hOld
        exact h.good.fresh_not_mem ((h.mem_nodes _).mpr (Or.inl hOld))
  have hNodeApart := hApart node hPlaces.node_mem
  -- what the nodes of the layer held before
  have hHeld : ∀ n ∈ layer₂, (g₂.mlmi n = ⟨[], [], []⟩) ∨ n ∈ st.layer ∧
      g₂.mlmi n = st.dfg.mlmi n := by
    intro n hn
    rcases hGrow with ⟨rfl, -, rfl⟩ | ⟨rfl, -, rfl⟩
    · exact Or.inr ⟨hn, rfl⟩
    · rcases List.mem_append.mp hn with hn | hn
      · exact Or.inr ⟨hn, h.good.newNode_mlmi (hLayer n hn)⟩
      · rw [List.mem_singleton.mp hn]
        exact Or.inl (DFG.newNode_mlmi_fresh _)
  have hMlmi : ∀ n, g'.mlmi n = if n = node then ⟨(g₂.mlmi n).seq ++ [mov g₂.memoryCount (.loc m)],
      (g₂.mlmi n).inputs ++ [m], (g₂.mlmi n).outputs ++ [g₂.memoryCount]⟩ else g₂.mlmi n := by
    intro n
    split
    · next hEq => rw [hEq, hCopied.mlmi_eq]
    · next hne => exact hCopied.work.other n hne
  have hInputs : ∀ n ∈ layer₂, ∀ k ∈ (g₂.mlmi n).inputs, k ∈ done := by
    intro n hn k hk
    rcases hHeld n hn with hEq | ⟨hn, hEq⟩
    · rw [hEq] at hk
      cases hk
    · exact h.reads n hn k (hEq ▸ hk)
  have hOutputs : ∀ n ∈ layer₂, ∀ c ∈ (g₂.mlmi n).outputs,
      ∃ k ∈ done, st.copies.lookup k = some c := by
    intro n hn c hc
    rcases hHeld n hn with hEq | ⟨hn, hEq⟩
    · rw [hEq] at hc
      cases hc
    · exact h.gives n hn c (hEq ▸ hc)
  refine ⟨hCopied.work.good, hCopied.work.exact,
    (h.meaning.trans hPlaces.meaning).trans hCopied.work.meaning, ?progOutputs_eq,
    fun n => ?mem_nodes, fun n hn => ?old, ?nodup, hApart, fun n hn k hk => ?reads,
    fun n hn c hc => ?gives, ?filled, ?copies⟩
  case progOutputs_eq =>
    exact hCopied.work.progOutputs_eq.trans (hPlaces.progOutputs_eq.trans h.progOutputs_eq)
  case mem_nodes =>
    show n ∈ g'.nodes ↔ n ∈ g₁.nodes ∨ n ∈ layer₂
    rw [hCopied.work.nodes_eq, hPlaces.mem_nodes, h.mem_nodes]
    constructor
    · rintro ((hn | hn) | hn)
      · exact Or.inl hn
      · exact Or.inr (hSub n hn)
      · exact Or.inr hn
    · rintro (hn | hn)
      · exact Or.inl (Or.inl hn)
      · exact Or.inr hn
  case old =>
    have hne : n ≠ node := fun hEq => hNodeApart (hEq ▸ hn)
    show g'.mlmi n = _
    rw [hCopied.work.other n hne, hPlaces.old n ((h.mem_nodes n).mpr (Or.inl hn)), h.old n hn]
  case nodup =>
    rcases hGrow with ⟨rfl, -, -⟩ | ⟨rfl, -, -⟩
    · exact h.nodup
    · exact h.nodup.append (List.nodup_singleton _) (by simpa using hFresh)
  -- the node of the copy reads `m` besides what it read
  case reads =>
    change k ∈ (g'.mlmi n).inputs at hk
    rw [hMlmi] at hk
    split at hk
    · rcases List.mem_append.mp hk with hk | hk
      · exact List.mem_append_left _ (hInputs n hn k hk)
      · exact List.mem_append_right _ hk
    · exact List.mem_append_left _ (hInputs n hn k hk)
  -- the new cell is looked up under `m`, the others as before
  case gives =>
    change c ∈ (g'.mlmi n).outputs at hc
    show ∃ k ∈ done ++ [m], List.lookup k ((m, g₂.memoryCount) :: st.copies) = some c
    have hOld : c ∈ (g₂.mlmi n).outputs →
        ∃ k ∈ done ++ [m], List.lookup k ((m, g₂.memoryCount) :: st.copies) = some c := by
      intro hc
      obtain ⟨k, hk, hLook⟩ := hOutputs n hn c hc
      refine ⟨k, List.mem_append_left _ hk, ?_⟩
      have hne : k ≠ m := fun hEq => hNew (hEq ▸ hk)
      rw [lookup_cons_ite, if_neg hne, hLook]
    rw [hMlmi] at hc
    split at hc
    · rcases List.mem_append.mp hc with hc | hc
      · exact hOld hc
      · rw [List.mem_singleton.mp hc]
        exact ⟨m, by simp, by rw [lookup_cons_ite, if_pos rfl]⟩
    · exact hOld hc
  case filled =>
    rw [List.length_append, List.length_singleton]
    exact h.filled.step hCap h.good h.nodup hLayer hRoom hPlace hCopied
  case copies =>
    exact h.copies.step h.meaning.memoryCount_le hLayer hSub hPlaces hCopied

end Gathered

end Obscure
