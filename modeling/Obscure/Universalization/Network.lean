import Obscure.Universalization.Padding
import Obscure.Universalization.Skeleton
import Obscure.Universalization.Wiring

/-!
# OBSCURE — the routing network in the graph

`add_permutation` takes the edges between two layers away, adds the rows of a
routing network as new nodes, and lets the nodes of the second layer read the
wires at its end.

* `applySecretPerm_ok` — one window is one new node that copies the wires;
* `Routing`            — every wire carries the value of the position that the
  check names for it.
-/

namespace Obscure

open Lib Routing

-- ---------------------------------------------------------------------------
-- One window
-- ---------------------------------------------------------------------------

/-- The wires after a window: the outputs of the new node, from cell `start` on. -/
def pushWire (W : Nat → Operand Nat) (w : Nat × Shuffle) (start j : Nat) : Operand Nat :=
  if w.1 ≤ j ∧ j < w.1 + w.2.entries.length then .loc (start + (j - w.1)) else W j

theorem overwrite_tab {n start : Nat} {W : Nat → Operand Nat} {w : Nat × Shuffle}
    (h : w.1 + w.2.entries.length ≤ n) :
    overwrite (tab n W) w.1 ((List.range w.2.entries.length).map fun i => Operand.loc (start + i)) =
      tab n (pushWire W w start) := by
  have hLen : ((List.range w.2.entries.length).map fun i => Operand.loc (start + i)).length =
      w.2.entries.length := by simp
  rw [overwrite, tab_overwrite W (by rw [hLen]; exact h) (.imm 0), hLen]
  refine tab_congr fun j hj => ?_
  rw [pushWire]
  split
  · next hIn =>
    have hLt : j - w.1 < w.2.entries.length := by omega
    rw [List.getD_eq_getElem _ _ (by simpa using hLt)]
    simp
  · rfl

theorem loc?_eq_some {o : Operand Nat} {m : Nat} : o.loc? = some m ↔ o = .loc m := by
  cases o <;> simp [Operand.loc?]

/-- A new node that has its inputs but not its edges. -/
structure Opened (after : List Nat) (g g₁ : DFG) (inputs : List Nat) : Prop where
  good : g₁.Good
  exact : g₁.Exact (g.fresh :: after)
  meaning : DFG.Extends g g₁
  memoryCount_eq : g₁.memoryCount = g.memoryCount
  progOutputs_eq : g₁.progOutputs = g.progOutputs
  mem_nodes : ∀ a, a ∈ g₁.nodes ↔ a = g.fresh ∨ a ∈ g.nodes
  self : g₁.mlmi g.fresh = ⟨[], inputs, []⟩
  old : ∀ a ∈ g.nodes, g₁.mlmi a = g.mlmi a

theorem openNode_ok {after : List Nat} {g : DFG} (hg : g.Good) (hExact : g.Exact after)
    {inputs : List Nat} (hFrom : ∀ m ∈ inputs, ∃ a ∈ g.nodes, m ∈ (g.mlmi a).outputs) :
    Opened after g (g.newNode.edit g.fresh fun x => { x with inputs := inputs }) inputs := by
  have hNode : g.fresh ∈ g.newNode.nodes := DFG.mem_newNode.mpr (Or.inl rfl)
  have hEmpty : g.newNode.mlmi g.fresh = ⟨[], [], []⟩ := DFG.newNode_mlmi_fresh _
  have hEdited : DFG.Edited g.newNode
      (g.newNode.edit g.fresh fun x => { x with inputs := inputs }) g.fresh ⟨[], inputs, []⟩ := by
    refine hg.newNode.edited_of_defs hNode ?_ ?_ List.nodup_nil ?_ (fun m hm => ?_)
      (Scheduled.nil _) fun m hm => ?_
    · simp [DFG.edit, hEmpty]
    · rw [hEmpty]
      rfl
    · rw [hEmpty]
      exact fun m hm => absurd hm List.not_mem_nil
    · exact absurd hm List.not_mem_nil
    · exact hg.newNode_given (Or.inr (hFrom m hm))
  refine ⟨hg.newNode.edited hNode hEdited, ?_, ?_, rfl, rfl, fun a => DFG.mem_newNode,
    hEdited.mlmi_self, fun a ha => ?_⟩
  · refine hEdited.exact_pending (hg.exact_newNode hExact) rfl (by rw [hEmpty]) ?_
    rintro a ⟨m, -, hIn⟩
    rw [hEmpty] at hIn
    cases hIn
  · exact hg.extends_newNode.trans (hEdited.extends_of_seq hNode (by rw [hEmpty]) rfl)
  · rw [hEdited.mlmi_of_ne fun hEq => hg.fresh_not_mem (hEq ▸ ha), hg.newNode_mlmi ha]

/-- What a window adds: the node `st.dfg.fresh`, which copies the wires of the
window in the order of the shuffle. -/
structure Pushed (after : List Nat) (n : Nat) (W : Nat → Operand Nat) (st : Wires)
    (w : Nat × Shuffle) (st' : Wires) : Prop where
  good : st'.dfg.Good
  exact : st'.dfg.Exact after
  meaning : DFG.Extends st.dfg st'.dfg
  progOutputs_eq : st'.dfg.progOutputs = st.dfg.progOutputs
  mem_nodes : ∀ a, a ∈ st'.dfg.nodes ↔ a = st.dfg.fresh ∨ a ∈ st.dfg.nodes
  old : ∀ a ∈ st.dfg.nodes, st'.dfg.mlmi a = st.dfg.mlmi a
  inputs_eq : (st'.dfg.mlmi st.dfg.fresh).inputs =
    (tab w.2.entries.length fun i => W (w.1 + i)).filterMap Operand.loc?
  outputs_eq : (st'.dfg.mlmi st.dfg.fresh).outputs =
    (List.range w.2.entries.length).map (st.dfg.memoryCount + ·)
  seq_length : (st'.dfg.mlmi st.dfg.fresh).seq.length = w.2.entries.length
  copies : ∀ i (h : i < w.2.entries.length),
    mov (st.dfg.memoryCount + i) (W (w.1 + w.2.entries[i])) ∈
    (st'.dfg.mlmi st.dfg.fresh).seq
  wires_eq : st'.inputs = tab n (pushWire W w st.dfg.memoryCount)
  row_eq : st'.row = st.row ++ [st.dfg.fresh]

theorem applySecretPerm_ok {after : List Nat} {n : Nat} {W : Nat → Operand Nat} {C : Nat → Nat}
    {st : Wires} (hg : st.dfg.Good) (hExact : st.dfg.Exact after)
    (hAfter : ∀ a ∈ after, a ∈ st.dfg.nodes) (hWires : st.inputs = tab n W)
    (hCheck : st.inputsChecker = tab n C)
    (hGives : ∀ i < n, ∀ m, W i = .loc m → ∃ a ∈ st.dfg.nodes, m ∈ (st.dfg.mlmi a).outputs)
    {w : Nat × Shuffle} (hFits : w.1 + w.2.entries.length ≤ n) :
    ∃ st', applySecretPerm st w = .ok st' ∧ Pushed after n W st w st' ∧
      st'.inputsChecker = tab n (C ∘ windowWire w) := by
  have hBound : ∀ i ∈ w.2.entries.map (w.1 + ·), i < n := by
    intro i hi
    obtain ⟨k, hk, rfl⟩ := List.mem_map.mp hi
    have := w.2.lt_length k hk
    omega
  have hSrcs : gather (w.2.entries.map (w.1 + ·)) st.inputs =
      .ok ((w.2.entries.map (w.1 + ·)).map W) := by
    rw [hWires]
    exact gather_tab hBound
  have hChecked : gather (w.2.entries.map (w.1 + ·)) st.inputsChecker =
      .ok ((w.2.entries.map (w.1 + ·)).map C) := by
    rw [hCheck]
    exact gather_tab hBound
  have hSlice : (st.inputs.drop w.1).take w.2.entries.length =
      tab w.2.entries.length fun i => W (w.1 + i) := by
    rw [hWires, take_drop_tab W hFits]
  set inputs := (tab w.2.entries.length fun i => W (w.1 + i)).filterMap Operand.loc? with hInputs
  -- the inputs of the new node are outputs of others
  have hFrom : ∀ m ∈ inputs, ∃ a ∈ st.dfg.nodes, m ∈ (st.dfg.mlmi a).outputs := by
    intro m hm
    obtain ⟨src, hsrc, hLoc⟩ := List.mem_filterMap.mp hm
    obtain ⟨i, hi, rfl⟩ := mem_tab.mp hsrc
    exact hGives (w.1 + i) (by omega) m (loc?_eq_some.mp hLoc)
  have hOpened := openNode_ok hg hExact hFrom
  set node := st.dfg.fresh with hNode
  generalize hg₁ : (st.dfg.newNode.edit node fun x => { x with inputs := inputs }) = g₁ at hOpened
  have hNodeMem : node ∈ g₁.nodes := (hOpened.mem_nodes node).mpr (Or.inl rfl)
  have hFresh : node ∉ after := fun hIn => hg.fresh_not_mem (hAfter _ hIn)
  -- the copies
  have hReadable : ∀ src ∈ (w.2.entries.map (w.1 + ·)).map W, g₁.Readable node src := by
    intro src hsrc m hm
    rw [hOpened.self]
    obtain ⟨i, hi, rfl⟩ := List.mem_map.mp hsrc
    obtain ⟨k, hk, rfl⟩ := List.mem_map.mp hi
    exact List.mem_filterMap.mpr ⟨_, mem_tab.mpr ⟨k, w.2.lt_length k hk, rfl⟩, loc?_eq_some.mpr hm⟩
  have hGave := giveOuts_spec hOpened.good hOpened.exact hNodeMem hReadable
  generalize hg₂ : ((w.2.entries.map (w.1 + ·)).map W).foldl (fun g src => g.giveOut node src) g₁ =
    g₂ at hGave
  have hSelf := hGave.mlmi_eq
  rw [hOpened.self, hOpened.memoryCount_eq] at hSelf
  have hOld₂ : ∀ a ∈ st.dfg.nodes, g₂.mlmi a = st.dfg.mlmi a := by
    intro a ha
    have hne : a ≠ node := by
      rintro rfl
      exact hg.fresh_not_mem ha
    rw [hGave.work.other a hne, hOpened.old a ha]
  have hNodes₂ : ∀ a, a ∈ g₂.nodes ↔ a = node ∨ a ∈ st.dfg.nodes := by
    intro a
    rw [hGave.work.nodes_eq, hOpened.mem_nodes]
  have hIn₂ : (g₂.mlmi node).inputs = inputs := by rw [hSelf]
  -- the edges
  obtain ⟨fwd, hLink, hFwd⟩ :=
      hGave.work.good.link_ok node fun m (hm : m ∈ (g₂.mlmi node).inputs) => by
    rw [hIn₂] at hm
    obtain ⟨a, ha, hOut⟩ := hFrom m hm
    exact ⟨a, (hNodes₂ a).mpr (Or.inr ha), (hOld₂ a ha).symm ▸ hOut⟩
  have hEdges : g₂.addEdgesTo node = { g₂ with forwardEdges := fwd } :=
    DFG.foldl_addEdge_of_link hLink
  refine ⟨⟨{ g₂ with forwardEdges := fwd }, tab n (pushWire W w st.dfg.memoryCount),
    tab n (C ∘ windowWire w), st.row ++ [node]⟩, ?runs, ⟨hGave.work.good.of_forward fwd, ?edges,
    ?meaning, ?progOutputs_eq, hNodes₂, hOld₂, hIn₂, ?outputs_eq, ?seq_length, ?copies, rfl, rfl⟩,
    rfl⟩
  case runs =>
    have hRun := runWindow_tab (X := C) hFits
    rw [runWindow, ← hCheck, hChecked] at hRun
    have hOver : overwrite st.inputsChecker w.1 ((w.2.entries.map (w.1 + ·)).map C) =
        tab n (C ∘ windowWire w) := by
      refine Eq.trans ?_ (Except.ok.inj hRun)
      simp [overwrite]
    have hOuts := @overwrite_tab n st.dfg.memoryCount W w hFits
    rw [hWires] at hSrcs hSlice
    unfold applySecretPerm
    simp only [hSrcs, hChecked, ok_bind, hSlice, ← hNode, ← hInputs, hg₁, hg₂, hOver,
      hOpened.memoryCount_eq, hWires, hOuts, hEdges]
    rfl
  case edges =>
    exact DFG.exact_link hGave.work.exact ((hNodes₂ node).mpr (Or.inl rfl)) hFresh hFwd
  case meaning =>
    exact (hOpened.meaning.trans hGave.work.meaning).trans (DFG.extends_of_forward g₂ fwd)
  case progOutputs_eq =>
    exact hGave.work.progOutputs_eq.trans hOpened.progOutputs_eq
  case outputs_eq =>
    show (g₂.mlmi node).outputs = _
    rw [hSelf]
    simp
  case seq_length =>
    show (g₂.mlmi node).seq.length = _
    rw [hSelf]
    simp
  case copies =>
    intro i hi
    show _ ∈ (g₂.mlmi node).seq
    rw [hSelf, List.nil_append]
    refine List.mem_map.mpr ⟨(W (w.1 + w.2.entries[i]), i), ?_, rfl⟩
    rw [List.mk_mem_zipIdx_iff_getElem?]
    simp [hi]

-- ---------------------------------------------------------------------------
-- What the wires carry
-- ---------------------------------------------------------------------------

/-- The network so far, with the new nodes `done`: wire `i` is `W i`, and carries what
was on wire `C i` at the start. -/
structure Routing (cfg : Config) (g₁ : DFG) (before after : List Nat) (n : Nat)
    (I : Nat → Operand Nat) (done : List Nat) (st : Wires) (W : Nat → Operand Nat) (C : Nat → Nat) :
    Prop where
  good : st.dfg.Good
  exact : st.dfg.Exact after
  meaning : DFG.Extends g₁ st.dfg
  progOutputs_eq : st.dfg.progOutputs = g₁.progOutputs
  mem_nodes : ∀ a, a ∈ st.dfg.nodes ↔ a ∈ g₁.nodes ∨ a ∈ done
  old : ∀ a ∈ g₁.nodes, st.dfg.mlmi a = g₁.mlmi a
  nodup : done.Nodup
  apart : ∀ a ∈ done, a ∉ g₁.nodes
  within : ∀ a ∈ done, (st.dfg.mlmi a).Within cfg
  reads : ∀ pre a post, done = pre ++ a :: post → ∀ m ∈ (st.dfg.mlmi a).inputs,
    ∃ b ∈ before ++ pre, m ∈ (st.dfg.mlmi b).outputs
  wires_eq : st.inputs = tab n W
  check_eq : st.inputsChecker = tab n C
  check_lt : ∀ i < n, C i < n
  gives : ∀ i < n, ∀ m, W i = .loc m → ∃ b ∈ before ++ done, m ∈ (st.dfg.mlmi b).outputs
  const : ∀ i < n, ∀ k, W i = .imm k → I (C i) = .imm k
  value : ∀ τ, st.dfg.ModelsOff after τ → ∀ i < n, srcVal τ (some (W i)) = srcVal τ (some (I (C i)))

section Route

variable {cfg : Config} {g₁ : DFG} {before after done : List Nat} {n : Nat}
  {I W : Nat → Operand Nat}
  {C : Nat → Nat} {st st' : Wires} {w : Nat × Shuffle}

/-- The windows of a program that fit the secure element. -/
def FitsElement (cfg : Config) (n : Nat) (w : Nat × Shuffle) : Prop :=
  w.1 + w.2.entries.length ≤ n ∧ w.2.entries.length ≤ cfg.lIn ∧ w.2.entries.length ≤ cfg.lOut ∧
    w.2.entries.length ≤ cfg.s

theorem Routing.node_mem (h : Routing cfg g₁ before after n I done st W C)
    (hBefore : ∀ a ∈ before, a ∈ g₁.nodes) {b : Nat} (hb : b ∈ before ++ done) : b ∈ st.dfg.nodes :=
  (h.mem_nodes b).mpr ((List.mem_append.mp hb).imp_left (hBefore b))

/-- One window. -/
theorem Routing.push (h : Routing cfg g₁ before after n I done st W C)
    (hBefore : ∀ a ∈ before, a ∈ g₁.nodes) (hAfter : ∀ a ∈ after, a ∈ g₁.nodes)
    (hFits : FitsElement cfg n w) (hPush : Pushed after n W st w st')
    (hCheck : st'.inputsChecker = tab n (C ∘ windowWire w)) :
    Routing cfg g₁ before after n I (done ++ [st.dfg.fresh]) st'
      (pushWire W w st.dfg.memoryCount) (C ∘ windowWire w) := by
  have hOld : ∀ b ∈ before ++ done, st'.dfg.mlmi b = st.dfg.mlmi b := fun b hb =>
    hPush.old b (h.node_mem hBefore hb)
  have hFresh : st.dfg.fresh ∉ st.dfg.nodes := h.good.fresh_not_mem
  have hFreshOld : st.dfg.fresh ∉ g₁.nodes := fun hIn => hFresh ((h.mem_nodes _).mpr (Or.inl hIn))
  have hFreshDone : st.dfg.fresh ∉ done := fun hIn => hFresh ((h.mem_nodes _).mpr (Or.inr hIn))
  -- the window reads wires, and each wire comes from a node before it
  have hInputs : ∀ m ∈ (st'.dfg.mlmi st.dfg.fresh).inputs,
      ∃ b ∈ before ++ done, m ∈ (st'.dfg.mlmi b).outputs := by
    intro m hm
    rw [hPush.inputs_eq] at hm
    obtain ⟨src, hsrc, hLoc⟩ := List.mem_filterMap.mp hm
    obtain ⟨i, hi, rfl⟩ := mem_tab.mp hsrc
    have := hFits.1
    obtain ⟨b, hb, hOut⟩ := h.gives (w.1 + i) (by omega) m (loc?_eq_some.mp hLoc)
    exact ⟨b, hb, (hOld b hb).symm ▸ hOut⟩
  refine ⟨hPush.good, hPush.exact, h.meaning.trans hPush.meaning,
    hPush.progOutputs_eq.trans h.progOutputs_eq, fun a => ?mem_nodes, fun a ha => ?old, ?nodup,
    fun a ha hMem => ?apart, fun a ha => ?within, ?reads, hPush.wires_eq, hCheck,
    fun i hi => ?check_lt, fun i hi m hm => ?gives, fun i hi k hk => ?const,
    fun τ hτ i hi => ?value⟩
  case mem_nodes =>
    rw [hPush.mem_nodes, h.mem_nodes, List.mem_append, List.mem_singleton]
    tauto
  case old =>
    rw [hPush.old a ((h.mem_nodes a).mpr (Or.inl ha)), h.old a ha]
  case nodup =>
    exact h.nodup.append (List.nodup_singleton _) (by simpa using hFreshDone)
  case apart =>
    rcases List.mem_append.mp ha with ha | ha
    · exact h.apart a ha hMem
    · exact hFreshOld (List.mem_singleton.mp ha ▸ hMem)
  -- the window fits the element, whatever its wires are
  case within =>
    rcases List.mem_append.mp ha with ha | ha
    · rw [hOld a (List.mem_append_right _ ha)]
      exact h.within a ha
    · rw [List.mem_singleton.mp ha]
      obtain ⟨-, hIn, hOut, hSeq⟩ := hFits
      refine ⟨?_, ?_, ?_⟩
      · rw [hPush.inputs_eq]
        refine le_trans (List.length_filterMap_le _ _) ?_
        rw [length_tab]
        exact hIn
      · rw [hPush.outputs_eq, List.length_map, List.length_range]
        exact hOut
      · rw [hPush.seq_length]
        exact hSeq
  -- the new node is the last one; the nodes before it have not changed
  case reads =>
    intro pre a post hSplit m hm
    rcases List.eq_nil_or_concat' post with rfl | ⟨post', last, rfl⟩
    · obtain ⟨rfl, hEq⟩ := List.append_inj' hSplit rfl
      obtain rfl : st.dfg.fresh = a := by simpa using hEq
      exact hInputs m hm
    · rw [← List.cons_append, ← List.append_assoc] at hSplit
      obtain ⟨hDone, -⟩ := List.append_inj' hSplit rfl
      have haMem : a ∈ before ++ done := by simp [hDone]
      rw [hOld a haMem] at hm
      obtain ⟨b, hb, hOut⟩ := h.reads pre a post' hDone m hm
      have hbMem : b ∈ before ++ done := by
        rw [hDone]
        rcases List.mem_append.mp hb with hb | hb <;> simp [hb]
      exact ⟨b, hb, (hOld b hbMem).symm ▸ hOut⟩
  case check_lt =>
    exact h.check_lt _ (windowWire_lt hFits.1 hi)
  -- a wire inside the window is now an output of the new node
  case gives =>
    unfold pushWire at hm
    split at hm
    · next hIn =>
      cases hm
      refine ⟨st.dfg.fresh, by simp, ?_⟩
      rw [hPush.outputs_eq]
      exact List.mem_map.mpr ⟨i - w.1, by rw [List.mem_range]; omega, rfl⟩
    · obtain ⟨b, hb, hOut⟩ := h.gives i hi m hm
      refine ⟨b, ?_, (hOld b hb).symm ▸ hOut⟩
      rcases List.mem_append.mp hb with hb | hb <;> simp [hb]
  case const =>
    unfold pushWire at hk
    split at hk
    · cases hk
    · next hNot =>
      rw [Function.comp_apply, windowWire, if_neg hNot]
      exact h.const i hi k hk
  case value =>
    -- the copy of the window has the value of the wire it copies
    have hτOld : st.dfg.ModelsOff after τ := by
      intro a ha hNot i hi
      exact hτ a ((hPush.mem_nodes a).mpr (Or.inr ha)) hNot i ((hPush.old a ha).symm ▸ hi)
    rw [Function.comp_apply, ← h.value τ hτOld _ (windowWire_lt hFits.1 hi), pushWire, windowWire]
    split
    · next hIn =>
      have hLt : i - w.1 < w.2.entries.length := by omega
      have hNot : st.dfg.fresh ∉ after := fun hMem => hFreshOld (hAfter _ hMem)
      have hHolds := hτ st.dfg.fresh ((hPush.mem_nodes _).mpr (Or.inl rfl)) hNot _
        (hPush.copies (i - w.1) hLt)
      rw [List.getD_eq_getElem _ _ hLt]
      exact DFG.holds_mov.mp hHolds
    · rfl

/-- A public row moves the wires. -/
theorem Routing.permute (h : Routing cfg g₁ before after n I done st W C) {p : Nat → Nat}
    (hp : ∀ i < n, p i < n) (hDfg : st'.dfg = st.dfg) (hWires : st'.inputs = tab n (W ∘ p))
    (hCheck : st'.inputsChecker = tab n (C ∘ p)) :
    Routing cfg g₁ before after n I done st' (W ∘ p) (C ∘ p) := by
  refine ⟨hDfg ▸ h.good, hDfg ▸ h.exact, hDfg ▸ h.meaning, hDfg ▸ h.progOutputs_eq,
    hDfg ▸ h.mem_nodes, hDfg ▸ h.old, h.nodup, h.apart, hDfg ▸ h.within, hDfg ▸ h.reads, hWires,
    hCheck, fun i hi => h.check_lt _ (hp i hi), ?_, fun i hi => h.const _ (hp i hi), ?_⟩
  · rw [hDfg]
    exact fun i hi => h.gives _ (hp i hi)
  · rw [hDfg]
    exact fun τ hτ i hi => h.value τ hτ _ (hp i hi)

end Route

-- ---------------------------------------------------------------------------
-- The skeleton of the rows
-- ---------------------------------------------------------------------------

/-- Where a wire comes from. -/
def Carries (g : DFG) (rows : List (List Nat)) : Operand Nat → Option Src → Prop
  | .loc m, some s => Locates g rows m s
  | .imm _, none => True
  | _, _ => False

/-- The skeletons of the rows, of the row in work and of the wires. -/
structure Sketch (g : DFG) (rows : List (List Nat)) (row : List Nat) (n : Nat)
    (W : Nat → Operand Nat) (sk : List (List NodeSkeleton)) (skRow : List NodeSkeleton)
    (S : Nat → Option Src) : Prop where
  drawn : Drawn g (rows ++ [row]) rows sk
  current : List.Forall₂ (Draws g (rows ++ [row])) row skRow
  wires : ∀ i < n, Carries g (rows ++ [row]) (W i) (S i)

section Sketches

variable {g : DFG} {rows : List (List Nat)} {row : List Nat} {n : Nat} {W : Nat → Operand Nat}
  {sk : List (List NodeSkeleton)} {skRow : List NodeSkeleton} {S : Nat → Option Src}

theorem Carries.mono {g' : DFG} {rows rows' : List (List Nat)} {o : Operand Nat} {s : Option Src}
    (h : Carries g rows o s) (hAt : ∀ r k n, nodeAt rows r k = some n → nodeAt rows' r k = some n)
    (hOut : ∀ n ∈ rows.flatten, (g'.mlmi n).outputs = (g.mlmi n).outputs) :
    Carries g' rows' o s := by
  cases o with
  | loc m =>
    cases s with
    | none => exact h
    | some s => exact Locates.mono h hAt hOut
  | imm k =>
    cases s with
    | none => trivial
    | some s => exact h

/-- The inputs of a routing node are the wires that are no constants. -/
theorem forall₂_shows {l : List (Operand Nat)} {s : List (Option Src)}
    (h : List.Forall₂ (Carries g rows) l s) :
    List.Forall₂ (Shows g rows) (l.filterMap Operand.loc?) (s.filter Option.isSome) := by
  induction h with
  | nil => exact .nil
  | @cons o s l ss hos _ ih =>
    cases o with
    | loc m =>
      cases s with
      | none => exact absurd hos id
      | some s => exact .cons hos ih
    | imm k =>
      cases s with
      | none => exact ih
      | some s => exact absurd hos id

/-- The source of a wire after a window. -/
def pushSource (S : Nat → Option Src) (off len r k j : Nat) : Option Src :=
  if off ≤ j ∧ j < off + len then some (r, k, j - off) else S j

theorem windowSkeleton_tab {r off len : Nat} (hFits : off + len ≤ n) :
    windowSkeleton r (tab n S, skRow) (off, len) = (tab n (pushSource S off len r skRow.length),
      skRow ++ [⟨(tab len fun i => S (off + i)).filter Option.isSome, len⟩]) := by
  have hLen : ((List.range len).map fun i => some (r, skRow.length, i)).length = len := by simp
  unfold windowSkeleton overwrite
  rw [tab_overwrite S (by rw [hLen]; exact hFits) none, hLen, take_drop_tab S hFits]
  congr 1
  refine tab_congr fun j hj => ?_
  rw [pushSource]
  split
  · next hIn =>
    have hLt : j - off < len := by omega
    rw [List.getD_eq_getElem _ _ (by simpa using hLt)]
    simp
  · rfl

/-- One window. -/
theorem Sketch.push {after : List Nat} {st st' : Wires} {w : Nat × Shuffle}
    (h : Sketch st.dfg rows st.row n W sk skRow S) (hPush : Pushed after n W st w st')
    (hMem : ∀ a ∈ (rows ++ [st.row]).flatten, a ∈ st.dfg.nodes)
    (hFits : w.1 + w.2.entries.length ≤ n) :
    Sketch st'.dfg rows st'.row n (pushWire W w st.dfg.memoryCount) sk
      (skRow ++ [⟨(tab w.2.entries.length fun i => S (w.1 + i)).filter Option.isSome,
        w.2.entries.length⟩]) (pushSource S w.1 w.2.entries.length rows.length skRow.length) := by
  -- the new node goes to the end of the row, so the others keep their places
  have hAt : ∀ r k a, nodeAt (rows ++ [st.row]) r k = some a →
      nodeAt (rows ++ [st'.row]) r k = some a := by
    intro r k a ha
    rw [hPush.row_eq]
    exact nodeAt_concat ha
  have hSame : ∀ a ∈ (rows ++ [st.row]).flatten, st'.dfg.mlmi a = st.dfg.mlmi a := fun a ha =>
    hPush.old a (hMem a ha)
  have hOut : ∀ a ∈ (rows ++ [st.row]).flatten, (st'.dfg.mlmi a).outputs =
      (st.dfg.mlmi a).outputs :=
    fun a ha => by rw [hSame a ha]
  have hProg := hPush.meaning.progInputs_eq
  have hLen : st.row.length = skRow.length := h.current.length_eq
  refine ⟨h.drawn.mono hAt hOut hProg fun a ha => hSame a (by simp [List.flatten_append, ha]), ?_,
    fun i hi => ?_⟩
  · have hCurrent : Drawn st.dfg (rows ++ [st.row]) [st.row] [skRow] := .cons h.current .nil
    have hOld := hCurrent.mono hAt hOut hProg fun a ha =>
      hSame a (by simpa [List.flatten_append] using Or.inr ha)
    rw [hPush.row_eq] at hOld ⊢
    refine List.rel_append (List.forall₂_cons.mp hOld).1 (.cons ⟨?_, ?_⟩ .nil)
    · rw [hPush.inputs_eq]
      refine forall₂_shows (forall₂_tab fun i hi => ?_)
      have hCarry := h.wires (w.1 + i) (by omega)
      rw [← hPush.row_eq]
      exact hCarry.mono hAt hOut
    · rw [hPush.outputs_eq]
      simp
  · unfold pushWire pushSource
    -- a wire of the window now comes from the new node, in the place its offset gives
    split
    · next hIn =>
      refine ⟨st.dfg.fresh, ?_, ?_⟩
      · rw [hPush.row_eq]
        refine nodeAt_last rows ?_
        rw [← hLen, List.getElem?_concat_length]
      · show (st'.dfg.mlmi st.dfg.fresh).outputs[i - w.1]? = _
        have hLt : i - w.1 < w.2.entries.length := by omega
        rw [hPush.outputs_eq]
        simp [hLt]
    · exact (h.wires i hi).mono hAt hOut

end Sketches

-- ---------------------------------------------------------------------------
-- The rows
-- ---------------------------------------------------------------------------

/-- The network has come through rows of some shapes: its new rows carry the wires
where `C` says, and look as the shapes tell. -/
structure Routed (cfg : Config) (g₁ : DFG) (before after : List Nat) (rows : List (List Nat))
    (n : Nat) (I : Nat → Operand Nat) (start : List (Option Src) × List (List NodeSkeleton))
    (shapes : List RowShape) (st : Wires × List (List Nat)) (W : Nat → Operand Nat) (C : Nat → Nat)
    (S : Nat → Option Src) (sk : List (List NodeSkeleton)) : Prop where
  routing : Routing cfg g₁ before after n I st.2.flatten st.1 W C
  sketch : Sketch st.1.dfg (rows ++ st.2) [] n W sk [] S
  skeleton : shapes.foldl rowSkeleton start = (tab n S, sk)

/-- The row stays within the wires, and its windows within the secure element. -/
def Row.FitsElement (cfg : Config) (n : Nat) : Row → Prop
  | .publicShuffle p => p.entries.length = n
  | .secretShuffles windows => ∀ w ∈ windows, Obscure.FitsElement cfg n w

section Rows

variable {cfg : Config} {g₁ : DFG} {before after : List Nat} {rows : List (List Nat)} {n : Nat}
  {I W : Nat → Operand Nat} {C : Nat → Nat} {start : List (Option Src) × List (List NodeSkeleton)}
  {shapes : List RowShape} {st : Wires × List (List Nat)} {S : Nat → Option Src}
  {sk : List (List NodeSkeleton)}

/-- The windows of one row. -/
theorem foldlM_applySecretPerm (hBefore : ∀ a ∈ before, a ∈ g₁.nodes)
    (hAfter : ∀ a ∈ after, a ∈ g₁.nodes) (hRows : ∀ a ∈ rows.flatten, a ∈ g₁.nodes)
    (h : Routed cfg g₁ before after rows n I start shapes st W C S sk)
    {windows : List (Nat × Shuffle)} (hFits : ∀ w ∈ windows, FitsElement cfg n w) :
    ∃ wires, windows.foldlM applySecretPerm { st.1 with row := [] } = .ok wires ∧
      ∃ W C S skRow, Routing cfg g₁ before after n I (st.2.flatten ++ wires.row) wires W C ∧
        Sketch wires.dfg (rows ++ st.2) wires.row n W sk skRow S ∧
        (windows.map fun w => (w.1, w.2.entries.length)).foldl (windowSkeleton sk.length)
          ((shapes.foldl rowSkeleton start).1, []) = (tab n S, skRow) := by
  have hSkLen : (rows ++ st.2).length = sk.length := h.sketch.drawn.length_eq
  refine exists_foldlM_ok (P := fun (done : List (Nat × Shuffle)) wires => ∃ W C S skRow,
    Routing cfg g₁ before after n I (st.2.flatten ++ wires.row) wires W C ∧
    Sketch wires.dfg (rows ++ st.2) wires.row n W sk skRow S ∧
    (done.map fun w => (w.1, w.2.entries.length)).foldl (windowSkeleton sk.length)
      ((shapes.foldl rowSkeleton start).1, []) = (tab n S, skRow))
    (fun done w rest hSplit wires hw => ?_) ?_
  · obtain ⟨W, C, S, skRow, hRouting, hSketch, hSkel⟩ := hw
    have hw := hFits w (by simp [hSplit])
    obtain ⟨wires', hOne, hPush, hCheck⟩ := applySecretPerm_ok hRouting.good hRouting.exact
      (fun a ha => (hRouting.mem_nodes a).mpr (Or.inl (hAfter a ha))) hRouting.wires_eq
      hRouting.check_eq (fun i hi m hm => by
        obtain ⟨b, hb, hOut⟩ := hRouting.gives i hi m hm
        exact ⟨b, hRouting.node_mem hBefore hb, hOut⟩) hw.1
    have hMem : ∀ a ∈ (rows ++ st.2 ++ [wires.row]).flatten, a ∈ wires.dfg.nodes := by
      intro a ha
      rw [hRouting.mem_nodes]
      rw [List.append_assoc, List.flatten_append, List.mem_append] at ha
      exact ha.imp (hRows a) fun ha => by simpa [List.flatten_append] using ha
    refine ⟨wires', hOne, _, C ∘ windowWire w, _, _, ?_, hSketch.push hPush hMem hw.1, ?_⟩
    · rw [hPush.row_eq, ← List.append_assoc]
      exact hRouting.push hBefore hAfter hw hPush hCheck
    · rw [List.map_append, List.foldl_append, hSkel, hSkLen]
      exact windowSkeleton_tab hw.1
  · refine ⟨W, C, S, [], ?_, h.sketch, ?_⟩
    · have hRouting := h.routing
      rw [← List.append_nil st.2.flatten] at hRouting
      exact ⟨hRouting.good, hRouting.exact, hRouting.meaning, hRouting.progOutputs_eq,
        hRouting.mem_nodes, hRouting.old, hRouting.nodup, hRouting.apart, hRouting.within,
        hRouting.reads, hRouting.wires_eq, hRouting.check_eq, hRouting.check_lt, hRouting.gives,
        hRouting.const, hRouting.value⟩
    · rw [h.skeleton]
      rfl

/-- One row. -/
theorem routeRow_ok (hBefore : ∀ a ∈ before, a ∈ g₁.nodes) (hAfter : ∀ a ∈ after, a ∈ g₁.nodes)
    (hRows : ∀ a ∈ rows.flatten, a ∈ g₁.nodes)
    (h : Routed cfg g₁ before after rows n I start shapes st W C S sk) {row : Row}
    (hFits : Row.FitsElement cfg n row) :
    ∃ st', routeRow st row = .ok st' ∧ ∃ W C S sk,
      Routed cfg g₁ before after rows n I start (shapes ++ [row.shape]) st' W C S sk := by
  cases row with
  | publicShuffle p =>
    have hLen : p.entries.length = n := hFits
    have hLt : ∀ i ∈ p.entries, i < n := fun i hi => hLen ▸ p.lt_length i hi
    -- a public row moves the wires and makes no node
    have hRun : ∀ {α : Type} (X : Nat → α), gather p.entries (tab n X) =
        .ok (tab n (X ∘ Row.wire (.publicShuffle p))) := fun X =>
      Row.run_tab (show Row.Fits n (.publicShuffle p) from hLen)
    have hWire : ∀ i < n, Row.wire (.publicShuffle p) i < n := fun i hi =>
      Row.wire_lt (show Row.Fits n (.publicShuffle p) from hLen) hi
    refine ⟨(⟨st.1.dfg, tab n (W ∘ Row.wire (.publicShuffle p)),
      tab n (C ∘ Row.wire (.publicShuffle p)), st.1.row⟩, st.2), ?_, _, _,
      S ∘ Row.wire (.publicShuffle p), sk, h.routing.permute hWire rfl rfl rfl,
      ⟨h.sketch.drawn, .nil, fun i hi => h.sketch.wires _ (hWire i hi)⟩, ?_⟩
    · show (gather p.entries st.1.inputs >>= _) = _
      rw [h.routing.wires_eq, hRun, ok_bind, h.routing.check_eq, hRun]
      rfl
    · rw [List.foldl_append, h.skeleton]
      show (p.entries.map fun i => (tab n S).getD i none, sk) = _
      refine Prod.ext ?_ rfl
      refine List.ext_getElem (by simp [hLen]) fun i h₁ h₂ => ?_
      have hi : i < p.entries.length := by simpa using h₁
      rw [List.getElem_map, getElem_tab, getD_tab (hLt _ (List.getElem_mem hi)),
        Function.comp_apply, Row.wire, List.getD_eq_getElem _ _ hi]
  | secretShuffles windows =>
    obtain ⟨wires, hFold, W', C', S', skRow, hRouting, hSketch, hSkel⟩ :=
      foldlM_applySecretPerm hBefore hAfter hRows h hFits
    -- the nodes of a finished row keep their places when the next one is opened
    have hNil : ∀ r k a, nodeAt (rows ++ st.2 ++ [wires.row]) r k = some a →
        nodeAt (rows ++ (st.2 ++ [wires.row]) ++ [[]]) r k = some a := by
      intro r k a ha
      rw [← List.append_assoc]
      exact nodeAt_append ha
    refine ⟨(wires, st.2 ++ [wires.row]), bind_eq_ok.mpr ⟨wires, hFold, rfl⟩, W', C', S',
      sk ++ [skRow], ?_, ⟨?_, .nil, fun i hi => (hSketch.wires i hi).mono hNil fun _ _ => rfl⟩, ?_⟩
    · simpa [List.flatten_append] using hRouting
    · have hDrawn : Drawn wires.dfg (rows ++ st.2 ++ [wires.row]) (rows ++ st.2 ++ [wires.row])
          (sk ++ [skRow]) := List.rel_append hSketch.drawn (.cons hSketch.current .nil)
      rw [← List.append_assoc]
      refine hDrawn.mono ?_ (fun _ _ => rfl) rfl fun _ _ => rfl
      intro r k a ha
      exact nodeAt_append ha
    · rw [List.foldl_append]
      show rowSkeleton (shapes.foldl rowSkeleton start) (.secretShuffles _) = _
      rw [h.skeleton] at hSkel ⊢
      show (_, _) = _
      rw [hSkel]

/-- The whole program. -/
theorem routeProgram_ok (hBefore : ∀ a ∈ before, a ∈ g₁.nodes) (hAfter : ∀ a ∈ after, a ∈ g₁.nodes)
    (hRows : ∀ a ∈ rows.flatten, a ∈ g₁.nodes)
    (h : Routed cfg g₁ before after rows n I start [] st W C S sk) {program : List Row}
    (hFits : ∀ row ∈ program, Row.FitsElement cfg n row) :
    ∃ st', program.foldlM routeRow st = .ok st' ∧ ∃ W C S sk,
      Routed cfg g₁ before after rows n I start (program.map Row.shape) st' W C S sk := by
  refine exists_foldlM_ok (P := fun (done : List Row) st' => ∃ W C S sk,
    Routed cfg g₁ before after rows n I start (done.map Row.shape) st' W C S sk)
    (fun done row rest hSplit st' hst => ?_) ⟨W, C, S, sk, h⟩
  obtain ⟨W, C, S, sk, hst⟩ := hst
  rw [List.map_append]
  exact routeRow_ok hBefore hAfter hRows hst (hFits row (by simp [hSplit]))

end Rows

end Obscure
