import Obscure.Universalization.Universalizer

/-!
# OBSCURE — the integrity check of the graph

`check_dfg_integrity` looks at the edges of a node while it goes through the inputs of
the node, and skips program inputs before it does so. The edges that leave a node
which reads program inputs only are never looked at.

* `DFG.Integral`           — what the check is for;
* `checkDfgIntegrity_iff`  — what it finds out;
* `checkDfgIntegrity_exact_iff` — the two agree unless all faulty edges leave nodes that
  are skipped.
-/

namespace Obscure

namespace DFG

/-- The operands that `n` reads, apart from program inputs, are in `backward_edges`, with a
forward edge from the node that defines them. -/
def Linked (g : DFG) (n : Nat) : Prop :=
  ∀ m ∈ (g.mlmi n).inputs, m ∉ g.progInputs → ∃ d, g.backwardEdges m = some d ∧ n ∈ g.forwardEdges d

/-- A forward edge to a node that reads no output of `n` leaves `n`. -/
def Stale (g : DFG) (n : Nat) : Prop :=
  ∃ next ∈ g.forwardEdges n, ∀ m ∈ (g.mlmi n).outputs, m ∉ (g.mlmi next).inputs

/-- The edges of the graph are consistent. -/
structure Integral (g : DFG) : Prop where
  linked : ∀ n ∈ g.nodes, g.Linked n
  used : ∀ n ∈ g.nodes, ¬ g.Stale n

/-- The inner loop of the check does nothing for these nodes. -/
def Skipped (g : DFG) (n : Nat) : Prop := ∀ m ∈ (g.mlmi n).inputs, m ∈ g.progInputs

section Check

variable {g : DFG}

/-- What the check finds out. -/
theorem checkDfgIntegrity_iff : g.checkDfgIntegrity = .ok () ↔
    ∀ n ∈ g.nodes, g.Linked n ∧ (¬ g.Skipped n → ¬ g.Stale n) := by
  have hIf : g.checkDfgIntegrity = .ok () ↔ ∀ n ∈ g.nodes, ∀ m ∈ (g.mlmi n).inputs,
      m ∈ g.progInputs ∨
      (∃ d, g.backwardEdges m = some d ∧ n ∈ g.forwardEdges d) ∧ ¬ g.Stale n := by
    unfold checkDfgIntegrity
    split
    · next h =>
      refine iff_of_true rfl fun n hn m hm => ?_
      simp only [List.all_eq_true, Bool.or_eq_true, Bool.and_eq_true, decide_eq_true_eq,
        List.any_eq_true] at h
      refine (h n hn m hm).imp_right ?_
      rintro ⟨hBack, hUsed⟩
      refine ⟨?_, ?_⟩
      · cases hDef : g.backwardEdges m with
        | none => simp [hDef] at hBack
        | some d => exact ⟨d, rfl, by simpa [hDef] using hBack⟩
      · rintro ⟨next, hNext, hNone⟩
        obtain ⟨o, ho, hoIn⟩ := hUsed next hNext
        exact hNone o ho hoIn
    · next h =>
      refine iff_of_false (by simp) fun hAll => h ?_
      simp only [List.all_eq_true, Bool.or_eq_true, Bool.and_eq_true, decide_eq_true_eq,
        List.any_eq_true]
      intro n hn m hm
      refine (hAll n hn m hm).imp_right ?_
      rintro ⟨⟨d, hDef, hFwd⟩, hUsed⟩
      refine ⟨by simp [hDef, hFwd], fun next hNext => ?_⟩
      by_contra hNone
      exact hUsed ⟨next, hNext, fun o ho hoIn => hNone ⟨o, ho, hoIn⟩⟩
  rw [hIf]
  refine forall₂_congr fun n _ => ?_
  constructor
  · intro h
    refine ⟨fun m hm hNot => ((h m hm).resolve_left hNot).1, fun hRead => ?_⟩
    -- some input is not a program input, and for it the edges are looked at
    obtain ⟨m, hm, hNot⟩ : ∃ m ∈ (g.mlmi n).inputs, m ∉ g.progInputs := by
      simpa only [Skipped, not_forall, exists_prop] using hRead
    exact ((h m hm).resolve_left hNot).2
  · rintro ⟨hLinked, hUsed⟩ m hm
    by_cases hIn : m ∈ g.progInputs
    · exact Or.inl hIn
    · exact Or.inr ⟨hLinked m hm hIn, hUsed fun hSkip => hIn (hSkip m hm)⟩

/-- **When the check is exact.** It is, unless there are faulty edges, all of them leave nodes
that read program inputs only, and no operand lacks its edges. -/
theorem checkDfgIntegrity_exact_iff : (g.checkDfgIntegrity = .ok () ↔ g.Integral) ↔
    ((∃ n ∈ g.nodes, g.Stale n) →
      (∃ n ∈ g.nodes, ¬ g.Linked n) ∨ ∃ n ∈ g.nodes, g.Stale n ∧ ¬ g.Skipped n) := by
  rw [checkDfgIntegrity_iff]
  constructor
  · rintro hExact ⟨n, hn, hStale⟩
    by_contra hNone
    rw [not_or] at hNone
    have hPassed : ∀ a ∈ g.nodes, g.Linked a ∧ (¬ g.Skipped a → ¬ g.Stale a) := by
      intro a ha
      refine ⟨?_, fun hRead hStale => hNone.2 ⟨a, ha, hStale, hRead⟩⟩
      by_contra hLinked
      exact hNone.1 ⟨a, ha, hLinked⟩
    exact (hExact.mp hPassed).used n hn hStale
  · intro hFound
    refine ⟨fun hPassed => ⟨fun n hn => (hPassed n hn).1, fun n hn hStale => ?_⟩, fun hInt n hn =>
      ⟨hInt.linked n hn, fun _ => hInt.used n hn⟩⟩
    rcases hFound ⟨n, hn, hStale⟩ with ⟨a, ha, hNot⟩ | ⟨a, ha, hStale', hRead⟩
    · exact hNot (hPassed a ha).1
    · exact (hPassed a ha).2 hRead hStale'

end Check

/-- Two nodes that read the program input, with an edge from one to the other. -/
def staleGraph : DFG where
  nodes := [0, 1]
  mlmi := fun n =>
    if n = 0 then ⟨[{ opcode := .MOV, dst := 1, src1 := some (.loc 0) }], [0], [1]⟩
    else ⟨[{ opcode := .MOV, dst := 2, src1 := some (.loc 0) }], [0], [2]⟩
  fresh := 2
  backwardEdges := fun m => if m = 1 then some 0 else if m = 2 then some 1 else none
  forwardEdges := fun n => if n = 0 then [1] else []
  progInputs := [0]
  progOutputs := [1, 2]
  memoryCount := 3

/-- The edge is not found. -/
theorem staleGraph_accepted : ¬ (staleGraph.checkDfgIntegrity = .ok () ↔ staleGraph.Integral) := by
  intro hExact
  have hInt : staleGraph.Integral := hExact.mp (by decide)
  exact hInt.used 0 (by decide) ⟨1, by decide, by decide⟩

end DFG

end Obscure
