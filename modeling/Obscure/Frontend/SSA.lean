import Obscure.IR
import Obscure.Lib.Lists

/-!
# OBSCURE — conversion to SSA

`to_SSA` of `compiler/src/frontend/frontend.py`. A destination that has already
been written, or that is an input, is replaced by a fresh cell; `env` maps an
original cell to the cell that holds its current value. Fresh cells are numbered
from `first_avail_mem`, which the source computes from the destinations alone:
the inputs live in the same address space and are not looked at.

* `toSSA_correct_iff` — the converted program is in SSA, leaves the inputs alone,
  stays below its `memory_count` and computes the same outputs exactly when the
  destinations reach up to the last input.
-/

namespace Obscure

open Lib

/-- The local variables of `to_SSA`. -/
structure SSAState where
  env : List (Nat × Nat)
  written : List Nat
  firstAvail : Nat

/-- Where the current value of an original cell is. -/
def SSAState.cur (st : SSAState) (m : Nat) : Nat := (st.env.lookup m).getD m

/-- The first loop: one past the largest destination. -/
def firstAvailMem (instrs : List HLI) : Nat :=
  instrs.foldl (fun n i => max n (i.dst + 1)) 0

/-- One round of the main loop. -/
def ssaStep (st : SSAState) (i : HLI) : HLI × SSAState :=
  if i.dst ∈ st.written then
    (i.rename st.cur fun _ => st.firstAvail,
      { env := (i.dst, st.firstAvail) :: st.env
        written := st.firstAvail :: st.written
        firstAvail := st.firstAvail + 1 })
  else
    (i.rename st.cur id, { st with written := i.dst :: st.written })

/-- The main loop. -/
def ssaInstrs : List HLI → SSAState → List HLI × SSAState
  | [], st => ([], st)
  | i :: rest, st =>
    let (i', st₁) := ssaStep st i
    let (rest', st₂) := ssaInstrs rest st₁
    (i' :: rest', st₂)

/-- `to_SSA`. -/
def toSSA (ir : HLIRProgram) : HLIRProgram :=
  let st₀ : SSAState :=
    { env := [], written := ir.inputs, firstAvail := firstAvailMem ir.instrs }
  let (instrs, st) := ssaInstrs ir.instrs st₀
  { instrs := instrs
    inputs := ir.inputs
    outputs := ir.outputs.map st.cur
    memoryCount := st.firstAvail }

/-! ## What the frontend hands over and what it expects back -/

/-- The programs `AST_to_IR` produces: the parameters are the first cells, and
every other cell is written before it is read or returned. -/
structure HLIRProgram.FromAST (ir : HLIRProgram) : Prop where
  inputs_eq : ir.inputs = List.range ir.inputs.length
  read_written : ∀ pre i post, ir.instrs = pre ++ i :: post →
    ∀ m ∈ i.memInputs, m ∈ ir.inputs ∨ m ∈ defs pre
  output_written : ∀ o ∈ ir.outputs, o ∈ ir.inputs ∨ o ∈ defs ir.instrs

/-- Every cell a program mentions. -/
def HLIRProgram.cells (ir : HLIRProgram) : List Nat :=
  ir.inputs ++ ir.outputs ++ defs ir.instrs ++ reads ir.instrs

/-- `ir'` is an SSA form of `ir`. -/
structure SSACorrect (ir ir' : HLIRProgram) : Prop where
  written_once : (defs ir'.instrs).Nodup
  inputs_kept : ∀ m ∈ ir'.inputs, m ∉ defs ir'.instrs
  below_count : ∀ m ∈ ir'.cells, m < ir'.memoryCount
  same_inputs : ir'.inputs = ir.inputs
  same_outputs : ∀ σ τ : Store Nat, (∀ m ∈ ir.inputs, σ m = τ m) → ir'.eval τ = ir.eval σ

/-! ## Numbering -/

/-- The first unused cell is behind all destinations so far. -/
theorem le_firstAvailMem_foldl (instrs : List HLI) (n : Nat) :
    n ≤ instrs.foldl (fun n i => max n (i.dst + 1)) n := by
  induction instrs generalizing n with
  | nil => exact le_rfl
  | cons i rest ih => exact le_trans (le_max_left n (i.dst + 1)) (ih _)

/-- Every destination lies below the first fresh cell. -/
theorem dst_lt_firstAvailMem {instrs : List HLI} {i : HLI} (hi : i ∈ instrs) :
    i.dst < firstAvailMem instrs := by
  have hGen : ∀ (l : List HLI) (n : Nat), i ∈ l →
      i.dst + 1 ≤ l.foldl (fun n i => max n (i.dst + 1)) n := by
    intro l
    induction l with
    | nil => intro n h; simp at h
    | cons j rest ih =>
      intro n h
      rcases List.mem_cons.mp h with rfl | h
      · exact le_trans (le_max_right n (i.dst + 1)) (le_firstAvailMem_foldl rest _)
      · exact ih _ h
  exact hGen instrs 0 hi

/-- Nothing forces the first fresh cell further up than the destinations do. -/
theorem firstAvailMem_le {instrs : List HLI} {b : Nat} (h : ∀ i ∈ instrs, i.dst + 1 ≤ b) :
    firstAvailMem instrs ≤ b := by
  have hGen : ∀ (l : List HLI) (n : Nat), n ≤ b → (∀ i ∈ l, i.dst + 1 ≤ b) →
      l.foldl (fun n i => max n (i.dst + 1)) n ≤ b := by
    intro l
    induction l with
    | nil => intro n hn _; exact hn
    | cons j rest ih =>
      intro n hn hl
      exact ih _ (max_le hn (hl j List.mem_cons_self))
        fun i hi => hl i (List.mem_cons_of_mem _ hi)
  exact hGen instrs 0 (Nat.zero_le b) h

/-! ## The invariant of the main loop -/

/-- After the original instructions `done`: what is written lies below the next
fresh cell, originals below `base`, replacements between the two, and distinct
available cells have their values in distinct places. -/
structure SSAInv (inputs : List Nat) (base : Nat) (done : List HLI) (st : SSAState) : Prop where
  base_le : base ≤ st.firstAvail
  written_lt : ∀ m ∈ st.written, m < st.firstAvail
  env_written : ∀ m c, st.env.lookup m = some c → m ∈ st.written ∧ base ≤ c ∧ c < st.firstAvail
  written_of_avail : ∀ m, m ∈ inputs ∨ m ∈ defs done → m ∈ st.written
  cur_inj : ∀ m m', m ∈ inputs ∨ m ∈ defs done → m' ∈ inputs ∨ m' ∈ defs done →
    st.cur m = st.cur m' → m = m'
  cur_written : ∀ m, m ∈ inputs ∨ m ∈ defs done → st.cur m ∈ st.written

/-- A replaced destination: the current place of `d` is the fresh cell. -/
theorem cur_replace {st : SSAState} {d c m : Nat} {w : List Nat} {n : Nat} :
    SSAState.cur { env := (d, c) :: st.env, written := w, firstAvail := n } m =
      if m = d then c else st.cur m := by
  unfold SSAState.cur
  rw [lookup_cons_ite]
  split <;> simp

/-- What one round does, without looking at which branch it took. -/
theorem ssaStep_spec {inputs : List Nat} {base : Nat} {done : List HLI} {st : SSAState} {i : HLI}
    (hInv : SSAInv inputs base done st) (hDst : i.dst < base) :
    ∃ d, (ssaStep st i).1 = i.rename st.cur (fun _ => d) ∧
      d ∉ st.written ∧ d < (ssaStep st i).2.firstAvail ∧
      st.firstAvail ≤ (ssaStep st i).2.firstAvail ∧
      (ssaStep st i).2.written = d :: st.written ∧
      (∀ m, m ∈ inputs ∨ m ∈ defs (done ++ [i]) →
        (ssaStep st i).2.cur m = if m = i.dst then d else st.cur m) ∧
      SSAInv inputs base (done ++ [i]) (ssaStep st i).2 := by
  have hAvail : ∀ m, m ∈ inputs ∨ m ∈ defs (done ++ [i]) →
      m = i.dst ∨ m ∈ inputs ∨ m ∈ defs done := by
    intro m hm
    simp only [defs_append, defs_cons, defs_nil, List.mem_append, List.mem_singleton] at hm
    tauto
  have hBase := hInv.base_le
  unfold ssaStep
  by_cases hw : i.dst ∈ st.written
  · rw [if_pos hw]
    -- the cell is written a second time, and the write goes to a fresh one
    have hFresh : st.firstAvail ∉ st.written := fun h =>
      absurd (hInv.written_lt _ h) (lt_irrefl _)
    refine ⟨st.firstAvail, rfl, hFresh, Nat.lt_succ_self _, Nat.le_succ _, rfl,
      fun m _ => cur_replace, ?_⟩
    refine ⟨by simp only; omega, ?_, ?_, ?_, ?_, ?_⟩
    · intro m hm
      rcases List.mem_cons.mp hm with rfl | hm
      · exact Nat.lt_succ_self _
      · exact Nat.lt_succ_of_lt (hInv.written_lt m hm)
    · intro m c hc
      simp only [lookup_cons_ite] at hc
      split at hc
      · next he =>
          rw [← Option.some.inj hc]
          exact ⟨List.mem_cons_of_mem _ (he ▸ hw), hBase, Nat.lt_succ_self _⟩
      · obtain ⟨h1, h2, h3⟩ := hInv.env_written m c hc
        exact ⟨List.mem_cons_of_mem _ h1, h2, Nat.lt_succ_of_lt h3⟩
    · intro m hm
      rcases hAvail m hm with rfl | hm
      · exact List.mem_cons_of_mem _ hw
      · exact List.mem_cons_of_mem _ (hInv.written_of_avail m hm)
    · intro m m' hm hm' hEq
      rw [cur_replace, cur_replace] at hEq
      by_cases h1 : m = i.dst
      · by_cases h2 : m' = i.dst
        · rw [h1, h2]
        · -- the fresh cell holds nothing else
          rw [if_pos h1, if_neg h2] at hEq
          have := hInv.cur_written m' ((hAvail m' hm').resolve_left h2)
          exact absurd (hEq ▸ this) hFresh
      · by_cases h2 : m' = i.dst
        · rw [if_neg h1, if_pos h2] at hEq
          have := hInv.cur_written m ((hAvail m hm).resolve_left h1)
          exact absurd (hEq ▸ this) hFresh
        · rw [if_neg h1, if_neg h2] at hEq
          exact hInv.cur_inj m m' ((hAvail m hm).resolve_left h1)
            ((hAvail m' hm').resolve_left h2) hEq
    · intro m hm
      rw [cur_replace]
      split
      · exact List.mem_cons_self
      · next hne =>
          exact List.mem_cons_of_mem _ (hInv.cur_written m ((hAvail m hm).resolve_left hne))
  · rw [if_neg hw]
    -- nothing was mapped to `i.dst` yet, so it is its own place
    have hNone : st.env.lookup i.dst = none := by
      cases h : st.env.lookup i.dst with
      | none => rfl
      | some c => exact absurd (hInv.env_written _ _ h).1 hw
    have hCur : st.cur i.dst = i.dst := by simp [SSAState.cur, hNone]
    have hApart : ∀ m, m ∈ inputs ∨ m ∈ defs done → st.cur m ≠ i.dst := fun m hm hEq =>
      hw (hEq ▸ hInv.cur_written m hm)
    refine ⟨i.dst, rfl, hw, lt_of_lt_of_le hDst hBase, le_rfl, rfl, fun m _ => ?_, ?_⟩
    · show st.cur m = _
      split
      · next he => rw [he, hCur]
      · rfl
    refine ⟨hBase, ?_, ?_, ?_, ?_, ?_⟩
    · intro m hm
      rcases List.mem_cons.mp hm with rfl | hm
      · exact lt_of_lt_of_le hDst hBase
      · exact hInv.written_lt m hm
    · intro m c hc
      obtain ⟨h1, h2⟩ := hInv.env_written m c hc
      exact ⟨List.mem_cons_of_mem _ h1, h2⟩
    · intro m hm
      rcases hAvail m hm with rfl | hm
      · exact List.mem_cons_self
      · exact List.mem_cons_of_mem _ (hInv.written_of_avail m hm)
    -- two cells in one place: only `i.dst` is new, and its place was free
    · intro m m' hm hm' hEq
      change st.cur m = st.cur m' at hEq
      rcases hAvail m hm with rfl | h1
      · rcases hAvail m' hm' with rfl | h2
        · rfl
        · rw [hCur] at hEq
          exact absurd hEq.symm (hApart m' h2)
      · rcases hAvail m' hm' with rfl | h2
        · rw [hCur] at hEq
          exact absurd hEq (hApart m h1)
        · exact hInv.cur_inj m m' h1 h2 hEq
    · intro m hm
      change st.cur m ∈ _
      rcases hAvail m hm with rfl | h1
      · rw [hCur]
        exact List.mem_cons_self
      · exact List.mem_cons_of_mem _ (hInv.cur_written m h1)

/-! ## The run of the main loop -/

/-- The places of the available cells hold their values. -/
def SSAAgrees (inputs : List Nat) (done : List HLI) (st : SSAState) (σ τ : Store Nat) : Prop :=
  ∀ m, m ∈ inputs ∨ m ∈ defs done → τ (st.cur m) = σ m

/-- One round preserves the meaning of its instruction. -/
theorem ssaStep_exec {inputs : List Nat} {base : Nat} {done : List HLI} {st : SSAState} {i : HLI}
    (hInv : SSAInv inputs base done st) (hDst : i.dst < base)
    (hRead : ∀ m ∈ i.memInputs, m ∈ inputs ∨ m ∈ defs done) {σ τ : Store Nat}
    (hAgree : SSAAgrees inputs done st σ τ) :
    (i.exec σ = none ∧ (ssaStep st i).1.exec τ = none) ∨
    ∃ σ₁ τ₁, i.exec σ = some σ₁ ∧ (ssaStep st i).1.exec τ = some τ₁ ∧
      SSAAgrees inputs (done ++ [i]) (ssaStep st i).2 σ₁ τ₁ := by
  obtain ⟨d, hInstr, hNew, -, -, -, hCur, -⟩ := ssaStep_spec hInv hDst
  have hResult : (ssaStep st i).1.result τ = i.result σ := by
    rw [hInstr]
    exact Instr.result_rename fun m hm => hAgree m (hRead m hm)
  have hDst' : (ssaStep st i).1.dst = d := by rw [hInstr]; rfl
  unfold Instr.exec
  rw [hResult, hDst']
  cases i.result σ with
  | none => exact Or.inl ⟨rfl, rfl⟩
  | some w =>
    refine Or.inr ⟨Function.update σ i.dst w, Function.update τ d w, rfl, rfl, fun m hm => ?_⟩
    rw [hCur m hm]
    by_cases he : m = i.dst
    · rw [if_pos he, he, Function.update_self, Function.update_self]
    · -- the new place is no place of another available cell
      have hm' : m ∈ inputs ∨ m ∈ defs done := by
        simp only [defs_append, defs_cons, defs_nil, List.mem_append, List.mem_singleton] at hm
        tauto
      have hPlace : st.cur m ≠ d := fun h => hNew (h ▸ hInv.cur_written m hm')
      rw [if_neg he, Function.update_of_ne hPlace, Function.update_of_ne he]
      exact hAgree m hm'

/-- What the loop over `rest` guarantees, from a state that satisfies the
invariant after `done`. -/
theorem ssaInstrs_spec {inputs : List Nat} {base : Nat} :
    ∀ (rest done : List HLI) (st : SSAState), SSAInv inputs base done st →
      (∀ i ∈ rest, i.dst < base) →
      (∀ pre i post, rest = pre ++ i :: post → ∀ m ∈ i.memInputs,
        m ∈ inputs ∨ m ∈ defs (done ++ pre)) →
      SSAInv inputs base (done ++ rest) (ssaInstrs rest st).2 ∧
      st.firstAvail ≤ (ssaInstrs rest st).2.firstAvail ∧
      (defs (ssaInstrs rest st).1).Nodup ∧
      (∀ m ∈ defs (ssaInstrs rest st).1,
        m ∉ st.written ∧ m < (ssaInstrs rest st).2.firstAvail) ∧
      (∀ m ∈ reads (ssaInstrs rest st).1, m < (ssaInstrs rest st).2.firstAvail) ∧
      (∀ σ τ, SSAAgrees inputs done st σ τ →
        (run rest σ = none ∧ run (ssaInstrs rest st).1 τ = none) ∨
        ∃ σ' τ', run rest σ = some σ' ∧ run (ssaInstrs rest st).1 τ = some τ' ∧
          SSAAgrees inputs (done ++ rest) (ssaInstrs rest st).2 σ' τ') := by
  intro rest
  -- on the instructions still to be renamed, with those already renamed in `done`
  induction rest with
  | nil =>
    intro done st hInv _ _
    rw [ssaInstrs, List.append_nil]
    exact ⟨hInv, le_rfl, List.nodup_nil, by simp, by simp, fun σ τ h => Or.inr ⟨σ, τ, rfl, rfl, h⟩⟩
  | cons i rest ih =>
    intro done st hInv hDst hRead
    have hDst₀ := hDst i List.mem_cons_self
    have hRead₀ : ∀ m ∈ i.memInputs, m ∈ inputs ∨ m ∈ defs done := fun m hm => by
      simpa using hRead [] i rest rfl m hm
    obtain ⟨d, hInstr, hNew, hLt, hLe, hWritten, -, hInv₁⟩ := ssaStep_spec hInv hDst₀
    obtain ⟨hInv₂, hLe₂, hNodup, hDefs, hReads, hRun⟩ := ih (done ++ [i]) (ssaStep st i).2 hInv₁
      (fun j hj => hDst j (List.mem_cons_of_mem _ hj))
      (fun pre j post hSplit m hm => by
        simpa using hRead (i :: pre) j post (by simp [hSplit]) m hm)
    have hSplit : done ++ i :: rest = (done ++ [i]) ++ rest := by simp
    have hDst' : (ssaStep st i).1.dst = d := by rw [hInstr]; rfl
    simp only [ssaInstrs]
    rw [hSplit]
    refine ⟨hInv₂, le_trans hLe hLe₂, ?_, ?_, ?_, ?_⟩
    · rw [defs_cons, List.nodup_cons, hDst']
      -- what later instructions define was not written yet, and `d` now is
      refine ⟨fun h => (hDefs d h).1 ?_, hNodup⟩
      rw [hWritten]
      exact List.mem_cons_self
    · intro m hm
      rw [defs_cons, hDst'] at hm
      rcases List.mem_cons.mp hm with rfl | hm
      · exact ⟨hNew, lt_of_lt_of_le hLt hLe₂⟩
      · refine ⟨fun h => (hDefs m hm).1 ?_, (hDefs m hm).2⟩
        rw [hWritten]
        exact List.mem_cons_of_mem _ h
    · intro m hm
      rw [reads_cons, List.mem_append] at hm
      rcases hm with hm | hm
      · -- a renamed operand is the place of an available cell
        rw [hInstr] at hm
        obtain ⟨m₀, hm₀, rfl⟩ := mem_memInputs_rename.mp hm
        exact lt_of_lt_of_le (hInv.written_lt _ (hInv.cur_written m₀ (hRead₀ m₀ hm₀)))
          (le_trans hLe hLe₂)
      · exact hReads m hm
    · intro σ τ hAgree
      -- both runs fail at this instruction, or both go on and agree
      rcases ssaStep_exec hInv hDst₀ hRead₀ hAgree with ⟨h1, h2⟩ | ⟨σ₁, τ₁, h1, h2, hAgree₁⟩
      · exact Or.inl ⟨by simp [run, h1], by simp [run, h2]⟩
      · simp only [run, h1, h2, Option.bind_some]
        exact hRun σ₁ τ₁ hAgree₁

/-! ## When the conversion is correct -/

/-- The destinations reach the last input: there is no input, or some
instruction writes the last input cell or a cell above it. -/
def HLIRProgram.WritesHigh (ir : HLIRProgram) : Prop :=
  ir.inputs = [] ∨ ∃ i ∈ ir.instrs, ir.inputs.length ≤ i.dst + 1

/-- The inputs are the first cells. -/
theorem mem_inputs_iff_lt {ir : HLIRProgram} (h : ir.FromAST) {m : Nat} :
    m ∈ ir.inputs ↔ m < ir.inputs.length := by
  rw [h.inputs_eq, List.mem_range, List.length_range]

/-- Numbering fresh cells from the destinations is safe when these reach the
last input. -/
theorem inputs_length_le_firstAvailMem {ir : HLIRProgram} (h : ir.WritesHigh) :
    ir.inputs.length ≤ firstAvailMem ir.instrs := by
  rcases h with h | ⟨i, hi, hLe⟩
  · rw [h]
    exact Nat.zero_le _
  · exact le_trans hLe (dst_lt_firstAvailMem hi)

/-- If all cells that are read are below the first unused one, the conversion is right. -/
theorem toSSA_correct_of_writesHigh {ir : HLIRProgram} (hAST : ir.FromAST)
    (hHigh : ir.WritesHigh) : SSACorrect ir (toSSA ir) := by
  set st₀ : SSAState :=
    { env := [], written := ir.inputs, firstAvail := firstAvailMem ir.instrs } with hst₀
  have hInputs : ∀ m ∈ ir.inputs, m < firstAvailMem ir.instrs := fun m hm =>
    lt_of_lt_of_le ((mem_inputs_iff_lt hAST).mp hm) (inputs_length_le_firstAvailMem hHigh)
  -- at the start every input is in its own place, below all fresh cells
  have hInv₀ : SSAInv ir.inputs (firstAvailMem ir.instrs) [] st₀ := by
    refine ⟨le_rfl, hInputs, ?_, ?_, ?_, ?_⟩
    · intro m c h
      exact absurd h (by simp [hst₀])
    · intro m hm
      simpa using hm
    · intro m m' _ _ h
      exact h
    · intro m hm
      have hCur : st₀.cur m = m := rfl
      rw [hCur]
      simpa using hm
  obtain ⟨hInv, -, hNodup, hDefs, hReads, hRun⟩ := ssaInstrs_spec ir.instrs [] st₀ hInv₀
    (fun i hi => dst_lt_firstAvailMem hi)
    (fun pre i post hSplit m hm => by simpa using hAST.read_written pre i post hSplit m hm)
  rw [List.nil_append] at hInv hRun
  have hFinal : ∀ m ∈ st₀.written, m < (ssaInstrs ir.instrs st₀).2.firstAvail := fun m hm =>
    lt_of_lt_of_le (hInputs m hm) hInv.base_le
  refine ⟨hNodup, fun m hm h => (hDefs m h).1 hm, ?_, rfl, ?_⟩
  · intro m hm
    simp only [HLIRProgram.cells, toSSA, List.mem_append, List.mem_map] at hm
    rcases hm with ((hIn | ⟨o, ho, rfl⟩) | hDef) | hRead
    · exact hFinal m hIn
    · exact hInv.written_lt _ (hInv.cur_written o (hAST.output_written o ho))
    · exact (hDefs m hDef).2
    · exact hReads m hRead
  · intro σ τ hEq
    have hAgree₀ : SSAAgrees ir.inputs [] st₀ σ τ := by
      intro m hm
      exact (hEq m (by simpa using hm)).symm
    unfold HLIRProgram.eval toSSA
    dsimp only
    rcases hRun σ τ hAgree₀ with ⟨h1, h2⟩ | ⟨σ', τ', h1, h2, hAgree⟩
    · rw [h1, h2]
      rfl
    · rw [h1, h2, Option.map_some, Option.map_some, List.map_map]
      congr 1
      exact List.map_congr_left fun o ho => hAgree o (hAST.output_written o ho)

/-- **When `to_SSA` is correct.** On the programs `AST_to_IR` produces, the
result is an SSA form of the program exactly when the program has no input or
writes the cell of its last input or one above it. -/
theorem toSSA_correct_iff {ir : HLIRProgram} (hAST : ir.FromAST) :
    SSACorrect ir (toSSA ir) ↔ ir.WritesHigh := by
  refine ⟨fun hCorrect => ?_, toSSA_correct_of_writesHigh hAST⟩
  by_contra hLow
  unfold HLIRProgram.WritesHigh at hLow
  push Not at hLow
  obtain ⟨hSome, hDst⟩ := hLow
  have hPos : 0 < ir.inputs.length := List.length_pos_of_ne_nil hSome
  cases hInstrs : ir.instrs with
  | nil =>
    -- nothing is written, so `memory_count` is 0
    have hCount : (toSSA ir).memoryCount = 0 := by
      simp [toSSA, hInstrs, ssaInstrs, firstAvailMem]
    have hIn : 0 ∈ (toSSA ir).cells := by
      have : 0 ∈ ir.inputs := (mem_inputs_iff_lt hAST).mpr hPos
      simp [HLIRProgram.cells, hCorrect.same_inputs, this]
    exact absurd (hCorrect.below_count 0 hIn) (by omega)
  | cons i rest =>
    -- the first destination is an input, and its replacement is one too
    have hi : i ∈ ir.instrs := by rw [hInstrs]; exact List.mem_cons_self
    have hiIn : i.dst ∈ ir.inputs := (mem_inputs_iff_lt hAST).mpr (by
      have := hDst i hi
      omega)
    have hFirst : firstAvailMem ir.instrs < ir.inputs.length := by
      have := @firstAvailMem_le ir.instrs (ir.inputs.length - 1)
        fun j hj => by have := hDst j hj; omega
      omega
    have hDef : firstAvailMem ir.instrs ∈ defs (toSSA ir).instrs := by
      have hHead : (toSSA ir).instrs.head? =
          some (i.rename id fun _ => firstAvailMem ir.instrs) := by
        simp only [toSSA, hInstrs, ssaInstrs, ssaStep, if_pos hiIn, List.head?_cons]
        rfl
      obtain ⟨tl, hTl⟩ := List.head?_eq_some_iff.mp hHead
      rw [hTl, defs_cons]
      exact List.mem_cons_self
    have hIn : firstAvailMem ir.instrs ∈ (toSSA ir).inputs := by
      rw [hCorrect.same_inputs]
      exact (mem_inputs_iff_lt hAST).mpr hFirst
    exact hCorrect.inputs_kept _ hIn hDef

/-- `void f(unsigned int r[2], unsigned int a) { r[0] = a; }`: the cells of `r`
are 0 and 1, the cell of `a` is 2, and both cells of `r` are returned. -/
def lowWriteProgram : HLIRProgram where
  instrs := [{ opcode := .MOV, dst := 0, src1 := some (.loc 2) }]
  inputs := [0, 1, 2]
  outputs := [0, 1]
  memoryCount := 3

/-- The example is one that `AST_to_IR` emits. -/
theorem lowWriteProgram_fromAST : lowWriteProgram.FromAST where
  inputs_eq := by decide
  read_written := by
    intro pre i post hSplit m hm
    have hi : i ∈ lowWriteProgram.instrs := by simp [hSplit]
    simp only [lowWriteProgram, List.mem_singleton] at hi
    subst hi
    exact Or.inl (by revert m; decide)
  output_written := by decide

/-- The fresh cell for `r[0]` is the cell of `r[1]`: an input is overwritten and
the unmodified `r[1]` is returned with the value of `a`. -/
theorem lowWriteProgram_not_ssa :
    lowWriteProgram.FromAST ∧ ¬ SSACorrect lowWriteProgram (toSSA lowWriteProgram) := by
  refine ⟨lowWriteProgram_fromAST, fun hCorrect => ?_⟩
  have hSame := hCorrect.same_outputs (fun m => if m = 2 then 7 else 0)
    (fun m => if m = 2 then 7 else 0) fun _ _ => rfl
  exact absurd hSame (by decide)

/-- The characterisation at the program above. -/
theorem toSSA_correct_lowWriteProgram :
    lowWriteProgram.FromAST ∧
      (SSACorrect lowWriteProgram (toSSA lowWriteProgram) ↔ lowWriteProgram.WritesHigh) :=
  ⟨lowWriteProgram_fromAST, toSSA_correct_iff lowWriteProgram_fromAST⟩

end Obscure
