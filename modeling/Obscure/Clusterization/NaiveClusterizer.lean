import Obscure.Clusterization.InitialGraph
import Obscure.Runtime.Refinement

/-!
# OBSCURE — the naive clusterizer

`clusterization/naive_clusterizer.py` makes a multi-instruction of every
instruction. The operands get registers in the order in which distinct cells
appear; the inputs list keeps one entry per occurrence, and the element loads its
entry `i` into register `i`. The two orders differ for one pattern of operands:
the first two are one cell and the third is another.

* `eval_clusterizeInstr` — on the registers as they are loaded the instruction is
  `Instr.asLoaded`;
* `NaiveClusterizer.clusterize_correct_iff` — a run of the clusterized program
  gives every cell its value exactly when no conditional move of that pattern
  picks the third operand, unless both words are 0.
-/

namespace Obscure

/-- A program in SSA, in an order in which it can be run. -/
structure HLIRProgram.SSA (ir : HLIRProgram) : Prop where
  written_once : (defs ir.instrs).Nodup
  inputs_kept : ∀ m ∈ ir.inputs, m ∉ defs ir.instrs
  scheduled : Scheduled ir.inputs ir.instrs

/-- A program in SSA form defines before it reads. -/
theorem HLIRProgram.SSA.defBeforeUse {ir : HLIRProgram} (h : ir.SSA) : DefBeforeUse ir.instrs :=
  h.scheduled.defBeforeUse h.inputs_kept

namespace NaiveClusterizer

/-! ## The clusterizer -/

/-- `input_reg_dict`. -/
structure InputRegDict where
  nextInputReg : Nat
  mapping : List (Nat × Nat)

/-- `convert_src_input_mem_to_reg`. -/
def convertSrcInputMemToReg (src : Option (Operand Nat)) (d : InputRegDict) :
    Option (Operand Nat) × InputRegDict :=
  match src with
  | none => (none, d)
  | some (.imm i) => (some (.imm i), d)
  | some (.loc m) =>
    match d.mapping.lookup m with
    | some reg => (some (.loc reg), d)
    | none => (some (.loc d.nextInputReg), ⟨d.nextInputReg + 1, (m, d.nextInputReg) :: d.mapping⟩)

/-- An operand is there after the conversion when it was there before. -/
@[simp] theorem convertSrcInputMemToReg_eq_none {src : Option (Operand Nat)} {d : InputRegDict} :
    (convertSrcInputMemToReg src d).1 = none ↔ src = none := by
  rcases src with _ | m | i
  · simp [convertSrcInputMemToReg]
  · cases h : d.mapping.lookup m <;> simp [convertSrcInputMemToReg, h]
  · simp [convertSrcInputMemToReg]

/-- The instruction the loop of `clusterize` puts into the sequence. -/
def clusterizedLLI (cfg : SEConfig) (instr : HLI) : LLI :=
  let src1 := convertSrcInputMemToReg instr.src1 ⟨0, []⟩
  let src2 := convertSrcInputMemToReg instr.src2 src1.2
  let src3 := convertSrcInputMemToReg instr.src3 src2.2
  { opcode := instr.opcode
    dst := cfg.r - cfg.lOut
    src1 := src1.1
    src2 := src2.1
    src3 := src3.1
    wf := by simpa [src2, src3] using instr.wf }

/-- The body of the loop of `clusterize`; an instruction without inputs gets cell
0 as a dummy. -/
def clusterizeInstr (cfg : SEConfig) (instr : HLI) : LLMI where
  seq := [clusterizedLLI cfg instr]
  inputs := if instr.memInputs = [] then [0] else instr.memInputs
  outputs := [instr.dst]

/-- `clusterize`. -/
def clusterize (ir : HLIRProgram) (cfg : SEConfig) : LLIRProgram :=
  ⟨ir.instrs.map (clusterizeInstr cfg), ir.inputs, ir.outputs, ir.memoryCount⟩

end NaiveClusterizer

open NaiveClusterizer

/-! ## What an instruction computes on the loaded registers -/

/-- The third operand is read from the register of the second occurrence when the
first two are one cell. -/
def Instr.asLoaded (i : HLI) : HLI where
  opcode := i.opcode
  dst := i.dst
  src1 := i.src1
  src2 := i.src2
  src3 := match i.src1, i.src2, i.src3 with
    | some (.loc a), some (.loc b), some (.loc c) => some (.loc (if a = b then a else c))
    | _, _, src3 => src3
  wf := by
    intro h
    have := i.wf h
    rw [h, this]
    split <;> simp_all

/-- It reads nothing the instruction does not read. -/
theorem mem_memInputs_asLoaded {i : HLI} {m : Nat} (h : m ∈ i.asLoaded.memInputs) :
    m ∈ i.memInputs := by
  rw [mem_memInputs] at h ⊢
  rcases i with ⟨op, dst, _ | a | n, _ | b | n', _ | c | n'', wf⟩ <;>
    simp only [Instr.asLoaded] at h ⊢ <;> first | exact h | skip
  split at h
  case isTrue => simp_all
  case isFalse => exact h

section Registers

variable {regs : Regs} {mem : Store Nat} {d : InputRegDict}

/-- Every cell that has a register is loaded there. -/
def NaiveClusterizer.InputRegDict.Loaded (d : InputRegDict) (regs : Regs) (mem : Store Nat) :
    Prop :=
  ∀ m reg, d.mapping.lookup m = some reg → regs reg = mem m

theorem loaded_nil (regs : Regs) (mem : Store Nat) : InputRegDict.Loaded ⟨0, []⟩ regs mem := by
  intro m reg h
  cases h

/-- One operand: the value in its register is right, when a cell that is new
finds its word in the next register. -/
theorem srcVal_convert (hLoaded : d.Loaded regs mem) (src : Option (Operand Nat))
    (hNext : ∀ m, src = some (.loc m) → d.mapping.lookup m = none →
      regs d.nextInputReg = mem m) :
    srcVal regs (convertSrcInputMemToReg src d).1 = srcVal mem src ∧
      (convertSrcInputMemToReg src d).2.Loaded regs mem := by
  rcases src with _ | m | i
  · exact ⟨rfl, hLoaded⟩
  · cases hLookup : d.mapping.lookup m with
    | some reg =>
      simp only [convertSrcInputMemToReg, hLookup]
      exact ⟨hLoaded m reg hLookup, hLoaded⟩
    | none =>
      have hReg := hNext m rfl hLookup
      simp only [convertSrcInputMemToReg, hLookup]
      refine ⟨hReg, ?_⟩
      intro m' reg h
      rw [Lib.lookup_cons_ite] at h
      split at h
      case isTrue hEq =>
        obtain rfl := Option.some.inj h
        rw [hReg, hEq]
      case isFalse => exact hLoaded m' reg h
  · exact ⟨rfl, hLoaded⟩

end Registers

/-! ## Registers in use -/

/-- The registers handed out are those below the next one. -/
def NaiveClusterizer.InputRegDict.Below (d : InputRegDict) : Prop :=
  ∀ m reg, d.mapping.lookup m = some reg → reg < d.nextInputReg

/-- Registers are handed out one after the other. -/
theorem below_convert {d : InputRegDict} (h : d.Below) (src : Option (Operand Nat)) :
    (convertSrcInputMemToReg src d).2.Below ∧
      (convertSrcInputMemToReg src d).2.nextInputReg ≤ d.nextInputReg + 1 ∧
      ∀ reg, (convertSrcInputMemToReg src d).1 = some (.loc reg) →
        reg < (convertSrcInputMemToReg src d).2.nextInputReg := by
  rcases src with _ | m | i
  · exact ⟨h, Nat.le_succ _, fun reg hReg => by cases hReg⟩
  · cases hLookup : d.mapping.lookup m with
    | some reg =>
      simp only [convertSrcInputMemToReg, hLookup]
      refine ⟨h, Nat.le_succ _, ?_⟩
      rintro _ ⟨⟩
      exact h m reg hLookup
    | none =>
      simp only [convertSrcInputMemToReg, hLookup]
      refine ⟨?_, le_rfl, ?_⟩
      · intro m' reg hReg
        rw [Lib.lookup_cons_ite] at hReg
        split at hReg
        case isTrue =>
          obtain rfl := Option.some.inj hReg
          exact Nat.lt_succ_self _
        case isFalse => exact Nat.lt_succ_of_lt (h m' reg hReg)
      · rintro _ ⟨⟩
        exact Nat.lt_succ_self _
  · exact ⟨h, Nat.le_succ _, fun reg hReg => by cases hReg⟩

/-- A multi-instruction inside the element: its inputs and outputs have
registers, and so has everything its sequence reads and writes. -/
structure LLMI.InRange (cfg : SEConfig) (llmi : LLMI) : Prop where
  inputs_le : llmi.inputs.length ≤ cfg.lIn
  outputs_le : llmi.outputs.length ≤ cfg.lOut
  dst_lt : ∀ lli ∈ llmi.seq, lli.dst < cfg.r
  srcs_lt : ∀ lli ∈ llmi.seq, ∀ reg ∈ lli.memInputs, reg < cfg.r

/-- An instruction reads three locations at most. -/
theorem length_memInputs_le (i : HLI) : i.memInputs.length ≤ 3 :=
  List.length_filterMap_le _ _

/-- A multi-instruction of one instruction is within the limits of the element. -/
theorem inRange_clusterizeInstr {cfg : SEConfig} (hIn : 3 ≤ cfg.lIn) (hOut : 1 ≤ cfg.lOut)
    (hRegs : cfg.lIn + cfg.lOut ≤ cfg.r) (i : HLI) : (clusterizeInstr cfg i).InRange cfg := by
  have hNil : InputRegDict.Below ⟨0, []⟩ := fun m reg h => by cases h
  obtain ⟨hBelow₁, hNext₁, hSrc₁⟩ := below_convert hNil i.src1
  rw [show InputRegDict.nextInputReg ⟨0, []⟩ = 0 from rfl] at hNext₁
  obtain ⟨hBelow₂, hNext₂, hSrc₂⟩ := below_convert hBelow₁ i.src2
  obtain ⟨-, hNext₃, hSrc₃⟩ := below_convert hBelow₂ i.src3
  refine ⟨?_, hOut, ?_, ?_⟩
  · have := length_memInputs_le i
    simp only [clusterizeInstr]
    split
    · exact Nat.le_trans (by decide) hIn
    · omega
  · intro lli hMem
    obtain rfl := List.mem_singleton.mp hMem
    show cfg.r - cfg.lOut < cfg.r
    omega
  · intro lli hMem reg hReg
    obtain rfl := List.mem_singleton.mp hMem
    rcases mem_memInputs.mp hReg with h | h | h
    · have := hSrc₁ reg h
      omega
    · have := hSrc₂ reg h
      omega
    · have := hSrc₃ reg h
      omega

section Evaluation

variable {cfg : SEConfig} {init : Regs} {mem : Store Nat} {i : HLI}

/-- The element loads an occurrence of a cell into the register of its position. -/
theorem loadRegs_clusterizeInstr {k m : Nat} (h : i.memInputs[k]? = some m) :
    loadRegs init ((clusterizeInstr cfg i).inputs.map mem) k = mem m := by
  have hSome : i.memInputs ≠ [] := by
    rintro hNil
    rw [hNil] at h
    cases h
  simp [clusterizeInstr, hSome, loadRegs, h]

theorem memInputs_eq (i : HLI) : i.memInputs = (i.src1.bind Operand.loc?).toList ++
    ((i.src2.bind Operand.loc?).toList ++ (i.src3.bind Operand.loc?).toList) := by
  rcases i with ⟨op, dst, _ | a | n, _ | b | n', _ | c | n'', wf⟩ <;> rfl

/-- The dictionary after the first operand. -/
abbrev firstDict (i : HLI) : InputRegDict := (convertSrcInputMemToReg i.src1 ⟨0, []⟩).2

/-- The dictionary after the first two operands. -/
abbrev secondDict (i : HLI) : InputRegDict := (convertSrcInputMemToReg i.src2 (firstDict i)).2

/-- The position of the second operand, when it is a cell. -/
theorem memInputs_src2 {m : Nat} (hSrc : i.src2 = some (.loc m)) :
    i.memInputs[(firstDict i).nextInputReg]? = some m := by
  rcases hSrc₁ : i.src1 with _ | a | n <;>
    simp [memInputs_eq, firstDict, Operand.loc?, convertSrcInputMemToReg, hSrc, hSrc₁]

/-- The position of the third operand, when it is a cell and the first two are
not one cell. -/
theorem memInputs_src3 {m : Nat} (hSrc : i.src3 = some (.loc m))
    (hTwo : ∀ a, i.src1 = some (.loc a) → i.src2 ≠ some (.loc a)) :
    i.memInputs[(secondDict i).nextInputReg]? = some m := by
  rcases hSrc₁ : i.src1 with _ | a | n <;> rcases hSrc₂ : i.src2 with _ | b | n' <;>
    simp only [memInputs_eq, firstDict, secondDict, convertSrcInputMemToReg, hSrc, hSrc₁, hSrc₂,
      Operand.loc?, Option.bind_some, Option.bind_none, Option.toList_some, Option.toList_none,
      List.lookup_nil] <;> try rfl
  have hNe : b ≠ a := by
    rintro rfl
    exact hTwo b hSrc₁ hSrc₂
  simp [Lib.lookup_cons_ite, hNe]

/-- Nothing is misread unless the first two operands are one cell. -/
theorem asLoaded_src3 (hTwo : ∀ a, i.src1 = some (.loc a) → i.src2 ≠ some (.loc a)) :
    i.asLoaded.src3 = i.src3 := by
  rcases hSrc₁ : i.src1 with _ | a | n <;> rcases hSrc₂ : i.src2 with _ | b | n' <;>
    rcases hSrc₃ : i.src3 with _ | c | n'' <;>
    simp only [Instr.asLoaded, hSrc₁, hSrc₂, hSrc₃]
  rw [if_neg]
  rintro rfl
  exact hTwo a hSrc₁ hSrc₂

/-- The third operand on the registers as the element loads them. -/
theorem srcVal_src3 {regs : Regs} (hLoaded : (secondDict i).Loaded regs mem)
    (hAt : ∀ {k m : Nat}, i.memInputs[k]? = some m → regs k = mem m) :
    srcVal regs (convertSrcInputMemToReg i.src3 (secondDict i)).1 = srcVal mem i.asLoaded.src3 := by
  by_cases hTwo : ∀ a, i.src1 = some (.loc a) → i.src2 ≠ some (.loc a)
  · rw [asLoaded_src3 hTwo]
    exact (srcVal_convert hLoaded i.src3 fun m hSrc _ => hAt (memInputs_src3 hSrc hTwo)).1
  · push Not at hTwo
    obtain ⟨a, hSrc₁, hSrc₂⟩ := hTwo
    rcases hSrc₃ : i.src3 with _ | c | n
    · simp [Instr.asLoaded, hSrc₁, hSrc₂, hSrc₃, convertSrcInputMemToReg, srcVal]
    · -- the cell has register 0 or 1, and both hold the word of the first operand
      have hFirst : regs 0 = mem a := hAt (by simp [memInputs_eq, Operand.loc?, hSrc₁])
      have hSecond : regs 1 = mem a := hAt (by simp [memInputs_eq, Operand.loc?, hSrc₁, hSrc₂])
      by_cases hEq : c = a <;>
        simp [Instr.asLoaded, firstDict, secondDict, convertSrcInputMemToReg, Lib.lookup_cons_ite,
          srcVal, hSrc₁, hSrc₂, hSrc₃, hEq, hFirst, hSecond]
    · simp [Instr.asLoaded, hSrc₁, hSrc₂, hSrc₃, convertSrcInputMemToReg, srcVal]

/-- The instruction on the registers as the element loads them. -/
theorem result_clusterizedLLI (cfg : SEConfig) (init : Regs) (mem : Store Nat) (i : HLI) :
    (clusterizedLLI cfg i).result (loadRegs init ((clusterizeInstr cfg i).inputs.map mem)) =
      i.asLoaded.result mem := by
  set regs := loadRegs init ((clusterizeInstr cfg i).inputs.map mem)
  have hAt : ∀ {k m : Nat}, i.memInputs[k]? = some m → regs k = mem m := loadRegs_clusterizeInstr
  obtain ⟨hVal₁, hLoaded₁⟩ := srcVal_convert (loaded_nil regs mem) i.src1
    fun m hSrc _ => hAt (by simp [memInputs_eq, hSrc, Operand.loc?])
  obtain ⟨hVal₂, hLoaded₂⟩ := srcVal_convert hLoaded₁ i.src2
    fun m hSrc _ => hAt (memInputs_src2 hSrc)
  have hVal₃ := srcVal_src3 hLoaded₂ hAt
  show instructionExecute i.opcode _ _ _ = instructionExecute i.opcode _ _ _
  rw [show (clusterizedLLI cfg i).src1 = (convertSrcInputMemToReg i.src1 ⟨0, []⟩).1 from rfl, hVal₁,
    show (clusterizedLLI cfg i).src2 = (convertSrcInputMemToReg i.src2 (firstDict i)).1 from rfl,
    hVal₂, show (clusterizedLLI cfg i).src3 = (convertSrcInputMemToReg i.src3 (secondDict i)).1
      from rfl, hVal₃]
  rfl

/-- **One multi-instruction** is one instruction, as it is loaded. -/
theorem eval_clusterizeInstr (cfg : SEConfig) (init : Regs) (i : HLI) (mem : Store Nat) :
    (clusterizeInstr cfg i).eval cfg init mem = i.asLoaded.exec mem := by
  rw [Instr.exec, ← result_clusterizedLLI cfg init mem i, LLMI.eval]
  set regs := loadRegs init ((clusterizeInstr cfg i).inputs.map mem)
  have hSeq : (clusterizeInstr cfg i).seq = [clusterizedLLI cfg i] := rfl
  rw [hSeq, run, Instr.exec]
  cases (clusterizedLLI cfg i).result regs with
  | none => rfl
  | some w => simp [run, clusterizeInstr, storeWords, clusterizedLLI, Instr.asLoaded]

/-- A clusterized program runs the instructions as they are loaded. -/
theorem evalLLMIs_clusterize (cfg : SEConfig) (init : Nat → Regs) (k : Nat) (instrs : List HLI)
    (mem : Store Nat) :
    evalLLMIs cfg init k (instrs.map (clusterizeInstr cfg)) mem =
      run (instrs.map Instr.asLoaded) mem := by
  induction instrs generalizing k mem with
  | nil => rfl
  | cons i rest ih =>
    rw [List.map_cons, List.map_cons, evalLLMIs, run, eval_clusterizeInstr]
    congr 1
    exact funext fun mem' => ih (k + 1) mem'

end Evaluation

/-! ## When a run is right -/

/-- The conditional moves whose first two operands are one cell and whose third
is a cell do not pick the third operand, unless both words are 0. -/
def HLIRProgram.CmovsKept (ir : HLIRProgram) (st : Store Nat) : Prop :=
  ∀ i ∈ ir.instrs, i.opcode = .CMOV → ∀ a b, i.src1 = some (.loc a) → i.src2 = some (.loc a) →
    i.src3 = some (.loc b) → st a = 0 → st b = 0

/-- Only a conditional move has a third operand. -/
theorem instructionExecute_third {op : Opcode} (h : op ≠ .CMOV) (x y z z' : Word) :
    instructionExecute op x y z = instructionExecute op x y z' := by
  cases op <;> first | rfl | exact absurd rfl h

/-- An instruction that holds also holds as it is loaded, unless it is a move
that picks the operand in the wrong register. -/
theorem holds_asLoaded_iff {i : HLI} {st : Store Nat} (hHolds : i.Holds st) :
    i.asLoaded.Holds st ↔ (i.opcode = .CMOV → ∀ a b, i.src1 = some (.loc a) →
      i.src2 = some (.loc a) → i.src3 = some (.loc b) → st a = 0 → st b = 0) := by
  have hSame : i.asLoaded.src3 = i.src3 → i.asLoaded.Holds st := by
    intro h
    have hResult : i.asLoaded.result st = i.result st := by
      rw [Instr.result, h]
      rfl
    rwa [Instr.Holds, hResult]
  by_cases hTwo : ∀ a, i.src1 = some (.loc a) → i.src2 ≠ some (.loc a)
  · exact iff_of_true (hSame (asLoaded_src3 hTwo)) fun _ a b hSrc₁ hSrc₂ => absurd hSrc₂
      (hTwo a hSrc₁)
  push Not at hTwo
  obtain ⟨a, hSrc₁, hSrc₂⟩ := hTwo
  rcases hSrc₃ : i.src3 with _ | b | n
  · exact iff_of_true (hSame (by simp [Instr.asLoaded, hSrc₁, hSrc₂, hSrc₃]))
      fun _ a b _ _ h => by cases h
  · have hResult : i.asLoaded.result st = instructionExecute i.opcode (st a) (st a) (st a) := by
      simp [Instr.result, Instr.asLoaded, srcVal, hSrc₁, hSrc₂, hSrc₃]
    have hOrig : instructionExecute i.opcode (st a) (st a) (st b) = some (st i.dst) := by
      rw [← hHolds]
      simp [Instr.result, srcVal, hSrc₁, hSrc₂, hSrc₃]
    have hDst : i.asLoaded.dst = i.dst := rfl
    rw [Instr.Holds, hResult, hDst, ← hOrig]
    by_cases hOp : i.opcode = .CMOV
    · rw [hOp]
      simp only [instructionExecute, Option.some.injEq, ite_self, forall_const]
      constructor
      · intro h a' b' hA _ hB hZero
        obtain rfl : a = a' := by simpa [hSrc₁] using hA
        obtain rfl : b = b' := by simpa using hB
        rw [if_pos hZero, hZero] at h
        exact h.symm
      · intro h
        have hZero := h a b hSrc₁ hSrc₂ rfl
        split
        case isTrue hA => rw [hA, hZero hA]
        case isFalse => rfl
    · exact iff_of_true (instructionExecute_third hOp _ _ _ _) fun h => absurd h hOp
  · exact iff_of_true (hSame (by simp [Instr.asLoaded, hSrc₁, hSrc₂, hSrc₃]))
      fun _ a b _ _ h => by cases h

section Program

variable {ir : HLIRProgram} {σ st : Store Nat}

/-- In SSA the instructions as they are loaded run to the same store exactly
when none of them misreads. -/
theorem run_asLoaded_iff (hSSA : ir.SSA) (hRun : run ir.instrs σ = some st) :
    run (ir.instrs.map Instr.asLoaded) σ = some st ↔ ir.CmovsKept st := by
  have hDefs : defs (ir.instrs.map Instr.asLoaded) = defs ir.instrs := by
    simp [defs, Function.comp_def, Instr.asLoaded]
  have hUse : DefBeforeUse (ir.instrs.map Instr.asLoaded) := by
    intro pre x post hSplit m hm hDef
    obtain ⟨pre', tail, hInstrs, rfl, hTail⟩ := List.map_eq_append_iff.mp hSplit
    obtain ⟨i, post', rfl, rfl, rfl⟩ := List.map_eq_cons_iff.mp hTail
    rw [hDefs] at hDef
    have := hSSA.defBeforeUse pre' i post' hInstrs m (mem_memInputs_asLoaded hm) hDef
    simpa [defs, Function.comp_def, Instr.asLoaded] using this
  obtain ⟨hHolds, hKept⟩ := (run_eq_some_iff hSSA.written_once hSSA.defBeforeUse).mp hRun
  rw [run_eq_some_iff (by rw [hDefs]; exact hSSA.written_once) hUse, hDefs]
  constructor
  · rintro ⟨hLoaded, -⟩ i hi
    exact (holds_asLoaded_iff (hHolds i hi)).mp (hLoaded _ (List.mem_map_of_mem hi))
  · intro h
    refine ⟨?_, hKept⟩
    intro j hj
    obtain ⟨i, hi, rfl⟩ := List.mem_map.mp hj
    exact (holds_asLoaded_iff (hHolds i hi)).mpr (h i hi)

/-- **The naive clusterizer.** Every multi-instruction stays inside the element,
and a run gives every cell that is asked for its value exactly when no conditional
move misreads; `init k` is what the registers hold before call `k`. -/
theorem NaiveClusterizer.clusterize_correct_iff (hSSA : ir.SSA) {cfg : SEConfig} (hIn : 3 ≤ cfg.lIn)
    (hOut : 1 ≤ cfg.lOut) (hRegs : cfg.lIn + cfg.lOut ≤ cfg.r) {inputs : List Word}
    (hRun : run ir.instrs (storeWords (ir.inputs.zip inputs) fun _ => 0) = some st)
    (init : Nat → Regs) :
    (∀ llmi ∈ (clusterize ir cfg).instrs, llmi.InRange cfg) ∧
    (ir.CmovsKept st → (clusterize ir cfg).eval cfg init inputs = some (ir.outputs.map st)) ∧
    ((∀ outputs, (clusterize { ir with outputs := outputs } cfg).eval cfg init inputs =
      some (outputs.map st)) ↔ ir.CmovsKept st) := by
  have hEval : ∀ outputs, (clusterize { ir with outputs := outputs } cfg).eval cfg init inputs =
      (run (ir.instrs.map Instr.asLoaded) (storeWords (ir.inputs.zip inputs) fun _ => 0)).map
        fun mem => outputs.map mem := by
    intro outputs
    rw [← evalLLMIs_clusterize cfg init 0]
    rfl
  have hKept : ir.CmovsKept st → ∀ outputs,
      (clusterize { ir with outputs := outputs } cfg).eval cfg init inputs =
        some (outputs.map st) := by
    intro h outputs
    rw [hEval, (run_asLoaded_iff hSSA hRun).mpr h]
    rfl
  refine ⟨?_, fun h => hKept h ir.outputs, ?_, hKept⟩
  · intro llmi hMem
    obtain ⟨i, -, rfl⟩ := List.mem_map.mp hMem
    exact inRange_clusterizeInstr hIn hOut hRegs i
  · intro h
    rw [← run_asLoaded_iff hSSA hRun]
    -- every cell on its own gives the whole memory
    obtain ⟨mem, hMem, -⟩ := Option.map_eq_some_iff.mp ((hEval []).symm.trans (h []))
    rw [hMem, Option.some.injEq]
    funext m
    have hCell := (hEval [m]).symm.trans (h [m])
    rw [hMem] at hCell
    simpa using hCell

end Program

/-- `x = a ? a : b;` -/
def elvisProgram : HLIRProgram where
  instrs :=
    [{ opcode := .CMOV, dst := 2, src1 := some (.loc 0), src2 := some (.loc 0),
       src3 := some (.loc 1) }]
  inputs := [0, 1]
  outputs := [2]
  memoryCount := 3

/-- The example is in SSA form. -/
theorem elvisProgram_ssa : elvisProgram.SSA where
  written_once := by decide
  inputs_kept := by decide
  scheduled := by
    refine scheduled_cons.mpr ⟨?_, Scheduled.nil _⟩
    decide

/-- Its conditional is kept on these inputs, and the result is right. -/
theorem elvisProgram_correct_iff :
    ∃ st, run elvisProgram.instrs (storeWords (elvisProgram.inputs.zip [5, 7]) fun _ => 0) =
      some st ∧
    (∀ llmi ∈ (NaiveClusterizer.clusterize elvisProgram seSmall).instrs, llmi.InRange seSmall) ∧
    (elvisProgram.CmovsKept st → (NaiveClusterizer.clusterize elvisProgram seSmall).eval seSmall
      (fun _ _ => 0) [5, 7] =
      some (elvisProgram.outputs.map st)) ∧
    ((∀ outputs, (NaiveClusterizer.clusterize { elvisProgram with outputs := outputs } seSmall).eval
      seSmall (fun _ _ => 0) [5, 7] = some (outputs.map st)) ↔ elvisProgram.CmovsKept st) :=
  ⟨_, rfl, NaiveClusterizer.clusterize_correct_iff elvisProgram_ssa (by decide) (by decide)
    (by decide) rfl _⟩

/-- With `a = 0` and `b = 1` the source gives 1 and the element 0. -/
theorem elvisProgram_clusterized_wrong :
    elvisProgram.SSA ∧ elvisProgram.eval (storeWords (elvisProgram.inputs.zip [0, 1]) fun _ => 0) =
      some [1] ∧
    ∀ init, (NaiveClusterizer.clusterize elvisProgram seSmall).eval seSmall init [0, 1] =
      some [0] := by
  refine ⟨elvisProgram_ssa, by decide, fun init => ?_⟩
  rfl

end Obscure
