import Obscure.Runtime.Format

/-!
# OBSCURE — running a serialized sequence

`LLS_execute` decodes a sequence byte by byte and runs it on the registers. On
the bytes `serialize_lls` writes it does what `run` does on the instructions,
including where it stops on a division by zero or an oversized shift.
-/

namespace Obscure

open Lib

section Operands

variable {cfg : SEConfig} {lbR : Nat} (reg : Regs)

/-- A source operand, read back and evaluated. -/
theorem reads_loadValue (hPos : 1 ≤ lbR) (hLen : lbR ≤ 4) (hWord : cfg.wordSize / 8 = 4)
    {o : Operand Nat} {bs : List UInt8} (h : serializeOperand cfg lbR o = some bs) :
    Reads (loadValue cfg.r 4 lbR reg o.kind) bs (srcVal reg (some o)) := by
  cases o with
  | loc a =>
    obtain ⟨hReg, hByte, rfl⟩ := memdict_eq_some.mp h
    intro rest
    have hRead := reads_loadU32 hPos hLen hByte rest
    simp [Operand.kind, loadValue, StateT.run_bind, hRead, hReg, srcVal]
  | imm i =>
    cases i with
    | negSucc n => cases h
    | ofNat n =>
      rw [serializeOperand, hWord] at h
      obtain ⟨hWide, rfl⟩ := uintToBytes_eq_some.mp h
      intro rest
      have hRead := reads_loadU32 (by decide) (by decide) hWide rest
      have hVal : BitVec.ofNat 32 n = BitVec.ofInt 32 (Int.ofNat n) := by simp
      simp only [Operand.kind, loadValue, loadWord, StateT.run_map, hRead, srcVal, ← hVal]
      rfl

/-- An optional source operand, read back and evaluated. -/
theorem reads_loadSrc (hPos : 1 ≤ lbR) (hLen : lbR ≤ 4) (hWord : cfg.wordSize / 8 = 4)
    {o : Option (Operand Nat)} {bs : List UInt8} (h : serializeSrc cfg lbR o = some bs) :
    Reads (loadSrc cfg.r 4 lbR reg (o.map Operand.kind)) bs (srcVal reg o) := by
  cases o with
  | none =>
    obtain rfl : [] = bs := by simpa [serializeSrc] using h
    exact Reads.pure 0
  | some o => exact reads_loadValue reg hPos hLen hWord h

/-- The flag of a written instruction decodes to the kinds of its operands. -/
theorem flagKinds_operandCode {k₁ : OperandKind} {k₂ k₃ : Option OperandKind} {flag : Nat}
    (h : operandCode k₁ k₂ k₃ = some flag) :
    flagKinds flag = some (k₁, k₂, k₃) ∧ flag < 16 := by
  rcases k₁ with _ | _ <;> rcases k₂ with _ | _ | _ <;> rcases k₃ with _ | _ | _ <;>
    simp [operandCode] at h <;> subst h <;> exact ⟨rfl, by decide⟩

theorem Opcode.ofValue_value (op : Opcode) : Opcode.ofValue op.value = some op := by
  cases op <;> rfl

theorem Opcode.value_lt (op : Opcode) : op.value < 16 := by
  cases op <;> decide

theorem Opcode.value_eq_zero {op : Opcode} : op.value = Opcode.NOP.value ↔ op = .NOP := by
  cases op <;> decide

/-- Everything a written instruction consists of. -/
theorem serializeLLI_eq_some {lli : LLI} {bs : List UInt8}
    (h : serializeLLI cfg lbR lli = some bs) :
    ∃ src₁ code₁ code₂ code₃ flag, lli.opcode ≠ .NOP ∧ lli.dst < cfg.r ∧ lli.dst < 256 ^ lbR ∧
      lli.src1 = some src₁ ∧ serializeOperand cfg lbR src₁ = some code₁ ∧
      serializeSrc cfg lbR lli.src2 = some code₂ ∧ serializeSrc cfg lbR lli.src3 = some code₃ ∧
      operandCode src₁.kind (lli.src2.map Operand.kind) (lli.src3.map Operand.kind) = some flag ∧
      bs = UInt8.ofNat (lli.opcode.value * 16 + flag) ::
        (toBE lbR lli.dst ++ code₁ ++ code₂ ++ code₃) := by
  rw [serializeLLI] at h
  split at h
  · cases h
  case isFalse hNop =>
    simp only [Option.bind_eq_bind, Option.bind_eq_some_iff, Option.pure_def, Option.some.injEq,
      memdict_eq_some] at h
    obtain ⟨_, ⟨hReg, hByte, rfl⟩, src₁, hSrc₁, code₁, h₁, code₂, h₂, code₃, h₃, flag, hFlag,
      rfl⟩ := h
    exact ⟨src₁, code₁, code₂, code₃, flag, hNop, hReg, hByte, hSrc₁, h₁, h₂, h₃, hFlag, rfl⟩

/-- One instruction: the loop body of `LLS_execute` does what `exec` does. -/
theorem llsInstr_serializeLLI (hPos : 1 ≤ lbR) (hLen : lbR ≤ 4) (hWord : cfg.wordSize / 8 = 4)
    {lli : LLI} {bs : List UInt8} (h : serializeLLI cfg lbR lli = some bs) :
    ∃ head tail, bs = head :: tail ∧ ∀ rest,
      (llsInstr cfg.r 4 lbR reg head).run (tail ++ rest) =
        (lli.exec reg).map fun reg' => (reg', rest) := by
  obtain ⟨src₁, code₁, code₂, code₃, flag, hNop, hReg, hByte, hSrc₁, h₁, h₂, h₃, hFlag, rfl⟩ :=
    serializeLLI_eq_some h
  refine ⟨_, _, rfl, ?_⟩
  intro rest
  obtain ⟨hKinds, hFlagLt⟩ := flagKinds_operandCode hFlag
  -- the head byte splits back into opcode and flag
  have hOpLt := lli.opcode.value_lt
  have hHead : (UInt8.ofNat (lli.opcode.value * 16 + flag)).toNat =
      lli.opcode.value * 16 + flag := by
    rw [UInt8.toNat_ofNat', Nat.mod_eq_of_lt (by omega)]
  have hOp : (lli.opcode.value * 16 + flag) / 16 = lli.opcode.value := by omega
  have hFl : (lli.opcode.value * 16 + flag) % 16 = flag := by omega
  have hNop' : ¬ lli.opcode.value = Opcode.NOP.value := fun h => hNop (Opcode.value_eq_zero.mp h)
  have hDst := reads_loadU32 hPos hLen hByte (code₁ ++ (code₂ ++ (code₃ ++ rest)))
  have hRead₁ := reads_loadValue reg hPos hLen hWord h₁ (code₂ ++ (code₃ ++ rest))
  have hRead₂ := reads_loadSrc reg hPos hLen hWord h₂ (code₃ ++ rest)
  have hRead₃ := reads_loadSrc reg hPos hLen hWord h₃ rest
  have hRun : (llsInstr cfg.r 4 lbR reg (UInt8.ofNat (lli.opcode.value * 16 + flag))).run
      (toBE lbR lli.dst ++ (code₁ ++ (code₂ ++ (code₃ ++ rest)))) =
      (instructionExecute lli.opcode (srcVal reg (some src₁)) (srcVal reg lli.src2)
        (srcVal reg lli.src3)).map fun ret => (Function.update reg lli.dst ret, rest) := by
    simp only [llsInstr, hHead, hOp, hFl, if_neg hNop', StateT.run_bind, hDst, Option.bind_eq_bind,
      Option.bind_some, hKinds, run_liftM, Option.map_some, hRead₁, hRead₂, hRead₃,
      Opcode.ofValue_value, if_pos hReg]
    cases instructionExecute lli.opcode (srcVal reg (some src₁)) (srcVal reg lli.src2)
      (srcVal reg lli.src3) <;> rfl
  simp only [List.append_assoc]
  rw [hRun, Instr.exec, Instr.result, hSrc₁, Option.map_map]
  rfl

/-- A whole sequence. It is short enough for the counter of the loop, so only
the instructions themselves can stop it. -/
theorem llsExecute_serializeLLS (hPos : 1 ≤ lbR) (hLen : lbR ≤ 4) (hWord : cfg.wordSize / 8 = 4)
    {seq : List LLI} {bs : List UInt8} (h : serializeLLS cfg lbR seq = some bs) {fuel : Nat}
    (hFuel : seq.length ≤ fuel) : llsExecute cfg.r 4 lbR fuel bs reg = run seq reg := by
  induction seq generalizing bs fuel reg with
  | nil =>
    obtain rfl : [] = bs := by simpa [serializeLLS] using h
    simp [llsExecute, run]
  | cons lli rest ih =>
    simp only [serializeLLS, Option.bind_eq_bind, Option.bind_eq_some_iff, Option.pure_def,
      Option.some.injEq] at h
    obtain ⟨code, hCode, codes, hCodes, rfl⟩ := h
    obtain ⟨head, tail, rfl, hInstr⟩ := llsInstr_serializeLLI reg hPos hLen hWord hCode
    obtain ⟨fuel, rfl⟩ : ∃ n, fuel = n + 1 := ⟨fuel - 1, by rw [List.length_cons] at hFuel; omega⟩
    rw [List.cons_append, llsExecute, hInstr codes, run]
    cases hExec : lli.exec reg with
    | none => rfl
    | some reg' =>
      show llsExecute cfg.r 4 lbR fuel codes reg' = run rest reg'
      exact ih reg' hCodes (by rw [List.length_cons] at hFuel; omega)

end Operands

end Obscure
