import Obscure.Runtime.Execute

/-!
# OBSCURE — sequences through the serializer and the secure element

What `serialize_lls` and `LLS_execute` do together, from the side of the
compiler: which sequences are written at all, and what running the bytes does.

* `llsExecute_serializes` — a sequence within the limits is written, and running
  its bytes is running its instructions;
* `serializeLLS_padded_iff` — padding with a `NOP` is not neutral: it makes the
  serializer raise.
-/

namespace Obscure

open Lib

/-! ## What the serializer writes -/

/-- A source the serializer has a code for: an existing register or an unsigned
word. -/
def Operand.Encodable (r : Nat) : Operand Nat → Prop
  | .loc a => a < r
  | .imm i => 0 ≤ i ∧ i < 2 ^ 32

/-- An instruction the serializer has a code for: not a `NOP`, registers of the
element, words as immediates. -/
structure Instr.Encodable (r : Nat) (lli : LLI) : Prop where
  opcode : lli.opcode ≠ .NOP
  dst : lli.dst < r
  src1 : lli.src1.isSome
  srcs : ∀ o ∈ lli.srcs, ∀ src ∈ o, src.Encodable r

instance (r : Nat) (o : Operand Nat) : Decidable (o.Encodable r) := by
  cases o <;> unfold Operand.Encodable <;> infer_instance

section Written

variable {cfg : SEConfig} {lbR : Nat}

/-- Register numbers fit the bytes reserved for them. -/
theorem memdict_bytelen {count m : Nat} (h : m < count) :
    memdict count (bytelen count) m = some (toBE (bytelen count) m) := by
  have hByte : m < 256 ^ bytelen count := lt_pow_of_lt_of_clog h
  rw [memdict, if_pos h, uintToBytes, if_pos hByte]

theorem serializeOperand_encodable (hWord : cfg.wordSize / 8 = 4) {o : Operand Nat}
    (h : o.Encodable cfg.r) : ∃ bs, serializeOperand cfg (bytelen cfg.r) o = some bs := by
  cases o with
  | loc a => exact ⟨_, memdict_bytelen h⟩
  | imm i =>
    obtain ⟨n, rfl⟩ := Int.eq_ofNat_of_zero_le h.1
    have hWide : n < 256 ^ 4 := by
      have := h.2
      norm_num at this ⊢
      exact_mod_cast this
    refine ⟨toBE 4 n, ?_⟩
    show uintToBytes n (cfg.wordSize / 8) = some (toBE 4 n)
    rw [hWord, uintToBytes, if_pos hWide]

theorem serializeSrc_encodable (hWord : cfg.wordSize / 8 = 4) {o : Option (Operand Nat)}
    (h : ∀ src ∈ o, src.Encodable cfg.r) :
    ∃ bs, serializeSrc cfg (bytelen cfg.r) o = some bs := by
  cases o with
  | none => exact ⟨[], rfl⟩
  | some o => exact serializeOperand_encodable hWord (h o rfl)

/-- Every shape without a gap has a code. -/
theorem exists_operandCode (k₁ : OperandKind) {k₂ k₃ : Option OperandKind}
    (h : k₂ = none → k₃ = none) : ∃ flag, operandCode k₁ k₂ k₃ = some flag := by
  rcases k₁ with _ | _ <;> rcases k₂ with _ | _ | _ <;> rcases k₃ with _ | _ | _ <;>
    simp_all [operandCode]

theorem serializeLLI_encodable (hWord : cfg.wordSize / 8 = 4) {lli : LLI}
    (h : lli.Encodable cfg.r) : ∃ bs, serializeLLI cfg (bytelen cfg.r) lli = some bs := by
  obtain ⟨src₁, hSrc₁⟩ := Option.isSome_iff_exists.mp h.src1
  obtain ⟨code₁, h₁⟩ := serializeOperand_encodable hWord (h.srcs lli.src1 (by simp [Instr.srcs])
    src₁ hSrc₁)
  obtain ⟨code₂, h₂⟩ := serializeSrc_encodable hWord (h.srcs lli.src2 (by simp [Instr.srcs]))
  obtain ⟨code₃, h₃⟩ := serializeSrc_encodable hWord (h.srcs lli.src3 (by simp [Instr.srcs]))
  have hShape : lli.src2.map Operand.kind = none → lli.src3.map Operand.kind = none := by
    simpa using lli.wf
  obtain ⟨flag, hFlag⟩ := exists_operandCode src₁.kind hShape
  rw [serializeLLI, if_neg h.opcode]
  simp only [memdict_bytelen h.dst, hSrc₁, h₁, h₂, h₃, hFlag, Option.bind_eq_bind,
    Option.bind_some, Option.pure_def]
  exact ⟨_, rfl⟩

theorem serializeLLS_encodable (hWord : cfg.wordSize / 8 = 4) {seq : List LLI}
    (h : ∀ lli ∈ seq, lli.Encodable cfg.r) :
    ∃ bs, serializeLLS cfg (bytelen cfg.r) seq = some bs := by
  induction seq with
  | nil => exact ⟨[], rfl⟩
  | cons lli rest ih =>
    obtain ⟨hHead, hRest⟩ := List.forall_mem_cons.mp h
    obtain ⟨code, hCode⟩ := serializeLLI_encodable hWord hHead
    obtain ⟨codes, hCodes⟩ := ih hRest
    exact ⟨code ++ codes, by simp [serializeLLS, hCode, hCodes]⟩

/-- A `NOP` anywhere makes the whole sequence fail. -/
theorem serializeLLS_of_nop {seq : List LLI} {nop : LLI} (hNop : nop.opcode = .NOP)
    (hMem : nop ∈ seq) : serializeLLS cfg lbR seq = none := by
  induction seq with
  | nil => cases hMem
  | cons lli rest ih =>
    rcases List.mem_cons.mp hMem with rfl | hMem
    · simp [serializeLLS, serializeLLI, hNop]
    · cases hCode : serializeLLI cfg lbR lli <;> simp [serializeLLS, hCode, ih hMem]

end Written

/-! ## Executing what was written -/

/-- **Running an encoded sequence is running its instructions.** The element
reads the bytes to their end, within its limit on the length of a sequence, and
leaves the registers the instructions leave; it stops where an instruction has
no result. The number of registers is a `u32` of the runtime. -/
theorem llsExecute_serializes {cfg : SEConfig} (hR : 2 ≤ cfg.r) (hWide : cfg.r < 2 ^ 32)
    (hWord : cfg.wordSize = 32) {seq : List LLI} (hLen : seq.length ≤ cfg.s)
    (hSeq : ∀ lli ∈ seq, lli.Encodable cfg.r) :
    ∃ lbR bytes, pyBytelen cfg.r = some lbR ∧ serializeLLS cfg lbR seq = some bytes ∧
      ∀ reg, llsExecute cfg.r 4 (bytelen cfg.r) cfg.s bytes reg = run seq reg := by
  have hBytes : cfg.wordSize / 8 = 4 := by rw [hWord]
  obtain ⟨bytes, hSer⟩ := serializeLLS_encodable hBytes hSeq
  refine ⟨bytelen cfg.r, bytes, pyBytelen_eq (by omega), hSer, ?_⟩
  intro reg
  exact llsExecute_serializeLLS reg (bytelen_pos hR) (bytelen_le_four hWide) hBytes hSer hLen

/-- Two shapes, a division and an overwritten register. -/
def divSeq : List LLI :=
  [{ opcode := .DIV, dst := 3, src1 := some (.loc 0), src2 := some (.loc 1) },
    { opcode := .CMOV, dst := 0, src1 := some (.imm 0), src2 := some (.loc 3),
      src3 := some (.imm (2 ^ 32 - 1)) }]

theorem llsExecute_serializes_divSeq :
    (2 ≤ seSmall.r ∧ seSmall.r < 2 ^ 32 ∧ seSmall.wordSize = 32 ∧
      divSeq.length ≤ seSmall.s) ∧
    ∃ lbR bytes, pyBytelen seSmall.r = some lbR ∧ serializeLLS seSmall lbR divSeq = some bytes ∧
      ∀ reg, llsExecute seSmall.r 4 (bytelen seSmall.r) seSmall.s bytes reg = run divSeq reg := by
  refine ⟨by decide, llsExecute_serializes (by decide) (by decide) rfl (by decide) ?_⟩
  intro lli hMem
  rcases List.mem_cons.mp hMem with rfl | hMem
  · exact ⟨by decide, by decide, by decide, by decide⟩
  · obtain rfl := List.mem_singleton.mp hMem
    exact ⟨by decide, by decide, by decide, by decide⟩

/-! ## Padding -/

/-- `padded` is `seq` with `NOP`s put in at any positions. -/
inductive NopPadded : List LLI → List LLI → Prop where
  | nil : NopPadded [] []
  | keep (lli : LLI) {seq padded : List LLI} (h : NopPadded seq padded) :
      NopPadded (lli :: seq) (lli :: padded)
  | pad {nop : LLI} (hNop : nop.opcode = .NOP) {seq padded : List LLI}
      (h : NopPadded seq padded) : NopPadded seq (nop :: padded)

/-- Either nothing was put in or a `NOP` is there. -/
theorem NopPadded.eq_or_exists {seq padded : List LLI} (h : NopPadded seq padded) :
    padded = seq ∨ ∃ nop ∈ padded, nop.opcode = .NOP := by
  induction h with
  | nil => exact Or.inl rfl
  | keep lli _ ih =>
    rcases ih with rfl | ⟨nop, hMem, hNop⟩
    · exact Or.inl rfl
    · exact Or.inr ⟨nop, List.mem_cons_of_mem _ hMem, hNop⟩
  | pad hNop => exact Or.inr ⟨_, List.mem_cons_self, hNop⟩

/-- The padded sequence is written, and its bytes leave the registers the bytes
of the original leave. -/
def PaddingNeutral (cfg : SEConfig) (lbR : Nat) (bytes : List UInt8) (padded : List LLI) : Prop :=
  ∃ bytes', serializeLLS cfg lbR padded = some bytes' ∧
    ∀ reg, llsExecute cfg.r 4 lbR cfg.s bytes' reg = llsExecute cfg.r 4 lbR cfg.s bytes reg

/-- **Padding is neutral exactly when nothing is put in**: the branch of the
serializer for a `NOP` looks up its number in a dictionary of names. -/
theorem serializeLLS_padded_iff {cfg : SEConfig} {lbR : Nat} {seq padded : List LLI}
    {bytes : List UInt8} (hSer : serializeLLS cfg lbR seq = some bytes)
    (hPad : NopPadded seq padded) : PaddingNeutral cfg lbR bytes padded ↔ padded = seq := by
  constructor
  · rintro ⟨bytes', hSer', -⟩
    rcases hPad.eq_or_exists with hEq | ⟨nop, hMem, hNop⟩
    · exact hEq
    · rw [serializeLLS_of_nop hNop hMem] at hSer'
      cases hSer'
  · rintro rfl
    exact ⟨bytes, hSer, fun reg => rfl⟩

/-- A sequence of one instruction. -/
def movSeq : List LLI := [{ opcode := .MOV, dst := 0, src1 := some (.imm 1) }]

/-- A `NOP` as the clusterizer would add it. -/
def nopLLI : LLI := { opcode := .NOP, dst := 0, src1 := none }

theorem serializeLLS_padded_iff_movSeq :
    ∃ bytes, serializeLLS seSmall 1 movSeq = some bytes ∧ NopPadded movSeq (nopLLI :: movSeq) ∧
      (PaddingNeutral seSmall 1 bytes (nopLLI :: movSeq) ↔ nopLLI :: movSeq = movSeq) :=
  ⟨[16, 0, 0, 0, 0, 1], by decide, .pad rfl (.keep _ .nil),
    serializeLLS_padded_iff (by decide) (.pad rfl (.keep _ .nil))⟩

theorem movSeq_padding_not_neutral :
    ∃ bytes, serializeLLS seSmall 1 movSeq = some bytes ∧
      NopPadded movSeq (movSeq ++ [nopLLI]) ∧ (movSeq ++ [nopLLI]).length ≤ seSmall.s ∧
      ¬ PaddingNeutral seSmall 1 bytes (movSeq ++ [nopLLI]) := by
  refine ⟨[16, 0, 0, 0, 0, 1], by decide, .keep _ (.pad rfl .nil), by decide, ?_⟩
  rintro ⟨bytes', hSer, -⟩
  cases hSer

end Obscure
