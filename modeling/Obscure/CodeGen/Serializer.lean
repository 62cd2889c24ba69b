import Obscure.IR
import Obscure.Config
import Obscure.Lib.Bytes

/-!
# OBSCURE — the serializer

`compiler/src/code_gen/serializer.py`: an LLIR program becomes a bytecode file, a
header followed by one record per multi-instruction. The AEAD
(`schwaemm128128_encrypt` under the shared key) and the sealed shared key are
parameters; the sequence of a multi-instruction is encrypted with its own ID as
nonce and its public fields as associated data.

A Python exception is `none`: a number too large for its field (`OverflowError`
of `to_bytes`), a cell, register or ID that is not in its dictionary
(`KeyError`), a missing first operand (`ValueError`).
-/

namespace Obscure

open Lib

/-- `(InstrID, OutputID)`: which word of the execution an input is. -/
structure ID where
  instrID : Nat
  outputID : Nat
deriving DecidableEq, Repr

/-- `uint_tobytes`. -/
def uintToBytes (n len : Nat) : Option (List UInt8) :=
  if n < 256 ^ len then some (toBE len n) else none

/-- The byte length the compiler computes, `((ceil(log2(n)) + 7) & (-8)) // 8`. -/
def pyBytelen (n : Nat) : Option Nat :=
  if n = 0 then none else some ((Nat.clog 2 n + 7) / 8 * 8 / 8)

/-- Lookup in the dictionary `create_memdict(count, bytelen)`. -/
def memdict (count len m : Nat) : Option (List UInt8) :=
  if m < count then uintToBytes m len else none

/-! ## Low-level sequences -/

/-- The two kinds of source operand an instruction can carry. -/
inductive OperandKind where
  | imm
  | reg
deriving DecidableEq, Repr

def Operand.kind {α : Type} : Operand α → OperandKind
  | .loc _ => .reg
  | .imm _ => .imm

/-- `OperandCode`: the kinds of the three sources as a number of four bits. -/
def operandCode : OperandKind → Option OperandKind → Option OperandKind → Option Nat
  | .imm, none, none => some 0
  | .imm, some .reg, none => some 1
  | .imm, some .reg, some .reg => some 2
  | .imm, some .reg, some .imm => some 3
  | .imm, some .imm, none => some 4
  | .imm, some .imm, some .reg => some 5
  | .imm, some .imm, some .imm => some 6
  | .reg, none, none => some 7
  | .reg, some .reg, none => some 8
  | .reg, some .reg, some .imm => some 9
  | .reg, some .reg, some .reg => some 10
  | .reg, some .imm, some .imm => some 11
  | .reg, some .imm, some .reg => some 12
  | .reg, some .imm, none => some 13
  | _, none, some _ => none

/-- The bytes of one source operand. -/
def serializeOperand (cfg : SEConfig) (lbR : Nat) : Operand Nat → Option (List UInt8)
  | .loc r => memdict cfg.r lbR r
  | .imm (.ofNat n) => uintToBytes n (cfg.wordSize / 8)
  | .imm (.negSucc _) => none

/-- An absent second or third source takes no bytes. -/
def serializeSrc (cfg : SEConfig) (lbR : Nat) : Option (Operand Nat) → Option (List UInt8)
  | none => some []
  | some o => serializeOperand cfg lbR o

/-- One iteration of `serialize_lls`. The opcode dictionary is keyed by names, so
the look-up the source makes for a `NOP`, by value, raises. -/
def serializeLLI (cfg : SEConfig) (lbR : Nat) (lli : LLI) : Option (List UInt8) :=
  if lli.opcode = .NOP then none
  else do
    let dst ← memdict cfg.r lbR lli.dst
    let src1 ← lli.src1
    let src1Code ← serializeOperand cfg lbR src1
    let src2Code ← serializeSrc cfg lbR lli.src2
    let src3Code ← serializeSrc cfg lbR lli.src3
    let flag ← operandCode src1.kind (lli.src2.map Operand.kind) (lli.src3.map Operand.kind)
    pure (UInt8.ofNat (lli.opcode.value * 16 + flag) ::
      (dst ++ src1Code ++ src2Code ++ src3Code))

/-- `serialize_lls`. -/
def serializeLLS (cfg : SEConfig) (lbR : Nat) : List LLI → Option (List UInt8)
  | [] => some []
  | lli :: rest => do
    let code ← serializeLLI cfg lbR lli
    let codes ← serializeLLS cfg lbR rest
    pure (code ++ codes)

/-! ## Multi-instructions -/

/-- `id_dict`, the newest binding of a cell first. -/
abbrev IdDict := List (Nat × ID)

/-- Bind cells to consecutive IDs: the cell at position `idx` gets `id idx`. -/
def bindIDs (id : Nat → ID) : Nat → List Nat → IdDict → IdDict
  | _, [], ids => ids
  | idx, m :: ms, ids => bindIDs id (idx + 1) ms ((m, id idx) :: ids)

/-- The ID of the program input at position `idx`. -/
def inputID (lOut idx : Nat) : ID := ⟨idx / lOut + 1, idx % lOut⟩

/-- The ID of the multi-instruction at position `i` of a program. -/
def LLIRProgram.instrID (ir : LLIRProgram) (lOut i : Nat) : Nat :=
  (i + 1) + (ir.inputs.length / lOut + 1)

/-- The reveal flag is set when some output is an output of the program. -/
def LLIRProgram.revealFlag (ir : LLIRProgram) (llmi : LLMI) : Nat :=
  if llmi.outputs.any fun out => out ∈ ir.outputs then 1 else 0

/-- The byte lengths of a file. -/
structure Widths where
  lbM : Nat
  lbO : Nat
  lbR : Nat

/-- What one iteration of the loop of `serialize` computes: the public fields of
the multi-instruction, the AEAD call and the record that is written. -/
structure LLMICode where
  inputs : List Nat
  outputs : List Nat
  instrID : Nat
  revealFlag : Nat
  inputIDs : List ID
  msg : List UInt8
  ad : List UInt8
  nonce : List UInt8
  lls : List UInt8
  bytes : List UInt8
deriving DecidableEq

/-- The bytes of one input ID. -/
def serializeID (lbO : Nat) (id : ID) : Option (List UInt8) := do
  let instrID ← uintToBytes id.instrID 4
  let outputID ← uintToBytes id.outputID lbO
  pure (instrID ++ outputID)

/-- Concatenated bytes of a list of items. -/
def serializeAll {α : Type} (f : α → Option (List UInt8)) : List α → Option (List UInt8)
  | [] => some []
  | x :: xs => do
    let code ← f x
    let codes ← serializeAll f xs
    pure (code ++ codes)

section Serialize

-- `encrypt msg ad nonce` is the AEAD under the shared key
variable (encrypt : List UInt8 → List UInt8 → List UInt8 → List UInt8)

/-- The body of the loop over the multi-instructions: look the inputs up before
binding the outputs, then write the record. -/
def serializeLLMI (cfg : SEConfig) (ir : LLIRProgram) (w : Widths) (i : Nat) (ids : IdDict)
    (llmi : LLMI) : Option (LLMICode × IdDict) := do
  let instrID := ir.instrID cfg.lOut i
  let inputCount ← uintToBytes llmi.inputs.length w.lbM
  let inputsBstr ← serializeAll (memdict ir.memoryCount w.lbM) llmi.inputs
  let inputIDs ← llmi.inputs.mapM fun m => ids.lookup m
  let outputCount ← uintToBytes llmi.outputs.length w.lbM
  let outputsBstr ← serializeAll (memdict ir.memoryCount w.lbM) llmi.outputs
  let instrIDBstr ← uintToBytes instrID 4
  let flag := ir.revealFlag llmi
  let flagBstr := [UInt8.ofNat flag]
  let inputIDsBstr ← serializeAll (serializeID w.lbO) inputIDs
  let msg ← serializeLLS cfg w.lbR llmi.seq
  let ad := instrIDBstr ++ flagBstr ++ inputCount ++ inputIDsBstr ++ outputCount
  let nonce ← uintToBytes instrID 32
  let lls := encrypt msg ad nonce
  let llsBytelen ← uintToBytes lls.length 4
  let bytes := inputCount ++ inputsBstr ++ outputCount ++ outputsBstr ++ instrIDBstr ++
    flagBstr ++ inputIDsBstr ++ llsBytelen ++ lls
  pure (⟨llmi.inputs, llmi.outputs, instrID, flag, inputIDs, msg, ad, nonce, lls, bytes⟩,
    bindIDs (fun j => ⟨instrID, j⟩) 0 llmi.outputs ids)

/-- The loop over the multi-instructions from position `i` on. -/
def serializeLLMIs (cfg : SEConfig) (ir : LLIRProgram) (w : Widths) :
    Nat → IdDict → List LLMI → Option (List LLMICode)
  | _, _, [] => some []
  | i, ids, llmi :: rest => do
    let (code, ids') ← serializeLLMI encrypt cfg ir w i ids llmi
    let codes ← serializeLLMIs cfg ir w (i + 1) ids' rest
    pure (code :: codes)

/-- `serialize_metadata`. -/
def serializeMetadata (cfg : SEConfig) : Option (List UInt8) :=
  serializeAll (fun n => uintToBytes n 4)
    [cfg.version, cfg.wordSize, cfg.lIn, cfg.lOut, cfg.r, cfg.s]

/-- What `serialize` writes: the header, then one record per multi-instruction. -/
structure Bytecode where
  header : List UInt8
  llmis : List LLMICode

def Bytecode.bytes (bc : Bytecode) : List UInt8 := bc.header ++ bc.llmis.flatMap LLMICode.bytes

/-- `serialize`; `ctSk` is the sealed shared key. -/
def serialize (ctSk : List UInt8) (cfg : SEConfig) (ir : LLIRProgram) : Option Bytecode := do
  let lbO ← pyBytelen cfg.lOut
  let lbM ← pyBytelen ir.memoryCount
  let lbR ← pyBytelen cfg.r
  let metadata ← serializeMetadata cfg
  let memoryCount ← uintToBytes ir.memoryCount 4
  let inputCount ← uintToBytes ir.inputs.length lbM
  let inputs ← serializeAll (memdict ir.memoryCount lbM) ir.inputs
  let outputCount ← uintToBytes ir.outputs.length lbM
  let outputs ← serializeAll (memdict ir.memoryCount lbM) ir.outputs
  let llmiCount ← uintToBytes ir.instrs.length 4
  let llmis ← serializeLLMIs encrypt cfg ir ⟨lbM, lbO, lbR⟩ 0
    (bindIDs (inputID cfg.lOut) 0 ir.inputs []) ir.instrs
  pure ⟨metadata ++ memoryCount ++ ctSk ++ inputCount ++ inputs ++ outputCount ++ outputs ++
    llmiCount, llmis⟩

end Serialize

end Obscure
