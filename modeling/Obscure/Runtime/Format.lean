import Obscure.Runtime.Interpreter
import Obscure.Lib.Lists

/-!
# OBSCURE — the bytecode format

What the interpreter reads back from a file the serializer wrote. Every field is
read with the width it was written with, because both sides derive the widths
from the same two numbers; so parsing recovers the program and stops at the last
byte. `LLS_decrypt` rebuilds the associated data of a multi-instruction from the
parsed fields; the length of its buffer is computed in 32 bits, and it is this
length alone that can make the rebuilt data differ from what was encrypted.
-/

namespace Obscure

open Lib

/-! ## Fields -/

/-- The exact logarithm gives the number of bytes. -/
theorem pyBytelen_eq {n : Nat} (h : n ≠ 0) : pyBytelen n = some (bytelen n) := by
  rw [pyBytelen, if_neg h, Nat.mul_div_cancel _ (by decide), bytelen]

/-- A number is written if it fits. -/
theorem uintToBytes_eq_some {n len : Nat} {bs : List UInt8} :
    uintToBytes n len = some bs ↔ n < 256 ^ len ∧ bs = toBE len n := by
  unfold uintToBytes
  split <;> simp_all [eq_comm]

/-- An address is written if there is one and it fits. -/
theorem memdict_eq_some {count len m : Nat} {bs : List UInt8} :
    memdict count len m = some bs ↔ m < count ∧ m < 256 ^ len ∧ bs = toBE len m := by
  unfold memdict
  split <;> simp_all [uintToBytes_eq_some]

/-- A number is read back. -/
theorem reads_loadU32 {len n : Nat} (hPos : 1 ≤ len) (hLen : len ≤ 4) (h : n < 256 ^ len) :
    Reads (loadU32 len) (toBE len n) n := by
  intro rest
  have hTake := reads_takeBytes (toBE len n) rest
  rw [length_toBE] at hTake
  rw [loadU32, if_pos ⟨hPos, hLen⟩, StateT.run_map, hTake]
  show some (ofBE (toBE len n), rest) = some (n, rest)
  rw [ofBE_toBE_of_lt h]

/-- A list is written item by item. -/
theorem serializeAll_cons_eq_some {α : Type} {f : α → Option (List UInt8)} {x : α} {xs : List α}
    {bs : List UInt8} : serializeAll f (x :: xs) = some bs ↔
      ∃ b bs', f x = some b ∧ serializeAll f xs = some bs' ∧ bs = b ++ bs' := by
  simp only [serializeAll, Option.bind_eq_bind, Option.bind_eq_some_iff, Option.pure_def,
    Option.some.injEq]
  constructor
  · rintro ⟨b, hb, bs', hbs', rfl⟩
    exact ⟨b, bs', hb, hbs', rfl⟩
  · rintro ⟨b, bs', hb, hbs', rfl⟩
    exact ⟨b, hb, bs', hbs', rfl⟩

/-- Items written one after the other are read back by repeating a reader that
reads each of them back. -/
theorem reads_serializeAll {α : Type} {f : α → Option (List UInt8)} {p : Reader α} {xs : List α}
    {bs : List UInt8} (h : serializeAll f xs = some bs)
    (hRead : ∀ x b, f x = some b → Reads p b x) : Reads (times p xs.length) bs xs := by
  induction xs generalizing bs with
  | nil =>
    obtain rfl : [] = bs := by simpa [serializeAll] using h
    exact Reads.pure []
  | cons x xs ih =>
    obtain ⟨b, bs', hb, hbs', rfl⟩ := serializeAll_cons_eq_some.mp h
    exact Reads.bind (hRead x b hb) (Reads.bind_pure (ih hbs'))

/-- A count and a list of cells of the serializer, read back. -/
theorem reads_loadCells {count lbM : Nat} {ms : List Nat} {bs : List UInt8} (hPos : 1 ≤ lbM)
    (hLen : lbM ≤ 4) (hCount : ms.length < 256 ^ lbM)
    (h : serializeAll (memdict count lbM) ms = some bs) :
    Reads (loadCells lbM) (toBE lbM ms.length ++ bs) ms := by
  refine Reads.bind (reads_loadU32 hPos hLen hCount) (reads_serializeAll h ?_)
  intro m b hb
  obtain ⟨-, hm, rfl⟩ := memdict_eq_some.mp hb
  exact reads_loadU32 hPos hLen hm

/-- An ID is written as its two numbers. -/
theorem serializeID_eq_some {lbO : Nat} {id : ID} {bs : List UInt8} :
    serializeID lbO id = some bs ↔ id.instrID < 256 ^ 4 ∧ id.outputID < 256 ^ lbO ∧
      bs = toBE 4 id.instrID ++ toBE lbO id.outputID := by
  simp only [serializeID, Option.bind_eq_bind, Option.bind_eq_some_iff, uintToBytes_eq_some,
    Option.pure_def, Option.some.injEq]
  constructor
  · rintro ⟨_, ⟨h₁, rfl⟩, _, ⟨h₂, rfl⟩, rfl⟩
    exact ⟨h₁, h₂, rfl⟩
  · rintro ⟨h₁, h₂, rfl⟩
    exact ⟨_, ⟨h₁, rfl⟩, _, ⟨h₂, rfl⟩, rfl⟩

/-- An ID is read back. -/
theorem reads_loadID {lbO : Nat} {id : ID} {bs : List UInt8} (hPos : 1 ≤ lbO) (hLen : lbO ≤ 4)
    (h : serializeID lbO id = some bs) : Reads (loadID lbO) bs id := by
  obtain ⟨hInstr, hOut, rfl⟩ := serializeID_eq_some.mp h
  exact Reads.bind (reads_loadU32 (by decide) (by decide) hInstr)
    (Reads.bind_pure (reads_loadU32 hPos hLen hOut))

/-! ## One multi-instruction -/

section LLMI

variable {encrypt : List UInt8 → List UInt8 → List UInt8 → List UInt8}
variable {cfg : SEConfig} {ir : LLIRProgram} {w : Widths} {i : Nat} {ids ids' : IdDict}
variable {llmi : LLMI} {code : LLMICode}

/-- Everything a successful iteration of the loop of `serialize` says about its
result. -/
structure LLMICode.Written (encrypt : List UInt8 → List UInt8 → List UInt8 → List UInt8)
    (cfg : SEConfig) (ir : LLIRProgram) (w : Widths) (i : Nat) (ids : IdDict) (llmi : LLMI)
    (code : LLMICode) : Prop where
  inputs_eq : code.inputs = llmi.inputs
  outputs_eq : code.outputs = llmi.outputs
  instrID_eq : code.instrID = ir.instrID cfg.lOut i
  revealFlag_eq : code.revealFlag = ir.revealFlag llmi
  inputIDs_eq : llmi.inputs.mapM (fun m => ids.lookup m) = some code.inputIDs
  msg_eq : serializeLLS cfg w.lbR llmi.seq = some code.msg
  lls_eq : code.lls = encrypt code.msg code.ad code.nonce
  nonce_eq : code.nonce = toBE 32 code.instrID
  inputCount_lt : llmi.inputs.length < 256 ^ w.lbM
  outputCount_lt : llmi.outputs.length < 256 ^ w.lbM
  instrID_lt : code.instrID < 256 ^ 4
  bytelen_lt : code.lls.length < 256 ^ 4
  layout : ∃ inputsBstr outputsBstr inputIDsBstr,
    serializeAll (memdict ir.memoryCount w.lbM) llmi.inputs = some inputsBstr ∧
    serializeAll (memdict ir.memoryCount w.lbM) llmi.outputs = some outputsBstr ∧
    serializeAll (serializeID w.lbO) code.inputIDs = some inputIDsBstr ∧
    code.ad = toBE 4 code.instrID ++ [UInt8.ofNat code.revealFlag] ++
      toBE w.lbM llmi.inputs.length ++ inputIDsBstr ++ toBE w.lbM llmi.outputs.length ∧
    code.bytes = toBE w.lbM llmi.inputs.length ++ inputsBstr ++
      toBE w.lbM llmi.outputs.length ++ outputsBstr ++ toBE 4 code.instrID ++
      [UInt8.ofNat code.revealFlag] ++ inputIDsBstr ++ toBE 4 code.lls.length ++ code.lls

/-- What the serializer writes for a multi-instruction is what the format says, and its outputs
get its IDs. -/
theorem serializeLLMI_written
    (h : serializeLLMI encrypt cfg ir w i ids llmi = some (code, ids')) :
    code.Written encrypt cfg ir w i ids llmi ∧
      ids' = bindIDs (fun j => ⟨code.instrID, j⟩) 0 llmi.outputs ids := by
  obtain ⟨_, hInEq, h⟩ := Option.bind_eq_some_iff.mp h
  obtain ⟨inputsBstr, hInputs, h⟩ := Option.bind_eq_some_iff.mp h
  obtain ⟨inputIDs, hIDs, h⟩ := Option.bind_eq_some_iff.mp h
  obtain ⟨_, hOutEq, h⟩ := Option.bind_eq_some_iff.mp h
  obtain ⟨outputsBstr, hOutputs, h⟩ := Option.bind_eq_some_iff.mp h
  obtain ⟨_, hInstrEq, h⟩ := Option.bind_eq_some_iff.mp h
  obtain ⟨inputIDsBstr, hIDsBstr, h⟩ := Option.bind_eq_some_iff.mp h
  obtain ⟨msg, hMsg, h⟩ := Option.bind_eq_some_iff.mp h
  obtain ⟨_, hNonceEq, h⟩ := Option.bind_eq_some_iff.mp h
  obtain ⟨_, hLenEq, h⟩ := Option.bind_eq_some_iff.mp h
  obtain ⟨hIn, rfl⟩ := uintToBytes_eq_some.mp hInEq
  obtain ⟨hOut, rfl⟩ := uintToBytes_eq_some.mp hOutEq
  obtain ⟨hInstr, rfl⟩ := uintToBytes_eq_some.mp hInstrEq
  obtain ⟨-, rfl⟩ := uintToBytes_eq_some.mp hNonceEq
  obtain ⟨hLen, rfl⟩ := uintToBytes_eq_some.mp hLenEq
  cases h
  exact ⟨⟨rfl, rfl, rfl, rfl, hIDs, hMsg, rfl, rfl, hIn, hOut, hInstr, hLen,
    inputsBstr, outputsBstr, inputIDsBstr, hInputs, hOutputs, hIDsBstr, rfl, rfl⟩, rfl⟩

/-- The record the interpreter should build from a written one. -/
def LLMICode.parsed (code : LLMICode) : ParsedLLMI where
  memInps := code.inputs
  memOuts := code.outputs
  aells := ⟨code.revealFlag, code.outputs.length, code.inputIDs, code.instrID, code.lls⟩

theorem revealFlag_le_one (ir : LLIRProgram) (llmi : LLMI) : ir.revealFlag llmi ≤ 1 := by
  unfold LLIRProgram.revealFlag
  split <;> decide

/-- The widths the interpreter can read numbers with. -/
structure Widths.Readable (w : Widths) : Prop where
  lbM_pos : 1 ≤ w.lbM
  lbM_le : w.lbM ≤ 4
  lbO_pos : 1 ≤ w.lbO
  lbO_le : w.lbO ≤ 4

/-- The flag takes the one byte that both sides write for it. -/
theorem LLMICode.Written.flag_byte (h : code.Written encrypt cfg ir w i ids llmi) :
    [UInt8.ofNat code.revealFlag] = toBE 1 code.revealFlag ∧ code.revealFlag < 256 ^ 1 := by
  have hFlag : code.revealFlag ≤ 1 := h.revealFlag_eq ▸ revealFlag_le_one ir llmi
  exact ⟨by simp [toBE], by omega⟩

/-- The interpreter reads a written record back. -/
theorem LLMICode.Written.reads (hw : w.Readable) (h : code.Written encrypt cfg ir w i ids llmi) :
    Reads (interpretLLMI w.lbM w.lbO) code.bytes code.parsed := by
  obtain ⟨inputsBstr, outputsBstr, inputIDsBstr, hIn, hOut, hIDs, -, hBytes⟩ := h.layout
  obtain ⟨hByte, hFlag⟩ := h.flag_byte
  have hCount : code.inputIDs.length = llmi.inputs.length := length_of_mapM_eq_some h.inputIDs_eq
  have hReadIDs : Reads (times (loadID w.lbO) llmi.inputs.length) inputIDsBstr code.inputIDs := by
    rw [← hCount]
    exact reads_serializeAll hIDs fun id b hb => reads_loadID hw.lbO_pos hw.lbO_le hb
  -- the fields in the order of the reader
  have hAll : Reads (interpretLLMI w.lbM w.lbO) _ _ :=
    Reads.bind (reads_loadCells hw.lbM_pos hw.lbM_le h.inputCount_lt hIn) <|
    Reads.bind (reads_loadCells hw.lbM_pos hw.lbM_le h.outputCount_lt hOut) <|
    Reads.bind (reads_loadU32 (by decide) (by decide) h.instrID_lt) <|
    Reads.bind (reads_loadU32 (by decide) (by decide) hFlag) <|
    Reads.bind hReadIDs <|
    Reads.bind (reads_loadU32 (by decide) (by decide) h.bytelen_lt) <|
    Reads.bind_pure (reads_takeBytes code.lls)
  have hParsed : code.parsed = ⟨llmi.inputs, llmi.outputs,
      ⟨code.revealFlag, llmi.outputs.length, code.inputIDs, code.instrID, code.lls⟩⟩ := by
    rw [LLMICode.parsed, h.inputs_eq, h.outputs_eq]
  rw [hParsed]
  refine hAll.congr ?_
  rw [hBytes, hByte]
  simp only [List.append_assoc]

/-- The IDs `LLS_decrypt` writes are those the serializer wrote. -/
theorem serializeAll_ids {lbO : Nat} (hPos : 1 ≤ lbO) (hLen : lbO ≤ 4) {ids : List ID}
    {bs : List UInt8} (h : serializeAll (serializeID lbO) ids = some bs) :
    serializeAll (ID.toBytes lbO) ids = some bs ∧ bs.length = (4 + lbO) * ids.length := by
  induction ids generalizing bs with
  | nil =>
    obtain rfl : [] = bs := by simpa [serializeAll] using h
    exact ⟨rfl, rfl⟩
  | cons id ids ih =>
    obtain ⟨b, bs', hb, hbs', rfl⟩ := serializeAll_cons_eq_some.mp h
    obtain ⟨-, -, rfl⟩ := serializeID_eq_some.mp hb
    obtain ⟨hRest, hRestLen⟩ := ih hbs'
    constructor
    · refine serializeAll_cons_eq_some.mpr ⟨_, bs', ?_, hRest, rfl⟩
      simp [ID.toBytes, u32ToBytes, hPos, hLen]
    · simp only [List.length_append, length_toBE, List.length_cons, hRestLen]
      ring

/-- The rebuilt associated data is that of the serializer exactly when its
length fits 32 bits; otherwise the buffer is overrun. -/
theorem LLMICode.Written.ad_parsed (hw : w.Readable)
    (h : code.Written encrypt cfg ir w i ids llmi) :
    code.parsed.aells.ad w.lbM w.lbO =
      if 5 + 2 * w.lbM + (4 + w.lbO) * llmi.inputs.length < 2 ^ 32 then some code.ad
      else none := by
  obtain ⟨-, -, inputIDsBstr, -, -, hIDs, hAd, -⟩ := h.layout
  obtain ⟨hByte, -⟩ := h.flag_byte
  obtain ⟨hIDs', hIDsLen⟩ := serializeAll_ids hw.lbO_pos hw.lbO_le hIDs
  have hCount : code.inputIDs.length = llmi.inputs.length := length_of_mapM_eq_some h.inputIDs_eq
  have hLen : code.ad.length = 5 + 2 * w.lbM + (4 + w.lbO) * llmi.inputs.length := by
    rw [hAd, List.length_append, List.length_append, List.length_append, List.length_append,
      hIDsLen, hCount]
    simp only [length_toBE, List.length_singleton]
    ring
  have hAd' : toBE 4 code.instrID ++ toBE 1 code.revealFlag ++
      toBE w.lbM llmi.inputs.length ++ inputIDsBstr ++ toBE w.lbM llmi.outputs.length =
      code.ad := by
    rw [hAd, hByte]
  have hRebuilt : code.parsed.aells.ad w.lbM w.lbO =
      if code.ad.length = (4 + 1 + w.lbM * 2 + (4 + w.lbO) * llmi.inputs.length) % 2 ^ 32
      then some code.ad else none := by
    simp only [AELLS.ad, LLMICode.parsed, u32ToBytes, hw.lbM_pos, hw.lbM_le, and_self, if_true,
      hIDs', Option.bind_eq_bind, Option.bind_some, hCount, h.outputs_eq, hAd']
  rw [hRebuilt, hLen]
  congr 1
  rw [eq_iff_iff]
  omega

/-- The rebuilt nonce is that of the serializer. -/
theorem LLMICode.Written.nonce_parsed (h : code.Written encrypt cfg ir w i ids llmi) :
    code.parsed.aells.nonce = code.nonce := by
  have hZero : toBE 32 code.instrID = List.replicate 28 0 ++ toBE 4 code.instrID := by
    have hHigh : ∀ k, 4 ≤ k → UInt8.ofNat (code.instrID / 256 ^ k) = 0 := by
      intro k hk
      rw [Nat.div_eq_of_lt]
      · rfl
      · exact h.instrID_lt.trans_le (Nat.pow_le_pow_right (by decide) hk)
    have hStep : ∀ n, toBE (4 + n) code.instrID =
        List.replicate n 0 ++ toBE 4 code.instrID := by
      intro n
      induction n with
      | zero => rfl
      | succ n ih =>
        rw [← Nat.add_assoc, toBE_succ, hHigh _ (by omega), ih]
        rfl
    exact hStep 28
  rw [AELLS.nonce, h.nonce_eq, hZero]
  rfl

end LLMI

/-! ## Whole files -/

section File

variable {encrypt : List UInt8 → List UInt8 → List UInt8 → List UInt8} {ctSk : List UInt8}
variable {cfg : SEConfig} {ir : LLIRProgram} {w : Widths} {bc : Bytecode}

/-- A list of multi-instructions is written one by one, with the IDs of those before. -/
theorem serializeLLMIs_cons_eq_some {i : Nat} {ids : IdDict} {llmi : LLMI} {rest : List LLMI}
    {codes : List LLMICode}
    (h : serializeLLMIs encrypt cfg ir w i ids (llmi :: rest) = some codes) :
    ∃ code codes', codes = code :: codes' ∧ code.Written encrypt cfg ir w i ids llmi ∧
      serializeLLMIs encrypt cfg ir w (i + 1)
        (bindIDs (fun j => ⟨code.instrID, j⟩) 0 llmi.outputs ids) rest = some codes' := by
  simp only [serializeLLMIs, Option.bind_eq_bind, Option.bind_eq_some_iff, Option.pure_def,
    Option.some.injEq, Prod.exists] at h
  obtain ⟨code, ids', hCode, codes', hRest, rfl⟩ := h
  obtain ⟨hWritten, rfl⟩ := serializeLLMI_written hCode
  exact ⟨code, codes', rfl, hWritten, hRest⟩

/-- Every multi-instruction has its record. -/
theorem serializeLLMIs_written {i : Nat} {ids : IdDict} {llmis : List LLMI}
    {codes : List LLMICode} (h : serializeLLMIs encrypt cfg ir w i ids llmis = some codes) :
    List.Forall₂ (fun llmi code => ∃ i ids, code.Written encrypt cfg ir w i ids llmi)
      llmis codes := by
  induction llmis generalizing i ids codes with
  | nil =>
    obtain rfl : [] = codes := by simpa [serializeLLMIs] using h
    exact List.Forall₂.nil
  | cons llmi rest ih =>
    obtain ⟨code, codes', rfl, hWritten, hRest⟩ := serializeLLMIs_cons_eq_some h
    exact List.Forall₂.cons ⟨i, ids, hWritten⟩ (ih hRest)

/-- The widths both sides use for a file. -/
def fileWidths (cfg : SEConfig) (ir : LLIRProgram) : Widths :=
  ⟨bytelen ir.memoryCount, bytelen cfg.lOut, bytelen cfg.r⟩

/-- Everything a successful `serialize` says about the file. -/
structure Bytecode.Written (encrypt : List UInt8 → List UInt8 → List UInt8 → List UInt8)
    (ctSk : List UInt8) (cfg : SEConfig) (ir : LLIRProgram) (bc : Bytecode) : Prop where
  memoryCount_lt : ir.memoryCount < 256 ^ 4
  inputCount_lt : ir.inputs.length < 256 ^ bytelen ir.memoryCount
  outputCount_lt : ir.outputs.length < 256 ^ bytelen ir.memoryCount
  llmiCount_lt : ir.instrs.length < 256 ^ 4
  llmis_eq : serializeLLMIs encrypt cfg ir (fileWidths cfg ir) 0
    (bindIDs (inputID cfg.lOut) 0 ir.inputs []) ir.instrs = some bc.llmis
  layout : ∃ metadata inputs outputs,
    serializeMetadata cfg = some metadata ∧
    serializeAll (memdict ir.memoryCount (bytelen ir.memoryCount)) ir.inputs = some inputs ∧
    serializeAll (memdict ir.memoryCount (bytelen ir.memoryCount)) ir.outputs = some outputs ∧
    bc.header = metadata ++ toBE 4 ir.memoryCount ++ ctSk ++
      toBE (bytelen ir.memoryCount) ir.inputs.length ++ inputs ++
      toBE (bytelen ir.memoryCount) ir.outputs.length ++ outputs ++ toBE 4 ir.instrs.length

/-- There is a number of bytes for everything but 0. -/
theorem pyBytelen_eq_some {n len : Nat} : pyBytelen n = some len ↔ n ≠ 0 ∧ len = bytelen n := by
  by_cases h : n = 0
  · simp [pyBytelen, h]
  · simp [pyBytelen_eq h, h, eq_comm]

/-- What the serializer writes for a program is what the format says. -/
theorem serialize_written (h : serialize encrypt ctSk cfg ir = some bc) :
    bc.Written encrypt ctSk cfg ir := by
  obtain ⟨lbO, hLbO, h⟩ := Option.bind_eq_some_iff.mp h
  obtain ⟨lbM, hLbM, h⟩ := Option.bind_eq_some_iff.mp h
  obtain ⟨lbR, hLbR, h⟩ := Option.bind_eq_some_iff.mp h
  obtain ⟨-, rfl⟩ := pyBytelen_eq_some.mp hLbO
  obtain ⟨-, rfl⟩ := pyBytelen_eq_some.mp hLbM
  obtain ⟨-, rfl⟩ := pyBytelen_eq_some.mp hLbR
  obtain ⟨metadata, hMeta, h⟩ := Option.bind_eq_some_iff.mp h
  obtain ⟨_, hMemEq, h⟩ := Option.bind_eq_some_iff.mp h
  obtain ⟨_, hInEq, h⟩ := Option.bind_eq_some_iff.mp h
  obtain ⟨inputs, hInputs, h⟩ := Option.bind_eq_some_iff.mp h
  obtain ⟨_, hOutEq, h⟩ := Option.bind_eq_some_iff.mp h
  obtain ⟨outputs, hOutputs, h⟩ := Option.bind_eq_some_iff.mp h
  obtain ⟨_, hCountEq, h⟩ := Option.bind_eq_some_iff.mp h
  obtain ⟨llmis, hLlmis, h⟩ := Option.bind_eq_some_iff.mp h
  obtain ⟨hMem, rfl⟩ := uintToBytes_eq_some.mp hMemEq
  obtain ⟨hIn, rfl⟩ := uintToBytes_eq_some.mp hInEq
  obtain ⟨hOut, rfl⟩ := uintToBytes_eq_some.mp hOutEq
  obtain ⟨hCount, rfl⟩ := uintToBytes_eq_some.mp hCountEq
  cases h
  exact ⟨hMem, hIn, hOut, hCount, hLlmis, metadata, inputs, outputs, hMeta, hInputs, hOutputs,
    rfl⟩

/-- A constant of the metadata is read back and is the one of the element. -/
theorem reads_loadChecked {n : Nat} (h : n < 256 ^ 4) : Reads (loadChecked n) (toBE 4 n) () := by
  intro rest
  have hRead := reads_loadU32 (by decide) (by decide) h rest
  rw [loadChecked, StateT.run_bind, hRead]
  simp

/-- The metadata passes the checks of a runtime built for the same
configuration. -/
theorem reads_interpretMeta {metadata : List UInt8} (h : serializeMetadata cfg = some metadata)
    (hMem : ir.memoryCount < 256 ^ 4) :
    Reads (interpretMeta cfg) (metadata ++ toBE 4 ir.memoryCount) ir.memoryCount := by
  simp only [serializeMetadata, serializeAll_cons_eq_some, uintToBytes_eq_some] at h
  obtain ⟨_, _, ⟨h₁, rfl⟩, ⟨_, _, ⟨h₂, rfl⟩, ⟨_, _, ⟨h₃, rfl⟩, ⟨_, _, ⟨h₄, rfl⟩, ⟨_, _, ⟨h₅, rfl⟩,
    ⟨_, _, ⟨h₆, rfl⟩, hNil, rfl⟩, rfl⟩, rfl⟩, rfl⟩, rfl⟩, rfl⟩ := h
  obtain rfl := Option.some.inj hNil
  have hAll : Reads (interpretMeta cfg) _ _ :=
    Reads.bind (reads_loadChecked h₁) <| Reads.bind (reads_loadChecked h₂) <|
    Reads.bind (reads_loadChecked h₃) <| Reads.bind (reads_loadChecked h₄) <|
    Reads.bind (reads_loadChecked h₅) <| Reads.bind (reads_loadChecked h₆) <|
    reads_loadU32 (by decide) (by decide) hMem
  refine hAll.congr ?_
  simp only [List.append_assoc, List.nil_append]

/-- The metadata were written, so that the constants fit. -/
theorem lOut_lt_of_serializeMetadata {metadata : List UInt8}
    (h : serializeMetadata cfg = some metadata) : cfg.lOut < 256 ^ 4 := by
  simp only [serializeMetadata, serializeAll_cons_eq_some, uintToBytes_eq_some] at h
  obtain ⟨_, _, -, ⟨_, _, -, ⟨_, _, -, ⟨_, _, ⟨h₄, -⟩, -⟩, -⟩, -⟩, -⟩ := h
  exact h₄

/-- The widths of a file that was written can be read. -/
theorem Bytecode.Written.readable (hMem : 2 ≤ ir.memoryCount) (hOut : 2 ≤ cfg.lOut)
    (h : bc.Written encrypt ctSk cfg ir) : (fileWidths cfg ir).Readable := by
  obtain ⟨metadata, -, -, hMeta, -⟩ := h.layout
  have hOutLt := lOut_lt_of_serializeMetadata hMeta
  exact ⟨bytelen_pos hMem, bytelen_le_four h.memoryCount_lt, bytelen_pos hOut,
    bytelen_le_four hOutLt⟩

/-- **Parsing.** The interpreter recovers every field of the file and stops at
its last byte; the header it hands to `SEstart` is the sealed key followed by
the input count. -/
theorem interpretFile_serialize (hMem : 2 ≤ ir.memoryCount) (hOut : 2 ≤ cfg.lOut)
    (hKey : ctSk.length = 64) (h : bc.Written encrypt ctSk cfg ir) :
    ∃ tail, interpretFile cfg bc.bytes = some (ir.memoryCount,
      ctSk ++ toBE (bytelen ir.memoryCount) ir.inputs.length ++ tail,
      ⟨ir.inputs, ir.outputs, bc.llmis.map LLMICode.parsed⟩) := by
  obtain ⟨metadata, inputs, outputs, hMeta, hIn, hOuts, hHeader⟩ := h.layout
  have hw := h.readable hMem hOut
  have hLlmis : Reads (times (interpretLLMI (bytelen ir.memoryCount) (bytelen cfg.lOut))
      ir.instrs.length) (bc.llmis.flatMap LLMICode.bytes) (bc.llmis.map LLMICode.parsed) := by
    have hWritten := serializeLLMIs_written h.llmis_eq
    rw [hWritten.length_eq, ← List.length_map (f := LLMICode.parsed), List.flatMap_def]
    refine Reads.times ?_
    rw [List.forall₂_map_left_iff, List.forall₂_map_right_iff, List.forall₂_same]
    intro code hCode
    obtain ⟨llmi, -, i, ids, hOne⟩ := exists_left_of_forall₂ hWritten hCode
    exact hOne.reads hw
  have hProg : Reads (interpretProg (bytelen ir.memoryCount) (bytelen cfg.lOut)) _ _ :=
    Reads.bind (reads_loadCells hw.lbM_pos hw.lbM_le h.inputCount_lt hIn) <|
    Reads.bind (reads_loadCells hw.lbM_pos hw.lbM_le h.outputCount_lt hOuts) <|
    Reads.bind (reads_loadU32 (by decide) (by decide) h.llmiCount_lt) <|
    Reads.bind_pure hLlmis
  have hSkip : ∀ body, (takeBytes 64).run (ctSk ++ body) = some (ctSk, body) :=
    hKey ▸ reads_takeBytes ctSk
  refine ⟨inputs ++ (toBE (bytelen ir.memoryCount) ir.outputs.length ++ (outputs ++
    (toBE 4 ir.instrs.length ++ bc.llmis.flatMap LLMICode.bytes))), ?_⟩
  have hBytes : bc.bytes = (metadata ++ toBE 4 ir.memoryCount) ++ (ctSk ++
      ((toBE (bytelen ir.memoryCount) ir.inputs.length ++ inputs) ++
      ((toBE (bytelen ir.memoryCount) ir.outputs.length ++ outputs) ++
      (toBE 4 ir.instrs.length ++ bc.llmis.flatMap LLMICode.bytes)))) := by
    rw [Bytecode.bytes, hHeader]
    simp only [List.append_assoc]
  rw [interpretFile, hBytes, reads_interpretMeta hMeta h.memoryCount_lt]
  simp only [Option.bind_eq_bind, Option.bind_some, hSkip, hProg.run_all, guard, if_true,
    Option.pure_def]
  simp only [List.append_assoc]

/-- A parsed record holds the fields of a written one, and what `LLS_decrypt`
rebuilds from it is what was encrypted. -/
structure LLMICode.RecoveredBy (code : LLMICode) (w : Widths) (p : ParsedLLMI) : Prop where
  memInps_eq : p.memInps = code.inputs
  memOuts_eq : p.memOuts = code.outputs
  instrID_eq : p.aells.instrID = code.instrID
  revealFlag_eq : p.aells.revealFlag = code.revealFlag
  outCount_eq : p.aells.outCount = code.outputs.length
  inputIDs_eq : p.aells.inputIDs = code.inputIDs
  bytecode_eq : p.aells.bytecode = code.lls
  ad_eq : p.aells.ad w.lbM w.lbO = some code.ad
  nonce_eq : p.aells.nonce = code.nonce

/-- The file round-trips: the interpreter recovers the program it was made from,
with nothing left over. -/
def Bytecode.RoundTrips (bc : Bytecode) (cfg : SEConfig) (ir : LLIRProgram) : Prop :=
  ∃ header program, interpretFile cfg bc.bytes = some (ir.memoryCount, header, program) ∧
    program.memInps = ir.inputs ∧ program.memOuts = ir.outputs ∧
    List.Forall₂ (fun llmi p => p.memInps = llmi.inputs ∧ p.memOuts = llmi.outputs)
      ir.instrs program.llmis ∧
    List.Forall₂ (fun code p => code.RecoveredBy (fileWidths cfg ir) p) bc.llmis program.llmis

/-- The associated data of a multi-instruction is shorter than 2^32 bytes. -/
def adFits (cfg : SEConfig) (ir : LLIRProgram) (llmi : LLMI) : Prop :=
  5 + 2 * bytelen ir.memoryCount + (4 + bytelen cfg.lOut) * llmi.inputs.length < 2 ^ 32

/-- Where the associated data fits, a written record is recovered. -/
theorem LLMICode.Written.recoveredBy {i : Nat} {ids : IdDict} {llmi : LLMI} {code : LLMICode}
    (hw : (fileWidths cfg ir).Readable)
    (h : code.Written encrypt cfg ir (fileWidths cfg ir) i ids llmi)
    (hFits : adFits cfg ir llmi) : code.RecoveredBy (fileWidths cfg ir) code.parsed := by
  refine ⟨rfl, rfl, rfl, rfl, rfl, rfl, rfl, ?_, h.nonce_parsed⟩
  rw [h.ad_parsed hw]
  exact if_pos hFits

/-- A file that round-trips has no multi-instruction whose associated data is
too long. -/
theorem Bytecode.Written.adFits_of_roundTrips (hMem : 2 ≤ ir.memoryCount) (hOut : 2 ≤ cfg.lOut)
    (hKey : ctSk.length = 64) (h : bc.Written encrypt ctSk cfg ir)
    (hRound : bc.RoundTrips cfg ir) : ∀ llmi ∈ ir.instrs, adFits cfg ir llmi := by
  obtain ⟨tail, hFile⟩ := interpretFile_serialize hMem hOut hKey h
  obtain ⟨header, program, hFile', -, -, -, hCodes⟩ := hRound
  rw [hFile, Option.some.injEq, Prod.mk.injEq, Prod.mk.injEq] at hFile'
  obtain ⟨-, -, rfl⟩ := hFile'
  have hWritten := serializeLLMIs_written h.llmis_eq
  rw [List.forall₂_map_right_iff, List.forall₂_same] at hCodes
  intro llmi hLlmi
  obtain ⟨code, hCode, i, ids, hOne⟩ := exists_left_of_forall₂ hWritten.flip hLlmi
  have hAd := (hCodes code hCode).ad_eq
  rw [hOne.ad_parsed (h.readable hMem hOut)] at hAd
  split at hAd
  · assumption
  · cases hAd

/-- A file is read back as it was written exactly when the associated data of
every multi-instruction is shorter than 2^32 bytes. -/
theorem roundTrips_iff (hMem : 2 ≤ ir.memoryCount) (hOut : 2 ≤ cfg.lOut)
    (hKey : ctSk.length = 64) (h : serialize encrypt ctSk cfg ir = some bc) :
    bc.RoundTrips cfg ir ↔ ∀ llmi ∈ ir.instrs, adFits cfg ir llmi := by
  have hFileWritten := serialize_written h
  constructor
  · exact hFileWritten.adFits_of_roundTrips hMem hOut hKey
  · intro hFits
    obtain ⟨tail, hFile⟩ := interpretFile_serialize hMem hOut hKey hFileWritten
    have hWritten := serializeLLMIs_written hFileWritten.llmis_eq
    refine ⟨_, _, hFile, rfl, rfl, ?_, ?_⟩
    · rw [List.forall₂_map_right_iff]
      refine hWritten.imp ?_
      rintro llmi code ⟨i, ids, hOne⟩
      exact ⟨hOne.inputs_eq, hOne.outputs_eq⟩
    · rw [List.forall₂_map_right_iff, List.forall₂_same]
      intro code hCode
      obtain ⟨llmi, hLlmi, i, ids, hOne⟩ := exists_left_of_forall₂ hWritten hCode
      exact hOne.recoveredBy (hFileWritten.readable hMem hOut) (hFits llmi hLlmi)

end File

/-- A tag of 16 zero bytes, in the place of the AEAD. -/
def padTag (msg _ad _nonce : List UInt8) : List UInt8 := msg ++ List.replicate 16 0

/-- Add two inputs in one multi-instruction and triple the sum in another. -/
def tripleSum : LLIRProgram where
  instrs := [
    { seq := [{ opcode := .ADD, dst := 32, src1 := some (.loc 0), src2 := some (.loc 1) }]
      inputs := [0, 1], outputs := [2] },
    { seq := [{ opcode := .MUL, dst := 32, src1 := some (.loc 0), src2 := some (.imm 3) }]
      inputs := [2], outputs := [3] }]
  inputs := [0, 1]
  outputs := [3]
  memoryCount := 4

/-- Two multi-instructions, the second of which reads what the first one computes and reveals. -/
theorem roundTrips_tripleSum :
    ∃ bc, serialize padTag (List.replicate 64 7) seSmall tripleSum = some bc ∧
      bc.RoundTrips seSmall tripleSum := by
  have hSome : (serialize padTag (List.replicate 64 7) seSmall tripleSum).isSome = true := by
    decide +kernel
  obtain ⟨bc, hBc⟩ := Option.isSome_iff_exists.mp hSome
  have hM : bytelen tripleSum.memoryCount = 1 := by decide
  have hO : bytelen seSmall.lOut = 1 := by decide
  have hShort : ∀ llmi ∈ tripleSum.instrs, llmi.inputs.length ≤ 2 := by decide
  refine ⟨bc, hBc, (roundTrips_iff (by decide) (by decide) (by decide) hBc).mpr
    fun llmi hLlmi => ?_⟩
  have := hShort llmi hLlmi
  rw [adFits, hM, hO]
  omega

/-- A program whose only multi-instruction reads one cell `n` times. -/
def wideProgram (n : Nat) : LLIRProgram where
  instrs := [{ seq := [], inputs := List.replicate n 0, outputs := [] }]
  inputs := [0]
  outputs := []
  memoryCount := 2 ^ 25

/-- A secure element with room for that many inputs. -/
def wideConfig : SEConfig where
  version := 0
  wordSize := 32
  lIn := 2 ^ 30
  lOut := 2
  r := 2 ^ 30 + 2
  s := 2 ^ 30

/-- Equal items are written equally. -/
theorem serializeAll_replicate {α : Type} {f : α → Option (List UInt8)} {x : α} {b : List UInt8}
    (h : f x = some b) (n : Nat) :
    serializeAll f (List.replicate n x) = some (List.replicate n b).flatten := by
  induction n with
  | zero => rfl
  | succ n ih =>
    exact serializeAll_cons_eq_some.mpr ⟨b, _, h, ih, rfl⟩

theorem mapM_replicate {α β : Type} {f : α → Option β} {x : α} {y : β} (h : f x = some y)
    (n : Nat) : (List.replicate n x).mapM f = some (List.replicate n y) := by
  induction n with
  | zero => rfl
  | succ n ih => simp [List.replicate_succ, List.mapM_cons, h, ih]

/-- The program with many inputs is written. -/
theorem serialize_wideProgram {n : Nat} (h : n < 2 ^ 32) :
    ∃ bc, serialize padTag (List.replicate 64 7) wideConfig (wideProgram n) = some bc := by
  have hCount : uintToBytes n 4 = some (toBE 4 n) := uintToBytes_eq_some.mpr ⟨h, rfl⟩
  have hCell : memdict (2 ^ 25) 4 0 = some (toBE 4 0) := by decide
  have hIDs : (List.replicate n 0).mapM (fun m => ([(0, inputID 2 0)] : IdDict).lookup m) =
      some (List.replicate n (inputID 2 0)) := mapM_replicate (by decide) n
  have hIDBytes : serializeID 1 (inputID 2 0) = some [0, 0, 0, 1, 0] := by decide
  have hLLMI : ∃ res, serializeLLMI padTag wideConfig (wideProgram n) ⟨4, 1, 4⟩ 0
      [(0, inputID 2 0)] ⟨[], List.replicate n 0, []⟩ = some res := by
    rw [← Option.isSome_iff_exists]
    simp only [serializeLLMI, List.length_replicate, hCount, wideProgram, Option.bind_eq_bind,
      Option.bind_some, serializeAll_replicate hCell, hIDs,
      serializeAll_replicate hIDBytes]
    simp [uintToBytes, serializeAll, serializeLLS, padTag, LLIRProgram.instrID, wideConfig]
  obtain ⟨res, hRes⟩ := hLLMI
  have hLLMIs : serializeLLMIs padTag wideConfig (wideProgram n) ⟨4, 1, 4⟩ 0
      [(0, inputID 2 0)] [⟨[], List.replicate n 0, []⟩] = some [res.1] := by
    simp only [serializeLLMIs, hRes, Option.bind_eq_bind, Option.bind_some, Option.pure_def]
  have hLb : pyBytelen (wideProgram n).memoryCount = some 4 := by
    show pyBytelen (2 ^ 25) = some 4
    decide
  have hLbO : pyBytelen wideConfig.lOut = some 1 := by decide
  have hLbR : pyBytelen wideConfig.r = some 4 := by decide
  have hIDs₀ : bindIDs (inputID wideConfig.lOut) 0 (wideProgram n).inputs [] =
      [(0, inputID 2 0)] := rfl
  have hInstrs : (wideProgram n).instrs = [⟨[], List.replicate n 0, []⟩] := rfl
  rw [← Option.isSome_iff_exists]
  simp only [serialize, hLb, hLbO, hLbR, hIDs₀, hInstrs, hLLMIs, Option.bind_eq_bind,
    Option.bind_some]
  rfl

/-- Its associated data fit only if there are not too many inputs. -/
theorem adFits_wideProgram {n : Nat}
    (h : ∀ llmi ∈ (wideProgram n).instrs, adFits wideConfig (wideProgram n) llmi) :
    13 + 5 * n < 2 ^ 32 := by
  have hLb : bytelen (2 ^ 25) = 4 := by decide
  have hLbO : bytelen 2 = 1 := by decide
  have hLen := h ⟨[], List.replicate n 0, []⟩ List.mem_cons_self
  simp only [adFits, wideProgram, wideConfig, List.length_replicate, hLb, hLbO] at hLen
  omega

/-- A multi-instruction with that many inputs or more does not round-trip. -/
theorem not_roundTrips_wideProgram {n : Nat} (hn : 2 ^ 32 ≤ 13 + 5 * n) {bc : Bytecode}
    (h : serialize padTag (List.replicate 64 7) wideConfig (wideProgram n) = some bc) :
    ¬ bc.RoundTrips wideConfig (wideProgram n) := by
  intro hRound
  have hMem : 2 ≤ (wideProgram n).memoryCount := by
    show 2 ≤ 2 ^ 25
    decide
  have hFits := (serialize_written h).adFits_of_roundTrips hMem (by decide) (by decide) hRound
  have := adFits_wideProgram hFits
  omega

/-- With 858993459 inputs the length of the associated data wraps around to 12
bytes: the file is written but does not round-trip. -/
theorem wideProgram_not_roundTrips :
    ∃ bc, serialize padTag (List.replicate 64 7) wideConfig (wideProgram 858993459) = some bc ∧
      ¬ bc.RoundTrips wideConfig (wideProgram 858993459) := by
  obtain ⟨bc, hBc⟩ := serialize_wideProgram (n := 858993459) (by decide)
  exact ⟨bc, hBc, not_roundTrips_wideProgram (by decide) hBc⟩

end Obscure
