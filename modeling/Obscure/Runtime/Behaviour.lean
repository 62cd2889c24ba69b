import Obscure.Runtime.Protocol
import Obscure.Runtime.Refinement

/-!
# OBSCURE — where the runtime stops

`Runtime/Refinement.lean` follows a program that has a value. Here the other
half: when a multi-instruction divides by zero or shifts too far, the call of
`SEeval` that runs it has no result, and neither has `interpret`. The interpreter
then behaves exactly as the program does.

* `interpret_eq` — the parsing, the commitment and the input phase of `interpret`
  succeed on every written file, and leave a memory that represents the inputs;
* `interpret_behaves` — on a written file the interpreter has the value of the
  program, or none if it has none.
-/

namespace Obscure

open Lib

section Stops

variable {D : Type} {C : Crypto D} {dec : Decrypt D} {cfg : SEConfig} {execID : D}
variable {ir : LLIRProgram} {sharedKey : List UInt8} {i : Nat} {ids : IdDict} {llmi : LLMI}
  {code : LLMICode} {done : List Nat} {mem : Memory} {sem : Store Nat} {junk : Junk}

/-- `SEeval` has no result on a sequence that has none. -/
theorem seEval_stops (hC : C.Correct dec) (hCfg : cfg.Buildable)
    (hw : (fileWidths cfg ir).Readable)
    (hCode : code.Written (C.encryptShared sharedKey) cfg ir (fileWidths cfg ir) i ids llmi)
    (hIn : llmi.inputs.length ≤ cfg.lIn) (hSeq : llmi.seq.length ≤ cfg.s)
    (hSim : Simulates C ir execID done ids mem sem)
    (hHidden : ∀ m ∈ llmi.inputs, m ∈ ir.outputs → m ∉ done)
    (hRun : run llmi.seq (loadRegs junk.reg (llmi.inputs.map sem)) = none) :
    seEval C dec cfg junk execID (C.ct ⟨C.seckey, C.keyNonce execID, [], sharedKey⟩)
        code.parsed.aells (llmi.inputs.map mem) cfg.r (bytelen ir.memoryCount) (bytelen cfg.r)
        (cfg.wordSize / 8) (bytelen cfg.lOut) = none := by
  have hRegs := hCfg.regs_le
  have hLOut := hCfg.lOut_ge
  have hRLt := hCfg.r_lt
  rw [Option.eq_none_iff_forall_ne_some]
  intro outs hCall
  obtain ⟨sharedKey', lls, reg, reg', hKey, -, hLls, hLoaded, hExec, -⟩ := seEval_eq_some.mp hCall
  -- the key, the sequence and the registers are those of the run that stops
  have hKeyEq : dec C.seckey (C.keyNonce execID) []
      (C.ct ⟨C.seckey, C.keyNonce execID, [], sharedKey⟩) = some sharedKey :=
    hC.dec_ct ⟨C.seckey, C.keyNonce execID, [], sharedKey⟩
  rw [hKeyEq, Option.some.injEq] at hKey
  subst hKey
  rw [llsDecrypt_parsed hC hCfg hw hCode hIn, Option.some.injEq] at hLls
  subst hLls
  have hLen : code.inputIDs.length = (llmi.inputs.map sem).length := by
    rw [length_of_mapM_eq_some hCode.inputIDs_eq, List.length_map]
  have hFit : 0 + code.inputIDs.length ≤ cfg.r := by
    rw [hLen, List.length_map]
    omega
  have hLoad := ewordDecrypt_eq execID junk.reg hC hLen hFit
  rw [← hSim.slots hCode.inputIDs_eq hHidden,
    show code.inputIDs = code.parsed.aells.inputIDs from rfl, hLoaded] at hLoad
  have hReg : reg = loadRegs junk.reg (llmi.inputs.map sem) := by
    rw [Option.some.inj hLoad]
    funext k
    simp [loadRegs]
  have hWord : cfg.wordSize / 8 = 4 := by rw [hCfg.wordSize_eq]
  rw [hWord, hReg, llsExecute_serializeLLS _ (bytelen_pos (by omega)) (bytelen_le_four (by omega))
    hWord hCode.msg_eq hSeq, hRun] at hExec
  cases hExec

/-- One multi-instruction that stops. -/
theorem evalLLMI_stops (hC : C.Correct dec) (hCfg : cfg.Buildable) (hRunnable : ir.Runnable cfg)
    (hw : (fileWidths cfg ir).Readable) (hMem : llmi ∈ ir.instrs)
    (hCode : code.Written (C.encryptShared sharedKey) cfg ir (fileWidths cfg ir) i ids llmi)
    (hSim : Simulates C ir execID done ids mem sem)
    (hHidden : ∀ m ∈ llmi.inputs, m ∈ ir.outputs → m ∉ done)
    (hEval : llmi.eval cfg junk.reg sem = none) :
    evalLLMI C dec cfg junk execID (C.ct ⟨C.seckey, C.keyNonce execID, [], sharedKey⟩)
      ir.memoryCount code.parsed mem = none := by
  obtain ⟨inputsBstr, -, -, hInputs, -⟩ := hCode.layout
  rw [LLMI.eval, Option.map_eq_none_iff] at hEval
  have hCall := seEval_stops hC hCfg hw hCode (hRunnable.inputs_le llmi hMem)
    (hRunnable.seq_le llmi hMem) hSim hHidden hEval
  have hLoad : code.parsed.memInps.mapM (mem.load ir.memoryCount) =
      some (llmi.inputs.map mem) := by
    rw [show code.parsed.memInps = llmi.inputs from hCode.inputs_eq]
    refine mapM_eq_some_map fun m hm => ?_
    rw [Memory.load, if_pos (lt_of_serializeAll_memdict hInputs m hm)]
  rw [evalLLMI, hLoad]
  simp only [Option.bind_eq_bind, Option.bind_some, hCall, Option.bind_none]

/-- A multi-instruction that stops ends the whole evaluation phase. -/
theorem evalAll_stops (hC : C.Correct dec) (hCfg : cfg.Buildable) (hRunnable : ir.Runnable cfg)
    (hw : (fileWidths cfg ir).Readable) (hShared : sharedKey.length = 16) {junk : Nat → Junk}
    (pre : List LLMI) {rest : List LLMI} (hSplit : ir.instrs = pre ++ rest) {ids : IdDict}
    {codes : List LLMICode} {i : Nat}
    (hCodes : serializeLLMIs (C.encryptShared sharedKey) cfg ir (fileWidths cfg ir) i ids rest =
      some codes)
    {mem : Memory} {sem : Store Nat} (hSim : Simulates C ir execID (written pre) ids mem sem)
    (hEval : evalLLMIs cfg (fun k => (junk k).reg) i rest sem = none) :
    evalAll C dec cfg junk execID (C.ct ⟨C.seckey, C.keyNonce execID, [], sharedKey⟩)
      ir.memoryCount i (codes.map LLMICode.parsed) mem = none := by
  induction rest generalizing pre ids codes i mem sem with
  | nil => cases hEval
  | cons llmi rest ih =>
    obtain ⟨code, codes', rfl, hCode, hRest⟩ := serializeLLMIs_cons_eq_some hCodes
    have hMem : llmi ∈ ir.instrs := by simp [hSplit]
    have hHidden : ∀ m ∈ llmi.inputs, m ∈ ir.outputs → m ∉ written pre := by
      intro m hm hOut hPre
      obtain ⟨before, hBefore, hm'⟩ := List.mem_flatMap.mp hPre
      exact hRunnable.reveal_unread pre llmi rest hSplit m hm hOut before hBefore hm'
    rw [evalLLMIs] at hEval
    rw [List.map_cons, evalAll]
    cases hHead : llmi.eval cfg (junk i).reg sem with
    | none =>
      rw [evalLLMI_stops hC hCfg hRunnable hw hMem hCode hSim hHidden hHead]
      rfl
    | some mid =>
      rw [hHead, Option.bind_some] at hEval
      obtain ⟨mem₁, hStep, hSim₁⟩ := evalLLMI_simulates hC hCfg hRunnable hw hShared hMem hCode
        hSim hHidden hHead
      have hWritten : written pre ++ llmi.outputs = written (pre ++ [llmi]) := by simp [written]
      rw [hWritten] at hSim₁
      rw [hStep]
      exact ih (pre ++ [llmi]) (by simp [hSplit]) hRest hSim₁ hEval

end Stops

section Program

variable {D : Type} [DecidableEq D] {C : Crypto D} {dec : Decrypt D} {cfg : SEConfig}
variable {ir : LLIRProgram} {ctSk sharedKey : List UInt8} {bc : Bytecode}

/-- The number of batches is the exact quotient, and leaves a place for every
input. -/
theorem batchCount_covers (hCfg : cfg.Buildable) {n : Nat} (hn : n < 2 ^ 31) :
    n ≤ batchCount cfg.lOut n * cfg.lOut := by
  have hRegs := hCfg.regs_le
  have hRLt := hCfg.r_lt
  have hOut := hCfg.lOut_ge
  have hL : batchCount cfg.lOut n = (n + cfg.lOut - 1) / cfg.lOut := by
    rw [batchCount, Nat.mod_eq_of_lt (by omega)]
  rw [hL, Nat.mul_comm]
  have := Nat.div_add_mod (n + cfg.lOut - 1) cfg.lOut
  have := Nat.mod_lt (n + cfg.lOut - 1) (show cfg.lOut > 0 by omega)
  omega

/-- On a written file everything before the evaluation phase succeeds. -/
theorem interpret_eq (hC : C.Correct dec) (hCfg : cfg.Buildable) (hRunnable : ir.Runnable cfg)
    (hKey : ctSk.length = 64) (hOpen : C.sealOpen ctSk = some sharedKey)
    (hShared : sharedKey.length = 16)
    (hSer : serialize (C.encryptShared sharedKey) ctSk cfg ir = some bc) (junk : HostJunk)
    {inputs : List Word} (hInputs : inputs.length = ir.inputs.length) :
    ∃ execID mem, Simulates C ir execID (written []) (bindIDs (inputID cfg.lOut) 0 ir.inputs []) mem
        (storeWords (ir.inputs.zip inputs) fun _ => 0) ∧
      interpret C dec cfg junk bc.bytes inputs ir.outputs.length =
        (evalAll C dec cfg junk.call execID
          (C.ct ⟨C.seckey, C.keyNonce execID, [], sharedKey⟩) ir.memoryCount 0
          (bc.llmis.map LLMICode.parsed) mem).bind fun mem' =>
            ir.outputs.mapM (readOutput ir.memoryCount mem') := by
  have hFile := serialize_written hSer
  have hOut := hCfg.lOut_ge
  have hw := hFile.readable hRunnable.memoryCount_ge hOut
  obtain ⟨tail, hParse⟩ := interpretFile_serialize hRunnable.memoryCount_ge hOut hKey hFile
  obtain ⟨-, inBytes, outBytes, -, hIn, -⟩ := hFile.layout
  have hBatches := batchCount_covers hCfg hRunnable.inputCount_lt
  obtain ⟨execID, hStart⟩ := seStart_header cfg tail
    (chainAt C cfg.lOut inputs (batchCount cfg.lOut ir.inputs.length)) hC hKey hOpen
    hShared hw.lbM_pos hw.lbM_le hFile.inputCount_lt
  have hWords := inputAll_eq execID inputs hC (show 0 < cfg.lOut by omega)
    (batchCount_lt cfg.lOut ir.inputs.length)
  obtain ⟨mem, hStore, hSim⟩ := store_inputs C cfg execID junk.mem hInputs hBatches
    (lt_of_serializeAll_memdict hIn)
  have hLen : ir.inputs.length ≤ ((List.range (batchCount cfg.lOut ir.inputs.length *
      cfg.lOut)).map (inputWord C cfg.lOut execID inputs)).length := by
    simpa using hBatches
  refine ⟨execID, mem, hSim, ?_⟩
  simp only [fileWidths] at hStart
  simp only [interpret, hParse, Option.bind_eq_bind, Option.bind_some, guard, hInputs, if_true,
    Option.pure_def, execute, hStart, hWords, if_pos hLen, hStore]

/-- Asked for another number of outputs than the file has, `interpret` exits. -/
theorem interpret_otherCount (hMemory : 2 ≤ ir.memoryCount) (hOut : 2 ≤ cfg.lOut)
    (hKey : ctSk.length = 64)
    (hSer : serialize (C.encryptShared sharedKey) ctSk cfg ir = some bc) (junk : HostJunk)
    (inputs : List Word) {n : Nat} (hn : n ≠ ir.outputs.length) :
    interpret C dec cfg junk bc.bytes inputs n = none := by
  obtain ⟨tail, hParse⟩ := interpretFile_serialize hMemory hOut hKey (serialize_written hSer)
  simp only [interpret, hParse, Option.bind_eq_bind, Option.bind_some, guard, if_neg hn]
  cases (if inputs.length = ir.inputs.length then pure () else failure : Option Unit) <;> rfl

/-- **The interpreter behaves as the program.** On the bytes the serializer wrote
the interpreter returns the outputs of the program, and has no result exactly
when an instruction divides by zero or shifts by the word size or more. -/
theorem interpret_behaves (hC : C.Correct dec) (hCfg : cfg.Buildable)
    (hRunnable : ir.Runnable cfg) (hKey : ctSk.length = 64)
    (hOpen : C.sealOpen ctSk = some sharedKey) (hShared : sharedKey.length = 16)
    (hSer : serialize (C.encryptShared sharedKey) ctSk cfg ir = some bc) (junk : HostJunk)
    {inputs : List Word} (hInputs : inputs.length = ir.inputs.length) :
    interpret C dec cfg junk bc.bytes inputs ir.outputs.length =
      ir.eval cfg (fun k => (junk.call k).reg) inputs := by
  have hFile := serialize_written hSer
  have hw := hFile.readable hRunnable.memoryCount_ge hCfg.lOut_ge
  obtain ⟨-, inBytes, outBytes, -, -, hOuts, -⟩ := hFile.layout
  obtain ⟨execID, mem, hSim, hInterpret⟩ := interpret_eq hC hCfg hRunnable hKey hOpen hShared hSer
    junk hInputs
  rw [hInterpret, LLIRProgram.eval]
  cases hEval : evalLLMIs cfg (fun k => (junk.call k).reg) 0 ir.instrs
      (storeWords (ir.inputs.zip inputs) fun _ => 0) with
  | none =>
    rw [evalAll_stops hC hCfg hRunnable hw hShared [] rfl hFile.llmis_eq hSim hEval]
    rfl
  | some sem' =>
    obtain ⟨mem', ids', hAll, hSim'⟩ := evalAll_simulates hC hCfg hRunnable hw hShared [] rfl
      hFile.llmis_eq hSim hEval
    rw [hAll, Option.bind_some, Option.map_some]
    refine mapM_eq_some_map fun m hm => ?_
    obtain ⟨llmi, hLlmi, hm'⟩ := hRunnable.outputs_produced m hm
    have hDone : m ∈ written ir.instrs := List.mem_flatMap.mpr ⟨llmi, hLlmi, hm'⟩
    obtain ⟨id, hID⟩ := Option.isSome_iff_exists.mp (hSim'.bound m hDone)
    have hSlot := hSim'.holds m id hID
    rw [SlotHolds, if_pos ⟨hDone, hm⟩] at hSlot
    obtain ⟨rest, hSlot⟩ := hSlot
    exact readOutput_eq (lt_of_serializeAll_memdict hOuts m hm) hSlot

end Program

end Obscure
