import Obscure.Runtime.Execute

/-!
# OBSCURE — the runtime computes the program

The abstract meaning of an LLIR program is a memory of words: a
multi-instruction loads its inputs into the first registers, runs its sequence
and stores the last registers into its outputs. `interpret` does the same on
encrypted words. The simulation relates the two memories through the dictionary
of the serializer: the slot of a cell holds the encryption of the cell's word
under the ID the dictionary has for the cell, or the word in clear once a
revealing multi-instruction wrote it.

Registers that a sequence does not write keep what `malloc` left there, so the
abstract meaning takes these contents as a parameter too.
-/

namespace Obscure

open Lib

/-! ## The meaning of an LLIR program -/

/-- Write words to cells in order. -/
def storeWords : List (Nat × Word) → Store Nat → Store Nat
  | [], mem => mem
  | (m, w) :: rest, mem => storeWords rest (Function.update mem m w)

/-- Registers after loading `vals` over `init`. -/
def loadRegs (init : Regs) (vals : List Word) : Regs := fun i => vals.getD i (init i)

/-- One multi-instruction. -/
def LLMI.eval (cfg : SEConfig) (init : Regs) (llmi : LLMI) (mem : Store Nat) :
    Option (Store Nat) :=
  (run llmi.seq (loadRegs init (llmi.inputs.map mem))).map fun reg =>
    storeWords (llmi.outputs.zip
      ((List.range llmi.outputs.length).map fun i => reg (cfg.r - cfg.lOut + i))) mem

/-- The multi-instructions in order; `init k` is what the registers hold at the
start of call `k`. -/
def evalLLMIs (cfg : SEConfig) (init : Nat → Regs) :
    Nat → List LLMI → Store Nat → Option (Store Nat)
  | _, [], mem => some mem
  | k, llmi :: rest, mem => (llmi.eval cfg (init k) mem).bind (evalLLMIs cfg init (k + 1) rest)

/-- The outputs of a program on given inputs. It has none when an instruction
divides by zero or shifts by the word size or more. -/
def LLIRProgram.eval (cfg : SEConfig) (init : Nat → Regs) (ir : LLIRProgram)
    (inputs : List Word) : Option (List Word) :=
  (evalLLMIs cfg init 0 ir.instrs (storeWords (ir.inputs.zip inputs) fun _ => 0)).map fun mem =>
    ir.outputs.map mem

/-! ## Assumptions -/

/-- What the runtime relies on from its AEAD. -/
structure Crypto.Correct {D : Type} (C : Crypto D) (dec : Decrypt D) : Prop where
  dec_ct : ∀ b : Box D, dec b.key b.nonce b.ad (C.ct b) = some b.msg
  ct_length : ∀ b : Box D, (C.ct b).length = b.msg.length + 16

/-- A configuration the runtime can be built for: words have 32 bits, the
inputs and outputs of a multi-instruction have registers of their own, and the
registers are nowhere near filling the memory. -/
structure SEConfig.Buildable (cfg : SEConfig) : Prop where
  wordSize_eq : cfg.wordSize = 32
  lOut_ge : 2 ≤ cfg.lOut
  regs_le : cfg.lIn + cfg.lOut ≤ cfg.r
  r_lt : cfg.r < 2 ^ 28

/-- The four configurations of `SEconfig.h`. -/
theorem buildable_of_shipped :
    ∀ cfg ∈ [seSmall, seMedium, seLarge, seExtraLarge], cfg.Buildable := by
  intro cfg h
  simp only [List.mem_cons, List.not_mem_nil, or_false] at h
  rcases h with rfl | rfl | rfl | rfl <;> exact ⟨rfl, by decide, by decide, by decide⟩

/-- A program the runtime can run. The number of inputs is an `int` of `main`;
the last two fields say that a revealing multi-instruction only produces program
outputs and that no multi-instruction reads what it produces. -/
structure LLIRProgram.Runnable (cfg : SEConfig) (ir : LLIRProgram) : Prop where
  memoryCount_ge : 2 ≤ ir.memoryCount
  inputCount_lt : ir.inputs.length < 2 ^ 31
  inputs_le : ∀ llmi ∈ ir.instrs, llmi.inputs.length ≤ cfg.lIn
  outputs_le : ∀ llmi ∈ ir.instrs, llmi.outputs.length ≤ cfg.lOut
  seq_le : ∀ llmi ∈ ir.instrs, llmi.seq.length ≤ cfg.s
  outputs_produced : ∀ m ∈ ir.outputs, ∃ llmi ∈ ir.instrs, m ∈ llmi.outputs
  reveal_only : ∀ llmi ∈ ir.instrs, ∀ m ∈ llmi.outputs, m ∈ ir.outputs →
    ∀ m' ∈ llmi.outputs, m' ∈ ir.outputs
  reveal_unread : ∀ pre llmi post, ir.instrs = pre ++ llmi :: post →
    ∀ m ∈ llmi.inputs, m ∈ ir.outputs → ∀ before ∈ pre, m ∉ before.outputs

/-! ## Cells, slots and IDs -/

/-- Binding cells in order to IDs, slots and words at once. The relation `R` is
established for each new binding; the cells not bound again keep it. -/
theorem bindIDs_store {R : Nat → ID → List UInt8 → Word → Prop} {count : Nat} (id : Nat → ID)
    {ms : List Nat} {cs : List (List UInt8)} {ws : List Word} (idx : Nat) (ids : IdDict)
    (mem : Memory) (sem : Store Nat) (hCs : ms.length ≤ cs.length) (hWs : ms.length ≤ ws.length)
    (hCount : ∀ m ∈ ms, m < count)
    (hNew : ∀ j m c w, ms[j]? = some m → cs[j]? = some c → ws[j]? = some w → R m (id (idx + j)) c w)
    (hOld : ∀ m, m ∉ ms → ∀ i, ids.lookup m = some i → R m i (mem m) (sem m)) :
    ∃ mem', Memory.store count (ms.zip cs) mem = some mem' ∧
      ∀ m i, (bindIDs id idx ms ids).lookup m = some i →
        R m i (mem' m) (storeWords (ms.zip ws) sem m) := by
  induction ms generalizing cs ws idx ids mem sem with
  | nil => exact ⟨mem, rfl, fun m i h => hOld m List.not_mem_nil i h⟩
  | cons m₀ ms ih =>
    obtain ⟨c₀, cs, rfl⟩ := List.exists_cons_of_length_pos (Nat.lt_of_lt_of_le (by simp) hCs)
    obtain ⟨w₀, ws, rfl⟩ := List.exists_cons_of_length_pos (Nat.lt_of_lt_of_le (by simp) hWs)
    have hHead := hNew 0 m₀ c₀ w₀ rfl rfl rfl
    obtain ⟨mem', hStore, hRel⟩ := ih (idx + 1) ((m₀, id idx) :: ids)
      (Function.update mem m₀ c₀) (Function.update sem m₀ w₀)
      (Nat.le_of_succ_le_succ hCs) (Nat.le_of_succ_le_succ hWs)
      (fun m hm => hCount m (List.mem_cons_of_mem m₀ hm))
      (fun j m c w hm hc hw => by
        have := hNew (j + 1) m c w hm hc hw
        rwa [show idx + (j + 1) = idx + 1 + j by omega] at this)
      (fun m hm i hi => by
        rw [lookup_cons_ite] at hi
        split at hi
        case isTrue hEq =>
          subst hEq
          obtain rfl := Option.some.inj hi
          simpa using hHead
        case isFalse hNe =>
          rw [Function.update_of_ne hNe, Function.update_of_ne hNe]
          exact hOld m (by simp [hNe, hm]) i hi)
    refine ⟨mem', ?_, hRel⟩
    rw [List.zip_cons_cons, Memory.store, if_pos (hCount m₀ List.mem_cons_self)]
    exact hStore

/-- Binding cells gives every one of them an ID and takes none away. -/
theorem bindIDs_lookup_isSome {id : Nat → ID} {ms : List Nat} {idx : Nat} {ids : IdDict} {m : Nat}
    (h : m ∈ ms ∨ (ids.lookup m).isSome) : ((bindIDs id idx ms ids).lookup m).isSome := by
  induction ms generalizing idx ids with
  | nil => simpa [bindIDs] using h
  | cons m₀ ms ih =>
    apply ih
    rw [lookup_cons_ite]
    rcases h with h | h
    · rcases List.mem_cons.mp h with rfl | h
      · right
        simp
      · exact Or.inl h
    · right
      split
      · rfl
      · exact h

/-! ## The input phase -/

section Inputs

variable {D : Type} {C : Crypto D} {dec : Decrypt D} {cfg : SEConfig}

theorem Crypto.Correct.word_length (hC : C.Correct dec) (execID : D) (id : ID) (w : Word) :
    (C.ct (C.word execID id w)).length = 20 := by
  rw [hC.ct_length]
  simp [Crypto.word, wordToBytes]

/-- The encrypted word of the program input at position `k`. -/
def inputWord (C : Crypto D) (lOut : Nat) (execID : D) (inps : List Word) (k : Nat) : List UInt8 :=
  C.ct (C.word execID (inputID lOut k) (inps.getD k 0))

variable [DecidableEq D]

/-- One batch: with the token of the chain value it reaches, `SEinput` hands out
the token of the value before it and the words of the batch. -/
theorem seInput_batch (hC : C.Correct dec) {execID : D} {inps : List Word} {i : Nat}
    (hi : i + 1 < 2 ^ 32) :
    seInput C dec cfg execID (i + 1) (chainAt C cfg.lOut inps i) (batch cfg.lOut inps (i + 1))
        (C.ct (C.token execID (i + 1) (chainAt C cfg.lOut inps (i + 1)))) =
      some ⟨C.token execID i (chainAt C cfg.lOut inps i),
        (List.range cfg.lOut).map fun j =>
          C.word execID ⟨i + 1, j⟩ (inps.getD (i * cfg.lOut + j) 0)⟩ := by
  have hLen : (batch cfg.lOut inps (i + 1)).length = cfg.lOut := by simp [batch]
  have hZero : i + 1 = 1 → chainAt C cfg.lOut inps i = C.zero := by
    intro h
    obtain rfl : i = 0 := by omega
    rfl
  have hDec := hC.dec_ct (C.token execID (i + 1) (chainAt C cfg.lOut inps (i + 1)))
  refine seInput_eq_some.mpr ⟨⟨by omega, hi, hLen⟩, hZero, hDec, ?_, ?_⟩
  · intro x _
    exact hC.word_length execID _ _
  · rw [batch, zipIdx_map_range]
    simp

/-- All batches from `i` down to the first: the words come in program order. -/
theorem inputAll_eq (execID : D) (inps : List Word) (hC : C.Correct dec) (hOut : 0 < cfg.lOut)
    {i : Nat} (hi : i < 2 ^ 32) :
    inputAll C dec cfg execID inps i (C.ct (C.token execID i (chainAt C cfg.lOut inps i))) =
      some ((List.range (i * cfg.lOut)).map (inputWord C cfg.lOut execID inps)) := by
  induction i with
  | zero => simp [inputAll]
  | succ i ih =>
    have hWords : (List.range cfg.lOut).map (fun j =>
        C.ct (C.word execID ⟨i + 1, j⟩ (inps.getD (i * cfg.lOut + j) 0))) =
        (List.range cfg.lOut).map fun j => inputWord C cfg.lOut execID inps (i * cfg.lOut + j) := by
      apply List.map_congr_left
      intro j hj
      have hj := List.mem_range.mp hj
      have hID : inputID cfg.lOut (i * cfg.lOut + j) = ⟨i + 1, j⟩ := by
        rw [inputID, Nat.mul_comm i, Nat.mul_add_div hOut, Nat.div_eq_of_lt hj,
          Nat.mul_add_mod, Nat.mod_eq_of_lt hj]
      rw [inputWord, hID]
    rw [inputAll, seInput_batch hC hi]
    simp only [Option.bind_eq_bind, Option.bind_some, ih (by omega), Option.pure_def,
      List.map_map, Function.comp_def]
    rw [hWords, Nat.succ_mul, List.range_add, List.map_append, List.map_map, Function.comp_def]

omit [DecidableEq D] in
/-- Opening an execution: the header carries the input count of the program. -/
theorem seStart_header (cfg : SEConfig) (tail : List UInt8) (hash : D) (hC : C.Correct dec)
    {ctSk sharedKey : List UInt8} {lbM n : Nat} (hKey : ctSk.length = 64)
    (hOpen : C.sealOpen ctSk = some sharedKey) (hShared : sharedKey.length = 16) (hPos : 1 ≤ lbM)
    (hLen : lbM ≤ 4) (hn : n < 256 ^ lbM) :
    ∃ execID, seStart C cfg (ctSk ++ toBE lbM n ++ tail) lbM hash =
      some ⟨⟨C.seckey, C.keyNonce execID, [], sharedKey⟩, execID,
        C.token execID (batchCount cfg.lOut n) hash⟩ := by
  have hTake : (ctSk ++ toBE lbM n ++ tail).take (64 + lbM) = ctSk ++ toBE lbM n := by
    have hFront : (ctSk ++ toBE lbM n).length = 64 + lbM := by simp [hKey]
    rw [← hFront, List.take_left]
  have hTake₆₄ : (ctSk ++ toBE lbM n ++ tail).take 64 = ctSk := by
    rw [List.append_assoc, ← hKey, List.take_left]
  have hDrop : (ctSk ++ toBE lbM n).drop 64 = toBE lbM n := by
    rw [← hKey, List.drop_left]
  refine ⟨C.hashWithPrefix 0 (.digest hash :: symBytes (ctSk ++ toBE lbM n)), ?_⟩
  refine seStart_eq_some.mpr ⟨sharedKey, n, [], by simp [hKey], ?_, ?_, ?_, rfl, rfl, ?_, ?_⟩
  · rw [hTake₆₄, hOpen]
  · rw [hTake, hDrop]
    exact (reads_loadU32 hPos hLen hn).run_all
  · rw [hTake]
  · rw [hC.ct_length]
    simp [hShared]
  · rw [hC.ct_length]
    rfl

end Inputs

/-! ## The evaluation phase -/

section Eval

variable {D : Type} {C : Crypto D} {dec : Decrypt D} {cfg : SEConfig} {execID : D}
variable {ir : LLIRProgram}

theorem ofBE_wordToBytes (w : Word) : BitVec.ofNat 32 (ofBE (wordToBytes w)) = w := by
  rw [wordToBytes, ofBE_toBE_of_lt w.isLt]
  simp

/-- `EWORD_decrypt` loads the words its slots encrypt. -/
theorem ewordDecrypt_eq (execID : D) (reg : Regs) (hC : C.Correct dec) {r i : Nat}
    {ids : List ID} {ws : List Word} (hLen : ids.length = ws.length) (hFit : i + ids.length ≤ r) :
    ewordDecrypt C dec execID r i ids
        ((ids.zip ws).map fun x => C.ct (C.word execID x.1 x.2)) reg =
      some fun k => if k < i then reg k else ws.getD (k - i) (reg k) := by
  induction ids generalizing i ws reg with
  | nil =>
    obtain rfl : ws = [] := List.length_eq_zero_iff.mp hLen.symm
    simp [ewordDecrypt]
  | cons id ids ih =>
    have hPos : 0 < ws.length := by rw [← hLen]; exact Nat.succ_pos ids.length
    obtain ⟨w, ws, rfl⟩ := List.exists_cons_of_length_pos hPos
    rw [List.length_cons] at hFit
    have hDec : dec C.seckey (C.word execID id 0).nonce (C.word execID id 0).ad
        (C.ct (C.word execID id w)) = some (wordToBytes w) := hC.dec_ct (C.word execID id w)
    have hGuard : (wordToBytes w).length = 4 ∧ i < r := ⟨by simp [wordToBytes], by omega⟩
    have hTail := ih (Function.update reg i w) (i := i + 1) (Nat.succ.inj hLen) (by omega)
    simp only [List.zip_cons_cons, List.map_cons, ewordDecrypt, hDec, Option.bind_eq_bind,
      Option.bind_some, guard, if_pos hGuard, Option.pure_def, ofBE_wordToBytes, hTail]
    congr 1
    funext k
    rcases Nat.lt_trichotomy k i with hk | rfl | hk
    · rw [if_pos (by omega), if_pos hk, Function.update_of_ne (by omega)]
    · simp
    · rw [if_neg (by omega), if_neg (by omega), Function.update_of_ne (by omega),
        show k - i = (k - (i + 1)) + 1 by omega, List.getD_cons_succ]

/-- The slot of a cell holds its word: in clear when a revealing
multi-instruction wrote it (it is a program output and one of the cells `done`
written so far), encrypted under its ID otherwise. -/
def SlotHolds (C : Crypto D) (ir : LLIRProgram) (execID : D) (done : List Nat) (m : Nat) (id : ID)
    (slot : List UInt8) (w : Word) : Prop :=
  if m ∈ done ∧ m ∈ ir.outputs then ∃ tail, slot = wordToBytes w ++ tail
  else slot = C.ct (C.word execID id w)

/-- The memory of the host represents the memory of the abstract program. -/
structure Simulates (C : Crypto D) (ir : LLIRProgram) (execID : D) (done : List Nat)
    (ids : IdDict) (mem : Memory) (sem : Store Nat) : Prop where
  holds : ∀ m id, ids.lookup m = some id → SlotHolds C ir execID done m id (mem m) (sem m)
  bound : ∀ m ∈ done, (ids.lookup m).isSome

theorem lt_of_serializeAll_memdict {count len : Nat} {ms : List Nat} {bs : List UInt8}
    (h : serializeAll (memdict count len) ms = some bs) : ∀ m ∈ ms, m < count := by
  induction ms generalizing bs with
  | nil => simp
  | cons m ms ih =>
    obtain ⟨b, bs', hb, hbs', -⟩ := serializeAll_cons_eq_some.mp h
    exact List.forall_mem_cons.mpr ⟨(memdict_eq_some.mp hb).1, ih hbs'⟩

/-- The slots of cells that are not revealed are encryptions under their IDs. -/
theorem Simulates.slots {done : List Nat} {ids : IdDict} {mem : Memory} {sem : Store Nat}
    (h : Simulates C ir execID done ids mem sem) {ms : List Nat} {inputIDs : List ID}
    (hIDs : ms.mapM (fun m => ids.lookup m) = some inputIDs)
    (hHidden : ∀ m ∈ ms, m ∈ ir.outputs → m ∉ done) :
    ms.map mem = (inputIDs.zip (ms.map sem)).map fun x => C.ct (C.word execID x.1 x.2) := by
  have hPairs := forall₂_of_mapM_eq_some hIDs
  clear hIDs
  induction hPairs with
  | nil => rfl
  | @cons m id ms inputIDs hm _ ih =>
    have hSlot := h.holds m id hm
    rw [SlotHolds, if_neg fun hBoth => hHidden m List.mem_cons_self hBoth.2 hBoth.1] at hSlot
    simp only [List.map_cons, List.zip_cons_cons, hSlot]
    rw [ih fun m hm => hHidden m (List.mem_cons_of_mem _ hm)]

/-- The AEAD under the shared key, as the serializer calls it. -/
def Crypto.encryptShared (C : Crypto D) (sharedKey msg ad nonce : List UInt8) : List UInt8 :=
  C.ct ⟨sharedKey, symBytes nonce, symBytes ad, msg⟩

/-- What `SEeval` puts into output slot `j` of a written multi-instruction. -/
def outWord (C : Crypto D) (cfg : SEConfig) (execID : D) (code : LLMICode) (reg : Regs) (j : Nat) :
    OutWord D :=
  if code.revealFlag ≠ 0 then .clear (reg (cfg.r - cfg.lOut + j))
  else .sealed (C.word execID ⟨code.instrID, j⟩ (reg (cfg.r - cfg.lOut + j)))

section Step

variable {sharedKey : List UInt8} {i : Nat} {ids : IdDict} {llmi : LLMI} {code : LLMICode}
variable {done : List Nat} {mem : Memory} {sem : Store Nat} {junk : Junk} {reg : Regs}

/-- `LLS_decrypt` recovers the sequence of a written multi-instruction. -/
theorem llsDecrypt_parsed (hC : C.Correct dec) (hCfg : cfg.Buildable)
    (hw : (fileWidths cfg ir).Readable)
    (hCode : code.Written (C.encryptShared sharedKey) cfg ir (fileWidths cfg ir) i ids llmi)
    (hIn : llmi.inputs.length ≤ cfg.lIn) :
    llsDecrypt dec code.parsed.aells sharedKey (bytelen ir.memoryCount) (bytelen cfg.lOut) =
      some code.msg := by
  have hFits : adFits cfg ir llmi := by
    have hM : bytelen ir.memoryCount ≤ 4 := hw.lbM_le
    have hO : bytelen cfg.lOut ≤ 4 := hw.lbO_le
    have hProd : (4 + bytelen cfg.lOut) * llmi.inputs.length ≤ 8 * llmi.inputs.length :=
      Nat.mul_le_mul_right _ (by omega)
    have := hCfg.regs_le
    have := hCfg.r_lt
    unfold adFits
    omega
  have hRecovered := hCode.recoveredBy hw hFits
  refine llsDecrypt_eq_some.mpr ⟨code.ad, hRecovered.ad_eq, ?_, ?_⟩
  · rw [hRecovered.nonce_eq, hRecovered.bytecode_eq, hCode.lls_eq]
    exact hC.dec_ct ⟨sharedKey, symBytes code.nonce, symBytes code.ad, code.msg⟩
  · rw [hRecovered.bytecode_eq, hCode.lls_eq, Crypto.encryptShared, hC.ct_length]

/-- One output of a written multi-instruction. -/
theorem ewordOutput_parsed (hC : C.Correct dec) (hCfg : cfg.Buildable) {j : Nat}
    (hj : j < cfg.lOut) :
    ewordOutput C cfg execID code.parsed.aells reg cfg.r j =
      some (outWord C cfg execID code reg j) := by
  have hRegs := hCfg.regs_le
  have hLt := hCfg.r_lt
  have hReg : outReg cfg cfg.r j = cfg.r - cfg.lOut + j := by
    unfold outReg
    omega
  have hSeal : C.seal (C.word execID ⟨code.instrID, j⟩ (reg (cfg.r - cfg.lOut + j))) 20 =
      some (C.word execID ⟨code.instrID, j⟩ (reg (cfg.r - cfg.lOut + j))) :=
    Crypto.seal_eq_some.mpr ⟨hC.word_length _ _ _, rfl⟩
  rw [ewordOutput, hReg, if_pos (by omega), outWord]
  simp only [LLMICode.parsed, hSeal]
  split <;> rfl

/-- `SEeval` on a written multi-instruction, with slots that represent its
inputs. -/
theorem seEval_parsed (hC : C.Correct dec) (hCfg : cfg.Buildable)
    (hw : (fileWidths cfg ir).Readable) (hShared : sharedKey.length = 16)
    (hCode : code.Written (C.encryptShared sharedKey) cfg ir (fileWidths cfg ir) i ids llmi)
    (hIn : llmi.inputs.length ≤ cfg.lIn) (hOut : llmi.outputs.length ≤ cfg.lOut)
    (hSeq : llmi.seq.length ≤ cfg.s) (hSim : Simulates C ir execID done ids mem sem)
    (hHidden : ∀ m ∈ llmi.inputs, m ∈ ir.outputs → m ∉ done)
    (hRun : run llmi.seq (loadRegs junk.reg (llmi.inputs.map sem)) = some reg) :
    seEval C dec cfg junk execID (C.ct ⟨C.seckey, C.keyNonce execID, [], sharedKey⟩)
        code.parsed.aells (llmi.inputs.map mem) cfg.r (bytelen ir.memoryCount) (bytelen cfg.r)
        (cfg.wordSize / 8) (bytelen cfg.lOut) =
      some ((List.range llmi.outputs.length).map (outWord C cfg execID code reg)) := by
  have hRegs := hCfg.regs_le
  have hLOut := hCfg.lOut_ge
  have hRLt := hCfg.r_lt
  have hLen : code.inputIDs.length = (llmi.inputs.map sem).length := by
    rw [length_of_mapM_eq_some hCode.inputIDs_eq, List.length_map]
  have hFit : 0 + code.inputIDs.length ≤ cfg.r := by
    rw [hLen, List.length_map]
    omega
  have hLoad := ewordDecrypt_eq execID junk.reg hC hLen hFit
  rw [← hSim.slots hCode.inputIDs_eq hHidden] at hLoad
  have hWord : cfg.wordSize / 8 = 4 := by rw [hCfg.wordSize_eq]
  have hExec := llsExecute_serializeLLS (loadRegs junk.reg (llmi.inputs.map sem))
    (bytelen_pos (by omega)) (bytelen_le_four (by omega)) hWord hCode.msg_eq hSeq
  refine seEval_eq_some.mpr ⟨sharedKey, code.msg, _, reg,
    hC.dec_ct ⟨C.seckey, C.keyNonce execID, [], sharedKey⟩, hShared,
    llsDecrypt_parsed hC hCfg hw hCode hIn, hLoad, ?_, ?_⟩
  · rw [hWord, ← hRun, ← hExec]
    congr 1
  · rw [show code.parsed.aells.outCount = llmi.outputs.length from
      congrArg List.length hCode.outputs_eq]
    refine mapM_eq_some_map fun j hj => ?_
    exact ewordOutput_parsed hC hCfg (Nat.lt_of_lt_of_le (List.mem_range.mp hj) hOut)

/-- A written multi-instruction reveals exactly when its outputs are program
outputs. -/
theorem revealFlag_ne_zero (hRun : ir.Runnable cfg) (hMem : llmi ∈ ir.instrs)
    (hCode : code.Written (C.encryptShared sharedKey) cfg ir (fileWidths cfg ir) i ids llmi)
    {m : Nat} (hm : m ∈ llmi.outputs) : code.revealFlag ≠ 0 ↔ m ∈ ir.outputs := by
  rw [hCode.revealFlag_eq, LLIRProgram.revealFlag]
  constructor
  · intro h
    have hAny : llmi.outputs.any (fun out => out ∈ ir.outputs) = true := by
      by_contra hNot
      exact h (if_neg hNot)
    obtain ⟨m', hm', hOut⟩ := List.any_eq_true.mp hAny
    exact hRun.reveal_only llmi hMem m' hm' (by simpa using hOut) m hm
  · intro h
    rw [if_pos (List.any_eq_true.mpr ⟨m, hm, by simpa using h⟩)]
    decide

/-- One step of the simulation. -/
theorem evalLLMI_simulates (hC : C.Correct dec) (hCfg : cfg.Buildable) (hRunnable : ir.Runnable cfg)
    (hw : (fileWidths cfg ir).Readable) (hShared : sharedKey.length = 16)
    (hMem : llmi ∈ ir.instrs)
    (hCode : code.Written (C.encryptShared sharedKey) cfg ir (fileWidths cfg ir) i ids llmi)
    (hSim : Simulates C ir execID done ids mem sem)
    (hHidden : ∀ m ∈ llmi.inputs, m ∈ ir.outputs → m ∉ done) {sem' : Store Nat}
    (hEval : llmi.eval cfg junk.reg sem = some sem') :
    ∃ mem', evalLLMI C dec cfg junk execID (C.ct ⟨C.seckey, C.keyNonce execID, [], sharedKey⟩)
        ir.memoryCount code.parsed mem = some mem' ∧
      Simulates C ir execID (done ++ llmi.outputs)
        (bindIDs (fun j => ⟨code.instrID, j⟩) 0 llmi.outputs ids) mem' sem' := by
  obtain ⟨inputsBstr, outputsBstr, -, hInputs, hOutputs, -⟩ := hCode.layout
  rw [LLMI.eval, Option.map_eq_some_iff] at hEval
  obtain ⟨reg, hRun, rfl⟩ := hEval
  have hCall := seEval_parsed hC hCfg hw hShared hCode
    (hRunnable.inputs_le llmi hMem) (hRunnable.outputs_le llmi hMem) (hRunnable.seq_le llmi hMem)
    hSim hHidden hRun
  -- the slots it reads are within memory
  have hLoad : code.parsed.memInps.mapM (mem.load ir.memoryCount) =
      some (llmi.inputs.map mem) := by
    rw [show code.parsed.memInps = llmi.inputs from hCode.inputs_eq]
    refine mapM_eq_some_map fun m hm => ?_
    rw [Memory.load, if_pos (lt_of_serializeAll_memdict hInputs m hm)]
  -- the new bindings, slot by slot
  obtain ⟨mem', hStore, hHolds⟩ := bindIDs_store
    (R := SlotHolds C ir execID (done ++ llmi.outputs)) (fun j => ⟨code.instrID, j⟩) 0 ids mem sem
    (show llmi.outputs.length ≤ ((List.range llmi.outputs.length).map fun j =>
      (outWord C cfg execID code reg j).bytes C junk j).length by simp)
    (show llmi.outputs.length ≤ ((List.range llmi.outputs.length).map fun j =>
      reg (cfg.r - cfg.lOut + j)).length by simp)
    (lt_of_serializeAll_memdict hOutputs)
    (by
      intro j m c w hm hc hw
      have hm' := List.mem_of_getElem? hm
      obtain ⟨hj, -⟩ := List.getElem?_eq_some_iff.mp hm
      simp only [List.getElem?_map, List.getElem?_range hj, Option.map_some,
        Option.some.injEq] at hc hw
      have hReveal := revealFlag_ne_zero hRunnable hMem hCode hm'
      rw [SlotHolds, ← hc, ← hw, Nat.zero_add, outWord]
      -- an output is stored in clear, another word as its ciphertext
      by_cases hOut : m ∈ ir.outputs
      · rw [if_pos ⟨List.mem_append_right done hm', hOut⟩, if_pos (hReveal.mpr hOut)]
        exact ⟨junk.tail j, rfl⟩
      · rw [if_neg fun h => hOut h.2, if_neg fun h => hOut (hReveal.mp h)]
        rfl)
    (by
      intro m hm id hid
      have hOld := hSim.holds m id hid
      have hSame : m ∈ done ++ llmi.outputs ↔ m ∈ done := by simp [hm]
      simpa only [SlotHolds, hSame] using hOld)
  refine ⟨mem', ?_, hHolds, ?_⟩
  · rw [evalLLMI, hLoad]
    simp only [Option.bind_eq_bind, Option.bind_some, hCall, zipIdx_map_range, List.map_map,
      Function.comp_def]
    rw [show code.parsed.memOuts = llmi.outputs from hCode.outputs_eq]
    exact hStore
  · intro m hm
    apply bindIDs_lookup_isSome
    rcases List.mem_append.mp hm with h | h
    · exact Or.inr (hSim.bound m h)
    · exact Or.inl h

end Step

/-- The cells a list of multi-instructions writes. -/
def written (llmis : List LLMI) : List Nat := llmis.flatMap LLMI.outputs

/-- The run: the multi-instructions from `pre` on keep the simulation. -/
theorem evalAll_simulates (hC : C.Correct dec) (hCfg : cfg.Buildable) (hRunnable : ir.Runnable cfg)
    (hw : (fileWidths cfg ir).Readable) {sharedKey : List UInt8} (hShared : sharedKey.length = 16)
    {junk : Nat → Junk} (pre : List LLMI) {rest : List LLMI} (hSplit : ir.instrs = pre ++ rest)
    {ids : IdDict} {codes : List LLMICode} {i : Nat}
    (hCodes : serializeLLMIs (C.encryptShared sharedKey) cfg ir (fileWidths cfg ir) i ids rest =
      some codes)
    {mem : Memory} {sem sem' : Store Nat} (hSim : Simulates C ir execID (written pre) ids mem sem)
    (hEval : evalLLMIs cfg (fun k => (junk k).reg) i rest sem = some sem') :
    ∃ mem' ids', evalAll C dec cfg junk execID
        (C.ct ⟨C.seckey, C.keyNonce execID, [], sharedKey⟩) ir.memoryCount i
        (codes.map LLMICode.parsed) mem = some mem' ∧
      Simulates C ir execID (written ir.instrs) ids' mem' sem' := by
  induction rest generalizing pre ids codes i mem sem with
  | nil =>
    obtain rfl : [] = codes := by simpa [serializeLLMIs] using hCodes
    obtain rfl : sem = sem' := by simpa [evalLLMIs] using hEval
    rw [List.append_nil] at hSplit
    exact ⟨mem, ids, rfl, hSplit ▸ hSim⟩
  | cons llmi rest ih =>
    obtain ⟨code, codes', rfl, hCode, hRest⟩ := serializeLLMIs_cons_eq_some hCodes
    rw [evalLLMIs, Option.bind_eq_some_iff] at hEval
    obtain ⟨mid, hHead, hTail⟩ := hEval
    have hMem : llmi ∈ ir.instrs := by simp [hSplit]
    have hHidden : ∀ m ∈ llmi.inputs, m ∈ ir.outputs → m ∉ written pre := by
      intro m hm hOut hPre
      obtain ⟨before, hBefore, hm'⟩ := List.mem_flatMap.mp hPre
      exact hRunnable.reveal_unread pre llmi rest hSplit m hm hOut before hBefore hm'
    obtain ⟨mem₁, hStep, hSim₁⟩ := evalLLMI_simulates hC hCfg hRunnable hw hShared hMem hCode hSim
      hHidden hHead
    have hWritten : written pre ++ llmi.outputs = written (pre ++ [llmi]) := by simp [written]
    rw [hWritten] at hSim₁
    obtain ⟨mem', ids', hAll, hSim'⟩ := ih (pre ++ [llmi]) (by simp [hSplit]) hRest hSim₁ hTail
    refine ⟨mem', ids', ?_, hSim'⟩
    rw [List.map_cons, evalAll, hStep]
    exact hAll

end Eval

/-! ## Whole programs -/

section Program

variable {D : Type} [DecidableEq D] {C : Crypto D} {dec : Decrypt D} {cfg : SEConfig}
variable {ir : LLIRProgram} {ctSk sharedKey : List UInt8} {bc : Bytecode}

/-- Reading an output of the program out of its slot. -/
theorem readOutput_eq {count m : Nat} {mem : Memory} {w : Word} {tail : List UInt8}
    (hm : m < count) (h : mem m = wordToBytes w ++ tail) : readOutput count mem m = some w := by
  have hRead := reads_loadU32 (by decide) (by decide) (show w.toNat < 256 ^ 4 from w.isLt) tail
  simp only [readOutput, Memory.load, if_pos hm, Option.bind_eq_bind, Option.bind_some, h,
    loadWord, StateT.run_map, wordToBytes, hRead]
  simp

omit [DecidableEq D] in
/-- The memory after the input phase represents the inputs. -/
theorem store_inputs (C : Crypto D) (cfg : SEConfig) (execID : D) (mem : Memory)
    {inputs : List Word} {words : Nat}
    (hInputs : inputs.length = ir.inputs.length) (hWords : ir.inputs.length ≤ words)
    (hCells : ∀ m ∈ ir.inputs, m < ir.memoryCount) :
    ∃ mem', mem.store ir.memoryCount (ir.inputs.zip
        ((List.range words).map (inputWord C cfg.lOut execID inputs))) = some mem' ∧
      Simulates C ir execID (written []) (bindIDs (inputID cfg.lOut) 0 ir.inputs []) mem'
        (storeWords (ir.inputs.zip inputs) fun _ => 0) := by
  obtain ⟨mem', hStore, hHolds⟩ := bindIDs_store
    (R := SlotHolds C ir execID (written [])) (inputID cfg.lOut) 0 [] mem (fun _ => 0)
    (show ir.inputs.length ≤
      ((List.range words).map (inputWord C cfg.lOut execID inputs)).length by simpa using hWords)
    hInputs.ge hCells
    (by
      intro j m c w hm hc hw
      obtain ⟨hj, -⟩ := List.getElem?_eq_some_iff.mp hm
      simp only [List.getElem?_map, List.getElem?_range (Nat.lt_of_lt_of_le hj hWords),
        Option.map_some, Option.some.injEq] at hc
      rw [SlotHolds, if_neg fun h => List.not_mem_nil h.1, ← hc, inputWord, List.getD, hw,
        Nat.zero_add]
      rfl)
    (by
      intro m _ id hid
      cases hid)
  exact ⟨mem', hStore, hHolds, fun m hm => absurd hm List.not_mem_nil⟩

end Program

/-! ## A run with a toy AEAD -/

/-- A 64-bit checksum in the place of the hash. -/
def checksum (msg : List (Sym Nat)) : Nat :=
  msg.foldl (fun acc s => (acc * 257 + match s with
    | .byte b => b.toNat
    | .digest d => d + 256) % 2 ^ 64) 7

/-- The message followed by a checksum of everything as tag. -/
def toyCt (b : Box Nat) : List UInt8 :=
  b.msg ++ toBE 16 (checksum (symBytes b.key ++ b.nonce ++ b.ad ++ symBytes b.msg))

/-- Accept a ciphertext only when its tag is that of its message. -/
def toyDec : Decrypt Nat := fun key nonce ad c =>
  let msg := c.take (c.length - 16)
  if c = toyCt ⟨key, nonce, ad, msg⟩ then some msg else none

def toyCrypto : Crypto Nat where
  zero := 0
  hash := checksum
  ct := toyCt
  sealOpen := fun c => if c.length = 64 then some (c.take 16) else none
  seckey := List.replicate 16 2

theorem toyCrypto_correct : toyCrypto.Correct toyDec := by
  have hLen : ∀ b, (toyCt b).length = b.msg.length + 16 := by
    intro b
    simp [toyCt]
  refine ⟨?_, hLen⟩
  intro b
  have hTake : (toyCt b).take ((toyCt b).length - 16) = b.msg := by
    rw [hLen, Nat.add_sub_cancel, toyCt, List.take_left]
  show toyDec b.key b.nonce b.ad (toyCt b) = some b.msg
  simp only [toyDec, hTake, if_true]

/-- A host with empty memory. -/
def emptyHost : HostJunk := ⟨fun _ => [], fun _ => ⟨fun _ => 0, fun _ => []⟩⟩

/-- The runtime can run it. -/
theorem tripleSum_runnable : tripleSum.Runnable seSmall := by
  refine ⟨by decide, by decide, by decide, by decide, by decide, by decide, by decide, ?_⟩
  intro pre llmi post hSplit m hm hOut
  have hUnread : ∀ llmi ∈ tripleSum.instrs, ∀ m ∈ llmi.inputs, m ∉ tripleSum.outputs := by decide
  exact absurd hOut (hUnread llmi (by simp [hSplit]) m hm)

end Obscure
