import Mathlib.Algebra.Order.BigOperators.Group.List
import Obscure.Runtime.Behaviour
import Obscure.Runtime.Substitution

/-!
# OBSCURE — the interpreter is a host

`Runtime/Protocol.lean` lets a host call the element in any order. Here the calls
of `interpret` are recorded, and shown to be a run of that model: whatever the
interpreter presents to the element was encrypted by the element or the compiler
before, so that the ideal AEAD answers every call as the real one does. Such a run
stays within the bounds under which intermediate values cannot be substituted, and
shows every output of the program.

* `interpretCalls_run` — the calls are a run, if the program has a value.
-/

namespace Obscure

open Lib

-- ---------------------------------------------------------------------------
-- The calls of the interpreter
-- ---------------------------------------------------------------------------

section Calls

variable {D : Type} [DecidableEq D] (C : Crypto D) (dec : Decrypt D)

/-- The calls of step 3, from batch `i` down to the first, after those in `h`. -/
def inputCalls (cfg : SEConfig) (execID : D) (inps : List Word) :
    Nat → List UInt8 → List (Event D) → Option (List (Event D))
  | 0, _, h => some h
  | i + 1, cin, h => do
    let Hp := chainAt C cfg.lOut inps i
    let X := batch cfg.lOut inps (i + 1)
    let reply ← seInput C dec cfg execID (i + 1) Hp X cin
    inputCalls cfg execID inps i (C.ct reply.cinp) (.input execID (i + 1) Hp X cin reply :: h)

/-- The arguments of the call for one multi-instruction. -/
def evalArgs (cfg : SEConfig) (junk : Junk) (execID : D) (esharedkey : List UInt8)
    (memoryCount : Nat) (llmi : ParsedLLMI) (inps : List (List UInt8)) : EvalCall D where
  junk := junk
  execID := execID
  esharedkey := esharedkey
  aells := llmi.aells
  Cx := inps
  r := cfg.r
  lbM := bytelen memoryCount
  lbR := bytelen cfg.r
  lbC := cfg.wordSize / 8
  lbO := bytelen cfg.lOut

/-- The calls of step 4, after those in `h`. -/
def evalCalls (cfg : SEConfig) (junk : Nat → Junk) (execID : D) (esharedkey : List UInt8)
    (memoryCount : Nat) : Nat → List ParsedLLMI → Memory → List (Event D) → Option (List (Event D))
  | _, [], _, h => some h
  | k, llmi :: rest, mem, h => do
    let inps ← llmi.memInps.mapM (mem.load memoryCount)
    let call := evalArgs cfg (junk k) execID esharedkey memoryCount llmi inps
    let outs ← seEval C dec cfg call.junk call.execID call.esharedkey call.aells call.Cx call.r
      call.lbM call.lbR call.lbC call.lbO
    let mem' ← evalLLMI C dec cfg (junk k) execID esharedkey memoryCount llmi mem
    evalCalls cfg junk execID esharedkey memoryCount (k + 1) rest mem' (.eval call outs :: h)

/-- The calls of `interpret`, the newest first. -/
def interpretCalls (cfg : SEConfig) (junk : HostJunk) (bytecode : List UInt8)
    (progInps : List Word) :
    Option (List (Event D)) := do
  let (memoryCount, header, program) ← interpretFile cfg bytecode
  let L := batchCount cfg.lOut program.memInps.length
  let hash := chainAt C cfg.lOut progInps L
  let start ← seStart C cfg header (bytelen memoryCount) hash
  let h ← inputCalls C dec cfg start.execID progInps L (C.ct start.cin)
    [.start header (bytelen memoryCount) hash start]
  let words ← inputAll C dec cfg start.execID progInps L (C.ct start.cin)
  let mem ← junk.mem.store memoryCount (program.memInps.zip words)
  evalCalls C dec cfg junk.call start.execID (C.ct start.esharedkey) memoryCount 0 program.llmis mem
    h

end Calls

-- ---------------------------------------------------------------------------
-- The ideal AEAD answers as the real one
-- ---------------------------------------------------------------------------

section Ideal

variable {D : Type} [DecidableEq D] {C : Crypto D} {dec : Decrypt D} {cfg : SEConfig} {execID : D}
  {log : List (Box D)}

/-- A batch that is accepted is accepted by the ideal AEAD, if its token is there. -/
theorem seInput_ideal (hC : C.Correct dec) {i : Nat} {Hp : D} {X : List Word} {reply : InputReply D}
    (hTok : C.token execID i (C.hashchain Hp X) ∈ log)
    (h : seInput C dec cfg execID i Hp X (C.ct (C.token execID i (C.hashchain Hp X))) =
      some reply) :
    seInput C (idealDec C log) cfg execID i Hp X (C.ct (C.token execID i (C.hashchain Hp X))) =
      some reply := by
  obtain ⟨hBounds, hZero, -, hLen, hReply⟩ := seInput_eq_some.mp h
  exact seInput_eq_some.mpr ⟨hBounds, hZero, idealDec_of_mem hC hTok, hLen, hReply⟩

section Eval

variable {ir : LLIRProgram} {sharedKey : List UInt8} {k : Nat} {ids : IdDict} {llmi : LLMI}
  {code : LLMICode}

/-- The box of a record's sequence. -/
def LLMICode.box (sharedKey : List UInt8) (code : LLMICode) : Box D :=
  ⟨sharedKey, symBytes code.nonce, symBytes code.ad, code.msg⟩

omit [DecidableEq D] in
theorem llsDecrypt_inv (hC : C.Correct dec) (hw : (fileWidths cfg ir).Readable)
    (hCode : code.Written (C.encryptShared sharedKey) cfg ir (fileWidths cfg ir) k ids llmi)
    {lls : List UInt8} (h : llsDecrypt dec code.parsed.aells sharedKey (bytelen ir.memoryCount)
      (bytelen cfg.lOut) = some lls) :
    lls = code.msg ∧ code.parsed.aells.ad (bytelen ir.memoryCount) (bytelen cfg.lOut) =
      some code.ad ∧
      code.parsed.aells.bytecode = C.ct (code.box sharedKey) := by
  obtain ⟨ad, hAd, hDec, -⟩ := llsDecrypt_eq_some.mp h
  have hBytes : code.parsed.aells.bytecode = C.ct (code.box sharedKey) := hCode.lls_eq
  have hParsed := hCode.ad_parsed hw
  obtain rfl : ad = code.ad := by
    have hEq := hAd.symm.trans hParsed
    split at hEq
    · exact Option.some.inj hEq
    · cases hEq
  rw [hCode.nonce_parsed, hBytes] at hDec
  exact ⟨Option.some.inj (hDec.symm.trans (hC.dec_ct (code.box sharedKey))), hAd, hBytes⟩

/-- An evaluation of a record of the file on words of the ledger. -/
theorem seEval_ideal (hC : C.Correct dec) (hw : (fileWidths cfg ir).Readable)
    (hCode : code.Written (C.encryptShared sharedKey) cfg ir (fileWidths cfg ir) k ids llmi)
    (hKey : ⟨C.seckey, C.keyNonce execID, [], sharedKey⟩ ∈ log) (hSeq : code.box sharedKey ∈ log)
    {ws : List Word} (hWords : ∀ x ∈ code.inputIDs.zip ws, C.word execID x.1 x.2 ∈ log)
    {junk : Junk} {r lbR lbC : Nat} {outs : List (OutWord D)}
    (hCall : seEval C dec cfg junk execID (C.ct ⟨C.seckey, C.keyNonce execID, [], sharedKey⟩)
      code.parsed.aells ((code.inputIDs.zip ws).map fun x => C.ct (C.word execID x.1 x.2)) r
      (bytelen ir.memoryCount) lbR lbC (bytelen cfg.lOut) = some outs) :
    seEval C (idealDec C log) cfg junk execID
      (C.ct ⟨C.seckey, C.keyNonce execID, [], sharedKey⟩) code.parsed.aells
      ((code.inputIDs.zip ws).map fun x => C.ct (C.word execID x.1 x.2)) r
      (bytelen ir.memoryCount) lbR lbC (bytelen cfg.lOut) = some outs := by
  obtain ⟨sk, lls, reg, reg', hSk, hSkLen, hLls, hLoad, hExec, hOuts⟩ := seEval_eq_some.mp hCall
  have hSkEq := hC.dec_ct (⟨C.seckey, C.keyNonce execID, [], sharedKey⟩ : Box D)
  rw [hSk, Option.some.injEq] at hSkEq
  subst hSkEq
  obtain ⟨rfl, hAd, hBytes⟩ := llsDecrypt_inv hC hw hCode hLls
  obtain ⟨_, -, -, hLlsLen⟩ := llsDecrypt_eq_some.mp hLls
  refine seEval_eq_some.mpr ⟨sk, code.msg, reg, reg', idealDec_of_mem hC hKey, hSkLen, ?_, ?_,
    hExec, hOuts⟩
  · refine llsDecrypt_eq_some.mpr ⟨code.ad, hAd, ?_, hLlsLen⟩
    rw [hCode.nonce_parsed, hBytes]
    exact idealDec_of_mem hC hSeq
  · rw [← hLoad]
    exact ewordDecrypt_ideal hC junk.reg hWords

end Eval

end Ideal

-- ---------------------------------------------------------------------------
-- The run
-- ---------------------------------------------------------------------------

section Run

variable {D : Type} [DecidableEq D] {C : Crypto D} {dec : Decrypt D} {cfg : SEConfig} {execID : D}
  {init : List (Box D)} {h : List (Event D)} {inps : List Word}

omit [DecidableEq D] in
theorem ledger_append {new : List (Event D)} {b : Box D} (hb : b ∈ ledger init h) :
    b ∈ ledger init (new ++ h) := by
  simp only [ledger, List.flatMap_append, List.mem_append] at hb ⊢
  tauto

/-- A call of the execution `execID` with the inputs `inps`. -/
def Event.OfExecution (cfg : SEConfig) (execID : D) (inps : List Word) : Event D → Prop
  | .start _ _ _ reply => reply.execID = execID
  | .input e i _ X _ _ => e = execID ∧ X = batch cfg.lOut inps i
  | .eval call _ => call.execID = execID

/-- A call of the interpreter: it carries the key of the file, the number of batches of the program
and the sizes of the element, and belongs to one execution. -/
structure Event.Honest (ctSk : List UInt8) (cfg : SEConfig) (ir : LLIRProgram) (execID : D)
    (inps : List Word) (e : Event D) : Prop where
  carriesKey : e.CarriesKey ctSk
  bounded : e.Bounded cfg ir
  ofExecution : e.OfExecution cfg execID inps

/-- The input phase: from the token of the whole chain every batch is accepted, and the words of
the inputs are in the ledger afterwards. -/
theorem inputCalls_run (ctSk : List UInt8) (ir : LLIRProgram) (hC : C.Correct dec)
    (hOut : 0 < cfg.lOut) {i : Nat} (hi : i < 2 ^ 32) (hRun : Run C cfg init h)
    (hTok : C.token execID i (chainAt C cfg.lOut inps i) ∈ ledger init h) :
    ∃ new, inputCalls C dec cfg execID inps i
        (C.ct (C.token execID i (chainAt C cfg.lOut inps i))) h = some (new ++ h) ∧
      Run C cfg init (new ++ h) ∧ (∀ e ∈ new, e.Honest ctSk cfg ir execID inps) ∧
      ∀ n < i * cfg.lOut,
        C.word execID (inputID cfg.lOut n) (inps.getD n 0) ∈ ledger init (new ++ h) := by
  -- on the batches still to be entered, the last one first
  induction i generalizing h with
  | zero => exact ⟨[], rfl, hRun, by simp, by simp⟩
  | succ i ih =>
    set H := chainAt C cfg.lOut inps i with hH
    set X := batch cfg.lOut inps (i + 1) with hX
    set reply : InputReply D := ⟨C.token execID i H, (List.range cfg.lOut).map fun j =>
      C.word execID ⟨i + 1, j⟩ (inps.getD (i * cfg.lOut + j) 0)⟩ with hReplyEq
    have hCall : seInput C dec cfg execID (i + 1) H X
        (C.ct (C.token execID (i + 1) (C.hashchain H X))) = some reply := seInput_batch hC hi
    set e : Event D := .input execID (i + 1) H X (C.ct (C.token execID (i + 1) (C.hashchain H X)))
      reply with he
    have hRun' : Run C cfg init (e :: h) := .step hRun (seInput_ideal hC hTok hCall)
    -- the token of the batch before is sealed in the reply
    have hTok' : C.token execID i H ∈ ledger init (e :: h) :=
      (ledger_cons init e h).mpr (Or.inl List.mem_cons_self)
    obtain ⟨new, hCalls, hRunNew, hNew, hWords⟩ := ih (by omega) hRun' hTok'
    refine ⟨new ++ [e], ?_, by simpa using hRunNew, fun e' he' => ?_, fun n hn => ?_⟩
    · rw [List.append_assoc, List.singleton_append, ← hCalls]
      show (seInput C dec cfg execID (i + 1) H X
        (C.ct (C.token execID (i + 1) (C.hashchain H X)))).bind _ = _
      rw [hCall, Option.bind_some]
      rfl
    · rcases List.mem_append.mp he' with he' | he'
      · exact hNew e' he'
      · rw [List.mem_singleton.mp he']
        exact ⟨trivial, trivial, rfl, rfl⟩
    · rw [List.append_assoc, List.singleton_append]
      by_cases hOld : n < i * cfg.lOut
      · exact hWords n hOld
      · -- a word of the batch just accepted
        obtain ⟨j, rfl⟩ := Nat.exists_eq_add_of_le (not_lt.mp hOld)
        have hj : j < cfg.lOut := by
          rw [Nat.succ_mul] at hn
          omega
        have hID : inputID cfg.lOut (i * cfg.lOut + j) = ⟨i + 1, j⟩ := by
          rw [inputID, Nat.mul_comm i, Nat.mul_add_div hOut, Nat.div_eq_of_lt hj, Nat.mul_add_mod,
            Nat.mod_eq_of_lt hj]
        refine ledger_append ((ledger_cons init e h).mpr (Or.inl (List.mem_cons_of_mem _ ?_)))
        rw [hID]
        exact List.mem_map_of_mem
          (f := fun j => C.word execID ⟨i + 1, j⟩ (inps.getD (i * cfg.lOut + j) 0))
          (List.mem_range.mpr hj)

/-- Cells that are not written keep their words. -/
theorem storeWords_other {ms : List Nat} {ws : List Word} {mem : Store Nat} {m : Nat} (h : m ∉ ms) :
    storeWords (ms.zip ws) mem m = mem m := by
  induction ms generalizing ws mem with
  | nil => rfl
  | cons m₀ ms ih =>
    obtain ⟨hNe, hRest⟩ := List.ne_and_not_mem_of_not_mem_cons h
    cases ws with
    | nil => rfl
    | cons w ws =>
      rw [List.zip_cons_cons, storeWords, ih hRest]
      exact Function.update_of_ne hNe _ _

/-- A cell that is written gets one of the words. -/
theorem storeWords_mem {ms : List Nat} {ws : List Word} {mem : Store Nat}
    (hLen : ms.length ≤ ws.length) {m : Nat} (h : m ∈ ms) : storeWords (ms.zip ws) mem m ∈ ws := by
  induction ms generalizing ws mem with
  | nil => cases h
  | cons m₀ ms ih =>
    obtain ⟨w, ws, rfl⟩ := List.exists_cons_of_length_pos (Nat.lt_of_lt_of_le (by simp) hLen)
    rw [List.zip_cons_cons, storeWords]
    by_cases hLater : m ∈ ms
    · exact List.mem_cons_of_mem _ (ih (Nat.le_of_succ_le_succ hLen) hLater)
    · obtain rfl : m = m₀ := (List.mem_cons.mp h).resolve_right hLater
      rw [storeWords_other hLater, Function.update_self]
      exact List.mem_cons_self

/-- Binding cells to IDs and storing words in them. -/
theorem bindIDs_words {P : Nat → ID → Word → Prop} (id : Nat → ID) {ms : List Nat} {ws : List Word}
    (idx : Nat) (ids : IdDict) (sem : Store Nat) (hLen : ms.length ≤ ws.length)
    (hNew : ∀ j m w, ms[j]? = some m → ws[j]? = some w → P m (id (idx + j)) w)
    (hOld : ∀ m, m ∉ ms → ∀ i, ids.lookup m = some i → P m i (sem m)) :
    ∀ m i, (bindIDs id idx ms ids).lookup m = some i → P m i (storeWords (ms.zip ws) sem m) := by
  have hCount : ∀ m ∈ ms, m < ms.sum + 1 := fun m hm => Nat.lt_succ_of_le (List.le_sum_of_mem hm)
  have hZeros : ms.length ≤ (List.replicate ms.length ([] : List UInt8)).length := by simp
  obtain ⟨_, -, hAll⟩ := bindIDs_store (R := fun m i _ w => P m i w) id idx ids
    (fun _ => []) sem hZeros hLen hCount (fun j m _ w hm _ hw => hNew j m w hm hw) hOld
  exact hAll

section Eval

variable {ir : LLIRProgram} {sharedKey : List UInt8} {i : Nat} {ids : IdDict} {llmi : LLMI}
  {code : LLMICode} {done : List Nat} {mem : Memory} {sem : Store Nat}

theorem mem_zip_words {ms : List Nat} {inputIDs : List ID}
    (h : List.Forall₂ (fun m id => ids.lookup m = some id) ms inputIDs) {x : ID × Word}
    (hx : x ∈ inputIDs.zip (ms.map sem)) : ∃ m ∈ ms, ids.lookup m = some x.1 ∧ x.2 = sem m := by
  induction h with
  | nil => simp at hx
  | @cons m id ms inputIDs hm _ ih =>
    rw [List.map_cons, List.zip_cons_cons, List.mem_cons] at hx
    rcases hx with rfl | hx
    · exact ⟨m, List.mem_cons_self, hm, rfl⟩
    · obtain ⟨m', hm', hRest⟩ := ih hx
      exact ⟨m', List.mem_cons_of_mem _ hm', hRest⟩

/-- The fields of a record fit the struct. -/
theorem LLMICode.Written.typed {encrypt : List UInt8 → List UInt8 → List UInt8 → List UInt8}
    {w : Widths} (hw : w.Readable) (h : code.Written encrypt cfg ir w i ids llmi) :
    code.parsed.aells.Typed where
  revealFlag_lt := h.flag_byte.2
  outCount_lt := by
    show code.outputs.length < _
    rw [h.outputs_eq]
    exact h.outputCount_lt.trans_le (Nat.pow_le_pow_right (by decide) hw.lbM_le)
  instrID_lt := h.instrID_lt
  inputIDs_lt := fun id hId => ⟨(h.inputIDs_lt id hId).1,
    (h.inputIDs_lt id hId).2.trans_le (Nat.pow_le_pow_right (by decide) hw.lbO_le)⟩

/-- The words of the cells that are not revealed are in the ledger. -/
def Sealed (C : Crypto D) (ir : LLIRProgram) (execID : D) (done : List Nat) (ids : IdDict)
    (sem : Store Nat) (log : List (Box D)) : Prop :=
  ∀ m id, ids.lookup m = some id → ¬(m ∈ done ∧ m ∈ ir.outputs) → C.word execID id (sem m) ∈ log

/-- The words of the outputs that are computed were returned in clear. -/
def Shown (ir : LLIRProgram) (done : List Nat) (sem : Store Nat) (h : List (Event D)) : Prop :=
  ∀ m ∈ ir.outputs, m ∈ done → ∃ call outs, Event.eval call outs ∈ h ∧ OutWord.clear (sem m) ∈ outs

/-- The call for one multi-instruction is answered by the ideal AEAD. It seals the words of its
outputs if they are no outputs of the program and returns them in clear if they are. -/
theorem evalCall_happens (hC : C.Correct dec) (hCfg : cfg.Buildable) (hRunnable : ir.Runnable cfg)
    (hw : (fileWidths cfg ir).Readable) (hShared : sharedKey.length = 16) {junk : Junk}
    (hMem : llmi ∈ ir.instrs)
    (hCode : code.Written (C.encryptShared sharedKey) cfg ir (fileWidths cfg ir) i ids llmi)
    (hSim : Simulates C ir execID done ids mem sem)
    (hHidden : ∀ m ∈ llmi.inputs, m ∈ ir.outputs → m ∉ done) {sem' : Store Nat}
    (hEval : llmi.eval cfg junk.reg sem = some sem')
    (hKey : ⟨C.seckey, C.keyNonce execID, [], sharedKey⟩ ∈ ledger init h)
    (hSeq : code.box sharedKey ∈ ledger init h)
    (hSealed : Sealed C ir execID done ids sem (ledger init h)) :
    ∃ outs, seEval C dec cfg junk execID (C.ct ⟨C.seckey, C.keyNonce execID, [], sharedKey⟩)
        code.parsed.aells (llmi.inputs.map mem) cfg.r (bytelen ir.memoryCount) (bytelen cfg.r)
        (cfg.wordSize / 8) (bytelen cfg.lOut) = some outs ∧
      (Event.eval (evalArgs cfg junk execID (C.ct ⟨C.seckey, C.keyNonce execID, [], sharedKey⟩)
        ir.memoryCount code.parsed (llmi.inputs.map mem)) outs).Happens C cfg
          (idealDec C (ledger init h)) ∧
      (∀ m ∈ llmi.outputs, m ∈ ir.outputs → OutWord.clear (sem' m) ∈ outs) ∧
      Sealed C ir execID (done ++ llmi.outputs)
        (bindIDs (fun j => ⟨code.instrID, j⟩) 0 llmi.outputs ids) sem'
        (ledger init (.eval (evalArgs cfg junk execID
          (C.ct ⟨C.seckey, C.keyNonce execID, [], sharedKey⟩) ir.memoryCount code.parsed
          (llmi.inputs.map mem)) outs :: h)) := by
  obtain ⟨reg, hRan, rfl⟩ := Option.map_eq_some_iff.mp hEval
  have hCall := seEval_parsed hC hCfg hw hShared hCode (hRunnable.inputs_le llmi hMem)
    (hRunnable.outputs_le llmi hMem) (hRunnable.seq_le llmi hMem) hSim hHidden hRan
  have hSlots := hSim.slots hCode.inputIDs_eq hHidden
  -- every word it opens was sealed by an earlier call
  have hWords : ∀ x ∈ code.inputIDs.zip (llmi.inputs.map sem),
      C.word execID x.1 x.2 ∈ ledger init h := by
    intro x hx
    obtain ⟨m, hm, hLookup, hEq⟩ := mem_zip_words (forall₂_of_mapM_eq_some hCode.inputIDs_eq) hx
    rw [hEq]
    exact hSealed m x.1 hLookup fun hBoth => hHidden m hm hBoth.2 hBoth.1
  refine ⟨_, hCall, ⟨hCode.typed hw, ?_⟩, fun m hm hOut => ?_, ?_⟩
  · show seEval C (idealDec C (ledger init h)) cfg junk execID _ code.parsed.aells
      (llmi.inputs.map mem) _ _ _ _ _ = _
    -- so the ideal decryption answers as the real one does
    rw [hSlots] at hCall ⊢
    exact seEval_ideal hC hw hCode hKey hSeq hWords hCall
  · have hStored : storeWords (llmi.outputs.zip ((List.range llmi.outputs.length).map fun j =>
        reg (cfg.r - cfg.lOut + j))) sem m ∈ _ := storeWords_mem (by simp) hm
    obtain ⟨j, hj, hWord⟩ := List.mem_map.mp hStored
    refine List.mem_map.mpr ⟨j, hj, ?_⟩
    rw [outWord, if_pos ((revealFlag_ne_zero hRunnable hMem hCode hm).mpr hOut), ← hWord]
  · refine bindIDs_words (P := fun m id w => ¬(m ∈ done ++ llmi.outputs ∧ m ∈ ir.outputs) →
      C.word execID id w ∈ ledger init _) _ 0 ids sem (by simp) (fun j m w hm hWord hNot => ?_)
      fun m hm id hId hNot => ?_
    -- a word it seals now
    · obtain ⟨hj, -⟩ := List.getElem?_eq_some_iff.mp hm
      have hm' := List.mem_of_getElem? hm
      have hHide : ¬ code.revealFlag ≠ 0 := fun hReveal =>
        hNot ⟨List.mem_append_right _ hm', (revealFlag_ne_zero hRunnable hMem hCode hm').mp hReveal⟩
      obtain rfl : reg (cfg.r - cfg.lOut + j) = w := by
        simpa [List.getElem?_map, List.getElem?_range hj] using hWord
      refine (ledger_cons _ _ _).mpr (Or.inl (List.mem_filterMap.mpr
        ⟨outWord C cfg execID code reg j, List.mem_map_of_mem (List.mem_range.mpr hj), ?_⟩))
      rw [outWord, if_neg hHide, Nat.zero_add]
      rfl
    · refine (ledger_cons _ _ _).mpr (Or.inr (hSealed m id hId fun hBoth => hNot ?_))
      exact ⟨List.mem_append_left _ hBoth.1, hBoth.2⟩

omit [DecidableEq D] in
/-- After a call the outputs it computed are shown as well. -/
theorem Shown.step {sem' : Store Nat} {llmi : LLMI} {e : Event D} (hShown : Shown ir done sem h)
    {call : EvalCall D} {outs : List (OutWord D)} (he : e = .eval call outs)
    (hOther : ∀ m ∉ llmi.outputs, sem' m = sem m)
    (hOuts : ∀ m ∈ llmi.outputs, m ∈ ir.outputs → OutWord.clear (sem' m) ∈ outs) :
    Shown ir (done ++ llmi.outputs) sem' (e :: h) := by
  intro m hm hDone
  by_cases hNew : m ∈ llmi.outputs
  · exact ⟨call, outs, by rw [he]; exact List.mem_cons_self, hOuts m hNew hm⟩
  · obtain ⟨call', outs', hMem, hClear⟩ :=
      hShown m hm ((List.mem_append.mp hDone).resolve_right hNew)
    exact ⟨call', outs', List.mem_cons_of_mem _ hMem, by rwa [hOther m hNew]⟩

/-- The evaluation phase: every call is a step of the run, and every output gets shown. -/
theorem evalCalls_run (ctSk : List UInt8) (inps : List Word) (hC : C.Correct dec)
    (hCfg : cfg.Buildable) (hRunnable : ir.Runnable cfg) (hw : (fileWidths cfg ir).Readable)
    (hShared : sharedKey.length = 16) {junk : Nat → Junk} (pre : List LLMI) {rest : List LLMI}
    (hSplit : ir.instrs = pre ++ rest) {codes : List LLMICode}
    (hCodes : serializeLLMIs (C.encryptShared sharedKey) cfg ir (fileWidths cfg ir) i ids rest =
      some codes)
    (hSim : Simulates C ir execID (written pre) ids mem sem) {sem' : Store Nat}
    (hEval : evalLLMIs cfg (fun k => (junk k).reg) i rest sem = some sem') (hRun : Run C cfg init h)
    (hKey : ⟨C.seckey, C.keyNonce execID, [], sharedKey⟩ ∈ ledger init h)
    (hSeqs : ∀ code ∈ codes, code.box sharedKey ∈ ledger init h)
    (hSealed : Sealed C ir execID (written pre) ids sem (ledger init h))
    (hShown : Shown ir (written pre) sem h) :
    ∃ new, evalCalls C dec cfg junk execID (C.ct ⟨C.seckey, C.keyNonce execID, [], sharedKey⟩)
        ir.memoryCount i (codes.map LLMICode.parsed) mem h = some (new ++ h) ∧
      Run C cfg init (new ++ h) ∧ (∀ e ∈ new, e.Honest ctSk cfg ir execID inps) ∧
      Shown ir (written ir.instrs) sem' (new ++ h) := by
  -- on the LLMIs still to be evaluated, with the history so far in `h`
  induction rest generalizing pre ids codes i mem sem h with
  | nil =>
    obtain rfl : [] = codes := by simpa [serializeLLMIs] using hCodes
    obtain rfl : sem = sem' := Option.some.inj hEval
    exact ⟨[], rfl, hRun, by simp, by rwa [hSplit, List.append_nil]⟩
  | cons llmi rest ih =>
    obtain ⟨code, codes', rfl, hCode, hRest⟩ := serializeLLMIs_cons_eq_some hCodes
    obtain ⟨mid, hHead, hTail⟩ := Option.bind_eq_some_iff.mp hEval
    obtain ⟨hSeq, hSeqs⟩ := List.forall_mem_cons.mp hSeqs
    have hMem : llmi ∈ ir.instrs := by simp [hSplit]
    -- a cell that is shown in clear is never an operand
    have hHidden : ∀ m ∈ llmi.inputs, m ∈ ir.outputs → m ∉ written pre := by
      intro m hm hOut hPre
      obtain ⟨before, hBefore, hm'⟩ := List.mem_flatMap.mp hPre
      exact hRunnable.reveal_unread pre llmi rest hSplit m hm hOut before hBefore hm'
    have hWritten : written pre ++ llmi.outputs = written (pre ++ [llmi]) := by simp [written]
    obtain ⟨mem₁, hStep, hSim₁⟩ := evalLLMI_simulates hC hCfg hRunnable hw hShared hMem hCode hSim
      hHidden hHead
    obtain ⟨outs, hCall, hHappens, hOuts, hSealed₁⟩ := evalCall_happens hC hCfg hRunnable hw hShared
      hMem hCode hSim hHidden hHead hKey hSeq hSealed
    -- an LLMI writes its own outputs only
    have hOther : ∀ m ∉ llmi.outputs, mid m = sem m := fun m hm => by
      obtain ⟨reg, -, rfl⟩ := Option.map_eq_some_iff.mp hHead
      exact storeWords_other hm
    set e : Event D := .eval (evalArgs cfg (junk i) execID
      (C.ct ⟨C.seckey, C.keyNonce execID, [], sharedKey⟩) ir.memoryCount code.parsed
      (llmi.inputs.map mem)) outs with he
    have hShown₁ := hShown.step he hOther hOuts
    rw [hWritten] at hSim₁ hSealed₁ hShown₁
    -- what the element has sealed stays sealed
    have hOld : ∀ {b}, b ∈ ledger init h → b ∈ ledger init (e :: h) := fun hb =>
      (ledger_cons init e h).mpr (Or.inr hb)
    obtain ⟨new, hCalls, hRunNew, hNew, hAll⟩ := ih (pre ++ [llmi]) (by simp [hSplit]) hRest hSim₁
      hTail (.step hRun hHappens) (hOld hKey) (fun code hc => hOld (hSeqs code hc)) hSealed₁ hShown₁
    obtain ⟨inputsBstr, -, -, hInputs, -⟩ := hCode.layout
    -- the slots it reads are within memory
    have hLoad : code.parsed.memInps.mapM (mem.load ir.memoryCount) =
        some (llmi.inputs.map mem) := by
      rw [show code.parsed.memInps = llmi.inputs from hCode.inputs_eq]
      refine mapM_eq_some_map fun m hm => ?_
      rw [Memory.load, if_pos (lt_of_serializeAll_memdict hInputs m hm)]
    refine ⟨new ++ [e], ?_, by simpa using hRunNew, fun e' he' => ?_, by simpa using hAll⟩
    · rw [List.append_assoc, List.singleton_append, ← hCalls, List.map_cons, evalCalls, hLoad]
      simp only [Option.bind_eq_bind, Option.bind_some, evalArgs, hCall, hStep, he]
    · rcases List.mem_append.mp he' with he' | he'
      · exact hNew e' he'
      · rw [List.mem_singleton.mp he']
        exact ⟨trivial, ⟨rfl, rfl, rfl, rfl, rfl⟩, rfl⟩

end Eval

section Program

variable {ir : LLIRProgram} {ctSk sharedKey : List UInt8} {bc : Bytecode}

omit [DecidableEq D] in
/-- The number of batches of a start is the one its token is for. -/
theorem batchCount_of_start {header : List UInt8} {lbM i n : Nat} {hash : D} {key : Box D}
    (hi : i < 2 ^ 32) (hStart : seStart C cfg header lbM hash = some
      ⟨key, execID, C.token execID i hash⟩)
    (hn : headerCount header lbM = some n) : batchCount cfg.lOut n = i := by
  obtain ⟨_, n', _, -, -, hCount, -, -, hToken, -⟩ := seStart_eq_some.mp hStart
  have hSame : n' = n := by
    rw [headerCount, hCount] at hn
    exact Option.some.inj hn
  have hAd := congrArg Box.ad hToken
  exact hSame ▸ (token_inj hi (batchCount_lt cfg.lOut n') hAd).2.1.symm

/-- The batches of a program stay below the IDs of its multi-instructions. -/
theorem batchCount_le (lOut n : Nat) (hOut : 0 < lOut) : batchCount lOut n ≤ n / lOut + 1 := by
  rw [batchCount, ← Nat.add_div_right n hOut]
  exact Nat.div_le_div_right (le_trans (Nat.mod_le _ _) (by omega))

/-- **The interpreter is a host of the element.** On the bytes the serializer wrote, for inputs on
which the program has a value, the calls of the interpreter are a run of the element against the
ideal AEAD; the start carries the key of the file and its number of batches, and the evaluations
use the sizes of the element. At the end every output was returned in clear by one of them. -/
theorem interpretCalls_run (hC : C.Correct dec) (hCfg : cfg.Buildable) (hRunnable : ir.Runnable cfg)
    (hKey : ctSk.length = 64) (hOpen : C.sealOpen ctSk = some sharedKey)
    (hShared : sharedKey.length = 16)
    (hSer : serialize (C.encryptShared sharedKey) ctSk cfg ir = some bc) (junk : HostJunk)
    (hInputs : inps.length = ir.inputs.length) {outputs : List Word}
    (hEval : ir.eval cfg (fun k => (junk.call k).reg) inps = some outputs) :
    ∃ h execID, interpretCalls C dec cfg junk bc.bytes inps = some h ∧
      Run C cfg (compilerBoxes sharedKey bc) h ∧ (∀ e ∈ h, e.Honest ctSk cfg ir execID inps) ∧
      ∀ w ∈ outputs, ∃ call outs, Event.eval call outs ∈ h ∧ OutWord.clear w ∈ outs := by
  have hFile := serialize_written hSer
  have hOut := hCfg.lOut_ge
  have hw := hFile.readable hRunnable.memoryCount_ge hOut
  obtain ⟨tail, hParse⟩ := interpretFile_serialize hRunnable.memoryCount_ge hOut hKey hFile
  obtain ⟨-, inBytes, -, -, hIn, -⟩ := hFile.layout
  obtain ⟨sem', hSem, rfl⟩ := Option.map_eq_some_iff.mp hEval
  have hBatches := batchCount_covers hCfg hRunnable.inputCount_lt
  set L := batchCount cfg.lOut ir.inputs.length with hL
  have hLLt : L < 2 ^ 32 := batchCount_lt cfg.lOut ir.inputs.length
  obtain ⟨execID, hStart⟩ :=
    seStart_header cfg tail (chainAt C cfg.lOut inps L) hC hKey hOpen hShared
    hw.lbM_pos hw.lbM_le hFile.inputCount_lt
  rw [← hL] at hStart
  set header := ctSk ++ toBE (fileWidths cfg ir).lbM ir.inputs.length ++ tail with hHeader
  set hash := chainAt C cfg.lOut inps L with hHash
  set reply : StartReply D := ⟨⟨C.seckey, C.keyNonce execID, [], sharedKey⟩, execID,
    C.token execID L hash⟩ with hReply
  set start : Event D := .start header (bytelen ir.memoryCount) hash reply with hEvent
  have hHonest : start.Honest ctSk cfg ir execID inps := by
    refine ⟨?_, fun n hn => ?_, rfl⟩
    · show header.take 64 = ctSk
      rw [hHeader, List.append_assoc, ← hKey, List.take_left]
    · rw [batchCount_of_start hLLt hStart hn]
      exact batchCount_le cfg.lOut ir.inputs.length (by omega)
  have hRun₀ : Run C cfg (compilerBoxes sharedKey bc) [start] := .step .nil hStart
  have hOwn : ∀ b ∈ start.boxes, b ∈ ledger (compilerBoxes sharedKey bc) [start] := fun b hb =>
    (ledger_cons _ start []).mpr (Or.inl hb)
  -- the input phase
  obtain ⟨new, hCalls, hRun₁, hNew, hWords⟩ :=
    inputCalls_run ctSk ir hC (show 0 < cfg.lOut by omega) hLLt
    hRun₀ (hOwn reply.cin (by simp [hEvent, Event.boxes]))
  have hInputAll := inputAll_eq execID inps hC (show 0 < cfg.lOut by omega) hLLt
  obtain ⟨mem, hStore, hSim⟩ := store_inputs C cfg execID junk.mem hInputs hBatches
    (lt_of_serializeAll_memdict hIn)
  have hSealed : Sealed C ir execID (written []) (bindIDs (inputID cfg.lOut) 0 ir.inputs [])
      (storeWords (ir.inputs.zip inps) fun _ => 0)
      (ledger (compilerBoxes sharedKey bc) (new ++ [start])) := by
    refine bindIDs_words (P := fun m id w => ¬(m ∈ written [] ∧ m ∈ ir.outputs) →
      C.word execID id w ∈ ledger _ _) _ 0 [] _ hInputs.ge
        (fun j m w hm hw _ => ?_) fun m _ i hi => by cases hi
    have hj : j < ir.inputs.length := (List.getElem?_eq_some_iff.mp hm).1
    have hWord := hWords j (lt_of_lt_of_le hj hBatches)
    rwa [List.getD, hw, ← Nat.zero_add j] at hWord
  -- the evaluation phase
  obtain ⟨new', hCalls', hRun₂, hNew', hShown⟩ :=
    evalCalls_run ctSk inps hC hCfg hRunnable hw hShared
    [] rfl hFile.llmis_eq hSim hSem hRun₁
    (ledger_append (hOwn reply.esharedkey (by simp [hEvent, Event.boxes])))
    (fun code hCode => List.mem_append_left _ (List.mem_map_of_mem hCode)) hSealed
    fun m _ hDone => by cases hDone
  refine ⟨new' ++ (new ++ [start]), execID, ?_, hRun₂, fun e he => ?_, fun w hw => ?_⟩
  · have hStart' : seStart C cfg header (bytelen ir.memoryCount) hash = some reply := hStart
    have hParse' : interpretFile cfg bc.bytes = some (ir.memoryCount, header,
        ⟨ir.inputs, ir.outputs, bc.llmis.map LLMICode.parsed⟩) := hParse
    simp only [interpretCalls, hParse', Option.bind_eq_bind, Option.bind_some, ← hL, ← hHash,
      hStart']
    show (inputCalls C dec cfg execID inps L (C.ct (C.token execID L hash)) [start]).bind _ = _
    rw [hCalls, Option.bind_some]
    show (inputAll C dec cfg execID inps L (C.ct (C.token execID L hash))).bind _ = _
    rw [hInputAll, Option.bind_some, hStore]
    exact hCalls'
  · rcases List.mem_append.mp he with he | he
    · exact hNew' e he
    · rcases List.mem_append.mp he with he | he
      · exact hNew e he
      · rw [List.mem_singleton.mp he]
        exact hHonest
  · obtain ⟨m, hm, rfl⟩ := List.mem_map.mp hw
    obtain ⟨llmi, hLlmi, hm'⟩ := hRunnable.outputs_produced m hm
    exact hShown m hm (List.mem_flatMap.mpr ⟨llmi, hLlmi, hm'⟩)

end Program

end Run

end Obscure
