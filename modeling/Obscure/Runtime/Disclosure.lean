import Obscure.Runtime.HonestHost
import Obscure.Lowering.Program
import Obscure.Lowering.Reveal

/-!
# OBSCURE — a host learns results only

What the element returns in clear, over all calls of a run and whatever the host
does. A word of an execution is determined by its ID; here it is tied to the
program: there are inputs, those of the batches the host committed to, on which
the program computes every word that the element ever seals or reveals. A host
that calls multi-instructions out of order, twice or on words of its choice does
not get anything that the program does not return.

* `Compiled.outs_denoted` — what an evaluation returns are words of the program;
* `Run.reveals_results`   — what is in clear are its outputs.
-/

namespace Obscure

open Lib

-- ---------------------------------------------------------------------------
-- The words of a program
-- ---------------------------------------------------------------------------

section Words

variable {cfg : SEConfig} {init : Nat → Regs} {ir : LLIRProgram} {inputs : List Word}

theorem evalLLMIs_append (k : Nat) (a b : List LLMI) (mem : Store Nat) :
    evalLLMIs cfg init k (a ++ b) mem =
      (evalLLMIs cfg init k a mem).bind (evalLLMIs cfg init (k + a.length) b) := by
  induction a generalizing k mem with
  | nil => rfl
  | cons llmi a ih =>
    rw [List.cons_append, evalLLMIs, evalLLMIs, Option.bind_assoc]
    refine Option.bind_congr fun mem' _ => ?_
    rw [ih, List.length_cons, show k + 1 + a.length = k + (a.length + 1) by omega]

/-- The memory before the multi-instruction at position `k`. -/
def memoryAt (cfg : SEConfig) (init : Nat → Regs) (ir : LLIRProgram) (inputs : List Word)
    (k : Nat) :
    Option (Store Nat) :=
  evalLLMIs cfg init 0 (ir.instrs.take k) (storeWords (ir.inputs.zip inputs) fun _ => 0)

theorem memoryAt_succ {k : Nat} {llmi : LLMI} (h : ir.instrs[k]? = some llmi) :
    memoryAt cfg init ir inputs (k + 1) =
      (memoryAt cfg init ir inputs k).bind fun mem => llmi.eval cfg (init k) mem := by
  obtain ⟨hk, hEq⟩ := List.getElem?_eq_some_iff.mp h
  rw [memoryAt, List.take_succ_eq_append_getElem hk, evalLLMIs_append, memoryAt]
  refine Option.bind_congr fun mem _ => ?_
  rw [List.length_take, Nat.min_eq_left hk.le, Nat.zero_add, hEq, evalLLMIs]
  exact Option.bind_fun_some _

/-- A run that gets far gets everywhere before. -/
theorem memoryAt_of_le {k k' : Nat} (hLe : k ≤ k') {mem' : Store Nat}
    (h : memoryAt cfg init ir inputs k' = some mem') :
    ∃ mem, memoryAt cfg init ir inputs k = some mem := by
  have hSplit : ir.instrs.take k' = ir.instrs.take k ++ (ir.instrs.take k').drop k := by
    conv_lhs => rw [← List.take_append_drop k (ir.instrs.take k'), List.take_take,
      Nat.min_eq_left hLe]
  rw [memoryAt, hSplit, evalLLMIs_append] at h
  obtain ⟨mem, hMem, -⟩ := Option.bind_eq_some_iff.mp h
  exact ⟨mem, hMem⟩

/-- The word of an ID when the program runs on `inputs`: an input, or what a
multi-instruction leaves in an output register. -/
inductive Denotes (cfg : SEConfig) (init : Nat → Regs) (ir : LLIRProgram) (inputs : List Word) :
    ID → Word → Prop where
  | input {n : Nat} {w : Word} (lt : n < ir.inputs.length) (word : inputs[n]? = some w) :
      Denotes cfg init ir inputs (inputID cfg.lOut n) w
  | output {k : Nat} {llmi : LLMI} {mem : Store Nat} {reg : Regs} {j : Nat}
      (position : ir.instrs[k]? = some llmi) (before : memoryAt cfg init ir inputs k = some mem)
      (ran : run llmi.seq (loadRegs (init k) (llmi.inputs.map mem)) = some reg)
      (lt : j < llmi.outputs.length) :
      Denotes cfg init ir inputs ⟨ir.instrID cfg.lOut k, j⟩ (reg (cfg.r - cfg.lOut + j))

/-- Words that are found under IDs are what the cells with these IDs hold. -/
theorem words_eq_map {P Q : ID → Word → Prop} {ms : List Nat} {ids : List ID} {ws : List Word}
    {mem : Store Nat} (hLen : ws.length = ms.length)
    (hIDs : List.Forall₂ (fun m id => Q id (mem m)) ms ids)
    (hWords : ∀ (j : Nat) (id : ID), ids[j]? = some id → ∃ w, ws[j]? = some w ∧ P id w)
    (hValue : ∀ id ∈ ids, ∀ u u', P id u → Q id u' → u = u') : ws = ms.map mem := by
  refine List.ext_getElem (by rw [hLen, List.length_map]) fun i hi _ => ?_
  have hiMs : i < ms.length := by rwa [hLen] at hi
  have hiIDs : i < ids.length := hIDs.length_eq ▸ hiMs
  obtain ⟨u, hu, hFound⟩ := hWords i _ (List.getElem?_eq_getElem hiIDs)
  rw [List.getElem?_eq_getElem hi, Option.some.injEq] at hu
  rw [hu, List.getElem_map]
  exact hValue _ (List.getElem_mem hiIDs) u _ hFound (hIDs.get hiMs hiIDs)

/-- Multi-instructions that do not write a cell leave it as it is. -/
theorem evalLLMIs_other {k : Nat} {llmis : List LLMI} {mem mem' : Store Nat} {m : Nat}
    (hNot : m ∉ llmis.flatMap LLMI.outputs) (h : evalLLMIs cfg init k llmis mem = some mem') :
    mem' m = mem m := by
  induction llmis generalizing k mem with
  | nil =>
    cases h
    rfl
  | cons llmi rest ih =>
    rw [List.flatMap_cons, List.mem_append, not_or] at hNot
    obtain ⟨mem₁, hStep, hRest⟩ := Option.bind_eq_some_iff.mp h
    obtain ⟨reg, -, rfl⟩ := Option.map_eq_some_iff.mp hStep
    rw [ih hNot.2 hRest, storeWords_other hNot.1]

/-- A cell that is written once keeps its word to the end. -/
theorem memoryAt_kept {k : Nat} {llmi : LLMI} (hAt : ir.instrs[k]? = some llmi)
    (hOnce : (ir.instrs.flatMap LLMI.outputs).Nodup) {mem mem' : Store Nat}
    (hMem : memoryAt cfg init ir inputs (k + 1) = some mem)
    (hEnd : evalLLMIs cfg init 0 ir.instrs (storeWords (ir.inputs.zip inputs) fun _ => 0) =
      some mem')
    {m : Nat} (hm : m ∈ llmi.outputs) : mem' m = mem m := by
  obtain ⟨hk, rfl⟩ := List.getElem?_eq_some_iff.mp hAt
  rw [← List.take_append_drop (k + 1) ir.instrs, evalLLMIs_append] at hEnd
  obtain ⟨mem₁, hFirst, hRest⟩ := Option.bind_eq_some_iff.mp hEnd
  obtain rfl : mem = mem₁ := Option.some.inj (hMem.symm.trans hFirst)
  refine evalLLMIs_other (fun hLater => ?_) hRest
  rw [← List.take_append_drop (k + 1) ir.instrs, List.flatMap_append, List.nodup_append'] at hOnce
  refine hOnce.2.2 (List.mem_flatMap.mpr ⟨ir.instrs[k], ?_, hm⟩) hLater
  rw [List.take_succ_eq_append_getElem hk]
  exact List.mem_append_right _ List.mem_cons_self

/-- What a multi-instruction stores in an output cell. -/
theorem storeWords_outputs {outputs : List Nat} {f : Nat → Word} (mem : Store Nat)
    (hNodup : outputs.Nodup) {j m : Nat} (hj : outputs[j]? = some m) :
    storeWords (outputs.zip ((List.range outputs.length).map f)) mem m = f j := by
  obtain ⟨hLt, rfl⟩ := List.getElem?_eq_some_iff.mp hj
  have hWords : (List.range outputs.length).map f = outputs.map fun m => f (outputs.idxOf m) :=
    List.ext_getElem (by simp) fun i hi _ => by
      have hi' : i < outputs.length := by simpa using hi
      simp [hNodup.idxOf_getElem i hi']
  rw [hWords, storeWords_map _ mem hNodup]
  exact (if_pos (List.getElem_mem hLt)).trans (congrArg f (hNodup.idxOf_getElem j hLt))

/-- The words an inputs' IDs denote are what the cells hold. -/
theorem serializeLLMIs_denotes {encrypt : List UInt8 → List UInt8 → List UInt8 → List UInt8}
    {w : Widths} {llmis : List LLMI} {i : Nat} {ids : IdDict} {codes : List LLMICode}
    {mem : Store Nat} (hSub : ∀ j, llmis[j]? = ir.instrs[i + j]?)
    (hMem : memoryAt cfg init ir inputs i = some mem)
    (hIds : ∀ m id, ids.lookup m = some id → Denotes cfg init ir inputs id (mem m))
    (h : serializeLLMIs encrypt cfg ir w i ids llmis = some codes) {k : Nat} {code : LLMICode}
    (hCode : codes[k]? = some code) {mem' : Store Nat}
    (hMem' : memoryAt cfg init ir inputs (i + k) = some mem') :
    ∃ llmi, ir.instrs[i + k]? = some llmi ∧
      List.Forall₂ (fun m id => Denotes cfg init ir inputs id (mem' m)) llmi.inputs
        code.inputIDs := by
  induction llmis generalizing i ids codes mem k with
  | nil =>
    obtain rfl : [] = codes := by simpa [serializeLLMIs] using h
    simp at hCode
  | cons llmi rest ih =>
    obtain ⟨code₀, codes', rfl, hWritten, hRest⟩ := serializeLLMIs_cons_eq_some h
    have hAt : ir.instrs[i]? = some llmi := (hSub 0).symm
    cases k with
    | zero =>
      obtain rfl : code₀ = code := by simpa using hCode
      obtain rfl : mem = mem' := Option.some.inj (hMem.symm.trans hMem')
      exact ⟨llmi, hAt, (forall₂_of_mapM_eq_some hWritten.inputIDs_eq).imp fun m id hm =>
        hIds m id hm⟩
    | succ k =>
      rw [show i + (k + 1) = i + 1 + k by omega] at hMem' ⊢
      obtain ⟨mem₁, hMem₁⟩ := memoryAt_of_le (show i + 1 ≤ i + 1 + k by omega) hMem'
      have hEval := (memoryAt_succ hAt).symm.trans hMem₁
      rw [hMem, Option.bind_some] at hEval
      obtain ⟨reg, hRun, rfl⟩ := Option.map_eq_some_iff.mp hEval
      refine ih (fun j => ?_) hMem₁ ?_ hRest (by simpa using hCode) hMem'
      · rw [show i + 1 + j = i + (j + 1) by omega, ← hSub]
        rfl
      · refine bindIDs_words (P := fun _ => Denotes cfg init ir inputs) _ 0 ids mem (by simp)
          (fun j _ v hm hv => ?_) fun m _ => hIds m
        have hj : j < llmi.outputs.length := (List.getElem?_eq_some_iff.mp hm).1
        obtain rfl : reg (cfg.r - cfg.lOut + j) = v := by
          simpa [List.getElem?_map, List.getElem?_range hj] using hv
        rw [Nat.zero_add, hWritten.instrID_eq]
        exact .output hAt hMem hRun hj

end Words

-- ---------------------------------------------------------------------------
-- The words of a run
-- ---------------------------------------------------------------------------

section Runs

variable {D : Type} [DecidableEq D] {C : Crypto D} {cfg : SEConfig} {ir : LLIRProgram}
  {ctSk sharedKey : List UInt8} {bc : Bytecode} {h : List (Event D)} {inputs : List Word}

/-- The inputs are those of every batch accepted for the execution; a batch may
reach past the last input. -/
def CommittedTo (cfg : SEConfig) (h : List (Event D)) (e : D) (inputs : List Word) : Prop :=
  ∀ i Hp X cinc reply, Event.input e i Hp X cinc reply ∈ h → ∀ j w, X[j]? = some w →
    (i - 1) * cfg.lOut + j < inputs.length → inputs[(i - 1) * cfg.lOut + j]? = some w

/-- The batches accepted for one execution are parts of one list of inputs. -/
theorem exists_committedTo (hHash : Function.Injective C.hash) (hOut : 0 < cfg.lOut)
    (hRun : Run C cfg (compilerBoxes sharedKey bc) h) (e : D) (n : Nat) :
    ∃ inputs : List Word, inputs.length = n ∧ CommittedTo cfg h e inputs := by
  classical
  -- the word some accepted batch has for a position, if there is one
  have hWord : ∀ k, ∃ w : Word, ∀ Hp X cinc reply v,
      Event.input e (k / cfg.lOut + 1) Hp X cinc reply ∈ h → X[k % cfg.lOut]? = some v → w = v := by
    intro k
    by_cases hSome : ∃ w Hp X cinc reply,
        Event.input e (k / cfg.lOut + 1) Hp X cinc reply ∈ h ∧ X[k % cfg.lOut]? = some w
    · obtain ⟨w, Hp, X, cinc, reply, hMem, hw⟩ := hSome
      refine ⟨w, fun Hp' X' cinc' reply' v hMem' hv => ?_⟩
      obtain ⟨rfl, -⟩ := hRun.input_inj hHash (compilerBoxes_digestFree sharedKey bc) hMem hMem'
      exact Option.some.inj (hw.symm.trans hv)
    · exact ⟨0, fun Hp X cinc reply v hMem hv => absurd ⟨v, Hp, X, cinc, reply, hMem, hv⟩ hSome⟩
  choose word hWord using hWord
  refine ⟨(List.range n).map word, by simp, fun i Hp X cinc reply hMem j w hw hLt => ?_⟩
  obtain ⟨dec, hHappens⟩ := hRun.happens hMem
  obtain ⟨⟨hPos, -, hLen⟩, -⟩ := seInput_eq_some.mp hHappens
  have hj : j < cfg.lOut := hLen ▸ (List.getElem?_eq_some_iff.mp hw).1
  have hDiv : ((i - 1) * cfg.lOut + j) / cfg.lOut + 1 = i := by
    rw [Nat.mul_comm, Nat.mul_add_div hOut, Nat.div_eq_of_lt hj]
    omega
  have hMod : ((i - 1) * cfg.lOut + j) % cfg.lOut = j := by
    rw [Nat.mul_comm, Nat.mul_add_mod, Nat.mod_eq_of_lt hj]
  rw [List.length_map, List.length_range] at hLt
  rw [List.getElem?_map, List.getElem?_range hLt, Option.map_some]
  exact congrArg some (hWord _ Hp X cinc reply w (by rwa [hDiv]) (by rwa [hMod]))

section Denoted

variable (hComp : Compiled C cfg ir ctSk sharedKey bc)
variable (hRun : Run C cfg (compilerBoxes sharedKey bc) h)
variable (hKeys : ∀ e ∈ h, e.CarriesKey ctSk) (hBounded : ∀ e ∈ h, e.Bounded cfg ir)

omit [DecidableEq D] in
include hComp in
/-- A record stands where its multi-instruction does. -/
theorem Compiled.code_at {code : LLMICode} {k : Nat} {llmi : LLMI} (hCode : code ∈ bc.llmis)
    (hOf : code.Of (C.encryptShared sharedKey) cfg ir (fileWidths cfg ir) k llmi) :
    bc.llmis[k]? = some code := by
  obtain ⟨k', hk'⟩ := List.mem_iff_getElem?.mp hCode
  obtain ⟨_, -, ⟨_, hWritten'⟩, -⟩ := (serialize_written hComp.serialized).code_of hk'
  obtain ⟨_, hWritten⟩ := hOf.written
  have hSame := hWritten.instrID_eq.symm.trans hWritten'.instrID_eq
  unfold LLIRProgram.instrID at hSame
  obtain rfl : k = k' := by omega
  exact hk'

omit [DecidableEq D] in
include hComp in
/-- The IDs in a record denote what the cells of its inputs hold. -/
theorem Compiled.inputs_denoted {init : Nat → Regs} {code : LLMICode} {k : Nat}
    (hk : bc.llmis[k]? = some code) {llmi : LLMI} (hLlmi : ir.instrs[k]? = some llmi)
    (hLen : ir.inputs.length = inputs.length) {mem : Store Nat}
    (hMem : memoryAt cfg init ir inputs k = some mem) :
    List.Forall₂ (fun m id => Denotes cfg init ir inputs id (mem m)) llmi.inputs code.inputIDs := by
  have hStart : ∀ m id, (bindIDs (inputID cfg.lOut) 0 ir.inputs []).lookup m = some id →
      Denotes cfg init ir inputs id (storeWords (ir.inputs.zip inputs) (fun _ => 0) m) := by
    refine bindIDs_words (P := fun _ => Denotes cfg init ir inputs) _ 0 [] _ hLen.le
      (fun j _ w hm hw => ?_) (fun m _ i hi => by cases hi)
    rw [Nat.zero_add]
    exact .input (List.getElem?_eq_some_iff.mp hm).1 hw
  obtain ⟨llmi', hAt, hAll⟩ :=
    serializeLLMIs_denotes (i := 0) (fun j => by rw [Nat.zero_add]) rfl hStart
    (serialize_written hComp.serialized).llmis_eq hk (by rwa [Nat.zero_add])
  rw [Nat.zero_add, hLlmi, Option.some.injEq] at hAt
  exact hAt ▸ hAll

include hComp hRun hKeys hBounded in
/-- **The words of a run are the words of the program.** Induction on the
instruction ID, as for their uniqueness: a batch is a part of the inputs, and a
multi-instruction computes its outputs from words with smaller IDs. -/
theorem Compiled.word_denoted {init : Nat → Regs} {e : D} (hLen : ir.inputs.length = inputs.length)
    (hInputs : CommittedTo cfg h e inputs) {id : ID} {w w' : Word}
    (hId : id.instrID < 2 ^ 32 ∧ id.outputID < 2 ^ 32) (hw : C.word e id w ∈ h.flatMap Event.boxes)
    (hDen : Denotes cfg init ir inputs id w') : w = w' := by
  induction hv : id.instrID using Nat.strong_induction_on generalizing id w w' with
  | _ v ih =>
  subst hv
  obtain ⟨a, ha, -, hOrigin⟩ := hComp.origin hRun hKeys hBounded hw hId rfl
  obtain rfl : w = a :=
    BitVec.eq_of_toNat_eq (toBE_inj (BitVec.isLt _) (BitVec.isLt _) (congrArg Box.msg ha))
  cases hDen with
  | @input n w' hLt hWord =>
    cases hOrigin with
    | input Hp X cinc reply hMem hIndex =>
      have hDivMod : (n / cfg.lOut + 1 - 1) * cfg.lOut + n % cfg.lOut = n := by
        rw [Nat.add_sub_cancel, Nat.mul_comm]
        exact Nat.div_add_mod n cfg.lOut
      have hAt := hInputs _ Hp X cinc reply hMem _ w hIndex
        (by show (n / cfg.lOut + 1 - 1) * cfg.lOut + n % cfg.lOut < _; omega)
      change inputs[(n / cfg.lOut + 1 - 1) * cfg.lOut + n % cfg.lOut]? = some w at hAt
      rw [hDivMod, hWord, Option.some.injEq] at hAt
      exact hAt.symm
    | eval call outs hMem hBox hExec hInstr =>
      subst hExec
      -- the ID of a multi-instruction is above those of the inputs
      obtain ⟨code, _, _, _, _, hCom⟩ := hComp.computed hRun hKeys hBounded hMem hId hBox
      have hAbove := hComp.lt_instrID hCom.mem
      have hDiv : n / cfg.lOut ≤ ir.inputs.length / cfg.lOut := Nat.div_le_div_right hLt.le
      have hEq : code.instrID = n / cfg.lOut + 1 := hCom.instrID_eq
      omega
  | @output k llmi mem reg j hAt hMem hRan hj =>
    cases hOrigin with
    | input Hp X cinc reply hIn hIndex =>
      have hLe : ir.instrID cfg.lOut k ≤ ir.inputs.length / cfg.lOut + 1 :=
        input_le hRun hBounded hIn
      unfold LLIRProgram.instrID at hLe
      omega
    | eval call outs hEval hBox hExec hInstr =>
      subst hExec
      obtain ⟨code, k', llmi', ws, reg', hCom⟩ := hComp.computed hRun hKeys hBounded hEval hId hBox
      obtain ⟨ids, hWritten⟩ := hCom.of.written
      obtain rfl : k = k' := by
        have hSame : ir.instrID cfg.lOut k = ir.instrID cfg.lOut k' :=
          hCom.instrID_eq.symm.trans hWritten.instrID_eq
        unfold LLIRProgram.instrID at hSame
        omega
      obtain rfl : llmi = llmi' := Option.some.inj (hAt.symm.trans hCom.of.position)
      have hIDs := hComp.inputs_denoted (hComp.code_at hCom.mem hCom.of) hAt hLen hMem
      -- the input words of the call are those of the program
      have hWords : ws = llmi.inputs.map mem := by
        refine words_eq_map hCom.length_eq hIDs hCom.words fun id' hId' u u' hu hu' => ?_
        have hLtID := hCom.of.inputs_lt _ hId'
        have hInstrLt := hWritten.instrID_lt
        have hSmall := hCom.of.outputID_lt hComp _ hId'
        have hEqID : code.instrID = ir.instrID cfg.lOut k := hCom.instrID_eq
        exact ih id'.instrID (by rw [← hEqID]; exact hLtID) ⟨by omega, hSmall⟩ hu hu' rfl
      rw [hWords] at hCom
      rw [hCom.eq]
      exact (hComp.initialised llmi (List.mem_of_getElem? hAt)).output_unique
        (by rw [List.length_map]) hCom.ran hRan hj

include hComp hRun hKeys hBounded in
/-- What an evaluation returns are the words that the program stores in the
outputs of the multi-instruction, in clear if it reveals. -/
theorem Compiled.outs_denoted {call : EvalCall D} {outs : List (OutWord D)}
    (hMem : Event.eval call outs ∈ h) (hLen : ir.inputs.length = inputs.length)
    (hInputs : CommittedTo cfg h call.execID inputs)
    (hNodup : ∀ llmi ∈ ir.instrs, llmi.outputs.Nodup) :
    ∃ k llmi, ir.instrs[k]? = some llmi ∧ call.aells.instrID = ir.instrID cfg.lOut k ∧
      ∀ (j : Nat) (out : OutWord D), outs[j]? = some out → ∃ m, llmi.outputs[j]? = some m ∧
        ∀ init mem, memoryAt cfg init ir inputs (k + 1) = some mem →
          out = if ir.revealFlag llmi ≠ 0 then .clear (mem m)
            else .sealed (C.word call.execID ⟨ir.instrID cfg.lOut k, j⟩ (mem m)) := by
  obtain ⟨post, pre, hSplit⟩ := List.append_of_mem hMem
  have hHappens := hRun
  rw [hSplit] at hHappens
  obtain ⟨hPre, hHappens⟩ := hHappens.of_append
  obtain ⟨code, k, llmi, ws, reg, hEv, hOuts⟩ := hComp.evaluated_outs hPre
    (fun e he => hKeys e (by simp [hSplit, he])) hHappens (hBounded _ hMem)
  obtain ⟨ids, hWritten⟩ := hEv.of.written
  have hAt := hEv.of.position
  have hLlmi := List.mem_of_getElem? hAt
  refine ⟨k, llmi, hAt, by rw [hEv.instrID_eq, hWritten.instrID_eq], fun j out hOut => ?_⟩
  obtain ⟨hj, hjOut, rfl⟩ := hOuts j out hOut
  refine ⟨llmi.outputs[j], List.getElem?_eq_getElem hj, fun init mem hMemory => ?_⟩
  -- the words the call loaded are those of the program
  obtain ⟨mem₀, hBefore⟩ := memoryAt_of_le (Nat.le_succ k) hMemory
  have hStep := (memoryAt_succ hAt).symm.trans hMemory
  rw [hBefore, Option.bind_some] at hStep
  obtain ⟨reg', hRan, rfl⟩ := Option.map_eq_some_iff.mp hStep
  have hWord : storeWords (llmi.outputs.zip ((List.range llmi.outputs.length).map fun i =>
      reg' (cfg.r - cfg.lOut + i))) mem₀ llmi.outputs[j] = reg' (cfg.r - cfg.lOut + j) :=
    storeWords_outputs mem₀ (hNodup llmi hLlmi) (List.getElem?_eq_getElem hj)
  have hIDs := hComp.inputs_denoted (hComp.code_at hEv.mem hEv.of) hAt hLen hBefore
  have hWords : ws = llmi.inputs.map mem₀ := by
    refine words_eq_map hEv.length_eq hIDs
      (fun j id hId => hComp.loaded hRun hKeys hBounded hSplit hHappens.1 hEv hId)
      fun id hId u u' hu hu' => ?_
    have hLtID := hEv.of.inputs_lt _ hId
    have hInstrLt := hWritten.instrID_lt
    exact hComp.word_denoted hRun hKeys hBounded hLen hInputs
      ⟨by omega, hEv.of.outputID_lt hComp _ hId⟩ hu hu'
  have hEvRan := hEv.ran
  rw [hWords] at hEvRan
  rw [hWord, outWord, ← (hComp.initialised llmi hLlmi).output_unique
    (by rw [List.length_map]) hEvRan hRan hj, hWritten.revealFlag_eq, hWritten.instrID_eq]

include hComp hRun hKeys hBounded in
/-- A word in clear is an output of the program. -/
theorem Compiled.clear_word (hReveals : ir.RevealsOutputs)
    (hOnce : (ir.instrs.flatMap LLMI.outputs).Nodup) {call : EvalCall D} {outs : List (OutWord D)}
    (hMem : Event.eval call outs ∈ h) (hLen : ir.inputs.length = inputs.length)
    (hInputs : CommittedTo cfg h call.execID inputs) {init : Nat → Regs} {vals : List Word}
    (hEval : ir.eval cfg init inputs = some vals) {j : Nat} {w : Word}
    (hClear : outs[j]? = some (.clear w)) :
    ∃ (k : Nat) (llmi : LLMI) (n m : Nat), call.aells.instrID = ir.instrID cfg.lOut k ∧
      ir.instrs[k]? = some llmi ∧ llmi.outputs[j]? = some m ∧ ir.outputs[n]? = some m ∧
      vals[n]? = some w := by
  obtain ⟨memEnd, hEnd, rfl⟩ := Option.map_eq_some_iff.mp hEval
  obtain ⟨k, llmi, hAt, hInstr, hOuts⟩ := hComp.outs_denoted hRun hKeys hBounded hMem hLen hInputs
    fun llmi hLlmi => (List.nodup_flatMap.mp hOnce).1 llmi hLlmi
  obtain ⟨m, hm, hWord⟩ := hOuts j _ hClear
  obtain ⟨hk, -⟩ := List.getElem?_eq_some_iff.mp hAt
  have hMemEnd : memoryAt cfg init ir inputs ir.instrs.length = some memEnd := by
    rwa [memoryAt, List.take_length]
  obtain ⟨mem, hMemory⟩ := memoryAt_of_le (Nat.succ_le_of_lt hk) hMemEnd
  have hOutEq := hWord init mem hMemory
  split_ifs at hOutEq with hFlag
  have hFlagOne : ir.revealFlag llmi = 1 := by
    unfold LLIRProgram.revealFlag at hFlag ⊢
    split_ifs at hFlag ⊢ with hAny
    · rfl
    · exact absurd rfl hFlag
  obtain ⟨pre, post, hSplit⟩ := List.append_of_mem (List.mem_of_getElem? hAt)
  have hmMem := List.mem_of_getElem? hm
  obtain ⟨n, hn⟩ := List.mem_iff_getElem?.mp
    (hReveals.only_outputs pre llmi post hSplit hFlagOne m hmMem).1
  refine ⟨k, llmi, n, m, hInstr, hAt, hm, hn, ?_⟩
  rw [List.getElem?_map, hn, Option.map_some, memoryAt_kept hAt hOnce hMemory hEnd hmMem]
  exact congrArg some (OutWord.clear.inj hOutEq).symm

end Denoted

end Runs

-- ---------------------------------------------------------------------------
-- The example program
-- ---------------------------------------------------------------------------

theorem tripleSum_revealsOutputs : tripleSum.RevealsOutputs := by
  have hOnly : ∀ llmi ∈ tripleSum.instrs, tripleSum.revealFlag llmi = 1 →
      ∀ m ∈ llmi.outputs, m ∈ tripleSum.outputs := by decide
  have hUnread : ∀ m ∈ tripleSum.outputs, ∀ llmi ∈ tripleSum.instrs, m ∉ llmi.inputs := by decide
  refine ⟨fun pre llmi post hSplit hFlag m hm => ?_, by decide⟩
  have hOut := hOnly llmi (by simp [hSplit]) hFlag m hm
  refine ⟨hOut, fun other hOther => hUnread m hOut other ?_⟩
  rw [hSplit]
  exact List.mem_append.mpr ((List.mem_append.mp hOther).imp_right (List.mem_cons_of_mem _))

/-- The calls of the interpreter for the inputs 5 and 6. -/
theorem tripleSum_calls :
    ∃ h execID,
      interpretCalls symbolicCrypto symbolicDec seSmall emptyHost tripleSumCode.bytes [5, 6] =
        some h ∧
      Run symbolicCrypto seSmall (compilerBoxes (List.replicate 16 3) tripleSumCode) h ∧
      (∀ e ∈ h, e.Honest (List.replicate 64 3) seSmall tripleSum execID [5, 6]) ∧
      ∀ w ∈ [33], ∃ call outs, Event.eval call outs ∈ h ∧ OutWord.clear w ∈ outs :=
  interpretCalls_run symbolicCrypto_correct tripleSum_compiled.buildable tripleSum_runnable
    (by decide)
    tripleSum_compiled.opened (by decide) tripleSum_compiled.serialized emptyHost rfl rfl

-- ---------------------------------------------------------------------------
-- What is revealed
-- ---------------------------------------------------------------------------

section Results

variable {D : Type} [DecidableEq D] {C : Crypto D} {cfg : SEConfig} {ir : LLIRProgram}
  {ctSk sharedKey : List UInt8} {bc : Bytecode} {h : List (Event D)}

/-- **A host learns results only.** In a run whose starts stay below the IDs of the
multi-instructions and whose evaluations use the sizes of the element, an execution
belongs to one list of inputs, that of the batches accepted for it, and whatever
the element returns in clear is an output of the program on these inputs. -/
theorem Run.reveals_results (hHash : Function.Injective C.hash)
    (hComp : Compiled C cfg ir ctSk sharedKey bc) (hReveals : ir.RevealsOutputs)
    (hOnce : (ir.instrs.flatMap LLMI.outputs).Nodup)
    (hRun : Run C cfg (compilerBoxes sharedKey bc) h) (hKeys : ∀ e ∈ h, e.CarriesKey ctSk)
    (hBounded : ∀ e ∈ h, e.Bounded cfg ir) (e : D) :
    ∃ inputs : List Word, inputs.length = ir.inputs.length ∧ CommittedTo cfg h e inputs ∧
      ∀ init vals, ir.eval cfg init inputs = some vals →
      ∀ call outs, Event.eval call outs ∈ h → call.execID = e → ∀ (j : Nat) (w : Word),
        outs[j]? = some (.clear w) → ∃ (k : Nat) (llmi : LLMI) (n m : Nat),
          call.aells.instrID = ir.instrID cfg.lOut k ∧ ir.instrs[k]? = some llmi ∧
          llmi.outputs[j]? = some m ∧ ir.outputs[n]? = some m ∧ vals[n]? = some w := by
  have hOut := hComp.buildable.lOut_ge
  obtain ⟨inputs, hLen, hInputs⟩ := exists_committedTo hHash (by omega) hRun e ir.inputs.length
  refine ⟨inputs, hLen, hInputs, fun init vals hEval call outs hMem hExec j w hClear => ?_⟩
  subst hExec
  exact hComp.clear_word hRun hKeys hBounded hReveals hOnce hMem hLen.symm hInputs hEval hClear

theorem reveals_results_tripleSum :
    ∃ h execID, interpretCalls symbolicCrypto symbolicDec seSmall emptyHost tripleSumCode.bytes
      [5, 6] = some h ∧
      ∃ inputs : List Word, inputs.length = tripleSum.inputs.length ∧
        CommittedTo seSmall h execID inputs ∧
        ∀ init vals, tripleSum.eval seSmall init inputs = some vals →
        ∀ call outs, Event.eval call outs ∈ h → call.execID = execID → ∀ (j : Nat) (w : Word),
          outs[j]? = some (.clear w) → ∃ (k : Nat) (llmi : LLMI) (n m : Nat),
            call.aells.instrID = tripleSum.instrID seSmall.lOut k ∧ tripleSum.instrs[k]? =
              some llmi ∧
            llmi.outputs[j]? = some m ∧ tripleSum.outputs[n]? = some m ∧ vals[n]? = some w := by
  obtain ⟨h, execID, hCalls, hRun, hHonest, -⟩ := tripleSum_calls
  exact ⟨h, execID, hCalls, Run.reveals_results symbolicCrypto_hash_injective tripleSum_compiled
    tripleSum_revealsOutputs (by decide) hRun (fun e he => (hHonest e he).carriesKey)
    (fun e he => (hHonest e he).bounded) execID⟩

end Results

end Obscure
