import Obscure.Runtime.Refinement
import Obscure.Runtime.Protocol

/-!
# OBSCURE — no host substitutes an intermediate value

Words of an execution are named by an ID: `(i, j)` is the `j`-th word of batch
`i` or the `j`-th output of the multi-instruction with ID `i`. The compiler
numbers its multi-instructions after the batches of the program's inputs, but
the element does not know how many batches that are: it derives a batch count
from the input count of the header, which the host supplies.

As long as no execution is started with more batches than there are IDs below
the first multi-instruction, and `SEeval` is called with the sizes of the
element, the two kinds of words are apart. Then every word of an execution is
determined by the inputs the host committed to: a word of a batch by the
uniqueness of committed batches, an output by the sequence, which is
authenticated together with the IDs of its inputs, and by the words of these
inputs, which have smaller IDs. With a larger count a batch index reaches into
the IDs of the multi-instructions, and the host chooses an intermediate value.
-/

namespace Obscure

open Lib

/-! ## Statement -/

section Statement

variable {D : Type} (C : Crypto D)

/-- The encryptions the host receives from the compiler. -/
def compilerBoxes (sharedKey : List UInt8) (bc : Bytecode) : List (Box D) :=
  bc.llmis.map fun code => ⟨sharedKey, symBytes code.nonce, symBytes code.ad, code.msg⟩

/-- Every start carries the compiler's sealed key. -/
def Event.CarriesKey (ctSk : List UInt8) : Event D → Prop
  | .start header _ _ _ => header.take 64 = ctSk
  | _ => True

/-- A start has no more batches than there are IDs below those of the
multi-instructions, and an evaluation uses the sizes of the element. -/
def Event.Bounded (cfg : SEConfig) (ir : LLIRProgram) : Event D → Prop
  | .start header lbM _ _ => ∀ n, headerCount header lbM = some n →
      batchCount cfg.lOut n ≤ ir.inputs.length / cfg.lOut + 1
  | .input _ _ _ _ _ _ => True
  | .eval call _ => call.r = cfg.r ∧ call.lbM = bytelen ir.memoryCount ∧
      call.lbR = bytelen cfg.r ∧ call.lbC = cfg.wordSize / 8 ∧ call.lbO = bytelen cfg.lOut

/-- A compiled sequence reads registers that hold an input or were written, and
leaves a written register for every output. -/
structure LLMI.Initialised (cfg : SEConfig) (llmi : LLMI) : Prop where
  reads_ok : ∀ pre i post, llmi.seq = pre ++ i :: post → ∀ a ∈ i.memInputs,
    a < llmi.inputs.length ∨ a ∈ defs pre
  outputs_ok : ∀ j < llmi.outputs.length,
    cfg.r - cfg.lOut + j < llmi.inputs.length ∨ cfg.r - cfg.lOut + j ∈ defs llmi.seq

end Statement

/-! ## Fresh registers do not matter -/

/-- Two stores that agree on what a sequence reads before writing it give the
same results on everything it reads or writes. -/
theorem run_agree {α : Type} [DecidableEq α] {P : α → Prop} {seq : List (Instr α)}
    (st st' : Store α) {t t' : Store α} (hAgree : ∀ a, P a → st a = st' a)
    (hReads : ∀ pre i post, seq = pre ++ i :: post → ∀ a ∈ i.memInputs, P a ∨ a ∈ defs pre)
    (hRun : run seq st = some t) (hRun' : run seq st' = some t') :
    ∀ a, P a ∨ a ∈ defs seq → t a = t' a := by
  induction seq generalizing P st st' with
  | nil =>
    obtain rfl : st = t := by simpa [run] using hRun
    obtain rfl : st' = t' := by simpa [run] using hRun'
    intro a ha
    exact hAgree a (by simpa using ha)
  | cons i rest ih =>
    obtain ⟨mid, hExec, hRest⟩ := run_cons_eq_some.mp hRun
    obtain ⟨mid', hExec', hRest'⟩ := run_cons_eq_some.mp hRun'
    obtain ⟨w, hw, rfl⟩ := Instr.exec_eq_some.mp hExec
    obtain ⟨w', hw', rfl⟩ := Instr.exec_eq_some.mp hExec'
    have hHead : ∀ a ∈ i.memInputs, st a = st' a := by
      intro a ha
      rcases hReads [] i rest rfl a ha with h | h
      · exact hAgree a h
      · cases h
    have hSame : w = w' := by
      rw [Instr.result_congr hHead, hw', Option.some.injEq] at hw
      exact hw.symm
    subst hSame
    -- the destination joins the locations the stores agree on
    have hTail := ih (P := fun a => P a ∨ a = i.dst) (Function.update st i.dst w)
      (Function.update st' i.dst w)
      (by
        intro a ha
        by_cases hEq : a = i.dst
        · simp [hEq]
        · rw [Function.update_of_ne hEq, Function.update_of_ne hEq]
          exact hAgree a (ha.resolve_right hEq))
      (by
        rintro pre i' post rfl a ha
        rcases hReads (i :: pre) i' post rfl a ha with h | h
        · exact Or.inl (Or.inl h)
        · rcases List.mem_cons.mp h with h | h
          · exact Or.inl (Or.inr h)
          · exact Or.inr h)
      hRest hRest'
    intro a ha
    refine hTail a ?_
    rcases ha with h | h
    · exact Or.inl (Or.inl h)
    · rcases List.mem_cons.mp h with h | h
      · exact Or.inl (Or.inr h)
      · exact Or.inr h

/-- The outputs of an initialised multi-instruction depend on its input words
alone. -/
theorem LLMI.Initialised.output_unique {cfg : SEConfig} {llmi : LLMI} (h : llmi.Initialised cfg)
    {init init' reg reg' : Regs} {ws : List Word} (hLen : ws.length = llmi.inputs.length)
    (hRun : run llmi.seq (loadRegs init ws) = some reg)
    (hRun' : run llmi.seq (loadRegs init' ws) = some reg') {j : Nat}
    (hj : j < llmi.outputs.length) :
    reg (cfg.r - cfg.lOut + j) = reg' (cfg.r - cfg.lOut + j) := by
  refine run_agree (P := fun a => a < llmi.inputs.length) _ _ ?_ h.reads_ok hRun hRun' _
    (h.outputs_ok j hj)
  intro a ha
  have hLt : a < ws.length := hLen ▸ ha
  simp [loadRegs, List.getD, List.getElem?_eq_getElem hLt]

/-! ## The multi-instructions of a program -/

section Codes

variable {encrypt : List UInt8 → List UInt8 → List UInt8 → List UInt8}
variable {cfg : SEConfig} {ir : LLIRProgram} {w : Widths}

/-- Bindings made by `bindIDs` are old or new ones. -/
theorem bindIDs_lookup {id : Nat → ID} {ms : List Nat} {idx : Nat} {ids : IdDict} {m : Nat} {i : ID}
    (h : (bindIDs id idx ms ids).lookup m = some i) :
    ids.lookup m = some i ∨ ∃ j < ms.length, i = id (idx + j) := by
  induction ms generalizing idx ids with
  | nil => exact Or.inl h
  | cons m₀ ms ih =>
    rcases ih h with hOld | ⟨j, hj, rfl⟩
    · rw [lookup_cons_ite] at hOld
      split at hOld
      · right
        exact ⟨0, by simp, (Option.some.inj hOld).symm⟩
      · exact Or.inl hOld
    · right
      exact ⟨j + 1, by simpa using hj, by rw [show idx + (j + 1) = idx + 1 + j by omega]⟩

/-- A record and the multi-instruction it was written for; its inputs come from
words with smaller IDs. -/
structure LLMICode.Of (encrypt : List UInt8 → List UInt8 → List UInt8 → List UInt8)
    (cfg : SEConfig) (ir : LLIRProgram) (w : Widths) (k : Nat) (code : LLMICode) (llmi : LLMI) :
    Prop where
  position : ir.instrs[k]? = some llmi
  written : ∃ ids, code.Written encrypt cfg ir w k ids llmi
  inputs_lt : ∀ id ∈ code.inputIDs, id.instrID < code.instrID

theorem serializeLLMIs_of {llmis : List LLMI} {i : Nat} {ids : IdDict} {codes : List LLMICode}
    (hSub : ∀ j, llmis[j]? = ir.instrs[i + j]?)
    (hIds : ∀ m id, ids.lookup m = some id → id.instrID < ir.instrID cfg.lOut i)
    (h : serializeLLMIs encrypt cfg ir w i ids llmis = some codes) :
    ∀ (k : Nat) (code : LLMICode), codes[k]? = some code →
      ∃ llmi, code.Of encrypt cfg ir w (i + k) llmi := by
  induction llmis generalizing i ids codes with
  | nil =>
    obtain rfl : [] = codes := by simpa [serializeLLMIs] using h
    intro k code hCode
    simp at hCode
  | cons llmi rest ih =>
    obtain ⟨code₀, codes', rfl, hWritten, hRest⟩ := serializeLLMIs_cons_eq_some h
    intro k code hCode
    cases k with
    | zero =>
      obtain rfl : code₀ = code := by simpa using hCode
      refine ⟨llmi, (hSub 0).symm, ⟨ids, hWritten⟩, ?_⟩
      intro id hId
      obtain ⟨m, -, hm⟩ := exists_left_of_forall₂ (forall₂_of_mapM_eq_some hWritten.inputIDs_eq) hId
      rw [hWritten.instrID_eq]
      exact hIds m id hm
    | succ k =>
      rw [show i + (k + 1) = i + 1 + k by omega]
      refine ih ?_ ?_ hRest k code (by simpa using hCode)
      · intro j
        rw [show i + 1 + j = i + (j + 1) by omega, ← hSub]
        rfl
      · intro m id hId
        rcases bindIDs_lookup hId with hOld | ⟨j, -, rfl⟩
        · have := hIds m id hOld
          unfold LLIRProgram.instrID at this ⊢
          omega
        · show code₀.instrID < _
          rw [hWritten.instrID_eq]
          unfold LLIRProgram.instrID
          omega

/-- The records of a file, by position. -/
theorem Bytecode.Written.code_of {ctSk : List UInt8} {bc : Bytecode}
    (h : bc.Written encrypt ctSk cfg ir) {k : Nat} {code : LLMICode}
    (hCode : bc.llmis[k]? = some code) :
    ∃ llmi, code.Of encrypt cfg ir (fileWidths cfg ir) k llmi := by
  have hAll := serializeLLMIs_of (fun j => by rw [Nat.zero_add]) ?_ h.llmis_eq k code hCode
  · simpa using hAll
  · intro m id hId
    rcases bindIDs_lookup hId with hOld | ⟨j, hj, rfl⟩
    · cases hOld
    · have hDiv : (0 + j) / cfg.lOut ≤ ir.inputs.length / cfg.lOut :=
        Nat.div_le_div_right (by omega)
      unfold LLIRProgram.instrID inputID
      simp only
      omega

end Codes

/-! ## Associated data of a sequence -/

section AD

/-- The IDs in the associated data, with nothing checked. -/
def idBytes (lbO : Nat) (id : ID) : List UInt8 := toBE 4 id.instrID ++ toBE lbO id.outputID

theorem serializeAll_eq_flatMap {α : Type} {f : α → Option (List UInt8)} {g : α → List UInt8}
    {xs : List α} {bs : List UInt8} (hf : ∀ x b, f x = some b → b = g x)
    (h : serializeAll f xs = some bs) : bs = xs.flatMap g := by
  induction xs generalizing bs with
  | nil =>
    obtain rfl : [] = bs := by simpa [serializeAll] using h
    rfl
  | cons x xs ih =>
    obtain ⟨b, bs', hb, hbs', rfl⟩ := serializeAll_cons_eq_some.mp h
    rw [List.flatMap_cons, ← ih hbs', hf x b hb]

/-- The layout of the rebuilt associated data. -/
theorem AELLS.ad_layout {aells : AELLS} {lbM lbO : Nat} {ad : List UInt8}
    (h : aells.ad lbM lbO = some ad) :
    ad = toBE 4 aells.instrID ++ (toBE 1 aells.revealFlag ++ (toBE lbM aells.inputIDs.length ++
      (aells.inputIDs.flatMap (idBytes lbO) ++ toBE lbM aells.outCount))) := by
  simp only [AELLS.ad, u32ToBytes, Option.bind_eq_bind, Option.bind_eq_some_iff] at h
  obtain ⟨count, hCount, ids, hIDs, outCount, hOut, hAd⟩ := h
  split at hCount
  case isFalse => cases hCount
  case isTrue hLb =>
    rw [if_pos hLb] at hOut
    obtain rfl := Option.some.inj hCount
    obtain rfl := Option.some.inj hOut
    have hFlat : ids = aells.inputIDs.flatMap (idBytes lbO) := by
      refine serializeAll_eq_flatMap (fun id b hb => ?_) hIDs
      simp only [ID.toBytes, u32ToBytes, Option.map_eq_some_iff] at hb
      obtain ⟨out, hOut, rfl⟩ := hb
      split at hOut
      · obtain rfl := Option.some.inj hOut
        rfl
      · cases hOut
    split at hAd
    · obtain rfl := Option.some.inj hAd
      rw [hFlat]
      simp only [List.append_assoc]
    · cases hAd

theorem length_flatMap_idBytes (lbO : Nat) (ids : List ID) :
    (ids.flatMap (idBytes lbO)).length = (4 + lbO) * ids.length := by
  induction ids with
  | nil => rfl
  | cons id ids ih =>
    rw [List.flatMap_cons, List.length_append, ih, idBytes, List.length_append, length_toBE,
      length_toBE, List.length_cons]
    ring

/-- Equal bytes of ID lists: the lists have the same length, the instruction IDs
agree and the output IDs agree as far as their bytes go. -/
theorem flatMap_idBytes_inj {lbO : Nat} {ids ids' : List ID} (hLen : ids.length = ids'.length)
    (hIds : ∀ id ∈ ids, id.instrID < 2 ^ 32) (hIds' : ∀ id ∈ ids', id.instrID < 2 ^ 32)
    (h : ids.flatMap (idBytes lbO) = ids'.flatMap (idBytes lbO)) :
    List.Forall₂ (fun a b => a.instrID = b.instrID ∧
      a.outputID % 256 ^ lbO = b.outputID % 256 ^ lbO) ids ids' := by
  induction ids generalizing ids' with
  | nil =>
    obtain rfl : ids' = [] := List.length_eq_zero_iff.mp hLen.symm
    exact List.Forall₂.nil
  | cons id ids ih =>
    cases ids' with
    | nil => cases hLen
    | cons id' ids' =>
      rw [List.flatMap_cons, List.flatMap_cons] at h
      obtain ⟨hHead, hTail⟩ := List.append_inj h (by simp [idBytes])
      obtain ⟨hInstr, hOut⟩ := List.append_inj hHead (by simp)
      refine List.Forall₂.cons ⟨?_, ?_⟩ (ih (Nat.succ.inj hLen)
        (fun x hx => hIds x (List.mem_cons_of_mem _ hx))
        (fun x hx => hIds' x (List.mem_cons_of_mem _ hx)) hTail)
      · exact toBE_inj (hIds id List.mem_cons_self) (hIds' id' List.mem_cons_self) hInstr
      · rw [← ofBE_toBE, hOut, ofBE_toBE]

/-- The IDs of a written record fit their fields. -/
theorem LLMICode.Written.inputIDs_lt
    {encrypt : List UInt8 → List UInt8 → List UInt8 → List UInt8} {cfg : SEConfig}
    {ir : LLIRProgram} {w : Widths} {k : Nat} {ids : IdDict} {llmi : LLMI} {code : LLMICode}
    (h : code.Written encrypt cfg ir w k ids llmi) :
    ∀ id ∈ code.inputIDs, id.instrID < 2 ^ 32 ∧ id.outputID < 256 ^ w.lbO := by
  obtain ⟨-, -, idsBytes, -, -, hIDs, -⟩ := h.layout
  generalize code.inputIDs = l at hIDs
  induction l generalizing idsBytes with
  | nil => simp
  | cons id l ih =>
    obtain ⟨b, bs', hb, hbs', -⟩ := serializeAll_cons_eq_some.mp hIDs
    obtain ⟨hInstr, hOut, -⟩ := serializeID_eq_some.mp hb
    exact List.forall_mem_cons.mpr ⟨⟨hInstr, hOut⟩, ih _ hbs'⟩

/-- What authenticated data fixes of the snippet the host presents. -/
theorem LLMICode.Written.ad_fixes {encrypt : List UInt8 → List UInt8 → List UInt8 → List UInt8}
    {cfg : SEConfig} {ir : LLIRProgram} {w : Widths} {k : Nat} {ids : IdDict} {llmi : LLMI}
    {code : LLMICode} (h : code.Written encrypt cfg ir w k ids llmi) {aells : AELLS}
    (hTyped : aells.Typed) (hAd : aells.ad w.lbM w.lbO = some code.ad) :
    aells.instrID = code.instrID ∧ aells.revealFlag = code.revealFlag ∧
      List.Forall₂ (fun a b => a.instrID = b.instrID ∧
        a.outputID % 256 ^ w.lbO = b.outputID % 256 ^ w.lbO) aells.inputIDs code.inputIDs ∧
      aells.outCount % 256 ^ w.lbM = llmi.outputs.length % 256 ^ w.lbM ∧
      ∀ id ∈ code.inputIDs, id.outputID < 256 ^ w.lbO := by
  obtain ⟨-, -, idsBytes, -, -, hIDs, hCodeAd, -⟩ := h.layout
  obtain ⟨hByte, hFlagLt⟩ := h.flag_byte
  have hLayout := AELLS.ad_layout hAd
  have hCount : code.inputIDs.length = llmi.inputs.length := length_of_mapM_eq_some h.inputIDs_eq
  have hFlat : idsBytes = code.inputIDs.flatMap (idBytes w.lbO) :=
    serializeAll_eq_flatMap (fun id b hb => (serializeID_eq_some.mp hb).2.2) hIDs
  have hBounds := h.inputIDs_lt
  rw [hCodeAd, hByte, hFlat] at hLayout
  simp only [List.append_assoc] at hLayout
  obtain ⟨hInstr, hRest⟩ := List.append_inj hLayout (by simp)
  obtain ⟨hFlag, hRest⟩ := List.append_inj hRest (by simp)
  obtain ⟨-, hRest⟩ := List.append_inj hRest (by simp)
  -- the total length leaves one possible number of inputs
  have hLen : code.inputIDs.length = aells.inputIDs.length := by
    have hTotal := congrArg List.length hRest
    simp only [List.length_append, length_flatMap_idBytes, length_toBE] at hTotal
    exact Nat.eq_of_mul_eq_mul_left (show 0 < 4 + w.lbO by omega) (by omega)
  obtain ⟨hIDsEq, hOutCount⟩ := List.append_inj hRest
    (by rw [length_flatMap_idBytes, length_flatMap_idBytes, hLen])
  refine ⟨(toBE_inj h.instrID_lt hTyped.instrID_lt hInstr).symm,
    (toBE_inj hFlagLt hTyped.revealFlag_lt hFlag).symm, ?_, ?_, fun id hid => (hBounds id hid).2⟩
  · exact flatMap_idBytes_inj hLen.symm (fun id hid => (hTyped.inputIDs_lt id hid).1)
      (fun id hid => (hBounds id hid).1) hIDsEq.symm
  · rw [← ofBE_toBE, ← hOutCount, ofBE_toBE]

end AD

/-! ## What a run encrypts -/

section Boxes

variable {D : Type} [DecidableEq D] {C : Crypto D} {cfg : SEConfig} {init : List (Box D)}
variable {h : List (Event D)}

omit [DecidableEq D] in
/-- The associated data of a word determines its ID and execution. -/
theorem wordAD_inj {e e' : D} {id id' : ID} (hId : id.instrID < 2 ^ 32 ∧ id.outputID < 2 ^ 32)
    (hId' : id'.instrID < 2 ^ 32 ∧ id'.outputID < 2 ^ 32) (hEq : wordAD e id = wordAD e' id') :
    e = e' ∧ id = id' := by
  simp only [wordAD, List.append_assoc] at hEq
  obtain ⟨hInstr, hRest⟩ := List.append_inj hEq (by simp [symBytes])
  obtain ⟨hOut, hExec⟩ := List.append_inj hRest (by simp [symBytes])
  simp only [List.cons.injEq, Sym.digest.injEq, and_true] at hExec
  have h₁ := toBE_inj hId.1 hId'.1 (symBytes_injective hInstr)
  have h₂ := toBE_inj hId.2 hId'.2 (symBytes_injective hOut)
  obtain ⟨a, b⟩ := id
  obtain ⟨a', b'⟩ := id'
  simp only at h₁ h₂
  rw [hExec, h₁, h₂]
  exact ⟨rfl, rfl⟩

omit [DecidableEq D] in
theorem wordAD_ne_nil {e : D} {id : ID} : wordAD e id ≠ [] := by
  simp [wordAD]

omit [DecidableEq D] in
theorem wordAD_ne_symBytes {e : D} {id : ID} {bs : List UInt8} : wordAD e id ≠ symBytes bs := by
  intro hEq
  have hMem : Sym.digest e ∈ symBytes (D := D) bs := by
    rw [← hEq]
    simp [wordAD]
  obtain ⟨b, -, hb⟩ := List.mem_map.mp hMem
  cases hb

/-- The encryptions of a run: a shared key, a token, a word of an accepted
batch, or an output of an evaluation. -/
inductive BoxKind (C : Crypto D) (cfg : SEConfig) (h : List (Event D)) (b : Box D) : Prop where
  | key (header : List UInt8) (lbM : Nat) (hash : D) (reply : StartReply D) (sk : List UInt8)
      (mem : Event.start header lbM hash reply ∈ h)
      (opened : C.sealOpen (header.take 64) = some sk)
      (eq : b = ⟨C.seckey, C.keyNonce reply.execID, [], sk⟩)
  | token (execID : D) (i : Nat) (H : D) (eq : b = C.token execID i H)
  | input (execID : D) (i : Nat) (Hp : D) (X : List Word) (cinc : List UInt8)
      (reply : InputReply D) (j : Nat) (w : Word)
      (mem : Event.input execID i Hp X cinc reply ∈ h) (index : X[j]? = some w)
      (lt : i < 2 ^ 32) (len : X.length = cfg.lOut) (eq : b = C.word execID ⟨i, j⟩ w)
  | output (call : EvalCall D) (outs : List (OutWord D)) (j : Nat) (w : Word)
      (mem : Event.eval call outs ∈ h) (mem_boxes : b ∈ (Event.eval call outs).boxes)
      (eq : b = C.word call.execID ⟨call.aells.instrID, j⟩ w)

theorem Run.boxKind (hRun : Run C cfg init h) {b : Box D} (hb : b ∈ h.flatMap Event.boxes) :
    BoxKind C cfg h b := by
  obtain ⟨e, he, hBox⟩ := List.mem_flatMap.mp hb
  obtain ⟨dec, hHappens⟩ := hRun.happens he
  cases e with
  | start header lbM hash reply =>
    obtain ⟨sk, n, rest, -, hOpen, -, -, hKey, hCin, -⟩ := seStart_eq_some.mp hHappens
    rcases List.mem_cons.mp hBox with rfl | hBox
    · exact .key header lbM hash reply sk he hOpen hKey
    · rw [List.mem_singleton.mp hBox, hCin]
      exact .token _ _ _ rfl
  | input execID i Hp X cinc reply =>
    obtain ⟨⟨-, hLt, hLen⟩, -, -, -, rfl⟩ := seInput_eq_some.mp hHappens
    rcases List.mem_cons.mp hBox with rfl | hBox
    · exact .token _ _ _ rfl
    · obtain ⟨⟨w, j⟩, hx, rfl⟩ := List.mem_map.mp hBox
      have hIndex : X[j]? = some w := by
        rw [List.mem_zipIdx_iff_getElem?] at hx
        exact hx
      exact .input execID i Hp X cinc _ j w he hIndex hLt hLen rfl
  | eval call outs =>
    obtain ⟨-, hEval⟩ := hHappens
    obtain ⟨_, _, _, reg', -, -, -, -, -, hOuts⟩ := seEval_eq_some.mp hEval
    obtain ⟨j, -, -, -, hEq⟩ := mem_boxes_of_outputs hOuts hBox
    exact .output call outs j _ he hBox hEq

/-- On words of the ledger the ideal AEAD and the real one load the same registers. -/
theorem ewordDecrypt_ideal {dec : Decrypt D} (hC : C.Correct dec) {log : List (Box D)} {execID : D}
    {r i : Nat} {ids : List ID} {ws : List Word} (reg : Regs)
    (hMem : ∀ x ∈ ids.zip ws, C.word execID x.1 x.2 ∈ log) :
    ewordDecrypt C (idealDec C log) execID r i ids
        ((ids.zip ws).map fun x => C.ct (C.word execID x.1 x.2)) reg =
      ewordDecrypt C dec execID r i ids
        ((ids.zip ws).map fun x => C.ct (C.word execID x.1 x.2)) reg := by
  induction ids generalizing i ws reg with
  | nil => rfl
  | cons id ids ih =>
    cases ws with
    | nil => rfl
    | cons w ws =>
      obtain ⟨hHead, hTail⟩ := List.forall_mem_cons.mp hMem
      have hIdeal : idealDec C log C.seckey (C.word execID id 0).nonce (C.word execID id 0).ad
          (C.ct (C.word execID id w)) = some (wordToBytes w) := idealDec_of_mem hC hHead
      have hReal : dec C.seckey (C.word execID id 0).nonce (C.word execID id 0).ad
          (C.ct (C.word execID id w)) = some (wordToBytes w) := hC.dec_ct (C.word execID id w)
      simp only [List.zip_cons_cons, List.map_cons, ewordDecrypt, hIdeal, hReal,
        Option.bind_eq_bind, Option.bind_some]
      refine Option.bind_congr fun _ _ => ih _ hTail

/-- `EWORD_decrypt` loads words of the ledger. -/
theorem ewordDecrypt_inv {log : List (Box D)} {execID : D} {r i : Nat} {ids : List ID}
    {Cx : List (List UInt8)} {reg reg' : Regs}
    (hDec : ewordDecrypt C (idealDec C log) execID r i ids Cx reg = some reg') :
    ∃ ws : List Word, ws.length = ids.length ∧
      reg' = (fun k => if k < i then reg k else ws.getD (k - i) (reg k)) ∧
      ∀ (k : Nat) (id : ID), ids[k]? = some id → ∃ b ∈ log, b.ad = wordAD execID id ∧
        Cx[k]? = some (C.ct b) ∧ ws[k]? = some (BitVec.ofNat 32 (ofBE b.msg)) := by
  induction ids generalizing i Cx reg with
  | nil =>
    refine ⟨[], rfl, ?_, ?_⟩
    · rw [ewordDecrypt, Option.some.injEq] at hDec
      rw [← hDec]
      funext k
      simp
    · intro k id hk
      simp at hk
  | cons id ids ih =>
    cases Cx with
    | nil => cases hDec
    | cons c Cx =>
      simp only [ewordDecrypt, Option.bind_eq_bind, Option.bind_eq_some_iff, guard_eq_some] at hDec
      obtain ⟨m, hm, -, -, hRest⟩ := hDec
      obtain ⟨b, hb, -, -, hAd, rfl, rfl⟩ := idealDec_eq_some hm
      obtain ⟨ws, hLen, hReg, hWords⟩ := ih hRest
      refine ⟨BitVec.ofNat 32 (ofBE b.msg) :: ws, by simp [hLen], ?_, ?_⟩
      · rw [hReg]
        funext k
        rcases Nat.lt_trichotomy k i with hk | rfl | hk
        · rw [if_pos (by omega), if_pos hk, Function.update_of_ne (by omega)]
        · simp
        · rw [if_neg (by omega), if_neg (by omega), Function.update_of_ne (by omega),
            show k - i = (k - (i + 1)) + 1 by omega, List.getD_cons_succ]
      · intro k id' hk
        cases k with
        | zero =>
          obtain rfl : id = id' := by simpa using hk
          exact ⟨b, hb, hAd, rfl, rfl⟩
        | succ k => exact hWords k id' (by simpa using hk)

end Boxes

/-! ## Evaluations -/

section Evaluations

variable {D : Type} [DecidableEq D] {C : Crypto D} {cfg : SEConfig} {ir : LLIRProgram}
variable {ctSk sharedKey : List UInt8} {bc : Bytecode} {h : List (Event D)}

/-- The program the host holds, and what the element and the compiler agree on. -/
structure Compiled (C : Crypto D) (cfg : SEConfig) (ir : LLIRProgram) (ctSk sharedKey : List UInt8)
    (bc : Bytecode) : Prop where
  buildable : cfg.Buildable
  lOut_lt : cfg.lOut < 256
  memoryCount_ge : 2 ≤ ir.memoryCount
  serialized : serialize (C.encryptShared sharedKey) ctSk cfg ir = some bc
  opened : C.sealOpen ctSk = some sharedKey
  seq_le : ∀ llmi ∈ ir.instrs, llmi.seq.length ≤ cfg.s
  initialised : ∀ llmi ∈ ir.instrs, llmi.Initialised cfg

omit [DecidableEq D] in
/-- The part of the ledger an ID can match: everything but the compiler's. -/
theorem mem_boxes_of_wordAD {b : Box D} {e : D} {id : ID}
    (hb : b ∈ ledger (compilerBoxes sharedKey bc) h) (hAd : b.ad = wordAD e id) :
    b ∈ h.flatMap Event.boxes := by
  rcases List.mem_append.mp hb with hInit | hHist
  · obtain ⟨code, -, rfl⟩ := List.mem_map.mp hInit
    exact absurd hAd.symm wordAD_ne_symBytes
  · exact hHist

/-- The only shared key an evaluation can find is the compiler's. -/
theorem Compiled.sharedKey_eq (hComp : Compiled C cfg ir ctSk sharedKey bc)
    (hRun : Run C cfg (compilerBoxes sharedKey bc) h) (hKeys : ∀ e ∈ h, e.CarriesKey ctSk)
    {b : Box D} (hb : b ∈ ledger (compilerBoxes sharedKey bc) h) (hAd : b.ad = []) :
    b.msg = sharedKey := by
  rcases List.mem_append.mp hb with hInit | hHist
  · obtain ⟨code, hCode, rfl⟩ := List.mem_map.mp hInit
    obtain ⟨k, hk⟩ := List.mem_iff_getElem?.mp hCode
    obtain ⟨llmi, -, ⟨_, hWritten⟩, -⟩ := (serialize_written hComp.serialized).code_of hk
    obtain ⟨_, _, _, -, -, -, hCodeAd, -⟩ := hWritten.layout
    simp [symBytes, hCodeAd] at hAd
  · cases hRun.boxKind hHist with
    | key header lbM hash reply sk hMem hOpen hEq =>
      have hHeader : header.take 64 = ctSk := hKeys _ hMem
      rw [hHeader, hComp.opened, Option.some.injEq] at hOpen
      rw [hEq, hOpen]
    | token execID i H hEq => rw [hEq] at hAd; cases hAd
    | input execID i Hp X cinc reply j w _ _ _ _ hEq =>
      rw [hEq] at hAd
      exact absurd hAd wordAD_ne_nil
    | output call outs j w _ _ hEq =>
      rw [hEq] at hAd
      exact absurd hAd wordAD_ne_nil

/-- The only sequences an evaluation can decrypt are the compiler's. -/
theorem mem_compilerBoxes_of_nonce (hRun : Run C cfg (compilerBoxes sharedKey bc) h) {b : Box D}
    (hb : b ∈ ledger (compilerBoxes sharedKey bc) h) {nonce : List UInt8}
    (hNonce : b.nonce = symBytes nonce) :
    ∃ code ∈ bc.llmis, b = ⟨sharedKey, symBytes code.nonce, symBytes code.ad, code.msg⟩ := by
  rcases List.mem_append.mp hb with hInit | hHist
  · obtain ⟨code, hCode, rfl⟩ := List.mem_map.mp hInit
    exact ⟨code, hCode, rfl⟩
  · exfalso
    cases hRun.boxKind hHist with
    | key header lbM hash reply sk hMem hOpen hEq =>
      rw [hEq] at hNonce
      exact digest_ne_symBytes hNonce
    | token execID i H hEq =>
      rw [hEq] at hNonce
      exact digest_ne_symBytes hNonce
    | input execID i Hp X cinc reply j w _ _ _ _ hEq =>
      rw [hEq] at hNonce
      exact digest_ne_symBytes hNonce
    | output call outs j w _ _ hEq =>
      rw [hEq] at hNonce
      exact digest_ne_symBytes hNonce

/-- Everything a returned evaluation says: it ran a multi-instruction of the
program on words of the ledger that have the IDs the compiler gave its
inputs. -/
structure Evaluated (C : Crypto D) (cfg : SEConfig) (ir : LLIRProgram) (sharedKey : List UInt8)
    (bc : Bytecode) (log : List (Box D)) (call : EvalCall D) (code : LLMICode) (k : Nat)
    (llmi : LLMI) (ws : List Word) (reg : Regs) : Prop where
  mem : code ∈ bc.llmis
  of : code.Of (C.encryptShared sharedKey) cfg ir (fileWidths cfg ir) k llmi
  instrID_eq : call.aells.instrID = code.instrID
  bytecode_eq : call.aells.bytecode = code.lls
  length_eq : ws.length = llmi.inputs.length
  ids_agree : List.Forall₂ (fun a b => a.instrID = b.instrID ∧
    a.outputID % 256 ^ bytelen cfg.lOut = b.outputID % 256 ^ bytelen cfg.lOut)
    call.aells.inputIDs code.inputIDs
  ids_lt : ∀ id ∈ code.inputIDs, id.outputID < 256 ^ bytelen cfg.lOut
  words : ∀ (j : Nat) (id : ID), call.aells.inputIDs[j]? = some id →
    ∃ b ∈ log, b.ad = wordAD call.execID id ∧ call.Cx[j]? = some (C.ct b) ∧
      ws[j]? = some (BitVec.ofNat 32 (ofBE b.msg))
  ran : run llmi.seq (loadRegs call.junk.reg ws) = some reg

omit [DecidableEq D] in
/-- An output position that exists in the registers is one of the program's. -/
theorem outCount_le {execID : D} {aells : AELLS} {reg : Regs} {outs : List (OutWord D)}
    (hCfg : cfg.Buildable)
    (hOuts : (List.range aells.outCount).mapM (ewordOutput C cfg execID aells reg cfg.r) =
      some outs) : aells.outCount ≤ cfg.lOut := by
  by_contra hMore
  have hMem : cfg.lOut ∈ List.range aells.outCount := List.mem_range.mpr (by omega)
  obtain ⟨out, -, hOut⟩ :=
    exists_left_of_forall₂ (forall₂_of_mapM_eq_some hOuts).flip hMem
  have := hCfg.r_lt
  have := hCfg.regs_le
  have hReg : ¬ outReg cfg cfg.r cfg.lOut < cfg.r := by
    unfold outReg
    omega
  rw [ewordOutput, if_neg hReg] at hOut
  cases hOut

theorem outReg_eq (hCfg : cfg.Buildable) {j : Nat} (hj : j < cfg.lOut) :
    outReg cfg cfg.r j = cfg.r - cfg.lOut + j := by
  have := hCfg.r_lt
  have := hCfg.regs_le
  unfold outReg
  omega

/-- **Inversion of an evaluation.** What is returned are words of the
multi-instruction, sealed under its ID unless it reveals. -/
theorem Compiled.evaluated_outs (hComp : Compiled C cfg ir ctSk sharedKey bc) {call : EvalCall D}
    {outs : List (OutWord D)} (hRun : Run C cfg (compilerBoxes sharedKey bc) h)
    (hKeys : ∀ e ∈ h, e.CarriesKey ctSk)
    (hHappens : (Event.eval call outs).Happens C cfg
      (idealDec C (ledger (compilerBoxes sharedKey bc) h)))
    (hBounded : (Event.eval call outs).Bounded cfg ir) :
    ∃ code k llmi ws reg,
      Evaluated C cfg ir sharedKey bc (ledger (compilerBoxes sharedKey bc) h) call code k llmi ws
        reg ∧
      ∀ (j : Nat) (out : OutWord D), outs[j]? = some out →
        j < llmi.outputs.length ∧ j < cfg.lOut ∧ out = outWord C cfg call.execID code reg j := by
  obtain ⟨hTyped, hEval⟩ := hHappens
  obtain ⟨hR, hLbM, hLbR, hLbC, hLbO⟩ := hBounded
  rw [hR, hLbM, hLbR, hLbC, hLbO] at hEval
  obtain ⟨sk, lls, reg, reg', hKey, -, hLls, hLoad, hExec, hOuts⟩ := seEval_eq_some.mp hEval
  have hFile := serialize_written hComp.serialized
  have hCfg := hComp.buildable
  -- the shared key, then the sequence
  obtain ⟨bKey, hbKey, -, -, hAdKey, -, hMsgKey⟩ := idealDec_eq_some hKey
  have hSk : sk = sharedKey := by
    rw [← hMsgKey]
    exact hComp.sharedKey_eq hRun hKeys hbKey hAdKey
  subst hSk
  obtain ⟨ad, hAd, hDecLls, -⟩ := llsDecrypt_eq_some.mp hLls
  obtain ⟨bLls, hbLls, -, hNonce, hAdLls, hCt, hMsg⟩ := idealDec_eq_some hDecLls
  obtain ⟨code, hCode, rfl⟩ := mem_compilerBoxes_of_nonce hRun hbLls hNonce
  obtain ⟨k, hk⟩ := List.mem_iff_getElem?.mp hCode
  obtain ⟨llmi, hOf⟩ := hFile.code_of hk
  obtain ⟨ids, hWritten⟩ := hOf.written
  have hLlmi : llmi ∈ ir.instrs := List.mem_of_getElem? hOf.position
  have hAdEq : call.aells.ad (fileWidths cfg ir).lbM (fileWidths cfg ir).lbO = some code.ad := by
    rw [symBytes_injective hAdLls]
    exact hAd
  obtain ⟨hInstr, hFlagEq, hIDs, hOutCount, hIDsLt⟩ := hWritten.ad_fixes hTyped hAdEq
  -- the words
  obtain ⟨ws, hWsLen, hReg, hWords⟩ := ewordDecrypt_inv hLoad
  have hLen : ws.length = llmi.inputs.length := by
    rw [hWsLen, hIDs.length_eq, length_of_mapM_eq_some hWritten.inputIDs_eq]
  -- the sequence runs on the loaded registers
  have hWord : cfg.wordSize / 8 = 4 := by rw [hCfg.wordSize_eq]
  have hRegs := hCfg.regs_le
  have hLOut := hCfg.lOut_ge
  have hRLt := hCfg.r_lt
  have hRan : run llmi.seq (loadRegs call.junk.reg ws) = some reg' := by
    have hLoaded : reg = loadRegs call.junk.reg ws := by
      rw [hReg]
      rfl
    rw [← hLoaded, ← hExec, ← hMsg, hWord]
    exact (llsExecute_serializeLLS _ (bytelen_pos (by omega)) (bytelen_le_four (by omega)) hWord
      hWritten.msg_eq (hComp.seq_le llmi hLlmi)).symm
  refine ⟨code, k, llmi, ws, reg', ⟨hCode, hOf, hInstr, ?_, hLen, hIDs, hIDsLt, hWords, hRan⟩, ?_⟩
  · rw [← hCt, hWritten.lls_eq]
    rfl
  · intro j out hOut
    have hCount := outCount_le hCfg hOuts
    have hjLen := (List.getElem?_eq_some_iff.mp hOut).1
    have hLength := length_of_mapM_eq_some hOuts
    rw [List.length_range] at hLength
    -- both counts are below the bytes that hold them
    have hWide : 256 ≤ 256 ^ (fileWidths cfg ir).lbM :=
      Nat.le_self_pow (by have := bytelen_pos hComp.memoryCount_ge; show bytelen _ ≠ 0; omega) 256
    have hOutLt := hComp.lOut_lt
    rw [Nat.mod_eq_of_lt (by omega), Nat.mod_eq_of_lt hWritten.outputCount_lt] at hOutCount
    refine ⟨by omega, by omega, ?_⟩
    have hAt := (forall₂_of_mapM_eq_some hOuts).get (i := j) (by simpa using by omega) hjLen
    simp only [List.get_eq_getElem, List.getElem_range,
      (List.getElem?_eq_some_iff.mp hOut).2] at hAt
    unfold ewordOutput at hAt
    rw [outReg_eq hCfg (by omega)] at hAt
    split_ifs at hAt with hReg hFlag
    · rw [outWord, if_pos (hFlagEq ▸ hFlag)]
      exact (Option.some.inj hAt).symm
    · obtain ⟨b, hSeal, rfl⟩ := Option.map_eq_some_iff.mp hAt
      obtain ⟨-, rfl⟩ := Crypto.seal_eq_some.mp hSeal
      rw [outWord, if_neg (hFlagEq ▸ hFlag), hInstr]

/-- What is sealed is a word of the multi-instruction. -/
theorem Compiled.evaluated (hComp : Compiled C cfg ir ctSk sharedKey bc) {call : EvalCall D}
    {outs : List (OutWord D)} (hRun : Run C cfg (compilerBoxes sharedKey bc) h)
    (hKeys : ∀ e ∈ h, e.CarriesKey ctSk)
    (hHappens : (Event.eval call outs).Happens C cfg
      (idealDec C (ledger (compilerBoxes sharedKey bc) h)))
    (hBounded : (Event.eval call outs).Bounded cfg ir) :
    ∃ code k llmi ws reg,
      Evaluated C cfg ir sharedKey bc (ledger (compilerBoxes sharedKey bc) h) call code k llmi ws
        reg ∧
      ∀ b ∈ (Event.eval call outs).boxes, ∃ j < llmi.outputs.length, j < cfg.lOut ∧
        b = C.word call.execID ⟨code.instrID, j⟩ (reg (cfg.r - cfg.lOut + j)) := by
  obtain ⟨code, k, llmi, ws, reg, hEv, hOuts⟩ := hComp.evaluated_outs hRun hKeys hHappens hBounded
  refine ⟨code, k, llmi, ws, reg, hEv, fun b hb => ?_⟩
  obtain ⟨out, hOut, hBox⟩ := List.mem_filterMap.mp hb
  obtain ⟨j, hj⟩ := List.mem_iff_getElem?.mp hOut
  obtain ⟨hjLt, hjOut, rfl⟩ := hOuts j out hj
  refine ⟨j, hjLt, hjOut, ?_⟩
  unfold outWord at hBox
  split at hBox
  · cases hBox
  · exact (Option.some.inj hBox).symm

/-! ## Words are determined by their IDs -/

/-- Where a word of a run comes from. -/
inductive Origin (h : List (Event D)) (e : D) (id : ID) (w : Word) (b : Box D) : Prop where
  | input (Hp : D) (X : List Word) (cinc : List UInt8) (reply : InputReply D)
      (mem : Event.input e id.instrID Hp X cinc reply ∈ h) (index : X[id.outputID]? = some w)
  | eval (call : EvalCall D) (outs : List (OutWord D)) (mem : Event.eval call outs ∈ h)
      (mem_boxes : b ∈ (Event.eval call outs).boxes) (execID_eq : call.execID = e)
      (instrID_eq : call.aells.instrID = id.instrID)

/-- A word of an execution that a multi-instruction computes from other words of
the run. -/
structure Computed (C : Crypto D) (cfg : SEConfig) (ir : LLIRProgram) (sharedKey : List UInt8)
    (bc : Bytecode) (h : List (Event D)) (e : D) (id : ID) (w : Word) (code : LLMICode) (k : Nat)
    (llmi : LLMI) (ws : List Word) (init reg : Regs) : Prop where
  mem : code ∈ bc.llmis
  instrID_eq : code.instrID = id.instrID
  of : code.Of (C.encryptShared sharedKey) cfg ir (fileWidths cfg ir) k llmi
  lt : id.outputID < llmi.outputs.length
  length_eq : ws.length = llmi.inputs.length
  words : ∀ (j : Nat) (id' : ID), code.inputIDs[j]? = some id' →
    ∃ w', ws[j]? = some w' ∧ C.word e id' w' ∈ h.flatMap Event.boxes
  ran : run llmi.seq (loadRegs init ws) = some reg
  eq : w = reg (cfg.r - cfg.lOut + id.outputID)

omit [DecidableEq D] in
/-- The output IDs a record holds fit 32 bits. -/
theorem LLMICode.Of.outputID_lt (hComp : Compiled C cfg ir ctSk sharedKey bc) {code : LLMICode}
    {k : Nat} {llmi : LLMI}
    (hOf : code.Of (C.encryptShared sharedKey) cfg ir (fileWidths cfg ir) k llmi) :
    ∀ id ∈ code.inputIDs, id.outputID < 2 ^ 32 := by
  obtain ⟨ids, hWritten⟩ := hOf.written
  intro id hId
  have hReadable := (serialize_written hComp.serialized).readable hComp.memoryCount_ge
    hComp.buildable.lOut_ge
  have hLt := hWritten.inputIDs_lt id hId
  calc id.outputID < 256 ^ (fileWidths cfg ir).lbO := hLt.2
    _ ≤ 256 ^ 4 := Nat.pow_le_pow_right (by decide) hReadable.lbO_le
    _ = 2 ^ 32 := by decide

section Bounded

variable (hComp : Compiled C cfg ir ctSk sharedKey bc)
variable (hRun : Run C cfg (compilerBoxes sharedKey bc) h)
variable (hKeys : ∀ e ∈ h, e.CarriesKey ctSk) (hBounded : ∀ e ∈ h, e.Bounded cfg ir)

omit [DecidableEq D] in
theorem compilerBoxes_digestFree (sharedKey : List UInt8) (bc : Bytecode) :
    DigestFree (D := D) (compilerBoxes sharedKey bc) := by
  intro b hb
  obtain ⟨code, -, rfl⟩ := List.mem_map.mp hb
  exact ⟨⟨_, rfl⟩, ⟨_, rfl⟩⟩

include hRun hBounded in
/-- Accepted batches stay below the IDs of the multi-instructions. -/
theorem input_le {e : D} {i : Nat} {Hp : D} {X : List Word} {cinc : List UInt8}
    {reply : InputReply D} (hIn : Event.input e i Hp X cinc reply ∈ h) :
    i ≤ ir.inputs.length / cfg.lOut + 1 := by
  obtain ⟨post, pre, rfl⟩ := List.append_of_mem hIn
  obtain ⟨-, header, lbM, hash, reply', n, hStart, -, hCount, hi, -⟩ :=
    hRun.committed_of_input (compilerBoxes_digestFree sharedKey bc)
  have hBatches := hBounded (.start header lbM hash reply') (by simp [hStart]) n hCount
  omega

omit [DecidableEq D] in
include hComp in
/-- A record's ID is above every batch. -/
theorem Compiled.lt_instrID {code : LLMICode} (hCode : code ∈ bc.llmis) :
    ir.inputs.length / cfg.lOut + 1 < code.instrID := by
  obtain ⟨k, hk⟩ := List.mem_iff_getElem?.mp hCode
  obtain ⟨llmi, -, ⟨_, hWritten⟩, -⟩ := (serialize_written hComp.serialized).code_of hk
  rw [hWritten.instrID_eq]
  unfold LLIRProgram.instrID
  omega

include hComp hRun hKeys hBounded in
/-- The evaluations of a bounded run, as they happened. -/
theorem Compiled.evaluated_of_mem {call : EvalCall D} {outs : List (OutWord D)}
    {post pre : List (Event D)} (hSplit : h = post ++ .eval call outs :: pre) :
    ∃ code k llmi ws reg,
      Evaluated C cfg ir sharedKey bc (ledger (compilerBoxes sharedKey bc) pre) call code k llmi ws
        reg ∧
      ∀ b ∈ (Event.eval call outs).boxes, ∃ j < llmi.outputs.length, j < cfg.lOut ∧
        b = C.word call.execID ⟨code.instrID, j⟩ (reg (cfg.r - cfg.lOut + j)) := by
  subst hSplit
  obtain ⟨hPre, hHappens⟩ := hRun.of_append
  exact hComp.evaluated hPre (fun e he => hKeys e (by simp [he])) hHappens
    (hBounded _ (by simp))

include hComp hRun hKeys hBounded in
/-- The words of a bounded run; their output IDs are small. -/
theorem Compiled.origin {b : Box D} (hb : b ∈ h.flatMap Event.boxes) {e : D} {id : ID}
    (hId : id.instrID < 2 ^ 32 ∧ id.outputID < 2 ^ 32) (hAd : b.ad = wordAD e id) :
    ∃ w, b = C.word e id w ∧ id.outputID < cfg.lOut ∧ Origin h e id w b := by
  have hOutLt := hComp.lOut_lt
  cases hRun.boxKind hb with
  | key header lbM hash reply sk hMem hOpen hEq =>
    rw [hEq] at hAd
    exact absurd hAd.symm wordAD_ne_nil
  | token execID i H hEq =>
    rw [hEq] at hAd
    exact absurd hAd.symm (word_ad_ne_token_ad (w := 0))
  | input execID i Hp X cinc reply j w hMem hIndex hLt hLen hEq =>
    obtain ⟨hj, -⟩ := List.getElem?_eq_some_iff.mp hIndex
    rw [hEq] at hAd
    obtain ⟨rfl, rfl⟩ := wordAD_inj ⟨hLt, by show j < _; omega⟩ hId hAd
    exact ⟨w, hEq, by show j < _; omega, .input Hp X cinc reply hMem hIndex⟩
  | output call outs j₀ w₀ hMem hBox _ =>
    obtain ⟨post, pre, hSplit⟩ := List.append_of_mem hMem
    obtain ⟨code, k, llmi, ws, reg, hEv, hBoxes⟩ :=
      hComp.evaluated_of_mem hRun hKeys hBounded hSplit
    obtain ⟨j, hj, hjLt, hEq⟩ := hBoxes b hBox
    obtain ⟨ids, hWritten⟩ := hEv.of.written
    rw [hEq] at hAd
    obtain ⟨rfl, rfl⟩ := wordAD_inj ⟨hWritten.instrID_lt, by show j < _; omega⟩ hId hAd
    exact ⟨_, hEq, hjLt, .eval call outs hMem hBox rfl hEv.instrID_eq⟩

include hComp hRun hKeys hBounded in
/-- The words an evaluation loads have exactly the IDs the compiler gave its
inputs: an output ID with other high bytes matches no word of the run. -/
theorem Compiled.loaded {post pre : List (Event D)} {call : EvalCall D} {outs : List (OutWord D)}
    (hSplit : h = post ++ .eval call outs :: pre) (hTyped : call.aells.Typed) {code : LLMICode}
    {k : Nat} {llmi : LLMI} {ws : List Word} {reg : Regs}
    (hEv : Evaluated C cfg ir sharedKey bc (ledger (compilerBoxes sharedKey bc) pre) call code k
      llmi
      ws reg) {j : Nat} {id : ID} (hId : code.inputIDs[j]? = some id) :
    ∃ w, ws[j]? = some w ∧ C.word call.execID id w ∈ h.flatMap Event.boxes := by
  -- the ID the host presented at this position
  obtain ⟨hjLt, hIdEq⟩ := List.getElem?_eq_some_iff.mp hId
  have hjLt' : j < call.aells.inputIDs.length := by rw [hEv.ids_agree.length_eq]; exact hjLt
  have hHost : call.aells.inputIDs[j]? = some call.aells.inputIDs[j] :=
    List.getElem?_eq_getElem hjLt'
  have hAgree := hEv.ids_agree.get hjLt' hjLt
  simp only [List.get_eq_getElem, hIdEq] at hAgree
  obtain ⟨b, hb, hAd, -, hWord⟩ := hEv.words j _ hHost
  have hPre : b ∈ pre.flatMap Event.boxes := mem_boxes_of_wordAD hb hAd
  have hMem : b ∈ h.flatMap Event.boxes := by
    obtain ⟨e, he, hBox⟩ := List.mem_flatMap.mp hPre
    exact List.mem_flatMap.mpr ⟨e, by simp [hSplit, he], hBox⟩
  have hHostLt := hTyped.inputIDs_lt _ (List.mem_of_getElem? hHost)
  obtain ⟨w, rfl, hSmall, -⟩ := hComp.origin hRun hKeys hBounded hMem hHostLt hAd
  have hWide : call.aells.inputIDs[j].outputID < 256 ^ bytelen cfg.lOut :=
    lt_pow_of_lt_of_clog hSmall
  have hSame : call.aells.inputIDs[j] = id := by
    have hOut := hAgree.2
    rw [Nat.mod_eq_of_lt hWide, Nat.mod_eq_of_lt (hEv.ids_lt id (List.mem_of_getElem? hId))] at hOut
    obtain ⟨a, b⟩ := id
    simp only at hAgree hOut
    rw [← hAgree.1, ← hOut]
  rw [hSame] at hMem
  refine ⟨w, ?_, hMem⟩
  rw [hWord]
  show some (BitVec.ofNat 32 (ofBE (wordToBytes w))) = some w
  rw [ofBE_wordToBytes]

include hComp hRun hKeys hBounded in
/-- An evaluated word is computed from words of the run. -/
theorem Compiled.computed {call : EvalCall D} {outs : List (OutWord D)}
    (hMem : Event.eval call outs ∈ h) {id : ID} {w : Word}
    (hId : id.instrID < 2 ^ 32 ∧ id.outputID < 2 ^ 32)
    (hBox : C.word call.execID id w ∈ (Event.eval call outs).boxes) :
    ∃ code k llmi ws reg,
      Computed C cfg ir sharedKey bc h call.execID id w code k llmi ws call.junk.reg reg := by
  obtain ⟨post, pre, hSplit⟩ := List.append_of_mem hMem
  obtain ⟨code, k, llmi, ws, reg, hEv, hBoxes⟩ := hComp.evaluated_of_mem hRun hKeys hBounded hSplit
  have hTyped : call.aells.Typed := by
    rw [hSplit] at hRun
    exact hRun.of_append.2.1
  obtain ⟨j, hj, hjLt, hEq⟩ := hBoxes _ hBox
  obtain ⟨ids, hWritten⟩ := hEv.of.written
  have hOutLt := hComp.lOut_lt
  obtain ⟨-, rfl⟩ := wordAD_inj hId ⟨hWritten.instrID_lt, by show j < _; omega⟩
    (congrArg Box.ad hEq)
  refine ⟨code, k, llmi, ws, reg, hEv.mem, rfl, hEv.of, hj, hEv.length_eq, ?_, hEv.ran, ?_⟩
  · intro j id' hId'
    exact hComp.loaded hRun hKeys hBounded hSplit hTyped hEv hId'
  · have hMsg := congrArg Box.msg hEq
    exact BitVec.eq_of_toNat_eq (toBE_inj w.isLt (BitVec.isLt _) hMsg)

end Bounded

end Evaluations

/-! ## The example program

The program adds its two inputs (ID 2) and triples the sum (ID 3). -/

/-- The file of the example program. -/
def tripleSumCode : Bytecode :=
  (serialize (symbolicCrypto.encryptShared (List.replicate 16 3)) (List.replicate 64 3) seSmall
    tripleSum).get (by decide +kernel)

/-- A multi-instruction of one instruction that reads only inputs. -/
theorem initialised_singleton {cfg : SEConfig} {llmi : LLMI} {i : LLI} (hSeq : llmi.seq = [i])
    (hReads : ∀ a ∈ i.memInputs, a < llmi.inputs.length)
    (hOuts : ∀ j < llmi.outputs.length, cfg.r - cfg.lOut + j = i.dst) : llmi.Initialised cfg := by
  constructor
  · intro pre i' post hSplit a ha
    have hLen := congrArg List.length (hSeq.symm.trans hSplit)
    obtain rfl : pre = [] := List.length_eq_zero_iff.mp (by simp at hLen; omega)
    have hHead := hSeq.symm.trans hSplit
    simp only [List.nil_append, List.cons.injEq] at hHead
    exact Or.inl (hReads a (hHead.1 ▸ ha))
  · intro j hj
    right
    rw [hSeq, hOuts j hj]
    exact List.mem_singleton_self _

/-- The example program is compiled as the results above ask for. -/
theorem tripleSum_compiled :
    Compiled symbolicCrypto seSmall tripleSum (List.replicate 64 3) (List.replicate 16 3)
      tripleSumCode := by
  refine ⟨buildable_of_shipped seSmall List.mem_cons_self, by decide, by decide,
    (Option.some_get _).symm, rfl, by decide, ?_⟩
  intro llmi hLlmi
  simp only [tripleSum, List.mem_cons, List.not_mem_nil, or_false] at hLlmi
  rcases hLlmi with rfl | rfl <;> exact initialised_singleton rfl (by decide) (by decide)

end Obscure
