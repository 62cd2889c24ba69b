import Mathlib.Logic.Equiv.List
import Obscure.Runtime.Refinement

/-!
# OBSCURE — the element against an arbitrary host

The host may call `SEstart`, `SEinput` and `SEeval` any number of times, in any
order and with any arguments, and it keeps every answer. A run is the list of
the calls that returned, the newest first; a call that exits leaves nothing
behind. The AEAD is ideal: a ciphertext decrypts only under the key, nonce and
associated data of an encryption made earlier, by the element or (for the
sequences of the program) by the compiler.

The element keeps no state. What links the calls of one execution is the token
`C_i^in`: it can only be decrypted by the caller that presents the chain value
it was issued for, and it is only issued by `SEstart`, for the last batch, or by
`SEinput`, one batch down. So every token vouches for a chain of accepted
batches that ends in the hash given to `SEstart`.

Main result: `Run.inputs_committed`.
-/

namespace Obscure

open Lib

/-! ## Runs -/

/-- The arguments of `SEeval`, with the fresh memory it will find. -/
structure EvalCall (D : Type) where
  junk : Junk
  execID : D
  esharedkey : List UInt8
  aells : AELLS
  Cx : List (List UInt8)
  r : Nat
  lbM : Nat
  lbR : Nat
  lbC : Nat
  lbO : Nat

/-- A call of the element that returned. -/
inductive Event (D : Type) where
  | start (header : List UInt8) (lbM : Nat) (hash : D) (reply : StartReply D)
  | input (execID : D) (i : Nat) (Hp : D) (X : List Word) (cinc : List UInt8)
      (reply : InputReply D)
  | eval (call : EvalCall D) (outs : List (OutWord D))

/-- The fields of the struct fit their C types. -/
structure AELLS.Typed (aells : AELLS) : Prop where
  revealFlag_lt : aells.revealFlag < 2 ^ 8
  outCount_lt : aells.outCount < 2 ^ 32
  instrID_lt : aells.instrID < 2 ^ 32
  inputIDs_lt : ∀ id ∈ aells.inputIDs, id.instrID < 2 ^ 32 ∧ id.outputID < 2 ^ 32

/-- The encryption in an output slot. -/
def OutWord.box? {D : Type} : OutWord D → Option (Box D)
  | .clear _ => none
  | .sealed b => some b

/-- The encryptions a call made. -/
def Event.boxes {D : Type} : Event D → List (Box D)
  | .start _ _ _ reply => [reply.esharedkey, reply.cin]
  | .input _ _ _ _ _ reply => reply.cinp :: reply.words
  | .eval _ outs => outs.filterMap OutWord.box?

/-- All encryptions so far, those of the compiler included. -/
def ledger {D : Type} (init : List (Box D)) (h : List (Event D)) : List (Box D) :=
  init ++ h.flatMap Event.boxes

section Model

variable {D : Type} [DecidableEq D] (C : Crypto D) (cfg : SEConfig)

/-- Ideal decryption: look the ciphertext up among the encryptions made. -/
def idealDec (log : List (Box D)) : Decrypt D := fun key nonce ad c =>
  (log.find? fun b => b.key = key ∧ b.nonce = nonce ∧ b.ad = ad ∧ C.ct b = c).map Box.msg

/-- The call returns what the event records. -/
def Event.Happens (dec : Decrypt D) : Event D → Prop
  | .start header lbM hash reply => seStart C cfg header lbM hash = some reply
  | .input execID i Hp X cinc reply => seInput C dec cfg execID i Hp X cinc = some reply
  | .eval call outs => call.aells.Typed ∧
      seEval C dec cfg call.junk call.execID call.esharedkey call.aells call.Cx call.r call.lbM
        call.lbR call.lbC call.lbO = some outs

/-- The runs of the element, the newest call first; `init` are the encryptions
the host starts with. -/
inductive Run (init : List (Box D)) : List (Event D) → Prop where
  | nil : Run init []
  | step {h : List (Event D)} {e : Event D} :
      Run init h → e.Happens C cfg (idealDec C (ledger init h)) → Run init (e :: h)

/-- The encryptions of the compiler: no digest occurs in them. -/
def DigestFree (init : List (Box D)) : Prop :=
  ∀ b ∈ init, (∃ nonce, b.nonce = symBytes nonce) ∧ ∃ ad, b.ad = symBytes ad

end Model

section Runs

variable {D : Type} [DecidableEq D] {C : Crypto D} {cfg : SEConfig} {init : List (Box D)}
variable {h : List (Event D)}

/-- What is opened is a box of the log, with the same key, nonce, data and ciphertext. -/
theorem idealDec_eq_some {log : List (Box D)} {key : List UInt8} {nonce ad : List (Sym D)}
    {c m : List UInt8} (hDec : idealDec C log key nonce ad c = some m) :
    ∃ b ∈ log, b.key = key ∧ b.nonce = nonce ∧ b.ad = ad ∧ C.ct b = c ∧ b.msg = m := by
  obtain ⟨b, hFind, rfl⟩ := Option.map_eq_some_iff.mp hDec
  have hProp := List.find?_some hFind
  simp only [decide_eq_true_eq] at hProp
  obtain ⟨hKey, hNonce, hAd, hCt⟩ := hProp
  exact ⟨b, List.mem_of_find?_eq_some hFind, hKey, hNonce, hAd, hCt, rfl⟩

/-- What was encrypted decrypts to its message. -/
theorem idealDec_of_mem {dec : Decrypt D} (hC : C.Correct dec) {log : List (Box D)} {b : Box D}
    (hb : b ∈ log) :
    idealDec C log b.key b.nonce b.ad (C.ct b) = some b.msg := by
  have hSome : (log.find? fun b' => b'.key = b.key ∧ b'.nonce = b.nonce ∧ b'.ad = b.ad ∧
      C.ct b' = C.ct b).isSome := by
    rw [List.find?_isSome]
    exact ⟨b, hb, by simp⟩
  obtain ⟨b', hFind⟩ := Option.isSome_iff_exists.mp hSome
  have hProp := List.find?_some hFind
  simp only [decide_eq_true_eq] at hProp
  obtain ⟨hKey, hNonce, hAd, hCt⟩ := hProp
  -- the ciphertext fixes the message
  have hMsg := hC.dec_ct b'
  rw [hKey, hNonce, hAd, hCt, hC.dec_ct b, Option.some.injEq] at hMsg
  rw [idealDec, hFind, Option.map_some, hMsg]

omit [DecidableEq D] in
/-- The ledger grows by what a call encrypts. -/
theorem ledger_cons (init : List (Box D)) (e : Event D) (h : List (Event D)) {b : Box D} :
    b ∈ ledger init (e :: h) ↔ b ∈ e.boxes ∨ b ∈ ledger init h := by
  simp only [ledger, List.flatMap_cons, List.mem_append]
  tauto

/-- Every event of a run happened after some prefix of it. -/
theorem Run.of_append {post pre : List (Event D)} {e : Event D}
    (hRun : Run C cfg init (post ++ e :: pre)) :
    Run C cfg init pre ∧ e.Happens C cfg (idealDec C (ledger init pre)) := by
  induction post with
  | nil =>
    cases hRun with
    | step hPre hHappens => exact ⟨hPre, hHappens⟩
  | cons e' post ih =>
    cases hRun with
    | step hRest _ => exact ih hRest

/-- Every event of a run has happened. -/
theorem Run.happens (hRun : Run C cfg init h) {e : Event D} (he : e ∈ h) :
    ∃ dec, e.Happens C cfg dec := by
  obtain ⟨post, pre, rfl⟩ := List.append_of_mem he
  exact ⟨_, hRun.of_append.2⟩

/-! ## Strings of symbols -/

omit [DecidableEq D] in
/-- Bytes are different symbols. -/
theorem symBytes_injective : Function.Injective (symBytes (D := D)) :=
  List.map_injective_iff.mpr fun _ _ h => Sym.byte.inj h

omit [DecidableEq D] in
/-- A digest is not a list of bytes. -/
theorem digest_ne_symBytes {d : D} {rest : List (Sym D)} {bs : List UInt8} :
    Sym.digest d :: rest ≠ symBytes bs := by
  cases bs <;> simp [symBytes]

omit [DecidableEq D] in
/-- A token is determined by its associated data. -/
theorem token_inj {e e' H H' : D} {i i' : Nat} (hi : i < 2 ^ 32) (hi' : i' < 2 ^ 32)
    (h : (C.token e i H).ad = (C.token e' i' H').ad) : e = e' ∧ i = i' ∧ H = H' := by
  simp only [Crypto.token, List.cons.injEq, Sym.digest.injEq] at h
  obtain ⟨rfl, hRest⟩ := h
  have hLen : (symBytes (D := D) (toBE 4 i)).length = (symBytes (D := D) (toBE 4 i')).length := by
    simp [symBytes]
  obtain ⟨hNum, hExec⟩ := List.append_inj hRest hLen
  have hBytes := symBytes_injective hNum
  simp only [List.cons.injEq, Sym.digest.injEq, and_true] at hExec
  exact ⟨hExec, toBE_inj hi hi' hBytes, rfl⟩

omit [DecidableEq D] in
/-- The box of a word is not a token. -/
theorem word_ad_ne_token_ad {e e' H : D} {i : Nat} {id : ID} {w : Word} :
    (C.word e id w).ad ≠ (C.token e' i H).ad := by
  have hHead : ∃ b rest, symBytes (D := D) (toBE 4 id.instrID) = .byte b :: rest :=
    ⟨_, _, rfl⟩
  obtain ⟨b, rest, hHead⟩ := hHead
  simp [Crypto.word, Crypto.token, wordAD, hHead]

/-! ## What the events encrypt -/

omit [DecidableEq D] in
/-- An output of `SEeval` that is not revealed is a word of the
multi-instruction, taken from one of its output registers. -/
theorem mem_boxes_of_outputs {execID : D} {aells : AELLS} {reg : Regs} {r : Nat} {js : List Nat}
    {outs : List (OutWord D)} {b : Box D}
    (hOuts : js.mapM (ewordOutput C cfg execID aells reg r) = some outs)
    (hb : b ∈ outs.filterMap OutWord.box?) :
    ∃ j ∈ js, outReg cfg r j < r ∧ aells.revealFlag = 0 ∧
      b = C.word execID ⟨aells.instrID, j⟩ (reg (outReg cfg r j)) := by
  obtain ⟨out, hOut, hBox⟩ := List.mem_filterMap.mp hb
  obtain ⟨j, hj, hWord⟩ := exists_left_of_forall₂ (forall₂_of_mapM_eq_some hOuts) hOut
  unfold ewordOutput at hWord
  split at hWord
  case isFalse => cases hWord
  case isTrue hReg =>
    simp only at hWord
    split at hWord
    case isTrue =>
      obtain rfl := Option.some.inj hWord
      cases hBox
    case isFalse hFlag =>
      obtain ⟨b', hSeal, rfl⟩ := Option.map_eq_some_iff.mp hWord
      obtain ⟨-, rfl⟩ := Crypto.seal_eq_some.mp hSeal
      obtain rfl := Option.some.inj hBox
      exact ⟨j, hj, hReg, not_not.mp hFlag, rfl⟩

/-! ## Tokens -/

/-- The input count `SEstart` reads from a header. -/
def headerCount (header : List UInt8) (lbM : Nat) : Option Nat :=
  ((loadU32 lbM).run ((header.take (64 + lbM)).drop 64)).map Prod.fst

/-- What a token for chain value `H` at batch `i` vouches for: an earlier
`SEstart` of the execution, and batches from `i + 1` to the last one, each
accepted before, that take the chain from `H` to the hash of that start. -/
def Committed (C : Crypto D) (cfg : SEConfig) (h : List (Event D)) (execID : D) (i : Nat)
    (H : D) : Prop :=
  ∃ header lbM hash reply n, Event.start header lbM hash reply ∈ h ∧ reply.execID = execID ∧
    headerCount header lbM = some n ∧ i ≤ batchCount cfg.lOut n ∧
    ∃ Xs : List (List Word), Xs.length = batchCount cfg.lOut n - i ∧
      (∀ k X, Xs[k]? = some X →
        ∃ Hp cinc reply, Event.input execID (i + 1 + k) Hp X cinc reply ∈ h) ∧
      hash = Xs.foldl C.hashchain H

omit [DecidableEq D] in
/-- What is committed stays so. -/
theorem Committed.mono {h : List (Event D)} {e : Event D} {execID : D} {i : Nat} {H : D}
    (hCom : Committed C cfg h execID i H) : Committed C cfg (e :: h) execID i H := by
  obtain ⟨header, lbM, hash, reply, n, hStart, hExec, hCount, hi, Xs, hLen, hIn, hChain⟩ := hCom
  refine ⟨header, lbM, hash, reply, n, List.mem_cons_of_mem e hStart, hExec, hCount, hi, Xs, hLen,
    ?_, hChain⟩
  intro k X hX
  obtain ⟨Hp, cinc, reply', hMem⟩ := hIn k X hX
  exact ⟨Hp, cinc, reply', List.mem_cons_of_mem e hMem⟩

omit [DecidableEq D] in
/-- The number of batches is a number of 32 bits. -/
theorem batchCount_lt (lOut n : Nat) : batchCount lOut n < 2 ^ 32 :=
  Nat.lt_of_le_of_lt (Nat.div_le_self _ _) (Nat.mod_lt _ (by decide))

omit [DecidableEq D] in
/-- The token of a start vouches for the empty chain. -/
theorem committed_start {header : List UInt8} {lbM : Nat} {hash : D} {reply : StartReply D}
    (hStart : seStart C cfg header lbM hash = some reply) :
    ∃ i, i < 2 ^ 32 ∧ reply.cin = C.token reply.execID i hash ∧
      Committed C cfg (.start header lbM hash reply :: h) reply.execID i hash := by
  obtain ⟨sharedKey, n, rest, -, -, hN, -, -, hCin, -, -⟩ := seStart_eq_some.mp hStart
  refine ⟨batchCount cfg.lOut n, batchCount_lt _ _, hCin, header, lbM, hash, reply, n,
    List.mem_cons_self, rfl, ?_, Nat.le_refl _, [], ?_, ?_, rfl⟩
  · rw [headerCount, hN]
    rfl
  · simp
  · intro k X hX
    simp at hX

omit [DecidableEq D] in
/-- Accepting batch `i` moves the commitment one batch down. -/
theorem Committed.input {execID : D} {i : Nat} {Hp : D} {X : List Word} {cinc : List UInt8}
    {reply : InputReply D} (hi : 1 ≤ i) (hCom : Committed C cfg h execID i (C.hashchain Hp X)) :
    Committed C cfg (.input execID i Hp X cinc reply :: h) execID (i - 1) Hp := by
  obtain ⟨header, lbM, hash, reply', n, hStart, hExec, hCount, hLe, Xs, hLen, hIn, hChain⟩ := hCom
  refine ⟨header, lbM, hash, reply', n, List.mem_cons_of_mem _ hStart, hExec, hCount, by omega,
    X :: Xs, by rw [List.length_cons]; omega, ?_, hChain⟩
  intro k X' hX'
  cases k with
  | zero =>
    obtain rfl : X = X' := by simpa using hX'
    refine ⟨Hp, cinc, reply, ?_⟩
    rw [show i - 1 + 1 + 0 = i by omega]
    exact List.mem_cons_self
  | succ k =>
    obtain ⟨Hp', cinc', reply'', hMem⟩ := hIn k X' (by simpa using hX')
    refine ⟨Hp', cinc', reply'', ?_⟩
    rw [show i - 1 + 1 + (k + 1) = i + 1 + k by omega]
    exact List.mem_cons_of_mem _ hMem

/-- The token an accepted batch was presented with is in the ledger. -/
theorem token_of_input {log : List (Box D)} {execID : D} {i : Nat} {Hp : D} {X : List Word}
    {cinc : List UInt8} {reply : InputReply D}
    (hInput : seInput C (idealDec C log) cfg execID i Hp X cinc = some reply) :
    ∃ b ∈ log, b.ad = (C.token execID i (C.hashchain Hp X)).ad := by
  obtain ⟨-, -, hDec, -, -⟩ := seInput_eq_some.mp hInput
  obtain ⟨b, hb, -, -, hAd, -, -⟩ := idealDec_eq_some hDec
  exact ⟨b, hb, hAd⟩

/-- **Every token vouches for a chain of accepted batches.** By induction on the
run: a start issues the token of the empty chain, an accepted batch extends the
chain of the token it was presented with, and nothing else issues tokens. -/
theorem Run.committed (hInit : DigestFree init) (hRun : Run C cfg init h) {b : Box D}
    (hb : b ∈ ledger init h) {execID : D} {i : Nat} {H : D} (hi : i < 2 ^ 32)
    (hAd : b.ad = (C.token execID i H).ad) : Committed C cfg h execID i H := by
  induction hRun generalizing b execID i H with
  | nil =>
    obtain ⟨-, ad, hBytes⟩ := hInit b (by simpa [ledger] using hb)
    exact absurd (hAd.symm.trans hBytes) digest_ne_symBytes
  | @step h e hPre hHappens ih =>
    rcases (ledger_cons init e h).mp hb with hNew | hOld
    · cases e with
      | start header lbM hash reply =>
        obtain ⟨L, hL, hCin, hCom⟩ := committed_start (h := h) hHappens
        obtain ⟨sharedKey, n, rest, -, -, -, -, hKey, -⟩ := seStart_eq_some.mp hHappens
        rcases List.mem_cons.mp hNew with rfl | hNew
        · rw [hKey] at hAd
          cases hAd
        · rw [List.mem_singleton.mp hNew, hCin] at hAd
          obtain ⟨rfl, rfl, rfl⟩ := token_inj hL hi hAd
          exact hCom
      | input execID' i' Hp X cinc reply =>
        obtain ⟨⟨hPos, hLt, -⟩, -, -, -, rfl⟩ := seInput_eq_some.mp hHappens
        rcases List.mem_cons.mp hNew with rfl | hNew
        · obtain ⟨rfl, rfl, rfl⟩ := token_inj (by omega) hi hAd
          obtain ⟨b', hb', hAd'⟩ := token_of_input hHappens
          exact (ih hb' hLt hAd').input hPos
        · obtain ⟨x, -, rfl⟩ := List.mem_map.mp hNew
          exact absurd hAd word_ad_ne_token_ad
      | eval call outs =>
        obtain ⟨-, hEval⟩ := hHappens
        obtain ⟨_, _, _, _, -, -, -, -, -, hOuts⟩ := seEval_eq_some.mp hEval
        obtain ⟨j, -, -, -, rfl⟩ := mem_boxes_of_outputs hOuts hNew
        exact absurd hAd word_ad_ne_token_ad
    · exact (ih hOld hi hAd).mono

/-! ## Uniqueness -/

omit [DecidableEq D] in
/-- Words can be read back from their bytes. -/
theorem flatMap_wordToBytes_inj {X X' : List Word}
    (hEq : X.flatMap wordToBytes = X'.flatMap wordToBytes) : X = X' := by
  induction X generalizing X' with
  | nil =>
    cases X' with
    | nil => rfl
    | cons w X' => simp [wordToBytes, toBE] at hEq
  | cons w X ih =>
    cases X' with
    | nil => simp [wordToBytes, toBE] at hEq
    | cons w' X' =>
      rw [List.flatMap_cons, List.flatMap_cons] at hEq
      obtain ⟨hHead, hTail⟩ := List.append_inj hEq (by simp [wordToBytes])
      rw [ih hTail, BitVec.eq_of_toNat_eq (toBE_inj w.isLt w'.isLt hHead)]

omit [DecidableEq D] in
/-- A link of the chain has one predecessor and one batch. -/
theorem hashchain_inj (hHash : Function.Injective C.hash) {Hp Hp' : D} {X X' : List Word}
    (hEq : C.hashchain Hp X = C.hashchain Hp' X') : Hp = Hp' ∧ X = X' := by
  have hMsg := hHash hEq
  simp only [List.cons.injEq, Sym.digest.injEq] at hMsg
  exact ⟨hMsg.1, flatMap_wordToBytes_inj (symBytes_injective hMsg.2)⟩

omit [DecidableEq D] in
/-- Chains of one length that meet started at one value. -/
theorem foldl_hashchain_inj (hHash : Function.Injective C.hash) {Xs Xs' : List (List Word)}
    {H H' : D} (hLen : Xs.length = Xs'.length)
    (hEq : Xs.foldl C.hashchain H = Xs'.foldl C.hashchain H') : H = H' := by
  induction Xs generalizing Xs' H H' with
  | nil =>
    obtain rfl : Xs' = [] := List.length_eq_zero_iff.mp hLen.symm
    exact hEq
  | cons X Xs ih =>
    cases Xs' with
    | nil => cases hLen
    | cons X' Xs' => exact (hashchain_inj hHash (ih (Nat.succ.inj hLen) hEq)).1

/-- The execution ID fixes the hash and the input count of a start. -/
theorem Run.start_inj (hHash : Function.Injective C.hash) (hRun : Run C cfg init h)
    {header header' : List UInt8} {lbM lbM' : Nat} {hash hash' : D} {reply reply' : StartReply D}
    (hStart : Event.start header lbM hash reply ∈ h)
    (hStart' : Event.start header' lbM' hash' reply' ∈ h) (hExec : reply.execID = reply'.execID) :
    hash = hash' ∧ headerCount header lbM = headerCount header' lbM' := by
  obtain ⟨dec, hHappens⟩ := hRun.happens hStart
  obtain ⟨dec', hHappens'⟩ := hRun.happens hStart'
  obtain ⟨_, _, _, hLen, -, -, hID, -⟩ := seStart_eq_some.mp hHappens
  obtain ⟨_, _, _, hLen', -, -, hID', -⟩ := seStart_eq_some.mp hHappens'
  rw [hID, hID'] at hExec
  have hMsg := List.append_cancel_left (hHash hExec)
  simp only [List.cons.injEq, Sym.digest.injEq] at hMsg
  have hHeader := symBytes_injective hMsg.2
  have hLbM : lbM = lbM' := by
    have := congrArg List.length hHeader
    rw [List.length_take, List.length_take] at this
    omega
  subst hLbM
  exact ⟨hMsg.1, by rw [headerCount, headerCount, hHeader]⟩

/-- Commitments of one execution at one batch agree on the chain value. -/
theorem Run.committed_inj (hHash : Function.Injective C.hash) (hRun : Run C cfg init h)
    {execID : D} {i : Nat} {H H' : D} (hCom : Committed C cfg h execID i H)
    (hCom' : Committed C cfg h execID i H') : H = H' := by
  obtain ⟨header, lbM, hash, reply, n, hStart, hExec, hCount, -, Xs, hLen, -, hChain⟩ := hCom
  obtain ⟨header', lbM', hash', reply', n', hStart', hExec', hCount', -, Xs', hLen', -,
    hChain'⟩ := hCom'
  obtain ⟨rfl, hSame⟩ := hRun.start_inj hHash hStart hStart' (hExec.trans hExec'.symm)
  obtain rfl : n = n' := by
    rw [hCount, hCount', Option.some.injEq] at hSame
    exact hSame
  exact foldl_hashchain_inj hHash (hLen.trans hLen'.symm) (hChain.symm.trans hChain')

omit [DecidableEq D] in
/-- A commitment stays one as the run goes on. -/
theorem Committed.append {pre : List (Event D)} {execID : D} {i : Nat} {H : D}
    (hCom : Committed C cfg pre execID i H) (post : List (Event D)) :
    Committed C cfg (post ++ pre) execID i H := by
  induction post with
  | nil => exact hCom
  | cons e post ih => exact ih.mono

/-- What an accepted batch was presented with. -/
theorem Run.committed_of_input (hInit : DigestFree init) {post pre : List (Event D)} {execID : D}
    {i : Nat} {Hp : D} {X : List Word} {cinc : List UInt8} {reply : InputReply D}
    (hRun : Run C cfg init (post ++ .input execID i Hp X cinc reply :: pre)) :
    (i = 1 → Hp = C.zero) ∧ Committed C cfg pre execID i (C.hashchain Hp X) := by
  obtain ⟨hPre, hHappens⟩ := hRun.of_append
  obtain ⟨⟨-, hLt, -⟩, hZero, -⟩ := seInput_eq_some.mp hHappens
  obtain ⟨b, hb, hAd⟩ := token_of_input hHappens
  exact ⟨hZero, hPre.committed hInit hb hLt hAd⟩

/-- Two accepted batches of one execution at one index are the same. -/
theorem Run.input_inj (hHash : Function.Injective C.hash) (hInit : DigestFree init)
    (hRun : Run C cfg init h) {execID : D} {i : Nat} {Hp Hp' : D} {X X' : List Word}
    {cinc cinc' : List UInt8} {reply reply' : InputReply D}
    (hIn : Event.input execID i Hp X cinc reply ∈ h)
    (hIn' : Event.input execID i Hp' X' cinc' reply' ∈ h) : X = X' ∧ Hp = Hp' := by
  have hCom : ∀ {Hp X cinc reply}, Event.input execID i Hp X cinc reply ∈ h →
      Committed C cfg h execID i (C.hashchain Hp X) := by
    intro Hp X cinc reply hMem
    obtain ⟨post, pre, rfl⟩ := List.append_of_mem hMem
    have hPre := (hRun.committed_of_input hInit).2
    rw [List.append_cons]
    exact hPre.append _
  obtain ⟨hHp, hX⟩ := hashchain_inj hHash (hRun.committed_inj hHash (hCom hIn) (hCom hIn'))
  exact ⟨hX, hHp⟩

/-- **Inputs are committed before any input word is issued.** A batch that
`SEinput` accepts continues a chain of batches accepted before for the same
execution, down from the hash of an earlier `SEstart`; so all batches accepted
for one index of one execution are the same. -/
theorem Run.inputs_committed (hHash : Function.Injective C.hash) (hInit : DigestFree init)
    (hRun : Run C cfg init h) :
    (∀ post pre execID i Hp X cinc reply,
      h = post ++ Event.input execID i Hp X cinc reply :: pre →
      (i = 1 → Hp = C.zero) ∧ Committed C cfg pre execID i (C.hashchain Hp X)) ∧
    ∀ execID i Hp X cinc reply Hp' X' cinc' reply',
      Event.input execID i Hp X cinc reply ∈ h → Event.input execID i Hp' X' cinc' reply' ∈ h →
      X = X' ∧ Hp = Hp' := by
  constructor
  · rintro post pre execID i Hp X cinc reply rfl
    exact hRun.committed_of_input hInit
  · intro execID i Hp X cinc reply Hp' X' cinc' reply' hIn hIn'
    exact hRun.input_inj hHash hInit hIn hIn'

end Runs

/-! ## A symbolic instance

Digests are natural numbers and the hash is an encoding of symbol strings, so it
is injective; ciphertexts carry their message in the open, which an ideal AEAD
does not mind. -/

/-- A symbol as a number. -/
def Sym.code : Sym Nat → Nat
  | .byte b => 2 * b.toNat
  | .digest d => 2 * d + 1

/-- Symbols have different codes. -/
theorem Sym.code_injective : Function.Injective Sym.code := by
  rintro (a | a) (b | b) hEq <;> simp only [Sym.code] at hEq
  · rw [UInt8.toNat_inj.mp (show a.toNat = b.toNat by omega)]
  · omega
  · omega
  · rw [show a = b by omega]

def symbolicCrypto : Crypto Nat where
  zero := 0
  hash := fun msg => Encodable.encode (msg.map Sym.code)
  ct := fun b => b.msg ++ List.replicate 16 0
  sealOpen := fun c => some (c.take 16)
  seckey := List.replicate 16 2

/-- The symbolic hash has no collisions. -/
theorem symbolicCrypto_hash_injective : Function.Injective symbolicCrypto.hash := by
  intro msg msg' hEq
  exact List.map_injective_iff.mpr Sym.code_injective (Encodable.encode_injective hEq)

/-- Cut the tag off. -/
def symbolicDec : Decrypt Nat := fun _ _ _ c => some (c.take (c.length - 16))

/-- The symbolic primitives are correct. -/
theorem symbolicCrypto_correct : symbolicCrypto.Correct symbolicDec := by
  refine ⟨fun b => ?_, fun b => by simp [symbolicCrypto]⟩
  show some ((b.msg ++ List.replicate 16 0).take ((b.msg ++ List.replicate 16 0).length - 16)) =
    some b.msg
  rw [List.length_append, List.length_replicate, Nat.add_sub_cancel, List.take_left]

/-- The header of `n` inputs, with one byte for the count. -/
def shortHeader (n : Nat) : List UInt8 := List.replicate 64 3 ++ toBE 1 n

/-- Starting an execution in the symbolic instance. -/
def symbolicStart (n : Nat) (hash : Nat) : StartReply Nat :=
  let execID := symbolicCrypto.hashWithPrefix 0 (.digest hash :: symBytes (shortHeader n))
  { esharedkey := ⟨symbolicCrypto.seckey, symbolicCrypto.keyNonce execID, [], List.replicate 16 3⟩
    execID := execID
    cin := symbolicCrypto.token execID (batchCount seSmall.lOut n) hash }

/-- What the element answers to a short header. -/
theorem seStart_symbolic {n : Nat} (hn : n < 256) (hash : Nat) :
    seStart symbolicCrypto seSmall (shortHeader n) 1 hash = some (symbolicStart n hash) := by
  have hTake : (shortHeader n).take (64 + 1) = shortHeader n :=
    List.take_of_length_le (by simp [shortHeader])
  have hDrop : (shortHeader n).drop 64 = toBE 1 n := by
    simp [shortHeader]
  refine seStart_eq_some.mpr ⟨List.replicate 16 3, n, [], by simp [shortHeader], ?_, ?_, ?_, rfl,
    rfl, ?_, ?_⟩
  · rfl
  · rw [hTake, hDrop]
    exact (reads_loadU32 (by decide) (by decide) hn).run_all
  · rw [hTake]
    rfl
  · rfl
  · rfl

/-- Answering a batch in the symbolic instance. -/
def symbolicInput (execID : Nat) (i Hp : Nat) (X : List Word) : InputReply Nat :=
  ⟨symbolicCrypto.token execID (i - 1) Hp,
    X.zipIdx.map fun x => symbolicCrypto.word execID ⟨i, x.2⟩ x.1⟩

/-- What it answers to a batch, when the token for the link has been handed out. -/
theorem seInput_symbolic {log : List (Box Nat)} {execID i Hp : Nat} {X : List Word} (hi : 1 ≤ i)
    (hLt : i < 2 ^ 32) (hX : X.length = seSmall.lOut) (hZero : i = 1 → Hp = symbolicCrypto.zero)
    (hTok : symbolicCrypto.token execID i (symbolicCrypto.hashchain Hp X) ∈ log) :
    seInput symbolicCrypto (idealDec symbolicCrypto log) seSmall execID i Hp X
      (List.replicate 16 0) = some (symbolicInput execID i Hp X) := by
  have hDec := idealDec_of_mem symbolicCrypto_correct hTok
  refine seInput_eq_some.mpr ⟨⟨hi, hLt, hX⟩, hZero, hDec, ?_, rfl⟩
  intro x _
  simp [symbolicCrypto, Crypto.word, wordToBytes]

/-- The two batches of a host. -/
def firstBatch : List Word := List.replicate 8 1

def secondBatch : List Word := List.replicate 8 100

/-- The chain over the first batch, and over both. -/
def firstChain : Nat := symbolicCrypto.hashchain 0 firstBatch

def bothChain : Nat := symbolicCrypto.hashchain firstChain secondBatch

/-- The start of an execution with sixteen inputs. -/
def twoBatchStart : StartReply Nat := symbolicStart 16 bothChain

/-- A host that commits to two batches and has both accepted, the second one first. -/
def twoBatchRun : List (Event Nat) :=
  [.input twoBatchStart.execID 1 0 firstBatch (List.replicate 16 0)
      (symbolicInput twoBatchStart.execID 1 0 firstBatch),
    .input twoBatchStart.execID 2 firstChain secondBatch (List.replicate 16 0)
      (symbolicInput twoBatchStart.execID 2 firstChain secondBatch),
    .start (shortHeader 16) 1 bothChain twoBatchStart]

/-- Up to the second batch, which the token of the start is for. -/
theorem secondBatch_run (init : List (Box Nat)) :
    Run symbolicCrypto seSmall init (twoBatchRun.drop 1) := by
  refine .step (.step .nil (seStart_symbolic (by decide) _)) ?_
  exact seInput_symbolic (by decide) (by decide) rfl (by decide)
    (by simp [ledger, Event.boxes, twoBatchStart, bothChain, symbolicStart, batchCount, seSmall])

/-- The token of the first batch comes with the answer to the second. -/
theorem twoBatchRun_run (init : List (Box Nat)) : Run symbolicCrypto seSmall init twoBatchRun :=
  .step (secondBatch_run init) (seInput_symbolic (by decide) (by decide) rfl (fun _ => rfl)
    (by simp [ledger, Event.boxes, symbolicInput, firstChain]))

/-- Each batch is accepted for a chain that goes on to the hash of the start. -/
theorem twoBatchRun_committed :
    Committed symbolicCrypto seSmall (twoBatchRun.drop 1) twoBatchStart.execID 1
        (symbolicCrypto.hashchain 0 firstBatch) ∧
      Committed symbolicCrypto seSmall (twoBatchRun.drop 2) twoBatchStart.execID 2
        (symbolicCrypto.hashchain firstChain secondBatch) := by
  have hCommitted := ((twoBatchRun_run []).inputs_committed symbolicCrypto_hash_injective
    (by intro b hb; cases hb)).1
  exact ⟨(hCommitted [] _ _ _ _ _ _ _ rfl).2, (hCommitted (twoBatchRun.take 1) _ _ _ _ _ _ _ rfl).2⟩

end Obscure
