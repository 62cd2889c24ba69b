import Obscure.CodeGen.Serializer

/-!
# OBSCURE — the secure element

The three calls of `runtime/SEalgo.c`: `SEstart` opens an execution, `SEinput`
turns a batch of program inputs into encrypted words, `SEeval` runs one
multi-instruction on encrypted words. The element keeps no state between calls;
everything it must remember travels through the host inside AEAD ciphertexts.

The cryptographic primitives are parameters. A digest is a value of an abstract
type `D` and takes one symbol of a hashed or authenticated string, where the
source copies its 32 bytes: digests always stand at fixed places of these
strings, and an abstract type can have an injective hash. An encryption the
element makes is a `Box`, the arguments of `crypto_aead_encrypt`; its ciphertext
is `Crypto.ct`.

A call returns no result when the source exits or when its behaviour is
undefined (an index outside the registers, a read past the end of a buffer).
-/

namespace Obscure

open Lib

/-! ## Cryptographic primitives -/

/-- A symbol of a string that is hashed or authenticated. -/
inductive Sym (D : Type) where
  | byte (b : UInt8)
  | digest (d : D)
deriving DecidableEq

/-- A string of bytes as symbols. -/
def symBytes {D : Type} (bs : List UInt8) : List (Sym D) := bs.map Sym.byte

/-- The arguments of one AEAD encryption. -/
structure Box (D : Type) where
  key : List UInt8
  nonce : List (Sym D)
  ad : List (Sym D)
  msg : List UInt8
deriving DecidableEq

/-- The primitives and the keys of the element. -/
structure Crypto (D : Type) where
  /-- the all-zero digest `H_0` -/
  zero : D
  /-- `crypto_hash` -/
  hash : List (Sym D) → D
  /-- `crypto_aead_encrypt`: the ciphertext of a box -/
  ct : Box D → List UInt8
  /-- `crypto_box_seal_open` under the element's key pair -/
  sealOpen : List UInt8 → Option (List UInt8)
  /-- `seckey` -/
  seckey : List UInt8

/-- `crypto_aead_decrypt`, as a function of key, nonce, associated data and
ciphertext. -/
abbrev Decrypt (D : Type) :=
  List UInt8 → List (Sym D) → List (Sym D) → List UInt8 → Option (List UInt8)

/-! ## Numbers in memory -/

/-- `u32_tobytes`; other lengths exit. -/
def u32ToBytes (len n : Nat) : Option (List UInt8) :=
  if 1 ≤ len ∧ len ≤ 4 then some (toBE len n) else none

/-- `load_u32`, and `load_bytes` of the interpreter: read a number at the
pointer and advance it. -/
def loadU32 (len : Nat) : Reader Nat :=
  if 1 ≤ len ∧ len ≤ 4 then ofBE <$> takeBytes len else failure

/-- `word_tobytes` for words of 32 bits. -/
def wordToBytes (w : Word) : List UInt8 := toBE 4 w.toNat

/-- `load_word` for words of 32 bits. -/
def loadWord (len : Nat) : Reader Word := BitVec.ofNat 32 <$> loadU32 len

/-! ## Executing a low-level sequence -/

/-- The `switch` on the operand flag: which sources follow, and their kinds. -/
def flagKinds : Nat → Option (OperandKind × Option OperandKind × Option OperandKind)
  | 0 => some (.imm, none, none)
  | 1 => some (.imm, some .reg, none)
  | 2 => some (.imm, some .reg, some .reg)
  | 3 => some (.imm, some .reg, some .imm)
  | 4 => some (.imm, some .imm, none)
  | 5 => some (.imm, some .imm, some .reg)
  | 6 => some (.imm, some .imm, some .imm)
  | 7 => some (.reg, none, none)
  | 8 => some (.reg, some .reg, none)
  | 9 => some (.reg, some .reg, some .imm)
  | 10 => some (.reg, some .reg, some .reg)
  | 11 => some (.reg, some .imm, some .imm)
  | 12 => some (.reg, some .imm, some .reg)
  | 13 => some (.reg, some .imm, none)
  | _ => none

/-- The opcode with a given number; the runtime has no case for 12. -/
def Opcode.ofValue : Nat → Option Opcode
  | 0 => some .NOP | 1 => some .MOV | 2 => some .XOR | 3 => some .OR | 4 => some .AND
  | 5 => some .LSL | 6 => some .LSR | 7 => some .LT | 8 => some .ADD | 9 => some .SUB
  | 10 => some .MUL | 11 => some .EQ | 13 => some .DIV | 14 => some .MOD | 15 => some .CMOV
  | _ => none

/-- Registers of the element; only the first `r` of them exist. -/
abbrev Regs := Nat → Word

/-- `load_regvalue` and `load_immvalue`. -/
def loadValue (r lbC lbR : Nat) (reg : Regs) : OperandKind → Reader Word
  | .reg => do
    let src ← loadU32 lbR
    if src < r then pure (reg src) else failure
  | .imm => loadWord lbC

/-- A source that is not there leaves the local at 0. -/
def loadSrc (r lbC lbR : Nat) (reg : Regs) : Option OperandKind → Reader Word
  | none => pure 0
  | some k => loadValue r lbC lbR reg k

/-- The body of the loop of `LLS_execute` after its first byte. -/
def llsInstr (r lbC lbR : Nat) (reg : Regs) (head : UInt8) : Reader Regs :=
  let opcode := head.toNat / 16
  let flag := head.toNat % 16
  if opcode = Opcode.NOP.value then pure reg
  else do
    let dst ← loadU32 lbR
    let (k₁, k₂, k₃) ← flagKinds flag
    let val₁ ← loadValue r lbC lbR reg k₁
    let val₂ ← loadSrc r lbC lbR reg k₂
    let val₃ ← loadSrc r lbC lbR reg k₃
    let op ← Opcode.ofValue opcode
    let ret ← instructionExecute op val₁ val₂ val₃
    if dst < r then pure (Function.update reg dst ret) else failure

/-- `LLS_execute`; the first argument is what is left of `LLS_MAX_LENGTH`. -/
def llsExecute (r lbC lbR : Nat) : Nat → List UInt8 → Regs → Option Regs
  | _, [], reg => some reg
  | 0, _ :: _, _ => none
  | fuel + 1, head :: bs, reg =>
    match (llsInstr r lbC lbR reg head).run bs with
    | none => none
    | some (reg', rest) => llsExecute r lbC lbR fuel rest reg'

/-! ## The three calls -/

/-- Authenticated-encrypted low-level snippet; `inp_count` is the length of
`inputIDs`. -/
structure AELLS where
  revealFlag : Nat
  outCount : Nat
  inputIDs : List ID
  instrID : Nat
  bytecode : List UInt8
deriving DecidableEq

/-- What `malloc` hands out: the content of fresh registers and of the tails of
fresh output slots. -/
structure Junk where
  reg : Regs
  tail : Nat → List UInt8

/-- What `SEstart` returns. -/
structure StartReply (D : Type) where
  esharedkey : Box D
  execID : D
  cin : Box D

/-- What `SEinput` returns. -/
structure InputReply (D : Type) where
  cinp : Box D
  words : List (Box D)

/-- One output slot of `SEeval`: a word in clear or an encryption. -/
inductive OutWord (D : Type) where
  | clear (w : Word)
  | sealed (b : Box D)

section Calls

variable {D : Type} (C : Crypto D) (dec : Decrypt D)

/-- `hash_withprefix`. -/
def Crypto.hashWithPrefix (p : Nat) (msg : List (Sym D)) : D := C.hash (symBytes (toBE 4 p) ++ msg)

/-- `hashchain`: the digest of the previous digest and one batch. -/
def Crypto.hashchain (Hp : D) (X : List Word) : D :=
  C.hash (.digest Hp :: symBytes (X.flatMap wordToBytes))

/-- Encrypt and check the length the source expects. -/
def Crypto.seal (b : Box D) (clen : Nat) : Option (Box D) :=
  if (C.ct b).length = clen then some b else none

/-- The nonce under which the shared key travels. -/
def Crypto.keyNonce (execID : D) : List (Sym D) := [.digest (C.hashWithPrefix 1 [.digest execID])]

/-- The token `C_i^in`: an empty message that authenticates the chain value
reached at batch `i` of an execution. -/
def Crypto.token (execID : D) (i : Nat) (H : D) : Box D where
  key := C.seckey
  nonce := [.digest (C.hashWithPrefix 2 (.digest execID :: symBytes (toBE 4 i)))]
  ad := .digest H :: (symBytes (toBE 4 i) ++ [.digest execID])
  msg := []

/-- The associated data of a word: its ID and the execution. -/
def wordAD (execID : D) (id : ID) : List (Sym D) :=
  symBytes (toBE 4 id.instrID) ++ symBytes (toBE 4 id.outputID) ++ [.digest execID]

/-- An encrypted word. -/
def Crypto.word (execID : D) (id : ID) (w : Word) : Box D where
  key := C.seckey
  nonce := [.digest (C.hashWithPrefix 3 (wordAD execID id))]
  ad := wordAD execID id
  msg := wordToBytes w

/-- The number of batches for `n` inputs, in 32-bit arithmetic. -/
def batchCount (lOut n : Nat) : Nat := (n + lOut - 1) % 2 ^ 32 / lOut

/-- `SEstart`. -/
def seStart (cfg : SEConfig) (header : List UInt8) (lbM : Nat) (hash : D) :
    Option (StartReply D) := do
  let (hdr, _) ← (takeBytes (64 + lbM)).run header
  let execID := C.hashWithPrefix 0 (.digest hash :: symBytes hdr)
  let sharedKey ← C.sealOpen (hdr.take 64)
  let esharedkey ← C.seal ⟨C.seckey, C.keyNonce execID, [], sharedKey⟩ 32
  let (n, _) ← (loadU32 lbM).run (hdr.drop 64)
  let cin ← C.seal (C.token execID (batchCount cfg.lOut n) hash) 16
  pure ⟨esharedkey, execID, cin⟩

/-- `SEinput`; `i` is a `u32` and `X` points to `l_out` words. -/
def seInput [DecidableEq D] (cfg : SEConfig) (execID : D) (i : Nat) (Hp : D) (X : List Word)
    (cinc : List UInt8) : Option (InputReply D) := do
  guard (1 ≤ i ∧ i < 2 ^ 32 ∧ X.length = cfg.lOut)
  guard (i = 1 → Hp = C.zero)
  let cur := C.token execID i (C.hashchain Hp X)
  let m ← dec C.seckey cur.nonce cur.ad cinc
  guard (m = [])
  let words ← X.zipIdx.mapM fun (x, j) => C.seal (C.word execID ⟨i, j⟩ x) 20
  pure ⟨C.token execID (i - 1) Hp, words⟩

/-- An input ID in the associated data. -/
def ID.toBytes (lbO : Nat) (id : ID) : Option (List UInt8) :=
  (u32ToBytes lbO id.outputID).map fun outputID => toBE 4 id.instrID ++ outputID

/-- The associated data `LLS_decrypt` rebuilds. -/
def AELLS.ad (aells : AELLS) (lbM lbO : Nat) : Option (List UInt8) := do
  let inpCount := aells.inputIDs.length
  -- the right-hand side of `u64 adlen` is computed in 32 bits
  let adlen := (4 + 1 + lbM * 2 + (4 + lbO) * inpCount) % 2 ^ 32
  let count ← u32ToBytes lbM inpCount
  let ids ← serializeAll (ID.toBytes lbO) aells.inputIDs
  let outCount ← u32ToBytes lbM aells.outCount
  let ad := toBE 4 aells.instrID ++ toBE 1 aells.revealFlag ++ count ++ ids ++ outCount
  -- a buffer shorter than what is written into it is overrun
  if ad.length = adlen then some ad else none

/-- The nonce `LLS_decrypt` rebuilds. -/
def AELLS.nonce (aells : AELLS) : List UInt8 := List.replicate 28 0 ++ toBE 4 aells.instrID

/-- `LLS_decrypt`. -/
def llsDecrypt (aells : AELLS) (sharedKey : List UInt8) (lbM lbO : Nat) :
    Option (List UInt8) := do
  let ad ← aells.ad lbM lbO
  let m ← dec sharedKey (symBytes aells.nonce) (symBytes ad) aells.bytecode
  guard (m.length + 16 = aells.bytecode.length)
  pure m

/-- `EWORD_decrypt`: the words from position `i` on go to the registers from `i`
on. -/
def ewordDecrypt (execID : D) (r : Nat) :
    Nat → List ID → List (List UInt8) → Regs → Option Regs
  | _, [], _, reg => some reg
  | _, _ :: _, [], _ => none
  | i, id :: ids, c :: cs, reg => do
    let b := C.word execID id 0
    let m ← dec C.seckey b.nonce b.ad c
    guard (m.length = 4 ∧ i < r)
    ewordDecrypt execID r (i + 1) ids cs (Function.update reg i (BitVec.ofNat 32 (ofBE m)))

/-- The register of output `i`, in 32-bit arithmetic. -/
def outReg (cfg : SEConfig) (r i : Nat) : Nat := (r + 2 ^ 32 - cfg.lOut + i) % 2 ^ 32

/-- `EWORD_encode` and `EWORD_encrypt`, one output. -/
def ewordOutput (cfg : SEConfig) (execID : D) (aells : AELLS) (reg : Regs) (r i : Nat) :
    Option (OutWord D) :=
  if outReg cfg r i < r then
    let w := reg (outReg cfg r i)
    if aells.revealFlag ≠ 0 then some (.clear w)
    else (C.seal (C.word execID ⟨aells.instrID, i⟩ w) 20).map .sealed
  else none

/-- `SEeval`. -/
def seEval (cfg : SEConfig) (junk : Junk) (execID : D) (esharedkey : List UInt8) (aells : AELLS)
    (Cx : List (List UInt8)) (r lbM lbR lbC lbO : Nat) : Option (List (OutWord D)) := do
  let sharedKey ← dec C.seckey (C.keyNonce execID) [] esharedkey
  guard (sharedKey.length = 16)
  let lls ← llsDecrypt dec aells sharedKey lbM lbO
  let reg ← ewordDecrypt C dec execID r 0 aells.inputIDs Cx junk.reg
  let reg' ← llsExecute r lbC lbR cfg.s lls reg
  (List.range aells.outCount).mapM (ewordOutput C cfg execID aells reg' r)

/-- The bytes of an output slot: a word in clear only overwrites its front. -/
def OutWord.bytes (junk : Junk) (i : Nat) : OutWord D → List UInt8
  | .clear w => wordToBytes w ++ junk.tail i
  | .sealed b => C.ct b

end Calls

/-! ## What a successful call did -/

section Specs

variable {D : Type} {C : Crypto D} {dec : Decrypt D} {cfg : SEConfig}

theorem guard_eq_some {p : Prop} [Decidable p] {u : Unit} :
    (guard p : Option Unit) = some u ↔ p := by
  unfold guard
  split <;> simp_all

theorem Crypto.seal_eq_some {b b' : Box D} {clen : Nat} :
    C.seal b clen = some b' ↔ (C.ct b).length = clen ∧ b' = b := by
  unfold Crypto.seal
  split <;> simp_all [eq_comm]

/-- A run of encryptions succeeds when all ciphertexts have the expected
length. -/
theorem Crypto.mapM_seal_eq_some {α : Type} {f : α → Box D} {clen : Nat} {xs : List α}
    {bs : List (Box D)} : (xs.mapM fun x => C.seal (f x) clen) = some bs ↔
      (∀ x ∈ xs, (C.ct (f x)).length = clen) ∧ bs = xs.map f := by
  induction xs generalizing bs with
  | nil => simp [eq_comm]
  | cons x xs ih =>
    simp only [List.mapM_cons, Option.bind_eq_bind, Option.bind_eq_some_iff, Option.pure_def,
      Option.some.injEq, Crypto.seal_eq_some, ih]
    constructor
    · rintro ⟨_, ⟨hx, rfl⟩, _, ⟨hxs, rfl⟩, rfl⟩
      exact ⟨List.forall_mem_cons.mpr ⟨hx, hxs⟩, rfl⟩
    · rintro ⟨h, rfl⟩
      exact ⟨_, ⟨(List.forall_mem_cons.mp h).1, rfl⟩, _, ⟨(List.forall_mem_cons.mp h).2, rfl⟩, rfl⟩

theorem seInput_eq_some [DecidableEq D] {execID : D} {i : Nat} {Hp : D} {X : List Word}
    {cinc : List UInt8} {reply : InputReply D} :
    seInput C dec cfg execID i Hp X cinc = some reply ↔
      (1 ≤ i ∧ i < 2 ^ 32 ∧ X.length = cfg.lOut) ∧ (i = 1 → Hp = C.zero) ∧
      dec C.seckey (C.token execID i (C.hashchain Hp X)).nonce
        (C.token execID i (C.hashchain Hp X)).ad cinc = some [] ∧
      (∀ x ∈ X.zipIdx, (C.ct (C.word execID ⟨i, x.2⟩ x.1)).length = 20) ∧
      reply = ⟨C.token execID (i - 1) Hp, X.zipIdx.map fun x => C.word execID ⟨i, x.2⟩ x.1⟩ := by
  simp only [seInput, Option.bind_eq_bind, Option.bind_eq_some_iff, guard_eq_some,
    Option.pure_def, Option.some.injEq, Crypto.mapM_seal_eq_some]
  constructor
  · rintro ⟨-, hBounds, -, hZero, _, hDec, -, rfl, _, ⟨hLen, rfl⟩, rfl⟩
    exact ⟨hBounds, hZero, hDec, hLen, rfl⟩
  · rintro ⟨hBounds, hZero, hDec, hLen, rfl⟩
    exact ⟨(), hBounds, (), hZero, _, hDec, (), rfl, _, ⟨hLen, rfl⟩, rfl⟩

theorem seStart_eq_some {header : List UInt8} {lbM : Nat} {hash : D} {reply : StartReply D} :
    seStart C cfg header lbM hash = some reply ↔
      ∃ sharedKey n rest, 64 + lbM ≤ header.length ∧ C.sealOpen (header.take 64) = some sharedKey ∧
        (loadU32 lbM).run ((header.take (64 + lbM)).drop 64) = some (n, rest) ∧
        reply.execID = C.hashWithPrefix 0 (.digest hash :: symBytes (header.take (64 + lbM))) ∧
        reply.esharedkey = ⟨C.seckey, C.keyNonce reply.execID, [], sharedKey⟩ ∧
        reply.cin = C.token reply.execID (batchCount cfg.lOut n) hash ∧
        (C.ct reply.esharedkey).length = 32 ∧ (C.ct reply.cin).length = 16 := by
  have hTake : (header.take (64 + lbM)).take 64 = header.take 64 := by
    rw [List.take_take, Nat.min_eq_left (by omega)]
  simp only [seStart, takeBytes, StateT.run]
  by_cases hLen : 64 + lbM ≤ header.length
  · simp only [if_pos hLen, Option.bind_eq_bind, Option.bind_some, Option.bind_eq_some_iff,
      Option.pure_def, Option.some.injEq, Crypto.seal_eq_some, hTake, Prod.exists]
    constructor
    · rintro ⟨sharedKey, hOpen, _, ⟨hKeyLen, rfl⟩, n, rest, hN, _, ⟨hCinLen, rfl⟩, rfl⟩
      exact ⟨sharedKey, n, rest, hLen, hOpen, hN, rfl, rfl, rfl, hKeyLen, hCinLen⟩
    · rintro ⟨sharedKey, n, rest, -, hOpen, hN, hExec, hKey, hCin, hKeyLen, hCinLen⟩
      obtain ⟨esharedkey, execID, cin⟩ := reply
      simp only at hExec hKey hCin hKeyLen hCinLen
      subst hExec hKey hCin
      exact ⟨sharedKey, hOpen, _, ⟨hKeyLen, rfl⟩, n, rest, hN, _, ⟨hCinLen, rfl⟩, rfl⟩
  · simp [hLen]

theorem llsDecrypt_eq_some {aells : AELLS} {sharedKey : List UInt8} {lbM lbO : Nat}
    {lls : List UInt8} : llsDecrypt dec aells sharedKey lbM lbO = some lls ↔
      ∃ ad, aells.ad lbM lbO = some ad ∧
        dec sharedKey (symBytes aells.nonce) (symBytes ad) aells.bytecode = some lls ∧
        lls.length + 16 = aells.bytecode.length := by
  simp only [llsDecrypt, Option.bind_eq_bind, Option.bind_eq_some_iff, guard_eq_some,
    Option.pure_def, Option.some.injEq]
  constructor
  · rintro ⟨ad, hAd, _, hDec, -, hLen, rfl⟩
    exact ⟨ad, hAd, hDec, hLen⟩
  · rintro ⟨ad, hAd, hDec, hLen⟩
    exact ⟨ad, hAd, _, hDec, (), hLen, rfl⟩

theorem seEval_eq_some {junk : Junk} {execID : D} {esharedkey : List UInt8} {aells : AELLS}
    {Cx : List (List UInt8)} {r lbM lbR lbC lbO : Nat} {outs : List (OutWord D)} :
    seEval C dec cfg junk execID esharedkey aells Cx r lbM lbR lbC lbO = some outs ↔
      ∃ sharedKey lls reg reg', dec C.seckey (C.keyNonce execID) [] esharedkey = some sharedKey ∧
        sharedKey.length = 16 ∧ llsDecrypt dec aells sharedKey lbM lbO = some lls ∧
        ewordDecrypt C dec execID r 0 aells.inputIDs Cx junk.reg = some reg ∧
        llsExecute r lbC lbR cfg.s lls reg = some reg' ∧
        (List.range aells.outCount).mapM (ewordOutput C cfg execID aells reg' r) = some outs := by
  simp only [seEval, Option.bind_eq_bind, Option.bind_eq_some_iff, guard_eq_some]
  constructor
  · rintro ⟨sharedKey, hKey, -, hLen, lls, hLls, reg, hReg, reg', hReg', hOuts⟩
    exact ⟨sharedKey, lls, reg, reg', hKey, hLen, hLls, hReg, hReg', hOuts⟩
  · rintro ⟨sharedKey, lls, reg, reg', hKey, hLen, hLls, hReg, hReg', hOuts⟩
    exact ⟨sharedKey, hKey, (), hLen, lls, hLls, reg, hReg, reg', hReg', hOuts⟩

end Specs

end Obscure
