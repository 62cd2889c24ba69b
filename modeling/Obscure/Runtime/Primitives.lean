import Obscure.Crypto.Esch
import Obscure.Crypto.Schwaemm
import Obscure.Runtime.Behaviour

/-!
# OBSCURE — the runtime with its primitives

The runtime is linked with Esch256 and Schwaemm256-128, and the compiler encrypts
with the same AEAD. Here the abstract primitives of `Runtime/SEalgo.lean` are these
functions, a digest is a string of 32 bytes, and what the runtime relies on is
proved instead of assumed. Only `crypto_box_seal_open` is left open; it is in a
library.

* `interpret_behaves_sparkle` — with these primitives the interpreter has the value
  of the program.
-/

namespace Obscure

open Lib

-- ---------------------------------------------------------------------------
-- The primitives
-- ---------------------------------------------------------------------------

/-- A hash of `HASH_INBYTES` bytes. -/
abbrev Digest := { bs : List UInt8 // bs.length = 32 }

/-- The bytes of a symbol. -/
def Sym.toBytes : Sym Digest → List UInt8
  | .byte b => [b]
  | .digest d => d.val

/-- The string the source builds. -/
def symsToBytes (s : List (Sym Digest)) : List UInt8 := s.flatMap Sym.toBytes

/-- `crypto_hash` on a string. -/
def eschDigest (s : List (Sym Digest)) : Digest :=
  ⟨Esch.cryptoHash Esch.esch256 (symsToBytes s),
    Esch.length_cryptoHash (by simp [Esch.instances]) _⟩

/-- `crypto_aead_encrypt` on a box. -/
def schwaemmCt (b : Box Digest) : List UInt8 :=
  Schwaemm.cryptoAeadEncrypt Schwaemm.schwaemm256128 b.msg (symsToBytes b.ad)
    (symsToBytes b.nonce) b.key

/-- `crypto_aead_decrypt` with the test of its result; a ciphertext that is shorter
than a tag is not a buffer it can read. -/
def schwaemmDec : Decrypt Digest := fun key nonce ad c =>
  if c.length < 16 then none
  else
    let (ret, m) := Schwaemm.cryptoAeadDecrypt Schwaemm.schwaemm256128 c (symsToBytes ad)
      (symsToBytes nonce) key
    if ret = 0 then some m else none

/-- The primitives of the element; `seckey` is `K_SE` of `SEalgo.c`. -/
def sparkleCrypto (sealOpen : List UInt8 → Option (List UInt8)) : Crypto Digest where
  zero := ⟨List.replicate 32 0, by simp⟩
  hash := eschDigest
  ct := schwaemmCt
  sealOpen := sealOpen
  seckey := List.replicate 16 2

section Correct

variable {sealOpen : List UInt8 → Option (List UInt8)}

theorem schwaemm256128_even : Schwaemm.schwaemm256128.Even :=
  Schwaemm.even_of_mem (by simp [Schwaemm.instances])

theorem length_schwaemmCt (b : Box Digest) : (schwaemmCt b).length = b.msg.length + 16 :=
  Schwaemm.length_cryptoAeadEncrypt schwaemm256128_even _ _ _ _

/-- The assumptions of the runtime hold for the primitives it is linked with. -/
theorem sparkleCrypto_correct : (sparkleCrypto sealOpen).Correct schwaemmDec where
  dec_ct := fun b => by
    show schwaemmDec b.key b.nonce b.ad (schwaemmCt b) = some b.msg
    have hLen := length_schwaemmCt b
    have hDec : Schwaemm.cryptoAeadDecrypt Schwaemm.schwaemm256128 (schwaemmCt b) (symsToBytes b.ad)
        (symsToBytes b.nonce) b.key = (0, b.msg) :=
      (Schwaemm.cryptoAead_undoes schwaemm256128_even (hLen ▸ Nat.le_add_left _ _)).mpr rfl
    rw [schwaemmDec, if_neg (by omega), hDec]
    rfl
  ct_length := length_schwaemmCt

end Correct

-- ---------------------------------------------------------------------------
-- The runtime
-- ---------------------------------------------------------------------------

section Length

variable {enc enc' : List UInt8 → List UInt8 → List UInt8 → List UInt8} {cfg : SEConfig}
  {ir : LLIRProgram} {w : Widths}

/-- Of a ciphertext only its length decides whether a record can be written. -/
theorem serializeLLMI_congr
    (h : ∀ msg ad nonce, (enc msg ad nonce).length = (enc' msg ad nonce).length) {i : Nat}
    {ids : IdDict} {llmi : LLMI} :
    (serializeLLMI enc cfg ir w i ids llmi).map Prod.snd =
      (serializeLLMI enc' cfg ir w i ids llmi).map Prod.snd := by
  unfold serializeLLMI
  -- everything but the ciphertext is computed alike
  iterate 9
    refine (Option.map_bind ..).trans
      (Eq.trans (Option.bind_congr fun _ _ => ?_) (Option.map_bind ..).symm)
  dsimp only [Function.comp_apply]
  rw [h]
  cases uintToBytes (enc' _ _ _).length 4 <;> rfl

theorem serializeLLMIs_congr
    (h : ∀ msg ad nonce, (enc msg ad nonce).length = (enc' msg ad nonce).length) {i : Nat}
    {ids : IdDict} {llmis : List LLMI} :
    (serializeLLMIs enc cfg ir w i ids llmis).isSome =
      (serializeLLMIs enc' cfg ir w i ids llmis).isSome := by
  induction llmis generalizing i ids with
  | nil => rfl
  | cons llmi llmis ih =>
    have hCons : ∀ e, (serializeLLMIs e cfg ir w i ids (llmi :: llmis)).isSome =
        ((serializeLLMI e cfg ir w i ids llmi).map Prod.snd).any fun ids' =>
          (serializeLLMIs e cfg ir w (i + 1) ids' llmis).isSome := by
      intro e
      rw [serializeLLMIs]
      cases serializeLLMI e cfg ir w i ids llmi with
      | none => rfl
      | some res =>
        show ((serializeLLMIs e cfg ir w (i + 1) res.2 llmis).bind _).isSome =
          (serializeLLMIs e cfg ir w (i + 1) res.2 llmis).isSome
        cases serializeLLMIs e cfg ir w (i + 1) res.2 llmis <;> rfl
    rw [hCons, hCons, serializeLLMI_congr h]
    simp only [ih]

/-- Whether a file is written does not depend on the ciphertexts. -/
theorem serialize_congr (h : ∀ msg ad nonce, (enc msg ad nonce).length = (enc' msg ad nonce).length)
    {ctSk : List UInt8} :
    (serialize enc ctSk cfg ir).isSome = (serialize enc' ctSk cfg ir).isSome := by
  have hLast : ∀ {a b : Option (List LLMICode)}, a.isSome = b.isSome → ∀ header : List UInt8,
      (a.bind fun llmis => some (Bytecode.mk header llmis)).map Bytecode.header =
        (b.bind fun llmis => some (Bytecode.mk header llmis)).map Bytecode.header := by
    intro a b hSome header
    cases a <;> cases b <;> first | rfl | cases hSome
  have hHeader : (serialize enc ctSk cfg ir).map Bytecode.header =
      (serialize enc' ctSk cfg ir).map Bytecode.header := by
    unfold serialize
    iterate 10
      refine (Option.map_bind ..).trans
        (Eq.trans (Option.bind_congr fun _ _ => ?_) (Option.map_bind ..).symm)
    dsimp only [Function.comp_apply]
    exact hLast (serializeLLMIs_congr h) _
  rw [← Option.isSome_map (f := Bytecode.header), hHeader, Option.isSome_map]

end Length

section Program

variable {sealOpen : List UInt8 → Option (List UInt8)} {cfg : SEConfig} {ir : LLIRProgram}
  {ctSk sharedKey : List UInt8} {bc : Bytecode} {inputs : List Word}

/-- **The runtime as it is linked.** With Schwaemm256-128 and Esch256 in the element
and the same AEAD in the compiler, whatever opens the sealed key: on the file of a
program the interpreter has the value of the program, or none if it has none. -/
theorem interpret_behaves_sparkle (hCfg : cfg.Buildable) (hRunnable : ir.Runnable cfg)
    (hKey : ctSk.length = 64) (hOpen : sealOpen ctSk = some sharedKey)
    (hShared : sharedKey.length = 16)
    (hSer : serialize ((sparkleCrypto sealOpen).encryptShared sharedKey) ctSk cfg ir = some bc)
    (junk : HostJunk) (hInputs : inputs.length = ir.inputs.length) :
    interpret (sparkleCrypto sealOpen) schwaemmDec cfg junk bc.bytes inputs ir.outputs.length =
      ir.eval cfg (fun k => (junk.call k).reg) inputs :=
  interpret_behaves sparkleCrypto_correct hCfg hRunnable hKey hOpen hShared hSer junk hInputs

/-- Three times the sum of 5 and 6. -/
theorem interpret_behaves_sparkle_tripleSum :
    ∃ bc, serialize ((sparkleCrypto toyCrypto.sealOpen).encryptShared (List.replicate 16 3))
        (List.replicate 64 3) seSmall tripleSum = some bc ∧
      ∀ junk, interpret (sparkleCrypto toyCrypto.sealOpen) schwaemmDec seSmall junk bc.bytes
        [5, 6] 1 =
        some [33] := by
  have hToy : (serialize (toyCrypto.encryptShared (List.replicate 16 3)) (List.replicate 64 3)
    seSmall tripleSum).isSome = true := by
    decide +kernel
  have hLen : ∀ msg ad nonce, (toyCrypto.encryptShared (List.replicate 16 3) msg ad nonce).length =
      ((sparkleCrypto toyCrypto.sealOpen).encryptShared
        (List.replicate 16 3) msg ad nonce).length := by
    intro msg ad nonce
    rw [Crypto.encryptShared, Crypto.encryptShared, toyCrypto_correct.ct_length,
      sparkleCrypto_correct.ct_length]
  rw [serialize_congr hLen] at hToy
  obtain ⟨bc, hBc⟩ := Option.isSome_iff_exists.mp hToy
  refine ⟨bc, hBc, fun junk => ?_⟩
  exact (interpret_behaves_sparkle (buildable_of_shipped seSmall List.mem_cons_self)
    tripleSum_runnable (by decide) (by decide) (by decide) hBc junk rfl).trans rfl

end Program

end Obscure
