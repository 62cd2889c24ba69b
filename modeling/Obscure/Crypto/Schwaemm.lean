import Obscure.Crypto.Sparkle
import Obscure.Lib.Blocks
import Obscure.Lib.LittleEndian

/-!
# OBSCURE — the AEAD Schwaemm

`crypto_aead_encrypt` and `crypto_aead_decrypt` of
`runtime/sparkle/schwaemm/schwaemm.c`, in the four instances of `schwaemm.h`; the
element and the compiler are built with the first one of the list. A block is
copied to a buffer of words; the source does so unless the pointers are aligned,
and then works on the same words in place. The host is little-endian.

Keys and nonces have the length of the instance. A ciphertext is at least as long
as a tag: `crypto_aead_decrypt` does not check it, and reads before the buffer.

* `cryptoAeadDecrypt_iff` — decryption accepts what encryption returns, with the
  same associated data, nonce and key, and nothing else.
-/

namespace Obscure

open Lib

namespace Schwaemm

open Sparkle (State)

-- ---------------------------------------------------------------------------
-- Instances
-- ---------------------------------------------------------------------------

/-- The macros of an instance. -/
structure Instance where
  stateBytes : Nat
  rateBytes : Nat
  stepsSlim : Nat
  stepsBig : Nat
  keyBytes : Nat
  nonceBytes : Nat
  tagBytes : Nat
deriving DecidableEq

def schwaemm256128 : Instance := ⟨48, 32, 7, 11, 16, 32, 16⟩

def schwaemm128128 : Instance := ⟨32, 16, 7, 10, 16, 16, 16⟩

def schwaemm192192 : Instance := ⟨48, 24, 7, 11, 24, 24, 24⟩

def schwaemm256256 : Instance := ⟨64, 32, 8, 12, 32, 32, 32⟩

/-- The values of `SCHWAEMM_INST`. -/
def instances : List Instance := [schwaemm256128, schwaemm128128, schwaemm192192, schwaemm256256]

namespace Instance

variable (inst : Instance)

def keyWords : Nat := inst.keyBytes / 4

def tagWords : Nat := inst.tagBytes / 4

def stateBrans : Nat := inst.stateBytes / 8

def stateWords : Nat := inst.stateBytes / 4

def rateWords : Nat := inst.rateBytes / 4

def capBytes : Nat := inst.stateBytes - inst.rateBytes

def capBrans : Nat := inst.capBytes / 8

def capWords : Nat := inst.capBytes / 4

/-- `CONST_A0`, `CONST_A1`, `CONST_M2` and `CONST_M3`. -/
def const (n : Nat) : Word := BitVec.ofNat 32 (n ^^^ 1 <<< inst.capBrans) <<< 24

/-- `CAP_INDEX`. -/
def capIndex (i : Nat) : Nat :=
  if inst.rateWords > inst.capWords then i &&& (inst.capWords - 1) else i

end Instance

-- ---------------------------------------------------------------------------
-- Rho and rate-whitening
-- ---------------------------------------------------------------------------

section Rho

variable (inst : Instance)

/-- The buffer with a last block of ciphertext: the bytes of the state in place of
what it lacks. -/
def padFromState (state : State) (block : List UInt8) (k : Nat) : UInt8 :=
  if block.length ≤ k ∧ block.length < inst.rateBytes then
    if k = block.length then bytesOf state.word k ^^^ 0x80 else bytesOf state.word k
  else copyIn block k

/-- A round of the loop over associated data. -/
def autRound (buffer : State) (state : State) (i : Nat) : State :=
  let j := i + inst.rateWords / 2
  let tmp := state i
  let state := state.set i (state j ^^^ buffer i ^^^ state (inst.rateWords + i))
  state.set j (state j ^^^ (tmp ^^^ buffer j ^^^ state (inst.rateWords + inst.capIndex j)))

/-- A round of the loop over plaintext, on the state and the buffer. -/
def encRound (st : State × State) (i : Nat) : State × State :=
  let j := i + inst.rateWords / 2
  let (state, buffer) := st
  let tmp1 := state i
  let tmp2 := state j
  let state := state.set i (state j ^^^ buffer i ^^^ state (inst.rateWords + i))
  let state := state.set j
    (state j ^^^ (tmp1 ^^^ buffer j ^^^ state (inst.rateWords + inst.capIndex j)))
  let buffer := buffer.set i (buffer i ^^^ tmp1)
  (state, buffer.set j (buffer j ^^^ tmp2))

/-- A round of the loop over ciphertext. -/
def decRound (st : State × State) (i : Nat) : State × State :=
  let j := i + inst.rateWords / 2
  let (state, buffer) := st
  let tmp1 := state i
  let tmp2 := state j
  let state := state.set i (state i ^^^ (state j ^^^ buffer i ^^^ state (inst.rateWords + i)))
  let state := state.set j (tmp1 ^^^ buffer j ^^^ state (inst.rateWords + inst.capIndex j))
  let buffer := buffer.set i (buffer i ^^^ tmp1)
  (state, buffer.set j (buffer j ^^^ tmp2))

/-- The loop of the three functions. -/
def rhoLoop {σ : Type} (round : σ → Nat → σ) (st : σ) : σ :=
  (List.range (inst.rateWords / 2)).foldl round st

/-- `rho_whi_aut`. -/
def rhoWhiAut (state : State) (block : List UInt8) : State :=
  rhoLoop inst (autRound inst ⟨wordsOf (copyIn block)⟩) state

/-- `rho_whi_aut_last`. -/
def rhoWhiAutLast (state : State) (block : List UInt8) : State :=
  rhoLoop inst (autRound inst ⟨wordsOf (padCopy inst.rateBytes block)⟩) state

/-- `rho_whi_enc`. -/
def rhoWhiEnc (state : State) (block : List UInt8) : State × List UInt8 :=
  let st := rhoLoop inst (encRound inst) (state, ⟨wordsOf (copyIn block)⟩)
  (st.1, copyOut inst.rateBytes st.2.word)

/-- `rho_whi_enc_last`. -/
def rhoWhiEncLast (state : State) (block : List UInt8) : State × List UInt8 :=
  let st := rhoLoop inst (encRound inst) (state, ⟨wordsOf (padCopy inst.rateBytes block)⟩)
  (st.1, copyOut block.length st.2.word)

/-- `rho_whi_dec`. -/
def rhoWhiDec (state : State) (block : List UInt8) : State × List UInt8 :=
  let st := rhoLoop inst (decRound inst) (state, ⟨wordsOf (copyIn block)⟩)
  (st.1, copyOut inst.rateBytes st.2.word)

/-- `rho_whi_dec_last`. -/
def rhoWhiDecLast (state : State) (block : List UInt8) : State × List UInt8 :=
  let st := rhoLoop inst (decRound inst) (state, ⟨wordsOf (padFromState inst state block)⟩)
  (st.1, copyOut block.length st.2.word)

end Rho

-- ---------------------------------------------------------------------------
-- The functions of `schwaemm.c`
-- ---------------------------------------------------------------------------

section Aead

variable (inst : Instance)

/-- `schwaemm_sparkle` with the slim number of steps. -/
def slim (state : State) : State := Sparkle.sparkle inst.stateBrans inst.stepsSlim state

/-- With the big one. -/
def big (state : State) : State := Sparkle.sparkle inst.stateBrans inst.stepsBig state

/-- The constant for a last block, one for a padded block and one for a full one. -/
def addConst (padded full : Nat) (state : State) (inlen : Nat) : State :=
  state.set (inst.stateWords - 1) (state (inst.stateWords - 1) ^^^
    if inlen < inst.rateBytes then inst.const padded else inst.const full)

/-- `Initialize`. -/
def initializeState (key nonce : List UInt8) : State :=
  let nonceAt := fun k => if k < inst.nonceBytes then copyIn nonce k else 0
  let keyAt := fun k => if 4 * inst.rateWords ≤ k ∧ k < 4 * inst.rateWords + inst.keyBytes then
    copyIn key (k - 4 * inst.rateWords) else nonceAt k
  big inst ⟨wordsOf keyAt⟩

/-- `ProcessAssocData`. -/
def processAssocData (state : State) (ad : List UInt8) : State :=
  absorbBlocks inst.rateBytes (fun s b => slim inst (rhoWhiAut inst s b))
    (fun s b => big inst (rhoWhiAutLast inst (addConst inst 0 1 s b.length) b)) state ad

/-- A full block of `ProcessPlainText`. -/
def encBlock (state : State) (block : List UInt8) : State × List UInt8 :=
  let st := rhoWhiEnc inst state block
  (slim inst st.1, st.2)

def encLast (state : State) (block : List UInt8) : State × List UInt8 :=
  let st := rhoWhiEncLast inst (addConst inst 2 3 state block.length) block
  (big inst st.1, st.2)

/-- `ProcessPlainText`. -/
def processPlainText (state : State) (m : List UInt8) : State × List UInt8 :=
  processBlocks inst.rateBytes (encBlock inst) (encLast inst) state m

/-- A full block of `ProcessCipherText`. -/
def decBlock (state : State) (block : List UInt8) : State × List UInt8 :=
  let st := rhoWhiDec inst state block
  (slim inst st.1, st.2)

def decLast (state : State) (block : List UInt8) : State × List UInt8 :=
  let st := rhoWhiDecLast inst (addConst inst 2 3 state block.length) block
  (big inst st.1, st.2)

/-- `ProcessCipherText`. -/
def processCipherText (state : State) (c : List UInt8) : State × List UInt8 :=
  processBlocks inst.rateBytes (decBlock inst) (decLast inst) state c

/-- `Finalize`. -/
def finalize (state : State) (key : List UInt8) : State :=
  (List.range inst.keyWords).foldl (fun s i => s.set (inst.rateWords + i)
    (s (inst.rateWords + i) ^^^ wordsOf (copyIn key) i)) state

/-- `GenerateTag`. -/
def generateTag (state : State) : List UInt8 :=
  copyOut inst.tagBytes fun i => state (inst.rateWords + i)

/-- `VerifyTag`. -/
def verifyTag (state : State) (tag : List UInt8) : Int :=
  let diff := (List.range inst.tagWords).foldl
    (fun diff i => diff ||| (state (inst.rateWords + i) ^^^ wordsOf (copyIn tag) i)) 0#32
  (if diff = 0#32 then 1 else 0) - 1

/-- The state after the associated data. -/
def absorbed (ad npub k : List UInt8) : State :=
  let state := initializeState inst k npub
  if ad = [] then state else processAssocData inst state ad

/-- `crypto_aead_encrypt`: the ciphertext. -/
def cryptoAeadEncrypt (m ad npub k : List UInt8) : List UInt8 :=
  let st := if m = [] then (absorbed inst ad npub k, []) else
    processPlainText inst (absorbed inst ad npub k) m
  st.2 ++ generateTag inst (finalize inst st.1 k)

/-- `crypto_aead_decrypt`: the value returned and the plaintext, which is written
whether the tag is right or not. -/
def cryptoAeadDecrypt (c ad npub k : List UInt8) : Int × List UInt8 :=
  let body := c.take (c.length - inst.tagBytes)
  let st := if body = [] then (absorbed inst ad npub k, []) else
    processCipherText inst (absorbed inst ad npub k) body
  (verifyTag inst (finalize inst st.1 k) (c.drop (c.length - inst.tagBytes)), st.2)

end Aead

-- ---------------------------------------------------------------------------
-- The loops
-- ---------------------------------------------------------------------------

/-- What the proofs need of the sizes of an instance. -/
structure Instance.Even (inst : Instance) : Prop where
  rate_pos : 0 < inst.rateBytes
  rate_eq : inst.rateBytes = 4 * inst.rateWords
  half : inst.rateWords = 2 * (inst.rateWords / 2)
  tag_eq : inst.tagBytes = 4 * inst.tagWords

/-- All four instances have an even number of rate words. -/
theorem even_of_mem {inst : Instance} (h : inst ∈ instances) : inst.Even := by
  simp only [instances, List.mem_cons, List.not_mem_nil, or_false] at h
  rcases h with rfl | rfl | rfl | rfl <;> exact ⟨by decide, by decide, by decide, by decide⟩

section Loops

variable {inst : Instance}

/-- A round that puts `lo` and `hi` into two words of the state and adds the state
to two words of the buffer. It reads these words and the capacity. -/
structure RhoRound (inst : Instance) (round : State × State → Nat → State × State)
    (lo hi : State × State → Nat → Word) : Prop where
  state : ∀ st, ∀ i < inst.rateWords / 2, ∀ k, (round st i).1 k =
    if k = i then lo st i else if k = i + inst.rateWords / 2 then hi st i else st.1 k
  buffer : ∀ st, ∀ i < inst.rateWords / 2, ∀ k, (round st i).2 k =
    if k = i ∨ k = i + inst.rateWords / 2 then st.2 k ^^^ st.1 k else st.2 k
  reads : ∀ st st' : State × State, ∀ i < inst.rateWords / 2,
    (∀ k, k = i ∨ k = i + inst.rateWords / 2 ∨ inst.rateWords ≤ k →
      st.1 k = st'.1 k ∧ st.2 k = st'.2 k) → lo st i = lo st' i ∧ hi st i = hi st' i

/-- The word `k` of the state or of the buffer. -/
def wordAt (st : State × State) : Bool × Nat → Word
  | (false, k) => st.1 k
  | (true, k) => st.2 k

variable {round : State × State → Nat → State × State} {lo hi : State × State → Nat → Word}

/-- Rounds of different index have nothing to do with each other. -/
theorem RhoRound.footprints (h : RhoRound inst round lo hi) (hInst : inst.Even) :
    Footprints wordAt round (fun i x => x.2 = i ∨ x.2 = i + inst.rateWords / 2)
      (List.range (inst.rateWords / 2)) := by
  have hHalf := hInst.half
  refine ⟨fun i hi j hj x hix hjx => ?_, fun st i hi x hx => ?_, fun st st' i hi hSame x hx => ?_⟩
  · have hi := List.mem_range.mp hi
    have hj := List.mem_range.mp hj
    omega
  · have hi := List.mem_range.mp hi
    obtain ⟨b, k⟩ := x
    obtain ⟨hk, hk'⟩ := not_or.mp hx
    cases b with
    | false => exact (h.state st i hi k).trans ((if_neg hk).trans (if_neg hk'))
    | true => exact (h.buffer st i hi k).trans (if_neg hx)
  · have hi := List.mem_range.mp hi
    have hRead : ∀ k, k = i ∨ k = i + inst.rateWords / 2 ∨ inst.rateWords ≤ k →
        st.1 k = st'.1 k ∧ st.2 k = st'.2 k := by
      intro k hk
      have hEither : ∀ b : Bool, ((b, k).2 = i ∨ (b, k).2 = i + inst.rateWords / 2) ∨
          ∀ j ∈ List.range (inst.rateWords / 2),
            ¬((b, k).2 = j ∨ (b, k).2 = j + inst.rateWords / 2) := by
        intro b
        rcases hk with hk | hk | hk
        · exact Or.inl (Or.inl hk)
        · exact Or.inl (Or.inr hk)
        · refine Or.inr fun j hj => ?_
          have hj := List.mem_range.mp hj
          show ¬(k = j ∨ k = j + inst.rateWords / 2)
          omega
      exact ⟨hSame (false, k) (hEither false), hSame (true, k) (hEither true)⟩
    obtain ⟨hLo, hHi⟩ := h.reads st st' i hi hRead
    obtain ⟨b, k⟩ := x
    obtain ⟨hState, hBuffer⟩ := hRead k (or_assoc.mp (Or.inl hx))
    cases b with
    | false =>
      show (round st i).1 k = (round st' i).1 k
      rw [h.state st i hi, h.state st' i hi, hLo, hHi, hState]
    | true =>
      show (round st i).2 k = (round st' i).2 k
      rw [h.buffer st i hi, h.buffer st' i hi, hState, hBuffer]

/-- The loop, word by word. -/
theorem RhoRound.loop_apply (h : RhoRound inst round lo hi) (hInst : inst.Even)
    (st : State × State) :
    (∀ k, (rhoLoop inst round st).1 k =
      if k < inst.rateWords / 2 then lo st k
      else if k < inst.rateWords then hi st (k - inst.rateWords / 2) else st.1 k) ∧
    ∀ k, (rhoLoop inst round st).2 k =
      if k < inst.rateWords then st.2 k ^^^ st.1 k else st.2 k := by
  have hFoot := h.footprints hInst
  have hHalf := hInst.half
  have hLow : ∀ b k, k < inst.rateWords / 2 →
      wordAt (rhoLoop inst round st) (b, k) = wordAt (round st k) (b, k) := fun b k hk =>
    hFoot.foldl_footprint List.nodup_range (List.mem_range.mpr hk) (Or.inl rfl) st
  have hHigh : ∀ b k, inst.rateWords / 2 ≤ k → k < inst.rateWords →
      wordAt (rhoLoop inst round st) (b, k) =
        wordAt (round st (k - inst.rateWords / 2)) (b, k) := fun b k hk hk' =>
    hFoot.foldl_footprint List.nodup_range (List.mem_range.mpr (by omega))
      (Or.inr (Nat.sub_add_cancel hk).symm) st
  have hRest : ∀ b k, inst.rateWords ≤ k →
      wordAt (rhoLoop inst round st) (b, k) = wordAt st (b, k) :=
    fun b k hk => hFoot.foldl_outside (fun i hi => by
      have hi := List.mem_range.mp hi
      show ¬(k = i ∨ k = i + inst.rateWords / 2)
      omega) st
  refine ⟨fun k => ?_, fun k => ?_⟩
  · by_cases hk : k < inst.rateWords / 2
    · rw [if_pos hk]
      exact (hLow false k hk).trans ((h.state st k hk k).trans (if_pos rfl))
    · rw [if_neg hk]
      by_cases hk' : k < inst.rateWords
      · rw [if_pos hk']
        refine (hHigh false k (Nat.le_of_not_lt hk) hk').trans
          ((h.state st _ (by omega) k).trans ?_)
        rw [if_neg (by omega), if_pos (by omega)]
      · rw [if_neg hk']
        exact hRest false k (Nat.le_of_not_lt hk')
  · by_cases hk : k < inst.rateWords
    · rw [if_pos hk]
      by_cases hk' : k < inst.rateWords / 2
      · exact (hLow true k hk').trans ((h.buffer st k hk' k).trans (if_pos (Or.inl rfl)))
      · exact (hHigh true k (Nat.le_of_not_lt hk') hk).trans
          ((h.buffer st _ (by omega) k).trans (if_pos (Or.inr (by omega))))
    · rw [if_neg hk]
      exact hRest true k (Nat.le_of_not_lt hk)

/-- A round of the encryption. -/
theorem encRound_rho (hInst : inst.Even) : RhoRound inst (encRound inst)
    (fun st i => st.1 (i + inst.rateWords / 2) ^^^ st.2 i ^^^ st.1 (inst.rateWords + i))
    fun st i => st.1 (i + inst.rateWords / 2) ^^^ (st.1 i ^^^ st.2 (i + inst.rateWords / 2) ^^^
      st.1 (inst.rateWords + inst.capIndex (i + inst.rateWords / 2))) := by
  have hHalf := hInst.half
  refine ⟨fun st i hi k => ?_, fun st i hi k => ?_, fun st st' i hi hSame => ?_⟩
  · simp only [encRound, State.set_apply]
    rw [if_neg (show i + inst.rateWords / 2 ≠ i by omega), if_neg (show inst.rateWords +
      inst.capIndex (i + inst.rateWords / 2) ≠ i by omega)]
    grind
  · simp only [encRound, State.set_apply]
    grind
  · obtain ⟨h₁, h₂⟩ := hSame i (Or.inl rfl)
    obtain ⟨h₃, h₄⟩ := hSame (i + inst.rateWords / 2) (Or.inr (Or.inl rfl))
    have h₅ := (hSame (inst.rateWords + i) (Or.inr (Or.inr (Nat.le_add_right _ _)))).1
    have h₆ := (hSame (inst.rateWords + inst.capIndex (i + inst.rateWords / 2))
      (Or.inr (Or.inr (Nat.le_add_right _ _)))).1
    simp only [h₁, h₂, h₃, h₄, h₅, h₆, and_self]

/-- A round of the decryption. -/
theorem decRound_rho (hInst : inst.Even) : RhoRound inst (decRound inst)
    (fun st i =>
      st.1 i ^^^ (st.1 (i + inst.rateWords / 2) ^^^ st.2 i ^^^ st.1 (inst.rateWords + i)))
    fun st i => st.1 i ^^^ st.2 (i + inst.rateWords / 2) ^^^
      st.1 (inst.rateWords + inst.capIndex (i + inst.rateWords / 2)) := by
  have hHalf := hInst.half
  refine ⟨fun st i hi k => ?_, fun st i hi k => ?_, fun st st' i hi hSame => ?_⟩
  · simp only [decRound, State.set_apply]
    rw [if_neg (show inst.rateWords + inst.capIndex (i + inst.rateWords / 2) ≠ i by omega)]
    grind
  · simp only [decRound, State.set_apply]
    grind
  · obtain ⟨h₁, h₂⟩ := hSame i (Or.inl rfl)
    obtain ⟨h₃, h₄⟩ := hSame (i + inst.rateWords / 2) (Or.inr (Or.inl rfl))
    have h₅ := (hSame (inst.rateWords + i) (Or.inr (Or.inr (Nat.le_add_right _ _)))).1
    have h₆ := (hSame (inst.rateWords + inst.capIndex (i + inst.rateWords / 2))
      (Or.inr (Or.inr (Nat.le_add_right _ _)))).1
    simp only [h₁, h₂, h₃, h₄, h₅, h₆, and_self]

/-- The lower word of a pair is the same after encryption and decryption. -/
theorem rho_low (a b d w : Word) : a ^^^ (d ^^^ (b ^^^ a) ^^^ w) = d ^^^ b ^^^ w := by
  have hSwap : a ^^^ (d ^^^ (b ^^^ a) ^^^ w) = a ^^^ a ^^^ (d ^^^ b ^^^ w) := by ac_rfl
  rw [hSwap, BitVec.xor_self, BitVec.zero_xor]

theorem rho_high (a b d w : Word) : d ^^^ (b ^^^ a) ^^^ w = a ^^^ (d ^^^ b ^^^ w) := by ac_rfl

/-- On buffers that differ by the state the two loops reach the same state, and
swap the buffers. -/
theorem loops_swap (hInst : inst.Even) {s b c : State}
    (h : ∀ k < inst.rateWords, c k = b k ^^^ s k) :
    (rhoLoop inst (decRound inst) (s, c)).1 = (rhoLoop inst (encRound inst) (s, b)).1 ∧
      (∀ k < inst.rateWords, (rhoLoop inst (encRound inst) (s, b)).2 k = c k) ∧
      ∀ k < inst.rateWords, (rhoLoop inst (decRound inst) (s, c)).2 k = b k := by
  have hHalf := hInst.half
  obtain ⟨hEnc, hEncBuf⟩ := (encRound_rho hInst).loop_apply hInst (s, b)
  obtain ⟨hDec, hDecBuf⟩ := (decRound_rho hInst).loop_apply hInst (s, c)
  refine ⟨?_, fun k hk => ?_, fun k hk => ?_⟩
  · ext k : 2
    rw [hEnc, hDec]
    split
    · next hk =>
        show s k ^^^ (s (k + inst.rateWords / 2) ^^^ c k ^^^ _) = _
        rw [h k (by omega)]
        exact rho_low _ _ _ _
    · split
      · next hk hk' =>
          have hEq := Nat.sub_add_cancel (Nat.le_of_not_lt hk)
          simp only [hEq, h k hk']
          exact rho_high _ _ _ _
      · rfl
  · rw [hEncBuf, if_pos hk, h k hk]
  · rw [hDecBuf, if_pos hk]
    show c k ^^^ s k = b k
    rw [h k hk, BitVec.xor_assoc, BitVec.xor_self, BitVec.xor_zero]

end Loops

-- ---------------------------------------------------------------------------
-- Blocks
-- ---------------------------------------------------------------------------

section Blocks

variable {inst : Instance} {state : State} {b c : List UInt8}

/-- The bytes of a block under the bytes of the state. -/
def xorState (state : State) (b : List UInt8) : List UInt8 :=
  (List.range b.length).map fun k => copyIn b k ^^^ bytesOf state.word k

theorem length_xorState : (xorState state b).length = b.length := by simp [xorState]

/-- The bytes of the ciphertext. -/
theorem copyIn_xorState {k : Nat} (hk : k < b.length) :
    copyIn (xorState state b) k = copyIn b k ^^^ bytesOf state.word k := by
  rw [copyIn_of_lt (length_xorState.symm ▸ hk)]
  simp [xorState]

/-- The bytes of the state cancel. -/
theorem xorState_xorState : xorState state (xorState state b) = b := by
  have hLen : (xorState state (xorState state b)).length = b.length := by
    rw [length_xorState, length_xorState]
  refine copyIn_ext hLen fun k hk => ?_
  have hk' : k < b.length := hLen ▸ hk
  rw [copyIn_xorState (length_xorState.symm ▸ hk'), copyIn_xorState hk', UInt8.xor_assoc,
    UInt8.xor_self, UInt8.xor_zero]

/-- Padding a block of ciphertext from the state is padding the plaintext. -/
theorem padFromState_eq (hLen : c.length = b.length)
    (hXor : ∀ k < b.length, copyIn c k = copyIn b k ^^^ bytesOf state.word k) {k : Nat}
    (hk : k < inst.rateBytes) :
    padFromState inst state c k = padCopy inst.rateBytes b k ^^^ bytesOf state.word k := by
  unfold padFromState padCopy
  rw [hLen]
  by_cases hIn : k < b.length
  · rw [if_neg (by omega), if_neg (by omega), hXor k hIn]
  · rw [if_pos ⟨Nat.le_of_not_lt hIn, by omega⟩]
    by_cases hEq : k = b.length
    · rw [if_pos hEq, if_pos ⟨by omega, hEq⟩, UInt8.xor_comm]
    · rw [if_neg hEq, if_neg (fun h => hEq h.2), copyIn_of_le (Nat.le_of_not_lt hIn),
        UInt8.zero_xor]

/-- **A block and its encryption.** -/
theorem rhoWhi_last (hInst : inst.Even) (state : State) (hLe : b.length ≤ inst.rateBytes) :
    ∃ t, rhoWhiEncLast inst state b = (t, xorState state b) ∧
      rhoWhiDecLast inst state (xorState state b) = (t, b) := by
  set P : State := ⟨wordsOf (padCopy inst.rateBytes b)⟩ with hP
  set Q : State := ⟨wordsOf (padFromState inst state (xorState state b))⟩ with hQ
  have hRate := hInst.rate_eq
  have hLen : (xorState state b).length = b.length := length_xorState
  have hByte : ∀ k < inst.rateBytes, bytesOf Q.word k =
      bytesOf P.word k ^^^ bytesOf state.word k := by
    intro k hk
    rw [hQ, hP, bytesOf_wordsOf, bytesOf_wordsOf]
    exact padFromState_eq hLen (fun k hk => copyIn_xorState hk) hk
  have hWord : ∀ k < inst.rateWords, Q k = P k ^^^ state k := by
    intro k hk
    have hEq : wordsOf (bytesOf Q.word) k = wordsOf (bytesOf fun i => P i ^^^ state i) k := by
      refine wordsOf_congr fun r hr => ?_
      rw [hByte _ (by omega), bytesOf_xor]
    rwa [wordsOf_bytesOf, wordsOf_bytesOf] at hEq
  obtain ⟨hState, hEnc, hDec⟩ := loops_swap hInst hWord
  refine ⟨(rhoLoop inst (encRound inst) (state, P)).1, Prod.ext rfl ?_, Prod.ext hState ?_⟩
  · show copyOut b.length _ = _
    rw [← hLen]
    refine copyOut_eq fun k hk => ?_
    have hk' : k < b.length := hLen ▸ hk
    rw [bytesOf_congr (hEnc (k / 4) (by omega)), hByte k (by omega), copyIn_xorState hk', hP,
      bytesOf_wordsOf, padCopy, if_neg (by omega)]
  · show copyOut (xorState state b).length _ = b
    rw [length_xorState]
    refine copyOut_eq fun k hk => ?_
    rw [bytesOf_congr (hDec (k / 4) (by omega)), hP, bytesOf_wordsOf, padCopy, if_neg (by omega)]

/-- A full block needs no padding. -/
theorem rhoWhiEnc_full (h : b.length = inst.rateBytes) :
    rhoWhiEnc inst state b = rhoWhiEncLast inst state b := by
  have hPad : padCopy inst.rateBytes b = copyIn b :=
    funext fun k => if_neg fun hk => absurd h hk.1.ne
  rw [rhoWhiEnc, rhoWhiEncLast, hPad, h]

/-- For a full block the last round of the decryption is the usual one. -/
theorem rhoWhiDec_full (h : c.length = inst.rateBytes) :
    rhoWhiDec inst state c = rhoWhiDecLast inst state c := by
  have hPad : padFromState inst state c = copyIn c :=
    funext fun k => if_neg fun hk => absurd h hk.2.ne
  rw [rhoWhiDec, rhoWhiDecLast, hPad, h]

/-- A full block is decrypted to what it was, with the same state. -/
theorem encBlock_pair (hInst : inst.Even) (state : State) (h : b.length = inst.rateBytes) :
    ∃ t, encBlock inst state b = (t, xorState state b) ∧
      decBlock inst state (xorState state b) = (t, b) := by
  obtain ⟨t, hEnc, hDec⟩ := rhoWhi_last hInst state h.le
  refine ⟨slim inst t, ?_, ?_⟩
  · rw [encBlock, rhoWhiEnc_full h, hEnc]
  · rw [decBlock, rhoWhiDec_full (length_xorState.trans h), hDec]

/-- So is the last block. -/
theorem encLast_pair (hInst : inst.Even) (state : State) (h : b.length ≤ inst.rateBytes) :
    ∃ t, encLast inst state b = (t, xorState (addConst inst 2 3 state b.length) b) ∧
      decLast inst state (xorState (addConst inst 2 3 state b.length) b) = (t, b) := by
  obtain ⟨t, hEnc, hDec⟩ := rhoWhi_last hInst (addConst inst 2 3 state b.length) h
  refine ⟨big inst t, ?_, ?_⟩
  · rw [encLast, hEnc]
  · rw [decLast, length_xorState, hDec]

/-- Decryption undoes encryption, from any state. -/
theorem processCipherText_undoes (hInst : inst.Even) (state : State) (m : List UInt8) :
    Undoes (processCipherText inst) (processPlainText inst) state m := by
  refine processBlocks_undo hInst.rate_pos (fun s b hb => ?_) (fun s b hb => ?_) state m
  · obtain ⟨t, hEnc, hDec⟩ := encBlock_pair hInst s hb
    rw [Undoes, hEnc]
    exact ⟨length_xorState, hDec⟩
  · obtain ⟨t, hEnc, hDec⟩ := encLast_pair hInst s hb
    rw [Undoes, hEnc]
    exact ⟨length_xorState, hDec⟩

/-- And encryption undoes decryption. -/
theorem processPlainText_undoes (hInst : inst.Even) (state : State) (c : List UInt8) :
    Undoes (processPlainText inst) (processCipherText inst) state c := by
  refine processBlocks_undo hInst.rate_pos (fun s c hc => ?_) (fun s c hc => ?_) state c
  · obtain ⟨t, hEnc, hDec⟩ := encBlock_pair hInst s (length_xorState.trans hc)
    rw [xorState_xorState] at hEnc hDec
    rw [Undoes, hDec]
    exact ⟨length_xorState, hEnc⟩
  · obtain ⟨t, hEnc, hDec⟩ := encLast_pair (b := xorState (addConst inst 2 3 s c.length) c) hInst s
      (length_xorState.le.trans hc)
    rw [length_xorState, xorState_xorState] at hEnc hDec
    rw [Undoes, hDec]
    exact ⟨length_xorState, hEnc⟩

end Blocks

-- ---------------------------------------------------------------------------
-- Tags and messages
-- ---------------------------------------------------------------------------

section Messages

variable {inst : Instance} {state : State}

/-- The difference is zero if no word differs. -/
theorem foldl_or_eq_zero {l : List Nat} {f : Nat → Word} {acc : Word} :
    l.foldl (fun diff i => diff ||| f i) acc = 0#32 ↔ acc = 0#32 ∧ ∀ i ∈ l, f i = 0#32 := by
  induction l generalizing acc with
  | nil => simp
  | cons i l ih =>
    rw [List.foldl_cons, ih, BitVec.or_eq_zero_iff, List.forall_mem_cons, and_assoc]

/-- `VerifyTag` compares with the tag that `GenerateTag` makes. -/
theorem verifyTag_eq_zero (hInst : inst.Even) {tag : List UInt8}
    (hLen : tag.length = inst.tagBytes) :
    verifyTag inst state tag = 0 ↔ tag = generateTag inst state := by
  have hTag := hInst.tag_eq
  have hDiff : verifyTag inst state tag = 0 ↔
      ∀ i < inst.tagWords, wordsOf (copyIn tag) i = state (inst.rateWords + i) := by
    have hValue : ∀ diff : Word, ((if diff = 0#32 then 1 else 0 : Int) - 1 = 0) ↔ diff = 0#32 := by
      intro diff
      split <;> simp_all
    rw [verifyTag, hValue, foldl_or_eq_zero, and_iff_right rfl]
    simp only [List.mem_range, BitVec.xor_eq_zero_iff]
    exact forall_congr' fun i => imp_congr_right fun _ => eq_comm
  rw [hDiff]
  constructor
  · intro hWords
    rw [generateTag, ← hLen]
    refine (copyOut_eq fun k hk => ?_).symm
    rw [← bytesOf_wordsOf (copyIn tag)]
    exact bytesOf_congr (hWords (k / 4) (by omega)).symm
  · intro hEq i hi
    have hBytes : ∀ k < inst.tagBytes,
        copyIn tag k = bytesOf (fun i => state (inst.rateWords + i)) k := by
      intro k hk
      rw [hEq, generateTag, copyIn_copyOut hk]
    have hWord : wordsOf (copyIn tag) i = wordsOf (bytesOf fun i => state (inst.rateWords + i)) i :=
      wordsOf_congr fun r hr => hBytes _ (by omega)
    rwa [wordsOf_bytesOf] at hWord

/-- The body of a message, if it is not empty. -/
theorem body_undoes {f g : State → List UInt8 → State × List UInt8} (h : ∀ s m, Undoes g f s m)
    (s : State) (m : List UInt8) :
    Undoes (fun s m => if m = [] then (s, []) else g s m)
      (fun s m => if m = [] then (s, []) else f s m) s m := by
  by_cases hm : m = []
  · simp [Undoes, hm]
  · obtain ⟨hLen, hUndo⟩ := h s m
    have hOut : (f s m).2 ≠ [] := by
      intro hNil
      rw [hNil, List.length_nil] at hLen
      exact hm (List.length_eq_zero_iff.mp hLen.symm)
    simp only [Undoes, if_neg hm, if_neg hOut]
    exact ⟨hLen, hUndo⟩

/-- The ciphertext is the message and the tag. -/
theorem length_cryptoAeadEncrypt (hInst : inst.Even) (m ad npub k : List UInt8) :
    (cryptoAeadEncrypt inst m ad npub k).length = m.length + inst.tagBytes := by
  obtain ⟨hLen, -⟩ := body_undoes (processCipherText_undoes hInst) (absorbed inst ad npub k) m
  rw [cryptoAeadEncrypt, List.length_append, generateTag, length_copyOut]
  exact congrArg (· + inst.tagBytes) hLen

/-- Plaintext and tag, over the two modes that undo each other. -/
theorem cryptoAead_undoes (hEven : inst.Even) {c m ad npub k : List UInt8}
    (hLen : inst.tagBytes ≤ c.length) :
    cryptoAeadDecrypt inst c ad npub k = (0, m) ↔ c = cryptoAeadEncrypt inst m ad npub k := by
  set A := absorbed inst ad npub k with hA
  set body := c.take (c.length - inst.tagBytes) with hBody
  set tag := c.drop (c.length - inst.tagBytes) with hTag
  have hSplit : body ++ tag = c := List.take_append_drop _ _
  have hTagLen : tag.length = inst.tagBytes := by
    rw [hTag, List.length_drop]
    omega
  have hDec := body_undoes (processPlainText_undoes hEven) A body
  have hEnc := body_undoes (processCipherText_undoes hEven) A m
  set D := fun s c => if c = [] then (s, []) else processCipherText inst s c with hD
  set E := fun s m => if m = [] then (s, []) else processPlainText inst s m with hE
  have hDecrypt : cryptoAeadDecrypt inst c ad npub k =
      (verifyTag inst (finalize inst (D A body).1 k) tag, (D A body).2) := rfl
  have hEncrypt : cryptoAeadEncrypt inst m ad npub k =
      (E A m).2 ++ generateTag inst (finalize inst (E A m).1 k) := rfl
  rw [hDecrypt, hEncrypt, Prod.mk.injEq, verifyTag_eq_zero hEven hTagLen]
  constructor
  · rintro ⟨hTagEq, rfl⟩
    rw [hDec.2, ← hTagEq, hSplit]
  · intro hc
    rw [← hSplit] at hc
    have hGenerated : (generateTag inst (finalize inst (E A m).1 k)).length = tag.length := by
      rw [generateTag, length_copyOut, hTagLen]
    obtain ⟨hBodyEq, hTagEq⟩ := List.append_inj' hc hGenerated.symm
    rw [hBodyEq, hEnc.2]
    exact ⟨hTagEq, rfl⟩

/-- **Decryption accepts the encryptions.** For every message, associated data,
nonce and key: `crypto_aead_decrypt` returns 0 and a plaintext exactly for the
ciphertext that `crypto_aead_encrypt` makes of it. -/
theorem cryptoAeadDecrypt_iff (hInst : inst ∈ instances) {c m ad npub k : List UInt8}
    (hLen : inst.tagBytes ≤ c.length) :
    cryptoAeadDecrypt inst c ad npub k = (0, m) ↔ c = cryptoAeadEncrypt inst m ad npub k :=
  cryptoAead_undoes (even_of_mem hInst) hLen

/-- Three bytes, encrypted under the key of the element. -/
theorem cryptoAeadDecrypt_seckey : cryptoAeadDecrypt schwaemm256128
    (cryptoAeadEncrypt schwaemm256128 [1, 2, 3] [4] (List.replicate 32 0) (List.replicate 16 2)) [4]
    (List.replicate 32 0) (List.replicate 16 2) = (0, [1, 2, 3]) := by
  have hMem : schwaemm256128 ∈ instances := by simp [instances]
  refine (cryptoAeadDecrypt_iff hMem ?_).mpr rfl
  rw [length_cryptoAeadEncrypt (even_of_mem hMem)]
  decide

end Messages

end Schwaemm

end Obscure
