import Obscure.Crypto.Sparkle
import Obscure.Lib.Blocks
import Obscure.Lib.LittleEndian

/-!
# OBSCURE — the hash function Esch

`crypto_hash` of `runtime/sparkle/esch/esch.c`, in the two instances of `esch.h`;
the runtime and the compiler are built with the first one. `add_msg_blk` and
`add_msg_blk_last` are the same loops, on a block as it is and on a padded one.

The comments of the source say where it departs from the specification: the
Feistel function is meant for a block that is padded with zeros to half of the
state, and the constant of the last block goes through the inverse of the Feistel
function first. `specHash` is the function that is specified.

* `cryptoHash_eq_spec`    — the two functions agree;
* `processMessage_change` — messages that differ in one block reach different states.
-/

namespace Obscure

open Lib

namespace Esch

open Sparkle (State ell mixed sumOver)

-- ---------------------------------------------------------------------------
-- Instances
-- ---------------------------------------------------------------------------

/-- The macros of an instance. -/
structure Instance where
  stateBytes : Nat
  rateBytes : Nat
  stepsSlim : Nat
  stepsBig : Nat
  digestBytes : Nat
deriving DecidableEq

def esch256 : Instance := ⟨48, 16, 7, 11, 32⟩

def esch384 : Instance := ⟨64, 16, 8, 12, 48⟩

/-- The values of `ESCH_INST`. -/
def instances : List Instance := [esch256, esch384]

namespace Instance

variable (inst : Instance)

def stateBrans : Nat := inst.stateBytes / 8

def stateWords : Nat := inst.stateBytes / 4

def rateWords : Nat := inst.rateBytes / 4

end Instance

/-- `CONST_M1`. -/
def constM1 : Word := 1 <<< 24

/-- `CONST_M2`. -/
def constM2 : Word := 2 <<< 24

-- ---------------------------------------------------------------------------
-- The functions of `esch.c`
-- ---------------------------------------------------------------------------

section Functions

variable (inst : Instance)

/-- One round of the loops that add to the state; `x` and `y` are added to the
words of a branch. -/
def addRound (x y : Nat → Word) (state : State) (b : Nat) : State :=
  let i := 2 * b
  let state := state.set i (state i ^^^ x i)
  state.set (i + 1) (state (i + 1) ^^^ y (i + 1))

/-- The loops of `add_msg_blk` and `add_msg_blk_last`. -/
def addMsg (state buffer : State) : State :=
  let (tmpx, tmpy) := (List.range (inst.rateWords / 2)).foldl
    (fun t b => (t.1 ^^^ buffer (2 * b), t.2 ^^^ buffer (2 * b + 1))) (0, 0)
  let tmpx := ell tmpx
  let tmpy := ell tmpy
  let state := (List.range (inst.rateWords / 2)).foldl
    (addRound (fun i => buffer i ^^^ tmpy) fun i => buffer i ^^^ tmpx) state
  (List.range' (inst.rateWords / 2) (inst.stateWords / 2 / 2 - inst.rateWords / 2)).foldl
    (addRound (fun _ => tmpy) fun _ => tmpx) state

/-- `add_msg_blk`. -/
def addMsgBlk (state : State) (block : List UInt8) : State :=
  addMsg inst state ⟨wordsOf (copyIn block)⟩

/-- `add_msg_blk_last`. -/
def addMsgBlkLast (state : State) (block : List UInt8) : State :=
  addMsg inst state ⟨wordsOf (padCopy inst.rateBytes block)⟩

/-- `esch_sparkle` with the slim number of steps. -/
def slim (state : State) : State := Sparkle.sparkle inst.stateBrans inst.stepsSlim state

/-- With the big one. -/
def big (state : State) : State := Sparkle.sparkle inst.stateBrans inst.stepsBig state

/-- The constant for a last block. -/
def lastConst (inlen : Nat) : Word := if inlen < inst.rateBytes then constM1 else constM2

/-- A block in the loop of `Esch_ProcessMessage`. -/
def hashBlock (state : State) (block : List UInt8) : State := slim inst (addMsgBlk inst state block)

/-- The last block. -/
def hashLast (state : State) (block : List UInt8) : State :=
  let state := state.set (inst.stateBrans - 1)
    (state (inst.stateBrans - 1) ^^^ lastConst inst block.length)
  big inst (addMsgBlkLast inst state block)

/-- `Esch_Initialize`. -/
def initializeState : State := ⟨fun _ => 0⟩

/-- `Esch_ProcessMessage`. -/
def processMessage (state : State) (m : List UInt8) : State :=
  absorbBlocks inst.rateBytes (hashBlock inst) (hashLast inst) state m

/-- The loop of `Esch_Finalize` for `n` more blocks of the digest. -/
def squeeze (state : State) : Nat → List UInt8
  | 0 => []
  | n + 1 => copyOut inst.rateBytes (slim inst state).word ++ squeeze (slim inst state) n

/-- `Esch_Finalize`. -/
def finalize (state : State) : List UInt8 :=
  copyOut inst.rateBytes state.word ++ squeeze inst state ((inst.digestBytes - 1) / inst.rateBytes)

/-- `crypto_hash`. -/
def cryptoHash (m : List UInt8) : List UInt8 :=
  finalize inst (processMessage inst initializeState m)

end Functions

-- ---------------------------------------------------------------------------
-- The specification
-- ---------------------------------------------------------------------------

section Specification

/-- The exclusive or of two states. -/
def add (s t : State) : State := ⟨fun k => s k ^^^ t k⟩

/-- `y` added to the even words of `h` branches, and `x` to the odd ones. -/
def mix (h : Nat) (x y : Word) (w : State) : State :=
  ⟨fun k => if k < 2 * h then w k ^^^ mixed x y k else w k⟩

/-- The sums of the even and of the odd words. -/
def sumX (h : Nat) (w : State) : Word := sumOver w 0 (List.range h)

def sumY (h : Nat) (w : State) : Word := sumOver w 1 (List.range h)

/-- The Feistel function on `h` branches. -/
def feistel (h : Nat) (w : State) : State := mix h (ell (sumX h w)) (ell (sumY h w)) w

/-- Its inverse. -/
def feistelInv (h : Nat) (w : State) : State :=
  if h % 2 = 0 then mix h (ell (sumX h w)) (ell (sumY h w)) w
  else mix h (sumX h w ^^^ ell (sumY h w)) (sumY h w ^^^ ell (sumX h w)) w

variable (inst : Instance)

/-- A block padded with zeros. -/
def zeroPad (buffer : State) : State := ⟨fun k => if k < inst.rateWords then buffer k else 0⟩

/-- The constant for a last block. -/
def constM (inlen : Nat) : State :=
  ⟨fun k => if k = inst.stateBrans - 1 then lastConst inst inlen else 0⟩

/-- A block in the specification. -/
def specBlock (state : State) (block : List UInt8) : State :=
  slim inst (add state (feistel (inst.stateBrans / 2) (zeroPad inst ⟨wordsOf (copyIn block)⟩)))

def specLast (state : State) (block : List UInt8) : State :=
  big inst (add state (feistel (inst.stateBrans / 2)
    (add (zeroPad inst ⟨wordsOf (padCopy inst.rateBytes block)⟩)
      (feistelInv (inst.stateBrans / 2) (constM inst block.length)))))

/-- The hash function of the specification. -/
def specHash (m : List UInt8) : List UInt8 :=
  finalize inst (absorbBlocks inst.rateBytes (specBlock inst) (specLast inst) initializeState m)

end Specification

-- ---------------------------------------------------------------------------
-- The Feistel function
-- ---------------------------------------------------------------------------

section Feistel

variable {h : Nat} {x y x' y' : Word} {w w' : State}

/-- The bits of `ELL`. -/
theorem getLsbD_ell (x : Word) (i : Nat) : (ell x).getLsbD i =
    if i < 16 then (x.getLsbD (i + 16) ^^ x.getLsbD i)
    else decide (i < 32) && x.getLsbD (i - 16) := by
  have hRot : (ell x).getLsbD i = ((x ^^^ x <<< 16).getLsbD (16 + i) ||
      (decide (i < 32) && !decide (i < 16) && (x ^^^ x <<< 16).getLsbD (i - 16))) := by
    simp only [ell, Sparkle.rot, BitVec.getLsbD_or, BitVec.getLsbD_ushiftRight,
      BitVec.getLsbD_shiftLeft]
  have hSum : ∀ j, (x ^^^ x <<< 16).getLsbD j =
      (x.getLsbD j ^^ (decide (j < 32) && !decide (j < 16) && x.getLsbD (j - 16))) := by
    intro j
    rw [BitVec.getLsbD_xor, BitVec.getLsbD_shiftLeft]
  rw [hRot, hSum, hSum]
  by_cases hi : i < 16
  · have h₁ : i + 16 < 32 := by omega
    simp [hi, h₁, Nat.add_comm 16 i]
  · have h₁ : ¬ 16 + i < 32 := by omega
    have h₂ : x.getLsbD (16 + i) = false := BitVec.getLsbD_of_ge _ _ (by omega)
    by_cases hi' : i < 32
    · have h₃ : i - 16 < 16 := by omega
      simp only [hi, hi', h₁, h₂, h₃, if_false, decide_true, decide_false, Bool.not_true,
        Bool.not_false, Bool.and_false, Bool.false_and, Bool.true_and, Bool.and_true,
        Bool.xor_false, Bool.false_or]
    · simp [hi, hi', h₁, h₂]

/-- `ELL` is linear. -/
theorem ell_xor (a b : Word) : ell (a ^^^ b) = ell a ^^^ ell b := by
  refine BitVec.eq_of_getLsbD_eq fun i hi => ?_
  rw [BitVec.getLsbD_xor]
  simp only [getLsbD_ell, BitVec.getLsbD_xor]
  split
  · cases a.getLsbD (i + 16) <;> cases a.getLsbD i <;> cases b.getLsbD (i + 16) <;>
      cases b.getLsbD i <;> rfl
  · simp [hi]

/-- The square of `ELL` adds the word. -/
theorem ell_ell (a : Word) : ell (ell a) = ell a ^^^ a := by
  refine BitVec.eq_of_getLsbD_eq fun i hi => ?_
  rw [BitVec.getLsbD_xor]
  simp only [getLsbD_ell]
  by_cases hLow : i < 16
  · simp only [if_pos hLow, if_neg (show ¬ i + 16 < 16 by omega), show i + 16 < 32 by omega,
      decide_true, Bool.true_and, Nat.add_sub_cancel]
    cases a.getLsbD i <;> cases a.getLsbD (i + 16) <;> rfl
  · simp only [if_neg hLow, if_pos (show i - 16 < 16 by omega), hi, decide_true, Bool.true_and,
      Nat.sub_add_cancel (Nat.le_of_not_lt hLow)]
    cases a.getLsbD i <;> cases a.getLsbD (i - 16) <;> rfl

/-- `ELL` loses nothing: its upper half gives back the lower half of the argument. -/
theorem ell_injective : Function.Injective ell := by
  refine Function.LeftInverse.injective (g := fun b => ell b ^^^ b) fun a => ?_
  show ell (ell a) ^^^ ell a = a
  rw [ell_ell, BitVec.xor_comm (ell a), BitVec.xor_assoc, BitVec.xor_self, BitVec.xor_zero]

/-- The two sums through `ELL` and back. -/
theorem ell_forth (a b : Word) : ell (a ^^^ (b ^^^ ell a)) = a ^^^ ell b := by
  have hSwap : ell a ^^^ (ell b ^^^ (ell a ^^^ a)) = ell a ^^^ ell a ^^^ (a ^^^ ell b) := by ac_rfl
  rw [ell_xor, ell_xor, ell_ell, hSwap, BitVec.xor_self, BitVec.zero_xor]

/-- The feedback of the feedback is the feedback of the first word. -/
theorem ell_back (a b : Word) : a ^^^ ell b ^^^ ell (b ^^^ ell a) = ell a := by
  have hSwap : a ^^^ ell b ^^^ (ell b ^^^ (ell a ^^^ a)) =
      a ^^^ a ^^^ (ell b ^^^ ell b) ^^^ ell a := by
    ac_rfl
  rw [ell_xor, ell_ell, hSwap, BitVec.xor_self, BitVec.xor_self, BitVec.xor_self, BitVec.zero_xor]

/-- The feedback of a sum is the sum of the feedbacks. -/
theorem mixed_xor (k : Nat) : mixed (x ^^^ x') (y ^^^ y') k = mixed x y k ^^^ mixed x' y' k := by
  unfold mixed
  split <;> rfl

theorem mix_apply (k : Nat) : mix h x y w k = if k < 2 * h then w k ^^^ mixed x y k else w k := rfl

theorem add_apply (k : Nat) : add w w' k = w k ^^^ w' k := rfl

/-- Two mixes that add the same. -/
theorem mix_cancel (hx : x = x') (hy : y = y') : mix h x y (mix h x' y' w) = w := by
  subst hx hy
  ext k : 2
  rw [mix_apply, mix_apply]
  split
  · rw [BitVec.xor_assoc, BitVec.xor_self, BitVec.xor_zero]
  · rfl

/-- Mixing is linear. -/
theorem mix_add : mix h (x ^^^ x') (y ^^^ y') (add w w') = add (mix h x y w) (mix h x' y' w') := by
  ext k : 2
  rw [mix_apply, add_apply, add_apply, mix_apply, mix_apply]
  split
  · rw [mixed_xor]
    ac_rfl
  · rfl

/-- So are sums. -/
theorem sumOver_add (o : Nat) (bs : List Nat) :
    sumOver (add w w') o bs = sumOver w o bs ^^^ sumOver w' o bs := by
  induction bs using List.reverseRecOn with
  | nil => simp [sumOver]
  | append_singleton bs b ih =>
    simp only [Sparkle.sumOver_append_singleton, ih, add_apply]
    ac_rfl

/-- The Feistel function is linear. -/
theorem feistel_add (h : Nat) (w w' : State) :
    feistel h (add w w') = add (feistel h w) (feistel h w') := by
  rw [feistel, sumX, sumY, sumOver_add, sumOver_add, ell_xor, ell_xor, mix_add]
  rfl

/-- Sums after a mix: those of an odd number of branches change. -/
theorem sumOver_mix {o n : Nat} (ho : o < 2) (hn : n ≤ h) : sumOver (mix h x y w) o (List.range n) =
    if n % 2 = 0 then sumOver w o (List.range n)
    else sumOver w o (List.range n) ^^^ mixed x y o := by
  induction n with
  | zero => rfl
  | succ n ih =>
    have hWord : mix h x y w (2 * n + o) = w (2 * n + o) ^^^ mixed x y o := by
      have hParity : (2 * n + o) % 2 = o % 2 := by omega
      rw [mix_apply, if_pos (by omega), Sparkle.mixed_congr hParity]
    rw [List.range_succ, Sparkle.sumOver_append_singleton, Sparkle.sumOver_append_singleton,
      ih (Nat.le_of_succ_le hn), hWord]
    rcases Nat.mod_two_eq_zero_or_one n with hEven | hOdd
    · rw [if_pos hEven, if_neg (by omega), BitVec.xor_assoc]
    · have hSwap : ∀ s v m : Word, s ^^^ m ^^^ (v ^^^ m) = s ^^^ v ^^^ (m ^^^ m) :=
        fun s v m => by ac_rfl
      rw [if_neg (by omega), if_pos (by omega), hSwap, BitVec.xor_self, BitVec.xor_zero]

/-- The first sum after mixing: the feedback cancels for an even number of branches. -/
theorem sumX_mix : sumX h (mix h x y w) = if h % 2 = 0 then sumX h w else sumX h w ^^^ y :=
  sumOver_mix (by decide) (Nat.le_refl h)

theorem sumY_mix : sumY h (mix h x y w) = if h % 2 = 0 then sumY h w else sumY h w ^^^ x :=
  sumOver_mix (by decide) (Nat.le_refl h)

/-- The Feistel layer undoes its inverse. -/
theorem feistel_feistelInv (h : Nat) (w : State) : feistel h (feistelInv h w) = w := by
  unfold feistelInv
  split
  · next hEven => exact mix_cancel (by rw [sumX_mix, if_pos hEven]) (by rw [sumY_mix, if_pos hEven])
  · next hOdd =>
      refine mix_cancel ?_ ?_
      · rw [sumX_mix, if_neg hOdd, ell_forth]
      · rw [sumY_mix, if_neg hOdd, ell_forth]

theorem feistelInv_feistel (h : Nat) (w : State) : feistelInv h (feistel h w) = w := by
  unfold feistelInv feistel
  split
  · next hEven => exact mix_cancel (by rw [sumX_mix, if_pos hEven]) (by rw [sumY_mix, if_pos hEven])
  · next hOdd =>
      refine mix_cancel ?_ ?_
      · rw [sumX_mix, sumY_mix, if_neg hOdd, if_neg hOdd, ell_back]
      · rw [sumX_mix, sumY_mix, if_neg hOdd, if_neg hOdd, ell_back]

/-- The Feistel layer loses nothing. -/
theorem feistel_injective (h : Nat) : Function.Injective (feistel h) :=
  Function.LeftInverse.injective (feistelInv_feistel h)

end Feistel

-- ---------------------------------------------------------------------------
-- The loops
-- ---------------------------------------------------------------------------

/-- What the proofs need of the sizes of an instance. -/
structure Instance.Sized (inst : Instance) : Prop where
  rate_pos : 0 < inst.rateBytes
  rate_eq : inst.rateBytes = 4 * inst.rateWords
  words_eq : inst.rateWords = 2 * (inst.rateWords / 2)
  brans_eq : inst.stateBrans = 2 * (inst.stateBrans / 2)
  half_eq : inst.stateWords / 2 / 2 = inst.stateBrans / 2
  room : inst.rateWords + 2 ≤ inst.stateBrans

/-- Both instances have the sizes that the proofs need. -/
theorem sized_of_mem {inst : Instance} (h : inst ∈ instances) : inst.Sized := by
  simp only [instances, List.mem_cons, List.not_mem_nil, or_false] at h
  rcases h with rfl | rfl <;>
    exact ⟨by decide, by decide, by decide, by decide, by decide, by decide⟩

section Loops

variable {inst : Instance}

/-- One round adds the block and the feedback to a branch. -/
theorem addRound_apply (x y : Nat → Word) (s : State) (b k : Nat) : addRound x y s b k =
    if k / 2 = b then s k ^^^ (if k % 2 = 0 then x k else y k) else s k := by
  simp only [addRound, Sparkle.State.set_apply]
  grind

/-- The rounds of different branches do not see each other. -/
theorem addRounds_apply (x y : Nat → Word) {bs : List Nat} (hNodup : bs.Nodup) (s : State)
    (k : Nat) :
    bs.foldl (addRound x y) s k =
      if k / 2 ∈ bs then s k ^^^ (if k % 2 = 0 then x k else y k) else s k := by
  induction bs generalizing s with
  | nil => rfl
  | cons b bs ih =>
    obtain ⟨hb, hbs⟩ := List.nodup_cons.mp hNodup
    rw [List.foldl_cons, ih hbs, addRound_apply]
    by_cases hEq : k / 2 = b
    · simp [hEq, hb]
    · simp [hEq]

/-- The loop collects the two sums of the block. -/
theorem foldl_sums (buffer : State) (bs : List Nat) (t : Word × Word) :
    bs.foldl (fun t b => (t.1 ^^^ buffer (2 * b), t.2 ^^^ buffer (2 * b + 1))) t =
      (t.1 ^^^ sumOver buffer 0 bs, t.2 ^^^ sumOver buffer 1 bs) := by
  induction bs generalizing t with
  | nil => simp [sumOver]
  | cons b bs ih =>
    have hCons : ∀ o, sumOver buffer o (b :: bs) = buffer (2 * b + o) ^^^ sumOver buffer o bs := by
      intro o
      rw [← Sparkle.foldl_sum, ← BitVec.zero_xor (x := buffer (2 * b + o))]
      rfl
    rw [List.foldl_cons, ih, hCons, hCons, BitVec.xor_assoc, BitVec.xor_assoc]
    rfl

/-- The sums of a block with zeros. -/
theorem sumOver_zeroPad (hInst : inst.Sized) {o : Nat} (ho : o < 2) (buffer : State) :
    sumOver (zeroPad inst buffer) o (List.range (inst.stateBrans / 2)) =
      sumOver buffer o (List.range (inst.rateWords / 2)) := by
  have hRoom := hInst.room
  have hWords := hInst.words_eq
  obtain ⟨n, hn⟩ : ∃ n, inst.stateBrans / 2 = inst.rateWords / 2 + n :=
    Nat.exists_eq_add_of_le (by omega)
  rw [hn]
  clear hn
  induction n with
  | zero =>
    refine Sparkle.sumOver_congr fun b hb => if_pos ?_
    have hb := List.mem_range.mp hb
    omega
  | succ n ih =>
    have hZero : zeroPad inst buffer (2 * (inst.rateWords / 2 + n) + o) = 0#32 := if_neg (by omega)
    rw [← Nat.add_assoc, List.range_succ, Sparkle.sumOver_append_singleton, ih, hZero,
      BitVec.xor_zero]

/-- **The injection without the zeros.** -/
theorem addMsg_eq (hInst : inst.Sized) (state buffer : State) :
    addMsg inst state buffer = add state (feistel (inst.stateBrans / 2) (zeroPad inst buffer)) := by
  have hRoom := hInst.room
  have hWords := hInst.words_eq
  have hBrans := hInst.brans_eq
  ext k : 2
  have hSum : ∀ t : Word, 0 ^^^ t = t := fun t => BitVec.zero_xor
  rw [addMsg, foldl_sums, hInst.half_eq]
  simp only [addRounds_apply _ _ List.nodup_range, addRounds_apply _ _ List.nodup_range',
    List.mem_range, List.mem_range'_1, hSum]
  rw [add_apply, feistel, mix_apply, sumX, sumY, sumOver_zeroPad hInst (by decide),
    sumOver_zeroPad hInst (by decide)]
  set tmpx := ell (sumOver buffer 0 (List.range (inst.rateWords / 2)))
  set tmpy := ell (sumOver buffer 1 (List.range (inst.rateWords / 2)))
  have hMixed : (if k % 2 = 0 then buffer k ^^^ tmpy else buffer k ^^^ tmpx) =
      buffer k ^^^ mixed tmpx tmpy k := by
    unfold mixed
    split <;> rfl
  rw [hMixed]
  show _ = state k ^^^
    if k < _ then (if k < inst.rateWords then buffer k else 0) ^^^ mixed tmpx tmpy k
    else if k < inst.rateWords then buffer k else 0
  by_cases hRate : k < inst.rateWords
  · rw [if_neg (by omega), if_pos (by omega), if_pos (by omega), if_pos hRate]
  · rw [if_neg (show ¬ k / 2 < inst.rateWords / 2 by omega), if_neg hRate, hSum]
    by_cases hHalf : k < 2 * (inst.stateBrans / 2)
    · rw [if_pos (by omega), if_pos hHalf]
      rfl
    · rw [if_neg (by omega), if_neg hHalf]
      exact BitVec.xor_zero.symm

end Loops

-- ---------------------------------------------------------------------------
-- The hash function and its specification
-- ---------------------------------------------------------------------------

section Blocks

variable {inst : Instance} {b b' : List UInt8}

/-- A block is processed as specified. -/
theorem hashBlock_eq_spec (hInst : inst.Sized) (s : State) (b : List UInt8) :
    hashBlock inst s b = specBlock inst s b := by
  rw [hashBlock, addMsgBlk, addMsg_eq hInst, specBlock]

theorem hashLast_eq_spec (hInst : inst.Sized) (s : State) (b : List UInt8) :
    hashLast inst s b = specLast inst s b := by
  have hConst : s.set (inst.stateBrans - 1) (s (inst.stateBrans - 1) ^^^ lastConst inst b.length) =
      add s (constM inst b.length) := by
    ext k : 2
    rw [Sparkle.State.set_apply, add_apply]
    show _ = s k ^^^ if k = inst.stateBrans - 1 then lastConst inst b.length else 0
    split
    · next hk => rw [hk]
    · exact BitVec.xor_zero.symm
  have hComm : ∀ t u v : State, add (add t u) v = add t (add v u) := by
    intro t u v
    ext k : 2
    simp only [add_apply]
    ac_rfl
  rw [hashLast, hConst, addMsgBlkLast, addMsg_eq hInst, specLast, feistel_add, feistel_feistelInv,
    hComm]

/-- **The source computes the specified hash.** Leaving the zeros out and adding the
constant behind the Feistel function changes nothing, for any message and both
instances. -/
theorem cryptoHash_eq_spec (hInst : inst ∈ instances) (m : List UInt8) :
    cryptoHash inst m = specHash inst m := by
  have hSized := sized_of_mem hInst
  rw [cryptoHash, processMessage, specHash, funext₂ (hashBlock_eq_spec hSized),
    funext₂ (hashLast_eq_spec hSized)]

/-- A message of two blocks. -/
theorem cryptoHash_eq_spec_twenty :
    cryptoHash esch256 (List.replicate 20 1) = specHash esch256 (List.replicate 20 1) :=
  cryptoHash_eq_spec (by simp [instances]) _

/-- The length of what is squeezed out. -/
theorem length_squeeze (s : State) (n : Nat) : (squeeze inst s n).length = n * inst.rateBytes := by
  induction n generalizing s with
  | zero => exact (Nat.zero_mul _).symm
  | succ n ih => rw [squeeze, List.length_append, length_copyOut, ih, Nat.succ_mul, Nat.add_comm]

/-- The digests have the length of the instance. -/
theorem length_cryptoHash (hInst : inst ∈ instances) (m : List UInt8) :
    (cryptoHash inst m).length = inst.digestBytes := by
  rw [cryptoHash, finalize, List.length_append, length_copyOut, length_squeeze]
  simp only [instances, List.mem_cons, List.not_mem_nil, or_false] at hInst
  rcases hInst with rfl | rfl <;> rfl

-- ---------------------------------------------------------------------------
-- Messages that differ in one block
-- ---------------------------------------------------------------------------

/-- The permutation loses nothing. -/
theorem Instance.Sized.sparkle_injective (h : inst.Sized) (steps : Nat) :
    Function.Injective (Sparkle.sparkle inst.stateBrans steps) := by
  have hBrans := h.brans_eq
  have hRoom := h.room
  exact Function.LeftInverse.injective (Sparkle.sparkleInv_sparkle (by omega) (by omega) steps)

/-- Adding a fixed state loses nothing. -/
theorem add_left_injective (w : State) : Function.Injective fun s => add s w := by
  intro s s' hEq
  ext k : 2
  have hWord : s k ^^^ w k = s' k ^^^ w k := congrArg (fun t : State => t k) hEq
  exact (BitVec.xor_left_inj _).mp hWord

theorem add_right_injective (s : State) : Function.Injective (add s) := by
  intro w w' hEq
  ext k : 2
  have hWord : s k ^^^ w k = s k ^^^ w' k := congrArg (fun t : State => t k) hEq
  exact (BitVec.xor_right_inj _).mp hWord

/-- The bytes of a block are found in its words. -/
theorem bytes_of_zeroPad (hInst : inst.Sized) {f g : Nat → UInt8}
    (h : zeroPad inst ⟨wordsOf f⟩ = zeroPad inst ⟨wordsOf g⟩) {k : Nat} (hk : k < inst.rateBytes) :
    f k = g k := by
  have hRate := hInst.rate_eq
  have hWord : (if k / 4 < inst.rateWords then wordsOf f (k / 4) else 0) =
      if k / 4 < inst.rateWords then wordsOf g (k / 4) else 0 :=
        congrArg (fun t : State => t (k / 4)) h
  rw [if_pos (by omega), if_pos (by omega)] at hWord
  have hByte := bytesOf_congr (k := k) hWord
  rwa [bytesOf_wordsOf, bytesOf_wordsOf] at hByte

/-- With a fixed block the step is a permutation of the states. -/
theorem specBlock_state (hInst : inst.Sized) (b : List UInt8) :
    Function.Injective fun s => specBlock inst s b :=
  (hInst.sparkle_injective _).comp (add_left_injective _)

/-- The last block, for a fixed block, loses nothing of the state. -/
theorem specLast_state (hInst : inst.Sized) (b : List UInt8) :
    Function.Injective fun s => specLast inst s b :=
  (hInst.sparkle_injective _).comp (add_left_injective _)

/-- A block, for a fixed state, loses nothing of the block. -/
theorem specBlock_block (hInst : inst.Sized) {s : State} (hb : b.length = inst.rateBytes)
    (hb' : b'.length = inst.rateBytes) (hEq : specBlock inst s b = specBlock inst s b') :
    b = b' := by
  have hPad := feistel_injective _ (add_right_injective _ (hInst.sparkle_injective _ hEq))
  exact copyIn_ext (hb.trans hb'.symm) fun k hk => bytes_of_zeroPad hInst hPad (hb ▸ hk)

theorem sumOver_zero {w : State} {o : Nat} {bs : List Nat} (h : ∀ b ∈ bs, w (2 * b + o) = 0#32) :
    sumOver w o bs = 0#32 := by
  induction bs using List.reverseRecOn with
  | nil => rfl
  | append_singleton bs b ih =>
    rw [Sparkle.sumOver_append_singleton, ih fun b hb => h b (List.mem_append_left _ hb),
      h b (List.mem_append_right _ List.mem_cons_self), BitVec.xor_zero]

/-- The constant behind the inverse, at the even word of the last branch. -/
theorem feistelInv_constM (hInst : inst.Sized) (n : Nat) :
    feistelInv (inst.stateBrans / 2) (constM inst n) (inst.stateBrans - 2) =
      if inst.stateBrans / 2 % 2 = 0 then ell (lastConst inst n) else lastConst inst n := by
  have hBrans := hInst.brans_eq
  have hRoom := hInst.room
  obtain ⟨h, hh⟩ : ∃ h, inst.stateBrans / 2 = h + 1 := Nat.exists_eq_add_of_le' (by omega)
  have hWord : ∀ k, constM inst n k = if k = inst.stateBrans - 1 then lastConst inst n else 0 :=
    fun k => rfl
  have hX : sumX (h + 1) (constM inst n) = 0#32 :=
    sumOver_zero fun b _ => (hWord _).trans (if_neg (by omega))
  have hY : sumY (h + 1) (constM inst n) = lastConst inst n := by
    have hBefore : sumOver (constM inst n) 1 (List.range h) = 0#32 := by
      refine sumOver_zero fun b hb => (hWord _).trans (if_neg ?_)
      have hb := List.mem_range.mp hb
      omega
    rw [sumY, List.range_succ, Sparkle.sumOver_append_singleton, hBefore, BitVec.zero_xor, hWord,
      if_pos (by omega)]
  have hMix : ∀ x y, mix (h + 1) x y (constM inst n) (inst.stateBrans - 2) = y := by
    intro x y
    rw [mix_apply, if_pos (by omega), hWord, if_neg (by omega), mixed, if_pos (by omega)]
    exact BitVec.zero_xor
  rw [hh, feistelInv]
  split
  · rw [hMix, hY]
  · rw [hMix, hY, hX]
    exact BitVec.xor_zero

/-- The last block, for a fixed state, loses nothing of the block, whatever its length. -/
theorem specLast_block (hInst : inst.Sized) {s : State} (hb : b.length ≤ inst.rateBytes)
    (hb' : b'.length ≤ inst.rateBytes) (hEq : specLast inst s b = specLast inst s b') : b = b' := by
  have hRoom := hInst.room
  have hSame := feistel_injective _ (add_right_injective _ (hInst.sparkle_injective _ hEq))
  -- behind the block only the constants are left
  have hWord := congrArg (fun t : State => t (inst.stateBrans - 2)) hSame
  have hZero : ∀ p, zeroPad inst p (inst.stateBrans - 2) = 0#32 := fun p => if_neg (by omega)
  simp only [add_apply, hZero, BitVec.zero_xor, feistelInv_constM hInst] at hWord
  have hConst : lastConst inst b.length = lastConst inst b'.length := by
    split at hWord
    · exact ell_injective hWord
    · exact hWord
  have hConstM : constM inst b.length = constM inst b'.length := by
    rw [constM, constM, hConst]
  rw [hConstM] at hSame
  have hBytes : ∀ k < inst.rateBytes, padCopy inst.rateBytes b k = padCopy inst.rateBytes b' k :=
    fun k hk => bytes_of_zeroPad hInst (add_left_injective _ hSame) hk
  have hFull : b.length < inst.rateBytes ↔ b'.length < inst.rateBytes := by
    unfold lastConst at hConst
    split at hConst <;> split at hConst <;> first | exact absurd hConst (by decide) | simp [*]
  by_cases hShort : b.length < inst.rateBytes
  · exact padCopy_injective hShort (hFull.mp hShort) hBytes
  · have hShort' := fun h => hShort (hFull.mpr h)
    refine copyIn_ext (by omega) fun k hk => ?_
    have hByte := hBytes k (by omega)
    rwa [padCopy, padCopy, if_neg fun h => hShort h.1, if_neg fun h => hShort' h.1] at hByte

/-- **A change within a block is not lost.** Messages whose blocks are the same up to
one of them are absorbed into different states. -/
theorem processMessage_change (hInst : inst ∈ instances) {s : State} {m m' b b' : List UInt8}
    {bs cs : List (List UInt8)} (hm : blocks inst.rateBytes m = bs ++ b :: cs)
    (hm' : blocks inst.rateBytes m' = bs ++ b' :: cs) (hNe : b ≠ b') :
    processMessage inst s m ≠ processMessage inst s m' := by
  have hSized := sized_of_mem hInst
  intro hEq
  rw [processMessage, processMessage, funext₂ (hashBlock_eq_spec hSized),
    funext₂ (hashLast_eq_spec hSized)] at hEq
  have hSame : m = m' := absorbBlocks_change hSized.rate_pos (specBlock_state hSized)
    (specLast_state hSized) (fun s b b' hb hb' => specBlock_block hSized hb hb')
    (fun s b b' hb hb' => specLast_block hSized hb hb') bs hm hm' hEq
  rw [hSame, hm', List.append_cancel_left_eq, List.cons.injEq] at hm
  exact hNe hm.1.symm

/-- Twenty bytes, the first of them changed. -/
theorem processMessage_change_twenty :
    processMessage esch256 initializeState (0 :: List.replicate 19 1) ≠
      processMessage esch256 initializeState (List.replicate 20 1) :=
  processMessage_change (by simp [instances])
    (show blocks 16 (0 :: List.replicate 19 1) = [] ++
      (0 :: List.replicate 15 1) :: [List.replicate 4 1] by
      decide)
    (show blocks 16 (List.replicate 20 1) = [] ++
      List.replicate 16 1 :: [List.replicate 4 1] by decide)
    (by decide)

end Blocks

end Esch

end Obscure
