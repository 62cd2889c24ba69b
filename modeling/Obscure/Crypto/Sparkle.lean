import Mathlib.Data.List.Perm.Basic
import Obscure.IR
import Obscure.Lib.InPlace

/-!
# OBSCURE — the Sparkle permutation

`schwaemm_sparkle` and `schwaemm_sparkle_inv` of
`runtime/sparkle/schwaemm/sparkle.c`; `esch/sparkle.c` and the copy the compiler
links have the same functions under other names. The state is an array of words,
here read by their index; a branch `b` is the pair of words `2 b` and
`2 b + 1`, and the loops over `j` in steps of two are loops over branches. There
is an even number of branches, `brans`, of which the first half is mixed into the
second.

* `sparkle_eq_iff` — the two functions undo each other.
-/

namespace Obscure

open Lib

namespace Sparkle

/-- The array of words. -/
@[ext] structure State where
  word : Nat → Word

instance : CoeFun State fun _ => Nat → Word := ⟨State.word⟩

/-- `state[i] = v`. -/
def State.set (s : State) (i : Nat) (v : Word) : State := ⟨fun k => if k = i then v else s k⟩

theorem State.set_apply (s : State) (i : Nat) (v : Word) (k : Nat) :
    s.set i v k = if k = i then v else s k := rfl

-- ---------------------------------------------------------------------------
-- The functions of `sparkle.c`
-- ---------------------------------------------------------------------------

/-- `ROT`. -/
def rot (x : Word) (n : Nat) : Word := x >>> n ||| x <<< (32 - n)

/-- `ELL`. -/
def ell (x : Word) : Word := rot (x ^^^ x <<< 16) 16

/-- `MAX_BRANCHES`. -/
def maxBranches : Nat := 8

/-- `RCON`. -/
def rcon : List Word :=
  [0xB7E15162, 0xBF715880, 0x38B4DA56, 0x324E7738, 0xBB1185EB, 0x4F7C7B57, 0xCFBFA1C8, 0xC2B3293D]

/-- The round constant of step `i`. -/
def addRoundConstant (s : State) (i : Nat) : State :=
  let s := s.set 1 (s 1 ^^^ rcon.getD (i % maxBranches) 0)
  s.set 3 (s 3 ^^^ BitVec.ofNat 32 i)

/-- `state[j] += ROT(state[j+1], n)`. -/
def addRot (n : Nat) (p : Word × Word) : Word × Word := (p.1 + rot p.2 n, p.2)

/-- `state[j] += state[j+1]`. -/
def addBranch (p : Word × Word) : Word × Word := (p.1 + p.2, p.2)

/-- `state[j+1] ^= ROT(state[j], n)`. -/
def xorRot (n : Nat) (p : Word × Word) : Word × Word := (p.1, p.2 ^^^ rot p.1 n)

/-- `state[j] ^= rc`. -/
def xorConst (rc : Word) (p : Word × Word) : Word × Word := (p.1 ^^^ rc, p.2)

/-- `state[j] -= ROT(state[j+1], n)`. -/
def subRot (n : Nat) (p : Word × Word) : Word × Word := (p.1 - rot p.2 n, p.2)

/-- `state[j] -= state[j+1]`. -/
def subBranch (p : Word × Word) : Word × Word := (p.1 - p.2, p.2)

/-- The ARX-box on one branch. -/
def arxBox (rc : Word) (p : Word × Word) : Word × Word :=
  p |> addRot 31 |> xorRot 24 |> xorConst rc
    |> addRot 17 |> xorRot 17 |> xorConst rc
    |> addBranch |> xorRot 31 |> xorConst rc
    |> addRot 24 |> xorRot 16 |> xorConst rc

def arxBoxInv (rc : Word) (p : Word × Word) : Word × Word :=
  p |> xorConst rc |> xorRot 16 |> subRot 24
    |> xorConst rc |> xorRot 31 |> subBranch
    |> xorConst rc |> xorRot 17 |> subRot 17
    |> xorConst rc |> xorRot 24 |> subRot 31

/-- Branch `b` after a box with its constant. -/
def onBranch (box : Word → Word × Word → Word × Word) (s : State) (b : Nat) : State :=
  let p := box (rcon.getD b 0) (s (2 * b), s (2 * b + 1))
  (s.set (2 * b) p.1).set (2 * b + 1) p.2

/-- The ARX-box layer. -/
def arxLayer (box : Word → Word × Word → Word × Word) (brans : Nat) (s : State) : State :=
  (List.range brans).foldl (onBranch box) s

/-- The branches of the first half but the first one. -/
def laterBranches (brans : Nat) : List Nat := List.range' 1 (brans / 2 - 1)

/-- One round of the second loop of the linear layer. -/
def linearRound (brans : Nat) (tmpx tmpy : Word) (s : State) (b : Nat) : State :=
  let j := 2 * b
  let s := s.set (j - 2) (s (j + brans) ^^^ s j ^^^ tmpy)
  let s := s.set (j + brans) (s j)
  let s := s.set (j - 1) (s (j + brans + 1) ^^^ s (j + 1) ^^^ tmpx)
  s.set (j + brans + 1) (s (j + 1))

/-- The linear layer. -/
def linearLayer (brans : Nat) (s : State) : State :=
  let x0 := s 0
  let y0 := s 1
  let tmpx := ell ((laterBranches brans).foldl (fun t b => t ^^^ s (2 * b)) x0)
  let tmpy := ell ((laterBranches brans).foldl (fun t b => t ^^^ s (2 * b + 1)) y0)
  let s := (laterBranches brans).foldl (linearRound brans tmpx tmpy) s
  let s := s.set (brans - 2) (s brans ^^^ x0 ^^^ tmpy)
  let s := s.set brans x0
  let s := s.set (brans - 1) (s (brans + 1) ^^^ y0 ^^^ tmpx)
  s.set (brans + 1) y0

/-- One round of the first loop of the inverse linear layer, on the state and the
two sums. -/
def linearRoundInv (brans : Nat) (st : State × Word × Word) (b : Nat) : State × Word × Word :=
  let j := 2 * b
  let (s, tmpx, tmpy) := st
  let s := s.set j (s (j + brans))
  let tmpx := tmpx ^^^ s j
  let s := s.set (j + brans) (s (j - 2))
  let s := s.set (j + 1) (s (j + brans + 1))
  let tmpy := tmpy ^^^ s (j + 1)
  let s := s.set (j + brans + 1) (s (j - 1))
  (s, tmpx, tmpy)

/-- One round of its second loop. -/
def unmixRound (brans : Nat) (tmpx tmpy : Word) (s : State) (b : Nat) : State :=
  let j := 2 * b
  let s := s.set (j + brans) (s (j + brans) ^^^ (tmpy ^^^ s j))
  s.set (j + brans + 1) (s (j + brans + 1) ^^^ (tmpx ^^^ s (j + 1)))

/-- The inverse linear layer. -/
def linearLayerInv (brans : Nat) (s : State) : State :=
  let xb1 := s (brans - 2)
  let yb1 := s (brans - 1)
  let (s, tmpx, tmpy) := (laterBranches brans).reverse.foldl (linearRoundInv brans) (s, 0, 0)
  let s := s.set 0 (s brans)
  let tmpx := tmpx ^^^ s 0
  let s := s.set brans xb1
  let s := s.set 1 (s (brans + 1))
  let tmpy := tmpy ^^^ s 1
  let s := s.set (brans + 1) yb1
  (List.range (brans / 2)).reverse.foldl (unmixRound brans (ell tmpx) (ell tmpy)) s

/-- One step. -/
def sparkleStep (brans : Nat) (s : State) (i : Nat) : State :=
  linearLayer brans (arxLayer arxBox brans (addRoundConstant s i))

/-- One step backwards. -/
def sparkleStepInv (brans : Nat) (s : State) (i : Nat) : State :=
  addRoundConstant (arxLayer arxBoxInv brans (linearLayerInv brans s)) i

/-- `schwaemm_sparkle`. -/
def sparkle (brans steps : Nat) (s : State) : State :=
  (List.range steps).foldl (sparkleStep brans) s

/-- `schwaemm_sparkle_inv`. -/
def sparkleInv (brans steps : Nat) (s : State) : State :=
  (List.range steps).reverse.foldl (sparkleStepInv brans) s

-- ---------------------------------------------------------------------------
-- Constants and ARX-boxes
-- ---------------------------------------------------------------------------

theorem xor_xor_self (a b : Word) : a ^^^ b ^^^ b = a := by
  rw [BitVec.xor_assoc, BitVec.xor_self, BitVec.xor_zero]

/-- Adding a round constant again takes it away. -/
theorem addRoundConstant_twice (s : State) (i : Nat) :
    addRoundConstant (addRoundConstant s i) i = s := by
  ext k : 2
  have h31 : ¬(3 : Nat) = 1 := by decide
  have h13 : ¬(1 : Nat) = 3 := by decide
  simp only [addRoundConstant, State.set_apply, h31, h13, if_true, if_false, xor_xor_self]
  split_ifs with h3 h1
  · rw [h3]
  · rw [h1]
  · rfl

section Boxes

variable (n : Nat) (rc : Word) (p : Word × Word)

@[simp] theorem subRot_addRot : subRot n (addRot n p) = p := by simp [subRot, addRot]

@[simp] theorem addRot_subRot : addRot n (subRot n p) = p := by simp [subRot, addRot]

@[simp] theorem subBranch_addBranch : subBranch (addBranch p) = p := by simp [subBranch, addBranch]

@[simp] theorem addBranch_subBranch : addBranch (subBranch p) = p := by simp [subBranch, addBranch]

/-- The rotated exclusive or undoes itself. -/
@[simp] theorem xorRot_twice : xorRot n (xorRot n p) = p := by
  rw [xorRot, xorRot, xor_xor_self]

/-- The constant undoes itself. -/
@[simp] theorem xorConst_twice : xorConst rc (xorConst rc p) = p := by
  rw [xorConst, xorConst, xor_xor_self]

/-- The ARX-box is undone by its inverse, step by step. -/
theorem arxBoxInv_arxBox : arxBoxInv rc (arxBox rc p) = p := by simp [arxBox, arxBoxInv]

theorem arxBox_arxBoxInv : arxBox rc (arxBoxInv rc p) = p := by simp [arxBox, arxBoxInv]

end Boxes

section Layer

variable (box : Word → Word × Word → Word × Word)

/-- The two words of a branch. -/
def Branch (b k : Nat) : Prop := k = 2 * b ∨ k = 2 * b + 1

/-- A box replaces the two words of its branch. -/
theorem onBranch_apply (s : State) (b k : Nat) :
    onBranch box s b k =
      if k = 2 * b + 1 then (box (rcon.getD b 0) (s (2 * b), s (2 * b + 1))).2
      else if k = 2 * b then (box (rcon.getD b 0) (s (2 * b), s (2 * b + 1))).1 else s k := by
  simp only [onBranch, State.set_apply]

/-- Boxes on different branches have nothing to do with each other. -/
theorem onBranch_footprints (brans : Nat) :
    Footprints State.word (onBranch box) Branch (List.range brans) where
  disjoint := fun i _ j _ k hi hj => by
    unfold Branch at hi hj
    omega
  frame := fun s b _ k hk => by
    unfold Branch at hk
    rw [onBranch_apply, if_neg (by omega), if_neg (by omega)]
  reads := fun s s' b _ hSame k hk => by
    rw [onBranch_apply, onBranch_apply, hSame (2 * b) (Or.inl (Or.inl rfl)),
      hSame (2 * b + 1) (Or.inl (Or.inr rfl)), hSame k (Or.inl hk)]

/-- The layer, word by word. -/
theorem arxLayer_apply (brans : Nat) (s : State) (k : Nat) :
    arxLayer box brans s k = if k < 2 * brans then onBranch box s (k / 2) k else s k := by
  have hFoot := onBranch_footprints box brans
  split
  · next hk =>
      have hBranch : Branch (k / 2) k := by
        unfold Branch
        omega
      exact hFoot.foldl_footprint List.nodup_range (List.mem_range.mpr (by omega)) hBranch s
  · next hk =>
      refine hFoot.foldl_outside (fun b hb => ?_) s
      have hb := List.mem_range.mp hb
      unfold Branch
      omega

/-- A layer of boxes is undone by the layer of their inverses. -/
theorem arxLayer_undo {box box' : Word → Word × Word → Word × Word}
    (h : ∀ rc p, box' rc (box rc p) = p) (brans : Nat) (s : State) :
    arxLayer box' brans (arxLayer box brans s) = s := by
  ext k : 2
  rw [arxLayer_apply]
  split
  · next hk =>
      -- the branch as the first layer leaves it
      have hEven : arxLayer box brans s (2 * (k / 2)) =
          (box (rcon.getD (k / 2) 0) (s (2 * (k / 2)), s (2 * (k / 2) + 1))).1 := by
        rw [arxLayer_apply, if_pos (by omega), onBranch_apply, if_neg (by omega), if_pos (by omega),
          Nat.mul_div_cancel_left _ (by decide)]
      have hOdd : arxLayer box brans s (2 * (k / 2) + 1) =
          (box (rcon.getD (k / 2) 0) (s (2 * (k / 2)), s (2 * (k / 2) + 1))).2 := by
        rw [arxLayer_apply, if_pos (by omega), onBranch_apply,
          show (2 * (k / 2) + 1) / 2 = k / 2 by omega, if_pos rfl]
      rw [onBranch_apply, hEven, hOdd, Prod.mk.eta, h]
      split
      · next hOddK => exact congrArg s hOddK.symm
      · rw [if_pos (by omega)]
        exact congrArg s (by omega)
  · next hk => rw [arxLayer_apply, if_neg hk]

end Layer

-- ---------------------------------------------------------------------------
-- The linear layer
-- ---------------------------------------------------------------------------

section Linear

variable {brans : Nat} {tmpx tmpy : Word}

/-- One round of the loop moves a branch of each half, and adds the two feedback words on one
side. -/
theorem linearRound_apply (hBrans : brans % 2 = 0) {b : Nat} (hb : 1 ≤ b)
    (s : State) (k : Nat) : linearRound brans tmpx tmpy s b k =
      if k = 2 * b - 2 then s (2 * b + brans) ^^^ s (2 * b) ^^^ tmpy
      else if k = 2 * b - 1 then s (2 * b + brans + 1) ^^^ s (2 * b + 1) ^^^ tmpx
      else if k = 2 * b + brans then s (2 * b)
      else if k = 2 * b + brans + 1 then s (2 * b + 1) else s k := by
  simp only [linearRound, State.set_apply]
  grind

/-- What is added to a word of the first half. -/
def mixed (tmpx tmpy : Word) (k : Nat) : Word := if k % 2 = 0 then tmpy else tmpx

/-- The second loop after `n` rounds. -/
theorem linearRounds_apply (hBrans : brans % 2 = 0) {n : Nat} (hn : 2 * n + 2 ≤ brans) (s : State)
    (k : Nat) : (List.range' 1 n).foldl (linearRound brans tmpx tmpy) s k =
      if k < 2 * n then s (k + 2 + brans) ^^^ s (k + 2) ^^^ mixed tmpx tmpy k
      else if brans + 2 ≤ k ∧ k < brans + 2 + 2 * n then s (k - brans) else s k := by
  induction n generalizing k with
  | zero =>
    rw [if_neg (by omega), if_neg (by omega)]
    rfl
  | succ n ih =>
    rw [List.range'_1_concat, List.foldl_append, List.foldl_cons, List.foldl_nil,
      linearRound_apply hBrans (Nat.le_add_right 1 n)]
    simp only [ih (by omega)]
    unfold mixed
    grind

/-- The exclusive or of the words `2 b + o` of the branches in a list. -/
def sumOver (s : State) (o : Nat) (bs : List Nat) : Word :=
  bs.foldl (fun t b => t ^^^ s (2 * b + o)) 0#32

/-- The loop adds up the words of the branches to what it starts with. -/
theorem foldl_sum (s : State) (o : Nat) (t : Word) (bs : List Nat) :
    bs.foldl (fun t b => t ^^^ s (2 * b + o)) t = t ^^^ sumOver s o bs := by
  induction bs generalizing t with
  | nil => simp [sumOver]
  | cons b bs ih =>
    have hCons : sumOver s o (b :: bs) = s (2 * b + o) ^^^ sumOver s o bs := by
      rw [← BitVec.zero_xor (x := s (2 * b + o)), ← ih]
      rfl
    rw [List.foldl_cons, ih, hCons, BitVec.xor_assoc]

/-- The first branch and the later ones are the left half. -/
theorem range_half (hTwo : 2 ≤ brans) : List.range (brans / 2) = 0 :: laterBranches brans := by
  obtain ⟨n, hn⟩ : ∃ n, brans / 2 = n + 1 := ⟨brans / 2 - 1, by omega⟩
  rw [laterBranches, hn, List.range_eq_range', List.range'_succ]
  rfl

/-- The branch a word of the first half is computed from: the next one. -/
def nextWord (brans k : Nat) : Nat := if k + 2 < brans then k + 2 else k + 2 - brans

/-- The linear layer, word by word. -/
theorem linearLayer_apply (hBrans : brans % 2 = 0) (hTwo : 2 ≤ brans) (s : State) (k : Nat) :
    linearLayer brans s k =
      if k < brans then s (nextWord brans k + brans) ^^^ s (nextWord brans k) ^^^
        mixed (ell (sumOver s 0 (List.range (brans / 2))))
          (ell (sumOver s 1 (List.range (brans / 2)))) k
      else if k < 2 * brans then s (k - brans) else s k := by
  have hSum : ∀ o, (laterBranches brans).foldl (fun t b => t ^^^ s (2 * b + o)) (s o) =
      sumOver s o (List.range (brans / 2)) := by
    intro o
    rw [range_half hTwo, sumOver, List.foldl_cons, Nat.mul_zero, Nat.zero_add, BitVec.zero_xor]
  have hRounds : ∀ tmpx tmpy k, (laterBranches brans).foldl (linearRound brans tmpx tmpy) s k = _ :=
    fun tmpx tmpy k => linearRounds_apply hBrans (by omega) s k
  have hX := hSum 0
  simp only [Nat.add_zero] at hX
  simp only [linearLayer, hX, hSum 1, State.set_apply, hRounds]
  unfold mixed nextWord
  grind

/-- The branch before. -/
def prevWord (brans k : Nat) : Nat := if k < 2 then k + brans - 2 else k - 2

/-- The first loop of the inverse, which runs backwards, after `n` rounds. -/
theorem linearRoundsInv_apply (hBrans : brans % 2 = 0) {n : Nat} (hn : 2 * n + 2 ≤ brans)
    (s : State) (k : Nat) :
    ((List.range' 1 n).reverse.foldl (linearRoundInv brans) (s, tmpx, tmpy)).1 k =
      if 2 ≤ k ∧ k < 2 * n + 2 then s (k + brans)
      else if brans + 2 ≤ k ∧ k < brans + 2 * n + 2 then s (k - brans - 2) else s k := by
  induction n generalizing s tmpx tmpy with
  | zero =>
    rw [if_neg (by omega), if_neg (by omega)]
    rfl
  | succ n ih =>
    rw [List.range'_1_concat, List.reverse_append, List.reverse_singleton, List.singleton_append,
      List.foldl_cons]
    simp only [linearRoundInv]
    rw [ih (by omega)]
    simp only [State.set_apply]
    grind

theorem sumOver_congr {s s' : State} {o : Nat} {bs : List Nat}
    (h : ∀ b ∈ bs, s (2 * b + o) = s' (2 * b + o)) : sumOver s o bs = sumOver s' o bs :=
  List.foldl_ext _ _ _ fun t b hb => congrArg (t ^^^ ·) (h b hb)

theorem sumOver_append_singleton (s : State) (o : Nat) (bs : List Nat) (b : Nat) :
    sumOver s o (bs ++ [b]) = sumOver s o bs ^^^ s (2 * b + o) := List.foldl_concat ..

/-- The loop of the inverse collects the two feedback words on its way. -/
theorem linearRoundsInv_sums {n : Nat} (hn : 2 * n + 2 ≤ brans) (s : State) :
    ((List.range' 1 n).reverse.foldl (linearRoundInv brans) (s, tmpx, tmpy)).2 =
      (tmpx ^^^ sumOver s brans (List.range' 1 n), tmpy ^^^ sumOver s (brans + 1)
        (List.range' 1 n)) := by
  induction n generalizing s tmpx tmpy with
  | zero => simp [sumOver]
  | succ n ih =>
    rw [List.range'_1_concat, List.reverse_append, List.reverse_singleton, List.singleton_append,
      List.foldl_cons, sumOver_append_singleton, sumOver_append_singleton]
    simp only [linearRoundInv]
    rw [ih (by omega)]
    -- the round does not write what the later ones add up
    have hSame : ∀ o, o = brans ∨ o = brans + 1 → ∀ s' : State,
        (∀ k, k < brans + 2 * n + 2 → brans ≤ k → s' k = s k) →
        sumOver s' o (List.range' 1 n) = sumOver s o (List.range' 1 n) := by
      refine fun o ho s' hs' => sumOver_congr fun b hb => hs' _ ?_ ?_
      · have := List.mem_range'_1.mp hb
        omega
      · omega
    rw [hSame brans (Or.inl rfl), hSame (brans + 1) (Or.inr rfl)]
    · simp only [State.set_apply, BitVec.xor_comm]
      grind
    all_goals
      intro k hk hkLe
      simp only [State.set_apply]
      grind

/-- The last loop, word by word. -/
theorem unmixRounds_apply (hBrans : brans % 2 = 0) (s : State) (k : Nat) :
    (List.range (brans / 2)).reverse.foldl (unmixRound brans tmpx tmpy) s k =
      if brans ≤ k ∧ k < 2 * brans then s k ^^^ (mixed tmpx tmpy k ^^^ s (k - brans)) else s k := by
  have hApply : ∀ (s : State) b k, unmixRound brans tmpx tmpy s b k =
      if k = 2 * b + brans then s k ^^^ (tmpy ^^^ s (2 * b))
      else if k = 2 * b + brans + 1 then s k ^^^ (tmpx ^^^ s (2 * b + 1)) else s k := by
    intro s b k
    simp only [unmixRound, State.set_apply]
    grind
  have hFoot : Footprints State.word (unmixRound brans tmpx tmpy)
      (fun b k => k = 2 * b + brans ∨ k = 2 * b + brans + 1) (List.range (brans / 2)).reverse := by
    refine ⟨fun i _ j _ k hi hj => by omega, fun s b _ k hk => ?_, fun s s' b hb hSame k hk => ?_⟩
    · rw [hApply, if_neg (by omega), if_neg (by omega)]
    · have hb := List.mem_range.mp (List.mem_reverse.mp hb)
      have hLow : ∀ k', k' < brans → s k' = s' k' :=
        fun k' hk' => hSame k' (Or.inr fun j _ => by omega)
      rw [hApply, hApply, hSame k (Or.inl hk), hLow (2 * b) (by omega), hLow (2 * b + 1) (by omega)]
  split
  · next hk =>
      have hMem : (k - brans) / 2 ∈ (List.range (brans / 2)).reverse :=
        List.mem_reverse.mpr (List.mem_range.mpr (by omega))
      rw [hFoot.foldl_footprint (List.nodup_reverse.mpr List.nodup_range) hMem (by omega), hApply]
      unfold mixed
      grind
  · next hk =>
      refine hFoot.foldl_outside (fun b hb => ?_) s
      have hb := List.mem_range.mp (List.mem_reverse.mp hb)
      omega

/-- The inverse linear layer, word by word. -/
theorem linearLayerInv_apply (hBrans : brans % 2 = 0) (hTwo : 2 ≤ brans) (s : State) (k : Nat) :
    linearLayerInv brans s k =
      if k < brans then s (k + brans)
      else if k < 2 * brans then s (prevWord brans (k - brans)) ^^^
        (mixed (ell (sumOver s brans (List.range (brans / 2))))
          (ell (sumOver s (brans + 1) (List.range (brans / 2)))) k ^^^ s k)
      else s k := by
  have hLater : laterBranches brans = List.range' 1 (brans / 2 - 1) := rfl
  have hRounds : ∀ k, ((laterBranches brans).reverse.foldl (linearRoundInv brans) (s, 0, 0)).1 k =
      _ :=
    fun k => linearRoundsInv_apply hBrans (by omega) s k
  have hSums : ((laterBranches brans).reverse.foldl (linearRoundInv brans) (s, 0, 0)).2 = _ :=
    linearRoundsInv_sums (by omega) s
  -- the sums of all branches but the first one, completed with the first
  have hSum : ∀ o, sumOver s o (laterBranches brans) ^^^ s o =
      sumOver s o (List.range (brans / 2)) := by
    intro o
    rw [range_half hTwo, BitVec.xor_comm]
    have hFold := foldl_sum s o (s o) (laterBranches brans)
    rw [← hFold, sumOver, List.foldl_cons, Nat.mul_zero, Nat.zero_add, BitVec.zero_xor]
  rw [← hLater] at hSums
  unfold linearLayerInv
  generalize (laterBranches brans).reverse.foldl (linearRoundInv brans) (s, 0, 0) = st
    at hRounds hSums ⊢
  obtain ⟨s₁, tmpx, tmpy⟩ := st
  obtain ⟨rfl, rfl⟩ := Prod.mk.inj hSums
  simp only at hRounds ⊢
  have hOne : s₁ brans = s brans := by rw [hRounds, if_neg (by omega), if_neg (by omega)]
  have hNext : s₁ (brans + 1) = s (brans + 1) := by
    rw [hRounds, if_neg (by omega), if_neg (by omega)]
  have hZero : ∀ t : Word, (0 : Word) ^^^ t = t := fun t => BitVec.zero_xor
  have hNe : brans + 1 ≠ brans := Nat.succ_ne_self brans
  -- the words after the moves
  have hMoved : ∀ k, (if k = brans + 1 then s (brans - 1) else if k = 1 then s (brans + 1)
      else if k = brans then s (brans - 2) else if k = 0 then s brans else s₁ k) =
      if k < brans then s (k + brans)
      else if k < 2 * brans then s (prevWord brans (k - brans)) else s k := by
    intro k
    unfold prevWord
    have hHalf : 2 * (brans / 2) = brans := by omega
    by_cases h1 : k = brans + 1
    · subst h1
      rw [if_pos rfl, if_neg (by omega), if_pos (by omega), if_pos (by omega)]
      congr 1
      omega
    by_cases h2 : k = 1
    · subst h2
      rw [if_neg h1, if_pos rfl, if_pos (by omega), Nat.add_comm]
    by_cases h3 : k = brans
    · subst h3
      rw [if_neg h1, if_neg h2, if_pos rfl, if_neg (by omega), if_pos (by omega), if_pos (by omega)]
      congr 1
      omega
    by_cases h4 : k = 0
    · subst h4
      rw [if_neg h1, if_neg h2, if_neg h3, if_pos rfl, if_pos (by omega), Nat.zero_add]
    rw [if_neg h1, if_neg h2, if_neg h3, if_neg h4, hRounds]
    split_ifs <;> first | rfl | omega
  -- unmixing only changes the words that were moved into the right half
  rw [unmixRounds_apply hBrans]
  simp only [State.set_apply, if_true, if_neg hNe, if_neg (Nat.succ_ne_zero brans),
    if_neg (show (1 : Nat) ≠ brans by omega), hOne, hNext, hZero, hSum, hMoved]
  by_cases hLow : k < brans
  · rw [if_neg (by omega), if_pos hLow, if_pos hLow]
  · have hLe := Nat.le_of_not_lt hLow
    by_cases hHigh : k < 2 * brans
    · rw [if_pos ⟨hLe, hHigh⟩, if_neg hLow, if_pos hHigh, if_pos (show k - brans < brans by omega),
        Nat.sub_add_cancel hLe, if_neg hLow, if_pos hHigh]
    · rw [if_neg (fun h => hHigh h.2), if_neg hLow, if_neg hHigh, if_neg hLow, if_neg hHigh]

/-- The feedback depends on whether the index is even. -/
theorem mixed_congr {k k' : Nat} (h : k % 2 = k' % 2) : mixed tmpx tmpy k = mixed tmpx tmpy k' := by
  rw [mixed, mixed, h]

/-- The feedback cancels when a word is mixed and unmixed. -/
theorem unmix (a b m : Word) : a ^^^ b ^^^ m ^^^ (m ^^^ b) = a := by
  rw [BitVec.xor_assoc, ← BitVec.xor_assoc m, BitVec.xor_self, BitVec.zero_xor, BitVec.xor_assoc,
    BitVec.xor_self, BitVec.xor_zero]

theorem remix (a b m : Word) : a ^^^ (m ^^^ b) ^^^ b ^^^ m = a := by
  rw [BitVec.xor_assoc a, BitVec.xor_assoc m, BitVec.xor_self, BitVec.xor_zero, BitVec.xor_assoc,
    BitVec.xor_self, BitVec.xor_zero]

/-- The linear layers undo each other. -/
theorem linearLayerInv_linearLayer (hBrans : brans % 2 = 0) (hTwo : 2 ≤ brans) (s : State) :
    linearLayerInv brans (linearLayer brans s) = s := by
  ext k : 2
  have hHigh : ∀ k, k < brans → linearLayer brans s (k + brans) = s k := by
    intro k hk
    rw [linearLayer_apply hBrans hTwo, if_neg (by omega), if_pos (by omega), Nat.add_sub_cancel]
  have hSum : ∀ o < 2, sumOver (linearLayer brans s) (brans + o) (List.range (brans / 2)) =
      sumOver s o (List.range (brans / 2)) := by
    intro o ho
    refine List.foldl_ext _ _ _ fun t b hb => congrArg (t ^^^ ·) ?_
    have hb := List.mem_range.mp hb
    rw [show 2 * b + (brans + o) = 2 * b + o + brans by omega, hHigh _ (by omega)]
  have hSumX := hSum 0 (by decide)
  rw [Nat.add_zero] at hSumX
  rw [linearLayerInv_apply hBrans hTwo, hSumX, hSum 1 (by decide)]
  split
  · next hk => exact hHigh k hk
  · next hk =>
      split
      · next hk' =>
          obtain ⟨i, rfl⟩ := Nat.exists_eq_add_of_le' (Nat.le_of_not_lt hk)
          have hPrev : prevWord brans i < brans := by
            unfold prevWord
            split <;> omega
          have hNext : nextWord brans (prevWord brans i) = i := by
            unfold nextWord prevWord
            split <;> split <;> omega
          have hParity : prevWord brans i % 2 = (i + brans) % 2 := by
            unfold prevWord
            split <;> omega
          rw [Nat.add_sub_cancel, hHigh i (by omega), linearLayer_apply hBrans hTwo, if_pos hPrev,
            hNext, mixed_congr hParity]
          exact unmix _ _ _
      · next hk' => rw [linearLayer_apply hBrans hTwo, if_neg hk, if_neg hk']

/-- The linear layer undoes its inverse. -/
theorem linearLayer_linearLayerInv (hBrans : brans % 2 = 0) (hTwo : 2 ≤ brans) (s : State) :
    linearLayer brans (linearLayerInv brans s) = s := by
  ext k : 2
  have hLow : ∀ k, k < brans → linearLayerInv brans s k = s (k + brans) := by
    intro k hk
    rw [linearLayerInv_apply hBrans hTwo, if_pos hk]
  have hSum : ∀ o < 2, sumOver (linearLayerInv brans s) o (List.range (brans / 2)) =
      sumOver s (brans + o) (List.range (brans / 2)) := by
    intro o ho
    refine List.foldl_ext _ _ _ fun t b hb => congrArg (t ^^^ ·) ?_
    have hb := List.mem_range.mp hb
    rw [hLow _ (by omega), show 2 * b + o + brans = 2 * b + (brans + o) by omega]
  rw [linearLayer_apply hBrans hTwo, hSum 0 (by decide), hSum 1 (by decide)]
  split
  · next hk =>
      have hNext : nextWord brans k < brans := by
        unfold nextWord
        split <;> omega
      have hPrev : prevWord brans (nextWord brans k) = k := by
        unfold nextWord prevWord
        split <;> split <;> omega
      have hParity : (nextWord brans k + brans) % 2 = k % 2 := by
        unfold nextWord
        split <;> omega
      rw [hLow _ hNext, linearLayerInv_apply hBrans hTwo, if_neg (by omega), if_pos (by omega),
        Nat.add_sub_cancel, hPrev, mixed_congr hParity]
      exact remix _ _ _
  · next hk =>
      split
      · next hk' => rw [hLow _ (by omega), Nat.sub_add_cancel (Nat.le_of_not_lt hk)]
      · next hk' => rw [linearLayerInv_apply hBrans hTwo, if_neg hk, if_neg hk']

end Linear

-- ---------------------------------------------------------------------------
-- The permutation
-- ---------------------------------------------------------------------------

section Permutation

variable {brans : Nat}

/-- The permutation is undone by its inverse. -/
theorem sparkleInv_sparkle (hBrans : brans % 2 = 0) (hTwo : 2 ≤ brans) (steps : Nat) (s : State) :
    sparkleInv brans steps (sparkle brans steps s) = s := by
  refine foldl_undo (fun s i => ?_) (List.range steps) s
  rw [sparkleStepInv, sparkleStep, linearLayerInv_linearLayer hBrans hTwo,
    arxLayer_undo arxBoxInv_arxBox, addRoundConstant_twice]

/-- And the other way round. -/
theorem sparkle_sparkleInv (hBrans : brans % 2 = 0) (hTwo : 2 ≤ brans) (steps : Nat) (s : State) :
    sparkle brans steps (sparkleInv brans steps s) = s := by
  have hUndo := foldl_undo (f := sparkleStepInv brans) (g := sparkleStep brans) (fun s i => ?_)
    (List.range steps).reverse s
  · rwa [List.reverse_reverse] at hUndo
  · rw [sparkleStepInv, sparkleStep, addRoundConstant_twice, arxLayer_undo arxBox_arxBoxInv,
      linearLayer_linearLayerInv hBrans hTwo]

/-- **The inverse is an inverse.** For every even number of branches, every number
of steps and all states. -/
theorem sparkle_eq_iff (hBrans : brans % 2 = 0) (hTwo : 2 ≤ brans) (steps : Nat) {s t : State} :
    sparkle brans steps s = t ↔ s = sparkleInv brans steps t := by
  constructor
  · rintro rfl
    exact (sparkleInv_sparkle hBrans hTwo steps s).symm
  · rintro rfl
    exact sparkle_sparkleInv hBrans hTwo steps t

/-- Six branches and eleven steps, from the state of zeros. -/
theorem sparkle_eq_iff_zeros : sparkle 6 11 (sparkleInv 6 11 ⟨fun _ => 0⟩) = ⟨fun _ => 0⟩ :=
  (sparkle_eq_iff (by decide) (by decide) 11).mpr rfl

end Permutation

end Sparkle

end Obscure
