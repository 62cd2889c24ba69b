import Mathlib.Data.List.Basic

/-!
# Messages in blocks

A message is worked off in blocks of a fixed size, with a state between them: a
step for every full block that is not the last one, and a step of its own for the
last block, which is never empty unless the message is and may be shorter. Each
block is answered by a block of output.

* `processBlocks_undo`  — when the steps of another mode undo those of one, block by
  block and with the same states, so does the whole;
* `absorbBlocks_change` — when the steps are injective, in the state and in the
  block, messages that differ in one block reach different states.
-/

namespace Lib

variable {σ α β : Type*}

/-- `n` full blocks and the last one. -/
def processFull (rate : Nat) (step last : σ → List α → σ × List β) :
    Nat → σ → List α → σ × List β
  | 0, s, msg => last s msg
  | n + 1, s, msg =>
    let full := step s (msg.take rate)
    let rest := processFull rate step last n full.1 (msg.drop rate)
    (rest.1, full.2 ++ rest.2)

/-- The steps of a loop that takes a block as long as more than one is left. -/
def processBlocks (rate : Nat) (step last : σ → List α → σ × List β) (s : σ) (msg : List α) :
    σ × List β :=
  processFull rate step last ((msg.length - 1) / rate) s msg

/-- Blocks without output. -/
def absorbBlocks (rate : Nat) (step last : σ → List α → σ) (s : σ) (msg : List α) : σ :=
  (processBlocks rate (fun s b => (step s b, ([] : List α))) (fun s b => (last s b, [])) s msg).1

section Loop

variable {rate : Nat} {step last : σ → List α → σ × List β} {s : σ} {msg : List α}

/-- A message that fits a block has no full one before the last. -/
theorem fullCount_of_le (h : msg.length ≤ rate) : (msg.length - 1) / rate = 0 := by
  by_cases hRate : rate = 0
  · simp [hRate]
  · exact Nat.div_eq_of_lt (by omega)

theorem fullCount_of_lt (hRate : 0 < rate) (h : rate < msg.length) :
    (msg.length - 1) / rate = ((msg.drop rate).length - 1) / rate + 1 := by
  rw [List.length_drop, ← Nat.add_div_right _ hRate]
  congr 1
  omega

theorem processBlocks_of_le (h : msg.length ≤ rate) :
    processBlocks rate step last s msg = last s msg := by
  rw [processBlocks, fullCount_of_le h, processFull]

theorem processBlocks_of_lt (hRate : 0 < rate) (h : rate < msg.length) :
    processBlocks rate step last s msg =
      ((processBlocks rate step last (step s (msg.take rate)).1 (msg.drop rate)).1,
        (step s (msg.take rate)).2 ++
          (processBlocks rate step last (step s (msg.take rate)).1 (msg.drop rate)).2) := by
  rw [processBlocks, fullCount_of_lt hRate h, processFull]
  rfl

end Loop

section Undo

variable {rate : Nat} {step last : σ → List α → σ × List α} {step' last' : σ → List α → σ × List α}

/-- A step undoes another: on its output, from the same state, it reaches the same
state and gives the block back. -/
def Undoes (step' step : σ → List α → σ × List α) (s : σ) (b : List α) : Prop :=
  (step s b).2.length = b.length ∧ step' s (step s b).2 = ((step s b).1, b)

theorem processBlocks_undo (hRate : 0 < rate)
    (hStep : ∀ s b, b.length = rate → Undoes step' step s b)
    (hLast : ∀ s b, b.length ≤ rate → Undoes last' last s b) (s : σ) (msg : List α) :
    Undoes (processBlocks rate step' last') (processBlocks rate step last) s msg := by
  induction hn : msg.length using Nat.strongRecOn generalizing s msg with
  | _ n ih =>
  subst hn
  by_cases hShort : msg.length ≤ rate
  · obtain ⟨hLen, hUndo⟩ := hLast s msg hShort
    rw [Undoes, processBlocks_of_le hShort, processBlocks_of_le (by rw [hLen]; exact hShort)]
    exact ⟨hLen, hUndo⟩
  · have hLong : rate < msg.length := Nat.lt_of_not_le hShort
    have hTake : (msg.take rate).length = rate := List.length_take_of_le (Nat.le_of_lt hLong)
    have hDrop : (msg.drop rate).length = msg.length - rate := List.length_drop
    obtain ⟨hLen, hUndo⟩ := hStep s (msg.take rate) hTake
    obtain ⟨hLenRest, hUndoRest⟩ := ih (msg.drop rate).length (by omega) (step s (msg.take rate)).1
      (msg.drop rate) rfl
    rw [hTake] at hLen
    rw [Undoes, processBlocks_of_lt hRate hLong]
    set full := step s (msg.take rate) with hFull
    set rest := processBlocks rate step last full.1 (msg.drop rate) with hRest
    have hLenAll : (full.2 ++ rest.2).length = msg.length := by
      rw [List.length_append, hLen, hLenRest, hDrop]
      omega
    refine ⟨hLenAll, ?_⟩
    rw [processBlocks_of_lt hRate (by rw [hLenAll]; exact hLong)]
    have hFirst : (full.2 ++ rest.2).take rate = full.2 := List.take_left' hLen
    have hSecond : (full.2 ++ rest.2).drop rate = rest.2 := List.drop_left' hLen
    rw [hFirst, hSecond, hUndo, hUndoRest]
    exact Prod.ext rfl (List.take_append_drop rate msg)

end Undo

section Absorb

variable {rate : Nat} {step last : σ → List α → σ} {s : σ} {msg : List α}

/-- The list of `n` full blocks and the last one. -/
def fullBlocks (rate : Nat) : Nat → List α → List (List α)
  | 0, msg => [msg]
  | n + 1, msg => msg.take rate :: fullBlocks rate n (msg.drop rate)

/-- The blocks of a message. -/
def blocks (rate : Nat) (msg : List α) : List (List α) :=
  fullBlocks rate ((msg.length - 1) / rate) msg

theorem blocks_of_le (h : msg.length ≤ rate) : blocks rate msg = [msg] := by
  rw [blocks, fullCount_of_le h, fullBlocks]

theorem blocks_of_lt (hRate : 0 < rate) (h : rate < msg.length) :
    blocks rate msg = msg.take rate :: blocks rate (msg.drop rate) := by
  rw [blocks, fullCount_of_lt hRate h, fullBlocks]
  rfl

theorem blocks_ne_nil : blocks rate msg ≠ [] := by
  unfold blocks fullBlocks
  split <;> simp

/-- A message is read off its blocks. -/
theorem flatten_blocks : (blocks rate msg).flatten = msg := by
  unfold blocks
  induction (msg.length - 1) / rate generalizing msg with
  | zero => simp [fullBlocks]
  | succ n ih => rw [fullBlocks, List.flatten_cons, ih, List.take_append_drop]

theorem blocks_injective : Function.Injective (blocks rate : List α → List (List α)) := by
  intro msg msg' h
  have hFlatten := congrArg List.flatten h
  rwa [flatten_blocks, flatten_blocks] at hFlatten

theorem absorbBlocks_of_le (h : msg.length ≤ rate) :
    absorbBlocks rate step last s msg = last s msg := by
  rw [absorbBlocks, processBlocks_of_le h]

theorem absorbBlocks_of_lt (hRate : 0 < rate) (h : rate < msg.length) :
    absorbBlocks rate step last s msg =
      absorbBlocks rate step last (step s (msg.take rate)) (msg.drop rate) := by
  rw [absorbBlocks, processBlocks_of_lt hRate h]
  rfl

/-- Injective steps make injective loops. -/
theorem absorbBlocks_injective (hRate : 0 < rate)
    (hStep : ∀ b, Function.Injective fun s => step s b)
    (hLast : ∀ b, Function.Injective fun s => last s b) (msg : List α) :
    Function.Injective fun s => absorbBlocks rate step last s msg := by
  induction hn : msg.length using Nat.strongRecOn generalizing msg with
  | _ n ih =>
  subst hn
  intro s s' hEq
  by_cases hShort : msg.length ≤ rate
  · simp only [absorbBlocks_of_le hShort] at hEq
    exact hLast msg hEq
  · have hLong : rate < msg.length := Nat.lt_of_not_le hShort
    simp only [absorbBlocks_of_lt hRate hLong] at hEq
    exact hStep _ (ih (msg.drop rate).length (by rw [List.length_drop]; omega)
      (msg.drop rate) rfl hEq)

/-- A message with a first block and others. -/
theorem blocks_eq_cons (hRate : 0 < rate) {b : List α} {bs : List (List α)} (hNil : bs ≠ [])
    (h : blocks rate msg = b :: bs) :
    rate < msg.length ∧ msg.take rate = b ∧ blocks rate (msg.drop rate) = bs := by
  by_cases hShort : msg.length ≤ rate
  · rw [blocks_of_le hShort, List.cons.injEq] at h
    exact absurd h.2.symm hNil
  · have hLong : rate < msg.length := Nat.lt_of_not_le hShort
    rw [blocks_of_lt hRate hLong, List.cons.injEq] at h
    exact ⟨hLong, h.1, h.2⟩

/-- A message with one block. -/
theorem blocks_eq_singleton (hRate : 0 < rate) {b : List α} (h : blocks rate msg = [b]) :
    msg.length ≤ rate ∧ msg = b := by
  by_cases hShort : msg.length ≤ rate
  · rw [blocks_of_le hShort, List.cons.injEq] at h
    exact ⟨hShort, h.1⟩
  · rw [blocks_of_lt hRate (Nat.lt_of_not_le hShort), List.cons.injEq] at h
    exact absurd h.2 blocks_ne_nil

/-- A loop with injective steps tells messages apart that differ in one block. -/
theorem absorbBlocks_change (hRate : 0 < rate) (hStep : ∀ b, Function.Injective fun s => step s b)
    (hLast : ∀ b, Function.Injective fun s => last s b)
    (hBlock : ∀ s b b', b.length = rate → b'.length = rate → step s b = step s b' → b = b')
    (hEnd : ∀ s b b', b.length ≤ rate → b'.length ≤ rate → last s b = last s b' → b = b')
    {b b' : List α} {cs : List (List α)} (bs : List (List α)) {msg' : List α}
    (hMsg : blocks rate msg = bs ++ b :: cs) (hMsg' : blocks rate msg' = bs ++ b' :: cs)
    (hEq : absorbBlocks rate step last s msg = absorbBlocks rate step last s msg') :
    msg = msg' := by
  induction bs generalizing s msg msg' with
  | nil =>
    rw [List.nil_append] at hMsg hMsg'
    by_cases hCs : cs = []
    · subst hCs
      obtain ⟨hShort, rfl⟩ := blocks_eq_singleton hRate hMsg
      obtain ⟨hShort', rfl⟩ := blocks_eq_singleton hRate hMsg'
      rw [absorbBlocks_of_le hShort, absorbBlocks_of_le hShort'] at hEq
      exact hEnd _ _ _ hShort hShort' hEq
    · obtain ⟨hLong, hTake, hDrop⟩ := blocks_eq_cons hRate hCs hMsg
      obtain ⟨hLong', hTake', hDrop'⟩ := blocks_eq_cons hRate hCs hMsg'
      have hRest : msg.drop rate = msg'.drop rate := blocks_injective (hDrop.trans hDrop'.symm)
      rw [absorbBlocks_of_lt hRate hLong, absorbBlocks_of_lt hRate hLong', hRest] at hEq
      -- the blocks that follow keep the states apart
      have hState := absorbBlocks_injective hRate hStep hLast _ hEq
      have hFirst := hBlock _ _ _ (List.length_take_of_le (Nat.le_of_lt hLong))
        (List.length_take_of_le (Nat.le_of_lt hLong')) hState
      rw [← List.take_append_drop rate msg, hFirst, hRest, List.take_append_drop]
  | cons b₀ bs ih =>
    obtain ⟨hLong, hTake, hDrop⟩ := blocks_eq_cons hRate (by simp) hMsg
    obtain ⟨hLong', hTake', hDrop'⟩ := blocks_eq_cons hRate (by simp) hMsg'
    rw [absorbBlocks_of_lt hRate hLong, absorbBlocks_of_lt hRate hLong', hTake, hTake'] at hEq
    rw [← List.take_append_drop rate msg, ih hDrop hDrop' hEq, hTake, ← hTake',
      List.take_append_drop]

end Absorb

end Lib
