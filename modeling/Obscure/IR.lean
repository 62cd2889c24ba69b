import Mathlib.Logic.Function.Basic
import Mathlib.Data.List.Nodup
import Mathlib.Data.BitVec

/-!
# OBSCURE — intermediate representations

The three program levels of the compiler (`compiler/src/IR.py`) share one shape
of instruction: an opcode, a destination and up to three source operands. At the
high and middle levels locations are cells of the global memory, at the low
level they are registers of the secure element; `Instr` is generic in the kind
of location, `HLI` and `LLI` are its two instances. A `MemOperand` and a
`RegOperand` are the natural number they wrap.

The meaning of one opcode is the runtime's `instruction_execute`
(`runtime/SEalgo.c`). It is partial: a division by zero and a shift by the word
size or more are undefined in C, and an opcode outside the `switch` ends the
program. A sequence is run by `run`, which threads the store through its
instructions and fails as soon as one of them does.
-/

namespace Obscure

/-- A machine word of the secure element (`uSE` with `WORD_SIZE` 32). -/
abbrev Word := BitVec 32

inductive Opcode where
  | NOP | MOV | XOR | OR | AND | LSL | LSR | LT | ADD | SUB | MUL | EQ
  | DIV | MOD | CMOV
deriving DecidableEq, Repr

/-- The numeric opcodes of `IR.py` and `opcode.h`. -/
def Opcode.value : Opcode → Nat
  | NOP => 0 | MOV => 1 | XOR => 2 | OR => 3 | AND => 4 | LSL => 5 | LSR => 6
  | LT => 7 | ADD => 8 | SUB => 9 | MUL => 10 | EQ => 11 | DIV => 13 | MOD => 14
  | CMOV => 15

/-- A source operand: a location or an immediate. -/
inductive Operand (α : Type) where
  | loc (a : α)
  | imm (i : Int)
deriving DecidableEq, Repr

theorem Operand.no_third {α : Type} : (none : Option (Operand α)) = none := rfl

/-- An instruction over locations of kind `α`. The last field is the assertion
of both Python constructors: there is no third source without a second one. -/
structure Instr (α : Type) where
  opcode : Opcode
  dst : α
  src1 : Option (Operand α)
  src2 : Option (Operand α) := none
  src3 : Option (Operand α) := none
  wf : src2 = none → src3 = none := by first | exact fun _ => Obscure.Operand.no_third | decide
deriving DecidableEq

/-- High-level instruction: locations are memory cells. -/
abbrev HLI := Instr Nat

/-- Low-level instruction: locations are registers. -/
abbrev LLI := Instr Nat

/-- Mid-level multi-instruction: a sequence still over memory cells, with the
cells it takes from and gives to the rest of the program. -/
structure MLMI where
  seq : List HLI
  inputs : List Nat
  outputs : List Nat
deriving DecidableEq

/-- Low-level multi-instruction: what one call of the secure element runs. -/
structure LLMI where
  seq : List LLI
  inputs : List Nat
  outputs : List Nat
deriving DecidableEq

/-- High-level program. -/
structure HLIRProgram where
  instrs : List HLI
  inputs : List Nat
  outputs : List Nat
  memoryCount : Nat

/-- Low-level program. -/
structure LLIRProgram where
  instrs : List LLMI
  inputs : List Nat
  outputs : List Nat
  memoryCount : Nat

section Generic

variable {α β : Type}

def Operand.map (f : α → β) : Operand α → Operand β
  | .loc a => .loc (f a)
  | .imm i => .imm i

/-- The location an operand reads, if any. -/
def Operand.loc? : Operand α → Option α
  | .loc a => some a
  | .imm _ => none

/-- The three source slots. -/
def Instr.srcs (i : Instr α) : List (Option (Operand α)) := [i.src1, i.src2, i.src3]

/-- `mem_inputs`: the locations an instruction reads, in operand order. -/
def Instr.memInputs (i : Instr α) : List α :=
  i.srcs.filterMap fun s => s.bind Operand.loc?

/-- Rename the sources with `f` and the destination with `g`. -/
def Instr.rename (f g : α → β) (i : Instr α) : Instr β where
  opcode := i.opcode
  dst := g i.dst
  src1 := i.src1.map (Operand.map f)
  src2 := i.src2.map (Operand.map f)
  src3 := i.src3.map (Operand.map f)
  wf := by
    intro h
    rw [Option.map_eq_none_iff] at h ⊢
    exact i.wf h

/-- The locations a sequence defines, in order (`get_defs`). -/
def defs (seq : List (Instr α)) : List α := seq.map Instr.dst

/-- The locations a sequence reads, in order and with repetitions. -/
def reads (seq : List (Instr α)) : List α := seq.flatMap Instr.memInputs

/-- `get_used`: what a sequence reads without defining it. -/
def getUsed [DecidableEq α] (seq : List (Instr α)) : List α :=
  (reads seq).filter fun m => m ∉ defs seq

/-- Every operand the sequence both reads and defines is defined before it is
read. -/
def DefBeforeUse (seq : List (Instr α)) : Prop :=
  ∀ pre i post, seq = pre ++ i :: post → ∀ m ∈ i.memInputs, m ∈ defs seq → m ∈ defs pre

/-- `DefBeforeUse` by positions, which is decidable. -/
theorem defBeforeUse_iff {seq : List (Instr α)} :
    DefBeforeUse seq ↔ ∀ k (h : k < seq.length), ∀ m ∈ seq[k].memInputs,
      m ∈ defs seq → m ∈ defs (seq.take k) := by
  constructor
  · intro hUse k hk m hm hDef
    refine hUse (seq.take k) seq[k] (seq.drop (k + 1)) ?_ m hm hDef
    rw [← List.drop_eq_getElem_cons hk, List.take_append_drop]
  · rintro h pre i post rfl m hm hDef
    have := h pre.length (by simp) m (by simpa using hm) hDef
    simpa using this

@[simp] theorem defs_nil : defs ([] : List (Instr α)) = [] := rfl

@[simp] theorem reads_nil : reads ([] : List (Instr α)) = [] := rfl

@[simp] theorem defs_append (a b : List (Instr α)) : defs (a ++ b) = defs a ++ defs b := by
  simp [defs]

@[simp] theorem defs_cons (i : Instr α) (seq : List (Instr α)) :
    defs (i :: seq) = i.dst :: defs seq := rfl

@[simp] theorem reads_append (a b : List (Instr α)) : reads (a ++ b) = reads a ++ reads b := by
  simp [reads]

@[simp] theorem reads_cons (i : Instr α) (seq : List (Instr α)) :
    reads (i :: seq) = i.memInputs ++ reads seq := by
  simp [reads]

end Generic

/-! ## Schedules -/

/-- Every operand is taken from `inputs` or defined before it is read. -/
def Scheduled (inputs : List Nat) (seq : List HLI) : Prop :=
  ∀ pre i post, seq = pre ++ i :: post → ∀ m ∈ i.memInputs, m ∈ inputs ∨ m ∈ defs pre

/-- Scheduling goes on at the end. -/
theorem Scheduled.append {inputs : List Nat} {a b : List HLI} (ha : Scheduled inputs a)
    (hb : Scheduled (inputs ++ defs a) b) : Scheduled inputs (a ++ b) := by
  intro pre i post hSplit m hm
  rcases List.append_eq_append_iff.mp hSplit with ⟨mid, rfl, rfl⟩ | ⟨mid, rfl, hMid⟩
  · rcases hb mid i post rfl m hm with h | h
    · rcases List.mem_append.mp h with h | h
      · exact Or.inl h
      · exact Or.inr (by simp [h])
    · exact Or.inr (by simp [h])
  · cases mid with
    | nil =>
      have hb' : b = [] ++ i :: post := by simpa using hMid.symm
      rcases hb [] i post hb' m hm with h | h
      · rcases List.mem_append.mp h with h | h
        · exact Or.inl h
        · exact Or.inr (by simpa using h)
      · cases h
    | cons j mid =>
      rw [List.cons_append, List.cons.injEq] at hMid
      obtain ⟨rfl, -⟩ := hMid
      exact ha pre i mid rfl m hm

/-- More inputs do no harm. -/
theorem Scheduled.mono {inputs inputs' : List Nat} {seq : List HLI} (h : Scheduled inputs seq)
    (hSub : ∀ m ∈ inputs, m ∈ inputs') : Scheduled inputs' seq := by
  intro pre i post hSplit m hm
  exact (h pre i post hSplit m hm).imp_left (hSub m)

theorem Scheduled.nil (inputs : List Nat) : Scheduled inputs [] := by
  intro pre i post h
  simp at h

/-- The first instruction reads inputs, and its destination is one for the rest. -/
theorem scheduled_cons {inputs : List Nat} {i : HLI} {seq : List HLI} :
    Scheduled inputs (i :: seq) ↔
      (∀ m ∈ i.memInputs, m ∈ inputs) ∧ Scheduled (i.dst :: inputs) seq := by
  constructor
  · intro h
    refine ⟨fun m hm => ?_, ?_⟩
    · rcases h [] i seq rfl m hm with h | h
      · exact h
      · cases h
    · rintro pre j post rfl m hm
      rcases h (i :: pre) j post rfl m hm with h | h
      · exact Or.inl (List.mem_cons_of_mem _ h)
      · rcases List.mem_cons.mp h with rfl | h
        · exact Or.inl List.mem_cons_self
        · exact Or.inr h
  · rintro ⟨hHead, hTail⟩ pre j post hSplit m hm
    cases pre with
    | nil =>
      rw [List.nil_append, List.cons.injEq] at hSplit
      obtain ⟨rfl, rfl⟩ := hSplit
      exact Or.inl (hHead m hm)
    | cons k pre =>
      rw [List.cons_append, List.cons.injEq] at hSplit
      obtain ⟨rfl, rfl⟩ := hSplit
      rcases hTail pre j post rfl m hm with h | h
      · rcases List.mem_cons.mp h with rfl | h
        · exact Or.inr (by simp)
        · exact Or.inl h
      · exact Or.inr (by simp [h])

/-- A cell that is read is an input or defined. -/
theorem Scheduled.reads_cases {inputs : List Nat} {seq : List HLI} (h : Scheduled inputs seq)
    {i : HLI} (hi : i ∈ seq) {m : Nat} (hm : m ∈ i.memInputs) : m ∈ inputs ∨ m ∈ defs seq := by
  obtain ⟨pre, post, rfl⟩ := List.append_of_mem hi
  exact (h pre i post rfl m hm).imp_right fun hPre => by simp [hPre]

/-- What is read is defined before, if the inputs are not written. -/
theorem Scheduled.defBeforeUse {inputs : List Nat} {seq : List HLI} (h : Scheduled inputs seq)
    (hKept : ∀ m ∈ inputs, m ∉ defs seq) : DefBeforeUse seq := fun pre i post hSplit m hm hDef =>
  (h pre i post hSplit m hm).resolve_left fun hIn => hKept m hIn hDef

/-! ## Execution -/

/-- `instruction_execute`. No result stands for undefined behaviour (division by
zero, oversized shift) and for the `default` branch, which exits. -/
def instructionExecute : Opcode → Word → Word → Word → Option Word
  | .NOP, _, _, _ => none
  | .MOV, a, _, _ => some a
  | .XOR, a, b, _ => some (a ^^^ b)
  | .OR, a, b, _ => some (a ||| b)
  | .AND, a, b, _ => some (a &&& b)
  | .LSL, a, b, _ => if b.toNat < 32 then some (a <<< b) else none
  | .LSR, a, b, _ => if b.toNat < 32 then some (a >>> b) else none
  | .LT, a, b, _ => some (if a < b then 1 else 0)
  | .ADD, a, b, _ => some (a + b)
  | .SUB, a, b, _ => some (a - b)
  | .MUL, a, b, _ => some (a * b)
  | .EQ, a, b, _ => some (if a = b then 1 else 0)
  | .DIV, a, b, _ => if b = 0 then none else some (a / b)
  | .MOD, a, b, _ => if b = 0 then none else some (a % b)
  | .CMOV, a, b, c => some (if a = 0 then c else b)

section Execution

variable {α β : Type}

/-- A store gives every location a word. -/
abbrev Store (α : Type) := α → Word

/-- The value of a source slot; an absent operand reads as 0, as the locals
`val2` and `val3` of `LLS_execute` do. -/
def srcVal (st : Store α) : Option (Operand α) → Word
  | none => 0
  | some (.loc a) => st a
  | some (.imm i) => BitVec.ofInt 32 i

/-- The word an instruction computes in a store. -/
def Instr.result (i : Instr α) (st : Store α) : Option Word :=
  instructionExecute i.opcode (srcVal st i.src1) (srcVal st i.src2) (srcVal st i.src3)

variable [DecidableEq α]

/-- One instruction: compute, then overwrite the destination. -/
def Instr.exec (i : Instr α) (st : Store α) : Option (Store α) :=
  (i.result st).map fun w => Function.update st i.dst w

/-- Run a sequence from left to right. -/
def run : List (Instr α) → Store α → Option (Store α)
  | [], st => some st
  | i :: rest, st => (i.exec st).bind (run rest)

/-! ## Basic lemmas about execution -/

omit [DecidableEq α] in
/-- What is read is one of the three operands. -/
theorem mem_memInputs {i : Instr α} {m : α} :
    m ∈ i.memInputs ↔
      i.src1 = some (.loc m) ∨ i.src2 = some (.loc m) ∨ i.src3 = some (.loc m) := by
  have hSlot : ∀ s : Option (Operand α), s.bind Operand.loc? = some m ↔ s = some (.loc m) := by
    intro s
    rcases s with _ | a | n <;> simp [Operand.loc?]
  simp only [Instr.memInputs, Instr.srcs, List.mem_filterMap, hSlot]
  simp [eq_comm]

omit [DecidableEq α] in
/-- The locations a renamed instruction reads. -/
theorem mem_memInputs_rename {i : Instr α} {f g : α → β} {b : β} :
    b ∈ (i.rename f g).memInputs ↔ ∃ m ∈ i.memInputs, f m = b := by
  have hSlot : ∀ s : Option (Operand α),
      s.map (Operand.map f) = some (.loc b) ↔ ∃ m, s = some (.loc m) ∧ f m = b := by
    intro s
    rcases s with _ | a | n <;> simp [Operand.map]
  simp only [mem_memInputs, Instr.rename, hSlot]
  constructor
  · rintro (⟨m, hm, rfl⟩ | ⟨m, hm, rfl⟩ | ⟨m, hm, rfl⟩)
    · exact ⟨m, Or.inl hm, rfl⟩
    · exact ⟨m, Or.inr (Or.inl hm), rfl⟩
    · exact ⟨m, Or.inr (Or.inr hm), rfl⟩
  · rintro ⟨m, hm | hm | hm, rfl⟩
    · exact Or.inl ⟨m, hm, rfl⟩
    · exact Or.inr (Or.inl ⟨m, hm, rfl⟩)
    · exact Or.inr (Or.inr ⟨m, hm, rfl⟩)

omit [DecidableEq α] in
/-- A renamed operand reads, in a renamed store, what the original reads. -/
theorem srcVal_map {f : α → β} {st : Store α} {st' : Store β} {s : Option (Operand α)}
    (h : ∀ m, s = some (.loc m) → st' (f m) = st m) :
    srcVal st' (s.map (Operand.map f)) = srcVal st s := by
  rcases s with _ | a | n
  · rfl
  · exact h a rfl
  · rfl

omit [DecidableEq α] in
/-- Renaming the sources does not change the result when the renamed locations
hold the values of the original ones. -/
theorem Instr.result_rename {i : Instr α} {f g : α → β} {st : Store α} {st' : Store β}
    (h : ∀ m ∈ i.memInputs, st' (f m) = st m) :
    (i.rename f g).result st' = i.result st := by
  unfold Instr.result Instr.rename
  rw [srcVal_map fun m hm => h m (mem_memInputs.mpr (Or.inl hm)),
    srcVal_map fun m hm => h m (mem_memInputs.mpr (Or.inr (Or.inl hm))),
    srcVal_map fun m hm => h m (mem_memInputs.mpr (Or.inr (Or.inr hm)))]

omit [DecidableEq α] in
/-- The result depends on the operands only. -/
theorem Instr.result_congr {i : Instr α} {st st' : Store α} (h : ∀ m ∈ i.memInputs, st m = st' m) :
    i.result st = i.result st' := by
  have hSlot : ∀ s, (∀ m, s = some (.loc m) → m ∈ i.memInputs) → srcVal st s = srcVal st' s := by
    intro s hs
    rcases s with _ | a | n
    · rfl
    · exact h a (hs a rfl)
    · rfl
  unfold Instr.result
  rw [hSlot _ fun m hm => mem_memInputs.mpr (Or.inl hm),
    hSlot _ fun m hm => mem_memInputs.mpr (Or.inr (Or.inl hm)),
    hSlot _ fun m hm => mem_memInputs.mpr (Or.inr (Or.inr hm))]

/-- What a successful instruction does to the store. -/
theorem Instr.exec_eq_some {i : Instr α} {st st' : Store α} :
    i.exec st = some st' ↔ ∃ w, i.result st = some w ∧ st' = Function.update st i.dst w := by
  simp [Instr.exec, Option.map_eq_some_iff, eq_comm]

/-- A run starts with the first instruction. -/
theorem run_cons_eq_some {i : Instr α} {seq : List (Instr α)} {st st' : Store α} :
    run (i :: seq) st = some st' ↔ ∃ mid, i.exec st = some mid ∧ run seq mid = some st' := by
  simp [run, Option.bind_eq_some_iff]

theorem run_append {a b : List (Instr α)} {st : Store α} :
    run (a ++ b) st = (run a st).bind (run b) := by
  induction a generalizing st with
  | nil => rfl
  | cons i rest ih =>
    simp only [List.cons_append, run]
    cases i.exec st with
    | none => rfl
    | some mid => exact ih

/-- A location the sequence does not define keeps its value. -/
theorem run_not_mem_defs {seq : List (Instr α)} {st st' : Store α} {m : α}
    (h : run seq st = some st') (hm : m ∉ defs seq) : st' m = st m := by
  induction seq generalizing st with
  | nil =>
    rw [run, Option.some.injEq] at h
    rw [h]
  | cons i rest ih =>
    obtain ⟨mid, hExec, hRest⟩ := run_cons_eq_some.mp h
    obtain ⟨w, -, rfl⟩ := Instr.exec_eq_some.mp hExec
    rw [defs_cons, List.mem_cons, not_or] at hm
    rw [ih hRest hm.2, Function.update_of_ne hm.1]

/-- The store gives the destination of an instruction the word it computes. -/
def Instr.Holds (i : Instr α) (st : Store α) : Prop := i.result st = some (st i.dst)

/-- A sequence in SSA runs to the one store in which every instruction holds and
nothing else has changed, whatever the order of its instructions. -/
theorem run_eq_some_iff {seq : List (Instr α)} {st st' : Store α} (hSSA : (defs seq).Nodup)
    (hUse : DefBeforeUse seq) :
    run seq st = some st' ↔ (∀ i ∈ seq, i.Holds st') ∧ ∀ m, m ∉ defs seq → st' m = st m := by
  induction seq generalizing st with
  | nil =>
    simp only [run, Option.some.injEq, List.not_mem_nil, false_imp_iff, implies_true, true_and,
      defs_nil, not_false_eq_true, forall_const]
    exact ⟨fun h m => h ▸ rfl, fun h => (funext h).symm⟩
  | cons i rest ih =>
    obtain ⟨hDst, hRest⟩ := List.nodup_cons.mp hSSA
    -- the first instruction reads nothing the sequence defines
    have hFirst : ∀ m ∈ i.memInputs, m ∉ defs (i :: rest) := by
      intro m hm hDef
      cases hUse [] i rest rfl m hm hDef
    have hTail : DefBeforeUse rest := by
      rintro pre j post rfl m hm hDef
      rcases List.mem_cons.mp (hUse (i :: pre) j post rfl m hm (List.mem_cons_of_mem _ hDef)) with
        rfl | h
      · exact absurd hDef hDst
      · exact h
    rw [run_cons_eq_some]
    simp only [Instr.exec_eq_some, List.forall_mem_cons]
    constructor
    · rintro ⟨mid, ⟨w, hw, rfl⟩, hRun⟩
      obtain ⟨hHolds, hSame⟩ := (ih hRest hTail).mp hRun
      have hDstVal : st' i.dst = w := by rw [hSame i.dst hDst, Function.update_self]
      have hKeep : ∀ m, m ∉ defs (i :: rest) → st' m = st m := by
        intro m hm
        rw [defs_cons, List.mem_cons, not_or] at hm
        rw [hSame m hm.2, Function.update_of_ne hm.1]
      refine ⟨⟨?_, hHolds⟩, hKeep⟩
      rw [Instr.Holds, hDstVal, ← hw]
      exact Instr.result_congr fun m hm => hKeep m (hFirst m hm)
    · rintro ⟨⟨hHead, hHolds⟩, hKeep⟩
      refine ⟨_, ⟨st' i.dst, ?_, rfl⟩, (ih hRest hTail).mpr ⟨hHolds, fun m hm => ?_⟩⟩
      · rw [← hHead]
        exact Instr.result_congr fun m hm => (hKeep m (hFirst m hm)).symm
      · by_cases hEq : m = i.dst
        · rw [hEq, Function.update_self]
        · rw [Function.update_of_ne hEq]
          exact hKeep m (by simp [hEq, hm])

end Execution

/-- The value a program gives to each position of its outputs list. -/
def HLIRProgram.eval (ir : HLIRProgram) (σ : Store Nat) : Option (List Word) :=
  (run ir.instrs σ).map fun st => ir.outputs.map st

end Obscure
