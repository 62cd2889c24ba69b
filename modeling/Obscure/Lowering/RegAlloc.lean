import Obscure.IR
import Obscure.Lib.SetOrder

/-!
# OBSCURE — linear-scan register allocation and lowering of one MLMI

The allocator of `lowering/reg_alloc.py` and `MLMI_to_LLMI` of
`lowering/lowering.py`. Inputs are pinned to the first registers, outputs to the
last ones, and the temporaries of the sequence take their register from a pool
of free registers, into which the register of an operand returns at the last
instruction that reads the operand. Which free register `pop` hands out is left
to a `Lib.SetOrder`.

Python exceptions are `Except` values: `KeyError` for a missing binding and the
`ValueError` that `needs_leq_k_registers` looks for.
-/

namespace Obscure

open Lib

/-- The exceptions of the allocator. -/
inductive AllocError where
  | notEnoughRegisters
  | keyError (m : Nat)
deriving DecidableEq, Repr

/-- `mem_to_reg`: the newest binding of a cell comes first. -/
abbrev RegMap := List (Nat × Nat)

/-- A `defaultdict` from instruction indices to sets of cells, as its entries. -/
abbrev Events := List (Nat × Nat)

/-- The cells recorded for one index. -/
def Events.at (ev : Events) (i : Nat) : List Nat :=
  (ev.filter fun e => e.1 = i).map Prod.snd

/-- One step of the backward scan of `compute_live_intervals`: record a death
for every operand not seen in a later instruction. -/
def markDeaths (idx : Nat) : List Nat → Events × List Nat → Events × List Nat
  | [], acc => acc
  | m :: ms, (deaths, dead) =>
    if m ∈ dead then markDeaths idx ms (deaths, dead)
    else markDeaths idx ms ((idx, m) :: deaths, m :: dead)

/-- The backward scan over the instructions from index `idx` on. -/
def scanDeaths : Nat → List HLI → Events × List Nat
  | _, [] => ([], [])
  | idx, i :: rest => markDeaths idx i.memInputs (scanDeaths (idx + 1) rest)

/-- The births of the instructions from index `idx` on. -/
def scanBirths : Nat → List HLI → Events
  | _, [] => []
  | idx, i :: rest => (idx, i.dst) :: scanBirths (idx + 1) rest

/-- `compute_live_intervals`. The births of the inputs are recorded at index -1
and are never looked up; the deaths of the outputs are recorded after the last
instruction, but the scan does not enter the outputs into `dead`. -/
def computeLiveIntervals (instrs : List HLI) (outputs : List Nat) : Events × Events :=
  (scanBirths 0 instrs,
    outputs.map (fun m => (instrs.length + 1, m)) ++ (scanDeaths 0 instrs).1)

/-- Inputs go to the first registers: `idx` is the position of the next one. An
input that is not used, or already has a register, gets none. -/
def mapInputs (used : List Nat) : Nat → List Nat → RegMap → RegMap
  | _, [], regs => regs
  | idx, m :: ms, regs =>
    if m ∈ used ∧ (regs.lookup m).isNone then mapInputs used (idx + 1) ms ((m, idx) :: regs)
    else mapInputs used (idx + 1) ms regs

/-- Outputs go to the registers from `first` on. -/
def mapOutputs (first : Nat) : List Nat → RegMap → RegMap
  | [], regs => regs
  | m :: ms, regs => mapOutputs (first + 1) ms ((m, first) :: regs)

/-- The bindings made so far and the set of free registers. -/
structure AllocState where
  regs : RegMap
  free : List Nat

/-- Return the registers of the dying operands to the pool. -/
def freeRegisters : List Nat → AllocState → Except AllocError AllocState
  | [], st => .ok st
  | m :: ms, st =>
    match st.regs.lookup m with
    | none => .error (.keyError m)
    | some r => freeRegisters ms { st with free := st.free.insert r }

/-- Give every operand born here a register, unless it has one. -/
def allocateNew (ord : SetOrder Nat) (t : Nat) :
    List Nat → AllocState → Except AllocError AllocState
  | [], st => .ok st
  | m :: ms, st =>
    match st.regs.lookup m with
    | some _ => allocateNew ord t ms st
    | none =>
      match ord.pop t st.free with
      | none => .error .notEnoughRegisters
      | some (r, free) => allocateNew ord t ms { regs := (m, r) :: st.regs, free := free }

/-- The main loop over the indices from `i` on, `n` of them. -/
def allocate (ord : SetOrder Nat) (births deaths : Events) :
    Nat → Nat → AllocState → Except AllocError AllocState
  | _, 0, st => .ok st
  | i, n + 1, st =>
    match freeRegisters (deaths.at i) st with
    | .error e => .error e
    | .ok st₁ =>
      match allocateNew ord i (births.at i) st₁ with
      | .error e => .error e
      | .ok st₂ => allocate ord births deaths (i + 1) n st₂

/-- The state the main loop starts from. -/
def allocInit (instrs : List HLI) (inputs outputs : List Nat) (k maxOutputCount : Nat) :
    AllocState :=
  let pinned := mapInputs (getUsed instrs) 0 inputs []
  let firstOutputIdx := k - maxOutputCount
  { regs := mapOutputs firstOutputIdx outputs pinned
    free := List.range' pinned.length (firstOutputIdx - pinned.length) }

/-- `get_registers_mapping`. -/
def getRegistersMapping (ord : SetOrder Nat) (instrs : List HLI) (inputs outputs : List Nat)
    (k maxOutputCount : Nat) : Except AllocError RegMap :=
  let (births, deaths) := computeLiveIntervals instrs outputs
  (allocate ord births deaths 0 instrs.length
    (allocInit instrs inputs outputs k maxOutputCount)).map AllocState.regs

/-- `needs_leq_k_registers`: only the dedicated `ValueError` is swallowed. -/
def needsLeqKRegisters (ord : SetOrder Nat) (instrs : List HLI) (inputs outputs : List Nat)
    (k maxOutputCount : Nat) : Except AllocError Bool :=
  match getRegistersMapping ord instrs inputs outputs k maxOutputCount with
  | .ok _ => .ok true
  | .error .notEnoughRegisters => .ok false
  | .error e => .error e

/-- The register of a cell. -/
def RegMap.reg (regs : RegMap) (m : Nat) : Nat := (regs.lookup m).getD 0

/-- The inputs the allocator is called with: a multi-instruction without inputs
gets cell 0 as a dummy. -/
def MLMI.loweredInputs (mlmi : MLMI) : List Nat :=
  if mlmi.inputs = [] then [0] else mlmi.inputs

/-- `MLMI_to_LLMI`. -/
def mlmiToLLMI (ord : SetOrder Nat) (mlmi : MLMI) (maxRegisterCount maxOutputCount : Nat) :
    Except AllocError LLMI :=
  match getRegistersMapping ord mlmi.seq mlmi.loweredInputs mlmi.outputs
      maxRegisterCount maxOutputCount with
  | .error e => .error e
  | .ok regs =>
    match (mlmi.seq.flatMap fun i => i.dst :: i.memInputs).find? fun m =>
        (regs.lookup m).isNone with
    | some m => .error (.keyError m)
    | none => .ok
        { seq := mlmi.seq.map (Instr.rename regs.reg regs.reg)
          inputs := mlmi.loweredInputs
          outputs := mlmi.outputs }

end Obscure
