import Obscure.Runtime.SEalgo

/-!
# OBSCURE — the interpreter

`runtime/interpreter.c`: the host side. It parses a bytecode file, cuts the
program inputs into batches, commits to them with a hash chain, and drives the
secure element through `SEstart`, `SEinput` (from the last batch down to the
first) and one `SEeval` per multi-instruction. Its memory holds encrypted words.

`none` is an exit of the source or an access outside a buffer.
-/

namespace Obscure

open Lib

/-! ## Parsing -/

/-- A parsed multi-instruction. -/
structure ParsedLLMI where
  memInps : List Nat
  memOuts : List Nat
  aells : AELLS
deriving DecidableEq

/-- A parsed program. -/
structure Program where
  memInps : List Nat
  memOuts : List Nat
  llmis : List ParsedLLMI
deriving DecidableEq

/-- Load a number and compare it with a build constant. -/
def loadChecked (expected : Nat) : Reader Unit := do
  let n ← loadU32 4
  if n = expected then pure () else failure

/-- `interpret_meta`. -/
def interpretMeta (cfg : SEConfig) : Reader Nat := do
  loadChecked cfg.version
  loadChecked cfg.wordSize
  loadChecked cfg.lIn
  loadChecked cfg.lOut
  loadChecked cfg.r
  loadChecked cfg.s
  loadU32 4

/-- A count followed by that many cells. -/
def loadCells (lbM : Nat) : Reader (List Nat) := do
  let count ← loadU32 lbM
  times (loadU32 lbM) count

/-- One entry of `inputIDs`. -/
def loadID (lbO : Nat) : Reader ID := do
  let instrID ← loadU32 4
  let outputID ← loadU32 lbO
  pure ⟨instrID, outputID⟩

/-- The body of the loop of `interpret_prog`. -/
def interpretLLMI (lbM lbO : Nat) : Reader ParsedLLMI := do
  let memInps ← loadCells lbM
  let memOuts ← loadCells lbM
  let instrID ← loadU32 4
  let revealFlag ← loadU32 1
  let inputIDs ← times (loadID lbO) memInps.length
  let bytelen ← loadU32 4
  let bytecode ← takeBytes bytelen
  pure ⟨memInps, memOuts, ⟨revealFlag, memOuts.length, inputIDs, instrID, bytecode⟩⟩

/-- `interpret_prog`. -/
def interpretProg (lbM lbO : Nat) : Reader Program := do
  let memInps ← loadCells lbM
  let memOuts ← loadCells lbM
  let llmiCount ← loadU32 4
  let llmis ← times (interpretLLMI lbM lbO) llmiCount
  pure ⟨memInps, memOuts, llmis⟩

/-- The parsing part of `interpret`: the cell count, the pointer to the header
and the program, with nothing left over. -/
def interpretFile (cfg : SEConfig) (bytecode : List UInt8) :
    Option (Nat × List UInt8 × Program) := do
  let (memoryCount, header) ← (interpretMeta cfg).run bytecode
  let (_, body) ← (takeBytes 64).run header
  let (program, rest) ← (interpretProg (bytelen memoryCount) (bytelen cfg.lOut)).run body
  guard (rest = [])
  pure (memoryCount, header, program)

/-! ## Driving the secure element -/

/-- Batch `i` of the inputs, counted from 1 and padded with zeros. -/
def batch (lOut : Nat) (inps : List Word) (i : Nat) : List Word :=
  (List.range lOut).map fun j => inps.getD ((i - 1) * lOut + j) 0

/-- The host's memory: one slot of encrypted bytes per cell. -/
abbrev Memory := Nat → List UInt8

/-- Fresh memory of the host and, per `SEeval`, of the element. -/
structure HostJunk where
  mem : Memory
  call : Nat → Junk

/-- Read a slot; only `count` of them exist. -/
def Memory.load (count : Nat) (mem : Memory) (m : Nat) : Option (List UInt8) :=
  if m < count then some (mem m) else none

/-- Write slots in order. -/
def Memory.store (count : Nat) : List (Nat × List UInt8) → Memory → Option Memory
  | [], mem => some mem
  | (m, c) :: rest, mem =>
    if m < count then Memory.store count rest (Function.update mem m c) else none

section Interpret

variable {D : Type} [DecidableEq D] (C : Crypto D) (dec : Decrypt D)

/-- `H[i]`, the chain over the first `i` batches. -/
def chainAt (lOut : Nat) (inps : List Word) : Nat → D
  | 0 => C.zero
  | i + 1 => C.hashchain (chainAt lOut inps i) (batch lOut inps (i + 1))

/-- Step 3, from batch `i` down to the first: the encrypted words of these
batches in program order. -/
def inputAll (cfg : SEConfig) (execID : D) (inps : List Word) :
    Nat → List UInt8 → Option (List (List UInt8))
  | 0, _ => some []
  | i + 1, cin => do
    let reply ← seInput C dec cfg execID (i + 1) (chainAt C cfg.lOut inps i)
      (batch cfg.lOut inps (i + 1)) cin
    let words ← inputAll cfg execID inps i (C.ct reply.cinp)
    pure (words ++ reply.words.map C.ct)

/-- One iteration of step 4. -/
def evalLLMI (cfg : SEConfig) (junk : Junk) (execID : D) (esharedkey : List UInt8)
    (memoryCount : Nat) (llmi : ParsedLLMI) (mem : Memory) : Option Memory := do
  let inps ← llmi.memInps.mapM (mem.load memoryCount)
  let outs ← seEval C dec cfg junk execID esharedkey llmi.aells inps cfg.r
    (bytelen memoryCount) (bytelen cfg.r) (cfg.wordSize / 8) (bytelen cfg.lOut)
  mem.store memoryCount
    (llmi.memOuts.zip (outs.zipIdx.map fun (out, i) => out.bytes C junk i))

/-- Step 4; `k` numbers the calls. -/
def evalAll (cfg : SEConfig) (junk : Nat → Junk) (execID : D) (esharedkey : List UInt8)
    (memoryCount : Nat) : Nat → List ParsedLLMI → Memory → Option Memory
  | _, [], mem => some mem
  | k, llmi :: rest, mem => do
    let mem' ← evalLLMI C dec cfg (junk k) execID esharedkey memoryCount llmi mem
    evalAll cfg junk execID esharedkey memoryCount (k + 1) rest mem'

/-- A program output: the front of its slot. -/
def readOutput (memoryCount : Nat) (mem : Memory) (m : Nat) : Option Word := do
  let slot ← mem.load memoryCount m
  let (w, _) ← (loadWord 4).run slot
  pure w

/-- `interpret` after parsing. -/
def execute (cfg : SEConfig) (junk : HostJunk) (memoryCount : Nat) (header : List UInt8)
    (program : Program) (progInps : List Word) : Option (List Word) := do
  let L := batchCount cfg.lOut program.memInps.length
  let start ← seStart C cfg header (bytelen memoryCount) (chainAt C cfg.lOut progInps L)
  let words ← inputAll C dec cfg start.execID progInps L (C.ct start.cin)
  guard (program.memInps.length ≤ words.length)
  let mem ← junk.mem.store memoryCount (program.memInps.zip words)
  let mem' ← evalAll C dec cfg junk.call start.execID (C.ct start.esharedkey) memoryCount 0
    program.llmis mem
  program.memOuts.mapM (readOutput memoryCount mem')

/-- `interpret`. -/
def interpret (cfg : SEConfig) (junk : HostJunk) (bytecode : List UInt8) (progInps : List Word)
    (progOutcount : Nat) : Option (List Word) := do
  let (memoryCount, header, program) ← interpretFile cfg bytecode
  guard (progInps.length = program.memInps.length)
  guard (progOutcount = program.memOuts.length)
  execute C dec cfg junk memoryCount header program progInps

end Interpret

end Obscure
