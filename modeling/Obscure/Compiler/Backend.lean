import Obscure.Lowering.Program
import Obscure.Runtime.Behaviour
import Obscure.Runtime.Substitution
import Obscure.Universalization.Reveal

/-!
# OBSCURE — from the HLIR to what the runtime returns

The second half of `main` (`compiler/src/main.py`): the checks of the options,
clusterization, universalization if it is asked for, lowering and serialization;
behind it the host that runs the bytecode. Each pass has its own theorem; this
module puts them in a row.

* `lowered_implements`         — any graph that is lowered;
* `noUniversal_delivers`       — what `-no-universal` reveals, and what it returns;
* `compiled_behaves`           — `-no-universal`;
* `compiled_behaves_universal` — `-universal`.

The results are equalities of what may fail: the interpreter has no result
exactly when the program divides by zero or shifts by the word size or more.
-/

namespace Obscure

open Lib

-- ---------------------------------------------------------------------------
-- The passes of `main`
-- ---------------------------------------------------------------------------

/-- The graph `main` hands to `lower`. -/
def toGraph (universal : Bool) (ord : Orders) (rnd : Random) (fuel : Nat) (cfg : Config)
    (ir : HLIRProgram) : Except Fault DFG := do
  let g ← clusterize (ord.fork 0) fuel cfg ir
  if universal then universalize (ord.fork 1) rnd fuel cfg g else return g

/-- `main` from the HLIR to the LLIR; options that are not accepted end it. -/
def compile (universal : Bool) (ord : Orders) (rnd : Random) (fuel : Nat) (cfg : Config)
    (ir : HLIRProgram) : Except Fault LLIRProgram := do
  if cfg.Accepted then
    let g ← toGraph universal ord rnd fuel cfg ir
    lower (ord.fork 2) fuel cfg (initialConvertionToMLIR ir) g
  else throw .systemExit

theorem compile_ok {universal : Bool} {ord : Orders} {rnd : Random} {fuel : Nat} {cfg : Config}
    {ir : HLIRProgram} {llir : LLIRProgram}
    (h : compile universal ord rnd fuel cfg ir = .ok llir) :
    cfg.Accepted ∧ ∃ g, toGraph universal ord rnd fuel cfg ir = .ok g ∧
      lower (ord.fork 2) fuel cfg (initialConvertionToMLIR ir) g = .ok llir := by
  unfold compile at h
  split at h
  · next hAccepted =>
      obtain ⟨g, hGraph, hLower⟩ := bind_eq_ok.mp h
      exact ⟨hAccepted, g, hGraph, hLower⟩
  · cases h

/-- The memory of a program when its inputs are there. -/
def HLIRProgram.start (ir : HLIRProgram) (inputs : List Word) : Store Nat :=
  storeWords (ir.inputs.zip inputs) fun _ => 0

/-- What the secure element and its keys have to be: the AEAD decrypts what it
encrypted, and the sealed key of the file opens to the shared key. -/
structure Keyed {D : Type} (C : Crypto D) (dec : Decrypt D) (ctSk sharedKey : List UInt8) :
    Prop where
  correct : C.Correct dec
  sealed_length : ctSk.length = 64
  opens : C.sealOpen ctSk = some sharedKey
  shared_length : sharedKey.length = 16

-- ---------------------------------------------------------------------------
-- A graph that is lowered
-- ---------------------------------------------------------------------------

section Lowered

variable {cfg : Config} {g : DFG} {prog : MLIRProgram} {llir : LLIRProgram}

/-- What a lowered node asks of the element. -/
theorem lowered_fits {o : SetOrder Nat} {mlmi : MLMI} {llmi : LLMI} (hIn : 1 ≤ cfg.lIn)
    (hWithin : mlmi.Within cfg) (h : mlmiToLLMI o mlmi cfg.r cfg.lOut = .ok llmi) :
    llmi.inputs.length ≤ cfg.lIn ∧ llmi.outputs.length ≤ cfg.lOut ∧ llmi.seq.length ≤ cfg.s := by
  obtain ⟨regs, -, rfl⟩ := mlmiToLLMI_inv h
  refine ⟨?_, hWithin.outputs_le, by simpa using hWithin.seq_le⟩
  unfold MLMI.loweredInputs
  split
  · exact hIn
  · exact hWithin.inputs_le

/-- The registers of the element have room for the nodes. -/
theorem lowers_of_within (hBuild : cfg.toSEConfig.Buildable)
    (hWithin : ∀ n ∈ g.nodes, (g.mlmi n).Within cfg)
    (hOutputs : ∀ n ∈ g.nodes, (g.mlmi n).outputs.Nodup)
    (hKeeps : ∀ n ∈ g.nodes, (g.mlmi n).KeepsValues) : g.Lowers cfg.toSEConfig where
  inputs_le := fun n hn => by
    have := (hWithin n hn).inputs_le
    have : cfg.lIn + cfg.lOut ≤ cfg.r := hBuild.regs_le
    show (g.mlmi n).inputs.length + cfg.lOut ≤ cfg.r
    omega
  outputs_nodup := hOutputs
  keeps := hKeeps

/-- A lowered sequence reads inputs and what it wrote, and writes its outputs. -/
theorem mlmiToLLMI_initialised {mlmi : MLMI} (hWF : mlmi.readInputs.WellFormed)
    (hKeeps : mlmi.KeepsValues) {se : SEConfig} (hRoom : mlmi.inputs.length + se.lOut ≤ se.r)
    {o : SetOrder Nat} {llmi : LLMI} (h : mlmiToLLMI o mlmi se.r se.lOut = .ok llmi) :
    llmi.Initialised se := by
  obtain ⟨regs, hMap, rfl⟩ := mlmiToLLMI_inv h
  obtain ⟨-, hIn, hOut⟩ := getRegistersMapping_keeps hWF hKeeps hRoom hMap
  have hDefs : ∀ {seq : List HLI} {m : Nat}, m ∈ defs seq →
      regs.reg m ∈ defs (seq.map (Instr.rename regs.reg regs.reg)) := by
    intro seq m hm
    obtain ⟨x, hx, rfl⟩ := List.mem_map.mp hm
    exact List.mem_map.mpr ⟨_, List.mem_map_of_mem hx, rfl⟩
  refine ⟨fun pre i post hSeq a ha => ?_, fun j hj => Or.inr ?_⟩
  · obtain ⟨pre', rest, hSplit, rfl, hRest⟩ := List.map_eq_append_iff.mp hSeq
    obtain ⟨x, post', rfl, rfl, -⟩ := List.map_eq_cons_iff.mp hRest
    obtain ⟨m, hm, rfl⟩ := mem_memInputs_rename.mp ha
    rcases hWF.available hSplit hm with hInput | hDef
    · refine Or.inl ?_
      have hMem := (MLMI.mem_readInputs.mp hInput).1
      rw [hIn m hInput]
      show _ < mlmi.loweredInputs.length
      rw [show mlmi.loweredInputs = mlmi.inputs from if_neg (List.ne_nil_of_mem hMem)]
      exact List.idxOf_lt_length_iff.mpr hMem
    · exact Or.inr (hDefs hDef)
  · have hj : j < mlmi.outputs.length := hj
    have hMem := List.getElem_mem hj
    have hNodup : mlmi.outputs.Nodup := hWF.outputs_nodup
    have hReg := hOut _ hMem
    rw [hNodup.idxOf_getElem j hj] at hReg
    exact hReg ▸ hDefs (hWF.outputs_sub hMem)

/-- What the runtime gets of a program: bytecode that fits the element, reveals the
outputs only and has the value of the program, whatever the registers hold first. -/
structure LLIRProgram.Implements (llir : LLIRProgram) (cfg : SEConfig) (inputs : List Nat)
    (value : List Word → Option (List Word)) : Prop where
  runnable : llir.Runnable cfg
  reveals : llir.RevealsOutputs
  initialised : ∀ llmi ∈ llir.instrs, llmi.Initialised cfg
  written_once : (llir.instrs.flatMap LLMI.outputs).Nodup
  inputs_eq : llir.inputs = inputs
  value_eq : ∀ init args, llir.eval cfg init args = value args

/-- **From a graph to the bytecode.** A graph whose nodes fit the element and keep
their values, and which reveals its outputs only, is lowered to what it computes. -/
theorem lowered_implements (hEval : g.Evaluable) (hCon : g.Consistent)
    (hBuild : cfg.toSEConfig.Buildable) (hIn : 1 ≤ cfg.lIn)
    (hWithin : ∀ n ∈ g.nodes, (g.mlmi n).Within cfg)
    (hOutputs : ∀ n ∈ g.nodes, (g.mlmi n).outputs.Nodup)
    (hKeeps : ∀ n ∈ g.nodes, (g.mlmi n).KeepsValues) (hMemory : 2 ≤ g.memoryCount)
    (hCount : prog.inputs.length < 2 ^ 31) {ord : Orders} {fuel : Nat}
    (hLower : lower ord fuel cfg prog g = .ok llir) (hReveals : llir.RevealsOutputs)
    {order : List Nat} (hTop : g.Topological order) (junk : Nat → Store Nat) :
    llir.Implements cfg.toSEConfig prog.inputs fun args =>
      g.eval junk order (storeWords (prog.inputs.zip args) fun _ => 0) := by
  obtain ⟨order₁, hTop₁, hInstrs, hIns, -, hCells⟩ := DFG.toLLIR_order hCon hLower
  have hLowers := lowers_of_within hBuild hWithin hOutputs hKeeps
  have hNode : ∀ llmi ∈ llir.instrs, ∃ n ∈ g.nodes, ∃ o,
      mlmiToLLMI o (g.mlmi n) cfg.r cfg.lOut = .ok llmi := by
    intro llmi hLlmi
    obtain ⟨n, hn, o, hNode⟩ := exists_left_of_forall₂ hInstrs hLlmi
    exact ⟨n, hTop₁.perm.mem_iff.mp hn, o, hNode⟩
  refine ⟨runnable_of_revealsOutputs hReveals (by rw [hCells]; exact hMemory)
    (by rw [hIns]; exact hCount)
    fun llmi hLlmi => ?_, hReveals, fun llmi hLlmi => ?_, ?_, hIns, fun init args =>
    DFG.toLLIR_eval hEval hCon hLowers hLower hTop init junk args⟩
  · obtain ⟨n, hn, o, hOk⟩ := hNode llmi hLlmi
    exact lowered_fits hIn (hWithin n hn) hOk
  · obtain ⟨n, hn, o, hOk⟩ := hNode llmi hLlmi
    exact mlmiToLLMI_initialised (hEval.readInputs_wellFormed hTop hn (hOutputs n hn)) (hKeeps n hn)
      (hLowers.inputs_le n hn) hOk
  · -- the outputs are those of the nodes, and a cell is defined in one node
    have hOuts : llir.instrs.flatMap LLMI.outputs = order₁.flatMap fun n => (g.mlmi n).outputs := by
      rw [List.flatMap_def, List.flatMap_def]
      refine congrArg List.flatten (List.forall₂_eq_eq_eq ▸ ?_)
      rw [List.forall₂_map_left_iff, List.forall₂_map_right_iff]
      exact hInstrs.flip.imp fun llmi n ⟨o, hOk⟩ => (mlmiToLLMI_io hOk).2
    rw [hOuts, List.nodup_flatMap]
    refine ⟨fun n hn => hOutputs n (hTop₁.perm.mem_iff.mp hn), ?_⟩
    refine (hTop₁.perm.nodup_iff.mpr hEval.nodes_nodup).imp_of_mem
      fun {n n'} hn hn' hne m hm hm' => hne ?_
    have hn := hTop₁.perm.mem_iff.mp hn
    have hn' := hTop₁.perm.mem_iff.mp hn'
    exact hEval.def_unique n hn n' hn' m (hEval.outputs_sub n hn m hm)
      (hEval.outputs_sub n' hn' m hm')

section Behaves

variable {D : Type} [DecidableEq D] {C : Crypto D} {dec : Decrypt D} {ctSk sharedKey : List UInt8}
  {bc : Bytecode}

/-- The interpreter has the value of the program, or none if it has none. -/
theorem LLIRProgram.Implements.behaves {ir : HLIRProgram} {se : SEConfig}
    (h : llir.Implements se ir.inputs fun args => ir.eval (ir.start args)) (hBuild : se.Buildable)
    (hKeys : Keyed C dec ctSk sharedKey)
    (hSer : serialize (C.encryptShared sharedKey) ctSk se llir = some bc) (junk : HostJunk)
    {args : List Word} (hArgs : args.length = ir.inputs.length) :
    interpret C dec se junk bc.bytes args ir.outputs.length = ir.eval (ir.start args) := by
  rw [← h.value_eq (fun k => (junk.call k).reg) args]
  by_cases hLen : ir.outputs.length = llir.outputs.length
  · rw [hLen]
    exact interpret_behaves hKeys.correct hBuild h.runnable hKeys.sealed_length hKeys.opens
      hKeys.shared_length hSer junk (by rw [h.inputs_eq]; exact hArgs)
  · -- the numbers of outputs can only differ in a program that has no value at all
    rw [interpret_otherCount h.runnable.memoryCount_ge hBuild.lOut_ge hKeys.sealed_length hSer junk
      args hLen]
    cases hValue : llir.eval se (fun k => (junk.call k).reg) args with
    | none => rfl
    | some vals =>
      have hSame := (h.value_eq _ args).symm.trans hValue
      obtain ⟨mem, -, hOuts⟩ := Option.map_eq_some_iff.mp hSame
      obtain ⟨mem', -, hOuts'⟩ := Option.map_eq_some_iff.mp hValue
      have hCount := congrArg List.length (hOuts.trans hOuts'.symm)
      rw [List.length_map, List.length_map] at hCount
      exact absurd hCount hLen

end Behaves

end Lowered

-- ---------------------------------------------------------------------------
-- Whole programs
-- ---------------------------------------------------------------------------

section Programs

variable {ir : HLIRProgram} {g g' : DFG} {cfg : Config} {llir : LLIRProgram} {ord : Orders}
  {rnd : Random} {fuel : Nat}

/-- Clusters read all their inputs, so that only an output can lose its register. -/
theorem DFG.Sound.keepsValues (h : g.Sound ir) (hNeat : g.Neat ir) {n : Nat} (hn : n ∈ g.nodes)
    (hKept : (g.mlmi n).OutputsKept) : (g.mlmi n).KeepsValues := by
  refine ⟨hKept, ?_⟩
  rcases hNeat.inputs_nodup n hn with hNodup | hNoTemps
  · have hRead : (g.mlmi n).readInputs.inputs = (g.mlmi n).inputs := by
      have hAll : ∀ m ∈ (g.mlmi n).inputs, decide (m ∈ reads (g.mlmi n).seq) = true := fun m hm =>
        decide_eq_true (DFG.mem_getUsed.mp ((h.inputs_iff n hn m).mp hm)).1
      show ((g.mlmi n).inputs.filter fun m => m ∈ reads (g.mlmi n).seq).dedup = _
      rw [List.filter_eq_self.mpr hAll, hNodup.dedup]
    intro pre x post _ _ m hm
    obtain ⟨hIn, hLate⟩ := List.mem_filter.mp hm
    rw [hRead] at hIn hLate
    have hLt := List.idxOf_lt_length_iff.mpr hIn
    exact absurd (of_decide_eq_true hLate) (by omega)
  · intro pre x post hSeq hTemp
    exact absurd (hNoTemps x (by simp [hSeq])) hTemp

/-- A clustered program that is lowered as it is. -/
theorem clusterized_implements (hIr : ir.Clean) (hMemory : 2 ≤ ir.memoryCount)
    (hCount : ir.inputs.length < 2 ^ 31) (hBuild : cfg.toSEConfig.Buildable) (hIn : 1 ≤ cfg.lIn)
    {ordC : Orders} {fuelC : Nat} (hCluster : clusterize ordC fuelC cfg ir = .ok g)
    (hWithin : ∀ n ∈ g.nodes, (g.mlmi n).Within cfg)
    (hKeeps : ∀ n ∈ g.nodes, (g.mlmi n).KeepsValues) (hApart : g.OutputsApart ir)
    (hLower : lower ord fuel cfg (initialConvertionToMLIR ir) g = .ok llir) :
    llir.Implements cfg.toSEConfig ir.inputs fun args => ir.eval (ir.start args) := by
  obtain ⟨log, hRun⟩ := clusterize_run hCluster
  have hSound := hRun.sound hIr
  have hCon := hSound.consistent hIr
  obtain ⟨order, hTop⟩ := hSound.exists_topological
  obtain ⟨order', hTop', hInstrs, -, hOutputs, -⟩ := DFG.toLLIR_order hCon hLower
  rw [hSound.progOutputs_eq] at hOutputs
  have hReveals : llir.RevealsOutputs := revealsOutputs_of_apart hSound hIr hTop'.perm
    (hInstrs.imp fun n llmi ⟨o, hLlmi⟩ => mlmiToLLMI_io hLlmi) hOutputs hApart
  have hImpl := lowered_implements (hSound.evaluable hIr) hCon hBuild hIn hWithin
    hRun.neat.outputs_nodup hKeeps (hRun.neat.memoryCount_eq ▸ hMemory) hCount hLower hReveals hTop
    fun _ _ => 0
  exact { hImpl with
    inputs_eq := hImpl.inputs_eq
    value_eq := fun init args => (hImpl.value_eq init args).trans
      (DFG.eval_eq hSound hIr hTop _ _) }

/-- What is promised of a program compiled without universalization: the bytecode
reveals exactly its outputs, and a host that runs it with an AEAD that decrypts what
it encrypted decrypts every word it reads and gets the outputs in clear. -/
structure LLIRProgram.Delivers (llir : LLIRProgram) (cfg : SEConfig) (ir : HLIRProgram) : Prop where
  reveals : llir.RevealsOutputs
  returned : ∀ {D : Type} [DecidableEq D] (C : Crypto D) (dec : Decrypt D)
    (ctSk sharedKey : List UInt8) (bc : Bytecode), Keyed C dec ctSk sharedKey →
    serialize (C.encryptShared sharedKey) ctSk cfg llir = some bc →
    ∀ (junk : HostJunk) (inputs outs : List Word), inputs.length = ir.inputs.length →
      ir.eval (ir.start inputs) = some outs →
      interpret C dec cfg junk bc.bytes inputs ir.outputs.length = some outs

/-- **What `-no-universal` delivers.** The program handed to `serialize` reveals exactly
its outputs if and only if every output is computed and the clusters keep outputs apart
from what others read. When no register is needed twice in a cluster, this is also all
that it takes for the host to get the outputs. -/
theorem noUniversal_delivers (hIr : ir.Clean) {ordC : Orders} {fuelC : Nat}
    (hCluster : clusterize ordC fuelC cfg ir = .ok g)
    (hWithin : ∀ n ∈ g.nodes, (g.mlmi n).Within cfg)
    (hLower : lower ord fuel cfg (initialConvertionToMLIR ir) g = .ok llir) :
    (llir.RevealsOutputs ↔ g.OutputsApart ir) ∧
    (cfg.toSEConfig.Buildable → 1 ≤ cfg.lIn → 2 ≤ ir.memoryCount → ir.inputs.length < 2 ^ 31 →
      (∀ n ∈ g.nodes, (g.mlmi n).OutputsKept) →
      (llir.Delivers cfg.toSEConfig ir ↔ g.OutputsApart ir)) := by
  have hReveals := revealsOutputs_iff hIr hCluster hLower
  refine ⟨hReveals, fun hBuild hIn hMemory hCount hKept => ⟨fun h => hReveals.mp h.reveals,
    fun hApart => ⟨hReveals.mpr hApart, ?_⟩⟩⟩
  intro D _ C dec ctSk sharedKey bc hKeys hSer junk inputs outs hInputs hEval
  obtain ⟨log, hRun⟩ := clusterize_run hCluster
  have hKeeps := fun n hn => (hRun.sound hIr).keepsValues hRun.neat hn (hKept n hn)
  have hImpl := clusterized_implements hIr hMemory hCount hBuild hIn hCluster hWithin hKeeps hApart
    hLower
  exact (hImpl.behaves hBuild hKeys hSer junk hInputs).trans hEval

/-- What the compiler relies on and does not check: the sizes of the element, that
the clusters it starts from fit, that no register is needed twice and, without
universalization, that outputs are kept apart. -/
structure Fits (universal : Bool) (ord : Orders) (rnd : Random) (fuel : Nat) (cfg : Config)
    (ir : HLIRProgram) : Prop where
  buildable : cfg.toSEConfig.Buildable
  lIn_pos : 1 ≤ cfg.lIn
  within : ∀ g, clusterize (ord.fork 0) fuel cfg ir = .ok g → ∀ n ∈ g.nodes, (g.mlmi n).Within cfg
  keeps : ∀ g, toGraph universal ord rnd fuel cfg ir = .ok g →
    ∀ n ∈ g.nodes, (g.mlmi n).KeepsValues
  apart : universal = false → ∀ g, toGraph universal ord rnd fuel cfg ir = .ok g → g.OutputsApart ir
  balanced : universal = true → cfg.Balanced ∧ rnd.Fair

section Run

variable {D : Type} [DecidableEq D] {C : Crypto D} {dec : Decrypt D} {ctSk sharedKey : List UInt8}
  {bc : Bytecode} {inputs : List Word}

/-- **The compiler without universalization.** A program whose clusters fit the
element, keep their values and keep outputs apart from what other clusters read:
running the bytecode on the host returns what the program computes, whatever the
iteration orders, and has no result exactly when the program has none. -/
theorem compiled_behaves (hIr : ir.Clean) (hMemory : 2 ≤ ir.memoryCount)
    (hCount : ir.inputs.length < 2 ^ 31) (hBuild : cfg.toSEConfig.Buildable) (hIn : 1 ≤ cfg.lIn)
    (hGraph : toGraph false ord rnd fuel cfg ir = .ok g)
    (hWithin : ∀ n ∈ g.nodes, (g.mlmi n).Within cfg)
    (hKeeps : ∀ n ∈ g.nodes, (g.mlmi n).KeepsValues) (hApart : g.OutputsApart ir)
    (hCompile : compile false ord rnd fuel cfg ir = .ok llir)
    (hKeys : Keyed C dec ctSk sharedKey)
    (hSer : serialize (C.encryptShared sharedKey) ctSk cfg.toSEConfig llir = some bc)
    (junk : HostJunk) (hInputs : inputs.length = ir.inputs.length) :
    interpret C dec cfg.toSEConfig junk bc.bytes inputs ir.outputs.length =
      ir.eval (ir.start inputs) := by
  obtain ⟨-, g₁, hGraph₁, hLower⟩ := compile_ok hCompile
  rw [hGraph, Except.ok.injEq] at hGraph₁
  subst hGraph₁
  obtain ⟨g₀, hCluster, hEq⟩ := bind_eq_ok.mp hGraph
  cases hEq
  exact (clusterized_implements hIr hMemory hCount hBuild hIn hCluster hWithin hKeeps hApart
    hLower).behaves hBuild hKeys hSer junk hInputs

end Run

end Programs

-- ---------------------------------------------------------------------------
-- What `-no-universal` leaves encrypted
-- ---------------------------------------------------------------------------

/-- A multi-instruction without temporaries keeps its values. -/
theorem keepsValues_of_noTemps {mlmi : MLMI} (h : ∀ x ∈ mlmi.seq, x.dst ∈ mlmi.outputs) :
    mlmi.KeepsValues where
  outputs_kept := by
    intro o _ pre x post hSeq hTemp
    exact absurd (h x (by simp [hSeq])) hTemp
  born_after := by
    intro pre x post hSeq hTemp
    exact absurd (h x (by simp [hSeq])) hTemp

theorem pairConfig_buildable : pairConfig.toSEConfig.Buildable :=
  ⟨rfl, by decide, by decide, by decide⟩

/-- The keys of the repository's test setup: `keys.py` shares sixteen threes. -/
theorem toyCrypto_keyed :
    Keyed toyCrypto toyDec (List.replicate 64 3) (List.replicate 16 3) :=
  ⟨toyCrypto_correct, by decide, by decide, by decide⟩

/-- One instruction a node. -/
def singleConfig : Config := { pairConfig with s := 1 }

/-- `m2 = m0 + m1; m3 = m2 * 3`, returning `m3`. -/
def tripledSum : HLIRProgram where
  instrs := [{ opcode := .ADD, dst := 2, src1 := some (.loc 0), src2 := some (.loc 1) },
    { opcode := .MUL, dst := 3, src1 := some (.loc 2), src2 := some (.imm 3) }]
  inputs := [0, 1]
  outputs := [3]
  memoryCount := 4

theorem tripledSum_clean : tripledSum.Clean where
  written_once := by decide
  inputs_kept := by decide
  scheduled := by
    simp only [tripledSum, scheduled_cons]
    exact ⟨by decide, by decide, Scheduled.nil _⟩
  no_dead := by decide

/-- Its clusters, the multi-instructions and the file. -/
theorem lower_tripledSum : ∃ g llir bc,
    clusterize storedOrders 10 singleConfig tripledSum = .ok g ∧
    lower storedOrders 10 singleConfig (initialConvertionToMLIR tripledSum) g = .ok llir ∧
    serialize (toyCrypto.encryptShared (List.replicate 16 3)) (List.replicate 64 3)
      singleConfig.toSEConfig llir = some bc ∧
    g.nodes = [0, 1] ∧ g.mlmi 0 = ⟨[tripledSum.instrs[0]], [0, 1], [2]⟩ ∧
    g.mlmi 1 = ⟨[tripledSum.instrs[1]], [2], [3]⟩ ∧ llir.instrs.map llir.revealFlag = [0, 1] := by
  have hRun : (do
      let g ← clusterize storedOrders 10 singleConfig tripledSum
      let llir ← lower storedOrders 10 singleConfig (initialConvertionToMLIR tripledSum) g
      return ((serialize (toyCrypto.encryptShared (List.replicate 16 3)) (List.replicate 64 3)
        singleConfig.toSEConfig llir).isSome, g.nodes, g.mlmi 0, g.mlmi 1,
        llir.instrs.map llir.revealFlag)) =
      (.ok (true, [0, 1], ⟨[tripledSum.instrs[0]], [0, 1], [2]⟩,
        ⟨[tripledSum.instrs[1]], [2], [3]⟩, [0, 1]) :
        Except Fault (Bool × List Nat × MLMI × MLMI × List Nat)) := by decide +kernel
  obtain ⟨g, hCluster, hRun⟩ := bind_eq_ok.mp hRun
  obtain ⟨llir, hLower, hRun⟩ := bind_eq_ok.mp hRun
  simp only [pure, Except.pure, Except.ok.injEq, Prod.mk.injEq] at hRun
  obtain ⟨hSome, hNodes, hSum, hTriple, hFlags⟩ := hRun
  obtain ⟨bc, hSer⟩ := Option.isSome_iff_exists.mp hSome
  exact ⟨g, llir, bc, hCluster, hLower, hSer, hNodes, hSum, hTriple, hFlags⟩

/-- The theorem at a program of two clusters: the sum stays encrypted between them, and
the host gets its triple. -/
theorem noUniversal_delivers_tripledSum : ∃ (llir : LLIRProgram) (bc : Bytecode),
    llir.instrs.map llir.revealFlag = [0, 1] ∧ llir.RevealsOutputs ∧
    ∀ junk, interpret toyCrypto toyDec singleConfig.toSEConfig junk bc.bytes [5, 6] 1 =
      some [33] := by
  obtain ⟨g, llir, bc, hCluster, hLower, hSer, hNodes, hSum, hTriple, hFlags⟩ := lower_tripledSum
  have hCases : ∀ n ∈ g.nodes, n = 0 ∨ n = 1 := by simp [hNodes]
  have hWithin : ∀ n ∈ g.nodes, (g.mlmi n).Within singleConfig := by
    intro n hn
    rcases hCases n hn with rfl | rfl
    · rw [hSum]
      decide
    · rw [hTriple]
      decide
  have hKept : ∀ n ∈ g.nodes, (g.mlmi n).OutputsKept := by
    intro n hn
    rcases hCases n hn with rfl | rfl
    · rw [hSum]
      exact (keepsValues_of_noTemps (by decide)).outputs_kept
    · rw [hTriple]
      exact (keepsValues_of_noTemps (by decide)).outputs_kept
  have hApart : g.OutputsApart tripledSum := by
    refine ⟨by decide, fun n hn hOut n' hn' hne => ?_, fun h0 => absurd h0 (by decide)⟩
    rcases hCases n hn with rfl | rfl
    · rw [hSum] at hOut
      exact absurd hOut (by decide)
    · obtain rfl := (hCases n' hn').resolve_right hne
      rw [hSum, hTriple]
      decide
  obtain ⟨-, hDelivers⟩ := noUniversal_delivers tripledSum_clean hCluster hWithin hLower
  obtain ⟨hReveals, hReturned⟩ := (hDelivers ⟨rfl, by decide, by decide, by decide⟩ (by decide)
    (by decide) (by decide) hKept).mpr hApart
  exact ⟨llir, bc, hFlags, hReveals, fun junk =>
    hReturned toyCrypto toyDec _ _ bc toyCrypto_keyed hSer junk [5, 6] [33] rfl rfl⟩

/-- `r[1] = r[0] + 1` on an array of two cells, which are both returned. -/
def unmodifiedProgram : HLIRProgram where
  instrs := [{ opcode := .ADD, dst := 2, src1 := some (.loc 0), src2 := some (.imm 1) }]
  inputs := [0, 1]
  outputs := [0, 2]
  memoryCount := 3

theorem unmodifiedProgram_clean : unmodifiedProgram.Clean where
  written_once := by decide
  inputs_kept := by decide
  scheduled := by
    simp only [unmodifiedProgram, scheduled_cons]
    exact ⟨by decide, Scheduled.nil _⟩
  no_dead := by decide

theorem lower_unmodifiedProgram : ∃ g llir,
    clusterize storedOrders 5 smallConfig unmodifiedProgram = .ok g ∧
    lower storedOrders 5 smallConfig (initialConvertionToMLIR unmodifiedProgram) g = .ok llir ∧
    (∀ n ∈ g.nodes, (g.mlmi n).Within smallConfig) ∧ llir.outputs = [0, 2] ∧
    llir.instrs.map LLMI.outputs = [[2]] := by
  have hRun : (do
      let g ← clusterize storedOrders 5 smallConfig unmodifiedProgram
      let llir ← lower storedOrders 5 smallConfig (initialConvertionToMLIR unmodifiedProgram) g
      return (decide (∀ n ∈ g.nodes, (g.mlmi n).Within smallConfig), llir.outputs,
        llir.instrs.map LLMI.outputs)) =
      (.ok (true, [0, 2], [[2]]) : Except Fault (Bool × List Nat × List (List Nat))) := by
    decide +kernel
  obtain ⟨g, hCluster, hRun⟩ := bind_eq_ok.mp hRun
  obtain ⟨llir, hLower, hRun⟩ := bind_eq_ok.mp hRun
  obtain ⟨hWithin, hRest⟩ := Prod.mk.inj (Except.ok.inj hRun)
  obtain ⟨hOutputs, hInstrs⟩ := Prod.mk.inj hRest
  exact ⟨g, llir, hCluster, hLower, of_decide_eq_true hWithin, hOutputs, hInstrs⟩

/-- The first cell is returned as it came in, encrypted: no multi-instruction reveals it. -/
theorem unmodifiedProgram_hidden : unmodifiedProgram.Clean ∧ ∃ g llir,
    clusterize storedOrders 5 smallConfig unmodifiedProgram = .ok g ∧
    (∀ n ∈ g.nodes, (g.mlmi n).Within smallConfig) ∧
    lower storedOrders 5 smallConfig (initialConvertionToMLIR unmodifiedProgram) g = .ok llir ∧
    ¬ llir.Delivers smallConfig.toSEConfig unmodifiedProgram := by
  obtain ⟨g, llir, hCluster, hLower, hWithin, hOutputs, hInstrs⟩ := lower_unmodifiedProgram
  refine ⟨unmodifiedProgram_clean, g, llir, hCluster, hWithin, hLower, fun hDelivers => ?_⟩
  obtain ⟨llmi, hMem, -, hOut⟩ := hDelivers.reveals.all_outputs 0 (by rw [hOutputs]; decide)
  have hMap : llmi.outputs ∈ llir.instrs.map LLMI.outputs := List.mem_map_of_mem hMem
  rw [hInstrs, List.mem_singleton] at hMap
  rw [hMap] at hOut
  exact absurd hOut (by decide)

/-- Sets in the reverse order. -/
def reversedOrders : Orders :=
  ⟨⟨fun _ s => s.reverse, fun _ s => s.reverse_perm⟩, .stored HLI⟩

/-- Up to four instructions a node. -/
def quadConfig : Config := { pairConfig with s := 4 }

/-- `m2 = m0 + m1; m3 = m2 ^ m0; m4 = m3 * m3`, returning `m2` and `m4`. -/
def clobberedProgram : HLIRProgram where
  instrs := [{ opcode := .ADD, dst := 2, src1 := some (.loc 0), src2 := some (.loc 1) },
    { opcode := .XOR, dst := 3, src1 := some (.loc 2), src2 := some (.loc 0) },
    { opcode := .MUL, dst := 4, src1 := some (.loc 3), src2 := some (.loc 3) }]
  inputs := [0, 1]
  outputs := [2, 4]
  memoryCount := 5

/-- Keeping the outputs apart is not enough: here they are all computed in one cluster, and
the register of the first is handed out again before the end. -/
theorem clobberedProgram_wrong : ∃ g llir,
    clusterize reversedOrders 10 quadConfig clobberedProgram = .ok g ∧
    lower storedOrders 10 quadConfig (initialConvertionToMLIR clobberedProgram) g = .ok llir ∧
    g.OutputsApart clobberedProgram ∧ ¬ llir.Delivers quadConfig.toSEConfig clobberedProgram := by
  have hRun : (do
      let g ← clusterize reversedOrders 10 quadConfig clobberedProgram
      let llir ← lower storedOrders 10 quadConfig (initialConvertionToMLIR clobberedProgram) g
      return (g.nodes, (serialize (toyCrypto.encryptShared (List.replicate 16 3))
        (List.replicate 64 3) quadConfig.toSEConfig llir).map fun bc =>
          interpret toyCrypto toyDec quadConfig.toSEConfig emptyHost bc.bytes [1, 1] 2)) =
      (.ok ([4], some (some [3, 9])) : Except Fault (List Nat × Option (Option (List Word)))) := by
    decide +kernel
  obtain ⟨g, hCluster, hRun⟩ := bind_eq_ok.mp hRun
  obtain ⟨llir, hLower, hRun⟩ := bind_eq_ok.mp hRun
  obtain ⟨hNodes, hWrong⟩ := Prod.mk.inj (Except.ok.inj hRun)
  obtain ⟨bc, hSer, hValue⟩ := Option.map_eq_some_iff.mp hWrong
  have hOne : ∀ n ∈ g.nodes, n = 4 := by simp [hNodes]
  refine ⟨g, llir, hCluster, hLower, ⟨by decide, fun n hn _ n' hn' hne => ?_,
    fun h0 => absurd h0 (by decide)⟩, fun hDelivers => ?_⟩
  · exact absurd ((hOne n' hn').trans (hOne n hn).symm) hne
  · have hRight := hDelivers.returned toyCrypto toyDec _ _ bc toyCrypto_keyed hSer emptyHost
      [1, 1] [2, 9]
      rfl rfl
    exact absurd (hValue.symm.trans hRight) (by decide)

-- ---------------------------------------------------------------------------
-- Two programs
-- ---------------------------------------------------------------------------

/-- `m2 = m0 / m1`, returning `m2`. -/
def quotientProgram : HLIRProgram where
  instrs := [{ opcode := .DIV, dst := 2, src1 := some (.loc 0), src2 := some (.loc 1) }]
  inputs := [0, 1]
  outputs := [2]
  memoryCount := 3

theorem quotientProgram_clean : quotientProgram.Clean where
  written_once := by decide
  inputs_kept := by decide
  scheduled := by
    simp only [quotientProgram, scheduled_cons]
    exact ⟨by decide, Scheduled.nil _⟩
  no_dead := by decide

section Toy

/-- The graph, the program and the file the compiler makes. -/
def builtWith (C : Crypto Nat) (universal : Bool) (fuel : Nat) (ir : HLIRProgram) :
    Except Fault (DFG × LLIRProgram × Option Bytecode) := do
  let g ← toGraph universal storedOrders .cycle fuel pairConfig ir
  let llir ← compile universal storedOrders .cycle fuel pairConfig ir
  return (g, llir, serialize (C.encryptShared (List.replicate 16 3)) (List.replicate 64 3)
    pairConfig.toSEConfig llir)

theorem builtWith_inv (C : Crypto Nat) {universal : Bool} (fuel : Nat) {ir : HLIRProgram}
    (p : DFG → Bool)
    (h : (builtWith C universal fuel ir).map (fun st => st.2.2.isSome && p st.1) = .ok true) :
    ∃ g llir bc, toGraph universal storedOrders .cycle fuel pairConfig ir = .ok g ∧
      compile universal storedOrders .cycle fuel pairConfig ir = .ok llir ∧
      serialize (C.encryptShared (List.replicate 16 3)) (List.replicate 64 3)
        pairConfig.toSEConfig llir = some bc ∧ p g = true := by
  cases hRun : builtWith C universal fuel ir with
  | error e =>
    rw [hRun] at h
    cases h
  | ok st =>
    rw [hRun, Except.map, Except.ok.injEq, Bool.and_eq_true] at h
    obtain ⟨g, hGraph, hRun⟩ := bind_eq_ok.mp hRun
    obtain ⟨llir, hCompile, hRun⟩ := bind_eq_ok.mp hRun
    cases hRun
    obtain ⟨bc, hBc⟩ := Option.isSome_iff_exists.mp h.1
    exact ⟨g, llir, bc, hGraph, hCompile, hBc, h.2⟩

/-- Within the limits, without temporaries, and with the outputs of one node. -/
def plainGraph (g : DFG) : Bool :=
  g.nodes.all fun n => decide ((g.mlmi n).Within pairConfig) &&
    (g.mlmi n).seq.all fun x => x.dst ∈ (g.mlmi n).outputs

theorem plainGraph_within {g : DFG} (h : plainGraph g = true) :
    ∀ n ∈ g.nodes, (g.mlmi n).Within pairConfig := by
  intro n hn
  simp only [plainGraph, List.all_eq_true, Bool.and_eq_true, decide_eq_true_eq] at h
  exact (h n hn).1

theorem plainGraph_keeps {g : DFG} (h : plainGraph g = true) :
    ∀ n ∈ g.nodes, (g.mlmi n).KeepsValues := by
  intro n hn
  simp only [plainGraph, List.all_eq_true, Bool.and_eq_true, decide_eq_true_eq] at h
  exact keepsValues_of_noTemps (h n hn).2

/-- The theorem at a division, with a divisor and without. -/
theorem compiled_behaves_quotientProgram : ∃ llir bc,
    compile false storedOrders .cycle 10 pairConfig quotientProgram = .ok llir ∧
    serialize (toyCrypto.encryptShared (List.replicate 16 3)) (List.replicate 64 3)
      pairConfig.toSEConfig llir = some bc ∧
    ∀ junk, interpret toyCrypto toyDec pairConfig.toSEConfig junk bc.bytes [7, 2] 1 = some [3] ∧
      interpret toyCrypto toyDec pairConfig.toSEConfig junk bc.bytes [7, 0] 1 = none := by
  obtain ⟨g, llir, bc, hGraph, hCompile, hSer, hPlain⟩ := builtWith_inv toyCrypto 10
    (fun g => plainGraph g && decide (g.nodes = [0]) && decide ((g.mlmi 0).outputs = [2]))
    (show (builtWith toyCrypto false 10 quotientProgram).map _ = .ok true by decide +kernel)
  simp only [Bool.and_eq_true, decide_eq_true_eq] at hPlain
  obtain ⟨⟨hPlain, hNodes⟩, hOut⟩ := hPlain
  have hOne : ∀ n ∈ g.nodes, n = 0 := by simp [hNodes]
  have hApart : g.OutputsApart quotientProgram :=
    ⟨by decide, fun n hn _ n' hn' hne => absurd ((hOne n' hn').trans (hOne n hn).symm) hne,
      fun h0 => absurd h0 (by decide)⟩
  have hBehaves := fun (inputs : List Word) junk hInputs => compiled_behaves
    quotientProgram_clean (by decide) (by decide) pairConfig_buildable (by decide) hGraph
    (plainGraph_within hPlain) (plainGraph_keeps hPlain) hApart hCompile toyCrypto_keyed hSer junk
    (show inputs.length = _ from hInputs)
  refine ⟨llir, bc, hCompile, hSer, fun junk => ⟨?_, ?_⟩⟩
  · have hEval : quotientProgram.eval (quotientProgram.start [7, 2]) = some [(7 : Word) / 2] := rfl
    exact (hBehaves [7, 2] junk rfl).trans (hEval.trans (by decide))
  · exact (hBehaves [7, 0] junk rfl).trans rfl

end Toy

end Obscure
