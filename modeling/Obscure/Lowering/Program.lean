import Obscure.Lowering.Dummies
import Obscure.Lowering.ToLLIR
import Obscure.Runtime.Refinement

/-!
# OBSCURE — a lowered graph computes what the graph computes

Lowering is decided node by node: the multi-instruction of a node, run on
registers, does to the memory of words what the node does to the cells. The two
gaps between them are the register of an output that is taken over and the
register of an input that stands behind a dummy; `MLMI.KeepsValues` is the
absence of both. The program is then compared with the graph along the order in
which the nodes were scheduled.

* `mlmiToLLMI_eval`  — one node, including where it stops;
* `DFG.toLLIR_eval`  — the whole graph, in every topological order.
-/

namespace Obscure

open Lib

-- ---------------------------------------------------------------------------
-- One multi-instruction
-- ---------------------------------------------------------------------------

/-- The multi-instruction with those of its inputs that the sequence reads, each
once. -/
def MLMI.readInputs (mlmi : MLMI) : MLMI :=
  mlmi.withInputs (mlmi.inputs.filter fun m => m ∈ reads mlmi.seq).dedup

theorem MLMI.mem_readInputs {mlmi : MLMI} {m : Nat} :
    m ∈ mlmi.readInputs.inputs ↔ m ∈ mlmi.inputs ∧ m ∈ reads mlmi.seq := by
  simp [MLMI.readInputs, MLMI.withInputs]

/-- No register is handed out while the value it holds is still needed: no
temporary takes over an output it differs from, and none is born before the last
read of an input that is pinned inside the pool. -/
structure MLMI.KeepsValues (mlmi : MLMI) : Prop where
  outputs_kept : mlmi.OutputsKept
  born_after : mlmi.BornAfter (mlmi.readInputs.misplaced mlmi.inputs)

-- ---------------------------------------------------------------------------
-- Repeated inputs
-- ---------------------------------------------------------------------------

/-- Put `d` in the place of every input that has come before. -/
def blankRepeats (d : Nat) : List Nat → List Nat → List Nat
  | _, [] => []
  | seen, m :: ms =>
    if m ∈ seen then d :: blankRepeats d seen ms else m :: blankRepeats d (m :: seen) ms

section Repeats

variable {d : Nat} {ins seen : List Nat}

theorem length_blankRepeats : (blankRepeats d seen ins).length = ins.length := by
  induction ins generalizing seen with
  | nil => rfl
  | cons i ins ih =>
    rw [blankRepeats]
    split <;> simp [ih]

theorem mem_blankRepeats {m : Nat} (hd : m ≠ d) :
    m ∈ blankRepeats d seen ins ↔ m ∈ ins ∧ m ∉ seen := by
  induction ins generalizing seen with
  | nil => simp [blankRepeats]
  | cons i ins ih =>
    rw [blankRepeats]
    split
    · next hi =>
        rw [List.mem_cons, ih, List.mem_cons]
        constructor
        · rintro (rfl | ⟨hm, hNew⟩)
          · exact absurd rfl hd
          · exact ⟨Or.inr hm, hNew⟩
        · rintro ⟨rfl | hm, hNew⟩
          · exact absurd hi hNew
          · exact Or.inr ⟨hm, hNew⟩
    · next hi =>
        rw [List.mem_cons, ih, List.mem_cons, List.mem_cons]
        by_cases hm : m = i
        · subst hm
          simp [hi]
        · simp [hm]

/-- The first place of an input does not change. -/
theorem idxOf_blankRepeats {m : Nat} (hd : m ≠ d) (hNew : m ∉ seen) :
    (blankRepeats d seen ins).idxOf m = ins.idxOf m := by
  induction ins generalizing seen with
  | nil => rfl
  | cons i ins ih =>
    rw [blankRepeats]
    split
    · next hi =>
        have hne : m ≠ i := fun h => hNew (h ▸ hi)
        rw [List.idxOf_cons_ne _ (Ne.symm hd), List.idxOf_cons_ne _ (Ne.symm hne), ih hNew]
    · by_cases hm : m = i
      · subst hm
        simp
      · rw [List.idxOf_cons_ne _ (Ne.symm hm), List.idxOf_cons_ne _ (Ne.symm hm),
          ih (by simp [hm, hNew])]

theorem nodup_filter_blankRepeats {p : Nat → Bool} (hd : p d = false) :
    ((blankRepeats d seen ins).filter p).Nodup := by
  induction ins generalizing seen with
  | nil => exact List.nodup_nil
  | cons i ins ih =>
    rw [blankRepeats]
    split
    · rw [List.filter_cons_of_neg (by simp [hd])]
      exact ih
    · by_cases hp : p i = true
      · rw [List.filter_cons_of_pos hp]
        refine List.nodup_cons.mpr ⟨fun hm => ?_, ih⟩
        have hne : i ≠ d := by
          rintro rfl
          rw [hd] at hp
          cases hp
        exact ((mem_blankRepeats hne).mp (List.mem_filter.mp hm).1).2 List.mem_cons_self
      · rw [List.filter_cons_of_neg hp]
        exact ih

/-- The allocator passes over an input that has a register. -/
theorem mapInputs_blankRepeats {used : List Nat} (hd : d ∉ used) (idx : Nat) {regs : RegMap}
    (hSeen : ∀ m ∈ seen, m ∈ used → (regs.lookup m).isSome)
    (hNew : ∀ m, m ∉ seen → regs.lookup m = none) :
    mapInputs used idx (blankRepeats d seen ins) regs = mapInputs used idx ins regs := by
  induction ins generalizing seen idx regs with
  | nil => rfl
  | cons i ins ih =>
    rw [blankRepeats]
    split
    · next hi =>
        have hSkip : ¬ (i ∈ used ∧ (regs.lookup i).isNone) := by
          rintro ⟨hUsed, hNone⟩
          have hSome := hSeen i hi hUsed
          rw [Option.isNone_iff_eq_none.mp hNone] at hSome
          cases hSome
        rw [mapInputs, mapInputs, if_neg fun h => hd h.1, if_neg hSkip]
        exact ih (idx + 1) hSeen hNew
    · next hi =>
        rw [mapInputs, mapInputs]
        split
        · next hTake =>
            refine ih (idx + 1) (fun m hm hUsed => ?_) fun m hm => ?_
            · rw [lookup_cons_ite]
              split
              · rfl
              · next hne => exact hSeen m ((List.mem_cons.mp hm).resolve_left hne) hUsed
            · rw [List.mem_cons, not_or] at hm
              rw [lookup_cons_ite, if_neg hm.1]
              exact hNew m hm.2
        · next hSkip =>
            refine ih (idx + 1) (fun m hm hUsed => ?_) fun m hm => ?_
            · rcases List.mem_cons.mp hm with rfl | hm
              · exact absurd ⟨hUsed, by simp [hNew m hi]⟩ hSkip
              · exact hSeen m hm hUsed
            · rw [List.mem_cons, not_or] at hm
              exact hNew m hm.2

end Repeats

/-- Where a sequence stops, the renamed one stops too. -/
theorem sound_stops {inputs : List Nat} {reg : Nat → Nat} :
    ∀ (rest done : List HLI), Sound (done ++ rest) inputs reg →
    (∀ pre x post, done ++ rest = pre ++ x :: post →
      ∀ m ∈ x.memInputs, m ∈ inputs ∨ m ∈ defs pre) →
    ∀ {st st' : Store Nat}, Agrees done inputs reg st st' → run rest st = none →
      run (rest.map (Instr.rename reg reg)) st' = none := by
  intro rest
  induction rest with
  | nil =>
    intro done _ _ st st' _ hRun
    cases hRun
  | cons x post ih =>
    intro done hSound hAvail st st' hAgree hRun
    have hSplit : done ++ x :: post = (done ++ [x]) ++ post := by simp
    cases hExec : x.exec st with
    | none =>
      -- both read the same words, so neither has a result
      have hRead : ∀ m ∈ x.memInputs, st' (reg m) = st m := by
        intro m hm
        refine hAgree m (hAvail done x post rfl m hm) fun hClob => ?_
        exact hSound.not_read_again hClob (by simp [hm])
      have hNone : (x.rename reg reg).exec st' = none := by
        rw [Instr.exec, Option.map_eq_none_iff] at hExec ⊢
        rw [Instr.result_rename hRead, hExec]
      simp [run, hNone]
    | some mid =>
      obtain ⟨mid', hExec', hAgree'⟩ := agrees_step hSound (hAvail done x post rfl) hAgree hExec
      rw [run, hExec, Option.bind_some] at hRun
      have hRest := ih (done ++ [x]) (hSplit ▸ hSound) (hSplit ▸ hAvail) hAgree' hRun
      rw [List.map_cons, run, hExec', Option.bind_some, hRest]

section Node

variable {mlmi : MLMI} {ins : List Nat}

/-- Without a temporary before the last read of a misplaced input, a mapping that
is found is sound, also when the inputs are padded. -/
theorem getRegistersMapping_sound_padded (hWF : mlmi.WellFormed) (hPad : mlmi.PaddedBy ins)
    (hBorn : mlmi.BornAfter (mlmi.misplaced ins)) {k maxOut : Nat}
    (hRoom : ins.length + maxOut ≤ k) {ord : SetOrder Nat} {regs : RegMap}
    (h : getRegistersMapping ord mlmi.seq (mlmi.withInputs ins).loweredInputs mlmi.outputs
      k maxOut = .ok regs) :
    Sound mlmi.seq (mlmi.inputs ++ mlmi.outputs) regs.reg ∧
      (∀ m ∈ mlmi.inputs, regs.reg m = ins.idxOf m) ∧
      ∀ m ∈ mlmi.outputs, regs.reg m = k - maxOut + mlmi.outputs.idxOf m := by
  unfold getRegistersMapping at h
  rw [allocInit_withInputs hWF hPad] at h
  dsimp only at h
  cases hAlloc : allocate ord (computeLiveIntervals mlmi.seq mlmi.outputs).1
      (computeLiveIntervals mlmi.seq mlmi.outputs).2 0 mlmi.seq.length
      (allocInit mlmi.seq ins mlmi.outputs k maxOut) with
  | error e =>
    rw [hAlloc] at h
    exact absurd h (by simp [Except.map])
  | ok st =>
    rw [hAlloc, Except.map, Except.ok.injEq] at h
    subst h
    obtain ⟨-, hSpec⟩ := allocate_padded hWF misplaced_subset hBorn ord mlmi.seq [] rfl
      (padInv_start hWF hPad hRoom)
    obtain ⟨hKeep, hDom, hClash⟩ := hSpec st hAlloc
    obtain ⟨hLookup, -⟩ := allocInit_padded hWF hPad k maxOut
    have hDisj : ∀ m ∈ mlmi.inputs, m ∉ mlmi.outputs := fun m hm ho =>
      ((hWF.mem_inputs m).mp hm).2 (hWF.outputs_sub ho)
    -- the pinned registers are kept to the end
    have hInput : ∀ m ∈ mlmi.inputs, st.regs.lookup m = some (ins.idxOf m) := fun m hm =>
      hKeep m _ (by rw [hLookup, if_neg (hDisj m hm), if_pos hm])
    have hOutput : ∀ m ∈ mlmi.outputs,
        st.regs.lookup m = some (k - maxOut + mlmi.outputs.idxOf m) := fun m hm =>
      hKeep m _ (by rw [hLookup, if_pos hm])
    refine ⟨?_, fun m hm => by simp [RegMap.reg, hInput m hm],
      fun m hm => by simp [RegMap.reg, hOutput m hm]⟩
    intro pre x post hSeq m hm hne hEq
    -- every cell of the sequence has a register
    have hBound : ∀ c, c ∈ mlmi.inputs ++ mlmi.outputs ∨ c ∈ defs mlmi.seq →
        st.regs.lookup c = some (st.regs.reg c) := by
      intro c hc
      obtain ⟨r, hr⟩ := Option.isSome_iff_exists.mp ((hDom c).mpr hc)
      simp [RegMap.reg, hr]
    have hxDef : x.dst ∈ defs mlmi.seq := by simp [hSeq]
    have hSame : st.regs.lookup m = st.regs.lookup x.dst := by
      rw [hBound m (hm.imp_right fun h => by simp [hSeq, h]), hBound x.dst (Or.inr hxDef), hEq]
    rcases hClash pre x post hSeq m (by simpa using hm) hne hSame with hDead | hLate
    · simpa [Dead] using hDead
    · -- a misplaced input gives its register to a temporary only, and after its last read
      have hIn := misplaced_subset hLate
      have hNotRead : m ∉ reads post := by
        by_cases hOut : x.dst ∈ mlmi.outputs
        · have hLt := List.idxOf_lt_length_iff.mpr (hPad.mem hIn)
          rw [hInput m hIn, hOutput _ hOut, Option.some.injEq] at hSame
          omega
        · exact hBorn pre x post hSeq hOut m hLate
      have hRead := ((hWF.mem_inputs m).mp hIn).1
      rw [hSeq] at hRead
      refine ⟨?_, hNotRead⟩
      simp only [reads_append, reads_cons, reads_nil, List.append_nil, List.mem_append] at hRead ⊢
      tauto

/-- The same for the multi-instruction itself, whatever its list of inputs. -/
theorem getRegistersMapping_keeps (hWF : mlmi.readInputs.WellFormed)
    (hKeeps : mlmi.KeepsValues) {k maxOut : Nat} (hRoom : mlmi.inputs.length + maxOut ≤ k)
    {ord : SetOrder Nat} {regs : RegMap}
    (h : getRegistersMapping ord mlmi.seq mlmi.loweredInputs mlmi.outputs k maxOut = .ok regs) :
    Sound mlmi.seq (mlmi.readInputs.inputs ++ mlmi.outputs) regs.reg ∧
      (∀ m ∈ mlmi.readInputs.inputs, regs.reg m = mlmi.inputs.idxOf m) ∧
      ∀ m ∈ mlmi.outputs, regs.reg m = k - maxOut + mlmi.outputs.idxOf m := by
  obtain ⟨d, hd⟩ := Infinite.exists_notMem_finset (reads mlmi.seq ++ mlmi.inputs).toFinset
  simp only [List.mem_toFinset, List.mem_append, not_or] at hd
  obtain ⟨hdReads, -⟩ := hd
  have hUsed : d ∉ getUsed mlmi.seq := fun hd => hdReads (List.mem_filter.mp hd).1
  -- repeats of an input are as good as dummies
  set ins := blankRepeats d [] mlmi.inputs with hIns
  -- the same instructions with the inputs that are really read, in the order of `ins`
  set base := mlmi.withInputs (ins.filter fun m => m ∈ reads mlmi.seq) with hBase
  have hMem : ∀ m, m ∈ base.inputs ↔ m ∈ mlmi.readInputs.inputs := by
    intro m
    rw [MLMI.mem_readInputs, hBase, MLMI.withInputs, List.mem_filter, decide_eq_true_iff]
    refine and_congr_left fun hRead => ?_
    rw [mem_blankRepeats (fun h : m = d => hdReads (h ▸ hRead))]
    simp
  have hNodup : base.inputs.Nodup := nodup_filter_blankRepeats (by simpa using hdReads)
  have hLen : base.inputs.length = mlmi.readInputs.inputs.length :=
    ((List.perm_ext_iff_of_nodup hNodup (List.nodup_dedup _)).mpr hMem).length_eq
  have hNe : ∀ m ∈ base.inputs, m ≠ d := fun m hm h =>
    hdReads (h ▸ (MLMI.mem_readInputs.mp ((hMem m).mp hm)).2)
  have hBaseWF : base.WellFormed := { hWF with
    inputs_nodup := hNodup
    mem_inputs := fun m => (hMem m).trans (hWF.mem_inputs m) }
  have hBorn : base.BornAfter (base.misplaced ins) := by
    intro pre x post hSeq hTemp m hm
    obtain ⟨hIn, hPlace⟩ := mem_misplaced.mp hm
    refine hKeeps.born_after pre x post hSeq hTemp m (mem_misplaced.mpr ⟨(hMem m).mp hIn, ?_⟩)
    rwa [← hLen, ← idxOf_blankRepeats (hNe m hIn) List.not_mem_nil]
  -- the allocator pins the inputs it finds used, so the blanks make no difference
  have hMap : getRegistersMapping ord base.seq (base.withInputs ins).loweredInputs base.outputs
      k maxOut = .ok regs := by
    rw [← h]
    by_cases hNil : mlmi.inputs = []
    · simp [hBase, hIns, hNil, blankRepeats, MLMI.loweredInputs, MLMI.withInputs]
    · have hNil' : ins ≠ [] := fun h => hNil (by
        rw [← List.length_eq_zero_iff, ← show (blankRepeats d [] mlmi.inputs).length =
          _ from length_blankRepeats, ← hIns, h]
        rfl)
      have hLowered : (base.withInputs ins).loweredInputs = ins := if_neg hNil'
      have hLowered' : mlmi.loweredInputs = mlmi.inputs := if_neg hNil
      have hPinned : mapInputs (getUsed mlmi.seq) 0 ins [] =
          mapInputs (getUsed mlmi.seq) 0 mlmi.inputs [] :=
        mapInputs_blankRepeats hUsed 0 (by simp) (by simp)
      rw [hLowered, hLowered']
      simp only [getRegistersMapping, allocInit]
      rw [show base.seq = mlmi.seq from rfl, show base.outputs = mlmi.outputs from rfl, hPinned]
  obtain ⟨hSound, hIn, hOut⟩ := getRegistersMapping_sound_padded hBaseWF rfl hBorn
    (by rw [length_blankRepeats]; exact hRoom) hMap
  refine ⟨hSound.mono fun m hm => ?_, fun m hm => ?_, hOut⟩
  · rcases List.mem_append.mp hm with hm | hm
    · exact List.mem_append_left _ ((hMem m).mpr hm)
    · exact List.mem_append_right _ hm
  · have hm := (hMem m).mpr hm
    rw [hIn m hm, idxOf_blankRepeats (hNe m hm) List.not_mem_nil]

/-- The register of an output holds it at the end. -/
theorem output_held (hWF : mlmi.WellFormed) (hKept : mlmi.OutputsKept) {reg : Nat → Nat}
    {first : Nat} (hSound : Sound mlmi.seq (mlmi.inputs ++ mlmi.outputs) reg)
    (hOut : ∀ m ∈ mlmi.outputs, reg m = first + mlmi.outputs.idxOf m) {σ σ' ρ' : Store Nat}
    (hRun : run mlmi.seq σ = some σ') (hAgree : Agrees mlmi.seq mlmi.inputs reg σ' ρ')
    {o : Nat} (ho : o ∈ mlmi.outputs) : ρ' (reg o) = σ' o := by
  -- the last operand written to the register of `o`
  obtain ⟨x, hx, hxo⟩ := List.mem_map.mp (hWF.outputs_sub ho)
  obtain ⟨pre, y, post, hSeq, hy, hLast⟩ :=
    exists_last_satisfying (fun z : HLI => reg z.dst = reg o) ⟨x, hx, by rw [hxo]⟩
  have hVal : ρ' (reg y.dst) = σ' y.dst := by
    refine hAgree y.dst (Or.inr (by simp [hSeq])) (not_clobbered_of_last hWF hSeq fun z hz => ?_)
    rw [hy]
    exact hLast z hz
  rw [hy] at hVal
  rw [hVal]
  by_cases hyo : o = y.dst
  · rw [hyo]
  · obtain ⟨hRead, hNotRead⟩ := hSound pre y post hSeq o (Or.inl (by simp [ho])) hyo hy.symm
    have hTemp : y.dst ∉ mlmi.outputs := by
      intro hyMem
      have hEq : mlmi.outputs.idxOf y.dst = mlmi.outputs.idxOf o :=
        Nat.add_left_cancel ((hOut _ hyMem).symm.trans (hy.trans (hOut _ ho)))
      exact hyo ((List.idxOf_inj hyMem).mp hEq).symm
    exact hKept o ho pre y post hSeq hTemp hRead hNotRead σ σ' hRun

/-- Writing the words of a function to distinct cells. -/
theorem storeWords_map {cells : List Nat} (f : Nat → Word) (mem : Store Nat)
    (hNodup : cells.Nodup) :
    storeWords (cells.zip (cells.map f)) mem = fun m => if m ∈ cells then f m else mem m := by
  induction cells generalizing mem with
  | nil =>
    funext m
    simp [storeWords]
  | cons c cells ih =>
    obtain ⟨hNot, hNodup⟩ := List.nodup_cons.mp hNodup
    funext m
    rw [List.map_cons, List.zip_cons_cons, storeWords, ih _ hNodup]
    by_cases hm : m = c
    · subst hm
      simp [hNot]
    · simp [hm]

/-- The first registers hold the inputs. -/
theorem loadRegs_loweredInputs (init : Regs) (mem : Store Nat) {m : Nat} (hm : m ∈ mlmi.inputs) :
    loadRegs init (mlmi.loweredInputs.map mem) (mlmi.inputs.idxOf m) = mem m := by
  have hLt := List.idxOf_lt_length_iff.mpr hm
  have hEq : mlmi.loweredInputs = mlmi.inputs := if_neg (List.ne_nil_of_mem hm)
  simp [hEq, loadRegs, List.getD, List.getElem?_eq_getElem hLt]

theorem mlmiToLLMI_inv {ord : SetOrder Nat} {k maxOut : Nat} {llmi : LLMI}
    (h : mlmiToLLMI ord mlmi k maxOut = .ok llmi) :
    ∃ regs, getRegistersMapping ord mlmi.seq mlmi.loweredInputs mlmi.outputs k maxOut = .ok regs ∧
      llmi = ⟨mlmi.seq.map (Instr.rename regs.reg regs.reg), mlmi.loweredInputs, mlmi.outputs⟩ := by
  unfold mlmiToLLMI at h
  split at h
  · cases h
  · next regs hMap =>
      split at h
      · cases h
      · exact ⟨regs, hMap, (Except.ok.inj h).symm⟩

/-- **One node.** A multi-instruction that keeps its values does on registers
what the node does on cells, and stops where the node stops. -/
theorem mlmiToLLMI_eval (hWF : mlmi.readInputs.WellFormed) (hKeeps : mlmi.KeepsValues)
    {se : SEConfig} (hRoom : mlmi.inputs.length + se.lOut ≤ se.r) {ord : SetOrder Nat} {llmi : LLMI}
    (h : mlmiToLLMI ord mlmi se.r se.lOut = .ok llmi) (init : Regs) (junk mem : Store Nat) :
    llmi.eval se init mem = mlmi.eval junk mem := by
  obtain ⟨regs, hMap, rfl⟩ := mlmiToLLMI_inv h
  obtain ⟨hSound, hIn, hOut⟩ := getRegistersMapping_keeps hWF hKeeps hRoom hMap
  have hNodup : mlmi.outputs.Nodup := hWF.outputs_nodup
  have hInputs : ∀ m ∈ mlmi.readInputs.inputs, m ∈ mlmi.inputs := fun m hm =>
    (MLMI.mem_readInputs.mp hm).1
  set σ : Store Nat := fun m => if m ∈ mlmi.inputs then mem m else junk m with hσ
  set ρ := loadRegs init (mlmi.loweredInputs.map mem) with hρ
  have hAgree : Agrees [] mlmi.readInputs.inputs regs.reg σ ρ := by
    intro m hm _
    have hm : m ∈ mlmi.readInputs.inputs := by simpa using hm
    rw [hIn m hm, hρ, loadRegs_loweredInputs init mem (hInputs m hm), hσ]
    exact (if_pos (hInputs m hm)).symm
  have hSound' : Sound ([] ++ mlmi.seq) mlmi.readInputs.inputs regs.reg :=
    hSound.mono (List.subset_append_left _ _)
  have hAvail : ∀ pre x post, [] ++ mlmi.seq = pre ++ x :: post →
      ∀ m ∈ x.memInputs, m ∈ mlmi.readInputs.inputs ∨ m ∈ defs pre :=
    fun pre x post hSeq m hm => hWF.available hSeq hm
  show Option.map _ (run (mlmi.seq.map (Instr.rename regs.reg regs.reg)) ρ) =
    Option.map _ (run mlmi.seq σ)
  cases hRun : run mlmi.seq σ with
  | none =>
    rw [sound_stops mlmi.seq [] hSound' hAvail hAgree hRun]
    rfl
  | some σ' =>
    obtain ⟨ρ', hRun', hFinal⟩ := sound_simulates mlmi.seq [] hSound' hAvail hAgree hRun
    have hOuts : (List.range mlmi.outputs.length).map (fun i => ρ' (se.r - se.lOut + i)) =
        mlmi.outputs.map σ' := by
      refine List.ext_getElem (by simp) fun j hj _ => ?_
      have hj : j < mlmi.outputs.length := by simpa using hj
      have hHeld := output_held hWF hKeeps.outputs_kept hSound hOut hRun hFinal
        (List.getElem_mem hj)
      rw [hOut _ (List.getElem_mem hj)] at hHeld
      simpa [MLMI.readInputs, hNodup.idxOf_getElem j hj] using hHeld
    rw [hRun', Option.map_some, Option.map_some, Option.some.injEq, hOuts]
    exact storeWords_map σ' mem hNodup

end Node

-- ---------------------------------------------------------------------------
-- The graph
-- ---------------------------------------------------------------------------

namespace DFG

variable {g : DFG}

/-- In an evaluable graph the nodes have the shape the allocator is made for. -/
theorem Evaluable.readInputs_wellFormed (h : g.Evaluable) {order : List Nat}
    (hTop : g.Topological order) {n : Nat} (hn : n ∈ g.nodes)
    (hOutputs : (g.mlmi n).outputs.Nodup) : (g.mlmi n).readInputs.WellFormed where
  ssa := h.seq_nodup n hn
  def_before_use := h.defBeforeUse n hn
  inputs_nodup := List.nodup_dedup _
  mem_inputs := by
    intro m
    rw [MLMI.mem_readInputs]
    constructor
    · rintro ⟨hIn, hReads⟩
      exact ⟨hReads, h.input_not_def hTop hn hIn⟩
    · rintro ⟨hReads, hNot⟩
      obtain ⟨i, hi, hm⟩ := List.mem_flatMap.mp hReads
      exact ⟨(h.reads_cases n hn i hi m hm).resolve_right hNot, hReads⟩
  outputs_nodup := hOutputs
  outputs_sub := h.outputs_sub n hn

/-- The graphs whose nodes fit the registers and keep their values there. -/
structure Lowers (g : DFG) (se : SEConfig) : Prop where
  inputs_le : ∀ n ∈ g.nodes, (g.mlmi n).inputs.length + se.lOut ≤ se.r
  outputs_nodup : ∀ n ∈ g.nodes, (g.mlmi n).outputs.Nodup
  keeps : ∀ n ∈ g.nodes, (g.mlmi n).KeepsValues

/-- The nodes of a list and their multi-instructions do the same to the memory. -/
theorem evalLLMIs_eq_evalNodes (h : g.Evaluable) {order : List Nat} (hTop : g.Topological order)
    {cfg : Config} (hLowers : g.Lowers cfg.toSEConfig) (init : Nat → Regs) (junk : Nat → Store Nat)
    {nodes : List Nat} {llmis : List LLMI} (hNodes : ∀ n ∈ nodes, n ∈ g.nodes)
    (hLower : List.Forall₂ (fun n llmi => ∃ o, mlmiToLLMI o (g.mlmi n) cfg.r cfg.lOut = .ok llmi)
      nodes llmis) (k : Nat) (mem : Store Nat) :
    evalLLMIs cfg.toSEConfig init k llmis mem = g.evalNodes junk nodes mem := by
  induction hLower generalizing k mem with
  | nil => rfl
  | @cons n llmi nodes llmis hHead _ ih =>
    obtain ⟨o, hHead⟩ := hHead
    have hn := hNodes n List.mem_cons_self
    have hStep : llmi.eval cfg.toSEConfig (init k) mem = _ := mlmiToLLMI_eval
      (h.readInputs_wellFormed hTop hn (hLowers.outputs_nodup n hn))
      (hLowers.keeps n hn) (hLowers.inputs_le n hn) hHead (init k) (junk n) mem
    rw [evalLLMIs, evalNodes, hStep]
    refine Option.bind_congr fun mem' _ => ?_
    exact ih (fun a ha => hNodes a (List.mem_cons_of_mem _ ha)) (k + 1) mem'

/-- A graph has one value, whatever the topological order and the private cells. -/
theorem Evaluable.eval_unique (h : g.Evaluable) {order order' : List Nat}
    (hTop : g.Topological order) (hTop' : g.Topological order') (junk junk' : Nat → Store Nat)
    (σ : Store Nat) : g.eval junk order σ = g.eval junk' order' σ := by
  refine Option.ext fun vals => ?_
  rw [h.eval_eq_some_iff hTop, h.eval_eq_some_iff hTop']

/-- **Lowering preserves meaning.** Whatever `pop` returns, the lowered program
computes what the graph computes, in every topological order, and stops on a
division by zero or an oversized shift exactly when the graph does. -/
theorem toLLIR_eval (h : g.Evaluable) (hCon : g.Consistent) {cfg : Config}
    (hLowers : g.Lowers cfg.toSEConfig) {ord : Orders} {fuel : Nat} {prog : MLIRProgram}
    {llir : LLIRProgram} (hRun : g.toLLIR ord fuel cfg prog = .ok llir) {order : List Nat}
    (hTop : g.Topological order) (init : Nat → Regs) (junk : Nat → Store Nat)
    (inputs : List Word) :
    llir.eval cfg.toSEConfig init inputs =
      g.eval junk order (storeWords (prog.inputs.zip inputs) fun _ => 0) := by
  obtain ⟨order', hTop', hLower, hInputs, hOutputs, -⟩ := toLLIR_order hCon hRun
  have hNodes : ∀ n ∈ order', n ∈ g.nodes := fun n hn => hTop'.perm.mem_iff.mp hn
  have hSame := evalLLMIs_eq_evalNodes h hTop' hLowers init junk hNodes hLower 0
    (storeWords (prog.inputs.zip inputs) fun _ => 0)
  rw [LLIRProgram.eval, hInputs, hOutputs, hSame, ← h.eval_unique hTop' hTop junk]
  rfl

end DFG

end Obscure
