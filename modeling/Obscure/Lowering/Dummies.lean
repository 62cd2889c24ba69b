import Obscure.Lowering.Outputs
import Mathlib.Data.Finset.Card
import Mathlib.Data.Finset.Image

/-!
# OBSCURE — lowering with inputs the sequence never reads

Universalization gives nodes inputs that their sequence never reads: operands
that pad a node to `l_in` inputs. `get_registers_mapping` pins an input to the
register of its *position*, but starts the pool of free registers at the
*number* of inputs that are read. A read input that stands behind a dummy can
then be pinned inside the pool: its register is handed out while it is still to
be read, or it is returned to a pool that already holds it and the pool ends up
one register short.

* `misplaced` — the inputs pinned inside the pool;
* `allocate_padded` — the scan as long as no temporary is born before the last
  read of a misplaced input, with the exact number of free registers;
* `dummiesInert_iff` — dummies are inert exactly when no input is misplaced, or
  every temporary is born after the last read of the misplaced inputs and the
  dummies make up for the registers the pool is short of.
-/

namespace Obscure

open Lib

-- ---------------------------------------------------------------------------
-- Padded inputs
-- ---------------------------------------------------------------------------

/-- The same multi-instruction with another list of inputs. -/
def MLMI.withInputs (mlmi : MLMI) (ins : List Nat) : MLMI := { mlmi with inputs := ins }

@[simp] theorem MLMI.withInputs_seq (mlmi : MLMI) (ins : List Nat) :
    (mlmi.withInputs ins).seq = mlmi.seq := rfl

@[simp] theorem MLMI.withInputs_outputs (mlmi : MLMI) (ins : List Nat) :
    (mlmi.withInputs ins).outputs = mlmi.outputs := rfl

/-- `ins` is the list of inputs with operands inserted that the sequence never
reads. -/
def MLMI.PaddedBy (mlmi : MLMI) (ins : List Nat) : Prop :=
  ins.filter (fun m => m ∈ reads mlmi.seq) = mlmi.inputs

instance (mlmi : MLMI) (ins : List Nat) : Decidable (mlmi.PaddedBy ins) :=
  inferInstanceAs (Decidable (_ = _))

/-- The inputs whose position is not below the number of inputs that are read:
the registers the pool starts with include theirs. -/
def MLMI.misplaced (mlmi : MLMI) (ins : List Nat) : List Nat :=
  mlmi.inputs.filter fun m => mlmi.inputs.length ≤ ins.idxOf m

/-- How many temporaries a part of the sequence defines. -/
def MLMI.temps (mlmi : MLMI) (part : List HLI) : Nat :=
  (part.filter fun x => x.dst ∉ mlmi.outputs).length

/-- The operands outside `late` that `done` reads for the last time. -/
def died (late : List Nat) (done rest : List HLI) : Finset Nat :=
  (reads done).toFinset.filter fun m => m ∉ reads rest ∧ m ∉ late

/-- Padding the inputs changes nothing: if the multi-instruction can be lowered
without the dummies then it can be lowered with them, whatever `pop` returns, no
register is handed out while it holds an input to be read later, and every
instruction reads the value an input was loaded with. -/
def MLMI.DummiesInert (mlmi : MLMI) (ins : List Nat) : Prop :=
  ∀ lIn lOut r, ins.length ≤ lIn → mlmi.outputs.length ≤ lOut → lIn + lOut ≤ r →
    ((∃ ord llmi, mlmiToLLMI ord mlmi r lOut = .ok llmi) →
      ∀ ord, ∃ llmi, mlmiToLLMI ord (mlmi.withInputs ins) r lOut = .ok llmi) ∧
    ∀ ord regs, getRegistersMapping ord mlmi.seq (mlmi.withInputs ins).loweredInputs
        mlmi.outputs r lOut = .ok regs →
      ∀ pre x post, mlmi.seq = pre ++ x :: post →
        (∀ m ∈ mlmi.inputs, m ∈ reads post → regs.reg x.dst ≠ regs.reg m) ∧
        ∀ (σ ρ ρ' : Store Nat), (∀ i (h : i < ins.length), ρ i = σ ins[i]) →
          run (pre.map (Instr.rename regs.reg regs.reg)) ρ = some ρ' →
          ∀ m ∈ x.memInputs, m ∈ mlmi.inputs → ρ' (regs.reg m) = σ m

/-- No input is misplaced, or every temporary is born after the last read of the
misplaced inputs, at a point where the temporaries so far are no more than the
dummies and the other operands read for the last time. -/
def MLMI.DummiesClear (mlmi : MLMI) (ins : List Nat) : Prop :=
  mlmi.misplaced ins = [] ∨
    ∀ pre x post, mlmi.seq = pre ++ x :: post → x.dst ∉ mlmi.outputs →
      (∀ m ∈ mlmi.misplaced ins, m ∉ reads post) ∧
      mlmi.temps (pre ++ [x]) ≤
        (ins.length - mlmi.inputs.length) + (died (mlmi.misplaced ins) (pre ++ [x]) post).card

section Padded

variable {mlmi : MLMI} {ins : List Nat}

theorem MLMI.PaddedBy.mem (h : mlmi.PaddedBy ins) {m : Nat} (hm : m ∈ mlmi.inputs) : m ∈ ins := by
  rw [← h] at hm
  exact (List.mem_filter.mp hm).1

theorem MLMI.PaddedBy.length_le (h : mlmi.PaddedBy ins) : mlmi.inputs.length ≤ ins.length := by
  rw [← h]
  exact List.length_filter_le _ _

/-- The inputs themselves, without dummies. -/
theorem MLMI.WellFormed.paddedBy_inputs (hWF : mlmi.WellFormed) : mlmi.PaddedBy mlmi.inputs := by
  refine List.filter_eq_self.mpr fun m hm => ?_
  exact decide_eq_true ((hWF.mem_inputs m).mp hm).1

theorem misplaced_inputs : mlmi.misplaced mlmi.inputs = [] := by
  refine List.filter_eq_nil_iff.mpr fun m hm => ?_
  have hLt := List.idxOf_lt_length_iff.mpr hm
  simpa using hLt

theorem mem_getUsed_iff (hWF : mlmi.WellFormed) {m : Nat} :
    m ∈ getUsed mlmi.seq ↔ m ∈ mlmi.inputs := by
  rw [hWF.mem_inputs]
  simp [getUsed]

/-- The number of registers pinned to inputs is the number of inputs read. -/
theorem length_mapInputs_padded {used : List Nat} (ins : List Nat) (idx : Nat) (regs : RegMap)
    (hNodup : (ins.filter fun m => m ∈ used).Nodup)
    (hNew : ∀ m ∈ ins, m ∈ used → regs.lookup m = none) :
    (mapInputs used idx ins regs).length = regs.length + (ins.filter fun m => m ∈ used).length := by
  induction ins generalizing idx regs with
  | nil => rfl
  | cons i ins ih =>
    rw [mapInputs]
    by_cases hi : i ∈ used
    · rw [List.filter_cons_of_pos (by simpa using hi)] at hNodup ⊢
      obtain ⟨hNot, hNodup⟩ := List.nodup_cons.mp hNodup
      rw [if_pos ⟨hi, by simp [hNew i List.mem_cons_self hi]⟩, ih (idx + 1) _ hNodup]
      · simp only [List.length_cons]
        omega
      · intro m hm hUsed
        -- `i` itself does not come again
        have hne : m ≠ i := by
          rintro rfl
          exact hNot (List.mem_filter.mpr ⟨hm, by simpa using hUsed⟩)
        rw [lookup_cons_ite, if_neg hne]
        exact hNew m (List.mem_cons_of_mem _ hm) hUsed
    · rw [List.filter_cons_of_neg (by simpa using hi)] at hNodup ⊢
      rw [if_neg fun h => hi h.1]
      exact ih (idx + 1) _ hNodup fun m hm => hNew m (List.mem_cons_of_mem _ hm)

/-- The dummy cell of an input-free multi-instruction gets no register. -/
theorem allocInit_withInputs (hWF : mlmi.WellFormed) (hPad : mlmi.PaddedBy ins) (k maxOut : Nat) :
    allocInit mlmi.seq (mlmi.withInputs ins).loweredInputs mlmi.outputs k maxOut =
      allocInit mlmi.seq ins mlmi.outputs k maxOut := by
  show allocInit mlmi.seq (if ins = [] then [0] else ins) _ _ _ = _
  split
  · next hNil =>
      have hUsed : (0 : Nat) ∉ getUsed mlmi.seq := by
        rw [mem_getUsed_iff hWF]
        intro h
        simpa [hNil] using hPad.mem h
      simp [allocInit, mapInputs, hNil, hUsed]
  · rfl

/-- The state the scan of a padded multi-instruction starts from: read inputs are
pinned by position, the pool starts at their number. -/
theorem allocInit_padded (hWF : mlmi.WellFormed) (hPad : mlmi.PaddedBy ins) (k maxOut : Nat) :
    (∀ m, (allocInit mlmi.seq ins mlmi.outputs k maxOut).regs.lookup m =
      if m ∈ mlmi.outputs then some (k - maxOut + mlmi.outputs.idxOf m)
      else if m ∈ mlmi.inputs then some (ins.idxOf m) else none) ∧
    (allocInit mlmi.seq ins mlmi.outputs k maxOut).free =
      List.range' mlmi.inputs.length (k - maxOut - mlmi.inputs.length) := by
  have hFilter : ins.filter (fun m => m ∈ getUsed mlmi.seq) = mlmi.inputs := by
    rw [← hPad]
    refine List.filter_congr fun m hm => ?_
    -- a read operand of the list is an input, so the sequence does not define it
    have hIff : m ∈ getUsed mlmi.seq ↔ m ∈ reads mlmi.seq := by
      refine ⟨fun h => (List.mem_filter.mp h).1, fun h => (mem_getUsed_iff hWF).mpr ?_⟩
      rw [← hPad]
      exact List.mem_filter.mpr ⟨hm, by simpa using h⟩
    simp only [hIff]
  have hLen : (mapInputs (getUsed mlmi.seq) 0 ins []).length = mlmi.inputs.length := by
    rw [length_mapInputs_padded ins 0 [] (hFilter ▸ hWF.inputs_nodup) (by simp), hFilter]
    simp
  refine ⟨fun m => ?_, by rw [allocInit, hLen]⟩
  rw [allocInit, lookup_mapOutputs _ _ hWF.outputs_nodup, lookup_mapInputs]
  by_cases hm : m ∈ mlmi.inputs
  · simp [hm, (mem_getUsed_iff hWF).mpr hm, hPad.mem hm]
  · simp [hm, mt (mem_getUsed_iff hWF).mp hm]

end Padded

-- ---------------------------------------------------------------------------
-- The scan of a padded multi-instruction
-- ---------------------------------------------------------------------------

/-- Where the scan stands between `done` and `rest`, with `pool` registers in the
pool at the start. A misplaced input counts as dead from the start: its register
is in the pool, and stays there until the first temporary is born. -/
structure PadInv (mlmi : MLMI) (late : List Nat) (pool : Nat) (done rest : List HLI)
    (st : AllocState) : Prop where
  inv : AllocInv (fun m => m ∈ mlmi.inputs ++ mlmi.outputs ∨ m ∈ defs done)
    (fun m => Dead done rest m ∨ m ∈ late) st
  early : (∀ y ∈ done, y.dst ∈ mlmi.outputs) →
    ∀ m ∈ late, ∃ r ∈ st.free, st.regs.lookup m = some r
  count : st.free.length + mlmi.temps done = pool + (died late done rest).card

/-- Returning a register the pool already holds changes nothing. -/
theorem freeRegisters_filter {late ms : List Nat} {st : AllocState}
    (h : ∀ m ∈ ms, m ∈ late → ∃ r ∈ st.free, st.regs.lookup m = some r) :
    freeRegisters ms st = freeRegisters (ms.filter fun m => m ∉ late) st := by
  induction ms generalizing st with
  | nil => rfl
  | cons m ms ih =>
    by_cases hm : m ∈ late
    · obtain ⟨r, hr, hLookup⟩ := h m List.mem_cons_self hm
      rw [List.filter_cons_of_neg (by simpa using hm), freeRegisters, hLookup]
      simp only [List.insert_of_mem hr]
      exact ih fun m' hm' => h m' (List.mem_cons_of_mem _ hm')
    · rw [List.filter_cons_of_pos (by simpa using hm), freeRegisters, freeRegisters]
      cases st.regs.lookup m with
      | none => rfl
      | some q =>
        refine ih fun m' hm' hLate => ?_
        obtain ⟨r, hr, hLookup⟩ := h m' (List.mem_cons_of_mem _ hm') hLate
        exact ⟨r, List.mem_insert_of_mem hr, hLookup⟩

/-- Every operand that dies returns a register the pool does not hold yet. -/
theorem length_freeRegisters {dom dead : Nat → Prop} {ms : List Nat} {st st' : AllocState}
    (hInv : AllocInv dom dead st) (h : freeRegisters ms st = .ok st')
    (hDom : ∀ m ∈ ms, dom m) (hAlive : ∀ m ∈ ms, ¬ dead m) :
    st'.free.length = st.free.length + ms.toFinset.card := by
  obtain ⟨hRegs, hNodup, hFree⟩ := freeRegisters_spec h
  have hReg : ∀ m ∈ ms, st.regs.lookup m = some (st.regs.reg m) := by
    intro m hm
    obtain ⟨r, hr⟩ := Option.isSome_iff_exists.mp ((hInv.dom_iff m).mpr (hDom m hm))
    simp [RegMap.reg, hr]
  have hSet : st'.free.toFinset = st.free.toFinset ∪ ms.toFinset.image st.regs.reg := by
    ext r
    simp only [List.mem_toFinset, Finset.mem_union, Finset.mem_image, hFree r]
    refine or_congr_right (exists_congr fun m => and_congr_right fun hm => ?_)
    rw [hReg m hm, Option.some.injEq]
  have hDisj : Disjoint st.free.toFinset (ms.toFinset.image st.regs.reg) := by
    rw [Finset.disjoint_right]
    intro r hr hIn
    obtain ⟨m, hm, rfl⟩ := Finset.mem_image.mp hr
    rw [List.mem_toFinset] at hm hIn
    exact hAlive m hm (hInv.free_dead (hReg m hm) hIn)
  have hInj : Set.InjOn st.regs.reg ms.toFinset := by
    intro m hm m' hm' hEq
    rw [List.coe_toFinset] at hm hm'
    by_contra hne
    have hShared := hInv.shared_dead (hReg m hm) (hEq ▸ hReg m' hm') hne
    exact hShared.elim (hAlive m hm) (hAlive m' hm')
  rw [← List.toFinset_card_of_nodup (hNodup hInv.nodup), hSet, Finset.card_union_of_disjoint hDisj,
    Finset.card_image_of_injOn hInj, List.toFinset_card_of_nodup hInv.nodup]

/-- One instruction adds the operands that die at it. -/
theorem card_died_step {late done rest ms : List _} {y : HLI}
    (hMs : ∀ m, m ∈ ms ↔ (m ∈ y.memInputs ∧ m ∉ reads rest) ∧ m ∉ late) :
    (died late (done ++ [y]) rest).card = (died late done (y :: rest)).card + ms.toFinset.card := by
  have hSet : died late (done ++ [y]) rest = died late done (y :: rest) ∪ ms.toFinset := by
    ext m
    simp only [died, Finset.mem_filter, List.mem_toFinset, Finset.mem_union, hMs, reads_append,
      reads_cons, reads_nil, List.append_nil, List.mem_append]
    tauto
  rw [hSet, Finset.card_union_of_disjoint]
  rw [Finset.disjoint_left]
  intro m hm hIn
  rw [List.mem_toFinset, hMs] at hIn
  simp only [died, Finset.mem_filter, reads_cons, List.mem_append, not_or] at hm
  exact hm.2.1.1 hIn.1.1

section Scan

variable {mlmi : MLMI} {ins : List Nat}

theorem mem_misplaced {m : Nat} :
    m ∈ mlmi.misplaced ins ↔ m ∈ mlmi.inputs ∧ mlmi.inputs.length ≤ ins.idxOf m := by
  simp [MLMI.misplaced]

/-- The scan starts with the read inputs pinned, and the misplaced ones among
them in the pool. -/
theorem padInv_start (hWF : mlmi.WellFormed) (hPad : mlmi.PaddedBy ins) {k maxOut : Nat}
    (hRoom : ins.length + maxOut ≤ k) :
    PadInv mlmi (mlmi.misplaced ins) (k - maxOut - mlmi.inputs.length) [] mlmi.seq
      (allocInit mlmi.seq ins mlmi.outputs k maxOut) := by
  obtain ⟨hLookup, hFree⟩ := allocInit_padded hWF hPad k maxOut
  have hDisj : ∀ m ∈ mlmi.inputs, m ∉ mlmi.outputs := fun m hm ho =>
    ((hWF.mem_inputs m).mp hm).2 (hWF.outputs_sub ho)
  have hIdx : ∀ m ∈ mlmi.inputs, ins.idxOf m < ins.length := fun m hm =>
    List.idxOf_lt_length_iff.mpr (hPad.mem hm)
  -- a register says which operand it was pinned for
  have hHolder : ∀ {m r : Nat},
      (allocInit mlmi.seq ins mlmi.outputs k maxOut).regs.lookup m = some r →
      (m ∈ mlmi.outputs ∧ r = k - maxOut + mlmi.outputs.idxOf m) ∨
        (m ∈ mlmi.inputs ∧ r = ins.idxOf m ∧ r < ins.length) := by
    intro m r h
    rw [hLookup] at h
    split at h
    · next ho => exact Or.inl ⟨ho, (Option.some.inj h).symm⟩
    · split at h
      · next hi =>
          have hr := (Option.some.inj h).symm
          exact Or.inr ⟨hi, hr, hr ▸ hIdx m hi⟩
      · exact absurd h (by simp)
  refine ⟨⟨fun m => ?dom_iff, ?nodup, ?free_dead, ?shared_dead⟩, fun _ m hm => ?early, ?count⟩
  case dom_iff =>
    rw [hLookup]
    by_cases ho : m ∈ mlmi.outputs
    · simp [ho]
    · by_cases hi : m ∈ mlmi.inputs
      · simp [ho, hi]
      · simp [ho, hi]
  case nodup =>
    rw [hFree]
    exact List.nodup_range'
  -- a free register is that of a misplaced input, or of nothing
  case free_dead =>
    intro m r hm hr
    rw [hFree, List.mem_range'_1] at hr
    rcases hHolder hm with ⟨-, h⟩ | ⟨hi, h, -⟩
    · omega
    · exact Or.inr (mem_misplaced.mpr ⟨hi, h ▸ hr.1⟩)
  -- two operands never start in one register: inputs are below, outputs above
  case shared_dead =>
    intro m m' r hm hm' hne
    exfalso
    rcases hHolder hm with ⟨ho, h⟩ | ⟨hi, h, hlt⟩
    · rcases hHolder hm' with ⟨ho', h'⟩ | ⟨hi', h', hlt'⟩
      · exact hne ((List.idxOf_inj ho).mp (by omega))
      · omega
    · rcases hHolder hm' with ⟨ho', h'⟩ | ⟨hi', h', hlt'⟩
      · omega
      · exact hne ((List.idxOf_inj (hPad.mem hi)).mp (by omega))
  -- a misplaced input sits in a register of the pool
  case early =>
    obtain ⟨hi, hLate⟩ := mem_misplaced.mp hm
    have hLt := hIdx m hi
    refine ⟨ins.idxOf m, ?_, by rw [hLookup, if_neg (hDisj m hi), if_pos hi]⟩
    rw [hFree, List.mem_range'_1]
    omega
  case count =>
    rw [hFree, List.length_range']
    simp [MLMI.temps, died]

/-- No temporary is born before the last read of an operand of `late`. -/
def MLMI.BornAfter (mlmi : MLMI) (late : List Nat) : Prop :=
  ∀ pre x post, mlmi.seq = pre ++ x :: post → x.dst ∉ mlmi.outputs → ∀ m ∈ late, m ∉ reads post

/-- One round of the scan: the registers of the dying operands return to the
pool, and the pool then holds exactly the registers the count says. -/
theorem PadInv.step (hWF : mlmi.WellFormed) {late : List Nat} (hLate : late ⊆ mlmi.inputs)
    (hBorn : mlmi.BornAfter late) {pool : Nat} {done rest : List HLI} {y : HLI}
    (hSeq : mlmi.seq = done ++ y :: rest) {st : AllocState}
    (h : PadInv mlmi late pool done (y :: rest) st) (ord : SetOrder Nat) :
    ∃ st₁, freeRegisters ((computeLiveIntervals mlmi.seq mlmi.outputs).2.at done.length) st =
        .ok st₁ ∧ st₁.regs = st.regs ∧
      (y.dst ∈ mlmi.outputs → allocateNew ord done.length [y.dst] st₁ = .ok st₁) ∧
      (y.dst ∉ mlmi.outputs → st₁.regs.lookup y.dst = none ∧
        st₁.free.length + mlmi.temps done = pool + (died late (done ++ [y]) rest).card) ∧
      ∀ st₂, allocateNew ord done.length [y.dst] st₁ = .ok st₂ →
        PadInv mlmi late pool (done ++ [y]) rest st₂ := by
  set ms := (computeLiveIntervals mlmi.seq mlmi.outputs).2.at done.length with hMs
  have hDeaths : ∀ m, m ∈ ms ↔ m ∈ y.memInputs ∧ m ∉ reads rest := by
    intro m
    rw [hMs, hSeq]
    exact mem_deaths_at
  -- a cell that dies here has a register: it is an input or was defined before
  have hDom : ∀ m ∈ ms, m ∈ mlmi.inputs ++ mlmi.outputs ∨ m ∈ defs done := by
    intro m hm
    rcases hWF.available hSeq ((hDeaths m).mp hm).1 with hi | hd
    · exact Or.inl (by simp [hi])
    · exact Or.inr hd
  -- a misplaced input that dies here finds its register in the pool
  have hNoTemp : ∀ m ∈ ms, m ∈ late → ∃ r ∈ st.free, st.regs.lookup m = some r := by
    intro m hm hml
    refine h.early (fun z hz => ?_) m hml
    obtain ⟨a, b, rfl⟩ := List.append_of_mem hz
    by_contra hTemp
    refine hBorn a z (b ++ y :: rest) (by simp [hSeq]) hTemp m hml ?_
    simp [((hDeaths m).mp hm).1]
  -- the inputs of `late` hold no register of their own, so only the others are freed
  set ms' := ms.filter fun m => m ∉ late with hMs'
  have hDeaths' : ∀ m, m ∈ ms' ↔ (m ∈ y.memInputs ∧ m ∉ reads rest) ∧ m ∉ late := by
    intro m
    rw [hMs', List.mem_filter, hDeaths, decide_eq_true_eq]
  obtain ⟨st₁, hFreeEq, -⟩ := freeRegisters_ok st fun m (hm : m ∈ ms') => by
    rw [h.inv.dom_iff m]
    exact hDom m (List.mem_of_mem_filter hm)
  obtain ⟨hRegs, -, hFree⟩ := freeRegisters_spec hFreeEq
  have hAliveMs : ∀ m ∈ ms', ¬ (Dead done (y :: rest) m ∨ m ∈ late) := by
    rintro m hm (hDead | hml)
    · exact hDead.2 (by simp [((hDeaths' m).mp hm).1.1])
    · exact ((hDeaths' m).mp hm).2 hml
  have hInv₁ : AllocInv (fun m => m ∈ mlmi.inputs ++ mlmi.outputs ∨ m ∈ defs done)
      (fun m => Dead (done ++ [y]) rest m ∨ m ∈ late) st₁ := by
    refine h.inv.freeRegisters hFreeEq (fun m hm => hm.imp_left Dead.step) fun m hm => ?_
    have hm' := ((hDeaths' m).mp hm).1
    exact ⟨hAliveMs m hm, Or.inl ⟨by simp [hm'.1], hm'.2⟩⟩
  -- what dies outside `late` goes back to the pool
  have hCount : st₁.free.length + mlmi.temps done = pool + (died late (done ++ [y]) rest).card := by
    have hLen := length_freeRegisters h.inv hFreeEq
      (fun m hm => hDom m (List.mem_of_mem_filter hm)) hAliveMs
    have := h.count
    rw [card_died_step hDeaths']
    omega
  have hEarly₁ : (∀ z ∈ done ++ [y], z.dst ∈ mlmi.outputs) →
      ∀ m ∈ late, ∃ r ∈ st₁.free, st₁.regs.lookup m = some r := by
    intro hAll m hml
    obtain ⟨r, hr, hLookup⟩ := h.early (fun z hz => hAll z (by simp [hz])) m hml
    exact ⟨r, (hFree r).mpr (Or.inl hr), hRegs ▸ hLookup⟩
  -- the destination is new, and neither dead nor an input
  have hyDef : y.dst ∈ defs mlmi.seq := by simp [hSeq]
  have hSSA := hWF.ssa
  rw [hSeq, defs_append, defs_cons] at hSSA
  have hyInput : y.dst ∉ mlmi.inputs := fun hi => ((hWF.mem_inputs _).mp hi).2 hyDef
  have hAlive : ¬ (Dead (done ++ [y]) rest y.dst ∨ y.dst ∈ late) := by
    rintro (hDead | hml)
    · exact not_read_before_def hWF.ssa hWF.def_before_use hSeq hDead.1
    · exact hyInput (hLate hml)
  have hFilter := freeRegisters_filter hNoTemp
  -- an output has its register already, a temporary has none yet
  refine ⟨st₁, hFilter.trans hFreeEq, hRegs, fun hOut => ?_, fun hTemp => ⟨?_, hCount⟩,
    fun st₂ hNew => ?_⟩
  · obtain ⟨r, hr⟩ := Option.isSome_iff_exists.mp
      ((hInv₁.dom_iff y.dst).mpr (Or.inl (by simp [hOut])))
    simp only [allocateNew, hr]
  · by_contra hSome
    rcases (hInv₁.dom_iff y.dst).mp (Option.isSome_iff_ne_none.mpr hSome) with hIn | hDef
    · exact (List.mem_append.mp hIn).elim hyInput hTemp
    · exact (List.nodup_append.mp hSSA).2.2 _ hDef _ List.mem_cons_self rfl
  · obtain ⟨hInv₂, hKeep₂⟩ := hInv₁.allocateNew hNew hAlive
    have hInv₂' : AllocInv (fun m => m ∈ mlmi.inputs ++ mlmi.outputs ∨ m ∈ defs (done ++ [y]))
        (fun m => Dead (done ++ [y]) rest m ∨ m ∈ late) st₂ := by
      refine ⟨fun m => ?_, hInv₂.nodup, hInv₂.free_dead, hInv₂.shared_dead⟩
      rw [hInv₂.dom_iff m]
      simp [or_assoc]
    have hTemps : mlmi.temps (done ++ [y]) =
        mlmi.temps done + if y.dst ∈ mlmi.outputs then 0 else 1 := by
      by_cases hOut : y.dst ∈ mlmi.outputs
      · simp [MLMI.temps, hOut]
      · simp [MLMI.temps, hOut]
    rcases allocateNew_spec hNew with ⟨hSome, rfl⟩ | ⟨hNone, r, free, hPop, rfl⟩
    · -- the destination is pinned already: it is an output
      have hOut : y.dst ∈ mlmi.outputs := by
        rcases (hInv₁.dom_iff y.dst).mp hSome with hIn | hDef
        · exact (List.mem_append.mp hIn).resolve_left hyInput
        · exact absurd rfl ((List.nodup_append.mp hSSA).2.2 _ hDef _ List.mem_cons_self)
      refine ⟨hInv₂', hEarly₁, ?_⟩
      rw [hTemps, if_pos hOut]
      exact hCount
    · -- a temporary takes a register out of the pool
      have hTemp : y.dst ∉ mlmi.outputs := by
        intro hOut
        have := (hInv₁.dom_iff y.dst).mpr (Or.inl (by simp [hOut]))
        simp [hNone] at this
      refine ⟨hInv₂', fun hAll => absurd (hAll y (by simp)) hTemp, ?_⟩
      have hLen : free.length + 1 = st₁.free.length := by
        simpa using (SetOrder.pop_perm hPop).length_eq
      rw [hTemps, if_neg hTemp]
      show free.length + _ = _
      omega

/-- The pool never runs dry: at every temporary it holds a register. -/
def MLMI.Enough (mlmi : MLMI) (late : List Nat) (pool : Nat) : Prop :=
  ∀ pre x post, mlmi.seq = pre ++ x :: post → x.dst ∉ mlmi.outputs →
    mlmi.temps (pre ++ [x]) ≤ pool + (died late (pre ++ [x]) post).card

/-- What is left of `Enough` after `done`. -/
def MLMI.EnoughFrom (mlmi : MLMI) (late : List Nat) (pool : Nat) (done rest : List HLI) : Prop :=
  ∀ pre x post, rest = pre ++ x :: post → x.dst ∉ mlmi.outputs →
    mlmi.temps (done ++ pre ++ [x]) ≤ pool + (died late (done ++ pre ++ [x]) post).card

theorem enoughFrom_cons {late : List Nat} {pool : Nat} {done rest : List HLI} {y : HLI} :
    mlmi.EnoughFrom late pool done (y :: rest) ↔
      (y.dst ∉ mlmi.outputs →
        mlmi.temps (done ++ [y]) ≤ pool + (died late (done ++ [y]) rest).card) ∧
      mlmi.EnoughFrom late pool (done ++ [y]) rest := by
  constructor
  · intro h
    refine ⟨fun hTemp => by simpa using h [] y rest rfl hTemp, fun pre x post hSplit hTemp => ?_⟩
    simpa using h (y :: pre) x post (by simp [hSplit]) hTemp
  · rintro ⟨hHead, hTail⟩ pre x post hSplit hTemp
    cases pre with
    | nil =>
      rw [List.nil_append, List.cons.injEq] at hSplit
      obtain ⟨rfl, rfl⟩ := hSplit
      simpa using hHead hTemp
    | cons p pre =>
      rw [List.cons_append, List.cons.injEq] at hSplit
      obtain ⟨rfl, rfl⟩ := hSplit
      simpa using hTail pre x post rfl hTemp

/-- **The scan with misplaced inputs.** As long as no temporary is born before
the last read of a misplaced input, the scan succeeds exactly when the pool has
enough registers, and two operands only share a register when the older one is
dead or misplaced. -/
theorem allocate_padded (hWF : mlmi.WellFormed) {late : List Nat} (hLate : late ⊆ mlmi.inputs)
    (hBorn : mlmi.BornAfter late) {pool : Nat} (ord : SetOrder Nat) :
    ∀ (rest done : List HLI) {st : AllocState}, mlmi.seq = done ++ rest →
      PadInv mlmi late pool done rest st →
      ((∃ st', allocate ord (computeLiveIntervals mlmi.seq mlmi.outputs).1
          (computeLiveIntervals mlmi.seq mlmi.outputs).2 done.length rest.length st = .ok st') ↔
        mlmi.EnoughFrom late pool done rest) ∧
      ∀ st', allocate ord (computeLiveIntervals mlmi.seq mlmi.outputs).1
          (computeLiveIntervals mlmi.seq mlmi.outputs).2 done.length rest.length st = .ok st' →
        (∀ m r, st.regs.lookup m = some r → st'.regs.lookup m = some r) ∧
        (∀ m, (st'.regs.lookup m).isSome ↔
          m ∈ mlmi.inputs ++ mlmi.outputs ∨ m ∈ defs mlmi.seq) ∧
        ∀ pre x post, rest = pre ++ x :: post → ∀ m,
          m ∈ mlmi.inputs ++ mlmi.outputs ∨ m ∈ defs (done ++ pre) → m ≠ x.dst →
          st'.regs.lookup m = st'.regs.lookup x.dst →
          Dead (done ++ pre ++ [x]) post m ∨ m ∈ late := by
  intro rest
  induction rest with
  | nil =>
    intro done st hSeq hInv
    rw [List.append_nil] at hSeq
    refine ⟨⟨fun _ pre x post hNil => absurd hNil (by simp), fun _ => ⟨st, rfl⟩⟩, fun st' h => ?_⟩
    rw [List.length_nil, allocate, Except.ok.injEq] at h
    subst h
    refine ⟨fun m r hm => hm, fun m => by rw [hInv.inv.dom_iff m, hSeq], ?_⟩
    intro pre x post hNil
    exact absurd hNil (by simp)
  | cons y rest ih =>
    intro done st hSeq hInv
    obtain ⟨st₁, hFreeEq, hRegs, hOutput, hTemp, hNext⟩ := hInv.step hWF hLate hBorn hSeq ord
    have hBirths : (computeLiveIntervals mlmi.seq mlmi.outputs).1.at done.length = [y.dst] := by
      rw [hSeq]
      exact births_at
    have hLen : done.length + 1 = (done ++ [y]).length := by simp
    have hSeq' : mlmi.seq = (done ++ [y]) ++ rest := by simp [hSeq]
    rw [enoughFrom_cons, List.length_cons, allocate, hFreeEq]
    simp only [hBirths, hLen]
    cases hNew : allocateNew ord done.length [y.dst] st₁ with
    | error e =>
      -- the pool is empty at a temporary
      have hyTemp : y.dst ∉ mlmi.outputs := by
        intro hOut
        rw [hOutput hOut] at hNew
        exact absurd hNew (by simp)
      obtain ⟨hNone, hCount⟩ := hTemp hyTemp
      have hEmpty : st₁.free = [] := by
        rw [allocateNew, hNone] at hNew
        cases hPop : ord.pop done.length st₁.free with
        | none => exact SetOrder.pop_eq_none.mp hPop
        | some p =>
          rw [hPop] at hNew
          simp [allocateNew] at hNew
      rw [hEmpty, List.length_nil, zero_add] at hCount
      have hTemps : mlmi.temps (done ++ [y]) = mlmi.temps done + 1 := by
        simp [MLMI.temps, hyTemp]
      refine ⟨⟨fun h => absurd h (by simp), fun hEnough => ?_⟩, fun st' h => absurd h (by simp)⟩
      have := hEnough.1 hyTemp
      omega
    | ok st₂ =>
      obtain ⟨hIff, hSpec⟩ := ih (done ++ [y]) hSeq' (hNext st₂ hNew)
      have hInv₂ := (hNext st₂ hNew).inv
      have hKeep₂ : ∀ m r, st₁.regs.lookup m = some r → st₂.regs.lookup m = some r := by
        intro m r hm
        rcases allocateNew_spec hNew with ⟨-, rfl⟩ | ⟨hNone, q, free, -, rfl⟩
        · exact hm
        · show List.lookup m ((y.dst, q) :: st₁.regs) = some r
          rw [lookup_cons_ite, if_neg, hm]
          rintro rfl
          rw [hNone] at hm
          exact absurd hm (by simp)
      have hHead : y.dst ∉ mlmi.outputs →
          mlmi.temps (done ++ [y]) ≤ pool + (died late (done ++ [y]) rest).card := by
        intro _
        have := (hNext st₂ hNew).count
        omega
      refine ⟨hIff.trans ⟨fun h => ⟨hHead, h⟩, fun h => h.2⟩, fun st' hAlloc => ?_⟩
      obtain ⟨hKeep, hDom, hClash⟩ := hSpec st' hAlloc
      refine ⟨fun m r hm => hKeep m r (hKeep₂ m r (hRegs ▸ hm)), hDom, ?_⟩
      intro pre x post hSplit m hm hne hEq
      cases pre with
      | nil =>
        -- the clash is at `y`: both cells are bound, and the destination is alive
        rw [List.nil_append, List.cons.injEq] at hSplit
        obtain ⟨rfl, rfl⟩ := hSplit
        rw [List.append_nil] at hm ⊢
        have hBound : ∀ c, c ∈ mlmi.inputs ++ mlmi.outputs ∨ c ∈ defs (done ++ [y]) →
            ∃ r, st₂.regs.lookup c = some r := fun c hc =>
          Option.isSome_iff_exists.mp ((hInv₂.dom_iff c).mpr hc)
        obtain ⟨r, hr⟩ := hBound m (hm.imp_right fun h => by simp [h])
        obtain ⟨q, hq⟩ := hBound y.dst (Or.inr (by simp))
        rw [hKeep m r hr, hKeep y.dst q hq, Option.some.injEq] at hEq
        subst hEq
        refine (hInv₂.shared_dead hr hq hne).resolve_right ?_
        rintro (hDead | hml)
        · exact not_read_before_def hWF.ssa hWF.def_before_use hSeq hDead.1
        · exact ((hWF.mem_inputs _).mp (hLate hml)).2 (by simp [hSeq])
      | cons p pre =>
        rw [List.cons_append, List.cons.injEq] at hSplit
        obtain ⟨rfl, rfl⟩ := hSplit
        have := hClash pre x post rfl m (by simpa [or_assoc] using hm) hne hEq
        simpa using this

-- ---------------------------------------------------------------------------
-- The mapping of a padded multi-instruction
-- ---------------------------------------------------------------------------

theorem misplaced_subset : mlmi.misplaced ins ⊆ mlmi.inputs := List.filter_subset_self _

/-- Whether a mapping is found, and what it guarantees to the inputs. -/
theorem getRegistersMapping_padded (hWF : mlmi.WellFormed) (hPad : mlmi.PaddedBy ins)
    (hBorn : mlmi.BornAfter (mlmi.misplaced ins)) {k maxOut : Nat}
    (hRoom : ins.length + maxOut ≤ k) (ord : SetOrder Nat) :
    ((∃ regs, getRegistersMapping ord mlmi.seq (mlmi.withInputs ins).loweredInputs mlmi.outputs
        k maxOut = .ok regs) ↔
      mlmi.Enough (mlmi.misplaced ins) (k - maxOut - mlmi.inputs.length)) ∧
    ∀ regs, getRegistersMapping ord mlmi.seq (mlmi.withInputs ins).loweredInputs mlmi.outputs
        k maxOut = .ok regs →
      (∀ m ∈ mlmi.inputs, regs.lookup m = some (ins.idxOf m)) ∧
      (∀ m, (regs.lookup m).isSome ↔ m ∈ mlmi.inputs ++ mlmi.outputs ∨ m ∈ defs mlmi.seq) ∧
      ∀ pre x post, mlmi.seq = pre ++ x :: post → ∀ m ∈ mlmi.inputs, m ∈ reads post →
        regs.reg x.dst ≠ regs.reg m := by
  obtain ⟨hIff, hSpec⟩ := allocate_padded hWF misplaced_subset hBorn ord mlmi.seq [] rfl
    (padInv_start hWF hPad hRoom)
  rw [List.length_nil] at hIff hSpec
  have hEnough : mlmi.EnoughFrom (mlmi.misplaced ins)
    (k - maxOut - mlmi.inputs.length) [] mlmi.seq ↔
      mlmi.Enough (mlmi.misplaced ins) (k - maxOut - mlmi.inputs.length) := by
    simp [MLMI.EnoughFrom, MLMI.Enough]
  unfold getRegistersMapping
  rw [allocInit_withInputs hWF hPad, ← hEnough, ← hIff]
  dsimp only
  cases hAlloc : allocate ord (computeLiveIntervals mlmi.seq mlmi.outputs).1
      (computeLiveIntervals mlmi.seq mlmi.outputs).2 0 mlmi.seq.length
      (allocInit mlmi.seq ins mlmi.outputs k maxOut) with
  | error e => simp [Except.map]
  | ok st =>
    simp only [Except.map, Except.ok.injEq, exists_eq', true_and]
    rintro regs rfl
    obtain ⟨hKeep, hDom, hClash⟩ := hSpec st hAlloc
    obtain ⟨hLookup, -⟩ := allocInit_padded hWF hPad k maxOut
    have hDisj : ∀ m ∈ mlmi.inputs, m ∉ mlmi.outputs := fun m hm ho =>
      ((hWF.mem_inputs m).mp hm).2 (hWF.outputs_sub ho)
    have hInput : ∀ m ∈ mlmi.inputs, st.regs.lookup m = some (ins.idxOf m) := fun m hm =>
      hKeep m _ (by rw [hLookup, if_neg (hDisj m hm), if_pos hm])
    refine ⟨hInput, hDom, fun pre x post hSeq m hm hRead hEq => ?_⟩
    have hxDef : x.dst ∈ defs mlmi.seq := by simp [hSeq]
    -- an input is never a destination
    have hne : m ≠ x.dst := by
      rintro rfl
      exact ((hWF.mem_inputs _).mp hm).2 hxDef
    obtain ⟨r, hr⟩ := Option.isSome_iff_exists.mp ((hDom x.dst).mpr (Or.inr hxDef))
    have hSame : st.regs.lookup m = st.regs.lookup x.dst := by
      simp only [RegMap.reg, hr, hInput m hm, Option.getD_some] at hEq
      rw [hr, hInput m hm, hEq]
    rcases hClash pre x post hSeq m (Or.inl (by simp [hm])) hne hSame with hDead | hml
    · exact hDead.2 hRead
    -- a misplaced input is read no more once a temporary is born
    · by_cases hOut : x.dst ∈ mlmi.outputs
      · -- the register of an output lies behind those of the inputs
        have hxReg := hKeep x.dst _ (by rw [hLookup, if_pos hOut])
        have hLt := List.idxOf_lt_length_iff.mpr (hPad.mem hm)
        rw [hInput m hm, hxReg, Option.some.injEq] at hSame
        omega
      · exact hBorn pre x post hSeq hOut m hml hRead

/-- Lowering goes through exactly when a mapping is found. -/
theorem mlmiToLLMI_padded (hWF : mlmi.WellFormed) (hPad : mlmi.PaddedBy ins)
    (hBorn : mlmi.BornAfter (mlmi.misplaced ins)) {k maxOut : Nat}
    (hRoom : ins.length + maxOut ≤ k) (ord : SetOrder Nat) :
    (∃ llmi, mlmiToLLMI ord (mlmi.withInputs ins) k maxOut = .ok llmi) ↔
      mlmi.Enough (mlmi.misplaced ins) (k - maxOut - mlmi.inputs.length) := by
  obtain ⟨hIff, hSpec⟩ := getRegistersMapping_padded hWF hPad hBorn hRoom ord
  rw [← hIff]
  unfold mlmiToLLMI
  simp only [MLMI.withInputs_seq, MLMI.withInputs_outputs]
  cases hMap : getRegistersMapping ord mlmi.seq (mlmi.withInputs ins).loweredInputs mlmi.outputs
      k maxOut with
  | error e => simp
  | ok regs =>
    obtain ⟨-, hDom, -⟩ := hSpec regs hMap
    have hCover : (mlmi.seq.flatMap fun i => i.dst :: i.memInputs).find?
        (fun m => (regs.lookup m).isNone) = none := by
      rw [List.find?_eq_none]
      intro m hm
      obtain ⟨x, hx, hmx⟩ := List.mem_flatMap.mp hm
      obtain ⟨pre, post, hSeq⟩ := List.append_of_mem hx
      have hIn : m ∈ mlmi.inputs ++ mlmi.outputs ∨ m ∈ defs mlmi.seq := by
        rcases List.mem_cons.mp hmx with rfl | hRead
        · exact Or.inr (by simp [hSeq])
        · rcases hWF.available hSeq hRead with hi | hd
          · exact Or.inl (by simp [hi])
          · exact Or.inr (by simp [hSeq, hd])
      simpa using (hDom m).mpr hIn
    simp [hCover]

/-- A multi-instruction without dummies has no misplaced input. -/
theorem mlmiToLLMI_iff (hWF : mlmi.WellFormed) {k maxOut : Nat}
    (hRoom : mlmi.inputs.length + maxOut ≤ k) (ord : SetOrder Nat) :
    (∃ llmi, mlmiToLLMI ord mlmi k maxOut = .ok llmi) ↔
      mlmi.Enough [] (k - maxOut - mlmi.inputs.length) := by
  have hNone : mlmi.BornAfter (mlmi.misplaced mlmi.inputs) := by
    intro pre x post _ _ m hm
    simp [misplaced_inputs] at hm
  rw [← misplaced_inputs]
  exact mlmiToLLMI_padded hWF hWF.paddedBy_inputs hNone hRoom ord

/-- A register that is not handed out keeps the input it was loaded with. -/
theorem loaded_input_kept {regs : RegMap} {m : Nat} (hReg : regs.lookup m = some (ins.idxOf m))
    (hIn : m ∈ ins) {pre : List HLI} (hApart : ∀ y ∈ pre, regs.reg y.dst ≠ regs.reg m)
    {σ ρ ρ' : Store Nat} (hLoad : ∀ i (h : i < ins.length), ρ i = σ ins[i])
    (hRun : run (pre.map (Instr.rename regs.reg regs.reg)) ρ = some ρ') :
    ρ' (regs.reg m) = σ m := by
  have hNot : regs.reg m ∉ defs (pre.map (Instr.rename regs.reg regs.reg)) := by
    intro hMem
    obtain ⟨z, hz, hEq⟩ := List.mem_map.mp hMem
    obtain ⟨y, hy, rfl⟩ := List.mem_map.mp hz
    exact hApart y hy hEq
  have hIdx : regs.reg m = ins.idxOf m := by simp [RegMap.reg, hReg]
  rw [run_not_mem_defs hRun hNot, hIdx, hLoad _ (List.idxOf_lt_length_iff.mpr hIn),
    List.getElem_idxOf]

-- ---------------------------------------------------------------------------
-- Handing out the register of a misplaced input
-- ---------------------------------------------------------------------------

theorem allocateNew_keep {ord : SetOrder Nat} {t : Nat} {ms : List Nat} {st st' : AllocState}
    (h : allocateNew ord t ms st = .ok st') {m r : Nat} (hm : st.regs.lookup m = some r) :
    st'.regs.lookup m = some r := by
  induction ms generalizing st with
  | nil =>
    rw [allocateNew, Except.ok.injEq] at h
    exact h ▸ hm
  | cons d ms ih =>
    rw [allocateNew] at h
    split at h
    · exact ih h hm
    · next hNone =>
        split at h
        · exact absurd h (by simp)
        · next q free _ =>
            refine ih h ?_
            show List.lookup m ((d, q) :: st.regs) = some r
            rw [lookup_cons_ite, if_neg, hm]
            rintro rfl
            rw [hNone] at hm
            exact absurd hm (by simp)

/-- A binding is never changed. -/
theorem allocate_keep {ord : SetOrder Nat} {births deaths : Events} {n i : Nat}
    {st st' : AllocState} (h : allocate ord births deaths i n st = .ok st') {m r : Nat}
    (hm : st.regs.lookup m = some r) : st'.regs.lookup m = some r := by
  induction n generalizing i st with
  | zero =>
    rw [allocate, Except.ok.injEq] at h
    exact h ▸ hm
  | succ n ih =>
    rw [allocate] at h
    split at h
    · exact absurd h (by simp)
    · next st₁ hFree =>
        split at h
        · exact absurd h (by simp)
        · next st₂ hNew =>
            refine ih h (allocateNew_keep hNew ?_)
            rw [(freeRegisters_spec hFree).1]
            exact hm

theorem steer_pop_self {q t : Nat} {s : List Nat} (hq : q ∈ s) :
    (steer q t).pop t s = some (q, s.erase q) := by
  simp [SetOrder.pop, steer, hq]

/-- The first temporary can be given any register of the initial pool. -/
theorem allocate_first_temp {seq : List HLI} {outputs : List Nat} {q : Nat} {y : HLI}
    {post : List HLI} {ord : SetOrder Nat} :
    ∀ (pre done : List HLI) {st st' : AllocState}, seq = done ++ pre ++ y :: post →
      ord = steer q (done ++ pre).length → (∀ z ∈ pre, (st.regs.lookup z.dst).isSome) →
      st.regs.lookup y.dst = none → q ∈ st.free →
      allocate ord (computeLiveIntervals seq outputs).1 (computeLiveIntervals seq outputs).2
        done.length (pre ++ y :: post).length st = .ok st' →
      st'.regs.lookup y.dst = some q := by
  intro pre
  induction pre with
  | nil =>
    intro done st st' hSeq hOrd _ hNone hq h
    rw [List.append_nil] at hSeq hOrd
    rw [List.nil_append, List.length_cons, allocate] at h
    split at h
    · exact absurd h (by simp)
    · next st₁ hFree =>
      split at h
      · exact absurd h (by simp)
      · next st₂ hNew =>
        obtain ⟨hRegs, -, hMem⟩ := freeRegisters_spec hFree
        rw [hSeq, births_at] at hNew
        refine allocate_keep h ?_
        rcases allocateNew_spec hNew with ⟨hSome, -⟩ | ⟨-, r, free, hPop, rfl⟩
        · rw [hRegs, hNone] at hSome
          exact absurd hSome (by simp)
        · rw [hOrd, steer_pop_self ((hMem q).mpr (Or.inl hq))] at hPop
          simp only [Option.some.injEq, Prod.mk.injEq] at hPop
          show List.lookup y.dst ((y.dst, r) :: st₁.regs) = some q
          rw [lookup_cons_ite, if_pos rfl, hPop.1]
  | cons z pre ih =>
    intro done st st' hSeq hOrd hBound hNone hq h
    rw [List.cons_append, List.length_cons, allocate] at h
    split at h
    · exact absurd h (by simp)
    · next st₁ hFree =>
      split at h
      · exact absurd h (by simp)
      · next st₂ hNew =>
        obtain ⟨hRegs, -, hMem⟩ := freeRegisters_spec hFree
        rw [hSeq, List.append_assoc, List.cons_append, births_at] at hNew
        -- the destination is pinned, so nothing is popped
        obtain ⟨-, rfl⟩ | ⟨hUnbound, -⟩ := allocateNew_spec hNew
        · have hLen : done.length + 1 = (done ++ [z]).length := by simp
          rw [hLen] at h
          refine ih (done ++ [z]) (by simpa using hSeq) (by simpa using hOrd) (fun w hw => ?_)
            (hRegs ▸ hNone) ((hMem q).mpr (Or.inl hq)) h
          rw [hRegs]
          exact hBound w (List.mem_cons_of_mem _ hw)
        · have := hBound z List.mem_cons_self
          rw [← hRegs, hUnbound] at this
          exact absurd this (by simp)

-- ---------------------------------------------------------------------------
-- The characterisation
-- ---------------------------------------------------------------------------

theorem MLMI.DummiesClear.bornAfter (h : mlmi.DummiesClear ins) :
    mlmi.BornAfter (mlmi.misplaced ins) := by
  intro pre x post hSeq hTemp m hm
  rcases h with hNone | hClear
  · rw [hNone] at hm
    exact absurd hm (by simp)
  · exact (hClear pre x post hSeq hTemp).1 m hm

theorem dummiesInert_of_clear (hWF : mlmi.WellFormed) (hPad : mlmi.PaddedBy ins)
    (h : mlmi.DummiesClear ins) : mlmi.DummiesInert ins := by
  intro lIn lOut r hIns _ hr
  have hLen := hPad.length_le
  have hRoom : ins.length + lOut ≤ r := by omega
  refine ⟨fun ⟨ord₀, hBase⟩ ord => ?_, fun ord regs hMap pre x post hSeq => ?_⟩
  · rw [mlmiToLLMI_padded hWF hPad h.bornAfter hRoom]
    rw [mlmiToLLMI_iff hWF (by omega)] at hBase
    rcases h with hNone | hClear
    · rw [hNone]
      exact hBase
    · -- the dummies leave room for the registers the pool is short of
      intro pre x post hSeq hTemp
      have hCount := (hClear pre x post hSeq hTemp).2
      omega
  · obtain ⟨hInput, -, hApart⟩ :=
      (getRegistersMapping_padded hWF hPad h.bornAfter hRoom ord).2 regs hMap
    refine ⟨hApart pre x post hSeq, fun σ ρ ρ' hLoad hRun m hm hIn => ?_⟩
    refine loaded_input_kept (hInput m hIn) (hPad.mem hIn) (fun y hy => ?_) hLoad hRun
    obtain ⟨a, b, rfl⟩ := List.append_of_mem hy
    exact hApart a y (b ++ x :: post) (by simp [hSeq]) m hIn (by simp [hm])

/-- With many registers, a misplaced input that is read after a temporary loses
its register to the first temporary. -/
theorem bornAfter_of_inert (hWF : mlmi.WellFormed) (hPad : mlmi.PaddedBy ins)
    (h : mlmi.DummiesInert ins) : mlmi.BornAfter (mlmi.misplaced ins) := by
  intro pre x post hSeq hTemp m hm hRead
  obtain ⟨hIn, hPos⟩ := mem_misplaced.mp hm
  obtain ⟨pre', y, post', hSeq', hyTemp, hFirst⟩ :=
    exists_first_satisfying (l := mlmi.seq) (fun z : HLI => z.dst ∉ mlmi.outputs)
      ⟨x, by simp [hSeq], hTemp⟩
  -- `m` is read after the first temporary, too
  have hRead' : m ∈ reads post' := by
    rw [hSeq, List.append_eq_append_iff] at hSeq'
    rcases hSeq' with ⟨a, hPre, hTail⟩ | ⟨c, rfl, hTail⟩
    · cases a with
      | nil =>
        rw [List.nil_append, List.cons.injEq] at hTail
        exact hTail.2 ▸ hRead
      | cons b a =>
        rw [List.cons_append, List.cons.injEq] at hTail
        exact absurd hTemp (hFirst x (by simp [hPre, hTail.1]))
    · cases c with
      | nil =>
        rw [List.nil_append, List.cons.injEq] at hTail
        exact hTail.2 ▸ hRead
      | cons b c =>
        rw [List.cons_append, List.cons.injEq] at hTail
        rw [hTail.2]
        simp [hRead]
  set lOut := mlmi.outputs.length
  set r := ins.length + mlmi.seq.length + lOut with hr
  have hLen := hPad.length_le
  obtain ⟨hLower, hKept⟩ := h (ins.length + mlmi.seq.length) lOut r (by omega) le_rfl le_rfl
  have hBase : ∃ ord llmi, mlmiToLLMI ord mlmi r lOut = .ok llmi := by
    refine ⟨SetOrder.stored Nat, (mlmiToLLMI_iff hWF (by omega) _).mpr ?_⟩
    intro a z b hSplit _
    have hTemps : mlmi.temps (a ++ [z]) ≤ mlmi.seq.length := by
      refine (List.length_filter_le _ _).trans ?_
      simp [hSplit]
    omega
  set q := ins.idxOf m with hq
  obtain ⟨llmi, hLLMI⟩ := hLower hBase (steer q pre'.length)
  -- a successful lowering found a mapping
  obtain ⟨regs, hMap⟩ : ∃ regs, getRegistersMapping (steer q pre'.length) mlmi.seq
      (mlmi.withInputs ins).loweredInputs mlmi.outputs r lOut = .ok regs := by
    unfold mlmiToLLMI at hLLMI
    split at hLLMI
    · exact absurd hLLMI (by simp)
    · next regs hMap => exact ⟨regs, hMap⟩
  have hKeep := (hKept _ regs hMap pre' y post' hSeq').1 m hIn hRead'
  obtain ⟨hLookup, hFree⟩ := allocInit_padded hWF hPad r lOut
  have hDisj : m ∉ mlmi.outputs := fun ho => ((hWF.mem_inputs m).mp hIn).2 (hWF.outputs_sub ho)
  have hyInput : y.dst ∉ mlmi.inputs := fun hi =>
    ((hWF.mem_inputs _).mp hi).2 (by simp [hSeq'])
  unfold getRegistersMapping at hMap
  rw [allocInit_withInputs hWF hPad] at hMap
  dsimp only at hMap
  cases hAlloc : allocate (steer q pre'.length) (computeLiveIntervals mlmi.seq mlmi.outputs).1
      (computeLiveIntervals mlmi.seq mlmi.outputs).2 0 mlmi.seq.length
      (allocInit mlmi.seq ins mlmi.outputs r lOut) with
  | error e =>
    rw [hAlloc] at hMap
    exact absurd hMap (by simp [Except.map])
  | ok st =>
    rw [hAlloc, Except.map, Except.ok.injEq] at hMap
    subst hMap
    have hLt := List.idxOf_lt_length_iff.mpr (hPad.mem hIn)
    have hqFree : q ∈ (allocInit mlmi.seq ins mlmi.outputs r lOut).free := by
      rw [hFree, List.mem_range'_1]
      omega
    have hmReg : st.regs.lookup m = some q :=
      allocate_keep hAlloc (by rw [hLookup, if_neg hDisj, if_pos hIn])
    have hyReg : st.regs.lookup y.dst = some q := by
      have hLength : mlmi.seq.length = (pre' ++ y :: post').length := by rw [hSeq']
      rw [hLength] at hAlloc
      refine allocate_first_temp pre' [] (by simpa using hSeq') (by simp) (fun z hz => ?_) ?_
        hqFree hAlloc
      · have hOut : z.dst ∈ mlmi.outputs := not_not.mp (hFirst z hz)
        simp [hLookup, hOut]
      · rw [hLookup, if_neg hyTemp, if_neg hyInput]
    exact hKeep (by simp [RegMap.reg, hmReg, hyReg])

/-- With as few registers as the multi-instruction needs without dummies, the
misplaced inputs leave the pool short. -/
theorem enough_of_inert (hWF : mlmi.WellFormed) (hPad : mlmi.PaddedBy ins)
    (h : mlmi.DummiesInert ins) (hSome : mlmi.misplaced ins ≠ []) :
    mlmi.Enough (mlmi.misplaced ins) (ins.length - mlmi.inputs.length) := by
  have hBorn := bornAfter_of_inert hWF hPad h
  have hLen := hPad.length_le
  set late := mlmi.misplaced ins with hLate
  -- whatever pool the multi-instruction can do with, it can do with when padded
  have hPool : ∀ pool, ins.length - mlmi.inputs.length ≤ pool → mlmi.Enough [] pool →
      mlmi.Enough late pool := by
    intro pool hGe hBase
    set r := pool + mlmi.inputs.length + mlmi.outputs.length with hr
    obtain ⟨hLower, -⟩ := h (pool + mlmi.inputs.length) mlmi.outputs.length r (by omega) le_rfl
      le_rfl
    have hEq : r - mlmi.outputs.length - mlmi.inputs.length = pool := by omega
    have hRoom : mlmi.inputs.length + mlmi.outputs.length ≤ r := by omega
    have hBase' := (mlmiToLLMI_iff hWF hRoom (SetOrder.stored Nat)).mpr (by rw [hEq]; exact hBase)
    have hPadded := hLower ⟨SetOrder.stored Nat, hBase'⟩ (SetOrder.stored Nat)
    rw [mlmiToLLMI_padded hWF hPad hBorn (by omega), hEq] at hPadded
    exact hPadded
  -- all misplaced inputs are dead when a temporary is born
  have hShort : ∀ pre x post, mlmi.seq = pre ++ x :: post → x.dst ∉ mlmi.outputs →
      (died late (pre ++ [x]) post).card < (died [] (pre ++ [x]) post).card := by
    intro pre x post hSeq hTemp
    obtain ⟨m, hm⟩ := List.exists_mem_of_ne_nil _ hSome
    have hNotRead := hBorn pre x post hSeq hTemp m hm
    have hRead : m ∈ reads (pre ++ [x]) := by
      have hAll := ((hWF.mem_inputs m).mp (mem_misplaced.mp hm).1).1
      rw [hSeq, show pre ++ x :: post = (pre ++ [x]) ++ post by simp, reads_append,
        List.mem_append] at hAll
      exact hAll.resolve_right hNotRead
    refine Finset.card_lt_card (Finset.ssubset_iff_of_subset ?_ |>.mpr ⟨m, ?_, ?_⟩)
    · intro c hc
      simp only [died, Finset.mem_filter] at hc ⊢
      exact ⟨hc.1, hc.2.1, by simp⟩
    · simp only [died, Finset.mem_filter, List.mem_toFinset]
      exact ⟨hRead, hNotRead, by simp⟩
    · simp only [died, Finset.mem_filter]
      exact fun hc => hc.2.2 hm
  have hExists : ∃ pool, ins.length - mlmi.inputs.length ≤ pool ∧ mlmi.Enough [] pool := by
    refine ⟨ins.length - mlmi.inputs.length + mlmi.seq.length, by omega, fun a z b hSplit _ => ?_⟩
    have hTemps : mlmi.temps (a ++ [z]) ≤ mlmi.seq.length := by
      refine (List.length_filter_le _ _).trans ?_
      simp [hSplit]
    omega
  classical
  -- the least such pool is the number of dummies
  obtain ⟨pool, ⟨hGe, hBase⟩, hLeast⟩ : ∃ pool, (ins.length - mlmi.inputs.length ≤ pool ∧
      mlmi.Enough [] pool) ∧ ∀ p < pool, ¬ (ins.length - mlmi.inputs.length ≤ p ∧
      mlmi.Enough [] p) :=
    ⟨Nat.find hExists, Nat.find_spec hExists, fun p hp => Nat.find_min hExists hp⟩
  rcases Nat.eq_or_lt_of_le hGe with hEq | hLt
  · rw [hEq]
    exact hPool _ hGe hBase
  · exfalso
    have hLess := hLeast (pool - 1) (by omega)
    rw [not_and] at hLess
    have hNot := hLess (by omega)
    unfold MLMI.Enough at hNot
    push Not at hNot
    obtain ⟨pre, x, post, hSeq, hTemp, hMany⟩ := hNot
    have hFew := hPool _ hGe hBase pre x post hSeq hTemp
    have := hShort pre x post hSeq hTemp
    omega

/-- **When dummy inputs are inert.** Exactly when no input that is read stands
behind its place, or every temporary is born after the last read of those that
do and the dummies are as many as the registers the pool is short of. -/
theorem dummiesInert_iff (hWF : mlmi.WellFormed) (hPad : mlmi.PaddedBy ins) :
    mlmi.DummiesInert ins ↔ mlmi.DummiesClear ins := by
  refine ⟨fun h => ?_, dummiesInert_of_clear hWF hPad⟩
  by_cases hNone : mlmi.misplaced ins = []
  · exact Or.inl hNone
  · refine Or.inr fun pre x post hSeq hTemp => ⟨?_, ?_⟩
    · exact bornAfter_of_inert hWF hPad h pre x post hSeq hTemp
    · exact enough_of_inert hWF hPad h hNone pre x post hSeq hTemp

end Scan

/-- `t := a + 1; o := t + a`, to be padded with a dummy in front of `a`. -/
def behindDummyMLMI : MLMI where
  seq := [
    { opcode := .ADD, dst := 2, src1 := some (.loc 0), src2 := some (.imm 1) },
    { opcode := .ADD, dst := 3, src1 := some (.loc 2), src2 := some (.loc 0) }]
  inputs := [0]
  outputs := [3]

theorem behindDummyMLMI_wellFormed : behindDummyMLMI.WellFormed where
  ssa := by decide
  def_before_use := defBeforeUse_iff.mpr (by decide)
  inputs_nodup := by decide
  mem_inputs := by
    intro m
    simp [behindDummyMLMI, reads, defs, Instr.memInputs, Instr.srcs, Operand.loc?]
    grind
  outputs_nodup := by decide
  outputs_sub := by decide

/-- With three registers, two inputs and one output, the pool is the register of
`a` alone: `t` takes it, and the second instruction reads `t` in place of `a`. -/
theorem behindDummyMLMI_clobbered :
    behindDummyMLMI.WellFormed ∧ behindDummyMLMI.PaddedBy [1, 0] ∧
      ¬ behindDummyMLMI.DummiesInert [1, 0] := by
  refine ⟨behindDummyMLMI_wellFormed, by decide, fun hInert => ?_⟩
  obtain ⟨-, hKept⟩ := hInert 2 1 3 (by decide) (by decide) (by decide)
  have hApart := (hKept (SetOrder.stored Nat) [(2, 1), (3, 2), (0, 1)] (by decide) []
    { opcode := .ADD, dst := 2, src1 := some (.loc 0), src2 := some (.imm 1) }
    [{ opcode := .ADD, dst := 3, src1 := some (.loc 2), src2 := some (.loc 0) }] rfl).1
  exact hApart 0 (by decide) (by decide) (by decide)

/-- The characterisation at the multi-instruction above. -/
theorem dummiesInert_behindDummyMLMI :
    behindDummyMLMI.WellFormed ∧ behindDummyMLMI.PaddedBy [1, 0] ∧
      (behindDummyMLMI.DummiesInert [1, 0] ↔ behindDummyMLMI.DummiesClear [1, 0]) :=
  ⟨behindDummyMLMI_wellFormed, by decide,
    dummiesInert_iff behindDummyMLMI_wellFormed (by decide)⟩

end Obscure
