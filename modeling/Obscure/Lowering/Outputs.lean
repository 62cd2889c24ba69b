import Obscure.Lowering.Correct

/-!
# OBSCURE — when lowering one multi-instruction preserves its meaning

`compute_live_intervals` records the outputs as dying after the last
instruction, but the scan that frees registers only looks at reads. An output
that the sequence itself reads therefore gives its register back at its last
read, and a temporary born at or after that point may take it over: what the
register holds at the end is then the temporary, not the output.

* `loweringCorrect_iff` — lowering is correct, for every number of registers and
  every order of `pop`, exactly when every temporary that can take over the
  register of an output computes the same value as that output.

The direction from the condition to correctness goes through the simulation; the
other one steers `pop` so that a given temporary does take the register over
(`steer`).
-/

namespace Obscure

open Lib

/-- Lowering `mlmi` is correct: for every register count and every order of
`pop` for which the allocator finds a mapping, the lowered sequence, started
with the inputs in the first registers, ends with the outputs in the last ones. -/
def MLMI.LoweringCorrect (mlmi : MLMI) : Prop :=
  ∀ (lIn lOut r : Nat) (ord : SetOrder Nat) (regs : RegMap),
    mlmi.inputs.length ≤ lIn → mlmi.outputs.length ≤ lOut → lIn + lOut ≤ r →
    getRegistersMapping ord mlmi.seq mlmi.loweredInputs mlmi.outputs r lOut = .ok regs →
    ∃ llmi, mlmiToLLMI ord mlmi r lOut = .ok llmi ∧
      ∀ (σ σ' : Store Nat) (ρ : Store Nat),
        (∀ i (h : i < mlmi.inputs.length), ρ i = σ mlmi.inputs[i]) →
        run mlmi.seq σ = some σ' →
        ∃ ρ', run llmi.seq ρ = some ρ' ∧
          ∀ j (h : j < mlmi.outputs.length), ρ' (r - lOut + j) = σ' mlmi.outputs[j]

/-- Every temporary defined at or after the last read of an output has the value
of that output. -/
def MLMI.OutputsKept (mlmi : MLMI) : Prop :=
  ∀ o ∈ mlmi.outputs, ∀ pre x post, mlmi.seq = pre ++ x :: post → x.dst ∉ mlmi.outputs →
    o ∈ reads (pre ++ [x]) → o ∉ reads post →
    ∀ σ σ', run mlmi.seq σ = some σ' → σ' x.dst = σ' o

/-! ## Lowering with a mapping -/

/-- Every operand the sequence reads is an input or was defined before. -/
theorem MLMI.WellFormed.available {mlmi : MLMI} (hWF : mlmi.WellFormed)
    {pre post : List HLI} {x : HLI} (hSeq : mlmi.seq = pre ++ x :: post) {m : Nat}
    (hm : m ∈ x.memInputs) : m ∈ mlmi.inputs ∨ m ∈ defs pre := by
  by_cases hDef : m ∈ defs mlmi.seq
  · exact Or.inr (hWF.def_before_use pre x post hSeq m hm hDef)
  · exact Or.inl ((hWF.mem_inputs m).mpr ⟨by simp [hSeq, hm], hDef⟩)

/-- A returned mapping covers the sequence, so lowering goes through with it. -/
theorem mlmiToLLMI_eq {mlmi : MLMI} (hWF : mlmi.WellFormed) {ord : SetOrder Nat} {r lOut : Nat}
    (hRoom : mlmi.inputs.length + lOut ≤ r) {regs : RegMap}
    (h : getRegistersMapping ord mlmi.seq mlmi.loweredInputs mlmi.outputs r lOut = .ok regs) :
    mlmiToLLMI ord mlmi r lOut = .ok
      { seq := mlmi.seq.map (Instr.rename regs.reg regs.reg)
        inputs := mlmi.loweredInputs
        outputs := mlmi.outputs } := by
  obtain ⟨-, -, hDom⟩ := getRegistersMapping_sound hWF hRoom h
  have hCover : (mlmi.seq.flatMap fun i => i.dst :: i.memInputs).find?
      (fun m => (regs.lookup m).isNone) = none := by
    rw [List.find?_eq_none]
    intro m hm
    obtain ⟨x, hx, hmx⟩ := List.mem_flatMap.mp hm
    obtain ⟨pre, post, hSeq⟩ := List.append_of_mem hx
    have hIn : m ∈ mlmi.inputs ++ mlmi.outputs ∨ m ∈ defs mlmi.seq := by
      rcases List.mem_cons.mp hmx with rfl | hRead
      · exact Or.inr (by simp [hSeq])
      · rcases hWF.available hSeq hRead with hi | hd
        · exact Or.inl (by simp [hi])
        · exact Or.inr (by simp [hSeq, hd])
    simpa using (hDom m).mpr hIn
  unfold mlmiToLLMI
  rw [h]
  simp only [hCover]

/-- The last operand written to a register still holds it at the end. -/
theorem not_clobbered_of_last {mlmi : MLMI} (hWF : mlmi.WellFormed) {reg : Nat → Nat}
    {pre post : List HLI} {y : HLI} (hSeq : mlmi.seq = pre ++ y :: post)
    (hLast : ∀ z ∈ post, reg z.dst ≠ reg y.dst) :
    ¬ Clobbered mlmi.seq mlmi.inputs reg y.dst := by
  rintro ⟨p, x, q, hSeq', hAvail, hne, hreg⟩
  have hSSA := hWF.ssa
  rw [hSeq, defs_append, defs_cons] at hSSA
  have hFresh : y.dst ∉ defs pre := fun h =>
    (List.nodup_append.mp hSSA).2.2 _ h _ List.mem_cons_self rfl
  rcases hAvail with hIn | hDef
  · exact ((hWF.mem_inputs _).mp hIn).2 (by simp [hSeq])
  · -- `x` stands after `y`
    rw [hSeq, List.append_eq_append_iff] at hSeq'
    rcases hSeq' with ⟨a, -, ha⟩ | ⟨c, rfl, -⟩
    · cases a with
      | nil =>
        rw [List.nil_append, List.cons.injEq] at ha
        exact hne (by rw [ha.1])
      | cons b a =>
        rw [List.cons_append, List.cons.injEq] at ha
        exact hLast x (by simp [ha.2]) hreg.symm
    · exact hFresh (by simp [hDef])

/-- Running the lowered sequence: the last operand written to a register is what
the register holds. -/
theorem run_lowered {mlmi : MLMI} (hWF : mlmi.WellFormed) {ord : SetOrder Nat} {r lOut : Nat}
    (hRoom : mlmi.inputs.length + lOut ≤ r) {regs : RegMap}
    (h : getRegistersMapping ord mlmi.seq mlmi.loweredInputs mlmi.outputs r lOut = .ok regs)
    {σ σ' : Store Nat} {ρ : Store Nat}
    (hLoad : ∀ i (h : i < mlmi.inputs.length), ρ i = σ mlmi.inputs[i])
    (hRun : run mlmi.seq σ = some σ') :
    ∃ ρ', run (mlmi.seq.map (Instr.rename regs.reg regs.reg)) ρ = some ρ' ∧
      ∀ pre y post, mlmi.seq = pre ++ y :: post →
        (∀ z ∈ post, regs.reg z.dst ≠ regs.reg y.dst) → ρ' (regs.reg y.dst) = σ' y.dst := by
  obtain ⟨hSound, hPin, -⟩ := getRegistersMapping_sound hWF hRoom h
  have hAgree : Agrees [] mlmi.inputs regs.reg σ ρ := by
    intro m hm _
    have hIn : m ∈ mlmi.inputs := by simpa using hm
    have hReg : regs.reg m = mlmi.inputs.idxOf m := by simp [RegMap.reg, hPin.input m hIn]
    rw [hReg, hLoad _ (List.idxOf_lt_length_iff.mpr hIn), List.getElem_idxOf]
  obtain ⟨ρ', hRun', hFinal⟩ := sound_simulates mlmi.seq []
    (hSound.mono (List.subset_append_left _ _)) (fun pre x post hSeq m hm =>
      hWF.available hSeq hm) hAgree hRun
  refine ⟨ρ', hRun', fun pre y post hSeq hLast => ?_⟩
  exact hFinal y.dst (Or.inr (by simp [hSeq])) (not_clobbered_of_last hWF hSeq hLast)

/-! ## From the condition to correctness -/

theorem loweringCorrect_of_outputsKept {mlmi : MLMI} (hWF : mlmi.WellFormed)
    (hKept : mlmi.OutputsKept) : mlmi.LoweringCorrect := by
  intro lIn lOut r ord regs hIn hOut hr hMap
  have hRoom : mlmi.inputs.length + lOut ≤ r := by omega
  refine ⟨_, mlmiToLLMI_eq hWF hRoom hMap, fun σ σ' ρ hLoad hRun => ?_⟩
  obtain ⟨hSound, hPin, -⟩ := getRegistersMapping_sound hWF hRoom hMap
  obtain ⟨ρ', hRun', hFinal⟩ := run_lowered hWF hRoom hMap hLoad hRun
  refine ⟨ρ', hRun', fun j hj => ?_⟩
  set o := mlmi.outputs[j] with ho
  have hoMem : o ∈ mlmi.outputs := List.getElem_mem hj
  have hoReg : ∀ m ∈ mlmi.outputs, regs.reg m = r - lOut + mlmi.outputs.idxOf m := fun m hm => by
    simp [RegMap.reg, hPin.output m hm]
  have hIdx : mlmi.outputs.idxOf o = j := hWF.outputs_nodup.idxOf_getElem j hj
  -- the last operand written to the register of `o`
  obtain ⟨x, hx, hxo⟩ := List.mem_map.mp (hWF.outputs_sub hoMem)
  obtain ⟨pre, y, post, hSeq, hy, hLast⟩ :=
    exists_last_satisfying (fun z : HLI => regs.reg z.dst = regs.reg o) ⟨x, hx, by rw [hxo]⟩
  have hVal : ρ' (regs.reg y.dst) = σ' y.dst :=
    hFinal pre y post hSeq fun z hz => by rw [hy]; exact hLast z hz
  rw [hy, hoReg o hoMem, hIdx] at hVal
  rw [hVal]
  by_cases hyo : o = y.dst
  · rw [hyo]
  · -- another operand took the register over: `o` was read for the last time
    obtain ⟨hRead, hNotRead⟩ := hSound pre y post hSeq o (Or.inl (by simp [hoMem])) hyo hy.symm
    have hTemp : y.dst ∉ mlmi.outputs := by
      intro hyMem
      have hEq : mlmi.outputs.idxOf y.dst = mlmi.outputs.idxOf o :=
        Nat.add_left_cancel ((hoReg _ hyMem).symm.trans (hy.trans (hoReg _ hoMem)))
      exact hyo ((List.idxOf_inj hyMem).mp hEq).symm
    exact hKept o hoMem pre y post hSeq hTemp hRead hNotRead σ σ' hRun

/-! ## From correctness to the condition -/

/-- The order in which register `q` is handed out at moment `tx` if it is free,
and otherwise only when nothing else is left. -/
def steer (q : Nat) (tx : Nat) : SetOrder Nat where
  enum := fun t s =>
    if q ∈ s then (if t = tx then q :: s.erase q else s.erase q ++ [q]) else s
  perm := by
    intro t s
    split
    · next hq =>
        split
        · exact (List.perm_cons_erase hq).symm
        · exact (List.perm_append_singleton q _).trans (List.perm_cons_erase hq).symm
    · exact List.Perm.refl s

theorem steer_pop (q tx t : Nat) {s : List Nat} (hNodup : s.Nodup) (hLen : 2 ≤ s.length) :
    ∃ r free, (steer q tx).pop t s = some (r, free) ∧ (t = tx → q ∈ s → r = q) ∧
      (t ≠ tx → r ≠ q) := by
  unfold SetOrder.pop steer
  dsimp only
  by_cases hq : q ∈ s
  · rw [if_pos hq]
    by_cases ht : t = tx
    · exact ⟨q, s.erase q, by rw [if_pos ht], fun _ _ => rfl, fun h => absurd ht h⟩
    · rw [if_neg ht]
      have hErase : (s.erase q).length = s.length - 1 := List.length_erase_of_mem hq
      cases hs : s.erase q with
      | nil =>
        rw [hs, List.length_nil] at hErase
        omega
      | cons r rest =>
        refine ⟨r, rest ++ [q], rfl, fun h => absurd h ht, fun _ hr => ?_⟩
        have hMem : q ∈ s.erase q := by rw [hs, ← hr]; exact List.mem_cons_self
        exact hNodup.not_mem_erase hMem
  · rw [if_neg hq]
    cases s with
    | nil => simp at hLen
    | cons r rest =>
      refine ⟨r, rest, rfl, fun _ h => absurd h hq, fun _ hr => ?_⟩
      exact hq (by rw [← hr]; exact List.mem_cons_self)

/-- Where the steered scan stands: up to `x` only the output `o` holds register
`q`, which is free once `o` is dead; after `x` its destination holds it too, and
nothing else. -/
structure Steered (q : Nat) (o : Nat) (pre : List HLI) (x : HLI) (done rest : List HLI)
    (st : AllocState) : Prop where
  room : rest.length + 2 ≤ st.free.length
  before : done.length ≤ pre.length →
    (∀ m, st.regs.lookup m = some q → m = o) ∧ (Dead done rest o → q ∈ st.free)
  after : pre.length < done.length →
    st.regs.lookup x.dst = some q ∧ ∀ m, st.regs.lookup m = some q → m = o ∨ m = x.dst

/-- Freeing registers before instruction `y` keeps the steering, with the output
now possibly dead. -/
theorem Steered.freeRegisters {q : Nat} {o : Nat} {pre done rest : List HLI} {x y : HLI}
    {st st₁ : AllocState} {ms : List Nat} (h : Steered q o pre x done (y :: rest) st)
    (hEq : freeRegisters ms st = .ok st₁) (hLen : st.free.length ≤ st₁.free.length)
    (ho : st.regs.lookup o = some q)
    (hDying : ∀ m, m ∈ ms ↔ m ∈ y.memInputs ∧ m ∉ reads rest) :
    rest.length + 3 ≤ st₁.free.length ∧
    (done.length ≤ pre.length →
      (∀ m, st₁.regs.lookup m = some q → m = o) ∧
      (Dead (done ++ [y]) rest o → q ∈ st₁.free)) ∧
    (pre.length < done.length →
      st₁.regs.lookup x.dst = some q ∧ ∀ m, st₁.regs.lookup m = some q → m = o ∨ m = x.dst) := by
  obtain ⟨hRegs, -, hFree⟩ := freeRegisters_spec hEq
  have hRoom := h.room
  rw [List.length_cons] at hRoom
  refine ⟨by omega, fun hLe => ?_, fun hLt => ?_⟩
  · obtain ⟨hOnly, hQ⟩ := h.before hLe
    refine ⟨fun m hm => hOnly m (hRegs ▸ hm), fun hDead => (hFree q).mpr ?_⟩
    by_cases hoy : o ∈ y.memInputs
    · exact Or.inr ⟨o, (hDying o).mpr ⟨hoy, hDead.2⟩, ho⟩
    · have hRead : o ∈ reads done := by simpa [hoy] using hDead.1
      exact Or.inl (hQ ⟨hRead, by simp [hoy, hDead.2]⟩)
  · obtain ⟨hx, hOnly⟩ := h.after hLt
    exact ⟨hRegs ▸ hx, fun m hm => hOnly m (hRegs ▸ hm)⟩

/-- The steered scan succeeds and hands the register of `o` to `x`, and to no
other temporary. -/
theorem steer_allocate {mlmi : MLMI} (hWF : mlmi.WellFormed) {o : Nat} {q : Nat}
    {pre post : List HLI} {x : HLI} (hSeq : mlmi.seq = pre ++ x :: post)
    (hTemp : x.dst ∉ mlmi.outputs) (hRead : o ∈ reads (pre ++ [x]))
    (hNotRead : o ∉ reads post) :
    ∀ (rest done : List HLI) (st : AllocState), mlmi.seq = done ++ rest →
      AllocInv (fun m => m ∈ mlmi.inputs ++ mlmi.outputs ∨ m ∈ defs done) (Dead done rest) st →
      st.regs.lookup o = some q → Steered q o pre x done rest st →
      ∃ st', allocate (steer q pre.length) (computeLiveIntervals mlmi.seq mlmi.outputs).1
          (computeLiveIntervals mlmi.seq mlmi.outputs).2 done.length rest.length st = .ok st' ∧
        st'.regs.lookup x.dst = some q ∧
        ∀ m, st'.regs.lookup m = some q → m = o ∨ m = x.dst := by
  intro rest
  induction rest with
  | nil =>
    intro done st hDone _ _ hSteer
    have hLen : pre.length < done.length := by
      rw [List.append_nil] at hDone
      rw [← hDone, hSeq]
      simp
    exact ⟨st, rfl, hSteer.after hLen⟩
  | cons y rest ih =>
    intro done st hDone hInv ho hSteer
    -- the operands dying at `y` are bound, so freeing succeeds
    have hDeaths : ∀ m, m ∈ (computeLiveIntervals mlmi.seq mlmi.outputs).2.at done.length ↔
        m ∈ y.memInputs ∧ m ∉ reads rest := by
      intro m
      rw [hDone]
      exact mem_deaths_at
    obtain ⟨st₁, hFreeEq, hLen₁⟩ := freeRegisters_ok st fun m hm => by
      rw [hInv.dom_iff m]
      rcases hWF.available hDone ((hDeaths m).mp hm).1 with hi | hd
      · exact Or.inl (by simp [hi])
      · exact Or.inr hd
    obtain ⟨hRegs₁, -, -⟩ := freeRegisters_spec hFreeEq
    obtain ⟨hRoom₁, hBefore₁, hAfter₁⟩ := hSteer.freeRegisters hFreeEq hLen₁ ho hDeaths
    have hInv₁ : AllocInv (fun m => m ∈ mlmi.inputs ++ mlmi.outputs ∨ m ∈ defs done)
        (Dead (done ++ [y]) rest) st₁ := by
      refine hInv.freeRegisters hFreeEq (fun m hm => hm.step) fun m hm => ?_
      have hm' := (hDeaths m).mp hm
      exact ⟨fun hDead => hDead.2 (by simp [hm'.1]), by simp [hm'.1], hm'.2⟩
    have hAlive : ¬ Dead (done ++ [y]) rest y.dst := fun hDead =>
      not_read_before_def hWF.ssa hWF.def_before_use hDone hDead.1
    -- the scan stands at `x` exactly when it has done `pre`
    have hAt : done.length = pre.length → y = x ∧ done = pre ∧ rest = post := by
      intro hEq
      obtain ⟨h1, h2⟩ := List.append_inj (hDone.symm.trans hSeq) hEq
      rw [List.cons.injEq] at h2
      exact ⟨h2.1, h1, h2.2⟩
    obtain ⟨st₂, hNewEq, hSteer₂⟩ : ∃ st₂,
        allocateNew (steer q pre.length) done.length [y.dst] st₁ = .ok st₂ ∧
        Steered q o pre x (done ++ [y]) rest st₂ := by
      cases hBound : st₁.regs.lookup y.dst with
      | some r =>
        refine ⟨st₁, by simp only [allocateNew, hBound], by omega, fun hLe => ?_, fun hLt => ?_⟩
        · rw [List.length_append, List.length_singleton] at hLe
          exact hBefore₁ (by omega)
        · rw [List.length_append, List.length_singleton] at hLt
          refine hAfter₁ (lt_of_le_of_ne (by omega) fun hEq => ?_)
          -- at `x` the destination is a fresh temporary
          obtain ⟨rfl, rfl, rfl⟩ := hAt hEq.symm
          have hDom := (hInv₁.dom_iff y.dst).mp (by simp [hBound])
          have hSSA := hWF.ssa
          rw [hDone, defs_append, defs_cons] at hSSA
          rcases hDom with hIn | hDef
          · rcases List.mem_append.mp hIn with hi | hOut
            · exact ((hWF.mem_inputs _).mp hi).2 (by simp [hDone])
            · exact hTemp hOut
          · exact (List.nodup_append.mp hSSA).2.2 _ hDef _ List.mem_cons_self rfl
      | none =>
        obtain ⟨r, free, hPop, hHit, hMiss⟩ :=
          steer_pop q pre.length done.length hInv₁.nodup (by omega)
        have hLenFree : free.length + 1 = st₁.free.length := by
          simpa using (SetOrder.pop_perm hPop).length_eq
        refine ⟨{ regs := (y.dst, r) :: st₁.regs, free := free },
          by simp only [allocateNew, hBound, hPop], by simp only; omega, fun hLe => ?_,
          fun hLt => ?_⟩
        · rw [List.length_append, List.length_singleton] at hLe
          obtain ⟨hOnly, hQ⟩ := hBefore₁ (by omega)
          have hrq : r ≠ q := hMiss (by omega)
          refine ⟨fun m hm => ?_, fun hDead => ?_⟩
          · simp only [lookup_cons_ite] at hm
            split at hm
            · exact absurd (Option.some.inj hm) hrq
            · exact hOnly m hm
          · have hMem := (SetOrder.pop_perm hPop).mem_iff.mpr (hQ hDead)
            exact (List.mem_cons.mp hMem).resolve_left (Ne.symm hrq)
        · rw [List.length_append, List.length_singleton] at hLt
          rcases Nat.lt_or_eq_of_le (show pre.length ≤ done.length by omega) with hlt | hEq
          · obtain ⟨hx, hOnly⟩ := hAfter₁ hlt
            have hrq : r ≠ q := hMiss (by omega)
            refine ⟨?_, fun m hm => ?_⟩
            · simp only [lookup_cons_ite]
              rw [if_neg, hx]
              intro he
              rw [he, hBound] at hx
              exact absurd hx (by simp)
            · simp only [lookup_cons_ite] at hm
              split at hm
              · exact absurd (Option.some.inj hm) hrq
              · exact hOnly m hm
          · -- this is the moment: `o` is dead, so its register is free, and `x` gets it
            obtain ⟨rfl, rfl, rfl⟩ := hAt hEq.symm
            obtain ⟨hOnly, hQ⟩ := hBefore₁ le_rfl
            have hrq : r = q := hHit rfl (hQ ⟨hRead, hNotRead⟩)
            refine ⟨by simp only [lookup_cons_ite, if_true, hrq], fun m hm => ?_⟩
            simp only [lookup_cons_ite] at hm
            split at hm
            · next he => exact Or.inr he
            · exact Or.inl (hOnly m hm)
    obtain ⟨hInv₂, hKeep₂⟩ := hInv₁.allocateNew hNewEq hAlive
    have hInv₂' : AllocInv (fun m => m ∈ mlmi.inputs ++ mlmi.outputs ∨ m ∈ defs (done ++ [y]))
        (Dead (done ++ [y]) rest) st₂ := by
      refine ⟨fun m => ?_, hInv₂.nodup, hInv₂.free_dead, hInv₂.shared_dead⟩
      rw [hInv₂.dom_iff m]
      simp only [defs_append, defs_cons, defs_nil, List.mem_append, List.mem_singleton]
      exact or_assoc
    obtain ⟨st', hAlloc, hFinal⟩ := ih (done ++ [y]) st₂ (by simp [hDone]) hInv₂'
      (hKeep₂ o q (by rw [hRegs₁]; exact ho)) hSteer₂
    refine ⟨st', ?_, hFinal⟩
    rw [List.length_append, List.length_singleton] at hAlloc
    have hBirths : (computeLiveIntervals mlmi.seq mlmi.outputs).1.at done.length = [y.dst] := by
      rw [hDone]
      exact births_at
    rw [List.length_cons, allocate, hFreeEq]
    simp only [hBirths, hNewEq, hAlloc]

/-- Some register count and some order of `pop` hand the register of the output
`o` to the temporary `x.dst`, and to no operand defined after it. -/
theorem exists_takeover {mlmi : MLMI} (hWF : mlmi.WellFormed) {o : Nat} {pre post : List HLI}
    {x : HLI} (hSeq : mlmi.seq = pre ++ x :: post) (hoOut : o ∈ mlmi.outputs)
    (hTemp : x.dst ∉ mlmi.outputs) (hRead : o ∈ reads (pre ++ [x])) (hNotRead : o ∉ reads post) :
    ∃ r ord regs, mlmi.inputs.length + mlmi.outputs.length ≤ r ∧
      getRegistersMapping ord mlmi.seq mlmi.loweredInputs mlmi.outputs r mlmi.outputs.length =
        .ok regs ∧
      regs.reg x.dst = r - mlmi.outputs.length + mlmi.outputs.idxOf o ∧
      ∀ z ∈ post, regs.reg z.dst ≠ regs.reg x.dst := by
  -- enough registers for every temporary, so that `pop` always has a choice
  set r := mlmi.inputs.length + mlmi.outputs.length + mlmi.seq.length + 2 with hr
  have hRoom : mlmi.inputs.length + mlmi.outputs.length ≤ r := by omega
  obtain ⟨hPin, hFree, hInv⟩ := allocInit_spec hWF hRoom
  set q := r - mlmi.outputs.length + mlmi.outputs.idxOf o with hq
  have hLenFree : mlmi.seq.length + 2 ≤
      (allocInit mlmi.seq mlmi.inputs mlmi.outputs r mlmi.outputs.length).free.length := by
    rw [hFree, List.length_range']
    omega
  -- before the first instruction nothing is dead, so the register of `o` is held by `o` alone
  have hStart : Steered q o pre x [] mlmi.seq
      (allocInit mlmi.seq mlmi.inputs mlmi.outputs r mlmi.outputs.length) := by
    refine ⟨hLenFree, fun _ => ⟨fun m hm => ?_, fun hDead => absurd hDead.1 (by simp)⟩,
      fun h => absurd h (by simp)⟩
    by_contra hne
    rcases hInv.shared_dead hm (hPin.output o hoOut) hne with h | h
    · exact absurd h.1 (by simp)
    · exact absurd h.1 (by simp)
  obtain ⟨st', hAlloc, hxq, hOnly⟩ := steer_allocate hWF hSeq hTemp hRead hNotRead
    mlmi.seq [] _ rfl hInv (hPin.output o hoOut) hStart
  have hMap : getRegistersMapping (steer q pre.length) mlmi.seq mlmi.loweredInputs mlmi.outputs r
      mlmi.outputs.length = .ok st'.regs := by
    unfold getRegistersMapping
    rw [allocInit_loweredInputs hWF]
    dsimp only
    rw [show (0 : Nat) = ([] : List HLI).length from rfl, hAlloc]
    rfl
  have hxReg : st'.regs.reg x.dst = q := by simp [RegMap.reg, hxq, hq]
  refine ⟨r, steer q pre.length, st'.regs, hRoom, hMap, hxReg, ?_⟩
  intro z hz hzq
  have hzDef : z.dst ∈ defs post := List.mem_map_of_mem hz
  have hzAll : z.dst ∈ defs mlmi.seq := by simp [hSeq, hzDef]
  obtain ⟨-, -, hDom⟩ := getRegistersMapping_sound hWF hRoom hMap
  obtain ⟨k, hk⟩ := Option.isSome_iff_exists.mp ((hDom z.dst).mpr (Or.inr hzAll))
  have hkq : k = q := by
    have hzReg : st'.regs.reg z.dst = k := by simp [RegMap.reg, hk]
    rw [← hzReg, hzq, hxReg]
  subst hkq
  have hSSA : (defs (pre ++ [x]) ++ defs post).Nodup := by
    have := hWF.ssa
    rw [hSeq] at this
    simpa using this
  -- by SSA what is written up to `x` is not written after it
  have hApart : ∀ m ∈ defs (pre ++ [x]), m ≠ z.dst := fun m hm =>
    (List.nodup_append.mp hSSA).2.2 m hm _ hzDef
  rcases hOnly z.dst hk with hzo | hzx
  · -- `o` is read up to `x`, so it is defined before it
    obtain ⟨y, hy, hoy⟩ := List.mem_flatMap.mp hRead
    obtain ⟨a, b, hab⟩ := List.append_of_mem hy
    have hoPre : o ∈ defs a := hWF.def_before_use a y (b ++ post)
      (by rw [hSeq, show pre ++ x :: post = (pre ++ [x]) ++ post by simp, hab]; simp) o hoy
      (hWF.outputs_sub hoOut)
    exact hApart o (by rw [hab]; simp [hoPre]) hzo.symm
  · exact hApart x.dst (by simp) hzx.symm

/-- **When lowering is correct.** A multi-instruction is lowered correctly, for
every register count and every order of `pop`, exactly when no temporary defined
at or after the last read of an output differs from that output. -/
theorem loweringCorrect_iff {mlmi : MLMI} (hWF : mlmi.WellFormed) :
    mlmi.LoweringCorrect ↔ mlmi.OutputsKept := by
  refine ⟨fun hCorrect => ?_, loweringCorrect_of_outputsKept hWF⟩
  intro o hoOut pre x post hSeq hTemp hRead hNotRead σ σ' hRun
  obtain ⟨r, ord, regs, hRoom, hMap, hxReg, hLast⟩ :=
    exists_takeover hWF hSeq hoOut hTemp hRead hNotRead
  obtain ⟨llmi, hLLMI, hOutputs⟩ := hCorrect _ _ r ord regs le_rfl le_rfl hRoom hMap
  rw [mlmiToLLMI_eq hWF hRoom hMap, Except.ok.injEq] at hLLMI
  subst hLLMI
  -- load the inputs, run, and look at the register of `o`
  set ρ : Store Nat := fun i => if h : i < mlmi.inputs.length then σ mlmi.inputs[i] else 0 with hρ
  have hLoad : ∀ i (h : i < mlmi.inputs.length), ρ i = σ mlmi.inputs[i] := by
    intro i h
    simp [hρ, h]
  obtain ⟨ρ₁, hRun₁, hVal₁⟩ := hOutputs σ σ' ρ hLoad hRun
  obtain ⟨ρ₂, hRun₂, hVal₂⟩ := run_lowered hWF hRoom hMap hLoad hRun
  rw [hRun₁, Option.some.injEq] at hRun₂
  subst hRun₂
  have hEnd := hVal₂ pre x post hSeq hLast
  have hOut := hVal₁ (mlmi.outputs.idxOf o) (List.idxOf_lt_length_iff.mpr hoOut)
  rw [List.getElem_idxOf] at hOut
  rw [← hEnd, ← hOut, hxReg]

/-- `o := a + b; x := o ^ a; p := x + x`, with `o` and `p` as outputs: the
temporary `x` is born at the last read of `o`. -/
def takeoverMLMI : MLMI where
  seq := [
    { opcode := .ADD, dst := 2, src1 := some (.loc 0), src2 := some (.loc 1) },
    { opcode := .XOR, dst := 3, src1 := some (.loc 2), src2 := some (.loc 0) },
    { opcode := .ADD, dst := 4, src1 := some (.loc 3), src2 := some (.loc 3) }]
  inputs := [0, 1]
  outputs := [2, 4]

theorem takeoverMLMI_wellFormed : takeoverMLMI.WellFormed where
  ssa := by decide
  def_before_use := defBeforeUse_iff.mpr (by decide)
  inputs_nodup := by decide
  mem_inputs := by
    intro m
    simp [takeoverMLMI, reads, defs, Instr.memInputs, Instr.srcs, Operand.loc?]
    grind
  outputs_nodup := by decide
  outputs_sub := by decide

/-- With four registers, two inputs and two outputs, `pop` may hand the register
of output 2 to the temporary: the secure element then returns 3 instead of 2. -/
theorem takeoverMLMI_clobbered :
    takeoverMLMI.WellFormed ∧ ¬ takeoverMLMI.LoweringCorrect := by
  refine ⟨takeoverMLMI_wellFormed, fun hCorrect => ?_⟩
  set σ : Store Nat := fun _ => 1 with hσ
  obtain ⟨llmi, hLLMI, hOutputs⟩ := hCorrect 2 2 4 (steer 2 1)
    [(3, 2), (4, 3), (2, 2), (1, 1), (0, 0)] (by decide) (by decide) (by decide) (by decide)
  have hEq : llmi.seq = [
      { opcode := .ADD, dst := 2, src1 := some (.loc 0), src2 := some (.loc 1) },
      { opcode := .XOR, dst := 2, src1 := some (.loc 2), src2 := some (.loc 0) },
      { opcode := .ADD, dst := 3, src1 := some (.loc 2), src2 := some (.loc 2) }] := by
    have hEval : mlmiToLLMI (steer 2 1) takeoverMLMI 4 2 = .ok ⟨[
      { opcode := .ADD, dst := 2, src1 := some (.loc 0), src2 := some (.loc 1) },
      { opcode := .XOR, dst := 2, src1 := some (.loc 2), src2 := some (.loc 0) },
      { opcode := .ADD, dst := 3, src1 := some (.loc 2), src2 := some (.loc 2) }],
      [0, 1], [2, 4]⟩ := by decide
    rw [hEval, Except.ok.injEq] at hLLMI
    rw [← hLLMI]
  -- `1 + 1` in both memories, then the register of output 2 is overwritten by `2 ^ 1`
  obtain ⟨ρ', hRun, hVal⟩ := hOutputs σ _ (fun _ => 1) (fun i h => rfl) rfl
  rw [hEq] at hRun
  have hTwo := hVal 0 (by decide)
  rw [← Option.some.inj hRun] at hTwo
  exact absurd hTwo (by decide)

/-- The characterisation at the multi-instruction above. -/
theorem loweringCorrect_takeoverMLMI :
    takeoverMLMI.WellFormed ∧ (takeoverMLMI.LoweringCorrect ↔ takeoverMLMI.OutputsKept) :=
  ⟨takeoverMLMI_wellFormed, loweringCorrect_iff takeoverMLMI_wellFormed⟩

end Obscure
