import Obscure.Lib.Lists
import Obscure.Lowering.RegAlloc
import Obscure.Lowering.Simulation

/-!
# OBSCURE — the allocator against its specification

Relates `getRegistersMapping` to the abstract layer of `Lowering/Simulation.lean`:
whatever `pop` returns, a mapping that is returned is `Sound` for the sequence
with the used inputs and the outputs pinned (`getRegistersMapping_sound`). The
invariant of the scan (`AllocInv`) says that a free register, and a register
held by two operands, only belongs to operands that are dead.
-/

namespace Obscure

open Lib

/-! ## Live intervals -/

theorem mem_markDeaths (idx : Nat) (ms : List Nat) (acc : Events × List Nat) :
    (∀ e, e ∈ (markDeaths idx ms acc).1 ↔
      e ∈ acc.1 ∨ (e.1 = idx ∧ e.2 ∈ ms ∧ e.2 ∉ acc.2)) ∧
    (∀ m, m ∈ (markDeaths idx ms acc).2 ↔ m ∈ acc.2 ∨ m ∈ ms) := by
  induction ms generalizing acc with
  | nil => simp [markDeaths]
  | cons m ms ih =>
    obtain ⟨deaths, dead⟩ := acc
    rw [markDeaths]
    -- a cell that is dead already is not marked again
    split
    · next hDead =>
        obtain ⟨h1, h2⟩ := ih (deaths, dead)
        refine ⟨fun e => ?_, fun x => ?_⟩
        · rw [h1]
          constructor
          · rintro (h | ⟨h, hm, hn⟩)
            · exact Or.inl h
            · exact Or.inr ⟨h, List.mem_cons_of_mem _ hm, hn⟩
          · rintro (h | ⟨h, hm, hn⟩)
            · exact Or.inl h
            · rcases List.mem_cons.mp hm with he | hm
              · exact absurd (he ▸ hDead) hn
              · exact Or.inr ⟨h, hm, hn⟩
        · rw [h2]
          constructor
          · rintro (h | h)
            · exact Or.inl h
            · exact Or.inr (List.mem_cons_of_mem _ h)
          · rintro (h | h)
            · exact Or.inl h
            · rcases List.mem_cons.mp h with rfl | h
              · exact Or.inl hDead
              · exact Or.inr h
    · next hDead =>
        obtain ⟨h1, h2⟩ := ih ((idx, m) :: deaths, m :: dead)
        refine ⟨fun e => ?_, fun x => ?_⟩
        · rw [h1]
          obtain ⟨i, x⟩ := e
          simp only [List.mem_cons, Prod.mk.injEq, not_or]
          by_cases hx : x = m
          · subst hx
            simp [hDead, or_comm]
          · simp [hx]
        · rw [h2]
          simp only [List.mem_cons]
          tauto

/-- The backward scan has seen exactly the operands read so far, and records the
death of an operand at the last instruction that reads it. -/
theorem mem_scanDeaths (idx : Nat) (seq : List HLI) :
    (∀ e, e ∈ (scanDeaths idx seq).1 ↔ ∃ pre x post, seq = pre ++ x :: post ∧
      e.1 = idx + pre.length ∧ e.2 ∈ x.memInputs ∧ e.2 ∉ reads post) ∧
    (∀ m, m ∈ (scanDeaths idx seq).2 ↔ m ∈ reads seq) := by
  induction seq generalizing idx with
  | nil => simp [scanDeaths]
  | cons i rest ih =>
    obtain ⟨ih1, ih2⟩ := ih (idx + 1)
    obtain ⟨h1, h2⟩ := mem_markDeaths idx i.memInputs (scanDeaths (idx + 1) rest)
    refine ⟨fun e => ?_, fun m => ?_⟩
    · rw [scanDeaths, h1, ih1]
      constructor
      · rintro (⟨pre, x, post, rfl, he, hm, hn⟩ | ⟨he, hm, hn⟩)
        · exact ⟨i :: pre, x, post, rfl, by rw [he, List.length_cons]; omega, hm, hn⟩
        · exact ⟨[], i, rest, rfl, by simpa using he, hm, fun h => hn ((ih2 _).mpr h)⟩
      · rintro ⟨pre, x, post, hSeq, he, hm, hn⟩
        cases pre with
        | nil =>
          rw [List.nil_append, List.cons.injEq] at hSeq
          obtain ⟨rfl, rfl⟩ := hSeq
          exact Or.inr ⟨by simpa using he, hm, fun h => hn ((ih2 _).mp h)⟩
        | cons p pre =>
          rw [List.cons_append, List.cons.injEq] at hSeq
          obtain ⟨rfl, rfl⟩ := hSeq
          exact Or.inl ⟨pre, x, post, rfl, by rw [he, List.length_cons]; omega, hm, hn⟩
    · rw [scanDeaths, h2, ih2, reads_cons, List.mem_append, or_comm]

/-- The deaths at the instruction after `pre`: its operands that no later
instruction reads. -/
theorem mem_deaths_at {pre post : List HLI} {x : HLI} {outputs : List Nat} {m : Nat} :
    m ∈ (computeLiveIntervals (pre ++ x :: post) outputs).2.at pre.length ↔
      m ∈ x.memInputs ∧ m ∉ reads post := by
  simp only [Events.at, computeLiveIntervals, List.mem_map, List.mem_filter, List.mem_append,
    decide_eq_true_eq]
  constructor
  · rintro ⟨e, ⟨h | h, he⟩, rfl⟩
    · -- the outputs are recorded past the end
      obtain ⟨o, -, rfl⟩ := h
      simp only [List.length_append, List.length_cons] at he
      omega
    · obtain ⟨pre', x', post', hSeq, he', hm, hn⟩ := ((mem_scanDeaths 0 _).1 e).mp h
      have hLen : pre.length = pre'.length := by omega
      obtain ⟨-, hTail⟩ := List.append_inj hSeq hLen
      rw [List.cons.injEq] at hTail
      exact ⟨hTail.1 ▸ hm, hTail.2 ▸ hn⟩
  · rintro ⟨hm, hn⟩
    exact ⟨(pre.length, m), ⟨Or.inr (((mem_scanDeaths 0 _).1 _).mpr
      ⟨pre, x, post, rfl, by simp, hm, hn⟩), rfl⟩, rfl⟩

theorem births_at {pre post : List HLI} {x : HLI} {outputs : List Nat} :
    (computeLiveIntervals (pre ++ x :: post) outputs).1.at pre.length = [x.dst] := by
  have hGen : ∀ (idx : Nat) (seq : List HLI) (j : Nat),
      ((scanBirths idx seq).at (idx + j)) = (seq[j]?.map Instr.dst).toList := by
    intro idx seq
    induction seq generalizing idx with
    | nil => simp [scanBirths, Events.at]
    | cons i rest ih =>
      intro j
      cases j with
      | zero =>
        have hLater : (scanBirths (idx + 1) rest).at idx = [] := by
          have hIdx : ∀ e ∈ scanBirths (idx + 1) rest, idx + 1 ≤ e.1 := by
            clear ih
            generalize idx + 1 = k
            induction rest generalizing k with
            | nil => simp [scanBirths]
            | cons y ys ih =>
              intro e he
              rcases List.mem_cons.mp he with rfl | he
              · exact le_rfl
              · exact Nat.le_of_succ_le (ih (k + 1) e he)
          simp only [Events.at, List.map_eq_nil_iff, List.filter_eq_nil_iff, decide_eq_true_eq]
          intro e he heq
          have := hIdx e he
          omega
        simpa [scanBirths, Events.at] using hLater
      | succ j =>
        have hj := ih (idx + 1) j
        rw [show idx + 1 + j = idx + (j + 1) by omega] at hj
        simp only [scanBirths, Events.at, List.getElem?_cons_succ] at hj ⊢
        rw [List.filter_cons_of_neg (by simp), hj]
  have := hGen 0 (pre ++ x :: post) pre.length
  simpa [computeLiveIntervals] using this

/-! ## The invariant of the scan -/

/-- Between `done` and `rest`, the operand has been read for the last time. -/
def Dead (done rest : List HLI) (m : Nat) : Prop := m ∈ reads done ∧ m ∉ reads rest

theorem Dead.step {done rest : List HLI} {x : HLI} {m : Nat} (h : Dead done (x :: rest) m) :
    Dead (done ++ [x]) rest m := by
  obtain ⟨hDone, hRest⟩ := h
  rw [reads_cons, List.mem_append, not_or] at hRest
  exact ⟨by simp [hDone], hRest.2⟩

/-- Exactly the operands of `dom` have a register; a free register and a
register held twice belong to dead operands. -/
structure AllocInv (dom dead : Nat → Prop) (st : AllocState) : Prop where
  dom_iff : ∀ m, (st.regs.lookup m).isSome ↔ dom m
  nodup : st.free.Nodup
  free_dead : ∀ {m r}, st.regs.lookup m = some r → r ∈ st.free → dead m
  shared_dead : ∀ {m m' r}, st.regs.lookup m = some r → st.regs.lookup m' = some r →
    m ≠ m' → dead m ∨ dead m'

theorem freeRegisters_spec {ms : List Nat} {st st' : AllocState}
    (h : freeRegisters ms st = .ok st') :
    st'.regs = st.regs ∧ (st.free.Nodup → st'.free.Nodup) ∧
      ∀ r, r ∈ st'.free ↔ r ∈ st.free ∨ ∃ m ∈ ms, st.regs.lookup m = some r := by
  induction ms generalizing st with
  | nil =>
    rw [freeRegisters, Except.ok.injEq] at h
    subst h
    simp
  | cons m ms ih =>
    rw [freeRegisters] at h
    split at h
    · exact absurd h (by simp)
    · next r hr =>
        obtain ⟨hRegs, hNodup, hFree⟩ := ih h
        refine ⟨hRegs, fun hn => hNodup (hn.insert), fun q => ?_⟩
        rw [hFree]
        simp only [List.mem_insert_iff, List.mem_cons, exists_eq_or_imp]
        have hq : st.regs.lookup m = some q ↔ q = r := by
          rw [hr, Option.some.injEq, eq_comm]
        rw [hq]
        tauto

/-- Freeing the registers of operands that die now keeps the invariant. -/
theorem AllocInv.freeRegisters {dom dead dead' : Nat → Prop} {ms : List Nat}
    {st st' : AllocState} (hInv : AllocInv dom dead st) (h : freeRegisters ms st = .ok st')
    (hMono : ∀ m, dead m → dead' m) (hDying : ∀ m ∈ ms, ¬ dead m ∧ dead' m) :
    AllocInv dom dead' st' := by
  obtain ⟨hRegs, hNodup, hFree⟩ := freeRegisters_spec h
  refine ⟨fun m => by rw [hRegs]; exact hInv.dom_iff m, hNodup hInv.nodup, ?_, ?_⟩
  · intro m r hm hr
    rw [hRegs] at hm
    rcases (hFree r).mp hr with hOld | ⟨m₀, hm₀, hr₀⟩
    · exact hMono m (hInv.free_dead hm hOld)
    · -- `r` was freed just now, for `m₀`: any other holder was dead already
      by_cases he : m = m₀
      · exact he ▸ (hDying m₀ hm₀).2
      · exact hMono m ((hInv.shared_dead hm hr₀ he).resolve_right (hDying m₀ hm₀).1)
  · intro m m' r hm hm' hne
    rw [hRegs] at hm hm'
    exact (hInv.shared_dead hm hm' hne).imp (hMono m) (hMono m')

/-- Freeing the registers of operands that have one does not fail. -/
theorem freeRegisters_ok {ms : List Nat} (st : AllocState)
    (h : ∀ m ∈ ms, (st.regs.lookup m).isSome) :
    ∃ st', freeRegisters ms st = .ok st' ∧ st.free.length ≤ st'.free.length := by
  induction ms generalizing st with
  | nil => exact ⟨st, rfl, le_rfl⟩
  | cons m ms ih =>
    obtain ⟨r, hr⟩ := Option.isSome_iff_exists.mp (h m List.mem_cons_self)
    obtain ⟨st', hst', hLen⟩ := ih { st with free := st.free.insert r }
      fun m' hm' => h m' (List.mem_cons_of_mem _ hm')
    refine ⟨st', by simp only [freeRegisters, hr, hst'], le_trans ?_ hLen⟩
    exact List.length_le_length_insert

/-- The state after giving the newborn operand `d` a register. -/
theorem allocateNew_spec {ord : SetOrder Nat} {t : Nat} {d : Nat} {st st' : AllocState}
    (h : allocateNew ord t [d] st = .ok st') :
    ((st.regs.lookup d).isSome ∧ st' = st) ∨
    (st.regs.lookup d = none ∧ ∃ r free, ord.pop t st.free = some (r, free) ∧
      st' = { regs := (d, r) :: st.regs, free := free }) := by
  rw [allocateNew] at h
  split at h
  · next r hr =>
      rw [allocateNew, Except.ok.injEq] at h
      exact Or.inl ⟨by simp [hr], h.symm⟩
  · next hNone =>
      split at h
      · exact absurd h (by simp)
      · next r free hPop =>
          rw [allocateNew, Except.ok.injEq] at h
          exact Or.inr ⟨hNone, r, free, hPop, h.symm⟩

/-- A newborn operand is alive, and the register it gets had no living holder. -/
theorem AllocInv.allocateNew {dom dead : Nat → Prop} {ord : SetOrder Nat} {t : Nat} {d : Nat}
    {st st' : AllocState} (hInv : AllocInv dom dead st) (h : allocateNew ord t [d] st = .ok st')
    (hAlive : ¬ dead d) :
    AllocInv (fun m => dom m ∨ m = d) dead st' ∧
      (∀ m r, st.regs.lookup m = some r → st'.regs.lookup m = some r) := by
  rcases allocateNew_spec h with ⟨hSome, rfl⟩ | ⟨hNone, r, free, hPop, rfl⟩
  · refine ⟨⟨fun m => ?_, hInv.nodup, hInv.free_dead, hInv.shared_dead⟩, fun m r hm => hm⟩
    rw [hInv.dom_iff m]
    constructor
    · exact Or.inl
    · rintro (hm | rfl)
      · exact hm
      · exact (hInv.dom_iff m).mp hSome
  · have hPerm := SetOrder.pop_perm hPop
    have hNodup : (r :: free).Nodup := hPerm.nodup_iff.mpr hInv.nodup
    have hFree : ∀ q, q ∈ free → q ∈ st.free := fun q hq =>
      hPerm.mem_iff.mp (List.mem_cons_of_mem _ hq)
    have hr : r ∈ st.free := hPerm.mem_iff.mp List.mem_cons_self
    -- `d` was not bound, so the old bindings are untouched
    have hOld : ∀ m, m ≠ d → List.lookup m ((d, r) :: st.regs) = st.regs.lookup m := by
      intro m hm
      rw [lookup_cons_ite, if_neg hm]
    have hSelf : List.lookup d ((d, r) :: st.regs) = some r := by
      rw [lookup_cons_ite, if_pos rfl]
    refine ⟨⟨fun m => ?_, (List.nodup_cons.mp hNodup).2, ?_, ?_⟩, ?_⟩
    · by_cases hm : m = d
      · subst hm
        simp [hSelf]
      · show (List.lookup m ((d, r) :: st.regs)).isSome ↔ _
        rw [hOld m hm, hInv.dom_iff m]
        simp [hm]
    · intro m q hm hq
      by_cases he : m = d
      · rw [he, hSelf, Option.some.injEq] at hm
        exact absurd (hm ▸ hq) (List.nodup_cons.mp hNodup).1
      · rw [hOld m he] at hm
        exact hInv.free_dead hm (hFree q hq)
    · intro m m' q hm hm' hne
      by_cases he : m = d
      · rw [he, hSelf, Option.some.injEq] at hm
        rw [hOld m' (fun h => hne (he.trans h.symm))] at hm'
        exact Or.inr (hInv.free_dead hm' (hm ▸ hr))
      · rw [hOld m he] at hm
        by_cases he' : m' = d
        · rw [he', hSelf, Option.some.injEq] at hm'
          exact Or.inl (hInv.free_dead hm (hm' ▸ hr))
        · rw [hOld m' he'] at hm'
          exact hInv.shared_dead hm hm' hne
    · intro m q hm
      show List.lookup m ((d, r) :: st.regs) = some q
      rw [hOld m, hm]
      rintro rfl
      rw [hNone] at hm
      exact absurd hm (by simp)

/-! ## The main loop -/

/-- An operand is not read up to and including its own definition. -/
theorem not_read_before_def {seq pre post : List HLI} {x : HLI} (hSSA : (defs seq).Nodup)
    (hUse : DefBeforeUse seq) (hSeq : seq = pre ++ x :: post) : x.dst ∉ reads (pre ++ [x]) := by
  have hFresh : x.dst ∉ defs pre := by
    rw [hSeq, defs_append, defs_cons] at hSSA
    exact fun h => (List.nodup_append.mp hSSA).2.2 _ h _ List.mem_cons_self rfl
  have hDef : x.dst ∈ defs seq := by simp [hSeq]
  intro hRead
  simp only [reads_append, reads_cons, reads_nil, List.append_nil, List.mem_append] at hRead
  rcases hRead with hPre | hSelf
  · obtain ⟨y, hy, hm⟩ := List.mem_flatMap.mp hPre
    obtain ⟨a, b, rfl⟩ := List.append_of_mem hy
    exact hFresh (by simp [hUse a y (b ++ x :: post) (by simp [hSeq]) _ hm hDef])
  · exact hFresh (hUse pre x post hSeq _ hSelf hDef)

/-- What the loop over `rest` guarantees, from a state that satisfies the
invariant after `done`. -/
theorem allocate_spec {ord : SetOrder Nat} {seq : List HLI} {outputs pinned : List Nat}
    (hSSA : (defs seq).Nodup) (hUse : DefBeforeUse seq) :
    ∀ (rest done : List HLI) {st st' : AllocState}, seq = done ++ rest →
      AllocInv (fun m => m ∈ pinned ∨ m ∈ defs done) (Dead done rest) st →
      allocate ord (computeLiveIntervals seq outputs).1 (computeLiveIntervals seq outputs).2
        done.length rest.length st = .ok st' →
      (∀ m r, st.regs.lookup m = some r → st'.regs.lookup m = some r) ∧
      (∀ m, (st'.regs.lookup m).isSome ↔ m ∈ pinned ∨ m ∈ defs seq) ∧
      (∀ pre x post, rest = pre ++ x :: post → ∀ m, m ∈ pinned ∨ m ∈ defs (done ++ pre) →
        m ≠ x.dst → st'.regs.lookup m = st'.regs.lookup x.dst →
        Dead (done ++ pre ++ [x]) post m) := by
  intro rest
  induction rest with
  | nil =>
    intro done st st' hSeq hInv h
    rw [List.length_nil, allocate, Except.ok.injEq] at h
    subst h
    rw [List.append_nil] at hSeq
    refine ⟨fun m r hm => hm, fun m => by rw [hInv.dom_iff m, hSeq], ?_⟩
    intro pre x post hNil
    exact absurd hNil (by simp)
  | cons x rest ih =>
    intro done st st' hSeq hInv h
    rw [List.length_cons, allocate] at h
    split at h
    · exact absurd h (by simp)
    · next st₁ hFreeEq =>
      split at h
      · exact absurd h (by simp)
      · next st₂ hNewEq =>
        rw [hSeq, births_at] at hNewEq
        -- the operands that die at `x` are alive before it
        have hInv₁ : AllocInv (fun m => m ∈ pinned ∨ m ∈ defs done)
            (Dead (done ++ [x]) rest) st₁ := by
          refine hInv.freeRegisters hFreeEq (fun m hm => hm.step) fun m hm => ?_
          rw [hSeq, mem_deaths_at] at hm
          refine ⟨fun hDead => hDead.2 (by simp [hm.1]), by simp [hm.1], hm.2⟩
        have hAlive : ¬ Dead (done ++ [x]) rest x.dst := fun hDead =>
          not_read_before_def hSSA hUse hSeq hDead.1
        obtain ⟨hInv₂, hKeep₂⟩ := hInv₁.allocateNew hNewEq hAlive
        have hRegs₁ := (freeRegisters_spec hFreeEq).1
        have hInv₂' : AllocInv (fun m => m ∈ pinned ∨ m ∈ defs (done ++ [x]))
            (Dead (done ++ [x]) rest) st₂ := by
          refine ⟨fun m => ?_, hInv₂.nodup, hInv₂.free_dead, hInv₂.shared_dead⟩
          rw [hInv₂.dom_iff m]
          simp [or_assoc]
        have hLen : done.length + 1 = (done ++ [x]).length := by simp
        rw [hLen] at h
        obtain ⟨hKeep, hDom, hClash⟩ := ih (done ++ [x]) (by simp [hSeq]) hInv₂' h
        refine ⟨fun m r hm => hKeep m r (hKeep₂ m r (by rw [hRegs₁]; exact hm)), hDom, ?_⟩
        intro pre y post hSplit m hm hne hEq
        cases pre with
        | nil =>
          -- the clash is at `x`: both cells are bound in `st₂`, and `x.dst` is alive
          rw [List.nil_append, List.cons.injEq] at hSplit
          obtain ⟨rfl, rfl⟩ := hSplit
          rw [List.append_nil] at hm ⊢
          obtain ⟨r, hr⟩ := Option.isSome_iff_exists.mp ((hInv₂.dom_iff m).mpr (Or.inl hm))
          obtain ⟨q, hq⟩ := Option.isSome_iff_exists.mp ((hInv₂.dom_iff x.dst).mpr (Or.inr rfl))
          rw [hKeep m r hr, hKeep x.dst q hq, Option.some.injEq] at hEq
          subst hEq
          exact (hInv₂.shared_dead hr hq hne).resolve_right hAlive
        | cons p pre =>
          rw [List.cons_append, List.cons.injEq] at hSplit
          obtain ⟨rfl, rfl⟩ := hSplit
          have := hClash pre y post rfl m (by simpa [or_assoc] using hm) hne hEq
          simpa using this

/-! ## The pinned operands -/

theorem lookup_mapInputs (used : List Nat) (ins : List Nat) (idx : Nat) (regs : RegMap)
    (m : Nat) :
    (mapInputs used idx ins regs).lookup m =
      match regs.lookup m with
      | some r => some r
      | none => if m ∈ used ∧ m ∈ ins then some (idx + ins.idxOf m) else none := by
  induction ins generalizing idx regs with
  | nil =>
    cases h : regs.lookup m <;> simp [mapInputs, h]
  | cons i ins ih =>
    rw [mapInputs]
    by_cases hi : m = i
    · subst hi
      split
      · next hc =>
          rw [ih, lookup_cons_ite, if_pos rfl]
          have hNone : regs.lookup m = none := by simpa using hc.2
          simp [hNone, hc.1]
      · next hc =>
          rw [ih]
          cases h : regs.lookup m with
          | some r => rfl
          | none =>
            have hUsed : m ∉ used := fun hu => hc ⟨hu, by simp [h]⟩
            simp [hUsed]
    · have hb : (i == m) = false := by simpa using fun h => hi (Eq.symm h)
      have hIdx : (i :: ins).idxOf m = ins.idxOf m + 1 := by
        rw [List.idxOf_cons, hb]
        rfl
      have hMem : m ∈ i :: ins ↔ m ∈ ins := by simp [hi]
      have hAdd : idx + 1 + ins.idxOf m = idx + (ins.idxOf m + 1) := by omega
      split
      · rw [ih, lookup_cons_ite, if_neg hi, hIdx]
        simp only [hMem, hAdd]
      · rw [ih, hIdx]
        simp only [hMem, hAdd]

theorem length_mapInputs {used : List Nat} {ins : List Nat} (idx : Nat) (regs : RegMap)
    (hUsed : ∀ m ∈ ins, m ∈ used) (hNodup : ins.Nodup)
    (hNew : ∀ m ∈ ins, regs.lookup m = none) :
    (mapInputs used idx ins regs).length = regs.length + ins.length := by
  induction ins generalizing idx regs with
  | nil => rfl
  | cons i ins ih =>
    have hi := hNew i List.mem_cons_self
    rw [mapInputs, if_pos ⟨hUsed i List.mem_cons_self, by simp [hi]⟩]
    rw [ih (idx + 1) _ (fun m hm => hUsed m (List.mem_cons_of_mem _ hm)) hNodup.of_cons]
    · simp only [List.length_cons]
      omega
    · intro m hm
      have hne : m ≠ i := fun h => (List.nodup_cons.mp hNodup).1 (h ▸ hm)
      rw [lookup_cons_ite, if_neg hne]
      exact hNew m (List.mem_cons_of_mem _ hm)

theorem lookup_mapOutputs {outs : List Nat} (first : Nat) (regs : RegMap) (hNodup : outs.Nodup)
    (m : Nat) :
    (mapOutputs first outs regs).lookup m =
      if m ∈ outs then some (first + outs.idxOf m) else regs.lookup m := by
  induction outs generalizing first regs with
  | nil => simp [mapOutputs]
  | cons o outs ih =>
    rw [mapOutputs, ih (first + 1) _ hNodup.of_cons, lookup_cons_ite]
    by_cases ho : m = o
    · subst ho
      simp [(List.nodup_cons.mp hNodup).1]
    · have hb : (o == m) = false := by simpa using fun h => ho (Eq.symm h)
      have hIdx : (o :: outs).idxOf m = outs.idxOf m + 1 := by
        rw [List.idxOf_cons, hb]
        rfl
      have hMem : m ∈ o :: outs ↔ m ∈ outs := by simp [ho]
      have hAdd : first + 1 + outs.idxOf m = first + (outs.idxOf m + 1) := by omega
      rw [if_neg ho, hIdx]
      simp only [hMem, hAdd]

/-! ## Soundness of the mapping -/

/-- The shape of a multi-instruction the allocator is meant for: a sequence in
SSA and definition order, whose inputs are the operands it reads without
defining them and whose outputs are among those it defines. -/
structure MLMI.WellFormed (mlmi : MLMI) : Prop where
  ssa : (defs mlmi.seq).Nodup
  def_before_use : DefBeforeUse mlmi.seq
  inputs_nodup : mlmi.inputs.Nodup
  mem_inputs : ∀ m, m ∈ mlmi.inputs ↔ m ∈ reads mlmi.seq ∧ m ∉ defs mlmi.seq
  outputs_nodup : mlmi.outputs.Nodup
  outputs_sub : mlmi.outputs ⊆ defs mlmi.seq

/-- The state the scan starts from, on the inputs themselves: the dummy input of
an input-free multi-instruction is never used and gets no register. -/
theorem allocInit_loweredInputs {mlmi : MLMI} (hWF : mlmi.WellFormed) (k maxOut : Nat) :
    allocInit mlmi.seq mlmi.loweredInputs mlmi.outputs k maxOut =
      allocInit mlmi.seq mlmi.inputs mlmi.outputs k maxOut := by
  unfold MLMI.loweredInputs
  split
  · next hNil =>
      have hUsed : (0 : Nat) ∉ getUsed mlmi.seq := by
        intro h
        have h' : (0 : Nat) ∈ reads mlmi.seq ∧ 0 ∉ defs mlmi.seq := by
          simpa [getUsed] using h
        have := (hWF.mem_inputs 0).mpr h'
        rw [hNil] at this
        exact absurd this (by simp)
      simp [allocInit, mapInputs, hNil, hUsed]
  · rfl

/-- Inputs start in the first registers and outputs end in the last ones. -/
structure Pinned (mlmi : MLMI) (first : Nat) (regs : RegMap) : Prop where
  input : ∀ m ∈ mlmi.inputs, regs.lookup m = some (mlmi.inputs.idxOf m)
  output : ∀ m ∈ mlmi.outputs, regs.lookup m = some (first + mlmi.outputs.idxOf m)

theorem allocInit_spec {mlmi : MLMI} (hWF : mlmi.WellFormed) {k maxOut : Nat}
    (hRoom : mlmi.inputs.length + maxOut ≤ k) :
    Pinned mlmi (k - maxOut) (allocInit mlmi.seq mlmi.inputs mlmi.outputs k maxOut).regs ∧
    (allocInit mlmi.seq mlmi.inputs mlmi.outputs k maxOut).free =
      List.range' mlmi.inputs.length (k - maxOut - mlmi.inputs.length) ∧
    AllocInv (fun m => m ∈ mlmi.inputs ++ mlmi.outputs ∨ m ∈ defs ([] : List HLI))
      (Dead [] mlmi.seq) (allocInit mlmi.seq mlmi.inputs mlmi.outputs k maxOut) := by
  have hUsed : ∀ m ∈ mlmi.inputs, m ∈ getUsed mlmi.seq := by
    intro m hm
    simpa [getUsed] using (hWF.mem_inputs m).mp hm
  have hDisj : ∀ m ∈ mlmi.inputs, m ∉ mlmi.outputs := fun m hm ho =>
    ((hWF.mem_inputs m).mp hm).2 (hWF.outputs_sub ho)
  have hLen : (mapInputs (getUsed mlmi.seq) 0 mlmi.inputs []).length = mlmi.inputs.length := by
    simpa using length_mapInputs 0 [] hUsed hWF.inputs_nodup (by simp)
  -- the complete initial mapping
  have hLookup : ∀ m, (allocInit mlmi.seq mlmi.inputs mlmi.outputs k maxOut).regs.lookup m =
      if m ∈ mlmi.outputs then some (k - maxOut + mlmi.outputs.idxOf m)
      else if m ∈ mlmi.inputs then some (mlmi.inputs.idxOf m) else none := by
    intro m
    rw [allocInit, lookup_mapOutputs _ _ hWF.outputs_nodup, lookup_mapInputs]
    by_cases hm : m ∈ mlmi.inputs
    · simp [hm, hUsed m hm]
    · simp [hm]
  have hFree : (allocInit mlmi.seq mlmi.inputs mlmi.outputs k maxOut).free =
      List.range' mlmi.inputs.length (k - maxOut - mlmi.inputs.length) := by
    rw [allocInit, hLen]
  -- a register says which operand it was pinned for
  have hHolder : ∀ {m : Nat} {r : Nat},
      (allocInit mlmi.seq mlmi.inputs mlmi.outputs k maxOut).regs.lookup m = some r →
        (m ∈ mlmi.outputs ∧ r = k - maxOut + mlmi.outputs.idxOf m) ∨
        (m ∈ mlmi.inputs ∧ r = mlmi.inputs.idxOf m ∧ r < mlmi.inputs.length) := by
    intro m r h
    rw [hLookup] at h
    split at h
    · next ho => exact Or.inl ⟨ho, (Option.some.inj h).symm⟩
    · split at h
      · next hi =>
          have hr := (Option.some.inj h).symm
          exact Or.inr ⟨hi, hr, hr ▸ List.idxOf_lt_length_iff.mpr hi⟩
      · exact absurd h (by simp)
  refine ⟨⟨fun m hm => ?_, fun m hm => ?_⟩, hFree, fun m => ?_, ?_, ?_, ?_⟩
  · rw [hLookup, if_neg (hDisj m hm), if_pos hm]
  · rw [hLookup, if_pos hm]
  · rw [hLookup]
    by_cases ho : m ∈ mlmi.outputs
    · simp [ho]
    · by_cases hi : m ∈ mlmi.inputs
      · simp [ho, hi]
      · simp [ho, hi]
  · rw [hFree]
    exact List.nodup_range'
  · intro m r hm hr
    rw [hFree, List.mem_range'_1] at hr
    rcases hHolder hm with ⟨-, h⟩ | ⟨-, -, h⟩
    · omega
    · omega
  · intro m m' r hm hm' hne
    exfalso
    rcases hHolder hm with ⟨ho, h⟩ | ⟨hi, h, hlt⟩
    · rcases hHolder hm' with ⟨ho', h'⟩ | ⟨hi', h', hlt'⟩
      · exact hne ((List.idxOf_inj ho).mp (by omega))
      · omega
    · rcases hHolder hm' with ⟨ho', h'⟩ | ⟨hi', h', hlt'⟩
      · omega
      · exact hne ((List.idxOf_inj hi).mp (by omega))

/-- **The mapping is sound.** Whatever `pop` returns, a mapping that is returned
covers the sequence, pins inputs and outputs, and only reuses the register of an
operand that has been read for the last time. -/
theorem getRegistersMapping_sound {mlmi : MLMI} (hWF : mlmi.WellFormed) {k maxOut : Nat}
    (hRoom : mlmi.inputs.length + maxOut ≤ k) {ord : SetOrder Nat} {regs : RegMap}
    (h : getRegistersMapping ord mlmi.seq mlmi.loweredInputs mlmi.outputs k maxOut = .ok regs) :
    Sound mlmi.seq (mlmi.inputs ++ mlmi.outputs) regs.reg ∧ Pinned mlmi (k - maxOut) regs ∧
      ∀ m, (regs.lookup m).isSome ↔ m ∈ mlmi.inputs ++ mlmi.outputs ∨ m ∈ defs mlmi.seq := by
  unfold getRegistersMapping at h
  rw [allocInit_loweredInputs hWF] at h
  obtain ⟨hPin, -, hInv⟩ := allocInit_spec hWF hRoom
  dsimp only at h
  cases hAlloc : allocate ord (computeLiveIntervals mlmi.seq mlmi.outputs).1
      (computeLiveIntervals mlmi.seq mlmi.outputs).2 0 mlmi.seq.length
      (allocInit mlmi.seq mlmi.inputs mlmi.outputs k maxOut) with
  | error e =>
    rw [hAlloc] at h
    exact absurd h (by simp [Except.map])
  | ok st =>
    rw [hAlloc, Except.map, Except.ok.injEq] at h
    subst h
    obtain ⟨hKeep, hDom, hClash⟩ :=
      allocate_spec hWF.ssa hWF.def_before_use mlmi.seq [] rfl hInv hAlloc
    refine ⟨?_, ⟨fun m hm => hKeep m _ (hPin.input m hm), fun m hm =>
      hKeep m _ (hPin.output m hm)⟩, hDom⟩
    intro pre x post hSeq m hm hne hEq
    have hBound : ∀ c, c ∈ mlmi.inputs ++ mlmi.outputs ∨ c ∈ defs mlmi.seq →
        st.regs.lookup c = some (st.regs.reg c) := by
      intro c hc
      obtain ⟨r, hr⟩ := Option.isSome_iff_exists.mp ((hDom c).mpr hc)
      simp [RegMap.reg, hr]
    have hmDef : m ∈ mlmi.inputs ++ mlmi.outputs ∨ m ∈ defs mlmi.seq :=
      hm.imp_right fun h => by simp [hSeq, h]
    have hxDef : x.dst ∈ defs mlmi.seq := by simp [hSeq]
    have := hClash pre x post hSeq m (by simpa using hm) hne
      (by rw [hBound m hmDef, hBound x.dst (Or.inr hxDef), hEq])
    simpa [Dead] using this

end Obscure
