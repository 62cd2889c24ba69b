import Obscure.IR

/-!
# OBSCURE — what a register assignment has to guarantee

The abstract side of register allocation. `Sound seq pinned reg` says what an
assignment `reg` of registers to cells owes to a sequence: when an instruction
writes a register that another operand already holds, that operand has been read
for the last time. The pinned operands hold their register from the start.

From that alone the renamed sequence simulates the original one
(`sound_simulates`): the register of every available operand holds the value of
the operand, until a later instruction takes the register over (`Clobbered`).
The allocator is related to this layer in `Lowering/Correct.lean`.
-/

namespace Obscure

variable {α β : Type}

/-- A register assignment that only reuses a register once the operand holding
it has been read for the last time. -/
def Sound (seq : List (Instr α)) (pinned : List α) (reg : α → β) : Prop :=
  ∀ pre x post, seq = pre ++ x :: post → ∀ m, m ∈ pinned ∨ m ∈ defs pre → m ≠ x.dst →
    reg m = reg x.dst → m ∈ reads (pre ++ [x]) ∧ m ∉ reads post

/-- After `done`, the register of `m` has been written for another operand since
`m` became available. -/
def Clobbered (done : List (Instr α)) (pinned : List α) (reg : α → β) (m : α) : Prop :=
  ∃ pre x post, done = pre ++ x :: post ∧ (m ∈ pinned ∨ m ∈ defs pre) ∧ m ≠ x.dst ∧
    reg m = reg x.dst

theorem Clobbered.append {done more : List (Instr α)} {pinned : List α} {reg : α → β} {m : α}
    (h : Clobbered done pinned reg m) : Clobbered (done ++ more) pinned reg m := by
  obtain ⟨pre, x, post, rfl, hm, hne, hreg⟩ := h
  exact ⟨pre, x, post ++ more, by simp, hm, hne, hreg⟩

theorem Sound.mono {seq : List (Instr α)} {pinned pinned' : List α} {reg : α → β}
    (h : Sound seq pinned reg) (hSub : pinned' ⊆ pinned) : Sound seq pinned' reg :=
  fun pre x post hSeq m hm => h pre x post hSeq m (hm.imp_left fun h => hSub h)

/-- Under a sound assignment a clobbered operand is not read again. -/
theorem Sound.not_read_again {done rest : List (Instr α)} {pinned : List α} {reg : α → β} {m : α}
    (hSound : Sound (done ++ rest) pinned reg) (h : Clobbered done pinned reg m) :
    m ∉ reads rest := by
  obtain ⟨pre, x, post, rfl, hm, hne, hreg⟩ := h
  have hLast := (hSound pre x (post ++ rest) (by simp) m hm hne hreg).2
  simp only [reads_append, List.mem_append, not_or] at hLast
  exact hLast.2

variable [DecidableEq α] [DecidableEq β]

/-- The register of every available operand that was not clobbered holds its
value. -/
def Agrees (done : List (Instr α)) (inputs : List α) (reg : α → β) (st : Store α)
    (st' : Store β) : Prop :=
  ∀ m, m ∈ inputs ∨ m ∈ defs done → ¬ Clobbered done inputs reg m → st' (reg m) = st m

/-- One instruction keeps the agreement. -/
theorem agrees_step {done post : List (Instr α)} {x : Instr α} {inputs : List α} {reg : α → β}
    (hSound : Sound (done ++ x :: post) inputs reg)
    (hAvail : ∀ m ∈ x.memInputs, m ∈ inputs ∨ m ∈ defs done)
    {st st₁ : Store α} {st' : Store β} (hAgree : Agrees done inputs reg st st')
    (hExec : x.exec st = some st₁) :
    ∃ st₁', (x.rename reg reg).exec st' = some st₁' ∧ Agrees (done ++ [x]) inputs reg st₁ st₁' := by
  obtain ⟨w, hw, rfl⟩ := Instr.exec_eq_some.mp hExec
  -- what the instruction reads has not been clobbered, so both sides compute `w`
  have hRead : ∀ m ∈ x.memInputs, st' (reg m) = st m := by
    intro m hm
    refine hAgree m (hAvail m hm) fun hClob => ?_
    exact hSound.not_read_again hClob (by simp [hm])
  refine ⟨Function.update st' (reg x.dst) w, ?_, ?_⟩
  · rw [Instr.exec_eq_some]
    exact ⟨w, by rw [Instr.result_rename hRead, hw], rfl⟩
  · intro m hm hClob
    by_cases hd : m = x.dst
    · rw [hd, Function.update_self, Function.update_self]
    · have hm' : m ∈ inputs ∨ m ∈ defs done := by
        simpa [hd, or_assoc] using hm
      have hreg : reg m ≠ reg x.dst := fun he => hClob ⟨done, x, [], rfl, hm', hd, he⟩
      rw [Function.update_of_ne hreg, Function.update_of_ne hd]
      exact hAgree m hm' fun h => hClob h.append

/-- **Simulation.** Under a sound assignment the renamed sequence runs whenever
the original does, and ends in agreement with it. -/
theorem sound_simulates {inputs : List α} {reg : α → β} :
    ∀ (rest done : List (Instr α)), Sound (done ++ rest) inputs reg →
    (∀ pre x post, done ++ rest = pre ++ x :: post →
      ∀ m ∈ x.memInputs, m ∈ inputs ∨ m ∈ defs pre) →
    ∀ {st st₁ : Store α} {st' : Store β}, Agrees done inputs reg st st' →
      run rest st = some st₁ →
      ∃ st₁', run (rest.map (Instr.rename reg reg)) st' = some st₁' ∧
        Agrees (done ++ rest) inputs reg st₁ st₁' := by
  intro rest
  induction rest with
  | nil =>
    intro done _ _ st st₁ st' hAgree hRun
    rw [run, Option.some.injEq] at hRun
    subst hRun
    exact ⟨st', rfl, by simpa using hAgree⟩
  | cons x post ih =>
    intro done hSound hAvail st st₁ st' hAgree hRun
    obtain ⟨mid, hExec, hRest⟩ := run_cons_eq_some.mp hRun
    obtain ⟨mid', hExec', hAgree'⟩ :=
      agrees_step hSound (hAvail done x post rfl) hAgree hExec
    have hSplit : done ++ x :: post = (done ++ [x]) ++ post := by simp
    obtain ⟨st₁', hRun', hFinal⟩ :=
      ih (done ++ [x]) (hSplit ▸ hSound) (hSplit ▸ hAvail) hAgree' hRest
    exact ⟨st₁', run_cons_eq_some.mpr ⟨mid', hExec', hRun'⟩, hSplit ▸ hFinal⟩

end Obscure
