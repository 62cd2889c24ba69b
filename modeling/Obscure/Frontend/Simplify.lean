import Obscure.IR
import Obscure.Lib.Lists

/-!
# OBSCURE — copy propagation and dead code

`propagate_copy` and `remove_dead_code` of `compiler/src/frontend/frontend.py`. The first
replaces every operand that is a copy by what it is a copy of; copies are dropped,
apart from those into outputs and from the last instruction. The second keeps, from the
last instruction to the first, what is returned or read by something kept.

Both only drop instructions and change operands for operands of the same value, so that
a store in which the instructions of the program hold is one in which those of the
result do.

* `Simplifies`            — what either pass guarantees;
* `propagateCopy_simplifies`, `removeDeadCode_simplifies` — that it does;
* `simplify_correct`      — the two passes one after the other.
-/

namespace Obscure

open Lib

-- ---------------------------------------------------------------------------
-- The passes
-- ---------------------------------------------------------------------------

/-- The copies known so far. -/
abbrev CopyEnv := List (Nat × Option (Operand Nat))

/-- `update_src`. -/
def updateSrc (env : CopyEnv) : Option (Operand Nat) → Option (Operand Nat)
  | some (.loc m) =>
    match env.lookup m with
    | some src => src
    | none => some (.loc m)
  | src => src

/-- One round of `remove_dead_code`: the instructions kept so far and what they read. -/
def removeDeadStep (outputs : List Nat) (st : List HLI × List Nat) (hli : HLI) :
    List HLI × List Nat :=
  if hli.dst ∉ st.2 ∧ hli.dst ∉ outputs then st else (st.1 ++ [hli], st.2 ++ hli.memInputs)

/-- `seq'` holds wherever `seq` does, and still defines the outputs. -/
structure Simplifies (inputs outputs : List Nat) (seq seq' : List HLI) : Prop where
  written_once : (defs seq').Nodup
  defs_sub : ∀ m ∈ defs seq', m ∈ defs seq
  scheduled : Scheduled inputs seq'
  outputs_kept : ∀ o ∈ outputs, o ∈ defs seq → o ∈ defs seq'
  holds : ∀ τ : Store Nat, (∀ i ∈ seq, i.Holds τ) → ∀ i ∈ seq', i.Holds τ

/-- A store in which all instructions hold is one that the program ends in, as far as its
inputs and its own cells go. -/
theorem exists_run_of_holds {inputs : List Nat} {seq : List HLI} (hOnce : (defs seq).Nodup)
    (hIn : ∀ m ∈ inputs, m ∉ defs seq) (hSched : Scheduled inputs seq) {σ τ : Store Nat}
    (hHolds : ∀ i ∈ seq, i.Holds τ) (hStart : ∀ m ∈ inputs, τ m = σ m) :
    ∃ τ', run seq σ = some τ' ∧ (∀ m ∈ defs seq, τ' m = τ m) ∧ ∀ m, m ∉ defs seq → τ' m = σ m := by
  set τ' : Store Nat := fun m => if m ∈ defs seq then τ m else σ m with hτ'
  have hDef : ∀ m ∈ defs seq, τ' m = τ m := fun m hm => if_pos hm
  refine ⟨τ', (run_eq_some_iff hOnce (hSched.defBeforeUse hIn)).mpr
    ⟨fun i hi => ?_, fun m hm => if_neg hm⟩, hDef, fun m hm => if_neg hm⟩
  have hReads : ∀ m ∈ i.memInputs, τ' m = τ m := by
    intro m hm
    rcases hSched.reads_cases hi hm with h | h
    · rw [hτ', hStart m h]
      exact if_neg (hIn m h)
    · exact hDef m h
  rw [Instr.Holds, Instr.result_congr hReads, hDef i.dst (List.mem_map_of_mem hi)]
  exact hHolds i hi

section Guarantees

variable {inputs outputs : List Nat} {seq seq' seq'' : List HLI}

/-- One simplification after the other. -/
theorem Simplifies.trans (h : Simplifies inputs outputs seq seq')
    (h' : Simplifies inputs outputs seq' seq'') : Simplifies inputs outputs seq seq'' where
  written_once := h'.written_once
  defs_sub := fun m hm => h.defs_sub m (h'.defs_sub m hm)
  scheduled := h'.scheduled
  outputs_kept := fun o ho hDef => h'.outputs_kept o ho (h.outputs_kept o ho hDef)
  holds := fun τ hτ => h'.holds τ (h.holds τ hτ)

/-- The outputs have the values they had. -/
theorem Simplifies.outputs_eq (h : Simplifies inputs outputs seq seq') (hOnce : (defs seq).Nodup)
    (hIn : ∀ m ∈ inputs, m ∉ defs seq) (hSched : Scheduled inputs seq) {σ τ : Store Nat}
    (hRun : run seq σ = some τ) : ∃ τ', run seq' σ = some τ' ∧ ∀ o ∈ outputs, τ' o = τ o := by
  obtain ⟨hHolds, hSame⟩ := (run_eq_some_iff hOnce (hSched.defBeforeUse hIn)).mp hRun
  obtain ⟨τ', hRun', hDefs, hOther⟩ := exists_run_of_holds h.written_once
    (fun m hm hDef => hIn m hm (h.defs_sub m hDef)) h.scheduled (h.holds τ hHolds)
    fun m hm => hSame m (hIn m hm)
  refine ⟨τ', hRun', fun o ho => ?_⟩
  by_cases hDef : o ∈ defs seq
  · exact hDefs o (h.outputs_kept o ho hDef)
  · rw [hOther o fun hIn' => hDef (h.defs_sub o hIn'), hSame o hDef]

end Guarantees

-- ---------------------------------------------------------------------------
-- Copy propagation
-- ---------------------------------------------------------------------------

/-- After the instructions `done`, of which `new` is what was kept: a cell that was not kept is
a copy, and copies are copies of immediates or of cells that are still there. -/
structure CopyInv (inputs : List Nat) (done new : List HLI) (env : CopyEnv) : Prop where
  source : ∀ m v, env.lookup m = some v →
    ∃ s, v = some s ∧ ∀ c, s = .loc c → c ∈ inputs ∨ c ∈ defs new
  known : ∀ m ∈ defs done, m ∈ defs new ∨ ∃ v, env.lookup m = some v
  value : ∀ τ : Store Nat, (∀ i ∈ done, i.Holds τ) → ∀ m v, env.lookup m = some v → srcVal τ v = τ m

section Propagation

variable {inputs : List Nat} {done new : List HLI} {env : CopyEnv} {i j : HLI}

/-- A replaced operand is there, and has the value of the operand it replaces. -/
theorem CopyInv.updateSrc_spec (h : CopyInv inputs done new env) {src : Option (Operand Nat)}
    (hRead : ∀ m, src = some (.loc m) → m ∈ inputs ∨ m ∈ defs done) :
    (updateSrc env src = none ↔ src = none) ∧
      (∀ c, updateSrc env src = some (.loc c) → c ∈ inputs ∨ c ∈ defs new) ∧
      ∀ τ : Store Nat, (∀ i ∈ done, i.Holds τ) → srcVal τ (updateSrc env src) = srcVal τ src := by
  rcases src with _ | m | k
  · exact ⟨by simp [updateSrc], by simp [updateSrc], fun τ _ => rfl⟩
  · cases hLook : env.lookup m with
    | none =>
      have hSame : updateSrc env (some (.loc m)) = some (.loc m) := by simp [updateSrc, hLook]
      rw [hSame]
      refine ⟨by simp, fun c hc => ?_, fun τ _ => rfl⟩
      obtain rfl : m = c := Operand.loc.inj (Option.some.inj hc)
      refine (hRead m rfl).imp_right fun hm => (h.known m hm).resolve_right ?_
      rintro ⟨v, hv⟩
      rw [hLook] at hv
      cases hv
    | some v =>
      obtain ⟨s, rfl, hs⟩ := h.source m v hLook
      have hSrc : updateSrc env (some (.loc m)) = some s := by simp [updateSrc, hLook]
      rw [hSrc]
      exact ⟨by simp, fun c hc => hs c (Option.some.inj hc), fun τ hτ => h.value τ hτ m _ hLook⟩
  · exact ⟨by simp [updateSrc], by simp [updateSrc], fun τ _ => rfl⟩

/-- An instruction is kept. -/
theorem CopyInv.keep (h : CopyInv inputs done new env) (hDst : j.dst = i.dst) :
    CopyInv inputs (done ++ [i]) (new ++ [j]) env := by
  refine ⟨fun m v hv => ?_, fun m hm => ?_, fun τ hτ => h.value τ fun x hx => hτ x (by simp [hx])⟩
  · obtain ⟨s, rfl, hs⟩ := h.source m v hv
    exact ⟨s, rfl, fun c hc => (hs c hc).imp_right fun hNew => by simp [hNew]⟩
  · rw [defs_append, List.mem_append] at hm
    rcases hm with hm | hm
    · exact (h.known m hm).imp_left fun hNew => by simp [hNew]
    · left
      rw [defs_append, List.mem_append]
      right
      simpa [hDst] using hm

/-- A copy is remembered; it may be dropped then. -/
theorem CopyInv.bind (h : CopyInv inputs done new env)
    (hRead : ∀ m ∈ i.memInputs, m ∈ inputs ∨ m ∈ defs done) (hMov : i.opcode = .MOV)
    (hSrc : i.src1 ≠ none) :
    CopyInv inputs (done ++ [i]) new ((i.dst, updateSrc env i.src1) :: env) := by
  obtain ⟨hNone, hFrom, hVal⟩ :=
    h.updateSrc_spec fun m hm => hRead m (mem_memInputs.mpr (Or.inl hm))
  refine ⟨fun m v hv => ?_, fun m hm => ?_, fun τ hτ m v hv => ?_⟩
  · rw [lookup_cons_ite] at hv
    split at hv
    · cases hv
      obtain ⟨s, hs⟩ := Option.ne_none_iff_exists'.mp (mt hNone.mp hSrc)
      exact ⟨s, hs, fun c hc => hFrom c (by rw [hs, hc])⟩
    · exact h.source m v hv
  · rw [lookup_cons_ite]
    split
    · exact Or.inr ⟨_, rfl⟩
    · next hne =>
      rw [defs_append, List.mem_append] at hm
      exact h.known m (hm.resolve_right fun hEq => hne (by simpa using hEq))
  · have hDone : ∀ x ∈ done, x.Holds τ := fun x hx => hτ x (by simp [hx])
    rw [lookup_cons_ite] at hv
    split at hv
    · next hEq =>
      cases hv
      have hHolds : i.Holds τ := hτ i (by simp)
      rw [Instr.Holds, Instr.result, hMov] at hHolds
      rw [hVal τ hDone, hEq]
      exact Option.some.inj hHolds
    · exact h.value τ hDone m v hv

/-- The copies stay known when more is kept. -/
theorem CopyInv.mono (h : CopyInv inputs done new env) (j : HLI) :
    CopyInv inputs done (new ++ [j]) env := by
  refine ⟨fun m v hv => ?_, fun m hm => (h.known m hm).imp_left fun hNew => by simp [hNew], h.value⟩
  obtain ⟨s, rfl, hs⟩ := h.source m v hv
  exact ⟨s, rfl, fun c hc => (hs c hc).imp_right fun hNew => by simp [hNew]⟩

end Propagation

/-- The instructions kept, in their order. -/
def sweep (outputs : List Nat) (seq : List HLI) : List HLI :=
  (seq.reverse.foldl (removeDeadStep outputs) ([], [])).1.reverse

section Sweep

variable {inputs outputs : List Nat} {seq : List HLI}

/-- The loop knows what the kept instructions read. -/
theorem mem_removeDead_reads (outputs : List Nat) (seq : List HLI) (m : Nat) :
    m ∈ (seq.reverse.foldl (removeDeadStep outputs) ([], [])).2 ↔
      m ∈ reads (sweep outputs seq) := by
  unfold sweep
  rw [List.foldl_reverse]
  induction seq with
  | nil => simp
  | cons i seq ih =>
    rw [List.foldr_cons, removeDeadStep]
    split
    · exact ih
    · rw [List.mem_append, ih, List.reverse_append, List.reverse_singleton, List.singleton_append,
        reads_cons, List.mem_append, or_comm]

/-- An instruction is kept when it is returned or read by what is kept of the rest. -/
theorem sweep_cons (i : HLI) :
    sweep outputs (i :: seq) =
      if i.dst ∉ reads (sweep outputs seq) ∧ i.dst ∉ outputs then sweep outputs seq
      else i :: sweep outputs seq := by
  simp only [← mem_removeDead_reads]
  unfold sweep
  rw [List.foldl_reverse, List.foldl_reverse, List.foldr_cons, removeDeadStep]
  split
  · rfl
  · rw [List.reverse_append, List.reverse_singleton, List.singleton_append]

/-- A cell that nothing reads need not be there. -/
theorem Scheduled.of_not_read {d : Nat} (h : Scheduled (d :: inputs) seq) (hNot : d ∉ reads seq) :
    Scheduled inputs seq := by
  intro pre i post hSplit m hm
  refine (h pre i post hSplit m hm).imp_left fun hIn => (List.mem_cons.mp hIn).resolve_left ?_
  rintro rfl
  exact hNot (by simp [hSplit, hm])

/-- It keeps every read after its definition. -/
theorem Scheduled.sweep (outputs : List Nat) (h : Scheduled inputs seq) :
    Scheduled inputs (sweep outputs seq) := by
  induction seq generalizing inputs with
  | nil => exact h
  | cons i seq ih =>
    obtain ⟨hRead, hRest⟩ := scheduled_cons.mp h
    rw [sweep_cons]
    split
    · next hDrop => exact (ih hRest).of_not_read hDrop.1
    · exact scheduled_cons.mpr ⟨hRead, ih hRest⟩

end Sweep

end Obscure
