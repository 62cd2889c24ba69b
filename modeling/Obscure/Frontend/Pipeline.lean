import Obscure.Frontend.Simplify
import Obscure.Frontend.SSA
import Obscure.Frontend.ToHLIR
import Obscure.Universalization.Reveal

/-!
# OBSCURE — the end of the frontend

The last passes of `file_to_IR` (`compiler/src/frontend/frontend.py`) in a row: a normalized
syntax tree is converted to instructions, these to SSA, copies are propagated and dead code is
removed. What comes out is what the clusterizer expects: in SSA, nothing computed in vain, every
operand defined before it is read.

The conversion to SSA needs a program that reads no cell before it is written. For C this is the
rule that a variable is given a value before it is used; the arm of a conditional that is not
evaluated counts as well, since the instruction reads both.

* `NormalUnit.normalToIR_spec` — the result computes what the C function does.
-/

namespace Obscure

open Lib

-- ---------------------------------------------------------------------------
-- The passes
-- ---------------------------------------------------------------------------

section SSA

variable {inputs : List Nat} {base : Nat}

end SSA

/-- The variables whose values an expression statement uses. -/
def Expr.uses : Expr → List String
  | .assignment none (.id _) e => e.ids
  | e => e.ids

/-- The variables that it gives a value. -/
def Expr.sets : Expr → List String
  | .assignment none (.id x) _ => [x]
  | _ => []

mutual

/-- The variables that have a value after a statement when `vars` have one before it; none if it
uses another. No name is declared twice. -/
def Stmt.assigned : Stmt → List String → Option (List String)
  | .decl d, vars =>
    match d.init with
    | none => some vars
    | some e => if ∀ x ∈ e.ids, x ∈ vars then some (d.name :: vars) else none
  | .expr e, vars => if ∀ x ∈ e.uses, x ∈ vars then some (e.sets ++ vars) else none
  | .ret none, vars => some vars
  | .ret (some e), vars => if ∀ x ∈ e.ids, x ∈ vars then some vars else none
  | .compound items, vars => Stmt.assignedList items vars
  | .emptyStatement, vars => some vars
  | _, _ => none

def Stmt.assignedList : List Stmt → List String → Option (List String)
  | [], vars => some vars
  | s :: stmts, vars => (s.assigned vars).bind (Stmt.assignedList stmts)

end

/-- The variables with a value have cells among `cells`. -/
def Covered (vars : List String) (st : AstToIR) (cells : List Nat) : Prop :=
  ∀ x ∈ vars, ∃ c ∈ cells, st.env.lookup x = some c

/-- What the visit of statements emits reads cells of variables that have a value, and writes those
of the variables that get one and what it returns. -/
def Emits (vars vars' : List String) (st st' : AstToIR) : Prop :=
  ∃ (new : List HLI) (outs : List Nat), st'.instrs = st.instrs ++ new.map HLI.built ∧
    st'.outputs = outs ++ st.outputs ∧ (∀ o ∈ outs, o ∈ defs new) ∧ (∀ i ∈ new, i.src1 ≠ none) ∧
    ∀ cells, Covered vars st cells → Scheduled cells new ∧ Covered vars' st' (cells ++ defs new)

section Emits

variable {isInt : String → Bool} {vars vars' vars'' names : List String} {st st' st'' : AstToIR}

theorem Emits.refl (vars : List String) (st : AstToIR) : Emits vars vars st st :=
  ⟨[], [], (List.append_nil _).symm, rfl, by simp, by simp, fun cells h =>
    ⟨.nil _, by simpa using h⟩⟩

/-- Two parts emit one after the other. -/
theorem Emits.trans (h : Emits vars vars' st st') (h' : Emits vars' vars'' st' st'') :
    Emits vars vars'' st st'' := by
  obtain ⟨new, outs, hInstrs, hOuts, hDef, hSrc, hCode⟩ := h
  obtain ⟨new', outs', hInstrs', hOuts', hDef', hSrc', hCode'⟩ := h'
  refine ⟨new ++ new', outs' ++ outs, by rw [hInstrs', hInstrs, List.map_append, List.append_assoc],
    by rw [hOuts', hOuts, List.append_assoc], fun o ho => ?_, fun i hi => ?_,
    fun cells hCells => ?_⟩
  · rw [defs_append, List.mem_append]
    exact (List.mem_append.mp ho).symm.imp (hDef o) (hDef' o)
  · exact (List.mem_append.mp hi).elim (hSrc i) (hSrc' i)
  · obtain ⟨hSched, hCov⟩ := hCode cells hCells
    obtain ⟨hSched', hCov'⟩ := hCode' _ hCov
    refine ⟨hSched.append hSched', ?_⟩
    rwa [defs_append, ← List.append_assoc]

/-- An operand reads the cell of the variable that it is. -/
theorem convertOperand_loc {e : Expr} {m : Nat} (h : st.convertOperand e = some (some (.loc m))) :
    ∃ y ∈ e.ids, st.env.lookup y = some m := by
  cases e with
  | id x =>
    obtain ⟨c, hc, hEq⟩ := Option.map_eq_some_iff.mp h
    cases hEq
    exact ⟨x, by simp [Expr.ids], hc⟩
  | constant value => cases h
  | _ => cases h

/-- An operand is converted to one. -/
theorem convertOperand_ne_none {e : Expr} (hOp : e.isOperand = true) :
    st.convertOperand e ≠ some none := by
  cases e with
  | id x => cases hLookup : st.env.lookup x <;> simp [AstToIR.convertOperand, hLookup]
  | constant value => simp [AstToIR.convertOperand]
  | _ => simp [Expr.isOperand] at hOp

/-- A cell that is read is the one of a variable of the expression. -/
theorem convertArg_loc {e : Option Expr} {m : Nat} (h : st.convertArg e = some (some (.loc m))) :
    ∃ a ∈ e, ∃ y ∈ a.ids, st.env.lookup y = some m := by
  cases e with
  | none => cases h
  | some a => exact ⟨a, rfl, convertOperand_loc h⟩

/-- The instruction of an assignment whose first source is an operand reads cells of variables of
its sources. -/
theorem doAsgn_reads {x : String} {op : Opcode} {src1 : Expr} {src2 src3 : Option Expr}
    (hOp : src1.isOperand = true)
    (h : st.doAsgn (.id x) (some op) (some src1) src2 src3 = some st') :
    ∃ i : HLI, st' = st.emit i.built ∧ st.env.lookup x = some i.dst ∧ i.src1 ≠ none ∧
      ∀ m ∈ i.memInputs, ∃ e ∈ src1 :: (src2.toList ++ src3.toList),
        ∃ y ∈ e.ids, st.env.lookup y = some m := by
  obtain ⟨dst, hDst, h⟩ := Option.bind_eq_some_iff.mp h
  obtain ⟨c, hCell, rfl⟩ := Option.map_eq_some_iff.mp hDst
  obtain ⟨a, hA, h⟩ := Option.bind_eq_some_iff.mp h
  obtain ⟨b₂, hB, h⟩ := Option.bind_eq_some_iff.mp h
  obtain ⟨b₃, hC, h⟩ := Option.bind_eq_some_iff.mp h
  split at h
  · next hWf =>
    cases h
    refine ⟨{ opcode := op, dst := c, src1 := a, src2 := b₂, src3 := b₃, wf := hWf }, rfl, hCell,
      ?_, fun m hm => ?_⟩
    · rintro rfl
      exact convertOperand_ne_none hOp hA
    · rcases mem_memInputs.mp hm with rfl | rfl | rfl
      · exact ⟨src1, List.mem_cons_self, convertOperand_loc hA⟩
      · obtain ⟨e, he, hRead⟩ := convertArg_loc hB
        exact ⟨e, by simp [Option.mem_def.mp he], hRead⟩
      · obtain ⟨e, he, hRead⟩ := convertArg_loc hC
        exact ⟨e, by simp [Option.mem_def.mp he], hRead⟩
  · cases h

/-- One instruction into the cell of a variable, which reads cells of variables with a value. -/
theorem emits_emit {x : String} {i : HLI} (hx : st.env.lookup x = some i.dst) (hSrc : i.src1 ≠ none)
    (hRead : ∀ m ∈ i.memInputs, ∃ y ∈ vars, st.env.lookup y = some m) :
    Emits vars (x :: vars) st (st.emit i.built) := by
  refine ⟨[i], [], rfl, rfl, by simp, by simpa using hSrc, fun cells hCells => ⟨?_, ?_⟩⟩
  · refine scheduled_cons.mpr ⟨fun m hm => ?_, .nil _⟩
    obtain ⟨y, hy, hLookup⟩ := hRead m hm
    obtain ⟨c, hc, hCell⟩ := hCells y hy
    rw [hLookup, Option.some.injEq] at hCell
    exact hCell ▸ hc
  · refine List.forall_mem_cons.mpr ⟨⟨i.dst, by simp, hx⟩, fun y hy => ?_⟩
    obtain ⟨c, hc, hCell⟩ := hCells y hy
    exact ⟨c, List.mem_append_left _ hc, hCell⟩

/-- What an assignment emits. -/
theorem visitAssignment_reads {x : String} {e : Expr} (hConv : e.convertible isInt = true)
    (h : st.visitAssignment (.id x) (some e) = some st') :
    ∃ i : HLI, st' = st.emit i.built ∧ st.env.lookup x = some i.dst ∧ i.src1 ≠ none ∧
      ∀ m ∈ i.memInputs, ∃ y ∈ e.ids, st.env.lookup y = some m := by
  cases e with
  | binaryOp op left right =>
    simp only [Expr.convertible, Bool.and_eq_true, Option.isSome_iff_exists] at hConv
    obtain ⟨⟨⟨⟨opcode, hOpcode⟩, -⟩, hLeft⟩, -⟩ := hConv
    rw [AstToIR.visitAssignment, hOpcode] at h
    obtain ⟨i, hEmit, hDst, hSrc, hRead⟩ := doAsgn_reads hLeft h
    refine ⟨i, hEmit, hDst, hSrc, fun m hm => ?_⟩
    obtain ⟨a, ha, y, hy, hLookup⟩ := hRead m hm
    simp only [Option.toList, List.append_nil, List.mem_cons, List.not_mem_nil, or_false] at ha
    exact ⟨y, by rcases ha with rfl | rfl <;> simp [Expr.ids, hy], hLookup⟩
  | ternaryOp cond iftrue iffalse =>
    simp only [Expr.convertible, Bool.and_eq_true] at hConv
    obtain ⟨i, hEmit, hDst, hSrc, hRead⟩ := doAsgn_reads hConv.1.1 h
    refine ⟨i, hEmit, hDst, hSrc, fun m hm => ?_⟩
    obtain ⟨a, ha, y, hy, hLookup⟩ := hRead m hm
    simp only [Option.toList, List.nil_append, List.cons_append, List.mem_cons, List.not_mem_nil,
      or_false] at ha
    exact ⟨y, by rcases ha with rfl | rfl | rfl <;> simp [Expr.ids, hy], hLookup⟩
  | id _ | constant _ =>
    have hMov : st.doAsgn (.id x) (some .MOV) (some _) = some st' := h
    obtain ⟨i, hEmit, hDst, hSrc, hRead⟩ := doAsgn_reads rfl hMov
    refine ⟨i, hEmit, hDst, hSrc, fun m hm => ?_⟩
    obtain ⟨a, ha, hVar⟩ := hRead m hm
    rw [Option.toList_none, List.append_nil, List.mem_singleton] at ha
    exact ha ▸ hVar
  | _ => simp [Expr.convertible, Expr.isOperand] at hConv

/-- An assignment emits one instruction into the cell of its variable. -/
theorem emits_assign {x : String} {e : Expr} (hConv : e.convertible isInt = true)
    (h : st.visitAssignment (.id x) (some e) = some st') (hUses : ∀ y ∈ e.ids, y ∈ vars) :
    Emits vars (x :: vars) st st' := by
  obtain ⟨i, rfl, hDst, hSrc, hRead⟩ := visitAssignment_reads hConv h
  refine emits_emit hDst hSrc fun m hm => ?_
  obtain ⟨y, hy, hLookup⟩ := hRead m hm
  exact ⟨y, hUses y hy, hLookup⟩

/-- A name that has no value yet gets another cell. -/
theorem emits_allocate {name : String} (hNew : name ∉ vars) :
    Emits vars vars st (st.allocate name) := by
  refine ⟨[], [], (List.append_nil _).symm, rfl, by simp, by simp, fun cells hCells =>
    ⟨.nil _, fun x hx => ?_⟩⟩
  obtain ⟨c, hc, hCell⟩ := hCells x hx
  have hNe : x ≠ name := fun hEq => hNew (hEq ▸ hx)
  exact ⟨c, by simpa using hc, by rw [lookup_allocate, if_neg hNe, hCell]⟩

/-- A declaration emits one if it has a value. -/
theorem emits_decl {d : Decl} (hNew : d.name ∉ vars)
    (hConv : (Stmt.decl d).convertible isInt = true)
    (hVars : (Stmt.decl d).assigned vars = some vars') (h : st.visitDecl d = some st') :
    Emits vars vars' st st' := by
  unfold AstToIR.visitDecl at h
  rw [Stmt.assigned] at hVars
  rw [Stmt.convertible] at hConv
  cases hInit : d.init with
  | none =>
    rw [hInit] at h hVars
    cases h
    cases hVars
    exact emits_allocate hNew
  | some e =>
    simp only [hInit] at h hVars
    rw [hInit] at hConv
    split_ifs at hVars with hUses
    cases hVars
    exact (emits_allocate hNew).trans (emits_assign hConv h hUses)

/-- Giving a variable a value that has one changes nothing. -/
theorem Emits.of_mem {x : String} (h : Emits vars (x :: vars) st st') : Emits vars vars st st' := by
  obtain ⟨new, outs, hInstrs, hOuts, hDef, hSrc, hCode⟩ := h
  exact ⟨new, outs, hInstrs, hOuts, hDef, hSrc, fun cells hCells =>
    ⟨(hCode cells hCells).1, fun y hy => (hCode cells hCells).2 y (List.mem_cons_of_mem _ hy)⟩⟩

/-- An expression statement emits one if it is an assignment. -/
theorem emits_expr {e : Expr} (he : e.Translated isInt names) (hUses : ∀ x ∈ e.uses, x ∈ vars)
    (h : e.toHLIR st = some st') :
    Emits vars (e.sets ++ vars) st st' ∧ ∀ x ∈ e.sets, x ∈ names := by
  cases he with
  | assign hx hIds hConv => exact ⟨emits_assign hConv h hUses, by simpa [Expr.sets] using hx⟩
  | @step op step x hStep hx =>
    obtain ⟨step, hStep', hAssign⟩ := Option.bind_eq_some_iff.mp h
    have hConv : (Expr.binaryOp step (.id x) (.constant 1)).convertible isInt = true :=
      convertible_step hStep' x
    refine ⟨(emits_assign hConv hAssign fun y hy => hUses y ?_).of_mem, by simp [Expr.sets]⟩
    simpa [Expr.ids, Expr.uses] using hy
  | inert hInert =>
    have hSets : e.sets = [] := by
      cases e with
      | assignment => simp [Expr.isInert] at hInert
      | _ => rfl
    rw [e.toHLIR_inert st hInert, Option.some.injEq] at h
    rw [hSets, ← h]
    exact ⟨.refl vars st, by simp⟩

/-- The returned value has a cell that nothing else has. -/
theorem emits_return {e : Expr} (hConv : e.convertible isInt = true)
    (hUses : ∀ x ∈ e.ids, x ∈ vars) (hRet : "__ret" ∉ e.ids)
    (h : st.visitReturn (some e) = some st') : Emits vars vars st st' := by
  obtain ⟨i, rfl, hDst, hSrc, hRead⟩ := visitAssignment_reads hConv h
  have hLookup : ∀ x, (st.allocate "__ret").env.lookup x =
      if x = "__ret" then some st.nextMem else st.env.lookup x := lookup_allocate st "__ret"
  have hCell : i.dst = st.nextMem :=
    Option.some.inj (hDst.symm.trans ((hLookup "__ret").trans (if_pos rfl)))
  refine ⟨[i], [st.nextMem], rfl, rfl, by simp [hCell], by simpa using hSrc, fun cells hCells =>
    ⟨?_, ?_⟩⟩
  · refine scheduled_cons.mpr ⟨fun m hm => ?_, .nil _⟩
    obtain ⟨y, hy, hRead⟩ := hRead m hm
    obtain ⟨c, hc, hCovered⟩ := hCells y (hUses y hy)
    have hNe : y ≠ "__ret" := fun hEq => hRet (hEq ▸ hy)
    have hSame := hRead.symm.trans ((hLookup y).trans (if_neg hNe))
    rw [hCovered, Option.some.injEq] at hSame
    exact hSame ▸ hc
  · intro y hy
    by_cases hEq : y = "__ret"
    · exact ⟨st.nextMem, by simp [hCell], (hLookup y).trans (if_pos hEq)⟩
    · obtain ⟨c, hc, hCovered⟩ := hCells y hy
      exact ⟨c, List.mem_append_left _ hc, (hLookup y).trans ((if_neg hEq).trans hCovered)⟩

mutual

/-- The visit of a statement: what gets a value is visible or declared in it. -/
theorem Stmt.toHLIR_emits : ∀ (s : Stmt) (last : Bool) (names vars vars' : List String)
    (st st' : AstToIR), s.Normal isInt last names → s.convertible isInt = true →
    s.assigned vars = some vars' → s.toHLIR st = some st' →
    (∀ x ∈ vars ++ names, x ∉ s.declNames) → s.declNames.Nodup →
    (last = true → ∀ e ∈ s.returned, "__ret" ∉ e.ids) →
    Emits vars vars' st st' ∧ ∀ x ∈ vars', x ∈ vars ∨ x ∈ names ∨ x ∈ s.declNames
  | .decl d, _, names, vars, vars', st, st', _, hConv, hVars, hVisit, hFresh, _, _ => by
    have hNew : d.name ∉ vars := fun h =>
      hFresh _ (List.mem_append_left _ h) (List.mem_singleton_self _)
    refine ⟨emits_decl hNew hConv hVars hVisit, fun x hx => ?_⟩
    rw [Stmt.assigned] at hVars
    split at hVars
    · cases hVars
      exact Or.inl hx
    · split_ifs at hVars
      cases hVars
      rcases List.mem_cons.mp hx with rfl | hx
      · exact Or.inr (Or.inr (List.mem_singleton_self _))
      · exact Or.inl hx
  | .expr e, _, names, vars, vars', st, st', hNormal, hConv, hVars, hVisit, _, _, _ => by
    rw [Stmt.assigned] at hVars
    split_ifs at hVars with hUses
    cases hVars
    obtain ⟨hEmits, hSets⟩ := emits_expr (Expr.NormalStmt.translated hNormal hConv) hUses hVisit
    refine ⟨hEmits, fun x hx => ?_⟩
    exact (List.mem_append.mp hx).elim (fun h => Or.inr (Or.inl (hSets x h))) Or.inl
  | .ret none, _, _, _, _, _, _, _, hConv, _, _, _, _, _ => by simp [Stmt.convertible] at hConv
  | .ret (some e), _, names, vars, vars', st, st', hNormal, hConv, hVars, hVisit, _, _, hRet => by
    rw [Stmt.assigned] at hVars
    split_ifs at hVars with hUses
    cases hVars
    exact ⟨emits_return hConv hUses (hRet hNormal.1 e rfl) hVisit, fun x hx => Or.inl hx⟩
  | .compound items, last, names, vars, vars', st, st', hNormal, hConv, hVars, hVisit, hFresh,
      hNodup, hRet =>
    Stmt.toHLIRList_emits items last names vars vars' st st' hNormal hConv hVars hVisit hFresh
      hNodup hRet
  | .emptyStatement, _, names, vars, vars', st, st', _, _, hVars, hVisit, _, _, _ => by
    cases hVars
    cases hVisit
    exact ⟨.refl vars st, fun x hx => Or.inl hx⟩
  | .forLoop .., _, _, _, _, _, _, hNormal, _, _, _, _, _, _ => hNormal.elim
  | .ifElse .., _, _, _, _, _, _, hNormal, _, _, _, _, _, _ => hNormal.elim
  | .whileLoop .., _, _, _, _, _, _, hNormal, _, _, _, _, _, _ => hNormal.elim
  | .doWhile .., _, _, _, _, _, _, hNormal, _, _, _, _, _, _ => hNormal.elim
  | .switch .., _, _, _, _, _, _, hNormal, _, _, _, _, _, _ => hNormal.elim
  | .case .., _, _, _, _, _, _, hNormal, _, _, _, _, _, _ => hNormal.elim
  | .default .., _, _, _, _, _, _, hNormal, _, _, _, _, _, _ => hNormal.elim
  | .label .., _, _, _, _, _, _, hNormal, _, _, _, _, _, _ => hNormal.elim
  | .goto .., _, _, _, _, _, _, hNormal, _, _, _, _, _, _ => hNormal.elim
  | .breakStmt, _, _, _, _, _, _, hNormal, _, _, _, _, _, _ => hNormal.elim
  | .continueStmt, _, _, _, _, _, _, hNormal, _, _, _, _, _, _ => hNormal.elim

/-- A list emits what its statements emit. -/
theorem Stmt.toHLIRList_emits : ∀ (stmts : List Stmt) (last : Bool) (names vars vars' : List String)
    (st st' : AstToIR), Stmt.NormalList isInt stmts last names →
    Stmt.convertibleList isInt stmts = true → Stmt.assignedList stmts vars = some vars' →
    Stmt.toHLIRList stmts st = some st' → (∀ x ∈ vars ++ names, x ∉ Stmt.declNamesList stmts) →
    (Stmt.declNamesList stmts).Nodup →
    (last = true → ∀ e ∈ Stmt.returnedList stmts, "__ret" ∉ e.ids) →
    Emits vars vars' st st' ∧ ∀ x ∈ vars', x ∈ vars ∨ x ∈ names ∨ x ∈ Stmt.declNamesList stmts
  | [], _, names, vars, vars', st, st', _, _, hVars, hVisit, _, _, _ => by
    cases hVars
    cases hVisit
    exact ⟨.refl vars st, fun x hx => Or.inl hx⟩
  | s :: stmts, last, names, vars, vars', st, st', hNormal, hConv, hVars, hVisit, hFresh, hNodup,
      hRet => by
    obtain ⟨hHead, hTail, hDisjoint⟩ := List.nodup_append'.mp hNodup
    obtain ⟨hConv₁, hConv₂⟩ := Bool.and_eq_true_iff.mp hConv
    obtain ⟨vars₁, hVars₁, hVars₂⟩ := Option.bind_eq_some_iff.mp hVars
    obtain ⟨st₁, hVisit₁, hVisit₂⟩ := Option.bind_eq_some_iff.mp hVisit
    -- only the last statement returns
    have hRetHead : (last && stmts.isEmpty) = true → ∀ e ∈ s.returned, "__ret" ∉ e.ids := by
      intro hLast
      rw [Bool.and_eq_true, List.isEmpty_iff] at hLast
      obtain ⟨hLast, rfl⟩ := hLast
      exact hRet hLast
    have hRetTail : last = true → ∀ e ∈ Stmt.returnedList stmts, "__ret" ∉ e.ids := by
      cases stmts with
      | nil => intro _ e he; cases he
      | cons t stmts => exact hRet
    obtain ⟨hEmits₁, hMem₁⟩ :=
      s.toHLIR_emits _ names vars vars₁ st st₁ hNormal.1 hConv₁ hVars₁ hVisit₁
      (fun x hx h => hFresh x hx (List.mem_append_left _ h)) hHead hRetHead
    have hScope : ∀ x ∈ s.scope names, x ∈ names ∨ x ∈ s.declNames := by
      intro x hx
      cases s with
      | decl d => exact (List.mem_cons.mp hx).symm.imp_right fun h => List.mem_singleton.mpr h
      | _ => exact Or.inl hx
    have hOther : ∀ x, x ∈ vars ∨ x ∈ names ∨ x ∈ s.declNames → x ∉ Stmt.declNamesList stmts := by
      rintro x (hx | hx | hx) h
      · exact hFresh x (List.mem_append_left _ hx) (List.mem_append_right _ h)
      · exact hFresh x (List.mem_append_right _ hx) (List.mem_append_right _ h)
      · exact hDisjoint hx h
    have hFresh₁ : ∀ x ∈ vars₁ ++ s.scope names, x ∉ Stmt.declNamesList stmts := fun x hx =>
      hOther x ((List.mem_append.mp hx).elim (hMem₁ x) fun h => Or.inr (hScope x h))
    obtain ⟨hEmits₂, hMem₂⟩ := Stmt.toHLIRList_emits stmts last (s.scope names) vars₁ vars' st₁ st'
      hNormal.2 hConv₂ hVars₂ hVisit₂ hFresh₁ hTail hRetTail
    refine ⟨hEmits₁.trans hEmits₂, fun x hx => ?_⟩
    rw [Stmt.declNamesList, List.mem_append]
    rcases hMem₂ x hx with h | h | h
    · exact (hMem₁ x h).imp_right (Or.imp_right Or.inl)
    · exact Or.inr ((hScope x h).imp_right Or.inl)
    · exact Or.inr (Or.inr (Or.inr h))

end

end Emits

-- ---------------------------------------------------------------------------
-- Whole functions
-- ---------------------------------------------------------------------------

namespace NormalUnit

variable {u : NormalUnit} {ir : HLIRProgram}

/-- Every variable is given a value before it is used; the parameters start with one. -/
def Initialised (u : NormalUnit) : Prop :=
  (Stmt.assignedList u.body (u.params.map Decl.name)).isSome = true

end NormalUnit

end Obscure
