import Obscure.Frontend.Unnesting

/-!
# OBSCURE — unnesting of function bodies

Declarations, assignments and returns put what waits before themselves. An expression statement
does not: what it leaves stays in `before` until a `return` puts it there, or until a declaration,
an assignment or the end of the body drops it. After a declaration with temporaries the depth is 0,
and `commit_if_is_stmt` drops it at once; after `&` the depth is too large by one, and a call
waits as well.

* `unnest_keeps` — where no expression statement loses anything and what is moved out of arms may
  be, the result has the same final values, calls and returned value;
* `incrementFirst_lost` — `++x; y = x;` loses the increment.
-/

namespace Obscure

-- ---------------------------------------------------------------------------
-- Statements
-- ---------------------------------------------------------------------------

/-- The initializers: values, and addresses of elements. -/
inductive Expr.Initializer : Expr → Prop
  | value {e : Expr} (hN : e.Nested) : Initializer e
  | pointer (name : String) {subscript : Expr} (hN : subscript.Nested) :
      Initializer (.unaryOp .addressOf (.arrayRef (.id name) subscript))

/-- The dimensions of arrays can be visited. -/
def DeclType.Sized : DeclType → Prop
  | .typeDecl _ => True
  | .ptrDecl type => type.Sized
  | .arrayDecl type dim => type.Sized ∧ ∀ e ∈ dim, e.Nested

/-- Declarations, assignments, expression statements and returns. -/
inductive Stmt.Simple : Stmt → Prop
  | decl {d : Decl} (hType : d.type.Sized) (hInit : ∀ e ∈ d.init, e.Initializer) : Simple (.decl d)
  | assignment (x : String) {e : Expr} (hN : e.Nested) : Simple (.expr (.assignment none (.id x) e))
  | expr {e : Expr} (hN : e.Nested) : Simple (.expr e)
  | ret {e : Option Expr} (hN : ∀ r ∈ e, r.Nested) : Simple (.ret e)

def Stmt.exprs : Stmt → List Expr
  | .decl d => d.init.toList
  | .expr e => [e]
  | .ret e => e.toList
  | _ => []

/-- The names in a statement. -/
def Stmt.names : Stmt → List String
  | .decl d => d.name :: d.init.toList.flatMap Expr.ids
  | s => s.exprs.flatMap Expr.ids

/-- The expressions whose visit ends with the statements before them. -/
def Stmt.operands : Stmt → List Expr
  | .decl d => d.init.toList
  | .expr (.assignment _ _ e) => [e]
  | .ret e => e.toList
  | _ => []

/-- A statement over these names, in which no side effect is unsequenced. -/
structure Stmt.InScope (names : List String) (s : Stmt) : Prop where
  simple : s.Simple
  sequenced : ∀ e ∈ s.exprs, e.sequenced = true
  names : ∀ x ∈ s.names, x ∈ names

/-- The depth that the visit of an initializer leaves: that of `&` is not restored. -/
def Expr.depthAfter : Expr → Nat
  | .unaryOp .addressOf _ => 2
  | _ => 1

/-- The depth that the visit of a statement leaves. -/
def Stmt.depthAfter : Stmt → Nat → Nat
  | .decl d, _ =>
    match d.init with
    | none => 1
    | some e => if e.hoists 1 then 0 else e.depthAfter
  | .expr (.assignment ..), _ => 1
  | .ret _, _ => 1
  | _, depth => depth

/-- Whether an expression statement leaves something that waits. -/
def Stmt.leaves : Stmt → Nat → Bool
  | .expr e, depth => e.hoists depth
  | _, _ => false

def Stmt.isReturn : Stmt → Bool
  | .ret _ => true
  | _ => false

/-- Leaving a statement makes no names. -/
theorem Unnester.exit_idents (st : Unnester) : st.commitIfIsStmt.exit.idents = st.idents := by
  rw [Unnester.commitIfIsStmt]
  split <;> rfl

/-- A temporary makes one more name. -/
theorem Unnester.grows_makeTmp (st : Unnester) (value : Expr) {x : String}
    (hx : x ∈ st.idents.allIdentifiers) : x ∈ (st.makeTmp value).2.idents.allIdentifiers :=
  (fresh_genNextIdent "@subexpr_" st.idents).grows x hx

/-- A nested expression can be unnested, and no name is forgotten: induction on its shape. -/
theorem Expr.Nested.visit {e : Expr} (hN : e.Nested) :
    ∀ st : Unnester, ∃ out, e.unnest st = some out ∧
      ∀ x ∈ st.idents.allIdentifiers, x ∈ out.2.idents.allIdentifiers := by
  induction hN with
  | id | constant =>
    intro st
    exact ⟨_, by rw [Expr.unnest], fun _ hx => hx⟩
  | @minus e _ ih =>
    intro st
    obtain ⟨⟨e', st₁⟩, hEq, hGrow⟩ := ih st.enter
    by_cases hDeep : 2 < st₁.depth
    · exact ⟨_, by simp [Expr.unnest, hEq, UnOp.unnestOperand, hDeep]; rfl,
        fun x hx => by rw [Unnester.exit_idents]; exact st₁.grows_makeTmp _ (hGrow x hx)⟩
    · exact ⟨_, by simp [Expr.unnest, hEq, UnOp.unnestOperand, hDeep]; rfl,
        fun x hx => by rw [Unnester.exit_idents]; exact hGrow x hx⟩
  | @step op step hOp x =>
    intro st
    cases hPost : op.isPostfix with
    | true =>
      exact ⟨_, by rw [Expr.unnest_step, UnOp.unnestOperand_after hOp hPost], fun y hy => by
        rw [Unnester.exit_idents]
        exact st.enter.grows_makeTmp (.id x) hy⟩
    | false =>
      exact ⟨_, by rw [Expr.unnest_step, UnOp.unnestOperand_before hOp hPost], fun y hy => by
        rw [Unnester.exit_idents]
        exact hy⟩
  | @binary op left right _ _ ihLeft ihRight =>
    intro st
    obtain ⟨⟨left', st₁⟩, hEqL, hGrowL⟩ := ihLeft st.enter
    obtain ⟨⟨right', st₂⟩, hEqR, hGrowR⟩ := ihRight st₁
    by_cases hDeep : 2 < st₂.depth
    · exact ⟨_, by simp [Expr.unnest, hEqL, hEqR, hDeep]; rfl, fun x hx => by
        rw [Unnester.exit_idents]
        exact st₂.grows_makeTmp _ (hGrowR x (hGrowL x hx))⟩
    · exact ⟨_, by simp [Expr.unnest, hEqL, hEqR, hDeep]; rfl, fun x hx => by
        rw [Unnester.exit_idents]
        exact hGrowR x (hGrowL x hx)⟩
  | @ternary cond iftrue iffalse _ _ _ ihCond ihTrue ihFalse =>
    intro st
    obtain ⟨⟨cond', st₁⟩, hEqC, hGrowC⟩ := ihCond st.enter
    obtain ⟨⟨iftrue', st₂⟩, hEqT, hGrowT⟩ := ihTrue st₁
    obtain ⟨⟨iffalse', st₃⟩, hEqF, hGrowF⟩ := ihFalse st₂
    refine ⟨_, by simp [Expr.unnest, hEqC, hEqT, hEqF]; rfl, fun x hx => ?_⟩
    rw [Unnester.exit_idents]
    exact Unnester.grows_makeTmp _ _ (Unnester.grows_makeTmp _ _ (st₃.grows_makeTmp _
      (hGrowF x (hGrowT x (hGrowC x hx)))))
  | @call name args _ _ =>
    intro st
    by_cases hDeep : 2 ≤ st.depth
    · exact ⟨_, by rw [Expr.unnest, if_pos hDeep], fun x hx => st.grows_makeTmp _ hx⟩
    · exact ⟨_, by rw [Expr.unnest, if_neg hDeep], fun x hx => hx⟩

/-- So can the dimensions of an array. -/
theorem DeclType.Sized.visit {type : DeclType} (h : type.Sized) :
    ∀ st : Unnester, ∃ out, type.unnest st = some out ∧
      ∀ x ∈ st.idents.allIdentifiers, x ∈ out.2.idents.allIdentifiers := by
  induction type with
  | typeDecl names =>
    intro st
    exact ⟨_, by rw [DeclType.unnest], fun _ hx => hx⟩
  | ptrDecl type ih =>
    intro st
    obtain ⟨⟨type', st₁⟩, hEq, hGrow⟩ := ih h st
    exact ⟨(.ptrDecl type', st₁), by simp [DeclType.unnest, hEq], hGrow⟩
  | arrayDecl type dim ih =>
    intro st
    obtain ⟨⟨type', st₁⟩, hEq, hGrow⟩ := ih h.1 st
    cases dim with
    | none =>
      exact ⟨(.arrayDecl type' none, st₁), by simp [DeclType.unnest, hEq, unnestOpt], hGrow⟩
    | some e =>
      obtain ⟨⟨e', st₂⟩, hEq', hGrow'⟩ := (h.2 e rfl).visit st₁
      exact ⟨(.arrayDecl type' (some e'), st₂),
        by simp [DeclType.unnest, hEq, unnestOpt, hEq'], fun x hx => hGrow' x (hGrow x hx)⟩

/-- An array stays one. -/
theorem CMeaning.declare_visited {V : Type} (C : CMeaning V) {type type' : DeclType}
    {st st' : Unnester} (h : type.unnest st = some (type', st')) (name : String)
    (quals : List String) (σ : CStore V) :
    C.declare ⟨name, quals, type', none⟩ σ = C.declare ⟨name, quals, type, none⟩ σ := by
  cases type with
  | typeDecl names =>
    obtain ⟨rfl, rfl⟩ : .typeDecl names = type' ∧ st = st' := by simpa [DeclType.unnest] using h
    rfl
  | ptrDecl type =>
    simp only [DeclType.unnest, Option.bind_eq_bind, Option.bind_eq_some_iff] at h
    obtain ⟨out, -, hOut⟩ := h
    obtain ⟨rfl, rfl⟩ : .ptrDecl out.1 = type' ∧ out.2 = st' := by simpa using hOut
    rfl
  | arrayDecl type dim =>
    simp only [DeclType.unnest, Option.bind_eq_bind, Option.bind_eq_some_iff] at h
    obtain ⟨out, -, out', -, hOut⟩ := h
    obtain ⟨rfl, rfl⟩ : .arrayDecl out.1 out'.1 = type' ∧ out'.2 = st' := by simpa using hOut
    rfl

/-- So can an initializer. -/
theorem Expr.Initializer.visit {e : Expr} (h : e.Initializer) (st : Unnester) :
    ∃ out, e.unnest st = some out := by
  cases h with
  | value hN =>
    obtain ⟨out, hEq, -⟩ := hN.visit st
    exact ⟨out, hEq⟩
  | pointer name hN => exact ⟨_, by simp [Expr.unnest, UnOp.unnestOperand]; rfl⟩

/-- `visit_Decl`, given the visits of the type and of the initializer. -/
theorem Decl.unnest_eq {d : Decl} {st st₁ st₂ : Unnester} {type : DeclType} {init : Option Expr}
    (hType : d.type.unnest st = some (type, st₁))
    (hInit : unnestOpt d.init { st₁ with depth := 1, before := [] } = some (init, st₂)) :
    d.unnest st = some (if st₂.before = [] then ([.decl ⟨d.name, d.quals, type, init⟩], st₂)
      else (st₂.before ++ [.decl ⟨d.name, d.quals, type, init⟩], ⟨0, [], st₂.idents⟩)) := by
  simp only [Decl.unnest, hType, hInit, Option.bind_eq_bind, Option.bind_some]
  split <;> rfl

/-- An expression statement is the expression that is left of it. -/
theorem Stmt.unnest_expr {e : Expr} (hN : e.Nested) (st : Unnester) :
    Stmt.unnest (.expr e) st = (e.unnest st).map fun out => ([.expr out.1], out.2) := by
  cases hN <;> rw [Stmt.unnest] <;> simp

/-- A simple statement can be unnested. -/
theorem Stmt.Simple.visit {s : Stmt} (h : s.Simple) (st : Unnester) :
    ∃ out, s.unnest st = some out := by
  cases h with
  | @decl d hType hInit =>
    obtain ⟨⟨type', st₁⟩, hEq, -⟩ := hType.visit st
    rw [Stmt.unnest]
    cases hd : d.init with
    | none => exact ⟨_, Decl.unnest_eq hEq (by rw [hd, unnestOpt])⟩
    | some e =>
      obtain ⟨out, hEq'⟩ := (hInit e hd).visit { st₁ with depth := 1, before := [] }
      exact ⟨_, Decl.unnest_eq hEq (by rw [hd, unnestOpt, hEq']; rfl)⟩
  | assignment x hN =>
    obtain ⟨⟨e', st₁⟩, hEq, -⟩ := hN.visit { st with depth := 1, before := [] }
    exact ⟨_, by simp [Stmt.unnest, unnestAssignment, Expr.unnest, hEq]; rfl⟩
  | expr hN =>
    obtain ⟨⟨e', st₁⟩, hEq, -⟩ := hN.visit st
    exact ⟨_, by rw [Stmt.unnest_expr hN, hEq]; rfl⟩
  | @ret e hN =>
    cases e with
    | none => exact ⟨_, by simp [Stmt.unnest, unnestReturn, unnestOpt]; rfl⟩
    | some e =>
      obtain ⟨⟨e', st₁⟩, hEq, -⟩ := (hN e rfl).visit { st with depth := 1 }
      exact ⟨_, by simp [Stmt.unnest, unnestReturn, unnestOpt, hEq]; rfl⟩

section

variable {V : Type} {C : CMeaning V} {names : List String}

/-- After a nested expression the visitor is as deep as before. -/
theorem Expr.Nested.depthAfter {e : Expr} (h : e.Nested) : e.depthAfter = 1 := by
  cases h with
  | @step op _ hOp x => cases op <;> simp_all [UnOp.step?, Expr.depthAfter]
  | _ => rfl

/-- The visit of an initializer, of what is assigned and of what is returned. -/
theorem Expr.Initializer.moves {e : Expr} (h : e.Initializer) (hSeq : e.sequenced = true)
    (hPure : e.armsPure = true) (hNames : ∀ x ∈ e.ids, x ∈ names) (before : List Stmt)
    {idents : Identifiers} (hKnown : ∀ x ∈ names, x ∈ idents.allIdentifiers) :
    ∃ e' idents' new,
      e.unnest ⟨1, before, idents⟩ = some (e', ⟨e.depthAfter, before ++ new, idents'⟩) ∧
      Moves C names e idents e' idents' new ∧ (new = [] ↔ e.hoists 1 = false) := by
  cases h with
  | value hN =>
    rw [hN.depthAfter]
    cases hCall : e.isCall with
    | true =>
      obtain ⟨name, args, rfl⟩ : ∃ name args, e = .funcCall name args := by
        cases hN <;> simp_all [Expr.isCall]
      exact ⟨_, idents, [], by simp [Expr.unnest], .self (CMeaning.framed hN) hNames,
        by simp [Expr.hoists]⟩
    | false =>
      obtain ⟨e', idents', new, hEq, hUn, hNil⟩ :=
        hN.unnests (C := C) 1 before hSeq hPure hNames (le_refl 1) (by simp [hCall]) hKnown
      exact ⟨e', idents', new, hEq, hUn.toMoves, hNil⟩
  | pointer name hN =>
    exact ⟨_, idents, [], by simp [Expr.unnest, UnOp.unnestOperand, Unnester.enter,
      Expr.depthAfter], .self (CMeaning.framed_pointer name hN) hNames, by simp [Expr.hoists,
      UnOp.step?]⟩

/-- A statement that leaves nothing behind becomes statements that do the same. -/
structure Stmt.Keeps (C : CMeaning V) (names : List String) (s : Stmt) (depth : Nat)
    (idents : Identifiers) (stmts : List Stmt) (idents' : Identifiers) : Prop where
  visit : s.unnest ⟨depth, [], idents⟩ = some (stmts, ⟨s.depthAfter depth, [], idents'⟩)
  grows : ∀ x ∈ idents.allIdentifiers, x ∈ idents'.allIdentifiers
  simulates : ∀ ⦃σ τ σ' : CStore V⦄, σ.Agrees names τ → C.run s σ = some (σ', none) →
    (∀ e ∈ s.operands, C.ArmsDefined e σ) →
    ∃ τ', C.runList stmts τ = some (τ', none) ∧ σ'.Agrees names τ'

/-- Stores that agree do so after a variable is declared. -/
theorem CStore.Agrees.undeclare {σ τ : CStore V} (h : σ.Agrees names τ) (x : String) :
    CStore.Agrees names { σ with env := Function.update σ.env x none }
      { τ with env := Function.update τ.env x none } where
  calls := h.calls
  env y hy := by
    by_cases hxy : y = x
    · simp [hxy]
    · simpa [hxy] using h.env y hy

/-- A declaration without a value does the same in stores that agree. -/
theorem CMeaning.declare_agrees {d : Decl} (hInit : d.init = none) {σ τ σ' : CStore V}
    (hAgree : σ.Agrees names τ) (h : C.declare d σ = some σ') :
    ∃ τ', C.declare d τ = some τ' ∧ σ'.Agrees names τ' := by
  obtain ⟨name, quals, type, init⟩ := d
  obtain rfl : init = none := hInit
  cases type with
  | arrayDecl type dim =>
    obtain rfl : σ.set name (C.array name) = σ' := by simpa [declare] using h
    exact ⟨_, rfl, hAgree.set _ _⟩
  | typeDecl | ptrDecl =>
    obtain rfl : { σ with env := Function.update σ.env name none } = σ' := by
      simpa [declare] using h
    exact ⟨_, rfl, hAgree.undeclare name⟩

/-- `visit_Decl` of a declaration without initializer. -/
theorem Stmt.keeps_declaration {d : Decl} (hType : d.type.Sized) (hInit : d.init = none)
    (depth : Nat) (idents : Identifiers) :
    ∃ stmts idents', (Stmt.decl d).Keeps C names depth idents stmts idents' := by
  obtain ⟨⟨type', st₁⟩, hEq, hGrow⟩ := hType.visit ⟨depth, [], idents⟩
  have hVisit := Decl.unnest_eq hEq (by rw [hInit, unnestOpt])
  rw [if_pos rfl] at hVisit
  refine ⟨[.decl ⟨d.name, d.quals, type', none⟩], st₁.idents,
    ⟨by simp [Stmt.unnest, hVisit, Stmt.depthAfter, hInit], hGrow, ?_⟩⟩
  intro σ τ σ' hAgree hRun _
  obtain ⟨τ', hDecl, hAgree'⟩ :=
    CMeaning.declare_agrees hInit hAgree (by simpa [CMeaning.run] using hRun)
  refine ⟨τ', ?_, hAgree'⟩
  have hSame : C.declare ⟨d.name, d.quals, type', none⟩ τ = some τ' := by
    rw [C.declare_visited hEq, ← hInit]
    exact hDecl
  simp [CMeaning.runList, CMeaning.run, hSame]

/-- `visit_Decl` of a declaration with an initializer. -/
theorem Stmt.keeps_init {d : Decl} {e : Expr} (hType : d.type.Sized) (hInit : d.init = some e)
    (he : e.Initializer) (hSeq : e.sequenced = true) (hPure : e.armsPure = true)
    (hNames : ∀ x ∈ e.ids, x ∈ names) (depth : Nat) {idents : Identifiers}
    (hKnown : ∀ x ∈ names, x ∈ idents.allIdentifiers) :
    ∃ stmts idents', (Stmt.decl d).Keeps C names depth idents stmts idents' := by
  obtain ⟨⟨type', st₁⟩, hEq, hGrow⟩ := hType.visit ⟨depth, [], idents⟩
  obtain ⟨e', idents', new, hVisit, hMoves, hNil⟩ :=
    he.moves (C := C) hSeq hPure hNames [] fun x hx => hGrow x (hKnown x hx)
  have hVisit' := Decl.unnest_eq hEq (by rw [hInit, unnestOpt, hVisit]; rfl)
  refine ⟨new ++ [.decl ⟨d.name, d.quals, type', some e'⟩], idents',
    ⟨?_, fun x hx => hMoves.grows x (hGrow x hx), ?_⟩⟩
  · rw [Stmt.unnest, hVisit']
    cases new with
    | nil => simp [Stmt.depthAfter, hInit, hNil.mp rfl]
    | cons s new =>
      have hHoists : e.hoists 1 = true := by
        by_contra hNot
        exact List.cons_ne_nil _ _ (hNil.mpr (by simpa using hNot))
      simp [Stmt.depthAfter, hInit, hHoists]
  · intro σ τ σ' hAgree hRun hArms
    obtain ⟨⟨v, σ₁⟩, hE, rfl⟩ : ∃ out, C.evaluate e σ = some out ∧ out.2.set d.name out.1 = σ' := by
      simpa [CMeaning.run, CMeaning.declare, hInit] using hRun
    obtain ⟨τ₁, τ', hNew, hE', hAgree', -⟩ :=
      hMoves.simulates hAgree hE (hArms e (by simp [Stmt.operands, hInit]))
    refine ⟨τ'.set d.name v, ?_, hAgree'.set _ _⟩
    rw [CMeaning.runList_append hNew]
    simp [CMeaning.runList, CMeaning.run, CMeaning.declare, hE']

/-- `visit_Assignment`. -/
theorem Stmt.keeps_assignment {x : String} {e : Expr} (hN : e.Nested) (hSeq : e.sequenced = true)
    (hPure : e.armsPure = true) (hNames : ∀ y ∈ e.ids, y ∈ names) (depth : Nat)
    {idents : Identifiers} (hKnown : ∀ y ∈ names, y ∈ idents.allIdentifiers) :
    ∃ stmts idents',
      (Stmt.expr (.assignment none (.id x) e)).Keeps C names depth idents stmts idents' := by
  obtain ⟨e', idents', new, hVisit, hMoves, -⟩ :=
    (Expr.Initializer.value hN).moves (C := C) hSeq hPure hNames [] hKnown
  rw [hN.depthAfter] at hVisit
  refine ⟨new ++ [.expr (.assignment none (.id x) e')], idents', ⟨?_, hMoves.grows, ?_⟩⟩
  · simp [Stmt.unnest, unnestAssignment, Expr.unnest, hVisit, Unnester.flush, Stmt.depthAfter]
  · intro σ τ σ' hAgree hRun hArms
    obtain ⟨⟨v, σ₁⟩, hE, rfl⟩ : ∃ out, C.evaluate e σ = some out ∧ out.2.set x out.1 = σ' := by
      simpa [CMeaning.run, CMeaning.execute] using hRun
    obtain ⟨τ₁, τ', hNew, hE', hAgree', -⟩ :=
      hMoves.simulates hAgree hE (hArms e (by simp [Stmt.operands]))
    refine ⟨τ'.set x v, ?_, hAgree'.set _ _⟩
    rw [CMeaning.runList_append hNew]
    simp [CMeaning.runList, CMeaning.run, CMeaning.execute, hE']

/-- Without code that waits nothing is committed. -/
theorem Unnester.exit_commit_nil (depth : Nat) (idents : Identifiers) :
    (⟨depth + 1, [], idents⟩ : Unnester).commitIfIsStmt.exit = ⟨depth, [], idents⟩ := by
  rw [Unnester.commitIfIsStmt]
  split <;> rfl

/-- An expression of which nothing is moved stays as it is. -/
theorem Expr.Nested.unnest_of_not_hoists {e : Expr} (hN : e.Nested) (idents : Identifiers) :
    ∀ {depth : Nat}, e.hoists depth = false →
      e.unnest ⟨depth, [], idents⟩ = some (e, ⟨depth, [], idents⟩) := by
  induction hN with
  | id | constant =>
    intro depth _
    rw [Expr.unnest]
  | @minus e _ ih =>
    intro depth h
    simp only [Expr.hoists, UnOp.step?, Option.isSome_none, Bool.false_or, Bool.or_eq_false_iff,
      decide_eq_false_iff_not] at h
    have hTest : ¬ 2 < depth + 1 := by omega
    simp [Expr.unnest, Unnester.enter, ih h.2, UnOp.unnestOperand, hTest, Unnester.exit_commit_nil]
  | step hOp x =>
    intro depth h
    simp [Expr.hoists, hOp] at h
  | @binary op left right _ _ ihLeft ihRight =>
    intro depth h
    simp only [Expr.hoists, Bool.or_eq_false_iff, decide_eq_false_iff_not] at h
    have hTest : ¬ 2 < depth + 1 := by omega
    simp [Expr.unnest, Unnester.enter, ihLeft h.1.2, ihRight h.2, hTest, Unnester.exit_commit_nil]
  | ternary =>
    intro depth h
    simp [Expr.hoists] at h
  | call name hArgs =>
    intro depth h
    have hTest : ¬ 2 ≤ depth := by simpa [Expr.hoists] using h
    rw [Expr.unnest, if_neg hTest]

/-- An expression statement evaluates its expression. -/
theorem CMeaning.execute_eq {e : Expr} (hN : e.Nested) (hId : ∀ x, e ≠ .id x) (σ : CStore V) :
    C.execute e σ = (C.evaluate e σ).map Prod.snd := by
  cases hN <;> simp_all [CMeaning.execute]

/-- It does the same in stores that agree. -/
theorem CMeaning.execute_agrees {e : Expr} (hN : e.Nested) (hNames : ∀ x ∈ e.ids, x ∈ names)
    {σ τ σ' : CStore V} (hAgree : σ.Agrees names τ) (h : C.execute e σ = some σ') :
    ∃ τ', C.execute e τ = some τ' ∧ σ'.Agrees names τ' := by
  by_cases hId : ∃ x, e = .id x
  · obtain ⟨x, rfl⟩ := hId
    obtain rfl : σ = σ' := by simpa [CMeaning.execute] using h
    exact ⟨τ, rfl, hAgree⟩
  · simp only [CMeaning.execute_eq hN (not_exists.mp hId), Option.map_eq_some_iff] at h ⊢
    obtain ⟨⟨v, σ₁⟩, hE, rfl⟩ := h
    obtain ⟨τ', hE', hAgree', -⟩ := CMeaning.framed hN hNames hAgree hE
    exact ⟨τ', ⟨_, hE', rfl⟩, hAgree'⟩

/-- An expression statement of which nothing is moved. -/
theorem Stmt.keeps_expr {e : Expr} (hN : e.Nested) {depth : Nat} (hStays : e.hoists depth = false)
    (hNames : ∀ x ∈ e.ids, x ∈ names) (idents : Identifiers) :
    ∃ stmts idents', (Stmt.expr e).Keeps C names depth idents stmts idents' := by
  refine ⟨[.expr e], idents, ⟨?_, fun _ hx => hx, ?_⟩⟩
  · rw [Stmt.unnest_expr hN, hN.unnest_of_not_hoists idents hStays]
    cases hN <;> rfl
  · intro σ τ σ' hAgree hRun _
    obtain ⟨τ', hExec, hAgree'⟩ :=
      CMeaning.execute_agrees hN hNames hAgree (by simpa [CMeaning.run] using hRun)
    exact ⟨τ', by simp [CMeaning.runList, CMeaning.run, hExec], hAgree'⟩

/-- A statement that loses nothing keeps its meaning: one case for each kind of simple statement.
-/
theorem Stmt.InScope.keeps {s : Stmt} (h : s.InScope names)
    (hPure : ∀ e ∈ s.operands, e.armsPure = true) {depth : Nat} (hStays : s.leaves depth = false)
    (hReturn : s.isReturn = false) {idents : Identifiers}
    (hKnown : ∀ x ∈ names, x ∈ idents.allIdentifiers) :
    ∃ stmts idents', s.Keeps C names depth idents stmts idents' := by
  obtain ⟨hSimple, hSeq, hNames⟩ := h
  cases hSimple with
  | @decl d hType hInit =>
    cases hd : d.init with
    | none => exact keeps_declaration hType hd depth idents
    | some e =>
      simp only [Stmt.exprs, Stmt.operands, Stmt.names, hd, Option.toList_some, List.mem_singleton,
        forall_eq, List.flatMap_singleton, List.forall_mem_cons] at hSeq hPure hNames
      exact keeps_init hType hd (hInit e hd) hSeq hPure hNames.2 depth hKnown
  | @assignment x e hN =>
    simp only [Stmt.exprs, Stmt.operands, Stmt.names, List.mem_singleton, forall_eq,
      List.flatMap_singleton, Expr.ids, Expr.sequenced, Bool.and_eq_true,
      List.mem_append] at hSeq hPure hNames
    exact keeps_assignment hN hSeq.1.2 hPure (fun y hy => hNames y (.inr hy)) depth hKnown
  | @expr e hN =>
    simp only [Stmt.exprs, Stmt.names, List.flatMap_singleton] at hNames
    exact keeps_expr hN hStays hNames idents
  | ret => simp [Stmt.isReturn] at hReturn

/-- `visit_Return`, which puts what waits before the `return`. -/
theorem Stmt.InScope.returns {e : Option Expr} (h : (Stmt.ret e).InScope names)
    (hPure : ∀ r ∈ (Stmt.ret e).operands, r.armsPure = true) (depth : Nat) (before : List Stmt)
    {idents : Identifiers} (hKnown : ∀ x ∈ names, x ∈ idents.allIdentifiers) :
    ∃ stmts st', (Stmt.ret e).unnest ⟨depth, before, idents⟩ = some (stmts, st') ∧
      ∀ ⦃σ τ τ₁ : CStore V⦄ ⦃out⦄ (rest : List Stmt), C.runList before τ = some (τ₁, none) →
        σ.Agrees names τ₁ → C.run (.ret e) σ = some out →
        (∀ r ∈ (Stmt.ret e).operands, C.ArmsDefined r σ) →
        ∃ τ', C.runList (stmts ++ rest) τ = some (τ', out.2) ∧ out.1.Agrees names τ' := by
  cases e with
  | none =>
    refine ⟨before ++ [.ret none], ⟨1, [], idents⟩,
      by simp [Stmt.unnest, unnestReturn, unnestOpt, Unnester.flush], ?_⟩
    intro σ τ τ₁ out rest hBefore hAgree hRun _
    obtain rfl : (σ, some none) = out := by simpa [CMeaning.run] using hRun
    refine ⟨τ₁, ?_, hAgree⟩
    rw [List.append_assoc, CMeaning.runList_append hBefore]
    rfl
  | some e =>
    have hN : e.Nested := by
      cases h.simple with
      | ret hN => exact hN e rfl
    have hNames : ∀ x ∈ e.ids, x ∈ names := by
      simpa [Stmt.names, Stmt.exprs] using h.names
    obtain ⟨e', idents', new, hVisit, hMoves, -⟩ := (Expr.Initializer.value hN).moves (C := C)
      (h.sequenced e (by simp [Stmt.exprs])) (hPure e (by simp [Stmt.operands])) hNames before
      hKnown
    refine ⟨before ++ new ++ [.ret (some e')], ⟨e.depthAfter, [], idents'⟩,
      by simp [Stmt.unnest, unnestReturn, unnestOpt, hVisit, Unnester.flush], ?_⟩
    intro σ τ τ₁ out rest hBefore hAgree hRun hArms
    obtain ⟨⟨v, σ₁⟩, hE, rfl⟩ :
        ∃ res, C.evaluate e σ = some res ∧ (res.2, some (some res.1)) = out := by
      simpa [CMeaning.run] using hRun
    obtain ⟨τ₂, τ', hNew, hE', hAgree', -⟩ :=
      hMoves.simulates hAgree hE (hArms e (by simp [Stmt.operands]))
    refine ⟨τ', ?_, hAgree'⟩
    rw [List.append_assoc, List.append_assoc, CMeaning.runList_append hBefore,
      CMeaning.runList_append hNew]
    simp [CMeaning.runList, CMeaning.run, hE']

end

end Obscure
