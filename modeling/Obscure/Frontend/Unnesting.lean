import Obscure.Frontend.SideEffects
import Obscure.Frontend.Unnester

/-!
# OBSCURE — unnesting of expressions

What the visitors of `Unnester` make of an expression: statements that wait, and an expression
without effects that has the value once they are executed (`Unnests`). The parts of a
conditional, and the second operands of `&&` and `||`, are evaluated whatever the test says; so
they must have no effects, and values.

* `Expr.Nested.unnests` — the visit of every expression but a call in a place of its own.
-/

namespace Obscure

-- ---------------------------------------------------------------------------
-- Expressions that may be unnested
-- ---------------------------------------------------------------------------

def Expr.isAtom : Expr → Bool
  | .id _ | .constant _ => true
  | _ => false

/-- No side effect and no call waits for a test: none is in the arms of `?:` or in the second
operand of `&&` and `||`. Arguments of calls are not visited. -/
def Expr.armsPure : Expr → Bool
  | .unaryOp _ e => e.armsPure
  | .binaryOp op left right =>
    left.armsPure && right.armsPure && (!op.isLogical || !right.hasEffects)
  | .ternaryOp cond iftrue iffalse =>
    cond.armsPure && iftrue.armsPure && iffalse.armsPure &&
      (!iftrue.hasEffects && !iffalse.hasEffects)
  | _ => true

/-- What waits for a test has a value whatever the test says. -/
def CMeaning.ArmsDefined {V : Type} (C : CMeaning V) : Expr → CStore V → Prop
  | .unaryOp _ e, σ => C.ArmsDefined e σ
  | .binaryOp op left right, σ =>
    C.ArmsDefined left σ ∧ ∀ a σ', C.evaluate left σ = some (a, σ') →
      C.ArmsDefined right σ' ∧
        (op.isLogical = true → right.isAtom = false → (C.evaluate right σ').isSome)
  | .ternaryOp cond iftrue iffalse, σ =>
    C.ArmsDefined cond σ ∧ ∀ c σ', C.evaluate cond σ = some (c, σ') →
      (C.ArmsDefined iftrue σ' ∧ (C.evaluate iftrue σ').isSome) ∧
        (C.ArmsDefined iffalse σ' ∧ (C.evaluate iffalse σ').isSome)
  | _, _ => True

/-- Whether something of the expression is moved before the statement. -/
def Expr.hoists : Expr → Nat → Bool
  | .unaryOp op e, depth => op.step?.isSome || decide (2 ≤ depth) || e.hoists (depth + 1)
  | .binaryOp _ left right, depth =>
    decide (2 ≤ depth) || left.hoists (depth + 1) || right.hoists (depth + 1)
  | .ternaryOp .., _ => true
  | .funcCall .., depth => 2 ≤ depth
  | _, _ => false

namespace CMeaning

variable {V : Type} {C : CMeaning V}

/-- The second part is executed if the first one does not return. -/
theorem runList_append {stmts rest : List Stmt} {σ σ' : CStore V}
    (h : C.runList stmts σ = some (σ', none)) :
    C.runList (stmts ++ rest) σ = C.runList rest σ' := by
  induction stmts generalizing σ with
  | nil =>
    obtain rfl : σ = σ' := by simpa [runList] using h
    rfl
  | cons s stmts ih =>
    simp only [runList, Option.bind_eq_some_iff] at h
    obtain ⟨⟨σ₁, r⟩, hRun, hRest⟩ := h
    cases r with
    | none => simpa [runList, hRun] using ih hRest
    | some w => simp at hRest

/-- The declaration of a temporary gives it the value of the expression. -/
theorem runList_tmpDecl {e : Expr} {σ σ' : CStore V} {v : V} (tmp : String) (rest : List Stmt)
    (h : C.evaluate e σ = some (v, σ')) :
    C.runList (tmpDecl tmp e :: rest) σ = C.runList rest (σ'.set tmp v) := by
  simp [runList, run, tmpDecl, declare, h]

/-- The statement for an increment adds one to the variable. -/
theorem runList_stepStmt {step : BinOp} (hStep : ∀ a, C.decided step a = none) {x : String}
    {σ : CStore V} {old new : V} (hOld : σ.env x = some old)
    (hNew : C.combine step old (C.constant 1) = some new) :
    C.runList [stepStmt (.id x) step] σ = some (σ.set x new, none) := by
  have hValue : C.evaluate (.binaryOp step (.id x) (.constant 1)) σ = some (new, σ) :=
    evaluate_binaryOp_iff.mpr ⟨old, σ, evaluate_id_iff.mpr ⟨hOld, rfl⟩,
      .inr ⟨hStep old, _, rfl, hNew⟩⟩
  simp [runList, run, stepStmt, execute, hValue]

end CMeaning

-- ---------------------------------------------------------------------------
-- One expression
-- ---------------------------------------------------------------------------

/-- A new identifier. -/
structure Fresh (idents : Identifiers) (tmp : String) (idents' : Identifiers) : Prop where
  new : tmp ∉ idents.allIdentifiers
  mem : tmp ∈ idents'.allIdentifiers
  grows : ∀ x ∈ idents.allIdentifiers, x ∈ idents'.allIdentifiers

/-- The names of the generator are fresh. -/
theorem fresh_genNextIdent (pre : String) (idents : Identifiers) :
    Fresh idents (genNextIdent pre idents).1 (genNextIdent pre idents).2 where
  new := freshGen_genNextIdent.fresh pre idents
  mem := List.mem_cons_self
  grows _ hx := List.mem_cons_of_mem _ hx

/-- A fresh name is not one of the others. -/
theorem Fresh.set_env {V : Type} {idents idents' : Identifiers} {tmp x : String}
    (h : Fresh idents tmp idents') (hx : x ∈ idents.allIdentifiers) (τ : CStore V) (v : V) :
    (τ.set tmp v).env x = τ.env x := by
  refine CStore.set_env_of_ne _ ?_ v
  rintro rfl
  exact h.new hx

/-- What an expression becomes: first some statements, then another expression. -/
structure Moves {V : Type} (C : CMeaning V) (names : List String) (e : Expr)
    (idents : Identifiers) (e' : Expr) (idents' : Identifiers) (new : List Stmt) : Prop where
  grows : ∀ x ∈ idents.allIdentifiers, x ∈ idents'.allIdentifiers
  simulates : ∀ ⦃σ τ σ' : CStore V⦄ ⦃v : V⦄, σ.Agrees names τ →
    C.evaluate e σ = some (v, σ') → C.ArmsDefined e σ →
    ∃ τ₁ τ', C.runList new τ = some (τ₁, none) ∧ C.evaluate e' τ₁ = some (v, τ') ∧
      σ'.Agrees names τ' ∧ ∀ x ∈ idents.allIdentifiers, x ∉ e.writes → τ'.env x = τ.env x

/-- All effects are in the statements. The names of temporaries are new. -/
structure Unnests {V : Type} (C : CMeaning V) (names : List String) (e : Expr)
    (idents : Identifiers) (e' : Expr) (idents' : Identifiers) (new : List Stmt) : Prop
    extends Moves C names e idents e' idents' new where
  nested : e'.Nested
  noEffects : e'.hasEffects = false
  ids : ∀ x ∈ e'.ids,
    x ∈ idents'.allIdentifiers ∧ (x ∈ e.ids ∨ x ∉ idents.allIdentifiers)

section

variable {V : Type} {C : CMeaning V} {names : List String} {idents idents₁ idents₂ : Identifiers}

/-- An expression that stays where it is. -/
theorem Moves.self {e : Expr} (hFramed : C.Framed e) (hNames : ∀ x ∈ e.ids, x ∈ names) :
    Moves C names e idents e idents [] where
  grows _ hx := hx
  simulates σ τ σ' v hAgree h _ := by
    obtain ⟨τ', hE', hAgree', hKeep⟩ := hFramed hNames hAgree h
    exact ⟨τ, τ', rfl, hE', hAgree', fun x _ hw => hKeep x hw⟩

/-- The value moves to a temporary. -/
theorem Moves.tmp {e e' : Expr} {new : List Stmt} {tmp : String}
    (h : Moves C names e idents e' idents₁ new) (hFresh : Fresh idents₁ tmp idents₂)
    (hKnown : ∀ x ∈ names, x ∈ idents.allIdentifiers) :
    Unnests C names e idents (.id tmp) idents₂ (new ++ [tmpDecl tmp e']) where
  grows x hx := hFresh.grows x (h.grows x hx)
  nested := .id _
  noEffects := rfl
  ids x hx := by
    obtain rfl : x = tmp := by simpa [Expr.ids] using hx
    exact ⟨hFresh.mem, .inr fun hOld => hFresh.new (h.grows x hOld)⟩
  simulates σ τ σ' v hAgree hE hArms := by
    obtain ⟨τ₁, τ', hRun, hE', hAgree', hKeep⟩ := h.simulates hAgree hE hArms
    have hOther : ∀ x ∈ idents.allIdentifiers, (τ'.set tmp v).env x = τ'.env x :=
      fun x hx => hFresh.set_env (h.grows x hx) τ' v
    refine ⟨τ'.set tmp v, _, ?_, CMeaning.evaluate_id_iff.mpr ⟨CStore.set_env_self _ _ _, rfl⟩,
      ⟨hAgree'.calls, fun x hx => ?_⟩, fun x hx hw => ?_⟩
    · rw [CMeaning.runList_append hRun, CMeaning.runList_tmpDecl _ _ hE']
      rfl
    · rw [hOther x (hKnown x hx), hAgree'.env x hx]
    · rw [hOther x hx, hKeep x hx hw]

namespace Unnests

/-- What has no effects may stay. -/
theorem self {e : Expr} (hN : e.Nested) (hPure : e.hasEffects = false)
    (hNames : ∀ x ∈ e.ids, x ∈ names) (hKnown : ∀ x ∈ names, x ∈ idents.allIdentifiers) :
    Unnests C names e idents e idents [] where
  toMoves := .self (CMeaning.framed hN) hNames
  nested := hN
  noEffects := hPure
  ids x hx := ⟨hKnown x (hNames x hx), .inl hx⟩

/-- The expression that is left does not change the store. -/
theorem value {e e' : Expr} {new : List Stmt} (h : Unnests C names e idents e' idents₁ new)
    {σ τ σ' : CStore V} {v : V} (hAgree : σ.Agrees names τ) (hE : C.evaluate e σ = some (v, σ'))
    (hArms : C.ArmsDefined e σ) :
    ∃ τ', C.runList new τ = some (τ', none) ∧ C.evaluate e' τ' = some (v, τ') ∧
      σ'.Agrees names τ' ∧ ∀ x ∈ idents.allIdentifiers, x ∉ e.writes → τ'.env x = τ.env x := by
  obtain ⟨τ₁, τ', hRun, hE', hAgree', hKeep⟩ := h.simulates hAgree hE hArms
  obtain ⟨rfl, -⟩ := CMeaning.evaluate_pure h.nested h.noEffects (fun _ _ => rfl) hE'
  exact ⟨τ', hRun, hE', hAgree', hKeep⟩

/-- Its value stays where the variables stay that it reads. -/
theorem value_of_env {e e' : Expr} {new : List Stmt} (h : Unnests C names e idents e' idents₁ new)
    {τ τ' : CStore V} {v : V} (hE : C.evaluate e' τ = some (v, τ))
    (hEnv : ∀ x ∈ idents₁.allIdentifiers, x ∈ e.ids ∨ x ∉ idents.allIdentifiers →
      τ'.env x = τ.env x) : C.evaluate e' τ' = some (v, τ') :=
  (CMeaning.evaluate_pure h.nested h.noEffects
    (fun x hx => (hEnv x (h.ids x hx).1 (h.ids x hx).2).symm) hE).2

/-- A minus over an operand that was unnested. -/
theorem minus {e e' : Expr} {new : List Stmt} (h : Unnests C names e idents e' idents₁ new) :
    Unnests C names (.unaryOp .minus e) idents (.unaryOp .minus e') idents₁ new where
  grows := h.grows
  nested := .minus h.nested
  noEffects := by simpa [Expr.hasEffects, UnOp.step?] using h.noEffects
  ids := h.ids
  simulates σ τ σ' v hAgree hE hArms := by
    obtain ⟨a, hA, ha⟩ := CMeaning.evaluate_minus_iff.mp hE
    obtain ⟨τ', hRun, hA', hAgree', hKeep⟩ := h.value hAgree hA hArms
    exact ⟨τ', τ', hRun, CMeaning.evaluate_minus_iff.mpr ⟨a, hA', ha⟩, hAgree', hKeep⟩

/-- `&&` and `||` with a second operand that stays as it is. -/
theorem binary_atom {op : BinOp} {left left' right : Expr} {new : List Stmt}
    (hLeft : Unnests C names left idents left' idents₁ new)
    (hN : right.Nested) (hPure : right.hasEffects = false)
    (hNames : ∀ x ∈ right.ids, x ∈ names) (hKnown : ∀ x ∈ names, x ∈ idents.allIdentifiers) :
    Unnests C names (.binaryOp op left right) idents (.binaryOp op left' right) idents₁ new where
  grows := hLeft.grows
  nested := .binary op hLeft.nested hN
  noEffects := by simp [Expr.hasEffects, hLeft.noEffects, hPure]
  ids x hx := by
    rcases List.mem_append.mp hx with h | h
    · exact ⟨(hLeft.ids x h).1, (hLeft.ids x h).2.imp_left (List.mem_append_left _)⟩
    · exact ⟨hLeft.grows x (hKnown x (hNames x h)), .inl (List.mem_append_right _ h)⟩
  simulates σ τ σ' v hAgree hE hArms := by
    obtain ⟨a, σ₁, hL, hOp⟩ := CMeaning.evaluate_binaryOp_iff.mp hE
    obtain ⟨τ', hRun, hL', hAgree', hKeep⟩ := hLeft.value hAgree hL hArms.1
    have hWrites : ∀ x, x ∉ (Expr.binaryOp op left right).writes → x ∉ left.writes :=
      fun x hx h => hx (List.mem_append_left _ h)
    obtain ⟨hDec, rfl⟩ | ⟨hDec, b, hR, hv⟩ := hOp
    · exact ⟨τ', τ', hRun, CMeaning.evaluate_binaryOp_iff.mpr ⟨a, τ', hL', .inl ⟨hDec, rfl⟩⟩,
        hAgree', fun x hx hw => hKeep x hx (hWrites x hw)⟩
    · obtain ⟨rfl, hR'⟩ := CMeaning.evaluate_pure hN hPure
        (fun x hx => hAgree'.env x (hNames x hx)) hR
      exact ⟨τ', τ', hRun,
        CMeaning.evaluate_binaryOp_iff.mpr ⟨a, τ', hL', .inr ⟨hDec, b, hR', hv⟩⟩, hAgree',
        fun x hx hw => hKeep x hx (hWrites x hw)⟩

/-- Both operands are unnested. The second one does not change what the first one reads. -/
theorem binary {op : BinOp} {left left' right right' : Expr} {newLeft newRight : List Stmt}
    (hLeft : Unnests C names left idents left' idents₁ newLeft)
    (hRight : Unnests C names right idents₁ right' idents₂ newRight)
    (hApart : ∀ x ∈ right.writes, x ∉ left.ids)
    (hPure : op.isLogical = true → right.hasEffects = false ∧ right.isAtom = false)
    (hN : right.Nested) (hNames : ∀ x ∈ right.ids, x ∈ names)
    (hKnown : ∀ x ∈ names, x ∈ idents.allIdentifiers) :
    Unnests C names (.binaryOp op left right) idents (.binaryOp op left' right') idents₂
      (newLeft ++ newRight) where
  grows x hx := hRight.grows x (hLeft.grows x hx)
  nested := .binary op hLeft.nested hRight.nested
  noEffects := by simp [Expr.hasEffects, hLeft.noEffects, hRight.noEffects]
  ids x hx := by
    rcases List.mem_append.mp hx with h | h
    · exact ⟨hRight.grows x (hLeft.ids x h).1,
        (hLeft.ids x h).2.imp_left (List.mem_append_left _)⟩
    · exact ⟨(hRight.ids x h).1,
        (hRight.ids x h).2.imp (List.mem_append_right _) fun hNot hx => hNot (hLeft.grows x hx)⟩
  simulates σ τ σ' v hAgree hE hArms := by
    obtain ⟨a, σ₁, hL, hOp⟩ := CMeaning.evaluate_binaryOp_iff.mp hE
    obtain ⟨τ₁, hRun₁, hL₁, hAgree₁, hKeep₁⟩ := hLeft.value hAgree hL hArms.1
    obtain ⟨hArmsR, hSome⟩ := hArms.2 a σ₁ hL
    -- the second operand is evaluated in any case
    have hRightValue : ∃ b σ₂, C.evaluate right σ₁ = some (b, σ₂) ∧
        (C.decided op a = some v ∧ σ' = σ₂ ∨
          C.decided op a = none ∧ σ' = σ₂ ∧ C.combine op a b = some v) := by
      obtain ⟨hDec, rfl⟩ | ⟨hDec, b, hR, hv⟩ := hOp
      · have hLogical : op.isLogical = true := by
          by_contra hNot
          rw [CMeaning.decided_eq_none (by simpa using hNot)] at hDec
          simp at hDec
        obtain ⟨⟨b, σ₂⟩, hR⟩ :=
          Option.isSome_iff_exists.mp (hSome hLogical (hPure hLogical).2)
        obtain ⟨rfl, -⟩ :=
          CMeaning.evaluate_pure hN (hPure hLogical).1 (fun _ _ => rfl) hR
        exact ⟨b, σ₂, hR, .inl ⟨hDec, rfl⟩⟩
      · exact ⟨b, σ', hR, .inr ⟨hDec, rfl, hv⟩⟩
    obtain ⟨b, σ₂, hR, hValue⟩ := hRightValue
    obtain ⟨τ₂, hRun₂, hR₂, hAgree₂, hKeep₂⟩ := hRight.value hAgree₁ hR hArmsR
    have hL₂ : C.evaluate left' τ₂ = some (a, τ₂) := by
      refine hLeft.value_of_env hL₁ fun x hx hOld => hKeep₂ x hx fun hw => ?_
      exact hOld.elim (hApart x hw) fun hNew => hNew (hKnown x (hNames x (hN.mem_ids hw)))
    obtain rfl : σ' = σ₂ := by
      obtain ⟨-, h⟩ | ⟨-, h, -⟩ := hValue <;> exact h
    refine ⟨τ₂, τ₂, (CMeaning.runList_append hRun₁).trans hRun₂, ?_, hAgree₂, fun x hx hw => ?_⟩
    · refine CMeaning.evaluate_binaryOp_iff.mpr ⟨a, τ₂, hL₂, ?_⟩
      exact hValue.imp (fun h => ⟨h.1, rfl⟩) fun h => ⟨h.1, b, hR₂, h.2.2⟩
    · rw [hKeep₂ x (hLeft.grows x hx) fun h => hw (List.mem_append_right _ h),
        hKeep₁ x hx fun h => hw (List.mem_append_left _ h)]

/-- `x++` and `x--`. -/
theorem step_after {op : UnOp} {step : BinOp} {x tmp : String} (hOp : op.step? = some step)
    (hPost : op.isPostfix = true) (hName : x ∈ names) (hFresh : Fresh idents tmp idents₁)
    (hKnown : ∀ x ∈ names, x ∈ idents.allIdentifiers) :
    Unnests C names (.unaryOp op (.id x)) idents (.id tmp) idents₁
      [tmpDecl tmp (.id x), stepStmt (.id x) step] where
  grows := hFresh.grows
  nested := .id _
  noEffects := rfl
  ids y hy := by
    obtain rfl : y = tmp := by simpa [Expr.ids] using hy
    exact ⟨hFresh.mem, .inr hFresh.new⟩
  simulates σ τ σ' v hAgree hE _ := by
    obtain ⟨old, new, hOld, hNew, rfl, rfl⟩ := (CMeaning.evaluate_step_iff hOp).mp hE
    rw [hAgree.env x hName] at hOld
    have hNe : tmp ≠ x := fun h => hFresh.new (h ▸ hKnown x hName)
    have hOld' : (τ.set tmp old).env x = some old := by
      rw [hFresh.set_env (hKnown x hName), hOld]
    have hAgree' : σ.Agrees names (τ.set tmp old) :=
      ⟨hAgree.calls, fun y hy => by rw [hFresh.set_env (hKnown y hy), hAgree.env y hy]⟩
    refine ⟨(τ.set tmp old).set x new, _, ?_, CMeaning.evaluate_id_iff.mpr ⟨?_, rfl⟩,
      hAgree'.set x new, fun y hy hw => ?_⟩
    · rw [CMeaning.runList_tmpDecl tmp _ (CMeaning.evaluate_id_iff.mpr ⟨hOld, rfl⟩),
        CMeaning.runList_stepStmt (CMeaning.decided_step hOp) hOld' hNew]
    · rw [CStore.set_env_of_ne _ hNe, CStore.set_env_self, if_pos hPost]
    · rw [CStore.set_env_of_ne, hFresh.set_env hy]
      rintro rfl
      simp [Expr.writes, hOp, Expr.ids] at hw

/-- `++x` and `--x`. -/
theorem step_before {op : UnOp} {step : BinOp} {x : String} (hOp : op.step? = some step)
    (hPost : op.isPostfix = false) (hName : x ∈ names)
    (hKnown : ∀ x ∈ names, x ∈ idents.allIdentifiers) :
    Unnests C names (.unaryOp op (.id x)) idents (.id x) idents [stepStmt (.id x) step] where
  grows _ hx := hx
  nested := .id _
  noEffects := rfl
  ids y hy := by
    obtain rfl : y = x := by simpa [Expr.ids] using hy
    exact ⟨hKnown y hName, .inl hy⟩
  simulates σ τ σ' v hAgree hE _ := by
    obtain ⟨old, new, hOld, hNew, rfl, rfl⟩ := (CMeaning.evaluate_step_iff hOp).mp hE
    rw [hAgree.env x hName] at hOld
    refine ⟨τ.set x new, _, CMeaning.runList_stepStmt (CMeaning.decided_step hOp) hOld hNew,
      CMeaning.evaluate_id_iff.mpr ⟨by simp [hPost], rfl⟩, hAgree.set x new, fun y hy hw => ?_⟩
    refine CStore.set_env_of_ne _ ?_ _
    rintro rfl
    simp [Expr.writes, hOp, Expr.ids] at hw

/-- A value stays when a new variable is set. -/
theorem value_set {e e' : Expr} {new : List Stmt} (h : Unnests C names e idents e' idents₁ new)
    {tmp : String} (hFresh : ∃ idents₃, Fresh idents₂ tmp idents₃)
    (hLater : ∀ x ∈ idents₁.allIdentifiers, x ∈ idents₂.allIdentifiers) {τ : CStore V} {v : V}
    (hE : C.evaluate e' τ = some (v, τ)) (w : V) :
    C.evaluate e' (τ.set tmp w) = some (v, τ.set tmp w) := by
  obtain ⟨idents₃, hFresh⟩ := hFresh
  exact h.value_of_env hE fun x hx _ => hFresh.set_env (hLater x hx) τ w

/-- The three parts of a conditional, one after the other. -/
theorem ternary_parts {cond cond' iftrue iftrue' iffalse iffalse' : Expr}
    {newCond newTrue newFalse : List Stmt} {idents₃ : Identifiers}
    (hCond : Unnests C names cond idents cond' idents₁ newCond)
    (hTrue : Unnests C names iftrue idents₁ iftrue' idents₂ newTrue)
    (hFalse : Unnests C names iffalse idents₂ iffalse' idents₃ newFalse)
    (hTrueWrites : iftrue.writes = []) (hFalseWrites : iffalse.writes = [])
    {σ σ₁ τ : CStore V} {c t f : V} (hAgree : σ.Agrees names τ)
    (hC : C.evaluate cond σ = some (c, σ₁)) (hT : C.evaluate iftrue σ₁ = some (t, σ₁))
    (hF : C.evaluate iffalse σ₁ = some (f, σ₁)) (hArmsC : C.ArmsDefined cond σ)
    (hArmsT : C.ArmsDefined iftrue σ₁) (hArmsF : C.ArmsDefined iffalse σ₁) :
    ∃ τ', C.runList (newCond ++ (newTrue ++ newFalse)) τ = some (τ', none) ∧
      C.evaluate cond' τ' = some (c, τ') ∧ C.evaluate iftrue' τ' = some (t, τ') ∧
      C.evaluate iffalse' τ' = some (f, τ') ∧ σ₁.Agrees names τ' ∧
      ∀ x ∈ idents.allIdentifiers, x ∉ cond.writes → τ'.env x = τ.env x := by
  obtain ⟨τ₁, hRun₁, hC₁, hAgree₁, hKeep₁⟩ := hCond.value hAgree hC hArmsC
  obtain ⟨τ₂, hRun₂, hT₂, hAgree₂, hKeep₂⟩ := hTrue.value hAgree₁ hT hArmsT
  obtain ⟨τ₃, hRun₃, hF₃, hAgree₃, hKeep₃⟩ := hFalse.value hAgree₂ hF hArmsF
  rw [hTrueWrites] at hKeep₂
  rw [hFalseWrites] at hKeep₃
  have hKeep : ∀ x ∈ idents₁.allIdentifiers, τ₃.env x = τ₁.env x := fun x hx =>
    (hKeep₃ x (hTrue.grows x hx) List.not_mem_nil).trans (hKeep₂ x hx List.not_mem_nil)
  refine ⟨τ₃, ?_, hCond.value_of_env hC₁ fun x hx _ => hKeep x hx,
    hTrue.value_of_env hT₂ fun x hx _ => hKeep₃ x hx List.not_mem_nil, hF₃, hAgree₃,
    fun x hx hw => (hKeep x (hCond.grows x hx)).trans (hKeep₁ x hx hw)⟩
  rw [CMeaning.runList_append hRun₁, CMeaning.runList_append hRun₂, hRun₃]

/-- Both arms of a conditional are evaluated, into temporaries. -/
theorem ternary {cond cond' iftrue iftrue' iffalse iffalse' : Expr}
    {newCond newTrue newFalse : List Stmt} {tmpCond tmpTrue tmpFalse : String}
    {idents₃ idents₄ idents₅ idents₆ : Identifiers}
    (hCond : Unnests C names cond idents cond' idents₁ newCond)
    (hTrue : Unnests C names iftrue idents₁ iftrue' idents₂ newTrue)
    (hFalse : Unnests C names iffalse idents₂ iffalse' idents₃ newFalse)
    (hTmpCond : Fresh idents₃ tmpCond idents₄) (hTmpTrue : Fresh idents₄ tmpTrue idents₅)
    (hTmpFalse : Fresh idents₅ tmpFalse idents₆)
    (hTrueN : iftrue.Nested) (hFalseN : iffalse.Nested)
    (hTruePure : iftrue.hasEffects = false) (hFalsePure : iffalse.hasEffects = false)
    (hKnown : ∀ x ∈ names, x ∈ idents.allIdentifiers) :
    Unnests C names (.ternaryOp cond iftrue iffalse) idents
      (.ternaryOp (.id tmpCond) (.id tmpTrue) (.id tmpFalse)) idents₆
      (newCond ++ (newTrue ++ newFalse) ++
        [tmpDecl tmpCond cond', tmpDecl tmpTrue iftrue', tmpDecl tmpFalse iffalse']) := by
  have hOld : ∀ x ∈ idents.allIdentifiers, x ∈ idents₃.allIdentifiers :=
    fun x hx => hFalse.grows x (hTrue.grows x (hCond.grows x hx))
  refine ⟨⟨fun x hx => hTmpFalse.grows x (hTmpTrue.grows x (hTmpCond.grows x (hOld x hx))), ?_⟩,
    .ternary (.id _) (.id _) (.id _), rfl, fun x hx => ?_⟩
  · intro σ τ σ' v hAgree hE hArms
    obtain ⟨c, σ₁, hC, hArm⟩ := CMeaning.evaluate_ternaryOp_iff.mp hE
    obtain ⟨⟨hArmsT, hSomeT⟩, hArmsF, hSomeF⟩ := hArms.2 c σ₁ hC
    -- both arms have values, and the store stays
    obtain ⟨⟨t, σ₂⟩, hT⟩ := Option.isSome_iff_exists.mp hSomeT
    obtain ⟨⟨f, σ₃⟩, hF⟩ := Option.isSome_iff_exists.mp hSomeF
    obtain ⟨rfl, -⟩ := CMeaning.evaluate_pure hTrueN hTruePure (fun _ _ => rfl) hT
    obtain ⟨rfl, -⟩ := CMeaning.evaluate_pure hFalseN hFalsePure (fun _ _ => rfl) hF
    obtain ⟨rfl, hv⟩ : σ' = σ₃ ∧ v = if C.isTrue c then t else f := by
      split at hArm <;> simp_all
    obtain ⟨τ₃, hRun, hC₃, hT₃, hF₃, hAgree₃, hKeep⟩ := hCond.ternary_parts hTrue hFalse
      (hTrueN.writes_eq_nil hTruePure) (hFalseN.writes_eq_nil hFalsePure) hAgree hC hT hF hArms.1
      hArmsT hArmsF
    -- the temporaries
    have hT₄ := hTrue.value_set ⟨_, hTmpCond⟩ hFalse.grows hT₃ c
    have hF₅ := hFalse.value_set ⟨_, hTmpTrue⟩ hTmpCond.grows
      (hFalse.value_set ⟨_, hTmpCond⟩ (fun _ hx => hx) hF₃ c) t
    set τ₅ := (τ₃.set tmpCond c).set tmpTrue t with hτ₅
    have hOther : ∀ x ∈ idents₃.allIdentifiers, (τ₅.set tmpFalse f).env x = τ₃.env x := by
      intro x hx
      rw [hTmpFalse.set_env (hTmpTrue.grows x (hTmpCond.grows x hx)),
        hTmpTrue.set_env (hTmpCond.grows x hx), hTmpCond.set_env hx]
    refine ⟨τ₅.set tmpFalse f, τ₅.set tmpFalse f, ?_, CMeaning.evaluate_ternaryOp_iff.mpr
      ⟨c, _, CMeaning.evaluate_id_iff.mpr ⟨?_, rfl⟩, ?_⟩, ⟨hAgree₃.calls, fun x hx => ?_⟩,
      fun x hx hw => ?_⟩
    · rw [CMeaning.runList_append hRun, CMeaning.runList_tmpDecl _ _ hC₃,
        CMeaning.runList_tmpDecl _ _ hT₄, CMeaning.runList_tmpDecl _ _ hF₅]
      rfl
    · rw [hTmpFalse.set_env (hTmpTrue.grows _ hTmpCond.mem), hTmpTrue.set_env hTmpCond.mem,
        CStore.set_env_self]
    · rw [hv]
      split
      · exact CMeaning.evaluate_id_iff.mpr
          ⟨by rw [hTmpFalse.set_env hTmpTrue.mem, CStore.set_env_self], rfl⟩
      · exact CMeaning.evaluate_id_iff.mpr ⟨CStore.set_env_self _ _ _, rfl⟩
    · rw [hOther x (hOld x (hKnown x hx)), hAgree₃.env x hx]
    · rw [hOther x (hOld x hx), hKeep x hx fun h => hw (by simp [Expr.writes, h])]
  · obtain rfl | rfl | rfl : x = tmpCond ∨ x = tmpTrue ∨ x = tmpFalse := by
      simpa [Expr.ids] using hx
    · exact ⟨hTmpFalse.grows _ (hTmpTrue.grows _ hTmpCond.mem),
        .inr fun h => hTmpCond.new (hOld _ h)⟩
    · exact ⟨hTmpFalse.grows _ hTmpTrue.mem,
        .inr fun h => hTmpTrue.new (hTmpCond.grows _ (hOld _ h))⟩
    · exact ⟨hTmpFalse.mem,
        .inr fun h => hTmpFalse.new (hTmpTrue.grows _ (hTmpCond.grows _ (hOld _ h)))⟩

end Unnests

/-- Within an expression the code waits for the statement. -/
theorem Unnester.exit_commit {depth : Nat} (hDepth : 1 ≤ depth) (before : List Stmt)
    (idents : Identifiers) :
    (⟨depth + 1, before, idents⟩ : Unnester).commitIfIsStmt.exit = ⟨depth, before, idents⟩ := by
  rw [Unnester.commitIfIsStmt, if_neg (by simp; omega)]
  rfl

/-- A temporary is declared in the code that waits. -/
theorem Unnester.makeTmp_eq (depth : Nat) (before : List Stmt) (idents : Identifiers)
    (value : Expr) :
    (⟨depth, before, idents⟩ : Unnester).makeTmp value =
      (.id (genNextIdent "@subexpr_" idents).1,
        ⟨depth, before ++ [tmpDecl (genNextIdent "@subexpr_" idents).1 value],
          (genNextIdent "@subexpr_" idents).2⟩) := rfl

/-- For a postfix operator the old value is saved first. -/
theorem UnOp.unnestOperand_after {op : UnOp} {step : BinOp} (hOp : op.step? = some step)
    (hPost : op.isPostfix = true) (e : Expr) (st : Unnester) :
    op.unnestOperand e st =
      some ((st.makeTmp e).1, ((st.makeTmp e).2.append (stepStmt e step)).commitIfIsStmt.exit) := by
  cases op with
  | postIncr | postDecr =>
    obtain rfl := Option.some.inj hOp
    rfl
  | _ => simp [UnOp.isPostfix] at hPost

/-- For a prefix operator it is not. -/
theorem UnOp.unnestOperand_before {op : UnOp} {step : BinOp} (hOp : op.step? = some step)
    (hPost : op.isPostfix = false) (e : Expr) (st : Unnester) :
    op.unnestOperand e st = some (e, (st.append (stepStmt e step)).commitIfIsStmt.exit) := by
  cases op with
  | preIncr | preDecr =>
    obtain rfl := Option.some.inj hOp
    rfl
  | _ => simp_all [UnOp.step?, UnOp.isPostfix]

/-- An increment is visited at a greater depth. -/
theorem Expr.unnest_step (op : UnOp) (x : String) (st : Unnester) :
    (Expr.unaryOp op (.id x)).unnest st = op.unnestOperand (.id x) st.enter := by
  simp only [Expr.unnest, Option.bind_eq_bind, Option.bind_some]

/-- Variables and constants stay. -/
theorem Expr.unnest_atom {e : Expr} (h : e.isAtom = true) (st : Unnester) :
    e.unnest st = some (e, st) := by
  cases e <;> simp_all [Expr.isAtom, Expr.unnest]

/-- They have no side effects. -/
theorem Expr.hasEffects_atom {e : Expr} (h : e.isAtom = true) : e.hasEffects = false := by
  cases e <;> simp_all [Expr.isAtom, Expr.hasEffects]

def Expr.isCall : Expr → Bool
  | .funcCall .. => true
  | _ => false

/-- The visit of an expression that is not a call in its own place. -/
theorem Expr.Nested.unnests {e : Expr} (hN : e.Nested) :
    ∀ (depth : Nat) (before : List Stmt) {idents : Identifiers}, e.sequenced = true →
      e.armsPure = true → (∀ x ∈ e.ids, x ∈ names) → 1 ≤ depth → (e.isCall = true → 2 ≤ depth) →
      (∀ x ∈ names, x ∈ idents.allIdentifiers) →
      ∃ e' idents' new,
        e.unnest ⟨depth, before, idents⟩ = some (e', ⟨depth, before ++ new, idents'⟩) ∧
        Unnests C names e idents e' idents' new ∧ (new = [] ↔ e.hoists depth = false) := by
  induction hN with
  | id x =>
    intro depth before idents _ _ hNames _ _ hKnown
    exact ⟨.id x, idents, [], by simp [Expr.unnest], .self (.id x) rfl hNames hKnown,
      by simp [Expr.hoists]⟩
  | constant value =>
    intro depth before idents _ _ hNames _ _ hKnown
    exact ⟨.constant value, idents, [], by simp [Expr.unnest],
      .self (.constant value) rfl hNames hKnown, by simp [Expr.hoists]⟩
  | @minus e _ ih =>
    intro depth before idents hSeq hPure hNames hDepth _ hKnown
    obtain ⟨e', idents₁, new, hEq, hUn, hNil⟩ :=
      ih (depth + 1) before hSeq hPure hNames (by omega) (fun _ => by omega)
        hKnown
    -- within another expression the result goes into a temporary
    by_cases hDeep : 2 ≤ depth
    · refine ⟨_, _, _, ?_, hUn.minus.tmp (fresh_genNextIdent "@subexpr_" idents₁) hKnown, ?_⟩
      · have hTest : 2 < depth + 1 := by omega
        simp [Expr.unnest, Unnester.enter, hEq, UnOp.unnestOperand, hTest, Unnester.makeTmp_eq,
          Unnester.exit_commit hDepth]
      · simp [Expr.hoists, hDeep]
    · refine ⟨_, _, _, ?_, hUn.minus, ?_⟩
      · have hTest : ¬ 2 < depth + 1 := by omega
        simp [Expr.unnest, Unnester.enter, hEq, UnOp.unnestOperand, hTest,
          Unnester.exit_commit hDepth]
      · simp [Expr.hoists, UnOp.step?, hDeep, hNil]
  | @step op step hOp x =>
    intro depth before idents _ _ hNames hDepth _ hKnown
    have hName : x ∈ names := hNames x List.mem_cons_self
    -- a postfix step saves the old value before, a prefix step moves as it is
    cases hPost : op.isPostfix with
    | true =>
      refine ⟨_, _, _, ?_, .step_after hOp hPost hName
        (fresh_genNextIdent "@subexpr_" idents) hKnown, by simp [Expr.hoists, hOp]⟩
      rw [Expr.unnest_step, UnOp.unnestOperand_after hOp hPost, Unnester.enter,
        Unnester.makeTmp_eq, Unnester.append, Unnester.exit_commit hDepth, List.append_assoc]
      rfl
    | false =>
      refine ⟨_, _, _, ?_, .step_before hOp hPost hName hKnown, by simp [Expr.hoists, hOp]⟩
      rw [Expr.unnest_step, UnOp.unnestOperand_before hOp hPost, Unnester.enter, Unnester.append,
        Unnester.exit_commit hDepth]
  | @binary op left right hLeftN hRightN ihLeft ihRight =>
    intro depth before idents hSeq hPure hNames hDepth _ hKnown
    simp only [Expr.sequenced, Bool.and_eq_true] at hSeq
    simp only [Expr.armsPure, Bool.and_eq_true] at hPure
    simp only [Expr.ids, List.mem_append, or_imp, forall_and] at hNames
    obtain ⟨left', idents₁, newLeft, hEqL, hUnL, hNilL⟩ :=
      ihLeft (depth + 1) before hSeq.1.1 hPure.1.1 hNames.1 (by omega)
        (fun _ => by omega) hKnown
    obtain ⟨right', idents₂, newRight, hEqR, hUnR, hNilR⟩ :=
      ihRight (depth + 1) (before ++ newLeft) hSeq.1.2 hPure.1.2 hNames.2
        (by omega) (fun _ => by omega) fun x hx => hUnL.grows x (hKnown x hx)
    -- an atom on the right of a logical operator stays where it is; otherwise nothing the right
    -- operand writes is read by the left one
    have hUn : Unnests C names (.binaryOp op left right) idents (.binaryOp op left' right') idents₂
        (newLeft ++ newRight) := by
      by_cases hAtom : op.isLogical = true ∧ right.isAtom = true
      · have hSame := hEqR.symm.trans (Expr.unnest_atom hAtom.2 _)
        obtain ⟨rfl, rfl, rfl⟩ : right' = right ∧ newRight = [] ∧ idents₂ = idents₁ := by
          simpa using hSame
        rw [List.append_nil]
        exact hUnL.binary_atom hRightN (Expr.hasEffects_atom hAtom.2) hNames.2 hKnown
      · have hLogical : op.isLogical = true → right.hasEffects = false ∧ right.isAtom = false :=
          fun h => ⟨by simpa [h] using hPure.2, by simpa [h] using hAtom⟩
        refine hUnL.binary hUnR (fun x hx => ?_) hLogical hRightN hNames.2 hKnown
        cases hOp : op.isLogical with
        | true => simp [hRightN.writes_eq_nil (hLogical hOp).1] at hx
        | false =>
          have hApart : left.apart right = true := by simpa [hOp] using hSeq.2
          simp only [Expr.apart, Bool.and_eq_true, List.all_eq_true, decide_eq_true_eq] at hApart
          exact hApart.2 x hx
    -- within another expression the result goes into a temporary
    by_cases hDeep : 2 ≤ depth
    · refine ⟨_, _, _, ?_, hUn.tmp (fresh_genNextIdent "@subexpr_" idents₂) hKnown, ?_⟩
      · have hTest : 2 < depth + 1 := by omega
        simp [Expr.unnest, Unnester.enter, hEqL, hEqR, hTest, Unnester.makeTmp_eq,
          Unnester.exit_commit hDepth]
      · simp [Expr.hoists, hDeep]
    · refine ⟨_, _, _, ?_, hUn, ?_⟩
      · have hTest : ¬ 2 < depth + 1 := by omega
        simp [Expr.unnest, Unnester.enter, hEqL, hEqR, hTest, Unnester.exit_commit hDepth]
      · simp [Expr.hoists, hDeep, hNilL, hNilR]
  | @ternary cond iftrue iffalse hCondN hTrueN hFalseN ihCond ihTrue ihFalse =>
    intro depth before idents hSeq hPure hNames hDepth _ hKnown
    simp only [Expr.sequenced, Bool.and_eq_true] at hSeq
    simp only [Expr.armsPure, Bool.and_eq_true, Bool.not_eq_true'] at hPure
    simp only [Expr.ids, List.mem_append, or_imp, forall_and] at hNames
    obtain ⟨cond', idents₁, newCond, hEqC, hUnC, -⟩ :=
      ihCond (depth + 1) before hSeq.1.1 hPure.1.1.1 hNames.1.1 (by omega)
        (fun _ => by omega) hKnown
    obtain ⟨iftrue', idents₂, newTrue, hEqT, hUnT, -⟩ :=
      ihTrue (depth + 1) (before ++ newCond) hSeq.1.2 hPure.1.1.2 hNames.1.2
        (by omega) (fun _ => by omega) fun x hx => hUnC.grows x (hKnown x hx)
    obtain ⟨iffalse', idents₃, newFalse, hEqF, hUnF, -⟩ :=
      ihFalse (depth + 1) (before ++ newCond ++ newTrue) hSeq.2 hPure.1.2
        hNames.2 (by omega) (fun _ => by omega)
        fun x hx => hUnT.grows x (hUnC.grows x (hKnown x hx))
    -- the condition and both arms go into temporaries, at every depth
    refine ⟨_, _, _, ?_, .ternary hUnC hUnT hUnF (fresh_genNextIdent "@subexpr_" _)
      (fresh_genNextIdent "@subexpr_" _) (fresh_genNextIdent "@subexpr_" _) hTrueN hFalseN
      hPure.2.1 hPure.2.2 hKnown, by simp [Expr.hoists]⟩
    simp only [Expr.unnest, Unnester.enter, hEqC, hEqT, hEqF, Option.bind_eq_bind, Option.bind_some,
      Unnester.makeTmp_eq, Unnester.exit_commit hDepth]
    simp
  | @call name args hArgs _ =>
    intro depth before idents _ _ hNames _ hCall hKnown
    -- a call within an expression always gets a temporary
    have hDeep : 2 ≤ depth := hCall rfl
    refine ⟨_, _, _, ?_, (Moves.self (CMeaning.framed (.call name hArgs)) hNames).tmp
      (fresh_genNextIdent "@subexpr_" idents) hKnown, by simp [Expr.hoists, hDeep]⟩
    simp [Expr.unnest, hDeep, Unnester.makeTmp_eq]

end

end Obscure
