import Obscure.Frontend.AlphaConvert
import Obscure.Frontend.Semantics

/-!
# OBSCURE — side effects and calls

The meaning of expressions with `++`, `--` and calls, and of the statements of a function body
without blocks and loops. Operands are evaluated from left to right, which decides nothing where
no side effect is unsequenced. `&&`, `||` and `?:` evaluate as much as they need.

Values, operators and addresses are whatever the language says. The other functions are known by
the calls alone: what one returns depends on the calls up to it, since no variable of the function
is theirs to change.
-/

namespace Obscure

/-- A call, with the values of its arguments. -/
structure Call (V : Type) where
  name : String
  args : List V
deriving DecidableEq

/-- The values and operators of the language, and what calls return. -/
structure CMeaning (V : Type) where
  constant : Int → V
  isTrue : V → Bool
  minus : V → Option V
  binary : BinOp → V → V → Option V
  /-- The value of the name of a declared array. -/
  array : String → V
  /-- The address of an element. -/
  element : V → V → Option V
  answer : List (Call V) → V

/-- The variables, and the calls so far. -/
structure CStore (V : Type) where
  env : String → Option V
  calls : List (Call V)

def CStore.set {V : Type} (σ : CStore V) (x : String) (v : V) : CStore V :=
  { σ with env := Function.update σ.env x (some v) }

def UnOp.isPostfix : UnOp → Bool
  | .postIncr | .postDecr => true
  | _ => false

def BinOp.isLogical : BinOp → Bool
  | .land | .lor => true
  | _ => false

namespace CMeaning

variable {V : Type} (C : CMeaning V)

def ofBool (b : Bool) : V := C.constant (if b then 1 else 0)

/-- The value that the left operand of `&&` and `||` may decide. -/
def decided (op : BinOp) (a : V) : Option V :=
  match op with
  | .land => if C.isTrue a then none else some (C.ofBool false)
  | .lor => if C.isTrue a then some (C.ofBool true) else none
  | _ => none

/-- An operator on the values of both operands. -/
def combine (op : BinOp) (a b : V) : Option V :=
  if op.isLogical then some (C.ofBool (C.isTrue b)) else C.binary op a b

mutual

/-- The value of an expression, and the store after its side effects. -/
def evaluate : Expr → CStore V → Option (V × CStore V)
  | .id x, σ => (σ.env x).map fun v => (v, σ)
  | .constant value, σ => some (C.constant value, σ)
  | .unaryOp .minus e, σ =>
    (evaluate e σ).bind fun out => (C.minus out.1).map fun v => (v, out.2)
  | .unaryOp .addressOf (.arrayRef name subscript), σ =>
    (evaluate name σ).bind fun a => (evaluate subscript a.2).bind fun k =>
      (C.element a.1 k.1).map fun v => (v, k.2)
  | .unaryOp op (.id x), σ =>
    op.step?.bind fun step => (σ.env x).bind fun old =>
      (C.combine step old (C.constant 1)).map fun new =>
        (if op.isPostfix then old else new, σ.set x new)
  | .binaryOp op left right, σ =>
    (evaluate left σ).bind fun a =>
      match C.decided op a.1 with
      | some v => some (v, a.2)
      | none => (evaluate right a.2).bind fun b => (C.combine op a.1 b.1).map fun v => (v, b.2)
  | .ternaryOp cond iftrue iffalse, σ =>
    (evaluate cond σ).bind fun c =>
      if C.isTrue c.1 then evaluate iftrue c.2 else evaluate iffalse c.2
  | .funcCall (.id name) args, σ =>
    (evaluateList args σ).map fun out =>
      (C.answer (out.2.calls ++ [⟨name, out.1⟩]),
        { out.2 with calls := out.2.calls ++ [⟨name, out.1⟩] })
  | _, _ => none

def evaluateList : List Expr → CStore V → Option (List V × CStore V)
  | [], σ => some ([], σ)
  | e :: exprs, σ =>
    (evaluate e σ).bind fun a => (evaluateList exprs a.2).map fun out => (a.1 :: out.1, out.2)

end

/-- A declaration; its variable had no value before. -/
def declare (d : Decl) (σ : CStore V) : Option (CStore V) :=
  match d.init, d.type with
  | some e, _ => (C.evaluate e σ).map fun out => out.2.set d.name out.1
  | none, .arrayDecl .. => some (σ.set d.name (C.array d.name))
  | none, _ => some { σ with env := Function.update σ.env d.name none }

/-- An expression statement. A name alone is not read. -/
def execute : Expr → CStore V → Option (CStore V)
  | .id _, σ => some σ
  | .assignment none (.id x) e, σ => (C.evaluate e σ).map fun out => out.2.set x out.1
  | e, σ => (C.evaluate e σ).map Prod.snd

/-- The store after a statement, and for a `return` what it returns. -/
def run : Stmt → CStore V → Option (CStore V × Option (Option V))
  | .decl d, σ => (C.declare d σ).map fun σ' => (σ', none)
  | .expr e, σ => (C.execute e σ).map fun σ' => (σ', none)
  | .ret none, σ => some (σ, some none)
  | .ret (some e), σ => (C.evaluate e σ).map fun out => (out.2, some (some out.1))
  | _, _ => none

def runList : List Stmt → CStore V → Option (CStore V × Option (Option V))
  | [], σ => some (σ, none)
  | s :: stmts, σ =>
    (C.run s σ).bind fun out =>
      match out.2 with
      | none => runList stmts out.1
      | some v => some (out.1, some v)

end CMeaning

-- ---------------------------------------------------------------------------
-- What an expression reads and changes
-- ---------------------------------------------------------------------------

/-- Expressions of binary operators, unary minus, `++`, `--`, conditionals and calls. -/
inductive Expr.Nested : Expr → Prop
  | id (x : String) : Nested (.id x)
  | constant (value : Int) : Nested (.constant value)
  | minus {e : Expr} (he : Nested e) : Nested (.unaryOp .minus e)
  | step {op : UnOp} {step : BinOp} (hOp : op.step? = some step) (x : String) :
      Nested (.unaryOp op (.id x))
  | binary (op : BinOp) {left right : Expr} (hLeft : Nested left) (hRight : Nested right) :
      Nested (.binaryOp op left right)
  | ternary {cond iftrue iffalse : Expr} (hCond : Nested cond) (hTrue : Nested iftrue)
      (hFalse : Nested iffalse) : Nested (.ternaryOp cond iftrue iffalse)
  | call (name : String) {args : List Expr} (hArgs : ∀ e ∈ args, Nested e) :
      Nested (.funcCall (.id name) args)

mutual

/-- The variables that an expression may change. -/
def Expr.writes : Expr → List String
  | .id _ | .constant _ => []
  | .arrayRef name subscript => name.writes ++ subscript.writes
  | .unaryOp op e => if op.step?.isSome then e.ids else e.writes
  | .binaryOp _ left right => left.writes ++ right.writes
  | .ternaryOp cond iftrue iffalse => cond.writes ++ iftrue.writes ++ iffalse.writes
  | .funcCall _ args => Expr.writesList args
  | .assignment _ lvalue rvalue => lvalue.ids ++ rvalue.writes
  | .exprList exprs | .initList exprs => Expr.writesList exprs

def Expr.writesList : List Expr → List String
  | [] => []
  | e :: exprs => e.writes ++ Expr.writesList exprs

end

/-- Whether an expression may have a side effect or make a call. -/
def Expr.hasEffects : Expr → Bool
  | .id _ | .constant _ => false
  | .arrayRef name subscript => name.hasEffects || subscript.hasEffects
  | .unaryOp op e => op.step?.isSome || e.hasEffects
  | .binaryOp _ left right => left.hasEffects || right.hasEffects
  | .ternaryOp cond iftrue iffalse => cond.hasEffects || iftrue.hasEffects || iffalse.hasEffects
  | _ => true

/-- Neither expression changes what the other one reads or changes. -/
def Expr.apart (left right : Expr) : Bool :=
  left.writes.all (fun x => x ∉ right.ids) && right.writes.all (fun x => x ∉ left.ids)

mutual

/-- No side effect is unsequenced. There is a sequence point after the first operand of `&&`, `||`
and `?:`. -/
def Expr.sequenced : Expr → Bool
  | .id _ | .constant _ => true
  | .arrayRef name subscript => name.sequenced && subscript.sequenced && name.apart subscript
  | .unaryOp _ e => e.sequenced
  | .binaryOp op left right =>
    left.sequenced && right.sequenced && (op.isLogical || left.apart right)
  | .ternaryOp cond iftrue iffalse => cond.sequenced && iftrue.sequenced && iffalse.sequenced
  | .funcCall _ args => Expr.sequencedList args
  | .assignment _ lvalue rvalue => lvalue.sequenced && rvalue.sequenced && lvalue.apart rvalue
  | .exprList exprs | .initList exprs => Expr.sequencedList exprs

def Expr.sequencedList : List Expr → Bool
  | [] => true
  | e :: exprs => e.sequenced && exprs.all e.apart && Expr.sequencedList exprs

end

/-- What an expression writes is one of its variables. -/
theorem Expr.Nested.mem_ids {e : Expr} (hN : e.Nested) {x : String} (hx : x ∈ e.writes) :
    x ∈ e.ids := by
  induction hN with
  | id | constant => simp [Expr.writes] at hx
  | minus _ ih => exact ih (by simpa [Expr.writes, UnOp.step?] using hx)
  | step hOp y => simpa [Expr.writes, hOp, Expr.ids] using hx
  | binary _ _ _ ihLeft ihRight =>
    rcases List.mem_append.mp hx with h | h
    · exact List.mem_append_left _ (ihLeft h)
    · exact List.mem_append_right _ (ihRight h)
  | ternary _ _ _ ihCond ihTrue ihFalse =>
    simp only [Expr.writes, List.mem_append] at hx
    simp only [Expr.ids, List.mem_append]
    rcases hx with (h | h) | h
    · exact .inl (.inl (ihCond h))
    · exact .inl (.inr (ihTrue h))
    · exact .inr (ihFalse h)
  | @call name args _ ih =>
    refine List.mem_append_right _ ?_
    induction args with
    | nil => simp [Expr.writes, Expr.writesList] at hx
    | cons e args ihArgs =>
      simp only [Expr.writes, Expr.writesList, List.mem_append] at hx
      rw [Expr.idsList, List.mem_append]
      rcases hx with h | h
      · exact .inl (ih e List.mem_cons_self h)
      · exact .inr (ihArgs (fun e' he' => by simp_all) (fun e' he' => ih e' (by simp [he']))
          (by simpa [Expr.writes] using h))

/-- An expression without side effects writes nothing. -/
theorem Expr.Nested.writes_eq_nil {e : Expr} (hN : e.Nested) (hPure : e.hasEffects = false) :
    e.writes = [] := by
  induction hN with
  | id | constant => rfl
  | minus _ ih =>
    simpa [Expr.writes, UnOp.step?] using ih (by simpa [Expr.hasEffects, UnOp.step?] using hPure)
  | step hOp y => simp [Expr.hasEffects, hOp] at hPure
  | binary _ _ _ ihLeft ihRight =>
    simp only [Expr.hasEffects, Bool.or_eq_false_iff] at hPure
    simp [Expr.writes, ihLeft hPure.1, ihRight hPure.2]
  | ternary _ _ _ ihCond ihTrue ihFalse =>
    simp only [Expr.hasEffects, Bool.or_eq_false_iff] at hPure
    simp [Expr.writes, ihCond hPure.1.1, ihTrue hPure.1.2, ihFalse hPure.2]
  | call => simp [Expr.hasEffects] at hPure

-- ---------------------------------------------------------------------------
-- What evaluation depends on
-- ---------------------------------------------------------------------------

/-- Stores that agree on the variables with these names, and on the calls. -/
structure CStore.Agrees {V : Type} (names : List String) (σ τ : CStore V) : Prop where
  calls : σ.calls = τ.calls
  env : ∀ x ∈ names, σ.env x = τ.env x

/-- The same assignment keeps two stores in agreement. -/
theorem CStore.Agrees.set {V : Type} {names : List String} {σ τ : CStore V}
    (h : σ.Agrees names τ) (x : String) (v : V) : (σ.set x v).Agrees names (τ.set x v) where
  calls := h.calls
  env y hy := by
    by_cases hxy : y = x
    · simp [CStore.set, hxy]
    · simpa [CStore.set, hxy] using h.env y hy

@[simp] theorem CStore.set_env_self {V : Type} (σ : CStore V) (x : String) (v : V) :
    (σ.set x v).env x = some v := by simp [CStore.set]

theorem CStore.set_env_of_ne {V : Type} (σ : CStore V) {x y : String} (h : y ≠ x) (v : V) :
    (σ.set x v).env y = σ.env y := by simp [CStore.set, h]

/-- An increment adds and a decrement subtracts. -/
theorem UnOp.step?_cases {op : UnOp} {step : BinOp} (h : op.step? = some step) :
    step = .add ∨ step = .sub := by
  cases op <;> simp_all [UnOp.step?]

namespace CMeaning

variable {V : Type} {C : CMeaning V} {names : List String}

/-- Only `&&` and `||` can be decided by their left operand. -/
theorem decided_eq_none {op : BinOp} (h : op.isLogical = false) (a : V) :
    C.decided op a = none := by
  cases op <;> simp_all [decided, BinOp.isLogical]

/-- The operator of an increment reads both of its operands. -/
theorem decided_step {op : UnOp} {step : BinOp} (h : op.step? = some step) (a : V) :
    C.decided step a = none := by
  obtain rfl | rfl := UnOp.step?_cases h <;> rfl

/-- A variable is read, and the store stays as it is. -/
theorem evaluate_id_iff {x : String} {σ σ' : CStore V} {v : V} :
    C.evaluate (.id x) σ = some (v, σ') ↔ σ.env x = some v ∧ σ' = σ := by
  change ((σ.env x).map fun v => (v, σ)) = some (v, σ') ↔ _
  simp only [Option.map_eq_some_iff, Prod.mk.injEq]
  exact ⟨fun ⟨_, h, hv, hσ⟩ => ⟨hv ▸ h, hσ.symm⟩, fun ⟨h, hσ⟩ => ⟨v, h, rfl, hσ.symm⟩⟩

/-- A constant has its value in every store. -/
theorem evaluate_constant_iff {value : Int} {σ σ' : CStore V} {v : V} :
    C.evaluate (.constant value) σ = some (v, σ') ↔ v = C.constant value ∧ σ' = σ := by
  change some (C.constant value, σ) = some (v, σ') ↔ _
  rw [Option.some.injEq, Prod.mk.injEq, eq_comm, @eq_comm _ σ]

/-- A minus evaluates its operand and negates it. -/
theorem evaluate_minus_iff {e : Expr} {σ σ' : CStore V} {v : V} :
    C.evaluate (.unaryOp .minus e) σ = some (v, σ') ↔
      ∃ a, C.evaluate e σ = some (a, σ') ∧ C.minus a = some v := by
  change ((C.evaluate e σ).bind fun out => (C.minus out.1).map fun v => (v, out.2)) =
    some (v, σ') ↔ _
  simp [Option.bind_eq_some_iff]

/-- An increment writes the new value; the value of a postfix one is the old one. -/
theorem evaluate_step_iff {op : UnOp} {step : BinOp} (h : op.step? = some step) {x : String}
    {σ σ' : CStore V} {v : V} :
    C.evaluate (.unaryOp op (.id x)) σ = some (v, σ') ↔
      ∃ old new, σ.env x = some old ∧ C.combine step old (C.constant 1) = some new ∧
        v = (if op.isPostfix then old else new) ∧ σ' = σ.set x new := by
  have hEq : C.evaluate (.unaryOp op (.id x)) σ =
      (σ.env x).bind fun old => (C.combine step old (C.constant 1)).map fun new =>
        (if op.isPostfix then old else new, σ.set x new) := by
    cases op with
    | preIncr | preDecr | postIncr | postDecr =>
      obtain rfl := Option.some.inj h
      rfl
    | _ => simp [UnOp.step?] at h
  rw [hEq]
  simp only [Option.bind_eq_some_iff, Option.map_eq_some_iff, Prod.mk.injEq]
  exact ⟨fun ⟨old, hOld, new, hNew, hv, hσ⟩ => ⟨old, new, hOld, hNew, hv.symm, hσ.symm⟩,
    fun ⟨old, new, hOld, hNew, hv, hσ⟩ => ⟨old, hOld, new, hNew, hv.symm, hσ.symm⟩⟩

/-- The address of an element: the array is read before the subscript is evaluated. -/
theorem evaluate_pointer_iff {name : String} {subscript : Expr} {σ σ' : CStore V} {v : V} :
    C.evaluate (.unaryOp .addressOf (.arrayRef (.id name) subscript)) σ = some (v, σ') ↔
      ∃ a k, σ.env name = some a ∧ C.evaluate subscript σ = some (k, σ') ∧
        C.element a k = some v := by
  change (((σ.env name).map fun v => (v, σ)).bind fun a =>
    (C.evaluate subscript a.2).bind fun k => (C.element a.1 k.1).map fun v => (v, k.2)) =
      some (v, σ') ↔ _
  simp only [Option.bind_map, Option.bind_eq_some_iff, Option.map_eq_some_iff,
    Function.comp_apply, Prod.exists, Prod.mk.injEq]
  constructor
  · rintro ⟨a, hName, k, σ₁, hSub, w, hw, rfl, rfl⟩
    exact ⟨a, k, hName, hSub, hw⟩
  · rintro ⟨a, k, hName, hSub, hw⟩
    exact ⟨a, hName, k, σ', hSub, v, hw, rfl, rfl⟩

/-- The left operand is evaluated first, and the right one only if the left one decides nothing.
-/
theorem evaluate_binaryOp_iff {op : BinOp} {left right : Expr} {σ σ' : CStore V} {v : V} :
    C.evaluate (.binaryOp op left right) σ = some (v, σ') ↔
      ∃ a σ₁, C.evaluate left σ = some (a, σ₁) ∧
        (C.decided op a = some v ∧ σ' = σ₁ ∨
          C.decided op a = none ∧
            ∃ b, C.evaluate right σ₁ = some (b, σ') ∧ C.combine op a b = some v) := by
  change ((C.evaluate left σ).bind fun a =>
    match C.decided op a.1 with
    | some v => some (v, a.2)
    | none => (C.evaluate right a.2).bind fun b => (C.combine op a.1 b.1).map fun v => (v, b.2)) =
      some (v, σ') ↔ _
  simp only [Option.bind_eq_some_iff, Prod.exists]
  refine exists_congr fun a => exists_congr fun σ₁ => and_congr_right fun _ => ?_
  cases hDec : C.decided op a with
  | some w => simp [eq_comm]
  | none => simp [Option.bind_eq_some_iff]

/-- The condition is evaluated, and then the branch that it selects. -/
theorem evaluate_ternaryOp_iff {cond iftrue iffalse : Expr} {σ σ' : CStore V} {v : V} :
    C.evaluate (.ternaryOp cond iftrue iffalse) σ = some (v, σ') ↔
      ∃ c σ₁, C.evaluate cond σ = some (c, σ₁) ∧
        C.evaluate (if C.isTrue c then iftrue else iffalse) σ₁ = some (v, σ') := by
  change ((C.evaluate cond σ).bind fun c =>
    if C.isTrue c.1 then C.evaluate iftrue c.2 else C.evaluate iffalse c.2) = some (v, σ') ↔ _
  simp only [Option.bind_eq_some_iff, Prod.exists]
  refine exists_congr fun c => exists_congr fun σ₁ => and_congr_right fun _ => ?_
  split <;> rfl

/-- The store after a call. -/
def called (σ : CStore V) (name : String) (args : List V) : CStore V :=
  { σ with calls := σ.calls ++ [⟨name, args⟩] }

/-- The arguments are evaluated from left to right, and the call is the next one of the list. -/
theorem evaluate_call_iff {name : String} {args : List Expr} {σ σ' : CStore V} {v : V} :
    C.evaluate (.funcCall (.id name) args) σ = some (v, σ') ↔
      ∃ vs σ₁, C.evaluateList args σ = some (vs, σ₁) ∧
        v = C.answer (called σ₁ name vs).calls ∧ σ' = called σ₁ name vs := by
  change ((C.evaluateList args σ).map fun out =>
    (C.answer (called out.2 name out.1).calls, called out.2 name out.1)) = some (v, σ') ↔ _
  simp only [Option.map_eq_some_iff, Prod.exists, Prod.mk.injEq]
  exact exists_congr fun vs => exists_congr fun σ₁ => and_congr_right fun _ =>
    and_congr eq_comm eq_comm

/-- A list is evaluated from left to right. -/
theorem evaluateList_cons_iff {e : Expr} {exprs : List Expr} {σ σ' : CStore V} {vs : List V} :
    C.evaluateList (e :: exprs) σ = some (vs, σ') ↔
      ∃ a σ₁ as, C.evaluate e σ = some (a, σ₁) ∧ C.evaluateList exprs σ₁ = some (as, σ') ∧
        vs = a :: as := by
  change ((C.evaluate e σ).bind fun a =>
    (C.evaluateList exprs a.2).map fun out => (a.1 :: out.1, out.2)) = some (vs, σ') ↔ _
  simp only [Option.bind_eq_some_iff, Option.map_eq_some_iff, Prod.exists, Prod.mk.injEq]
  constructor
  · rintro ⟨a, σ₁, hE, as, _, hRest, rfl, rfl⟩
    exact ⟨a, σ₁, as, hE, hRest, rfl⟩
  · rintro ⟨a, σ₁, as, hE, hRest, rfl⟩
    exact ⟨a, σ₁, hE, as, σ', hRest, rfl, rfl⟩

/-- From stores that agree an expression computes the same, and it changes what it writes only. -/
def Framed (C : CMeaning V) (e : Expr) : Prop :=
  ∀ ⦃names : List String⦄ ⦃σ τ σ' : CStore V⦄ ⦃v : V⦄, (∀ x ∈ e.ids, x ∈ names) →
    σ.Agrees names τ → C.evaluate e σ = some (v, σ') →
    ∃ τ', C.evaluate e τ = some (v, τ') ∧ σ'.Agrees names τ' ∧
      ∀ x, x ∉ e.writes → τ'.env x = τ.env x

/-- Stores that agree on the variables of a list of framed expressions agree after it, and
variables that it does not write keep their values. -/
theorem evaluateList_framed {exprs : List Expr} (hEach : ∀ e ∈ exprs, C.Framed e) :
    ∀ {σ τ σ' : CStore V} {vs : List V}, (∀ x ∈ Expr.idsList exprs, x ∈ names) →
      σ.Agrees names τ → C.evaluateList exprs σ = some (vs, σ') →
      ∃ τ', C.evaluateList exprs τ = some (vs, τ') ∧ σ'.Agrees names τ' ∧
        ∀ x, x ∉ Expr.writesList exprs → τ'.env x = τ.env x := by
  induction exprs with
  | nil =>
    intro σ τ σ' vs _ hAgree h
    obtain ⟨rfl, rfl⟩ := Prod.mk.inj (Option.some.inj h)
    exact ⟨τ, rfl, hAgree, fun _ _ => rfl⟩
  | cons e exprs ih =>
    intro σ τ σ' vs hIds hAgree h
    obtain ⟨a, σ₁, as, hE, hRest, rfl⟩ := evaluateList_cons_iff.mp h
    obtain ⟨τ₁, hE', hAgree₁, hKeep₁⟩ := hEach e List.mem_cons_self
      (fun x hx => hIds x (List.mem_append_left _ hx)) hAgree hE
    obtain ⟨τ₂, hRest', hAgree₂, hKeep₂⟩ := ih (fun e' he' => hEach e' (List.mem_cons_of_mem _ he'))
      (fun x hx => hIds x (List.mem_append_right _ hx)) hAgree₁ hRest
    refine ⟨τ₂, evaluateList_cons_iff.mpr ⟨a, τ₁, as, hE', hRest', rfl⟩, hAgree₂, fun x hx => ?_⟩
    simp only [Expr.writesList, List.mem_append, not_or] at hx
    rw [hKeep₂ x hx.2, hKeep₁ x hx.1]

/-- Every nested expression is framed: induction on its shape, where each case is the equation of
its evaluation in both stores. -/
theorem framed {e : Expr} (hN : e.Nested) : C.Framed e := by
  induction hN with
  | id x =>
    intro names σ τ σ' v hIds hAgree h
    obtain ⟨hx, rfl⟩ := evaluate_id_iff.mp h
    exact ⟨τ, evaluate_id_iff.mpr ⟨by rw [← hAgree.env x (hIds x List.mem_cons_self), hx], rfl⟩,
      hAgree, fun _ _ => rfl⟩
  | constant value =>
    intro names σ τ σ' v _ hAgree h
    obtain ⟨rfl, rfl⟩ := evaluate_constant_iff.mp h
    exact ⟨τ, rfl, hAgree, fun _ _ => rfl⟩
  | minus _ ih =>
    intro names σ τ σ' v hIds hAgree h
    obtain ⟨a, hE, ha⟩ := evaluate_minus_iff.mp h
    obtain ⟨τ', hE', hAgree', hKeep⟩ := ih hIds hAgree hE
    exact ⟨τ', evaluate_minus_iff.mpr ⟨a, hE', ha⟩, hAgree', hKeep⟩
  | step hOp x =>
    intro names σ τ σ' v hIds hAgree h
    obtain ⟨old, new, hOld, hNew, rfl, rfl⟩ := (evaluate_step_iff hOp).mp h
    have hOld' : τ.env x = some old := by rw [← hAgree.env x (hIds x List.mem_cons_self), hOld]
    refine ⟨τ.set x new, (evaluate_step_iff hOp).mpr ⟨old, new, hOld', hNew, rfl, rfl⟩,
      hAgree.set x new, fun y hy => CStore.set_env_of_ne _ ?_ _⟩
    -- the step writes only `x`
    rintro rfl
    simp [Expr.writes, hOp, Expr.ids] at hy
  | @binary op left right _ _ ihLeft ihRight =>
    intro names σ τ σ' v hIds hAgree h
    obtain ⟨a, σ₁, hL, hOp⟩ := evaluate_binaryOp_iff.mp h
    obtain ⟨τ₁, hL', hAgree₁, hKeep₁⟩ :=
      ihLeft (fun x hx => hIds x (List.mem_append_left _ hx)) hAgree hL
    -- the left operand may decide a logical operator, and then the right one does not run
    obtain ⟨hDec, rfl⟩ | ⟨hDec, b, hR, hv⟩ := hOp
    · exact ⟨τ₁, evaluate_binaryOp_iff.mpr ⟨a, τ₁, hL', .inl ⟨hDec, rfl⟩⟩, hAgree₁,
        fun x hx => hKeep₁ x fun h => hx (List.mem_append_left _ h)⟩
    · obtain ⟨τ₂, hR', hAgree₂, hKeep₂⟩ :=
        ihRight (fun x hx => hIds x (List.mem_append_right _ hx)) hAgree₁ hR
      refine ⟨τ₂, evaluate_binaryOp_iff.mpr ⟨a, τ₁, hL', .inr ⟨hDec, b, hR', hv⟩⟩, hAgree₂,
        fun x hx => ?_⟩
      rw [hKeep₂ x fun h => hx (List.mem_append_right _ h),
        hKeep₁ x fun h => hx (List.mem_append_left _ h)]
  | @ternary cond iftrue iffalse _ _ _ ihCond ihTrue ihFalse =>
    intro names σ τ σ' v hIds hAgree h
    obtain ⟨c, σ₁, hC, hArm⟩ := evaluate_ternaryOp_iff.mp h
    simp only [Expr.ids, List.mem_append, or_imp, forall_and] at hIds
    obtain ⟨τ₁, hC', hAgree₁, hKeep₁⟩ := ihCond hIds.1.1 hAgree hC
    -- only the arm that is selected runs
    have hEach : C.Framed (if C.isTrue c then iftrue else iffalse) := by
      split
      · exact ihTrue
      · exact ihFalse
    obtain ⟨τ₂, hArm', hAgree₂, hKeep₂⟩ := hEach
      (fun x hx => by split at hx; exacts [hIds.1.2 x hx, hIds.2 x hx]) hAgree₁ hArm
    refine ⟨τ₂, evaluate_ternaryOp_iff.mpr ⟨c, τ₁, hC', hArm'⟩, hAgree₂, fun x hx => ?_⟩
    simp only [Expr.writes, List.mem_append, not_or] at hx
    rw [hKeep₂ x (by split; exacts [hx.1.2, hx.2]), hKeep₁ x hx.1.1]
  | @call name args _ ih =>
    intro names σ τ σ' v hIds hAgree h
    obtain ⟨vs, σ₁, hArgs, rfl, rfl⟩ := evaluate_call_iff.mp h
    obtain ⟨τ₁, hArgs', hAgree₁, hKeep⟩ := evaluateList_framed ih
      (fun x hx => hIds x (List.mem_append_right _ hx)) hAgree hArgs
    -- both runs have made the same calls so far, so this one answers the same
    have hCalls : (called σ₁ name vs).calls = (called τ₁ name vs).calls := by
      simp [called, hAgree₁.calls]
    exact ⟨called τ₁ name vs, evaluate_call_iff.mpr ⟨vs, τ₁, hArgs', by rw [hCalls], rfl⟩,
      ⟨hCalls, hAgree₁.env⟩, hKeep⟩

/-- The address of an element is framed as its subscript is. -/
theorem framed_pointer (name : String) {subscript : Expr} (hN : subscript.Nested) :
    C.Framed (.unaryOp .addressOf (.arrayRef (.id name) subscript)) := by
  intro names σ τ σ' v hIds hAgree h
  obtain ⟨a, k, hName, hSub, hv⟩ := evaluate_pointer_iff.mp h
  have hName' : τ.env name = some a := by
    rw [← hAgree.env name (hIds name (List.mem_append_left _ List.mem_cons_self)), hName]
  obtain ⟨τ', hSub', hAgree', hKeep⟩ :=
    framed hN (fun x hx => hIds x (List.mem_append_right _ hx)) hAgree hSub
  exact ⟨τ', evaluate_pointer_iff.mpr ⟨a, k, hName', hSub', hv⟩, hAgree', fun x hx => hKeep x hx⟩

/-- Without effects the store stays, and only the variables that are read matter. -/
theorem evaluate_pure {e : Expr} (hN : e.Nested) (hPure : e.hasEffects = false)
    {σ τ σ' : CStore V} {v : V} (hEnv : ∀ x ∈ e.ids, σ.env x = τ.env x)
    (h : C.evaluate e σ = some (v, σ')) : σ' = σ ∧ C.evaluate e τ = some (v, τ) := by
  induction hN generalizing v σ' with
  | id x =>
    obtain ⟨hx, rfl⟩ := evaluate_id_iff.mp h
    exact ⟨rfl, evaluate_id_iff.mpr ⟨by rw [← hEnv x List.mem_cons_self, hx], rfl⟩⟩
  | constant value =>
    obtain ⟨rfl, rfl⟩ := evaluate_constant_iff.mp h
    exact ⟨rfl, rfl⟩
  | minus _ ih =>
    obtain ⟨a, hE, ha⟩ := evaluate_minus_iff.mp h
    obtain ⟨rfl, hE'⟩ := ih (by simpa [Expr.hasEffects, UnOp.step?] using hPure) hEnv hE
    exact ⟨rfl, evaluate_minus_iff.mpr ⟨a, hE', ha⟩⟩
  | step hOp x => simp [Expr.hasEffects, hOp] at hPure
  | @binary op left right _ _ ihLeft ihRight =>
    simp only [Expr.hasEffects, Bool.or_eq_false_iff] at hPure
    obtain ⟨a, σ₁, hL, hOp⟩ := evaluate_binaryOp_iff.mp h
    obtain ⟨rfl, hL'⟩ := ihLeft hPure.1 (fun x hx => hEnv x (List.mem_append_left _ hx)) hL
    obtain ⟨hDec, rfl⟩ | ⟨hDec, b, hR, hv⟩ := hOp
    · exact ⟨rfl, evaluate_binaryOp_iff.mpr ⟨a, τ, hL', .inl ⟨hDec, rfl⟩⟩⟩
    · obtain ⟨rfl, hR'⟩ := ihRight hPure.2 (fun x hx => hEnv x (List.mem_append_right _ hx)) hR
      exact ⟨rfl, evaluate_binaryOp_iff.mpr ⟨a, τ, hL', .inr ⟨hDec, b, hR', hv⟩⟩⟩
  | @ternary cond iftrue iffalse _ _ _ ihCond ihTrue ihFalse =>
    simp only [Expr.hasEffects, Bool.or_eq_false_iff] at hPure
    simp only [Expr.ids, List.mem_append, or_imp, forall_and] at hEnv
    obtain ⟨c, σ₁, hC, hArm⟩ := evaluate_ternaryOp_iff.mp h
    obtain ⟨rfl, hC'⟩ := ihCond hPure.1.1 hEnv.1.1 hC
    have hArm' : σ' = σ₁ ∧ C.evaluate (if C.isTrue c then iftrue else iffalse) τ = some (v, τ) := by
      by_cases hTest : C.isTrue c = true
      · rw [if_pos hTest] at hArm ⊢
        exact ihTrue hPure.1.2 hEnv.1.2 hArm
      · rw [if_neg hTest] at hArm ⊢
        exact ihFalse hPure.2 hEnv.2 hArm
    exact ⟨hArm'.1, evaluate_ternaryOp_iff.mpr ⟨c, τ, hC', hArm'.2⟩⟩
  | call => simp [Expr.hasEffects] at hPure

end CMeaning

end Obscure
