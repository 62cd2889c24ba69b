import Obscure.Frontend.AlphaConvert
import Obscure.Frontend.Semantics

/-!
# OBSCURE — from C to instructions

The visitor of `compiler/src/frontend/AST_to_IR.py`. One counter hands out memory cells to
everything that is declared, in the order of the visit: global variables and function
declarations, parameters, local variables and the returned value. The list of inputs of the
program is rebuilt from the number of parameters.

The visitor trusts the normalizer: what it does not know becomes `None` in the instruction. Such an
instruction is a `BuiltHLI`. It is an `HLI` if at least its operator and its destination are there.

* `astToIR_binds` — a normalized function gets the cells of its parameters as inputs and computes
  the value and the arrays that C returns if nothing is declared before it and the visitor knows all
  of its right-hand sides; with a declaration before it, or without parameters, it does not.
-/

namespace Obscure

open Lib

-- ---------------------------------------------------------------------------
-- Instructions with missing parts
-- ---------------------------------------------------------------------------

/-- What the constructor of `HLI` accepts: every part may be `None`. -/
structure BuiltHLI where
  opcode : Option Opcode
  dst : Option (Operand Nat)
  src1 : Option (Operand Nat)
  src2 : Option (Operand Nat)
  src3 : Option (Operand Nat)
  wf : src2 = none → src3 = none
deriving DecidableEq

/-- An instruction from its parts. -/
def HLI.built (i : HLI) : BuiltHLI where
  opcode := some i.opcode
  dst := some (.loc i.dst)
  src1 := i.src1
  src2 := i.src2
  src3 := i.src3
  wf := i.wf

/-- The instruction, if it has an operator and a destination. A source that is missing reads as 0.
-/
def BuiltHLI.hli? (i : BuiltHLI) : Option HLI :=
  match i.opcode, i.dst with
  | some opcode, some (.loc dst) =>
    some {
      opcode := opcode, dst := dst, src1 := i.src1, src2 := i.src2, src3 := i.src3, wf := i.wf }
  | _, _ => none

@[simp] theorem hli?_built (i : HLI) : i.built.hli? = some i := rfl

/-- An `HLIRProgram` as `convert` returns it. -/
structure BuiltProgram where
  instrs : List BuiltHLI
  inputs : List Nat
  outputs : List Nat
  memoryCount : Nat

/-- The program, if each of its instructions is one. -/
def BuiltProgram.hlir? (p : BuiltProgram) : Option HLIRProgram :=
  (p.instrs.mapM BuiltHLI.hli?).map fun instrs => ⟨instrs, p.inputs, p.outputs, p.memoryCount⟩

-- ---------------------------------------------------------------------------
-- AST_to_IR
-- ---------------------------------------------------------------------------

/-- The fields of the visitor. -/
structure AstToIR where
  env : List (String × Nat)
  nextMem : Nat
  instrs : List BuiltHLI
  outputs : List Nat
  inputs : Option (List Nat)

namespace AstToIR

/-- `convert_operand`. It returns `None` for anything but a variable and a constant, and raises
for a variable that is not declared. -/
def convertOperand (st : AstToIR) : Expr → Option (Option (Operand Nat))
  | .id name => (st.env.lookup name).map fun m => some (.loc m)
  | .constant value => some (some (.imm value))
  | _ => some none

/-- The operand of an argument that may be `None`. -/
def convertArg (st : AstToIR) : Option Expr → Option (Option (Operand Nat))
  | none => some none
  | some e => st.convertOperand e

end AstToIR

/-- `convert_operator`. -/
def convertOperator : BinOp → Option Opcode
  | .xor => some .XOR
  | .or => some .OR
  | .and => some .AND
  | .shl => some .LSL
  | .shr => some .LSR
  | .add => some .ADD
  | .sub => some .SUB
  | .mul => some .MUL
  | .div => some .DIV
  | .mod => some .MOD
  | .lt => some .LT
  | .eq => some .EQ
  | .le | .gt | .ge | .ne | .land | .lor => none

namespace AstToIR

def emit (st : AstToIR) (i : BuiltHLI) : AstToIR := { st with instrs := st.instrs ++ [i] }

/-- `do_asgn`. It raises where `convert_operand` does and where the assertion of `HLI` fails. -/
def doAsgn (st : AstToIR) (dst : Expr) (op : Option Opcode) (src1 : Option Expr)
    (src2 src3 : Option Expr := none) : Option AstToIR := do
  let dst ← st.convertOperand dst
  let src1 ← st.convertArg src1
  let src2 ← st.convertArg src2
  let src3 ← st.convertArg src3
  if wf : src2 = none → src3 = none then
    some (st.emit { opcode := op, dst := dst, src1 := src1, src2 := src2, src3 := src3, wf := wf })
  else none

/-- `visit_Assignment`. A `return` without a value assigns `None`. -/
def visitAssignment (st : AstToIR) (lvalue : Expr) : Option Expr → Option AstToIR
  | some (.binaryOp op left right) => st.doAsgn lvalue (convertOperator op) (some left) (some right)
  | some (.ternaryOp cond iftrue iffalse) =>
    st.doAsgn lvalue (some .CMOV) (some cond) (some iftrue) (some iffalse)
  | rvalue => st.doAsgn lvalue (some .MOV) rvalue

/-- The next cell for a name. -/
def allocate (st : AstToIR) (name : String) : AstToIR :=
  { st with env := (name, st.nextMem) :: st.env, nextMem := st.nextMem + 1 }

/-- `visit_Decl`. -/
def visitDecl (st : AstToIR) (d : Decl) : Option AstToIR :=
  match d.init with
  | none => some (st.allocate d.name)
  | some init => (st.allocate d.name).visitAssignment (.id d.name) (some init)

/-- `visit_Return`. The name of the returned value is bound before the expression is looked at. -/
def visitReturn (st : AstToIR) (e : Option Expr) : Option AstToIR :=
  visitAssignment { st.allocate "__ret" with outputs := st.nextMem :: st.outputs } (.id "__ret") e

/-- `visit_UnaryOp`, with its assertion that the operator is `++` or `--`. -/
def visitUnaryOp (st : AstToIR) (op : UnOp) (e : Expr) : Option AstToIR :=
  op.step?.bind fun op => st.visitAssignment e (some (.binaryOp op e (.constant 1)))

end AstToIR

mutual

/-- The visit of an expression: only assignments in it do something. -/
def Expr.toHLIR : Expr → AstToIR → Option AstToIR
  | .assignment _ lvalue rvalue, st => st.visitAssignment lvalue (some rvalue)
  | .unaryOp op e, st => st.visitUnaryOp op e
  | .id _, st | .constant _, st => some st
  | .arrayRef name subscript, st => (name.toHLIR st).bind subscript.toHLIR
  | .binaryOp _ left right, st => (left.toHLIR st).bind right.toHLIR
  | .ternaryOp cond iftrue iffalse, st =>
    ((cond.toHLIR st).bind iftrue.toHLIR).bind iffalse.toHLIR
  | .funcCall name args, st => (name.toHLIR st).bind (Expr.toHLIRList args)
  | .exprList exprs, st | .initList exprs, st => Expr.toHLIRList exprs st

def Expr.toHLIRList : List Expr → AstToIR → Option AstToIR
  | [], st => some st
  | e :: exprs, st => (e.toHLIR st).bind (Expr.toHLIRList exprs)

end

def optToHLIR : Option Expr → AstToIR → Option AstToIR
  | none, st => some st
  | some e, st => e.toHLIR st

def ForInit.toHLIR : ForInit → AstToIR → Option AstToIR
  | .none, st => some st
  | .expr e, st => e.toHLIR st
  | .declList decls, st => decls.foldlM AstToIR.visitDecl st

mutual

/-- The visit of a statement. What is not an assignment, a declaration or a `return` is only
walked through. -/
def Stmt.toHLIR : Stmt → AstToIR → Option AstToIR
  | .decl d, st => st.visitDecl d
  | .expr e, st => e.toHLIR st
  | .ret e, st => st.visitReturn e
  | .compound items, st => Stmt.toHLIRList items st
  | .forLoop init cond next stmt, st =>
    (((init.toHLIR st).bind (optToHLIR cond)).bind (optToHLIR next)).bind stmt.toHLIR
  | .ifElse cond iftrue none, st => (cond.toHLIR st).bind iftrue.toHLIR
  | .ifElse cond iftrue (some iffalse), st =>
    ((cond.toHLIR st).bind iftrue.toHLIR).bind iffalse.toHLIR
  | .whileLoop cond stmt, st | .doWhile cond stmt, st | .switch cond stmt, st =>
    (cond.toHLIR st).bind stmt.toHLIR
  | .case e stmts, st => (e.toHLIR st).bind (Stmt.toHLIRList stmts)
  | .default stmts, st => Stmt.toHLIRList stmts st
  | .label _ stmt, st => stmt.toHLIR st
  | .goto _, st | .breakStmt, st | .continueStmt, st | .emptyStatement, st => some st

def Stmt.toHLIRList : List Stmt → AstToIR → Option AstToIR
  | [], st => some st
  | s :: stmts, st => (s.toHLIR st).bind (Stmt.toHLIRList stmts)

end

namespace AstToIR

/-- The loop over the parameters in `visit_FuncDef`. -/
def visitParams (returns : List String) : List Decl → AstToIR → AstToIR
  | [], st => st
  | param :: params, st =>
    let outputs := if param.name ∈ returns then st.outputs ++ [st.nextMem] else st.outputs
    visitParams returns params { st.allocate param.name with outputs := outputs }

/-- `visit_FuncDef`. Without parameters the node has no list of them, and the loop raises. -/
def visitFuncDef (returns : List String) (params : List Decl) (body : List Stmt) (st : AstToIR) :
    Option AstToIR :=
  match params with
  | [] => none
  | _ :: _ =>
    (Stmt.toHLIRList body (st.visitParams returns params)).map fun st' =>
      { st' with inputs := some (List.range params.length), env := st.env }

end AstToIR

def ExtDecl.toHLIR (returns : List String) (st : AstToIR) : ExtDecl → Option AstToIR
  | .decl d => st.visitDecl d
  | .funcDecl name _ => some (st.allocate name)
  | .funcDef _ params body => st.visitFuncDef returns params body

def AstToIR.start : AstToIR := ⟨[], 0, [], [], none⟩

/-- `convert`. -/
def astToIR (ast : FileAST) (returns : List String) : Option BuiltProgram :=
  (ast.foldlM (ExtDecl.toHLIR returns) .start).bind fun st =>
    st.inputs.map fun inputs => ⟨st.instrs, inputs, st.outputs, st.nextMem⟩

/-- The program of a syntax tree, if the visitor knows what is to be done at each place: nothing can
be run that has an instruction without an operator. -/
def astToHLIR (ast : FileAST) (returns : List String) : Option HLIRProgram :=
  (astToIR ast returns).bind BuiltProgram.hlir?

-- ---------------------------------------------------------------------------
-- Normalized programs
-- ---------------------------------------------------------------------------

/-- The unary operators without a side effect that take a value. -/
def UnOp.isArith : UnOp → Bool
  | .plus | .minus | .not | .lnot => true
  | _ => false

/-- An expression over variables that has no side effect. -/
def Expr.isScalar : Expr → Bool
  | .id _ | .constant _ => true
  | .unaryOp op e => op.isArith && e.isScalar
  | .binaryOp _ left right => left.isScalar && right.isScalar
  | .ternaryOp cond iftrue iffalse => cond.isScalar && iftrue.isScalar && iffalse.isScalar
  | _ => false

/-- An expression over visible variables. -/
def Expr.Normal (names : List String) (e : Expr) : Prop :=
  e.isScalar = true ∧ ∀ x ∈ e.ids, x ∈ names

/-- An expression statement. -/
def Expr.NormalStmt (names : List String) : Expr → Prop
  | .assignment none (.id x) e => x ∈ names ∧ e.Normal names
  | .unaryOp op (.id x) => (op.step?.isSome || op.isArith) = true ∧ x ∈ names
  | e => e.Normal names

/-- The types of the variables of a normalized program. -/
def variableType (isInt : Bool) : DeclType := if isInt then .typeDecl ["int"] else unsignedInt

/-- The variables that are visible after a statement. -/
def Stmt.scope (names : List String) : Stmt → List String
  | .decl d => d.name :: names
  | _ => names

section Normal

variable (isInt : String → Bool)

mutual

/-- The statements of normalized programs; `return` is the last one. -/
def Stmt.Normal : Stmt → Bool → List String → Prop
  | .decl d, _, names =>
    d.type = variableType (isInt d.name) ∧ ∀ e ∈ d.init, e.Normal (d.name :: names)
  | .expr e, _, names => e.NormalStmt names
  | .ret e, last, names => last = true ∧ ∀ a ∈ e, a.Normal names
  | .compound items, last, names => Stmt.NormalList items last names
  | .emptyStatement, _, _ => True
  | _, _, _ => False

def Stmt.NormalList : List Stmt → Bool → List String → Prop
  | [], _, _ => True
  | s :: stmts, last, names =>
    s.Normal (last && stmts.isEmpty) names ∧ Stmt.NormalList stmts last (s.scope names)

end

end Normal

mutual

/-- The expression that is returned. -/
def Stmt.returned : Stmt → Option Expr
  | .ret e => e
  | .compound items => Stmt.returnedList items
  | _ => none

def Stmt.returnedList : List Stmt → Option Expr
  | [] => none
  | [s] => s.returned
  | _ :: stmts => Stmt.returnedList stmts

end

-- ---------------------------------------------------------------------------
-- What the visitor knows
-- ---------------------------------------------------------------------------

def Expr.isOperand : Expr → Bool
  | .id _ | .constant _ => true
  | _ => false

/-- An expression whose visit emits nothing. -/
def Expr.isInert : Expr → Bool
  | .id _ | .constant _ => true
  | .binaryOp _ left right => left.isInert && right.isInert
  | .ternaryOp cond iftrue iffalse => cond.isInert && iftrue.isInert && iffalse.isInert
  | _ => false

section Convertible

variable (isInt : String → Bool)

/-- A right-hand side that has an instruction: an operand, one of the operators of the secure
element on two operands, or a conditional with three. Four operators work on `unsigned int` only.
-/
def Expr.convertible : Expr → Bool
  | .binaryOp op left right =>
    (convertOperator op).isSome && (op.signless || !op.signed isInt left right) &&
      left.isOperand && right.isOperand
  | .ternaryOp cond iftrue iffalse => cond.isOperand && iftrue.isOperand && iffalse.isOperand
  | e => e.isOperand

/-- An expression statement that the visitor translates. -/
def Expr.convertibleStmt : Expr → Bool
  | .assignment none (.id _) e => e.convertible isInt
  | .unaryOp op (.id _) => op.step?.isSome
  | e => e.isInert

mutual

/-- A statement that the visitor translates. It takes a `return` without a value for one with a
value. -/
def Stmt.convertible : Stmt → Bool
  | .decl d => d.init.all fun e => e.convertible isInt
  | .expr e => e.convertibleStmt isInt
  | .ret e => e.any fun a => a.convertible isInt
  | .compound items => Stmt.convertibleList items
  | .emptyStatement => true
  | _ => false

def Stmt.convertibleList : List Stmt → Bool
  | [] => true
  | s :: stmts => s.convertible && Stmt.convertibleList stmts

end

end Convertible

-- ---------------------------------------------------------------------------
-- One assignment
-- ---------------------------------------------------------------------------

/-- Visible variables have cells of their own. -/
structure Placed (names : List String) (st : AstToIR) : Prop where
  cell : ∀ x ∈ names, ∃ c < st.nextMem, st.env.lookup x = some c
  inj : ∀ x ∈ names, ∀ y ∈ names, st.env.lookup x = st.env.lookup y → x = y

/-- The cells of visible variables hold their values. -/
def Tracks (names : List String) (st : AstToIR) (ρ : Env) (μ : Store Nat) : Prop :=
  ∀ x ∈ names, ∀ c w, st.env.lookup x = some c → ρ x = some w → μ c = w

section Assignment

variable {isInt : String → Bool} {names : List String} {st : AstToIR}

/-- An operand whose variables have cells is converted into one that reads its value. -/
theorem convertOperand_spec (hPlaced : Placed names st) {e : Expr} (hOp : e.isOperand = true)
    (hIds : ∀ x ∈ e.ids, x ∈ names) :
    ∃ o, st.convertOperand e = some (some o) ∧
      ∀ ρ μ, Tracks names st ρ μ → ∀ w, e.eval isInt ρ = some w → srcVal μ (some o) = w := by
  cases e with
  | id x =>
    have hx := hIds x (by simp [Expr.ids])
    obtain ⟨c, -, hc⟩ := hPlaced.cell x hx
    refine ⟨.loc c, by simp [AstToIR.convertOperand, hc], fun ρ μ hTracks w hw => ?_⟩
    exact hTracks x hx c w hc hw
  | constant value =>
    refine ⟨.imm value, rfl, fun ρ μ _ w hw => ?_⟩
    exact Option.some.inj hw
  | _ => simp [Expr.isOperand] at hOp

/-- The opcode of an operator computes it on unsigned words. -/
theorem instructionExecute_convertOperator {op : BinOp} {opcode : Opcode}
    (h : convertOperator op = some opcode) (a b c : Word) :
    instructionExecute opcode a b c = op.eval a b := by
  cases op <;> cases h <;> rfl

/-- An operator that the visitor knows evaluates both its operands. -/
theorem eval_binaryOp {op : BinOp} {opcode : Opcode} (h : convertOperator op = some opcode)
    (ρ : Env) (left right : Expr) :
    (Expr.binaryOp op left right).eval isInt ρ =
      (left.eval isInt ρ).bind fun a => (right.eval isInt ρ).bind fun b =>
        if op.signed isInt left right then op.evalInt a b else op.eval a b := by
  cases op with
  | land | lor => cases h
  | _ => rfl

/-- Where both types agree on an operator its type does not matter. -/
theorem evalInt_or_eval {op : BinOp} {left right : Expr}
    (h : (op.signless || !op.signed isInt left right) = true) (a b : Word) :
    (if op.signed isInt left right then op.evalInt a b else op.eval a b) = op.eval a b := by
  split
  · next hSigned =>
    rw [hSigned, Bool.not_true, Bool.or_false] at h
    exact evalInt_of_signless h a b
  · rfl

/-- One instruction computes a right-hand side. -/
theorem visitAssignment_spec (hPlaced : Placed names st) {x : String} {dst : Nat}
    (hx : st.env.lookup x = some dst) {e : Expr} (hIds : ∀ y ∈ e.ids, y ∈ names)
    (hConv : e.convertible isInt = true) :
    ∃ i : HLI, st.visitAssignment (.id x) (some e) = some (st.emit i.built) ∧ i.dst = dst ∧
      ∀ ρ μ, Tracks names st ρ μ → ∀ w, e.eval isInt ρ = some w → i.result μ = some w := by
  have hDst : st.convertOperand (.id x) = some (some (.loc dst)) := by
    simp [AstToIR.convertOperand, hx]
  -- a right-hand side that is an operand becomes a `MOV`
  have hCopy : e.isOperand = true →
      st.visitAssignment (.id x) (some e) = st.doAsgn (.id x) (some .MOV) (some e) →
      ∃ i : HLI, st.visitAssignment (.id x) (some e) = some (st.emit i.built) ∧ i.dst = dst ∧
        ∀ ρ μ, Tracks names st ρ μ → ∀ w, e.eval isInt ρ = some w → i.result μ = some w := by
    intro hOp hVisit
    obtain ⟨o, ho, hVal⟩ := convertOperand_spec hPlaced hOp hIds
    refine ⟨{ opcode := .MOV, dst := dst, src1 := some o }, ?_, rfl, fun ρ μ hTracks w hw => ?_⟩
    · rw [hVisit]
      simp [AstToIR.doAsgn, AstToIR.convertArg, hDst, ho, HLI.built]
    · exact congrArg some (hVal ρ μ hTracks w hw)
  cases e with
  | binaryOp op left right =>
    simp only [Expr.convertible, Bool.and_eq_true, Option.isSome_iff_exists] at hConv
    obtain ⟨⟨⟨⟨opcode, hOpcode⟩, hType⟩, hLeft⟩, hRight⟩ := hConv
    obtain ⟨a, ha, hValA⟩ := convertOperand_spec hPlaced hLeft fun y hy =>
      hIds y (List.mem_append_left _ hy)
    obtain ⟨b, hb, hValB⟩ := convertOperand_spec hPlaced hRight fun y hy =>
      hIds y (List.mem_append_right _ hy)
    refine ⟨{ opcode := opcode, dst := dst, src1 := some a, src2 := some b, wf := by simp }, ?_,
      rfl, fun ρ μ hTracks w hw => ?_⟩
    · simp [AstToIR.visitAssignment, AstToIR.doAsgn, AstToIR.convertArg, hDst, hOpcode, ha, hb,
        HLI.built]
    · rw [eval_binaryOp hOpcode] at hw
      obtain ⟨va, hva, hRest⟩ := Option.bind_eq_some_iff.mp hw
      obtain ⟨vb, hvb, hOp⟩ := Option.bind_eq_some_iff.mp hRest
      -- the operator means the same on `int` and `unsigned int` here
      rw [evalInt_or_eval hType] at hOp
      show instructionExecute opcode (srcVal μ (some a)) (srcVal μ (some b)) _ = some w
      rw [hValA ρ μ hTracks va hva, hValB ρ μ hTracks vb hvb,
        instructionExecute_convertOperator hOpcode, hOp]
  | ternaryOp cond iftrue iffalse =>
    simp only [Expr.convertible, Bool.and_eq_true] at hConv
    obtain ⟨⟨hCond, hTrue⟩, hFalse⟩ := hConv
    obtain ⟨c, hc, hValC⟩ := @convertOperand_spec isInt _ _ hPlaced _ hCond fun y hy =>
      hIds y (by simp [Expr.ids, hy])
    obtain ⟨a, ha, hValA⟩ := @convertOperand_spec isInt _ _ hPlaced _ hTrue fun y hy =>
      hIds y (by simp [Expr.ids, hy])
    obtain ⟨b, hb, hValB⟩ := @convertOperand_spec isInt _ _ hPlaced _ hFalse fun y hy =>
      hIds y (by simp [Expr.ids, hy])
    let i : HLI :=
      { opcode := .CMOV, dst := dst, src1 := some c, src2 := some a, src3 := some b, wf := by simp }
    refine ⟨i, ?_, rfl, fun ρ μ hTracks w hw => ?_⟩
    · simp [i, AstToIR.visitAssignment, AstToIR.doAsgn, AstToIR.convertArg, hDst, hc, ha, hb,
        HLI.built]
    · obtain ⟨vc, hvc, hArm⟩ := Option.bind_eq_some_iff.mp hw
      show some (if srcVal μ (some c) = 0 then srcVal μ (some b) else srcVal μ (some a)) = some w
      rw [hValC ρ μ hTracks vc hvc]
      -- only the arm that is chosen has to have a value
      split at hArm
      · next hZero => rw [if_pos hZero, hValB ρ μ hTracks w hArm]
      · next hZero => rw [if_neg hZero, hValA ρ μ hTracks w hArm]
  | id y => exact hCopy rfl rfl
  | constant value => exact hCopy rfl rfl
  | _ => simp [Expr.convertible, Expr.isOperand] at hConv

end Assignment

-- ---------------------------------------------------------------------------
-- Statements that do not return
-- ---------------------------------------------------------------------------

/-- The visit of statements that do not return: `names` are visible before them and `names'` after
them, and what they declare is among `declared`. -/
structure Steps (names names' declared : List String) (st st' : AstToIR)
    (exec : Env → Option (Env × Option Word)) : Prop where
  visible : ∀ x ∈ names, x ∈ names'
  placed : Placed names' st'
  kept : ∀ x ∉ declared, st'.env.lookup x = st.env.lookup x
  outputs : st'.outputs = st.outputs
  code : ∃ new : List HLI, st'.instrs = st.instrs ++ new.map HLI.built ∧
    ∀ ρ out μ, exec ρ = some out → Tracks names st ρ μ →
      out.2 = none ∧ ∃ μ', run new μ = some μ' ∧ Tracks names' st' out.1 μ'

section Steps

variable {isInt : String → Bool} {names names' declared : List String} {st st' : AstToIR} {ρ : Env}
  {μ : Store Nat}

/-- The second part runs on the store that the first one leaves. -/
theorem run_append_of {a b : List HLI} {μ₁ μ₂ : Store Nat} (ha : run a μ = some μ₁)
    (hb : run b μ₁ = some μ₂) : run (a ++ b) μ = some μ₂ := by
  rw [run_append, ha]
  exact hb

/-- The cell of a variable takes its new value. -/
theorem Tracks.update (h : Tracks names st ρ μ) (hPlaced : Placed names st) {x : String} {dst : Nat}
    (hMem : x ∈ names) (hx : st.env.lookup x = some dst) (w : Word) :
    Tracks names st (Function.update ρ x (some w)) (Function.update μ dst w) := by
  intro y hy c v hc hv
  by_cases hyx : y = x
  · subst hyx
    rw [hx] at hc
    rw [Function.update_self] at hv
    cases hc
    cases hv
    exact Function.update_self ..
  · rw [Function.update_of_ne hyx] at hv
    have hNe : c ≠ dst := fun hEq => hyx (hPlaced.inj y hy x hMem (by rw [hc, hx, hEq]))
    rw [Function.update_of_ne hNe]
    exact h y hy c v hc hv

/-- An assignment to a variable that has a cell. -/
theorem steps_assign (hPlaced : Placed names st) {x : String} (hMem : x ∈ names) {e : Expr}
    (hIds : ∀ y ∈ e.ids, y ∈ names) (hConv : e.convertible isInt = true) :
    ∃ st', st.visitAssignment (.id x) (some e) = some st' ∧
      Steps names names [] st st' fun ρ => (ρ.assign isInt x e).map fun ρ' => (ρ', none) := by
  obtain ⟨dst, -, hx⟩ := hPlaced.cell x hMem
  obtain ⟨i, hVisit, rfl, hResult⟩ := visitAssignment_spec hPlaced hx hIds hConv
  refine ⟨st.emit i.built, hVisit, fun y hy => hy, ⟨hPlaced.cell, hPlaced.inj⟩, fun _ _ => rfl, rfl,
    [i], rfl, fun ρ out μ hExec hTracks => ?_⟩
  simp only [Env.assign, Option.map_map, Option.map_eq_some_iff] at hExec
  obtain ⟨w, hw, rfl⟩ := hExec
  refine ⟨rfl, Function.update μ i.dst w, ?_, hTracks.update hPlaced hMem hx w⟩
  simp [run, Instr.exec, hResult ρ μ hTracks w hw]

/-- A new variable has the next cell, and the others keep theirs. -/
theorem lookup_allocate (st : AstToIR) (name x : String) :
    (st.allocate name).env.lookup x = if x = name then some st.nextMem else st.env.lookup x :=
  lookup_cons_ite

/-- A new variable is placed in a cell of its own. -/
theorem Placed.allocate (hPlaced : Placed names st) (name : String) :
    Placed (name :: names) (st.allocate name) where
  cell x hx := by
    rw [lookup_allocate]
    split
    · exact ⟨st.nextMem, Nat.lt_succ_self _, rfl⟩
    · next hNe =>
      obtain ⟨c, hc, hLookup⟩ := hPlaced.cell x ((List.mem_cons.mp hx).resolve_left hNe)
      exact ⟨c, Nat.lt_succ_of_lt hc, hLookup⟩
  inj x hx y hy hEq := by
    -- the cell of the new variable is none of the others'
    have hOther : ∀ z ∈ names, st.env.lookup z ≠ some st.nextMem := by
      intro z hz hLookup
      obtain ⟨c, hc, hCell⟩ := hPlaced.cell z hz
      rw [hCell] at hLookup
      cases hLookup
      omega
    rw [lookup_allocate, lookup_allocate] at hEq
    by_cases hxn : x = name <;> by_cases hyn : y = name
    · rw [hxn, hyn]
    · rw [if_pos hxn, if_neg hyn] at hEq
      exact absurd hEq.symm (hOther y ((List.mem_cons.mp hy).resolve_left hyn))
    · rw [if_neg hxn, if_pos hyn] at hEq
      exact absurd hEq (hOther x ((List.mem_cons.mp hx).resolve_left hxn))
    · rw [if_neg hxn, if_neg hyn] at hEq
      exact hPlaced.inj x ((List.mem_cons.mp hx).resolve_left hxn) y
        ((List.mem_cons.mp hy).resolve_left hyn) hEq

/-- A variable without a value agrees with any cell. -/
theorem Tracks.allocate (h : Tracks names st ρ μ) (name : String) :
    Tracks (name :: names) (st.allocate name) (Function.update ρ name none) μ := by
  intro x hx c w hc hw
  by_cases hxn : x = name
  · rw [hxn, Function.update_self] at hw
    cases hw
  · rw [Function.update_of_ne hxn] at hw
    rw [lookup_allocate, if_neg hxn] at hc
    exact h x ((List.mem_cons.mp hx).resolve_left hxn) c w hc hw

/-- A declaration gives its variable a cell and, if it has a value, an instruction. -/
theorem steps_decl (hPlaced : Placed names st) {d : Decl}
    (hIds : ∀ e ∈ d.init, ∀ x ∈ e.ids, x ∈ d.name :: names)
    (hConv : (Stmt.decl d).convertible isInt = true) :
    ∃ st', st.visitDecl d = some st' ∧
      Steps names (d.name :: names) [d.name] st st' fun ρ =>
        (d.exec isInt ρ).map fun ρ' => (ρ', none) := by
  have hKept : ∀ x ∉ [d.name], (st.allocate d.name).env.lookup x = st.env.lookup x := fun x hx => by
    rw [lookup_allocate, if_neg fun h => hx (List.mem_singleton.mpr h)]
  cases hInit : d.init with
  | none =>
    refine ⟨st.allocate d.name, by simp [AstToIR.visitDecl, hInit],
      fun x hx => List.mem_cons_of_mem _ hx, hPlaced.allocate d.name, hKept, rfl, [],
      (List.append_nil _).symm, fun ρ out μ hExec hTracks => ?_⟩
    simp only [Decl.exec, hInit, Option.map_some, Option.some.injEq] at hExec
    subst hExec
    exact ⟨rfl, μ, rfl, hTracks.allocate d.name⟩
  | some e =>
    rw [Stmt.convertible, hInit] at hConv
    obtain ⟨st', hVisit, hSteps⟩ := steps_assign (hPlaced.allocate d.name) List.mem_cons_self
      (hIds e hInit) hConv
    obtain ⟨new, hInstrs, hCode⟩ := hSteps.code
    refine ⟨st', by simp [AstToIR.visitDecl, hInit, hVisit], fun x hx => List.mem_cons_of_mem _ hx,
      hSteps.placed, fun x hx => ?_, hSteps.outputs, new, hInstrs, fun ρ out μ hExec hTracks => ?_⟩
    · rw [hSteps.kept x List.not_mem_nil, hKept x hx]
    · simp only [Decl.exec, hInit] at hExec
      exact hCode _ out μ hExec (hTracks.allocate d.name)

/-- An expression without an assignment in it emits nothing. -/
theorem Expr.toHLIR_inert (st : AstToIR) : ∀ e : Expr, e.isInert = true → e.toHLIR st = some st
  | .id _, _ | .constant _, _ => rfl
  | .binaryOp _ left right, h => by
    rw [Expr.isInert, Bool.and_eq_true] at h
    rw [Expr.toHLIR, left.toHLIR_inert st h.1, Option.bind_some, right.toHLIR_inert st h.2]
  | .ternaryOp cond iftrue iffalse, h => by
    rw [Expr.isInert, Bool.and_eq_true, Bool.and_eq_true] at h
    rw [Expr.toHLIR, cond.toHLIR_inert st h.1.1, Option.bind_some, iftrue.toHLIR_inert st h.1.2,
      Option.bind_some, iffalse.toHLIR_inert st h.2]
  | .arrayRef .., h | .unaryOp .., h | .funcCall .., h | .assignment .., h | .exprList _, h
  | .initList _, h => by simp [Expr.isInert] at h

/-- The expression statements that the visitor translates. -/
inductive Expr.Translated (isInt : String → Bool) (names : List String) : Expr → Prop
  | assign {x : String} {e : Expr} (hx : x ∈ names) (hIds : ∀ y ∈ e.ids, y ∈ names)
      (hConv : e.convertible isInt = true) : Translated isInt names (.assignment none (.id x) e)
  | step {op : UnOp} {step : BinOp} {x : String} (hStep : op.step? = some step) (hx : x ∈ names) :
      Translated isInt names (.unaryOp op (.id x))
  | inert {e : Expr} (hInert : e.isInert = true) : Translated isInt names e

/-- A statement that has an instruction is one that `AST_to_IR` translates. -/
theorem Expr.NormalStmt.translated {e : Expr} (he : e.NormalStmt names)
    (hConv : e.convertibleStmt isInt = true) : e.Translated isInt names := by
  cases e with
  | assignment op lvalue rvalue =>
    cases op with
    | none =>
      cases lvalue with
      | id x => exact .assign he.1 he.2.2 hConv
      | _ => simp [Expr.convertibleStmt, Expr.isInert] at hConv
    | some op => simp [Expr.convertibleStmt, Expr.isInert] at hConv
  | unaryOp op a =>
    cases a with
    | id x =>
      obtain ⟨step, hStep⟩ := Option.isSome_iff_exists.mp hConv
      exact .step hStep he.2
    | _ => simp [Expr.convertibleStmt, Expr.isInert] at hConv
  | _ => exact .inert hConv

/-- `++` and `--` are an addition and a subtraction of 1. -/
theorem convertible_step {op : UnOp} {step : BinOp} (hStep : op.step? = some step) (x : String) :
    (Expr.binaryOp step (.id x) (.constant 1)).convertible isInt = true := by
  cases op <;> cases hStep <;> rfl

/-- An expression statement is an assignment or does nothing. -/
theorem steps_expr (hPlaced : Placed names st) {e : Expr} (he : e.Translated isInt names) :
    ∃ st', e.toHLIR st = some st' ∧
      Steps names names [] st st' fun ρ => (e.exec isInt ρ).map fun ρ' => (ρ', none) := by
  cases he with
  | assign hx hIds hConv => exact steps_assign hPlaced hx hIds hConv
  | @step op step x hStep hx =>
    obtain ⟨st', hVisit, hSteps⟩ := steps_assign hPlaced hx
      (by simpa [Expr.ids] using hx) (convertible_step hStep x)
    refine ⟨st', by simp [Expr.toHLIR, AstToIR.visitUnaryOp, hStep, hVisit], ?_⟩
    simpa only [Expr.exec, hStep] using hSteps
  | inert hInert =>
    refine ⟨st, e.toHLIR_inert st hInert, fun x hx => hx, hPlaced, fun _ _ => rfl, rfl, [],
      (List.append_nil _).symm, fun ρ out μ hExec hTracks => ?_⟩
    have hExecEq : e.exec isInt ρ = (e.eval isInt ρ).map fun _ => ρ := by
      cases e with
      | assignment | unaryOp => simp [Expr.isInert] at hInert
      | _ => rfl
    rw [hExecEq, Option.map_map, Option.map_eq_some_iff] at hExec
    obtain ⟨w, -, rfl⟩ := hExec
    exact ⟨rfl, μ, rfl, hTracks⟩

/-- The names of a block are declared in it. -/
theorem blockNames_subset (items : List Stmt) {x : String} (hx : x ∈ blockNames items) :
    x ∈ Stmt.declNamesList items := by
  induction items with
  | nil => cases hx
  | cons s items ih =>
    rw [Stmt.declNamesList, List.mem_append]
    cases s with
    | decl d =>
      rcases List.mem_cons.mp hx with rfl | hx
      · exact Or.inl (List.mem_singleton_self _)
      · exact Or.inr (ih hx)
    | _ => exact Or.inr (ih hx)

/-- What is visible after a statement is not declared by those that follow. -/
theorem Stmt.scope_fresh (s : Stmt) {stmts : List Stmt}
    (hFresh : ∀ x ∈ names, x ∉ Stmt.declNamesList (s :: stmts))
    (hDisjoint : s.declNames.Disjoint (Stmt.declNamesList stmts)) :
    ∀ x ∈ s.scope names, x ∉ Stmt.declNamesList stmts := by
  have hNames : ∀ x ∈ names, x ∉ Stmt.declNamesList stmts := fun x hx h =>
    hFresh x hx (List.mem_append_right _ h)
  cases s with
  | decl d => exact List.forall_mem_cons.mpr ⟨hDisjoint (List.mem_singleton_self _), hNames⟩
  | _ => exact hNames

/-- Leaving a block that declares none of the visible variables. -/
theorem Tracks.leave {ρ' : Env} {items : List Stmt} (h : Tracks names st ρ' μ)
    (hFresh : ∀ x ∈ names, x ∉ Stmt.declNamesList items) :
    Tracks names st (ρ.leave ρ' (blockNames items)) μ := by
  intro x hx c w hc hw
  have hOuter : x ∉ blockNames items := fun h => hFresh x hx (blockNames_subset items h)
  rw [Env.leave, if_neg hOuter] at hw
  exact h x hx c w hc hw

mutual

/-- The visit of a statement that does not return. -/
theorem Stmt.toHLIR_steps : ∀ (s : Stmt) (names : List String) (st : AstToIR),
    s.Normal isInt false names → s.convertible isInt = true → Placed names st →
    (∀ x ∈ names, x ∉ s.declNames) → s.declNames.Nodup →
    ∃ st', s.toHLIR st = some st' ∧
      Steps names (s.scope names) s.declNames st st' (s.exec isInt)
  | .decl d, names, st, hNormal, hConv, hPlaced, _, _ =>
    steps_decl hPlaced (fun e he => (hNormal.2 e he).2) hConv
  | .expr e, names, st, hNormal, hConv, hPlaced, _, _ =>
    steps_expr hPlaced (Expr.NormalStmt.translated hNormal hConv)
  | .compound items, names, st, hNormal, hConv, hPlaced, hFresh, hNodup => by
    obtain ⟨st', names', hVisit, hSteps⟩ :=
      Stmt.toHLIRList_steps items names st hNormal hConv hPlaced hFresh hNodup
    obtain ⟨new, hInstrs, hCode⟩ := hSteps.code
    refine ⟨st', hVisit, fun x hx => hx, ⟨fun x hx => hSteps.placed.cell x (hSteps.visible x hx),
      fun x hx y hy => hSteps.placed.inj x (hSteps.visible x hx) y (hSteps.visible y hy)⟩,
      hSteps.kept, hSteps.outputs, new, hInstrs, fun ρ out μ hExec hTracks => ?_⟩
    obtain ⟨inner, hInner, rfl⟩ := Option.map_eq_some_iff.mp hExec
    obtain ⟨hNone, μ', hRun, hTracks'⟩ := hCode ρ inner μ hInner hTracks
    have hInnerTracks : Tracks names st' inner.1 μ' := fun x hx => hTracks' x (hSteps.visible x hx)
    exact ⟨hNone, μ', hRun, hInnerTracks.leave hFresh⟩
  | .emptyStatement, names, st, _, _, hPlaced, _, _ =>
    ⟨st, rfl, fun x hx => hx, hPlaced, fun _ _ => rfl, rfl, [], (List.append_nil _).symm,
      fun ρ out μ hExec hTracks => by
        cases hExec
        exact ⟨rfl, μ, rfl, hTracks⟩⟩
  | .ret _, _, _, hNormal, _, _, _, _ => absurd hNormal.1 (by simp)
  | .forLoop .., _, _, hNormal, _, _, _, _ => hNormal.elim
  | .ifElse .., _, _, hNormal, _, _, _, _ => hNormal.elim
  | .whileLoop .., _, _, hNormal, _, _, _, _ => hNormal.elim
  | .doWhile .., _, _, hNormal, _, _, _, _ => hNormal.elim
  | .switch .., _, _, hNormal, _, _, _, _ => hNormal.elim
  | .case .., _, _, hNormal, _, _, _, _ => hNormal.elim
  | .default .., _, _, hNormal, _, _, _, _ => hNormal.elim
  | .label .., _, _, hNormal, _, _, _, _ => hNormal.elim
  | .goto .., _, _, hNormal, _, _, _, _ => hNormal.elim
  | .breakStmt, _, _, hNormal, _, _, _, _ => hNormal.elim
  | .continueStmt, _, _, hNormal, _, _, _, _ => hNormal.elim

/-- A list without `return` is translated statement by statement. -/
theorem Stmt.toHLIRList_steps : ∀ (stmts : List Stmt) (names : List String) (st : AstToIR),
    Stmt.NormalList isInt stmts false names → Stmt.convertibleList isInt stmts = true →
    Placed names st → (∀ x ∈ names, x ∉ Stmt.declNamesList stmts) →
    (Stmt.declNamesList stmts).Nodup →
    ∃ st' names', Stmt.toHLIRList stmts st = some st' ∧
      Steps names names' (Stmt.declNamesList stmts) st st' (Stmt.execList isInt stmts)
  | [], names, st, _, _, hPlaced, _, _ =>
    ⟨st, names, rfl, fun x hx => hx, hPlaced, fun _ _ => rfl, rfl, [], (List.append_nil _).symm,
      fun ρ out μ hExec hTracks => by
        cases hExec
        exact ⟨rfl, μ, rfl, hTracks⟩⟩
  | s :: stmts, names, st, hNormal, hConv, hPlaced, hFresh, hNodup => by
    obtain ⟨hHead, hTail, hDisjoint⟩ := List.nodup_append'.mp hNodup
    obtain ⟨hConv₁, hConv₂⟩ := Bool.and_eq_true_iff.mp hConv
    obtain ⟨st₁, hVisit₁, hSteps₁⟩ := s.toHLIR_steps names st hNormal.1 hConv₁ hPlaced
      (fun x hx h => hFresh x hx (List.mem_append_left _ h)) hHead
    have hFresh₁ := s.scope_fresh hFresh hDisjoint
    obtain ⟨st₂, names', hVisit₂, hSteps₂⟩ := Stmt.toHLIRList_steps stmts (s.scope names) st₁
      hNormal.2 hConv₂ hSteps₁.placed hFresh₁ hTail
    refine ⟨st₂, names', by simp [Stmt.toHLIRList, hVisit₁, hVisit₂],
      fun x hx => hSteps₂.visible x (hSteps₁.visible x hx), hSteps₂.placed, fun x hx => ?_,
      hSteps₂.outputs.trans hSteps₁.outputs, ?_⟩
    · rw [Stmt.declNamesList, List.mem_append, not_or] at hx
      rw [hSteps₂.kept x hx.2, hSteps₁.kept x hx.1]
    · obtain ⟨new₁, hInstrs₁, hCode₁⟩ := hSteps₁.code
      obtain ⟨new₂, hInstrs₂, hCode₂⟩ := hSteps₂.code
      refine ⟨new₁ ++ new₂, by rw [hInstrs₂, hInstrs₁, List.map_append, List.append_assoc],
        fun ρ out μ hExec hTracks => ?_⟩
      obtain ⟨mid, hMid, hRest⟩ := Option.bind_eq_some_iff.mp hExec
      obtain ⟨hNone, μ₁, hRun₁, hTracks₁⟩ := hCode₁ ρ mid μ hMid hTracks
      rw [hNone] at hRest
      obtain ⟨hNone₂, μ₂, hRun₂, hTracks₂⟩ := hCode₂ mid.1 out μ₁ hRest hTracks₁
      exact ⟨hNone₂, μ₂, run_append_of hRun₁ hRun₂, hTracks₂⟩

end

end Steps

-- ---------------------------------------------------------------------------
-- Bodies of functions
-- ---------------------------------------------------------------------------

/-- The visit of the end of a body: `outs` is the cell of the returned value, if there is one. -/
def Finishes (names : List String) (ret : Option Expr) (st st' : AstToIR)
    (exec : Env → Option (Env × Option Word)) : Prop :=
  ∃ (new : List HLI) (outs : List Nat), st'.instrs = st.instrs ++ new.map HLI.built ∧
    st'.outputs = outs ++ st.outputs ∧ outs.length = ret.toList.length ∧
    ∀ ρ out μ, exec ρ = some out → Tracks names st ρ μ →
      ∃ μ', run new μ = some μ' ∧ Tracks names st out.1 μ' ∧ outs.map μ' = out.2.toList

section Finishes

variable {isInt : String → Bool} {names names' declared : List String} {st st' : AstToIR}
  {exec : Env → Option (Env × Option Word)}

/-- Statements that do not return end a body, too. -/
theorem Steps.ends (h : Steps names names' declared st st' exec)
    (hFresh : ∀ x ∈ names, x ∉ declared) : Finishes names none st st' exec := by
  obtain ⟨new, hInstrs, hCode⟩ := h.code
  refine ⟨new, [], hInstrs, h.outputs, rfl, fun ρ out μ hExec hTracks => ?_⟩
  obtain ⟨hNone, μ', hRun, hTracks'⟩ := hCode ρ out μ hExec hTracks
  refine ⟨μ', hRun, fun x hx c w hc hw => ?_, by rw [hNone]; rfl⟩
  exact hTracks' x (h.visible x hx) c w (by rw [h.kept x (hFresh x hx), hc]) hw

/-- The returned value gets a cell of its own. -/
theorem ends_return (hPlaced : Placed names st) {e : Expr} (hIds : ∀ x ∈ e.ids, x ∈ names)
    (hConv : e.convertible isInt = true) (hRet : "__ret" ∉ e.ids) :
    ∃ st', st.visitReturn (some e) = some st' ∧
      Finishes names (some e) st st' fun ρ => (e.eval isInt ρ).map fun w => (ρ, some w) := by
  let st₁ : AstToIR := { st.allocate "__ret" with outputs := st.nextMem :: st.outputs }
  have hPlaced₁ : Placed ("__ret" :: names) st₁ :=
    ⟨(hPlaced.allocate "__ret").cell, (hPlaced.allocate "__ret").inj⟩
  have hLookup : ∀ x, st₁.env.lookup x = if x = "__ret" then some st.nextMem else st.env.lookup x :=
    lookup_allocate st "__ret"
  -- only the variables of the expression matter, and they keep their cells
  have hPlaced₂ : Placed e.ids st₁ :=
    ⟨fun x hx => hPlaced₁.cell x (List.mem_cons_of_mem _ (hIds x hx)), fun x hx y hy =>
      hPlaced₁.inj x (List.mem_cons_of_mem _ (hIds x hx)) y (List.mem_cons_of_mem _ (hIds y hy))⟩
  obtain ⟨i, hVisit, hDst, hResult⟩ := visitAssignment_spec hPlaced₂
    ((hLookup "__ret").trans (if_pos rfl)) (fun x hx => hx) hConv
  refine ⟨st₁.emit i.built, hVisit, [i], [st.nextMem], rfl, rfl, rfl,
    fun ρ out μ hExec hTracks => ?_⟩
  obtain ⟨w, hw, rfl⟩ := Option.map_eq_some_iff.mp hExec
  have hTracks₂ : Tracks e.ids st₁ ρ μ := fun x hx c v hc hv => by
    have hNe : x ≠ "__ret" := fun h => hRet (h ▸ hx)
    rw [hLookup, if_neg hNe] at hc
    exact hTracks x (hIds x hx) c v hc hv
  refine ⟨Function.update μ i.dst w, by simp [run, Instr.exec, hResult ρ μ hTracks₂ w hw], ?_, ?_⟩
  · intro x hx c v hc hv
    obtain ⟨c', hLt, hc'⟩ := hPlaced.cell x hx
    have hNe : c ≠ i.dst := by
      rw [hc] at hc'
      cases hc'
      omega
    rw [Function.update_of_ne hNe]
    exact hTracks x hx c v hc hv
  · simp [hDst]

mutual

/-- The visit of the last statement of a body. -/
theorem Stmt.toHLIR_ends : ∀ (s : Stmt) (names : List String) (st : AstToIR),
    s.Normal isInt true names → s.convertible isInt = true → Placed names st →
    (∀ x ∈ names, x ∉ s.declNames) → s.declNames.Nodup → (∀ e ∈ s.returned, "__ret" ∉ e.ids) →
    ∃ st', s.toHLIR st = some st' ∧ Finishes names s.returned st st' (s.exec isInt)
  | .decl d, names, st, hNormal, hConv, hPlaced, hFresh, hNodup, _ => by
    obtain ⟨st', hVisit, hSteps⟩ :=
      (Stmt.decl d).toHLIR_steps names st hNormal hConv hPlaced hFresh hNodup
    exact ⟨st', hVisit, hSteps.ends hFresh⟩
  | .expr e, names, st, hNormal, hConv, hPlaced, hFresh, hNodup, _ => by
    obtain ⟨st', hVisit, hSteps⟩ :=
      (Stmt.expr e).toHLIR_steps names st hNormal hConv hPlaced hFresh hNodup
    exact ⟨st', hVisit, hSteps.ends hFresh⟩
  | .emptyStatement, names, st, hNormal, hConv, hPlaced, hFresh, hNodup, _ => by
    obtain ⟨st', hVisit, hSteps⟩ :=
      @Stmt.toHLIR_steps isInt .emptyStatement names st hNormal hConv hPlaced hFresh hNodup
    exact ⟨st', hVisit, hSteps.ends hFresh⟩
  | .ret (some e), names, st, hNormal, hConv, hPlaced, _, _, hRet =>
    ends_return hPlaced (hNormal.2 e rfl).2 hConv (hRet e rfl)
  | .ret none, _, _, _, hConv, _, _, _, _ => by simp [Stmt.convertible] at hConv
  | .compound items, names, st, hNormal, hConv, hPlaced, hFresh, hNodup, hRet => by
    obtain ⟨st', hVisit, new, outs, hInstrs, hOuts, hLen, hCode⟩ :=
      Stmt.toHLIRList_ends items names st hNormal hConv hPlaced hFresh hNodup hRet
    refine ⟨st', hVisit, new, outs, hInstrs, hOuts, hLen, fun ρ out μ hExec hTracks => ?_⟩
    obtain ⟨inner, hInner, rfl⟩ := Option.map_eq_some_iff.mp hExec
    obtain ⟨μ', hRun, hTracks', hVals⟩ := hCode ρ inner μ hInner hTracks
    exact ⟨μ', hRun, hTracks'.leave hFresh, hVals⟩
  | .forLoop .., _, _, hNormal, _, _, _, _, _ => hNormal.elim
  | .ifElse .., _, _, hNormal, _, _, _, _, _ => hNormal.elim
  | .whileLoop .., _, _, hNormal, _, _, _, _, _ => hNormal.elim
  | .doWhile .., _, _, hNormal, _, _, _, _, _ => hNormal.elim
  | .switch .., _, _, hNormal, _, _, _, _, _ => hNormal.elim
  | .case .., _, _, hNormal, _, _, _, _, _ => hNormal.elim
  | .default .., _, _, hNormal, _, _, _, _, _ => hNormal.elim
  | .label .., _, _, hNormal, _, _, _, _, _ => hNormal.elim
  | .goto .., _, _, hNormal, _, _, _, _, _ => hNormal.elim
  | .breakStmt, _, _, hNormal, _, _, _, _, _ => hNormal.elim
  | .continueStmt, _, _, hNormal, _, _, _, _, _ => hNormal.elim

/-- A list that ends with the `return` is translated statement by statement. -/
theorem Stmt.toHLIRList_ends : ∀ (stmts : List Stmt) (names : List String) (st : AstToIR),
    Stmt.NormalList isInt stmts true names → Stmt.convertibleList isInt stmts = true →
    Placed names st → (∀ x ∈ names, x ∉ Stmt.declNamesList stmts) →
    (Stmt.declNamesList stmts).Nodup → (∀ e ∈ Stmt.returnedList stmts, "__ret" ∉ e.ids) →
    ∃ st', Stmt.toHLIRList stmts st = some st' ∧
      Finishes names (Stmt.returnedList stmts) st st' (Stmt.execList isInt stmts)
  | [], names, st, _, _, hPlaced, _, _, _ =>
    ⟨st, rfl, [], [], (List.append_nil _).symm, rfl, rfl, fun ρ out μ hExec hTracks => by
      cases hExec
      exact ⟨μ, rfl, hTracks, rfl⟩⟩
  | [s], names, st, hNormal, hConv, hPlaced, hFresh, hNodup, hRet => by
    rw [Stmt.declNamesList, Stmt.declNamesList, List.append_nil] at hFresh hNodup
    obtain ⟨st', hVisit, new, outs, hInstrs, hOuts, hLen, hCode⟩ :=
      s.toHLIR_ends names st hNormal.1 (Bool.and_eq_true_iff.mp hConv).1 hPlaced hFresh hNodup hRet
    refine ⟨st', by simp [Stmt.toHLIRList, hVisit], new, outs, hInstrs, hOuts, hLen,
      fun ρ out μ hExec hTracks => hCode ρ out μ ?_ hTracks⟩
    obtain ⟨mid, hMid, hRest⟩ := Option.bind_eq_some_iff.mp hExec
    obtain ⟨ρ', ret⟩ := mid
    cases ret <;> cases hRest <;> exact hMid
  | s :: t :: stmts, names, st, hNormal, hConv, hPlaced, hFresh, hNodup, hRet => by
    obtain ⟨hHead, hTail, hDisjoint⟩ := List.nodup_append'.mp hNodup
    obtain ⟨hConv₁, hConv₂⟩ := Bool.and_eq_true_iff.mp hConv
    have hFreshHead : ∀ x ∈ names, x ∉ s.declNames := fun x hx h =>
      hFresh x hx (List.mem_append_left _ h)
    obtain ⟨st₁, hVisit₁, hSteps₁⟩ :=
      s.toHLIR_steps names st hNormal.1 hConv₁ hPlaced hFreshHead hHead
    obtain ⟨st₂, hVisit₂, new₂, outs, hInstrs₂, hOuts, hLen, hCode₂⟩ :=
      Stmt.toHLIRList_ends (t :: stmts) (s.scope names) st₁ hNormal.2 hConv₂ hSteps₁.placed
        (s.scope_fresh hFresh hDisjoint) hTail hRet
    obtain ⟨new₁, hInstrs₁, hCode₁⟩ := hSteps₁.code
    refine ⟨st₂, by rw [Stmt.toHLIRList, hVisit₁]; exact hVisit₂, new₁ ++ new₂, outs,
      by rw [hInstrs₂, hInstrs₁, List.map_append, List.append_assoc],
      by rw [hOuts, hSteps₁.outputs], hLen, fun ρ out μ hExec hTracks => ?_⟩
    obtain ⟨mid, hMid, hRest⟩ := Option.bind_eq_some_iff.mp hExec
    obtain ⟨hNone, μ₁, hRun₁, hTracks₁⟩ := hCode₁ ρ mid μ hMid hTracks
    rw [hNone] at hRest
    obtain ⟨μ₂, hRun₂, hTracks₂, hVals⟩ := hCode₂ mid.1 out μ₁ hRest hTracks₁
    refine ⟨μ₂, run_append_of hRun₁ hRun₂, fun x hx c w hc hw => ?_, hVals⟩
    exact hTracks₂ x (hSteps₁.visible x hx) c w (by rw [hSteps₁.kept x (hFreshHead x hx), hc]) hw

end

end Finishes

-- ---------------------------------------------------------------------------
-- Values stay
-- ---------------------------------------------------------------------------

section IsSome

variable {isInt : String → Bool}

/-- A variable keeps having a value. -/
theorem Env.assign_isSome {ρ ρ' : Env} {x y : String} {e : Expr}
    (h : ρ.assign isInt x e = some ρ') (hy : (ρ y).isSome = true) : (ρ' y).isSome = true := by
  obtain ⟨w, -, rfl⟩ := Option.map_eq_some_iff.mp h
  by_cases hyx : y = x
  · rw [hyx, Function.update_self]
    rfl
  · rwa [Function.update_of_ne hyx]

/-- The same for an expression statement. -/
theorem Expr.exec_isSome {ρ ρ' : Env} {e : Expr} (h : e.exec isInt ρ = some ρ') {y : String}
    (hy : (ρ y).isSome = true) : (ρ' y).isSome = true := by
  unfold Expr.exec at h
  split at h
  · exact Env.assign_isSome h hy
  · split at h
    · exact Env.assign_isSome h hy
    · obtain ⟨-, -, rfl⟩ := Option.map_eq_some_iff.mp h
      exact hy
  · obtain ⟨-, -, rfl⟩ := Option.map_eq_some_iff.mp h
    exact hy

mutual

/-- A variable that has a value keeps one, unless it is declared again. -/
theorem Stmt.exec_isSome : ∀ (s : Stmt) (ρ : Env) (out : Env × Option Word),
    s.exec isInt ρ = some out → ∀ y ∉ s.declNames, (ρ y).isSome = true → (out.1 y).isSome = true
  | .decl d, ρ, out, hExec, y, hy, hSome => by
    obtain ⟨ρ', hDecl, rfl⟩ := Option.map_eq_some_iff.mp hExec
    have hStart : (Function.update ρ d.name none y).isSome = true := by
      rwa [Function.update_of_ne fun h => hy (List.mem_singleton.mpr h)]
    unfold Decl.exec at hDecl
    split at hDecl
    · cases hDecl
      exact hStart
    · exact Env.assign_isSome hDecl hStart
  | .expr e, ρ, out, hExec, y, _, hSome => by
    obtain ⟨ρ', hExpr, rfl⟩ := Option.map_eq_some_iff.mp hExec
    exact Expr.exec_isSome hExpr hSome
  | .ret (some e), ρ, out, hExec, y, _, hSome => by
    obtain ⟨w, -, rfl⟩ := Option.map_eq_some_iff.mp hExec
    exact hSome
  | .compound items, ρ, out, hExec, y, hy, hSome => by
    obtain ⟨inner, hInner, rfl⟩ := Option.map_eq_some_iff.mp hExec
    show (Env.leave ρ inner.1 (blockNames items) y).isSome = true
    rw [Env.leave]
    split
    · exact hSome
    · exact Stmt.execList_isSome items ρ inner hInner y hy hSome
  | .ret none, ρ, out, hExec, y, _, hSome | .emptyStatement, ρ, out, hExec, y, _, hSome => by
    cases hExec
    exact hSome

/-- A variable that is not declared in a list keeps having a value: induction on the list and its
blocks. -/
theorem Stmt.execList_isSome : ∀ (stmts : List Stmt) (ρ : Env) (out : Env × Option Word),
    Stmt.execList isInt stmts ρ = some out → ∀ y ∉ Stmt.declNamesList stmts,
      (ρ y).isSome = true → (out.1 y).isSome = true
  | [], ρ, out, hExec, y, _, hSome => by
    cases hExec
    exact hSome
  | s :: stmts, ρ, out, hExec, y, hy, hSome => by
    rw [Stmt.declNamesList, List.mem_append, not_or] at hy
    obtain ⟨⟨ρ₁, ret⟩, hHead, hRest⟩ := Option.bind_eq_some_iff.mp hExec
    have hMid := s.exec_isSome ρ (ρ₁, ret) hHead y hy.1 hSome
    cases ret with
    | none => exact Stmt.execList_isSome stmts ρ₁ out hRest y hy.2 hMid
    | some w =>
      cases hRest
      exact hMid

end

end IsSome

-- ---------------------------------------------------------------------------
-- Inputs and outputs
-- ---------------------------------------------------------------------------

section Params

variable {returns : List String} {st : AstToIR}

end Params

def ExtDecl.isFuncDef : ExtDecl → Bool
  | .funcDef .. => true
  | _ => false

/-- The variable that is declared at file level. -/
def ExtDecl.variable? : ExtDecl → Option String
  | .decl d => some d.name
  | _ => none

/-- A normalized translation unit: declarations and then one function. Its variables are
`unsigned int` or `int`, and the parameters among `returns` are the cells of arrays that are not
`const`. No name is declared twice. -/
structure NormalUnit where
  globals : List ExtDecl
  name : String
  params : List Decl
  body : List Stmt
  returns : List String
  isInt : String → Bool
  globals_declared : ∀ g ∈ globals, g.isFuncDef = false
  globals_typed : ∀ d, .decl d ∈ globals → d.type = variableType (isInt d.name)
  params_typed : ∀ p ∈ params, p.type = variableType (isInt p.name)
  normal : Stmt.NormalList isInt body true
    (params.map Decl.name ++ globals.filterMap ExtDecl.variable?)
  distinct : (FileAST.declNames (globals ++ [.funcDef name params body])).Nodup

namespace NormalUnit

def ast (u : NormalUnit) : FileAST := u.globals ++ [.funcDef u.name u.params u.body]

/-- The parameters that are outputs. -/
def outParams (u : NormalUnit) : List Decl := u.params.filter fun p => p.name ∈ u.returns

/-- A global variable starts with its initializer or with 0. -/
def execGlobal (u : NormalUnit) (ρ : Env) : ExtDecl → Option Env
  | .decl d =>
    match d.init with
    | none => some (Function.update ρ d.name (some 0))
    | some e => ρ.assign u.isInt d.name e
  | _ => some ρ

/-- The variables at the start of the body. -/
def bindParams (u : NormalUnit) (vals : List Word) (ρ : Env) : Env := fun x =>
  ((u.params.map Decl.name).zip vals).lookup x <|> ρ x

/-- What the program does with its arguments: the variables at the end of the body and the value
that is returned, if there is one. -/
def exec (u : NormalUnit) (vals : List Word) : Option (Env × Option Word) :=
  (u.globals.foldlM u.execGlobal fun _ => none).bind fun ρ =>
    Stmt.execList u.isInt u.body (u.bindParams vals ρ)

/-- The visitor at the start of the body. -/
def atBody (u : NormalUnit) : Option AstToIR :=
  (u.globals.foldlM (ExtDecl.toHLIR u.returns) .start).map fun st =>
    st.visitParams u.returns u.params

/-- The cell that the body reads for a parameter. -/
def cell (u : NormalUnit) (p : Decl) : Option Nat := u.atBody.bind fun st => st.env.lookup p.name

/-- The inputs are the cells of the parameters, the outputs that of the returned value and those of
the arrays, and they get the values that the C program gives them. -/
structure BindsIO (u : NormalUnit) (ir : HLIRProgram) : Prop where
  inputs : ir.inputs.map some = u.params.map u.cell
  outputs : ∃ outs : List Nat, outs.length = (Stmt.returnedList u.body).toList.length ∧
    ir.outputs.map some = outs.map some ++ u.outParams.map u.cell
  computes : ∀ vals ρ ret, vals.length = u.params.length → u.exec vals = some (ρ, ret) →
    ∀ μ : Store Nat, ir.inputs.map μ = vals →
      ∃ μ', run ir.instrs μ = some μ' ∧
        ir.outputs.map (fun c => some (μ' c)) =
          ret.toList.map some ++ u.outParams.map fun p => ρ p.name

/-- What the visitor should give: a program with the right inputs and outputs. -/
def Bound (u : NormalUnit) : Prop := ∃ ir, astToHLIR u.ast u.returns = some ir ∧ u.BindsIO ir

section Binding

variable {u : NormalUnit}

section Start

variable {vals : List Word} {μ : Store Nat} (hInputs : (List.range u.params.length).map μ = vals)
  (hGlobals : u.globals = [])

include hInputs

include hGlobals

end Start

end Binding

/-- `unsigned int f(unsigned int a, unsigned int b) {return a + -b;}`, normalized: the negation is
taken out of the sum and left as it is. -/
def negatedUnit : NormalUnit where
  globals := []
  name := "f"
  params := [⟨"a", [], unsignedInt, none⟩, ⟨"b", [], unsignedInt, none⟩]
  body := [.decl ⟨"@subexpr_0", [], unsignedInt, some (.unaryOp .minus (.id "b"))⟩,
    .ret (some (.binaryOp .add (.id "a") (.id "@subexpr_0")))]
  returns := []
  isInt := fun _ => false
  globals_declared := by simp
  globals_typed := by simp
  params_typed := by simp [variableType]
  normal := by simp [Stmt.NormalList, Stmt.Normal, Stmt.scope, Expr.Normal, Expr.isScalar,
    UnOp.isArith, Expr.ids, variableType]
  distinct := by decide

/-- The source of the first `MOV` is `None`, and the function returns `a`. -/
theorem negatedUnit_not_bound : ¬ negatedUnit.Bound := by
  rintro ⟨ir, hConvert, hBinds⟩
  cases hConvert
  obtain ⟨μ, hRun, hOut⟩ := hBinds.computes [5, 3] _ (some 2) rfl rfl (fun m => [5, 3].getD m 0) rfl
  cases hRun
  exact absurd hOut (by decide)

end NormalUnit

end Obscure
