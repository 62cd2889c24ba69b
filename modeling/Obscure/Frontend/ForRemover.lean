import Mathlib.Data.Int.Bitwise
import Obscure.Frontend.AST

/-!
# OBSCURE — static evaluation and the unrolling of loops

`NodeCopyVisitorWithEnv` of `compiler/src/utils.py` and `ForRemover` of
`compiler/src/frontend/normalize.py`. The first copies a syntax tree and keeps the values of the
variables that it knows, the second unrolls `for` loops on the way.

Visitors run in a monad with exceptions over the state, since an exception that `visit_BinaryOp`
swallows does not undo what was assigned before it.
-/

namespace Obscure

/-- Either an exception of Python, or a loop that was left without an end. -/
inductive VisitError where
  | raised
  | stuck
deriving DecidableEq, Repr

/-- The attributes of the visitor. A variable can be in `env` with the value `None`. -/
structure StaticState where
  env : String → Option (Option Int)
  defs : List String

/-- At the beginning of `visit_FileAST`. -/
def StaticState.start : StaticState := ⟨fun _ => none, []⟩

abbrev Visitor (α : Type) := ExceptT VisitError (StateM StaticState) α

def Visitor.raise {α : Type} : Visitor α := throw .raised

/-- `try: node = self.visit(node)` with `except Exception: pass`. -/
def Visitor.orKeep (x : Visitor Expr) (node : Expr) : Visitor Expr := fun st =>
  match x st with
  | (.ok node', st') => (.ok node', st')
  | (.error _, st') => (.ok node, st')

/-- `None` in the place of an expression. -/
def Expr.absent : Expr := .exprList []

def Expr.isAbsent : Expr → Bool
  | .exprList [] => true
  | _ => false

-- ---------------------------------------------------------------------------
-- Values
-- ---------------------------------------------------------------------------

/-- `get_val`. -/
def StaticState.getVal (st : StaticState) : Expr → Option Int
  | .constant value => some value
  | .id name => (st.env name).join
  | _ => none

/-- `self.env[name] = val`. -/
def StaticState.set (st : StaticState) (name : String) (val : Option Int) : StaticState :=
  { st with env := Function.update st.env name (some val) }

/-- `self.env.pop(name, None)`. -/
def StaticState.pop (st : StaticState) (name : String) : StaticState :=
  { st with env := Function.update st.env name none }

/-- What `visit_Assignment` and `visit_Decl` do with the value of a right-hand side. -/
def StaticState.record (st : StaticState) (name : String) : Option Int → StaticState
  | some val => st.set name (some val)
  | none => st.pop name

/-- The right-hand side itself, once it has been looked at. -/
def StaticState.replace (st : StaticState) (rvalue : Expr) : Expr :=
  match st.getVal rvalue with
  | some val => .constant val
  | none => rvalue

def StaticState.enterScope (st : StaticState) : StaticState := { st with defs := [] }

/-- `exit_scope`, with the state at `enter_scope`. -/
def StaticState.exitScope (st entry : StaticState) : StaticState where
  env x := if x ∈ st.defs ∧ (st.env x).isSome then entry.env x else st.env x
  defs := entry.defs

/-- The operators for which `visit_BinaryOp` has a case. -/
def BinOp.folded : BinOp → Bool
  | .add | .sub | .mul | .div | .mod | .and | .or | .xor | .shl | .shr | .lt | .eq => true
  | .le | .gt | .ge | .ne | .land | .lor => false

/-- The cases of `visit_BinaryOp`, on integers of Python; no result stands for an exception. -/
def BinOp.fold : BinOp → Int → Int → Option Int
  | .add, lval, rval => some ((lval + rval) % 2 ^ 32)
  | .sub, lval, rval => some ((lval - rval) % 2 ^ 32)
  | .mul, lval, rval => some ((lval * rval) % 2 ^ 32)
  | .div, lval, rval => if rval = 0 then none else some (lval.fdiv rval)
  | .mod, lval, rval => if rval = 0 then none else some (lval.fmod rval)
  | .and, lval, rval => some (lval.land rval)
  | .or, lval, rval => some (lval.lor rval)
  | .xor, lval, rval => some (lval.xor rval)
  | .shl, lval, rval => if rval < 0 then none else some ((lval * 2 ^ rval.toNat) % 2 ^ 32)
  | .shr, lval, rval => if rval < 0 then none else some (lval / 2 ^ rval.toNat)
  | .lt, lval, rval => some (if lval < rval then 1 else 0)
  | .eq, lval, rval => some (if lval.xor rval = 0 then 1 else 0)
  | _, _, _ => none

/-- `visit_BinaryOp` once the operands have been visited. -/
def StaticState.foldBinary (st : StaticState) (op : BinOp) (left right : Expr) : Expr :=
  if op.folded then
    match (st.getVal left).bind fun lval => (st.getVal right).bind fun rval =>
      op.fold lval rval with
    | some res => .constant res
    | none => .binaryOp op left right
  else .absent

-- ---------------------------------------------------------------------------
-- Expressions
-- ---------------------------------------------------------------------------

/-- `expr.name`, for the nodes that have a `name`: a string only in an `ID`. -/
def Expr.nameAttribute : Expr → Option (Option String)
  | .id name => some (some name)
  | .arrayRef .. | .funcCall .. => some none
  | _ => none

/-- `visit_UnaryOp` on a static variable: `env` is not a name there, and raises. -/
def UnOp.stepStatic (op : UnOp) (name : String) (val : Option Int) : Visitor Expr := do
  match op, val with
  | .preIncr, some val | .postIncr, some val =>
    modify fun st => st.set name (some ((val + 1) % 2 ^ 32))
    .raise
  | .preDecr, some val | .postDecr, some val =>
    modify fun st => st.set name (some ((val - 1) % 2 ^ 32))
    .raise
  | _, _ => .raise

/-- `visit_UnaryOp` for the other operators than `-`, once the operand has been visited. -/
def UnOp.visitOperand (op : UnOp) (expr : Expr) : Visitor Expr := do
  match expr.nameAttribute with
  | none => .raise
  | some none => return .unaryOp op expr
  | some (some name) =>
    match (← get).env name with
    | some val => op.stepStatic name val
    | none => return .unaryOp op expr

/-- `visit_Assignment` once its sides have been visited. -/
def assignVisited (op : Option BinOp) (lvalue rvalue : Expr) : Visitor Expr := do
  match lvalue with
  | .id name =>
    let st ← get
    set (st.record name (st.getVal rvalue))
    return .assignment op lvalue (st.replace rvalue)
  | _ => return .assignment op lvalue rvalue

mutual

def Expr.visit : Expr → Visitor Expr
  | .id name => return .id name
  | .constant value => return .constant value
  | .arrayRef name subscript => do
    let name ← name.visit
    let subscript ← subscript.visit
    return .arrayRef name subscript
  | .unaryOp .minus expr => do
    let expr ← expr.visit
    match (← get).getVal expr with
    | some val => return .constant (-val)
    | none => return .unaryOp .minus expr
  | .unaryOp op expr => do
    let expr ← expr.visit
    op.visitOperand expr
  | .binaryOp op left right => do
    let left ← Visitor.orKeep left.visit left
    let right ← Visitor.orKeep right.visit right
    return (← get).foldBinary op left right
  | .ternaryOp cond iftrue iffalse => do
    let cond ← cond.visit
    let iftrue ← iftrue.visit
    let iffalse ← iffalse.visit
    return .ternaryOp cond iftrue iffalse
  | .funcCall name args => do
    let name ← name.visit
    let args ← Expr.visitList args
    return .funcCall name args
  | .assignment op lvalue rvalue => do
    let lvalue ← lvalue.visit
    let rvalue ← rvalue.visit
    assignVisited op lvalue rvalue
  | .exprList exprs => return .exprList (← Expr.visitList exprs)
  | .initList exprs => return .initList (← Expr.visitList exprs)

def Expr.visitList : List Expr → Visitor (List Expr)
  | [] => return []
  | e :: exprs => do
    let e ← e.visit
    let exprs ← Expr.visitList exprs
    return e :: exprs

end

/-- `eval_expr`. -/
def evalExpr (expr : Expr) : Visitor (Option Int) := do
  let expr ← expr.visit
  return (← get).getVal expr

-- ---------------------------------------------------------------------------
-- Declarations
-- ---------------------------------------------------------------------------

/-- `node.type.type.names == ['unsigned', 'int']`. -/
def DeclType.isUnsignedInt : DeclType → Bool
  | .typeDecl names => names == ["unsigned", "int"]
  | _ => false

def DeclType.visit : DeclType → Visitor DeclType
  | .typeDecl names => return .typeDecl names
  | .ptrDecl type => return .ptrDecl (← type.visit)
  | .arrayDecl type none => return .arrayDecl (← type.visit) none
  | .arrayDecl type (some dim) => do
    let type ← type.visit
    let dim ← dim.visit
    return .arrayDecl type (some dim)

/-- `visit_Decl` once the initializer has been visited. -/
def Decl.visitInit (d : Decl) (type : DeclType) (init : Expr) : Visitor Decl := do
  if init.isAbsent then
    return { d with type := type, init := none }
  else if d.type.isUnsignedInt then
    let st ← get
    let recorded := st.record d.name (st.getVal init)
    set { recorded with defs := d.name :: recorded.defs }
    return { d with type := type, init := some (st.replace init) }
  else
    return { d with type := type, init := some init }

/-- `visit_Decl`. -/
def Decl.visit (d : Decl) : Visitor Decl := do
  let type ← d.type.visit
  match d.init with
  | none => return { d with type := type }
  | some init =>
    let init ← init.visit
    d.visitInit type init

-- ---------------------------------------------------------------------------
-- ForRemover
-- ---------------------------------------------------------------------------

/-- The operators that `visit_For` accepts in a condition. -/
def BinOp.compares : BinOp → Bool
  | .lt | .le | .gt | .ge | .eq | .ne => true
  | _ => false

def BinOp.holds : BinOp → Int → Int → Bool
  | .lt, x, y => x < y
  | .le, x, y => x ≤ y
  | .gt, x, y => y < x
  | .ge, x, y => y ≤ x
  | .eq, x, y => x = y
  | _, x, y => x ≠ y

/-- `eval(str(x) + op + str(stop))`: `None` can be tested for equality only. -/
def BinOp.evalText (op : BinOp) (x stop : Option Int) : Visitor Bool :=
  match op, x, stop with
  | op, some x, some stop => return op.holds x stop
  | .eq, x, stop => return x.isNone && stop.isNone
  | .ne, x, stop => return !(x.isNone && stop.isNone)
  | _, _, _ => .raise

/-- `is_not_done(self.env[it_name])`. -/
def isNotDone (op : BinOp) (itName : String) (stop : Option Int) : Visitor Bool := do
  match (← get).env itName with
  | none => .raise
  | some x => op.evalText x stop

/-- `get_next_expr`. -/
def getNextExpr : Option Expr → Visitor (Option Expr)
  | some (.unaryOp op e) =>
    match op with
    | .preIncr | .postIncr => return some (.assignment none e (.binaryOp .add e (.constant 1)))
    | .preDecr | .postDecr => return some (.assignment none e (.binaryOp .sub e (.constant 1)))
    | _ => .raise
  | some (.assignment (some op) lvalue rvalue) =>
    if op ∈ [BinOp.sub, .add, .mul, .div, .xor, .or, .shl, .shr] then
      return some (.assignment none lvalue (.binaryOp op lvalue rvalue))
    else return some (.assignment (some op) lvalue rvalue)
  | next => return next

/-- A statement without statements in it. -/
def visitItem : Stmt → Visitor Stmt
  | .decl d => return .decl (← d.visit)
  | .expr e => return .expr (← e.visit)
  | s => return s

/-- The first part of a loop: the initialisation once visited, and the name of the iterator. The
documented loops initialise a variable. -/
def visitForInit : ForInit → Visitor (Stmt × String)
  | .expr (.assignment op lvalue rvalue) => do
    match ← Expr.visit (.assignment op lvalue rvalue) with
    | .assignment op (.id itName) rvalue =>
      let itInitVal ← evalExpr rvalue
      modify fun st => st.set itName itInitVal
      return (.expr (.assignment op (.id itName) rvalue), itName)
    | _ => .raise
  | .declList [d] => do
    let d ← d.visit
    let itInitVal ← match d.init with
      | none => pure none
      | some init => evalExpr init
    modify fun st => { st with defs := d.name :: st.defs }
    modify fun st => st.set d.name itInitVal
    return (.decl d, d.name)
  | _ => .raise

/-- The next expression of a round; without one the block gets a `None`. -/
def visitNext : Option Expr → Visitor Stmt
  | none => return .emptyStatement
  | some e => return .expr (← e.visit)

/-- The `while` loop of `visit_For`. -/
def unroll (notDone : Visitor Bool) (body next : Visitor Stmt) : Nat → Visitor (List Stmt)
  | 0 => throw .stuck
  | fuel + 1 => do
    if ← notDone then
      let copy ← body
      let incr ← next
      let rest ← unroll notDone body next fuel
      return copy :: incr :: rest
    else
      return []

/-- `visit_For`, given the visitor of the body. -/
def visitFor (fuel : Nat) (init : ForInit) (cond next : Option Expr) (body : Visitor Stmt) :
    Visitor Stmt := do
  let entry ← get
  set entry.enterScope
  let (initStmt, itName) ← visitForInit init
  let nextExpr ← getNextExpr next
  match cond with
  | some (.binaryOp op _ right) =>
    if op.compares then
      let stop ← evalExpr right
      let first ← visitItem initStmt
      let unrolled ← unroll (isNotDone op itName stop) body (visitNext nextExpr) fuel
      modify fun st => st.exitScope entry
      return .compound (first :: unrolled)
    else .raise
  | _ => .raise

mutual

/-- `ForRemover`, on statements. The fuel bounds the rounds of each of its `while` loops. -/
def Stmt.visit (fuel : Nat) : Stmt → Visitor Stmt
  | .decl d => visitItem (.decl d)
  | .expr e => visitItem (.expr e)
  | .ret none => return .ret none
  | .ret (some e) => return .ret (some (← e.visit))
  | .compound items => do
    let entry ← get
    set entry.enterScope
    let items ← Stmt.visitList fuel items
    modify fun st => st.exitScope entry
    return .compound items
  | .forLoop init cond next stmt => visitFor fuel init cond next (stmt.visit fuel)
  | .ifElse cond iftrue none => return .ifElse (← cond.visit) (← iftrue.visit fuel) none
  | .ifElse cond iftrue (some iffalse) =>
    return .ifElse (← cond.visit) (← iftrue.visit fuel) (some (← iffalse.visit fuel))
  | .whileLoop cond stmt => return .whileLoop (← cond.visit) (← stmt.visit fuel)
  | .doWhile cond stmt => return .doWhile (← cond.visit) (← stmt.visit fuel)
  | .switch cond stmt => return .switch (← cond.visit) (← stmt.visit fuel)
  | .case e stmts => return .case (← e.visit) (← Stmt.visitList fuel stmts)
  | .default stmts => return .default (← Stmt.visitList fuel stmts)
  | .label name stmt => return .label name (← stmt.visit fuel)
  | .goto name => return .goto name
  | .breakStmt => return .breakStmt
  | .continueStmt => return .continueStmt
  | .emptyStatement => return .emptyStatement

def Stmt.visitList (fuel : Nat) : List Stmt → Visitor (List Stmt)
  | [] => return []
  | s :: stmts => do
    let s ← s.visit fuel
    let stmts ← Stmt.visitList fuel stmts
    return s :: stmts

end

end Obscure
