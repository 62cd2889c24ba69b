import Obscure.Frontend.AlphaConvert
import Obscure.Frontend.Semantics

/-!
# OBSCURE — unnesting

`Unnester` of `compiler/src/frontend/normalize.py`: parts of expressions move to temporaries of
their own, and so do calls and the effects of `++` and `--`. The statements that come before the
one that is visited wait in `before`; `depth` says how deep in an expression the visitor is.

A statement is replaced by one or by several. The result is absent where the source raises, and
where it puts a list of statements in a place for one node.
-/

namespace Obscure

/-- The attributes of the visitor, and the module `identifiers`. -/
structure Unnester where
  depth : Nat
  before : List Stmt
  idents : Identifiers

/-- A temporary with a value, of type `unsigned int`. -/
def tmpDecl (name : String) (value : Expr) : Stmt := .decl ⟨name, [], unsignedInt, some value⟩

/-- `x = x op 1`. -/
def stepStmt (lvalue : Expr) (op : BinOp) : Stmt :=
  .expr (.assignment none lvalue (.binaryOp op lvalue (.constant 1)))

namespace Unnester

def enter (st : Unnester) : Unnester := { st with depth := st.depth + 1 }

def exit (st : Unnester) : Unnester := { st with depth := st.depth - 1 }

/-- `self.before.append`. -/
def append (st : Unnester) (s : Stmt) : Unnester := { st with before := st.before ++ [s] }

/-- `make_tmp`. -/
def makeTmp (st : Unnester) (value : Expr) : Expr × Unnester :=
  let (tmpName, idents) := genNextIdent "@subexpr_" st.idents
  (.id tmpName, { st with idents := idents }.append (tmpDecl tmpName value))

/-- `commit_if_is_stmt`. The list that it returns is dropped by all of its callers. -/
def commitIfIsStmt (st : Unnester) : Unnester :=
  if st.depth = 1 then { st with before := [] } else st

/-- The end of `visit_Decl`, `visit_Assignment` and `visit_Return`. -/
def flush (st : Unnester) (node : Stmt) : List Stmt × Unnester :=
  (st.before ++ [node], { st with before := [] })

end Unnester

-- ---------------------------------------------------------------------------
-- Expressions
-- ---------------------------------------------------------------------------

/-- `visit_UnaryOp` once the operand has been visited. -/
def UnOp.unnestOperand (op : UnOp) (expr : Expr) (st : Unnester) : Option (Expr × Unnester) :=
  match op with
  | .addressOf => some (.unaryOp .addressOf expr, st)
  | .postIncr | .postDecr =>
    let (oldValue, st) := st.makeTmp expr
    let st := st.append (stepStmt expr ((op.step?).getD .add))
    some (oldValue, st.commitIfIsStmt.exit)
  | .preIncr | .preDecr =>
    let st := st.append (stepStmt expr ((op.step?).getD .add))
    some (expr, st.commitIfIsStmt.exit)
  | op =>
    if 2 < st.depth then
      let (tmp, st) := st.makeTmp (.unaryOp op expr)
      some (tmp, st.commitIfIsStmt.exit)
    else if op = .minus then some (.unaryOp op expr, st.commitIfIsStmt.exit)
    else none

mutual

/-- The visitors of expressions. -/
def Expr.unnest : Expr → Unnester → Option (Expr × Unnester)
  | .id name, st => some (.id name, st)
  | .constant value, st => some (.constant value, st)
  | .arrayRef name subscript, st => some (.arrayRef name subscript, st)
  | .funcCall name args, st =>
    if 2 ≤ st.depth then some (st.makeTmp (.funcCall name args)) else some (.funcCall name args, st)
  | .ternaryOp cond iftrue iffalse, st => do
    let (cond, st) ← cond.unnest st.enter
    let (iftrue, st) ← iftrue.unnest st
    let (iffalse, st) ← iffalse.unnest st
    let (cond, st) := st.makeTmp cond
    let (iftrue, st) := st.makeTmp iftrue
    let (iffalse, st) := st.makeTmp iffalse
    return (.ternaryOp cond iftrue iffalse, st.commitIfIsStmt.exit)
  | .binaryOp op left right, st => do
    let (left, st) ← left.unnest st.enter
    let (right, st) ← right.unnest st
    let (node, st) := if 2 < st.depth then st.makeTmp (.binaryOp op left right)
      else (.binaryOp op left right, st)
    return (node, st.commitIfIsStmt.exit)
  | .unaryOp op expr, st => do
    let (expr, st) ← expr.unnest st.enter
    op.unnestOperand expr st
  | .exprList exprs, st => do
    let (exprs, st) ← Expr.unnestList exprs st
    return (.exprList exprs, st)
  | .initList exprs, st => do
    let (exprs, st) ← Expr.unnestList exprs st
    return (.initList exprs, st)
  -- `visit_Assignment` drops what is waiting, and may return a list
  | .assignment op lvalue rvalue, st => do
    let (lvalue, st) ← lvalue.unnest st
    let (rvalue, st) ← rvalue.unnest { st with depth := 1, before := [] }
    if st.before = [] then return (.assignment op lvalue rvalue, st) else none

def Expr.unnestList : List Expr → Unnester → Option (List Expr × Unnester)
  | [], st => some ([], st)
  | e :: exprs, st => do
    let (e, st) ← e.unnest st
    let (exprs, st) ← Expr.unnestList exprs st
    return (e :: exprs, st)

end

/-- `self.visit` of a node that may be absent. -/
def unnestOpt (e : Option Expr) (st : Unnester) : Option (Option Expr × Unnester) :=
  match e with
  | none => some (none, st)
  | some e => (e.unnest st).map fun out => (some out.1, out.2)

/-- The dimensions of arrays are visited. -/
def DeclType.unnest : DeclType → Unnester → Option (DeclType × Unnester)
  | .typeDecl names, st => some (.typeDecl names, st)
  | .ptrDecl type, st => do
    let (type, st) ← type.unnest st
    return (.ptrDecl type, st)
  | .arrayDecl type dim, st => do
    let (type, st) ← type.unnest st
    let (dim, st) ← unnestOpt dim st
    return (.arrayDecl type dim, st)

-- ---------------------------------------------------------------------------
-- Statements
-- ---------------------------------------------------------------------------

/-- `visit_Decl`. With temporaries the depth becomes 0, without it stays 1. -/
def Decl.unnest (d : Decl) (st : Unnester) : Option (List Stmt × Unnester) := do
  let (type, st) ← d.type.unnest st
  let (init, st) ← unnestOpt d.init { st with depth := 1, before := [] }
  let node := Stmt.decl { d with type := type, init := init }
  if st.before = [] then return ([node], st)
  else
    let (stmts, st) := st.flush node
    return (stmts, { st with depth := 0 })

/-- `visit_Assignment`, of a statement. -/
def unnestAssignment (op : Option BinOp) (lvalue rvalue : Expr) (st : Unnester) :
    Option (List Stmt × Unnester) := do
  let (lvalue, st) ← lvalue.unnest st
  let (rvalue, st) ← rvalue.unnest { st with depth := 1, before := [] }
  return st.flush (.expr (.assignment op lvalue rvalue))

/-- `visit_Return`, which keeps what was waiting. -/
def unnestReturn (e : Option Expr) (st : Unnester) : Option (List Stmt × Unnester) := do
  let (e, st) ← unnestOpt e { st with depth := 1 }
  return st.flush (.ret e)

/-- A place for one node. -/
def oneStmt : List Stmt × Unnester → Option (Stmt × Unnester)
  | ([s], st) => some (s, st)
  | _ => none

mutual

/-- The visitors of statements. -/
def Stmt.unnest : Stmt → Unnester → Option (List Stmt × Unnester)
  | .decl d, st => d.unnest st
  | .expr (.assignment op lvalue rvalue), st => unnestAssignment op lvalue rvalue st
  | .expr e, st => (e.unnest st).map fun out => ([.expr out.1], out.2)
  | .ret e, st => unnestReturn e st
  | .compound items, st => do
    let (items, st) ← Stmt.unnestList items st
    return ([.compound items], st)
  | .forLoop init cond next stmt, st => do
    let (stmt, st) ← (stmt.unnest st).bind oneStmt
    return ([.forLoop init cond next stmt], st)
  | .whileLoop cond stmt, st => do
    let (stmt, st) ← (stmt.unnest st).bind oneStmt
    return ([.whileLoop cond stmt], st)
  | .ifElse cond iftrue none, st => do
    let (cond, st) ← cond.unnest st
    let (iftrue, st) ← (iftrue.unnest st).bind oneStmt
    return ([.ifElse cond iftrue none], st)
  | .ifElse cond iftrue (some iffalse), st => do
    let (cond, st) ← cond.unnest st
    let (iftrue, st) ← (iftrue.unnest st).bind oneStmt
    let (iffalse, st) ← (iffalse.unnest st).bind oneStmt
    return ([.ifElse cond iftrue (some iffalse)], st)
  | .doWhile cond stmt, st => do
    let (cond, st) ← cond.unnest st
    let (stmt, st) ← (stmt.unnest st).bind oneStmt
    return ([.doWhile cond stmt], st)
  | .switch cond stmt, st => do
    let (cond, st) ← cond.unnest st
    let (stmt, st) ← (stmt.unnest st).bind oneStmt
    return ([.switch cond stmt], st)
  | .case e stmts, st => do
    let (e, st) ← e.unnest st
    let (stmts, st) ← Stmt.unnestEach stmts st
    return ([.case e stmts], st)
  | .default stmts, st => do
    let (stmts, st) ← Stmt.unnestEach stmts st
    return ([.default stmts], st)
  | .label name stmt, st => do
    let (stmt, st) ← (stmt.unnest st).bind oneStmt
    return ([.label name stmt], st)
  | .goto name, st => some ([.goto name], st)
  | .breakStmt, st => some ([.breakStmt], st)
  | .continueStmt, st => some ([.continueStmt], st)
  | .emptyStatement, st => some ([.emptyStatement], st)

/-- The items of a block, with the lists among them flattened. -/
def Stmt.unnestList : List Stmt → Unnester → Option (List Stmt × Unnester)
  | [], st => some ([], st)
  | s :: stmts, st => do
    let (s, st) ← s.unnest st
    let (stmts, st) ← Stmt.unnestList stmts st
    return (s ++ stmts, st)

/-- The statements of a `case`, which are not flattened. -/
def Stmt.unnestEach : List Stmt → Unnester → Option (List Stmt × Unnester)
  | [], st => some ([], st)
  | s :: stmts, st => do
    let (s, st) ← (s.unnest st).bind oneStmt
    let (stmts, st) ← Stmt.unnestEach stmts st
    return (s :: stmts, st)

end

end Obscure
