import Obscure.Frontend.Unnester

/-!
# OBSCURE — inlining

`Inliner` of `compiler/src/frontend/normalize.py`: a call in one of the four places is
replaced by a block with the parameters and the body of the function, in which `return`
is an assignment. The functions before have been worked off when a function is; at the
end only the last one is kept.

The result is absent where the source raises, and where what it puts in a place is no
node for that place: a block for an expression, a list for one statement, an assignment
that lacks a side. The type of a function is not kept in the syntax; the variable of a
`return` is declared as `unsigned int`.
-/

namespace Obscure

/-- A function definition. -/
structure FunDef where
  name : String
  params : List Decl
  body : List Stmt

-- ---------------------------------------------------------------------------
-- InliningHelper
-- ---------------------------------------------------------------------------

mutual

/-- The visitor of `InliningHelper`, which only `visit_Return` is changed in. -/
def Stmt.returnTo (returnVar : Option Expr) : Stmt → Option Stmt
  | .ret e => do return .expr (.assignment none (← returnVar) (← e))
  | .compound items => (Stmt.returnToList returnVar items).map .compound
  | .forLoop init cond next stmt => (stmt.returnTo returnVar).map (.forLoop init cond next)
  | .ifElse cond iftrue none => (iftrue.returnTo returnVar).map (.ifElse cond · none)
  | .ifElse cond iftrue (some iffalse) => do
    return .ifElse cond (← iftrue.returnTo returnVar) (some (← iffalse.returnTo returnVar))
  | .whileLoop cond stmt => (stmt.returnTo returnVar).map (.whileLoop cond)
  | .doWhile cond stmt => (stmt.returnTo returnVar).map (.doWhile cond)
  | .switch cond stmt => (stmt.returnTo returnVar).map (.switch cond)
  | .case e stmts => (Stmt.returnToList returnVar stmts).map (.case e)
  | .default stmts => (Stmt.returnToList returnVar stmts).map .default
  | .label name stmt => (stmt.returnTo returnVar).map (.label name)
  | s => some s

def Stmt.returnToList (returnVar : Option Expr) : List Stmt → Option (List Stmt)
  | [] => some []
  | s :: stmts => do return (← s.returnTo returnVar) :: (← Stmt.returnToList returnVar stmts)

end

/-- `params_init`; `zip` stops with the shorter list. -/
def paramsInit (params : List Decl) (args : List Expr) : List Stmt :=
  List.zipWith (fun param arg => .decl { param with init := some arg }) params args

/-- `inline` of `InliningHelper`. A function or a call without arguments has no list of
them. -/
def inlineCall (funs : List FunDef) (returnVar : Option Expr) : Expr → List Expr → Option Stmt
  | .id name, args => do
    let fn ← funs.find? fun fn => fn.name = name
    if fn.params = [] ∨ args = [] then none
    else return .compound (paramsInit fn.params args ++ (← Stmt.returnToList returnVar fn.body))
  | _, _ => none

-- ---------------------------------------------------------------------------
-- Inliner
-- ---------------------------------------------------------------------------

mutual

/-- Whether the visitor would put a block into an expression. It does not look into
assignments. -/
def Expr.hasCall : Expr → Bool
  | .id _ | .constant _ => false
  | .funcCall .. => true
  | .assignment _ _ (.funcCall ..) => true
  | .assignment .. => false
  | .arrayRef name subscript => name.hasCall || subscript.hasCall
  | .unaryOp _ e => e.hasCall
  | .binaryOp _ left right => left.hasCall || right.hasCall
  | .ternaryOp cond iftrue iffalse => cond.hasCall || iftrue.hasCall || iffalse.hasCall
  | .exprList exprs | .initList exprs => Expr.hasCallList exprs

def Expr.hasCallList : List Expr → Bool
  | [] => false
  | e :: exprs => e.hasCall || Expr.hasCallList exprs

end

/-- The header of a `for`. -/
def ForInit.hasCall : ForInit → Bool
  | .none => false
  | .expr e => e.hasCall
  | .declList decls => decls.any fun d => match d.init with
    | some (.funcCall ..) => true
    | _ => false

/-- A place for one node. -/
def Stmt.one : List Stmt → Option Stmt
  | [s] => some s
  | _ => none

def DeclType.isScalar : DeclType → Bool
  | .typeDecl _ => true
  | _ => false

mutual

/-- The visitors of statements. Identifiers are generated for returned calls. -/
def Stmt.inline (funs : List FunDef) : Stmt → Identifiers → Option (List Stmt × Identifiers)
  | .decl d, st =>
    match d.init with
    | some (.funcCall name args) =>
      if d.type.isScalar then do
        return ([.decl { d with init := none }, ← inlineCall funs (some (.id d.name)) name args],
          st)
      else none
    | _ => some ([.decl d], st)
  | .expr (.assignment op lvalue (.funcCall name args)), st =>
    if op = none then do return ([← inlineCall funs (some lvalue) name args], st) else none
  | .expr (.funcCall name args), st => do return ([← inlineCall funs none name args], st)
  | .expr e, st => if e.hasCall then none else some ([.expr e], st)
  | .ret (some (.funcCall name args)), st => do
    let (retIdent, st) := genNextIdent "ret_" st
    let stmt ← inlineCall funs (some (.id retIdent)) name args
    return ([.compound [.decl ⟨retIdent, [], unsignedInt, none⟩, stmt, .ret (some (.id retIdent))]],
      st)
  | .ret e, st => some ([.ret e], st)
  | .compound items, st => do
    let (items, st) ← Stmt.inlineList funs items st
    return ([.compound items], st)
  | .forLoop init cond next stmt, st =>
    if init.hasCall || cond.any Expr.hasCall || next.any Expr.hasCall then none
    else do
      let (stmts, st) ← stmt.inline funs st
      return ([.forLoop init cond next (← Stmt.one stmts)], st)
  | .whileLoop cond stmt, st =>
    if cond.hasCall then none
    else do
      let (stmts, st) ← stmt.inline funs st
      return ([.whileLoop cond (← Stmt.one stmts)], st)
  | .ifElse cond iftrue none, st =>
    if cond.hasCall then none
    else do
      let (iftrue, st) ← iftrue.inline funs st
      return ([.ifElse cond (← Stmt.one iftrue) none], st)
  | .ifElse cond iftrue (some iffalse), st =>
    if cond.hasCall then none
    else do
      let (iftrue, st) ← iftrue.inline funs st
      let (iffalse, st) ← iffalse.inline funs st
      return ([.ifElse cond (← Stmt.one iftrue) (some (← Stmt.one iffalse))], st)
  | .doWhile cond stmt, st =>
    if cond.hasCall then none
    else do
      let (stmts, st) ← stmt.inline funs st
      return ([.doWhile cond (← Stmt.one stmts)], st)
  | .switch cond stmt, st =>
    if cond.hasCall then none
    else do
      let (stmts, st) ← stmt.inline funs st
      return ([.switch cond (← Stmt.one stmts)], st)
  | .case e stmts, st =>
    if e.hasCall then none
    else do
      let (stmts, st) ← Stmt.inlineEach funs stmts st
      return ([.case e stmts], st)
  | .default stmts, st => do
    let (stmts, st) ← Stmt.inlineEach funs stmts st
    return ([.default stmts], st)
  | .label name stmt, st => do
    let (stmts, st) ← stmt.inline funs st
    return ([.label name (← Stmt.one stmts)], st)
  | s, st => some ([s], st)

/-- The items of a block, with the lists among them flattened. -/
def Stmt.inlineList (funs : List FunDef) :
    List Stmt → Identifiers → Option (List Stmt × Identifiers)
  | [], st => some ([], st)
  | s :: stmts, st => do
    let (s, st) ← s.inline funs st
    let (stmts, st) ← Stmt.inlineList funs stmts st
    return (s ++ stmts, st)

/-- The statements of a `case`. -/
def Stmt.inlineEach (funs : List FunDef) :
    List Stmt → Identifiers → Option (List Stmt × Identifiers)
  | [], st => some ([], st)
  | s :: stmts, st => do
    let (s, st) ← s.inline funs st
    let (stmts, st) ← Stmt.inlineEach funs stmts st
    return ((← Stmt.one s) :: stmts, st)

end

/-- `inline`, on what is left of the file: the declarations that are kept, and the functions, the
newest first. -/
def inlineExts : FileAST → List FunDef → Identifiers → Option (FileAST × List FunDef)
  | [], funs, _ => some ([], funs)
  | .funcDef name params body :: exts, funs, st => do
    let (body, st) ← Stmt.inlineList funs body st
    inlineExts exts (⟨name, params, body⟩ :: funs) st
  | ext :: exts, funs, st => do
    let (newExts, funs) ← inlineExts exts funs st
    return (ext :: newExts, funs)

/-- `inline`. -/
def inline (ast : FileAST) (st : Identifiers) : Option FileAST := do
  let (newExts, funs) ← inlineExts ast [] st
  let lastFun ← funs.head?
  return newExts ++ [.funcDef lastFun.name lastFun.params lastFun.body]

end Obscure
