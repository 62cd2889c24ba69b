/-!
# OBSCURE — the syntax of C

The nodes of the syntax trees that the passes of `compiler/src/frontend` walk over, under
the names of `pycparser`. A declarator is kept as the name that it declares and its type; the
node of a function declarator is a list of parameters.
-/

namespace Obscure

/-- The operators of `UnaryOp`; `p++` and `p--` are the postfix ones. -/
inductive UnOp where
  | plus | minus | addressOf | deref | not | lnot
  | preIncr | preDecr | postIncr | postDecr
deriving DecidableEq, Repr

/-- The operators of `BinaryOp`. -/
inductive BinOp where
  | add | sub | mul | div | mod
  | and | or | xor | shl | shr
  | lt | le | gt | ge | eq | ne
  | land | lor
deriving DecidableEq, Repr

/-- Expressions. The operator of an `assignment` is that of a compound one, and absent in `=`. -/
inductive Expr where
  | id (name : String)
  | constant (value : Int)
  | arrayRef (name subscript : Expr)
  | unaryOp (op : UnOp) (expr : Expr)
  | binaryOp (op : BinOp) (left right : Expr)
  | ternaryOp (cond iftrue iffalse : Expr)
  | funcCall (name : Expr) (args : List Expr)
  | assignment (op : Option BinOp) (lvalue rvalue : Expr)
  | exprList (exprs : List Expr)
  | initList (exprs : List Expr)
deriving Inhabited

/-- Types of variables. -/
inductive DeclType where
  | typeDecl (names : List String)
  | ptrDecl (type : DeclType)
  | arrayDecl (type : DeclType) (dim : Option Expr)
deriving Inhabited

/-- The type of the variables of a normalized program. -/
def unsignedInt : DeclType := .typeDecl ["unsigned", "int"]

/-- A declaration of a variable or of a parameter. -/
structure Decl where
  name : String
  quals : List String
  type : DeclType
  init : Option Expr
deriving Inhabited

/-- The first part of a `for`. -/
inductive ForInit where
  | none
  | expr (e : Expr)
  | declList (decls : List Decl)

/-- Statements and the other items of a block. -/
inductive Stmt where
  | decl (d : Decl)
  | expr (e : Expr)
  | ret (e : Option Expr)
  | compound (items : List Stmt)
  | forLoop (init : ForInit) (cond next : Option Expr) (stmt : Stmt)
  | ifElse (cond : Expr) (iftrue : Stmt) (iffalse : Option Stmt)
  | whileLoop (cond : Expr) (stmt : Stmt)
  | doWhile (cond : Expr) (stmt : Stmt)
  | switch (cond : Expr) (stmt : Stmt)
  | case (expr : Expr) (stmts : List Stmt)
  | default (stmts : List Stmt)
  | label (name : String) (stmt : Stmt)
  | goto (name : String)
  | breakStmt
  | continueStmt
  | emptyStatement

/-- What a translation unit consists of. -/
inductive ExtDecl where
  | decl (d : Decl)
  | funcDecl (name : String) (params : List Decl)
  | funcDef (name : String) (params : List Decl) (body : List Stmt)

abbrev FileAST := List ExtDecl

end Obscure
