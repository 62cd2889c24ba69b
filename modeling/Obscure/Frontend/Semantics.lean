import Obscure.Frontend.AST
import Obscure.IR

/-!
# OBSCURE — the meaning of normalized C

Expressions and statements over variables of type `unsigned int` and `int`, as far as they occur
after normalization: declarations, assignments, blocks and a `return` at the end. An expression has
no value when C does not give it one, because it reads a variable that has none or divides by zero,
say. An `int` is kept as the word that represents it, and its arithmetic wraps around.
-/

namespace Obscure

/-- The values of the variables; one that is not initialized has none. -/
abbrev Env := String → Option Word

/-- The operators that evaluate both operands. -/
def BinOp.eval : BinOp → Word → Word → Option Word
  | .add, a, b => some (a + b)
  | .sub, a, b => some (a - b)
  | .mul, a, b => some (a * b)
  | .div, a, b => if b = 0 then none else some (a / b)
  | .mod, a, b => if b = 0 then none else some (a % b)
  | .and, a, b => some (a &&& b)
  | .or, a, b => some (a ||| b)
  | .xor, a, b => some (a ^^^ b)
  | .shl, a, b => if b.toNat < 32 then some (a <<< b) else none
  | .shr, a, b => if b.toNat < 32 then some (a >>> b) else none
  | .lt, a, b => some (if a < b then 1 else 0)
  | .le, a, b => some (if a ≤ b then 1 else 0)
  | .gt, a, b => some (if b < a then 1 else 0)
  | .ge, a, b => some (if b ≤ a then 1 else 0)
  | .eq, a, b => some (if a = b then 1 else 0)
  | .ne, a, b => some (if a = b then 0 else 1)
  | .land, _, _ | .lor, _, _ => none

/-- The operators on operands of type `int`. -/
def BinOp.evalInt : BinOp → Word → Word → Option Word
  | .div, a, b => if b = 0 then none else some (a.sdiv b)
  | .mod, a, b => if b = 0 then none else some (a.srem b)
  | .shr, a, b => if b.toNat < 32 then some (a.sshiftRight b.toNat) else none
  | .lt, a, b => some (if a.slt b then 1 else 0)
  | .le, a, b => some (if a.sle b then 1 else 0)
  | .gt, a, b => some (if b.slt a then 1 else 0)
  | .ge, a, b => some (if b.sle a then 1 else 0)
  | op, a, b => op.eval a b

/-- The operators that do the same on words of both types. -/
def BinOp.signless : BinOp → Bool
  | .div | .mod | .shr | .lt | .le | .gt | .ge => false
  | _ => true

/-- Most operators do the same on both types. -/
theorem evalInt_of_signless {op : BinOp} (h : op.signless = true) (a b : Word) :
    op.evalInt a b = op.eval a b := by
  cases op <;> first | rfl | cases h

/-- The unary operators without a side effect. -/
def UnOp.eval : UnOp → Word → Option Word
  | .plus, a => some a
  | .minus, a => some (-a)
  | .not, a => some (~~~a)
  | .lnot, a => some (if a = 0 then 1 else 0)
  | _, _ => none

section Values

variable (isInt : String → Bool)

/-- Whether the type of an expression is `int`, given the names of that type. A literal of 2³¹ or
more was a hexadecimal one. -/
def Expr.signed : Expr → Bool
  | .id x => isInt x
  | .constant value => value < 2 ^ 31
  | .arrayRef name _ => name.signed
  | .unaryOp .lnot _ => true
  | .unaryOp _ e => e.signed
  | .binaryOp op left right =>
    match op with
    | .shl | .shr => left.signed
    | .lt | .le | .gt | .ge | .eq | .ne | .land | .lor => true
    | _ => left.signed && right.signed
  | .ternaryOp _ iftrue iffalse => iftrue.signed && iffalse.signed
  | .funcCall name _ => name.signed
  | _ => false

/-- Whether an operator works on `int`. The type of a shift is that of its left operand. -/
def BinOp.signed (op : BinOp) (left right : Expr) : Bool :=
  match op with
  | .shl | .shr => left.signed isInt
  | _ => left.signed isInt && right.signed isInt

/-- The value of an expression. A conditional evaluates one arm only, and `&&` and `||` their second
operand only if they need it. -/
def Expr.eval (ρ : Env) : Expr → Option Word
  | .id x => ρ x
  | .constant value => some (BitVec.ofInt 32 value)
  | .unaryOp op e => (e.eval ρ).bind op.eval
  | .binaryOp op left right =>
    match op with
    | .land => (left.eval ρ).bind fun a =>
      if a = 0 then some 0 else (right.eval ρ).map fun b => if b = 0 then 0 else 1
    | .lor => (left.eval ρ).bind fun a =>
      if a = 0 then (right.eval ρ).map fun b => if b = 0 then 0 else 1 else some 1
    | op => (left.eval ρ).bind fun a => (right.eval ρ).bind fun b =>
      if op.signed isInt left right then op.evalInt a b else op.eval a b
  | .ternaryOp cond iftrue iffalse =>
    (cond.eval ρ).bind fun c => if c = 0 then iffalse.eval ρ else iftrue.eval ρ
  | _ => none

/-- Assign the value of an expression to a variable. -/
def Env.assign (ρ : Env) (x : String) (e : Expr) : Option Env :=
  (e.eval isInt ρ).map fun w => Function.update ρ x (some w)

/-- The operator of `++` and `--`. -/
def UnOp.step? : UnOp → Option BinOp
  | .preIncr | .postIncr => some .add
  | .preDecr | .postDecr => some .sub
  | _ => none

/-- An expression statement. -/
def Expr.exec (ρ : Env) : Expr → Option Env
  | .assignment none (.id x) e => ρ.assign isInt x e
  | .unaryOp op (.id x) =>
    match op.step? with
    | some step => ρ.assign isInt x (.binaryOp step (.id x) (.constant 1))
    | none => (Expr.eval isInt ρ (.unaryOp op (.id x))).map fun _ => ρ
  | e => (e.eval isInt ρ).map fun _ => ρ

/-- A declaration in a block. -/
def Decl.exec (ρ : Env) (d : Decl) : Option Env :=
  match d.init with
  | none => some (Function.update ρ d.name none)
  | some e => Env.assign isInt (Function.update ρ d.name none) d.name e

end Values

/-- The variables that a block declares. -/
def blockNames (items : List Stmt) : List String :=
  items.filterMap fun s => match s with
    | .decl d => some d.name
    | _ => none

/-- The names of a block, statement by statement. -/
theorem blockNames_cons (s : Stmt) (stmts : List Stmt) :
    blockNames (s :: stmts) = blockNames [s] ++ blockNames stmts := by
  rw [blockNames, blockNames, blockNames, ← List.filterMap_append, List.singleton_append]

/-- Back in the enclosing block. -/
def Env.leave (ρ ρ' : Env) (names : List String) : Env := fun x => if x ∈ names then ρ x else ρ' x

section Statements

variable (isInt : String → Bool)

mutual

/-- The variables after a statement, and the value that it returns, if it does. Nothing follows a
`return`. -/
def Stmt.exec : Stmt → Env → Option (Env × Option Word)
  | .decl d, ρ => (d.exec isInt ρ).map fun ρ' => (ρ', none)
  | .expr e, ρ => (e.exec isInt ρ).map fun ρ' => (ρ', none)
  | .ret (some e), ρ => (e.eval isInt ρ).map fun w => (ρ, some w)
  | .ret none, ρ => some (ρ, none)
  | .compound items, ρ =>
    (Stmt.execList items ρ).map fun out => (ρ.leave out.1 (blockNames items), out.2)
  | .emptyStatement, ρ => some (ρ, none)
  | _, _ => none

def Stmt.execList : List Stmt → Env → Option (Env × Option Word)
  | [], ρ => some (ρ, none)
  | s :: stmts, ρ =>
    (s.exec ρ).bind fun out =>
      match out.2 with
      | none => Stmt.execList stmts out.1
      | some w => some (out.1, some w)

end

end Statements

end Obscure
