import Obscure.Frontend.ForRemover
import Obscure.Frontend.Semantics

/-!
# OBSCURE — the meaning of loops

C with variables of type `int` and `unsigned int`, blocks and `for` loops, as far as it
decides how often a loop goes round and what the variables hold. What an array contains, where a
pointer points and what a call returns is not followed: such an expression has at each time a
value given from outside.

A run is the list of its events. It comes with the variables that are *statically known*: their
last value was computed from literals and known variables, with operators that the compiler
evaluates.
-/

namespace Obscure

/-- What is given from outside: the names whose type is `int`, and the values that are not
followed. -/
structure CContext where
  isInt : String → Bool
  other : Nat → Expr → Option Word

/-- The variables in a run. -/
structure CState where
  vars : Env
  known : String → Bool
  time : Nat

/-- Whether the value is statically known, given the variables that are. -/
def Expr.known (known : String → Bool) : Expr → Bool
  | .id x => known x
  | .constant _ => true
  | .unaryOp .minus e => e.known known
  | .binaryOp op left right => op.folded && left.known known && right.known known
  | _ => false

/-- `x++` and `x += e` as the assignments that they stand for. -/
def Expr.plain : Expr → Expr
  | .unaryOp op e =>
    match op.step? with
    | some step => .assignment none e (.binaryOp step e (.constant 1))
    | none => .unaryOp op e
  | .assignment (some op) lvalue rvalue => .assignment none lvalue (.binaryOp op lvalue rvalue)
  | e => e

def DeclType.isArray : DeclType → Bool
  | .arrayDecl .. => true
  | _ => false

def CState.assign (σ : CState) (x : String) (w : Word) (known : Bool) : CState where
  vars := Function.update σ.vars x (some w)
  known := Function.update σ.known x known
  time := σ.time + 1

def CState.tick (σ : CState) : CState := { σ with time := σ.time + 1 }

/-- Back in the enclosing block. -/
def CState.leave (σ σ' : CState) (names : List String) : CState :=
  { σ' with vars := σ.vars.leave σ'.vars names }

/-- What happens in a run. A test comes with the state at the first test of its loop. -/
inductive CEvent where
  | enter (names : List String) (σ : CState)
  | leave
  | init (s : Stmt) (σ : CState)
  | item (s : Stmt) (σ : CState)
  | test (cond : Expr) (first σ : CState)

namespace CContext

variable (C : CContext)

/-- Whether the type of an expression is `int`. -/
def signed (e : Expr) : Bool := e.signed C.isInt

/-- Whether an operator works on `int`. -/
def signedOp (op : BinOp) (left right : Expr) : Bool := op.signed C.isInt left right

/-- The value of an expression. -/
def value (t : Nat) (ρ : Env) : Expr → Option Word
  | .id x => ρ x
  | .constant value => some (BitVec.ofInt 32 value)
  | .unaryOp .minus e => (value t ρ e).map fun w => -w
  | .binaryOp op left right =>
    match op with
    | .land => (value t ρ left).bind fun a =>
      if a = 0 then some 0 else (value t ρ right).map fun b => if b = 0 then 0 else 1
    | .lor => (value t ρ left).bind fun a =>
      if a = 0 then (value t ρ right).map fun b => if b = 0 then 0 else 1 else some 1
    | op => (value t ρ left).bind fun a => (value t ρ right).bind fun b =>
      if C.signedOp op left right then op.evalInt a b else op.eval a b
  | .ternaryOp cond iftrue iffalse =>
    (value t ρ cond).bind fun c => if c = 0 then value t ρ iffalse else value t ρ iftrue
  | e => C.other t e

def valueIn (σ : CState) (e : Expr) : Option Word := C.value σ.time σ.vars e

/-- An expression statement. -/
def exec (σ : CState) (e : Expr) : Option CState :=
  match e.plain with
  | .assignment none (.id x) r => (C.valueIn σ r).map fun w => σ.assign x w (r.known σ.known)
  | .assignment _ _ r => (C.valueIn σ r).map fun _ => σ.tick
  | e => (C.valueIn σ e).map fun _ => σ.tick

/-- A declaration. The value of a variable is known if `asKnown` is and that of its initializer. -/
def declare (asKnown : Bool) (σ : CState) (d : Decl) : Option CState :=
  match d.init with
  | none =>
    let new := if d.type.isArray then C.other σ.time (.id d.name) else none
    some { σ.tick with vars := Function.update σ.vars d.name new }
  | some e =>
    (C.value σ.time (Function.update σ.vars d.name none) e).map fun w =>
      σ.assign d.name w (asKnown && e.known σ.known)

/-- The first part of a loop: its variable is known whatever its type is. -/
def runInit (σ : CState) : ForInit → Option (Stmt × CState)
  | .expr e => (C.exec σ e).map fun σ' => (.expr e, σ')
  | .declList [d] => (C.declare true σ d).map fun σ' => (.decl d, σ')
  | _ => none

/-- The names that the first part of a loop declares. -/
def initNames : ForInit → List String
  | .declList decls => decls.map Decl.name
  | _ => []

/-- The rounds of a loop, given the runs of its body. -/
def rounds (cond next : Expr) (body : CState → Option (List CEvent × CState)) (first : CState) :
    Nat → CState → Option (List CEvent × CState)
  | 0, _ => none
  | fuel + 1, σ =>
    (C.valueIn σ cond).bind fun w =>
      if w = 0 then some ([.test cond first σ], σ.tick)
      else (body σ.tick).bind fun out => (C.exec out.2 next).bind fun σ' =>
        (rounds cond next body first fuel σ').map fun rest =>
          (.test cond first σ :: out.1 ++ .item (.expr next.plain) out.2 :: rest.1, rest.2)

mutual

/-- A run of a statement that ends within so many rounds of each loop. -/
def run (fuel : Nat) : Stmt → CState → Option (List CEvent × CState)
  | .decl d, σ => (C.declare d.type.isUnsignedInt σ d).map fun σ' => ([.item (.decl d) σ], σ')
  | .expr e, σ => (C.exec σ e).map fun σ' => ([.item (.expr e) σ], σ')
  | .emptyStatement, σ => some ([.item .emptyStatement σ], σ)
  | .compound items, σ =>
    (runList fuel items σ).map fun out =>
      (.enter (blockNames items) σ :: out.1 ++ [.leave], σ.leave out.2 (blockNames items))
  | .forLoop init (some cond) (some next) stmt, σ =>
    (C.runInit σ init).bind fun start =>
      (C.rounds cond next (run fuel stmt) start.2 fuel start.2).map fun out =>
        (.enter (initNames init) σ :: .init start.1 σ :: out.1 ++ [.leave],
          σ.leave out.2 (initNames init))
  | _, _ => none

def runList (fuel : Nat) : List Stmt → CState → Option (List CEvent × CState)
  | [], σ => some ([], σ)
  | s :: stmts, σ =>
    (run fuel s σ).bind fun out => (runList fuel stmts out.2).map fun rest =>
      (out.1 ++ rest.1, rest.2)

end

end CContext

end Obscure
