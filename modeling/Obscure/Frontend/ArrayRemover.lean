import Mathlib.Data.List.Nodup
import Obscure.Frontend.AST
import Obscure.Lib.Lists

/-!
# OBSCURE — removal of arrays and pointers

`ArrayRemover` of `compiler/src/frontend/normalize.py` and its `ArraySizeCalculator`. Both walk
over the function and keep an alias of every pointer that is assigned: the name of an array and an
offset in it. The first counts how many cells a pointer parameter has to have, the second replaces
arrays by scalars `a[0]`, `a[1]`, …

A function is given as what the visitors react to, in the order of their visit. Both evaluate
subscripts and offsets with the static variables that they know; here these values are in place.
-/

namespace Obscure

open Lib

/-- What the visitors react to. -/
inductive ArrayNode where
  /-- The declaration of an array or a pointer. -/
  | decl (d : Decl)
  /-- `p = rvalue` for a pointer `p`. -/
  | assign (p : String) (rvalue : Expr)
  /-- `name[subscript]`, read or assigned to. -/
  | ref (name : String) (subscript : Expr)

/-- A function: its array and pointer parameters, and its body. -/
structure ArrayFunction where
  params : List Decl
  body : List ArrayNode

/-- `get_val` on an expression whose static variables have been evaluated. -/
def Expr.getVal : Expr → Option Int
  | .constant value => some value
  | _ => none

-- ---------------------------------------------------------------------------
-- Aliases
-- ---------------------------------------------------------------------------

structure Alias where
  name : String
  offset : Int
deriving DecidableEq, Repr

abbrev Aliases := List (String × Alias)

/-- `resolve_alias`; no result stands for a recursion without end. -/
def resolveAlias (aliases : Aliases) : Nat → String → Int → Option Alias
  | 0, _, _ => none
  | fuel + 1, name, offset =>
    match aliases.lookup name with
    | none => some ⟨name, offset⟩
    | some a =>
      if a.name ≠ name then resolveAlias aliases fuel a.name (offset + a.offset)
      else some ⟨name, offset⟩

/-- `resolve_alias` from the outside. A chain without a circle is no longer than the aliases. -/
def Aliases.resolve (aliases : Aliases) (name : String) (offset : Int) : Option Alias :=
  resolveAlias aliases (aliases.length + 1) name offset

/-- The expressions that `visit_ptr_assignment` takes for a pointer. -/
def Expr.isPtr : Expr → Bool
  | .id _ | .unaryOp .addressOf _ | .binaryOp .. => true
  | _ => false

/-- The pointer in such an expression and what is added to it, whatever the operator is. -/
def Expr.ptrParts : Expr → Option (String × Int)
  | .id q => some (q, 0)
  | .unaryOp .addressOf (.arrayRef (.id q) k) => k.getVal.map fun k => (q, k)
  | .binaryOp _ left right =>
    match left.getVal, right.getVal with
    | some k, _ => match right with
      | .id q => some (q, k)
      | _ => none
    | none, some k => match left with
      | .id q => some (q, k)
      | _ => none
    | none, none => none
  | _ => none

/-- `visit_ptr_assignment` of both visitors. -/
def Aliases.visitPtrAssignment (aliases : Aliases) (p : String) (init : Expr) : Option Aliases :=
  init.ptrParts.bind fun part =>
    (aliases.resolve part.1 part.2).map fun a => dictSet aliases p a

/-- The alias of a pointer that is declared, if its initializer makes it one. -/
def Aliases.visitInit (aliases : Aliases) (d : Decl) : Option Aliases :=
  match d.init with
  | none => some aliases
  | some init => if init.isPtr then aliases.visitPtrAssignment d.name init else some aliases

/-- The alias after an assignment. -/
def Aliases.visitAssign (aliases : Aliases) (p : String) (rvalue : Expr) : Option Aliases :=
  if rvalue.isPtr then aliases.visitPtrAssignment p rvalue else some aliases

-- ---------------------------------------------------------------------------
-- ArraySizeCalculator
-- ---------------------------------------------------------------------------

mutual

/-- The array accesses in an expression, in the order of the visitors. -/
def Expr.refs : Expr → List (String × Expr)
  | .arrayRef (.id name) subscript => [(name, subscript)]
  | .arrayRef _ _ | .id _ | .constant _ => []
  | .unaryOp _ expr => expr.refs
  | .binaryOp _ left right => left.refs ++ right.refs
  | .ternaryOp cond iftrue iffalse => cond.refs ++ iftrue.refs ++ iffalse.refs
  | .funcCall name args => name.refs ++ Expr.refsList args
  | .assignment _ lvalue rvalue => lvalue.refs ++ rvalue.refs
  | .exprList exprs | .initList exprs => Expr.refsList exprs

def Expr.refsList : List Expr → List (String × Expr)
  | [] => []
  | e :: exprs => e.refs ++ Expr.refsList exprs

end

abbrev Sizes := List (String × Int)

/-- `array_sizes.get(name, 0)`. -/
def Sizes.get (sizes : Sizes) (name : String) : Int := (sizes.lookup name).getD 0

/-- `visit_ArrayRef` of the calculator. -/
def Sizes.visitRef (sizes : Sizes) (r : String × Expr) : Option Sizes :=
  r.2.getVal.map fun i => dictSet sizes r.1 (max (sizes.get r.1) (i + 1))

/-- The fields of the calculator. -/
structure ArraySizeCalculator where
  aliases : Aliases
  sizes : Sizes

namespace ArraySizeCalculator

/-- One node of the function. -/
def visit (st : ArraySizeCalculator) : ArrayNode → Option ArraySizeCalculator
  | .decl d =>
    (st.aliases.visitInit d).bind fun aliases =>
      (((d.init.map Expr.refs).getD []).foldlM Sizes.visitRef st.sizes).map fun sizes =>
        ⟨aliases, sizes⟩
  | .assign p rvalue => (st.aliases.visitAssign p rvalue).map fun aliases =>
    { st with aliases := aliases }
  | .ref name subscript =>
    (st.sizes.visitRef (name, subscript)).map fun sizes => { st with sizes := sizes }

/-- The last loop of `get_array_sizes`: what was accessed through a pointer is counted for the array
that it points to in the end. -/
def accountFor (aliases : Aliases) (sizes : Sizes) (entry : String × Alias) : Option Sizes :=
  (aliases.resolve entry.2.name entry.2.offset).map fun a =>
    dictSet sizes a.name (max (sizes.get entry.1 + a.offset) (sizes.get a.name))

end ArraySizeCalculator

/-- The nodes of the function, parameters first. -/
def ArrayFunction.nodes (f : ArrayFunction) : List ArrayNode := f.params.map .decl ++ f.body

/-- `get_array_sizes`. -/
def getArraySizes (f : ArrayFunction) : Option Sizes :=
  (f.nodes.foldlM ArraySizeCalculator.visit ⟨[], []⟩).bind fun st =>
    st.aliases.foldlM (ArraySizeCalculator.accountFor st.aliases) st.sizes

-- ---------------------------------------------------------------------------
-- ArrayRemover
-- ---------------------------------------------------------------------------

/-- The scalar for a cell of an array. -/
def cellName (name : String) (i : Int) : String := name ++ "[" ++ toString i ++ "]"

/-- The scalars for an array of a given size. -/
def cellNames (name : String) (size : Int) : List String :=
  (List.range size.toNat).map fun i : Nat => cellName name i

/-- The fields of the visitor, the declarations that replace those of arrays and pointers, and what
becomes of the accesses, in the order of the visit. -/
structure ArrayRemover where
  aliases : Aliases
  returns : List String
  decls : List (String × List String)
  accesses : List Expr

namespace ArrayRemover

/-- The size of an array: its dimension, or what has been computed for a pointer. -/
def arraySize (sizes : Sizes) (d : Decl) : Option Int :=
  match d.type with
  | .arrayDecl _ dim => dim.bind Expr.getVal
  | _ => sizes.lookup d.name

/-- `visit_Decl` where the array becomes scalars. An initializer list is taken over as it is. -/
def visitArray (sizes : Sizes) (isParam : Bool) (st : ArrayRemover) (d : Decl) :
    Option ArrayRemover :=
  (arraySize sizes d).map fun size =>
    let names := cellNames d.name size
    { st with
      returns := if isParam && "const" ∉ d.quals then st.returns ++ names else st.returns
      decls := st.decls ++ [(d.name, names)]
      accesses := st.accesses ++
        ((d.init.map Expr.refs).getD []).map fun r => .arrayRef (.id r.1) r.2 }

/-- `visit_Decl` of an array or a pointer. -/
def visitDecl (sizes : Sizes) (isParam : Bool) (st : ArrayRemover) (d : Decl) :
    Option ArrayRemover :=
  match d.init, d.type with
  | some init, _ =>
    if init.isPtr then
      (st.aliases.visitPtrAssignment d.name init).map fun aliases => { st with aliases := aliases }
    else visitArray sizes isParam st d
  | none, .ptrDecl _ => if isParam then visitArray sizes isParam st d else some st
  | none, _ => visitArray sizes isParam st d

/-- `visit_ArrayRef`. -/
def visitArrayRef (aliases : Aliases) (name : String) (subscript : Expr) : Option Expr :=
  let a := (aliases.lookup name).getD ⟨name, 0⟩
  subscript.getVal.map fun value => .id (cellName a.name (a.offset + value))

/-- One node of the body. -/
def visit (sizes : Sizes) (st : ArrayRemover) : ArrayNode → Option ArrayRemover
  | .decl d => visitDecl sizes false st d
  | .assign p rvalue => (st.aliases.visitAssign p rvalue).map fun aliases =>
    { st with aliases := aliases }
  | .ref name subscript =>
    (visitArrayRef st.aliases name subscript).map fun e =>
      { st with accesses := st.accesses ++ [e] }

end ArrayRemover

/-- `remove_arrays`. -/
def removeArrays (f : ArrayFunction) : Option ArrayRemover :=
  (getArraySizes f).bind fun sizes =>
    (f.params.foldlM (ArrayRemover.visitDecl sizes true) ⟨[], [], [], []⟩).bind fun st =>
      f.body.foldlM (ArrayRemover.visit sizes) st

end Obscure
