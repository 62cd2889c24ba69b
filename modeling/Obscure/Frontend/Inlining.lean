import Obscure.Frontend.Calls

/-!
# OBSCURE — what inlining keeps

The program that `Inliner` leaves, which is one function without calls, does what the last function
of the file did: from every state it has a result when that had one, and the same.

What the inliner relies on is the rule in its docstring that a `return` is the last instruction of a
function, and that the declared names are different, which is what the alpha-conversion before it
sees to.

* `inline_run` — the theorem.
-/

namespace Obscure

open Lib

-- ---------------------------------------------------------------------------
-- What the inliner relies on
-- ---------------------------------------------------------------------------

mutual

/-- A statement without `return`. -/
def Stmt.noReturn : Stmt → Bool
  | .ret _ => false
  | .compound items => Stmt.noReturnList items
  | .forLoop _ _ _ stmt | .whileLoop _ stmt | .doWhile _ stmt | .switch _ stmt | .label _ stmt =>
    stmt.noReturn
  | .ifElse _ iftrue none => iftrue.noReturn
  | .ifElse _ iftrue (some iffalse) => iftrue.noReturn && iffalse.noReturn
  | .case _ stmts | .default stmts => Stmt.noReturnList stmts
  | .decl _ | .expr _ | .goto _ | .breakStmt | .continueStmt | .emptyStatement => true

def Stmt.noReturnList : List Stmt → Bool
  | [] => true
  | s :: stmts => s.noReturn && Stmt.noReturnList stmts

end

mutual

/-- A statement that returns a value at its end and nowhere else. -/
def Stmt.returnsAtEnd : Stmt → Bool
  | .ret e => e.isSome
  | .compound items => Stmt.returnsAtEndList items
  | .ifElse _ iftrue (some iffalse) => iftrue.returnsAtEnd && iffalse.returnsAtEnd
  | _ => false

def Stmt.returnsAtEndList : List Stmt → Bool
  | [] => false
  | s :: stmts =>
    if stmts.isEmpty then s.returnsAtEnd else s.noReturn && Stmt.returnsAtEndList stmts

end

/-- A call that is inlined, with the variables of what its value is assigned to. -/
structure CallSite where
  name : Expr
  args : List Expr
  target : List String
  hasValue : Bool

def Decl.callSites (d : Decl) : List CallSite :=
  match d.init with
  | some (.funcCall name args) => [⟨name, args, [d.name], true⟩]
  | _ => []

def Expr.callSites : Expr → List CallSite
  | .funcCall name args => [⟨name, args, [], false⟩]
  | .assignment none lvalue (.funcCall name args) => [⟨name, args, lvalue.ids, true⟩]
  | _ => []

def returnCallSites : Option Expr → List CallSite
  | some (.funcCall name args) => [⟨name, args, [], true⟩]
  | _ => []

mutual

def Stmt.callSites : Stmt → List CallSite
  | .decl d => d.callSites
  | .expr e => e.callSites
  | .ret e => returnCallSites e
  | .compound items => Stmt.callSitesList items
  | .forLoop _ _ _ stmt | .whileLoop _ stmt | .doWhile _ stmt | .switch _ stmt | .label _ stmt =>
    stmt.callSites
  | .ifElse _ iftrue none => iftrue.callSites
  | .ifElse _ iftrue (some iffalse) => iftrue.callSites ++ iffalse.callSites
  | .case _ stmts | .default stmts => Stmt.callSitesList stmts
  | .goto _ | .breakStmt | .continueStmt | .emptyStatement => []

def Stmt.callSitesList : List Stmt → List CallSite
  | [] => []
  | s :: stmts => s.callSites ++ Stmt.callSitesList stmts

end

/-- What can be an argument. -/
def Expr.isArg : Expr → Bool
  | .funcCall .. | .initList _ => false
  | _ => true

/-- The call has as many arguments as the function has parameters, and a value if one is used. -/
def CallSite.fits (funs : List FunDef) (c : CallSite) : Bool :=
  match c.name with
  | .id f => (funs.find? fun fn => fn.name = f).all fun fn =>
    fn.params.length = c.args.length && c.args.all Expr.isArg &&
      (!c.hasValue || Stmt.returnsAtEndList fn.body)
  | _ => true

/-- The variables of the block that a function is inlined as. -/
def FunDef.locals (fn : FunDef) : List String := fn.params.map Decl.name ++ blockNames fn.body

/-- Calls fit the functions before. -/
def callsFit : List FunDef → Bool
  | [] => true
  | fn :: funs => (Stmt.callSitesList fn.body).all (·.fits funs) && callsFit funs

/-- A file that the inliner can work on, given the identifiers that are in use. -/
structure FileAST.Inlinable (ast : FileAST) (st : Identifiers) : Prop where
  distinct : ast.declNames.Nodup
  known : ∀ x ∈ ast.declNames, x ∈ st.allIdentifiers
  closed : ∀ fn ∈ ast.funDefs, ∀ x ∈ Stmt.freeList fn.body, x ∈ fn.locals ∨ x ∈ ast.globals
  fits : callsFit ast.funDefs = true

-- ---------------------------------------------------------------------------
-- return as an assignment
-- ---------------------------------------------------------------------------

/-- A `return` becomes an assignment to the variable of the result, if there is one. -/
theorem Stmt.returnTo_ret {returnVar e : Option Expr} {s' : Stmt}
    (h : Stmt.returnTo returnVar (.ret e) = some s') :
    ∃ lvalue rvalue, returnVar = some lvalue ∧ e = some rvalue ∧
      s' = .expr (.assignment none lvalue rvalue) := by
  simp only [Stmt.returnTo, Option.bind_eq_bind, Option.bind_eq_some_iff] at h
  obtain ⟨lvalue, hVar, rvalue, hValue, h⟩ := h
  exact ⟨lvalue, rvalue, hVar, hValue, (Option.some.inj h).symm⟩

/-- Both branches are rewritten. -/
theorem Stmt.returnTo_ifElse {returnVar : Option Expr} {cond : Expr} {iftrue iffalse s' : Stmt}
    (h : Stmt.returnTo returnVar (.ifElse cond iftrue (some iffalse)) = some s') :
    ∃ iftrue' iffalse', iftrue.returnTo returnVar = some iftrue' ∧
      iffalse.returnTo returnVar = some iffalse' ∧ s' = .ifElse cond iftrue' (some iffalse') := by
  simp only [Stmt.returnTo, Option.bind_eq_bind, Option.bind_eq_some_iff] at h
  obtain ⟨iftrue', hTrue, iffalse', hFalse, h⟩ := h
  exact ⟨iftrue', iffalse', hTrue, hFalse, (Option.some.inj h).symm⟩

/-- A list is rewritten statement by statement. -/
theorem Stmt.returnToList_cons {returnVar : Option Expr} {s : Stmt} {stmts rest : List Stmt}
    (h : Stmt.returnToList returnVar (s :: stmts) = some rest) :
    ∃ s' stmts', s.returnTo returnVar = some s' ∧ Stmt.returnToList returnVar stmts = some stmts' ∧
      rest = s' :: stmts' := by
  simp only [Stmt.returnToList, Option.bind_eq_bind, Option.bind_eq_some_iff] at h
  obtain ⟨s', hOne, stmts', hRest, h⟩ := h
  exact ⟨s', stmts', hOne, hRest, (Option.some.inj h).symm⟩

mutual

/-- After the rewriting nothing returns, and the same names are declared. -/
theorem Stmt.returnTo_static {returnVar : Option Expr} : ∀ {s s' : Stmt},
    s.returnTo returnVar = some s' → s'.noReturn = true ∧ s'.declNames = s.declNames
  | .decl _, _, h | .expr _, _, h | .goto _, _, h | .breakStmt, _, h | .continueStmt, _, h
  | .emptyStatement, _, h => by
    cases h
    exact ⟨rfl, rfl⟩
  | .ret e, _, h => by
    obtain ⟨lvalue, rvalue, -, -, rfl⟩ := Stmt.returnTo_ret h
    exact ⟨rfl, rfl⟩
  | .compound items, _, h => by
    obtain ⟨items', hItems, rfl⟩ := Option.map_eq_some_iff.mp h
    exact Stmt.returnToList_static hItems
  | .forLoop init cond next stmt, _, h => by
    obtain ⟨stmt', hStmt, rfl⟩ := Option.map_eq_some_iff.mp h
    obtain ⟨hRet, hNames⟩ := Stmt.returnTo_static hStmt
    exact ⟨hRet, by rw [Stmt.declNames, Stmt.declNames, hNames]⟩
  | .ifElse cond iftrue none, _, h => by
    obtain ⟨stmt', hStmt, rfl⟩ := Option.map_eq_some_iff.mp h
    have hStatic := Stmt.returnTo_static hStmt
    exact hStatic
  | .ifElse cond iftrue (some iffalse), _, h => by
    obtain ⟨iftrue', iffalse', hTrue, hFalse, rfl⟩ := Stmt.returnTo_ifElse h
    obtain ⟨hRet, hNames⟩ := Stmt.returnTo_static hTrue
    obtain ⟨hRet', hNames'⟩ := Stmt.returnTo_static hFalse
    exact ⟨by rw [Stmt.noReturn, hRet, hRet']; rfl,
      by rw [Stmt.declNames, Stmt.declNames, hNames, hNames']⟩
  | .whileLoop cond stmt, _, h | .doWhile cond stmt, _, h | .switch cond stmt, _, h
  | .label name stmt, _, h => by
    obtain ⟨stmt', hStmt, rfl⟩ := Option.map_eq_some_iff.mp h
    have hStatic := Stmt.returnTo_static hStmt
    exact hStatic
  | .case e stmts, _, h | .default stmts, _, h => by
    obtain ⟨stmts', hStmts, rfl⟩ := Option.map_eq_some_iff.mp h
    exact Stmt.returnToList_static hStmts

theorem Stmt.returnToList_static {returnVar : Option Expr} : ∀ {stmts stmts' : List Stmt},
    Stmt.returnToList returnVar stmts = some stmts' →
      Stmt.noReturnList stmts' = true ∧ Stmt.declNamesList stmts' = Stmt.declNamesList stmts
  | [], _, h => by
    cases h
    exact ⟨rfl, rfl⟩
  | s :: stmts, _, h => by
    obtain ⟨s', stmts', hOne, hRest, rfl⟩ := Stmt.returnToList_cons h
    obtain ⟨hRet, hNames⟩ := Stmt.returnTo_static hOne
    obtain ⟨hRet', hNames'⟩ := Stmt.returnToList_static hRest
    exact ⟨by rw [Stmt.noReturnList, hRet, hRet']; rfl,
      by rw [Stmt.declNamesList, Stmt.declNamesList, hNames, hNames']⟩

end

mutual

/-- Where there is no variable for the value, or no `return`, nothing changes. -/
theorem Stmt.returnTo_eq_self {returnVar : Option Expr} : ∀ {s s' : Stmt},
    s.returnTo returnVar = some s' → returnVar = none ∨ s.noReturn = true → s' = s
  | .decl _, _, h, _ | .expr _, _, h, _ | .goto _, _, h, _ | .breakStmt, _, h, _
  | .continueStmt, _, h, _ | .emptyStatement, _, h, _ => (Option.some.inj h).symm
  | .ret e, _, h, hNone => by
    obtain ⟨lvalue, rvalue, hVar, -, -⟩ := Stmt.returnTo_ret h
    rcases hNone with rfl | hNone
    · cases hVar
    · cases hNone
  | .compound items, _, h, hNone | .case _ items, _, h, hNone | .default items, _, h, hNone => by
    obtain ⟨items', hItems, rfl⟩ := Option.map_eq_some_iff.mp h
    rw [Stmt.returnToList_eq_self hItems hNone]
  | .forLoop _ _ _ stmt, _, h, hNone | .ifElse _ stmt none, _, h, hNone
  | .whileLoop _ stmt, _, h, hNone | .doWhile _ stmt, _, h, hNone | .switch _ stmt, _, h, hNone
  | .label _ stmt, _, h, hNone => by
    obtain ⟨stmt', hStmt, rfl⟩ := Option.map_eq_some_iff.mp h
    rw [Stmt.returnTo_eq_self hStmt hNone]
  | .ifElse cond iftrue (some iffalse), _, h, hNone => by
    obtain ⟨iftrue', iffalse', hTrue, hFalse, rfl⟩ := Stmt.returnTo_ifElse h
    simp only [Stmt.noReturn, Bool.and_eq_true] at hNone
    rw [Stmt.returnTo_eq_self hTrue (hNone.imp_right And.left),
      Stmt.returnTo_eq_self hFalse (hNone.imp_right And.right)]

/-- Without a variable for the result, or without a `return`, nothing is rewritten. -/
theorem Stmt.returnToList_eq_self {returnVar : Option Expr} : ∀ {stmts stmts' : List Stmt},
    Stmt.returnToList returnVar stmts = some stmts' →
      returnVar = none ∨ Stmt.noReturnList stmts = true → stmts' = stmts
  | [], _, h, _ => (Option.some.inj h).symm
  | s :: stmts, _, h, hNone => by
    obtain ⟨s', stmts', hOne, hRest, rfl⟩ := Stmt.returnToList_cons h
    simp only [Stmt.noReturnList, Bool.and_eq_true] at hNone
    rw [Stmt.returnTo_eq_self hOne (hNone.imp_right And.left),
      Stmt.returnToList_eq_self hRest (hNone.imp_right And.right)]

end

/-- A block declares the same names as before. -/
theorem blockNames_returnTo {returnVar : Option Expr} {stmts stmts' : List Stmt}
    (h : Stmt.returnToList returnVar stmts = some stmts') :
    blockNames stmts' = blockNames stmts := by
  induction stmts generalizing stmts' with
  | nil =>
    cases h
    rfl
  | cons s stmts ih =>
    obtain ⟨s', rest, hOne, hRest, rfl⟩ := Stmt.returnToList_cons h
    have hSingle : blockNames [s'] = blockNames [s] := by
      cases s with
      | decl d => rw [Stmt.returnTo_eq_self hOne (.inr rfl)]
      | ret e =>
        obtain ⟨lvalue, rvalue, -, -, rfl⟩ := Stmt.returnTo_ret hOne
        rfl
      | ifElse cond iftrue iffalse =>
        cases iffalse with
        | none =>
          obtain ⟨stmt', -, rfl⟩ := Option.map_eq_some_iff.mp hOne
          rfl
        | some iffalse =>
          obtain ⟨iftrue', iffalse', -, -, rfl⟩ := Stmt.returnTo_ifElse hOne
          rfl
      | expr _ | goto _ | breakStmt | continueStmt | emptyStatement =>
        rw [Stmt.returnTo_eq_self hOne (.inr rfl)]
      | _ =>
        obtain ⟨stmt', -, rfl⟩ := Option.map_eq_some_iff.mp hOne
        rfl
    rw [blockNames_cons s', blockNames_cons s, hSingle, ih hRest]

/-- The names of a block are declared in it. -/
theorem mem_declNames_of_mem_blockNames {stmts : List Stmt} {x : String}
    (hx : x ∈ blockNames stmts) :
    x ∈ Stmt.declNamesList stmts := by
  induction stmts with
  | nil => cases hx
  | cons s stmts ih =>
    rw [blockNames_cons, List.mem_append] at hx
    rw [Stmt.declNamesList, List.mem_append]
    refine hx.imp (fun h => ?_) ih
    cases s with
    | decl d => exact h
    | _ => cases h

section Semantics

variable {V M : Type} {C : CMachine V M} {fuel : Nat} {calls : CCalls V M}

mutual

/-- A statement without `return` returns nothing: induction on the statement, where loops go round
at most `fuel` times. -/
theorem Stmt.exec_noReturn :
    ∀ {s : Stmt}, s.noReturn = true → Yields (· = none) (C.exec fuel calls s)
  | .decl _, _ | .expr _, _ => .map fun _ => rfl
  | .ret _, h => by cases h
  | .compound items, h => CFrame.yields_scope (Stmt.execList_noReturn h)
  | .forLoop init cond next stmt, h =>
    CFrame.yields_scope (Yields.any.bind fun _ _ => .rounds (Stmt.exec_noReturn (s := stmt) h) fuel)
  | .whileLoop cond stmt, h => .rounds (Stmt.exec_noReturn (s := stmt) h) fuel
  | .doWhile cond stmt, h => by
    have hStmt : Yields (· = none) (C.exec fuel calls stmt) := Stmt.exec_noReturn h
    refine hStmt.bind fun r hr => ?_
    subst hr
    exact .rounds hStmt fuel
  | .ifElse cond iftrue none, h => by
    have hStmt : Yields (· = none) (C.exec fuel calls iftrue) := Stmt.exec_noReturn h
    refine Yields.any.bind fun b _ => ?_
    split
    · exact hStmt
    · exact .pure rfl
  | .ifElse cond iftrue (some iffalse), h => by
    simp only [Stmt.noReturn, Bool.and_eq_true] at h
    refine Yields.any.bind fun b _ => ?_
    split
    · exact Stmt.exec_noReturn h.1
    · exact Stmt.exec_noReturn h.2
  | .emptyStatement, _ => .pure rfl
  | .switch .., _ | .case .., _ | .default _, _ | .label .., _ | .goto _, _ | .breakStmt, _
  | .continueStmt, _ => fun _ _ hRun => nomatch hRun

/-- The same for lists. -/
theorem Stmt.execList_noReturn : ∀ {stmts : List Stmt}, Stmt.noReturnList stmts = true →
    Yields (· = none) (C.execList fuel calls stmts)
  | [], _ => .pure rfl
  | s :: stmts, h => by
    simp only [Stmt.noReturnList, Bool.and_eq_true] at h
    refine (Stmt.exec_noReturn h.1).bind fun r hr => ?_
    subst hr
    exact Stmt.execList_noReturn h.2

end

/-- Where the value of a function goes that is inlined. -/
def CMachine.deliver (C : CMachine V M) (lvalue : Expr) (r : Option (Option V)) :
    StateT (CFrame V M) Option (Option (Option V)) := do
  let v ← r.join
  C.assign lvalue v
  return none

/-- An assignment as a statement evaluates its right-hand side and stores it. -/
theorem discard_assignment (lvalue e : Expr) :
    C.discard (.assignment none lvalue e) = C.evaluate e >>= C.assign lvalue := by
  simp only [CMachine.discard, CMachine.evaluate, CMachine.updated, map_eq_pure_bind, bind_assoc,
    pure_bind, bind_pure_unit]
  rfl

/-- `x = e` and `return e` have the value of `e` in common. -/
theorem execExpr_assignment (lvalue e : Expr) :
    C.execExpr calls (.assignment none lvalue e) =
      (do
        let v ← (← C.execReturn calls (some e))
        C.assign lvalue v) := by
  cases e with
  | funcCall name args => simp [CMachine.execExpr, CMachine.execReturn]
  | _ =>
    refine (discard_assignment lvalue _).trans ?_
    simp [CMachine.execReturn, CMachine.initial]

/-- The assignment for a `return` delivers what the `return` gives. -/
theorem exec_returnTo_ret (lvalue e : Expr) :
    C.exec fuel calls (.expr (.assignment none lvalue e)) =
      C.exec fuel calls (.ret (some e)) >>= C.deliver lvalue := by
  show (fun _ => none) <$> C.execExpr calls (.assignment none lvalue e) =
    some <$> C.execReturn calls (some e) >>= C.deliver lvalue
  rw [execExpr_assignment]
  simp [CMachine.deliver]

theorem execList_singleton (s : Stmt) : C.execList fuel calls [s] = C.exec fuel calls s := by
  refine (bind_congr fun r => ?_).trans (bind_pure (C.exec fuel calls s))
  cases r with
  | none => rfl
  | some v => rfl

/-- The second part is executed if the first one does not return. -/
theorem execList_append (stmts rest : List Stmt) :
    C.execList fuel calls (stmts ++ rest) =
      (do
        match ← C.execList fuel calls stmts with
        | some r => return some r
        | none => C.execList fuel calls rest) := by
  induction stmts with
  | nil => rfl
  | cons s stmts ih =>
    rw [List.cons_append, CMachine.execList, CMachine.execList, bind_assoc]
    refine bind_congr fun r => ?_
    cases r with
    | none => exact ih
    | some v => rfl

/-- After a statement without `return` the rest is always executed. -/
theorem execList_cons_of_noReturn {s : Stmt} (h : s.noReturn = true) (stmts : List Stmt) :
    C.execList fuel calls (s :: stmts) = C.exec fuel calls s >>= fun _ =>
      C.execList fuel calls stmts :=
  (Stmt.exec_noReturn h).bind_congr fun r hr => by rw [hr]

/-- Variables that the target does not mention play no part in the delivery. -/
theorem commutes_deliver {keep : String → Bool} {env : String → Option V} {lvalue : Expr}
    (h : ∀ x ∈ lvalue.ids, keep x = true) (r : Option (Option V)) :
    Commutes (CFrame.merge keep env) (C.deliver lvalue r) :=
  (Commutes.lift _).bind fun v => (C.commutes_assign h v).bind fun _ => .pure _

mutual

/-- The value that was returned is assigned. No block on the way to it has a variable of that
name. -/
theorem Stmt.exec_returnTo {lvalue : Expr} : ∀ {s s' : Stmt}, s.returnsAtEnd = true →
    s.returnTo (some lvalue) = some s' → (∀ x ∈ lvalue.ids, x ∉ s.declNames) →
      C.exec fuel calls s' = C.exec fuel calls s >>= C.deliver lvalue
  | .ret none, _, hEnd, _, _ => by cases hEnd
  | .ret (some e), _, _, h, _ => by
    cases h
    exact exec_returnTo_ret lvalue e
  | .compound items, _, hEnd, h, hApart => by
    obtain ⟨items', hItems, rfl⟩ := Option.map_eq_some_iff.mp h
    rw [CMachine.exec, CMachine.exec, blockNames_returnTo hItems,
      Stmt.execList_returnTo hEnd hItems hApart]
    exact CFrame.scope_bind_right fun r env => commutes_deliver (fun x hx => decide_eq_true
      (show x ∉ blockNames items from fun hName =>
        hApart x hx (mem_declNames_of_mem_blockNames hName))) r
  | .ifElse cond iftrue (some iffalse), _, hEnd, h, hApart => by
    obtain ⟨iftrue', iffalse', hTrue, hFalse, rfl⟩ := Stmt.returnTo_ifElse h
    simp only [Stmt.returnsAtEnd, Bool.and_eq_true] at hEnd
    rw [CMachine.exec, CMachine.exec, bind_assoc]
    refine bind_congr fun b => ?_
    rw [Stmt.exec_returnTo hEnd.1 hTrue fun x hx hMem => hApart x hx (List.mem_append_left _ hMem),
      Stmt.exec_returnTo hEnd.2 hFalse fun x hx hMem => hApart x hx (List.mem_append_right _ hMem)]
    split <;> rfl
  | .ifElse _ _ none, _, hEnd, _, _ | .decl _, _, hEnd, _, _ | .expr _, _, hEnd, _, _
  | .forLoop .., _, hEnd, _, _ | .whileLoop .., _, hEnd, _, _ | .doWhile .., _, hEnd, _, _
  | .switch .., _, hEnd, _, _ | .case .., _, hEnd, _, _ | .default _, _, hEnd, _, _
  | .label .., _, hEnd, _, _ | .goto _, _, hEnd, _, _ | .breakStmt, _, hEnd, _, _
  | .continueStmt, _, hEnd, _, _ | .emptyStatement, _, hEnd, _, _ => by cases hEnd

/-- The rewritten body does what the body does and then delivers its result: induction on a body
that returns at its end. -/
theorem Stmt.execList_returnTo {lvalue : Expr} : ∀ {stmts stmts' : List Stmt},
    Stmt.returnsAtEndList stmts = true → Stmt.returnToList (some lvalue) stmts = some stmts' →
      (∀ x ∈ lvalue.ids, x ∉ Stmt.declNamesList stmts) →
        C.execList fuel calls stmts' = C.execList fuel calls stmts >>= C.deliver lvalue
  | [], _, hEnd, _, _ => by cases hEnd
  | s :: stmts, _, hEnd, h, hApart => by
    obtain ⟨s', stmts', hOne, hRest, rfl⟩ := Stmt.returnToList_cons h
    have hFirst : ∀ x ∈ lvalue.ids, x ∉ s.declNames := fun x hx hMem =>
      hApart x hx (List.mem_append_left _ hMem)
    have hLater : ∀ x ∈ lvalue.ids, x ∉ Stmt.declNamesList stmts := fun x hx hMem =>
      hApart x hx (List.mem_append_right _ hMem)
    rw [Stmt.returnsAtEndList] at hEnd
    split at hEnd
    · next hEmpty =>
      obtain rfl := List.isEmpty_iff.mp hEmpty
      cases hRest
      rw [execList_singleton, execList_singleton, Stmt.exec_returnTo hEnd hOne hFirst]
    · simp only [Bool.and_eq_true] at hEnd
      rw [Stmt.returnTo_eq_self hOne (.inr hEnd.1), execList_cons_of_noReturn hEnd.1,
        execList_cons_of_noReturn hEnd.1, bind_assoc]
      exact bind_congr fun _ => Stmt.execList_returnTo hEnd.2 hRest hLater

end

end Semantics

-- ---------------------------------------------------------------------------
-- A block for a call
-- ---------------------------------------------------------------------------

/-- No function is known. -/
def noCalls {V M : Type} : CCalls V M := fun _ _ => failure

section Params

variable {V M α : Type} {C : CMachine V M} {fuel : Nat}

/-- To set a variable is to keep all the others. -/
theorem CFrame.set_eq_merge (σ : CFrame V M) (x : String) (v : V) :
    σ.set x v = σ.merge (· ≠ x) fun _ => some v := by
  refine congrArg (CFrame.mk · σ.memory) (funext fun y => ?_)
  show Function.update σ.env x (some v) y = if decide (y ≠ x) then σ.env y else some v
  by_cases hy : y = x
  · simp [hy]
  · simp [hy]

/-- A variable that is set need not be cleared before. -/
theorem CFrame.set_clear (σ : CFrame V M) (x : String) (v : V) :
    (σ.clear x).set x v = σ.set x v := by
  refine congrArg (CFrame.mk · σ.memory) (funext fun y => ?_)
  show Function.update (fun z => if decide (z ≠ x) then σ.env z else none) x (some v) y =
    Function.update σ.env x (some v) y
  by_cases hy : y = x
  · subst hy
    simp
  · simp [hy]

/-- Arguments that do not mention a variable can be evaluated before or after it is set. -/
theorem commutes_set_evaluateList {args : List Expr} {x : String} (hx : x ∉ Expr.idsList args)
    (v : V) :
    Commutes (CFrame.set · x v) (C.evaluateList args) := by
  have hSet : (fun σ : CFrame V M => σ.set x v) = CFrame.merge (· ≠ x) fun _ => some v :=
    funext fun σ => σ.set_eq_merge x v
  rw [hSet]
  exact C.commutes_evaluateList args fun y hy =>
    decide_eq_true (show y ≠ x from fun h => hx (h ▸ hy))

/-- A parameter is a variable that is initialized with the argument. -/
theorem execDecl_param (param : Decl) {arg : Expr} (hArg : arg.isArg = true)
    (hName : param.name ∉ arg.ids) :
    C.execDecl noCalls { param with init := some arg } =
      (do
        let v ← C.evaluate arg
        modify (CFrame.set · param.name v)) := by
  have hDecl : C.execDecl noCalls { param with init := some arg } =
      C.declare { param with init := some arg } := by
    cases arg <;> simp_all [CMachine.execDecl, Expr.isArg]
  have hNew : Decl.allocates { param with init := some arg } = false := by
    cases hType : param.type <;> cases arg <;>
      simp_all [Decl.allocates, Expr.isArg, Expr.isInitList]
  have hClear : Commutes (CFrame.clear param.name) (C.evaluate arg) :=
    C.commutes_evaluate arg fun x hx =>
      decide_eq_true (show x ≠ param.name from fun h => hName (h ▸ hx))
  calc C.execDecl noCalls { param with init := some arg }
    _ = (do
          modify (CFrame.clear param.name)
          let v ← C.evaluate arg
          modify (CFrame.set · param.name v)) := by
      rw [hDecl, CMachine.declare, hNew]
      simp [CMachine.initial]
    _ = (do
          let v ← C.evaluate arg
          modify (CFrame.clear param.name)
          modify (CFrame.set · param.name v)) := hClear.change_bind
    _ = _ := bind_congr fun v => funext fun σ =>
      congrArg (fun σ' => some ((), σ')) (σ.set_clear param.name v)

/-- The declarations of the parameters evaluate all arguments and bind them, as a call does: no
argument mentions a parameter. -/
theorem execList_paramsInit : ∀ {params : List Decl} {args : List Expr},
    params.length = args.length →
    (∀ a ∈ args, a.isArg = true) → (∀ x ∈ params.map Decl.name, x ∉ Expr.idsList args) →
      ∀ stmts, C.execList fuel noCalls (paramsInit params args ++ stmts) =
        (do
          let vals ← C.evaluateList args
          modify (CFrame.bind params vals)
          C.execList fuel noCalls stmts)
  | [], [], _, _, _, _ => rfl
  | param :: params, arg :: args, hLength, hArgs, hApart, stmts => by
    obtain ⟨hArg, hArgs⟩ := List.forall_mem_cons.mp hArgs
    have hName : param.name ∉ arg.ids := fun h =>
      hApart param.name List.mem_cons_self (List.mem_append_left _ h)
    have hNames : param.name ∉ Expr.idsList args := fun h =>
      hApart param.name List.mem_cons_self (List.mem_append_right _ h)
    have hRest := execList_paramsInit (Nat.succ.inj hLength) hArgs
      (fun x hx h => hApart x (List.mem_cons_of_mem _ hx) (List.mem_append_right _ h)) stmts
    calc C.execList fuel noCalls (paramsInit (param :: params) (arg :: args) ++ stmts)
      _ = (do
            let v ← C.evaluate arg
            modify (CFrame.set · param.name v)
            C.execList fuel noCalls (paramsInit params args ++ stmts)) := by
        refine (execList_cons_of_noReturn rfl _).trans ?_
        rw [CMachine.exec, execDecl_param param hArg hName]
        simp
        rfl
      _ = (do
            let v ← C.evaluate arg
            let vals ← C.evaluateList args
            modify (CFrame.set · param.name v)
            modify (CFrame.bind params vals)
            C.execList fuel noCalls stmts) := by
        rw [hRest]
        exact bind_congr fun v => (commutes_set_evaluateList hNames v).change_bind
      _ = _ := by
        rw [CMachine.evaluateList, bind_assoc]
        refine bind_congr fun v => ?_
        rw [bind_assoc]
        rfl

/-- They declare the parameters. -/
theorem blockNames_paramsInit {params : List Decl} {args : List Expr}
    (h : params.length = args.length) :
    blockNames (paramsInit params args) = params.map Decl.name := by
  induction params generalizing args with
  | nil => rfl
  | cons param params ih =>
    cases args with
    | nil => cases h
    | cons arg args =>
      show param.name :: blockNames (paramsInit params args) = _
      rw [ih (Nat.succ.inj h), List.map_cons]

end Params

/-- What is known of a function that has been worked off: without calls it does what it did. -/
structure FunDef.Matches {V M : Type} (C : CMachine V M) (fuel : Nat) (calls : CCalls V M)
    (globals : List String) (fn fn₀ : FunDef) : Prop where
  params : fn.params = fn₀.params
  names : blockNames fn.body = blockNames fn₀.body
  body : C.execList fuel noCalls fn.body = C.execList fuel calls fn₀.body
  atEnd : Stmt.returnsAtEndList fn₀.body = true → Stmt.returnsAtEndList fn.body = true
  within : calls.Within globals
  closed : ∀ x ∈ Stmt.freeList fn₀.body, x ∈ fn₀.locals ∨ x ∈ globals
  apart : ∀ x ∈ fn₀.locals, x ∉ globals

section Block

variable {V M : Type} {C : CMachine V M} {fuel : Nat} {calls : CCalls V M} {globals : List String}
variable {fn fn₀ : FunDef} {args : List Expr} {body : List Stmt}

/-- A function does the same in a block of the caller, which has more variables than the global
ones. -/
theorem FunDef.Matches.run_eq (h : fn.Matches C fuel calls globals fn₀) {vals : List V}
    (hLength : fn.params.length = vals.length) :
    fn₀.run C fuel calls globals vals =
      Option.join <$> CFrame.scope (· ∉ fn.locals) (do
        modify (CFrame.bind fn.params vals)
        C.execList fuel noCalls fn.body) := by
  have hLocals : fn.locals = fn₀.locals := by rw [FunDef.locals, FunDef.locals, h.params, h.names]
  have hKept : ∀ x, x ∈ fn₀.locals ∨ x ∈ globals →
      (decide (x ∈ globals) || !decide (x ∉ fn₀.locals)) = true := by
    rintro x (hx | hx)
    · simp [hx]
    · simp [hx]
  have hBody (env : String → Option V) : Commutes
      (CFrame.merge (fun x => decide (x ∈ globals) || !decide (x ∉ fn₀.locals)) env)
      (C.execList fuel calls fn₀.body) :=
    CMachine.commutes_execList h.within fn₀.body (fun x hx => hKept x (.inr hx)) fun x hx =>
      hKept x (h.closed x hx)
  have hParams : ∀ x ∈ fn₀.params.map Decl.name, x ∈ fn₀.locals := fun x => List.mem_append_left _
  have hScope : CFrame.scope (· ∉ fn₀.locals) (do
        modify (CFrame.bind fn₀.params vals)
        C.execList fuel calls fn₀.body) =
      CFrame.scope (· ∈ globals) (do
        modify (CFrame.bind fn₀.params vals)
        C.execList fuel calls fn₀.body) := by
    refine CFrame.scope_congr (fun x hx => ?_) fun env =>
      (CFrame.commutes_bind (fun x hx => hKept x (.inl (hParams x hx))) vals).bind fun _ =>
        hBody env
    exact decide_eq_true
      (show x ∉ fn₀.locals from fun hLocal => h.apart x hLocal (of_decide_eq_true hx))
  rw [FunDef.run, if_pos (h.params ▸ hLength), hLocals, h.params, h.body, hScope,
    ← CFrame.scope_map]
  simp

/-- The block of a call, whatever has become of the `return`. -/
theorem exec_block (hNames : blockNames body = blockNames fn.body)
    (hLength : fn.params.length = args.length) (hArgs : ∀ a ∈ args, a.isArg = true)
    (hApart : ∀ x ∈ Expr.idsList args, x ∉ fn.locals) :
    C.exec fuel noCalls (.compound (paramsInit fn.params args ++ body)) =
      (do
        let vals ← C.evaluateList args
        CFrame.scope (· ∉ fn.locals) do
          modify (CFrame.bind fn.params vals)
          C.execList fuel noCalls body) := by
  have hBlock : blockNames (paramsInit fn.params args ++ body) = fn.locals := by
    rw [blockNames, List.filterMap_append]
    exact congrArg₂ (· ++ ·) (blockNames_paramsInit hLength) hNames
  rw [CMachine.exec, hBlock, execList_paramsInit hLength hArgs fun x hx hArg =>
    hApart x hArg (List.mem_append_left _ hx)]
  exact CFrame.scope_bind_left fun env => C.commutes_evaluateList args fun x hx =>
    decide_eq_true (hApart x hx)

/-- A call whose value is used. -/
theorem FunDef.Matches.exec_value (h : fn.Matches C fuel calls globals fn₀) {lvalue : Expr}
    (hBody : Stmt.returnToList (some lvalue) fn.body = some body)
    (hEnd : Stmt.returnsAtEndList fn.body = true) (hLength : fn.params.length = args.length)
    (hArgs : ∀ a ∈ args, a.isArg = true) (hApart : ∀ x ∈ Expr.idsList args, x ∉ fn.locals)
    (hTarget : ∀ x ∈ lvalue.ids, x ∉ fn.locals ∧ x ∉ Stmt.declNamesList fn.body) :
    C.exec fuel noCalls (.compound (paramsInit fn.params args ++ body)) =
      (do
        let v ← (← fn₀.run C fuel calls globals (← C.evaluateList args))
        C.assign lvalue v
        return none) := by
  rw [exec_block (blockNames_returnTo hBody) hLength hArgs hApart]
  refine (C.length_evaluateList args).bind_congr fun vals hVals => ?_
  rw [h.run_eq (hLength.trans hVals.symm), Stmt.execList_returnTo hEnd hBody fun x hx =>
    (hTarget x hx).2, ← bind_assoc, CFrame.scope_bind_right fun r env => commutes_deliver
      (fun x hx =>
      decide_eq_true (hTarget x hx).1) r, bind_map_left]
  rfl

/-- A call as a statement. -/
theorem FunDef.Matches.exec_void (h : fn.Matches C fuel calls globals fn₀)
    (hBody : Stmt.returnToList none fn.body = some body) (hLength : fn.params.length = args.length)
    (hArgs : ∀ a ∈ args, a.isArg = true) (hApart : ∀ x ∈ Expr.idsList args, x ∉ fn.locals) :
    C.exec fuel noCalls (.compound (paramsInit fn.params args ++ body)) =
      (do
        let _ ← fn₀.run C fuel calls globals (← C.evaluateList args)
        return none) := by
  obtain rfl := Stmt.returnToList_eq_self hBody (.inl rfl)
  rw [exec_block rfl hLength hArgs hApart]
  refine (C.length_evaluateList args).bind_congr fun vals hVals => ?_
  rw [h.run_eq (hLength.trans hVals.symm), bind_map_left]
  have hNone : Yields (· = none) (CFrame.scope (· ∉ fn.locals) do
      modify (CFrame.bind fn.params vals)
      C.execList fuel noCalls fn.body) :=
    CFrame.yields_scope (Yields.any.bind fun _ _ =>
      Stmt.execList_noReturn (Stmt.returnToList_static hBody).1)
  exact (bind_pure _).symm.trans (hNone.bind_congr fun r hr => by rw [hr])

end Block

-- ---------------------------------------------------------------------------
-- A statement
-- ---------------------------------------------------------------------------

/-- A name that is in use, and not one of the program unless it is one of the functions before. -/
def Inner (own before : List String) (st : Identifiers) (x : String) : Prop :=
  x ∈ st.allIdentifiers ∧ (x ∈ own → x ∈ before)

/-- All variables of a function that has been worked off. -/
def FunDef.inner (fn : FunDef) : List String :=
  fn.params.map Decl.name ++ Stmt.declNamesList fn.body

/-- The locals of a function are declared in it. -/
theorem FunDef.mem_inner_of_mem_locals {fn : FunDef} {x : String} (hx : x ∈ fn.locals) :
    x ∈ fn.inner :=
  List.mem_append.mpr ((List.mem_append.mp hx).imp_right mem_declNames_of_mem_blockNames)

/-- The identifiers that are in use when a statement is worked off. -/
structure Identifiers.Covers (st : Identifiers) (own before : List String) (funs : List FunDef) :
    Prop where
  taken : ∀ x ∈ own, x ∈ st.allIdentifiers
  inner : ∀ fn ∈ funs, ∀ x ∈ fn.inner, Inner own before st x

/-- More identifiers cover as much. -/
theorem Identifiers.Covers.mono {st st' : Identifiers} {own before : List String}
    {funs : List FunDef} (h : st.Covers own before funs)
    (hGrows : ∀ x ∈ st.allIdentifiers, x ∈ st'.allIdentifiers) :
    st'.Covers own before funs where
  taken x hx := hGrows x (h.taken x hx)
  inner fn hFn x hx := ⟨hGrows x (h.inner fn hFn x hx).1, (h.inner fn hFn x hx).2⟩

/-- A call of a function before, with variables that are not those of a function before. -/
structure CallSite.Ok (own before : List String) (funs₀ : List FunDef) (c : CallSite) : Prop where
  fits : c.fits funs₀ = true
  names : ∀ x ∈ Expr.idsList c.args ++ c.target, x ∈ own ∧ x ∉ before

/-- A function that is called has been worked off. -/
def Known {V M : Type} (C : CMachine V M) (fuel : Nat) (globals : List String)
    (funs funs₀ : List FunDef) (calls : CCalls V M) : Prop :=
  ∀ f fn, funs.find? (fun fn => fn.name = f) = some fn → ∃ fn₀ calls₀,
    funs₀.find? (fun fn => fn.name = f) = some fn₀ ∧
      (∀ vals, calls f vals = fn₀.run C fuel calls₀ globals vals) ∧
        fn.Matches C fuel calls₀ globals fn₀

/-- What becomes of statements. -/
structure Inlines {V M : Type} (C : CMachine V M) (fuel : Nat) (calls : CCalls V M)
    (own before : List String) (st st' : Identifiers) (stmts stmts' : List Stmt) : Prop where
  exec : C.execList fuel noCalls stmts' = C.execList fuel calls stmts
  noReturn : Stmt.noReturnList stmts = true → Stmt.noReturnList stmts' = true
  atEnd : Stmt.returnsAtEndList stmts = true → Stmt.returnsAtEndList stmts' = true
  names : blockNames stmts' = blockNames stmts
  declared : ∀ x ∈ Stmt.declNamesList stmts', x ∈ Stmt.declNamesList stmts ∨ Inner own before st' x
  grows : ∀ x ∈ st.allIdentifiers, x ∈ st'.allIdentifiers
  empty : stmts = [] → stmts' = []

section Calls

variable {V M : Type} {C : CMachine V M} {fuel : Nat} {calls : CCalls V M} {globals : List String}
variable {funs funs₀ : List FunDef} {own before : List String} {st : Identifiers}
variable {name : Expr} {args : List Expr} {block : Stmt}

/-- What `inlineCall` has looked up. -/
theorem inlineCall_cases {returnVar : Option Expr}
    (h : inlineCall funs returnVar name args = some block) :
    ∃ f fn body, name = .id f ∧ funs.find? (fun fn => fn.name = f) = some fn ∧ fn ∈ funs ∧
      Stmt.returnToList returnVar fn.body = some body ∧
        block = .compound (paramsInit fn.params args ++ body) := by
  cases name with
  | id f =>
    simp only [inlineCall, Option.bind_eq_bind, Option.bind_eq_some_iff] at h
    obtain ⟨fn, hFind, h⟩ := h
    split at h
    · cases h
    · obtain ⟨body, hBody, h⟩ := Option.bind_eq_some_iff.mp h
      cases h
      exact ⟨f, fn, body, rfl, hFind, List.mem_of_find?_eq_some hFind, hBody, rfl⟩
  | _ => cases h

theorem Stmt.noReturnList_append (stmts rest : List Stmt) :
    Stmt.noReturnList (stmts ++ rest) = (Stmt.noReturnList stmts && Stmt.noReturnList rest) := by
  induction stmts with
  | nil => rfl
  | cons s stmts ih =>
    rw [List.cons_append, Stmt.noReturnList, Stmt.noReturnList, ih, Bool.and_assoc]

theorem Stmt.declNamesList_append (stmts rest : List Stmt) :
    Stmt.declNamesList (stmts ++ rest) = Stmt.declNamesList stmts ++ Stmt.declNamesList rest := by
  induction stmts with
  | nil => rfl
  | cons s stmts ih =>
    rw [List.cons_append, Stmt.declNamesList, Stmt.declNamesList, ih, List.append_assoc]

/-- The declarations of the parameters return nothing and declare the parameters only. -/
theorem paramsInit_static (params : List Decl) (args : List Expr) :
    Stmt.noReturnList (paramsInit params args) = true ∧
      ∀ x ∈ Stmt.declNamesList (paramsInit params args), x ∈ params.map Decl.name := by
  induction params generalizing args with
  | nil => exact ⟨rfl, fun x hx => nomatch hx⟩
  | cons param params ih =>
    cases args with
    | nil => exact ⟨rfl, fun x hx => nomatch hx⟩
    | cons arg args =>
      refine ⟨(ih args).1, fun x hx => ?_⟩
      exact (List.mem_cons.mp hx).elim (fun h => h ▸ List.mem_cons_self) fun h =>
        List.mem_cons_of_mem _ ((ih args).2 x h)

/-- The block of a call returns nothing, and its variables are those of the function. -/
theorem inlineCall_static {returnVar : Option Expr}
    (h : inlineCall funs returnVar name args = some block) :
    block.noReturn = true ∧ blockNames [block] = [] ∧
      ∃ fn ∈ funs, ∀ x ∈ block.declNames, x ∈ fn.inner := by
  obtain ⟨f, fn, body, -, -, hFn, hBody, rfl⟩ := inlineCall_cases h
  obtain ⟨hRet, hNames⟩ := Stmt.returnToList_static hBody
  obtain ⟨hParamsRet, hParams⟩ := paramsInit_static fn.params args
  refine ⟨?_, rfl, fn, hFn, fun x hx => ?_⟩
  · rw [Stmt.noReturn, Stmt.noReturnList_append, hParamsRet, hRet]
    rfl
  · rw [Stmt.declNames, Stmt.declNamesList_append, hNames] at hx
    exact List.mem_append.mpr ((List.mem_append.mp hx).imp_left (hParams x))

/-- The facts about a call that the block needs. -/
theorem CallSite.Ok.fit {c : CallSite} (hOk : c.Ok own before funs₀) {f : String} {fn₀ : FunDef}
    (hName : c.name = .id f) (hFind : funs₀.find? (fun fn => fn.name = f) = some fn₀) :
    fn₀.params.length = c.args.length ∧ (∀ a ∈ c.args, a.isArg = true) ∧
      (c.hasValue = true → Stmt.returnsAtEndList fn₀.body = true) := by
  have hFits := hOk.fits
  rw [CallSite.fits, hName] at hFits
  simp only [hFind, Option.all_some, Bool.and_eq_true, decide_eq_true_eq, List.all_eq_true,
    Bool.or_eq_true, Bool.not_eq_true'] at hFits
  exact ⟨hFits.1.1, hFits.1.2, fun hValue => hFits.2.resolve_left (by simp [hValue])⟩

/-- The block for a call with a result does what the call does and stores its result. -/
theorem inlineCall_value (hKnown : Known C fuel globals funs funs₀ calls) {lvalue : Expr}
    (h : inlineCall funs (some lvalue) name args = some block) (hCovers : st.Covers own before funs)
    {target : List String} (hOk : CallSite.Ok own before funs₀ ⟨name, args, target, true⟩)
    (hTarget : ∀ x ∈ lvalue.ids, ∀ fn ∈ funs, x ∉ fn.inner) :
    C.exec fuel noCalls block =
      (do
        let v ← C.callValue calls name args
        C.assign lvalue v
        return none) := by
  obtain ⟨f, fn, body, rfl, hFind, hFn, hBody, rfl⟩ := inlineCall_cases h
  obtain ⟨fn₀, calls₀, hFind₀, hCall, hMatches⟩ := hKnown f fn hFind
  obtain ⟨hLength, hArgs, hEnd⟩ := hOk.fit rfl hFind₀
  rw [hMatches.exec_value hBody (hMatches.atEnd (hEnd rfl)) (hMatches.params ▸ hLength) hArgs
    (fun x hx hLocal => ?_) fun x hx => ⟨fun hLocal => ?_, fun hDecl => ?_⟩]
  · simp [CMachine.callValue, CMachine.call, hCall]
  · obtain ⟨hOwn, hBefore⟩ := hOk.names x (List.mem_append_left _ hx)
    exact hBefore ((hCovers.inner fn hFn x (FunDef.mem_inner_of_mem_locals hLocal)).2 hOwn)
  · exact hTarget x hx fn hFn (FunDef.mem_inner_of_mem_locals hLocal)
  · exact hTarget x hx fn hFn (List.mem_append_right _ hDecl)

/-- The block for a call without a result does what the call does. -/
theorem inlineCall_void (hKnown : Known C fuel globals funs funs₀ calls)
    (h : inlineCall funs none name args = some block) (hCovers : st.Covers own before funs)
    (hOk : CallSite.Ok own before funs₀ ⟨name, args, [], false⟩) :
    C.exec fuel noCalls block = (fun _ => none) <$> C.call calls name args := by
  obtain ⟨f, fn, body, rfl, hFind, hFn, hBody, rfl⟩ := inlineCall_cases h
  obtain ⟨fn₀, calls₀, hFind₀, hCall, hMatches⟩ := hKnown f fn hFind
  obtain ⟨hLength, hArgs, -⟩ := hOk.fit rfl hFind₀
  rw [hMatches.exec_void hBody (hMatches.params ▸ hLength) hArgs fun x hx hLocal => ?_]
  · simp [CMachine.call, hCall]
  · obtain ⟨hOwn, hBefore⟩ := hOk.names x (List.mem_append_left _ hx)
    exact hBefore ((hCovers.inner fn hFn x (FunDef.mem_inner_of_mem_locals hLocal)).2 hOwn)

/-- The end of a list is the end of its second part. -/
theorem Stmt.returnsAtEndList_append {stmts rest : List Stmt} (h : Stmt.noReturnList stmts = true)
    (hRest : Stmt.returnsAtEndList rest = true) : Stmt.returnsAtEndList (stmts ++ rest) = true := by
  induction stmts with
  | nil => exact hRest
  | cons s stmts ih =>
    rw [Stmt.noReturnList, Bool.and_eq_true] at h
    have hEnd := ih h.2
    have hSome : (stmts ++ rest).isEmpty = false := by
      cases hList : stmts ++ rest with
      | nil => simp [hList, Stmt.returnsAtEndList] at hEnd
      | cons _ _ => rfl
    rw [List.cons_append, Stmt.returnsAtEndList, hSome, h.1, hEnd]
    rfl

variable {st' st₁ : Identifiers} {s s' : Stmt} {stmts stmts' rest : List Stmt}

theorem Inlines.nil : Inlines C fuel calls own before st st [] [] :=
  ⟨rfl, id, id, rfl, fun _ hx => .inl hx, fun _ hx => hx, id⟩

/-- A statement that stays, since it calls nothing. -/
theorem Inlines.same (h : C.exec fuel noCalls s = C.exec fuel calls s) :
    Inlines C fuel calls own before st st [s] [s] where
  exec := by rw [execList_singleton, execList_singleton, h]
  noReturn := id
  atEnd := id
  names := rfl
  declared _ hx := .inl hx
  grows _ hx := hx
  empty h := h

/-- Inlining goes through a list statement by statement: the code of the first statement comes
before the code of the rest. -/
theorem Inlines.cons (h : Inlines C fuel calls own before st st₁ [s] stmts')
    (hRest : Inlines C fuel calls own before st₁ st' stmts rest) :
    Inlines C fuel calls own before st st' (s :: stmts) (stmts' ++ rest) where
  exec := by
    rw [execList_append, h.exec, execList_singleton, hRest.exec]
    rfl
  noReturn hRet := by
    rw [Stmt.noReturnList, Bool.and_eq_true] at hRet
    rw [Stmt.noReturnList_append, hRest.noReturn hRet.2,
      h.noReturn (by simp [Stmt.noReturnList, hRet.1])]
    rfl
  atEnd hEnd := by
    rw [Stmt.returnsAtEndList] at hEnd
    split at hEnd
    · next hEmpty =>
      rw [hRest.empty (List.isEmpty_iff.mp hEmpty), List.append_nil]
      exact h.atEnd (by simpa [Stmt.returnsAtEndList] using hEnd)
    · rw [Bool.and_eq_true] at hEnd
      exact Stmt.returnsAtEndList_append (h.noReturn (by simp [Stmt.noReturnList, hEnd.1]))
        (hRest.atEnd hEnd.2)
  names := by
    rw [blockNames_cons s, ← h.names, ← hRest.names, blockNames, List.filterMap_append]
    rfl
  declared x hx := by
    rw [Stmt.declNamesList_append, List.mem_append] at hx
    rw [Stmt.declNamesList, List.mem_append]
    rcases hx with hx | hx
    · refine (h.declared x hx).imp (fun hOwn => .inl ?_) fun hInner =>
        ⟨hRest.grows x hInner.1, hInner.2⟩
      simpa [Stmt.declNamesList] using hOwn
    · exact (hRest.declared x hx).imp_left .inr
  grows x hx := hRest.grows x (h.grows x hx)
  empty hNil := nomatch hNil

/-- A statement in another one, which returns nothing at its end. -/
theorem Inlines.inside (f : Stmt → Stmt) (names : List String)
    (h : Inlines C fuel calls own before st st' [s] [s'])
    (hExec : C.exec fuel noCalls s' = C.exec fuel calls s →
      C.exec fuel noCalls (f s') = C.exec fuel calls (f s))
    (hRet : ∀ s, (f s).noReturn = s.noReturn) (hEnd : ∀ s, (f s).returnsAtEnd = false)
    (hBlock : ∀ s, blockNames [f s] = []) (hNames : ∀ s, (f s).declNames = names ++ s.declNames) :
    Inlines C fuel calls own before st st' [f s] [f s'] where
  exec := by
    have hSame := h.exec
    rw [execList_singleton, execList_singleton] at hSame ⊢
    exact hExec hSame
  noReturn := by simpa [Stmt.noReturnList, hRet] using h.noReturn
  atEnd := by simp [Stmt.returnsAtEndList, hEnd]
  names := by rw [hBlock, hBlock]
  declared x hx := by
    have hOne := h.declared x
    simp only [Stmt.declNamesList, List.append_nil, hNames, List.mem_append] at hx hOne ⊢
    exact hx.elim (fun hx => .inl (.inl hx)) fun hx => (hOne hx).imp_left .inr
  grows := h.grows
  empty hNil := nomatch hNil

/-- A list of statements in a statement. -/
theorem Inlines.within (f : List Stmt → Stmt)
    (h : Inlines C fuel calls own before st st' stmts stmts')
    (hExec : C.exec fuel noCalls (f stmts') = C.exec fuel calls (f stmts))
    (hRet : ∀ l, (f l).noReturn = Stmt.noReturnList l)
    (hEnd : (f stmts).returnsAtEnd = true → ∀ l, (f l).returnsAtEnd = Stmt.returnsAtEndList l)
    (hBlock : ∀ l, blockNames [f l] = []) (hNames : ∀ l, (f l).declNames = Stmt.declNamesList l) :
    Inlines C fuel calls own before st st' [f stmts] [f stmts'] where
  exec := by rw [execList_singleton, execList_singleton, hExec]
  noReturn := by simpa [Stmt.noReturnList, hRet] using h.noReturn
  atEnd hOne := by
    have hOne : (f stmts).returnsAtEnd = true := hOne
    show (f stmts').returnsAtEnd = true
    have hList := hEnd hOne
    rw [hList] at hOne ⊢
    exact h.atEnd hOne
  names := by rw [hBlock, hBlock]
  declared x hx := by
    simp only [Stmt.declNamesList, List.append_nil, hNames] at hx ⊢
    exact h.declared x hx
  grows := h.grows
  empty hNil := nomatch hNil

/-- The branches are inlined one after the other. -/
theorem Inlines.ifElse {cond : Expr} {iftrue iftrue' iffalse iffalse' : Stmt}
    (h : Inlines C fuel calls own before st st₁ [iftrue] [iftrue'])
    (h' : Inlines C fuel calls own before st₁ st' [iffalse] [iffalse']) :
    Inlines C fuel calls own before st st' [.ifElse cond iftrue (some iffalse)]
      [.ifElse cond iftrue' (some iffalse')] where
  exec := by
    have hTrue := h.exec
    have hFalse := h'.exec
    rw [execList_singleton, execList_singleton] at hTrue hFalse ⊢
    rw [CMachine.exec, CMachine.exec, hTrue, hFalse]
  noReturn hRet := by
    have hTrue := h.noReturn
    have hFalse := h'.noReturn
    simp only [Stmt.noReturnList, Stmt.noReturn, Bool.and_true, Bool.and_eq_true]
      at hRet hTrue hFalse ⊢
    exact ⟨hTrue hRet.1, hFalse hRet.2⟩
  atEnd hEnd := by
    have hBoth : iftrue.returnsAtEnd = true ∧ iffalse.returnsAtEnd = true :=
      (Bool.and_eq_true _ _).mp hEnd
    exact (Bool.and_eq_true _ _).mpr ⟨h.atEnd hBoth.1, h'.atEnd hBoth.2⟩
  names := rfl
  declared x hx := by
    have hTrue := h.declared x
    have hFalse := h'.declared x
    simp only [Stmt.declNamesList, Stmt.declNames, List.append_nil, List.mem_append]
      at hx hTrue hFalse ⊢
    rcases hx with hx | hx
    · exact (hTrue hx).imp .inl fun hInner => ⟨h'.grows x hInner.1, hInner.2⟩
    · exact (hFalse hx).imp_left .inr
  grows x hx := h'.grows x (h.grows x hx)
  empty hNil := nomatch hNil

end Calls

section Leaves

variable {V M : Type} {C : CMachine V M} {fuel : Nat} {calls : CCalls V M} {globals : List String}
variable {funs funs₀ : List FunDef} {own before : List String} {st st' : Identifiers}
  {stmts : List Stmt}

/-- A name of the calling function that is not one of a function before. -/
theorem Identifiers.Covers.apart (hCovers : st.Covers own before funs) {x : String}
    (hx : x ∈ own ∧ x ∉ before) : ∀ fn ∈ funs, x ∉ fn.inner :=
  fun fn hFn hInner => hx.2 ((hCovers.inner fn hFn x hInner).2 hx.1)

/-- The names in the block of a call. -/
theorem Identifiers.Covers.block (hCovers : st.Covers own before funs) {block : Stmt}
    (hBlock : ∃ fn ∈ funs, ∀ x ∈ block.declNames, x ∈ fn.inner) :
    ∀ x ∈ block.declNames, Inner own before st x := by
  obtain ⟨fn, hFn, hInner⟩ := hBlock
  exact fun x hx => hCovers.inner fn hFn x (hInner x hx)

/-- A declaration without a call does not need the functions. -/
theorem execDecl_of_not_call {d : Decl}
    (h : ∀ name args, d.init = some (.funcCall name args) → False) :
    C.execDecl calls d = C.declare d := by
  rw [CMachine.execDecl]
  split
  · next name args hInit => exact (h name args hInit).elim
  · rfl

/-- An expression without a call does not need the functions. -/
theorem execExpr_of_hasCall {e : Expr} (h : e.hasCall = false) :
    C.execExpr noCalls e = C.execExpr calls e := by
  cases e with
  | funcCall => cases h
  | assignment op lvalue rvalue =>
    cases rvalue with
    | funcCall => cases h
    | _ => cases op <;> rfl
  | _ => rfl

/-- A declaration of a scalar without an initializer. -/
theorem declare_scalar {d : Decl} (hScalar : d.type.isScalar = true) :
    C.declare { d with init := none } = modify (CFrame.clear d.name) := by
  have hNew : Decl.allocates { d with init := none } = false := by
    cases hType : d.type <;> simp_all [Decl.allocates, DeclType.isScalar]
  rw [CMachine.declare, hNew]
  simp [CMachine.initial]

/-- A declaration: its call, if it has one, becomes the declaration and a block that assigns the
result. -/
theorem Decl.inlines (hKnown : Known C fuel globals funs funs₀ calls) {d : Decl}
    (h : (Stmt.decl d).inline funs st = some (stmts, st')) (hCovers : st.Covers own before funs)
    (hSites : ∀ c ∈ d.callSites, c.Ok own before funs₀) :
    Inlines C fuel calls own before st st' [.decl d] stmts := by
  rw [Stmt.inline] at h
  split at h
  · next name args hInit =>
    split at h
    · next hScalar =>
      obtain ⟨block, hBlock, h⟩ := Option.bind_eq_some_iff.mp h
      cases h
      have hOk : CallSite.Ok own before funs₀ ⟨name, args, [d.name], true⟩ :=
        hSites _ (by simp [Decl.callSites, hInit])
      have hName := hCovers.apart (hOk.names d.name (by simp))
      obtain ⟨hRet, hNames, hDeclared⟩ := inlineCall_static hBlock
      refine ⟨?_, fun _ => ?_, (fun hEnd => by cases hEnd), ?_, fun x hx => ?_, fun _ hx => hx,
        nofun⟩
      · have hValue := inlineCall_value hKnown hBlock hCovers hOk fun x hx => by
          rw [List.mem_singleton.mp hx]
          exact hName
        rw [execList_cons_of_noReturn rfl, execList_singleton, execList_singleton, CMachine.exec,
          hValue, CMachine.exec, CMachine.execDecl, CMachine.execDecl, hInit]
        show ((fun _ => none) <$> C.declare { d with init := none }) >>= _ = _
        rw [declare_scalar hScalar]
        simp [CMachine.assign, CMachine.place, CMachine.write]
      · rw [Stmt.noReturnList, Stmt.noReturnList, hRet]
        rfl
      · rw [blockNames_cons, hNames]
        rfl
      · simp only [Stmt.declNamesList, Stmt.declNames, List.append_nil, List.mem_append] at hx ⊢
        exact hx.imp_right (hCovers.block hDeclared x)
    · cases h
  · next hInit =>
    cases h
    refine .same ?_
    rw [CMachine.exec, CMachine.exec, execDecl_of_not_call hInit, execDecl_of_not_call hInit]

/-- A block for an expression statement. -/
theorem Inlines.block {returnVar : Option Expr} {name : Expr} {args : List Expr} {block : Stmt}
    {e : Expr} (hCovers : st.Covers own before funs)
    (h : inlineCall funs returnVar name args = some block)
    (hExec : C.exec fuel noCalls block = C.exec fuel calls (.expr e)) :
    Inlines C fuel calls own before st st [.expr e] [block] := by
  obtain ⟨hRet, hNames, hDeclared⟩ := inlineCall_static h
  refine ⟨?_, fun _ => ?_, (fun hEnd => by cases hEnd), hNames, fun x hx => .inr ?_, fun _ hx => hx,
    nofun⟩
  · rw [execList_singleton, execList_singleton, hExec]
  · rw [Stmt.noReturnList, hRet]
    rfl
  · rw [Stmt.declNamesList, Stmt.declNamesList, List.append_nil] at hx
    exact hCovers.block hDeclared x hx

/-- An expression without a call stays. -/
theorem Inlines.expr {e : Expr}
    (h : (if e.hasCall then none else some ([Stmt.expr e], st)) = some (stmts, st')) :
    Inlines C fuel calls own before st st' [.expr e] stmts := by
  split at h
  · cases h
  · next hCall =>
    cases h
    refine .same ?_
    rw [CMachine.exec, CMachine.exec, execExpr_of_hasCall (Bool.eq_false_iff.mpr hCall)]

/-- An expression statement: a call whose result is assigned, or one whose result is dropped. -/
theorem Expr.inlines (hKnown : Known C fuel globals funs funs₀ calls) {e : Expr}
    (h : (Stmt.expr e).inline funs st = some (stmts, st')) (hCovers : st.Covers own before funs)
    (hSites : ∀ c ∈ e.callSites, c.Ok own before funs₀) :
    Inlines C fuel calls own before st st' [.expr e] stmts := by
  cases e with
  | funcCall name args =>
    obtain ⟨block, hBlock, h⟩ := Option.bind_eq_some_iff.mp h
    cases h
    refine .block hCovers hBlock ?_
    rw [inlineCall_void hKnown hBlock hCovers (hSites _ List.mem_cons_self)]
    simp [CMachine.exec, CMachine.execExpr]
  | assignment op lvalue rvalue =>
    cases rvalue with
    | funcCall name args =>
      simp only [Stmt.inline] at h
      split at h
      · next hOp =>
        subst hOp
        obtain ⟨block, hBlock, h⟩ := Option.bind_eq_some_iff.mp h
        cases h
        have hOk : CallSite.Ok own before funs₀ ⟨name, args, lvalue.ids, true⟩ :=
          hSites _ List.mem_cons_self
        refine .block hCovers hBlock ?_
        rw [inlineCall_value hKnown hBlock hCovers hOk fun x hx =>
          hCovers.apart (hOk.names x (List.mem_append_right _ hx))]
        simp [CMachine.exec, CMachine.execExpr]
      · cases h
    | _ => exact .expr h
  | _ => exact .expr h

/-- A variable of a block that is assigned and returned. -/
theorem scope_return (x : String) (v : V) :
    CFrame.scope (· ∉ [x]) (do
        modify (CFrame.clear x)
        modify (CFrame.set · x v)
        C.exec fuel calls (.ret (some (.id x)))) =
      (pure (some (some v)) : StateT (CFrame V M) Option _) := by
  funext σ
  have hRead (τ : CFrame V M) :
      (C.exec fuel calls (.ret (some (.id x)))).run (τ.set x v) =
        some (some (some v), τ.set x v) := by
    have hVar : (C.read (.var x)).run (τ.set x v) = some (v, τ.set x v) := by
      show ((τ.set x v).env x).map _ = _
      simp [CFrame.set]
    simp [CMachine.exec, CMachine.execReturn, CMachine.initial, CMachine.evaluate, hVar]
  show ((C.exec fuel calls (.ret (some (.id x)))).run
    (((σ.merge (· ∉ [x]) fun _ => none).clear x).set x v)).map _ = some (some (some v), σ)
  rw [hRead]
  refine congrArg (fun env => some (some (some v), CFrame.mk env σ.memory)) (funext fun y => ?_)
  by_cases hy : y = x
  · simp [hy]
  · simp [hy, CFrame.set, CFrame.clear, CFrame.merge]

/-- A `return` of a call. -/
theorem exec_return_call (hWithin : calls.Within globals) {name : Expr} {args : List Expr}
    {block : Stmt} {x : String} {type : DeclType} (hType : type.isScalar = true)
    (hGlobals : x ∉ globals) (hArgs : x ∉ Expr.idsList args) (hRet : block.noReturn = true)
    (hNames : blockNames [block] = []) (hBlock : C.exec fuel noCalls block =
      (do
        let v ← C.callValue calls name args
        C.assign (.id x) v
        return none)) :
    C.exec fuel noCalls (.compound [.decl ⟨x, [], type, none⟩, block, .ret (some (.id x))]) =
      C.exec fuel calls (.ret (some (.funcCall name args))) := by
  have hCall (keep : String → Bool) (hKeep : ∀ y, y ≠ x → keep y = true) (env : String → Option V) :
      Commutes (CFrame.merge keep env) (C.callValue calls name args) :=
    C.commutes_callValue (hWithin keep env fun y hy => hKeep y fun h => hGlobals (h ▸ hy)) name
      fun y hy => hKeep y fun h => hArgs (h ▸ hy)
  have hBlockNames : blockNames [.decl ⟨x, [], type, none⟩, block, .ret (some (.id x))] = [x] := by
    rw [blockNames_cons, blockNames_cons block, hNames]
    rfl
  -- `x` is not free in the call, so its declaration can move behind it
  calc C.exec fuel noCalls (.compound [.decl ⟨x, [], type, none⟩, block, .ret (some (.id x))])
    _ = CFrame.scope (· ∉ [x]) (do
          modify (CFrame.clear x)
          let v ← C.callValue calls name args
          modify (CFrame.set · x v)
          C.exec fuel noCalls (.ret (some (.id x)))) := by
      refine congrArg₂ CFrame.scope (by simp only [hBlockNames]) ?_
      rw [execList_cons_of_noReturn rfl, execList_cons_of_noReturn hRet, execList_singleton, hBlock]
      show (((fun _ => none) <$> C.declare ⟨x, [], type, none⟩) >>= _) = _
      rw [declare_scalar (d := ⟨x, [], type, none⟩) hType]
      simp [CMachine.assign, CMachine.place, CMachine.write]
    _ = CFrame.scope (· ∉ [x]) (do
          let v ← C.callValue calls name args
          modify (CFrame.clear x)
          modify (CFrame.set · x v)
          C.exec fuel noCalls (.ret (some (.id x)))) :=
      congrArg _ (hCall (· ≠ x) (fun y hy => decide_eq_true hy) fun _ => none).change_bind
    _ = (do
          let v ← C.callValue calls name args
          CFrame.scope (· ∉ [x]) do
            modify (CFrame.clear x)
            modify (CFrame.set · x v)
            C.exec fuel noCalls (.ret (some (.id x)))) :=
      CFrame.scope_bind_left (hCall (· ∉ [x]) fun y hy => by simpa using hy)
    _ = (do
          let v ← C.callValue calls name args
          return some (some v)) := by
      simp only [scope_return]
    _ = C.exec fuel calls (.ret (some (.funcCall name args))) := by
      simp [CMachine.exec, CMachine.execReturn]

/-- A `return`: its call becomes a block that assigns a fresh variable, which is returned. -/
theorem inlines_ret (hKnown : Known C fuel globals funs funs₀ calls)
    (hWithin : calls.Within globals) (hGlobals : ∀ x ∈ globals, x ∈ own) {e : Option Expr}
    (h : (Stmt.ret e).inline funs st = some (stmts, st')) (hCovers : st.Covers own before funs)
    (hSites : ∀ c ∈ returnCallSites e, c.Ok own before funs₀) :
    Inlines C fuel calls own before st st' [.ret e] stmts := by
  cases e with
  | none =>
    cases h
    exact .same rfl
  | some e =>
    cases e with
    | funcCall name args =>
      have hOk : CallSite.Ok own before funs₀ ⟨name, args, [], true⟩ := hSites _ List.mem_cons_self
      have hFresh := freshGen_genNextIdent.fresh "ret_" st
      have hGrows := freshGen_genNextIdent.grows "ret_" st
      rw [Stmt.inline] at h
      generalize genNextIdent "ret_" st = gen at h hFresh hGrows
      obtain ⟨x, st₁⟩ := gen
      obtain ⟨block, hBlock, h⟩ := Option.bind_eq_some_iff.mp h
      cases h
      obtain ⟨hRet, hNames, hDeclared⟩ := inlineCall_static hBlock
      have hApart {y : String} (hy : y ∈ own) : x ≠ y := fun h => hFresh (h ▸ hCovers.taken y hy)
      have hValue := inlineCall_value hKnown hBlock hCovers hOk fun y hy fn hFn hInner =>
        hFresh (List.mem_singleton.mp hy ▸ (hCovers.inner fn hFn y hInner).1)
      refine ⟨?_, (fun hNone => by cases hNone), fun _ => ?_, rfl, fun y hy => .inr ?_,
        fun y hy => (hGrows y).mpr (.inr hy), nofun⟩
      · rw [execList_singleton, execList_singleton]
        exact exec_return_call hWithin rfl (fun hx => hApart (hGlobals x hx) rfl)
          (fun hx => hApart (hOk.names x (List.mem_append_left _ hx)).1 rfl) hRet hNames hValue
      · show (block.noReturn && true) = true
        rw [hRet]
        rfl
      · simp only [Stmt.declNamesList, Stmt.declNames, List.append_nil, List.mem_append,
          List.mem_singleton] at hy
        rcases hy with rfl | hy
        · exact ⟨(hGrows y).mpr (.inl rfl), fun hOwn => (hApart hOwn rfl).elim⟩
        · have hInner := hCovers.block hDeclared y hy
          exact ⟨(hGrows y).mpr (.inr hInner.1), hInner.2⟩
    | _ =>
      cases h
      exact .same rfl

end Leaves

section Statements

variable {V M : Type} {C : CMachine V M} {fuel : Nat} {calls : CCalls V M} {globals : List String}
variable {funs funs₀ : List FunDef} {own before : List String}

theorem Stmt.one_eq_some {stmts : List Stmt} {s : Stmt} (h : Stmt.one stmts = some s) :
    stmts = [s] := by
  match stmts, h with
  | [s], rfl => rfl

/-- What becomes of a statement in another one. -/
theorem inlineOne_cases {f : Stmt → Stmt} {inlined : Option (List Stmt × Identifiers)}
    {stmts : List Stmt} {st' : Identifiers}
    (h : (do
      let (stmts, st) ← inlined
      return ([f (← Stmt.one stmts)], st)) = some (stmts, st')) :
    ∃ s', inlined = some ([s'], st') ∧ stmts = [f s'] := by
  simp only [Option.bind_eq_bind, Option.bind_eq_some_iff] at h
  obtain ⟨⟨stmts', st⟩, hInlined, s', hOne, h⟩ := h
  cases h
  obtain rfl := Stmt.one_eq_some hOne
  exact ⟨s', hInlined, rfl⟩

mutual

/-- Without calls a statement does what it did. -/
theorem Stmt.inlines (hKnown : Known C fuel globals funs funs₀ calls)
    (hWithin : calls.Within globals) (hGlobals : ∀ x ∈ globals, x ∈ own) :
    ∀ {s : Stmt} {st st' : Identifiers} {stmts : List Stmt}, s.inline funs st = some (stmts, st') →
      st.Covers own before funs →
      (∀ c ∈ s.callSites, c.Ok own before funs₀) →
        Inlines C fuel calls own before st st' [s] stmts
  | .decl _, _, _, _, h, hCovers, hSites => Decl.inlines hKnown h hCovers hSites
  | .expr _, _, _, _, h, hCovers, hSites => Expr.inlines hKnown h hCovers hSites
  | .ret _, _, _, _, h, hCovers, hSites => inlines_ret hKnown hWithin hGlobals h hCovers hSites
  | .compound items, _, _, _, h, hCovers, hSites => by
    simp only [Stmt.inline, Option.bind_eq_bind, Option.bind_eq_some_iff] at h
    obtain ⟨⟨items', st₁⟩, hItems, h⟩ := h
    cases h
    -- a block runs what its statements became, in its own scope
    have hInlines := Stmt.inlines_list hKnown hWithin hGlobals hItems hCovers hSites
    exact hInlines.within .compound
      (by rw [CMachine.exec, CMachine.exec, hInlines.exec, hInlines.names])
      (fun _ => rfl) (fun _ _ => rfl) (fun _ => rfl) fun _ => rfl
  | .forLoop init cond next stmt, _, _, _, h, hCovers, hSites => by
    simp only [Stmt.inline] at h
    split at h
    · cases h
    · obtain ⟨stmt', hStmt, rfl⟩ := inlineOne_cases h
      exact (Stmt.inlines hKnown hWithin hGlobals hStmt hCovers hSites).inside
        (.forLoop init cond next)
        (init.decls.map Decl.name) (fun hSame => by rw [CMachine.exec, CMachine.exec, hSame])
        (fun _ => rfl) (fun _ => rfl) (fun _ => rfl) fun _ => rfl
  | .whileLoop cond stmt, _, _, _, h, hCovers, hSites => by
    simp only [Stmt.inline] at h
    split at h
    · cases h
    · obtain ⟨stmt', hStmt, rfl⟩ := inlineOne_cases h
      -- the condition has no call, so only the body changes
      exact (Stmt.inlines hKnown hWithin hGlobals hStmt hCovers hSites).inside (.whileLoop cond) []
        (fun hSame => by rw [CMachine.exec, CMachine.exec, hSame]) (fun _ => rfl) (fun _ => rfl)
        (fun _ => rfl) fun _ => rfl
  | .doWhile cond stmt, _, _, _, h, hCovers, hSites => by
    simp only [Stmt.inline] at h
    split at h
    · cases h
    · obtain ⟨stmt', hStmt, rfl⟩ := inlineOne_cases h
      exact (Stmt.inlines hKnown hWithin hGlobals hStmt hCovers hSites).inside (.doWhile cond) []
        (fun hSame => by rw [CMachine.exec, CMachine.exec, hSame]) (fun _ => rfl) (fun _ => rfl)
        (fun _ => rfl) fun _ => rfl
  | .ifElse cond iftrue none, _, _, _, h, hCovers, hSites => by
    simp only [Stmt.inline] at h
    split at h
    · cases h
    · obtain ⟨stmt', hStmt, rfl⟩ := inlineOne_cases h
      exact (Stmt.inlines hKnown hWithin hGlobals hStmt hCovers hSites).inside
        (fun s => .ifElse cond s none) [] (fun hSame => by rw [CMachine.exec, CMachine.exec, hSame])
        (fun _ => rfl) (fun _ => rfl) (fun _ => rfl) fun _ => rfl
  | .ifElse cond iftrue (some iffalse), _, _, _, h, hCovers, hSites => by
    simp only [Stmt.inline] at h
    split at h
    · cases h
    · simp only [Option.bind_eq_bind, Option.bind_eq_some_iff] at h
      obtain ⟨⟨stmts', st₁⟩, hTrue, ⟨stmts'', st₂⟩, hFalse, iftrue', hOne, iffalse', hOne', h⟩ := h
      cases h
      obtain rfl := Stmt.one_eq_some hOne
      obtain rfl := Stmt.one_eq_some hOne'
      simp only [Stmt.callSites, List.forall_mem_append] at hSites
      -- the branch not taken is inlined after the other one, with the identifiers it left
      have hFirst := Stmt.inlines hKnown hWithin hGlobals hTrue hCovers hSites.1
      exact hFirst.ifElse
        (Stmt.inlines hKnown hWithin hGlobals hFalse (hCovers.mono hFirst.grows) hSites.2)
  | .switch cond stmt, _, _, _, h, hCovers, hSites => by
    simp only [Stmt.inline] at h
    split at h
    · cases h
    · obtain ⟨stmt', hStmt, rfl⟩ := inlineOne_cases h
      -- a `switch`, a label or a `case` has no meaning here, with calls or without
      exact (Stmt.inlines hKnown hWithin hGlobals hStmt hCovers hSites).inside (.switch cond) []
        (fun _ => rfl) (fun _ => rfl) (fun _ => rfl) (fun _ => rfl) fun _ => rfl
  | .label name stmt, _, _, _, h, hCovers, hSites => by
    simp only [Stmt.inline] at h
    obtain ⟨stmt', hStmt, rfl⟩ := inlineOne_cases h
    exact (Stmt.inlines hKnown hWithin hGlobals hStmt hCovers hSites).inside (.label name) []
      (fun _ => rfl) (fun _ => rfl) (fun _ => rfl) (fun _ => rfl) fun _ => rfl
  | .case e stmts, _, _, _, h, hCovers, hSites => by
    simp only [Stmt.inline] at h
    split at h
    · cases h
    · simp only [Option.bind_eq_bind, Option.bind_eq_some_iff] at h
      obtain ⟨⟨stmts', st₁⟩, hStmts, h⟩ := h
      cases h
      exact (Stmt.inlines_each hKnown hWithin hGlobals hStmts hCovers hSites).within (.case e) rfl
        (fun _ => rfl) (fun hEnd => nomatch hEnd) (fun _ => rfl) fun _ => rfl
  | .default stmts, _, _, _, h, hCovers, hSites => by
    simp only [Stmt.inline, Option.bind_eq_bind, Option.bind_eq_some_iff] at h
    obtain ⟨⟨stmts', st₁⟩, hStmts, h⟩ := h
    cases h
    exact (Stmt.inlines_each hKnown hWithin hGlobals hStmts hCovers hSites).within .default rfl
      (fun _ => rfl) (fun hEnd => nomatch hEnd) (fun _ => rfl) fun _ => rfl
  | .goto _, _, _, _, h, _, _ | .breakStmt, _, _, _, h, _, _ | .continueStmt, _, _, _, h, _, _
  | .emptyStatement, _, _, _, h, _, _ => by
    cases h
    exact .same rfl

/-- Inlining a list keeps its meaning, by induction along the list. -/
theorem Stmt.inlines_list (hKnown : Known C fuel globals funs funs₀ calls)
    (hWithin : calls.Within globals) (hGlobals : ∀ x ∈ globals, x ∈ own) :
    ∀ {stmts : List Stmt} {st st' : Identifiers} {stmts' : List Stmt},
      Stmt.inlineList funs stmts st = some (stmts', st') → st.Covers own before funs →
        (∀ c ∈ Stmt.callSitesList stmts, c.Ok own before funs₀) →
          Inlines C fuel calls own before st st' stmts stmts'
  | [], _, _, _, h, _, _ => by
    cases h
    exact .nil
  | s :: stmts, _, _, _, h, hCovers, hSites => by
    simp only [Stmt.inlineList, Option.bind_eq_bind, Option.bind_eq_some_iff] at h
    obtain ⟨⟨s', st₁⟩, hOne, ⟨stmts', st₂⟩, hRest, h⟩ := h
    cases h
    simp only [Stmt.callSitesList, List.forall_mem_append] at hSites
    have hFirst := Stmt.inlines hKnown hWithin hGlobals hOne hCovers hSites.1
    exact hFirst.cons (Stmt.inlines_list hKnown hWithin hGlobals hRest
      (hCovers.mono hFirst.grows) hSites.2)

/-- The same for the bodies that are put back one by one. -/
theorem Stmt.inlines_each (hKnown : Known C fuel globals funs funs₀ calls)
    (hWithin : calls.Within globals) (hGlobals : ∀ x ∈ globals, x ∈ own) :
    ∀ {stmts : List Stmt} {st st' : Identifiers} {stmts' : List Stmt},
      Stmt.inlineEach funs stmts st = some (stmts', st') → st.Covers own before funs →
        (∀ c ∈ Stmt.callSitesList stmts, c.Ok own before funs₀) →
          Inlines C fuel calls own before st st' stmts stmts'
  | [], _, _, _, h, _, _ => by
    cases h
    exact .nil
  | s :: stmts, _, _, _, h, hCovers, hSites => by
    simp only [Stmt.inlineEach, Option.bind_eq_bind, Option.bind_eq_some_iff] at h
    obtain ⟨⟨s', st₁⟩, hOne, ⟨stmts', st₂⟩, hRest, s'', hSingle, h⟩ := h
    cases h
    obtain rfl := Stmt.one_eq_some hSingle
    simp only [Stmt.callSitesList, List.forall_mem_append] at hSites
    have hFirst := Stmt.inlines hKnown hWithin hGlobals hOne hCovers hSites.1
    exact hFirst.cons (Stmt.inlines_each hKnown hWithin hGlobals hRest
      (hCovers.mono hFirst.grows) hSites.2)

end

end Statements

-- ---------------------------------------------------------------------------
-- A file
-- ---------------------------------------------------------------------------

section CallSites

/-- The variables of a call are mentioned by its declaration. -/
theorem Decl.mem_of_callSites {d : Decl} {c : CallSite} (hc : c ∈ d.callSites) {x : String}
    (hx : x ∈ Expr.idsList c.args ++ c.target) : x ∈ d.mentions := by
  rw [Decl.callSites] at hc
  split at hc
  · next name args hInit =>
    obtain rfl := List.mem_singleton.mp hc
    simp only [List.mem_append, List.mem_singleton] at hx
    simp only [Decl.mentions, hInit, Option.elim_some, Expr.mentions, List.mem_cons,
      List.mem_append]
    tauto
  · cases hc

/-- The variables of a call are mentioned by its expression. -/
theorem Expr.mem_of_callSites {e : Expr} {c : CallSite} (hc : c ∈ e.callSites) {x : String}
    (hx : x ∈ Expr.idsList c.args ++ c.target) : x ∈ e.mentions := by
  rw [Expr.callSites.eq_def] at hc
  split at hc
  · obtain rfl := List.mem_singleton.mp hc
    simpa [Expr.mentions] using hx
  · obtain rfl := List.mem_singleton.mp hc
    simpa [Expr.mentions, or_comm] using hx
  · cases hc

/-- The variables of a call are mentioned by its `return`. -/
theorem mem_of_returnCallSites {e : Option Expr} {c : CallSite} (hc : c ∈ returnCallSites e)
    {x : String} (hx : x ∈ Expr.idsList c.args ++ c.target) : x ∈ e.elim [] Expr.mentions := by
  rw [returnCallSites.eq_def] at hc
  split at hc
  · obtain rfl := List.mem_singleton.mp hc
    simpa [Expr.mentions] using hx
  · cases hc

mutual

/-- The variables in a call are declared in the statement or mentioned by it. -/
theorem Stmt.mem_of_callSites : ∀ {s : Stmt} {c : CallSite}, c ∈ s.callSites → ∀ {x : String},
    x ∈ Expr.idsList c.args ++ c.target → x ∈ s.free ∨ x ∈ s.declNames
  | .decl _, _, hc, _, hx => .inl (Decl.mem_of_callSites hc hx)
  | .expr _, _, hc, _, hx => .inl (Expr.mem_of_callSites hc hx)
  | .ret _, _, hc, _, hx => .inl (mem_of_returnCallSites hc hx)
  | .compound items, _, hc, x, hx => by
    by_cases hName : x ∈ blockNames items
    · exact .inr (mem_declNames_of_mem_blockNames hName)
    · refine (Stmt.mem_of_callSitesList (show _ ∈ Stmt.callSitesList items from hc) hx).imp_left
        fun h => ?_
      exact List.mem_filter.mpr ⟨h, by simpa using hName⟩
  | .forLoop init cond next stmt, _, hc, x, hx => by
    by_cases hName : x ∈ init.decls.map Decl.name
    · exact .inr (List.mem_append_left _ hName)
    · refine (Stmt.mem_of_callSites (s := stmt) hc hx).imp (fun h => ?_) (List.mem_append_right _)
      exact List.mem_filter.mpr ⟨by simp [h], by simpa using hName⟩
  | .ifElse _ iftrue none, _, hc, _, hx =>
    (Stmt.mem_of_callSites (s := iftrue) hc hx).imp_left (List.mem_append_right _)
  | .ifElse cond iftrue (some iffalse), _, hc, x, hx => by
    rcases List.mem_append.mp hc with hc | hc
    · exact (Stmt.mem_of_callSites hc hx).imp
        (fun h => List.mem_append_right _ (List.mem_append_left _ h)) (List.mem_append_left _)
    · exact (Stmt.mem_of_callSites hc hx).imp
        (fun h => List.mem_append_right _ (List.mem_append_right _ h)) (List.mem_append_right _)
  | .whileLoop _ stmt, _, hc, _, hx | .doWhile _ stmt, _, hc, _, hx
  | .switch _ stmt, _, hc, _, hx =>
    (Stmt.mem_of_callSites (s := stmt) hc hx).imp_left (List.mem_append_right _)
  | .label _ stmt, _, hc, _, hx => Stmt.mem_of_callSites (s := stmt) hc hx
  | .case _ stmts, _, hc, _, hx =>
    (Stmt.mem_of_callSitesList (show _ ∈ Stmt.callSitesList stmts from hc) hx).imp_left
      (List.mem_append_right _)
  | .default stmts, _, hc, _, hx =>
    Stmt.mem_of_callSitesList (show _ ∈ Stmt.callSitesList stmts from hc) hx

/-- The variables of a call in a list are free or declared in the list. -/
theorem Stmt.mem_of_callSitesList :
    ∀ {stmts : List Stmt} {c : CallSite}, c ∈ Stmt.callSitesList stmts →
    ∀ {x : String}, x ∈ Expr.idsList c.args ++ c.target →
      x ∈ Stmt.freeList stmts ∨ x ∈ Stmt.declNamesList stmts
  | s :: stmts, _, hc, x, hx => by
    rcases List.mem_append.mp hc with hc | hc
    · exact (Stmt.mem_of_callSites hc hx).imp (List.mem_append_left _) (List.mem_append_left _)
    · exact (Stmt.mem_of_callSitesList hc hx).imp (List.mem_append_right _)
        (List.mem_append_right _)

end

end CallSites

/-- The variables of the functions. -/
def FileAST.funNames (ast : FileAST) : List String :=
  ast.flatMap fun ext => match ext with
    | .funcDef name params body => FunDef.inner ⟨name, params, body⟩
    | _ => []

/-- Functions that have been worked off, each with those before it. -/
inductive Worked {V M : Type} (C : CMachine V M) (fuel : Nat) (globals : List String) :
    List FunDef → List FunDef → Prop
  | nil : Worked C fuel globals [] []
  | cons {fn fn₀ : FunDef} {funs funs₀ : List FunDef} (h : Worked C fuel globals funs funs₀)
      (hName : fn.name = fn₀.name)
      (hMatches : fn.Matches C fuel (callsOf C fuel globals funs₀) globals fn₀) :
      Worked C fuel globals (fn :: funs) (fn₀ :: funs₀)

section Files

variable {V M : Type} {C : CMachine V M} {fuel : Nat} {globals : List String}
variable {funs funs₀ : List FunDef} {own before : List String} {st st' : Identifiers}

/-- Functions that are worked out so far are known. -/
theorem Worked.known (h : Worked C fuel globals funs funs₀) :
    Known C fuel globals funs funs₀ (callsOf C fuel globals funs₀) := by
  intro f fn hFind
  induction h with
  | nil => cases hFind
  | @cons fn' fn₀ funs funs₀ _ hName hMatches ih =>
    by_cases hf : fn₀.name = f
    · rw [List.find?_cons_of_pos (by simp [hName, hf])] at hFind
      obtain rfl := Option.some.inj hFind
      exact ⟨fn₀, _, List.find?_cons_of_pos (by simp [hf]), fun vals => by rw [callsOf, if_pos hf],
        hMatches⟩
    · rw [List.find?_cons_of_neg (by simp [hName, hf])] at hFind
      obtain ⟨fn₁, calls₁, hFind₁, hCall, hMatches₁⟩ := ih hFind
      refine ⟨fn₁, calls₁, ?_, fun vals => by rw [callsOf, if_neg hf, hCall], hMatches₁⟩
      rw [List.find?_cons_of_neg (by simp [hf]), hFind₁]

/-- A function is worked off after those before it. -/
theorem FunDef.worked (hWorked : Worked C fuel globals funs funs₀)
    (hCovers : st.Covers own before funs) (hGlobals : ∀ x ∈ globals, x ∈ own ∧ x ∉ before)
    {fn₀ : FunDef} {body : List Stmt} (h : Stmt.inlineList funs fn₀.body st = some (body, st'))
    (hInner : ∀ x ∈ fn₀.inner, x ∈ own ∧ x ∉ before ∧ x ∉ globals)
    (hClosed : ∀ x ∈ Stmt.freeList fn₀.body, x ∈ fn₀.locals ∨ x ∈ globals)
    (hFits : ∀ c ∈ Stmt.callSitesList fn₀.body, c.fits funs₀ = true) :
    Worked C fuel globals ({ fn₀ with body := body } :: funs) (fn₀ :: funs₀) ∧
      st'.Covers own (fn₀.inner ++ before) ({ fn₀ with body := body } :: funs) := by
  have hWithin := callsOf_within C fuel globals funs₀
  have hSites : ∀ c ∈ Stmt.callSitesList fn₀.body, c.Ok own before funs₀ := fun c hc => by
    refine ⟨hFits c hc, fun x hx => ?_⟩
    rcases Stmt.mem_of_callSitesList hc hx with hFree | hDecl
    · rcases hClosed x hFree with hLocal | hGlobal
      · exact (hInner x (FunDef.mem_inner_of_mem_locals hLocal)).imp_right And.left
      · exact hGlobals x hGlobal
    · exact (hInner x (List.mem_append_right _ hDecl)).imp_right And.left
  have hBody := Stmt.inlines_list hWorked.known hWithin
    (fun x hx => (hGlobals x hx).1) h hCovers hSites
  have hWider {x : String} (hx : Inner own before st' x) : Inner own (fn₀.inner ++ before) st' x :=
    ⟨hx.1, fun hOwn => List.mem_append_right _ (hx.2 hOwn)⟩
  have hMine {x : String} (hx : x ∈ fn₀.inner) : Inner own (fn₀.inner ++ before) st' x :=
    ⟨hBody.grows x (hCovers.taken x (hInner x hx).1), fun _ => List.mem_append_left _ hx⟩
  refine ⟨.cons hWorked rfl ⟨rfl, hBody.names, hBody.exec, hBody.atEnd, hWithin, hClosed,
    fun x hx => (hInner x (FunDef.mem_inner_of_mem_locals hx)).2.2⟩,
      fun x hx => hBody.grows x (hCovers.taken x hx), fun fn hFn x hx => ?_⟩
  rcases List.mem_cons.mp hFn with rfl | hFn
  · rcases List.mem_append.mp hx with hx | hx
    · exact hMine (List.mem_append_left _ hx)
    · exact (hBody.declared x hx).elim (fun hx => hMine (List.mem_append_right _ hx)) hWider
  · exact hWider ((hCovers.mono hBody.grows).inner fn hFn x hx)

/-- The functions after some others fit if all do. -/
theorem callsFit_append {done rest : List FunDef} (h : callsFit (done ++ rest) = true) :
    callsFit rest = true := by
  induction done with
  | nil => exact h
  | cons fn done ih =>
    rw [List.cons_append, callsFit, Bool.and_eq_true] at h
    exact ih h.2

/-- A function is appended to the ones before it. -/
theorem FileAST.funDefs_cons_funcDef (name : String) (params : List Decl) (body : List Stmt)
    (exts : FileAST) :
    FileAST.funDefs (.funcDef name params body :: exts) =
      exts.funDefs ++ [⟨name, params, body⟩] := by
  rw [FileAST.funDefs, List.filterMap_cons]
  exact List.reverse_cons

/-- What `inline` has after the last declaration of the file. -/
theorem inlineExts_worked {ast newExts : FileAST} {funs' : List FunDef}
    (h : inlineExts ast funs st = some (newExts, funs'))
    (hWorked : Worked C fuel globals funs funs₀) (hCovers : st.Covers own before funs)
    (hGlobals : ∀ x ∈ globals, x ∈ own ∧ x ∉ before)
    (hNames : ∀ x ∈ ast.funNames, x ∈ own ∧ x ∉ before ∧ x ∉ globals) (hNodup : ast.funNames.Nodup)
    (hClosed : ∀ fn ∈ ast.funDefs, ∀ x ∈ Stmt.freeList fn.body, x ∈ fn.locals ∨ x ∈ globals)
    (hFits : callsFit (ast.funDefs ++ funs₀) = true) :
    Worked C fuel globals funs' (ast.funDefs ++ funs₀) ∧ newExts.globals = ast.globals ∧
      newExts.funDefs = [] ∧ newExts.declareAll C = ast.declareAll C := by
  -- along the file: each function is inlined with the bodies of those before it
  induction ast generalizing newExts funs funs₀ before st with
  | nil =>
    cases h
    exact ⟨hWorked, rfl, rfl, rfl⟩
  | cons ext exts ih =>
    cases ext with
    | funcDef name params body =>
      simp only [inlineExts, Option.bind_eq_bind, Option.bind_eq_some_iff] at h
      obtain ⟨⟨body', st₁⟩, hBody, h⟩ := h
      have hInner : ∀ x ∈ FunDef.inner ⟨name, params, body⟩, x ∈ own ∧ x ∉ before ∧ x ∉ globals :=
        fun x hx => hNames x (List.mem_append_left _ hx)
      obtain ⟨-, hNodupRest, hDisjoint⟩ := List.nodup_append.mp hNodup
      rw [FileAST.funDefs_cons_funcDef, List.append_assoc, List.singleton_append] at hFits
      rw [FileAST.funDefs_cons_funcDef, List.forall_mem_append] at hClosed
      have hFirst := callsFit_append hFits
      rw [callsFit, Bool.and_eq_true, List.all_eq_true] at hFirst
      obtain ⟨hWorked₁, hCovers₁⟩ := FunDef.worked hWorked hCovers hGlobals hBody hInner
        (hClosed.2 _ List.mem_cons_self) hFirst.1
      -- the names of this function are now among those of the functions before
      have hRest := ih h hWorked₁ hCovers₁
        (fun x hx => ⟨(hGlobals x hx).1, fun hMem => (List.mem_append.mp hMem).elim
          (fun hMine => (hInner x hMine).2.2 hx) (hGlobals x hx).2⟩)
        (fun x hx => by
          obtain ⟨hOwn, hBefore, hGlobal⟩ := hNames x (List.mem_append_right _ hx)
          exact ⟨hOwn, fun hMem => (List.mem_append.mp hMem).elim
            (fun hMine => hDisjoint x hMine x hx rfl) hBefore, hGlobal⟩)
        hNodupRest hClosed.1 hFits
      rw [FileAST.funDefs_cons_funcDef, List.append_assoc, List.singleton_append]
      exact hRest
    | decl d =>
      simp only [inlineExts, Option.bind_eq_bind, Option.bind_eq_some_iff] at h
      obtain ⟨⟨rest, funs₁⟩, hRest, h⟩ := h
      cases h
      obtain ⟨hWorked', hGlobals', hFuns, hAll⟩ :=
        ih hRest hWorked hCovers hGlobals hNames hNodup hClosed hFits
      exact ⟨hWorked', congrArg (d.name :: ·) hGlobals', hFuns,
        congrArg (fun m => C.declare d >>= fun _ => m) hAll⟩
    | funcDecl name params =>
      simp only [inlineExts, Option.bind_eq_bind, Option.bind_eq_some_iff] at h
      obtain ⟨⟨rest, funs₁⟩, hRest, h⟩ := h
      cases h
      obtain ⟨hWorked', hGlobals', hFuns, hAll⟩ :=
        ih hRest hWorked hCovers hGlobals hNames hNodup hClosed hFits
      exact ⟨hWorked', hGlobals', hFuns, hAll⟩

end Files

/-- The variables of the functions are not global. -/
theorem FileAST.funNames_apart {ast : FileAST} (h : ast.declNames.Nodup) :
    ast.funNames.Nodup ∧ (∀ x ∈ ast.funNames, x ∈ ast.declNames ∧ x ∉ ast.globals) ∧
      ∀ x ∈ ast.globals, x ∈ ast.declNames := by
  induction ast with
  | nil => exact ⟨.nil, nofun, nofun⟩
  | cons ext exts ih =>
    obtain ⟨hExt, hExts, hDisjoint⟩ := List.nodup_append.mp h
    obtain ⟨hNodup, hNames, hGlobals⟩ := ih hExts
    have hLater {x : String} (hx : x ∈ FileAST.declNames exts) :
        x ∈ FileAST.declNames (ext :: exts) :=
      List.mem_append_right _ hx
    cases ext with
    | decl d =>
      refine ⟨hNodup, fun x hx => ⟨hLater (hNames x hx).1, fun hGlobal => ?_⟩, fun x hx => ?_⟩
      · rcases List.mem_cons.mp hGlobal with rfl | hGlobal
        · exact hDisjoint d.name List.mem_cons_self d.name (hNames d.name hx).1 rfl
        · exact (hNames x hx).2 hGlobal
      · exact (List.mem_cons.mp hx).elim (fun hx => hx ▸ List.mem_cons_self) fun hx =>
          hLater (hGlobals x hx)
    | funcDecl name params =>
      exact ⟨hNodup, fun x hx => ⟨hLater (hNames x hx).1, (hNames x hx).2⟩,
        fun x hx => hLater (hGlobals x hx)⟩
    | funcDef name params body =>
      have hInner : (FunDef.inner ⟨name, params, body⟩).Nodup := (List.nodup_cons.mp hExt).2
      have hMem {x : String} (hx : x ∈ FunDef.inner ⟨name, params, body⟩) :
          x ∈ ExtDecl.declNames (.funcDef name params body) := List.mem_cons_of_mem _ hx
      refine ⟨List.nodup_append.mpr ⟨hInner, hNodup, fun x hx y hy =>
          hDisjoint x (hMem hx) y (hNames y hy).1⟩, fun x hx => ?_,
            fun x hx => hLater (hGlobals x hx)⟩
      rcases List.mem_append.mp hx with hx | hx
      · exact ⟨List.mem_append_left _ (hMem hx), fun hGlobal =>
          hDisjoint x (hMem hx) x (hGlobals x hGlobal) rfl⟩
      · exact ⟨hLater (hNames x hx).1, (hNames x hx).2⟩

/-- A function before whose end there are only declarations. -/
theorem FileAST.run_append_funcDef {V M : Type} (C : CMachine V M) (fuel : Nat) {exts : FileAST}
    (hFuns : exts.funDefs = []) (fn : FunDef) (vals : List V) :
    FileAST.run C fuel (exts ++ [.funcDef fn.name fn.params fn.body]) vals =
      (do
        exts.declareAll C
        fn.run C fuel noCalls exts.globals vals) := by
  have hOne : FileAST.funDefs (exts ++ [.funcDef fn.name fn.params fn.body]) = [fn] := by
    rw [FileAST.funDefs, List.filterMap_append, List.reverse_append]
    exact congrArg ([fn] ++ ·) hFuns
  have hGlobals : FileAST.globals (exts ++ [.funcDef fn.name fn.params fn.body]) =
      exts.globals := by
    rw [FileAST.globals, List.filterMap_append]
    exact List.append_nil _
  have hAll : FileAST.declareAll C (exts ++ [.funcDef fn.name fn.params fn.body]) =
      exts.declareAll C := by
    exact List.forM_append.trans bind_pure_unit
  rw [FileAST.run, hOne, hGlobals, hAll]
  rfl

/-- Inlining keeps what the last function of a file does: for every language and from every state
the file has a result with the one function that is left exactly when it had one, and the same. -/
theorem inline_run {ast ast' : FileAST} {st : Identifiers} (h : inline ast st = some ast')
    (hAST : ast.Inlinable st) {V M : Type} (C : CMachine V M) (fuel : Nat) (vals : List V) :
    ast'.run C fuel vals = ast.run C fuel vals := by
  simp only [inline, Option.bind_eq_bind, Option.bind_eq_some_iff] at h
  obtain ⟨⟨newExts, funs'⟩, hExts, lastFun, hLast, h⟩ := h
  cases h
  obtain ⟨hNodup, hNames, hOwn⟩ := FileAST.funNames_apart hAST.distinct
  obtain ⟨hWorked, hGlobals, hFuns, hAll⟩ := inlineExts_worked hExts
    (Worked.nil : Worked C fuel ast.globals [] []) ⟨hAST.known, nofun⟩
    (fun x hx => ⟨hOwn x hx, List.not_mem_nil⟩)
    (fun x hx => ⟨(hNames x hx).1, List.not_mem_nil, (hNames x hx).2⟩) hNodup hAST.closed
    (by rw [List.append_nil]; exact hAST.fits)
  rw [FileAST.run_append_funcDef C fuel hFuns, hGlobals, hAll, FileAST.run]
  rw [List.append_nil] at hWorked
  generalize ast.funDefs = funDefs at hWorked ⊢
  cases hWorked with
  | nil => cases hLast
  | cons hRest hName hMatches =>
    obtain rfl := Option.some.inj hLast
    refine bind_congr fun _ => ?_
    unfold FunDef.run
    rw [hMatches.params, hMatches.body]

/-- Words, and a memory that only grows. An array comes without an initializer. -/
def flatMachine : CMachine Word (List Word) where
  constant value := BitVec.ofInt 32 value
  isTrue w := w ≠ 0
  unary op w := match op with
    | .plus => some w
    | .minus => some (-w)
    | .not => some (~~~w)
    | .lnot => some (if w = 0 then 1 else 0)
    | _ => none
  binary := BinOp.eval
  aggregate words := words.headD 0
  element a k := some (a + k)
  load a μ := μ[a.toNat]?
  store a w μ := if a.toNat < μ.length then some (μ.set a.toNat w) else none
  allocate _ dims init μ := match init with
    | none => some (BitVec.ofNat 32 μ.length, μ ++ List.replicate (dims.map BitVec.toNat).prod 0)
    | some _ => none

def pairType : DeclType := .arrayDecl unsignedInt (some (.constant 2))

/-- `int sum(int v[2]) {return v[0] + v[1];}` and `int twice(int x, int y) {int a[2]; a[0] = x;
a[1] = y; int s = sum(a); a[0] = s; return sum(a);}` -/
def sumTwice : FileAST :=
  [.funcDef "sum" [⟨"v", [], pairType, none⟩]
    [.ret (some (.binaryOp .add (.arrayRef (.id "v") (.constant 0))
      (.arrayRef (.id "v") (.constant 1))))],
   .funcDef "twice" [⟨"x", [], unsignedInt, none⟩, ⟨"y", [], unsignedInt, none⟩]
    [.decl ⟨"a", [], pairType, none⟩,
     .expr (.assignment none (.arrayRef (.id "a") (.constant 0)) (.id "x")),
     .expr (.assignment none (.arrayRef (.id "a") (.constant 1)) (.id "y")),
     .decl ⟨"s", [], unsignedInt, some (.funcCall (.id "sum") [.id "a"])⟩,
     .expr (.assignment none (.arrayRef (.id "a") (.constant 0)) (.id "s")),
     .ret (some (.funcCall (.id "sum") [.id "a"]))]]

def sumTwiceIdents : Identifiers := ⟨["sum", "v", "twice", "x", "y", "a", "s", "ret_0"], []⟩

/-- The block of a call, and the assignment in it. -/
def sumBlock (returnVar : String) : Stmt :=
  .compound [.decl ⟨"v", [], pairType, some (.id "a")⟩,
    .expr (.assignment none (.id returnVar)
      (.binaryOp .add (.arrayRef (.id "v") (.constant 0)) (.arrayRef (.id "v") (.constant 1))))]

def sumTwiceInlined : FileAST :=
  [.funcDef "twice" [⟨"x", [], unsignedInt, none⟩, ⟨"y", [], unsignedInt, none⟩]
    [.decl ⟨"a", [], pairType, none⟩,
     .expr (.assignment none (.arrayRef (.id "a") (.constant 0)) (.id "x")),
     .expr (.assignment none (.arrayRef (.id "a") (.constant 1)) (.id "y")),
     .decl ⟨"s", [], unsignedInt, none⟩, sumBlock "s",
     .expr (.assignment none (.arrayRef (.id "a") (.constant 0)) (.id "s")),
     .compound [.decl ⟨"ret_1", [], unsignedInt, none⟩, sumBlock "ret_1",
       .ret (some (.id "ret_1"))]]]

/-- The example meets the conditions. -/
theorem sumTwice_inlinable : sumTwice.Inlinable sumTwiceIdents where
  distinct := by decide
  known := by decide
  closed := by decide
  fits := by decide

/-- The array is passed by reference; both calls see what was assigned to it. -/
theorem inline_run_sumTwice :
    ((sumTwiceInlined.run flatMachine 0 [3, 4]).run ⟨fun _ => none, []⟩).map Prod.fst =
      some (some 11) := by
  have hInline : inline sumTwice sumTwiceIdents = some sumTwiceInlined := rfl
  rw [inline_run hInline sumTwice_inlinable]
  decide

end Obscure
