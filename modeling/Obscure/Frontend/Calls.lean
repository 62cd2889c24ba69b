import Obscure.Frontend.Inliner
import Obscure.Frontend.SideEffects
import Obscure.Lib.Partial

/-!
# OBSCURE — the meaning of functions

C with functions, arrays, blocks and loops, for the passes that work on all functions of a file.
Values, operators and memory are whatever the language says; an array is known by its address, so
that passing it to a function is passing a value. All scalars are of one type, as for the compiler.

A call is evaluated in the four places that the inliner knows and nowhere else. The variables of a
block have no value when it is entered. A loop goes round so many times at most; `switch`, labels
and jumps have no meaning.

* `CMachine.commutes_exec` — a statement does not depend on variables that it does not mention,
  and leaves them alone.
-/

namespace Obscure

open Lib

/-- The values, operators and memory of the language. -/
structure CMachine (V M : Type) where
  constant : Int → V
  isTrue : V → Bool
  unary : UnOp → V → Option V
  binary : BinOp → V → V → Option V
  /-- A list in braces. -/
  aggregate : List V → V
  /-- The address of an element. -/
  element : V → V → Option V
  load : V → M → Option V
  store : V → V → M → Option M
  /-- A new array, given its type, the values of its dimensions and what it contains. -/
  allocate : DeclType → List V → Option V → M → Option (V × M)

/-- The variables, and the memory. -/
structure CFrame (V M : Type) where
  env : String → Option V
  memory : M

/-- What can be assigned to. -/
inductive CPlace (V : Type) where
  | var (x : String)
  | cell (address : V)

namespace CFrame

variable {V M α : Type}

def set (σ : CFrame V M) (x : String) (v : V) : CFrame V M :=
  { σ with env := Function.update σ.env x (some v) }

/-- The variables that are kept, and those of another environment. -/
def merge (keep : String → Bool) (env : String → Option V) (σ : CFrame V M) : CFrame V M :=
  { σ with env := fun x => if keep x then σ.env x else env x }

def clear (x : String) (σ : CFrame V M) : CFrame V M := σ.merge (· ≠ x) fun _ => none

/-- Run with no other variables than those that are kept. The others are back afterwards. -/
def scope (keep : String → Bool) (m : StateT (CFrame V M) Option α) :
    StateT (CFrame V M) Option α :=
  fun σ => (m.run (σ.merge keep fun _ => none)).map fun out => (out.1, out.2.merge keep σ.env)

/-- The values of the parameters. -/
def bind (params : List Decl) (vals : List V) (σ : CFrame V M) : CFrame V M :=
  (params.zip vals).foldl (fun σ p => σ.set p.1.name p.2) σ

end CFrame

def CPlace.address? {V : Type} : CPlace V → Option V
  | .var _ => none
  | .cell a => some a

def DeclType.dims : DeclType → List Expr
  | .typeDecl _ => []
  | .ptrDecl _ => []
  | .arrayDecl type dim => dim.toList ++ type.dims

def Expr.isInitList : Expr → Bool
  | .initList _ => true
  | _ => false

/-- An array that is declared with the name of another is no new one. -/
def Decl.allocates (d : Decl) : Bool :=
  match d.type with
  | .arrayDecl .. => d.init.all Expr.isInitList
  | _ => false

namespace CMachine

variable {V M : Type} (C : CMachine V M)

-- ---------------------------------------------------------------------------
-- Expressions
-- ---------------------------------------------------------------------------

def ofBool (b : Bool) : V := C.constant (if b then 1 else 0)

/-- The value that the left operand of `&&` and `||` may decide. -/
def decided (op : BinOp) (a : V) : Option V :=
  match op with
  | .land => if C.isTrue a then none else some (C.ofBool false)
  | .lor => if C.isTrue a then some (C.ofBool true) else none
  | _ => none

/-- An operator on the values of both operands. -/
def combine (op : BinOp) (a b : V) : Option V :=
  if op.isLogical then some (C.ofBool (C.isTrue b)) else C.binary op a b

def read : CPlace V → StateT (CFrame V M) Option V
  | .var x => fun σ => (σ.env x).map fun v => (v, σ)
  | .cell a => fun σ => (C.load a σ.memory).map fun v => (v, σ)

def write : CPlace V → V → StateT (CFrame V M) Option Unit
  | .var x, v => modify (·.set x v)
  | .cell a, v => fun σ => (C.store a v σ.memory).map fun μ => ((), { σ with memory := μ })

/-- What a compound assignment puts in place of the old value. -/
def updated (op : Option BinOp) (p : CPlace V) (v : V) : StateT (CFrame V M) Option V :=
  match op with
  | none => pure v
  | some op => do C.combine op (← C.read p) v

mutual

/-- The value of an expression. The right side of an assignment comes first. -/
def evaluate : Expr → StateT (CFrame V M) Option V
  | .id x => C.read (.var x)
  | .constant value => pure (C.constant value)
  | .arrayRef name subscript => do
    let a ← evaluate name
    let k ← evaluate subscript
    C.read (.cell (← C.element a k))
  | .unaryOp op e =>
    match op, op.step? with
    | .addressOf, _ => do (← place e).address?
    | .deref, _ => do C.read (.cell (← evaluate e))
    | op, none => do C.unary op (← evaluate e)
    | op, some step => do
      let p ← place e
      let old ← C.read p
      let new ← C.combine step old (C.constant 1)
      C.write p new
      return if op.isPostfix then old else new
  | .binaryOp op left right => do
    let a ← evaluate left
    match C.decided op a with
    | some v => return v
    | none => do C.combine op a (← evaluate right)
  | .ternaryOp cond iftrue iffalse => do
    if C.isTrue (← evaluate cond) then evaluate iftrue else evaluate iffalse
  | .assignment op lvalue rvalue => do
    let v ← evaluate rvalue
    let p ← place lvalue
    let new ← C.updated op p v
    C.write p new
    return new
  | .funcCall .. => failure
  | .exprList exprs => do (← evaluateList exprs).getLast?
  | .initList exprs => do return C.aggregate (← evaluateList exprs)

def place : Expr → StateT (CFrame V M) Option (CPlace V)
  | .id x => pure (.var x)
  | .arrayRef name subscript => do
    let a ← evaluate name
    let k ← evaluate subscript
    return .cell (← C.element a k)
  | .unaryOp .deref e => do return .cell (← evaluate e)
  | _ => failure

def evaluateList : List Expr → StateT (CFrame V M) Option (List V)
  | [] => pure []
  | e :: exprs => do
    let v ← evaluate e
    return v :: (← evaluateList exprs)

end

/-- `=`. -/
def assign (lvalue : Expr) (v : V) : StateT (CFrame V M) Option Unit := do
  C.write (← C.place lvalue) v

-- ---------------------------------------------------------------------------
-- Statements
-- ---------------------------------------------------------------------------

def initial : Option Expr → StateT (CFrame V M) Option (Option V)
  | none => pure none
  | some e => some <$> C.evaluate e

/-- A new array is bound to its name. -/
def create (d : Decl) (dims : List V) (init : Option V) : StateT (CFrame V M) Option Unit :=
  fun σ => (C.allocate d.type dims init σ.memory).map fun new =>
    ((), CFrame.set { σ with memory := new.2 } d.name new.1)

/-- A declaration. -/
def declare (d : Decl) : StateT (CFrame V M) Option Unit := do
  modify (CFrame.clear d.name)
  if d.allocates then
    let dims ← C.evaluateList d.type.dims
    let init ← C.initial d.init
    C.create d dims init
  else
    match ← C.initial d.init with
    | none => return ()
    | some v => modify (·.set d.name v)

/-- The controlling expression of a loop or an `if`. -/
def holds (e : Expr) : StateT (CFrame V M) Option Bool := C.isTrue <$> C.evaluate e

/-- That of a `for`, which may be missing. -/
def test : Option Expr → StateT (CFrame V M) Option Bool
  | none => pure true
  | some e => C.holds e

/-- An expression for its side effects. -/
def discard (e : Expr) : StateT (CFrame V M) Option Unit := (fun _ => ()) <$> C.evaluate e

def start : ForInit → StateT (CFrame V M) Option Unit
  | .none => pure ()
  | .expr e => C.discard e
  | .declList decls => decls.forM C.declare

def step : Option Expr → StateT (CFrame V M) Option Unit
  | none => pure ()
  | some e => C.discard e

end CMachine

/-- What functions do: the value that they return, if they do, and the frame of the caller after
that. -/
abbrev CCalls (V M : Type) := String → List V → StateT (CFrame V M) Option (Option V)

namespace CMachine

variable {V M : Type} (C : CMachine V M) (fuel : Nat) (calls : CCalls V M)

/-- A call. -/
def call (name : Expr) (args : List Expr) : StateT (CFrame V M) Option (Option V) :=
  match name with
  | .id f => do calls f (← C.evaluateList args)
  | _ => failure

/-- The value of a call; that of a `void` function has none. -/
def callValue (name : Expr) (args : List Expr) : StateT (CFrame V M) Option V := do
  (← C.call calls name args)

/-- A declaration in a block. -/
def execDecl (d : Decl) : StateT (CFrame V M) Option Unit :=
  match d.init with
  | some (.funcCall name args) => do
    modify (CFrame.clear d.name)
    let v ← C.callValue calls name args
    modify (·.set d.name v)
  | _ => C.declare d

/-- An expression statement. -/
def execExpr : Expr → StateT (CFrame V M) Option Unit
  | .funcCall name args => (fun _ => ()) <$> C.call calls name args
  | .assignment none lvalue (.funcCall name args) => do
    C.assign lvalue (← C.callValue calls name args)
  | e => C.discard e

/-- The value of a `return`. -/
def execReturn : Option Expr → StateT (CFrame V M) Option (Option V)
  | some (.funcCall name args) => some <$> C.callValue calls name args
  | e => C.initial e

mutual

/-- A statement. There is a result if it returns: the value that it returns, if any. -/
def exec : Stmt → StateT (CFrame V M) Option (Option (Option V))
  | .decl d => (fun _ => none) <$> C.execDecl calls d
  | .expr e => (fun _ => none) <$> C.execExpr calls e
  | .ret e => some <$> C.execReturn calls e
  | .compound items => CFrame.scope (· ∉ blockNames items) (execList items)
  | .forLoop init cond next stmt =>
    CFrame.scope (· ∉ init.decls.map Decl.name) do
      C.start init
      rounds (C.test cond) (exec stmt) (C.step next) fuel
  | .whileLoop cond stmt => rounds (C.holds cond) (exec stmt) (pure ()) fuel
  | .doWhile cond stmt => do
    match ← exec stmt with
    | some r => return some r
    | none => rounds (C.holds cond) (exec stmt) (pure ()) fuel
  | .ifElse cond iftrue none => do if ← C.holds cond then exec iftrue else return none
  | .ifElse cond iftrue (some iffalse) => do
    if ← C.holds cond then exec iftrue else exec iffalse
  | .emptyStatement => return none
  | _ => failure

def execList : List Stmt → StateT (CFrame V M) Option (Option (Option V))
  | [] => return none
  | s :: stmts => do
    match ← exec s with
    | some r => return some r
    | none => execList stmts

end

end CMachine

-- ---------------------------------------------------------------------------
-- What is mentioned
-- ---------------------------------------------------------------------------

/-- The variables of an expression in a place where a call may be. -/
def Expr.mentions : Expr → List String
  | .funcCall _ args => Expr.idsList args
  | .assignment _ lvalue (.funcCall _ args) => lvalue.ids ++ Expr.idsList args
  | e => e.ids

def Decl.mentions (d : Decl) : List String :=
  d.name :: (Expr.idsList d.type.dims ++ d.init.elim [] Expr.mentions)

def ForInit.mentions : ForInit → List String
  | .none => []
  | .expr e => e.ids
  | .declList decls => decls.flatMap Decl.mentions

def optIds (e : Option Expr) : List String := e.elim [] Expr.ids

mutual

/-- The variables that a statement mentions, other than those of its blocks. -/
def Stmt.free : Stmt → List String
  | .decl d => d.mentions
  | .expr e => e.mentions
  | .ret e => e.elim [] Expr.mentions
  | .compound items => (Stmt.freeList items).filter (· ∉ blockNames items)
  | .forLoop init cond next stmt =>
    (init.mentions ++ (optIds cond ++ (optIds next ++ stmt.free))).filter
      (· ∉ init.decls.map Decl.name)
  | .ifElse cond iftrue none => cond.ids ++ iftrue.free
  | .ifElse cond iftrue (some iffalse) => cond.ids ++ (iftrue.free ++ iffalse.free)
  | .whileLoop cond stmt | .doWhile cond stmt | .switch cond stmt => cond.ids ++ stmt.free
  | .case e stmts => e.ids ++ Stmt.freeList stmts
  | .default stmts => Stmt.freeList stmts
  | .label _ stmt => stmt.free
  | .goto _ | .breakStmt | .continueStmt | .emptyStatement => []

def Stmt.freeList : List Stmt → List String
  | [] => []
  | s :: stmts => s.free ++ Stmt.freeList stmts

end

-- ---------------------------------------------------------------------------
-- Variables that are not mentioned
-- ---------------------------------------------------------------------------

section Commutes

variable {V M α : Type} {keep : String → Bool} {env : String → Option V}

/-- Whether a place is a variable that is not kept. -/
def CPlace.Kept (keep : String → Bool) : CPlace V → Prop
  | .var x => keep x = true
  | .cell _ => True

/-- A variable that is kept can be set before or after the merge. -/
theorem CFrame.merge_set {x : String} (hx : keep x = true) (v : V) (σ : CFrame V M) :
    (σ.merge keep env).set x v = (σ.set x v).merge keep env := by
  refine congrArg (CFrame.mk · σ.memory) (funext fun y => ?_)
  show Function.update (fun z => if keep z then σ.env z else env z) x (some v) y =
    if keep y then Function.update σ.env x (some v) y else env y
  by_cases hy : y = x
  · subst hy
    simp [hx]
  · simp [Function.update_of_ne hy]

/-- Setting a variable that is kept commutes with the merge. -/
theorem CFrame.commutes_set {x : String} (hx : keep x = true) (v : V) :
    Commutes (CFrame.merge (M := M) keep env) (modify (CFrame.set · x v) : StateT _ Option PUnit) :=
  .change (CFrame.merge_set hx v)

/-- Inside a scope the variables that are not kept are not there to be changed. -/
theorem CFrame.commutes_scope {inner : String → Bool} {m : StateT (CFrame V M) Option α}
    (hm : Commutes (CFrame.merge (fun x => keep x || !inner x) env) m) :
    Commutes (CFrame.merge keep env) (CFrame.scope inner m) := by
  intro σ
  have hEnter : (σ.merge keep env).merge inner (fun _ => none) =
      (σ.merge inner fun _ => none).merge (fun x => keep x || !inner x) env := by
    refine congrArg (CFrame.mk · σ.memory) (funext fun x => ?_)
    show (if inner x then if keep x then σ.env x else env x else none) = _
    cases hi : inner x <;> cases hk : keep x <;> simp [CFrame.merge, hi, hk]
  show (m.run ((σ.merge keep env).merge inner fun _ => none)).map _ =
    ((m.run (σ.merge inner fun _ => none)).map _).map _
  rw [hEnter, hm]
  cases m.run (σ.merge inner fun _ => none) with
  | none => rfl
  | some out =>
    refine congrArg (fun e => some (out.1, CFrame.mk e out.2.memory)) (funext fun x => ?_)
    show (if inner x then if keep x || !inner x then out.2.env x else env x
      else if keep x then σ.env x else env x) =
        if keep x then if inner x then out.2.env x else σ.env x else env x
    cases hi : inner x <;> cases hk : keep x <;> simp

/-- A scope yields what its body yields. -/
theorem CFrame.yields_scope {P : α → Prop} {inner : String → Bool}
    {m : StateT (CFrame V M) Option α} (hm : Yields P m) : Yields P (CFrame.scope inner m) := by
  intro σ out h
  obtain ⟨out', hRun, rfl⟩ := Option.map_eq_some_iff.mp h
  exact hm _ out' hRun

/-- Binding parameters that are kept commutes with the merge. -/
theorem CFrame.commutes_bind {params : List Decl} (h : ∀ x ∈ params.map Decl.name, keep x = true)
    (vals : List V) :
    Commutes (CFrame.merge (M := M) keep env) (modify (CFrame.bind params vals) :
      StateT _ Option PUnit) := by
  refine .change fun σ => ?_
  induction params generalizing vals σ with
  | nil => rfl
  | cons p params ih =>
    cases vals with
    | nil => rfl
    | cons v vals =>
      simp only [List.map_cons, List.forall_mem_cons] at h
      show ((σ.merge keep env).set p.name v).bind params vals =
        ((σ.set p.name v).bind params vals).merge keep env
      rw [CFrame.merge_set h.1, ih h.2]

/-- What does not see the other variables can as well come after the scope. -/
theorem CFrame.scope_bind_right {β : Type} {m : StateT (CFrame V M) Option α}
    {k : α → StateT (CFrame V M) Option β} (hk : ∀ a env, Commutes (CFrame.merge keep env) (k a)) :
    CFrame.scope keep (m >>= k) = CFrame.scope keep m >>= k := by
  funext σ
  show ((m.run (σ.merge keep fun _ => none)).bind _).map _ =
    ((m.run (σ.merge keep fun _ => none)).map _).bind _
  cases m.run (σ.merge keep fun _ => none) with
  | none => rfl
  | some out => exact (hk out.1 σ.env out.2).symm

/-- It can as well come before. -/
theorem CFrame.scope_bind_left {β : Type} {m : StateT (CFrame V M) Option α}
    {k : α → StateT (CFrame V M) Option β} (hm : ∀ env, Commutes (CFrame.merge keep env) m) :
    CFrame.scope keep (m >>= k) = m >>= fun a => CFrame.scope keep (k a) := by
  funext σ
  show ((m.run (σ.merge keep fun _ => none)).bind _).map _ = (m.run σ).bind _
  rw [hm _ σ]
  cases hRun : m.run σ with
  | none => rfl
  | some out =>
    have hSame : out.2.merge keep σ.env = out.2 :=
      (hm σ.env).fixed (congrArg (CFrame.mk · σ.memory) (funext fun x => ite_self _)) hRun
    have hMerge (τ : CFrame V M) : τ.merge keep σ.env = τ.merge keep out.2.env := by
      refine congrArg (CFrame.mk · τ.memory) (funext fun x => ?_)
      have hx : (if keep x then out.2.env x else σ.env x) = out.2.env x :=
        congrFun (congrArg CFrame.env hSame) x
      show (if keep x then τ.env x else σ.env x) = if keep x then τ.env x else out.2.env x
      split
      · rfl
      · next hKeep => rw [← hx, if_neg hKeep]
    show ((k out.1).run _).map (fun out' => (out'.1, out'.2.merge keep σ.env)) =
      ((k out.1).run _).map _
    simp only [hMerge]

/-- A function of the result can be applied inside or outside of a scope. -/
theorem CFrame.scope_map {β : Type} (g : α → β) (m : StateT (CFrame V M) Option α) :
    CFrame.scope keep (g <$> m) = g <$> CFrame.scope keep m := by
  rw [map_eq_pure_bind, map_eq_pure_bind]
  exact CFrame.scope_bind_right fun a _ => .pure (g a)

/-- A scope may keep less, if that makes no difference inside. -/
theorem CFrame.scope_congr {inner : String → Bool} {m : StateT (CFrame V M) Option α}
    (hSub : ∀ x, inner x = true → keep x = true)
    (hm : ∀ env, Commutes (CFrame.merge (fun x => inner x || !keep x) env) m) :
    CFrame.scope keep m = CFrame.scope inner m := by
  funext σ
  have hEnter : σ.merge keep (fun _ => none) =
      (σ.merge inner fun _ => none).merge (fun x => inner x || !keep x) σ.env := by
    refine congrArg (CFrame.mk · σ.memory) (funext fun x => ?_)
    show (if keep x then σ.env x else none) =
      if inner x || !keep x then (if inner x then σ.env x else none) else σ.env x
    have hx := hSub x
    cases hk : keep x <;> cases hi : inner x <;> simp_all
  show (m.run (σ.merge keep fun _ => none)).map _ = (m.run (σ.merge inner fun _ => none)).map _
  rw [hEnter, hm]
  cases m.run (σ.merge inner fun _ => none) with
  | none => rfl
  | some out =>
    refine congrArg (fun e => some (out.1, CFrame.mk e out.2.memory)) (funext fun x => ?_)
    show (if keep x then if inner x || !keep x then out.2.env x else σ.env x else σ.env x) =
      if inner x then out.2.env x else σ.env x
    have hx := hSub x
    cases hk : keep x <;> cases hi : inner x <;> simp_all

/-- Clearing a variable that is kept commutes with the merge. -/
theorem CFrame.commutes_clear {x : String} (hx : keep x = true) :
    Commutes (CFrame.merge (M := M) keep env) (modify (CFrame.clear x) :
      StateT _ Option PUnit) := by
  refine .change fun σ => congrArg (CFrame.mk · σ.memory) (funext fun y => ?_)
  show (if decide (y ≠ x) then if keep y then σ.env y else env y else none) =
    if keep y then if decide (y ≠ x) then σ.env y else none else env y
  by_cases hy : y = x
  · simp [hy, hx]
  · simp [hy]

namespace CMachine

variable (C : CMachine V M)

/-- Reading a place that is kept commutes with the merge. -/
theorem commutes_read {p : CPlace V} (hp : p.Kept keep) :
    Commutes (CFrame.merge keep env) (C.read p) := by
  intro σ
  cases p with
  | var x =>
    show (if keep x then σ.env x else env x).map _ = ((σ.env x).map _).map _
    rw [if_pos (show keep x = true from hp), Option.map_map]
    rfl
  | cell a =>
    show (C.load a σ.memory).map _ = ((C.load a σ.memory).map _).map _
    rw [Option.map_map]
    rfl

/-- Writing a place that is kept commutes with the merge. -/
theorem commutes_write {p : CPlace V} (hp : p.Kept keep) (v : V) :
    Commutes (CFrame.merge keep env) (C.write p v) := by
  cases p with
  | var x => exact CFrame.commutes_set hp v
  | cell a =>
    intro σ
    show (C.store a v σ.memory).map _ = ((C.store a v σ.memory).map _).map _
    rw [Option.map_map]
    rfl

/-- So does updating it. -/
theorem commutes_updated (op : Option BinOp) {p : CPlace V} (hp : p.Kept keep) (v : V) :
    Commutes (CFrame.merge keep env) (C.updated op p v) := by
  cases op with
  | none => exact .pure v
  | some op => exact (C.commutes_read hp).bind fun old => .lift _

/-- The place of an expression whose variables are kept is kept. -/
theorem place_kept {e : Expr} (h : ∀ x ∈ e.ids, keep x = true) :
    Yields (CPlace.Kept keep) (C.place e) := by
  have hCell {m : StateT (CFrame V M) Option V} :
      Yields (CPlace.Kept keep) (m >>= fun a => pure (.cell a)) :=
        Yields.any.bind fun _ _ => .pure trivial
  cases e with
  | id x => exact .pure (h x List.mem_cons_self)
  | arrayRef name subscript => exact Yields.any.bind fun _ _ => Yields.any.bind fun _ _ => hCell
  | unaryOp op e => 
    cases op with
    | deref => exact hCell
    | _ => exact fun σ out hRun => nomatch hRun
  | _ => exact fun σ out hRun => nomatch hRun

mutual

/-- Evaluation reads and writes the variables of an expression only: induction on the expression,
together with its places and lists. -/
theorem commutes_evaluate : ∀ e : Expr, (∀ x ∈ e.ids, keep x = true) →
    Commutes (CFrame.merge keep env) (C.evaluate e)
  | .id x, h => C.commutes_read (h x List.mem_cons_self)
  | .constant _, _ => .pure _
  | .arrayRef name subscript, h => by
    simp only [Expr.ids, List.forall_mem_append] at h
    exact (commutes_evaluate name h.1).bind fun _ => (commutes_evaluate subscript h.2).bind fun _ =>
      (Commutes.lift _).bind fun _ => C.commutes_read trivial
  | .unaryOp op e, h => by
    have hStep (op : UnOp) (step : BinOp) : Commutes (CFrame.merge keep env) (do
        let p ← C.place e
        let old ← C.read p
        let new ← C.combine step old (C.constant 1)
        C.write p new
        return if op.isPostfix then old else new) :=
      (commutes_place e h).bind_yields (C.place_kept h) fun p hp =>
        (C.commutes_read hp).bind fun _ =>
        (Commutes.lift _).bind fun _ => (C.commutes_write hp _).bind fun _ => .pure _
    cases op with
    | addressOf => exact (commutes_place e h).bind fun _ => .lift _
    | deref => exact (commutes_evaluate e h).bind fun _ => C.commutes_read trivial
    | plus | minus | not | lnot => exact (commutes_evaluate e h).bind fun _ => .lift _
    | preIncr | preDecr | postIncr | postDecr => exact hStep _ _
  | .binaryOp op left right, h => by
    simp only [Expr.ids, List.forall_mem_append] at h
    refine (commutes_evaluate left h.1).bind fun a => ?_
    split
    · exact .pure _
    · exact (commutes_evaluate right h.2).bind fun _ => .lift _
  | .ternaryOp cond iftrue iffalse, h => by
    simp only [Expr.ids, List.forall_mem_append] at h
    refine (commutes_evaluate cond h.1.1).bind fun c => ?_
    split
    · exact commutes_evaluate iftrue h.1.2
    · exact commutes_evaluate iffalse h.2
  | .assignment op lvalue rvalue, h => by
    simp only [Expr.ids, List.forall_mem_append] at h
    exact (commutes_evaluate rvalue h.2).bind fun v => (commutes_place lvalue h.1).bind_yields
      (C.place_kept h.1) fun p hp => (C.commutes_updated op hp v).bind fun _ =>
        (C.commutes_write hp _).bind fun _ => .pure _
  | .funcCall .., _ => .failure
  | .exprList exprs, h => (commutes_evaluateList exprs h).bind fun _ => .lift _
  | .initList exprs, h => (commutes_evaluateList exprs h).bind fun _ => .pure _

/-- The same for the place of an expression. -/
theorem commutes_place : ∀ e : Expr, (∀ x ∈ e.ids, keep x = true) →
    Commutes (CFrame.merge keep env) (C.place e)
  | .id x, _ => .pure _
  | .arrayRef name subscript, h => by
    simp only [Expr.ids, List.forall_mem_append] at h
    exact (commutes_evaluate name h.1).bind fun _ => (commutes_evaluate subscript h.2).bind fun _ =>
      (Commutes.lift _).bind fun _ => .pure _
  | .unaryOp op e, h => by
    cases op with
    | deref => exact (commutes_evaluate e h).bind fun _ => .pure _
    | _ => exact .failure
  | .constant _, _ | .binaryOp .., _ | .ternaryOp .., _ | .assignment .., _ | .funcCall .., _
  | .exprList _, _ | .initList _, _ => .failure

/-- The same for lists. -/
theorem commutes_evaluateList : ∀ exprs : List Expr, (∀ x ∈ Expr.idsList exprs, keep x = true) →
    Commutes (CFrame.merge keep env) (C.evaluateList exprs)
  | [], _ => .pure _
  | e :: exprs, h => by
    simp only [Expr.idsList, List.forall_mem_append] at h
    exact (commutes_evaluate e h.1).bind fun _ => (commutes_evaluateList exprs h.2).bind fun _ =>
      .pure _

end

/-- A list has as many values as expressions. -/
theorem length_evaluateList (exprs : List Expr) :
    Yields (·.length = exprs.length) (C.evaluateList exprs) := by
  induction exprs with
  | nil => exact .pure rfl
  | cons e exprs ih =>
    exact Yields.any.bind fun _ _ => ih.bind fun _ hVals => .pure (congrArg Nat.succ hVals)

/-- An assignment touches the variables of its left-hand side only. -/
theorem commutes_assign {lvalue : Expr} (h : ∀ x ∈ lvalue.ids, keep x = true) (v : V) :
    Commutes (CFrame.merge keep env) (C.assign lvalue v) :=
  (C.commutes_place lvalue h).bind_yields (C.place_kept h) fun _ hp => C.commutes_write hp v

/-- A call that is no statement has no value. -/
theorem commutes_evaluate_of_mentions {e : Expr} (h : ∀ x ∈ e.mentions, keep x = true) :
    Commutes (CFrame.merge keep env) (C.evaluate e) := by
  cases e with
  | funcCall name args => exact .failure
  | assignment op lvalue rvalue =>
    cases rvalue with
    | funcCall name args => exact fun _ => rfl
    | _ => exact C.commutes_evaluate _ h
  | _ => exact C.commutes_evaluate _ h

/-- An initial value touches the variables that it mentions only. -/
theorem commutes_initial {init : Option Expr}
    (h : ∀ x ∈ init.elim [] Expr.mentions, keep x = true) :
    Commutes (CFrame.merge keep env) (C.initial init) := by
  cases init with
  | none => exact .pure none
  | some e => exact (C.commutes_evaluate_of_mentions h).map some

/-- Creating a variable touches its name only. -/
theorem commutes_create {d : Decl} (hName : keep d.name = true) (dims : List V) (init : Option V) :
    Commutes (CFrame.merge keep env) (C.create d dims init) := by
  intro σ
  show (C.allocate d.type dims init σ.memory).map _ =
    ((C.allocate d.type dims init σ.memory).map _).map _
  cases C.allocate d.type dims init σ.memory with
  | none => rfl
  | some new =>
    exact congrArg (fun σ' => some ((), σ'))
      (CFrame.merge_set hName new.1 { σ with memory := new.2 })

/-- A declaration touches what it mentions only. -/
theorem commutes_declare {d : Decl} (h : ∀ x ∈ d.mentions, keep x = true) :
    Commutes (CFrame.merge keep env) (C.declare d) := by
  simp only [Decl.mentions, List.forall_mem_cons, List.forall_mem_append] at h
  obtain ⟨hName, hDims, hInit⟩ := h
  refine (CFrame.commutes_clear hName).bind fun _ => ?_
  split
  · exact (C.commutes_evaluateList _ hDims).bind fun dims =>
      (C.commutes_initial hInit).bind fun init =>
      C.commutes_create hName dims init
  · refine (C.commutes_initial hInit).bind fun init => ?_
    split
    · exact .pure _
    · exact CFrame.commutes_set hName _

theorem commutes_holds {cond : Expr} (h : ∀ x ∈ cond.ids, keep x = true) :
    Commutes (CFrame.merge keep env) (C.holds cond) := (C.commutes_evaluate cond h).map _

/-- So does the test of a loop, which may be missing. -/
theorem commutes_test {cond : Option Expr} (h : ∀ x ∈ optIds cond, keep x = true) :
    Commutes (CFrame.merge keep env) (C.test cond) := by
  cases cond with
  | none => exact .pure true
  | some e => exact C.commutes_holds h

/-- So does the step of a loop. -/
theorem commutes_step {next : Option Expr} (h : ∀ x ∈ optIds next, keep x = true) :
    Commutes (CFrame.merge keep env) (C.step next) := by
  cases next with
  | none => exact .pure ()
  | some e => exact (C.commutes_evaluate e h).map _

/-- So does the start of a loop. -/
theorem commutes_start {init : ForInit} (h : ∀ x ∈ init.mentions, keep x = true) :
    Commutes (CFrame.merge keep env) (C.start init) := by
  cases init with
  | none => exact .pure ()
  | expr e => exact (C.commutes_evaluate e h).map _
  | declList decls =>
    show Commutes _ (decls.forM C.declare)
    induction decls with
    | nil => exact .pure _
    | cons d decls ih =>
      simp only [ForInit.mentions, List.flatMap_cons, List.forall_mem_append] at h ih
      exact (C.commutes_declare h.1).bind fun _ => ih h.2

variable {fuel : Nat} {calls : CCalls V M}

/-- A call touches the variables of its arguments only, if the functions touch none that is not
kept. -/
theorem commutes_call (hCalls : ∀ f vals, Commutes (CFrame.merge keep env) (calls f vals))
    (name : Expr) {args : List Expr} (h : ∀ x ∈ Expr.idsList args, keep x = true) :
    Commutes (CFrame.merge keep env) (C.call calls name args) := by
  cases name with
  | id f => exact (C.commutes_evaluateList args h).bind fun vals => hCalls f vals
  | _ => exact .failure

theorem commutes_callValue (hCalls : ∀ f vals, Commutes (CFrame.merge keep env) (calls f vals))
    (name : Expr) {args : List Expr} (h : ∀ x ∈ Expr.idsList args, keep x = true) :
    Commutes (CFrame.merge keep env) (C.callValue calls name args) :=
  (C.commutes_call hCalls name h).bind fun _ => .lift _

/-- The same for a declaration. -/
theorem commutes_execDecl (hCalls : ∀ f vals, Commutes (CFrame.merge keep env) (calls f vals))
    {d : Decl} (h : ∀ x ∈ d.mentions, keep x = true) :
    Commutes (CFrame.merge keep env) (C.execDecl calls d) := by
  rw [execDecl]
  split
  · next name args hInit =>
    simp only [Decl.mentions, hInit, List.forall_mem_cons, List.forall_mem_append] at h
    exact (CFrame.commutes_clear h.1).bind fun _ => (C.commutes_callValue hCalls name h.2.2).bind
      fun _ => CFrame.commutes_set h.1 _
  · exact C.commutes_declare h

theorem commutes_execExpr (hCalls : ∀ f vals, Commutes (CFrame.merge keep env) (calls f vals))
    {e : Expr} (h : ∀ x ∈ e.mentions, keep x = true) :
    Commutes (CFrame.merge keep env) (C.execExpr calls e) := by
  rw [execExpr.eq_def]
  split
  · exact (C.commutes_call hCalls _ h).map _
  · next lvalue name args =>
    simp only [Expr.mentions, List.forall_mem_append] at h
    exact (C.commutes_callValue hCalls name h.2).bind fun v => C.commutes_assign h.1 v
  · exact (C.commutes_evaluate_of_mentions h).map _

theorem commutes_execReturn (hCalls : ∀ f vals, Commutes (CFrame.merge keep env) (calls f vals))
    {e : Option Expr} (h : ∀ x ∈ e.elim [] Expr.mentions, keep x = true) :
    Commutes (CFrame.merge keep env) (C.execReturn calls e) := by
  rw [execReturn.eq_def]
  split
  · exact (C.commutes_callValue hCalls _ h).map _
  · exact C.commutes_initial h

end CMachine

/-- What functions do depends on these variables only, and they leave the others alone. -/
def CCalls.Within (globals : List String) (calls : CCalls V M) : Prop :=
  ∀ (keep : String → Bool) (env : String → Option V), (∀ x ∈ globals, keep x = true) →
    ∀ f vals, Commutes (CFrame.merge keep env) (calls f vals)

namespace CMachine

variable {C : CMachine V M} {fuel : Nat} {calls : CCalls V M} {globals : List String}

/-- The variables of a block are added to those that are kept. -/
theorem keep_scope {names mentioned : List String}
    (h : ∀ x ∈ mentioned.filter (· ∉ names), keep x = true) :
    ∀ x ∈ mentioned, (keep x || !decide (x ∉ names)) = true := by
  intro x hx
  by_cases hName : x ∈ names
  · simp [hName]
  · simp [h x (List.mem_filter.mpr ⟨hx, by simpa using hName⟩)]

mutual

/-- A statement does not depend on what it does not mention, and leaves it alone. -/
theorem commutes_exec (hCalls : calls.Within globals) : ∀ (s : Stmt) {keep : String → Bool},
    (∀ x ∈ globals, keep x = true) → (∀ x ∈ s.free, keep x = true) →
      Commutes (CFrame.merge keep env) (C.exec fuel calls s)
  | .decl _, keep, hG, h => (C.commutes_execDecl (hCalls keep env hG) h).map _
  | .expr _, keep, hG, h => (C.commutes_execExpr (hCalls keep env hG) h).map _
  | .ret _, keep, hG, h => (C.commutes_execReturn (hCalls keep env hG) h).map _
  | .compound items, keep, hG, h => by
    simp only [Stmt.free] at h
    exact CFrame.commutes_scope (commutes_execList hCalls items (fun x hx => by simp [hG x hx])
      (keep_scope h))
  | .forLoop init cond next stmt, keep, hG, h => by
    simp only [Stmt.free] at h
    have hAll := keep_scope h
    simp only [List.forall_mem_append] at hAll
    exact CFrame.commutes_scope ((C.commutes_start hAll.1).bind fun _ =>
      .rounds (C.commutes_test hAll.2.1) (commutes_exec hCalls stmt (fun x hx => by simp [hG x hx])
        hAll.2.2.2) (C.commutes_step hAll.2.2.1) fuel)
  | .whileLoop cond stmt, keep, hG, h => by
    simp only [Stmt.free, List.forall_mem_append] at h
    exact .rounds (C.commutes_holds h.1) (commutes_exec hCalls stmt hG h.2) (.pure ()) fuel
  | .doWhile cond stmt, keep, hG, h => by
    simp only [Stmt.free, List.forall_mem_append] at h
    refine (commutes_exec hCalls stmt hG h.2).bind fun r => ?_
    split
    · exact .pure _
    · exact .rounds (C.commutes_holds h.1) (commutes_exec hCalls stmt hG h.2) (.pure ()) fuel
  | .ifElse cond iftrue none, keep, hG, h => by
    simp only [Stmt.free, List.forall_mem_append] at h
    refine (C.commutes_holds h.1).bind fun b => ?_
    split
    · exact commutes_exec hCalls iftrue hG h.2
    · exact .pure _
  | .ifElse cond iftrue (some iffalse), keep, hG, h => by
    simp only [Stmt.free, List.forall_mem_append] at h
    refine (C.commutes_holds h.1).bind fun b => ?_
    split
    · exact commutes_exec hCalls iftrue hG h.2.1
    · exact commutes_exec hCalls iffalse hG h.2.2
  | .emptyStatement, _, _, _ => .pure _
  | .switch .., _, _, _ | .case .., _, _, _ | .default _, _, _, _ | .label .., _, _, _
  | .goto _, _, _, _ | .breakStmt, _, _, _ | .continueStmt, _, _, _ => .failure

/-- A list of statements touches its free variables and the globals only. -/
theorem commutes_execList (hCalls : calls.Within globals) :
    ∀ (stmts : List Stmt) {keep : String → Bool}, (∀ x ∈ globals, keep x = true) →
      (∀ x ∈ Stmt.freeList stmts, keep x = true) →
        Commutes (CFrame.merge keep env) (C.execList fuel calls stmts)
  | [], _, _, _ => .pure _
  | s :: stmts, keep, hG, h => by
    simp only [Stmt.freeList, List.forall_mem_append] at h
    refine (commutes_exec hCalls s hG h.1).bind fun r => ?_
    split
    · exact .pure _
    · exact commutes_execList hCalls stmts hG h.2

end

end CMachine

end Commutes

-- ---------------------------------------------------------------------------
-- Functions and files
-- ---------------------------------------------------------------------------

section Functions

variable {V M : Type} (C : CMachine V M) (fuel : Nat)

/-- A call of a function. It sees the global variables and its parameters. -/
def FunDef.run (calls : CCalls V M) (globals : List String) (fn : FunDef) (vals : List V) :
    StateT (CFrame V M) Option (Option V) :=
  if fn.params.length = vals.length then
    CFrame.scope (· ∈ globals) do
      modify (CFrame.bind fn.params vals)
      Option.join <$> C.execList fuel calls fn.body
  else failure

/-- The functions of a file, the newest first. A function knows those before it. -/
def callsOf (globals : List String) : List FunDef → CCalls V M
  | [], _, _ => failure
  | fn :: funs, f, vals =>
    if fn.name = f then fn.run C fuel (callsOf globals funs) globals vals
    else callsOf globals funs f vals

/-- The functions of a file stay within its globals: induction on the list of functions, each of
which calls the ones before it. -/
theorem callsOf_within (globals : List String) (funs : List FunDef) :
    (callsOf C fuel globals funs).Within globals := by
  intro keep env hKeep f vals
  induction funs with
  | nil => exact .failure
  | cons fn funs ih =>
    rw [callsOf]
    split
    · rw [FunDef.run]
      split
      · refine CFrame.commutes_scope ?_
        have hAll : (fun x => keep x || !decide (x ∈ globals)) = fun _ => true := by
          funext x
          by_cases hx : x ∈ globals
          · simp [hKeep x hx]
          · simp [hx]
        rw [hAll]
        exact .none fun _ => rfl
      · exact .failure
    · exact ih

end Functions

/-- The global variables. -/
def FileAST.globals (ast : FileAST) : List String :=
  ast.filterMap fun ext => match ext with
    | .decl d => some d.name
    | _ => none

def FileAST.funDefs (ast : FileAST) : List FunDef :=
  (ast.filterMap fun ext => match ext with
    | .funcDef name params body => some ⟨name, params, body⟩
    | _ => none).reverse

/-- The global variables are there before a function is called. -/
def FileAST.declareAll {V M : Type} (C : CMachine V M) (ast : FileAST) :
    StateT (CFrame V M) Option Unit :=
  ast.forM fun ext => match ext with
    | .decl d => C.declare d
    | _ => pure ()

/-- The last function of a file is called. -/
def FileAST.run {V M : Type} (C : CMachine V M) (fuel : Nat) (ast : FileAST) (vals : List V) :
    StateT (CFrame V M) Option (Option V) := do
  ast.declareAll C
  match ast.funDefs with
  | [] => failure
  | fn :: funs => fn.run C fuel (callsOf C fuel ast.globals funs) ast.globals vals

end Obscure
