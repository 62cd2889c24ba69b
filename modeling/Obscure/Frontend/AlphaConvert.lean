import Obscure.Frontend.AST
import Obscure.Lib.Scopes
import Mathlib.Data.List.Perm.Subperm

/-!
# OBSCURE — alpha conversion

`identifiers.gen_next_ident` and the two visitors of `compiler/src/frontend/alphaconvert.py`:
`IdentsCollector` finds the names that are declared more than once, `AlphaConverter` gives
every declaration of such a name a fresh identifier. Its environment is a copy that
functions, blocks and `for` loops drop at their end.

* `nodup_alphaConvert`       — the declared names of the result are distinct;
* `alphaConvert_captureFree` — the uses keep their declarations exactly when, for the names
  declared more than once, the environment of the pass has the declaration of the language.
-/

namespace Obscure

open Lib

-- ---------------------------------------------------------------------------
-- identifiers.py
-- ---------------------------------------------------------------------------

/-- The global variables of the module. -/
structure Identifiers where
  allIdentifiers : List String
  nextCounters : List (String × Nat)

/-- The loop of `gen_next_ident`: the first counter from `counter` on with a free identifier. -/
def nextCounter (all : List String) (pre : String) : Nat → Nat → Nat
  | 0, counter => counter
  | fuel + 1, counter =>
    if pre ++ toString counter ∈ all then nextCounter all pre fuel (counter + 1) else counter

/-- `gen_next_ident`. Among more counters than there are identifiers one is free. -/
def genNextIdent (pre : String) (st : Identifiers) : String × Identifiers :=
  let counter := nextCounter st.allIdentifiers pre (st.allIdentifiers.length + 1)
    ((st.nextCounters.lookup pre).getD 0)
  let ident := pre ++ toString counter
  (ident,
    { allIdentifiers := ident :: st.allIdentifiers
      nextCounters := (pre, counter + 1) :: st.nextCounters })

/-- Different counters give different names. -/
theorem append_toString_injective (pre : String) :
    Function.Injective fun n : Nat => pre ++ toString n := by
  intro m n h
  have hChars := congrArg String.toList h
  simp only [String.toList_append] at hChars
  have hDigits : m.repr.toList = n.repr.toList := List.append_cancel_left hChars
  rw [Nat.toList_repr, Nat.toList_repr] at hDigits
  rw [← Nat.ofDigitChars_ten_toDigits (n := m), hDigits, Nat.ofDigitChars_ten_toDigits]

/-- The search finds a counter whose name is free, if there is one within its fuel. -/
theorem nextCounter_free (all : List String) (pre : String) {fuel counter k : Nat} (hk : k < fuel)
    (hFree : pre ++ toString (counter + k) ∉ all) :
    pre ++ toString (nextCounter all pre fuel counter) ∉ all := by
  induction fuel generalizing counter k with
  | zero => omega
  | succ fuel ih =>
    rw [nextCounter]
    split
    · next hTaken =>
      cases k with
      | zero => exact absurd hTaken hFree
      | succ k => exact ih (k := k) (by omega) (by rwa [Nat.add_right_comm])
    · next hFirst => exact hFirst

/-- Among more identifiers than are taken one is free. -/
theorem exists_free (all : List String) (pre : String) (counter : Nat) :
    ∃ k < all.length + 1, pre ++ toString (counter + k) ∉ all := by
  by_contra hNone
  push Not at hNone
  have hNodup : ((List.range (all.length + 1)).map fun k => pre ++ toString (counter + k)).Nodup :=
    List.nodup_range.map fun _ _ h => Nat.add_left_cancel (append_toString_injective pre h)
  have hTaken : ((List.range (all.length + 1)).map fun k => pre ++ toString (counter + k)) ⊆ all :=
    fun x hx => by
      obtain ⟨k, hk, rfl⟩ := List.mem_map.mp hx
      exact hNone k (List.mem_range.mp hk)
  have hSub := hNodup.subperm hTaken
  have hLen := hSub.length_le
  rw [List.length_map, List.length_range] at hLen
  omega

/-- `gen_next_ident` is a generator of fresh names. -/
theorem freshGen_genNextIdent : FreshGen genNextIdent Identifiers.allIdentifiers where
  fresh pre st := by
    obtain ⟨k, hk, hFree⟩ := exists_free st.allIdentifiers pre ((st.nextCounters.lookup pre).getD 0)
    exact nextCounter_free st.allIdentifiers pre hk hFree
  grows _ _ _ := List.mem_cons

-- ---------------------------------------------------------------------------
-- IdentsCollector
-- ---------------------------------------------------------------------------

def ForInit.decls : ForInit → List Decl
  | .declList decls => decls
  | _ => []

mutual

/-- The names of the declarations, in the order of the visitors. -/
def Stmt.declNames : Stmt → List String
  | .decl d => [d.name]
  | .compound items => Stmt.declNamesList items
  | .forLoop init _ _ stmt => init.decls.map Decl.name ++ stmt.declNames
  | .ifElse _ iftrue none => iftrue.declNames
  | .ifElse _ iftrue (some iffalse) => iftrue.declNames ++ iffalse.declNames
  | .whileLoop _ stmt | .doWhile _ stmt | .switch _ stmt | .label _ stmt => stmt.declNames
  | .case _ stmts | .default stmts => Stmt.declNamesList stmts
  | .expr _ | .ret _ | .goto _ | .breakStmt | .continueStmt | .emptyStatement => []

def Stmt.declNamesList : List Stmt → List String
  | [] => []
  | s :: stmts => s.declNames ++ Stmt.declNamesList stmts

end

def ExtDecl.declNames : ExtDecl → List String
  | .decl d => [d.name]
  | .funcDecl name params => name :: params.map Decl.name
  | .funcDef name params body => name :: (params.map Decl.name ++ Stmt.declNamesList body)

def FileAST.declNames (ast : FileAST) : List String := ast.flatMap ExtDecl.declNames

/-- `IdentsCollector`, with the identifiers that it adds to `identifiers.all_identifiers`. -/
structure IdentsCollector where
  dups : List String
  idents : List String

/-- `visit_Decl`. -/
def IdentsCollector.visitDecl (c : IdentsCollector) (name : String) : IdentsCollector where
  dups := if name ∈ c.idents then name :: c.dups else c.dups
  idents := name :: c.idents

/-- `collect_idents`. -/
def collectIdents (ast : FileAST) : IdentsCollector :=
  ast.declNames.foldl IdentsCollector.visitDecl ⟨[], []⟩

/-- A name that is declared more than once. -/
def FileAST.repeated (ast : FileAST) (x : String) : Bool := 1 < ast.declNames.count x

/-- The collector has every name that it visited, and as duplicates those that it visited twice.
-/
theorem foldl_visitDecl (names : List String) (c : IdentsCollector) :
    (∀ x, x ∈ (names.foldl IdentsCollector.visitDecl c).idents ↔ x ∈ names ∨ x ∈ c.idents) ∧
    ∀ x, x ∈ (names.foldl IdentsCollector.visitDecl c).dups ↔
      x ∈ c.dups ∨ (x ∈ c.idents ∧ x ∈ names) ∨ 1 < names.count x := by
  induction names generalizing c with
  | nil => simp
  | cons y names ih =>
    obtain ⟨hIdents, hDups⟩ := ih (c.visitDecl y)
    refine ⟨fun x => ?_, fun x => ?_⟩
    · rw [List.foldl_cons, hIdents, IdentsCollector.visitDecl, List.mem_cons, List.mem_cons]
      tauto
    · rw [List.foldl_cons, hDups]
      by_cases hxy : y = x
      · subst hxy
        by_cases hSeen : y ∈ c.idents
        · simp [IdentsCollector.visitDecl, hSeen]
        · -- the second declaration makes it a duplicate
          have hPos : y ∈ names ↔ 0 < names.count y := List.count_pos_iff.symm
          simp only [IdentsCollector.visitDecl, hSeen, if_false, List.mem_cons, true_or, true_and,
            List.count_cons_self, false_and, false_or, hPos]
          refine or_congr_right ?_
          omega
      · have hCount : (y :: names).count x = names.count x := List.count_cons_of_ne hxy
        have hNe : x ≠ y := fun h => hxy h.symm
        rw [hCount]
        simp only [IdentsCollector.visitDecl, List.mem_cons, hNe, false_or]
        split <;> simp [hNe]

/-- The duplicated identifiers are the names that are declared more than once. -/
theorem mem_dups_collectIdents (ast : FileAST) (x : String) :
    x ∈ (collectIdents ast).dups ↔ ast.repeated x = true := by
  rw [collectIdents, (foldl_visitDecl ast.declNames ⟨[], []⟩).2 x]
  simp [FileAST.repeated]

/-- The collector finds all declared names of a file. -/
theorem mem_idents_collectIdents (ast : FileAST) (x : String) :
    x ∈ (collectIdents ast).idents ↔ x ∈ ast.declNames := by
  rw [collectIdents, (foldl_visitDecl ast.declNames ⟨[], []⟩).1 x]
  simp

-- ---------------------------------------------------------------------------
-- AlphaConverter
-- ---------------------------------------------------------------------------

/-- The environment of the visitor, and the module `identifiers`. -/
structure AlphaConverter where
  env : List (String × String)
  idents : Identifiers

mutual

/-- `visit_ID`, in an expression. -/
def Expr.alphaConvert (env : List (String × String)) : Expr → Expr
  | .id name => .id ((env.lookup name).getD name)
  | .constant value => .constant value
  | .arrayRef name subscript => .arrayRef (name.alphaConvert env) (subscript.alphaConvert env)
  | .unaryOp op expr => .unaryOp op (expr.alphaConvert env)
  | .binaryOp op left right => .binaryOp op (left.alphaConvert env) (right.alphaConvert env)
  | .ternaryOp cond iftrue iffalse =>
    .ternaryOp (cond.alphaConvert env) (iftrue.alphaConvert env) (iffalse.alphaConvert env)
  | .funcCall name args => .funcCall (name.alphaConvert env) (Expr.alphaConvertList env args)
  | .assignment op lvalue rvalue =>
    .assignment op (lvalue.alphaConvert env) (rvalue.alphaConvert env)
  | .exprList exprs => .exprList (Expr.alphaConvertList env exprs)
  | .initList exprs => .initList (Expr.alphaConvertList env exprs)

def Expr.alphaConvertList (env : List (String × String)) : List Expr → List Expr
  | [] => []
  | e :: exprs => e.alphaConvert env :: Expr.alphaConvertList env exprs

end

/-- `alpha_convert`. -/
def AlphaConverter.alphaConvert (dups : List String) (oldIdent : String) (st : AlphaConverter) :
    String × AlphaConverter :=
  if oldIdent ∈ dups then
    let (newIdent, idents) := genNextIdent oldIdent st.idents
    (newIdent, { env := (oldIdent, newIdent) :: st.env, idents := idents })
  else
    (oldIdent, st)

/-- `visit_Decl`: the name, then the initializer, but not the type. -/
def Decl.alphaConvert (dups : List String) (d : Decl) (st : AlphaConverter) :
    Decl × AlphaConverter :=
  let (name, st) := st.alphaConvert dups d.name
  ({ d with name := name, init := d.init.map (Expr.alphaConvert st.env) }, st)

def Decl.alphaConvertList (dups : List String) :
    List Decl → AlphaConverter → List Decl × AlphaConverter
  | [], st => ([], st)
  | d :: decls, st =>
    let (d, st) := d.alphaConvert dups st
    let (decls, st) := Decl.alphaConvertList dups decls st
    (d :: decls, st)

def ForInit.alphaConvert (dups : List String) : ForInit → AlphaConverter → ForInit × AlphaConverter
  | .none, st => (.none, st)
  | .expr e, st => (.expr (e.alphaConvert st.env), st)
  | .declList decls, st =>
    let (decls, st) := Decl.alphaConvertList dups decls st
    (.declList decls, st)

mutual

/-- The visit of a statement. -/
def Stmt.alphaConvert (dups : List String) : Stmt → AlphaConverter → Stmt × AlphaConverter
  | .decl d, st =>
    let (d, st) := d.alphaConvert dups st
    (.decl d, st)
  | .expr e, st => (.expr (e.alphaConvert st.env), st)
  | .ret e, st => (.ret (e.map (Expr.alphaConvert st.env)), st)
  | .compound items, st =>
    -- `visit_Compound`
    let (items, st₁) := Stmt.alphaConvertList dups items st
    (.compound items, { st₁ with env := st.env })
  | .forLoop init cond next stmt, st =>
    -- `visit_For`
    let (init, st₁) := init.alphaConvert dups st
    let cond := cond.map (Expr.alphaConvert st₁.env)
    let next := next.map (Expr.alphaConvert st₁.env)
    let (stmt, st₂) := stmt.alphaConvert dups st₁
    (.forLoop init cond next stmt, { st₂ with env := st.env })
  | .ifElse cond iftrue none, st =>
    let (iftrue, st₁) := iftrue.alphaConvert dups st
    (.ifElse (cond.alphaConvert st.env) iftrue none, st₁)
  | .ifElse cond iftrue (some iffalse), st =>
    let (iftrue, st₁) := iftrue.alphaConvert dups st
    let (iffalse, st₂) := iffalse.alphaConvert dups st₁
    (.ifElse (cond.alphaConvert st.env) iftrue (some iffalse), st₂)
  | .whileLoop cond stmt, st =>
    let (stmt, st₁) := stmt.alphaConvert dups st
    (.whileLoop (cond.alphaConvert st.env) stmt, st₁)
  | .doWhile cond stmt, st =>
    let (stmt, st₁) := stmt.alphaConvert dups st
    (.doWhile (cond.alphaConvert st.env) stmt, st₁)
  | .switch cond stmt, st =>
    let (stmt, st₁) := stmt.alphaConvert dups st
    (.switch (cond.alphaConvert st.env) stmt, st₁)
  | .case e stmts, st =>
    let (stmts, st₁) := Stmt.alphaConvertList dups stmts st
    (.case (e.alphaConvert st.env) stmts, st₁)
  | .default stmts, st =>
    let (stmts, st₁) := Stmt.alphaConvertList dups stmts st
    (.default stmts, st₁)
  | .label name stmt, st =>
    let (stmt, st₁) := stmt.alphaConvert dups st
    (.label name stmt, st₁)
  | .goto name, st => (.goto name, st)
  | .breakStmt, st => (.breakStmt, st)
  | .continueStmt, st => (.continueStmt, st)
  | .emptyStatement, st => (.emptyStatement, st)

def Stmt.alphaConvertList (dups : List String) :
    List Stmt → AlphaConverter → List Stmt × AlphaConverter
  | [], st => ([], st)
  | s :: stmts, st =>
    let (s, st) := s.alphaConvert dups st
    let (stmts, st) := Stmt.alphaConvertList dups stmts st
    (s :: stmts, st)

end

/-- The visit of a declaration at file level. -/
def ExtDecl.alphaConvert (dups : List String) :
    ExtDecl → AlphaConverter → ExtDecl × AlphaConverter
  | .decl d, st =>
    let (d, st) := d.alphaConvert dups st
    (.decl d, st)
  | .funcDecl name params, st =>
    let (name, st) := st.alphaConvert dups name
    let (params, st) := Decl.alphaConvertList dups params st
    (.funcDecl name params, st)
  | .funcDef name params body, st =>
    -- `visit_FuncDef`: `old_env` is the environment before the function has its new name
    let (name, st₁) := st.alphaConvert dups name
    let (params, st₂) := Decl.alphaConvertList dups params st₁
    let (body, st₃) := Stmt.alphaConvertList dups body st₂
    (.funcDef name params body, { st₃ with env := st.env })

def FileAST.alphaConvertList (dups : List String) :
    List ExtDecl → AlphaConverter → List ExtDecl × AlphaConverter
  | [], st => ([], st)
  | e :: exts, st =>
    let (e, st) := e.alphaConvert dups st
    let (exts, st) := FileAST.alphaConvertList dups exts st
    (e :: exts, st)

/-- `visit_FileAST`. -/
def alphaConvert (ast : FileAST) : FileAST :=
  let c := collectIdents ast
  (FileAST.alphaConvertList c.dups ast { env := [], idents := ⟨c.idents, []⟩ }).1

-- ---------------------------------------------------------------------------
-- The scopes of C
-- ---------------------------------------------------------------------------

mutual

/-- The identifiers of an expression, in the order of the visitors. -/
def Expr.ids : Expr → List String
  | .id name => [name]
  | .constant _ => []
  | .arrayRef name subscript => name.ids ++ subscript.ids
  | .unaryOp _ expr => expr.ids
  | .binaryOp _ left right => left.ids ++ right.ids
  | .ternaryOp cond iftrue iffalse => cond.ids ++ iftrue.ids ++ iffalse.ids
  | .funcCall name args => name.ids ++ Expr.idsList args
  | .assignment _ lvalue rvalue => lvalue.ids ++ rvalue.ids
  | .exprList exprs => Expr.idsList exprs
  | .initList exprs => Expr.idsList exprs

def Expr.idsList : List Expr → List String
  | [] => []
  | e :: exprs => e.ids ++ Expr.idsList exprs

end

/-- The identifiers in the dimensions of an array. -/
def DeclType.ids : DeclType → List String
  | .typeDecl _ => []
  | .ptrDecl type => type.ids
  | .arrayDecl type none => type.ids
  | .arrayDecl type (some dim) => type.ids ++ dim.ids

def Expr.events (e : Expr) : List (Event String) := e.ids.map fun x => .use x true

def optEvents : Option Expr → List (Event String)
  | none => []
  | some e => e.events

/-- A variable is visible in its initializer, but not in its own type; the pass does not visit
the type. -/
def Decl.events (d : Decl) : List (Event String) :=
  (d.type.ids.map fun x => .use x false) ++ (.declare d.name :: optEvents d.init)

def ForInit.events : ForInit → List (Event String)
  | .none => []
  | .expr e => e.events
  | .declList decls => decls.flatMap Decl.events

mutual

def Stmt.events : Stmt → List (Event String)
  | .decl d => d.events
  | .expr e => e.events
  | .ret e => optEvents e
  | .compound items => .enter true true :: Stmt.eventsList items ++ [.leave true true]
  | .forLoop init cond next stmt =>
    .enter true true :: (init.events ++ (optEvents cond ++ (optEvents next ++ stmt.events))) ++
      [.leave true true]
  | .ifElse cond iftrue none => cond.events ++ iftrue.events
  | .ifElse cond iftrue (some iffalse) => cond.events ++ (iftrue.events ++ iffalse.events)
  | .whileLoop cond stmt | .doWhile cond stmt | .switch cond stmt => cond.events ++ stmt.events
  | .case e stmts => e.events ++ Stmt.eventsList stmts
  | .default stmts => Stmt.eventsList stmts
  | .label _ stmt => stmt.events
  | .goto _ | .breakStmt | .continueStmt | .emptyStatement => []

def Stmt.eventsList : List Stmt → List (Event String)
  | [] => []
  | s :: stmts => s.events ++ Stmt.eventsList stmts

end

/-- The name of a function is declared at file level and its parameters in a scope of their own,
which for a definition includes the body. The pass has no scope for the parameters of a
declaration, and its scope of a definition includes the name. -/
def ExtDecl.events : ExtDecl → List (Event String)
  | .decl d => d.events
  | .funcDecl name params =>
    .declare name :: .enter true false :: (params.flatMap Decl.events ++ [.leave true false])
  | .funcDef name params body =>
    .enter false true ::
      (.declare name :: .enter true false ::
        (params.flatMap Decl.events ++ ((Stmt.compound body).events ++ [.leave true false]))) ++
      [.leave false true]

def FileAST.events (ast : FileAST) : List (Event String) := ast.flatMap ExtDecl.events

-- ---------------------------------------------------------------------------
-- The pass on the events
-- ---------------------------------------------------------------------------

section Events

variable {dups : List String} {es es' fs fs' : List (Event String)} {st st₁ st₂ : AlphaConverter}

/-- A visit turns the events `es` into `es'`. -/
def Renames (dups : List String) (es es' : List (Event String)) (st st' : AlphaConverter) : Prop :=
  ∀ outer, renameEvents genNextIdent (fun x => decide (x ∈ dups)) es ⟨st.env, outer⟩ st.idents =
    (es', ⟨st'.env, outer⟩, st'.idents)

theorem Renames.nil : Renames dups [] [] st st := fun _ => rfl

/-- Two parts are renamed one after the other. -/
theorem Renames.append (h₁ : Renames dups es es' st st₁) (h₂ : Renames dups fs fs' st₁ st₂) :
    Renames dups (es ++ fs) (es' ++ fs') st st₂ := by
  intro outer
  rw [renameEvents_append, h₁ outer]
  simp only [h₂ outer]

/-- The same for the first event and the rest. -/
theorem Renames.cons {e e' : Event String} (h₁ : Renames dups [e] [e'] st st₁)
    (h₂ : Renames dups fs fs' st₁ st₂) : Renames dups (e :: fs) (e' :: fs') st st₂ :=
  h₁.append h₂

/-- A declared name is replaced if it is declared more than once, and remembered. -/
theorem Renames.declare (x : String) :
    Renames dups [.declare x] [.declare (st.alphaConvert dups x).1] st
      (st.alphaConvert dups x).2 := by
  intro outer
  by_cases hDup : x ∈ dups
  · simp [renameEvents, AlphaConverter.alphaConvert, hDup, Scopes.bind]
  · simp [renameEvents, AlphaConverter.alphaConvert, hDup]

/-- Scopes that only the language has. -/
theorem Renames.enter (l : Bool) : Renames dups [.enter l false] [.enter l false] st st :=
  fun _ => rfl

/-- At the end of a scope the names before it are back. -/
theorem Renames.leave (l : Bool) : Renames dups [.leave l false] [.leave l false] st st :=
  fun _ => rfl

/-- A scope of the pass restores the environment. -/
theorem Renames.scope (l : Bool) (h : Renames dups es es' st st₁) :
    Renames dups (.enter l true :: es ++ [.leave l true])
      (.enter l true :: es' ++ [.leave l true]) st
      { st₁ with env := st.env } := by
  intro outer
  rw [List.cons_append, renameEvents, renameEvents_append]
  simp only [Scopes.enter, if_true, h (st.env :: outer)]
  rfl

/-- Names that are used are looked up; the names of labels and members are not. -/
theorem Renames.uses (xs : List String) (seen : Bool) :
    Renames dups (xs.map fun x => .use x seen)
      (xs.map fun x => .use (if seen then (st.env.lookup x).getD x else x) seen) st st := by
  induction xs with
  | nil => exact .nil
  | cons x xs ih => exact .cons (fun _ => rfl) ih

mutual

/-- The variables of a converted expression are the converted ones. -/
theorem Expr.ids_alphaConvert (env : List (String × String)) :
    ∀ e : Expr, (e.alphaConvert env).ids = e.ids.map fun x => (env.lookup x).getD x
  | .id name => rfl
  | .constant _ => rfl
  | .arrayRef name subscript => by
    simp only [Expr.alphaConvert, Expr.ids, List.map_append, name.ids_alphaConvert env,
      subscript.ids_alphaConvert env]
  | .unaryOp _ expr => expr.ids_alphaConvert env
  | .binaryOp _ left right => by
    simp only [Expr.alphaConvert, Expr.ids, List.map_append, left.ids_alphaConvert env,
      right.ids_alphaConvert env]
  | .ternaryOp cond iftrue iffalse => by
    simp only [Expr.alphaConvert, Expr.ids, List.map_append, cond.ids_alphaConvert env,
      iftrue.ids_alphaConvert env, iffalse.ids_alphaConvert env]
  | .funcCall name args => by
    simp only [Expr.alphaConvert, Expr.ids, List.map_append, name.ids_alphaConvert env,
      Expr.idsList_alphaConvert env args]
  | .assignment _ lvalue rvalue => by
    simp only [Expr.alphaConvert, Expr.ids, List.map_append, lvalue.ids_alphaConvert env,
      rvalue.ids_alphaConvert env]
  | .exprList exprs => Expr.idsList_alphaConvert env exprs
  | .initList exprs => Expr.idsList_alphaConvert env exprs

/-- The same for lists. -/
theorem Expr.idsList_alphaConvert (env : List (String × String)) :
    ∀ exprs : List Expr, Expr.idsList (Expr.alphaConvertList env exprs) =
      (Expr.idsList exprs).map fun x => (env.lookup x).getD x
  | [] => rfl
  | e :: exprs => by
    simp only [Expr.alphaConvertList, Expr.idsList, List.map_append, e.ids_alphaConvert env,
      Expr.idsList_alphaConvert env exprs]

end

/-- An expression uses its variables. -/
theorem Expr.renames (e : Expr) : Renames dups e.events (e.alphaConvert st.env).events st st := by
  rw [Expr.events, Expr.events, Expr.ids_alphaConvert, List.map_map]
  exact .uses e.ids true

/-- So does one that may be missing. -/
theorem renames_opt (e : Option Expr) :
    Renames dups (optEvents e) (optEvents (e.map (Expr.alphaConvert st.env))) st st := by
  cases e with
  | none => exact .nil
  | some e => exact e.renames

/-- A declaration uses the variables of its initializer and declares its name. -/
theorem Decl.renames (d : Decl) :
    Renames dups d.events (d.alphaConvert dups st).1.events st (d.alphaConvert dups st).2 :=
  .append (.uses d.type.ids false) (.cons (.declare d.name) (renames_opt d.init))

/-- The same for a list of declarations. -/
theorem Decl.renames_list (decls : List Decl) :
    Renames dups (decls.flatMap Decl.events)
      ((Decl.alphaConvertList dups decls st).1.flatMap Decl.events) st
      (Decl.alphaConvertList dups decls st).2 := by
  induction decls generalizing st with
  | nil => exact .nil
  | cons d decls ih => exact .append d.renames ih

/-- The same for the start of a loop. -/
theorem ForInit.renames (init : ForInit) :
    Renames dups init.events (init.alphaConvert dups st).1.events st
      (init.alphaConvert dups st).2 := by
  cases init with
  | none => exact .nil
  | expr e => exact e.renames
  | declList decls => exact Decl.renames_list decls

mutual

/-- The converter renames the events of a statement: induction on the statement, whose scopes are
those of the events. -/
theorem Stmt.renames : ∀ (s : Stmt) (st : AlphaConverter),
    Renames dups s.events (s.alphaConvert dups st).1.events st (s.alphaConvert dups st).2
  | .decl d, _ => d.renames
  | .expr e, _ => e.renames
  | .ret e, _ => renames_opt e
  | .compound items, st => .scope true (Stmt.renames_list items st)
  | .forLoop init cond next stmt, _ =>
    .scope true (.append init.renames
      (.append (renames_opt cond) (.append (renames_opt next) (stmt.renames _))))
  | .ifElse cond iftrue none, st => .append cond.renames (iftrue.renames st)
  | .ifElse cond iftrue (some iffalse), st =>
    .append cond.renames (.append (iftrue.renames st) (iffalse.renames _))
  | .whileLoop cond stmt, st => .append cond.renames (stmt.renames st)
  | .doWhile cond stmt, st => .append cond.renames (stmt.renames st)
  | .switch cond stmt, st => .append cond.renames (stmt.renames st)
  | .case e stmts, st => .append e.renames (Stmt.renames_list stmts st)
  | .default stmts, st => Stmt.renames_list stmts st
  | .label _ stmt, st => stmt.renames st
  | .goto _, _ => .nil
  | .breakStmt, _ => .nil
  | .continueStmt, _ => .nil
  | .emptyStatement, _ => .nil

/-- The same for lists. -/
theorem Stmt.renames_list : ∀ (stmts : List Stmt) (st : AlphaConverter),
    Renames dups (Stmt.eventsList stmts) (Stmt.eventsList (Stmt.alphaConvertList dups stmts st).1)
      st (Stmt.alphaConvertList dups stmts st).2
  | [], _ => .nil
  | s :: stmts, st => .append (s.renames st) (Stmt.renames_list stmts _)

end

/-- The same for an external declaration, whose parameters and body share a scope. -/
theorem ExtDecl.renames (e : ExtDecl) :
    Renames dups e.events (e.alphaConvert dups st).1.events st (e.alphaConvert dups st).2 := by
  cases e with
  | decl d => exact d.renames
  | funcDecl name params =>
    exact .cons (.declare name) (.cons (.enter true)
      (.append (Decl.renames_list params) (.leave true)))
  | funcDef name params body =>
    have hName : Renames dups [.declare name] _ st _ := .declare name
    have hScope := (hName.cons ((Renames.enter true).cons ((Decl.renames_list params).append
      ((Stmt.renames (.compound body) _).append (.leave true))))).scope false
    exact hScope

/-- The same for a file. -/
theorem FileAST.renames (ast : FileAST) :
    Renames dups ast.events (FileAST.events (FileAST.alphaConvertList dups ast st).1) st
      (FileAST.alphaConvertList dups ast st).2 := by
  induction ast generalizing st with
  | nil => exact .nil
  | cons e exts ih => exact .append e.renames ih

end Events

-- ---------------------------------------------------------------------------
-- The declared names
-- ---------------------------------------------------------------------------

/-- Uses declare nothing. -/
theorem declared_map_use (xs : List String) (seen : Bool) :
    declared (xs.map fun x => Event.use x seen) = [] := by
  induction xs with
  | nil => rfl
  | cons _ _ ih => exact ih

theorem declared_optEvents (e : Option Expr) : declared (optEvents e) = [] := by
  cases e with
  | none => rfl
  | some e => exact declared_map_use e.ids true

theorem Expr.declared_events (e : Expr) : declared e.events = [] := declared_map_use e.ids true

/-- A declaration declares its name. -/
theorem Decl.declared_events (d : Decl) : declared d.events = [d.name] := by
  rw [Decl.events, declared_append, declared_map_use, declared, declared_optEvents, List.nil_append]

/-- A list of declarations declares their names. -/
theorem Decl.declared_events_list (decls : List Decl) :
    declared (decls.flatMap Decl.events) = decls.map Decl.name := by
  induction decls with
  | nil => rfl
  | cons d decls ih =>
    rw [List.flatMap_cons, declared_append, d.declared_events, ih, List.map_cons,
      List.singleton_append]

/-- The start of a loop declares the names of its declarations. -/
theorem ForInit.declared_events (init : ForInit) :
    declared init.events = init.decls.map Decl.name := by
  cases init with
  | none => rfl
  | expr e => exact e.declared_events
  | declList decls => exact Decl.declared_events_list decls

mutual

/-- The events of a statement declare the names that the statement declares. -/
theorem Stmt.declared_events : ∀ s : Stmt, declared s.events = s.declNames
  | .decl d => d.declared_events
  | .expr e => e.declared_events
  | .ret e => declared_optEvents e
  | .compound items => by
    simp only [Stmt.events, Stmt.declNames, List.cons_append, declared, declared_append,
      Stmt.declared_events_list items, List.append_nil]
  | .forLoop init cond next stmt => by
    simp only [Stmt.events, Stmt.declNames, List.cons_append, declared, declared_append,
      init.declared_events, declared_optEvents, stmt.declared_events, List.append_nil,
      List.nil_append]
  | .ifElse cond iftrue none => by
    simp only [Stmt.events, Stmt.declNames, declared_append, cond.declared_events,
      iftrue.declared_events, List.nil_append]
  | .ifElse cond iftrue (some iffalse) => by
    simp only [Stmt.events, Stmt.declNames, declared_append, cond.declared_events,
      iftrue.declared_events, iffalse.declared_events, List.nil_append]
  | .whileLoop cond stmt | .doWhile cond stmt | .switch cond stmt => by
    simp only [Stmt.events, Stmt.declNames, declared_append, cond.declared_events,
      stmt.declared_events, List.nil_append]
  | .case e stmts => by
    simp only [Stmt.events, Stmt.declNames, declared_append, e.declared_events,
      Stmt.declared_events_list stmts, List.nil_append]
  | .default stmts => Stmt.declared_events_list stmts
  | .label _ stmt => stmt.declared_events
  | .goto _ | .breakStmt | .continueStmt | .emptyStatement => rfl

theorem Stmt.declared_events_list :
    ∀ stmts : List Stmt, declared (Stmt.eventsList stmts) = Stmt.declNamesList stmts
  | [] => rfl
  | s :: stmts => by
    rw [Stmt.eventsList, declared_append, s.declared_events, Stmt.declared_events_list stmts,
      Stmt.declNamesList]

end

/-- The same for an external declaration. -/
theorem ExtDecl.declared_events (e : ExtDecl) : declared e.events = e.declNames := by
  cases e with
  | decl d => exact d.declared_events
  | funcDecl name params =>
    simp only [ExtDecl.events, ExtDecl.declNames, declared, declared_append,
      Decl.declared_events_list, List.append_nil]
  | funcDef name params body =>
    simp only [ExtDecl.events, ExtDecl.declNames, List.cons_append, declared, declared_append,
      Decl.declared_events_list, Stmt.declared_events, Stmt.declNames, List.append_nil]

/-- The collector meets the declarations of the program. -/
theorem FileAST.declared_events (ast : FileAST) : declared ast.events = ast.declNames := by
  induction ast with
  | nil => rfl
  | cons e exts ih =>
    rw [FileAST.events, FileAST.declNames, List.flatMap_cons, List.flatMap_cons, declared_append,
      e.declared_events]
    exact congrArg _ ih

-- ---------------------------------------------------------------------------
-- What the pass keeps
-- ---------------------------------------------------------------------------

/-- `ast'` is `ast` with other names: no two declarations share one, and every use refers to the
declaration that it referred to. Declarations are counted in the order of the program. -/
structure FileAST.CaptureFree (ast ast' : FileAST) : Prop where
  distinct : (declared ast'.events).Nodup
  kept : List.Forall₂ (fun before after => ∀ d, before = some d → after = some d)
    (meanings ast.events .start 0) (meanings ast'.events .start 0)

/-- Every use of a name that is declared more than once is of the declaration that is in force by
the rules of the pass: a function is visible in its own definition only, the parameters of a
function declaration to the end of the file, and nothing in the dimensions of an array. -/
def FileAST.ScopedAsPass (ast : FileAST) : Prop :=
  ∀ u ∈ uses ast.events .start .start 0, ast.repeated u.name = true →
    ∀ d, u.meant = some d → u.found = some d

instance (ast : FileAST) : Decidable ast.ScopedAsPass :=
  inferInstanceAs (Decidable (∀ u ∈ uses ast.events .start .start 0, ast.repeated u.name = true →
    ∀ d, d ∈ u.meant → u.found = some d))

/-- The pass on the events of a translation unit. -/
theorem alphaConvert_events (ast : FileAST) :
    (alphaConvert ast).events = (renameEvents genNextIdent ast.repeated ast.events .start
      ⟨(collectIdents ast).idents, []⟩).1 := by
  have hRun : Renames (collectIdents ast).dups ast.events _
    { env := [], idents := ⟨(collectIdents ast).idents, []⟩ } _ := FileAST.renames ast
  have hDup : (fun x => decide (x ∈ (collectIdents ast).dups)) = ast.repeated := by
    funext x
    rw [Bool.eq_iff_iff, decide_eq_true_iff, mem_dups_collectIdents]
  rw [Renames, hDup] at hRun
  exact (congrArg Prod.fst (hRun [])).symm

/-- Names that are not duplicates are declared once. -/
theorem nodup_once (ast : FileAST) :
    ((declared ast.events).filter fun x => !ast.repeated x).Nodup := by
  rw [ast.declared_events, List.nodup_iff_count_le_one]
  intro x
  by_cases hRepeated : ast.repeated x = true
  · have hGone : x ∉ ast.declNames.filter fun x => !ast.repeated x := fun hMem => by
      simpa [hRepeated] using (List.mem_filter.mp hMem).2
    rw [List.count_eq_zero_of_not_mem hGone]
    exact Nat.zero_le 1
  · have hOnce : ast.declNames.count x ≤ 1 := by simpa [FileAST.repeated] using hRepeated
    exact Nat.le_trans (List.filter_sublist.count_le x) hOnce

/-- Every declared name is known to the generator. -/
theorem declared_subset_taken (ast : FileAST) :
    ∀ x ∈ declared ast.events, x ∈ (collectIdents ast).idents := by
  intro x hx
  rwa [mem_idents_collectIdents, ← ast.declared_events]

/-- The declared names are pairwise distinct. -/
theorem nodup_alphaConvert (ast : FileAST) : (declared (alphaConvert ast).events).Nodup := by
  rw [alphaConvert_events]
  exact nodup_declared_renameEvents freshGen_genNextIdent ast.events .start _
    (declared_subset_taken ast) (nodup_once ast)

/-- The uses keep their declarations exactly when the scopes of the pass find them. -/
theorem alphaConvert_captureFree (ast : FileAST) :
    ast.CaptureFree (alphaConvert ast) ↔ ast.ScopedAsPass := by
  have hKept := rename_keeps_iff freshGen_genNextIdent ast.events
    ⟨(collectIdents ast).idents, []⟩ (declared_subset_taken ast) (nodup_once ast)
  rw [← alphaConvert_events] at hKept
  exact ⟨fun h => hKept.mp h.kept, fun h => ⟨nodup_alphaConvert ast, hKept.mpr h⟩⟩

/-- `int f(int x) {return x;} int g(int f) {return f;} int h(int a) {return f(a);}` -/
def sharedName : FileAST :=
  [.funcDef "f" [⟨"x", [], unsignedInt, none⟩] [.ret (some (.id "x"))],
   .funcDef "g" [⟨"f", [], unsignedInt, none⟩] [.ret (some (.id "f"))],
   .funcDef "h" [⟨"a", [], unsignedInt, none⟩] [.ret (some (.funcCall (.id "f") [.id "a"]))]]

/-- The function is renamed and its call is not: `f` is nowhere declared any more. -/
theorem sharedName_captured : ¬ sharedName.CaptureFree (alphaConvert sharedName) := by
  intro h
  have hBefore : meanings sharedName.events .start 0 = [some 1, some 3, some 0, some 5] := by decide
  have hAfter : meanings (alphaConvert sharedName).events .start 0 =
      [some 1, some 3, none, some 5] := by decide
  have hKept := h.kept
  rw [hBefore, hAfter] at hKept
  obtain ⟨-, -, hCall, -⟩ := by simpa only [List.forall₂_cons] using hKept
  exact absurd (hCall 0 rfl) (by simp)

end Obscure
