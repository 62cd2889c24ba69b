import Obscure.Frontend.StaticValues

/-!
# OBSCURE — unrolled loops

What `ForRemover` makes of a run of C. The code that it returns is read from left to right, with
the blocks that are entered and left. A run of C gives the same, and in addition the tests of its
loops, for which no code is left.

The condition on a run is one on its events: loops are tested against the bound that they had at
the first test, `int` is compared without a change of sign, and expressions are evaluated as in C.

* `visit_run` — the visitor follows every run whose events meet the condition.
-/

namespace Obscure

-- ---------------------------------------------------------------------------
-- The documented loops
-- ---------------------------------------------------------------------------

/-- The iterator of a documented loop. -/
def ForInit.iterator? : ForInit → Option String
  | .expr (.assignment Option.none (.id x) _) => some x
  | .declList [⟨x, _, .typeDecl _, some _⟩] => some x
  | _ => Option.none

/-- `x++`, `x--`, `++x`, `--x` or `x = e`. -/
def Expr.isIncrement : Expr → Bool
  | .unaryOp op (.id _) => op.step?.isSome
  | .assignment none (.id _) _ => true
  | _ => false

/-- `for (x = e; x op bound; next)`. -/
def documentedLoop (init : ForInit) (cond next : Option Expr) : Bool :=
  match init.iterator?, cond, next with
  | some it, some (.binaryOp op (.id x) _), some next => x == it && op.compares && next.isIncrement
  | _, _, _ => false

mutual

/-- All loops have the documented form. -/
def Stmt.documented : Stmt → Bool
  | .forLoop init cond next stmt =>
    documentedLoop init cond next && (blockNames [stmt]).isEmpty && stmt.documented
  | .compound items => Stmt.documentedList items
  | _ => true

def Stmt.documentedList : List Stmt → Bool
  | [] => true
  | s :: stmts => s.documented && Stmt.documentedList stmts

end

-- ---------------------------------------------------------------------------
-- The condition on a run
-- ---------------------------------------------------------------------------

namespace CContext

variable (C : CContext)

/-- The dimensions of arrays. -/
def fitsType (σ : CState) : DeclType → Bool
  | .typeDecl _ => true
  | .ptrDecl type | .arrayDecl type none => fitsType σ type
  | .arrayDecl type (some dim) => fitsType σ type && C.fits σ dim

/-- The name is not in use, and the initializer fits. -/
def fitsDecl (σ : CState) (d : Decl) : Bool :=
  C.fitsType σ d.type && (σ.vars d.name).isNone && (d.init.map (C.fits σ)).getD true

/-- A statement in a block. An `int` or a pointer that is initialized and an array must not have
been left with a known value by an earlier pass through their block. -/
def fitsItem (σ : CState) : Stmt → Bool
  | .decl d => C.fitsDecl σ d &&
    (d.type.isUnsignedInt || !σ.known d.name || (d.init.isNone && !d.type.isArray))
  | .expr (.assignment op (.id _) rvalue) => op.isNone && C.fits σ rvalue
  | .expr (.assignment op lvalue rvalue) =>
    op.isNone && lvalue.isPlace && C.fits σ lvalue && C.fits σ rvalue
  | .expr (.unaryOp op (.id x)) => op.step?.isSome && !σ.known x
  | .expr e => C.fits σ e
  | .emptyStatement => true
  | _ => false

/-- The first part of a loop, with a known value. -/
def fitsInit (σ : CState) : Stmt → Bool
  | .decl d => C.fitsDecl σ d && (d.init.map (Expr.known σ.known)).getD false
  | .expr (.assignment none (.id _) rvalue) => C.fits σ rvalue && rvalue.known σ.known
  | _ => false

/-- A comparison of `int` agrees with that of words. -/
def sameOrder (op : BinOp) (signed : Bool) (a b : Word) : Bool :=
  !signed || op == .eq || op == .ne || a.msb == b.msb

/-- A test. Both sides are known, and the bound has the value that it had at the first test. -/
def fitsTest (first σ : CState) : Expr → Bool
  | .binaryOp op (.id x) bound =>
    σ.known x && bound.known σ.known && C.fits σ bound &&
      C.valueIn σ bound == C.valueIn first bound &&
      match σ.vars x, C.valueIn σ bound with
      | some a, some b => sameOrder op (C.isInt x && C.signed bound) a b
      | _, _ => true
  | _ => false

/-- The condition on an event. No name of a block is in use when it is entered. -/
def fitsEvent : CEvent → Bool
  | .enter names σ => names.all fun x => (σ.vars x).isNone
  | .leave => true
  | .init s σ => C.fitsInit σ s
  | .item s σ => C.fitsItem σ s
  | .test cond first σ => C.fitsTest first σ cond

-- ---------------------------------------------------------------------------
-- The code of a run
-- ---------------------------------------------------------------------------

/-- A copy of a type. -/
inductive TypeCopy (σ : CState) : DeclType → DeclType → Prop where
  | typeDecl (names : List String) : TypeCopy σ (.typeDecl names) (.typeDecl names)
  | ptr {type type' : DeclType} (h : TypeCopy σ type type') : TypeCopy σ (.ptrDecl type)
    (.ptrDecl type')
  | unsized {type type' : DeclType} (h : TypeCopy σ type type') :
      TypeCopy σ (.arrayDecl type none) (.arrayDecl type' none)
  | array {type type' : DeclType} {dim dim' : Expr} (h : TypeCopy σ type type')
      (hDim : C.Copy σ dim dim') : TypeCopy σ (.arrayDecl type (some dim))
        (.arrayDecl type' (some dim'))

/-- A copy of a statement. What is assigned to a variable is a constant, if its value is known. -/
inductive ItemCopy (σ : CState) : Stmt → Stmt → Prop where
  | decl {name : String} {quals : List String} {type type' : DeclType} {init init' : Option Expr}
      (hType : C.TypeCopy σ type type') (hInit : Option.Rel (C.Copy σ) init init') :
      ItemCopy σ (.decl ⟨name, quals, type, init⟩) (.decl ⟨name, quals, type', init'⟩)
  | known {x : String} {e : Expr} {w : Word} (hKnown : e.known σ.known = true)
      (hValue : C.valueIn σ e = some w) (hCopy : C.Copy σ e (.constant w.toNat)) :
      ItemCopy σ (.expr (.assignment none (.id x) e))
        (.expr (.assignment none (.id x) (.constant w.toNat)))
  | assign {x : String} {e e' : Expr} (hKnown : e.known σ.known = false) (hCopy : C.Copy σ e e') :
      ItemCopy σ (.expr (.assignment none (.id x) e)) (.expr (.assignment none (.id x) e'))
  | store {name subscript lvalue' e e' : Expr}
    (hPlace : C.Place σ (.arrayRef name subscript) lvalue')
      (hCopy : C.Copy σ e e') :
      ItemCopy σ (.expr (.assignment none (.arrayRef name subscript) e))
        (.expr (.assignment none lvalue' e'))
  | expr {e e' : Expr} (hCopy : C.Copy σ e e') : ItemCopy σ (.expr e) (.expr e')
  | empty : ItemCopy σ .emptyStatement .emptyStatement

end CContext

/-- Code from left to right. -/
inductive Mark where
  | enter
  | leave
  | item (s : Stmt)

mutual

def Stmt.marks : Stmt → List Mark
  | .compound items => .enter :: Stmt.marksList items ++ [.leave]
  | s => [.item s]

def Stmt.marksList : List Stmt → List Mark
  | [] => []
  | s :: stmts => s.marks ++ Stmt.marksList stmts

end

/-- The code that is expected for a run: that of every event but the tests. -/
inductive CContext.Unrolled (C : CContext) : List CEvent → List Mark → Prop where
  | nil : Unrolled C [] []
  | enter {names : List String} {σ : CState} {evs : List CEvent} {marks : List Mark}
      (h : Unrolled C evs marks) : Unrolled C (.enter names σ :: evs) (.enter :: marks)
  | leave {evs : List CEvent} {marks : List Mark} (h : Unrolled C evs marks) :
      Unrolled C (.leave :: evs) (.leave :: marks)
  | init {s s' : Stmt} {σ : CState} {evs : List CEvent} {marks : List Mark}
    (hCopy : C.ItemCopy σ s s')
      (h : Unrolled C evs marks) : Unrolled C (.init s σ :: evs) (.item s' :: marks)
  | item {s s' : Stmt} {σ : CState} {evs : List CEvent} {marks : List Mark}
    (hCopy : C.ItemCopy σ s s')
      (h : Unrolled C evs marks) : Unrolled C (.item s σ :: evs) (.item s' :: marks)
  | test {cond : Expr} {first σ : CState} {evs : List CEvent} {marks : List Mark}
      (h : Unrolled C evs marks) : Unrolled C (.test cond first σ :: evs) marks

section Lemmas

variable {C : CContext} {σ : CState} {st : StaticState}

/-- The code of two parts is the code of their events. -/
theorem CContext.Unrolled.append {evs evs' : List CEvent} {marks marks' : List Mark}
    (h : C.Unrolled evs marks) (h' : C.Unrolled evs' marks') :
    C.Unrolled (evs ++ evs') (marks ++ marks') := by
  induction h with
  | nil => exact h'
  | enter _ ih => exact .enter ih
  | leave _ ih => exact .leave ih
  | init hCopy _ ih => exact .init hCopy ih
  | item hCopy _ ih => exact .item hCopy ih
  | test _ ih => exact .test ih

-- ---------------------------------------------------------------------------
-- The state of the visitor
-- ---------------------------------------------------------------------------

/-- Only the values of the variables matter. -/
theorem StaticState.Follows.congr {σ' : CState} {st' : StaticState} (h : st.Follows σ)
    (hEnv : st'.env = st.env) (hVars : σ'.vars = σ.vars) (hKnown : σ'.known = σ.known) :
    st'.Follows σ' where
  sound := by
    rw [hEnv, hVars, hKnown]
    exact h.sound
  complete := by
    rw [hEnv, hVars, hKnown]
    exact h.complete

/-- A value that the visitor records. -/
theorem StaticState.Follows.record (h : st.Follows σ) (x : String) (w : Word) (known : Bool) :
    (st.record x (if known then some (w.toNat : Int) else none)).Follows (σ.assign x w known) := by
  have hEnv : (st.record x (if known then some (w.toNat : Int) else none)).env =
      Function.update st.env x (if known then some (some (w.toNat : Int)) else none) := by
    cases known <;> rfl
  refine ⟨fun y v hy => ?_, fun y hKnown hSome => ?_⟩
  · rw [hEnv] at hy
    by_cases hyx : y = x
    · subst hyx
      rw [Function.update_self] at hy
      cases known with
      | false => cases hy
      | true =>
        cases hy
        refine ⟨Function.update_self .., w, rfl, fun w' hw' => ?_⟩
        simp only [CState.assign, Function.update_self, Option.some.injEq] at hw'
        exact hw'.symm
    · rw [Function.update_of_ne hyx] at hy
      simp only [CState.assign, Function.update_of_ne hyx]
      exact h.sound y v hy
  · rw [hEnv]
    by_cases hyx : y = x
    · subst hyx
      have hTrue : known = true := by simpa [CState.assign] using hKnown
      simp [hTrue]
    · simp only [CState.assign, Function.update_of_ne hyx] at hKnown hSome
      rw [Function.update_of_ne hyx]
      exact h.complete y hKnown hSome

/-- A variable that the visitor does not record. -/
theorem StaticState.Follows.notRecorded (h : st.Follows σ) {x : String} (hKnown : σ.known x = false)
    (v : Option Word) (t : Nat) :
    st.Follows ⟨Function.update σ.vars x v, Function.update σ.known x false, t⟩ := by
  have hx : st.env x = none := h.env_none hKnown
  refine ⟨fun y u hy => ?_, fun y hy hSome => ?_⟩
  · have hyx : y ≠ x := fun hEq => by rw [hEq, hx] at hy; cases hy
    simp only [Function.update_of_ne hyx]
    exact h.sound y u hy
  · have hyx : y ≠ x := fun hEq => by simp [hEq] at hy
    simp only [Function.update_of_ne hyx] at hy hSome
    exact h.complete y hy hSome

/-- A variable without a value. -/
theorem StaticState.Follows.undefined (h : st.Follows σ) (x : String) (t : Nat) :
    st.Follows ⟨Function.update σ.vars x none, σ.known, t⟩ := by
  have hVars : ∀ y w, Function.update σ.vars x none y = some w → σ.vars y = some w := by
    intro y w hy
    by_cases hyx : y = x
    · rw [hyx, Function.update_self] at hy
      cases hy
    · rwa [Function.update_of_ne hyx] at hy
  refine ⟨fun y u hy => ?_, fun y hy hSome => ?_⟩
  · obtain ⟨hKnown, w, hu, hValue⟩ := h.sound y u hy
    exact ⟨hKnown, w, hu, fun w' hw' => hValue w' (hVars y w' hw')⟩
  · obtain ⟨w, hw⟩ := Option.isSome_iff_exists.mp hSome
    exact h.complete y hy (by rw [hVars y w hw]; rfl)

/-- The end of a block whose names were not in use at its beginning. -/
theorem StaticState.Follows.leave (h : st.Follows σ) {st' : StaticState} {σ' : CState}
    (h' : st'.Follows σ') {names : List String} (hNew : ∀ x ∈ names, σ.vars x = none)
    (hDefs : ∀ x ∈ st'.defs, x ∈ names) : (st'.exitScope st).Follows (σ.leave σ' names) := by
  refine ⟨fun x v hx => ?_, fun x hKnown hSome => ?_⟩
  · simp only [StaticState.exitScope] at hx
    simp only [CState.leave, Env.leave]
    split at hx
    · next hDef =>
      obtain ⟨u, hu⟩ := Option.isSome_iff_exists.mp hDef.2
      obtain ⟨-, w, hv, -⟩ := h.sound x v hx
      refine ⟨(h'.sound x u hu).1, w, hv, fun w' hw' => ?_⟩
      rw [if_pos (hDefs x hDef.1), hNew x (hDefs x hDef.1)] at hw'
      cases hw'
    · obtain ⟨hKnown, w, hv, hValue⟩ := h'.sound x v hx
      refine ⟨hKnown, w, hv, fun w' hw' => ?_⟩
      split at hw'
      · next hName =>
        rw [hNew x hName] at hw'
        cases hw'
      · exact hValue w' hw'
  · simp only [CState.leave, Env.leave] at hKnown hSome
    split at hSome
    · next hName =>
      rw [hNew x hName] at hSome
      cases hSome
    · next hName =>
      have hDef : x ∉ st'.defs := fun hIn => hName (hDefs x hIn)
      simp only [StaticState.exitScope, hDef, false_and, if_false]
      exact h'.complete x hKnown hSome

-- ---------------------------------------------------------------------------
-- Statements in a block
-- ---------------------------------------------------------------------------

theorem visit_set {β : Type} {st' : StaticState} {f : Unit → Visitor β} :
    ((set st' : Visitor Unit) >>= f) st = f () st' := rfl

/-- The right-hand side of an assignment to a variable. -/
theorem CContext.Visited.replace {e e' : Expr} (h : C.Visited σ st e e') {w : Word}
    (hValue : C.valueIn σ e = some w) :
    st.getVal e' = (if e.known σ.known then some (w.toNat : Int) else none) ∧
      st.replace e' = if e.known σ.known then .constant w.toNat else e' := by
  have hVal := h.val
  rw [hValue, Option.map_some] at hVal
  refine ⟨hVal, ?_⟩
  rw [StaticState.replace, hVal]
  cases e.known σ.known <;> rfl

/-- An assignment to a variable. -/
theorem visit_assign (h : st.Follows σ) {x : String} {e : Expr} (hFits : C.fits σ e = true)
    {w : Word} (hValue : C.valueIn σ e = some w) :
    ∃ e', (Expr.assignment none (.id x) e).visit st = (.ok (.assignment none (.id x) e'),
        st.record x (if e.known σ.known then some (w.toNat : Int) else none)) ∧
      C.ItemCopy σ (.expr (.assignment none (.id x) e)) (.expr (.assignment none (.id x) e')) ∧
      (e.known σ.known = true → e' = .constant w.toNat) := by
  obtain ⟨e', hVisit, hVisited⟩ := visit_expr h e hFits
  obtain ⟨hVal, hReplace⟩ := hVisited.replace hValue
  refine ⟨st.replace e', ?_, ?_, fun hKnown => by rw [hReplace, if_pos hKnown]⟩
  · rw [Expr.visit, visit_bind (show (Expr.id x).visit st = (.ok (.id x), st) from rfl),
      visit_bind hVisit, ← hVal]
    rfl
  · rw [hReplace]
    cases hKnown : e.known σ.known with
    | false => exact .assign hKnown hVisited.copy
    | true => exact .known hKnown hValue (.value hValue ((hVisited.word hKnown).trans hValue))

/-- An assignment to an element of an array. -/
theorem visit_store (h : st.Follows σ) {name subscript e : Expr}
    (hPlace : (Expr.arrayRef name subscript).isPlace = true)
    (hElement : C.fits σ (.arrayRef name subscript) = true) (hFits : C.fits σ e = true) :
    ∃ e', (Expr.assignment none (.arrayRef name subscript) e).visit st = (.ok e', st) ∧
      C.ItemCopy σ (.expr (.assignment none (.arrayRef name subscript) e)) (.expr e') := by
  obtain ⟨lvalue', hVisit₁, h₁⟩ := visit_expr h _ hElement
  obtain ⟨e', hVisit₂, h₂⟩ := visit_expr h e hFits
  have hCopy := h₁.place hPlace
  refine ⟨.assignment none lvalue' e', ?_, .store hCopy h₂.copy⟩
  rw [Expr.visit, visit_bind hVisit₁, visit_bind hVisit₂]
  cases hCopy
  rfl

/-- The dimensions of an array are expressions that are visited. -/
theorem visit_type (h : st.Follows σ) : ∀ type : DeclType, C.fitsType σ type = true →
    ∃ type', type.visit st = (.ok type', st) ∧ C.TypeCopy σ type type'
  | .typeDecl names, _ => ⟨_, rfl, .typeDecl names⟩
  | .ptrDecl type, hFits => by
    obtain ⟨type', hVisit, hCopy⟩ := visit_type h type hFits
    refine ⟨.ptrDecl type', ?_, .ptr hCopy⟩
    rw [DeclType.visit, visit_bind hVisit]
    rfl
  | .arrayDecl type none, hFits => by
    obtain ⟨type', hVisit, hCopy⟩ := visit_type h type hFits
    refine ⟨.arrayDecl type' none, ?_, .unsized hCopy⟩
    rw [DeclType.visit, visit_bind hVisit]
    rfl
  | .arrayDecl type (some dim), hFits => by
    simp only [CContext.fitsType, Bool.and_eq_true] at hFits
    obtain ⟨type', hVisit₁, hCopy⟩ := visit_type h type hFits.1
    obtain ⟨dim', hVisit₂, hDim⟩ := visit_expr h dim hFits.2
    refine ⟨.arrayDecl type' (some dim'), ?_, .array hCopy hDim.copy⟩
    rw [DeclType.visit, visit_bind hVisit₁, visit_bind hVisit₂]
    rfl

/-- A declaration with an initializer, before its name is recorded. -/
theorem visit_declInit (h : st.Follows σ) {d : Decl} {e : Expr} (hInit : d.init = some e)
    (hFits : C.fitsDecl σ d = true) :
    ∃ type' e', C.TypeCopy σ d.type type' ∧ C.Visited σ st e e' ∧
      d.visit st = d.visitInit type' e' st ∧ C.fits σ e = true ∧ σ.vars d.name = none := by
  simp only [CContext.fitsDecl, hInit, Option.map_some, Option.getD_some, Bool.and_eq_true] at hFits
  obtain ⟨⟨hType, hNew⟩, hExpr⟩ := hFits
  obtain ⟨type', hVisit₁, hCopy⟩ := visit_type h d.type hType
  obtain ⟨e', hVisit₂, hVisited⟩ := visit_expr h e hExpr
  refine ⟨type', e', hCopy, hVisited, ?_, hExpr, Option.isNone_iff_eq_none.mp hNew⟩
  rw [Decl.visit, visit_bind hVisit₁, hInit]
  exact visit_bind hVisit₂

/-- The value of an initializer. -/
theorem CContext.declare_init {asKnown : Bool} {d : Decl} {e : Expr} (hInit : d.init = some e)
    (hNew : σ.vars d.name = none) {σ' : CState} (hRun : C.declare asKnown σ d = some σ') :
    ∃ w, C.valueIn σ e = some w ∧ σ' = σ.assign d.name w (asKnown && e.known σ.known) := by
  have hSame : Function.update σ.vars d.name none = σ.vars := by
    rw [Function.update_eq_self_iff, hNew]
  simp only [CContext.declare, hInit, hSame] at hRun
  obtain ⟨w, hValue, rfl⟩ := Option.map_eq_some_iff.mp hRun
  exact ⟨w, hValue, rfl⟩

/-- A declaration: the value of an initializer is recorded for `unsigned int`, and for other types
it is not. -/
theorem visit_decl (h : st.Follows σ) {d : Decl} (hFits : C.fitsItem σ (.decl d) = true)
    {σ' : CState} (hRun : C.declare d.type.isUnsignedInt σ d = some σ') :
    ∃ d' st', d.visit st = (.ok d', st') ∧ C.ItemCopy σ (.decl d) (.decl d') ∧ st'.Follows σ' ∧
      ∀ x ∈ st'.defs, x ∈ st.defs ∨ x = d.name := by
  simp only [CContext.fitsItem, Bool.and_eq_true] at hFits
  obtain ⟨hDecl, hStale⟩ := hFits
  cases hInit : d.init with
  | none =>
    have hType : C.fitsType σ d.type = true := by
      simp only [CContext.fitsDecl, Bool.and_eq_true] at hDecl
      exact hDecl.1.1
    obtain ⟨type', hVisit, hCopy⟩ := visit_type h d.type hType
    refine ⟨{ d with type := type' }, st, ?_, ?_, ?_, fun x hx => Or.inl hx⟩
    · rw [Decl.visit, visit_bind hVisit, hInit]
      rfl
    · obtain ⟨name, quals, type, init⟩ := d
      cases hInit
      exact .decl hCopy .none
    · simp only [CContext.declare, hInit, Option.some.injEq] at hRun
      subst hRun
      -- a declaration without initializer records nothing, so a name that was known would be
      -- stale
      cases hArray : d.type.isArray with
      | false => exact h.undefined d.name _
      | true =>
        have hKnown : σ.known d.name = false := by
          have hSigned : d.type.isUnsignedInt = false := by
            cases hType : d.type with
            | arrayDecl => rfl
            | typeDecl | ptrDecl => rw [hType] at hArray; cases hArray
          simpa [hSigned, hArray] using hStale
        exact (h.notRecorded hKnown _ σ.time).congr rfl rfl
          (Function.update_eq_self_iff.mpr hKnown.symm).symm
  | some e =>
    obtain ⟨type', e', hCopy, hVisited, hVisit, hExpr, hNew⟩ := visit_declInit h hInit hDecl
    obtain ⟨w, hValue, rfl⟩ := C.declare_init hInit hNew hRun
    obtain ⟨hVal, hReplace⟩ := hVisited.replace hValue
    cases hUnsigned : d.type.isUnsignedInt with
    | true =>
      let recorded := st.record d.name (st.getVal e')
      refine ⟨{ d with type := type', init := some (st.replace e') },
        { recorded with defs := d.name :: recorded.defs }, ?_, ?_, ?_, ?_⟩
      · rw [hVisit, Decl.visitInit, hVisited.present, hUnsigned]
        rfl
      · obtain ⟨name, quals, type, init⟩ := d
        cases hInit
        -- the initializer is replaced by its value where that is known
        refine .decl hCopy (.some ?_)
        rw [hReplace]
        split
        · next hKnown => exact .value hValue ((hVisited.word hKnown).trans hValue)
        · exact hVisited.copy
      · refine (h.record d.name w (e.known σ.known)).congr ?_ rfl rfl
        simp only [recorded, hVal]
      · intro x hx
        rcases List.mem_cons.mp hx with rfl | hx
        · exact Or.inr rfl
        · refine Or.inl ?_
          have hDefs : recorded.defs = st.defs := by
            simp only [recorded]
            cases st.getVal e' <;> rfl
          exact hDefs ▸ hx
    | false =>
      -- another type is never recorded, and the name was not known before
      have hKnown : σ.known d.name = false := by
        simpa [hUnsigned, hInit] using hStale
      refine ⟨{ d with type := type', init := some e' }, st, ?_, ?_, ?_, fun x hx => Or.inl hx⟩
      · rw [hVisit, Decl.visitInit, hVisited.present, hUnsigned]
        rfl
      · obtain ⟨name, quals, type, init⟩ := d
        cases hInit
        exact .decl hCopy (.some hVisited.copy)
      · exact h.notRecorded hKnown _ _

/-- A point of time passes. -/
theorem StaticState.Follows.tick (h : st.Follows σ) : st.Follows σ.tick := h.congr rfl rfl rfl

/-- An expression that fits assigns to no variable. -/
theorem CContext.exec_fits {e : Expr} (hFits : C.fits σ e = true) {σ' : CState}
    (hRun : C.exec σ e = some σ') : σ' = σ.tick := by
  have hValue : ∀ {r : Expr}, (C.valueIn σ r).map (fun _ => σ.tick) = some σ' → σ' = σ.tick := by
    intro r hMap
    obtain ⟨-, -, rfl⟩ := Option.map_eq_some_iff.mp hMap
    rfl
  cases e with
  | assignment => simp [CContext.fits] at hFits
  | unaryOp op e =>
    by_cases hMinus : op = .minus
    · subst hMinus
      exact hValue hRun
    · rcases fits_unary hMinus hFits with ⟨x, rfl, hStep, -⟩ | ⟨name, subscript, rfl, -⟩
      · simp only [CContext.exec, Expr.plain, hStep] at hRun
        exact hValue hRun
      · simp only [CContext.exec, Expr.plain] at hRun
        cases hStep : op.step? with
        | none => rw [hStep] at hRun; exact hValue hRun
        | some step => rw [hStep] at hRun; exact hValue hRun
  | _ =>
    simp only [CContext.exec, Expr.plain] at hRun
    exact hValue hRun

/-- The expression statements that fit. -/
theorem CContext.fitsItem_cases {e : Expr} (hFits : C.fitsItem σ (.expr e) = true) :
    (∃ x r, e = .assignment none (.id x) r ∧ C.fits σ r = true) ∨
    (∃ name subscript r, e = .assignment none (.arrayRef name subscript) r ∧
      (Expr.arrayRef name subscript).isPlace = true ∧ C.fits σ (.arrayRef name subscript) = true ∧
      C.fits σ r = true) ∨
    (∃ op x step, e = .unaryOp op (.id x) ∧ op.step? = some step ∧ σ.known x = false) ∨
    C.fits σ e = true := by
  unfold CContext.fitsItem at hFits
  split at hFits
  · next hEq => cases hEq
  · next op x r hEq =>
    cases hEq
    obtain ⟨hOp, hFits⟩ := Bool.and_eq_true_iff.mp hFits
    cases op with
    | none => exact Or.inl ⟨x, r, rfl, hFits⟩
    | some op => cases hOp
  · next op lvalue r hNotId hEq =>
    cases hEq
    simp only [Bool.and_eq_true] at hFits
    obtain ⟨⟨⟨hOp, hPlace⟩, hElement⟩, hFits⟩ := hFits
    cases op with
    | some op => cases hOp
    | none =>
      cases lvalue with
      | id x => exact absurd rfl (hNotId x)
      | arrayRef name subscript =>
        exact Or.inr (Or.inl ⟨name, subscript, r, rfl, hPlace, hElement, hFits⟩)
      | _ => cases hPlace
  · next op x hEq =>
    cases hEq
    simp only [Bool.and_eq_true, Bool.not_eq_true'] at hFits
    obtain ⟨step, hStep⟩ := Option.isSome_iff_exists.mp hFits.1
    exact Or.inr (Or.inr (Or.inl ⟨op, x, step, rfl, hStep, hFits.2⟩))
  · next hEq =>
    cases hEq
    exact Or.inr (Or.inr (Or.inr hFits))
  · next hEq => cases hEq
  · cases hFits

/-- An expression statement: an assignment to a variable records its value, if that is known. -/
theorem visit_exprStmt (h : st.Follows σ) {e : Expr} (hFits : C.fitsItem σ (.expr e) = true)
    {σ' : CState} (hRun : C.exec σ e = some σ') :
    ∃ e' st', e.visit st = (.ok e', st') ∧ C.ItemCopy σ (.expr e) (.expr e') ∧ st'.Follows σ' ∧
      st'.defs = st.defs := by
  rcases C.fitsItem_cases hFits with ⟨x, r, rfl, hExpr⟩ |
    ⟨name, subscript, r, rfl, hPlace, hElement, hExpr⟩ |
    ⟨op, x, step, rfl, hStep, hKnown⟩ | hExpr
  · obtain ⟨w, hValue, rfl⟩ := Option.map_eq_some_iff.mp hRun
    obtain ⟨e', hVisit, hCopy, -⟩ := visit_assign h hExpr hValue
    refine ⟨_, _, hVisit, hCopy, h.record x w _, ?_⟩
    cases r.known σ.known <;> rfl
  · obtain ⟨w, hValue, rfl⟩ := Option.map_eq_some_iff.mp hRun
    obtain ⟨e', hVisit, hCopy⟩ := visit_store h hPlace hElement hExpr
    exact ⟨e', st, hVisit, hCopy, h.tick, rfl⟩
  · -- `x++` of a variable that is not known
    have hMinus : op ≠ .minus := fun hEq => by rw [hEq] at hStep; cases hStep
    simp only [CContext.exec, Expr.plain, hStep] at hRun
    obtain ⟨w, hValue, rfl⟩ := Option.map_eq_some_iff.mp hRun
    refine ⟨.unaryOp op (.id x), st, ?_, .expr (.unary (.var x)), ?_, rfl⟩
    · rw [visit_unary hMinus, visit_bind (show (Expr.id x).visit st = (.ok (.id x), st) from rfl)]
      simp only [UnOp.visitOperand, Expr.nameAttribute, visit_get, h.env_none hKnown]
      rfl
    · have hNot : Expr.known σ.known (.binaryOp step (.id x) (.constant 1)) = false := by
        simp [Expr.known, hKnown]
      rw [hNot]
      exact h.notRecorded hKnown _ _
  · obtain ⟨e', hVisit, hVisited⟩ := visit_expr h e hExpr
    exact ⟨e', st, hVisit, .expr hVisited.copy, C.exec_fits hExpr hRun ▸ h.tick, rfl⟩

-- ---------------------------------------------------------------------------
-- Loops
-- ---------------------------------------------------------------------------

/-- A loop that the documentation allows starts with an assignment or one declaration. -/
theorem ForInit.iterator?_cases {init : ForInit} {it : String} (h : init.iterator? = some it) :
    (∃ e, init = .expr (.assignment Option.none (.id it) e)) ∨
      ∃ quals names e, init = .declList [⟨it, quals, .typeDecl names, some e⟩] := by
  unfold ForInit.iterator? at h
  split at h
  · cases h
    exact Or.inl ⟨_, rfl⟩
  · cases h
    exact Or.inr ⟨_, _, _, rfl⟩
  · cases h

theorem StaticState.set_env_idem (st : StaticState) (x : String) (v : Option Int) :
    ((st.set x v).set x v).env = (st.set x v).env := Function.update_idem ..

/-- What the visitor makes of the first part of a loop, which it visits twice. -/
structure CContext.Started (C : CContext) (σ σ₁ : CState) (st : StaticState) (init : ForInit)
    (it : String) (s s' : Stmt) (st₁ st₂ : StaticState) : Prop where
  first : visitForInit init st = (.ok (s', it), st₁)
  second : visitItem s' st₁ = (.ok s', st₂)
  env : st₂.env = st₁.env
  copy : C.ItemCopy σ s s'
  follows : st₁.Follows σ₁
  defs : ∀ x ∈ st₂.defs, x ∈ st.defs ∨ x ∈ CContext.initNames init

/-- The start of a loop that is an assignment. -/
theorem started_assign (h : st.Follows σ) {it : String} {e : Expr} (hFits : C.fits σ e = true)
    (hKnown : e.known σ.known = true) {w : Word} (hValue : C.valueIn σ e = some w) :
    ∃ s' st₁ st₂, C.Started σ (σ.assign it w true) st (.expr (.assignment none (.id it) e)) it
      (.expr (.assignment none (.id it) e)) s' st₁ st₂ := by
  obtain ⟨e', hVisit, hCopy, hConstant⟩ := visit_assign h (x := it) hFits hValue
  rw [hConstant hKnown, hKnown, if_pos rfl] at hVisit
  rw [hConstant hKnown] at hCopy
  let st₁ := (st.set it (some w.toNat)).set it (some (w.toNat : Int))
  refine ⟨_, st₁, st₁.set it (some (w.toNat : Int)), ?_, rfl, ?_, hCopy, ?_, fun x hx => Or.inl hx⟩
  · rw [visitForInit, visit_bind hVisit]
    rfl
  · exact Function.update_idem ..
  · have hRecord := h.record it w true
    exact hRecord.congr (st.set_env_idem it _) rfl rfl

/-- A declaration in the start of a loop is visited like any other. -/
theorem visitForInit_decl {d d' : Decl} {e : Expr} {val : Option Int} {st' : StaticState}
    (hVisit : d.visit st = (.ok d', st')) (hInit : d'.init = some e)
    (hEval : evalExpr e st' = (.ok val, st')) :
    visitForInit (.declList [d]) st =
      (.ok (.decl d', d'.name), { st' with defs := d'.name :: st'.defs }.set d'.name val) := by
  rw [visitForInit, visit_bind hVisit]
  simp only [hInit]
  rw [visit_bind hEval]
  rfl

/-- The start of a loop that is a declaration. -/
theorem started_decl (h : st.Follows σ) {it : String} {quals names : List String} {e : Expr}
    (hFits : C.fitsDecl σ ⟨it, quals, .typeDecl names, some e⟩ = true)
    (hKnown : e.known σ.known = true) {w : Word} (hValue : C.valueIn σ e = some w) :
    ∃ s' st₁ st₂, C.Started σ (σ.assign it w true) st
      (.declList [⟨it, quals, .typeDecl names, some e⟩]) it
      (.decl ⟨it, quals, .typeDecl names, some e⟩) s' st₁ st₂ := by
  obtain ⟨type', e', hType, hVisited, hVisit, -, -⟩ := visit_declInit h rfl hFits
  cases hType
  obtain ⟨hVal, hReplace⟩ := hVisited.replace hValue
  rw [if_pos hKnown] at hVal hReplace
  have hRecord := h.record it w true
  let val : Option Int := some (w.toNat : Int)
  cases hUnsigned : (DeclType.typeDecl names).isUnsignedInt with
  | true =>
    -- the value is recorded, and the initializer becomes a constant
    let d' : Decl := ⟨it, quals, .typeDecl names, some (.constant w.toNat)⟩
    let st₀ : StaticState := { st.set it val with defs := it :: st.defs }
    have hVisit₁ : Decl.visit ⟨it, quals, .typeDecl names, some e⟩ st = (.ok d', st₀) := by
      rw [hVisit, Decl.visitInit, hVisited.present, hUnsigned, if_neg Bool.false_ne_true,
        if_pos rfl, visit_get, hVal, hReplace]
      rfl
    let st₁ : StaticState := { st₀ with defs := it :: st₀.defs }.set it val
    let st₂ : StaticState := { st₁.set it val with defs := it :: st₁.defs }
    have hVisit₂ : d'.visit st₁ = (.ok d', st₂) := by
      have hTwice : d'.visit st₁ = d'.visitInit (.typeDecl names) (.constant w.toNat) st₁ := rfl
      rw [hTwice, Decl.visitInit, hUnsigned]
      rfl
    refine ⟨.decl d', st₁, st₂, visitForInit_decl hVisit₁ rfl rfl, ?_, Function.update_idem ..,
      .decl (.typeDecl names) (.some (.value hValue ((hVisited.word hKnown).trans hValue))),
      hRecord.congr (Function.update_idem ..) rfl rfl, fun x hx => ?_⟩
    · rw [visitItem, visit_bind hVisit₂]
      rfl
    · rcases List.mem_cons.mp hx with rfl | hx
      · exact Or.inr (by simp [CContext.initNames])
      · rcases List.mem_cons.mp hx with rfl | hx
        · exact Or.inr (by simp [CContext.initNames])
        · rcases List.mem_cons.mp hx with rfl | hx
          · exact Or.inr (by simp [CContext.initNames])
          · exact Or.inl hx
  | false =>
    -- only `visit_For` records the value
    let d' : Decl := ⟨it, quals, .typeDecl names, some e'⟩
    have hVisit₁ : Decl.visit ⟨it, quals, .typeDecl names, some e⟩ st = (.ok d', st) := by
      rw [hVisit, Decl.visitInit, hVisited.present, hUnsigned]
      rfl
    have hSettled : ∀ st' : StaticState, e'.visit st' = (.ok e', st') := by
      intro st'
      rcases hVisited.shape hKnown w hValue with rfl | ⟨rfl, y, rfl⟩ <;> rfl
    have hEval : evalExpr e' st = (.ok val, st) := by
      rw [evalExpr, visit_bind (hSettled st), visit_get, hVal]
      rfl
    let st₁ : StaticState := { st with defs := it :: st.defs }.set it val
    have hVisit₂ : d'.visit st₁ = (.ok d', st₁) := by
      have hTwice : d'.visit st₁ = (e'.visit >>= d'.visitInit (.typeDecl names)) st₁ := rfl
      rw [hTwice, visit_bind (hSettled st₁), Decl.visitInit, hVisited.present, hUnsigned]
      rfl
    refine ⟨.decl d', st₁, st₁, visitForInit_decl hVisit₁ rfl hEval, ?_, rfl,
      .decl (.typeDecl names) (.some hVisited.copy), hRecord.congr rfl rfl rfl, fun x hx => ?_⟩
    · rw [visitItem, visit_bind hVisit₂]
      rfl
    · rcases List.mem_cons.mp hx with rfl | hx
      · exact Or.inr (by simp [CContext.initNames])
      · exact Or.inl hx

/-- Every start that the documentation allows gives the iterator its value. -/
theorem visit_start (h : st.Follows σ) {init : ForInit} {it : String}
    (hIt : init.iterator? = some it) {s : Stmt} {σ₁ : CState}
    (hRun : C.runInit σ init = some (s, σ₁)) (hFits : C.fitsInit σ s = true) :
    ∃ s' st₁ st₂, C.Started σ σ₁ st init it s s' st₁ st₂ := by
  rcases init.iterator?_cases hIt with ⟨e, rfl⟩ | ⟨quals, names, e, rfl⟩
  · obtain ⟨σ', hExec, hEq⟩ := Option.map_eq_some_iff.mp hRun
    cases hEq
    obtain ⟨w, hValue, rfl⟩ := Option.map_eq_some_iff.mp hExec
    simp only [CContext.fitsInit, Bool.and_eq_true] at hFits
    rw [hFits.2]
    exact started_assign h hFits.1 hFits.2 hValue
  · obtain ⟨σ', hDeclare, hEq⟩ := Option.map_eq_some_iff.mp hRun
    cases hEq
    simp only [CContext.fitsInit, Option.map_some, Option.getD_some, Bool.and_eq_true] at hFits
    obtain ⟨-, -, -, -, -, -, hNew⟩ := visit_declInit h rfl hFits.1
    obtain ⟨w, hValue, rfl⟩ := C.declare_init rfl hNew hDeclare
    rw [hFits.2]
    exact started_decl h hFits.1 hFits.2 hValue

/-- A comparison of `int` is one of `unsigned int` if the order is the same. -/
theorem evalInt_eq_eval_of_order {op : BinOp} (hOp : op.compares = true) {a b : Word}
    (hOrder : CContext.sameOrder op true a b = true) : op.evalInt a b = op.eval a b := by
  cases op with
  | eq | ne => rfl
  | lt | gt | le | ge =>
    have hMsb : a.msb = b.msb := by simpa [CContext.sameOrder] using hOrder
    have hUlt : a.slt b = a.ult b := BitVec.slt_eq_ult_of_msb_eq hMsb
    have hUlt' : b.slt a = b.ult a := BitVec.slt_eq_ult_of_msb_eq hMsb.symm
    simp only [BinOp.evalInt, BinOp.eval, BitVec.sle_eq_not_slt, hUlt, hUlt', BitVec.ult,
      BitVec.lt_def, BitVec.le_def, decide_eq_true_eq, Bool.not_eq_true', decide_eq_false_iff_not,
      not_lt]
  | _ => cases hOp

/-- A test of C and that of the visitor. -/
theorem compare_eq {op : BinOp} (hOp : op.compares = true) {signed : Bool} {a b : Word}
    (hOrder : CContext.sameOrder op signed a b = true) :
    (if signed then op.evalInt a b else op.eval a b) =
      some (if op.holds a.toNat b.toNat then 1 else 0) := by
  have hWords : (if signed then op.evalInt a b else op.eval a b) = op.eval a b := by
    cases signed with
    | false => rfl
    | true => exact evalInt_eq_eval_of_order hOp hOrder
  have hLt : ∀ a b : Word, (a.toNat : Int) < b.toNat ↔ a < b := fun a b => by
    rw [BitVec.lt_def]
    exact Int.ofNat_lt
  have hLe : ∀ a b : Word, (a.toNat : Int) ≤ b.toNat ↔ a ≤ b := fun a b => by
    rw [BitVec.le_def]
    exact Int.ofNat_le
  have hEq : (a.toNat : Int) = b.toNat ↔ a = b := by
    rw [Int.natCast_inj, BitVec.toNat_eq]
  rw [hWords]
  cases op with
  | lt | gt => simp only [BinOp.eval, BinOp.holds, hLt, decide_eq_true_eq]
  | le | ge => simp only [BinOp.eval, BinOp.holds, hLe, decide_eq_true_eq]
  | eq => simp only [BinOp.eval, BinOp.holds, hEq, decide_eq_true_eq]
  | ne =>
    simp only [BinOp.eval, BinOp.holds, ne_eq, hEq, decide_eq_true_eq, ite_not]
  | _ => cases hOp

/-- What the visitor makes of a run of a statement. -/
structure CContext.Simulated (C : CContext) (fuel : Nat) (s : Stmt) (st : StaticState)
    (out : List CEvent × CState) (s' : Stmt) (st' : StaticState) : Prop where
  returns : ∀ k ≥ fuel, s.visit k st = (.ok s', st')
  code : C.Unrolled out.1 s'.marks
  follows : st'.Follows out.2
  defs : ∀ x ∈ st'.defs, x ∈ st.defs ∨ x ∈ blockNames [s]

/-- The step of such a loop is an increment, a decrement or a compound assignment. -/
theorem Expr.isIncrement_cases {next : Expr} (h : next.isIncrement = true) :
    next.plain.plain = next.plain ∧ getNextExpr (some next) = pure (some next.plain) := by
  unfold Expr.isIncrement at h
  split at h
  · next op x =>
    cases op with
    | preIncr | preDecr | postIncr | postDecr => exact ⟨rfl, rfl⟩
    | _ => cases h
  · exact ⟨rfl, rfl⟩
  · cases h

/-- A test against a bound that has kept its value. -/
theorem visit_test (h : st.Follows σ) {first : CState} {op : BinOp} (hOp : op.compares = true)
    {it : String} {bound : Expr} (hFits : C.fitsTest first σ (.binaryOp op (.id it) bound) = true)
    {w b : Word} (hFirst : C.valueIn first bound = some b)
    (hValue : C.valueIn σ (.binaryOp op (.id it) bound) = some w) :
    isNotDone op it (some (b.toNat : Int)) st = (.ok (decide (w ≠ 0)), st) := by
  simp only [CContext.fitsTest, Bool.and_eq_true, beq_iff_eq] at hFits
  obtain ⟨⟨⟨⟨hKnown, -⟩, -⟩, hSame⟩, hOrder⟩ := hFits
  rw [C.value_compare hOp, hSame, hFirst] at hValue
  obtain ⟨a, ha, hValue⟩ := Option.bind_eq_some_iff.mp hValue
  have hVar : σ.vars it = some a := ha
  have hSigned : C.signedOp op (.id it) bound = (C.isInt it && C.signed bound) := by
    cases op with
    | lt | le | gt | ge | eq | ne => rfl
    | _ => cases hOp
  rw [hVar, hSame, hFirst] at hOrder
  rw [Option.bind_some, hSigned, compare_eq hOp hOrder, Option.some.injEq] at hValue
  have hDone : isNotDone op it (some (b.toNat : Int)) st =
      (.ok (op.holds a.toNat b.toNat), st) := by
    rw [isNotDone, visit_get, h.env_some hKnown hVar]
    cases op <;> rfl
  rw [hDone, ← hValue]
  cases op.holds a.toNat b.toNat <;> rfl

section Rounds

variable {fuel : Nat} {stmt : Stmt} {op : BinOp} {it : String} {bound next : Expr} {first : CState}
  {b : Word}

/-- The rounds of a loop. The induction is on the rounds of C. -/
theorem visit_rounds (hOp : op.compares = true) (hNext : next.isIncrement = true)
    (hFirst : C.valueIn first bound = some b) (hNames : blockNames [stmt] = [])
    (hBody : ∀ σ st out, C.run fuel stmt σ = some out → (∀ ev ∈ out.1, C.fitsEvent ev = true) →
      st.Follows σ → ∃ s' st', C.Simulated fuel stmt st out s' st') (n : Nat) (h : st.Follows σ)
    {out : List CEvent × CState}
    (hRun : C.rounds (.binaryOp op (.id it) bound) next (C.run fuel stmt) first n σ = some out)
    (hFits : ∀ ev ∈ out.1, C.fitsEvent ev = true) :
    ∃ copies st', (∀ k ≥ fuel, ∀ m ≥ n, unroll (isNotDone op it (some (b.toNat : Int)))
      (stmt.visit k) (visitNext (some next.plain)) m st = (.ok copies, st')) ∧
      C.Unrolled out.1 (Stmt.marksList copies) ∧ st'.Follows out.2 ∧ ∀ x ∈ st'.defs,
        x ∈ st.defs := by
  -- on the number of rounds of the run; every larger number of copies serves as well
  induction n generalizing σ st out with
  | zero => cases hRun
  | succ n ih =>
    obtain ⟨w, hValue, hRun⟩ := Option.bind_eq_some_iff.mp hRun
    have hTest : ∀ {evs : List CEvent}, out.1 = .test (.binaryOp op (.id it) bound) first σ :: evs →
        isNotDone op it (some (b.toNat : Int)) st = (.ok (decide (w ≠ 0)), st) := by
      intro evs hEvs
      refine visit_test h hOp ?_ hFirst hValue
      exact hFits _ (hEvs ▸ List.mem_cons_self)
    split at hRun
    -- the test fails, and the visitor stops where the program does
    · next hZero =>
      cases hRun
      refine ⟨[], st, fun k _ m hm => ?_, .test .nil, h.tick, fun x hx => hx⟩
      obtain ⟨m, rfl⟩ := Nat.exists_eq_add_of_le' (Nat.le_trans (Nat.le_add_left 1 n) hm)
      rw [unroll, visit_bind (hTest rfl)]
      simp [hZero]
      rfl
    · next hNonzero =>
      obtain ⟨body, hBodyRun, hRun⟩ := Option.bind_eq_some_iff.mp hRun
      obtain ⟨σ₂, hNextRun, hRun⟩ := Option.bind_eq_some_iff.mp hRun
      obtain ⟨rest, hRestRun, rfl⟩ := Option.map_eq_some_iff.mp hRun
      obtain ⟨s', st₁, hSim⟩ :=
        hBody _ st body hBodyRun (fun ev hev => hFits ev (by simp [hev])) h.tick
      -- the visitor copies the increment as a prefix step, which does the same
      obtain ⟨hTwice, -⟩ := next.isIncrement_cases hNext
      have hPlainRun : C.exec body.2 next.plain = some σ₂ := by
        rw [← hNextRun, CContext.exec, CContext.exec, hTwice]
      obtain ⟨e', st₂, hVisit, hCopy, hFollows₂, hDefs₂⟩ :=
        visit_exprStmt hSim.follows (hFits (.item (.expr next.plain) body.2) (by simp)) hPlainRun
      obtain ⟨copies, st₃, hUnroll, hCode, hFollows₃, hDefs₃⟩ :=
        ih hFollows₂ hRestRun fun ev hev => hFits ev (by simp [hev])
      refine ⟨s' :: .expr e' :: copies, st₃, fun k hk m hm => ?_, ?_, hFollows₃, fun x hx => ?_⟩
      · obtain ⟨m, rfl⟩ := Nat.exists_eq_add_of_le' (Nat.le_trans (Nat.le_add_left 1 n) hm)
        have hNextVisit : visitNext (some next.plain) st₁ = (.ok (.expr e'), st₂) := by
          rw [visitNext, visit_bind hVisit]
          rfl
        rw [unroll, visit_bind (hTest rfl)]
        simp only [ne_eq, hNonzero, not_false_eq_true, decide_true, if_true]
        rw [visit_bind (hSim.returns k hk), visit_bind hNextVisit,
          visit_bind (hUnroll k hk m (by omega))]
        rfl
      · exact .test (hSim.code.append (.item hCopy hCode))
      -- the body declares no name outside its own blocks
      · rcases hSim.defs x (hDefs₂ ▸ hDefs₃ x hx) with hIn | hName
        · exact hIn
        · rw [hNames] at hName
          cases hName

end Rounds

/-- An item that is copied is one mark. -/
theorem CContext.ItemCopy.marks {s s' : Stmt} (h : C.ItemCopy σ s s') : s'.marks = [.item s'] := by
  cases h <;> rfl

/-- A loop tests its condition at least once. -/
theorem rounds_first {cond next : Expr} {body : CState → Option (List CEvent × CState)}
    {first : CState} {n : Nat} {out : List CEvent × CState}
    (hRun : C.rounds cond next body first n σ = some out) :
    (∃ w, C.valueIn σ cond = some w) ∧ .test cond first σ ∈ out.1 := by
  cases n with
  | zero => cases hRun
  | succ n =>
    obtain ⟨w, hValue, hRun⟩ := Option.bind_eq_some_iff.mp hRun
    refine ⟨⟨w, hValue⟩, ?_⟩
    split at hRun
    · cases hRun
      exact List.mem_cons_self
    · obtain ⟨body, -, hRun⟩ := Option.bind_eq_some_iff.mp hRun
      obtain ⟨σ₂, -, hRun⟩ := Option.bind_eq_some_iff.mp hRun
      obtain ⟨rest, -, rfl⟩ := Option.map_eq_some_iff.mp hRun
      exact List.mem_cons_self

/-- The bound at the first test. -/
theorem visit_bound (h : st.Follows σ) {op : BinOp} (hOp : op.compares = true) {it : String}
    {bound : Expr} (hFits : C.fitsTest σ σ (.binaryOp op (.id it) bound) = true) {w : Word}
    (hValue : C.valueIn σ (.binaryOp op (.id it) bound) = some w) :
    ∃ b, C.valueIn σ bound = some b ∧ evalExpr bound st = (.ok (some (b.toNat : Int)), st) := by
  rw [C.value_compare hOp] at hValue
  obtain ⟨a, -, hValue⟩ := Option.bind_eq_some_iff.mp hValue
  obtain ⟨b, hb, -⟩ := Option.bind_eq_some_iff.mp hValue
  simp only [CContext.fitsTest, Bool.and_eq_true] at hFits
  obtain ⟨bound', hVisit, hVisited⟩ := visit_expr h bound hFits.1.1.2
  refine ⟨b, hb, ?_⟩
  rw [evalExpr, visit_bind hVisit, visit_get, hVisited.val, hFits.1.1.1.2, if_pos rfl, hb]
  rfl

/-- A loop is unrolled into its rounds: induction on the rounds, in which the iterator is known.
-/
theorem visit_loop {fuel : Nat} {init : ForInit} {cond next : Option Expr} {stmt : Stmt}
    (hDoc : documentedLoop init cond next = true) (hNames : blockNames [stmt] = [])
    (hBody : ∀ σ st out, C.run fuel stmt σ = some out → (∀ ev ∈ out.1, C.fitsEvent ev = true) →
      st.Follows σ → ∃ s' st', C.Simulated fuel stmt st out s' st') (h : st.Follows σ)
    {out : List CEvent × CState} (hRun : C.run fuel (.forLoop init cond next stmt) σ = some out)
    (hFits : ∀ ev ∈ out.1, C.fitsEvent ev = true) :
    ∃ s' st', C.Simulated fuel (.forLoop init cond next stmt) st out s' st' := by
  unfold documentedLoop at hDoc
  split at hDoc
  · next _ _ _ it op x bound next hIt =>
    simp only [Bool.and_eq_true, beq_iff_eq] at hDoc
    obtain ⟨⟨rfl, hOp⟩, hNext⟩ := hDoc
    obtain ⟨⟨s, σ₁⟩, hInitRun, hRun⟩ := Option.bind_eq_some_iff.mp hRun
    obtain ⟨inner, hRoundsRun, rfl⟩ := Option.map_eq_some_iff.mp hRun
    have hEnter : st.enterScope.Follows σ := h.congr rfl rfl rfl
    obtain ⟨s', st₁, st₂, hStart⟩ := visit_start hEnter hIt hInitRun (hFits (.init s σ) (by simp))
    obtain ⟨⟨w, hValue⟩, hFirst⟩ := rounds_first hRoundsRun
    have hTest : C.fitsTest σ₁ σ₁ (.binaryOp op (.id x) bound) = true :=
      hFits (.test (.binaryOp op (.id x) bound) σ₁ σ₁)
        (List.mem_append_left _ (List.mem_cons_of_mem _ (List.mem_cons_of_mem _ hFirst)))
    -- the bound is known, and the same in every round
    obtain ⟨b, hb, hStop⟩ := visit_bound hStart.follows hOp hTest hValue
    obtain ⟨copies, st₃, hUnroll, hCode, hFollows, hDefs⟩ :=
      visit_rounds hOp hNext hb hNames hBody fuel
      (hStart.follows.congr hStart.env rfl rfl) hRoundsRun fun ev hev => hFits ev (by simp [hev])
    have hNew : ∀ y ∈ CContext.initNames init, σ.vars y = none := by
      have hEnterFits := hFits (.enter (CContext.initNames init) σ) (by simp)
      simpa [CContext.fitsEvent] using hEnterFits
    -- the loop becomes a block: its first part, then one copy of the body for each round
    refine ⟨.compound (s' :: copies), st₃.exitScope st, fun k hk => ?_, ?_, ?_,
      fun y hy => Or.inl hy⟩
    · have hLoop : Stmt.visit k (.forLoop init (some (.binaryOp op (.id x) bound))
        (some next) stmt) =
          visitFor k init (some (.binaryOp op (.id x) bound)) (some next) (stmt.visit k) := rfl
      rw [hLoop, visitFor, visit_get, visit_set, visit_bind hStart.first]
      simp only [(next.isIncrement_cases hNext).2, hOp, if_true, pure_bind]
      rw [visit_bind hStop, visit_bind hStart.second, visit_bind (hUnroll k hk k hk)]
      rfl
    · have hMarks : (Stmt.compound (s' :: copies)).marks =
          .enter :: .item s' :: (Stmt.marksList copies ++ [.leave]) := by
        rw [Stmt.marks, Stmt.marksList, hStart.copy.marks]
        rfl
      rw [hMarks]
      exact .enter (.init hStart.copy (hCode.append (.leave .nil)))
    · refine h.leave hFollows hNew fun y hy => ?_
      exact (hStart.defs y (hDefs y hy)).resolve_left (by simp [StaticState.enterScope])
  · cases hDoc

/-- A run of a list of statements. -/
structure CContext.SimulatedList (C : CContext) (fuel : Nat) (stmts : List Stmt) (st : StaticState)
    (out : List CEvent × CState) (stmts' : List Stmt) (st' : StaticState) : Prop where
  returns : ∀ k ≥ fuel, Stmt.visitList k stmts st = (.ok stmts', st')
  code : C.Unrolled out.1 (Stmt.marksList stmts')
  follows : st'.Follows out.2
  defs : ∀ x ∈ st'.defs, x ∈ st.defs ∨ x ∈ blockNames stmts

mutual

/-- A run of C, statement by statement. -/
theorem visit_run (fuel : Nat) : ∀ s : Stmt, s.documented = true → ∀ (σ : CState) (st : StaticState)
    (out : List CEvent × CState), C.run fuel s σ = some out →
      (∀ ev ∈ out.1, C.fitsEvent ev = true) →
    st.Follows σ → ∃ s' st', C.Simulated fuel s st out s' st'
  | .decl d, _, σ, st, out, hRun, hFits, h => by
    obtain ⟨σ', hDeclare, rfl⟩ := Option.map_eq_some_iff.mp hRun
    obtain ⟨d', st', hVisit, hCopy, hFollows, hDefs⟩ :=
      visit_decl h (hFits (.item (.decl d) σ) List.mem_cons_self) hDeclare
    refine ⟨.decl d', st', fun k _ => ?_, .item hCopy .nil, hFollows, ?_⟩
    · rw [Stmt.visit, visitItem, visit_bind hVisit]
      rfl
    · simpa [blockNames] using hDefs
  | .expr e, _, σ, st, out, hRun, hFits, h => by
    obtain ⟨σ', hExec, rfl⟩ := Option.map_eq_some_iff.mp hRun
    obtain ⟨e', st', hVisit, hCopy, hFollows, hDefs⟩ :=
      visit_exprStmt h (hFits (.item (.expr e) σ) List.mem_cons_self) hExec
    refine ⟨.expr e', st', fun k _ => ?_, .item hCopy .nil, hFollows,
      fun x hx => Or.inl (hDefs ▸ hx)⟩
    rw [Stmt.visit, visitItem, visit_bind hVisit]
    rfl
  | .emptyStatement, _, σ, st, out, hRun, _, h => by
    cases hRun
    exact ⟨.emptyStatement, st, fun k _ => rfl, .item .empty .nil, h, fun x hx => Or.inl hx⟩
  | .compound items, hDoc, σ, st, out, hRun, hFits, h => by
    obtain ⟨inner, hInnerRun, rfl⟩ := Option.map_eq_some_iff.mp hRun
    have hEnter : st.enterScope.Follows σ := h.congr rfl rfl rfl
    obtain ⟨items', st₁, hList⟩ := visit_runList fuel items hDoc σ st.enterScope inner hInnerRun
      (fun ev hev => hFits ev (by simp [hev])) hEnter
    -- the names of the block mean nothing outside it, so the old scope is right again
    have hNew : ∀ y ∈ blockNames items, σ.vars y = none := by
      have hEnterFits := hFits (.enter (blockNames items) σ) (by simp)
      simpa [CContext.fitsEvent] using hEnterFits
    refine ⟨.compound items', st₁.exitScope st, fun k hk => ?_, ?_, ?_, fun y hy => Or.inl hy⟩
    · rw [Stmt.visit, visit_get, visit_set, visit_bind (hList.returns k hk)]
      rfl
    · exact .enter (hList.code.append (.leave .nil))
    · refine h.leave hList.follows hNew fun y hy => ?_
      exact (hList.defs y hy).resolve_left (by simp [StaticState.enterScope])
  | .forLoop init cond next stmt, hDoc, σ, st, out, hRun, hFits, h => by
    simp only [Stmt.documented, Bool.and_eq_true, List.isEmpty_iff] at hDoc
    exact visit_loop hDoc.1.1 hDoc.1.2 (visit_run fuel stmt hDoc.2) h hRun hFits
  | .ret _, _, _, _, _, hRun, _, _ | .ifElse .., _, _, _, _, hRun, _, _
  | .whileLoop .., _, _, _, _, hRun, _, _ | .doWhile .., _, _, _, _, hRun, _, _
  | .switch .., _, _, _, _, hRun, _, _ | .case .., _, _, _, _, hRun, _, _
  | .default _, _, _, _, _, hRun, _, _ | .label .., _, _, _, _, hRun, _, _
  | .goto _, _, _, _, _, hRun, _, _ | .breakStmt, _, _, _, _, hRun, _, _
  | .continueStmt, _, _, _, _, hRun, _, _ => by cases hRun

/-- A list is unrolled statement by statement. -/
theorem visit_runList (fuel : Nat) : ∀ stmts : List Stmt, Stmt.documentedList stmts = true →
    ∀ (σ : CState) (st : StaticState) (out : List CEvent × CState),
      C.runList fuel stmts σ = some out →
    (∀ ev ∈ out.1, C.fitsEvent ev = true) → st.Follows σ →
    ∃ stmts' st', C.SimulatedList fuel stmts st out stmts' st'
  | [], _, σ, st, out, hRun, _, h => by
    cases hRun
    exact ⟨[], st, fun k _ => rfl, .nil, h, fun x hx => Or.inl hx⟩
  | s :: stmts, hDoc, σ, st, out, hRun, hFits, h => by
    simp only [Stmt.documentedList, Bool.and_eq_true] at hDoc
    obtain ⟨head, hHeadRun, hRun⟩ := Option.bind_eq_some_iff.mp hRun
    obtain ⟨rest, hRestRun, rfl⟩ := Option.map_eq_some_iff.mp hRun
    obtain ⟨s', st₁, hHead⟩ := visit_run fuel s hDoc.1 σ st head hHeadRun
      (fun ev hev => hFits ev (List.mem_append_left _ hev)) h
    obtain ⟨stmts', st₂, hRest⟩ := visit_runList fuel stmts hDoc.2 head.2 st₁ rest hRestRun
      (fun ev hev => hFits ev (List.mem_append_right _ hev)) hHead.follows
    refine ⟨s' :: stmts', st₂, fun k hk => ?_, hHead.code.append hRest.code, hRest.follows,
      fun x hx => ?_⟩
    · rw [Stmt.visitList, visit_bind (hHead.returns k hk), visit_bind (hRest.returns k hk)]
      rfl
    · rw [blockNames_cons, List.mem_append]
      rcases hRest.defs x hx with hIn | hName
      · exact (hHead.defs x hIn).imp_right Or.inl
      · exact Or.inr (Or.inr hName)

end

end Lemmas

-- ---------------------------------------------------------------------------
-- Loops of C and unrolled loops
-- ---------------------------------------------------------------------------

namespace CContext

variable (C : CContext)

end CContext

def CEvent.isTest : CEvent → Bool
  | .test .. => true
  | _ => false

/-- There is a mark for every event that is not a test. -/
theorem CContext.Unrolled.length {C : CContext} {evs : List CEvent} {marks : List Mark}
    (h : C.Unrolled evs marks) : marks.length = (evs.filter fun ev => !ev.isTest).length := by
  induction h with
  | nil => rfl
  | test _ ih => simpa [CEvent.isTest] using ih
  | _ => simp_all [CEvent.isTest]

/-- A point of a block that the visitor and a run of C reach together, and the events before it. -/
inductive CContext.Reaches (C : CContext) (fuel : Nat) :
    List Stmt → CState → StaticState → List CEvent → CState → StaticState → Prop where
  | here {stmts : List Stmt} {σ : CState} {st : StaticState} : Reaches C fuel stmts σ st [] σ st
  | next {s s' : Stmt} {stmts : List Stmt} {σ σ₁ : CState} {st st' st₁ : StaticState}
      {out : List CEvent × CState} {evs : List CEvent} (hRun : C.run fuel s σ = some out)
      (hVisit : s.visit fuel st = (.ok s', st')) (h : Reaches C fuel stmts out.2 st' evs σ₁ st₁) :
      Reaches C fuel (s :: stmts) σ st (out.1 ++ evs) σ₁ st₁
  | into {items stmts : List Stmt} {σ σ₁ : CState} {st st₁ : StaticState} {evs : List CEvent}
      (h : Reaches C fuel items σ st.enterScope evs σ₁ st₁) :
      Reaches C fuel (.compound items :: stmts) σ st (.enter (blockNames items) σ :: evs) σ₁ st₁

/-- What the visitor has for a variable is a word, and the value that the variable has in C. -/
def StaticState.Right (st : StaticState) (σ : CState) : Prop :=
  ∀ x v, st.env x = some v →
    ∃ w : Word, v = some (w.toNat : Int) ∧ ∀ w', σ.vars x = some w' → w' = w

section Points

variable {C : CContext} {fuel : Nat}

/-- At every point that is reached the known variables have the values of C. -/
theorem CContext.Reaches.follows {stmts : List Stmt} {σ σ₁ : CState} {st st₁ : StaticState}
    {evs : List CEvent} (hReaches : C.Reaches fuel stmts σ st evs σ₁ st₁)
    (hDoc : Stmt.documentedList stmts = true) (hFits : ∀ ev ∈ evs, C.fitsEvent ev = true)
    (h : st.Follows σ) : st₁.Follows σ₁ := by
  induction hReaches with
  | here => exact h
  | @next s s' stmts σ σ₁ st st' st₁ out evs hRun hVisit _ ih =>
    simp only [Stmt.documentedList, Bool.and_eq_true] at hDoc
    obtain ⟨s₂, st₂, hSim⟩ := visit_run fuel s hDoc.1 σ st out hRun
      (fun ev hev => hFits ev (List.mem_append_left _ hev)) h
    have hSame := (hSim.returns fuel le_rfl).symm.trans hVisit
    cases hSame
    exact ih hDoc.2 (fun ev hev => hFits ev (List.mem_append_right _ hev)) hSim.follows
  | into _ ih =>
    simp only [Stmt.documentedList, Stmt.documented, Bool.and_eq_true] at hDoc
    exact ih hDoc.1 (fun ev hev => hFits ev (List.mem_cons_of_mem _ hev)) (h.congr rfl rfl rfl)

end Points

namespace CContext

end CContext

/-- Going on by a statement that C runs and the visitor visits. -/
theorem CContext.Reaches.step {C : CContext} {fuel : Nat} {s : Stmt} {stmts : List Stmt}
    {σ σ₁ : CState} {st st₁ : StaticState} {evs : List CEvent}
    (hRun : (C.run fuel s σ).isSome = true) (hVisit : (s.visit fuel st).1.isOk = true)
    (h : C.Reaches fuel stmts ((C.run fuel s σ).get hRun).2 (s.visit fuel st).2 evs σ₁ st₁) :
    C.Reaches fuel (s :: stmts) σ st (((C.run fuel s σ).get hRun).1 ++ evs) σ₁ st₁ := by
  cases hOk : (s.visit fuel st).1 with
  | error e =>
    rw [hOk] at hVisit
    cases hVisit
  | ok s' => exact .next (Option.some_get hRun).symm (Prod.ext hOk rfl) h

end Obscure
