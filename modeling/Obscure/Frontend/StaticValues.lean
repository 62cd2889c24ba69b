import Obscure.Frontend.CLoops
import Obscure.Frontend.ToHLIR

/-!
# OBSCURE — static evaluation agrees with C

The evaluation of `NodeCopyVisitorWithEnv` against the meaning of C, one expression at a time. Its
integers are those of Python: literals are not reduced, `-` is not reduced either, and `int` is
treated as `unsigned int`. The condition `fits` keeps away from these cases.

* `visit_expr` — an expression that fits is copied, with constants for some of its parts that have
  these values in C, and its own value is known to the visitor exactly when it is statically known.
-/

namespace Obscure

-- ---------------------------------------------------------------------------
-- The condition on expressions
-- ---------------------------------------------------------------------------

/-- The value that the secure element computes for an expression, on unsigned words. -/
def Expr.wordValue (ρ : Env) : Expr → Option Word
  | .id x => ρ x
  | .constant value => some (BitVec.ofInt 32 value)
  | .unaryOp .minus e => (e.wordValue ρ).bind fun w => instructionExecute .SUB 0 w 0
  | .binaryOp op left right =>
    (left.wordValue ρ).bind fun a => (right.wordValue ρ).bind fun b =>
      (convertOperator op).bind fun opcode => instructionExecute opcode a b 0
  | _ => none

/-- What can be assigned to. -/
def Expr.isPlace : Expr → Bool
  | .id _ => true
  | .arrayRef name _ => name.isPlace
  | _ => false

namespace CContext

variable (C : CContext)

/-- On these operands the operator of C and that on unsigned words agree, and a shift is by less
than the width. -/
def sameAsWords (σ : CState) (op : BinOp) (left right : Expr) : Bool :=
  match C.valueIn σ left, C.valueIn σ right with
  | some a, some b =>
    match op with
    | .shl => b.toNat < 32
    | .shr => b.toNat < 32 && !(C.signedOp op left right && a.msb)
    | .div | .mod => !(C.signedOp op left right && (a.msb || b.msb))
    | .lt => !C.signedOp op left right || a.msb == b.msb
    | _ => true
  | _, _ => true

mutual

/-- An expression that the visitor evaluates as C does. -/
def fits (σ : CState) : Expr → Bool
  | .id x => !σ.known x || (σ.vars x).isSome
  | .constant value => 0 ≤ value && value < 2 ^ 32
  | .arrayRef name subscript => name.isPlace && fits σ name && fits σ subscript
  | .unaryOp .minus e => fits σ e && (!e.known σ.known || C.valueIn σ e = some 0)
  | .unaryOp op (.id x) => op.step?.isNone && !σ.known x
  | .unaryOp _ (.arrayRef name subscript) => name.isPlace && fits σ name && fits σ subscript
  | .unaryOp .. => false
  | .binaryOp op left right =>
    op.folded && fits σ left && fits σ right &&
      (!(left.known σ.known && right.known σ.known) || C.sameAsWords σ op left right)
  | .ternaryOp cond iftrue iffalse => fits σ cond && fits σ iftrue && fits σ iffalse
  | .funcCall name args => name.isPlace && fits σ name && fitsList σ args
  | .assignment .. => false
  | .exprList exprs => !exprs.isEmpty && fitsList σ exprs
  | .initList exprs => fitsList σ exprs

def fitsList (σ : CState) : List Expr → Bool
  | [] => true
  | e :: exprs => fits σ e && fitsList σ exprs

end

-- ---------------------------------------------------------------------------
-- Copies
-- ---------------------------------------------------------------------------

mutual

/-- A copy of something that is assigned to. -/
inductive Place (σ : CState) : Expr → Expr → Prop where
  | var (x : String) : Place σ (.id x) (.id x)
  | element {name name' subscript subscript' : Expr} (hName : Place σ name name')
      (hSubscript : Copy σ subscript subscript') :
      Place σ (.arrayRef name subscript) (.arrayRef name' subscript')

/-- A copy in which every constant that replaces a part is the value of that part, in C and on the
secure element. -/
inductive Copy (σ : CState) : Expr → Expr → Prop where
  | place {e e' : Expr} (h : Place σ e e') : Copy σ e e'
  | value {e : Expr} {w : Word} (hC : C.valueIn σ e = some w)
    (hWord : e.wordValue σ.vars = some w) :
      Copy σ e (.constant w.toNat)
  | literal (value : Int) : Copy σ (.constant value) (.constant value)
  | minus {e e' : Expr} (h : Copy σ e e') : Copy σ (.unaryOp .minus e) (.unaryOp .minus e')
  | unary {op : UnOp} {e e' : Expr} (h : Place σ e e') : Copy σ (.unaryOp op e) (.unaryOp op e')
  | binary {op : BinOp} {left left' right right' : Expr} (hLeft : Copy σ left left')
      (hRight : Copy σ right right') : Copy σ (.binaryOp op left right) (.binaryOp op left' right')
  | ternary {cond cond' iftrue iftrue' iffalse iffalse' : Expr} (hCond : Copy σ cond cond')
      (hTrue : Copy σ iftrue iftrue') (hFalse : Copy σ iffalse iffalse') :
      Copy σ (.ternaryOp cond iftrue iffalse) (.ternaryOp cond' iftrue' iffalse')
  | call {name name' : Expr} {args args' : List Expr} (hName : Place σ name name')
      (hArgs : CopyList σ args args') : Copy σ (.funcCall name args) (.funcCall name' args')
  | exprs {exprs exprs' : List Expr} (h : CopyList σ exprs exprs') :
      Copy σ (.exprList exprs) (.exprList exprs')
  | inits {exprs exprs' : List Expr} (h : CopyList σ exprs exprs') :
      Copy σ (.initList exprs) (.initList exprs')

inductive CopyList (σ : CState) : List Expr → List Expr → Prop where
  | nil : CopyList σ [] []
  | cons {e e' : Expr} {exprs exprs' : List Expr} (h : Copy σ e e')
    (hRest : CopyList σ exprs exprs') :
      CopyList σ (e :: exprs) (e' :: exprs')

end

end CContext

-- ---------------------------------------------------------------------------
-- The state of the visitor in a run
-- ---------------------------------------------------------------------------

/-- The visitor has the values of the known variables, and of no others. A variable that is not
initialized may have kept the value of an earlier pass through its block. -/
structure StaticState.Follows (st : StaticState) (σ : CState) : Prop where
  sound : ∀ x v, st.env x = some v → σ.known x = true ∧
    ∃ w : Word, v = some (w.toNat : Int) ∧ ∀ w', σ.vars x = some w' → w' = w
  complete : ∀ x, σ.known x = true → (σ.vars x).isSome = true → (st.env x).isSome = true

section Follows

variable {st : StaticState} {σ : CState}

/-- A variable that is not known has no value. -/
theorem StaticState.Follows.env_none (h : st.Follows σ) {x : String} (hKnown : σ.known x = false) :
    st.env x = none := by
  cases hEnv : st.env x with
  | none => rfl
  | some v => rw [(h.sound x v hEnv).1] at hKnown; cases hKnown

/-- One that is known has the value of C. -/
theorem StaticState.Follows.env_some (h : st.Follows σ) {x : String} (hKnown : σ.known x = true)
    {w : Word} (hw : σ.vars x = some w) : st.env x = some (some (w.toNat : Int)) := by
  obtain ⟨v, hv⟩ := Option.isSome_iff_exists.mp (h.complete x hKnown (by simp [hw]))
  obtain ⟨-, u, rfl, hValue⟩ := h.sound x v hv
  rw [hv, hValue w hw]

end Follows

-- ---------------------------------------------------------------------------
-- Operators
-- ---------------------------------------------------------------------------

/-- On operands without a sign the operators of `int` are those of `unsigned int`. -/
theorem evalInt_eq_eval {op : BinOp} {a b : Word} (hFolded : op.folded = true)
    (hDiv : op = .div ∨ op = .mod → a.msb = false ∧ b.msb = false)
    (hShr : op = .shr → a.msb = false) (hLt : op = .lt → a.msb = b.msb) :
    op.evalInt a b = op.eval a b := by
  cases op with
  | div =>
    obtain ⟨ha, hb⟩ := hDiv (Or.inl rfl)
    simp only [BinOp.evalInt, BinOp.eval, BitVec.sdiv, ha, hb]
    rfl
  | mod =>
    obtain ⟨ha, hb⟩ := hDiv (Or.inr rfl)
    simp only [BinOp.evalInt, BinOp.eval, BitVec.srem, ha, hb]
    rfl
  | shr =>
    simp only [BinOp.evalInt, BinOp.eval, BitVec.sshiftRight_eq_of_msb_false (hShr rfl)]
    rfl
  | lt =>
    have hSlt : a.slt b = a.ult b := BitVec.slt_eq_ult_of_msb_eq (hLt rfl)
    simp only [BinOp.evalInt, BinOp.eval, hSlt, BitVec.ult, BitVec.lt_def, decide_eq_true_eq]
  | le | gt | ge | ne | land | lor => cases hFolded
  | add | sub | mul | and | or | xor | shl | eq => rfl

/-- The exclusive or of two words is zero if they are equal. -/
theorem xor_toNat_eq_zero (a b : Word) : Int.xor (a.toNat : Int) b.toNat = 0 ↔ a = b := by
  have hXor : Int.xor (a.toNat : Int) b.toNat = ((a ^^^ b).toNat : Int) := by
    rw [BitVec.toNat_xor]
    rfl
  rw [hXor, Int.natCast_eq_zero, ← BitVec.toNat_zero (w := 32), ← BitVec.toNat_eq,
    BitVec.xor_eq_zero_iff]

/-- On the values of words the integers of the visitor are those words. -/
theorem fold_eq_eval {op : BinOp} (hFolded : op.folded = true) {a b : Word}
    (hShift : op = .shl ∨ op = .shr → b.toNat < 32) :
    op.fold a.toNat b.toNat = (op.eval a b).map fun w => (w.toNat : Int) := by
  cases op with
  | add | mul => simp [BinOp.fold, BinOp.eval]
  | sub =>
    have ha : a.toNat < 2 ^ 32 := a.isLt
    have hb : b.toNat < 2 ^ 32 := b.isLt
    simp only [BinOp.fold, BinOp.eval, Option.map_some, BitVec.toNat_sub, Option.some.injEq]
    omega
  | div =>
    by_cases hZero : b = 0
    · simp [BinOp.fold, BinOp.eval, hZero]
    · have hNat : b.toNat ≠ 0 := fun h => hZero (BitVec.eq_of_toNat_eq h)
      simpa [BinOp.fold, BinOp.eval, hNat, Int.fdiv_eq_ediv_of_nonneg] using hZero
  | mod =>
    by_cases hZero : b = 0
    · simp [BinOp.fold, BinOp.eval, hZero]
    · have hNat : b.toNat ≠ 0 := fun h => hZero (BitVec.eq_of_toNat_eq h)
      simpa [BinOp.fold, BinOp.eval, hNat, Int.fmod_eq_emod_of_nonneg] using hZero
  | and => simp [BinOp.fold, BinOp.eval, Int.land]
  | or => simp [BinOp.fold, BinOp.eval, Int.lor]
  | xor => simp [BinOp.fold, BinOp.eval, Int.xor]
  | shl =>
    have hLt := hShift (Or.inl rfl)
    simp [BinOp.fold, BinOp.eval, hLt, Nat.shiftLeft_eq]
  | shr =>
    have hLt := hShift (Or.inr rfl)
    simp [BinOp.fold, BinOp.eval, hLt, Nat.shiftRight_eq_div_pow]
  | lt =>
    simp only [BinOp.fold, BinOp.eval, BitVec.lt_def, Option.map_some, Int.ofNat_lt]
    split <;> rfl
  | eq =>
    simp only [BinOp.fold, BinOp.eval, xor_toNat_eq_zero, Option.map_some]
    split <;> rfl
  | le | gt | ge | ne | land | lor => cases hFolded

/-- The secure element has the operators that the visitor evaluates. -/
theorem execute_convertOperator {op : BinOp} (hFolded : op.folded = true) (a b : Word) :
    ((convertOperator op).bind fun opcode => instructionExecute opcode a b 0) = op.eval a b := by
  cases op with
  | le | gt | ge | ne | land | lor => cases hFolded
  | _ => rfl

section Operands

variable {C : CContext} {σ : CState}

/-- An operator that reads both operands. -/
theorem CContext.value_binary {op : BinOp} (hLand : op ≠ .land) (hLor : op ≠ .lor)
    (left right : Expr) :
    C.valueIn σ (.binaryOp op left right) = (C.valueIn σ left).bind fun a =>
      (C.valueIn σ right).bind fun b =>
        if C.signedOp op left right then op.evalInt a b else op.eval a b := by
  rw [CContext.valueIn, CContext.value]
  · rfl
  · exact hLand
  · exact hLor

/-- A comparison evaluates both its operands. -/
theorem CContext.value_compare {op : BinOp} (hOp : op.compares = true) (left right : Expr) :
    C.valueIn σ (.binaryOp op left right) = (C.valueIn σ left).bind fun a =>
      (C.valueIn σ right).bind fun b =>
        if C.signedOp op left right then op.evalInt a b else op.eval a b := by
  refine CContext.value_binary (fun hLand => ?_) (fun hLor => ?_) left right
  · rw [hLand] at hOp
    cases hOp
  · rw [hLor] at hOp
    cases hOp

/-- On operands for which C computes as on unsigned words, so does the visitor. -/
theorem CContext.fold_eq_value {op : BinOp} (hFolded : op.folded = true) {left right : Expr}
    (hSame : C.sameAsWords σ op left right = true) :
    (((C.valueIn σ left).map fun w => (w.toNat : Int)).bind fun lval =>
        ((C.valueIn σ right).map fun w => (w.toNat : Int)).bind fun rval => op.fold lval rval) =
      (C.valueIn σ (.binaryOp op left right)).map (fun w => (w.toNat : Int)) ∧
    C.valueIn σ (.binaryOp op left right) = (C.valueIn σ left).bind fun a =>
      (C.valueIn σ right).bind fun b => op.eval a b := by
  rw [C.value_binary (fun h => by rw [h] at hFolded; cases hFolded)
    fun h => by rw [h] at hFolded; cases hFolded]
  cases ha : C.valueIn σ left with
  | none => exact ⟨rfl, rfl⟩
  | some a =>
    cases hb : C.valueIn σ right with
    | none => exact ⟨rfl, rfl⟩
    | some b =>
      simp only [CContext.sameAsWords, ha, hb] at hSame
      have hOp : (if C.signedOp op left right then op.evalInt a b else op.eval a b) =
          op.eval a b := by
        split
        · next hSigned =>
          simp only [hSigned, Bool.true_and] at hSame
          refine evalInt_eq_eval hFolded ?_ ?_ ?_
          · rintro (rfl | rfl) <;> simpa using hSame
          · rintro rfl
            exact (by simpa using hSame : b.toNat < 32 ∧ a.msb = false).2
          · rintro rfl
            simpa using hSame
        · rfl
      have hFold : op.fold a.toNat b.toNat = (op.eval a b).map fun w => (w.toNat : Int) := by
        refine fold_eq_eval hFolded ?_
        rintro (rfl | rfl)
        · simpa using hSame
        · exact (by simpa using hSame : b.toNat < 32 ∧ _).1
      simp only [Option.map_some, Option.bind_some, hOp, hFold, and_self]

end Operands

-- ---------------------------------------------------------------------------
-- Expressions
-- ---------------------------------------------------------------------------

/-- What the visitor makes of an expression. -/
structure CContext.Visited (C : CContext) (σ : CState) (st : StaticState) (e e' : Expr) : Prop where
  copy : C.Copy σ e e'
  place : e.isPlace = true → C.Place σ e e'
  val : st.getVal e' = if e.known σ.known then (C.valueIn σ e).map fun w =>
    (w.toNat : Int) else none
  shape : e.known σ.known = true → ∀ w, C.valueIn σ e = some w →
    e' = .constant w.toNat ∨ (e' = e ∧ ∃ x, e = .id x)
  word : e.known σ.known = true → e.wordValue σ.vars = C.valueIn σ e
  present : e'.isAbsent = false

section Expressions

variable {C : CContext} {σ : CState} {st : StaticState}

attribute [local simp] CContext.fits

/-- A variable is replaced by its value, if that is known. -/
theorem visited_id (h : st.Follows σ) {x : String} (hFits : C.fits σ (.id x) = true) :
    C.Visited σ st (.id x) (.id x) where
  copy := .place (.var x)
  place _ := .var x
  val := by
    cases hKnown : σ.known x with
    | false => simp [StaticState.getVal, h.env_none hKnown, Expr.known, hKnown]
    | true =>
      obtain ⟨w, hw⟩ := Option.isSome_iff_exists.mp (by simpa [hKnown] using hFits)
      simp [StaticState.getVal, h.env_some hKnown hw, Expr.known, hKnown, CContext.valueIn,
        CContext.value, hw]
  shape _ w _ := Or.inr ⟨rfl, x, rfl⟩
  word _ := rfl
  present := rfl

theorem visited_constant {value : Int} (hFits : C.fits σ (.constant value) = true) :
    C.Visited σ st (.constant value) (.constant value) := by
  have hRange : 0 ≤ value ∧ value < 2 ^ 32 := by simpa using hFits
  have hValue : ((BitVec.ofInt 32 value).toNat : Int) = value := by
    rw [BitVec.toNat_ofInt]
    omega
  refine ⟨.literal value, nofun, ?_, fun _ w hw => Or.inl ?_, fun _ => rfl, rfl⟩
  · simp only [StaticState.getVal, Expr.known, CContext.valueIn, CContext.value, Option.map_some,
      hValue, if_true]
  · simp only [CContext.valueIn, CContext.value, Option.some.injEq] at hw
    rw [← hw, hValue]

/-- A minus is folded if its operand is known. -/
theorem visited_minus {e e' : Expr} (h : C.Visited σ st e e')
    (hFits : C.fits σ (.unaryOp .minus e) = true) :
    C.Visited σ st (.unaryOp .minus e)
      (match st.getVal e' with
        | some val => .constant (-val)
        | none => .unaryOp .minus e') := by
  have hZero : e.known σ.known = true → C.valueIn σ e = some 0 := by
    intro hKnown
    simpa [hKnown] using (Bool.and_eq_true_iff.mp hFits).2
  rw [h.val]
  by_cases hKnown : e.known σ.known = true
  · have hValue : C.valueIn σ (.unaryOp .minus e) = some 0 := by
      have hEq : C.value σ.time σ.vars e = some 0 := hZero hKnown
      rw [CContext.valueIn, CContext.value, hEq]
      rfl
    have hWord : Expr.wordValue σ.vars (.unaryOp .minus e) = some 0 := by
      rw [Expr.wordValue, h.word hKnown, hZero hKnown]
      rfl
    rw [if_pos hKnown, hZero hKnown]
    refine ⟨.value hValue hWord, nofun, ?_, fun _ w hw => ?_, fun _ => ?_, rfl⟩
    · simp [StaticState.getVal, Expr.known, hKnown, hValue]
    · rw [hValue, Option.some.injEq] at hw
      exact Or.inl (by rw [← hw]; rfl)
    · rw [hWord, hValue]
  · rw [if_neg hKnown]
    refine ⟨.minus h.copy, nofun, ?_, fun hMinus => absurd hMinus hKnown,
      fun hMinus => absurd hMinus hKnown, rfl⟩
    rw [Expr.known, if_neg hKnown]
    rfl

/-- An operator is folded if both operands are known. -/
theorem visited_binary {op : BinOp} {left left' right right' : Expr}
    (hLeft : C.Visited σ st left left') (hRight : C.Visited σ st right right')
    (hFits : C.fits σ (.binaryOp op left right) = true) :
    C.Visited σ st (.binaryOp op left right) (st.foldBinary op left' right') := by
  simp only [CContext.fits, Bool.and_eq_true, Bool.or_eq_true, Bool.not_eq_true'] at hFits
  obtain ⟨⟨⟨hFolded, -⟩, -⟩, hSame⟩ := hFits
  have hCopy : C.Copy σ (.binaryOp op left right) (.binaryOp op left' right') :=
    .binary hLeft.copy hRight.copy
  rw [StaticState.foldBinary, if_pos hFolded, hLeft.val, hRight.val]
  by_cases hKnown : left.known σ.known = true ∧ right.known σ.known = true
  · -- both operands are known: the operator is evaluated
    obtain ⟨hKnownLeft, hKnownRight⟩ := hKnown
    have hBoth : (Expr.binaryOp op left right).known σ.known = true := by
      simp [Expr.known, hFolded, hKnownLeft, hKnownRight]
    obtain ⟨hFold, hOp⟩ := C.fold_eq_value hFolded
      (hSame.resolve_left (by simp [hKnownLeft, hKnownRight]))
    have hWord : (Expr.binaryOp op left right).wordValue σ.vars =
        C.valueIn σ (.binaryOp op left right) := by
      simp only [Expr.wordValue, hLeft.word hKnownLeft, hRight.word hKnownRight, hOp,
        execute_convertOperator hFolded]
    rw [if_pos hKnownLeft, if_pos hKnownRight, hFold]
    -- a fold that fails leaves the node, one that succeeds leaves its value
    cases hValue : C.valueIn σ (.binaryOp op left right) with
    | none =>
      refine ⟨hCopy, nofun, ?_, fun _ w hw => ?_, fun _ => hWord, rfl⟩
      · rw [if_pos hBoth, hValue]
        rfl
      · rw [hValue] at hw
        cases hw
    | some w =>
      refine ⟨.value hValue (hWord.trans hValue), nofun, ?_, fun _ u hu => ?_,
        fun _ => hWord, rfl⟩
      · rw [if_pos hBoth, hValue]
        rfl
      · rw [hValue] at hu
        cases hu
        exact Or.inl rfl
  · -- an operand is not known: the node is copied
    have hBoth : ¬(Expr.binaryOp op left right).known σ.known = true := by
      simpa [Expr.known, hFolded] using hKnown
    have hNone : ((if left.known σ.known then (C.valueIn σ left).map fun w =>
      (w.toNat : Int) else none).bind
        fun lval => (if right.known σ.known then (C.valueIn σ right).map fun w => (w.toNat : Int)
          else none).bind fun rval => op.fold lval rval) = none := by
      by_cases hKnownLeft : left.known σ.known = true
      · rw [if_neg fun hKnownRight => hKnown ⟨hKnownLeft, hKnownRight⟩]
        cases (if left.known σ.known then (C.valueIn σ left).map fun w =>
          (w.toNat : Int) else none) <;> rfl
      · rw [if_neg hKnownLeft]
        rfl
    rw [hNone]
    refine ⟨hCopy, nofun, ?_, fun h => absurd h hBoth, fun h => absurd h hBoth, rfl⟩
    rw [if_neg hBoth]
    rfl

/-- The visitor goes on with what the first part returned. -/
theorem visit_bind {α β : Type} {x : Visitor α} {f : α → Visitor β} {st' : StaticState} {a : α}
    (h : x st = (.ok a, st')) : (x >>= f) st = f a st' := by
  simp only [bind, ExceptT.bind, ExceptT.mk, StateT.bind, h, ExceptT.bindCont]

theorem visit_get {β : Type} {f : StaticState → Visitor β} :
    ((get : Visitor StaticState) >>= f) st = f st st := rfl

/-- A unary operator visits its operand. -/
theorem visit_unary {op : UnOp} (hMinus : op ≠ .minus) (e : Expr) :
    (Expr.unaryOp op e).visit = e.visit >>= op.visitOperand := by
  cases op with
  | minus => exact absurd rfl hMinus
  | _ => rfl

/-- The operand of another operator than `-` is not a known variable. -/
theorem fits_unary {op : UnOp} (hMinus : op ≠ .minus) {e : Expr}
    (hFits : C.fits σ (.unaryOp op e) = true) :
    (∃ x, e = .id x ∧ op.step? = none ∧ σ.known x = false) ∨ ∃ name subscript,
      e = .arrayRef name subscript ∧
      C.fits σ e = true := by
  cases e with
  | id x => exact Or.inl ⟨x, rfl, by simpa using hFits⟩
  | arrayRef name subscript =>
    exact Or.inr ⟨name, subscript, rfl, by simpa using hFits⟩
  | _ => simp at hFits

/-- The operand of an increment or an address stays a place. -/
theorem visited_unary {op : UnOp} (hMinus : op ≠ .minus) {e e' : Expr} (h : C.Place σ e e') :
    C.Visited σ st (.unaryOp op e) (.unaryOp op e') := by
  have hKnown : (Expr.unaryOp op e).known σ.known = false := by
    cases op with
    | minus => exact absurd rfl hMinus
    | _ => rfl
  refine ⟨.unary h, nofun, ?_, ?_, ?_, rfl⟩
  · rw [hKnown]
    rfl
  · simp [hKnown]
  · simp [hKnown]

mutual

/-- An expression that fits is visited without an exception or a change of the state. -/
theorem visit_expr (h : st.Follows σ) : ∀ e : Expr, C.fits σ e = true →
    ∃ e', e.visit st = (.ok e', st) ∧ C.Visited σ st e e'
  | .id x, hFits => ⟨_, rfl, visited_id h hFits⟩
  | .constant value, hFits => ⟨_, rfl, visited_constant hFits⟩
  | .arrayRef name subscript, hFits => by
    simp only [CContext.fits, Bool.and_eq_true] at hFits
    obtain ⟨⟨hPlace, hName⟩, hSubscript⟩ := hFits
    obtain ⟨name', hVisit₁, h₁⟩ := visit_expr h name hName
    obtain ⟨subscript', hVisit₂, h₂⟩ := visit_expr h subscript hSubscript
    have hCopy : C.Place σ (.arrayRef name subscript) (.arrayRef name' subscript') :=
      .element (h₁.place hPlace) h₂.copy
    refine ⟨.arrayRef name' subscript', ?_, .place hCopy, fun _ => hCopy, rfl, nofun, nofun, rfl⟩
    rw [Expr.visit, visit_bind hVisit₁, visit_bind hVisit₂]
    rfl
  | .unaryOp op e, hFits => by
    by_cases hMinus : op = .minus
    · subst hMinus
      -- the operand may fold, and then the negation does
      obtain ⟨e', hVisit, h₁⟩ := visit_expr h e (by
        rw [CContext.fits, Bool.and_eq_true] at hFits
        exact hFits.1)
      refine ⟨_, ?_, visited_minus h₁ hFits⟩
      rw [Expr.visit, visit_bind hVisit, visit_get]
      cases st.getVal e' <;> rfl
    -- the operand of a step is a place, which is never replaced by its value
    · rcases fits_unary hMinus hFits with ⟨x, rfl, -, hKnown⟩ | ⟨name, subscript, rfl, hElement⟩
      · refine ⟨_, ?_, visited_unary hMinus (.var x)⟩
        rw [visit_unary hMinus, visit_bind (show (Expr.id x).visit st = (.ok (.id x), st) from rfl)]
        simp only [UnOp.visitOperand, Expr.nameAttribute, visit_get, h.env_none hKnown]
        rfl
      · obtain ⟨e', hVisit, h₁⟩ := visit_expr h (.arrayRef name subscript) hElement
        have hPlace := h₁.place (by
          simp only [CContext.fits, Bool.and_eq_true] at hElement
          exact hElement.1.1)
        refine ⟨_, ?_, visited_unary hMinus hPlace⟩
        rw [visit_unary hMinus, visit_bind hVisit]
        cases hPlace
        rfl
  | .binaryOp op left right, hFits => by
    have hParts : C.fits σ left = true ∧ C.fits σ right = true := by
      simp only [CContext.fits, Bool.and_eq_true] at hFits
      exact ⟨hFits.1.1.2, hFits.1.2⟩
    obtain ⟨left', hVisit₁, h₁⟩ := visit_expr h left hParts.1
    obtain ⟨right', hVisit₂, h₂⟩ := visit_expr h right hParts.2
    -- a visit that succeeds is the one `orKeep` returns
    have hKeep : ∀ {node node' : Expr}, node.visit st = (.ok node', st) →
        Visitor.orKeep node.visit node st = (.ok node', st) := fun hVisit => by
      rw [Visitor.orKeep, hVisit]
    refine ⟨_, ?_, visited_binary h₁ h₂ hFits⟩
    rw [Expr.visit, visit_bind (hKeep hVisit₁), visit_bind (hKeep hVisit₂)]
    rfl
  | .ternaryOp cond iftrue iffalse, hFits => by
    simp only [CContext.fits, Bool.and_eq_true] at hFits
    obtain ⟨⟨hCond, hTrue⟩, hFalse⟩ := hFits
    obtain ⟨cond', hVisit₁, h₁⟩ := visit_expr h cond hCond
    obtain ⟨iftrue', hVisit₂, h₂⟩ := visit_expr h iftrue hTrue
    obtain ⟨iffalse', hVisit₃, h₃⟩ := visit_expr h iffalse hFalse
    refine ⟨.ternaryOp cond' iftrue' iffalse', ?_, .ternary h₁.copy h₂.copy h₃.copy, nofun, rfl,
      nofun, nofun, rfl⟩
    rw [Expr.visit, visit_bind hVisit₁, visit_bind hVisit₂, visit_bind hVisit₃]
    rfl
  | .funcCall name args, hFits => by
    simp only [CContext.fits, Bool.and_eq_true] at hFits
    obtain ⟨⟨hPlace, hName⟩, hArgs⟩ := hFits
    obtain ⟨name', hVisit₁, h₁⟩ := visit_expr h name hName
    obtain ⟨args', hVisit₂, h₂, -⟩ := visit_exprs h args hArgs
    refine ⟨.funcCall name' args', ?_, .call (h₁.place hPlace) h₂, nofun, rfl, nofun, nofun, rfl⟩
    rw [Expr.visit, visit_bind hVisit₁, visit_bind hVisit₂]
    rfl
  | .assignment op lvalue rvalue, hFits => by simp at hFits
  | .exprList exprs, hFits => by
    simp only [CContext.fits, Bool.and_eq_true, Bool.not_eq_true'] at hFits
    obtain ⟨exprs', hVisit, h₁, hEmpty⟩ := visit_exprs h exprs hFits.2
    refine ⟨.exprList exprs', ?_, .exprs h₁, nofun, rfl, nofun, nofun, ?_⟩
    · rw [Expr.visit, visit_bind hVisit]
      rfl
    -- the visit keeps an expression list from being empty
    · rw [hFits.1] at hEmpty
      cases exprs' with
      | nil => cases hEmpty
      | cons => rfl
  | .initList exprs, hFits => by
    obtain ⟨exprs', hVisit, h₁, -⟩ := visit_exprs h exprs hFits
    refine ⟨.initList exprs', ?_, .inits h₁, nofun, rfl, nofun, nofun, rfl⟩
    rw [Expr.visit, visit_bind hVisit]
    rfl

/-- A list is visited expression by expression. -/
theorem visit_exprs (h : st.Follows σ) : ∀ exprs : List Expr, C.fitsList σ exprs = true →
    ∃ exprs', Expr.visitList exprs st = (.ok exprs', st) ∧ C.CopyList σ exprs exprs' ∧
      exprs'.isEmpty = exprs.isEmpty
  | [], _ => ⟨[], rfl, .nil, rfl⟩
  | e :: exprs, hFits => by
    simp only [CContext.fitsList, Bool.and_eq_true] at hFits
    obtain ⟨e', hVisit₁, h₁⟩ := visit_expr h e hFits.1
    obtain ⟨exprs', hVisit₂, h₂, -⟩ := visit_exprs h exprs hFits.2
    refine ⟨e' :: exprs', ?_, .cons h₁.copy h₂, rfl⟩
    rw [Expr.visitList, visit_bind hVisit₁, visit_bind hVisit₂]
    rfl

end

end Expressions

end Obscure
