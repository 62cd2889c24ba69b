import Obscure.DFG
import Obscure.Digits
import Obscure.Lib.Loop

/-!
# OBSCURE — integer literals

The parser leaves the spelling of a literal in the AST, and the frontend reads it with Python's
`int`: `IntConverter` rewrites what starts with `0x`, and from then on every pass, the static
evaluator and `AST_to_IR` among them, reads decimal digits.

* `IntLiteral.keepsValue_iff` — the immediate of a literal is its value in C, except for octal
  literals from 8 on: their digits are read as decimal ones.
-/

namespace Obscure

open Lib

-- ---------------------------------------------------------------------------
-- Literals of C
-- ---------------------------------------------------------------------------

/-- The kinds of integer literals of C, with the two spellings of the mark of a hexadecimal one. -/
inductive Radix where
  | decimal
  | octal
  | hex
  | upperHex
deriving DecidableEq

namespace Radix

def base : Radix → Nat
  | decimal => 10
  | octal => 8
  | hex | upperHex => 16

def mark : Radix → List Char
  | decimal => []
  | octal => ['0']
  | hex => ['0', 'x']
  | upperHex => ['0', 'X']

end Radix

/-- The suffixes of integer literals: one `u`, one `l` or two equal ones, in either order. -/
def intSuffixes : List (List Char) :=
  let us := [['u'], ['U']]
  let ls := [['l'], ['L'], ['l', 'l'], ['L', 'L']]
  [[]] ++ us ++ ls ++ us.flatMap (fun u => ls.map (u ++ ·)) ++ ls.flatMap (fun l => us.map (l ++ ·))

/-- An integer literal of C. A decimal one does not start with `0`, and the digits behind the
`0` of an octal one may be none. -/
structure IntLiteral where
  radix : Radix
  digits : List Char
  suffix : List Char
  inBase : allIn radix.base digits
  nonempty : radix ≠ .octal → digits ≠ []
  noLeadingZero : radix = .decimal → digits.head? ≠ some '0'
  suffix_mem : suffix ∈ intSuffixes

namespace IntLiteral

/-- The spelling, as the parser keeps it in `c_ast.Constant.value`. -/
def text (lit : IntLiteral) : List Char := lit.radix.mark ++ lit.digits ++ lit.suffix

/-- The value in C. -/
def value (lit : IntLiteral) : Nat := numberIn lit.radix.base lit.digits

end IntLiteral

-- ---------------------------------------------------------------------------
-- What the frontend reads
-- ---------------------------------------------------------------------------

/-- Python's `int(text, base)`, for texts without blanks, signs and underscores. In base 16 a
mark in front is skipped. -/
def pyInt (base : Nat) (text : List Char) : Except Fault Nat :=
  let digits := if base = 16 ∧
    (text.take 2 = ['0', 'x'] ∨ text.take 2 = ['0', 'X']) then text.drop 2
    else text
  if digits ≠ [] ∧ allIn base digits then .ok (numberIn base digits)
  else .error .valueError

/-- Python's `str`. -/
def pyStr (n : Nat) : List Char := (toString n).toList

/-- `IntConverter.visit_Constant`, on the spelling. -/
def IntConverter.visitConstant (value : List Char) : Except Fault (List Char) :=
  if ['0', 'x'].isPrefixOf value then return pyStr (← pyInt 16 value) else return value

/-- `get_val` on a constant. -/
def constantVal (value : List Char) : Except Fault Nat := pyInt 10 value

/-- The constant that the static evaluator writes for a value it has read,
`c_ast.Constant('unsigned int', str(val))`. -/
def staticConstant (value : List Char) : Except Fault (List Char) :=
  return pyStr (← constantVal value)

/-- `convert_operand` on a constant. -/
def constantOperand (value : List Char) : Except Fault (Operand Nat) :=
  return .imm (← pyInt 10 value)

namespace IntLiteral

/-- The value that the static evaluator computes with. -/
def staticVal (lit : IntLiteral) : Except Fault Nat := do
  let value ← IntConverter.visitConstant lit.text
  constantVal value

/-- The operand of a literal that the static evaluator leaves as it is. -/
def operand (lit : IntLiteral) : Except Fault (Operand Nat) := do
  let value ← IntConverter.visitConstant lit.text
  constantOperand value

/-- The operand of a literal that the static evaluator has read. -/
def recordedOperand (lit : IntLiteral) : Except Fault (Operand Nat) := do
  let value ← IntConverter.visitConstant lit.text
  let value ← staticConstant value
  constantOperand value

/-- Whatever the frontend derives from the literal without raising is its value in C. -/
structure KeepsValue (lit : IntLiteral) : Prop where
  static : ∀ v, lit.staticVal = .ok v → v = lit.value
  operand : ∀ src, lit.operand = .ok src → src = .imm lit.value
  recorded : ∀ src, lit.recordedOperand = .ok src → src = .imm lit.value

end IntLiteral

-- ---------------------------------------------------------------------------
-- Reading and writing numbers
-- ---------------------------------------------------------------------------

/-- In base 10 no mark is skipped. -/
theorem pyInt_ten (text : List Char) : pyInt 10 text =
    if text ≠ [] ∧ allIn 10 text then .ok (numberIn 10 text)
    else .error .valueError := rfl

/-- What `str` writes is read back. -/
theorem pyInt_pyStr (n : Nat) : pyInt 10 (pyStr n) = .ok n := by
  have hText : pyStr n = Nat.toDigits 10 n := by simp [pyStr]
  have hDigit : ∀ c ∈ Nat.toDigits 10 n, digitIn 10 c = some (c.toNat - '0'.toNat) := fun c hc =>
    digitIn_ten (Nat.isDigit_of_mem_toDigits (by decide) (by decide) hc)
  have hNumber : numberIn 10 (Nat.toDigits 10 n) = n := by
    rw [numberIn, List.filterMap_congr hDigit, List.filterMap_eq_map', Nat.ofDigits_eq_foldr,
      List.foldr_reverse, List.foldl_map]
    calc _ = Nat.ofDigitChars 10 (Nat.toDigits 10 n) 0 := by
          rw [Nat.ofDigitChars_eq_foldl]
          simp [add_comm]
      _ = n := Nat.ofDigitChars_ten_toDigits
  have hAll : allIn 10 (Nat.toDigits 10 n) = true := allIn_iff.mpr fun c hc => ⟨_, hDigit c hc⟩
  rw [hText, pyInt_ten, if_pos ⟨Nat.toDigits_ne_nil, hAll⟩, hNumber]

/-- A character that is no digit makes `int` raise. -/
theorem pyInt_ten_error {text : List Char} {c : Char} (hc : c ∈ text) (h : digitIn 10 c = none) :
    pyInt 10 text = .error .valueError := by
  rw [pyInt_ten]
  refine if_neg fun hAll => ?_
  obtain ⟨d, hd⟩ := allIn_iff.mp hAll.2 c hc
  rw [h] at hd
  cases hd

/-- Python reads the text after the mark `0x` as hexadecimal digits. -/
theorem pyInt_marked (text : List Char) : pyInt 16 ('0' :: 'x' :: text) =
    if text ≠ [] ∧ allIn 16 text then .ok (numberIn 16 text)
    else .error .valueError := rfl

/-- No letter of a suffix is a digit, in any base. -/
theorem intSuffixes_spec {s : List Char} (hs : s ∈ intSuffixes) {c : Char} (hc : c ∈ s) :
    c ≠ 'x' ∧ ∀ base, digitIn base c = none := by
  have hLetters : intSuffixes.all (fun s => s.all fun c => digitVal c == none && c != 'x') =
      true := by
    decide
  have hLetter := List.all_eq_true.mp (List.all_eq_true.mp hLetters s hs) c hc
  obtain ⟨hVal, hx⟩ : digitVal c = none ∧ c ≠ 'x' := by simpa using hLetter
  exact ⟨hx, fun base => by rw [digitIn, hVal, Option.filter_none]⟩

namespace IntLiteral

variable {lit : IntLiteral}

/-- There is no `x` in the digits and the suffix. -/
theorem x_not_mem (lit : IntLiteral) : 'x' ∉ lit.digits ++ lit.suffix := by
  intro hx
  rcases List.mem_append.mp hx with hx | hx
  · obtain ⟨d, hd⟩ := allIn_iff.mp lit.inBase _ hx
    rw [digitIn, show digitVal 'x' = none from rfl] at hd
    cases hd
  · exact (intSuffixes_spec lit.suffix_mem hx).1 rfl

/-- Only a literal with the mark `0x` is rewritten. -/
theorem visitConstant_text (h : lit.radix ≠ .hex) :
    IntConverter.visitConstant lit.text = .ok lit.text := by
  have hx := lit.x_not_mem
  refine if_neg ?_
  rw [IntLiteral.text, List.append_assoc]
  cases hRadix : lit.radix with
  | decimal =>
    cases hDigits : lit.digits with
    | nil => exact absurd hDigits (lit.nonempty (by rw [hRadix]; decide))
    | cons d ds =>
      have hHead : d ≠ '0' := fun hd => lit.noLeadingZero hRadix (by rw [hDigits, hd]; rfl)
      simpa [Radix.mark] using fun h => absurd h.symm hHead
  | octal =>
    cases hRest : lit.digits ++ lit.suffix with
    | nil => simp [Radix.mark]
    | cons d ds =>
      rw [hRest] at hx
      have hNe : 'x' ≠ d := fun hd => hx (hd ▸ List.mem_cons_self)
      simpa [Radix.mark] using hNe
  | hex => exact absurd hRadix h
  | upperHex => simp [Radix.mark]

/-- Only texts that start with `0x` are read as hexadecimal. -/
theorem staticVal_of_ne_hex (h : lit.radix ≠ .hex) : lit.staticVal = pyInt 10 lit.text := by
  rw [staticVal, visitConstant_text h]
  rfl

/-- A literal with a suffix raises, be it in `IntConverter` or later. -/
theorem staticVal_suffix (h : lit.suffix ≠ []) : lit.staticVal = .error .valueError := by
  obtain ⟨c, hc⟩ := List.exists_mem_of_ne_nil _ h
  have hNone := (intSuffixes_spec lit.suffix_mem hc).2
  by_cases hHex : lit.radix = .hex
  · have hText : lit.text = '0' :: 'x' :: (lit.digits ++ lit.suffix) := by
      rw [IntLiteral.text, hHex]
      rfl
    have hRaise : pyInt 16 lit.text = .error .valueError := by
      rw [hText, pyInt_marked]
      refine if_neg fun hAll => ?_
      obtain ⟨d, hd⟩ := allIn_iff.mp hAll.2 c (by simp [hc])
      rw [hNone] at hd
      cases hd
    rw [staticVal, IntConverter.visitConstant, if_pos (by rw [hText]; rfl), hRaise]
    rfl
  · rw [staticVal_of_ne_hex hHex]
    exact pyInt_ten_error (by simp [IntLiteral.text, hc]) (hNone 10)

/-- The text without a suffix. -/
theorem text_of_suffix (h : lit.suffix = []) : lit.text = lit.radix.mark ++ lit.digits := by
  rw [IntLiteral.text, h, List.append_nil]

/-- A decimal literal without a suffix has its value. -/
theorem staticVal_decimal (hRadix : lit.radix = .decimal) (h : lit.suffix = []) :
    lit.staticVal = .ok lit.value := by
  have hBase := lit.inBase
  rw [hRadix] at hBase
  rw [staticVal_of_ne_hex (by rw [hRadix]; decide), text_of_suffix h, IntLiteral.value, hRadix]
  rw [pyInt_ten]
  exact if_pos ⟨lit.nonempty (by rw [hRadix]; decide), hBase⟩

/-- So has a hexadecimal one. -/
theorem staticVal_hex (hRadix : lit.radix = .hex) (h : lit.suffix = []) :
    lit.staticVal = .ok lit.value := by
  have hBase := lit.inBase
  rw [hRadix] at hBase
  have hText : lit.text = '0' :: 'x' :: lit.digits := by
    rw [text_of_suffix h, hRadix]
    rfl
  have hRead : pyInt 16 lit.text = .ok lit.value := by
    rw [hText, pyInt_marked, IntLiteral.value, hRadix]
    exact if_pos ⟨lit.nonempty (by rw [hRadix]; decide), hBase⟩
  rw [staticVal, IntConverter.visitConstant, if_pos (by rw [hText]; rfl), hRead]
  exact pyInt_pyStr lit.value

/-- One that starts with `0X` raises. -/
theorem staticVal_upperHex (hRadix : lit.radix = .upperHex) :
    lit.staticVal = .error .valueError := by
  rw [staticVal_of_ne_hex (by rw [hRadix]; decide)]
  exact pyInt_ten_error (c := 'X') (by simp [IntLiteral.text, hRadix, Radix.mark]) rfl

/-- An octal literal is read as if its digits were decimal. -/
theorem staticVal_octal (hRadix : lit.radix = .octal) (h : lit.suffix = []) :
    lit.staticVal = .ok (numberIn 10 lit.digits) := by
  have hBase := lit.inBase
  rw [hRadix] at hBase
  have hTen : allIn 10 ('0' :: lit.digits) = true := by
    refine allIn_iff.mpr fun c hc => ?_
    rcases List.mem_cons.mp hc with rfl | hc
    · exact ⟨0, rfl⟩
    · obtain ⟨d, hd⟩ := allIn_iff.mp hBase c hc
      exact ⟨d, digitIn_mono (by decide) hd⟩
  have hText : lit.text = '0' :: lit.digits := by
    rw [text_of_suffix h, hRadix]
    rfl
  rw [staticVal_of_ne_hex (by rw [hRadix]; decide), hText, pyInt_ten,
    if_pos ⟨by simp, hTen⟩]
  -- the mark is a digit in front that does not count
  refine congrArg Except.ok ?_
  rw [numberIn, List.filterMap_cons, show digitIn 10 '0' = some 0 from rfl]
  exact Nat.ofDigits_reverse_zero_cons _

/-- Octal digits read in base 10 give the value when it is below 8 only. -/
theorem octal_eq_iff (hRadix : lit.radix = .octal) :
    numberIn 10 lit.digits = lit.value ↔ lit.value < 8 := by
  have hBase := lit.inBase
  rw [hRadix] at hBase
  rw [IntLiteral.value, hRadix]
  exact numberIn_eq_iff (by decide) (by decide) hBase

/-- All that is derived from a literal is one reading of it. -/
theorem keepsValue_iff_static : lit.KeepsValue ↔ ∀ v, lit.staticVal = .ok v → v = lit.value := by
  refine ⟨fun h => h.static, fun h => ⟨h, fun src hSrc => ?_, fun src hSrc => ?_⟩⟩
  · obtain ⟨value, hValue, hSrc⟩ := bind_eq_ok.mp hSrc
    obtain ⟨v, hv, hImm⟩ := bind_eq_ok.mp hSrc
    cases hImm
    rw [h v (bind_eq_ok.mpr ⟨value, hValue, hv⟩)]
  · obtain ⟨value, hValue, hSrc⟩ := bind_eq_ok.mp hSrc
    obtain ⟨str, hStr, hSrc⟩ := bind_eq_ok.mp hSrc
    obtain ⟨v, hv, hEq⟩ := bind_eq_ok.mp hStr
    cases hEq
    obtain ⟨w, hw, hImm⟩ := bind_eq_ok.mp hSrc
    rw [pyInt_pyStr] at hw
    cases hw
    cases hImm
    rw [h v (bind_eq_ok.mpr ⟨value, hValue, hv⟩)]

/-- **The frontend keeps the value of a literal**, or raises, except for octal literals without
a suffix whose value is 8 or more. -/
theorem keepsValue_iff (lit : IntLiteral) :
    lit.KeepsValue ↔ ¬ (lit.radix = .octal ∧ lit.suffix = [] ∧ 8 ≤ lit.value) := by
  rw [keepsValue_iff_static]
  by_cases hSuffix : lit.suffix = []
  · cases hRadix : lit.radix with
    | decimal => simp [staticVal_decimal hRadix hSuffix]
    | hex => simp [staticVal_hex hRadix hSuffix]
    | upperHex => simp [staticVal_upperHex hRadix]
    | octal =>
      rw [staticVal_octal hRadix hSuffix]
      constructor
      · rintro h ⟨-, -, hBig⟩
        have := (octal_eq_iff hRadix).mp (h _ rfl)
        omega
      · intro h v hv
        cases hv
        refine (octal_eq_iff hRadix).mpr ?_
        by_contra hBig
        exact h ⟨rfl, hSuffix, by omega⟩
  · rw [staticVal_suffix hSuffix]
    exact iff_of_true nofun fun h => hSuffix h.2.1

end IntLiteral

/-- `010`. -/
def octalEight : IntLiteral where
  radix := .octal
  digits := ['1', '0']
  suffix := []
  inBase := by decide
  nonempty := by decide
  noLeadingZero := by decide
  suffix_mem := by decide

/-- `010` is 8 in C and 10 in the IR. -/
theorem octalEight_read_decimal :
    octalEight.text = ['0', '1', '0'] ∧ octalEight.value = 8 ∧ octalEight.operand = .ok (.imm 10) ∧
      ¬ ∀ lit : IntLiteral, lit.value < 2 ^ 32 → lit.KeepsValue := by
  have hValue : octalEight.value = 8 := by decide
  have hOperand : octalEight.operand = .ok (.imm 10) := by decide
  refine ⟨by decide, hValue, hOperand, fun hAll => ?_⟩
  have hKeeps := (hAll octalEight (by rw [hValue]; decide)).operand _ hOperand
  rw [hValue] at hKeeps
  exact absurd hKeeps (by decide)

end Obscure
