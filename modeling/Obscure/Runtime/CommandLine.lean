import Obscure.IR
import Obscure.Digits
import Obscure.Lib.Loop
import Obscure.Lib.Lists

/-!
# OBSCURE — the inputs of the command line

`parse_inputs` of `runtime/main.c`. The number of entries is the number of commas and one more;
the entries are filled from the tokens of `strtok`, which are never empty, as far as `is_int`
accepts them. What C's own functions do is written down for the characters of a text, without the
`'\0'` at its end; `long` has 64 bits.

* `parseInputs_returns`      — what the entries hold, and which ones are never written;
* `parseInputs_faithful_iff` — they hold the values of the fields exactly when every field is a
  decimal number that `strtol` reads as one.
-/

namespace Obscure

open Lib

/-- How the program can stop before it has a result: at an error that it reports, or at an
operation without a meaning in C. -/
inductive Stop where
  | exit (message : String)
  | undefined
  | diverges
deriving DecidableEq, Repr

/-- `INT_MAX`. -/
def intMax : Nat := 2 ^ 31 - 1

/-- `LONG_MAX`. -/
def longMax : Nat := 2 ^ 63 - 1

/-- `n + 1` in the type `int`. -/
def increment (n : Nat) : Except Stop Nat :=
  if n < intMax then .ok (n + 1) else .error .undefined

-- ---------------------------------------------------------------------------
-- The standard library
-- ---------------------------------------------------------------------------

/-- `isspace`. -/
def isSpace (c : Char) : Bool := c = ' ' || ('\t' ≤ c && c ≤ '\r')

/-- The base that `strtol` takes when it is called with 0, and the text of the digits. -/
def detectBase (text : List Char) : Nat × List Char :=
  if text.head? = some '0' then
    if (text[1]? = some 'x' ∨ text[1]? = some 'X') ∧ (text[2]?.bind (digitIn 16)).isSome then
      (16, text.drop 2)
    else (8, text)
  else (10, text)

/-- `strtol(text, NULL, 0)`: digits are read as long as there are some, and the result stays
within `long`. -/
def strtol (text : List Char) : Int :=
  let text := text.dropWhile isSpace
  let signed := text.head? = some '-' ∨ text.head? = some '+'
  let (base, digits) := detectBase (if signed then text.tail else text)
  let n := numberIn base (leadingDigits base digits)
  if text.head? = some '-' then max (-(longMax : Int) - 1) (-n) else min longMax n

/-- `strtok` with one separator: the next token, and the text behind it. -/
def strtok (sep : Char) (text : List Char) : Option (List Char × List Char) :=
  let text := text.dropWhile (· = sep)
  if text = [] then none
  else some (text.takeWhile (· ≠ sep), (text.dropWhile (· ≠ sep)).tail)

-- ---------------------------------------------------------------------------
-- `main.c`
-- ---------------------------------------------------------------------------

/-- `is_int`. -/
def isInt (s : List Char) : Bool := s ≠ [] && s.all fun c => '0' ≤ c && c ≤ '9'

/-- `to_int`; a `long` becomes an `int` by its last 32 bits. -/
def toInt (optName : String) (provided : List Char) : Except Stop Word :=
  if isInt provided then .ok (BitVec.ofInt 32 (strtol provided))
  else .error (.exit ("Option -" ++ optName ++ " expacts an integer. Provided: '" ++
    String.ofList provided ++ "'. Exiting\n"))

/-- `count_char`. -/
def countChar (str : List Char) (c : Char) : Except Stop Nat :=
  str.foldlM (fun count x => if x = c then increment count else .ok count) 0

/-- `inputs[i] = v`. -/
def assignEntry (inputs : List (Option Word)) (i : Nat) (v : Word) :
    Except Stop (List (Option Word)) :=
  if i < inputs.length then .ok (inputs.set i (some v)) else .error .undefined

/-- One round of the loop of `parse_inputs`: the text that `strtok` has not seen, `count` and
`inputs`. -/
def fillRound (_ : Nat) (st : List Char × Nat × List (Option Word)) :
    Except Stop ((List Char × Nat × List (Option Word)) ⊕ List (Option Word)) :=
  match strtok ',' st.1 with
  | none => .ok (.inr st.2.2)
  | some (token, text) =>
    if isInt token then do
      let v ← toInt "-inputs" token
      let inputs ← assignEntry st.2.2 st.2.1 v
      let count ← increment st.2.1
      .ok (.inl (text, count, inputs))
    else .ok (.inl (text, st.2.1, st.2.2))

/-- `parse_inputs`: `*input_count`, and the entries; the ones that are not written hold nothing. -/
def parseInputs (fuel : Nat) (str : List Char) : Except Stop (Nat × List (Option Word)) := do
  let commas ← countChar str ','
  let inputCount ← increment commas
  let inputs ← loop .diverges fillRound fuel 0 (str, 0, List.replicate inputCount none)
  return (inputCount, inputs)

-- ---------------------------------------------------------------------------
-- What is asked of it
-- ---------------------------------------------------------------------------

/-- The comma-separated fields of a text. -/
def fields (str : List Char) : List (List Char) := str.splitOn ','

/-- The decimal value of a field, if it is a number. -/
def decimalValue (field : List Char) : Option Nat :=
  if field ≠ [] ∧ allIn 10 field then some (numberIn 10 field) else none

/-- An entry was written, with the value of its field. -/
def HoldsField (field : List Char) (entry : Option Word) : Prop :=
  ∃ v, decimalValue field = some v ∧ entry = some (BitVec.ofNat 32 v)

/-- The program stops with an error, or there is one entry for each field that holds its value. -/
def ParsedFaithfully (str : List Char) : Prop :=
  (∃ message N, ∀ fuel ≥ N, parseInputs fuel str = .error (.exit message)) ∨
  ∃ count inputs, Returns (fun fuel => parseInputs fuel str) (count, inputs) ∧
    inputs.length = count ∧ List.Forall₂ HoldsField (fields str) inputs

-- ---------------------------------------------------------------------------
-- One token
-- ---------------------------------------------------------------------------

/-- `is_int` accepts the texts of digits. -/
theorem isInt_iff {s : List Char} : isInt s = true ↔ s ≠ [] ∧ allIn 10 s = true := by
  have hDigit : ∀ c : Char, ('0' ≤ c ∧ c ≤ '9') ↔ (digitIn 10 c).isSome = true := by
    intro c
    have hIs : c.isDigit = true ↔ '0' ≤ c ∧ c ≤ '9' := by
      simp [Char.isDigit, Char.le_def]
    rw [← hIs]
    refine ⟨fun h => ?_, isDigit_of_digitIn⟩
    rw [digitIn_ten h]
    rfl
  simp [isInt, allIn, hDigit]

/-- The value that a token stands for in the array. -/
def tokenWord (token : List Char) : Word := BitVec.ofInt 32 (strtol token)

/-- What `strtol` reads from digits: a `0` in front makes them octal, and the first `8` or `9` ends
them then. -/
def digitsRead (token : List Char) : Nat :=
  if token.head? = some '0' then numberIn 8 (leadingDigits 8 token) else numberIn 10 token

/-- Digits that start with 0 are read as octal ones. -/
theorem detectBase_digits {token : List Char} (h : allIn 10 token = true) :
    detectBase token = if token.head? = some '0' then (8, token) else (10, token) := by
  have hNot : ∀ c : Char, digitIn 10 c = none → token[1]? ≠ some c := by
    intro c hc hGet
    obtain ⟨d, hd⟩ := allIn_iff.mp h c (List.mem_of_getElem? hGet)
    rw [hc] at hd
    cases hd
  have hMark : ¬ (token[1]? = some 'x' ∨ token[1]? = some 'X') := by
    rintro (hx | hx)
    · exact hNot 'x' (by decide) hx
    · exact hNot 'X' (by decide) hx
  simp only [detectBase, hMark, false_and, if_false]

/-- `strtol` reads the digits and saturates. -/
theorem strtol_digits {token : List Char} (h : isInt token = true) :
    strtol token = ((min longMax (digitsRead token) : Nat) : Int) := by
  obtain ⟨hNe, hAll⟩ := isInt_iff.mp h
  obtain ⟨c, rest, rfl⟩ := List.exists_cons_of_ne_nil hNe
  have hDigit : (digitIn 10 c).isSome := List.all_eq_true.mp hAll c List.mem_cons_self
  -- a digit is neither a blank nor a sign
  have hNot : ∀ x : Char, digitIn 10 x = none → c ≠ x := by
    rintro x hx rfl
    simp [hx] at hDigit
  have hSpace : isSpace c = false := by
    have hLow : '0' ≤ c := by
      have := isDigit_of_digitIn hDigit
      simp only [Char.isDigit, Bool.and_eq_true, decide_eq_true_eq] at this
      exact this.1
    have hBlank : c ≠ ' ' := hNot ' ' (by decide)
    have hHigh : ¬ c ≤ '\r' := fun hLe => absurd (Char.le_trans hLow hLe) (by decide)
    simp [isSpace, hBlank, hHigh]
  have hSign : ¬ ((c :: rest).head? = some '-' ∨ (c :: rest).head? = some '+') := by
    simpa using ⟨hNot '-' (by decide), hNot '+' (by decide)⟩
  rw [strtol, List.dropWhile_cons_of_neg (by simp [hSpace])]
  have hMinus : ¬ (c :: rest).head? = some '-' := fun hMinus => hSign (Or.inl hMinus)
  simp only [if_neg hSign, if_neg hMinus, detectBase_digits hAll, digitsRead]
  split
  · rw [Nat.cast_min]
  · rw [leadingDigits_of_allIn hAll, Nat.cast_min]

theorem toInt_ok {optName : String} {token : List Char} (h : isInt token = true) :
    toInt optName token = .ok (tokenWord token) := if_pos h

-- ---------------------------------------------------------------------------
-- The loop
-- ---------------------------------------------------------------------------

/-- The fields that `is_int` accepts; an empty one is none of them. -/
def accepted (str : List Char) : List (List Char) := (fields str).filter isInt

/-- No empty token is one of digits. -/
theorem filter_isInt (l : List (List Char)) :
    (l.filter (· ≠ [])).filter isInt = l.filter isInt := by
  rw [List.filter_filter]
  refine List.filter_congr fun field _ => ?_
  by_cases h : field = []
  · simp [isInt, h]
  · simp [h]

/-- Commas at the start are skipped. -/
theorem accepted_dropWhile (text : List Char) :
    accepted (text.dropWhile (· = ',')) = accepted text := by
  rw [accepted, accepted, ← filter_isInt, ← filter_isInt (fields text), fields, fields,
    filter_splitOn_dropWhile]

/-- The tokens are the first one and those of the rest. -/
theorem accepted_first (text : List Char) : accepted text =
    [text.takeWhile (· ≠ ',')].filter isInt ++ accepted (text.dropWhile (· ≠ ',')).tail := by
  rw [accepted, ← filter_isInt, fields, filter_splitOn, filter_isInt, accepted,
    ← List.filter_append]
  rfl

/-- Without a token nothing is accepted. -/
theorem strtok_none {text : List Char} (h : strtok ',' text = none) : accepted text = [] := by
  have hNil : text.dropWhile (· = ',') = [] := by
    by_contra hNe
    simp [strtok, hNe] at h
  rw [← accepted_dropWhile, hNil]
  rfl

/-- A call of `strtok` takes the next field that is not empty. -/
theorem strtok_some {text token rest : List Char} (h : strtok ',' text = some (token, rest)) :
    accepted text = [token].filter isInt ++ accepted rest ∧ rest.length < text.length := by
  have hLe : (text.dropWhile (· = ',')).length ≤ text.length := List.length_dropWhile_le _ _
  rw [← accepted_dropWhile]
  unfold strtok at h
  generalize text.dropWhile (· = ',') = text' at h hLe ⊢
  by_cases hNe : text' = []
  · simp [hNe] at h
  rw [if_neg hNe] at h
  cases h
  refine ⟨accepted_first text', ?_⟩
  have hRest : (text'.dropWhile (· ≠ ',')).length ≤ text'.length := List.length_dropWhile_le _ _
  have hPos := List.length_pos_iff.mpr hNe
  rw [List.length_tail]
  omega

/-- An array of `n` entries that is written from the front. -/
def filled (n : Nat) (words : List Word) : List (Option Word) :=
  words.map some ++ List.replicate (n - words.length) none

theorem length_filled {n : Nat} {words : List Word} (h : words.length ≤ n) :
    (filled n words).length = n := by
  simp [filled]
  omega

/-- The next entry is filled. -/
theorem assignEntry_filled {n : Nat} (words : List Word) (h : words.length < n) (w : Word) :
    assignEntry (filled n words) words.length w = .ok (filled n (words ++ [w])) := by
  rw [assignEntry, if_pos (by rw [length_filled h.le]; exact h)]
  refine congrArg Except.ok ?_
  obtain ⟨k, rfl⟩ : ∃ k, n = words.length + 1 + k := ⟨n - (words.length + 1), by omega⟩
  have hRest : words.length + 1 + k - words.length = k + 1 := by omega
  rw [filled, hRest, List.replicate_succ]
  simp [filled]

/-- The state of the loop when `done` are the accepted fields that were met. -/
structure Filling (str : List Char) (n : Nat) (done : List (List Char))
    (st : List Char × Nat × List (Option Word)) : Prop where
  split : done ++ accepted st.1 = accepted str
  count_eq : st.2.1 = done.length
  inputs_eq : st.2.2 = filled n (done.map tokenWord)

/-- One round takes one token, and writes it if it is a number. -/
theorem Filling.round {str : List Char} {n : Nat} {done : List (List Char)}
    {st : List Char × Nat × List (Option Word)} (h : Filling str n done st) (hn : n ≤ intMax)
    (hRoom : (accepted str).length ≤ n) (i : Nat) {token rest : List Char}
    (hToken : strtok ',' st.1 = some (token, rest)) :
    ∃ st' done', fillRound i st = .ok (.inl st') ∧ Filling str n done' st' ∧ st'.1 = rest := by
  obtain ⟨hDone, hCount, hInputs⟩ := h
  obtain ⟨hTake, -⟩ := strtok_some hToken
  rw [hTake] at hDone
  by_cases hInt : isInt token = true
  · have hLt : done.length < n := by
      have := congrArg List.length hDone
      simp [hInt] at this
      omega
    have hWrite : assignEntry st.2.2 st.2.1 (tokenWord token) =
        .ok (filled n ((done ++ [token]).map tokenWord)) := by
      rw [hInputs, hCount, List.map_append]
      simpa using assignEntry_filled (done.map tokenWord) (by simpa using hLt) (tokenWord token)
    have hNext : increment st.2.1 = .ok (done ++ [token]).length := by
      rw [increment, hCount, if_pos (by omega), List.length_append, List.length_singleton]
    refine ⟨(rest, (done ++ [token]).length, filled n ((done ++ [token]).map tokenWord)),
      done ++ [token], ?_, ⟨?_, rfl, rfl⟩, rfl⟩
    · simp only [fillRound, hToken, if_pos hInt, toInt_ok hInt, hWrite, hNext, ok_bind]
    · simpa [hInt] using hDone
  · refine ⟨(rest, st.2.1, st.2.2), done, ?_, ⟨?_, hCount, hInputs⟩, rfl⟩
    · simp only [fillRound, hToken, if_neg hInt]
    · simpa [hInt] using hDone

/-- The loop writes the values of the accepted fields. -/
theorem fill_returns {str : List Char} {n : Nat} (hn : n ≤ intMax)
    (hRoom : (accepted str).length ≤ n) :
    Returns (fun fuel => loop .diverges fillRound fuel 0 (str, 0, List.replicate n none))
      (filled n ((accepted str).map tokenWord)) := by
  have hWf : WellFounded fun a b : List Char × Nat × List (Option Word) =>
      a.1.length < b.1.length :=
    InvImage.wf (fun st : List Char × Nat × List (Option Word) => st.1.length) Nat.lt_wfRel.wf
  have hStart : Filling str n [] (str, 0, List.replicate n none) := ⟨rfl, rfl, by simp [filled]⟩
  suffices h : ∃ inputs, Returns (fun fuel =>
      loop .diverges fillRound fuel 0 (str, 0, List.replicate n none)) inputs ∧
      inputs = filled n ((accepted str).map tokenWord) by
    obtain ⟨inputs, hRet, rfl⟩ := h
    exact hRet
  refine loop_returns (P := fun st => ∃ done, Filling str n done st) hWf ?_ 0 ⟨[], hStart⟩
  rintro i st ⟨done, hSt⟩
  cases hToken : strtok ',' st.1 with
  | none =>
    have hDone := hSt.split
    rw [strtok_none hToken, List.append_nil] at hDone
    refine ⟨.inr st.2.2, Returns.of_eq fun _ => ?_, ?_⟩
    · simp only [fillRound, hToken]
    · show st.2.2 = _
      rw [hSt.inputs_eq, hDone]
  | some next =>
    obtain ⟨token, rest⟩ := next
    obtain ⟨st', done', hRound, hSt', hText⟩ := hSt.round hn hRoom i hToken
    refine ⟨.inl st', Returns.of_eq fun _ => hRound, ⟨done', hSt'⟩, ?_⟩
    show st'.1.length < st.1.length
    rw [hText]
    exact (strtok_some hToken).2

-- ---------------------------------------------------------------------------
-- The whole function
-- ---------------------------------------------------------------------------

/-- Counting overflows an `int` or gives the number of times the character occurs. -/
theorem countChar_eq (str : List Char) (c : Char) : countChar str c =
    if str.count c ≤ intMax then .ok (str.count c) else .error .undefined := by
  suffices h : ∀ n ≤ intMax, str.foldlM
      (fun count x => if x = c then increment count else Except.ok count) n =
        if n + str.count c ≤ intMax then .ok (n + str.count c) else .error .undefined by
    simpa [countChar] using h 0 (Nat.zero_le _)
  induction str with
  | nil =>
    intro n hn
    simp [hn]
    rfl
  | cons x str ih =>
    intro n hn
    rw [List.foldlM_cons]
    by_cases hx : x = c
    · rw [if_pos hx, hx, List.count_cons_self, increment]
      by_cases hLt : n < intMax
      · rw [if_pos hLt, ok_bind, ih (n + 1) hLt, Nat.add_assoc, Nat.add_comm 1]
      · rw [if_neg hLt, if_neg (by omega)]
        rfl
    · rw [if_neg hx, ok_bind, ih n hn, List.count_cons_of_ne hx]

/-- There is one field more than commas. -/
theorem length_fields (str : List Char) : (fields str).length = str.count ',' + 1 :=
  length_splitOn ',' str

/-- **What `parse_inputs` returns**: an entry for each field, of which as many are written, from
the front, as there are fields that `is_int` accepts. -/
theorem parseInputs_returns {str : List Char} (h : str.count ',' < intMax) :
    Returns (fun fuel => parseInputs fuel str)
      ((fields str).length, filled (fields str).length ((accepted str).map tokenWord)) := by
  have hRoom : (accepted str).length ≤ (fields str).length := List.length_filter_le _ _
  have hCount := length_fields str
  refine ((fill_returns (by omega) hRoom).bind (g := fun _ inputs =>
    Except.ok ((fields str).length, inputs)) (Returns.of_eq fun _ => rfl)).congr fun fuel => ?_
  rw [parseInputs, countChar_eq, if_pos h.le, ok_bind, increment, if_pos h, ok_bind, ← hCount]
  rfl

/-- With too many commas the count is undefined. -/
theorem parseInputs_undefined {str : List Char} (h : intMax ≤ str.count ',') (fuel : Nat) :
    parseInputs fuel str = .error .undefined := by
  rw [parseInputs, countChar_eq]
  by_cases hLe : str.count ',' ≤ intMax
  · rw [if_pos hLe, ok_bind, increment, if_neg (by omega)]
    rfl
  · rw [if_neg hLe]
    rfl

-- ---------------------------------------------------------------------------
-- When it is faithful
-- ---------------------------------------------------------------------------

/-- `strtol` gets the last 32 bits of a decimal number right: without a `0` in front, it must fit
a `long`, or end in the bits that `LONG_MAX` ends in; with one, it must be a single digit below 8,
or so large that the octal number agrees by accident. -/
def ReadAsDecimal (field : List Char) : Prop :=
  if field.head? = some '0' then
    numberIn 10 field < 8 ∨ 2 ^ 32 ≤ numberIn 10 field ∧
      min longMax (numberIn 8 (leadingDigits 8 field)) % 2 ^ 32 = numberIn 10 field % 2 ^ 32
  else numberIn 10 field ≤ longMax ∨ numberIn 10 field % 2 ^ 32 = 2 ^ 32 - 1

/-- A field that `parse_inputs` can deal with. -/
structure PlainField (field : List Char) : Prop where
  ne_nil : field ≠ []
  digits : allIn 10 field = true
  decimal : ReadAsDecimal field

/-- A token has its decimal value if it is read as decimal and does not saturate. -/
theorem tokenWord_eq_iff {token : List Char} (h : isInt token = true) :
    tokenWord token = BitVec.ofNat 32 (numberIn 10 token) ↔ ReadAsDecimal token := by
  obtain ⟨-, hAll⟩ := isInt_iff.mp h
  have hOctal := numberIn_leadingDigits_le (p := 8) (by decide) (by decide) hAll
  have hSame := numberIn_leadingDigits_eq_iff (p := 8) (by decide) (by decide) hAll
  rw [tokenWord, strtol_digits h, BitVec.ofInt_natCast, ← BitVec.toNat_inj, BitVec.toNat_ofNat,
    BitVec.toNat_ofNat, digitsRead, ReadAsDecimal]
  generalize numberIn 8 (leadingDigits 8 token) = octal at *
  generalize numberIn 10 token = value at *
  unfold longMax
  split
  · constructor
    · intro hEq
      by_cases hSmall : value < 2 ^ 32
      · left
        omega
      · right
        omega
    · rintro (hSmall | ⟨-, hEq⟩)
      · rw [hSame.mpr hSmall]
        omega
      · exact hEq
  · omega

/-- A field arrives as it is if it is plain. -/
theorem holdsField_iff {field : List Char} :
    HoldsField field (some (tokenWord field)) ↔ PlainField field := by
  by_cases h : isInt field = true
  · obtain ⟨hNe, hAll⟩ := isInt_iff.mp h
    have hValue : decimalValue field = some (numberIn 10 field) := if_pos ⟨hNe, hAll⟩
    constructor
    · rintro ⟨v, hv, hWord⟩
      rw [hValue] at hv
      cases hv
      exact ⟨hNe, hAll, (tokenWord_eq_iff h).mp (Option.some.inj hWord)⟩
    · intro hPlain
      exact ⟨_, hValue, congrArg some ((tokenWord_eq_iff h).mpr hPlain.decimal)⟩
  · rw [isInt_iff] at h
    constructor
    · rintro ⟨v, hv, -⟩
      rw [decimalValue, if_neg h] at hv
      cases hv
    · exact fun hPlain => absurd ⟨hPlain.ne_nil, hPlain.digits⟩ h

/-- If all fields are accepted, each entry is written for its field. -/
theorem filled_accepted {str : List Char} (h : ∀ field ∈ fields str, isInt field = true) :
    filled (fields str).length ((accepted str).map tokenWord) =
      (fields str).map fun field => some (tokenWord field) := by
  have hAll : accepted str = fields str := List.filter_eq_self.mpr h
  rw [hAll, filled, List.length_map, Nat.sub_self, List.replicate_zero, List.append_nil,
    List.map_map]
  rfl

/-- **The inputs are parsed faithfully exactly when the counting does not overflow and every field
is a decimal number** that `strtol` reads as one. -/
theorem parseInputs_faithful_iff (str : List Char) : ParsedFaithfully str ↔
    str.count ',' < intMax ∧ ∀ field ∈ fields str, PlainField field := by
  by_cases hCommas : str.count ',' < intMax
  · have hRet := parseInputs_returns hCommas
    constructor
    · rintro (⟨message, N, hExit⟩ | ⟨count, inputs, hRet', hLength, hHolds⟩)
      · obtain ⟨M, hM⟩ := hRet
        have := (hM _ (le_max_right N M)).symm.trans (hExit _ (le_max_left N M))
        cases this
      · cases hRet.unique hRet'
        have hInt : ∀ field ∈ fields str, isInt field = true := by
          intro field hField
          obtain ⟨entry, -, v, hv, -⟩ := exists_right_of_forall₂ hHolds hField
          by_contra hNot
          rw [isInt_iff] at hNot
          rw [decimalValue, if_neg hNot] at hv
          cases hv
        rw [filled_accepted hInt, List.forall₂_map_right_iff, List.forall₂_same] at hHolds
        exact ⟨hCommas, fun field hField => holdsField_iff.mp (hHolds field hField)⟩
    · rintro ⟨-, hPlain⟩
      have hInt : ∀ field ∈ fields str, isInt field = true := fun field hField =>
        isInt_iff.mpr ⟨(hPlain field hField).ne_nil, (hPlain field hField).digits⟩
      rw [filled_accepted hInt] at hRet
      refine Or.inr ⟨_, _, hRet, List.length_map _, ?_⟩
      rw [List.forall₂_map_right_iff, List.forall₂_same]
      exact fun field hField => holdsField_iff.mpr (hPlain field hField)
  · have hStop := parseInputs_undefined (not_lt.mp hCommas)
    refine iff_of_false ?_ fun h => hCommas h.1
    rintro (⟨message, N, hExit⟩ | ⟨count, inputs, ⟨N, hN⟩, -⟩)
    · cases (hStop N).symm.trans (hExit N le_rfl)
    · cases (hStop N).symm.trans (hN N le_rfl)

/-- `1,,2` counts for three inputs, and the third entry is never written. -/
theorem emptyField_unwritten :
    Returns (fun fuel => parseInputs fuel ['1', ',', ',', '2']) (3, [some 1, some 2, none]) ∧
      ¬ ParsedFaithfully ['1', ',', ',', '2'] := by
  have hRet : Returns (fun fuel => parseInputs fuel ['1', ',', ',', '2'])
      (3, [some 1, some 2, none]) :=
    parseInputs_returns (by decide)
  refine ⟨hRet, ?_⟩
  rintro (⟨message, N, hExit⟩ | ⟨count, inputs, hRet', -, hHolds⟩)
  · obtain ⟨M, hM⟩ := hRet
    cases (hM _ (le_max_right N M)).symm.trans (hExit _ (le_max_left N M))
  · cases hRet.unique hRet'
    obtain ⟨field, -, v, -, hNone⟩ := exists_left_of_forall₂ hHolds (y := none) (by simp)
    cases hNone

end Obscure
