import Mathlib.Data.List.Basic
import Mathlib.Data.List.TakeWhile
import Mathlib.Data.Nat.Digits.Defs

/-!
# OBSCURE — digits

Texts that spell numbers. The compiler reads the literals of a program, the runtime the inputs
of the command line; both take the text a digit at a time, in a base that the text may name.

* `numberIn_eq_iff` — digits read in two bases give the same number only if there is one of them
  that counts.
-/

namespace Obscure

/-- Digits of the smaller of two bases, least significant first. -/
theorem ofDigits_eq_iff {p q : Nat} (hp : 0 < p) (hpq : p < q) {l : List Nat}
    (hl : ∀ d ∈ l, d < p) :
    Nat.ofDigits q l = Nat.ofDigits p l ↔ Nat.ofDigits p l < p := by
  induction l with
  | nil => simpa using hp
  | cons d l ih =>
    have ih := ih fun e he => hl e (by simp [he])
    have hd : d < p := hl d (by simp)
    have hle : Nat.ofDigits p l ≤ Nat.ofDigits q l := Nat.ofDigits_monotone l hpq.le
    rw [Nat.ofDigits_cons, Nat.ofDigits_cons]
    rcases Nat.eq_zero_or_pos (Nat.ofDigits p l) with hZero | hPos
    · rw [hZero] at ih ⊢
      rw [ih.mpr hp]
      omega
    · have hLt : p * Nat.ofDigits p l < q * Nat.ofDigits q l :=
        calc p * Nat.ofDigits p l < q * Nat.ofDigits p l := Nat.mul_lt_mul_of_pos_right hpq hPos
          _ ≤ q * Nat.ofDigits q l := Nat.mul_le_mul_left q hle
      have hBig : p ≤ p * Nat.ofDigits p l := Nat.le_mul_of_pos_right p hPos
      omega

/-- What a character counts as a digit. -/
def digitVal (c : Char) : Option Nat :=
  if c.isDigit then some (c.toNat - '0'.toNat)
  else if 'a'.toNat ≤ c.toNat ∧ c.toNat ≤ 'f'.toNat then some (c.toNat - 'a'.toNat + 10)
  else if 'A'.toNat ≤ c.toNat ∧ c.toNat ≤ 'F'.toNat then some (c.toNat - 'A'.toNat + 10)
  else none

/-- The digit in a base, if the character is one. -/
def digitIn (base : Nat) (c : Char) : Option Nat := (digitVal c).filter (· < base)

/-- All characters are digits in the base. -/
def allIn (base : Nat) (text : List Char) : Bool := text.all fun c => (digitIn base c).isSome

theorem allIn_iff {base : Nat} {text : List Char} :
    allIn base text = true ↔ ∀ c ∈ text, ∃ d, digitIn base c = some d := by
  simp [allIn, Option.isSome_iff_exists]

/-- The number that a text of digits spells. -/
def numberIn (base : Nat) (text : List Char) : Nat :=
  Nat.ofDigits base (text.filterMap (digitIn base)).reverse

/-- The digits in front. -/
def leadingDigits (base : Nat) (text : List Char) : List Char :=
  text.takeWhile fun c => (digitIn base c).isSome

theorem digitIn_mono {p q : Nat} (hpq : p ≤ q) {c : Char} {d : Nat} (h : digitIn p c = some d) :
    digitIn q c = some d := by
  obtain ⟨hVal, hLt⟩ := Option.filter_eq_some_iff.mp h
  refine Option.filter_eq_some_iff.mpr ⟨hVal, ?_⟩
  have : d < p := by simpa using hLt
  simpa using this.trans_le hpq

theorem digitIn_ten {c : Char} (h : c.isDigit) : digitIn 10 c = some (c.toNat - '0'.toNat) := by
  have hVal : digitVal c = some (c.toNat - '0'.toNat) := if_pos h
  have hHigh : c.toNat ≤ 57 := by
    simp only [Char.isDigit, Bool.and_eq_true, decide_eq_true_eq] at h
    exact h.2
  have hLt : c.toNat - '0'.toNat < 10 := by
    show c.toNat - 48 < 10
    omega
  rw [digitIn, hVal, Option.filter_some, if_pos (by simpa using hLt)]

theorem isDigit_of_digitIn {c : Char} (h : (digitIn 10 c).isSome) : c.isDigit := by
  by_contra hNot
  obtain ⟨d, hd⟩ := Option.isSome_iff_exists.mp h
  obtain ⟨hVal, hLt⟩ := Option.filter_eq_some_iff.mp hd
  have hLt : d < 10 := by simpa using hLt
  rw [digitVal, if_neg hNot] at hVal
  split at hVal
  · cases hVal
    omega
  · split at hVal
    · cases hVal
      omega
    · cases hVal

/-- Digits of a base are the same digits in a greater one. -/
theorem filterMap_digitIn {p q : Nat} (hpq : p ≤ q) {text : List Char} (h : allIn p text = true) :
    text.filterMap (digitIn q) = text.filterMap (digitIn p) := by
  refine List.filterMap_congr fun c hc => ?_
  obtain ⟨d, hd⟩ := allIn_iff.mp h c hc
  rw [digitIn_mono hpq hd]
  exact hd.symm

theorem numberIn_mono {p q : Nat} (hpq : p ≤ q) {text : List Char} (h : allIn p text = true) :
    numberIn p text ≤ numberIn q text := by
  rw [numberIn, numberIn, filterMap_digitIn hpq h]
  exact Nat.ofDigits_monotone _ hpq

/-- A text of digits gives the same number in two bases when one digit counts. -/
theorem numberIn_eq_iff {p q : Nat} (hp : 0 < p) (hpq : p < q) {text : List Char}
    (h : allIn p text = true) : numberIn q text = numberIn p text ↔ numberIn p text < p := by
  rw [numberIn, numberIn, filterMap_digitIn hpq.le h]
  refine ofDigits_eq_iff hp hpq fun d hd => ?_
  obtain ⟨c, -, hc⟩ := List.mem_filterMap.mp (List.mem_reverse.mp hd)
  simpa using (Option.filter_eq_some_iff.mp hc).2

theorem numberIn_append (base : Nat) (a b : List Char) :
    numberIn base (a ++ b) =
      numberIn base b + base ^ (b.filterMap (digitIn base)).length * numberIn base a := by
  rw [numberIn, List.filterMap_append, List.reverse_append, Nat.ofDigits_append,
    List.length_reverse]
  rfl

theorem allIn_leadingDigits (base : Nat) (text : List Char) :
    allIn base (leadingDigits base text) = true :=
  List.all_eq_true.mpr fun _ hc =>
    List.mem_takeWhile_imp (p := fun c => (digitIn base c).isSome) hc

theorem leadingDigits_of_allIn {base : Nat} {text : List Char} (h : allIn base text = true) :
    leadingDigits base text = text :=
  List.takeWhile_eq_self_iff.mpr (List.all_eq_true.mp h)

theorem numberIn_singleton {base d : Nat} {c : Char} (h : digitIn base c = some d) :
    numberIn base [c] = d := by
  simp [numberIn, h]

theorem le_of_digitIn {p q d : Nat} {c : Char} (hq : digitIn q c = some d)
    (hp : digitIn p c = none) : p ≤ d := by
  obtain ⟨hVal, -⟩ := Option.filter_eq_some_iff.mp hq
  rw [digitIn, hVal] at hp
  simpa using hp

section Leading

variable {p q : Nat} {text : List Char}

/-- What stands behind the leading digits of the smaller base is too great for it. -/
theorem leadingDigits_cases (hp : 0 < p) (hpq : p < q) (h : allIn q text = true) :
    leadingDigits p text = text ∨
      p ≤ numberIn q text ∧ numberIn q (leadingDigits p text) < numberIn q text := by
  have hSplit : leadingDigits p text ++ text.dropWhile (fun c => (digitIn p c).isSome) = text :=
    List.takeWhile_append_dropWhile
  have hHead := List.head_dropWhile_not (fun c => (digitIn p c).isSome) (l := text)
  generalize leadingDigits p text = front at hSplit ⊢
  generalize text.dropWhile (fun c => (digitIn p c).isSome) = rest at hSplit hHead
  cases rest with
  | nil => exact Or.inl (by simpa using hSplit)
  | cons c rest =>
    right
    obtain ⟨d, hd⟩ := allIn_iff.mp h c (by simp [← hSplit])
    have hLe : p ≤ d := le_of_digitIn hd (by simpa using hHead (by simp))
    have hPow : ∀ k x, x ≤ q ^ k * x := fun k x =>
      Nat.le_mul_of_pos_left x (Nat.pow_pos (by omega))
    have hRest : d ≤ numberIn q (c :: rest) := by
      rw [← List.singleton_append, numberIn_append, numberIn_singleton hd]
      exact (hPow _ d).trans (Nat.le_add_left _ _)
    have hAll : numberIn q (c :: rest) + numberIn q front ≤ numberIn q text := by
      rw [← hSplit, numberIn_append]
      exact Nat.add_le_add_left (hPow _ _) _
    omega

/-- The leading digits of the smaller base give no more than all digits of the greater one, and
the same only if there is one of them that counts. -/
theorem numberIn_leadingDigits_le (hp : 0 < p) (hpq : p < q) (h : allIn q text = true) :
    numberIn p (leadingDigits p text) ≤ numberIn q text := by
  have hMono := numberIn_mono hpq.le (allIn_leadingDigits p text)
  rcases leadingDigits_cases hp hpq h with hAll | ⟨-, hLt⟩
  · exact hMono.trans (by rw [hAll])
  · omega

theorem numberIn_leadingDigits_eq_iff (hp : 0 < p) (hpq : p < q) (h : allIn q text = true) :
    numberIn p (leadingDigits p text) = numberIn q text ↔ numberIn q text < p := by
  have hIn := allIn_leadingDigits p text
  have hMono := numberIn_mono hpq.le hIn
  rcases leadingDigits_cases hp hpq h with hAll | ⟨hBig, hLt⟩
  · rw [hAll] at hIn hMono ⊢
    rw [eq_comm, numberIn_eq_iff hp hpq hIn]
    constructor
    · intro hSmall
      rwa [(numberIn_eq_iff hp hpq hIn).mpr hSmall]
    · exact hMono.trans_lt
  · exact iff_of_false (by omega) (by omega)

end Leading

end Obscure
