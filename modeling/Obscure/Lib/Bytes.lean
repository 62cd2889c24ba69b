import Mathlib.Data.Nat.Log
import Mathlib.Data.Nat.Digits.Lemmas
import Mathlib.Tactic.Ring

/-!
# Big-endian bytes and byte readers

Fixed-width big-endian numbers, and readers: functions that consume a front part
of a byte string. `Reads p bs x` says that `p` consumes exactly `bs` and returns
`x`, whatever follows; a format round trip is a `Reads` fact, put together with
`Reads.bind` and `Reads.times` along the text of the reader.
-/

namespace Lib

/-! ## Numbers -/

/-- The `len` low bytes of `n`, most significant first. -/
def toBE (len n : Nat) : List UInt8 :=
  (List.range len).reverse.map fun k => UInt8.ofNat (n / 256 ^ k)

/-- The number a byte string spells, most significant byte first. -/
def ofBE (bs : List UInt8) : Nat := Nat.ofDigits 256 (bs.reverse.map UInt8.toNat)

@[simp] theorem length_toBE (len n : Nat) : (toBE len n).length = len := by
  simp [toBE]

theorem toBE_succ (len n : Nat) :
    toBE (len + 1) n = UInt8.ofNat (n / 256 ^ len) :: toBE len n := by
  simp [toBE, List.range_succ]

theorem ofBE_cons (b : UInt8) (bs : List UInt8) :
    ofBE (b :: bs) = ofBE bs + 256 ^ bs.length * b.toNat := by
  simp [ofBE, Nat.ofDigits_append]

/-- Reading back what was written keeps the low bytes. -/
theorem ofBE_toBE (len n : Nat) : ofBE (toBE len n) = n % 256 ^ len := by
  induction len with
  | zero => simp [toBE, ofBE, Nat.mod_one]
  | succ len ih =>
    have hByte : (UInt8.ofNat (n / 256 ^ len)).toNat = n / 256 ^ len % 256 := by simp
    rw [toBE_succ, ofBE_cons, ih, length_toBE, hByte, Nat.pow_succ, Nat.mod_mul]

theorem ofBE_toBE_of_lt {len n : Nat} (h : n < 256 ^ len) : ofBE (toBE len n) = n := by
  rw [ofBE_toBE, Nat.mod_eq_of_lt h]

/-- Two numbers below the width have different bytes unless they are equal. -/
theorem toBE_inj {len a b : Nat} (ha : a < 256 ^ len) (hb : b < 256 ^ len)
    (h : toBE len a = toBE len b) : a = b := by
  rw [← ofBE_toBE_of_lt ha, h, ofBE_toBE_of_lt hb]

/-- A number is below the bytes that its bit length needs. -/
theorem lt_pow_of_lt_of_clog {n a : Nat} (h : a < n) : a < 256 ^ ((Nat.clog 2 n + 7) / 8) := by
  have hBits : n ≤ 2 ^ Nat.clog 2 n := Nat.le_pow_clog (by decide) n
  have hLen : Nat.clog 2 n ≤ 8 * ((Nat.clog 2 n + 7) / 8) := by omega
  calc a < n := h
    _ ≤ 2 ^ Nat.clog 2 n := hBits
    _ ≤ 2 ^ (8 * ((Nat.clog 2 n + 7) / 8)) := Nat.pow_le_pow_right (by decide) hLen
    _ = 256 ^ ((Nat.clog 2 n + 7) / 8) := by rw [Nat.pow_mul]

/-! ## Readers -/

/-- A reader returns a value and what it leaves of its input, or fails. -/
abbrev Reader (α : Type) := StateT (List UInt8) Option α

/-- Take the next `n` bytes. -/
def takeBytes (n : Nat) : Reader (List UInt8) := fun bs =>
  if n ≤ bs.length then some (bs.take n, bs.drop n) else none

/-- Run a reader `n` times. -/
def times {α : Type} (p : Reader α) : Nat → Reader (List α)
  | 0 => pure []
  | n + 1 => do
    let x ← p
    let xs ← times p n
    pure (x :: xs)

section Reads

variable {α β : Type}

/-- The reader consumes exactly `bs` and returns `x`. -/
def Reads (p : Reader α) (bs : List UInt8) (x : α) : Prop :=
  ∀ rest, p.run (bs ++ rest) = some (x, rest)

theorem Reads.pure (x : α) : Reads (pure x) [] x := by
  intro rest
  rfl

theorem Reads.bind {p : Reader α} {f : α → Reader β} {bs cs : List UInt8} {x : α} {y : β}
    (hp : Reads p bs x) (hf : Reads (f x) cs y) : Reads (p >>= f) (bs ++ cs) y := by
  intro rest
  rw [StateT.run_bind, List.append_assoc, hp]
  exact hf rest

theorem Reads.congr {p : Reader α} {bs cs : List UInt8} {x : α} (h : Reads p bs x)
    (hEq : bs = cs) : Reads p cs x := hEq ▸ h

/-- The rule for a last step that only packs what was read. -/
theorem Reads.bind_pure {p : Reader α} {g : α → β} {bs : List UInt8} {x : α}
    (hp : Reads p bs x) : Reads (do let a ← p; Pure.pure (g a)) bs (g x) := by
  intro rest
  rw [StateT.run_bind, hp]
  rfl

/-- Running a reader on the whole of its input. -/
theorem Reads.run_all {p : Reader α} {bs : List UInt8} {x : α} (h : Reads p bs x) :
    p.run bs = some (x, []) := by
  simpa using h []

/-- A lifted result consumes nothing. -/
theorem run_liftM (x : Option α) (bs : List UInt8) :
    (liftM x : Reader α).run bs = x.map fun a => (a, bs) := by
  cases x <;> rfl

theorem reads_takeBytes (bs : List UInt8) : Reads (takeBytes bs.length) bs bs := by
  intro rest
  simp [takeBytes, StateT.run]

/-- A repeated reader, element by element. -/
theorem Reads.times {p : Reader α} {bss : List (List UInt8)} {xs : List α}
    (h : List.Forall₂ (Reads p) bss xs) : Reads (times p xs.length) bss.flatten xs := by
  induction h with
  | nil => exact Reads.pure []
  | cons hx _ ih =>
    rw [List.flatten_cons]
    exact Reads.bind hx (Reads.bind_pure ih)

end Reads

end Lib
