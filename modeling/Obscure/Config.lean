import Mathlib.Algebra.Group.Nat.Defs
import Mathlib.Data.Nat.Log

/-!
# OBSCURE — configurations

The sizes of the secure element are build constants of the runtime
(`runtime/SEconfig.h`) and command-line options of the compiler
(`compiler/src/main.py`). Both sides are given one record here; a bytecode file
carries it in its metadata and the runtime refuses a file that was built for
another one.
-/

namespace Obscure

/-- The constants of a secure element. -/
structure SEConfig where
  version : Nat
  wordSize : Nat
  /-- `LLMI_MAX_INPUT_COUNT` -/
  lIn : Nat
  /-- `LLMI_MAX_OUTPUT_COUNT` -/
  lOut : Nat
  /-- `REGISTER_COUNT` -/
  r : Nat
  /-- `LLS_MAX_LENGTH` -/
  s : Nat
deriving DecidableEq

/-- The options of the compiler that reach the passes. -/
structure Config extends SEConfig where
  width : Nat
  depth : Nat
  simpleClusterizer : Bool
  fast : Bool

/-- The two checks of `main` on the sizes. -/
def Config.Accepted (cfg : Config) : Prop :=
  cfg.lIn + cfg.lOut ≤ cfg.r ∧ cfg.lIn ≤ cfg.s ∧ cfg.lOut ≤ cfg.s

instance (cfg : Config) : Decidable cfg.Accepted := by
  unfold Config.Accepted
  infer_instance

/-- `SE_SMALL`, the configuration `SEconfig.h` selects. -/
def seSmall : SEConfig := ⟨0, 32, 8, 8, 40, 32⟩

/-- `SE_MEDIUM`. -/
def seMedium : SEConfig := ⟨0, 32, 16, 16, 80, 64⟩

/-- `SE_LARGE`. -/
def seLarge : SEConfig := ⟨0, 32, 32, 32, 160, 128⟩

/-- `SE_EXTRALARGE`. -/
def seExtraLarge : SEConfig := ⟨0, 32, 64, 64, 320, 256⟩

/-- Bytes for a number below `n` as the runtime computes them, with the
ceiling of the logarithm taken exactly. -/
def bytelen (n : Nat) : Nat := (Nat.clog 2 n + 7) / 8

theorem bytelen_pos {n : Nat} (h : 2 ≤ n) : 1 ≤ bytelen n := by
  have := Nat.clog_pos (b := 2) (by decide) h
  unfold bytelen
  omega

theorem bytelen_le_four {n : Nat} (h : n < 2 ^ 32) : bytelen n ≤ 4 := by
  have : Nat.clog 2 n ≤ 32 := (Nat.clog_le_iff_le_pow (by decide)).mpr h.le
  unfold bytelen
  omega

end Obscure
