import Obscure.IR
import Obscure.Lib.SetOrder
import Obscure.Lowering.RegAlloc
import Obscure.Lowering.Simulation
import Obscure.Lowering.Correct
import Obscure.Lowering.Outputs
import Obscure.Frontend.AlphaConvert
import Obscure.Frontend.Literals
import Obscure.Frontend.UnnestedBody
import Obscure.Frontend.ArrayCells
import Obscure.Frontend.ToHLIR
import Obscure.Frontend.Unrolling
import Obscure.Frontend.SSA
import Obscure.Frontend.Simplify
import Obscure.CodeGen.Serializer
import Obscure.Runtime.CommandLine
import Obscure.Runtime.Sequence
import Obscure.Runtime.Protocol
import Obscure.Runtime.Refinement
import Obscure.Runtime.Substitution
import Obscure.Clusterization.BasicClusterizer
import Obscure.Clusterization.InitialGraph
import Obscure.Clusterization.Limits
import Obscure.Clusterization.Meaning
import Obscure.Clusterization.NaiveClusterizer
import Obscure.Routing.LowDepth
import Obscure.Routing.Networks
import Obscure.Lowering.Dummies
import Obscure.Lowering.Reveal
import Obscure.Universalization.Guarantees
import Obscure.Universalization.Reveal
import Obscure.Universalization.Integrity
import Obscure.Programs.Reductions
import Obscure.Lowering.Program
import Obscure.Runtime.Behaviour
import Obscure.Runtime.HonestHost
import Obscure.Runtime.Disclosure
import Obscure.Compiler.Backend
import Obscure.Compiler.Leakage
import Obscure.Frontend.Pipeline
import Obscure.Compiler.Main
import Obscure.Crypto.Sparkle
import Obscure.Crypto.Schwaemm
import Obscure.Crypto.Esch
import Obscure.Runtime.Primitives
import Obscure.Frontend.Calls
import Obscure.Frontend.Inlining
