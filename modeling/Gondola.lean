import Gondola.Main
import Gondola.Proofs.Scope.History
import Gondola.Proofs.Parser.Continuation
import Gondola.Proofs.Heap.Readable
import Gondola.Proofs.Compile.Places
import Gondola.Proofs.Parser.Slices
import Gondola.Proofs.Parser.Session
import Gondola.Proofs.Token.Respacing
import Gondola.Proofs.Typing.Reached
import Gondola.Proofs.Compile.Helpers
import Gondola.Proofs.Typing.Literals
import Gondola.Proofs.Compile.Variants
import Gondola.Proofs.Code.PythonGlobals
import Gondola.Proofs.Code.Conversions
import Gondola.Proofs.Ty.Consistency
import Gondola.Proofs.Typing.Construction
import Gondola.Proofs.Typing.Scoping
import Gondola.Proofs.Code.Typedefs
import Gondola.Proofs.Text.OctalLiteral
import Gondola.Proofs.Code.NativeTargets
import Gondola.Proofs.Outline.Alike
