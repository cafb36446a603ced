import Temari.PoolBuffers

/-! The one-shot calls of the bindings, from the sample the caller passes to the bytes it gets back:
Decrypt and DecryptPar of the Go package and of the Python package, over the C interface. -/
namespace Temari.BatchCalls
open RoundMachine Rounds RegionPaths PoolRegions PoolResults PoolBuffers NoFaults StreamOrder
open TemplateFormat

section Go

end Go

section Python

end Python

section Native
variable {T : Template} {samples : List Bytes} {r : Except Fault (Nat × Pointer)}
  {args : List (Pointer × Nat)} {lib : Library}

end Native

section Libraries
variable {T : Template} {lib : Library}

end Libraries

section Views
variable {T : Template}

end Views

section Calls
variable {T : Template} {samples : List Bytes} {lib : Library}

end Calls

end Temari.BatchCalls
