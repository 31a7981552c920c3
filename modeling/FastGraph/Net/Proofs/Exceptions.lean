import FastGraph.Dispatch.Proofs.Endings
import FastGraph.Graph.Proofs.BfsPath
import FastGraph.Graph.Proofs.Components
import FastGraph.Graph.Proofs.HasCycle
import FastGraph.Graph.Proofs.MachineWeights
import FastGraph.Graph.Proofs.Neighborhood
import FastGraph.Net.Proofs.Restart

/-!
# Commands that end the server

Nothing above `dispatch` catches, so a number that `handle_kv` cannot read ends the process. Every
other command of a running server is answered, if a path query finds room for its arrays and for the
ids that it meets in them, and if the weights do not lead the search for a weighted path in a circle.
-/

namespace FastGraph.Server
open Dispatcher Filter

section
variable {W D : Type} {d : Dispatcher W D} {args : List Bytes}

variable [Zero W] [Add W] [LT W] [DecidableLT W] [Finite W] [IsStrictOrder W (· < ·)]

end

section
variable {W D : Type} [Zero W] [One W] [Add W] [LT W] [DecidableLT W]
variable [Inhabited D] [BEq D] [LT D] [DecidableLT D] [LE D] [DecidableLE D]
variable {lib : FloatLib W D} {d : Dispatcher W D}

end

instance strictOrder_uint32 : IsStrictOrder UInt32 (· < ·) where
  irrefl a := UInt32.lt_irrefl a
  trans _ _ _ := UInt32.lt_trans

end FastGraph.Server
