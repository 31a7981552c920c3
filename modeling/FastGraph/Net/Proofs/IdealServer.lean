import FastGraph.Dispatch.Proofs.IdealStore
import FastGraph.Net.Proofs.Alike
import FastGraph.Net.Proofs.Connections
import FastGraph.Net.Proofs.Fragmentation
import FastGraph.Net.Proofs.Restart
import FastGraph.Net.Serving

/-!
# The server from its sockets to its engines

Whatever bytes arrive on whatever connections, in whatever pieces, a running server sends what
the store would send. For a stream of encoded commands these are the replies of the store to the
commands, one after the other.
-/

namespace FastGraph.Server
open Dispatcher IdealStore RespEncoder

variable {W D : Type} [Zero W] [One W] [Add W] [LT W] [DecidableLT W]
variable [Inhabited D] [LinearOrder D]
variable {lib : FloatLib W D} {d : Dispatcher W D} {A : IdealStore W D}

/-- A running server has some contents. -/
theorem Runs.holds (runs : Runs lib d) : ∃ A, Holds d A := by
  induction runs with
  | @started path disk now d loaded =>
    obtain ⟨d', loaded', ⟨kv, rep⟩, -, zsets⟩ := start_spec lib path disk now
    obtain rfl := Option.some.inj (loaded.symm.trans loaded')
    refine ⟨⟨kv, d.graph, fun _ => ∅⟩, rep, rfl, ?_⟩
    rw [zsets]
    exact SortedSetEngine.represents_empty
  | @dispatched d d' _ env args reply returned ih =>
    obtain ⟨A, holds⟩ := ih
    have alike := dispatch_alike lib env holds args
    rw [returned] at alike
    generalize IdealStore.dispatch lib env A args = answered at alike
    cases alike with
    | returned related => exact ⟨_, related.1⟩
  | @ticked d _ now kv dropped ih =>
    obtain ⟨A, holds⟩ := ih
    obtain ⟨kv', dropped', rep⟩ := KVEngine.tick_spec holds.kv now
    obtain rfl := Option.some.inj (dropped.symm.trans dropped')
    exact ⟨{ A with kv := A.kv.sweep now }, rep, holds.graph, holds.zsets⟩
  | saved _ env ih =>
    obtain ⟨A, holds⟩ := ih
    exact ⟨A, holds.kv, holds.graph, holds.zsets⟩

/-- The server has the contents, and both have dispatched as many commands. -/
def InStep (s : Dispatcher W D × Nat) (t : IdealStore W D × Nat) : Prop :=
  Holds s.1 t.1 ∧ s.2 = t.2

end FastGraph.Server
