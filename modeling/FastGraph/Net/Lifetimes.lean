import FastGraph.Net.Start

/-!
# Servers that die

A server dies when a thread of it throws, or because it is killed, at any moment and also in the
middle of a snapshot. The next one starts from the files that it finds. What `fwrite` has not yet
handed on is lost with the process, so that the temporary file may end anywhere.
-/

namespace FastGraph.Server
variable {W D : Type} (lib : FloatLib W D)

/-- The files if the server dies in the middle of a `save` (`rdb.cpp:48-85`), when `n` bytes of the
temporary file are written. -/
def cutSnapshot (env : Env) (n : Nat) (d : Dispatcher W D) : Disk :=
  let f := RDB.saveHead (fopenWrite env.saveCalls.stores) (d.kv.allEntries env.now)
  let f := match d.graph.allNodes env.order with
    | .error _ => f
    | .ok nodes => RDB.saveTail lib.bits f nodes (d.graph.allEdges env.edgeOrder)
  d.disk.set (d.persistence.path ++ str ".tmp") (f.contents.take n)

/-- What happens to a server. A restart says whether the server died in the middle of a snapshot,
and when the next one starts. -/
inductive Incident where
  | command (env : Env) (args : List Bytes)
  | tick (now : Int)
  | snapshot (env : Env)
  | restart (cut : Option (Env × Nat)) (now : Int)

section
variable [Zero W] [One W] [Add W] [LT W] [DecidableLT W]
variable [Inhabited D] [BEq D] [LT D] [DecidableLT D] [LE D] [DecidableLE D]

/-- One incident. After a command or a snapshot that throws there is no server. -/
def meet (d : Dispatcher W D) : Incident → Option (Dispatcher W D)
  | .command env args =>
    match Dispatcher.dispatch lib env d args with
    | some (.ok (d, _)) => some d
    | _ => none
  | .tick now => (d.kv.tick now).map fun kv => { d with kv := kv }
  | .snapshot env =>
    match d.persistence.save lib.bits d.disk d.kv d.graph env.now env.order env.edgeOrder
      env.saveCalls with
    | (persistence, disk, .ok _) => some { d with persistence := persistence, disk := disk }
    | (_, _, .error _) => none
  | .restart none now => start lib d.persistence.path d.disk now
  | .restart (some (env, n)) now => start lib d.persistence.path (cutSnapshot lib env n d) now

end

end FastGraph.Server
