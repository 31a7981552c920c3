import FastGraph.Dispatch.Dispatcher

/-!
# A server from its start on

`Server::start` (`net/server.cpp:18-39`) loads the snapshot into engines that have just been
constructed. Then commands arrive, one timer drops the keys that have expired and another makes
a snapshot. The snapshots are taken here between the commands, on which no thread works.
-/

namespace FastGraph.Server
variable {W D : Type} (lib : FloatLib W D)

/-- `Server::Server` (`server.cpp:11-16`) and the load of `start` (`:20`), for a server that finds
the files of `disk`. -/
def start (path : Bytes) (disk : Disk) (now : Int) : Option (Dispatcher W D) := do
  let persistence : Persistence := ⟨path, false⟩
  let (_, kv, graph) ← persistence.load lib.bits disk now .empty .empty
  some ⟨kv, graph, .empty, persistence, disk⟩

/-- The job of the snapshot timer (`server.cpp:32`). -/
def snapshot (env : Env) (d : Dispatcher W D) : Dispatcher W D :=
  let (persistence, disk, _) := d.persistence.save lib.bits d.disk d.kv d.graph env.now env.order
    env.edgeOrder env.saveCalls
  { d with persistence := persistence, disk := disk }

/-- A server that is started again after a snapshot. -/
def restart (env : Env) (now : Int) (d : Dispatcher W D) : Option (Dispatcher W D) :=
  start lib d.persistence.path (snapshot lib env d).disk now

variable [Zero W] [One W] [Add W] [LT W] [DecidableLT W]
variable [Inhabited D] [BEq D] [LT D] [DecidableLT D] [LE D] [DecidableLE D]

/-- What the commands and the timers lead to from a start. -/
inductive Runs : Dispatcher W D → Prop where
  | started {path : Bytes} {disk : Disk} {now : Int} {d : Dispatcher W D}
      (loaded : start lib path disk now = some d) : Runs d
  | dispatched {d d' : Dispatcher W D} (runs : Runs d) (env : Env) (args : List Bytes)
      {reply : Bytes}
      (returned : Dispatcher.dispatch lib env d args = Outcome.returned (d', reply)) : Runs d'
  | ticked {d : Dispatcher W D} (runs : Runs d) {now : Int} {kv : KVEngine}
      (dropped : d.kv.tick now = some kv) : Runs { d with kv := kv }
  | saved {d : Dispatcher W D} (runs : Runs d) (env : Env) : Runs (snapshot lib env d)

end FastGraph.Server
