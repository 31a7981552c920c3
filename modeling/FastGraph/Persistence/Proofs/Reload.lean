import FastGraph.Persistence.Proofs.Load

/-!
# Loading a snapshot twice

The entries and the nodes of a file overwrite what the engines hold, so that a second load finds
its work done. Its edges are added to those that are there, and a second load adds them again.
-/

namespace FastGraph.RDB
open KVEngine GraphEngine StringPool

/-! ### The entries -/

section
variable {A : ExpiringMap Bytes Bytes} {now : Int} {key : Bytes}

/-- What an entry writes under the key: a value and a deadline, if any. -/
def entryWrites (now : Int) (key : Bytes) (entry : Bytes × Bytes × Int) :
    Option (Option Bytes × Option Int) :=
  if lapsed now entry ∨ key ≠ entry.1 then none else some (some entry.2.1, entryDeadline entry)

theorem putEntry_writes (now : Int) (key : Bytes) (A : ExpiringMap Bytes Bytes)
    (entry : Bytes × Bytes × Int) :
    ((putEntry now A entry).value key, (putEntry now A entry).deadline key) =
      (entryWrites now key entry).getD (A.value key, A.deadline key) := by
  unfold putEntry entryWrites
  by_cases gone : lapsed now entry = true
  · simp [gone]
  · by_cases same : key = entry.1
    · simp [gone, same, ExpiringMap.put]
    · simp [gone, same, ExpiringMap.put]

/-- Putting the entries in again changes no key. -/
theorem putEntries_again (entries : List (Bytes × Bytes × Int)) (key : Bytes) :
    (entries.foldl (putEntry now) (entries.foldl (putEntry now) A)).value key =
        (entries.foldl (putEntry now) A).value key ∧
      (entries.foldl (putEntry now) (entries.foldl (putEntry now) A)).deadline key =
        (entries.foldl (putEntry now) A).deadline key := by
  have loop (A : ExpiringMap Bytes Bytes) := read_foldl
    (fun A => (A.value key, A.deadline key)) (putEntry_writes now key) entries A
  have again := overwrite_idem (f := entryWrites now key) entries (A.value key, A.deadline key)
  rw [← loop, ← loop] at again
  exact Prod.mk.inj again

end

/-! ### The nodes -/

section
variable {W D : Type} {e : GraphEngine W D} {ns : List (Int × Bytes × Bytes)} {ptr : CharPtr}

/-- The labels of the nodes that have been added are settled. -/
theorem settled_of_mem {n : Int × Bytes × Bytes} (mem : n ∈ ns) :
    ∃ ptr, Settled (e.addNodes ns).labelPool n.2.1 ptr := by
  obtain ⟨before, after, rfl⟩ := List.append_of_mem mem
  rw [addNodes_append]
  exact ⟨_, settled_addNodes (e := (e.addNodes before).addNode n.1 n.2.1 n.2.2)
    (settled_intern _ n.2.1) after⟩

/-- The nodes that have been added, with the pointers of the pool they leave. -/
theorem find_addNodes_eq (ns : List (Int × Bytes × Bytes)) (e : GraphEngine W D) (id : Int) :
    (e.addNodes ns).graph.nodes.find id =
      overwrite (nodeWrites (e.addNodes ns).labelPool id) ns (e.graph.nodes.find id) := by
  induction ns generalizing e with
  | nil => rfl
  | cons n ns ih =>
    refine (ih (e.addNode n.1 n.2.1 n.2.2)).trans ?_
    change overwrite _ ns _ = overwrite _ ns _
    have pointer : (((e.addNode n.1 n.2.1 n.2.2).addNodes ns).labelPool.intern n.2.1).2 =
        (e.labelPool.intern n.2.1).2 := by
      have settled := settled_addNodes (e := e.addNode n.1 n.2.1 n.2.2)
        (settled_intern e.labelPool n.2.1) ns
      rw [Settled] at settled
      rw [settled]
    change overwrite _ ns _ = overwrite _ ns ((nodeWrites
      ((e.addNode n.1 n.2.1 n.2.2).addNodes ns).labelPool id n).getD (e.graph.nodes.find id))
    congr 1
    simp only [nodeWrites, pointer]
    simp only [GraphEngine.addNode, DynamicGraph.addNode, UnorderedMap.find_set]
    split <;> rfl

/-- Adding the nodes again changes no node. -/
theorem addNodes_again {e' : GraphEngine W D} (pool : e'.labelPool = (e.addNodes ns).labelPool)
    (nodes : e'.graph.nodes = (e.addNodes ns).graph.nodes) (id : Int) :
    (e'.addNodes ns).nodeContents id = e'.nodeContents id := by
  obtain ⟨kept, found⟩ := addNodes_settled (e := e')
    (fun n (mem : n ∈ ns) => by rw [pool]; exact settled_of_mem mem) id
  have same : (e'.addNodes ns).graph.nodes.find id = e'.graph.nodes.find id := by
    rw [found, pool, nodes, find_addNodes_eq, overwrite_idem]
  simp only [nodeContents, DynamicGraph.nodeMeta, same, labelString, kept]

end

/-! ### A second load -/

section
variable {W D : Type} {bits : W ≃ UInt32} {disk : Disk} {path : Bytes} {f : InFile} {r : Records W}
  {kv : KVEngine} {now : Int}

/-- Two pairs of engines have the same keys with their values and deadlines, the same nodes with
labels and properties, the same edges as often, and the same edge count. -/
structure SameData (kv kv' : KVEngine) (graph graph' : GraphEngine W D) : Prop where
  values : ∀ k, kv'.map.get k = kv.map.get k
  deadlines : ∀ k, kv'.deadlines.getExpiry k = kv.deadlines.getExpiry k
  nodes : ∀ id, graph'.nodeContents id = graph.nodeContents id
  edges : ∀ id, (graph'.graph.neighbors id).Perm (graph.graph.neighbors id)
  backEdges : ∀ id, (graph'.graph.reverseNeighbors id).Perm (graph.graph.reverseNeighbors id)
  edgeCount : graph'.graph.edgeCount = graph.graph.edgeCount

/-- Loading a snapshot a second time leaves what loading it once has left if and only if the
snapshot has no edges. -/
theorem reload_iff (history : List Timed) (reached : KVEngine.run history .empty = some kv)
    (file : disk.find path = some f) (read : readRecords bits f = some r) (graph : GraphEngine W D)
    (now : Int) :
    ∃ kv₁ graph₁ kv₂ graph₂,
      load bits disk path now kv graph = some (r.complete, kv₁, graph₁) ∧
      load bits disk path now kv₁ graph₁ = some (r.complete, kv₂, graph₂) ∧
      (SameData kv₁ kv₂ graph₁ graph₂ ↔ r.edges = []) := by
  obtain ⟨_, ran, rep⟩ := run_refines represents_empty history
  rw [reached] at ran
  cases ran
  obtain ⟨kv₁, first, rep₁⟩ := load_of_records file read rep graph now
  obtain ⟨kv₂, second, rep₂⟩ := load_of_records file read rep₁
    ((graph.addNodes r.nodes).addEdges r.edges) now
  refine ⟨kv₁, _, kv₂, _, first, second, ?_⟩
  have rows := (addEdges_spec (e := graph.addNodes r.nodes) r.edges)
  constructor
  · intro same
    -- A first edge would be in the list of its source once more.
    by_contra some
    obtain ⟨x, xs, edges⟩ := List.exists_cons_of_ne_nil some
    have length := (same.edges x.1).length_eq
    rw [(addEdges_spec _).2.2, (edges_addNodes r.nodes).1, List.length_append, edges] at length
    simp at length
  · intro none
    obtain ⟨forward, backward, count⟩ := edges_addNodes (e := (graph.addNodes r.nodes).addEdges r.edges)
      r.nodes
    have kept : ((graph.addNodes r.nodes).addEdges r.edges).labelPool =
        (graph.addNodes r.nodes).labelPool := rows.1
    refine ⟨?_, ?_, ?_, ?_, ?_, ?_⟩
    · intro k
      rw [rep₂.get_map, rep₁.get_map, (putEntries_again r.entries k).1]
    · intro k
      rw [rep₂.getExpiry, rep₁.getExpiry, (putEntries_again r.entries k).2]
    · intro id
      have again := addNodes_again kept rows.2.1 id
      rw [none] at again ⊢
      exact again
    · intro id
      rw [none] at forward ⊢
      exact List.Perm.of_eq (forward id)
    · intro id
      rw [none] at backward ⊢
      exact List.Perm.of_eq (backward id)
    · rw [none] at count ⊢
      exact count

end

/-- A snapshot of one node. -/
theorem reload_iff_node :
    ∃ (f : InFile) (r : Records UInt32), readRecords (Equiv.refl UInt32) f = some r ∧
      ∃ kv₁ graph₁ kv₂ graph₂,
        load (Equiv.refl UInt32) (UnorderedMap.set ∅ (str "dump.rdb") f) (str "dump.rdb") 0 .empty
          (.empty : GraphEngine UInt32 Int) = some (r.complete, kv₁, graph₁) ∧
        load (Equiv.refl UInt32) (UnorderedMap.set ∅ (str "dump.rdb") f) (str "dump.rdb") 0 kv₁ graph₁ =
          some (r.complete, kv₂, graph₂) ∧
        (SameData kv₁ kv₂ graph₁ graph₂ ↔ r.edges = []) := by
  have read : readRecords (Equiv.refl UInt32) (leBytes 8 magic ++ leBytes 4 version ++ leBytes 8 0 ++
      leBytes 8 1 ++ leBytes 4 7 ++ leBytes 4 0 ++ leBytes 4 0 ++ leBytes 8 0 ++ leBytes 8 eofMarker) =
      some ⟨[], [(7, [], [])], [], true⟩ := by decide +kernel
  exact ⟨_, _, read, reload_iff [] rfl (UnorderedMap.find_set_self _ _ _) read .empty 0⟩

/-- The edge of a snapshot is there twice after the second load. -/
theorem edge_doubled :
    ∃ (f : InFile) (r : Records UInt32), readRecords (Equiv.refl UInt32) f = some r ∧
      r.complete = true ∧
      ∃ kv₁ graph₁ kv₂ graph₂,
        load (Equiv.refl UInt32) (UnorderedMap.set ∅ (str "dump.rdb") f) (str "dump.rdb") 0 .empty
          (.empty : GraphEngine UInt32 Int) = some (true, kv₁, graph₁) ∧
        load (Equiv.refl UInt32) (UnorderedMap.set ∅ (str "dump.rdb") f) (str "dump.rdb") 0 kv₁ graph₁ =
          some (true, kv₂, graph₂) ∧
        graph₁.graph.edgeCount = 1 ∧ graph₂.graph.edgeCount = 2 ∧
        ¬ SameData kv₁ kv₂ graph₁ graph₂ := by
  have read : readRecords (Equiv.refl UInt32) (leBytes 8 magic ++ leBytes 4 version ++ leBytes 8 0 ++
      leBytes 8 0 ++ leBytes 8 1 ++ leBytes 4 1 ++ leBytes 4 2 ++ leBytes 4 0 ++ leBytes 4 7 ++
      leBytes 8 eofMarker) = some ⟨[], [], [(1, ⟨2, [], 7⟩)], true⟩ := by decide +kernel
  obtain ⟨kv₁, first, rep₁⟩ := load_of_records
    (UnorderedMap.find_set_self (∅ : Disk) (str "dump.rdb") _) read represents_empty
    (.empty : GraphEngine UInt32 Int) 0
  obtain ⟨kv₂, second, -⟩ := load_of_records
    (UnorderedMap.find_set_self (∅ : Disk) (str "dump.rdb") _) read rep₁
    ((GraphEngine.empty.addNodes []).addEdges [(1, ⟨2, [], 7⟩)] : GraphEngine UInt32 Int) 0
  refine ⟨_, _, read, rfl, kv₁, _, kv₂, _, first, second, rfl, rfl, ?_⟩
  intro same
  have count := same.edgeCount
  exact absurd count (by decide)

end FastGraph.RDB
