import FastGraph.Persistence.Rdb

/-!
# Saving when writes fail

`save` looks at neither its `fwrite`s nor its `fclose`. What it writes is a list of chunks;
if all of them are stored the new file is the whole snapshot, and otherwise the old one is
replaced by what there is of it.
-/

namespace FastGraph.RDB

/-! ### The chunks -/

/-- The writes of `write_str`. -/
def strChunks (s : Bytes) : List Bytes :=
  let len := s.length % 2 ^ 32
  leBytes 4 len :: if len = 0 then [] else [s.take len]

/-- The writes for an entry. -/
def entryChunks (entry : Bytes × Bytes × Int) : List Bytes :=
  strChunks entry.1 ++ strChunks entry.2.1 ++ [leBytes 8 (toSizeT entry.2.2)]

/-- The writes for a node. -/
def nodeChunks (node : Int × Bytes × Bytes) : List Bytes :=
  [leBytes 4 (toUInt32 node.1)] ++ strChunks node.2.1 ++ strChunks node.2.2

section
variable {W D : Type} (bits : W ≃ UInt32)

/-- The writes for an edge. -/
def edgeChunks (edge : Int × Edge W) : List Bytes :=
  [leBytes 4 (toUInt32 edge.1)] ++ [leBytes 4 (toUInt32 edge.2.toId)] ++ strChunks edge.2.relType ++
    [leBytes 4 (bits edge.2.weight).toNat]

/-- The writes of the first half of `save`. -/
def headChunks (entries : List (Bytes × Bytes × Int)) : List Bytes :=
  [leBytes 8 magic] ++ [leBytes 4 version] ++ [leBytes 8 (entries.length % 2 ^ 64)] ++
    entries.flatMap entryChunks

/-- The writes of the second half of `save`. -/
def tailChunks (nodes : List (Int × Bytes × Bytes)) (edges : List (Int × Edge W)) : List Bytes :=
  [leBytes 8 (nodes.length % 2 ^ 64)] ++ nodes.flatMap nodeChunks ++
    [leBytes 8 (edges.length % 2 ^ 64)] ++ edges.flatMap (edgeChunks bits) ++ [leBytes 8 eofMarker]

theorem writes_writeStr (s : Bytes) : Writes (fun f => (writeStr f s).1) (strChunks s) := by
  unfold strChunks
  dsimp only
  by_cases none : s.length % 2 ^ 32 = 0
  · have same : (fun f => (writeStr f s).1) = fun f => (fwrite f (leBytes 4 (s.length % 2 ^ 32))).1 := by
      funext f
      simp only [writeStr, writeU32, none, if_true]
      split
      · rename_i first
        rw [first]
      · rename_i first
        rw [first]
    rw [same, if_pos none]
    exact Writes.fwrite _
  · have same : (fun f => (writeStr f s).1) = fun f =>
        if (fwrite f (leBytes 4 (s.length % 2 ^ 32))).2 then
          (fwrite (fwrite f (leBytes 4 (s.length % 2 ^ 32))).1 (s.take (s.length % 2 ^ 32))).1
        else (fwrite f (leBytes 4 (s.length % 2 ^ 32))).1 := by
      funext f
      simp only [writeStr, writeU32, none, if_false]
      split
      · rename_i first
        rw [first]
        rfl
      · rename_i first
        rw [first]
        rfl
    rw [same, if_neg none]
    exact Writes.guarded _ (Writes.fwrite _)

theorem writes_saveEntry (entry : Bytes × Bytes × Int) :
    Writes (fun f => saveEntry f entry) (entryChunks entry) :=
  ((writes_writeStr entry.1).comp (writes_writeStr entry.2.1)).comp (Writes.fwrite _)

theorem writes_saveNode (node : Int × Bytes × Bytes) :
    Writes (fun f => saveNode f node) (nodeChunks node) :=
  ((Writes.fwrite _).comp (writes_writeStr node.2.1)).comp (writes_writeStr node.2.2)

theorem writes_saveEdge (edge : Int × Edge W) :
    Writes (fun f => saveEdge bits f edge) (edgeChunks bits edge) :=
  (((Writes.fwrite _).comp (Writes.fwrite _)).comp (writes_writeStr edge.2.relType)).comp
    (Writes.fwrite _)

theorem writes_saveHead (entries : List (Bytes × Bytes × Int)) :
    Writes (fun f => saveHead f entries) (headChunks entries) :=
  (((Writes.fwrite _).comp (Writes.fwrite _)).comp (Writes.fwrite _)).comp
    (Writes.foldl writes_saveEntry entries)

theorem writes_saveTail (nodes : List (Int × Bytes × Bytes)) (edges : List (Int × Edge W)) :
    Writes (fun f => saveTail bits f nodes edges) (tailChunks bits nodes edges) :=
  ((((Writes.fwrite _).comp (Writes.foldl writes_saveNode nodes)).comp (Writes.fwrite _)).comp
    (Writes.foldl (writes_saveEdge bits) edges)).comp (Writes.fwrite _)

/-! ### A save -/

variable (kv : KVEngine) (graph : GraphEngine W D) (now : Int) (nodeOrder edgeOrder : IterOrder)
  (disk : Disk) (path : Bytes) (calls : SaveCalls)

/-- One of the writes that `save` makes is short, or its `fclose` fails. -/
def WriteFails : Prop :=
  calls.opened = true ∧
    match graph.allNodes nodeOrder with
    | .error _ => (saveHead (fopenWrite calls.stores) (kv.allEntries now)).error = true
    | .ok nodes =>
      (saveTail bits (saveHead (fopenWrite calls.stores) (kv.allEntries now)) nodes
        (graph.allEdges edgeOrder)).error = true ∨ calls.closeFails ≠ none

/-- The file that `save` writes when every call succeeds. -/
def CompleteSnapshot (file : Bytes) : Prop :=
  ∃ nodes, graph.allNodes nodeOrder = .ok nodes ∧
    file = (saveTail bits (saveHead (fopenWrite []) (kv.allEntries now)) nodes
      (graph.allEdges edgeOrder)).contents

/-- `save` keeps its promise: it returns true only with the complete snapshot at `path`, and if
a write fails it returns false and leaves the file at `path` as it was. -/
def KeepsPromise : Prop :=
  let outcome := save bits disk path kv graph now nodeOrder edgeOrder calls
  (outcome.2 = .ok true →
    ∃ file, outcome.1.find path = some file ∧
      CompleteSnapshot bits kv graph now nodeOrder edgeOrder file) ∧
  (WriteFails bits kv graph now nodeOrder edgeOrder calls →
    outcome.2 = .ok false ∧ outcome.1.find path = disk.find path)

/-- The file system is good enough for `save`: the temporary file cannot be opened, or a label
is missing and what is written before that is seen is stored, or the file cannot be renamed,
or all the writes are stored and `fclose` succeeds. -/
def Harmless : Prop :=
  calls.opened = false ∨
    match graph.allNodes nodeOrder with
    | .error _ => Enough calls.stores (headChunks (kv.allEntries now))
    | .ok nodes => calls.renamed = false ∨ calls.closeFails = none ∧
        Enough calls.stores (headChunks (kv.allEntries now) ++
          tailChunks bits nodes (graph.allEdges edgeOrder))

/-- An operation on a new file raises the error indicator exactly if one of its chunks is not
stored. -/
theorem error_iff {op : OutFile → OutFile} {chunks : List Bytes} (writes : Writes op chunks)
    (stores : List Nat) :
    (op (fopenWrite stores)).error = true ↔ ¬ Enough stores chunks := by
  constructor
  · intro error enough
    rw [writes.stored _ enough] at error
    cases error
  · exact writes.short (fopenWrite stores)

theorem tmp_ne_nil : str ".tmp" ≠ [] := by decide

/-- With all its writes stored, the closed file is the complete snapshot. -/
theorem closed_of_enough {nodes : List (Int × Bytes × Bytes)} {edges : List (Int × Edge W)}
    {entries : List (Bytes × Bytes × Int)} (closes : calls.closeFails = none)
    (enough : Enough calls.stores (headChunks entries ++ tailChunks bits nodes edges)) :
    calls.closed (saveTail bits (saveHead (fopenWrite calls.stores) entries) nodes edges) =
      (saveTail bits (saveHead (fopenWrite []) entries) nodes edges).contents := by
  have writes := (writes_saveHead entries).comp (writes_saveTail bits nodes edges)
  have all := writes.stored (fopenWrite calls.stores) enough
  have whole := writes.stored (fopenWrite []) (by trivial)
  simp only [SaveCalls.closed, closes]
  rw [all, whole]
  rfl

/-- `save` keeps its promise exactly where no write fails, or where it would not have replaced
the file anyway. -/
theorem keepsPromise_iff :
    KeepsPromise bits kv graph now nodeOrder edgeOrder disk path calls ↔
      Harmless bits kv graph now nodeOrder edgeOrder calls := by
  unfold KeepsPromise Harmless WriteFails CompleteSnapshot save
  cases opened : calls.opened with
  | false => simp
  | true =>
    have head := error_iff (writes_saveHead (kv.allEntries now)) calls.stores
    cases listed : graph.allNodes nodeOrder with
    | error e => simp [head]
    | ok nodes =>
      have both := error_iff ((writes_saveHead (kv.allEntries now)).comp
        (writes_saveTail bits nodes (graph.allEdges edgeOrder))) calls.stores
      cases renamed : calls.renamed with
      | false => simp [UnorderedMap.find_set, tmp_ne_nil]
      | true =>
        simp only [Bool.not_true, Bool.false_eq_true, if_false, if_true, Bool.true_eq_false, false_or,
          true_and, both, UnorderedMap.find_set_self]
        constructor
        · rintro ⟨-, honest⟩
          by_contra failed
          have fails : ¬ Enough calls.stores (headChunks (kv.allEntries now) ++
              tailChunks bits nodes (graph.allEdges edgeOrder)) ∨ calls.closeFails ≠ none := by
            tauto
          have returned := (honest fails).1
          cases returned
        · rintro ⟨closes, enough⟩
          constructor
          · intro _
            exact ⟨_, rfl, nodes, rfl, closed_of_enough bits calls closes enough⟩
          · intro fails
            rcases fails with missing | fails
            · exact absurd enough missing
            · exact absurd closes fails

end

/-- The disk is full from the first write on, and yet the old snapshot is replaced by an empty
file. -/
theorem save_on_full_disk :
    ∃ disk' : Disk,
      save (D := Bytes) (Equiv.refl UInt32) (UnorderedMap.set ∅ (str "dump.rdb") (str "old"))
          (str "dump.rdb") .empty .empty 0 .asListed .asListed ⟨true, [0, 0, 0, 0, 0, 0], none, true⟩ =
        (disk', .ok true) ∧
      disk'.find (str "dump.rdb") = some [] ∧
      ¬ KeepsPromise (D := Bytes) (Equiv.refl UInt32) .empty .empty 0 .asListed .asListed
        (UnorderedMap.set ∅ (str "dump.rdb") (str "old")) (str "dump.rdb")
        ⟨true, [0, 0, 0, 0, 0, 0], none, true⟩ := by
  refine ⟨_, rfl, by decide, ?_⟩
  intro promise
  have returned := (promise.2 ⟨rfl, Or.inl rfl⟩).1
  cases returned

end FastGraph.RDB
