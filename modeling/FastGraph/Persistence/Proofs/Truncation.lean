import FastGraph.Persistence.LoadCalls
import FastGraph.Persistence.Proofs.Rdb

/-!
# Files that end early

A read that is short leaves nothing in the file, so that the marker at the end is read only if all
reads before it were whole. But the loops of `load` go on: they end after as many iterations as the
counts say.
-/

namespace FastGraph.RDB

section
variable {W : Type} (bits : W ≃ UInt32)

/-! ### Accepted files -/

/-- A word that was read whole stands at the front of the file. -/
theorem fread_whole {n : Nat} {f : InFile} (ok : (fread n f).2.1 = true) :
    f = leBytes n (leNat (fread n f).1) ++ (fread n f).2.2 := by
  have enough : n ≤ f.length := of_decide_eq_true ok
  have length : (f.take n).length = n := by rw [List.length_take, Nat.min_eq_left enough]
  have bytes := leBytes_leNat (f.take n)
  rw [length] at bytes
  rw [fread]
  dsimp only
  rw [bytes, List.take_append_drop]

/-- `load` accepts the header and nothing else. -/
theorem header_of_records {f : InFile} {r : Records W} (read : readRecords bits f = some r) :
    ∃ g, f = headerBytes ++ g := by
  obtain ⟨goodMagic, goodVersion⟩ := accepted_of_some read
  simp only [not_or, Bool.not_eq_true', Bool.not_eq_false, ne_eq, not_not] at goodMagic goodVersion
  have first : f = leBytes 8 (readU64 f).1 ++ (readU64 f).2.2 := fread_whole goodMagic.1
  have second : (readU64 f).2.2 = leBytes 4 (readU32 (readU64 f).2.2).1 ++
      (readU32 (readU64 f).2.2).2.2 := fread_whole goodVersion.1
  rw [goodMagic.2] at first
  rw [goodVersion.2] at second
  exact ⟨_, by rw [headerBytes, List.append_assoc, ← second, ← first]⟩

/-- The marker is read only where it is. -/
theorem eofMarker_of_read {h : InFile} (read : (ignoring readU64 h).1 = eofMarker) :
    ∃ rest, h = leBytes 8 eofMarker ++ rest := by
  rcases le_or_gt 8 h.length with enough | short
  · have whole : h = leBytes 8 (ignoring readU64 h).1 ++ (ignoring readU64 h).2 :=
      fread_whole (decide_eq_true enough)
    rw [read] at whole
    exact ⟨_, whole⟩
  · -- fewer than eight bytes hold a smaller number
    have bound := leNat_lt (h.take 8)
    rw [List.take_of_length_le short.le] at bound
    have value : leNat h = eofMarker := by
      rw [← read, ignoring, readU64, fread, List.take_of_length_le short.le]
    have power : 256 ^ h.length ≤ 256 ^ 7 := Nat.pow_le_pow_right (by decide) (by omega)
    have least : 256 ^ 7 ≤ eofMarker := by decide
    omega

variable {bits} {f g : InFile} {entries : List (Bytes × Bytes × Int)}
  {nodes : List (Int × Bytes × Bytes)} {edges : List (Int × Edge W)}

/-- The marker at the end is read only if the file begins with a snapshot. -/
theorem snapshot_of_readRecords {r : Records W} (read : readRecords bits f = some r)
    (complete : r.complete = true) : ∃ s, IsSnapshot bits s r.entries r.nodes r.edges ∧ s <+: f := by
  obtain ⟨g, rfl⟩ := header_of_records bits read
  rw [readRecords_header, Option.some.injEq] at read
  subst read
  obtain ⟨rest, marker⟩ := eofMarker_of_read (of_decide_eq_true complete)
  have left : (readSections bits g).2 ≠ [] := by
    rw [marker]
    exact List.append_ne_nil_of_left_ne_nil (by decide) _
  obtain ⟨fitsAll, split⟩ := (readsOff_sections bits).of_left left
  obtain ⟨fits, deadlines⟩ := fitsSections_iff.mp fitsAll
  refine ⟨_, ⟨fits, deadlines, rfl⟩, rest, ?_⟩
  rw [marker] at split
  conv_rhs => rw [split]
  simp only [snapshotBytes, headerBytes, List.append_assoc]

/-! ### The calls -/

/-- What is left of an entry's time, and -1 if it has no deadline. -/
def entryTtl (now : Int) (x : Bytes × Bytes × Int) : Int :=
  if 0 < x.2.2 then toInt64 (x.2.2 - now) else -1

/-- The call for an entry, if its deadline has not been reached. -/
def entryCall (now : Int) (x : Bytes × Bytes × Int) : Option (EngineCall W) :=
  if lapsed now x then none else some (.set x.1 x.2.1 (entryTtl now x))

/-- The call for a node. -/
def nodeCall (n : Int × Bytes × Bytes) : EngineCall W := .addNode n.1 n.2.1 n.2.2

/-- The call for an edge. -/
def edgeCall (x : Int × Edge W) : EngineCall W := .addEdge x.1 x.2.toId x.2.relType x.2.weight

/-- The calls that put the records in, in the order of the file. -/
def recordCalls (clock : Nat → Int) (entries : List (Bytes × Bytes × Int))
    (nodes : List (Int × Bytes × Bytes)) (edges : List (Int × Edge W)) : List (EngineCall W) :=
  entries.zipIdx.filterMap (fun x => entryCall (clock x.2) x.1) ++
    (nodes.map nodeCall ++ edges.map edgeCall)

theorem readEntry_eq (f : InFile) : readEntry f =
    (((readStr f).1, (readStr (readStr f).2.2).1, toInt64 (readU64 (readStr (readStr f).2.2).2.2).1),
      (readU64 (readStr (readStr f).2.2).2.2).2.2) := by
  simp only [readEntry, readPair, ignoring, readInt64, readMap]

theorem entryCalls_succ (clock : Nat → Int) (todo i : Nat) (f : InFile) :
    (entryCalls (W := W) clock (todo + 1) i f).1 =
        (entryCall (clock i) (readEntry f).1).toList ++
          (entryCalls clock todo (i + 1) (readEntry f).2).1 ∧
      (entryCalls (W := W) clock (todo + 1) i f).2 =
        (entryCalls (W := W) clock todo (i + 1) (readEntry f).2).2 := by
  rw [entryCalls, readEntry_eq, entryCall, lapsed, entryTtl]
  dsimp only
  generalize toInt64 (readU64 (readStr (readStr f).2.2).2.2).1 = d
  generalize (readU64 (readStr (readStr f).2.2).2.2).2.2 = f'
  by_cases armed : 0 < d
  · by_cases due : toInt64 (d - clock i) ≤ 0
    · simp [armed, due]
    · simp [armed, due]
  · simp [armed]

/-- The calls of a first entry come first. -/
theorem filterMap_zipIdx_cons {α β : Type} (c : α × Nat → Option β) (x : α) (xs : List α) (i : Nat) :
    ((x :: xs).zipIdx i).filterMap c = (c (x, i)).toList ++ (xs.zipIdx (i + 1)).filterMap c := by
  rw [List.zipIdx_cons, List.filterMap_cons]
  cases c (x, i) <;> rfl

theorem entryCalls_eq (clock : Nat → Int) (todo i : Nat) (f : InFile) :
    (entryCalls (W := W) clock todo i f).1 =
        ((readEntries todo f).1.zipIdx i).filterMap (fun x => entryCall (clock x.2) x.1) ∧
      (entryCalls (W := W) clock todo i f).2 = (readEntries todo f).2 := by
  rw [readEntries_eq]
  induction todo generalizing i f with
  | zero => exact ⟨rfl, rfl⟩
  | succ todo ih =>
    obtain ⟨calls, rest⟩ := entryCalls_succ (W := W) clock todo i f
    obtain ⟨laterCalls, laterRest⟩ := ih (i + 1) (readEntry f).2
    refine ⟨?_, rest.trans laterRest⟩
    rw [calls, laterCalls, readMany, filterMap_zipIdx_cons]

theorem nodeCalls_eq (todo : Nat) (f : InFile) :
    nodeCalls (W := W) todo f = ((readNodes todo f).1.map nodeCall, (readNodes todo f).2) := by
  induction todo generalizing f with
  | zero => rfl
  | succ todo ih => simp only [nodeCalls, readNodes, ih, List.map_cons, nodeCall]

theorem edgeCalls_eq (todo : Nat) (f : InFile) :
    edgeCalls bits todo f = ((readEdges bits todo f).1.map edgeCall, (readEdges bits todo f).2) := by
  induction todo generalizing f with
  | zero => rfl
  | succ todo ih => simp only [edgeCalls, readEdges, ih, List.map_cons, edgeCall]

/-- A file whose header is not accepted makes no calls. -/
theorem loadCalls_of_no_records (none : readRecords bits f = none) (clock : Nat → Int) :
    loadCalls bits clock f = (false, []) := by
  rcases rejected_of_none none with badMagic | ⟨goodMagic, badVersion⟩
  · simp only [loadCalls, badMagic, if_true]
  · simp only [loadCalls, goodMagic, badVersion, if_true, if_false]

/-- The calls are those of the records that are read. -/
theorem loadCalls_of_records {r : Records W} (read : readRecords bits f = some r)
    (clock : Nat → Int) :
    loadCalls bits clock f = (r.complete, recordCalls clock r.entries r.nodes r.edges) := by
  obtain ⟨goodMagic, goodVersion⟩ := accepted_of_some read
  simp only [readRecords, goodMagic, goodVersion, if_false, Option.some.injEq] at read
  subst read
  simp only [loadCalls, goodMagic, goodVersion, if_false, (entryCalls_eq clock _ _ _).1,
    (entryCalls_eq clock _ _ _).2, nodeCalls_eq, edgeCalls_eq, recordCalls]

/-- A file is accepted if and only if it begins with a snapshot, and then the calls are those of the
snapshot's records. -/
theorem loadCalls_iff (bits : W ≃ UInt32) (clock : Nat → Int) (f : InFile) :
    ((loadCalls bits clock f).1 = true ↔
        ∃ s entries nodes edges, IsSnapshot bits s entries nodes edges ∧ s <+: f) ∧
      ∀ s entries nodes edges, IsSnapshot bits s entries nodes edges → s <+: f →
        (loadCalls bits clock f).2 = recordCalls clock entries nodes edges := by
  constructor
  · constructor
    · intro accepted
      cases read : readRecords bits f with
      | none =>
        rw [loadCalls_of_no_records read] at accepted
        cases accepted
      | some r =>
        rw [loadCalls_of_records read] at accepted
        obtain ⟨s, snapshot, begins⟩ := snapshot_of_readRecords read accepted
        exact ⟨s, _, _, _, snapshot, begins⟩
    · intro ⟨s, entries, nodes, edges, snapshot, begins⟩
      rw [loadCalls_of_records (readRecords_of_snapshot snapshot begins)]
  · intro s entries nodes edges snapshot begins
    rw [loadCalls_of_records (readRecords_of_snapshot snapshot begins)]

/-! ### The load -/

section
variable {D : Type} {disk : Disk} {path : Bytes} {kv : KVEngine}

/-- The loop over the entries makes the calls that are written down. -/
theorem loadEntries_calls (graph : GraphEngine W D) (now : Int) (todo i : Nat) (f : InFile)
    (kv : KVEngine) :
    (entryCalls (fun _ => now) todo i f).1.foldlM (runCall now) (kv, graph) =
        (loadEntries now todo f kv).map (fun r => (r.2, graph)) ∧
      ∀ r, loadEntries now todo f kv = some r →
        r.1 = (entryCalls (W := W) (fun _ => now) todo i f).2 := by
  induction todo generalizing i f kv with
  | zero =>
    refine ⟨rfl, fun r run => ?_⟩
    cases run
    rfl
  | succ todo ih =>
    simp only [loadEntries, entryCalls]
    generalize (readStr f).1 = k
    generalize (readStr (readStr f).2.2).1 = v
    generalize (readU64 (readStr (readStr f).2.2).2.2).2.2 = f'
    generalize toInt64 (readU64 (readStr (readStr f).2.2).2.2).1 = d
    generalize (if 0 < d then toInt64 (d - now) else -1) = ttlMs
    split
    · exact ih (i + 1) f' kv
    · cases set : kv.set k v ttlMs now with
      | none => exact ⟨by simp [runCall, set], by simp⟩
      | some s =>
        obtain ⟨calls, rest⟩ := ih (i + 1) f' s.1
        exact ⟨by simp [runCall, set, calls], rest⟩

theorem loadNodes_calls (kv : KVEngine) (now : Int) (todo : Nat) (f : InFile)
    (graph : GraphEngine W D) :
    (nodeCalls todo f).1.foldlM (runCall now) (kv, graph) = some (kv, (loadNodes todo f graph).2) ∧
      (loadNodes todo f graph).1 = (nodeCalls (W := W) todo f).2 := by
  induction todo generalizing f graph with
  | zero => exact ⟨rfl, rfl⟩
  | succ todo ih =>
    simp only [loadNodes, nodeCalls, List.foldlM_cons, runCall, Option.bind_eq_bind, Option.bind_some]
    exact ih _ _

theorem loadEdges_calls (bits : W ≃ UInt32) (kv : KVEngine) (now : Int) (todo : Nat) (f : InFile)
    (graph : GraphEngine W D) :
    (edgeCalls bits todo f).1.foldlM (runCall now) (kv, graph) =
        some (kv, (loadEdges bits todo f graph).2) ∧
      (loadEdges bits todo f graph).1 = (edgeCalls bits todo f).2 := by
  induction todo generalizing f graph with
  | zero => exact ⟨rfl, rfl⟩
  | succ todo ih =>
    simp only [loadEdges, edgeCalls, List.foldlM_cons, runCall, Option.bind_eq_bind, Option.bind_some]
    exact ih _ _

/-- `load` makes the calls that are written down, and returns what is said there. -/
theorem load_eq_calls (bits : W ≃ UInt32) (file : disk.find path = some f) (now : Int) (kv : KVEngine)
    (graph : GraphEngine W D) : load bits disk path now kv graph =
      ((loadCalls bits (fun _ => now) f).2.foldlM (runCall now) (kv, graph)).map
        fun engines => ((loadCalls bits (fun _ => now) f).1, engines.1, engines.2) := by
  simp only [load, file, loadCalls]
  split
  · rfl
  · split
    · rfl
    · generalize (readU64 (readU32 (readU64 f).2.2).2.2).1 = n
      generalize (readU64 (readU32 (readU64 f).2.2).2.2).2.2 = g
      obtain ⟨calls, rest⟩ := loadEntries_calls graph now n 0 g kv
      simp only [List.foldlM_append, calls]
      cases loaded : loadEntries now n g kv with
      | none => rfl
      | some r =>
        have same := rest r loaded
        simp only [Option.bind_eq_bind, Option.bind_some, Option.map_some, same]
        generalize (entryCalls (W := W) (fun _ => now) n 0 g).2 = h
        obtain ⟨nodeCalls_eq, nodeRest⟩ := loadNodes_calls r.2 now (readU64 h).1 (readU64 h).2.2 graph
        simp only [nodeCalls_eq, nodeRest, Option.bind_some]
        generalize (nodeCalls (W := W) (readU64 h).1 (readU64 h).2.2).2 = h'
        obtain ⟨edgeCalls_eq, edgeRest⟩ := loadEdges_calls bits r.2 now (readU64 h').1 (readU64 h').2.2
          (loadNodes (readU64 h).1 (readU64 h).2.2 graph).2
        simp only [edgeCalls_eq, edgeRest, Option.map_some]

/-- A load of a file that is there comes to an end. -/
theorem exists_load (bits : W ≃ UInt32) (history : List KVEngine.Timed)
    (reached : KVEngine.run history .empty = some kv) (file : disk.find path = some f)
    (graph : GraphEngine W D) (now : Int) : ∃ r, load bits disk path now kv graph = some r := by
  cases read : readRecords bits f with
  | none => exact ⟨_, load_of_no_records file read⟩
  | some r =>
    obtain ⟨_, ran, rep⟩ := KVEngine.run_refines KVEngine.represents_empty history
    rw [reached] at ran
    cases ran
    obtain ⟨kv', loaded, -⟩ := load_of_records file read rep graph now
    exact ⟨_, loaded⟩

/-- `load` returns `true` if and only if the file begins with a snapshot, and then it has made the
calls of the snapshot's records in the order of the file, without those of the entries whose
deadline was reached. -/
theorem load_true_iff (history : List KVEngine.Timed)
    (reached : KVEngine.run history .empty = some kv) (file : disk.find path = some f)
    (graph : GraphEngine W D) (now : Int) :
    ∃ ok kv' graph', load bits disk path now kv graph = some (ok, kv', graph') ∧
      (loadCalls bits (fun _ => now) f).2.foldlM (runCall now) (kv, graph) = some (kv', graph') ∧
      (ok = true ↔ ∃ s entries nodes edges, IsSnapshot bits s entries nodes edges ∧ s <+: f) ∧
      ∀ clock, (loadCalls bits clock f).1 = ok ∧
        ∀ s entries nodes edges, IsSnapshot bits s entries nodes edges → s <+: f →
          (loadCalls bits clock f).2 = recordCalls clock entries nodes edges := by
  have made := load_eq_calls bits file now kv graph
  obtain ⟨r, loaded⟩ := exists_load bits history reached file graph now
  rw [loaded] at made
  obtain ⟨engines, ran, result⟩ := Option.map_eq_some_iff.mp made.symm
  subst result
  refine ⟨_, _, _, loaded, ran, (loadCalls_iff bits _ f).1, fun clock => ⟨?_, ?_⟩⟩
  · rw [Bool.eq_iff_iff, (loadCalls_iff bits _ f).1, (loadCalls_iff bits _ f).1]
  · exact (loadCalls_iff bits clock f).2

end

end

/-- A snapshot with an entry without a deadline, one with a deadline that has passed, a node and an
edge, and a byte behind it. -/
theorem load_true_iff_snapshot :
    ∃ f : InFile, (∃ s entries nodes edges,
        IsSnapshot (Equiv.refl UInt32) s entries nodes edges ∧ s <+: f ∧
          recordCalls (fun _ => 5) entries nodes edges =
            [.set (str "a") (str "1") (-1), .addNode 7 [] [], .addEdge 7 8 [] 3]) ∧
      ∃ ok kv' graph', load (Equiv.refl UInt32) (UnorderedMap.set ∅ (str "dump.rdb") f) (str "dump.rdb")
          5 .empty (.empty : GraphEngine UInt32 Int) = some (ok, kv', graph') ∧
        (loadCalls (Equiv.refl UInt32) (fun _ => 5) f).2.foldlM (runCall 5)
          (.empty, (.empty : GraphEngine UInt32 Int)) = some (kv', graph') ∧
        (ok = true ↔ ∃ s entries nodes edges,
          IsSnapshot (Equiv.refl UInt32) s entries nodes edges ∧ s <+: f) ∧
        ∀ clock, (loadCalls (Equiv.refl UInt32) clock f).1 = ok ∧
          ∀ s entries nodes edges, IsSnapshot (Equiv.refl UInt32) s entries nodes edges → s <+: f →
            (loadCalls (Equiv.refl UInt32) clock f).2 = recordCalls clock entries nodes edges := by
  refine ⟨_, ⟨snapshotBytes (Equiv.refl UInt32) [(str "a", str "1", -1), (str "b", str "2", 4)]
    [(7, [], [])] [(7, ⟨8, [], 3⟩)], _, _, _, ⟨?_, ?_, rfl⟩, List.prefix_append _ [0], ?_⟩, ?_⟩
  · refine ⟨?_, ?_, ?_, by decide, by decide, by decide⟩ <;> simp only [Short, FitsInt] <;> decide
  · simp only [FitsInt64]
    decide
  · decide
  · exact load_true_iff [] rfl (UnorderedMap.find_set_self _ _ _) .empty 5

end FastGraph.RDB
