import FastGraph.Persistence.Proofs.Records

/-!
# A snapshot restores what it saved

`save` writes the records of the entries, nodes and edges that the engines list, and `load`
on such a file makes the calls that put them back. What the engines then hold is what the
saved ones held, the keys apart whose deadline has been reached when the file is read.
-/

namespace FastGraph.RDB
open KVEngine GraphEngine

/-! ### The file -/

section
variable {W D : Type} (bits : W ≃ UInt32)

/-- A whole snapshot. -/
def snapshotBytes (entries : List (Bytes × Bytes × Int)) (nodes : List (Int × Bytes × Bytes))
    (edges : List (Int × Edge W)) : Bytes :=
  leBytes 8 magic ++ (leBytes 4 version ++ (sectionBytes entryBytes entries ++
    (sectionBytes nodeBytes nodes ++ (sectionBytes (edgeBytes bits) edges ++ leBytes 8 eofMarker))))

/-- The records fit their length fields, and there are not too many of them to count. -/
structure Fits (entries : List (Bytes × Bytes × Int)) (nodes : List (Int × Bytes × Bytes))
    (edges : List (Int × Edge W)) : Prop where
  entry : ∀ x ∈ entries, Short x.1 ∧ Short x.2.1
  node : ∀ n ∈ nodes, FitsInt n.1 ∧ Short n.2.1 ∧ Short n.2.2
  edge : ∀ x ∈ edges, FitsInt x.1 ∧ FitsInt x.2.toId ∧ Short x.2.relType
  entryCount : entries.length < 2 ^ 64
  nodeCount : nodes.length < 2 ^ 64
  edgeCount : edges.length < 2 ^ 64

variable {bits} {entries : List (Bytes × Bytes × Int)} {nodes : List (Int × Bytes × Bytes)}
  {edges : List (Int × Edge W)} {now : Int}

/-- The first half of `save` writes the header and the entries. -/
theorem saveHead_sound (short : ∀ x ∈ entries, Short x.1 ∧ Short x.2.1)
    (count : entries.length < 2 ^ 64) :
    saveHead (sound []) entries =
      sound (leBytes 8 magic ++ (leBytes 4 version ++ sectionBytes entryBytes entries)) := by
  have loop (c : Bytes) : entries.foldl saveEntry (sound c) = sound (c ++ entries.flatMap entryBytes) :=
    foldl_sound (fun x mem c => saveEntry_sound (short x mem).1 (short x mem).2 c) c
  simp only [saveHead, writeU64, writeU32, fwrite_sound, loop, Nat.mod_eq_of_lt count, sectionBytes,
    List.append_assoc, List.nil_append]

/-- The two halves of `save` write a snapshot. -/
theorem save_contents (bits : W ≃ UInt32) (fits : Fits entries nodes edges) :
    saveTail bits (saveHead (sound []) entries) nodes edges =
      sound (snapshotBytes bits entries nodes edges) := by
  have middle (c : Bytes) : nodes.foldl saveNode (sound c) = sound (c ++ nodes.flatMap nodeBytes) :=
    foldl_sound (fun n mem c => saveNode_sound (fits.node n mem).2.1 (fits.node n mem).2.2 c) c
  have tail (c : Bytes) :
      edges.foldl (saveEdge bits) (sound c) = sound (c ++ edges.flatMap (edgeBytes bits)) :=
    foldl_sound (fun x mem c => saveEdge_sound bits (fits.edge x mem).2.2 c) c
  have count₂ := Nat.mod_eq_of_lt fits.nodeCount
  have count₃ := Nat.mod_eq_of_lt fits.edgeCount
  simp only [saveHead_sound fits.entry fits.entryCount, saveTail, writeU64, fwrite_sound, middle, tail,
    count₂, count₃, snapshotBytes, sectionBytes, List.append_assoc]

/-! ### The loops of `load` -/

/-- `load` on an entry: the key is put back unless its deadline has been reached. -/
def restore (now : Int) (A : ExpiringMap Bytes Bytes) (entry : Bytes × Bytes × Int) :
    ExpiringMap Bytes Bytes :=
  if 0 < entry.2.2 ∧ entry.2.2 ≤ now then A
  else A.put entry.1 entry.2.1 (if 0 < entry.2.2 then some entry.2.2 else none)

/-- A reading of a clock that starts at zero, and a deadline, both in the range of `Ms`. -/
structure InTime (now d : Int) : Prop where
  clock : 0 ≤ now ∧ now < 2 ^ 63
  deadline : -2 ^ 63 ≤ d ∧ d < 2 ^ 63

theorem InTime.lapsed_iff {x : Bytes × Bytes × Int} (inTime : InTime now x.2.2) :
    lapsed now x = true ↔ 0 < x.2.2 ∧ x.2.2 ≤ now := by
  obtain ⟨⟨nonneg, inRange⟩, low, high⟩ := inTime
  rw [lapsed, Bool.and_eq_true, decide_eq_true_eq, decide_eq_true_eq]
  refine and_congr_right fun armed => ?_
  rw [toInt64_of_range (by omega) (by omega)]
  omega

theorem putEntry_eq_restore {x : Bytes × Bytes × Int} (inTime : InTime now x.2.2)
    (A : ExpiringMap Bytes Bytes) : putEntry now A x = restore now A x := by
  simp only [putEntry, restore, inTime.lapsed_iff, entryDeadline]

/-! ### Reading the records back -/

/-- The bytes are a whole snapshot of the records. -/
structure IsSnapshot (bits : W ≃ UInt32) (s : Bytes) (entries : List (Bytes × Bytes × Int))
    (nodes : List (Int × Bytes × Bytes)) (edges : List (Int × Edge W)) : Prop where
  fits : Fits entries nodes edges
  deadlines : ∀ x ∈ entries, FitsInt64 x.2.2
  bytes : s = snapshotBytes bits entries nodes edges

theorem fitsSections_iff : (FitsSection FitsEntry entries ∧ FitsSection FitsNode nodes ∧
    FitsSection FitsEdge edges) ↔ Fits entries nodes edges ∧ ∀ x ∈ entries, FitsInt64 x.2.2 := by
  constructor
  · intro ⟨⟨entryCount, entry⟩, ⟨nodeCount, node⟩, edgeCount, edge⟩
    exact ⟨⟨fun x mem => ⟨(entry x mem).1, (entry x mem).2.1⟩, node, edge, entryCount, nodeCount,
      edgeCount⟩, fun x mem => (entry x mem).2.2⟩
  · intro ⟨fits, deadlines⟩
    refine ⟨⟨fits.entryCount, fun x mem => ?_⟩, ⟨fits.nodeCount, fits.node⟩, fits.edgeCount, fits.edge⟩
    exact ⟨(fits.entry x mem).1, (fits.entry x mem).2, deadlines x mem⟩

/-- What is read of a file that begins with a snapshot. -/
theorem readRecords_of_snapshot {f : InFile} {s : Bytes} (snapshot : IsSnapshot bits s entries nodes edges)
    (begins : s <+: f) : readRecords bits f = some ⟨entries, nodes, edges, true⟩ := by
  obtain ⟨rest, rfl⟩ := begins
  have whole := (readsOff_sections bits).whole (entries, nodes, edges) (leBytes 8 eofMarker ++ rest)
    (fitsSections_iff.mpr ⟨snapshot.fits, snapshot.deadlines⟩)
  have marker : ignoring readU64 (leBytes 8 eofMarker ++ rest) = (eofMarker, rest) :=
    readsOff_u64.whole eofMarker rest (by decide)
  have cut : s ++ rest = headerBytes ++ (sectionBytes entryBytes entries ++
      (sectionBytes nodeBytes nodes ++ sectionBytes (edgeBytes bits) edges) ++
        (leBytes 8 eofMarker ++ rest)) := by
    simp only [snapshot.bytes, snapshotBytes, headerBytes, List.append_assoc]
  rw [cut, readRecords_header, whole, marker]
  rfl

/-- The records of a snapshot are the ones that were written. -/
theorem readRecords_snapshot (fits : Fits entries nodes edges)
    (inTime : ∀ x ∈ entries, InTime now x.2.2) :
    readRecords bits (snapshotBytes bits entries nodes edges) =
      some ⟨entries, nodes, edges, true⟩ :=
  readRecords_of_snapshot ⟨fits, fun x mem => (inTime x mem).deadline, rfl⟩ (List.prefix_refl _)

/-- `load` on a snapshot makes the calls of its records. -/
theorem load_snapshot (fits : Fits entries nodes edges) (inTime : ∀ x ∈ entries, InTime now x.2.2)
    (disk : Disk) (path : Bytes) (file : disk.find path = some (snapshotBytes bits entries nodes edges))
    {kv : KVEngine} {A : ExpiringMap Bytes Bytes} (rep : Represents kv A) (graph : GraphEngine W D) :
    ∃ kv', load bits disk path now kv graph =
        some (true, kv', (graph.addNodes nodes).addEdges edges) ∧
      Represents kv' (entries.foldl (restore now) A) := by
  obtain ⟨kv', loaded, rep'⟩ := load_of_records file (readRecords_snapshot fits inTime) rep graph now
  refine ⟨kv', loaded, ?_⟩
  rwa [List.foldl_ext _ _ _ fun A x mem => putEntry_eq_restore (inTime x mem) A] at rep'

end

/-! ### What is restored -/

section
variable {entries : List (Bytes × Bytes × Int)} {A : ExpiringMap Bytes Bytes} {k : Bytes}
  {now saveTime loadTime : Int}

/-- The entry of another key does not concern `k`. -/
theorem restore_of_ne (now : Int) (A : ExpiringMap Bytes Bytes) {x : Bytes × Bytes × Int}
    (other : k ≠ x.1) :
    (restore now A x).value k = A.value k ∧ (restore now A x).deadline k = A.deadline k := by
  unfold restore
  split
  · exact ⟨rfl, rfl⟩
  · simp [ExpiringMap.put, other]

theorem foldl_restore_of_absent (now : Int) (A : ExpiringMap Bytes Bytes)
    (absent : k ∉ entries.map Prod.fst) :
    (entries.foldl (restore now) A).value k = A.value k ∧
      (entries.foldl (restore now) A).deadline k = A.deadline k := by
  induction entries generalizing A with
  | nil => exact ⟨rfl, rfl⟩
  | cons x entries ih =>
    rw [List.map_cons, List.mem_cons, not_or] at absent
    obtain ⟨value, deadline⟩ := restore_of_ne now A absent.1
    obtain ⟨value', deadline'⟩ := ih (restore now A x) absent.2
    exact ⟨value'.trans value, deadline'.trans deadline⟩

/-- Of distinct keys each is decided by its own entry. -/
theorem foldl_restore_of_mem (now : Int) (distinct : (entries.map Prod.fst).Nodup) {v : Bytes}
    {d : Int} (mem : (k, v, d) ∈ entries) (fresh : A.value k = none) (unarmed : A.deadline k = none) :
    (entries.foldl (restore now) A).value k = (if 0 < d ∧ d ≤ now then none else some v) ∧
      (entries.foldl (restore now) A).deadline k =
        (if 0 < d ∧ d ≤ now then none else if 0 < d then some d else none) := by
  induction entries generalizing A with
  | nil => cases mem
  | cons x entries ih =>
    rw [List.map_cons, List.nodup_cons] at distinct
    rw [List.foldl_cons]
    rcases List.mem_cons.mp mem with same | later
    · subst same
      obtain ⟨value, deadline⟩ :=
        foldl_restore_of_absent now (restore now A (k, v, d)) distinct.1
      rw [value, deadline]
      unfold restore
      split
      · exact ⟨fresh, unarmed⟩
      · simp [ExpiringMap.put]
    · have other : k ≠ x.1 := by
        rintro rfl
        exact distinct.1 (List.mem_map.mpr ⟨_, later, rfl⟩)
      obtain ⟨value, deadline⟩ := restore_of_ne now A other
      exact ih distinct.2 later (value.trans fresh) (deadline.trans unarmed)

/-- Putting the entries of an engine back gives what can be read of it at that time, with the
deadlines. -/
theorem foldl_restore_allEntries {kv : KVEngine} (rep : Represents kv A) (sound : A.Sound)
    (nonneg : ∀ k d, A.deadline k = some d → 0 ≤ d) (clock : 0 ≤ saveTime)
    (before : saveTime ≤ loadTime) (k : Bytes) :
    ((kv.allEntries saveTime).foldl (restore loadTime) .empty).value k = A.read k loadTime ∧
      ((kv.allEntries saveTime).foldl (restore loadTime) .empty).deadline k =
        if A.reached k loadTime then none else A.deadline k := by
  obtain ⟨distinct, listed⟩ := allEntries_spec rep saveTime
  by_cases present : k ∈ (kv.allEntries saveTime).map Prod.fst
  · obtain ⟨⟨k', v, d⟩, mem, same⟩ := List.mem_map.mp present
    cases same
    obtain ⟨value, deadline⟩ := foldl_restore_of_mem (A := .empty) loadTime distinct mem rfl rfl
    obtain ⟨stored, alive, deadlineIs⟩ := (listed _ _ _).mp mem
    dsimp only at value deadline ⊢
    rw [value, deadline, ExpiringMap.read]
    cases armed : A.deadline k' with
    | none =>
      rw [armed] at deadlineIs
      cases deadlineIs
      simp [ExpiringMap.reached, armed, stored]
    | some x =>
      rw [armed] at deadlineIs
      cases deadlineIs
      have positive : 0 < x := by
        have low := nonneg k' x armed
        simp only [ExpiringMap.reached, armed, Option.any_some, decide_eq_false_iff_not] at alive
        omega
      by_cases due : x ≤ loadTime
      · simp [ExpiringMap.reached, armed, positive, positive.le, due]
      · simp [ExpiringMap.reached, armed, positive, due, stored]
  · obtain ⟨value, deadline⟩ := foldl_restore_of_absent loadTime .empty present
    rw [value, deadline]
    have gone : A.read k saveTime = none := by
      rw [ExpiringMap.read_eq_none_iff]
      by_contra here
      rw [not_or, Bool.not_eq_true, ← ne_eq, Option.ne_none_iff_exists'] at here
      obtain ⟨alive, v, stored⟩ := here
      exact present (List.mem_map.mpr ⟨_, (listed k v _).mpr ⟨stored, alive, rfl⟩, rfl⟩)
    have later := ExpiringMap.read_none_mono before gone
    refine ⟨later.symm, ?_⟩
    rw [ExpiringMap.read_eq_none_iff] at later
    rcases later with due | missing
    · rw [if_pos due]
      rfl
    · rw [sound k missing, ite_self]
      rfl

/-- The engines can be saved: the deadlines are not negative, the labels have been interned
and hold no NUL byte, the strings fit their length fields, and ids and sizes are in the
ranges of their types. -/
structure Storable {W D : Type} (kv : KVEngine) (graph : GraphEngine W D) : Prop where
  deadlines : ∀ k d, TTLManager.Holds kv.deadlines k d → 0 ≤ d
  entries : ∀ k v, kv.map.get k = some (some v) → Short k ∧ Short v
  labels : CleanLabels graph
  nodes : ∀ id info, graph.graph.nodeMeta id = some info → FitsInt id ∧ Short info.props
  edges : ∀ id, ∀ x ∈ graph.graph.neighbors id, FitsInt id ∧ FitsInt x.toId ∧ Short x.relType
  capacity : kv.map.capacity < 2 ^ 64
  nodeCount : graph.graph.nodeCount < 2 ^ 64
  edgeCount : Adjacency.total graph.graph.adj < 2 ^ 64

/-- The deadline of `k` has been reached, as `get` tests it. -/
def expired (kv : KVEngine) (k : Bytes) (now : Int) : Bool :=
  0 ≤ kv.deadlines.getExpiry k && kv.deadlines.getExpiry k ≤ now

section
variable {W D : Type} {bits : W ≃ UInt32} {kv : KVEngine} {graph : GraphEngine W D}
  {nodes : List (Int × Bytes × Bytes)}

/-- The strings of the entries are as short as those stored. -/
theorem short_allEntries (rep : Represents kv A)
    (strings : ∀ k v, kv.map.get k = some (some v) → Short k ∧ Short v) (now : Int) :
    ∀ x ∈ kv.allEntries now, Short x.1 ∧ Short x.2.1 := by
  intro ⟨k, v, d⟩ mem
  obtain ⟨stored, -, -⟩ := ((allEntries_spec rep now).2 k v d).mp mem
  exact strings k v (by rw [rep.get_map, stored])

/-- There are no more entries than buckets. -/
theorem length_allEntries_le (kv : KVEngine) (now : Int) :
    (kv.allEntries now).length ≤ kv.map.capacity := by
  have filtered := List.length_filterMap_le (kv.listed now) (List.range kv.map.capacity)
  rwa [List.length_range] at filtered

/-- The deadlines that calls have set are in the range of `Ms`. -/
theorem inTime_allEntries {cs : List Timed} (rep : Represents kv (idealRun cs .empty))
    (clock : 0 ≤ loadTime ∧ loadTime < 2 ^ 63) (now : Int) :
    ∀ x ∈ kv.allEntries now, InTime loadTime x.2.2 := by
  intro ⟨k, v, d⟩ mem
  obtain ⟨-, -, deadline⟩ := ((allEntries_spec rep now).2 k v d).mp mem
  refine ⟨clock, ?_⟩
  cases armed : (idealRun cs .empty).deadline k with
  | none =>
    rw [armed] at deadline
    cases deadline
    norm_num
  | some x =>
    rw [armed] at deadline
    cases deadline
    exact deadline_idealRun cs (fun _ _ held => by cases held) armed

/-- What the engines list fits the format. -/
theorem Storable.fits (storable : Storable kv graph) (rep : Represents kv A)
    (labelled : Labelled graph) {nodeOrder : IterOrder} (listed : graph.allNodes nodeOrder = .ok nodes)
    (edgeOrder : IterOrder) (now : Int) :
    Fits (kv.allEntries now) nodes (graph.allEdges edgeOrder) := by
  obtain ⟨ns, same, length, -, -, contents⟩ := allNodes_spec labelled storable.labels nodeOrder
  rw [listed] at same
  cases same
  refine ⟨short_allEntries rep storable.entries now, ?_, ?_, ?_, ?_, ?_⟩
  · intro ⟨id, label, props⟩ mem
    obtain ⟨pooled, -, node⟩ := contents id label props mem
    obtain ⟨info, found, same⟩ := Option.map_eq_some_iff.mp node
    obtain ⟨-, rfl⟩ := Prod.mk.inj same
    obtain ⟨fitsId, shortProps⟩ := storable.nodes id info found
    have shortLabel := labelled.pool.length_lt pooled
    exact ⟨fitsId, shortLabel.trans (by norm_num), shortProps⟩
  · intro x mem
    exact storable.edges x.1 x.2 (mem_allEdges mem)
  · exact (length_allEntries_le kv now).trans_lt storable.capacity
  · rw [length]
    exact storable.nodeCount
  · rw [length_allEdges]
    exact storable.edgeCount

/-- The nodes of an engine, added to an empty one with its edges, are the same nodes. -/
theorem nodeContents_restored (labelled : Labelled graph) (clean : CleanLabels graph)
    {nodeOrder : IterOrder} (listed : graph.allNodes nodeOrder = .ok nodes)
    (edges : List (Int × Edge W)) (id : Int) :
    ((GraphEngine.empty.addNodes nodes).addEdges edges : GraphEngine W D).nodeContents id =
      graph.nodeContents id := by
  obtain ⟨ns, same, -, distinct, absent, contents⟩ := allNodes_spec labelled clean nodeOrder
  rw [listed] at same
  cases same
  have pooled : ∀ n ∈ nodes, n.2.1 ∈ graph.labelPool.strings :=
    fun n mem => (contents n.1 n.2.1 n.2.2 mem).1
  obtain ⟨labelled', -, others, stored⟩ := addNodes_spec (e := (GraphEngine.empty : GraphEngine W D))
    distinct labelled.pool.fits pooled labelled_empty (Finset.empty_subset _)
  obtain ⟨pool, kept, -⟩ := addEdges_spec (e := (GraphEngine.empty.addNodes nodes : GraphEngine W D)) edges
  simp only [nodeContents, DynamicGraph.nodeMeta, kept, labelString, pool]
  by_cases present : id ∈ nodes.map Prod.fst
  · obtain ⟨⟨id', label, props⟩, mem, same⟩ := List.mem_map.mp present
    cases same
    obtain ⟨-, noNul, original⟩ := contents id' label props mem
    obtain ⟨ptr, found, node⟩ := stored id' label props mem
    simp only [nodeContents, DynamicGraph.nodeMeta] at original
    rw [node]
    simp only [Option.map_some, labelled'.pool.cString found noNul]
    exact original.symm
  · rw [others id present, absent id present]
    rfl

variable [Inhabited D] [BEq D] [LT D] [DecidableLT D] {cs : List KVEngine.Timed}

/-- A snapshot of engines that calls have led to, read into empty engines at the same time or
later, restores exactly the keys that have not expired by then, with their values and
deadlines, the same nodes with their labels and properties, and the same edges, those of
each source in the same order. -/
theorem load_save (bits : W ≃ UInt32) (ran : KVEngine.run cs .empty = some kv)
    (reached : graph.Reachable) (storable : Storable kv graph) (clock : 0 ≤ saveTime)
    (before : saveTime ≤ loadTime) (inRange : loadTime < 2 ^ 63) (disk : Disk) (path : Bytes)
    (nodeOrder edgeOrder : IterOrder) :
    ∃ disk' kv' graph',
      save bits disk path kv graph saveTime nodeOrder edgeOrder .complete = (disk', .ok true) ∧
      load bits disk' path loadTime .empty (.empty : GraphEngine W D) = some (true, kv', graph') ∧
      (∀ k, kv'.map.get k = if expired kv k loadTime then some none else kv.map.get k) ∧
      (∀ k, kv'.deadlines.getExpiry k =
        if expired kv k loadTime then -1 else kv.deadlines.getExpiry k) ∧
      (∀ id, graph'.nodeContents id = graph.nodeContents id) ∧
      ∀ id, graph'.graph.neighbors id = graph.graph.neighbors id := by
  obtain ⟨_, same, rep⟩ := run_refines represents_empty cs
  rw [ran] at same
  cases same
  have labelled := reached.labelled
  have sound := sound_idealRun ExpiringMap.sound_empty cs
  have nonneg : ∀ k d, (idealRun cs .empty).deadline k = some d → 0 ≤ d :=
    fun k d held => storable.deadlines k d ((rep.deadline k d).mpr held)
  obtain ⟨nodes, listed, -⟩ := allNodes_spec labelled storable.labels nodeOrder
  have fits := storable.fits rep labelled listed edgeOrder saveTime
  have inTime := inTime_allEntries rep ⟨clock.trans before, inRange⟩ saveTime
  have saved : save bits disk path kv graph saveTime nodeOrder edgeOrder .complete =
      ((disk.erase (path ++ str ".tmp")).set path
        (snapshotBytes bits (kv.allEntries saveTime) nodes (graph.allEdges edgeOrder)), .ok true) := by
    have contents := save_contents bits fits
    simp only [RDB.sound] at contents
    simp [save, SaveCalls.complete, SaveCalls.closed, fopenWrite, listed, contents]
  obtain ⟨kv', loaded, rep'⟩ := load_snapshot fits inTime
    ((disk.erase (path ++ str ".tmp")).set path _) path (UnorderedMap.find_set_self _ _ _)
    represents_empty (.empty : GraphEngine W D)
  have restored := foldl_restore_allEntries rep sound nonneg clock before
  have gone : ∀ k, expired kv k loadTime = (idealRun cs .empty).reached k loadTime := by
    intro k
    rw [Bool.eq_iff_iff, ← rep.reached_iff]
    simp [expired]
  refine ⟨_, kv', _, saved, loaded, ?_, ?_, nodeContents_restored labelled storable.labels listed _, ?_⟩
  · intro k
    rw [rep'.get_map, (restored k).1, rep.get_map, gone, ExpiringMap.read]
    split <;> rfl
  · intro k
    rw [rep'.getExpiry, (restored k).2, rep.getExpiry, gone]
    split <;> rfl
  · intro id
    rw [(addEdges_spec _).2.2, (edges_addNodes nodes).1, allEdges_filter]
    rfl

end

end

/-- A key that expires at 10, a node with a label and an edge to an id without a node, saved
at 5 and loaded at 6. -/
theorem load_save_at_five :
    ∃ (kv kv' : KVEngine) (graph graph' : GraphEngine UInt32 Int) (disk' : Disk),
      KVEngine.run [⟨0, .set (str "a") (str "x") 10⟩] .empty = some kv ∧
      graph = (GraphEngine.empty.addNode 1 (str "L") (str "props")).addEdge 1 (-2) (str "r") 7 ∧
      save (Equiv.refl _) ∅ (str "dump.rdb") kv graph 5 .asListed .asListed .complete =
        (disk', .ok true) ∧
      load (Equiv.refl _) disk' (str "dump.rdb") 6 .empty .empty = some (true, kv', graph') ∧
      kv'.map.get (str "a") = some (some (str "x")) ∧ kv'.deadlines.getExpiry (str "a") = 10 ∧
      graph'.nodeContents 1 = some (.ok (str "L"), str "props") ∧
      graph'.graph.neighbors 1 = [⟨-2, str "r", 7⟩] := by
  obtain ⟨kv, ran, rep⟩ := run_refines represents_empty [⟨0, .set (str "a") (str "x") 10⟩]
  have capacity : (KVEngine.run [⟨0, .set (str "a") (str "x") 10⟩] .empty).map (·.map.capacity) =
      some 16 := by decide
  rw [ran, Option.map_some, Option.some.injEq] at capacity
  have value : ∀ k v, (idealRun [⟨0, .set (str "a") (str "x") 10⟩] .empty).value k = some v →
      k = str "a" ∧ v = str "x" := by
    intro k v stored
    simp only [idealRun, idealCall, ExpiringMap.put, ExpiringMap.empty, Function.update_apply] at stored
    split at stored
    · rename_i same
      exact ⟨same, (Option.some.inj stored).symm⟩
    · cases stored
  have deadline : ∀ k d, (idealRun [⟨0, .set (str "a") (str "x") 10⟩] .empty).deadline k = some d →
      d = 10 := by
    intro k d held
    simp only [idealRun, idealCall, ExpiringMap.put, ExpiringMap.empty, Function.update_apply] at held
    split at held
    · cases held
      decide
    · cases held
  have node : ∀ id info, (GraphEngine.empty.addNode 1 (str "L") (str "props") :
      GraphEngine UInt32 Int).graph.nodes.find id = some info →
      id = 1 ∧ info = ⟨some 0, str "props"⟩ := by
    intro id info stored
    have found : (UnorderedMap.set ∅ 1 ⟨some 0, str "props"⟩).find id = some info := stored
    rw [UnorderedMap.find_set] at found
    split at found
    · rename_i here
      exact ⟨here, (Option.some.inj found).symm⟩
    · cases found
  have edge : ∀ id x, x ∈ ((GraphEngine.empty.addNode 1 (str "L") (str "props")).addEdge 1 (-2)
      (str "r") 7 : GraphEngine UInt32 Int).graph.neighbors id → id = 1 ∧ x = ⟨-2, str "r", 7⟩ := by
    intro id x mem
    rw [GraphEngine.addEdge, DynamicGraph.addEdge, DynamicGraph.neighbors, Adjacency.row_set] at mem
    split at mem
    · rename_i here
      exact ⟨here, List.mem_singleton.mp mem⟩
    · have none : Adjacency.row (UnorderedMap.set ∅ 1 ([] : List (Edge UInt32))) id = [] := by
        rw [Adjacency.row_set]
        split <;> rfl
      have inside : x ∈ Adjacency.row (UnorderedMap.set ∅ 1 ([] : List (Edge UInt32))) id := mem
      rw [none] at inside
      cases inside
  have storable : Storable kv
      ((GraphEngine.empty.addNode 1 (str "L") (str "props")).addEdge 1 (-2) (str "r") 7 :
        GraphEngine UInt32 Int) := by
    refine ⟨?_, ?_, ?_, ?_, ?_, ?_, ?_, ?_⟩
    · intro k d held
      rw [deadline k d ((rep.deadline k d).mp held)]
      norm_num
    · intro k v stored
      rw [rep.get_map] at stored
      obtain ⟨rfl, rfl⟩ := value k v (Option.some.inj stored)
      unfold Short
      decide
    · intro id info stored
      obtain ⟨-, rfl⟩ := node id info stored
      exact ⟨str "L", 0, rfl, rfl, by decide⟩
    · intro id info stored
      obtain ⟨rfl, rfl⟩ := node id info stored
      unfold Short FitsInt
      decide
    · intro id x mem
      obtain ⟨rfl, rfl⟩ := edge id x mem
      unfold Short FitsInt
      decide
    · rw [capacity]
      norm_num
    · decide
    · decide
  have alive : expired kv (str "a") 6 = false := by
    rw [expired, rep.getExpiry]
    decide
  obtain ⟨disk', kv', graph', saved, loaded, values, deadlines, nodes, edges⟩ :=
    load_save (Equiv.refl UInt32) ran (.step (.addEdge 1 (-2) (str "r") 7)
      (.step (.addNode 1 (str "L") (str "props")) .empty rfl) rfl) storable
      (show (0 : Int) ≤ 5 by norm_num) (show (5 : Int) ≤ 6 by norm_num) (by norm_num) ∅
      (str "dump.rdb") .asListed .asListed
  refine ⟨kv, kv', _, graph', disk', ran, rfl, saved, loaded, ?_, ?_, ?_, ?_⟩
  · rw [values, alive, rep.get_map]
    decide
  · rw [deadlines, alive, rep.getExpiry]
    decide
  · rw [nodes]
    decide
  · rw [edges]
    decide

end FastGraph.RDB
