import FastGraph.Graph.Proofs.GraphEngine
import FastGraph.Kv.Proofs.KvEngine
import FastGraph.Persistence.Rdb

/-!
# What a file does to the engines

`load` makes the calls of the records it reads as it reads them, whatever follows in the
file. Reading the records is a function of the file alone; what a load leaves in the engines
is what putting these records in leaves, whether or not the marker at the end is there.
-/

namespace FastGraph.RDB
open KVEngine GraphEngine RobinHoodMap TTLManager

/-! ### The records of a file -/

/-- The records that the loop of `load` over the entries reads. -/
def readEntries : Nat → InFile → List (Bytes × Bytes × Int) × InFile
  | 0, f => ([], f)
  | todo + 1, f =>
    let (key, _, f) := readStr f
    let (val, _, f) := readStr f
    let (raw, _, f) := readU64 f
    let (entries, f) := readEntries todo f
    ((key, val, toInt64 raw) :: entries, f)

/-- The records that the loop over the nodes reads. -/
def readNodes : Nat → InFile → List (Int × Bytes × Bytes) × InFile
  | 0, f => ([], f)
  | todo + 1, f =>
    let (id, _, f) := readU32 f
    let (label, _, f) := readStr f
    let (props, _, f) := readStr f
    let (nodes, f) := readNodes todo f
    ((toInt32 id, label, props) :: nodes, f)

section
variable {W D : Type} (bits : W ≃ UInt32)

/-- The records that the loop over the edges reads. -/
def readEdges : Nat → InFile → List (Int × Edge W) × InFile
  | 0, f => ([], f)
  | todo + 1, f =>
    let (fromId, _, f) := readU32 f
    let (toId, _, f) := readU32 f
    let (rel, _, f) := readStr f
    let (weight, _, f) := readF32 oneBits f
    let (edges, f) := readEdges todo f
    ((toInt32 fromId, ⟨toInt32 toId, rel, bits.symm weight⟩) :: edges, f)

/-- What `load` reads behind a header that it accepts. -/
structure Records (W : Type) where
  entries : List (Bytes × Bytes × Int)
  nodes : List (Int × Bytes × Bytes)
  edges : List (Int × Edge W)
  complete : Bool
  deriving DecidableEq, Repr

/-- Reading a file; nothing is read behind a header that `load` does not accept. -/
def readRecords (f : InFile) : Option (Records W) :=
  let (magic', ok, f) := readU64 f
  if !ok ∨ magic' ≠ magic then none
  else
    let (ver, ok, f) := readU32 f
    if !ok ∨ ver ≠ version then none
    else
      let (kvCount, _, f) := readU64 f
      let (entries, f) := readEntries kvCount f
      let (nodeCount, _, f) := readU64 f
      let (nodes, f) := readNodes nodeCount f
      let (edgeCount, _, f) := readU64 f
      let (edges, f) := readEdges bits edgeCount f
      let (eof, _, _) := readU64 f
      some ⟨entries, nodes, edges, decide (eof = eofMarker)⟩

/-! ### Putting them in -/

/-- An entry of which `load` finds the deadline reached. -/
def lapsed (now : Int) (entry : Bytes × Bytes × Int) : Bool :=
  0 < entry.2.2 && toInt64 (entry.2.2 - now) ≤ 0

/-- The deadline that an entry gets. -/
def entryDeadline (entry : Bytes × Bytes × Int) : Option Int :=
  if 0 < entry.2.2 then some entry.2.2 else none

/-- `load` on an entry. -/
def putEntry (now : Int) (A : ExpiringMap Bytes Bytes) (entry : Bytes × Bytes × Int) :
    ExpiringMap Bytes Bytes :=
  if lapsed now entry then A else A.put entry.1 entry.2.1 (entryDeadline entry)

/-- The time that is left of a deadline leads back to it, even if the difference wraps. -/
theorem toInt64_add_left {d : Int} (low : -2 ^ 63 ≤ d) (high : d < 2 ^ 63) (now : Int) :
    toInt64 (now + toInt64 (d - now)) = d := by
  rw [toInt64_add_toInt64, show now + (d - now) = d by omega]
  exact toInt64_of_range low high

theorem loadEntries_eq {kv : KVEngine} {A : ExpiringMap Bytes Bytes} (rep : Represents kv A)
    (now : Int) (todo : Nat) (f : InFile) :
    ∃ kv', loadEntries now todo f kv = some ((readEntries todo f).2, kv') ∧
      Represents kv' ((readEntries todo f).1.foldl (putEntry now) A) := by
  induction todo generalizing kv A f with
  | zero => exact ⟨kv, rfl, rep⟩
  | succ todo ih =>
    simp only [loadEntries, readEntries, List.foldl_cons, putEntry]
    generalize key : (readStr f).1 = k
    generalize val : (readStr (readStr f).2.2).1 = v
    generalize rest : (readU64 (readStr (readStr f).2.2).2.2).2.2 = f'
    obtain ⟨low, high⟩ := toInt64_range (readU64 (readStr (readStr f).2.2).2.2).1
    generalize toInt64 (readU64 (readStr (readStr f).2.2).2.2).1 = d at low high ⊢
    by_cases armed : 0 < d
    · by_cases due : toInt64 (d - now) ≤ 0
      · simp only [armed, due, if_true, and_self, lapsed, decide_true, Bool.and_self]
        exact ih rep f'
      · obtain ⟨kv₁, step, rep₁⟩ := set_spec rep k v (toInt64 (d - now)) now
        rw [if_pos (by omega), toInt64_add_left low high] at rep₁
        simp only [armed, due, if_true, if_false, and_false, lapsed, decide_true, decide_false,
          Bool.and_false, Bool.false_eq_true, step, Option.bind_eq_bind, Option.bind_some,
          entryDeadline]
        exact ih rep₁ f'
    · obtain ⟨kv₁, step, rep₁⟩ := set_spec rep k v (-1) now
      rw [if_neg (by omega)] at rep₁
      simp only [armed, if_false, false_and, lapsed, decide_false, Bool.false_and,
        Bool.false_eq_true, step, Option.bind_eq_bind, Option.bind_some, entryDeadline]
      exact ih rep₁ f'

theorem loadNodes_eq (graph : GraphEngine W D) (todo : Nat) (f : InFile) :
    loadNodes todo f graph = ((readNodes todo f).2, graph.addNodes (readNodes todo f).1) := by
  induction todo generalizing graph f with
  | zero => rfl
  | succ todo ih =>
    simp only [loadNodes, readNodes, ih, addNodes, List.foldl_cons]

theorem loadEdges_eq (graph : GraphEngine W D) (todo : Nat) (f : InFile) :
    loadEdges bits todo f graph =
      ((readEdges bits todo f).2, graph.addEdges (readEdges bits todo f).1) := by
  induction todo generalizing graph f with
  | zero => rfl
  | succ todo ih =>
    simp only [loadEdges, readEdges, ih, addEdges, List.foldl_cons]

variable {bits} {disk : Disk} {path : Bytes} {f : InFile} {r : Records W} {kv : KVEngine}
  {A : ExpiringMap Bytes Bytes} {graph : GraphEngine W D} {now : Int}

theorem load_of_missing (missing : disk.find path = none) :
    load bits disk path now kv graph = some (false, kv, graph) := by
  simp only [load, missing]

/-- Where the records are not read, the magic number or the version is not the right one. -/
theorem rejected_of_none (none : readRecords bits f = none) :
    (!(readU64 f).2.1 ∨ (readU64 f).1 ≠ magic) ∨ ¬ (!(readU64 f).2.1 ∨ (readU64 f).1 ≠ magic) ∧
      (!(readU32 (readU64 f).2.2).2.1 ∨ (readU32 (readU64 f).2.2).1 ≠ version) := by
  rw [or_iff_not_imp_left]
  intro goodMagic
  refine ⟨goodMagic, ?_⟩
  by_contra goodVersion
  simp only [readRecords, goodMagic, goodVersion, if_false] at none
  cases none

/-- Where the records are read, both are right. -/
theorem accepted_of_some (read : readRecords bits f = some r) :
    ¬ (!(readU64 f).2.1 ∨ (readU64 f).1 ≠ magic) ∧
      ¬ (!(readU32 (readU64 f).2.2).2.1 ∨ (readU32 (readU64 f).2.2).1 ≠ version) := by
  constructor
  · intro badMagic
    simp only [readRecords, badMagic, if_true] at read
    cases read
  · intro badVersion
    simp only [readRecords, badVersion, if_true, ite_self] at read
    cases read

/-- A file with a header that `load` does not accept. -/
theorem load_of_no_records (file : disk.find path = some f) (none : readRecords bits f = none) :
    load bits disk path now kv graph = some (false, kv, graph) := by
  rcases rejected_of_none none with badMagic | ⟨goodMagic, badVersion⟩
  · simp only [load, file, badMagic, if_true]
  · simp only [load, file, goodMagic, badVersion, if_true, if_false]

/-- A load makes the calls of the records of the file. -/
theorem load_of_records (file : disk.find path = some f) (read : readRecords bits f = some r)
    (rep : Represents kv A) (graph : GraphEngine W D) (now : Int) :
    ∃ kv', load bits disk path now kv graph =
        some (r.complete, kv', (graph.addNodes r.nodes).addEdges r.edges) ∧
      Represents kv' (r.entries.foldl (putEntry now) A) := by
  obtain ⟨goodMagic, goodVersion⟩ := accepted_of_some read
  obtain ⟨kv', loaded, rep'⟩ := loadEntries_eq rep now
    (readU64 (readU32 (readU64 f).2.2).2.2).1 (readU64 (readU32 (readU64 f).2.2).2.2).2.2
  simp only [readRecords, goodMagic, goodVersion, if_false, Option.some.injEq] at read
  subst read
  refine ⟨kv', ?_, rep'⟩
  simp only [load, file, goodMagic, goodVersion, if_false, loaded, loadNodes_eq, loadEdges_eq,
    Option.bind_eq_bind, Option.bind_some]

end

end FastGraph.RDB
