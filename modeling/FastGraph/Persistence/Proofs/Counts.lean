import FastGraph.Persistence.Proofs.Truncation

/-!
# How often the loops of `load` run

Nothing stops the loops but the counts, which are read from the file. An iteration at the end of the
file takes nothing and makes its call all the same.
-/

namespace FastGraph.RDB

variable {W : Type} {bits : W ≃ UInt32} {f g : InFile}

/-- The file before and after every iteration of the loops of `load`. -/
def loadPasses (bits : W ≃ UInt32) (f : InFile) : List (InFile × InFile) :=
  let (magic', ok, f) := readU64 f
  if !ok ∨ magic' ≠ magic then []
  else
    let (ver, ok, f) := readU32 f
    if !ok ∨ ver ≠ version then []
    else
      let (kvCount, _, f) := readU64 f
      let (_, g) := readEntries kvCount f
      let (nodeCount, _, g) := readU64 g
      let (_, h) := readNodes nodeCount g
      let (edgeCount, _, h) := readU64 h
      eachPass readEntry kvCount f ++
        (eachPass readNode nodeCount g ++ eachPass (readEdge bits) edgeCount h)

/-- The passes over the records of a section. -/
def sectionPasses {α : Type} (read : InFile → α × InFile) (g : InFile) : List (InFile × InFile) :=
  eachPass read (ignoring readU64 g).1 (ignoring readU64 g).2

theorem loadPasses_header (g : InFile) : loadPasses bits (headerBytes ++ g) =
    sectionPasses readEntry g ++ (sectionPasses readNode (readSection readEntry g).2 ++
      sectionPasses (readEdge bits) (readSection readNode (readSection readEntry g).2).2) := by
  simp only [loadPasses, headerBytes, List.append_assoc, readU64_append (v := magic) (by decide),
    readU32_append (v := version) (by decide), Bool.not_true, Bool.false_eq_true, ne_eq,
    not_true_eq_false, or_self, if_false, readEntries_eq, readNodes_eq]
  rfl

theorem loadPasses_of_no_records (none : readRecords bits f = none) : loadPasses bits f = [] := by
  rcases rejected_of_none none with badMagic | ⟨goodMagic, badVersion⟩
  · simp only [loadPasses, badMagic, if_true]
  · simp only [loadPasses, goodMagic, badVersion, if_true, if_false]

/-- A file on which `load` makes no more calls than there are bytes, and takes a byte in every
iteration. -/
structure Bounded (bits : W ≃ UInt32) (clock : Nat → Int) (f : InFile) : Prop where
  calls : (loadCalls bits clock f).2.length ≤ f.length
  passes : ∀ p ∈ loadPasses bits f, p.2.length < p.1.length

/-- The count of a section is zero, or all of its records but one follow and something of that
one. -/
def Backed {α : Type} (record : α → Bytes) (fits : α → Prop) (g : Bytes) : Prop :=
  leNat (g.take 8) = 0 ∨ ∃ (records : List α) (more : Bytes), (∀ x ∈ records, fits x) ∧ more ≠ [] ∧
    leNat (g.take 8) = records.length + 1 ∧ g.drop 8 = records.flatMap record ++ more

/-- The counts of a file are backed, as far as whole sections precede them. -/
def BackedFile (bits : W ≃ UInt32) (f : Bytes) : Prop :=
  ∀ g, f = headerBytes ++ g → Backed entryBytes FitsEntry g ∧
    ∀ entries g₁, FitsSection FitsEntry entries → g = sectionBytes entryBytes entries ++ g₁ →
      Backed nodeBytes FitsNode g₁ ∧
        ∀ nodes g₂, FitsSection FitsNode nodes → g₁ = sectionBytes nodeBytes nodes ++ g₂ →
          Backed (edgeBytes bits) FitsEdge g₂

theorem sectionPasses_iff {α : Type} {read : InFile → α × InFile} {record : α → Bytes}
    {fits : α → Prop} (reads : ReadsOff read record fits) (some : ∀ x, record x ≠ []) :
    (∀ p ∈ sectionPasses read g, p.2.length < p.1.length) ↔ Backed record fits g := by
  rw [sectionPasses, reads.passes_shrink_iff some, Backed]
  have count : (ignoring readU64 g).1 = leNat (g.take 8) := rfl
  have behind : (ignoring readU64 g).2 = g.drop 8 := rfl
  rw [count, behind]
  refine or_congr_right' fun positive => ⟨fun left => ?_, ?_⟩
  · obtain ⟨⟨each, length⟩, split⟩ := (reads.many _).of_left left
    exact ⟨_, _, each, left, by omega, split⟩
  · intro ⟨records, more, each, left, count, split⟩
    rw [count, Nat.add_sub_cancel, split, (reads.many _).whole records more ⟨each, rfl⟩]
    exact left

/-- The counts are backed if and only if every iteration takes something. -/
theorem backedFile_header (g : InFile) : BackedFile bits (headerBytes ++ g) ↔
    ∀ p ∈ loadPasses bits (headerBytes ++ g), p.2.length < p.1.length := by
  have entry : ∀ x, entryBytes x ≠ [] := by simp [entryBytes, strBytes, leBytes]
  have node : ∀ x, nodeBytes x ≠ [] := by simp [nodeBytes, leBytes]
  have edge : ∀ x, edgeBytes bits x ≠ [] := by simp [edgeBytes, leBytes]
  have atEnd {α : Type} (record : α → Bytes) (fits : α → Prop) : Backed record fits [] :=
    Or.inl rfl
  have unique : BackedFile bits (headerBytes ++ g) ↔ Backed entryBytes FitsEntry g ∧
      ∀ entries g₁, FitsSection FitsEntry entries → g = sectionBytes entryBytes entries ++ g₁ →
        Backed nodeBytes FitsNode g₁ ∧
          ∀ nodes g₂, FitsSection FitsNode nodes → g₁ = sectionBytes nodeBytes nodes ++ g₂ →
            Backed (edgeBytes bits) FitsEdge g₂ := by
    constructor
    · intro backed
      exact backed g rfl
    · intro backed g' same
      rwa [← List.append_cancel_left same]
  have nodes (g₁ : InFile) := (readsOff_section readsOff_node).forall_rest_iff (f := g₁)
    (P := Backed (edgeBytes bits) FitsEdge) (atEnd _ _)
  have entries := (readsOff_section readsOff_entry).forall_rest_iff (f := g)
    (P := fun g₁ => Backed nodeBytes FitsNode g₁ ∧
      Backed (edgeBytes bits) FitsEdge (readSection readNode g₁).2)
    ⟨atEnd _ _, by rw [(readsOff_section readsOff_node).nil]; exact atEnd _ _⟩
  simp only [unique, nodes, entries, loadPasses_header, List.forall_mem_append,
    sectionPasses_iff readsOff_entry entry, sectionPasses_iff readsOff_node node,
    sectionPasses_iff (readsOff_edge bits) edge]

/-- Passes over a section that all take something are no more than what they take. -/
theorem length_readSection_le {α : Type} {read : InFile → α × InFile}
    (shrink : ∀ p ∈ sectionPasses read g, p.2.length < p.1.length) :
    (readSection read g).1.length + (readSection read g).2.length ≤ g.length := by
  have bound := length_passes_le shrink
  have behind := (readsOff_u64.suffix g).length_le
  rw [readSection, length_readMany]
  omega

theorem length_recordCalls_le (clock : Nat → Int) (entries : List (Bytes × Bytes × Int))
    (nodes : List (Int × Bytes × Bytes)) (edges : List (Int × Edge W)) :
    (recordCalls clock entries nodes edges).length ≤
      entries.length + nodes.length + edges.length := by
  have kept := List.length_filterMap_le
    (fun x : (Bytes × Bytes × Int) × Nat => entryCall (W := W) (clock x.2) x.1) entries.zipIdx
  rw [List.length_zipIdx] at kept
  rw [recordCalls, List.length_append, List.length_append, List.length_map, List.length_map]
  omega

/-- A load in which every iteration takes something makes no more calls than there are bytes. -/
theorem length_loadCalls_le (clock : Nat → Int)
    (shrink : ∀ p ∈ loadPasses bits (headerBytes ++ g), p.2.length < p.1.length) :
    (loadCalls bits clock (headerBytes ++ g)).2.length ≤ (headerBytes ++ g).length := by
  rw [loadPasses_header, List.forall_mem_append, List.forall_mem_append] at shrink
  obtain ⟨entryShrink, nodeShrink, edgeShrink⟩ := shrink
  have entryBound := length_readSection_le entryShrink
  have nodeBound := length_readSection_le nodeShrink
  have edgeBound := length_readSection_le edgeShrink
  rw [loadCalls_of_records (readRecords_header bits g), List.length_append]
  refine (length_recordCalls_le clock _ _ _).trans ?_
  rw [readSections, readPair, readPair]
  dsimp only
  omega

/-- `load` makes no more calls than there are bytes, taking one in every iteration, if and only if
the counts of the file are backed by records. -/
theorem bounded_iff (bits : W ≃ UInt32) (clock : Nat → Int) (f : InFile) :
    Bounded bits clock f ↔ BackedFile bits f := by
  cases read : readRecords bits f with
  | none =>
    refine iff_of_true ⟨?_, ?_⟩ fun g header => ?_
    · rw [loadCalls_of_no_records read]
      exact Nat.zero_le _
    · rw [loadPasses_of_no_records read]
      exact nofun
    · rw [header, readRecords_header] at read
      cases read
  | some r =>
    obtain ⟨g, rfl⟩ := header_of_records bits read
    rw [backedFile_header]
    exact ⟨fun bounded => bounded.passes, fun shrink => ⟨length_loadCalls_le clock shrink, shrink⟩⟩

/-- A file that ends behind the count of its entries. -/
def cutCount : Bytes := headerBytes ++ leBytes 8 21

theorem loadCalls_cutCount : cutCount.length = 20 ∧
    (loadCalls (Equiv.refl UInt32) (fun _ => 0) cutCount).2.length = 21 ∧
    ¬ Bounded (Equiv.refl UInt32) (fun _ => 0) cutCount := by
  have calls : (loadCalls (Equiv.refl UInt32) (fun _ => 0) cutCount).2.length = 21 := by
    decide
  have bytes : cutCount.length = 20 := by decide
  refine ⟨bytes, calls, fun bounded => ?_⟩
  have few := bounded.calls
  omega

end FastGraph.RDB
