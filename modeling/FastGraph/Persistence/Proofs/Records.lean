import FastGraph.Misc.Readers
import FastGraph.Persistence.Proofs.Format
import FastGraph.Persistence.Proofs.Load

/-!
# Reading the records

The readers of `load` take off the front of the file what the format has for a word, a string, a
record or a section, and everything if there is not enough.
-/

namespace FastGraph.RDB

/-! ### Words and strings -/

theorem readsOff_word (n : Nat) : ReadsOff (fun f : InFile => (leNat (f.take n), f.drop n))
    (leBytes n) (· < 256 ^ n) where
  whole v rest fits := by
    have length := length_leBytes n v
    rw [List.take_left' length, List.drop_left' length, leNat_leBytes fits]
  cases f := by
    rcases le_or_gt n f.length with enough | short
    · have length : (f.take n).length = n := by rw [List.length_take, Nat.min_eq_left enough]
      have bytes := leBytes_leNat (f.take n)
      have fits := leNat_lt (f.take n)
      rw [length] at bytes fits
      refine Or.inl ⟨fits, ?_⟩
      rw [bytes, List.take_append_drop]
    · refine Or.inr ⟨List.drop_eq_nil_of_le short.le, fun v _ begins => ?_⟩
      have bound := begins.length_le
      rw [length_leBytes] at bound
      exact absurd short (not_lt.mpr bound)

/-- The value and the rest of the file, whether or not the read was short. -/
def ignoring {α : Type} (read : InFile → α × Bool × InFile) (f : InFile) : α × InFile :=
  ((read f).1, (read f).2.2)

theorem readsOff_u32 : ReadsOff (ignoring readU32) (leBytes 4) (· < 2 ^ 32) := readsOff_word 4

theorem readsOff_u64 : ReadsOff (ignoring readU64) (leBytes 8) (· < 2 ^ 64) := readsOff_word 8

theorem toUInt32_toInt32 {v : Nat} (fits : v < 2 ^ 32) : toUInt32 (toInt32 v) = v := by
  unfold toUInt32 toInt32 wrapSigned
  rw [show (2 : Int) ^ 32 = (2 ^ 32 : Nat) from rfl, Int.bmod_emod]
  omega

theorem toSizeT_toInt64 {v : Nat} (fits : v < 2 ^ 64) : toSizeT (toInt64 v) = v := by
  unfold toSizeT toInt64 wrapSigned
  rw [show (2 : Int) ^ 64 = (2 ^ 64 : Nat) from rfl, Int.bmod_emod]
  omega

/-- The value is one of an `int64_t`. -/
def FitsInt64 (i : Int) : Prop := -2 ^ 63 ≤ i ∧ i < 2 ^ 63

/-- An `int` from a `uint32_t`. -/
def readInt : InFile → Int × InFile := readMap (fun v : Nat => toInt32 v) (ignoring readU32)

/-- An `int64_t`. -/
def readInt64 : InFile → Int × InFile := readMap (fun v : Nat => toInt64 v) (ignoring readU64)

theorem readsOff_int : ReadsOff readInt (fun i => leBytes 4 (toUInt32 i)) FitsInt :=
  readsOff_u32.map _ toUInt32 (fun v fits => ⟨toInt32_range v, toUInt32_toInt32 fits⟩)
    (fun i fits => ⟨toUInt32_lt i, toInt32_toUInt32 fits⟩)

theorem readsOff_int64 : ReadsOff readInt64 (fun i => leBytes 8 (toSizeT i)) FitsInt64 :=
  readsOff_u64.map _ toSizeT (fun v fits => ⟨toInt64_range v, toSizeT_toInt64 fits⟩)
    (fun i fits => ⟨toSizeT_lt i, toInt64_toSizeT fits.1 fits.2⟩)

theorem readsOff_f32 (init : UInt32) :
    ReadsOff (ignoring (readF32 init)) (fun w => leBytes 4 w.toNat) (fun _ => True) where
  whole w rest _ := by rw [ignoring, readF32_append]
  cases f := by
    rcases readsOff_u32.cases f with ⟨fits, split⟩ | ⟨nothing, unlike⟩
    · refine Or.inl ⟨trivial, ?_⟩
      have value := UInt32.toNat_ofNat_of_lt' fits
      have back := readF32_append init (UInt32.ofNat (ignoring readU32 f).1) (ignoring readU32 f).2
      rw [value, ← split] at back
      rw [ignoring, back, value]
      exact split
    · exact Or.inr ⟨nothing, fun w _ => unlike _ w.toNat_lt⟩

theorem readsOff_str : ReadsOff (ignoring readStr) strBytes Short where
  whole s rest short := by rw [ignoring, readStr_append short]
  cases f := by
    rcases readsOff_u32.cases f with ⟨fits, split⟩ | ⟨nothing, unlike⟩
    · generalize (ignoring readU32 f).1 = len at fits split
      generalize (ignoring readU32 f).2 = rest at split
      have result : ignoring readStr f =
          (rest.take len ++ List.replicate (len - (rest.take len).length) 0, rest.drop len) := by
        rw [ignoring, readStr, split, readU32_append fits]
        rfl
      rw [result]
      rcases le_or_gt len rest.length with enough | short
      · have length : (rest.take len).length = len := by rw [List.length_take, Nat.min_eq_left enough]
        refine Or.inl ?_
        dsimp only
        rw [length, Nat.sub_self, List.replicate_zero, List.append_nil, strBytes, length]
        refine ⟨?_, ?_⟩
        · rw [Short, length]
          exact fits
        · rw [List.append_assoc, List.take_append_drop]
          exact split
      · refine Or.inr ⟨List.drop_eq_nil_of_le short.le, fun s shortStr begins => ?_⟩
        obtain ⟨more, whole⟩ := begins
        rw [strBytes, List.append_assoc, split] at whole
        -- the length and what follows it are the same in both
        have read := readU32_append fits rest
        rw [← whole, readU32_append shortStr] at read
        obtain ⟨same, behind⟩ := Prod.mk.inj read
        have rest_eq := (Prod.mk.inj behind).2
        rw [← rest_eq, List.length_append, ← same] at short
        omega
    · refine Or.inr ⟨?_, fun s short begins => ?_⟩
      · rcases read : readU32 f with ⟨len, ok, rest⟩
        rw [ignoring, read] at nothing
        dsimp only at nothing
        rw [ignoring, readStr, read, nothing]
        cases ok with
        | false => rfl
        | true => exact List.drop_nil
      · exact unlike s.length short ((List.prefix_append _ _).trans begins)

/-! ### Records and sections -/

/-- What an iteration of the loop over the entries reads. -/
def readEntry : InFile → (Bytes × Bytes × Int) × InFile :=
  readPair (ignoring readStr) (readPair (ignoring readStr) readInt64)

/-- What an iteration of the loop over the nodes reads. -/
def readNode : InFile → (Int × Bytes × Bytes) × InFile :=
  readPair readInt (readPair (ignoring readStr) (ignoring readStr))

section
variable {W : Type} (bits : W ≃ UInt32)

/-- The edge that the fields of a record make. -/
def edgeOf (p : Int × Int × Bytes × UInt32) : Int × Edge W :=
  (p.1, ⟨p.2.1, p.2.2.1, bits.symm p.2.2.2⟩)

/-- What an iteration of the loop over the edges reads. -/
def readEdge : InFile → (Int × Edge W) × InFile :=
  readMap (edgeOf bits)
    (readPair readInt (readPair readInt (readPair (ignoring readStr) (ignoring (readF32 oneBits)))))

/-- An entry that fits the fields of the format. -/
def FitsEntry (x : Bytes × Bytes × Int) : Prop := Short x.1 ∧ Short x.2.1 ∧ FitsInt64 x.2.2

/-- A node that fits the fields of the format. -/
def FitsNode (n : Int × Bytes × Bytes) : Prop := FitsInt n.1 ∧ Short n.2.1 ∧ Short n.2.2

/-- An edge that fits the fields of the format. -/
def FitsEdge (x : Int × Edge W) : Prop := FitsInt x.1 ∧ FitsInt x.2.toId ∧ Short x.2.relType

theorem readsOff_entry : ReadsOff readEntry entryBytes FitsEntry := by
  have bytes : entryBytes = fun x => strBytes x.1 ++ (strBytes x.2.1 ++ leBytes 8 (toSizeT x.2.2)) := by
    funext x
    rw [entryBytes, List.append_assoc]
  rw [bytes]
  exact readsOff_str.pair (readsOff_str.pair readsOff_int64)

theorem readsOff_node : ReadsOff readNode nodeBytes FitsNode := by
  have bytes : nodeBytes = fun n => leBytes 4 (toUInt32 n.1) ++ (strBytes n.2.1 ++ strBytes n.2.2) := by
    funext n
    rw [nodeBytes, List.append_assoc]
  rw [bytes]
  exact readsOff_int.pair (readsOff_str.pair readsOff_str)

theorem readsOff_edge : ReadsOff (readEdge bits) (edgeBytes bits) FitsEdge := by
  have bytes : edgeBytes bits = fun x : Int × Edge W => leBytes 4 (toUInt32 x.1) ++
      (leBytes 4 (toUInt32 x.2.toId) ++ (strBytes x.2.relType ++ leBytes 4 (bits x.2.weight).toNat)) := by
    funext x
    rw [edgeBytes, List.append_assoc, List.append_assoc]
  have fields := readsOff_int.pair (readsOff_int.pair (readsOff_str.pair (readsOff_f32 oneBits)))
  rw [bytes]
  exact fields.map (edgeOf bits) (fun x => (x.1, x.2.toId, x.2.relType, bits x.2.weight))
    (fun p fits => ⟨⟨fits.1, fits.2.1, fits.2.2.1⟩, by simp [edgeOf]⟩)
    (fun x fits => ⟨⟨fits.1, fits.2.1, fits.2.2, trivial⟩, by simp [edgeOf]⟩)

/-- A section: a count and as many records. -/
def readSection {α : Type} (read : InFile → α × InFile) (f : InFile) : List α × InFile :=
  readMany read (ignoring readU64 f).1 (ignoring readU64 f).2

/-- A section that can be counted and whose records fit. -/
def FitsSection {α : Type} (fits : α → Prop) (records : List α) : Prop :=
  records.length < 2 ^ 64 ∧ ∀ x ∈ records, fits x

theorem readsOff_section {α : Type} {read : InFile → α × InFile} {record : α → Bytes}
    {fits : α → Prop} (reads : ReadsOff read record fits) :
    ReadsOff (readSection read) (sectionBytes record) (FitsSection fits) :=
  readsOff_u64.counted reads

theorem readEntries_eq (n : Nat) (f : InFile) : readEntries n f = readMany readEntry n f := by
  induction n generalizing f with
  | zero => rfl
  | succ n ih => simp only [readEntries, readMany, readEntry, readPair, ignoring, readInt64, readMap, ih]

theorem readNodes_eq (n : Nat) (f : InFile) : readNodes n f = readMany readNode n f := by
  induction n generalizing f with
  | zero => rfl
  | succ n ih => simp only [readNodes, readMany, readNode, readPair, ignoring, readInt, readMap, ih]

theorem readEdges_eq (n : Nat) (f : InFile) : readEdges bits n f = readMany (readEdge bits) n f := by
  induction n generalizing f with
  | zero => rfl
  | succ n ih => simp only [readEdges, readMany, readEdge, edgeOf, readPair, ignoring, readInt, readMap, ih]

/-! ### Whole files -/

/-- The records of a file behind its header. -/
def readSections : InFile →
    (List (Bytes × Bytes × Int) × List (Int × Bytes × Bytes) × List (Int × Edge W)) × InFile :=
  readPair (readSection readEntry) (readPair (readSection readNode) (readSection (readEdge bits)))

theorem readsOff_sections : ReadsOff (readSections bits)
    (fun s => sectionBytes entryBytes s.1 ++
      (sectionBytes nodeBytes s.2.1 ++ sectionBytes (edgeBytes bits) s.2.2))
    (fun s => FitsSection FitsEntry s.1 ∧ FitsSection FitsNode s.2.1 ∧ FitsSection FitsEdge s.2.2) :=
  (readsOff_section readsOff_entry).pair
    ((readsOff_section readsOff_node).pair (readsOff_section (readsOff_edge bits)))

/-- The magic number and the version. -/
def headerBytes : Bytes := leBytes 8 magic ++ leBytes 4 version

theorem readRecords_header (g : InFile) : readRecords bits (headerBytes ++ g) =
    some ⟨(readSections bits g).1.1, (readSections bits g).1.2.1, (readSections bits g).1.2.2,
      decide ((ignoring readU64 (readSections bits g).2).1 = eofMarker)⟩ := by
  simp only [readRecords, headerBytes, List.append_assoc, readU64_append (v := magic) (by decide),
    readU32_append (v := version) (by decide), Bool.not_true, Bool.false_eq_true, ne_eq,
    not_true_eq_false, or_self, if_false, readEntries_eq, readNodes_eq, readEdges_eq]
  rfl

end

end FastGraph.RDB
