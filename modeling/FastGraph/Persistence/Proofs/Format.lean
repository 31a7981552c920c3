import FastGraph.Persistence.Rdb

/-!
# The snapshot format

What each record of a snapshot looks like in the file, that `save` appends exactly that,
and that the readers of `load` take it off the front of the file again.
-/

namespace FastGraph.RDB

/-- The value is one of an `int`. -/
def FitsInt (i : Int) : Prop := -2 ^ 31 ≤ i ∧ i < 2 ^ 31

/-- The length of the string is one of a `uint32_t`. -/
def Short (s : Bytes) : Prop := s.length < 2 ^ 32

/-! ### Records -/

/-- A string: its length and its bytes. -/
def strBytes (s : Bytes) : Bytes := leBytes 4 s.length ++ s

/-- A key, its value and its deadline. -/
def entryBytes (entry : Bytes × Bytes × Int) : Bytes :=
  strBytes entry.1 ++ strBytes entry.2.1 ++ leBytes 8 (toSizeT entry.2.2)

/-- A node. -/
def nodeBytes (node : Int × Bytes × Bytes) : Bytes :=
  leBytes 4 (toUInt32 node.1) ++ strBytes node.2.1 ++ strBytes node.2.2

/-- An edge. -/
def edgeBytes {W : Type} (bits : W ≃ UInt32) (edge : Int × Edge W) : Bytes :=
  leBytes 4 (toUInt32 edge.1) ++ leBytes 4 (toUInt32 edge.2.toId) ++ strBytes edge.2.relType ++
    leBytes 4 (bits edge.2.weight).toNat

/-- A section: the number of its records, and the records. -/
def sectionBytes {α : Type} (record : α → Bytes) (records : List α) : Bytes :=
  leBytes 8 records.length ++ records.flatMap record

/-! ### Writing them -/

/-- A file to which every byte is written. -/
def sound (contents : Bytes) : OutFile := ⟨contents, [], false⟩

theorem fwrite_sound (contents data : Bytes) :
    fwrite (sound contents) data = (sound (contents ++ data), true) := rfl

theorem writeStr_sound {s : Bytes} (short : Short s) (contents : Bytes) :
    (writeStr (sound contents) s).1 = sound (contents ++ strBytes s) := by
  have len : s.length % 2 ^ 32 = s.length := Nat.mod_eq_of_lt short
  simp only [writeStr, len, writeU32, fwrite_sound, strBytes, List.take_length]
  split
  · rename_i none
    rw [List.length_eq_zero_iff.mp none, List.append_nil]
  · rw [List.append_assoc]

theorem saveEntry_sound {entry : Bytes × Bytes × Int} (key : Short entry.1) (val : Short entry.2.1)
    (contents : Bytes) :
    saveEntry (sound contents) entry = sound (contents ++ entryBytes entry) := by
  simp only [saveEntry, writeStr_sound key, writeStr_sound val, fwrite_sound, entryBytes,
    List.append_assoc]

theorem saveNode_sound {node : Int × Bytes × Bytes} (label : Short node.2.1)
    (props : Short node.2.2) (contents : Bytes) :
    saveNode (sound contents) node = sound (contents ++ nodeBytes node) := by
  simp only [saveNode, writeU32, fwrite_sound, writeStr_sound label, writeStr_sound props, nodeBytes,
    List.append_assoc]

theorem saveEdge_sound {W : Type} (bits : W ≃ UInt32) {edge : Int × Edge W}
    (rel : Short edge.2.relType) (contents : Bytes) :
    saveEdge bits (sound contents) edge = sound (contents ++ edgeBytes bits edge) := by
  simp only [saveEdge, writeU32, writeF32, fwrite_sound, writeStr_sound rel, edgeBytes,
    List.append_assoc]

/-- A loop that appends a record in every iteration. -/
theorem foldl_sound {α : Type} {write : OutFile → α → OutFile} {record : α → Bytes} {l : List α}
    (appends : ∀ x ∈ l, ∀ contents, write (sound contents) x = sound (contents ++ record x))
    (contents : Bytes) :
    l.foldl write (sound contents) = sound (contents ++ l.flatMap record) := by
  induction l generalizing contents with
  | nil => simp
  | cons x l ih =>
    rw [List.foldl_cons, appends x (by simp), ih fun y mem => appends y (List.mem_cons_of_mem _ mem),
      List.flatMap_cons, List.append_assoc]

/-! ### Reading them -/

theorem readU32_append {v : Nat} (fits : v < 2 ^ 32) (rest : Bytes) :
    readU32 (leBytes 4 v ++ rest) = (v, true, rest) := by
  rw [readU32, fread_append rest (length_leBytes 4 v)]
  simp only [leNat_leBytes (n := 4) fits]

theorem readU64_append {v : Nat} (fits : v < 2 ^ 64) (rest : Bytes) :
    readU64 (leBytes 8 v ++ rest) = (v, true, rest) := by
  rw [readU64, fread_append rest (length_leBytes 8 v)]
  simp only [leNat_leBytes (n := 8) fits]

theorem readF32_append (init w : UInt32) (rest : Bytes) :
    readF32 init (leBytes 4 w.toNat ++ rest) = (w, true, rest) := by
  rw [readF32, fread_append rest (length_leBytes 4 w.toNat)]
  have none : (leBytes 4 init.toNat).drop (leBytes 4 w.toNat).length = [] :=
    List.drop_eq_nil_of_le (by simp)
  simp only [none, List.append_nil, leNat_leBytes (n := 4) (v := w.toNat) w.toNat_lt,
    UInt32.ofNat_toNat]

theorem readStr_append {s : Bytes} (short : Short s) (rest : Bytes) :
    readStr (strBytes s ++ rest) = (s, true, rest) := by
  rw [readStr, strBytes, List.append_assoc, readU32_append short]
  simp only [fread_append rest rfl, Nat.sub_self, List.replicate_zero, List.append_nil]

/-! ### Conversions there and back -/

theorem toUInt32_lt (i : Int) : toUInt32 i < 2 ^ 32 := by
  unfold toUInt32
  omega

theorem toInt32_toUInt32 {i : Int} (fits : FitsInt i) : toInt32 (toUInt32 i) = i := by
  have same : ((toUInt32 i : Nat) : Int) = i % 2 ^ 32 := by
    unfold toUInt32
    omega
  have back := toInt32_of_range fits.1 fits.2
  unfold toInt32 wrapSigned at back ⊢
  rw [same]
  exact (Int.emod_bmod i (2 ^ 32)).trans back

theorem toSizeT_lt (i : Int) : toSizeT i < 2 ^ 64 := by
  unfold toSizeT
  omega

theorem toInt64_toSizeT {i : Int} (low : -2 ^ 63 ≤ i) (high : i < 2 ^ 63) :
    toInt64 (toSizeT i) = i := by
  have same : ((toSizeT i : Nat) : Int) = i % 2 ^ 64 := by
    unfold toSizeT
    omega
  have back := toInt64_of_range low high
  unfold toInt64 wrapSigned at back ⊢
  rw [same]
  exact (Int.emod_bmod i (2 ^ 64)).trans back

end FastGraph.RDB
