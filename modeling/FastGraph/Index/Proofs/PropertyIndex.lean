import FastGraph.Index.Proofs.SkipList
import FastGraph.Index.PropertyIndex
import FastGraph.Misc.Register

/-!
# The property index is a register

A skip list of ids is a row of a register, and the calls of the index change one row or one column
of it. The rows are named by texts `label.prop`, so that is a register of pairs of labels and
properties as long as the text determines the pair.
-/

namespace FastGraph.PropertyIndex
open SkipList Mark

/-! ### Keys -/

/-- A string without the separator of `make_key`. -/
def Plain (s : Bytes) : Prop := charByte '.' ∉ s

/-- The key of a label and a property. -/
def keyOf (k : Bytes × Bytes) : Bytes := makeKey k.1 k.2

section
variable {label prop label' prop' : Bytes}

theorem makeKey_eq (label prop : Bytes) : makeKey label prop = label ++ charByte '.' :: prop := by
  simp [makeKey, str]

theorem count_of_plain (plain : Plain label) : label.count (charByte '.') = 0 :=
  List.count_eq_zero.mpr plain

/-- A key with one separator has one label and one property. -/
theorem makeKey_inj (plain : Plain label) (plain' : Plain prop)
    (same : makeKey label' prop' = makeKey label prop) : label' = label ∧ prop' = prop := by
  rw [makeKey_eq, makeKey_eq] at same
  have seps := congrArg (List.count (charByte '.')) same
  simp only [List.count_append, List.count_cons_self, count_of_plain plain,
    count_of_plain plain'] at seps
  have own : Plain label' := List.count_eq_zero.mp (by omega)
  have begins (l p : Bytes) (clean : Plain l) :
      (l ++ charByte '.' :: p).takeWhile (· != charByte '.') = l := by
    rw [List.takeWhile_append_of_pos]
    · simp
    · intro b mem
      rw [bne_iff_ne]
      rintro rfl
      exact clean mem
  have labels := congrArg (List.takeWhile (· != charByte '.')) same
  rw [begins _ _ own, begins _ _ plain] at labels
  subst labels
  exact ⟨rfl, (List.cons.inj (List.append_cancel_left same)).2⟩

/-- A key with more than one separator has more than one label and property. -/
theorem exists_other_pair (mixed : ¬ (Plain label ∧ Plain prop)) :
    ∃ label' prop', makeKey label' prop' = makeKey label prop ∧ (label', prop') ≠ (label, prop) := by
  have dotted : charByte '.' ∈ label ∨ charByte '.' ∈ prop := by
    by_contra none
    rw [not_or] at none
    exact mixed none
  rcases dotted with inLabel | inProp
  · obtain ⟨a, b, rfl⟩ := List.append_of_mem inLabel
    refine ⟨a, b ++ charByte '.' :: prop, by simp [makeKey_eq], ?_⟩
    intro same
    have lengths := congrArg (fun k => k.1.length) same
    simp at lengths
  · obtain ⟨a, b, rfl⟩ := List.append_of_mem inProp
    refine ⟨label ++ charByte '.' :: a, b, by simp [makeKey_eq], ?_⟩
    intro same
    have lengths := congrArg (fun k => k.1.length) same
    simp at lengths

end

/-! ### Lists -/

section
variable {D : Type} [Inhabited D]

/-- The list under a key, which is empty before the key is used. -/
def listOf (indices : UnorderedMap Bytes (SkipList D)) (key : Bytes) : SkipList D :=
  (indices.find key).getD .empty

theorem listOf_set (indices : UnorderedMap Bytes (SkipList D)) (key : Bytes) (l : SkipList D)
    (key' : Bytes) :
    listOf (indices.set key l) key' = if key' = key then l else listOf indices key' := by
  unfold listOf
  rw [UnorderedMap.find_set]
  split <;> rfl

/-- A query reads the list of its key. -/
theorem range_eq [LT D] [DecidableLT D] [LE D] [DecidableLE D] (p : PropertyIndex D)
    (label prop : Bytes) (minVal maxVal : D) :
    p.range label prop minVal maxVal = (do
      let results ← Outcome.ofOption
        ((listOf p.indices (makeKey label prop)).rangeByScore minVal maxVal)
      results.mapM fun r => Outcome.ofExcept (readNumber .stoi (stoi r.2))) := by
  unfold range listOf
  cases p.indices.find (makeKey label prop) with
  | none =>
    obtain ⟨pre, post, cut, -, -, -, -, run⟩ := shape_empty.rangeByScore minVal maxVal
    obtain ⟨-, rfl⟩ := List.append_eq_nil_iff.mp cut.symm
    rw [Option.getD_none, run]
    rfl
  | some l => rfl

end

/-- The numeral of an `int`. -/
def IsName (m : Bytes) : Prop := ∃ id, IsInt id ∧ m = decimalInt id

/-- Members that are numerals are read as the ids they name. -/
theorem mapM_stoi {D : Type} {results : List (D × Bytes)} (named : ∀ r ∈ results, IsName r.2) :
    results.mapM (fun r => Outcome.ofExcept (readNumber .stoi (stoi r.2))) =
      Outcome.returned (results.map fun r => (scanInt r.2).getD 0) := by
  apply mapM_eq_pure
  intro r mem
  obtain ⟨id, isInt, name⟩ := named r mem
  rw [name, stoi_decimalInt isInt, scanInt_decimalInt]
  rfl

/-! ### One list is a row -/

section
variable {S E : Type} [Inhabited S] [BEq S] [LT S] [DecidableLT S] [LinearOrder E] {num : E → S}
  {l : SkipList S} {row : Int → Option E} {scores : Bytes → Option E} {id : Int}

/-- The scores are the values of the row, under the numerals of its ids. -/
def Names (scores : Bytes → Option E) (row : Int → Option E) : Prop :=
  ∀ m v, scores m = some v ↔ ∃ id, m = decimalInt id ∧ row id = some v

omit [LinearOrder E] in
theorem Names.find (names : Names scores row) (id : Int) : scores (decimalInt id) = row id := by
  ext v
  rw [names]
  constructor
  · intro ⟨id', same, held⟩
    rw [decimalInt_injective same]
    exact held
  · intro held
    exact ⟨id, rfl, held⟩

omit [LinearOrder E] in
theorem Names.update (names : Names scores row) (id : Int) (value : Option E) :
    Names (fun m => if m = decimalInt id then value else scores m)
      fun i => if i = id then value else row i := by
  intro m v
  dsimp only
  by_cases own : m = decimalInt id
  · subst own
    rw [if_pos rfl]
    constructor
    · intro same
      exact ⟨id, rfl, by rw [if_pos rfl, same]⟩
    · intro ⟨i, same, held⟩
      rwa [← decimalInt_injective same, if_pos rfl] at held
  · rw [if_neg own, names]
    refine exists_congr fun i => and_congr_right fun same => ?_
    rw [if_neg fun here => own (by rw [same, here])]

/-- The list holds the numerals of the ids of the row, with the scores that `num` gives. -/
structure Listed (num : E → S) (l : SkipList S) (row : Int → Option E) : Prop where
  graded : ∃ ts scores ks, Graded num l ts scores ks ∧ Names scores row
  ints : ∀ id v, row id = some v → IsInt id

omit [BEq S] [LT S] [DecidableLT S] in
theorem listed_empty : Listed num (SkipList.empty : SkipList S) fun _ => none :=
  ⟨⟨[], _, [], graded_empty, fun _ _ => by simp⟩, fun _ _ held => by cases held⟩

theorem Listed.insert (listed : Listed num l row) (faithful : Faithful num) (coins : List Bool)
    (value : E) (isInt : IsInt id) :
    ∃ l', l.insert coins (num value) (decimalInt id) = some l' ∧
      Listed num l' fun i => if i = id then some value else row i := by
  obtain ⟨ts, scores, ks, graded, names⟩ := listed.graded
  obtain ⟨l', ts', step, shape, inserted⟩ := graded.shape.insert coins (num value) (decimalInt id)
  obtain ⟨ks', graded'⟩ := inserted.graded faithful graded shape
  refine ⟨l', step, ⟨ts', _, ks', graded', names.update id (some value)⟩, ?_⟩
  intro i v held
  split at held
  · rename_i own
    rw [own]
    exact isInt
  · exact listed.ints i v held

theorem Listed.remove (listed : Listed num l row) (faithful : Faithful num) (value : E) (id : Int) :
    ∃ l' done, l.remove (num value) (decimalInt id) = some (l', done) ∧
      Listed num l' fun i => if i = id ∧ row id = some value then none else row i := by
  obtain ⟨ts, scores, ks, graded, names⟩ := listed.graded
  obtain ⟨l', ts', done, ks', step, graded'⟩ := graded.remove faithful value (decimalInt id)
  refine ⟨l', done, step, ⟨ts', _, ks', graded', ?_⟩, ?_⟩
  · rw [names.find]
    by_cases taken : row id = some value
    · simpa only [taken, and_true] using names.update id none
    · simpa only [taken, and_false, if_false] using names
  · intro i v held
    split at held
    · cases held
    · exact listed.ints i v held

/-! ### The lists are a register -/

variable {indices : UnorderedMap Bytes (SkipList S)} {r : Bytes → Int → Option E} {key : Bytes}

omit [BEq S] [LT S] [DecidableLT S] in
/-- One list is replaced, and its row with it. -/
theorem listed_set (lists : ∀ k, Listed num (listOf indices k) (r k)) {l : SkipList S}
    {r' : Bytes → Int → Option E} (changed : Listed num l (r' key))
    (frame : ∀ k, k ≠ key → r' k = r k) (k : Bytes) :
    Listed num (listOf (indices.set key l) k) (r' k) := by
  rw [listOf_set]
  by_cases here : k = key
  · subst here
    rw [if_pos rfl]
    exact changed
  · rw [if_neg here, frame k here]
    exact lists k

/-- One search of `remove_node` drops one entry. -/
theorem removeEntry_spec (lists : ∀ k, Listed num (listOf indices k) (r k))
    (faithful : Faithful num) (id : Int) (key : Bytes) (value : E) :
    ∃ indices', removeEntry id indices (key, num value) = some indices' ∧
      ∀ k, Listed num (listOf indices' k) ((Mark.drop key id value).on r k) := by
  unfold removeEntry
  dsimp only
  cases found : indices.find key with
  | none =>
    refine ⟨indices, rfl, ?_⟩
    intro k
    obtain ⟨ts, scores, ks, graded, names⟩ := (lists key).graded
    have blank : r key id = none := by
      have table := graded.table (decimalInt id)
      rw [listOf, found, names.find] at table
      exact Option.map_eq_none_iff.mp table.symm
    have same : (Mark.drop key id value).on r = r := by
      funext k' i
      simp [Mark.on, blank]
    rw [same]
    exact lists k
  | some l =>
    have own := lists key
    rw [listOf, found, Option.getD_some] at own
    obtain ⟨l', done, step, changed⟩ := own.remove faithful value id
    refine ⟨indices.set key l', by simp [step], ?_⟩
    apply listed_set lists
    · simpa only [Mark.on, true_and] using changed
    · intro k other
      funext i
      simp [Mark.on, other]

/-- An entry in the list of a node. -/
def entryOf (num : E → S) (entry : Bytes × E) : Bytes × S := (entry.1, num entry.2)

/-- The loop of `remove_node` drops its entries one by one. -/
theorem foldlM_removeEntry (lists : ∀ k, Listed num (listOf indices k) (r k))
    (faithful : Faithful num) (id : Int) (entries : List (Bytes × E)) :
    ∃ indices', (entries.map (entryOf num)).foldlM (removeEntry id) indices = some indices' ∧
      ∀ k, Listed num (listOf indices' k)
        (fun i => if i = id ∧ ∃ v, r k id = some v ∧ (k, v) ∈ entries then none else r k i) := by
  induction entries generalizing indices r with
  | nil => exact ⟨indices, rfl, fun k => by simpa using lists k⟩
  | cons entry entries ih =>
    obtain ⟨indices₁, step, lists₁⟩ := removeEntry_spec lists faithful id entry.1 entry.2
    obtain ⟨indices', rest, lists'⟩ := ih lists₁
    refine ⟨indices', by rw [List.map_cons, List.foldlM_cons, entryOf, step]; exact rest, ?_⟩
    intro k
    have same : (fun i => if i = id ∧ ∃ v, r k id = some v ∧ (k, v) ∈ entry :: entries then none
        else r k i) = fun i =>
        if i = id ∧ ∃ v, (Mark.drop entry.1 id entry.2).on r k id = some v ∧ (k, v) ∈ entries
        then none else (Mark.drop entry.1 id entry.2).on r k i := by
      funext i
      simp only [Mark.on, List.mem_cons]
      by_cases own : i = id
      · subst own
        cases held : r k i with
        | none => simp
        | some v =>
          by_cases here : (k, v) = entry
          · subst here
            simp [held]
          · have apart : ¬ (k = entry.1 ∧ r entry.1 i = some entry.2) := by
              rintro ⟨rfl, stored⟩
              rw [held, Option.some.injEq] at stored
              exact here (by rw [stored])
            simp [here, apart]
      · simp [own]
    rw [same]
    exact lists' k

/-- The index holds the register `r`, and the list of a node has an entry for all that stands
under the node. -/
structure Held (num : E → S) (p : PropertyIndex S) (r : Bytes → Int → Option E) : Prop where
  lists : ∀ key, Listed num (listOf p.indices key) (r key)
  entries : ∀ id, ∃ es : List (Bytes × E),
    (p.nodeEntries.find id).getD [] = es.map (entryOf num) ∧
      ∀ key v, r key id = some v → (key, v) ∈ es

variable {p : PropertyIndex S}

omit [BEq S] [LT S] [DecidableLT S] in
theorem held_empty : Held num (empty : PropertyIndex S) fun _ _ => none :=
  ⟨fun _ => listed_empty, fun _ => ⟨[], rfl, fun _ _ held => by cases held⟩⟩

theorem Held.add (held : Held num p r) (faithful : Faithful num) (label prop : Bytes) (value : E)
    {id : Int} (isInt : IsInt id) (coins : List Bool) :
    ∃ p', p.add label prop (num value) id coins = some p' ∧
      Held num p' ((Mark.put (makeKey label prop) id value).on r) := by
  obtain ⟨l, step, changed⟩ :=
    (held.lists (makeKey label prop)).insert faithful coins value isInt
  refine ⟨_, by rw [PropertyIndex.add, ← listOf, step]; rfl, ?_, ?_⟩
  · apply listed_set held.lists
    · simpa only [Mark.on, true_and] using changed
    · intro k other
      funext i
      simp [Mark.on, other]
  · intro i
    obtain ⟨es, stored, mem⟩ := held.entries i
    rw [UnorderedMap.find_set]
    by_cases own : i = id
    · subst own
      refine ⟨es ++ [(makeKey label prop, value)], ?_, ?_⟩
      · rw [if_pos rfl, Option.getD_some, stored, List.map_append]
        rfl
      · intro key v stands
        rcases on_eq_some.mp stands with same | ⟨old, -⟩
        · rw [Mark.put.injEq] at same
          obtain ⟨rfl, -, rfl⟩ := same
          simp
        · exact List.mem_append_left _ (mem key v old)
    · refine ⟨es, by rw [if_neg own, stored], ?_⟩
      intro key v stands
      rcases on_eq_some.mp stands with same | ⟨old, -⟩
      · rw [Mark.put.injEq] at same
        exact absurd same.2.1.symm own
      · exact mem key v old

theorem Held.remove (held : Held num p r) (faithful : Faithful num) (label prop : Bytes) (value : E)
    (id : Int) :
    ∃ p', p.remove label prop (num value) id = some p' ∧
      Held num p' ((Mark.drop (makeKey label prop) id value).on r) := by
  obtain ⟨indices, step, lists⟩ :=
    removeEntry_spec held.lists faithful id (makeKey label prop) value
  refine ⟨_, by rw [PropertyIndex.remove]; simp only [step]; rfl, lists, ?_⟩
  intro i
  obtain ⟨es, stored, mem⟩ := held.entries i
  rw [UnorderedMap.find_set]
  by_cases own : i = id
  · subst own
    refine ⟨es.filter fun e => !(e.1 == makeKey label prop && num e.2 == num value), ?_, ?_⟩
    · rw [if_pos rfl, Option.getD_some, stored, List.filter_map]
      rfl
    · intro key v stands
      obtain ⟨old, leaves⟩ := on_drop_eq_some.mp stands
      refine List.mem_filter.mpr ⟨mem key v old, ?_⟩
      rw [Bool.not_eq_true', Bool.and_eq_false_iff, beq_eq_false_iff_ne]
      by_contra dropped
      rw [not_or, not_not, Bool.not_eq_false, faithful.beq] at dropped
      exact leaves ⟨dropped.1.symm, rfl, dropped.2.symm⟩
  · refine ⟨es, by rw [if_neg own, stored], ?_⟩
    intro key v stands
    exact mem key v (on_drop_eq_some.mp stands).1

theorem Held.removeNode (held : Held num p r) (faithful : Faithful num) (id : Int) :
    ∃ p', p.removeNode id = some p' ∧ Held num p' ((Mark.clear id).on r) := by
  obtain ⟨es, stored, mem⟩ := held.entries id
  have cleared (key : Bytes) : (fun i => if i = id ∧ ∃ v, r key id = some v ∧ (key, v) ∈ es then none
      else r key i) = (Mark.clear id).on r key := by
    funext i
    simp only [Mark.on]
    by_cases own : i = id
    · subst own
      cases stands : r key i with
      | none => simp
      | some v => simp [mem key v stands]
    · simp [own]
  unfold PropertyIndex.removeNode
  cases found : p.nodeEntries.find id with
  | none =>
    rw [found, Option.getD_none, eq_comm, List.map_eq_nil_iff] at stored
    subst stored
    refine ⟨p, rfl, ?_, ?_⟩
    · intro key
      rw [← cleared key]
      simpa using held.lists key
    · intro i
      obtain ⟨es, stored, mem⟩ := held.entries i
      exact ⟨es, stored, fun key v stands =>
        mem key v (on_clear_eq_some.mp stands).1⟩
  | some entries =>
    rw [found, Option.getD_some] at stored
    subst stored
    obtain ⟨indices, run, lists⟩ := foldlM_removeEntry held.lists faithful id es
    refine ⟨_, by simp only [run]; rfl, ?_, ?_⟩
    · intro key
      rw [← cleared key]
      exact lists key
    · intro i
      by_cases own : i = id
      · subst own
        refine ⟨[], by simp, ?_⟩
        intro key v stands
        exact absurd rfl (on_clear_eq_some.mp stands).2
      · obtain ⟨es, stored, mem⟩ := held.entries i
        refine ⟨es, by rw [UnorderedMap.find_erase, if_neg own, stored], ?_⟩
        intro key v stands
        exact mem key v (on_clear_eq_some.mp stands).1

/-! ### Runs -/

/-- A call as a change of the register of pairs of labels and properties. -/
def Call.mark : Call E → Mark (Bytes × Bytes) Int E
  | .add label prop value nodeId _ => .put (label, prop) nodeId value
  | .remove label prop value nodeId => .drop (label, prop) nodeId value
  | .removeNode _ nodeId => .clear nodeId

/-- The node a call is about. -/
def Call.nodeId : Call E → Int
  | .add _ _ _ nodeId _ => nodeId
  | .remove _ _ _ nodeId => nodeId
  | .removeNode _ nodeId => nodeId

/-- The call with its value as a score. -/
def Call.scored (num : E → S) : Call E → Call S
  | .add label prop value nodeId coins => .add label prop (num value) nodeId coins
  | .remove label prop value nodeId => .remove label prop (num value) nodeId
  | .removeNode label nodeId => .removeNode label nodeId

theorem Held.call (held : Held num p r) (faithful : Faithful num) (c : Call E)
    (isInt : IsInt c.nodeId) :
    ∃ p', p.call (c.scored num) = some p' ∧ Held num p' ((c.mark.rename keyOf).on r) := by
  cases c with
  | add label prop value nodeId coins => exact held.add faithful label prop value isInt coins
  | remove label prop value nodeId => exact held.remove faithful label prop value nodeId
  | removeNode label nodeId => exact held.removeNode faithful nodeId

/-- The changes of the rows that a sequence of calls makes. -/
def keyMarks (calls : List (Call E)) : List (Mark Bytes Int E) :=
  (calls.map Call.mark).map (Mark.rename keyOf)

theorem Held.run (held : Held num p r) (faithful : Faithful num) (calls : List (Call E))
    (isInt : ∀ c ∈ calls, IsInt c.nodeId) :
    ∃ p', PropertyIndex.run (calls.map (Call.scored num)) p = some p' ∧
      Held num p' ((keyMarks calls).foldl Mark.on r) := by
  induction calls generalizing p r with
  | nil => exact ⟨p, rfl, held⟩
  | cons c calls ih =>
    obtain ⟨p₁, step, held₁⟩ := held.call faithful c (isInt c (by simp))
    obtain ⟨p', rest, held'⟩ := ih held₁ fun c mem => isInt c (by simp [mem])
    exact ⟨p', by rw [List.map_cons, PropertyIndex.run, List.foldlM_cons, step]; exact rest, held'⟩

end

/-! ### Values in a linear order -/

section
variable {D : Type} [LinearOrder D] [Inhabited D] {l : SkipList D} {row : Int → Option D}
  {r : Bytes → Int → Option D} {p : PropertyIndex D}

/-- The list holds the numerals of the ids of the row, with their values. -/
structure Lists (l : SkipList D) (row : Int → Option D) : Prop where
  ordered : ∃ ts, Ordered l ts
  members : ∀ m v, l.memberScores.find m = some v ↔ ∃ id, m = decimalInt id ∧ row id = some v
  ints : ∀ id v, row id = some v → IsInt id

theorem Listed.lists (listed : Listed id l row) : Lists l row := by
  obtain ⟨ts, scores, ks, graded, names⟩ := listed.graded
  obtain ⟨ordered, table⟩ := graded.ordered
  exact ⟨⟨ts, ordered⟩, fun m v => by rw [table, names], listed.ints⟩

theorem Lists.find (lists : Lists l row) (id : Int) :
    l.memberScores.find (decimalInt id) = row id := by
  ext v
  rw [lists.members]
  constructor
  · rintro ⟨id', same, held⟩
    rw [decimalInt_injective same]
    exact held
  · intro held
    exact ⟨id, rfl, held⟩

/-- The ids that a query reads out of a list: those of the row with a value between the bounds,
by value. -/
theorem Lists.range (lists : Lists l row) (minVal maxVal : D) :
    ∃ results ids, l.rangeByScore minVal maxVal = some results ∧
      results.mapM (fun r => Outcome.ofExcept (readNumber .stoi (stoi r.2))) =
        Outcome.returned ids ∧
      ids.Nodup ∧ (∀ id, id ∈ ids ↔ ∃ v, row id = some v ∧ minVal ≤ v ∧ v ≤ maxVal) ∧
      ids.Pairwise fun a b => ∀ v w, row a = some v → row b = some w → v ≤ w := by
  obtain ⟨ts, ordered⟩ := lists.ordered
  have holds : ∀ x ∈ ranked ts, ∃ id, (ofLex x).2 = decimalInt id ∧ row id = some (ofLex x).1 := by
    intro x mem
    exact (lists.members _ _).mp ((ordered.scores (ofLex x).2 (ofLex x).1).mpr mem)
  let within : List (D ×ₗ Bytes) :=
    (ranked ts).filter fun x => minVal ≤ (ofLex x).1 ∧ (ofLex x).1 ≤ maxVal
  let read : D ×ₗ Bytes → Int := fun x => (scanInt (ofLex x).2).getD 0
  have inside : ∀ x ∈ within, x ∈ ranked ts := fun x mem => (List.mem_filter.mp mem).1
  have reads : ∀ x ∈ ranked ts, (ofLex x).2 = decimalInt (read x) ∧
      row (read x) = some (ofLex x).1 := by
    intro x mem
    obtain ⟨id, member, held⟩ := holds x mem
    have here : read x = id := by
      simp only [read, member, scanInt_decimalInt, Option.getD_some]
    rw [here]
    exact ⟨member, held⟩
  have ascending : within.Pairwise fun x y => x < y := List.Pairwise.filter _ ordered.ascending
  refine ⟨within.map ofLex, within.map read, ordered.rangeByScore minVal maxVal, ?_, ?_, ?_, ?_⟩
  · have same : within.map read = (within.map ofLex).map fun r => (scanInt r.2).getD 0 := by
      rw [List.map_map]
      rfl
    rw [same]
    apply mapM_stoi
    intro r mem
    obtain ⟨x, memX, rfl⟩ := List.mem_map.mp mem
    obtain ⟨member, held⟩ := reads x (inside x memX)
    exact ⟨read x, lists.ints _ _ held, member⟩
  · refine List.Nodup.map_on ?_ (ordered.ascending.nodup.filter _)
    intro x memX y memY same
    obtain ⟨memberX, heldX⟩ := reads x (inside x memX)
    obtain ⟨memberY, heldY⟩ := reads y (inside y memY)
    rw [same] at memberX heldX
    have scores : (ofLex x).1 = (ofLex y).1 := Option.some.inj (heldX.symm.trans heldY)
    exact ofLex.injective (Prod.ext scores (memberX.trans memberY.symm))
  · intro id
    rw [List.mem_map]
    constructor
    · rintro ⟨x, memX, rfl⟩
      obtain ⟨-, held⟩ := reads x (inside x memX)
      exact ⟨(ofLex x).1, held, of_decide_eq_true (List.mem_filter.mp memX).2⟩
    · rintro ⟨v, held, bounds⟩
      have mem : toLex (v, decimalInt id) ∈ ranked ts := by
        rw [← ordered.scores, lists.find, held]
      refine ⟨toLex (v, decimalInt id), List.mem_filter.mpr ⟨mem, decide_eq_true bounds⟩, ?_⟩
      simp [read, scanInt_decimalInt]
  · rw [List.pairwise_map]
    refine List.Pairwise.imp_of_mem ?_ ascending
    intro x y memX memY less v w heldV heldW
    rw [(reads x (inside x memX)).2, Option.some.injEq] at heldV
    rw [(reads y (inside y memY)).2, Option.some.injEq] at heldW
    subst heldV heldW
    rcases Prod.Lex.lt_iff.mp less with smaller | ⟨equal, -⟩
    · exact smaller.le
    · exact equal.le

/-- The index holds the register `r`, and for each id at least what stands under it. -/
structure Holds (p : PropertyIndex D) (r : Bytes → Int → Option D) : Prop where
  lists : ∀ key, Lists (listOf p.indices key) (r key)
  entries : ∀ key id v, r key id = some v → (key, v) ∈ (p.nodeEntries.find id).getD []

omit [LinearOrder D] [Inhabited D] in
theorem Call.scored_id (c : Call D) : c.scored id = c := by
  cases c <;> rfl

theorem holds_run {calls : List (Call D)} (isInt : ∀ c ∈ calls, IsInt c.nodeId) :
    ∃ p, run calls empty = some p ∧ Holds p (register (keyMarks calls)) := by
  obtain ⟨p, ran, held⟩ := held_empty.run faithful_id calls isInt
  rw [List.map_congr_left fun c _ => c.scored_id, List.map_id'] at ran
  refine ⟨p, ran, fun key => (held.lists key).lists, ?_⟩
  intro key i v stands
  obtain ⟨es, stored, mem⟩ := held.entries i
  rw [stored]
  exact List.mem_map.mpr ⟨(key, v), mem key v stands, rfl⟩

/-- What a query returns for a row. -/
def Answers (row : Int → D → Prop) (minVal maxVal : D) (ids : List Int) : Prop :=
  ids.Nodup ∧ (∀ id, id ∈ ids ↔ ∃ v, row id v ∧ minVal ≤ v ∧ v ≤ maxVal) ∧
    ids.Pairwise fun a b => ∀ v w, row a v → row b w → v ≤ w

theorem Holds.range (holds : Holds p r) (label prop : Bytes) (minVal maxVal : D) :
    ∃ ids, p.range label prop minVal maxVal = Outcome.returned ids ∧
      Answers (fun id v => r (makeKey label prop) id = some v) minVal maxVal ids := by
  obtain ⟨results, ids, found, read, distinct, mem, sorted⟩ :=
    (holds.lists (makeKey label prop)).range minVal maxVal
  refine ⟨ids, ?_, distinct, mem, sorted⟩
  rw [range_eq, found]
  exact read

/-- Of the queries behind a sequence of calls each answers with the ids whose last value for its
label and its property still stands and is between the bounds, once each and by value; and adding
to another pair of a label and a property changes no answer. -/
structure Separates (calls : List (Call D)) : Prop where
  answers : ∀ before after, calls = before ++ after → ∃ p, run before empty = some p ∧
    ∀ label prop minVal maxVal, ∃ ids, p.range label prop minVal maxVal = Outcome.returned ids ∧
      Answers (Stands (before.map Call.mark) (label, prop)) minVal maxVal ids
  apart : ∀ before label prop value nodeId coins after p p',
    calls = before ++ .add label prop value nodeId coins :: after →
    run before empty = some p → p.add label prop value nodeId coins = some p' →
    ∀ label' prop', (label', prop') ≠ (label, prop) → ∀ minVal maxVal,
      p'.range label' prop' minVal maxVal = p.range label' prop' minVal maxVal

/-- The strings of an added entry do not contain the separator of the keys. -/
def Call.Plain : Call D → Prop
  | .add label prop _ _ _ => PropertyIndex.Plain label ∧ PropertyIndex.Plain prop
  | _ => True

omit [LinearOrder D] [Inhabited D] in
theorem plain_of_put {calls : List (Call D)} (plain : ∀ c ∈ calls, c.Plain) {k : Bytes × Bytes}
    {id : Int} {v : D} (mem : .put k id v ∈ calls.map Call.mark) :
    PropertyIndex.Plain k.1 ∧ PropertyIndex.Plain k.2 := by
  obtain ⟨c, memC, same⟩ := List.mem_map.mp mem
  have clean := plain c memC
  cases c with
  | add label prop value nodeId coins =>
    obtain ⟨rfl, -, -⟩ := Mark.put.inj same
    exact clean
  | remove label prop value nodeId => cases same
  | removeNode label nodeId => cases same

omit [Inhabited D] in
/-- The row of a key is that of the pair, if no string contains the separator. -/
theorem register_keyMarks {calls : List (Call D)} (plain : ∀ c ∈ calls, c.Plain)
    (label prop : Bytes) :
    register (keyMarks calls) (makeKey label prop) =
      register (calls.map Call.mark) (label, prop) := by
  by_cases clean : PropertyIndex.Plain label ∧ PropertyIndex.Plain prop
  · apply register_rename (f := keyOf) (k := (label, prop))
    intro m _ k' _ same
    obtain ⟨one, two⟩ := makeKey_inj clean.1 clean.2 same
    exact Prod.ext one two
  · -- such a pair shares its key with other pairs, but nothing was added under that key
    funext id
    rw [register_eq_none, register_eq_none]
    · intro id v mem
      exact clean (plain_of_put plain mem)
    · intro id v mem
      obtain ⟨m, memM, same⟩ := List.mem_map.mp mem
      cases m with
      | put k id' v' =>
        obtain ⟨key, -, -⟩ := Mark.put.inj same
        obtain ⟨one, two⟩ := plain_of_put plain memM
        obtain ⟨rfl, rfl⟩ := makeKey_inj one two key.symm
        exact clean ⟨one, two⟩
      | drop k id' v' => cases same
      | clear id' => cases same

theorem add_frame {label prop : Bytes} {value : D} {id : Int} {coins : List Bool}
    {p' : PropertyIndex D} (added : p.add label prop value id coins = some p') {key : Bytes}
    (other : key ≠ makeKey label prop) : listOf p'.indices key = listOf p.indices key := by
  obtain ⟨l, -, rest⟩ := Option.bind_eq_some_iff.mp added
  obtain rfl := Option.some.inj rest
  rw [listOf_set, if_neg other]

/-- Under a key of two pairs, what is added to the one is found under the other. -/
theorem Separates.plain {calls : List (Call D)} (separates : Separates calls)
    (isInt : ∀ c ∈ calls, IsInt c.nodeId) (before after : List (Call D))
    (cut : calls = before ++ after) : ∀ c ∈ before, c.Plain := by
  induction before using List.reverseRecOn generalizing after with
  | nil => simp
  | append_singleton before c ih =>
    have plain : ∀ c ∈ before, c.Plain := ih (c :: after) (by simp [cut])
    suffices last : c.Plain by
      intro c' mem
      rcases List.mem_append.mp mem with earlier | here
      · exact plain c' earlier
      · rw [List.mem_singleton.mp here]
        exact last
    cases c with
    | remove label prop value nodeId => trivial
    | removeNode label nodeId => trivial
    | add label prop value nodeId coins =>
      by_contra mixed
      obtain ⟨label', prop', key, other⟩ := exists_other_pair mixed
      obtain ⟨p, ran, holds⟩ := holds_run fun c mem => isInt c (by
        rw [cut]
        exact List.mem_append_left after mem)
      obtain ⟨p', ran', answers⟩ := separates.answers _ after cut
      obtain rfl : p = p' := Option.some.inj (ran.symm.trans ran')
      obtain ⟨ids, found, -, mem, -⟩ := answers label' prop' value value
      obtain ⟨ids', found', -, mem', -⟩ := holds.range label' prop' value value
      obtain rfl : ids = ids' := Outcome.returned_inj.mp (found.symm.trans found')
      have stored : register (keyMarks (before ++ [.add label prop value nodeId coins]))
          (makeKey label' prop') nodeId = some value := by
        rw [keyMarks, List.map_append, List.map_append, register_eq_some, key]
        exact ⟨_, [], rfl, by simp⟩
      obtain ⟨v, ⟨first, rest, marks, -⟩, -⟩ :=
        (mem nodeId).mp ((mem' nodeId).mpr ⟨value, stored, le_rfl, le_rfl⟩)
      have put : Mark.put (label', prop') nodeId v ∈
          (before ++ [Call.add label prop value nodeId coins]).map Call.mark := by
        rw [marks]
        simp
      rw [List.map_append, List.mem_append] at put
      rcases put with earlier | here
      · obtain ⟨one, two⟩ := plain_of_put plain earlier
        obtain ⟨rfl, rfl⟩ := makeKey_inj one two key.symm
        exact other rfl
      · rw [List.map_singleton, List.mem_singleton] at here
        exact other (Mark.put.inj here).1

/-- The index separates the pairs of labels and properties in every run in which no added entry
has the separator of the keys in its label or its property, and in no other run. -/
theorem separates_iff (calls : List (Call D)) (isInt : ∀ c ∈ calls, IsInt c.nodeId) :
    Separates calls ↔ ∀ c ∈ calls, c.Plain := by
  constructor
  · intro separates c mem
    obtain ⟨before, after, rfl⟩ := List.append_of_mem mem
    exact separates.plain isInt (before ++ [c]) after (by simp) c (by simp)
  · intro plain
    constructor
    · rintro before after rfl
      obtain ⟨p, ran, holds⟩ := holds_run fun c mem => isInt c (List.mem_append_left after mem)
      refine ⟨p, ran, ?_⟩
      intro label prop minVal maxVal
      obtain ⟨ids, found, answers⟩ := holds.range label prop minVal maxVal
      refine ⟨ids, found, ?_⟩
      simpa only [register_keyMarks fun c mem => plain c (List.mem_append_left after mem),
        register_eq_some] using answers
    · rintro before label prop value nodeId coins after p p' rfl ran added label' prop' other minVal
        maxVal
      have clean : PropertyIndex.Plain label ∧ PropertyIndex.Plain prop :=
        plain (.add label prop value nodeId coins) (by simp)
      have keys : makeKey label' prop' ≠ makeKey label prop := by
        intro same
        obtain ⟨rfl, rfl⟩ := makeKey_inj clean.1 clean.2 same
        exact other rfl
      rw [range_eq, range_eq, add_frame added keys]

end

/-- Two nodes under one label and one property, of which one is removed. -/
theorem separates_iff_ages :
    Separates [.add (str "Person") (str "age") (30 : Int) 7 [], .add (str "Person") (str "age") 25 8
      [true], .removeNode (str "Person") 7] :=
  (separates_iff _ (by simp [Call.nodeId, IsInt])).mpr
    (by simp [Call.Plain, PropertyIndex.Plain, str, charByte])

/-- What is added under `a.b` and `c` is found under `a` and `b.c`. -/
theorem keys_collide : ¬ Separates [.add (str "a.b") (str "c") (1 : Int) 7 []] := by
  intro separates
  obtain ⟨p, ran, answers⟩ := separates.answers _ [] (List.append_nil _).symm
  obtain ⟨ids, found, -, mem, -⟩ := answers (str "a") (str "b.c") 0 2
  have stored : ∃ p₁, run [.add (str "a.b") (str "c") (1 : Int) 7 []] empty = some p₁ ∧
      p₁.range (str "a") (str "b.c") 0 2 = Outcome.returned [7] := ⟨_, rfl, rfl⟩
  obtain ⟨p₁, ran₁, found₁⟩ := stored
  obtain rfl : p = p₁ := Option.some.inj (ran.symm.trans ran₁)
  obtain rfl : ids = [7] := Outcome.returned_inj.mp (found.symm.trans found₁)
  obtain ⟨v, ⟨before, after, cut, -⟩, -⟩ := (mem 7).mp (by simp)
  have put : Mark.put (str "a", str "b.c") 7 v ∈
      [Call.add (str "a.b") (str "c") (1 : Int) 7 []].map Call.mark := by
    rw [cut]
    simp
  obtain ⟨pairs, -, -⟩ := Mark.put.inj (List.mem_singleton.mp put)
  revert pairs
  decide

end FastGraph.PropertyIndex
