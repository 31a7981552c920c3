import FastGraph.Index.Proofs.PropertyIndex

/-!
# Skip lists whatever their scores

What holds of a list also for comparisons that are no order: its calls return, its members keep
to their names, and a member that has a score has an element. The lists of a property index
hold numerals under such comparisons too.
-/

namespace FastGraph.SkipList
open Tower

variable {S : Type} [Inhabited S] [BEq S] [LT S] [DecidableLT S] {names : Bytes → Prop}
  {l l' : SkipList S} {ts ts' pre post : List (Tower (Item S))} {t : Tower (Item S)} {score : S}
  {m : Bytes} {coins : List Bool}

/-- The list is well-shaped, its members have names in `names`, and those that have a score have
an element. -/
structure Stocked (names : Bytes → Prop) (l : SkipList S) (ts : List (Tower (Item S))) : Prop where
  shape : Shape l ts
  named : ∀ t ∈ ts, names t.item.2
  scored : ∀ m s, l.scoreOf m = some s → ∃ t ∈ ts, t.item.2 = m

omit [BEq S] [LT S] [DecidableLT S] in
theorem stocked_empty : Stocked names (SkipList.empty : SkipList S) [] :=
  ⟨shape_empty, by simp, by simp [scoreOf, SkipList.empty]⟩

/-- The tower that `remove` takes out is one of the member whose score it takes out. -/
theorem Removed.stocked {done : Bool} (removed : Removed l ts score m l' ts' done)
    (stocked : Stocked names l ts) (shape : Shape l' ts') : Stocked names l' ts' := by
  cases removed with
  | absent split cut missing same same' =>
    subst same same'
    exact stocked
  | @present pre t post split cut here result scores =>
    subst split result
    refine ⟨shape, ?_, ?_⟩
    · intro u mem
      apply stocked.named
      rcases List.mem_append.mp mem with before | after
      · simp [before]
      · simp [after]
    · intro m' s found
      rw [scoreOf, scores, UnorderedMap.find_erase] at found
      split at found
      · cases found
      · rename_i other
        obtain ⟨u, mem, own⟩ := stocked.scored m' s found
        have apart : u ≠ t := by
          intro same
          rw [same] at own
          simp only [isAtItem, Bool.and_eq_true, beq_iff_eq] at here
          exact other (own.symm.trans here.1)
        refine ⟨u, ?_, own⟩
        simpa [apart] using mem

omit [BEq S] [LT S] [DecidableLT S] in
/-- A new element has the name and the score of its member. -/
theorem Stocked.added (stocked : Stocked names l (pre ++ post)) (shape : Shape l' (pre ++ t :: post))
    (item : t.item = (score, m)) (name : names m)
    (scores : l'.memberScores = l.memberScores.set m score) :
    Stocked names l' (pre ++ t :: post) := by
  refine ⟨shape, ?_, ?_⟩
  · intro u mem
    rw [List.mem_append, List.mem_cons] at mem
    rcases mem with before | same | after
    · exact stocked.named u (by simp [before])
    · rw [same, item]
      exact name
    · exact stocked.named u (by simp [after])
  · intro m' s found
    rw [scoreOf, scores, UnorderedMap.find_set] at found
    split at found
    · rename_i own
      exact ⟨t, by simp, by rw [item, own]⟩
    · obtain ⟨u, mem, own⟩ := stocked.scored m' s found
      refine ⟨u, ?_, own⟩
      rw [List.mem_append] at mem
      rcases mem with before | after
      · simp [before]
      · simp [after]

theorem Inserted.stocked (inserted : Inserted l ts coins score m l' ts')
    (stocked : Stocked names l ts) (name : names m) (shape : Shape l' ts') : Stocked names l' ts' := by
  cases inserted with
  | present split cut here same same' =>
    subst same same'
    exact stocked
  | fresh split cut absent unscored item result scores =>
    subst split result
    exact stocked.added shape item name scores
  | moved split cut₀ absent scored differs removed shape₁ cut item result scores =>
    subst result
    exact (removed.stocked stocked shape₁).added shape item name scores

theorem Stocked.insert (stocked : Stocked names l ts) (coins : List Bool) (score : S)
    (name : names m) :
    ∃ l' ts', l.insert coins score m = some l' ∧ Stocked names l' ts' := by
  obtain ⟨l', ts', step, shape, inserted⟩ := stocked.shape.insert coins score m
  exact ⟨l', ts', step, inserted.stocked stocked name shape⟩

theorem Stocked.remove (stocked : Stocked names l ts) (score : S) (m : Bytes) :
    ∃ l' ts' done, l.remove score m = some (l', done) ∧ Stocked names l' ts' := by
  obtain ⟨l', ts', done, step, shape, removed⟩ := stocked.shape.remove score m
  exact ⟨l', ts', done, step, removed.stocked stocked shape⟩

omit [BEq S] [LT S] [DecidableLT S] in
/-- A list of no elements has no towers. -/
theorem Stocked.eq_nil (stocked : Stocked names l ts) (none : l.size = 0) : ts = [] :=
  List.eq_nil_of_length_eq_zero (stocked.shape.size.symm.trans none)

omit [BEq S] in
/-- A query returns members with names in `names`. -/
theorem Stocked.rangeByScore [LE S] [DecidableLE S] (stocked : Stocked names l ts)
    (minScore maxScore : S) :
    ∃ results, l.rangeByScore minScore maxScore = some results ∧ ∀ x ∈ results, names x.2 := by
  obtain ⟨pre, post, rfl, -, -, -, -, run⟩ := stocked.shape.rangeByScore minScore maxScore
  refine ⟨_, run, ?_⟩
  intro x mem
  obtain ⟨t, memT, rfl⟩ := List.mem_map.mp (List.takeWhile_subset _ mem)
  exact stocked.named t (List.mem_append_right pre memT)

end FastGraph.SkipList

namespace FastGraph.PropertyIndex
open SkipList

variable {D : Type} [Inhabited D] [BEq D] [LT D] [DecidableLT D] {p : PropertyIndex D}
  {indices : UnorderedMap Bytes (SkipList D)} {key : Bytes}

/-- The lists hold numerals. -/
def Numbered (indices : UnorderedMap Bytes (SkipList D)) : Prop :=
  ∀ key, ∃ ts, Stocked IsName (listOf indices key) ts

omit [BEq D] [LT D] [DecidableLT D] in
theorem numbered_empty : Numbered (∅ : UnorderedMap Bytes (SkipList D)) :=
  fun _ => ⟨[], stocked_empty⟩

omit [BEq D] [LT D] [DecidableLT D] in
theorem Numbered.set (numbered : Numbered indices) {l : SkipList D} {ts : List (Tower (SkipList.Item D))}
    (stocked : Stocked IsName l ts) (key : Bytes) : Numbered (indices.set key l) := by
  intro key'
  rw [listOf_set]
  split
  · exact ⟨ts, stocked⟩
  · exact numbered key'

theorem Numbered.add (numbered : Numbered p.indices) (label prop : Bytes) (value : D) {id : Int}
    (isInt : IsInt id) (coins : List Bool) :
    ∃ p', p.add label prop value id coins = some p' ∧ Numbered p'.indices := by
  obtain ⟨ts, stocked⟩ := numbered (makeKey label prop)
  obtain ⟨l, ts', step, stocked'⟩ := stocked.insert coins value (m := decimalInt id) ⟨id, isInt, rfl⟩
  exact ⟨_, by rw [PropertyIndex.add, ← listOf, step]; rfl, numbered.set stocked' _⟩

theorem Numbered.removeEntry (numbered : Numbered indices) (id : Int) (entry : Bytes × D) :
    ∃ indices', removeEntry id indices entry = some indices' ∧ Numbered indices' := by
  unfold PropertyIndex.removeEntry
  cases found : indices.find entry.1 with
  | none => exact ⟨indices, rfl, numbered⟩
  | some l =>
    obtain ⟨ts, stocked⟩ := numbered entry.1
    rw [listOf, found, Option.getD_some] at stocked
    obtain ⟨l', ts', done, step, stocked'⟩ := stocked.remove entry.2 (decimalInt id)
    exact ⟨indices.set entry.1 l', by simp [step], numbered.set stocked' _⟩

theorem Numbered.foldlM_removeEntry (numbered : Numbered indices) (id : Int)
    (entries : List (Bytes × D)) :
    ∃ indices', entries.foldlM (PropertyIndex.removeEntry id) indices = some indices' ∧
      Numbered indices' := by
  induction entries generalizing indices with
  | nil => exact ⟨indices, rfl, numbered⟩
  | cons entry entries ih =>
    obtain ⟨indices₁, step, numbered₁⟩ := numbered.removeEntry id entry
    obtain ⟨indices', rest, numbered'⟩ := ih numbered₁
    exact ⟨indices', by rw [List.foldlM_cons, step]; exact rest, numbered'⟩

theorem Numbered.removeNode (numbered : Numbered p.indices) (id : Int) :
    ∃ p', p.removeNode id = some p' ∧ Numbered p'.indices := by
  unfold PropertyIndex.removeNode
  cases p.nodeEntries.find id with
  | none => exact ⟨p, rfl, numbered⟩
  | some entries =>
    obtain ⟨indices, run, numbered'⟩ := numbered.foldlM_removeEntry id entries
    exact ⟨_, by simp only [run]; rfl, numbered'⟩

omit [BEq D] in
/-- A query reads numerals only, and returns. -/
theorem Numbered.range [LE D] [DecidableLE D] (numbered : Numbered p.indices) (label prop : Bytes)
    (minVal maxVal : D) : ∃ ids, p.range label prop minVal maxVal = Outcome.returned ids := by
  obtain ⟨ts, stocked⟩ := numbered (makeKey label prop)
  obtain ⟨results, run, named⟩ := stocked.rangeByScore minVal maxVal
  exact ⟨_, by rw [range_eq, run]; exact mapM_stoi named⟩

end FastGraph.PropertyIndex
