import FastGraph.Index.Proofs.Exposure
import FastGraph.Index.Proofs.PropertyIndex

/-!
# What removing a node takes out of the index

For values of any kind, NaNs included: what an index can return of a node is in its list of
entries, so that nothing is returned of it any more once it has been removed.
-/

namespace FastGraph.PropertyIndex
open SkipList WithNan

section
variable {E : Type} [LinearOrder E]

/-- The places in the list of a key that are live. -/
def liveAt (live : Bytes → Int → E → Prop) (key : Bytes) (k : E ×ₗ Bytes) : Prop :=
  ∃ id, (ofLex k).2 = decimalInt id ∧ live key id (ofLex k).1

/-- Only elements in `live` are exposed in the lists, and each of them is an entry of its node,
under the key of a label and a property. -/
structure Tracks (p : PropertyIndex (WithNan E)) (live : Bytes → Int → E → Prop) : Prop where
  lists : ∀ key, ∃ ts, Watched IsName (liveAt live key) (listOf p.indices key) ts
  entries : ∀ key id s, live key id s → (key, num s) ∈ (p.nodeEntries.find id).getD []
  keys : ∀ key id s, live key id s → ∃ label prop, key = makeKey label prop

variable {p : PropertyIndex (WithNan E)} {live live' : Bytes → Int → E → Prop}
  {indices : UnorderedMap Bytes (SkipList (WithNan E))}

theorem tracks_empty : Tracks (empty : PropertyIndex (WithNan E)) fun _ _ _ => False :=
  ⟨fun _ => ⟨[], watched_empty⟩, fun _ _ _ held => held.elim, fun _ _ _ held => held.elim⟩

theorem Tracks.add (tracks : Tracks p live) (label prop : Bytes) (value : WithNan E) {id : Int}
    (isInt : IsInt id) (coins : List Bool) :
    ∃ p', p.add label prop value id coins = some p' ∧ Tracks p' fun key i s =>
      live key i s ∨ (key = makeKey label prop ∧ i = id ∧ value = num s) := by
  obtain ⟨ts, watched⟩ := tracks.lists (makeKey label prop)
  obtain ⟨l, ts', step, shape, inserted⟩ := watched.shape.insert coins value (decimalInt id)
  have watched' := inserted.watched watched ⟨id, isInt, rfl⟩ shape
  refine ⟨_, by rw [PropertyIndex.add, ← listOf, step]; rfl, ?_, ?_, ?_⟩
  · intro key
    rw [listOf_set]
    by_cases own : key = makeKey label prop
    · subst own
      rw [if_pos rfl]
      refine ⟨ts', watched'.mono ?_⟩
      rintro k (⟨i, name, held⟩ | ⟨same, name⟩)
      · exact ⟨i, name, Or.inl held⟩
      · exact ⟨id, name.symm, Or.inr ⟨rfl, rfl, same⟩⟩
    · rw [if_neg own]
      obtain ⟨ts, watched⟩ := tracks.lists key
      refine ⟨ts, watched.mono ?_⟩
      rintro k ⟨i, name, held⟩
      exact ⟨i, name, Or.inl held⟩
  · intro key i s held
    rw [UnorderedMap.find_set]
    rcases held with old | ⟨rfl, rfl, rfl⟩
    · have stored := tracks.entries key i s old
      split
      · rename_i own
        subst own
        simp [stored]
      · exact stored
    · simp
  · intro key i s held
    rcases held with old | ⟨rfl, -, -⟩
    · exact tracks.keys key i s old
    · exact ⟨label, prop, rfl⟩

/-- One search of `remove_node` takes what is exposed of one entry out of the list of its key. -/
theorem removeEntry_watched
    (lists : ∀ key, ∃ ts, Watched IsName (liveAt live key) (listOf indices key) ts) (id : Int)
    (entry : Bytes × WithNan E) :
    ∃ indices', removeEntry id indices entry = some indices' ∧
      ∀ key, ∃ ts, Watched IsName
        (liveAt (fun key i s => live key i s ∧ ¬ (i = id ∧ (key, num s) = entry)) key)
        (listOf indices' key) ts := by
  have elsewhere (key : Bytes) (other : key ≠ entry.1) (k : E ×ₗ Bytes)
      (held : liveAt live key k) :
      liveAt (fun key i s => live key i s ∧ ¬ (i = id ∧ (key, num s) = entry)) key k := by
    obtain ⟨i, name, was⟩ := held
    exact ⟨i, name, was, fun same => other (by rw [← same.2])⟩
  unfold removeEntry
  cases found : indices.find entry.1 with
  | none =>
    refine ⟨indices, rfl, ?_⟩
    intro key
    by_cases own : key = entry.1
    · subst own
      rw [listOf, found]
      exact ⟨[], watched_empty⟩
    · obtain ⟨ts, watched⟩ := lists key
      exact ⟨ts, watched.mono (elsewhere key own)⟩
  | some l =>
    obtain ⟨ts, watched⟩ := lists entry.1
    rw [listOf, found, Option.getD_some] at watched
    obtain ⟨l', ts', done, step, shape, removed⟩ := watched.shape.remove entry.2 (decimalInt id)
    refine ⟨indices.set entry.1 l', by simp [step], ?_⟩
    intro key
    rw [listOf_set]
    by_cases own : key = entry.1
    · subst own
      rw [if_pos rfl]
      refine ⟨ts', (removed.watched watched shape).mono ?_⟩
      rintro k (⟨⟨i, name, was⟩, other⟩ | ⟨⟨i, name, was⟩, other⟩)
      · exact ⟨i, name, was, fun same => other (by rw [← same.2])⟩
      · exact ⟨i, name, was, fun same => other (by rw [name, same.1])⟩
    · rw [if_neg own]
      obtain ⟨ts, watched⟩ := lists key
      exact ⟨ts, watched.mono (elsewhere key own)⟩

theorem foldlM_removeEntry_watched
    (lists : ∀ key, ∃ ts, Watched IsName (liveAt live key) (listOf indices key) ts) (id : Int)
    (entries : List (Bytes × WithNan E)) :
    ∃ indices', entries.foldlM (removeEntry id) indices = some indices' ∧
      ∀ key, ∃ ts, Watched IsName
        (liveAt (fun key i s => live key i s ∧ ¬ (i = id ∧ (key, num s) ∈ entries)) key)
        (listOf indices' key) ts := by
  induction entries generalizing indices live with
  | nil =>
    refine ⟨indices, rfl, ?_⟩
    intro key
    obtain ⟨ts, watched⟩ := lists key
    exact ⟨ts, watched.mono fun k ⟨i, name, was⟩ => ⟨i, name, was, by simp⟩⟩
  | cons entry entries ih =>
    obtain ⟨indices₁, step, lists₁⟩ := removeEntry_watched lists id entry
    obtain ⟨indices', rest, lists'⟩ := ih lists₁
    refine ⟨indices', by rw [List.foldlM_cons, step]; exact rest, ?_⟩
    intro key
    obtain ⟨ts, watched⟩ := lists' key
    refine ⟨ts, watched.mono ?_⟩
    rintro k ⟨i, name, ⟨was, first⟩, later⟩
    refine ⟨i, name, was, ?_⟩
    rintro ⟨own, mem⟩
    rcases List.mem_cons.mp mem with here | mem
    · exact first ⟨own, here⟩
    · exact later ⟨own, mem⟩

/-- Nothing of a node is exposed once it has been removed. -/
theorem Tracks.removeNode (tracks : Tracks p live) (id : Int) :
    ∃ p', p.removeNode id = some p' ∧ Tracks p' fun key i s => live key i s ∧ i ≠ id := by
  unfold PropertyIndex.removeNode
  cases found : p.nodeEntries.find id with
  | none =>
    have gone (key : Bytes) (i : Int) (s : E) (was : live key i s) : i ≠ id := by
      rintro rfl
      have stored := tracks.entries key i s was
      rw [found] at stored
      cases stored
    refine ⟨p, rfl, ?_, fun key i s was => tracks.entries key i s was.1,
      fun key i s was => tracks.keys key i s was.1⟩
    intro key
    obtain ⟨ts, watched⟩ := tracks.lists key
    exact ⟨ts, watched.mono fun k ⟨i, name, was⟩ => ⟨i, name, was, gone key i _ was⟩⟩
  | some entries =>
    obtain ⟨indices, run, lists⟩ := foldlM_removeEntry_watched tracks.lists id entries
    refine ⟨_, by simp only [run]; rfl, ?_, ?_, fun key i s was => tracks.keys key i s was.1⟩
    · intro key
      obtain ⟨ts, watched⟩ := lists key
      refine ⟨ts, watched.mono ?_⟩
      rintro k ⟨i, name, was, apart⟩
      refine ⟨i, name, was, ?_⟩
      rintro rfl
      have stored := tracks.entries key i _ was
      rw [found] at stored
      exact apart ⟨rfl, stored⟩
    · intro key i s was
      rw [UnorderedMap.find_erase, if_neg was.2]
      exact tracks.entries key i s was.1

/-- A query returns live ids only. -/
theorem Tracks.range (tracks : Tracks p live) (label prop : Bytes) (minVal maxVal : WithNan E) :
    ∃ ids, p.range label prop minVal maxVal = Outcome.returned ids ∧
      ∀ id ∈ ids, ∃ s, live (makeKey label prop) id s := by
  obtain ⟨ts, watched⟩ := tracks.lists (makeKey label prop)
  obtain ⟨results, run, exposed⟩ := watched.rangeByScore minVal maxVal
  refine ⟨results.map fun r => (scanInt r.2).getD 0, ?_, ?_⟩
  · rw [range_eq, run]
    exact mapM_stoi fun r mem => (exposed r mem).1
  · intro id mem
    obtain ⟨r, memR, rfl⟩ := List.mem_map.mp mem
    obtain ⟨-, k, rfl, i, name, was⟩ := exposed r memR
    refine ⟨(ofLex k).1, ?_⟩
    rw [name, scanInt_decimalInt]
    exact was

/-- The index returns the node from some query. -/
def Returns (p : PropertyIndex (WithNan E)) (id : Int) : Prop :=
  ∃ label prop minVal maxVal ids,
    p.range label prop minVal maxVal = Outcome.returned ids ∧ id ∈ ids

theorem Tracks.not_returns (tracks : Tracks p live) {id : Int} (gone : ∀ key s, ¬ live key id s) :
    ¬ Returns p id := by
  rintro ⟨label, prop, minVal, maxVal, ids, found, mem⟩
  obtain ⟨ids', found', all⟩ := tracks.range label prop minVal maxVal
  obtain rfl := Outcome.returned_inj.mp (found.symm.trans found')
  obtain ⟨s, was⟩ := all id mem
  exact gone _ s was

/-- A node that no query returns is not live. -/
theorem Tracks.hide (tracks : Tracks p live) {id : Int} (never : ¬ Returns p id) :
    Tracks p fun key i s => live key i s ∧ i ≠ id := by
  refine ⟨?_, fun key i s was => tracks.entries key i s was.1,
    fun key i s was => tracks.keys key i s was.1⟩
  intro key
  obtain ⟨ts, watched⟩ := tracks.lists key
  refine ⟨ts, watched.shape, watched.named, watched.guarded, ?_⟩
  intro k exposed
  obtain ⟨i, name, was⟩ := watched.exposed k exposed
  refine ⟨i, name, was, ?_⟩
  rintro rfl
  obtain ⟨label, prop, rfl⟩ := tracks.keys key i _ was
  obtain ⟨results, run, mem⟩ := watched.found exposed
  obtain ⟨results', run', all⟩ := watched.rangeByScore (num (ofLex k).1) (num (ofLex k).1)
  obtain rfl := Option.some.inj (run.symm.trans run')
  refine never ⟨label, prop, num (ofLex k).1, num (ofLex k).1,
    results.map fun r => (scanInt r.2).getD 0, ?_, ?_⟩
  · rw [range_eq, run]
    exact mapM_stoi fun r memR => (all r memR).1
  · refine List.mem_map.mpr ⟨_, mem, ?_⟩
    rw [name, scanInt_decimalInt]
    rfl

end

end FastGraph.PropertyIndex
