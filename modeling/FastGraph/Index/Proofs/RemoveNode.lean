import FastGraph.Index.Proofs.Exposure
import FastGraph.Index.Proofs.PropertyIndex

/-!
# Removing a node from the index

For values that are numbers, and queries with any bounds: behind the removal of a node every query
answers as before it, but for that node, which no query returns until it is added again.
-/

namespace FastGraph.PropertyIndex
open SkipList WithNan Ranking Mark

/-- A query of the index. -/
inductive Query (D : Type) where
  | range (label prop : Bytes) (minVal maxVal : D)
  | exact (label prop : Bytes) (value : D)

/-- What the index answers. -/
def ask {D : Type} [Inhabited D] [LT D] [DecidableLT D] [LE D] [DecidableLE D]
    (p : PropertyIndex D) : Query D → Outcome StdException (List Int)
  | .range label prop minVal maxVal => p.range label prop minVal maxVal
  | .exact label prop value => p.exact label prop value

section
variable {E : Type} [LinearOrder E] {p p' : PropertyIndex (WithNan E)}
  {r : Bytes → Int → Option E} {row : Int → Option E} {scores scores' : Bytes → Option E} {id : Int}
  {q : Query (WithNan E)}

/-- The id that is read back from a place. -/
def idAt (k : E ×ₗ Bytes) : Int := (scanInt (ofLex k).2).getD 0

omit [LinearOrder E] in
theorem Names.unique (names : Names scores row) (names' : Names scores' row) : scores = scores' := by
  funext m
  ext v
  rw [names, names']

/-- The places of a row, and the ids at them. -/
theorem Names.place {ks : List (E ×ₗ Bytes)} (names : Names scores row) (inStep : InStep scores ks)
    {k : E ×ₗ Bytes} (mem : k ∈ ks) :
    (ofLex k).2 = decimalInt (idAt k) ∧ row (idAt k) = some (ofLex k).1 := by
  obtain ⟨i, name, stands⟩ := (names _ _).mp ((inStep.entries (ofLex k).2 (ofLex k).1).mpr mem)
  have own : idAt k = i := by
    rw [idAt, name, scanInt_decimalInt, Option.getD_some]
  rw [own]
  exact ⟨name, stands⟩

/-- A query asks for the places in one list between two bounds. -/
theorem ask_eq (q : Query (WithNan E)) :
    ∃ (key : Bytes) (chosen : E ×ₗ Bytes → Bool), ∀ {p : PropertyIndex (WithNan E)}
      {r : Bytes → Int → Option E}, Held num p r → ∃ scores ks, Names scores (r key) ∧
        InStep scores ks ∧ p.ask q = Outcome.returned ((ks.filter chosen).map idAt) := by
  obtain ⟨label, prop, minVal, maxVal, asks⟩ : ∃ label prop minVal maxVal,
      ∀ p : PropertyIndex (WithNan E), p.ask q = p.range label prop minVal maxVal := by
    cases q with
    | range label prop minVal maxVal => exact ⟨label, prop, minVal, maxVal, fun _ => rfl⟩
    | exact label prop value => exact ⟨label, prop, value, value, fun _ => rfl⟩
  refine ⟨makeKey label prop, fun k =>
    ¬ num (ofLex k).1 < minVal ∧ num (ofLex k).1 ≤ maxVal, ?_⟩
  intro p r held
  have listed := held.lists (makeKey label prop)
  obtain ⟨ts, scores, ks, graded, names⟩ := listed.graded
  refine ⟨scores, ks, names, graded.inStep, ?_⟩
  have found := graded.rangeByScore minVal maxVal (fun _ _ => num_lt_of_le)
    fun _ _ => num_le_of_le
  rw [asks, range_eq, found]
  refine (mapM_stoi ?_).trans (by rw [List.map_map]; rfl)
  intro x mem
  obtain ⟨k, memK, rfl⟩ := List.mem_map.mp mem
  obtain ⟨name, stands⟩ := names.place graded.inStep (List.mem_of_mem_filter memK)
  exact ⟨idAt k, listed.ints _ _ stands, name⟩

/-- Where nothing stands under an id, no query returns it. -/
theorem Held.not_mem (held : Held num p r) (blank : ∀ key, r key id = none) (q : Query (WithNan E)) :
    ∃ ids, p.ask q = Outcome.returned ids ∧ id ∉ ids := by
  obtain ⟨key, chosen, answers⟩ := ask_eq q
  obtain ⟨scores, ks, names, inStep, asked⟩ := answers held
  refine ⟨_, asked, ?_⟩
  intro mem
  obtain ⟨k, memK, rfl⟩ := List.mem_map.mp mem
  obtain ⟨-, stands⟩ := names.place inStep (List.mem_of_mem_filter memK)
  rw [blank key] at stands
  cases stands

/-- Clearing an id takes it out of every answer, and nothing else. -/
theorem Held.ask_clear (held : Held num p r) (held' : Held num p' ((Mark.clear id).on r))
    (q : Query (WithNan E)) :
    ∃ ids, p.ask q = Outcome.returned ids ∧ p'.ask q = Outcome.returned (ids.filter (· ≠ id)) := by
  obtain ⟨key, chosen, answers⟩ := ask_eq q
  obtain ⟨scores, ks, names, inStep, asked⟩ := answers held
  obtain ⟨scores', ks', names', inStep', asked'⟩ := answers held'
  -- the tables of the two lists differ in the numeral of the id, so their places do
  have left : ks' = ks.filter fun k => (ofLex k).2 ≠ decimalInt id := by
    have cleared := inStep.filter fun m => m ≠ decimalInt id
    have same : scores' = fun m => if decide (m ≠ decimalInt id) = true then scores m else none := by
      rw [names'.unique (names.update id none)]
      funext m
      by_cases own : m = decimalInt id <;> simp [own]
    rw [same] at inStep'
    exact inStep'.eq cleared
  refine ⟨_, asked, ?_⟩
  rw [asked', left, List.filter_map, List.filter_filter, List.filter_filter]
  congr 2
  apply List.filter_congr
  intro k mem
  obtain ⟨name, -⟩ := names.place inStep mem
  have own : ((ofLex k).2 = decimalInt id) ↔ idAt k = id := by
    rw [name]
    exact decimalInt_injective.eq_iff
  simp [own, Bool.and_comm]

/-- What is not put under an id does not come to stand there. -/
theorem foldl_on_none {marks : List (Mark Bytes Int E)}
    (unput : ∀ key v, Mark.put key id v ∉ marks) (blank : ∀ key, r key id = none) (key : Bytes) :
    marks.foldl Mark.on r key id = none := by
  induction marks generalizing r with
  | nil => exact blank key
  | cons m marks ih =>
    refine ih (fun key v mem => unput key v (by simp [mem])) fun key => ?_
    rw [Option.eq_none_iff_forall_ne_some]
    intro v stands
    rcases on_eq_some.mp stands with rfl | ⟨old, -⟩
    · exact unput key v (by simp)
    · rw [blank] at old
      cases old

omit [LinearOrder E] in
theorem put_mem_keyMarks {calls : List (Call E)} {key : Bytes} {v : E}
    (mem : Mark.put key id v ∈ keyMarks calls) :
    ∃ label prop coins, Call.add label prop v id coins ∈ calls := by
  obtain ⟨m, memM, same⟩ := List.mem_map.mp mem
  obtain ⟨c, memC, rfl⟩ := List.mem_map.mp memM
  cases c with
  | add label prop value nodeId coins =>
    cases same
    exact ⟨label, prop, coins, memC⟩
  | remove label prop value nodeId => cases same
  | removeNode label nodeId => cases same

/-- In every run, removing a node takes it out of the answer to every query and changes nothing else
of any answer, and no query returns the node until it is added again. -/
theorem removeNode_forgets (before later : List (Call E)) (label : Bytes) (id : Int)
    (isInt : ∀ c ∈ before ++ later, IsInt c.nodeId)
    (unadded : ∀ label prop value coins, Call.add label prop value id coins ∉ later) :
    ∃ p p' p'', run (before.map (Call.scored num)) (empty : PropertyIndex (WithNan E)) = some p ∧
      p.call (.removeNode label id) = some p' ∧ run (later.map (Call.scored num)) p' = some p'' ∧
      (∀ q, ∃ ids, p.ask q = Outcome.returned ids ∧
        p'.ask q = Outcome.returned (ids.filter (· ≠ id))) ∧
      ∀ q, ∃ ids, p''.ask q = Outcome.returned ids ∧ id ∉ ids := by
  obtain ⟨p, ran, held⟩ := held_empty.run faithful_num before fun c mem =>
    isInt c (List.mem_append_left later mem)
  obtain ⟨p', step, held'⟩ := held.removeNode faithful_num id
  obtain ⟨p'', rest, held''⟩ := held'.run faithful_num later fun c mem =>
    isInt c (List.mem_append_right before mem)
  refine ⟨p, p', p'', ran, step, rest, held.ask_clear held', held''.not_mem ?_⟩
  have cleared (key : Bytes) : (Mark.clear id).on (register (keyMarks before)) key id = none :=
    if_pos rfl
  refine foldl_on_none ?_ cleared
  intro key v mem
  obtain ⟨label, prop, coins, mem⟩ := put_mem_keyMarks mem
  exact unadded label prop v coins mem

end

/-- A node that was indexed twice under one property, with another value the second time. -/
theorem removeNode_forgets_reindexed :
    ∃ p p' p'', run ([Call.add (str "Person") (str "age") (30 : Int) 1 [],
        .add (str "Person") (str "age") 25 2 [true], .add (str "Person") (str "age") 31 1 []].map
        (Call.scored num)) (empty : PropertyIndex (WithNan Int)) = some p ∧
      p.call (.removeNode (str "Person") 1) = some p' ∧
      run ([Call.add (str "Person") (str "age") (22 : Int) 4 []].map (Call.scored num)) p' =
        some p'' ∧
      (∀ q, ∃ ids, p.ask q = Outcome.returned ids ∧
        p'.ask q = Outcome.returned (ids.filter (· ≠ 1))) ∧
      ∀ q, ∃ ids, p''.ask q = Outcome.returned ids ∧ 1 ∉ ids :=
  removeNode_forgets _ _ (str "Person") 1 (by simp [Call.nodeId, IsInt]) (by simp)

end FastGraph.PropertyIndex
