import FastGraph.Persistence.Proofs.Rdb
import FastGraph.Persistence.Proofs.Save

/-!
# A deadline read by another clock

A snapshot holds deadlines as readings of the clock of the process that saved it. The process
that loads it compares them with its own, whose origin may be another one. A key comes back
with the time it has left exactly if the origins are the same, or if its time has run out
and the new clock agrees that it has.
-/

namespace FastGraph.RDB
open KVEngine

section
variable {W D : Type} {bits : W ≃ UInt32} {entries : List (Bytes × Bytes × Int)}
  {nodes : List (Int × Bytes × Bytes)} {edges : List (Int × Edge W)} {now : Int} {kv kv' : KVEngine}
  {key v : Bytes}

/-- The entries at the front of a file are read whatever follows them. -/
theorem readRecords_entries (bits : W ≃ UInt32) (short : ∀ x ∈ entries, Short x.1 ∧ Short x.2.1)
    (count : entries.length < 2 ^ 64) (inTime : ∀ x ∈ entries, InTime now x.2.2) (rest : Bytes) :
    ∃ r : Records W, readRecords bits (leBytes 8 magic ++ (leBytes 4 version ++
        (sectionBytes entryBytes entries ++ rest))) = some r ∧ r.entries = entries := by
  have fits (x : Bytes × Bytes × Int) (mem : x ∈ entries) : FitsEntry x :=
    ⟨(short x mem).1, (short x mem).2, (inTime x mem).deadline⟩
  have first := (readsOff_section readsOff_entry).whole entries rest ⟨count, fits⟩
  have read := readRecords_header bits (sectionBytes entryBytes entries ++ rest)
  rw [headerBytes, List.append_assoc] at read
  refine ⟨_, read, ?_⟩
  rw [readSections, readPair, first]

/-- A save writes the header, the entries and something behind them. -/
theorem saved_entries (bits : W ≃ UInt32) (short : ∀ x ∈ entries, Short x.1 ∧ Short x.2.1)
    (count : entries.length < 2 ^ 64) (nodes : List (Int × Bytes × Bytes)) (edges : List (Int × Edge W)) :
    ∃ rest, (saveTail bits (saveHead (fopenWrite []) entries) nodes edges).contents =
      leBytes 8 magic ++ (leBytes 4 version ++ (sectionBytes entryBytes entries ++ rest)) := by
  have head : saveHead (fopenWrite []) entries = _ := saveHead_sound short count
  refine ⟨(tailChunks bits nodes edges).flatten, ?_⟩
  rw [head, (writes_saveTail bits nodes edges).stored _ (by trivial)]
  simp only [RDB.sound, List.append_assoc]

/-- A key that is stored with a deadline ahead is saved, and loaded if the deadline is ahead of the
clock that is read then. -/
theorem load_deadline (bits : W ≃ UInt32) {cs : List Timed} {graph : GraphEngine W D} {nodeOrder : IterOrder}
    {saveTime loadTime d : Int} (ran : KVEngine.run cs .empty = some kv)
    (strings : ∀ k v, kv.map.get k = some (some v) → Short k ∧ Short v)
    (capacity : kv.map.capacity < 2 ^ 64) (listed : graph.allNodes nodeOrder = .ok nodes)
    (stored : kv.map.get key = some (some v)) (deadline : kv.deadlines.getExpiry key = d)
    (ahead : saveTime < d) (clock : 0 ≤ saveTime) (clock' : 0 ≤ loadTime ∧ loadTime < 2 ^ 63)
    (disk : Disk) (path : Bytes) (edgeOrder : IterOrder) :
    ∃ disk' ok kv' graph',
      save bits disk path kv graph saveTime nodeOrder edgeOrder .complete = (disk', .ok true) ∧
      load bits disk' path loadTime .empty (.empty : GraphEngine W D) = some (ok, kv', graph') ∧
      kv'.map.get key = some (if d ≤ loadTime then none else some v) ∧
      kv'.deadlines.getExpiry key = if d ≤ loadTime then -1 else d := by
  obtain ⟨_, same, rep⟩ := run_refines represents_empty cs
  rw [ran] at same
  cases same
  obtain ⟨distinct, listing⟩ := allEntries_spec rep saveTime
  have short := short_allEntries rep strings saveTime
  have count := (length_allEntries_le kv saveTime).trans_lt capacity
  have value : (idealRun cs .empty).value key = some v := by
    rw [rep.get_map] at stored
    exact Option.some.inj stored
  have armed : (idealRun cs .empty).deadline key = some d := by
    rw [rep.getExpiry] at deadline
    cases found : (idealRun cs .empty).deadline key with
    | none =>
      rw [found] at deadline
      cases deadline
      have behind : saveTime < -1 := ahead
      omega
    | some x =>
      rw [found] at deadline
      cases deadline
      rfl
  have ranged := inTime_allEntries rep clock' saveTime
  have mem : (key, v, d) ∈ kv.allEntries saveTime := by
    refine (listing key v d).mpr ⟨value, ?_, by rw [armed]; rfl⟩
    rw [Bool.eq_false_iff, ne_eq, ExpiringMap.reached_iff, armed]
    rintro ⟨_, same, -, passed⟩
    cases same
    omega
  obtain ⟨rest, contents⟩ := saved_entries bits short count nodes (graph.allEdges edgeOrder)
  obtain ⟨r, read, entries⟩ := readRecords_entries bits short count ranged rest
  have saved : save bits disk path kv graph saveTime nodeOrder edgeOrder .complete =
      ((disk.erase (path ++ str ".tmp")).set path (leBytes 8 magic ++ (leBytes 4 version ++
        (sectionBytes entryBytes (kv.allEntries saveTime) ++ rest))), .ok true) := by
    simp [save, SaveCalls.complete, SaveCalls.closed, listed, contents]
  obtain ⟨kv', loaded, rep'⟩ := load_of_records (UnorderedMap.find_set_self _ _ _) read
    represents_empty (.empty : GraphEngine W D) loadTime
  rw [entries, List.foldl_ext _ _ _ fun A x mem => putEntry_eq_restore (ranged x mem) A] at rep'
  obtain ⟨value', deadline'⟩ := foldl_restore_of_mem (A := .empty) loadTime distinct mem rfl rfl
  have positive : 0 < d := by omega
  refine ⟨_, _, kv', _, saved, loaded, ?_, ?_⟩
  · rw [rep'.get_map, value']
    simp only [positive, true_and]
  · rw [rep'.getExpiry, deadline']
    simp only [positive, true_and, if_true]
    split <;> rfl

/-- The key is there with `left` milliseconds to live, or it is gone if there are none left. -/
def ComesBack (kv : KVEngine) (key v : Bytes) (left now : Int) : Prop :=
  if 0 < left then kv.map.get key = some (some v) ∧ kv.ttl key now = some left
  else kv.map.get key = some none

/-- A key that is saved with `r` milliseconds to live at the wall time `w₀`, and loaded at the wall
time `w₁` by a process whose clock starts at `o₁` instead of `o₀`, comes back as it should
exactly if the two origins are the same, or its time has run out by the wall and by the
new clock. -/
theorem comesBack_iff {cs : List Timed} {graph : GraphEngine W D} {nodeOrder : IterOrder}
    {w₀ w₁ o₀ o₁ r : Int} (ran : KVEngine.run cs .empty = some kv)
    (strings : ∀ k v, kv.map.get k = some (some v) → Short k ∧ Short v)
    (capacity : kv.map.capacity < 2 ^ 64) (listed : graph.allNodes nodeOrder = .ok nodes)
    (stored : kv.map.get key = some (some v)) (left : kv.ttl key (w₀ - o₀) = some r)
    (positive : 0 < r) (origin₀ : o₀ ≤ w₀) (origin₁ : o₁ ≤ w₁)
    (inRange : w₁ - o₁ < 2 ^ 63) (disk : Disk) (path : Bytes) (edgeOrder : IterOrder) :
    (∃ disk' ok kv' graph',
      save bits disk path kv graph (w₀ - o₀) nodeOrder edgeOrder .complete = (disk', .ok true) ∧
      load bits disk' path (w₁ - o₁) .empty (.empty : GraphEngine W D) = some (ok, kv', graph') ∧
      ComesBack kv' key v (r - (w₁ - w₀)) (w₁ - o₁)) ↔
    o₀ = o₁ ∨ r ≤ w₁ - w₀ ∧ w₀ - o₀ + r ≤ w₁ - o₁ := by
  have deadline : kv.deadlines.getExpiry key = w₀ - o₀ + r := by
    unfold ttl at left
    simp only [stored, Option.bind_eq_bind, Option.bind_some] at left
    split at left
    · cases left
      omega
    · have := Option.some.inj left
      split at this <;> omega
  obtain ⟨disk', ok, kv', graph', saved, loaded, value', deadline'⟩ :=
    load_deadline bits ran strings capacity listed stored deadline
      (show w₀ - o₀ < w₀ - o₀ + r by omega) (by omega) ⟨show 0 ≤ w₁ - o₁ by omega, inRange⟩ disk path edgeOrder
  have comes : (∃ disk' ok kv' graph',
      save bits disk path kv graph (w₀ - o₀) nodeOrder edgeOrder .complete = (disk', .ok true) ∧
      load bits disk' path (w₁ - o₁) .empty (.empty : GraphEngine W D) = some (ok, kv', graph') ∧
      ComesBack kv' key v (r - (w₁ - w₀)) (w₁ - o₁)) ↔
      ComesBack kv' key v (r - (w₁ - w₀)) (w₁ - o₁) := by
    constructor
    · intro ⟨disk₁, ok₁, kv₁, graph₁, saved₁, loaded₁, back⟩
      rw [saved] at saved₁
      cases saved₁
      rw [loaded] at loaded₁
      cases loaded₁
      exact back
    · intro back
      exact ⟨disk', ok, kv', graph', saved, loaded, back⟩
  rw [comes, ComesBack]
  by_cases due : w₀ - o₀ + r ≤ w₁ - o₁
  · rw [if_pos due] at value' deadline'
    split
    · rename_i remaining
      simp only [value', Option.some.injEq, reduceCtorEq, false_and, false_iff]
      omega
    · rename_i spent
      exact iff_of_true value' (by omega)
  · rw [if_neg due] at value' deadline'
    have nonneg : ¬ w₀ - o₀ + r < 0 := by omega
    have ahead : ¬ w₀ - o₀ + r - (w₁ - o₁) < 0 := by omega
    split
    · simp only [value', ttl, deadline', Option.bind_eq_bind, Option.bind_some, nonneg, ahead,
        if_false, true_and, Option.some.injEq]
      omega
    · simp only [value', Option.some.injEq, reduceCtorEq, false_iff]
      omega

end

/-- A key with five milliseconds to live, saved at the wall time 105 and loaded one millisecond later
by a process with the same clock. -/
theorem comesBack_iff_same_clock :
    ∃ kv : KVEngine, KVEngine.run [⟨0, .set (str "a") (str "x") 10⟩] .empty = some kv ∧
      ((∃ disk' ok kv' graph',
        save (Equiv.refl UInt32) ∅ (str "dump.rdb") kv (.empty : GraphEngine UInt32 Int) (105 - 100)
          .asListed .asListed .complete = (disk', .ok true) ∧
        load (Equiv.refl UInt32) disk' (str "dump.rdb") (106 - 100) .empty
          (.empty : GraphEngine UInt32 Int) = some (ok, kv', graph') ∧
        ComesBack kv' (str "a") (str "x") (5 - (106 - 105)) (106 - 100)) ↔
      (100 : Int) = 100 ∨ (5 : Int) ≤ 106 - 105 ∧ (105 : Int) - 100 + 5 ≤ 106 - 100) := by
  obtain ⟨kv, ran, rep⟩ := run_refines represents_empty [⟨0, .set (str "a") (str "x") 10⟩]
  have value : ∀ k v, (idealRun [⟨0, .set (str "a") (str "x") 10⟩] .empty).value k = some v →
      k = str "a" ∧ v = str "x" := by
    intro k v stored
    simp only [idealRun, idealCall, ExpiringMap.put, ExpiringMap.empty, Function.update_apply] at stored
    split at stored
    · rename_i same
      exact ⟨same, (Option.some.inj stored).symm⟩
    · cases stored
  have capacity : (KVEngine.run [⟨0, .set (str "a") (str "x") 10⟩] .empty).map (·.map.capacity) =
      some 16 := by decide
  rw [ran, Option.map_some, Option.some.injEq] at capacity
  refine ⟨kv, ran, comesBack_iff ran ?_ (by rw [capacity]; norm_num)
    (show (.empty : GraphEngine UInt32 Int).allNodes .asListed = .ok [] from rfl) ?_ ?_ (by norm_num)
    (by norm_num) (by norm_num) (by norm_num) ∅ (str "dump.rdb") .asListed⟩
  · intro k v stored
    rw [rep.get_map] at stored
    obtain ⟨rfl, rfl⟩ := value k v (Option.some.inj stored)
    unfold Short
    decide
  · rw [rep.get_map]
    decide
  · rw [ttl_spec rep]
    decide

/-- The clock has started again between the save and the load, as it does when the machine does: the key
comes back with ten milliseconds to live instead of four. -/
theorem rebooted :
    ∃ kv ok kv' graph', KVEngine.run [⟨0, .set (str "a") (str "x") 10⟩] .empty = some kv ∧
      load (Equiv.refl UInt32) (save (Equiv.refl UInt32) ∅ (str "dump.rdb") kv
        (.empty : GraphEngine UInt32 Int) (105 - 100) .asListed .asListed .complete).1
        (str "dump.rdb") (106 - 106) .empty (.empty : GraphEngine UInt32 Int) =
          some (ok, kv', graph') ∧
      kv.ttl (str "a") (105 - 100) = some 5 ∧ kv'.ttl (str "a") (106 - 106) = some 10 ∧
      ¬ ComesBack kv' (str "a") (str "x") (5 - (106 - 105)) (106 - 106) := by
  have all : ((KVEngine.run [⟨0, .set (str "a") (str "x") 10⟩] .empty).bind fun kv =>
      (load (Equiv.refl UInt32) (save (Equiv.refl UInt32) ∅ (str "dump.rdb") kv
        (.empty : GraphEngine UInt32 Int) (105 - 100) .asListed .asListed .complete).1
        (str "dump.rdb") (106 - 106) .empty (.empty : GraphEngine UInt32 Int)).bind fun loaded =>
      (kv.ttl (str "a") (105 - 100)).bind fun before =>
      (loaded.2.1.ttl (str "a") (106 - 106)).map fun after => (before, after)) = some (5, 10) := by
    decide
  simp only [Option.bind_eq_some_iff, Option.map_eq_some_iff, Prod.mk.injEq] at all
  obtain ⟨kv, ran, ⟨ok, kv', graph'⟩, loaded, _, before, _, after, rfl, rfl⟩ := all
  refine ⟨kv, ok, kv', graph', ran, loaded, before, after, ?_⟩
  rintro ⟨-, left⟩
  rw [after] at left
  cases left

end FastGraph.RDB
