import FastGraph.Dispatch.Proofs.Reads
import FastGraph.Net.Start
import FastGraph.Persistence.Proofs.Load

/-!
# What a restart loses

A snapshot holds the keys, the nodes and the edges. A server that has been started again has no
sorted sets and nothing in its property index, whatever it had before.
-/

namespace FastGraph.Server
open Dispatcher

section
variable {W D : Type} {lib : FloatLib W D} {d d' : Dispatcher W D}

/-- A server starts from any disk, without sorted sets and without an index. -/
theorem start_spec (lib : FloatLib W D) (path : Bytes) (disk : Disk) (now : Int) :
    ∃ d, start lib path disk now = some d ∧ (∃ A, KVEngine.Represents d.kv A) ∧
      d.graph.propIndex = .empty ∧ d.zsets = .empty := by
  suffices loads : ∃ ok kv graph, RDB.load lib.bits disk path now .empty
      (.empty : GraphEngine W D) = some (ok, kv, graph) ∧ (∃ A, KVEngine.Represents kv A) ∧
      graph.propIndex = .empty by
    obtain ⟨ok, kv, graph, loaded, rep, index⟩ := loads
    exact ⟨⟨kv, graph, .empty, ⟨path, false⟩, disk⟩, by simp [start, Persistence.load, loaded],
      rep, index, rfl⟩
  cases file : disk.find path with
  | none =>
    exact ⟨false, .empty, .empty, RDB.load_of_missing file, ⟨_, KVEngine.represents_empty⟩, rfl⟩
  | some f =>
    cases read : RDB.readRecords lib.bits f with
    | none =>
      exact ⟨false, .empty, .empty, RDB.load_of_no_records file read,
        ⟨_, KVEngine.represents_empty⟩, rfl⟩
    | some r =>
      obtain ⟨kv, loaded, rep⟩ := RDB.load_of_records file read KVEngine.represents_empty
        (.empty : GraphEngine W D) now
      refine ⟨_, kv, _, loaded, ⟨_, rep⟩, ?_⟩
      rw [GraphEngine.propIndex_addEdges, GraphEngine.propIndex_addNodes]
      rfl

end

section
variable {W D : Type} [Zero W] [One W] [Add W] [LT W] [DecidableLT W]
variable [Inhabited D] [BEq D] [LT D] [DecidableLT D] [LE D] [DecidableLE D]
variable {lib : FloatLib W D} {d : Dispatcher W D}

/-- What holds of the engines after every call holds while the server runs. -/
theorem Runs.sound (runs : Runs lib d) : Sound d := by
  induction runs with
  | @started path disk now d loaded =>
    obtain ⟨d', loaded', rep, index, zsets⟩ := start_spec lib path disk now
    obtain rfl := Option.some.inj (loaded.symm.trans loaded')
    refine ⟨rep, ?_, ?_⟩
    · rw [index]
      exact PropertyIndex.numbered_empty
    · rw [zsets]
      exact SortedSetEngine.kept_empty
  | dispatched _ env args returned ih => exact ih.dispatch env lib returned
  | @ticked d _ now kv dropped ih =>
    obtain ⟨A, rep⟩ := ih.kv
    obtain ⟨kv', dropped', rep'⟩ := KVEngine.tick_spec rep now
    obtain rfl := Option.some.inj (dropped.symm.trans dropped')
    exact ⟨⟨_, rep'⟩, ih.index, ih.zsets⟩
  | saved _ env ih => exact ⟨ih.kv, ih.index, ih.zsets⟩

/-- The server without its sorted sets and its property index. -/
def stripped (d : Dispatcher W D) : Dispatcher W D :=
  { d with graph := { d.graph with propIndex := .empty }, zsets := .empty }

/-- After a restart the sorted sets and the property index are read as empty ones, whatever has
been saved, so that all their reads are answered as before exactly if the sorted sets were
empty and no query of the index found anything. -/
theorem restart_reads_iff (runs : Runs lib d) (env : Env) (now : Int) :
    ∃ d', restart lib env now d = some d' ∧
      (∀ env word words, toUpper word ∈ storedReads →
        reply lib env d' (word :: words) = reply lib env (stripped d) (word :: words)) ∧
      ((∀ env word words, toUpper word ∈ storedReads →
        reply lib env d' (word :: words) = reply lib env d (word :: words)) ↔
      (∀ key, d.zsets.zcard key = 0) ∧
        ∀ label prop low high minVal maxVal, lib.stod low = .ok minVal → lib.stod high = .ok maxVal →
          d.graph.rangeQuery label prop minVal maxVal = Outcome.returned []) := by
  have sound := runs.sound
  obtain ⟨d', started, -, index, zsets⟩ :=
    start_spec lib d.persistence.path (snapshot lib env d).disk now
  have blank (label prop : Bytes) (minVal maxVal : D) :
      d'.graph.rangeQuery label prop minVal maxVal = Outcome.returned [] := by
    rw [GraphEngine.rangeQuery, index]
    rfl
  refine ⟨d', started, ?_, ?_, ?_⟩
  · intro env word words reads
    refine reply_alike env ?_ ?_ reads words
    · rw [zsets]
      exact ⟨fun _ _ => rfl, fun _ _ _ => rfl, fun _ _ _ => rfl, fun _ => rfl, fun _ _ => rfl⟩
    · intro label prop low high minVal maxVal _ _
      rw [blank]
      rfl
  · intro same
    refine ⟨?_, ?_⟩
    · intro key
      have told := same env (str "ZCARD") [key] (by decide)
      rw [reply_zcard, reply_zcard, Outcome.returned_inj, RespEncoder.integer, RespEncoder.integer,
        List.cons_append, List.cons_append, List.cons.injEq, List.append_left_inj] at told
      rw [← decimalInt_injective told.2, zsets]
      rfl
    · intro label prop low high minVal maxVal readLow readHigh
      obtain ⟨ids, found⟩ := sound.index.range label prop minVal maxVal
      have told := same env (str "GRAPH.RANGE") [label, prop, low, high] (by decide)
      rw [reply_range env readLow readHigh (blank label prop minVal maxVal),
        reply_range env readLow readHigh found, Outcome.returned_inj] at told
      rw [GraphEngine.rangeQuery, found, idsReply_eq_empty told.symm]
  · rintro ⟨cleared, unfound⟩ env word words reads
    refine (reply_alike env ?_ ?_ reads words).symm
    · rw [zsets]
      exact sound.zsets.alike_empty cleared
    · intro label prop low high minVal maxVal readLow readHigh
      rw [blank, unfound label prop low high minVal maxVal readLow readHigh]

end

theorem runs_fresh : Runs wholeLib fresh := by
  have loaded : start wholeLib (str "fastgraph.rdb") ∅ 0 = some fresh := rfl
  exact .started loaded

/-- A server with a sorted set of one member does not answer all reads as before. -/
theorem restart_reads_iff_zadd :
    ∃ d d', dispatch wholeLib calmEnv fresh [str "ZADD", str "k", str "1", str "m"] =
        Outcome.returned (d, RespEncoder.integer 1) ∧
      restart wholeLib calmEnv 0 d = some d' ∧
      (∀ env word words, toUpper word ∈ storedReads →
        reply wholeLib env d' (word :: words) = reply wholeLib env (stripped d) (word :: words)) ∧
      ¬ ∀ env word words, toUpper word ∈ storedReads →
        reply wholeLib env d' (word :: words) = reply wholeLib env d (word :: words) := by
  have added : dispatch wholeLib calmEnv fresh [str "ZADD", str "k", str "1", str "m"] =
      Outcome.returned (_, RespEncoder.integer 1) := rfl
  obtain ⟨d', started, bare, same⟩ :=
    restart_reads_iff (.dispatched runs_fresh calmEnv _ added) calmEnv 0
  refine ⟨_, d', added, started, bare, fun kept => ?_⟩
  have none := (same.mp kept).1 (str "k")
  cases none

/-- A member that a client was told is stored is gone after a restart with a complete snapshot. -/
theorem sortedSet_lost :
    ∃ d d', dispatch wholeLib calmEnv fresh [str "ZADD", str "k", str "1", str "m"] =
        Outcome.returned (d, RespEncoder.integer 1) ∧
      Runs wholeLib d ∧
      (d.persistence.save wholeLib.bits d.disk d.kv d.graph 0 .asListed .asListed .complete).2.2 =
        .ok true ∧
      restart wholeLib calmEnv 0 d = some d' ∧
      reply wholeLib calmEnv d [str "ZCARD", str "k"] =
        Outcome.returned (RespEncoder.integer 1) ∧
      reply wholeLib calmEnv d' [str "ZCARD", str "k"] =
        Outcome.returned (RespEncoder.integer 0) := by
  obtain ⟨d', started, -, -, zsets⟩ := start_spec wholeLib (str "fastgraph.rdb")
    (snapshot wholeLib calmEnv fresh).disk 0
  refine ⟨_, d', rfl, .dispatched runs_fresh calmEnv [str "ZADD", str "k", str "1", str "m"] rfl,
    by decide, started, ?_, ?_⟩
  · rw [reply_zcard]
    rfl
  · rw [reply_zcard, zsets]
    rfl

end FastGraph.Server
