import FastGraph.Dispatch.Proofs.Kept
import FastGraph.Net.Lifetimes
import FastGraph.Persistence.Proofs.Load
import FastGraph.Persistence.Proofs.Rdb
import FastGraph.Persistence.Proofs.Save

/-!
# What a restart recovers

Only the rename of a snapshot changes the file that a server starts from, and a server that has
started from a file is as good for the next snapshot as one that has started without. So a restart
brings back what was there at the last snapshot that was renamed, after any number of deaths.
-/

namespace FastGraph

namespace KVEngine

/-- The engine stands for a map in which the deadlines are those of keys and in the range of
`Ms`. -/
def Fine (kv : KVEngine) : Prop :=
  ∃ A, Represents kv A ∧ A.Sound ∧ ∀ k d, A.deadline k = some d → RDB.FitsInt64 d

theorem fine_empty : Fine empty := by
  refine ⟨_, represents_empty, ExpiringMap.sound_empty, ?_⟩
  intro k d held
  cases held

theorem callsKeep_fine : Dispatcher.CallsKeep Fine := by
  intro kv kv' now c r called ⟨A, rep, sound, fits⟩
  obtain ⟨kv'', same, rep'⟩ := call_refines rep now c
  rw [called] at same
  cases same
  refine ⟨_, rep', sound_idealCall sound now c, ?_⟩
  intro k d held
  rcases deadline_idealCall held with before | ⟨sum, rfl⟩
  · exact fits k d before
  · exact toInt64_range sum

end KVEngine

namespace RDB
open KVEngine GraphEngine

section
variable {A : ExpiringMap Bytes Bytes}

theorem fitsInt64_toInt64 (i : Int) : FitsInt64 (toInt64 i) := toInt64_range i

theorem fits_readEntries (todo : Nat) (f : InFile) :
    ∀ x ∈ (readEntries todo f).1, FitsInt64 x.2.2 := by
  induction todo generalizing f with
  | zero =>
    intro x mem
    cases mem
  | succ todo ih =>
    intro x mem
    simp only [readEntries, List.mem_cons] at mem
    rcases mem with rfl | mem
    · dsimp only
      exact fitsInt64_toInt64 _
    · exact ih _ x mem

/-- Entries with deadlines in the range of `Ms` leave a map with such deadlines. -/
theorem fits_putEntries (now : Int) {entries : List (Bytes × Bytes × Int)}
    (fits : ∀ x ∈ entries, FitsInt64 x.2.2) (sound : A.Sound)
    (before : ∀ k d, A.deadline k = some d → FitsInt64 d) :
    (entries.foldl (putEntry now) A).Sound ∧
      ∀ k d, (entries.foldl (putEntry now) A).deadline k = some d → FitsInt64 d := by
  induction entries generalizing A with
  | nil => exact ⟨sound, before⟩
  | cons x entries ih =>
    refine ih (fun y mem => fits y (List.mem_cons_of_mem _ mem)) ?_ ?_
    · unfold putEntry
      split
      · exact sound
      · exact sound.put
    · intro k d held
      unfold putEntry at held
      split at held
      · exact before k d held
      · simp only [ExpiringMap.put, Function.update_apply] at held
        split at held
        · unfold entryDeadline at held
          split at held
          · cases held
            exact fits x List.mem_cons_self
          · cases held
        · exact before k d held

end

section
variable {W D : Type} {bits : W ≃ UInt32} {disk : Disk} {path : Bytes} {now : Int}

theorem labelled_addNodes (ns : List (Int × Bytes × Bytes)) {g : GraphEngine W D}
    (labelled : Labelled g) : Labelled (g.addNodes ns) := by
  induction ns generalizing g with
  | nil => exact labelled
  | cons n ns ih => exact ih (labelled.addNode n.1 n.2.1 n.2.2)

theorem labelled_addEdges (es : List (Int × Edge W)) {g : GraphEngine W D}
    (labelled : Labelled g) : Labelled (g.addEdges es) := by
  induction es generalizing g with
  | nil => exact labelled
  | cons x es ih =>
    exact ih (g := g.addEdge x.1 x.2.toId x.2.relType x.2.weight)
      (labelled.of_nodes rfl fun _ _ stored => stored)

/-- Whatever the file is, the engines that are loaded from it are good. -/
theorem load_fine {ok : Bool} {kv : KVEngine} {graph : GraphEngine W D}
    (loaded : load bits disk path now .empty .empty = some (ok, kv, graph)) :
    Fine kv ∧ Labelled graph := by
  cases file : disk.find path with
  | none =>
    rw [load_of_missing file] at loaded
    cases loaded
    exact ⟨fine_empty, labelled_empty⟩
  | some f =>
    cases read : readRecords bits f with
    | none =>
      rw [load_of_no_records file read] at loaded
      cases loaded
      exact ⟨fine_empty, labelled_empty⟩
    | some r =>
      obtain ⟨kv', same, rep⟩ := load_of_records file read represents_empty
        (.empty : GraphEngine W D) now
      rw [loaded] at same
      cases same
      obtain ⟨goodMagic, goodVersion⟩ := accepted_of_some read
      simp only [readRecords, goodMagic, goodVersion, if_false, Option.some.injEq] at read
      have fits : ∀ x ∈ r.entries, FitsInt64 x.2.2 := by
        rw [← read]
        exact fits_readEntries _ _
      obtain ⟨sound, ranged⟩ := fits_putEntries now fits ExpiringMap.sound_empty
        fun k d held => by cases held
      exact ⟨⟨_, rep, sound, ranged⟩,
        labelled_addEdges _ (labelled_addNodes _ labelled_empty)⟩

end

end RDB

namespace Server
open Dispatcher GraphEngine RDB

/-! ### What every incident keeps -/

section
variable {W D : Type} {lib : FloatLib W D} {path : Bytes} {disk : Disk} {now : Int}
  {d d' : Dispatcher W D}

/-- The snapshot is at `path`, and the engines are good for it. -/
structure Durable (path : Bytes) (d : Dispatcher W D) : Prop where
  path : d.persistence.path = path
  kv : d.kv.Fine
  graph : Labelled d.graph

theorem durable_start (started : start lib path disk now = some d) :
    Durable path d ∧ d.disk = disk := by
  obtain ⟨⟨ok, kv, graph⟩, loaded, same⟩ := Option.bind_eq_some_iff.mp started
  cases same
  obtain ⟨fine, labelled⟩ := load_fine loaded
  exact ⟨⟨rfl, fine, labelled⟩, rfl⟩

end

section
variable {W D : Type} [Zero W] [One W] [Add W] [LT W] [DecidableLT W]
variable [Inhabited D] [BEq D] [LT D] [DecidableLT D] [LE D] [DecidableLE D]
variable {lib : FloatLib W D} {path : Bytes} {d d' e : Dispatcher W D}

omit [Zero W] [One W] [Add W] [LT W] [DecidableLT W] [LE D] [DecidableLE D] in
theorem opsKeep_labelled : OpsKeep (Labelled (W := W) (D := D)) where
  op _ _ op applied labelled := labelled.apply op applied
  arena _ _ labelled := labelled.of_nodes rfl fun _ _ stored => stored

omit [Zero W] [One W] [Add W] [LT W] [DecidableLT W] [Inhabited D] [BEq D] [LT D] [DecidableLT D]
  [LE D] [DecidableLE D] in
/-- A `save` that returns keeps the path. -/
theorem save_path {p p' : Persistence} {disk disk' : Disk} {kv : KVEngine} {graph : GraphEngine W D}
    {now : Int} {nodeOrder edgeOrder : IterOrder} {calls : SaveCalls} {r : Except StdException Bool}
    (saved : p.save lib.bits disk kv graph now nodeOrder edgeOrder calls = (p', disk', r)) :
    p'.path = p.path ∧ disk' =
      (RDB.save lib.bits disk p.path kv graph now nodeOrder edgeOrder calls).1 := by
  unfold Persistence.save at saved
  split at saved <;> rename_i same <;> cases saved <;> rw [same] <;> exact ⟨rfl, rfl⟩

/-- A command that is met is dispatched. -/
theorem meet_command {env : Env} {args : List Bytes} (met : meet lib d (.command env args) = some d') :
    ∃ reply, Dispatcher.dispatch lib env d args = Outcome.returned (d', reply) := by
  simp only [meet] at met
  split at met
  · rename_i d'' reply returned
    cases met
    exact ⟨reply, returned⟩
  · cases met

/-- A snapshot that is met leaves its files and nothing else. -/
theorem meet_snapshot {env : Env} (met : meet lib d (.snapshot env) = some d') :
    d'.kv = d.kv ∧ d'.graph = d.graph ∧ d'.persistence.path = d.persistence.path ∧ d'.disk =
      (RDB.save lib.bits d.disk d.persistence.path d.kv d.graph env.now env.order env.edgeOrder
        env.saveCalls).1 := by
  simp only [meet] at met
  split at met
  · rename_i saved
    cases met
    exact ⟨rfl, rfl, save_path saved⟩
  · cases met

theorem Durable.meet (durable : Durable path d) {i : Incident} (met : meet lib d i = some d') :
    Durable path d' := by
  obtain ⟨here, fine, labelled⟩ := durable
  cases i with
  | command env args =>
    obtain ⟨reply, returned⟩ := meet_command met
    refine ⟨?_, dispatch_keeps_kv env lib KVEngine.callsKeep_fine returned fine,
      dispatch_keeps_graph env lib opsKeep_labelled returned labelled⟩
    rw [(dispatch_files env lib returned).2, here]
  | tick now =>
    simp only [Server.meet] at met
    obtain ⟨kv, dropped, same⟩ := Option.map_eq_some_iff.mp met
    cases same
    exact ⟨here, KVEngine.callsKeep_fine d.kv kv now .tick .none
      (by simp [KVEngine.call, dropped]) fine, labelled⟩
  | snapshot env =>
    obtain ⟨kv, graph, path, -⟩ := meet_snapshot met
    exact ⟨path.trans here, kv ▸ fine, graph ▸ labelled⟩
  | restart cut now =>
    rw [← here]
    cases cut with
    | none => exact (durable_start met).1
    | some cut => exact (durable_start met).1

omit [Zero W] [One W] [Add W] [LT W] [DecidableLT W] [Inhabited D] [BEq D] [LT D] [DecidableLT D]
  [LE D] [DecidableLE D] in
omit [Zero W] [One W] [Add W] [LT W] [DecidableLT W] [Inhabited D] [BEq D] [LT D] [DecidableLT D]
  [LE D] [DecidableLE D] in
end

end Server

end FastGraph
