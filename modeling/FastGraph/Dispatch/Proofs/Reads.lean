import FastGraph.Dispatch.Proofs.Calls

/-!
# The commands that read the sorted sets and the property index

They change nothing, and what they tell depends on the store they read alone.
-/

namespace FastGraph.Dispatcher
open Program RespEncoder

section
variable {W D : Type} [Zero W] [One W] [Add W] [LT W] [DecidableLT W]
variable [Inhabited D] [BEq D] [LT D] [DecidableLT D] [LE D] [DecidableLE D]
variable (lib : FloatLib W D) (env : Env)

/-- What a client is told. -/
def reply (d : Dispatcher W D) (args : List Bytes) : Outcome StdException Bytes :=
  Prod.snd <$> dispatch lib env d args

/-- The commands that read the sorted sets or the property index. -/
def storedReads : List Bytes :=
  [str "ZSCORE", str "ZRANGE", str "ZRANGEBYSCORE", str "ZCARD", str "ZRANK", str "GRAPH.RANGE",
    str "GRAPH.EXACT"]

/-- The queries of the index that a client can ask for are answered alike. -/
def IndexAlike (d d' : Dispatcher W D) : Prop :=
  ∀ label prop low high minVal maxVal, lib.stod low = .ok minVal → lib.stod high = .ok maxVal →
    d.graph.rangeQuery label prop minVal maxVal = d'.graph.rangeQuery label prop minVal maxVal

variable {lib} {d d' : Dispatcher W D} {b : Branch (Action W D Bytes)} {α : Type}

omit [Zero W] [One W] [Add W] [LT W] [DecidableLT W] [Inhabited D] [BEq D] [LT D] [DecidableLT D]
  [LE D] [DecidableLE D] in
theorem same_number_bind {β : Type} {reader : NumReader} {x : Except NumError β}
    {f : β → Action W D α} (rest : ∀ b, x = .ok b → Same (f b) d d') :
    Same (number reader x >>= f) d d' := by
  cases x with
  | ok b => exact rest b rfl
  | error e => exact ⟨some (.error (.number reader e)), rfl, rfl⟩

omit [Zero W] [One W] [Add W] [LT W] [DecidableLT W] [Inhabited D] [BEq D] [LT D] [DecidableLT D]
  [LE D] [DecidableLE D] in
theorem same_askZsets {f : SortedSetEngine D → Option α} (alike : f d.zsets = f d'.zsets) :
    Same (askZsets f : Action W D α) d d' := same_ask (congrArg Outcome.ofOption alike)

/-- A branch that reads answers alike where the sets and the index do. -/
theorem same_branches (zsets : d.zsets.Alike d'.zsets) (index : IndexAlike lib d d') {h : Handler}
    (mem : b ∈ branches lib env h) (reads : b.name ∈ storedReads) (args : List Bytes) :
    Same (b.body args) d d' := by
  cases h with
  | kv =>
    have listed : b.name ∈ Handler.kv.names := by
      rw [← names_branches lib env]
      exact List.mem_map_of_mem mem
    have others : ∀ n ∈ Handler.kv.names, n ∉ storedReads := by decide
    exact absurd reads (others b.name listed)
  | graph =>
    simp only [branches, graphBranches, List.mem_cons, List.not_mem_nil, or_false] at mem
    obtain rfl | rfl | rfl | rfl | rfl | rfl | rfl | rfl | rfl | rfl | rfl | rfl | rfl | rfl | rfl |
      rfl | rfl | rfl | rfl | rfl | rfl := mem
    all_goals dsimp only at reads
    all_goals try exact absurd reads (by decide)
    · exact same_number_bind fun low readLow => same_number_bind fun high readHigh =>
        .bind (same_ask (index _ _ _ _ low high readLow readHigh)) fun _ => .pure _
    · exact same_number_bind fun value read =>
        .bind (same_ask (index _ _ _ _ value value read read)) fun _ => .pure _
  | zset =>
    simp only [branches, zsetBranches, List.mem_cons, List.not_mem_nil, or_false] at mem
    obtain rfl | rfl | rfl | rfl | rfl | rfl | rfl | rfl | rfl | rfl := mem
    all_goals dsimp only at reads
    all_goals try exact absurd reads (by decide)
    · exact .bind (same_askZsets (congrArg some (zsets.zscore _ _))) fun _ => .pure _
    · exact same_number_bind fun start _ => same_number_bind fun stop _ =>
        .bind (same_askZsets (zsets.zrange _ _ _)) fun _ => .pure _
    · exact same_number_bind fun low _ => same_number_bind fun high _ =>
        .bind (same_askZsets (zsets.zrangebyscore _ _ _)) fun _ => .pure _
    · exact .bind (same_askZsets (congrArg some (zsets.zcard _))) fun _ => .pure _
    · exact .bind (same_askZsets (zsets.zrank _ _)) fun _ => .pure _

/-- The reads of two dispatchers are answered alike where their sets and their index are. -/
theorem reply_alike (zsets : d.zsets.Alike d'.zsets) (index : IndexAlike lib d d') {word : Bytes}
    (reads : toUpper word ∈ storedReads) (words : List Bytes) :
    reply lib env d (word :: words) = reply lib env d' (word :: words) := by
  apply Same.outcome
  cases selected : Branch.select (branches lib env (.ofCommand (toUpper word))) (toUpper word)
      (word :: words) with
  | none =>
    rw [answer_cons, selected]
    exact .pure _
  | some body =>
    obtain ⟨b, mem, named, own, enough⟩ := taken_of_select lib env selected
    rw [named] at mem reads
    rw [answer_taken lib env mem own named enough]
    have body := same_branches env zsets index mem reads (word :: words)
    cases handler : Handler.ofCommand b.name with
    | kv => exact body
    | graph => exact body.tryCatch fun e => .pure _
    | zset => exact body.tryCatch fun e => .pure _

/-! ### What the reads tell -/

theorem reply_zcard (d : Dispatcher W D) (key : Bytes) :
    reply lib env d [str "ZCARD", key] = Outcome.returned (integer (d.zsets.zcard key)) := by
  have mem : (⟨str "ZCARD", (2 ≤ ·), zcard⟩ : Branch (Action W D Bytes)) ∈ branches lib env .zset := by
    simp [branches, zsetBranches]
  unfold reply dispatch
  rw [answer_taken lib env mem (show str "ZCARD" ∉ Handler.persistent by decide)
    (show toUpper (str "ZCARD") = str "ZCARD" by decide) rfl]
  rfl

theorem reply_range {low high : Bytes} {minVal maxVal : D} (readLow : lib.stod low = .ok minVal)
    (readHigh : lib.stod high = .ok maxVal) {label prop : Bytes} {ids : List Int}
    (found : d.graph.rangeQuery label prop minVal maxVal = Outcome.returned ids) :
    reply lib env d [str "GRAPH.RANGE", label, prop, low, high] =
      Outcome.returned (idsReply ids) := by
  have mem : (⟨str "GRAPH.RANGE", (5 ≤ ·), range lib⟩ : Branch (Action W D Bytes)) ∈
      branches lib env .graph := by
    simp [branches, graphBranches]
  unfold reply dispatch
  rw [answer_taken lib env mem (show str "GRAPH.RANGE" ∉ Handler.persistent by decide)
    (show toUpper (str "GRAPH.RANGE") = str "GRAPH.RANGE" by decide) rfl]
  have numbers : (range lib [str "GRAPH.RANGE", label, prop, low, high]).outcome d =
      Outcome.returned (d, idsReply ids) := by
    change (number .stod (lib.stod low) >>= _ : Action W D Bytes).outcome d = _
    rw [outcome_bind (outcome_number readLow)]
    change (number .stod (lib.stod high) >>= _ : Action W D Bytes).outcome d = _
    rw [outcome_bind (outcome_number readHigh)]
    have asked : (askGraph fun g => g.rangeQuery label prop minVal maxVal :
        Action W D (List Int)).outcome d = Outcome.returned (d, ids) := by
      rw [askGraph, outcome_ask, found]
      rfl
    exact Eq.trans (outcome_bind asked) rfl
  change Prod.snd <$> (tryCatch _ badArgs : Action W D Bytes).outcome d = _
  rw [outcome_tryCatch numbers]
  rfl

/-- Only the empty list of ids is told as an empty array. -/
theorem idsReply_eq_empty {ids : List Int} (same : idsReply ids = idsReply []) : ids = [] := by
  cases ids with
  | nil => rfl
  | cons id ids =>
    have length := congrArg List.length same
    simp only [idsReply, array_eq, List.map_cons, List.flatMap_cons, List.length_append,
      length_bulkString, List.length_cons] at length
    have one : (decimal 0).length = 1 := by decide
    simp at length
    omega

end
end FastGraph.Dispatcher
