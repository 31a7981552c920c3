import FastGraph.Dispatch.Proofs.Routing
import FastGraph.Misc.Parts

/-!
# The engines do not see each other

The commands of a handler work within the engine of that handler: they neither read nor change
another one.
-/

namespace FastGraph.Dispatcher
open Program

variable {W D α β : Type}

/-- The key-value engine of a server. -/
def kvPart : Part (Dispatcher W D) KVEngine :=
  ⟨Dispatcher.kv, fun d kv => { d with kv := kv }, fun _ _ => rfl, fun _ _ _ => rfl, fun _ => rfl⟩

/-- The graph engine of a server. -/
def graphPart : Part (Dispatcher W D) (GraphEngine W D) :=
  ⟨Dispatcher.graph, fun d graph => { d with graph := graph }, fun _ _ => rfl, fun _ _ _ => rfl,
    fun _ => rfl⟩

/-- The sorted sets of a server. -/
def zsetPart : Part (Dispatcher W D) (SortedSetEngine D) :=
  ⟨Dispatcher.zsets, fun d zsets => { d with zsets := zsets }, fun _ _ => rfl, fun _ _ _ => rfl,
    fun _ => rfl⟩

/-- Reading a number is within every part. -/
theorem within_number {τ : Type} {P : Part (Dispatcher W D) τ} {reader : NumReader}
    {x : Except NumError α} : Within P (number reader x : Action W D α) :=
  within_ask fun _ => Outcome.ofExcept (readNumber reader x)

theorem within_badArgs {τ : Type} {P : Part (Dispatcher W D) τ} (e : StdException) :
    Within P (badArgs e : Action W D Bytes) := .pure _

theorem within_onKv (f : KVEngine → Option (KVEngine × α)) :
    Within kvPart (onKv f : Action W D α) := by
  refine within_call (fun kv => Outcome.ofOption (f kv)) ?_
  intro d
  rfl

theorem within_onGraph (f : GraphEngine W D → Outcome StdException (GraphEngine W D × α)) :
    Within graphPart (onGraph f) := by
  refine within_call f ?_
  intro d
  rfl

theorem within_changeGraph (f : GraphEngine W D → Outcome StdException (GraphEngine W D)) :
    Within graphPart (changeGraph f : Action W D Unit) := within_onGraph _

theorem within_askGraph (f : GraphEngine W D → Outcome StdException α) :
    Within graphPart (askGraph f : Action W D α) := within_ask f

theorem within_onZsets (f : SortedSetEngine D → Option (SortedSetEngine D × α)) :
    Within zsetPart (onZsets f : Action W D α) := by
  refine within_call (fun z => Outcome.ofOption (f z)) ?_
  intro d
  rfl

theorem within_askZsets (f : SortedSetEngine D → Option α) :
    Within zsetPart (askZsets f : Action W D α) := within_ask fun z => Outcome.ofOption (f z)

/-- The engine of a handler. -/
def Engine (W D : Type) : Handler → Type
  | .kv => KVEngine
  | .graph => GraphEngine W D
  | .zset => SortedSetEngine D

/-- The engine of a handler in the server. -/
def enginePart : (h : Handler) → Part (Dispatcher W D) (Engine W D h)
  | .kv => kvPart
  | .graph => graphPart
  | .zset => zsetPart

theorem enginePart_apart (h h' : Handler) (other : h ≠ h') :
    (enginePart (W := W) (D := D) h).Apart (enginePart h') := by
  intro d t u
  cases h <;> cases h' <;> first | rfl | exact absurd rfl other

/-! ### The branches -/

variable (env : Env) {b : Branch (Action W D Bytes)}

theorem within_setOptions {τ : Type} {P : Part (Dispatcher W D) τ} (words : List Bytes)
    (ttlMs : Int) : Within P (setOptions words ttlMs : Action W D Int) := by
  induction words generalizing ttlMs with
  | nil => exact .pure _
  | cons opt words ih =>
    cases words with
    | nil => exact .pure _
    | cons val rest =>
      refine .bind ?_ fun ms => ih ms
      unfold setOption
      split
      · exact .bind within_number fun _ => .pure _
      · split
        · exact within_number
        · exact .pure _

theorem within_kvBranches (mem : b ∈ kvBranches env) (args : List Bytes) :
    Within kvPart (b.body args) := by
  simp only [kvBranches, List.mem_cons, List.not_mem_nil, or_false] at mem
  obtain rfl | rfl | rfl | rfl | rfl | rfl | rfl | rfl | rfl | rfl | rfl | rfl := mem
  · exact .pure _
  · exact .bind (within_setOptions _ _) fun _ => .bind (within_onKv _) fun _ => .pure _
  · exact .bind (within_onKv _) fun _ => .pure _
  · exact .bind (within_onKv _) fun _ => .pure _
  · exact .bind (within_onKv _) fun _ => .pure _
  · exact .bind within_number fun _ => .bind (within_onKv _) fun _ => .pure _
  · exact .bind within_number fun _ => .bind (within_onKv _) fun _ => .pure _
  · refine .bind (within_onKv _) fun ms => ?_
    split
    · exact .pure _
    · split <;> exact .pure _
  · exact .bind (within_onKv _) fun _ => .pure _
  · exact .bind (within_onKv _) fun _ => .pure _
  · exact .bind (within_onKv _) fun _ => .pure _
  · exact .pure _

theorem within_handleKv (cmd : Bytes) (args : List Bytes) :
    Within kvPart (handleKv env cmd args : Action W D Bytes) := by
  unfold handleKv
  cases selected : Branch.select (kvBranches (W := W) (D := D) env) cmd args with
  | none => exact .pure _
  | some body =>
    obtain ⟨b, mem, -, -, rfl⟩ := Branch.select_eq_some selected
    exact within_kvBranches env mem args

variable [Inhabited D] [BEq D] [LT D] [DecidableLT D] [LE D] [DecidableLE D] (lib : FloatLib W D)

omit [Inhabited D] [BEq D] [LT D] [DecidableLT D] [LE D] [DecidableLE D] in
theorem within_indexNumbers {τ : Type} {P : Part (Dispatcher W D) τ} (args : List Bytes) :
    Within P (indexNumbers lib env args) := by
  unfold indexNumbers
  split <;> exact .bind within_number fun _ => .bind within_number fun _ => .pure _

theorem within_zsetBranches (mem : b ∈ zsetBranches lib env) (own : b.name ∉ Handler.persistent)
    (args : List Bytes) : Within zsetPart (b.body args) := by
  simp only [zsetBranches, List.mem_cons, List.not_mem_nil, or_false] at mem
  obtain rfl | rfl | rfl | rfl | rfl | rfl | rfl | rfl | rfl | rfl := mem
  · exact .bind within_number fun _ => .bind (within_onZsets _) fun _ => .pure _
  · exact .bind (within_onZsets _) fun _ => .pure _
  · exact .bind (within_askZsets _) fun _ => .pure _
  · exact .bind within_number fun _ => .bind within_number fun _ =>
      .bind (within_askZsets _) fun _ => .pure _
  · exact .bind within_number fun _ => .bind within_number fun _ =>
      .bind (within_askZsets _) fun _ => .pure _
  · exact .bind (within_askZsets _) fun _ => .pure _
  · exact .bind (within_askZsets _) fun _ => .pure _
  all_goals exact absurd (by simp [Handler.persistent]) own

variable [Zero W] [One W] [Add W] [LT W] [DecidableLT W]

theorem within_graphBranches (mem : b ∈ graphBranches lib env) (args : List Bytes) :
    Within graphPart (b.body args) := by
  simp only [graphBranches, List.mem_cons, List.not_mem_nil, or_false] at mem
  obtain rfl | rfl | rfl | rfl | rfl | rfl | rfl | rfl | rfl | rfl | rfl | rfl | rfl | rfl | rfl |
    rfl | rfl | rfl | rfl | rfl | rfl := mem
  · exact .bind within_number fun _ => .bind (within_changeGraph _) fun _ => .pure _
  · exact .bind within_number fun _ => .bind (within_changeGraph _) fun _ => .pure _
  · exact .bind within_number fun _ => .bind (within_changeGraph _) fun _ => .pure _
  · refine .bind within_number fun _ => .bind within_number fun _ => .bind ?_ fun _ =>
      .bind (within_changeGraph _) fun _ => .pure _
    unfold weightArg
    split
    · exact within_number
    · exact .pure _
  · exact .bind within_number fun _ => .bind within_number fun _ =>
      .bind (within_changeGraph _) fun _ => .pure _
  · refine .bind within_number fun _ => .bind (within_askGraph _) fun info => ?_
    cases info with
    | none => exact .pure _
    | some info => exact .bind (within_askGraph _) fun _ => .pure _
  · exact .bind within_number fun _ => .bind (within_askGraph _) fun _ => .pure _
  · exact .bind within_number fun _ => .bind within_number fun _ =>
      .bind (within_askGraph _) fun _ => .pure _
  · exact .bind within_number fun _ => .bind (within_askGraph _) fun _ => .pure _
  · exact .bind within_number fun _ => .bind (within_askGraph _) fun _ => .pure _
  · exact .bind (within_onGraph _) fun _ => .pure _
  · refine .bind within_number fun _ => .bind within_number fun _ =>
      .bind (within_changeGraph _) fun _ => .bind (within_onGraph _) fun path => ?_
    split <;> exact .pure _
  · refine .bind within_number fun _ => .bind within_number fun _ =>
      .bind (within_askGraph _) fun path => ?_
    split <;> exact .pure _
  · exact .bind within_number fun _ => .bind within_number fun _ =>
      .bind (within_askGraph _) fun _ => .pure _
  · exact .bind within_number fun _ => .bind (within_askGraph _) fun _ => .pure _
  · exact .bind (within_askGraph _) fun _ => .pure _
  · exact .bind within_number fun _ => .bind (within_askGraph _) fun _ => .pure _
  · exact .bind (within_askGraph _) fun _ => .pure _
  · exact .bind (within_indexNumbers env lib args) fun _ =>
      .bind (within_changeGraph _) fun _ => .pure _
  · exact .bind within_number fun _ => .bind within_number fun _ =>
      .bind (within_askGraph _) fun _ => .pure _
  · exact .bind within_number fun _ => .bind (within_askGraph _) fun _ => .pure _

/-- A handler, with a command. -/
def handledBy (cmd : Bytes) (args : List Bytes) : Handler → Action W D Bytes
  | .kv => handleKv env cmd args
  | .graph => handleGraph lib env cmd args
  | .zset => handleZset lib env cmd args

/-- A command goes to its handler. -/
theorem answer_routed (word : Bytes) (words : List Bytes) : answer lib env (word :: words) =
    handledBy env lib (toUpper word) (word :: words) (.ofCommand (toUpper word)) := by
  change (if (toUpper word).take 6 = str "GRAPH." then _ else _) = _
  unfold Handler.ofCommand
  split
  · rfl
  · split <;> rfl

theorem within_handleGraph (cmd : Bytes) (args : List Bytes) :
    Within graphPart (handleGraph lib env cmd args) := by
  unfold handleGraph
  cases selected : Branch.select (graphBranches lib env) cmd args with
  | none => exact .pure _
  | some body =>
    obtain ⟨b, mem, -, -, rfl⟩ := Branch.select_eq_some selected
    exact (within_graphBranches env lib mem args).tryCatch within_badArgs

omit [Zero W] [One W] [Add W] [LT W] [DecidableLT W] in
theorem within_handleZset {cmd : Bytes} (own : cmd ∉ Handler.persistent) (args : List Bytes) :
    Within zsetPart (handleZset lib env cmd args) := by
  unfold handleZset
  cases selected : Branch.select (zsetBranches lib env) cmd args with
  | none => exact .pure _
  | some body =>
    obtain ⟨b, mem, rfl, -, rfl⟩ := Branch.select_eq_some selected
    exact (within_zsetBranches env lib mem own args).tryCatch within_badArgs

/-! ### Sequences of commands -/

/-- The handler of a command. -/
def handlerOf : List Bytes → Handler
  | [] => .kv
  | word :: _ => .ofCommand (toUpper word)

theorem within_answer (args : List Bytes) :
    Within (enginePart (handlerOf args)) (answer lib env args) := by
  cases args with
  | nil => exact .pure _
  | cons word words =>
    rw [answer_routed, handlerOf]
    cases route : Handler.ofCommand (toUpper word) with
    | kv => exact within_handleKv env (toUpper word) (word :: words)
    | graph => exact within_handleGraph env lib (toUpper word) (word :: words)
    | zset =>
      have all : ∀ n ∈ Handler.persistent, Handler.ofCommand n ≠ .zset := by decide
      exact within_handleZset env lib (fun mem => all _ mem route) (word :: words)

/-- Commands one after the other, each with what it meets: the replies. -/
def dispatchEach (calls : List (Env × List Bytes)) : Action W D (List Bytes) :=
  runAll (calls.map fun c => answer lib c.1 c.2)

/-- The commands of a handler. -/
def callsOf (h : Handler) (calls : List (Env × List Bytes)) : List (Env × List Bytes) :=
  calls.filter fun c => handlerOf c.2 = h

/-- The replies to the commands of a handler. -/
def repliesOf (h : Handler) (calls : List (Env × List Bytes)) (replies : List Bytes) : List Bytes :=
  ((calls.zip replies).filter fun c => handlerOf c.1.2 = h).map Prod.snd

theorem map_ofPart (h : Handler) (calls : List (Env × List Bytes)) :
    ofPart h (calls.map fun c => (handlerOf c.2, answer lib c.1 c.2)) =
      (callsOf h calls).map fun c => answer lib c.1 c.2 := by
  unfold ofPart callsOf
  rw [List.filter_map, List.map_map]
  rfl

theorem resultsOf_eq (h : Handler) (calls : List (Env × List Bytes)) (replies : List Bytes) :
    resultsOf h (calls.map fun c => (handlerOf c.2, answer lib c.1 c.2)) replies =
      repliesOf h calls replies := by
  unfold resultsOf repliesOf
  rw [List.zip_map_left, List.filter_map, List.map_map]
  rfl

/-- The three engines do not see each other. A sequence of commands is answered exactly if for each
handler the commands of that handler are answered without the others, and then they get the
same replies without them and leave their engine in the same state. -/
theorem handlers_independent (calls : List (Env × List Bytes)) (d : Dispatcher W D) :
    ((∃ d' replies, (dispatchEach lib calls).outcome d = Outcome.returned (d', replies)) ↔
      ∀ h, ∃ d' replies, (dispatchEach lib (callsOf h calls)).outcome d =
        Outcome.returned (d', replies)) ∧
    ∀ d' replies, (dispatchEach lib calls).outcome d = Outcome.returned (d', replies) →
      ∀ h, ∃ d'', (dispatchEach lib (callsOf h calls)).outcome d =
          Outcome.returned (d'', repliesOf h calls replies) ∧
        (enginePart h).get d'' = (enginePart h).get d' := by
  have within : ∀ x ∈ calls.map fun c => (handlerOf c.2, answer lib c.1 c.2),
      Within (enginePart x.1) x.2 := by
    intro x mem
    obtain ⟨c, -, rfl⟩ := List.mem_map.mp mem
    exact within_answer c.1 lib c.2
  have each : dispatchEach lib calls = runAll
      ((calls.map fun c => (handlerOf c.2, answer lib c.1 c.2)).map Prod.snd) := by
    rw [List.map_map]
    rfl
  have alone (d' : Dispatcher W D) (replies : List Bytes)
      (ran : (dispatchEach lib calls).outcome d = Outcome.returned (d', replies)) (h : Handler) :
      ∃ d'', (dispatchEach lib (callsOf h calls)).outcome d =
          Outcome.returned (d'', repliesOf h calls replies) ∧
        (enginePart h).get d'' = (enginePart h).get d' := by
    rw [each] at ran
    obtain ⟨d'', ran', same⟩ := runAll_ofPart enginePart_apart within ran h
    rw [map_ofPart, resultsOf_eq] at ran'
    exact ⟨d'', ran', same⟩
  refine ⟨⟨?_, ?_⟩, alone⟩
  · rintro ⟨d', replies, ran⟩ h
    obtain ⟨d'', ran', -⟩ := alone d' replies ran h
    exact ⟨d'', _, ran'⟩
  · intro parts
    rw [each]
    refine runAll_returns enginePart_apart within ?_
    intro h
    rw [map_ofPart]
    exact parts h

end FastGraph.Dispatcher
