import FastGraph.Dispatch.Proofs.Routing
import FastGraph.Kv.Proofs.KvEngine
import FastGraph.SortedSet.Proofs.Stocked

/-!
# What the commands keep

Every command leaves the engines as their own calls do, so that what holds of the engines after
every call holds of them after every command. None but the searches of the graph can go on for
ever, and this whatever the comparisons of the floating-point numbers are.
-/

namespace FastGraph.Dispatcher
open Program

section
variable {W D α : Type} {d : Dispatcher W D}

theorem outcome_number {reader : NumReader} {x : Except NumError α} {a : α} (read : x = .ok a) :
    (number reader x : Action W D α).outcome d = Outcome.returned (d, a) := by
  subst read
  exact outcome_ask _ d

theorem outcome_onKv {f : KVEngine → Option (KVEngine × α)} {kv : KVEngine} {a : α}
    (called : f d.kv = some (kv, a)) :
    (onKv f : Action W D α).outcome d = Outcome.returned ({ d with kv := kv }, a) := by
  unfold onKv
  rw [outcome_call, called]
  rfl

end

section
variable {W D α : Type} [Inhabited D] {stops throws : Prop}

/-- What calls keep of a dispatcher, whatever the floating-point numbers: the key-value engine
stands for a map, the lists of the property index hold numerals, and the sorted sets are kept. -/
structure Sound (d : Dispatcher W D) : Prop where
  kv : ∃ A, KVEngine.Represents d.kv A
  index : PropertyIndex.Numbered d.graph.propIndex.indices
  zsets : SortedSetEngine.Kept d.zsets

omit [Inhabited D] in
theorem keeps_number {I : Dispatcher W D → Prop} {reader : NumReader} {x : Except NumError α}
    (fails : ∀ e, x = .error e → throws) :
    Keeps stops throws I (number reader x : Action W D α) := by
  apply keeps_ask
  · intro d _ stuck
    cases x <;> cases stuck
  · intro d e _ thrown
    cases x with
    | ok a => cases thrown
    | error e => exact fails e rfl

omit [Inhabited D] in
/-- What follows a number that has been read. -/
theorem keeps_number_bind {β : Type} {I : Dispatcher W D → Prop} {reader : NumReader}
    {x : Except NumError β} {f : β → Action W D α} (fails : ∀ e, x = .error e → throws)
    (rest : ∀ b, x = .ok b → Keeps stops throws I (f b)) :
    Keeps stops throws I (number reader x >>= f) := by
  cases x with
  | ok b => exact rest b rfl
  | error e => exact fun d inside => ⟨inside, fun _ _ => fails e rfl⟩

/-- A call of the key-value engine returns and leaves an engine that stands for a map. -/
theorem keeps_onKv {f : KVEngine → Option (KVEngine × α)}
    (spec : ∀ kv A, KVEngine.Represents kv A →
      ∃ kv' a A', f kv = some (kv', a) ∧ KVEngine.Represents kv' A') :
    Keeps stops throws Sound (onKv f : Action W D α) := by
  apply keeps_call
  · intro d sound stuck
    obtain ⟨A, rep⟩ := sound.kv
    obtain ⟨kv', a, A', called, -⟩ := spec d.kv A rep
    rw [called] at stuck
    cases stuck
  · intro d e sound thrown
    obtain ⟨A, rep⟩ := sound.kv
    obtain ⟨kv', a, A', called, -⟩ := spec d.kv A rep
    rw [called] at thrown
    cases thrown
  · intro d d' a sound returned
    obtain ⟨A, rep⟩ := sound.kv
    obtain ⟨kv', a', A', called, rep'⟩ := spec d.kv A rep
    rw [called] at returned
    cases returned
    exact ⟨⟨A', rep'⟩, sound.index, sound.zsets⟩

/-- A call of the graph engine that keeps the lists of the index. -/
theorem keeps_onGraph {f : GraphEngine W D → Outcome StdException (GraphEngine W D × α)}
    (ends : ∀ g, f g = Outcome.stuck → PropertyIndex.Numbered g.propIndex.indices → stops)
    (kept : ∀ g g' a, f g = Outcome.returned (g', a) →
      PropertyIndex.Numbered g.propIndex.indices → PropertyIndex.Numbered g'.propIndex.indices) :
    Keeps stops True Sound (onGraph f) := by
  apply keeps_call
  · intro d sound stuck
    exact ends d.graph (Outcome.bind_eq_stuck (fun _ => Outcome.returned_ne_stuck) stuck) sound.index
  · exact fun _ _ _ _ => trivial
  · intro d d' a sound returned
    obtain ⟨⟨g', a'⟩, called, stored⟩ := Outcome.bind_eq_returned.mp returned
    cases stored
    exact ⟨sound.kv, kept d.graph g' a called sound.index, sound.zsets⟩

theorem keeps_changeGraph {f : GraphEngine W D → Outcome StdException (GraphEngine W D)}
    (ends : ∀ g, f g = Outcome.stuck → PropertyIndex.Numbered g.propIndex.indices → stops)
    (kept : ∀ g g', f g = Outcome.returned g' →
      PropertyIndex.Numbered g.propIndex.indices → PropertyIndex.Numbered g'.propIndex.indices) :
    Keeps stops True Sound (changeGraph f : Action W D Unit) := by
  apply keeps_onGraph
  · intro g stuck
    exact ends g (Outcome.bind_eq_stuck (fun _ => Outcome.returned_ne_stuck) stuck)
  · intro g g' _ returned
    obtain ⟨g'', called, stored⟩ := Outcome.bind_eq_returned.mp returned
    cases stored
    exact kept g g' called

omit [Inhabited D] in
theorem keeps_askGraph {f : GraphEngine W D → Outcome StdException α}
    {I : Dispatcher W D → Prop} (ends : ∀ d, I d → f d.graph = Outcome.stuck → stops) :
    Keeps stops True I (askGraph f) := keeps_ask ends fun _ _ _ _ => trivial

/-- A call of the sorted sets that returns and keeps them. -/
theorem keeps_onZsets {f : SortedSetEngine D → Option (SortedSetEngine D × α)}
    (spec : ∀ z, z.Kept → ∃ z' a, f z = some (z', a) ∧ z'.Kept) :
    Keeps stops True Sound (onZsets f : Action W D α) := by
  apply keeps_call
  · intro d sound stuck
    obtain ⟨z', a, called, -⟩ := spec d.zsets sound.zsets
    rw [called] at stuck
    cases stuck
  · exact fun _ _ _ _ => trivial
  · intro d d' a sound returned
    obtain ⟨z', a', called, kept⟩ := spec d.zsets sound.zsets
    rw [called] at returned
    cases returned
    exact ⟨sound.kv, sound.index, kept⟩

theorem keeps_askZsets {f : SortedSetEngine D → Option α}
    (spec : ∀ z, z.Kept → ∃ a, f z = some a) :
    Keeps stops True Sound (askZsets f : Action W D α) := by
  apply keeps_ask
  · intro d sound stuck
    obtain ⟨a, called⟩ := spec d.zsets sound.zsets
    rw [called] at stuck
    cases stuck
  · exact fun _ _ _ _ => trivial

theorem keeps_badArgs (e : StdException) :
    Keeps stops throws Sound (badArgs e : Action W D Bytes) :=
  .pure _

/-! ### The branches -/

variable (env : Env) {b : Branch (Action W D Bytes)}

/-- There is a number behind every `EX` and every `PX`. -/
def OptionsRead : List Bytes → Prop
  | opt :: val :: rest =>
    (toUpper opt = str "EX" ∨ toUpper opt = str "PX" → ∃ n, stoll val = .ok n) ∧
      OptionsRead (val :: rest)
  | _ => True

/-- The numbers that `handle_kv` reads for a command are numbers. -/
structure NumbersRead (args : List Bytes) : Prop where
  set : toUpper (arg args 0) = str "SET" → OptionsRead (args.drop 3)
  expire : toUpper (arg args 0) = str "EXPIRE" ∨ toUpper (arg args 0) = str "PEXPIRE" →
    3 ≤ args.length → ∃ n, stoll (arg args 2) = .ok n

theorem keeps_setOptions (words : List Bytes) (ttlMs : Int) :
    Keeps stops (¬ OptionsRead words) Sound (setOptions words ttlMs : Action W D Int) := by
  induction words generalizing ttlMs with
  | nil => exact .pure _
  | cons opt words ih =>
    cases words with
    | nil => exact .pure _
    | cons val rest =>
      have unread (named : toUpper opt = str "EX" ∨ toUpper opt = str "PX") (e : NumError)
          (error : stoll val = .error e) : ¬ OptionsRead (opt :: val :: rest) := by
        intro ⟨first, _⟩
        obtain ⟨n, read⟩ := first named
        rw [read] at error
        cases error
      refine .bind ?_ fun ms => (ih ms).mono id fun bad read => bad read.2
      unfold setOption
      split
      · rename_i named
        exact .bind (keeps_number (unread (Or.inl named))) fun _ => .pure _
      · split
        · rename_i named
          exact keeps_number (unread (Or.inr named))
        · exact .pure _

theorem keeps_kvBranches (mem : b ∈ kvBranches env) {args : List Bytes}
    (named : toUpper (arg args 0) = b.name) (enough : b.enough args.length = true) :
    Keeps stops (¬ NumbersRead args) Sound (b.body args) := by
  have unread (named : toUpper (arg args 0) = str "EXPIRE" ∨ toUpper (arg args 0) = str "PEXPIRE")
      (enough : decide (3 ≤ args.length) = true) (e : NumError)
      (error : stoll (arg args 2) = .error e) : ¬ NumbersRead args := by
    intro all
    obtain ⟨n, read⟩ := all.expire named (of_decide_eq_true enough)
    rw [read] at error
    cases error
  have expires (key : Bytes) (ms : Int) :
      Keeps stops (¬ NumbersRead args) Sound
        (onKv fun kv => kv.expire key ms env.now : Action W D Bool) := by
    apply keeps_onKv
    intro kv A rep
    obtain ⟨kv', called, rep'⟩ := KVEngine.expire_spec rep key ms env.now
    exact ⟨kv', _, _, called, rep'⟩
  have asks : Keeps stops (¬ NumbersRead args) Sound (keyTtl env args : Action W D Int) := by
    apply keeps_onKv
    intro kv A rep
    exact ⟨kv, _, A, by rw [KVEngine.ttl_spec rep]; rfl, rep⟩
  simp only [kvBranches, List.mem_cons, List.not_mem_nil, or_false] at mem
  obtain rfl | rfl | rfl | rfl | rfl | rfl | rfl | rfl | rfl | rfl | rfl | rfl := mem
  · exact .pure _
  · have options : Keeps stops (¬ NumbersRead args) Sound
        (setOptions (args.drop 3) (-1) : Action W D Int) :=
      (keeps_setOptions _ _).mono id fun bad read => bad (NumbersRead.set read named)
    refine .bind options fun ttlMs => .bind (keeps_onKv ?_) fun _ => .pure _
    intro kv A rep
    obtain ⟨kv', called, rep'⟩ := KVEngine.set_spec rep (arg args 1) (arg args 2) ttlMs env.now
    exact ⟨kv', _, _, called, rep'⟩
  · refine .bind (keeps_onKv ?_) fun _ => .pure _
    intro kv A rep
    obtain ⟨kv', called, rep'⟩ := KVEngine.get_spec rep (arg args 1) env.now
    exact ⟨kv', _, _, called, rep'⟩
  · refine .bind (keeps_onKv ?_) fun _ => .pure _
    intro kv A rep
    obtain ⟨kv', called, rep'⟩ := KVEngine.del_spec rep (arg args 1)
    exact ⟨kv', _, _, called, rep'⟩
  · refine .bind (keeps_onKv ?_) fun _ => .pure _
    intro kv A rep
    obtain ⟨kv', called, rep'⟩ := KVEngine.existsKey_spec rep (arg args 1) env.now
    exact ⟨kv', _, _, called, rep'⟩
  · exact .bind (keeps_number (unread (Or.inl named) enough)) fun n =>
      .bind (expires _ _) fun _ => .pure _
  · exact .bind (keeps_number (unread (Or.inr named) enough)) fun n =>
      .bind (expires _ _) fun _ => .pure _
  · refine .bind asks fun ms => ?_
    split
    · exact .pure _
    · split <;> exact .pure _
  · exact .bind asks fun _ => .pure _
  · refine .bind (keeps_onKv ?_) fun _ => .pure _
    intro kv A rep
    exact ⟨_, _, _, rfl, (KVEngine.persist_spec rep (arg args 1)).1⟩
  · refine .bind (keeps_onKv ?_) fun _ => .pure _
    intro kv A rep
    exact ⟨kv, _, A, rfl, rep⟩
  · exact .pure _

variable [BEq D] [LT D] [DecidableLT D] [LE D] [DecidableLE D] (lib : FloatLib W D)

omit [BEq D] [LT D] [DecidableLT D] [LE D] [DecidableLE D] in
theorem keeps_indexNumbers (args : List Bytes) (f : D × Int → Action W D α)
    (rest : ∀ value id, IsInt id → Keeps stops True Sound (f (value, id))) :
    Keeps stops True Sound (indexNumbers lib env args >>= f) := by
  have numbers {β : Type} {reader : NumReader} {x : Except NumError β} :
      Keeps stops True Sound (number reader x : Action W D β) := keeps_number fun _ _ => trivial
  unfold indexNumbers
  split
  · rw [bind_assoc]
    refine keeps_number_bind (fun _ _ => trivial) fun id read => ?_
    rw [bind_assoc]
    exact .bind numbers fun value => rest value id (isInt_of_stoi read)
  · rw [bind_assoc]
    refine .bind numbers fun value => ?_
    rw [bind_assoc]
    exact keeps_number_bind (fun _ _ => trivial) fun id read => rest value id (isInt_of_stoi read)

/-- The commands that search the graph. -/
def searching : List Bytes :=
  [str "GRAPH.PATH", str "GRAPH.WPATH", str "GRAPH.NEIGHBORHOOD", str "GRAPH.COMPONENT",
    str "GRAPH.HAS_CYCLE", str "GRAPH.DISTANCES"]

section
variable [Zero W] [One W] [Add W] [LT W] [DecidableLT W]

omit [Zero W] [One W] [Add W] [LT W] [DecidableLT W] [LE D] [DecidableLE D] in
/-- `remove_node` throws, or returns with the lists of the index kept. -/
theorem keeps_removeNode (id : Int) :
    Keeps stops True Sound (changeGraph fun g => g.removeNode id : Action W D Unit) := by
  apply keeps_changeGraph
  · intro g stuck numbered
    unfold GraphEngine.removeNode at stuck
    cases info : g.graph.nodeMeta id with
    | none =>
      rw [info] at stuck
      cases stuck
    | some info' =>
      obtain ⟨p, removed, -⟩ := numbered.removeNode id
      rw [info] at stuck
      dsimp only at stuck
      rw [removed] at stuck
      cases label : g.labelString info'.labelPtr <;> rw [label] at stuck <;> cases stuck
  · intro g g' returned numbered
    unfold GraphEngine.removeNode at returned
    cases info : g.graph.nodeMeta id with
    | none =>
      rw [info] at returned
      cases returned
      exact numbered
    | some info' =>
      obtain ⟨p, removed, numbered'⟩ := numbered.removeNode id
      rw [info] at returned
      dsimp only at returned
      rw [removed] at returned
      cases label : g.labelString info'.labelPtr with
      | error e =>
        rw [label] at returned
        cases returned
      | ok s =>
        rw [label] at returned
        cases returned
        exact numbered'

/-- Only a search may go on for ever. -/
theorem keeps_graphBranches (mem : b ∈ graphBranches lib env) (args : List Bytes) :
    Keeps (b.name ∈ searching) True Sound (b.body args) := by
  have numbers {stops : Prop} {β : Type} {reader : NumReader} {x : Except NumError β} :
      Keeps stops True Sound (number reader x : Action W D β) := keeps_number fun _ _ => trivial
  have reads {stops : Prop} {β : Type} {f : GraphEngine W D → β} :
      Keeps stops True Sound (askGraph fun g => pure (f g) : Action W D β) :=
    keeps_askGraph fun _ _ stuck => absurd stuck Outcome.returned_ne_stuck
  -- A search may not return, and its command says so.
  have searches {name : Bytes} {β : Type} {f : GraphEngine W D → Outcome StdException β}
      (among : name ∈ searching) :
      Keeps (name ∈ searching) True Sound (askGraph f : Action W D β) :=
    keeps_askGraph fun _ _ _ => among
  have changes {stops : Prop} {f : GraphEngine W D → GraphEngine W D}
      (same : ∀ g, (f g).propIndex = g.propIndex) :
      Keeps stops True Sound (changeGraph fun g => pure (f g) : Action W D Unit) := by
    apply keeps_changeGraph
    · intro g stuck
      cases stuck
    · intro g g' changed numbered
      cases changed
      rw [same]
      exact numbered
  simp only [graphBranches, List.mem_cons, List.not_mem_nil, or_false] at mem
  obtain rfl | rfl | rfl | rfl | rfl | rfl | rfl | rfl | rfl | rfl | rfl | rfl | rfl | rfl | rfl |
    rfl | rfl | rfl | rfl | rfl | rfl := mem
  · exact .bind numbers fun _ => .bind (changes fun _ => rfl) fun _ => .pure _
  · exact .bind numbers fun _ => .bind (changes fun _ => rfl) fun _ => .pure _
  · exact .bind numbers fun _ => .bind (keeps_removeNode _) fun _ => .pure _
  · refine .bind numbers fun _ => .bind numbers fun _ => .bind ?_ fun _ =>
      .bind (changes fun _ => rfl) fun _ => .pure _
    unfold weightArg
    split
    · exact numbers
    · exact .pure _
  · exact .bind numbers fun _ => .bind numbers fun _ =>
      .bind (changes fun _ => rfl) fun _ => .pure _
  · refine .bind numbers fun _ => .bind reads fun info => ?_
    cases info with
    | none => exact .pure _
    | some info =>
      refine .bind (keeps_askGraph fun d _ stuck => ?_) fun _ => .pure _
      cases label : d.graph.labelString info.labelPtr <;> rw [label] at stuck <;> cases stuck
  · exact .bind numbers fun _ => .bind reads fun _ => .pure _
  · exact .bind numbers fun _ => .bind numbers fun _ =>
      .bind reads fun _ => .pure _
  · exact .bind numbers fun _ => .bind reads fun _ => .pure _
  · exact .bind numbers fun _ => .bind reads fun _ => .pure _
  · refine .bind (keeps_onGraph ?_ ?_) fun _ => .pure _
    · intro g stuck
      cases stuck
    · intro g g' ids listed numbered
      cases listed
      exact numbered
  · refine .bind numbers fun _ => .bind numbers fun _ =>
      .bind (changes fun _ => rfl) fun _ => .bind (keeps_onGraph ?_ ?_) fun path => ?_
    · intro g _ _
      simp [searching]
    · intro g g' path searched numbered
      obtain ⟨⟨arena, path⟩, -, stored⟩ := Outcome.bind_eq_returned.mp searched
      cases stored
      exact numbered
    · split <;> exact .pure _
  · refine .bind numbers fun _ => .bind numbers fun _ =>
      .bind (searches (by simp [searching])) fun path => ?_
    split <;> exact .pure _
  · exact .bind numbers fun _ => .bind numbers fun _ =>
      .bind (searches (by simp [searching])) fun _ => .pure _
  · exact .bind numbers fun _ => .bind (searches (by simp [searching])) fun _ => .pure _
  · exact .bind (searches (by simp [searching])) fun _ => .pure _
  · exact .bind numbers fun _ => .bind (searches (by simp [searching])) fun _ => .pure _
  · exact .bind reads fun _ => .pure _
  · refine keeps_indexNumbers env lib args _ fun value id isInt => ?_
    refine .bind (keeps_changeGraph ?_ ?_) fun _ => .pure _
    · intro g stuck numbered
      obtain ⟨p, added, -⟩ := numbered.add (arg args 2) (arg args 3) value isInt env.coins
      rw [GraphEngine.indexProperty, added] at stuck
      cases stuck
    · intro g g' returned numbered
      obtain ⟨p, added, numbered'⟩ := numbered.add (arg args 2) (arg args 3) value isInt env.coins
      rw [GraphEngine.indexProperty, added] at returned
      cases returned
      exact numbered'
  · refine .bind numbers fun low => .bind numbers fun high =>
      .bind (keeps_askGraph fun d sound stuck => ?_) fun _ => .pure _
    obtain ⟨ids, found⟩ := sound.index.range (arg args 1) (arg args 2) low high
    rw [GraphEngine.rangeQuery, found] at stuck
    cases stuck
  · refine .bind numbers fun value =>
      .bind (keeps_askGraph fun d sound stuck => ?_) fun _ => .pure _
    obtain ⟨ids, found⟩ := sound.index.range (arg args 1) (arg args 2) value value
    rw [GraphEngine.exactQuery, PropertyIndex.exact, found] at stuck
    cases stuck

end

theorem keeps_zsetBranches (mem : b ∈ zsetBranches lib env) (own : b.name ∉ Handler.persistent)
    (args : List Bytes) : Keeps stops True Sound (b.body args) := by
  have numbers {β : Type} {reader : NumReader} {x : Except NumError β} :
      Keeps stops True Sound (number reader x : Action W D β) := keeps_number fun _ _ => trivial
  simp only [zsetBranches, List.mem_cons, List.not_mem_nil, or_false] at mem
  obtain rfl | rfl | rfl | rfl | rfl | rfl | rfl | rfl | rfl | rfl := mem
  · exact .bind numbers fun _ =>
      .bind (keeps_onZsets fun z kept => kept.zadd _ _ _ _) fun _ => .pure _
  · exact .bind (keeps_onZsets fun z kept => kept.zrem _ _) fun _ => .pure _
  · exact .bind (keeps_askZsets fun z _ => ⟨_, rfl⟩) fun _ => .pure _
  · exact .bind numbers fun _ => .bind numbers fun _ =>
      .bind (keeps_askZsets fun z kept => kept.zrange _ _ _) fun _ => .pure _
  · exact .bind numbers fun _ => .bind numbers fun _ =>
      .bind (keeps_askZsets fun z kept => kept.zrangebyscore _ _ _) fun _ => .pure _
  · exact .bind (keeps_askZsets fun z _ => ⟨_, rfl⟩) fun _ => .pure _
  · exact .bind (keeps_askZsets fun z kept => kept.zrank _ _) fun _ => .pure _
  all_goals exact absurd (by simp [Handler.persistent]) own

/-! ### `dispatch` -/

variable [Zero W] [One W] [Add W] [LT W] [DecidableLT W]

/-- A branch in its handler throws only where a number cannot be read that `handle_kv` reads. -/
theorem keeps_enclosed {h : Handler} (mem : b ∈ branches lib env h)
    (own : b.name ∉ Handler.persistent) {args : List Bytes} (named : toUpper (arg args 0) = b.name)
    (enough : b.enough args.length = true) :
    Keeps (b.name ∈ searching) (¬ NumbersRead args) Sound (enclosed h (b.body args)) := by
  cases h with
  | kv => exact keeps_kvBranches env mem named enough
  | graph => exact (keeps_graphBranches env lib mem args).tryCatch keeps_badArgs
  | zset => exact (keeps_zsetBranches env lib mem own args).tryCatch keeps_badArgs

/-- Only the commands that search the graph may go on for ever, only a number that `handle_kv`
cannot read is thrown for, and every command keeps the dispatcher sound. -/
theorem keeps_answer (args : List Bytes) :
    Keeps (toUpper (arg args 0) ∈ searching) (¬ NumbersRead args) Sound (answer lib env args) := by
  cases args with
  | nil => exact .pure _
  | cons word words =>
    cases selected : Branch.select (branches lib env (.ofCommand (toUpper word))) (toUpper word)
        (word :: words) with
    | none =>
      rw [answer_cons, selected]
      exact .pure _
    | some body =>
      obtain ⟨b, mem, named, own, enough⟩ := taken_of_select lib env selected
      rw [named] at mem
      rw [answer_taken lib env mem own named enough]
      have called : toUpper (arg (word :: words) 0) = b.name := named
      exact (keeps_enclosed env lib mem own called enough).mono (fun search => called ▸ search) id

theorem Sound.dispatch {d d' : Dispatcher W D} (sound : Sound d) {args : List Bytes} {reply : Bytes}
    (returned : dispatch lib env d args = Outcome.returned (d', reply)) : Sound d' :=
  (keeps_answer env lib args).outcome sound returned

end

end FastGraph.Dispatcher
