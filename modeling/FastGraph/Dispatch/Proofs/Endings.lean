import FastGraph.Dispatch.Proofs.Calls

/-!
# When a command returns

`handle_graph` and `handle_zset` catch what their branches throw, `handle_kv` does not. A command
that reads its numbers and whose search of the graph comes to an end is answered, and no other.
-/

namespace FastGraph.Dispatcher
open Program

section
variable {W D α β : Type} {d : Dispatcher W D}

theorem ends_number_bind {reader : NumReader} {x : Except NumError β} {f : β → Action W D α} :
    Ends (number reader x >>= f) d ↔ ∀ b, x = .ok b → Ends (f b) d := by
  cases x with
  | error e =>
    refine iff_of_true (fun never => by cases never) ?_
    intro b same
    cases same
  | ok b =>
    change Ends (f b) d ↔ _
    simp

/-- A question for the graph engine, after which nothing is asked. -/
theorem ends_askGraph_bind {f : GraphEngine W D → Outcome StdException β} {g : β → Action W D α}
    (rest : ∀ b d, Ends (g b) d) :
    Ends (askGraph f >>= g) d ↔ f d.graph ≠ Outcome.stuck := by
  rw [ends_bind, askGraph, ends_ask]
  exact and_iff_left fun d' b _ => rest b d'

/-- A change of the graph engine that always succeeds. -/
theorem ends_changeGraph_bind {f : GraphEngine W D → GraphEngine W D} {g : Unit → Action W D α} :
    Ends (changeGraph (fun e => pure (f e)) >>= g) d ↔ Ends (g ()) { d with graph := f d.graph } :=
  Iff.rfl

theorem ofOption_ne_stuck {x : Option α} :
    (Outcome.ofOption x : Outcome StdException α) ≠ Outcome.stuck ↔ ∃ a, x = some a := by
  cases x with
  | none => simp [Outcome.ofOption]
  | some a => simp [Outcome.ofOption]

/-! ### The searches -/

variable [Zero W] [Add W] [LT W] [DecidableLT W] (lib : FloatLib W D) {env : Env} {args : List Bytes}

omit [Zero W] [Add W] [LT W] [DecidableLT W] in
theorem ends_path : Ends (path env args) d ↔
    ∀ src, stoi (arg args 1) = .ok src → ∀ dst, stoi (arg args 2) = .ok dst →
      ∃ r, bfsPath env.fuel d.graph.graph src dst (relArg args) d.graph.queryArena.reset =
        Outcome.returned r := by
  unfold path
  simp only [intArg, ends_number_bind]
  refine forall₄_congr fun src _ dst _ => ?_
  rw [ends_changeGraph_bind, ends_bind,
    and_iff_left (fun d' path _ => by split <;> exact ends_pure _), onGraph, ends_call]
  have searched : bfsPath env.fuel d.graph.resetQueryArena.graph src dst (relArg args)
      d.graph.resetQueryArena.queryArena =
      bfsPath env.fuel d.graph.graph src dst (relArg args) d.graph.queryArena.reset := rfl
  simp only [searched]
  rcases Outcome.cases (bfsPath env.fuel d.graph.graph src dst (relArg args)
      d.graph.queryArena.reset) with same | ⟨e, same⟩ | ⟨r, same⟩
  · rw [same]
    exact iff_of_false (fun ends => ends rfl) (by simp)
  · rw [same]
    exact iff_of_false (fun ends => ends rfl) (by simp)
  · rw [same]
    exact iff_of_true (fun never => by cases never) ⟨r, rfl⟩

theorem ends_wpath : Ends (wpath lib env args) d ↔
    ∀ src, stoi (arg args 1) = .ok src → ∀ dst, stoi (arg args 2) = .ok dst →
      ∃ path, dijkstraPath env.fuel d.graph.graph src dst (relArg args) = some path := by
  unfold wpath
  simp only [intArg, ends_number_bind]
  refine forall₄_congr fun src _ dst _ => ?_
  rw [ends_askGraph_bind, ofOption_ne_stuck]
  intro path d'
  split <;> exact ends_pure _

theorem ends_distances : Ends (distances lib env args) d ↔
    ∀ src, stoi (arg args 1) = .ok src →
      ∃ m, dijkstraAll env.fuel d.graph.graph src = some m := by
  unfold distances
  simp only [intArg, ends_number_bind]
  refine forall₂_congr fun src _ => ?_
  rw [ends_askGraph_bind, ofOption_ne_stuck]
  exact fun _ _ => ends_pure _

omit [Zero W] [Add W] [LT W] [DecidableLT W] in
theorem ends_neighborhood : Ends (neighborhood env args) d ↔
    ∀ src, stoi (arg args 1) = .ok src → ∀ hops, stoi (arg args 2) = .ok hops →
      ∃ r, bfsNeighborhood env.fuel d.graph.graph src hops (relArg args) = some r := by
  unfold neighborhood
  simp only [intArg, ends_number_bind]
  refine forall₄_congr fun src _ hops _ => ?_
  rw [ends_askGraph_bind, ofOption_ne_stuck]
  exact fun _ _ => ends_pure _

omit [Zero W] [Add W] [LT W] [DecidableLT W] in
theorem ends_component : Ends (component env args) d ↔
    ∀ src, stoi (arg args 1) = .ok src →
      ∃ ids, bfsComponent env.fuel d.graph.graph src = some ids := by
  unfold component
  simp only [intArg, ends_number_bind]
  refine forall₂_congr fun src _ => ?_
  rw [ends_askGraph_bind, ofOption_ne_stuck]
  exact fun _ _ => ends_pure _

omit [Zero W] [Add W] [LT W] [DecidableLT W] in
theorem ends_hasCycle (args : List Bytes) : Ends (hasCycle env args) d ↔
    ∃ found, dfsHasCycle env.fuel d.graph.graph env.order = some found := by
  unfold hasCycle
  rw [ends_askGraph_bind, ofOption_ne_stuck]
  exact fun _ _ => ends_pure _

end

section
variable {W D : Type} [Zero W] [One W] [Add W] [LT W] [DecidableLT W]
variable [Inhabited D] [BEq D] [LT D] [DecidableLT D] [LE D] [DecidableLE D]
variable (lib : FloatLib W D) {env : Env} {d : Dispatcher W D} {args : List Bytes}

/-- The search that a command makes comes to its end inside its arrays. -/
structure SearchReturns (env : Env) (d : Dispatcher W D) (args : List Bytes) : Prop where
  path : toUpper (arg args 0) = str "GRAPH.PATH" →
    ∀ src, stoi (arg args 1) = .ok src → ∀ dst, stoi (arg args 2) = .ok dst →
      ∃ r, bfsPath env.fuel d.graph.graph src dst (relArg args) d.graph.queryArena.reset =
        Outcome.returned r
  wpath : toUpper (arg args 0) = str "GRAPH.WPATH" →
    ∀ src, stoi (arg args 1) = .ok src → ∀ dst, stoi (arg args 2) = .ok dst →
      ∃ path, dijkstraPath env.fuel d.graph.graph src dst (relArg args) = some path
  neighborhood : toUpper (arg args 0) = str "GRAPH.NEIGHBORHOOD" →
    ∀ src, stoi (arg args 1) = .ok src → ∀ hops, stoi (arg args 2) = .ok hops →
      ∃ r, bfsNeighborhood env.fuel d.graph.graph src hops (relArg args) = some r
  component : toUpper (arg args 0) = str "GRAPH.COMPONENT" →
    ∀ src, stoi (arg args 1) = .ok src →
      ∃ ids, bfsComponent env.fuel d.graph.graph src = some ids
  hasCycle : toUpper (arg args 0) = str "GRAPH.HAS_CYCLE" →
    ∃ found, dfsHasCycle env.fuel d.graph.graph env.order = some found
  distances : toUpper (arg args 0) = str "GRAPH.DISTANCES" →
    ∀ src, stoi (arg args 1) = .ok src →
      ∃ m, dijkstraAll env.fuel d.graph.graph src = some m

/-- The branches that search end if their searches do. -/
theorem ends_of_searchReturns {b : Branch (Action W D Bytes)} (mem : b ∈ graphBranches lib env)
    (search : b.name ∈ searching) (named : toUpper (arg args 0) = b.name)
    (returns : SearchReturns env d args) : Ends (b.body args) d := by
  simp only [graphBranches, List.mem_cons, List.not_mem_nil, or_false] at mem
  obtain rfl | rfl | rfl | rfl | rfl | rfl | rfl | rfl | rfl | rfl | rfl | rfl | rfl | rfl | rfl |
    rfl | rfl | rfl | rfl | rfl | rfl := mem
  all_goals dsimp only at search
  all_goals try exact absurd search (by decide)
  · exact ends_path.mpr (returns.path named)
  · exact (ends_wpath lib).mpr (returns.wpath named)
  · exact ends_neighborhood.mpr (returns.neighborhood named)
  · exact ends_component.mpr (returns.component named)
  · exact (ends_hasCycle args).mpr (returns.hasCycle named)
  · exact (ends_distances lib).mpr (returns.distances named)

/-- An argument that can be read is there. -/
theorem lt_of_stoi {i : Nat} {n : Int} (read : stoi (arg args i) = .ok n) : i < args.length := by
  by_contra missing
  rw [arg, List.getD_eq_default _ _ (by omega)] at read
  cases read

/-- A graph command that has returned has ended. -/
theorem ends_of_returned {b : Branch (Action W D Bytes)} (mem : b ∈ graphBranches lib env)
    {word : Bytes} {words : List Bytes} (named : toUpper word = b.name)
    (enough : b.enough (word :: words).length = true) {d' : Dispatcher W D} {reply : Bytes}
    (returned : dispatch lib env d (word :: words) = Outcome.returned (d', reply)) :
    Ends (b.body (word :: words)) d := by
  have own : b.name ∉ Handler.persistent := by
    have others : ∀ n ∈ Handler.graph.names, n ∉ Handler.persistent := by decide
    apply others
    rw [← names_branches lib env]
    exact List.mem_map_of_mem mem
  have taken := answer_taken lib env (h := .graph) mem own named enough
  unfold dispatch at returned
  rw [taken] at returned
  exact ends_iff_caught.mpr ⟨d', reply, returned⟩

/-- Where a command has returned its search has. -/
theorem searchReturns_of_returned {d' : Dispatcher W D} {reply : Bytes}
    (returned : dispatch lib env d args = Outcome.returned (d', reply)) :
    SearchReturns env d args := by
  cases args with
  | nil => constructor <;> exact fun named => absurd named (by decide)
  | cons word words =>
    refine ⟨?_, ?_, ?_, ?_, ?_, ?_⟩
    · intro named src readSrc dst readDst
      have ends := ends_of_returned lib (b := ⟨str "GRAPH.PATH", (3 ≤ ·), path env⟩)
        (by simp [graphBranches]) named (decide_eq_true (lt_of_stoi readDst)) returned
      exact ends_path.mp ends src readSrc dst readDst
    · intro named src readSrc dst readDst
      have ends := ends_of_returned lib (b := ⟨str "GRAPH.WPATH", (3 ≤ ·), wpath lib env⟩)
        (by simp [graphBranches]) named (decide_eq_true (lt_of_stoi readDst)) returned
      exact (ends_wpath lib).mp ends src readSrc dst readDst
    · intro named src readSrc hops readHops
      have ends := ends_of_returned lib (b := ⟨str "GRAPH.NEIGHBORHOOD", (3 ≤ ·), neighborhood env⟩)
        (by simp [graphBranches]) named (decide_eq_true (lt_of_stoi readHops)) returned
      exact ends_neighborhood.mp ends src readSrc hops readHops
    · intro named src readSrc
      have ends := ends_of_returned lib (b := ⟨str "GRAPH.COMPONENT", (2 ≤ ·), component env⟩)
        (by simp [graphBranches]) named (decide_eq_true (lt_of_stoi readSrc)) returned
      exact ends_component.mp ends src readSrc
    · intro named
      have ends := ends_of_returned lib (b := ⟨str "GRAPH.HAS_CYCLE", fun _ => true, hasCycle env⟩)
        (by simp [graphBranches]) named rfl returned
      exact (ends_hasCycle (word :: words)).mp ends
    · intro named src readSrc
      have ends := ends_of_returned lib (b := ⟨str "GRAPH.DISTANCES", (2 ≤ ·), distances lib env⟩)
        (by simp [graphBranches]) named (decide_eq_true (lt_of_stoi readSrc)) returned
      exact (ends_distances lib).mp ends src readSrc

/-! ### The numbers of `handle_kv` -/

omit [Zero W] [One W] [Add W] [LT W] [DecidableLT W] [Inhabited D] [BEq D] [LT D] [DecidableLT D]
  [LE D] [DecidableLE D] in
theorem read_of_returned {α : Type} {reader : NumReader} {x : Except NumError α} {d' : Dispatcher W D}
    {a : α} (returned : (number reader x : Action W D α).outcome d = Outcome.returned (d', a)) :
    x = .ok a ∧ d' = d := by
  cases x with
  | ok b =>
    cases returned
    exact ⟨rfl, rfl⟩
  | error e => cases returned

omit [Zero W] [One W] [Add W] [LT W] [DecidableLT W] [Inhabited D] [BEq D] [LT D] [DecidableLT D]
  [LE D] [DecidableLE D] in
theorem optionsRead_of_returned {words : List Bytes} {ttlMs ms : Int} {d' : Dispatcher W D}
    (returned : (setOptions words ttlMs : Action W D Int).outcome d = Outcome.returned (d', ms)) :
    OptionsRead words := by
  induction words generalizing ttlMs d with
  | nil => trivial
  | cons opt words ih =>
    cases words with
    | nil => trivial
    | cons val rest =>
      rw [setOptions] at returned
      obtain ⟨d₁, ttl, first, later⟩ := outcome_bind_returned returned
      refine ⟨?_, ih later⟩
      intro named
      unfold setOption at first
      split at first
      · obtain ⟨d₂, n, read, -⟩ := outcome_bind_returned first
        exact ⟨n, (read_of_returned read).1⟩
      · rename_i notEx
        rw [if_pos (named.resolve_left notEx)] at first
        exact ⟨ttl, (read_of_returned first).1⟩

/-- A call of `handle_kv` that has returned has read its numbers. -/
theorem numbersRead_of_returned {d' : Dispatcher W D} {reply : Bytes}
    (returned : dispatch lib env d args = Outcome.returned (d', reply)) : NumbersRead args := by
  cases args with
  | nil =>
    refine ⟨fun _ => trivial, ?_⟩
    intro _ enough
    cases enough
  | cons word words =>
    have body {b : Branch (Action W D Bytes)} (mem : b ∈ kvBranches env)
        (named : toUpper word = b.name) (enough : b.enough (word :: words).length = true) :
        (b.body (word :: words)).outcome d = Outcome.returned (d', reply) := by
      have own : b.name ∉ Handler.persistent := by
        have others : ∀ n ∈ Handler.kv.names, n ∉ Handler.persistent := by decide
        apply others
        rw [← names_branches lib env]
        exact List.mem_map_of_mem mem
      have taken := answer_taken lib env (h := .kv) mem own named enough
      unfold dispatch at returned
      rwa [taken] at returned
    refine ⟨?_, ?_⟩
    · intro named
      by_cases enough : 3 ≤ (word :: words).length
      · have ran := body (b := ⟨str "SET", (3 ≤ ·), set env⟩) (by simp [kvBranches]) named
          (decide_eq_true enough)
        obtain ⟨d₁, ms, options, -⟩ := outcome_bind_returned ran
        exact optionsRead_of_returned options
      · rw [List.drop_eq_nil_of_le (by omega)]
        trivial
    · rintro (named | named) enough
      · have ran := body (b := ⟨str "EXPIRE", (3 ≤ ·), expire env⟩) (by simp [kvBranches]) named
          (decide_eq_true enough)
        obtain ⟨d₁, n, read, -⟩ := outcome_bind_returned ran
        exact ⟨n, (read_of_returned read).1⟩
      · have ran := body (b := ⟨str "PEXPIRE", (3 ≤ ·), pexpire env⟩) (by simp [kvBranches]) named
          (decide_eq_true enough)
        obtain ⟨d₁, n, read, -⟩ := outcome_bind_returned ran
        exact ⟨n, (read_of_returned read).1⟩

/-- A call returns exactly if the numbers that `handle_kv` reads are numbers and its search
returns. -/
theorem returns_iff (sound : Sound d) :
    (∃ d' reply, dispatch lib env d args = Outcome.returned (d', reply)) ↔
      NumbersRead args ∧ SearchReturns env d args := by
  constructor
  · intro ⟨d', reply, returned⟩
    exact ⟨numbersRead_of_returned lib returned, searchReturns_of_returned lib returned⟩
  · intro ⟨numbers, searches⟩
    by_cases search : toUpper (arg args 0) ∈ searching
    · cases args with
      | nil => exact absurd search (by decide)
      | cons word words =>
        cases selected : Branch.select (branches lib env (.ofCommand (toUpper word))) (toUpper word)
            (word :: words) with
        | none => exact ⟨d, _, dispatch_missed lib env selected⟩
        | some body =>
          obtain ⟨b, mem, named, own, enough⟩ := taken_of_select lib env selected
          have called : toUpper (arg (word :: words) 0) = b.name := named
          rw [called] at search
          have routes : ∀ n ∈ searching, Handler.ofCommand n = .graph := by decide
          rw [named, routes b.name search] at mem
          unfold dispatch
          rw [answer_taken lib env mem own named enough]
          exact ends_iff_caught.mp (ends_of_searchReturns lib mem search called searches)
    · exact ((keeps_answer env lib args).mono search (fun unread => unread numbers)).returns sound

end

end FastGraph.Dispatcher
