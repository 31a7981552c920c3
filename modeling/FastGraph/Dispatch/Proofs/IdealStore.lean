import FastGraph.Dispatch.IdealStore
import FastGraph.Dispatch.Proofs.Parts

/-!
# The server is the store

A command is answered by the engines as the store answers it, byte for byte, and leaves the two
in step; it throws where the store throws and goes on for ever where the store does.
-/

namespace FastGraph

namespace KVEngine
open RobinHoodMap

/-- The size of the engine is the number of its keys, those whose deadline has been reached
included. -/
theorem Represents.size_eq {e : KVEngine} {A : ExpiringMap Bytes Bytes} (rep : Represents e A) :
    e.size = {k | A.value k ≠ none}.ncard := by
  have slots := rep.map.slots
  let keys := ((Finset.range e.map.capacity).filter fun i => (view e.map.entries i).isSome).image
    fun i => (slot e.map.entries i).key
  have card : keys.card = e.map.size := by
    rw [← rep.map.counted]
    refine Finset.card_image_of_injOn ?_
    intro i hi j hj same
    simp only [Finset.coe_filter, Finset.mem_range, Set.mem_ofPred_eq, Option.isSome_iff_exists]
      at hi hj
    obtain ⟨hi, c, at_i⟩ := hi
    obtain ⟨hj, c', at_j⟩ := hj
    refine slots.distinct i j c c' hi hj at_i at_j ?_
    rw [← (occupied_of_view at_i).2.2, ← (occupied_of_view at_j).2.2]
    exact same
  have stored : {k | A.value k ≠ none} = (keys : Set Bytes) := by
    ext k
    simp only [Set.mem_ofPred_eq, Option.ne_none_iff_exists', keys, Finset.coe_image,
      Finset.coe_filter, Finset.mem_range, Set.mem_image, Option.isSome_iff_exists]
    constructor
    · rintro ⟨v, found⟩
      obtain ⟨i, c, hi, at_i, item⟩ := (rep.value k v).mpr found
      refine ⟨i, ⟨hi, c, at_i⟩, ?_⟩
      rw [← (occupied_of_view at_i).2.2] at item
      exact congrArg Item.key item
    · rintro ⟨i, ⟨hi, c, at_i⟩, rfl⟩
      have held : RobinHood.Has e.map.capacity (view e.map.entries) (slot e.map.entries i).item :=
        ⟨i, c, hi, at_i, (occupied_of_view at_i).2.2.symm⟩
      exact ⟨_, (rep.value _ _).mp (rep.map.probed.has_iff.mp held).2⟩
  rw [stored, Set.ncard_coe_finset, card]
  rfl

end KVEngine

namespace IdealStore
open Dispatcher Program

variable {W D α : Type} [Inhabited D] [LinearOrder D]

/-- The server has the contents `A`. -/
structure Holds (d : Dispatcher W D) (A : IdealStore W D) : Prop where
  kv : KVEngine.Represents d.kv A.kv
  graph : d.graph = A.graph
  zsets : SortedSetEngine.Represents d.zsets A.zsets

/-- A call of the key-value engine that is one of its calls answers as the map does. -/
theorem sim_onKv (mk : α → KVEngine.Reply) {f : KVEngine → Option (KVEngine × α)} {now : Int}
    {c : KVEngine.Call} {reply : α → Bytes} {reply' : KVEngine.Reply → Bytes}
    (called : ∀ e, e.call now c = (f e).map fun r => (r.1, mk r.2))
    (same : ∀ a, reply' (mk a) = reply a) :
    Sim (Holds (W := W) (D := D)) (onKv f >>= fun a => pure (reply a))
      (serve now (.kv c reply')) := by
  intro d A holds
  obtain ⟨kv, answered, rep⟩ := KVEngine.call_refines holds.kv now c
  rw [called] at answered
  obtain ⟨⟨kv', a⟩, returned, pair⟩ := Option.map_eq_some_iff.mp answered
  obtain ⟨rfl, reply_eq⟩ := Prod.mk.inj pair
  have here : (onKv f : Dispatcher.Action W D α).run d = some (.ok a, { d with kv := kv' }) := by
    refine run_call_returned ?_
    rw [returned]
    rfl
  have there : (serve now (.kv c reply') : Action W D Bytes).run A =
      some (.ok (reply' (KVEngine.idealCall A.kv now c).2),
        { A with kv := (KVEngine.idealCall A.kv now c).1 }) := by
    unfold serve
    exact run_call_returned rfl
  rw [run_bind, here, there]
  refine .some ⟨?_, ⟨rep, holds.graph, holds.zsets⟩⟩
  rw [← reply_eq, same]

/-- Numbers are read alike. -/
theorem sim_number {reader : NumReader} {x : Except NumError α} {f : α → Dispatcher.Action W D Bytes}
    {g : α → Except StdException (Request D)} {now : Int}
    (rest : ∀ a, Sim Holds (f a) (perform now (g a))) :
    Sim Holds (number reader x >>= f) (perform now (readNumber reader x >>= g)) := by
  cases x with
  | ok a => exact rest a
  | error e => exact fun d A holds => .some ⟨rfl, holds⟩

theorem sim_setOptions {f : Int → Dispatcher.Action W D Bytes}
    {g : Int → Except StdException (Request D)} {now : Int}
    (rest : ∀ ms, Sim Holds (f ms) (perform now (g ms))) (words : List Bytes) (ms : Int) :
    Sim Holds (setOptions words ms >>= f) (perform now (lifetime words ms >>= g)) := by
  induction words generalizing ms with
  | nil => exact rest ms
  | cons opt words ih =>
    cases words with
    | nil => exact rest ms
    | cons val words =>
      unfold setOptions lifetime setOption
      split
      · rw [bind_assoc, bind_assoc, bind_assoc]
        exact sim_number fun n => ih _
      · split
        · rw [bind_assoc, bind_assoc]
          exact sim_number fun n => ih n
        · exact ih ms

/-- A call of the sorted sets that is one of its calls answers as the family of maps does. -/
theorem sim_onZsets (now : Int) (mk : α → SortedSetEngine.Reply D)
    {f : SortedSetEngine D → Option (SortedSetEngine D × α)}
    {c c' : SortedSetEngine.Call D} {reply : α → Bytes}
    {reply' : SortedSetEngine.Reply D → Bytes}
    (called : ∀ z, z.call c = (f z).map fun r => (r.1, mk r.2))
    (levels : ∀ A, SortedSetEngine.intCall A c = SortedSetEngine.intCall A c')
    (same : ∀ a, reply' (mk a) = reply a) :
    Sim (Holds (W := W) (D := D)) (onZsets f >>= fun a => pure (reply a))
      (serve now (.zset c' reply')) := by
  intro d A holds
  obtain ⟨z, answered, rep⟩ := SortedSetEngine.call_refines holds.zsets c
  rw [called] at answered
  obtain ⟨⟨z', a⟩, returned, pair⟩ := Option.map_eq_some_iff.mp answered
  obtain ⟨rfl, reply_eq⟩ := Prod.mk.inj pair
  have here : (onZsets f : Dispatcher.Action W D α).run d =
      some (.ok a, { d with zsets := z' }) := by
    refine run_call_returned ?_
    rw [returned]
    rfl
  have there : (serve now (.zset c' reply') : Action W D Bytes).run A =
      some (.ok (reply' (SortedSetEngine.intCall A.zsets c').2),
        { A with zsets := (SortedSetEngine.intCall A.zsets c').1 }) := by
    unfold serve
    exact run_call_returned rfl
  rw [run_bind, here, there, ← levels]
  refine .some ⟨?_, ⟨holds.kv, holds.graph, rep⟩⟩
  rw [← reply_eq, same]

omit [Inhabited D] [LinearOrder D] in
/-- A question to the sorted sets is a call that changes nothing. -/
theorem askZsets_eq (f : SortedSetEngine D → Option α) (g : α → Bytes) :
    (askZsets f >>= fun a => pure (g a) : Dispatcher.Action W D Bytes) =
      onZsets (fun z => (f z).map fun a => (z, a)) >>= fun a => pure (g a) := by
  congr 1
  unfold askZsets onZsets Program.ask
  congr 1
  funext d
  cases called : f d.zsets <;> simp [called, Outcome.ofOption]

/-! ### The branches -/

/-- The branches of two handlers, one by one. -/
def Parallel {β γ : Type} (R : β → γ → Prop) (b : Branch β) (b' : Branch γ) : Prop :=
  b.name = b'.name ∧ b.enough = b'.enough ∧ ∀ args, R (b.body args) (b'.body args)

theorem select_parallel {β γ : Type} {R : β → γ → Prop} {bs : List (Branch β)}
    {bs' : List (Branch γ)} (parallel : List.Forall₂ (Parallel R) bs bs') (cmd : Bytes)
    (args : List Bytes) :
    Option.Rel R (Branch.select bs cmd args) (Branch.select bs' cmd args) := by
  induction parallel with
  | nil => exact .none
  | @cons b b' bs bs' same _ ih =>
    obtain ⟨name, enough, bodies⟩ := same
    unfold Branch.select at ih ⊢
    rw [List.find?_cons, List.find?_cons, name, enough]
    cases decide (cmd = b'.name) && b'.enough args.length with
    | true => exact .some (bodies args)
    | false => exact ih

/-- Branches of other commands are not taken. -/
theorem select_append {β : Type} {bs bs' : List (Branch β)} {cmd : Bytes} {args : List Bytes}
    (others : cmd ∉ bs'.map Branch.name) :
    Branch.select (bs ++ bs') cmd args = Branch.select bs cmd args := by
  have none : bs'.find? (fun b => decide (cmd = b.name) && b.enough args.length) = none := by
    rw [List.find?_eq_none]
    intro b mem test
    rw [Bool.and_eq_true, decide_eq_true_eq] at test
    exact others (List.mem_map.mpr ⟨b, mem, test.1.symm⟩)
  unfold Branch.select
  rw [List.find?_append, none, Option.or_none]

variable (lib : FloatLib W D) (env : Env)

/-- A branch of a handler does what the request of its command asks for. -/
def Meets (p : Dispatcher.Action W D Bytes) (request : Except StdException (Request D)) : Prop :=
  Sim Holds p (perform env.now request)

/-- A command that changes nothing. -/
theorem meets_say (reply : Bytes) :
    Meets (W := W) (D := D) env (pure reply) (pure (.say reply)) := Sim.pure reply

theorem meets_count :
    Meets (W := W) (D := D) env (onKv (fun kv => some (kv, kv.size)) >>= fun n =>
      pure (RespEncoder.integer n)) (pure (.count fun n => RespEncoder.integer n)) := by
  intro d A holds
  have here : (onKv (fun kv => some (kv, kv.size)) : Dispatcher.Action W D Nat).run d =
      some (.ok d.kv.size, d) := run_call_returned rfl
  have there : (serve env.now (.count fun n => RespEncoder.integer n) : Action W D Bytes).run A =
      some (.ok (RespEncoder.integer {k | A.kv.value k ≠ none}.ncard), A) := by
    unfold serve
    exact run_call_returned rfl
  change Option.Rel _ _ ((serve env.now (.count fun n => RespEncoder.integer n) : Action W D Bytes).run A)
  rw [run_bind, here, there, ← holds.kv.size_eq]
  exact .some ⟨rfl, holds⟩

theorem kv_parallel :
    List.Forall₂ (Parallel (Meets (W := W) (D := D) env)) (kvBranches env) kvRequests := by
  refine .cons ⟨rfl, rfl, fun args => meets_say env _⟩ <|
    .cons ⟨rfl, rfl, fun args => ?set⟩ <| .cons ⟨rfl, rfl, fun args => ?get⟩ <|
    .cons ⟨rfl, rfl, fun args => ?del⟩ <| .cons ⟨rfl, rfl, fun args => ?existsKey⟩ <|
    .cons ⟨rfl, rfl, fun args => ?expire⟩ <| .cons ⟨rfl, rfl, fun args => ?pexpire⟩ <|
    .cons ⟨rfl, rfl, fun args => ?ttl⟩ <| .cons ⟨rfl, rfl, fun args => ?pttl⟩ <|
    .cons ⟨rfl, rfl, fun args => ?persist⟩ <| .cons ⟨rfl, rfl, fun args => meets_count env⟩ <|
    .cons ⟨rfl, rfl, fun args => meets_say env _⟩ .nil
  case set =>
    refine sim_setOptions (W := W) (D := D) (fun ms => ?_) _ _
    change Sim Holds (onKv (fun kv => kv.set (arg args 1) (arg args 2) ms env.now) >>= fun _ =>
      pure okReply) (serve env.now (.kv (.set (arg args 1) (arg args 2) ms) fun _ => okReply))
    refine sim_onKv .flag ?_ fun _ => rfl
    intro e
    cases called : e.set (arg args 1) (arg args 2) ms env.now <;> simp [KVEngine.call, called]
  case get =>
    refine sim_onKv .value ?_ fun v => ?_
    · intro e
      cases called : e.get (arg args 1) env.now <;> simp [KVEngine.call, called]
    · cases v <;> rfl
  case del =>
    refine sim_onKv .flag ?_ fun _ => rfl
    intro e
    cases called : e.del (arg args 1) <;> simp [KVEngine.call, called]
  case existsKey =>
    refine sim_onKv .flag ?_ fun _ => rfl
    intro e
    cases called : e.existsKey (arg args 1) env.now <;> simp [KVEngine.call, called]
  case expire =>
    refine sim_number fun n => sim_onKv .flag ?_ fun _ => rfl
    intro e
    cases called : e.expire (arg args 1) (toInt64 (n * 1000)) env.now <;>
      simp [KVEngine.call, called]
  case pexpire =>
    refine sim_number fun n => sim_onKv .flag ?_ fun _ => rfl
    intro e
    cases called : e.expire (arg args 1) n env.now <;> simp [KVEngine.call, called]
  case ttl =>
    have whole : (Dispatcher.ttl env args : Dispatcher.Action W D Bytes) =
        keyTtl env args >>= fun ms => pure (secondsReply (.ms ms)) := by
      unfold Dispatcher.ttl
      congr 1
      funext ms
      simp only [secondsReply]
      split
      · rfl
      · split <;> rfl
    change Sim Holds (Dispatcher.ttl env args) _
    rw [whole]
    refine sim_onKv .ms ?_ fun _ => rfl
    intro e
    cases called : e.ttl (arg args 1) env.now <;> simp [KVEngine.call, called]
  case pttl =>
    refine sim_onKv .ms ?_ fun _ => rfl
    intro e
    cases called : e.ttl (arg args 1) env.now <;> simp [KVEngine.call, called]
  case persist =>
    refine sim_onKv .flag ?_ fun _ => rfl
    intro e
    rfl

theorem zset_parallel :
    List.Forall₂ (Parallel (Meets (W := W) (D := D) env)) ((zsetBranches lib env).take 7)
      (zsetRequests lib) := by
  refine .cons ⟨rfl, rfl, fun args => ?zadd⟩ <| .cons ⟨rfl, rfl, fun args => ?zrem⟩ <|
    .cons ⟨rfl, rfl, fun args => ?zscore⟩ <| .cons ⟨rfl, rfl, fun args => ?zrange⟩ <|
    .cons ⟨rfl, rfl, fun args => ?zrangebyscore⟩ <| .cons ⟨rfl, rfl, fun args => ?zcard⟩ <|
    .cons ⟨rfl, rfl, fun args => ?zrank⟩ .nil
  case zadd =>
    refine sim_number (W := W) (D := D) fun score => ?_
    change Sim Holds (onZsets (fun z => z.zadd (arg args 1) env.coins score (arg args 3)) >>= fun n =>
      pure (RespEncoder.integer n)) (serve env.now (.zset (.zadd (arg args 1) [] score (arg args 3))
        (zsetReply lib (withScore lib))))
    refine sim_onZsets (W := W) env.now .int (c := .zadd (arg args 1) env.coins score (arg args 3)) ?_
      (fun _ => rfl) fun _ => rfl
    intro z
    cases called : z.zadd (arg args 1) env.coins score (arg args 3) <;>
      simp [SortedSetEngine.call, called]
  case zrem =>
    refine sim_onZsets (W := W) env.now .flag (c := .zrem (arg args 1) (arg args 2)) ?_ (fun _ => rfl)
      fun _ => rfl
    intro z
    cases called : z.zrem (arg args 1) (arg args 2) <;> simp [SortedSetEngine.call, called]
  case zscore =>
    change Sim Holds (Dispatcher.zscore lib args) _
    unfold Dispatcher.zscore
    rw [askZsets_eq]
    refine sim_onZsets (W := W) env.now .score (c := .zscore (arg args 1) (arg args 2)) ?_ (fun _ => rfl)
      fun s => ?_
    · intro z
      rfl
    · cases s <;> rfl
  case zrange =>
    refine sim_number (W := W) (D := D) fun start => sim_number fun stop => ?_
    rw [askZsets_eq]
    refine sim_onZsets (W := W) env.now .elements (c := .zrange (arg args 1) start stop) ?_ (fun _ => rfl)
      fun es => ?_
    · intro z
      cases called : z.zrange (arg args 1) start stop <;> simp [SortedSetEngine.call, called]
    · rfl
  case zrangebyscore =>
    refine sim_number (W := W) (D := D) fun low => sim_number fun high => ?_
    rw [askZsets_eq]
    refine sim_onZsets (W := W) env.now .elements (c := .zrangebyscore (arg args 1) low high) ?_
      (fun _ => rfl) fun es => ?_
    · intro z
      cases called : z.zrangebyscore (arg args 1) low high <;>
        simp [SortedSetEngine.call, called]
    · rfl
  case zcard =>
    change Sim Holds (Dispatcher.zcard args) _
    unfold Dispatcher.zcard
    rw [askZsets_eq]
    refine sim_onZsets (W := W) env.now .int (c := .zcard (arg args 1)) ?_ (fun _ => rfl) fun _ => rfl
    intro z
    rfl
  case zrank =>
    change Sim Holds (Dispatcher.zrank args) _
    unfold Dispatcher.zrank
    rw [askZsets_eq]
    refine sim_onZsets (W := W) env.now .int (c := .zrank (arg args 1) (arg args 2)) ?_ (fun _ => rfl)
      fun _ => rfl
    intro z
    cases called : z.zrank (arg args 1) (arg args 2) <;> simp [SortedSetEngine.call, called]

/-! ### The handlers -/

section
variable [Zero W] [One W] [Add W] [LT W] [DecidableLT W]

omit [Zero W] [One W] [Add W] [LT W] [DecidableLT W] in
/-- A graph command does on the graph of a server what it does on the graph alone. -/
theorem sim_onGraphAlone {p : Dispatcher.Action W D α} (within : Within graphPart p) :
    Sim (Holds (W := W) (D := D)) p (onGraphAlone p) := by
  obtain ⟨q, here⟩ := within
  intro d A holds
  change Option.Rel _ (p.run d) ((p.run (graphServer A.graph)).map _)
  rw [here, here]
  change Option.Rel _ ((q.run d.graph).map _) (((q.run A.graph).map _).map _)
  rw [holds.graph]
  cases q.run A.graph with
  | none => exact .none
  | some r => exact .some ⟨rfl, ⟨holds.kv, rfl, holds.zsets⟩⟩

/-- In its handler a command is answered as the store answers it. -/
theorem sim_handle (cmd : Bytes) (args : List Bytes) :
    Sim Holds (handledBy env lib cmd args (Handler.ofCommand cmd))
      (handle lib env cmd args (Handler.ofCommand cmd)) := by
  cases route : Handler.ofCommand cmd with
  | kv =>
    have taken := select_parallel (kv_parallel (W := W) (D := D) env) cmd args
    simp only [handledBy, handleKv, handle]
    generalize Branch.select (kvBranches env) cmd args = x at taken
    generalize Branch.select (kvRequests (D := D)) cmd args = y at taken
    cases taken with
    | none => exact Sim.pure _
    | some meets => exact meets
  | graph => exact sim_onGraphAlone (within_handleGraph env lib cmd args)
  | zset =>
    have own : cmd ∉ ((zsetBranches lib env).drop 7).map Branch.name := by
      have all : ∀ n ∈ Handler.persistent, Handler.ofCommand n ≠ .zset := by decide
      intro mem
      exact all cmd mem route
    have select : Branch.select (zsetBranches lib env) cmd args =
        Branch.select ((zsetBranches lib env).take 7) cmd args := by
      conv_lhs => rw [← List.take_append_drop 7 (zsetBranches lib env)]
      exact select_append own
    have taken := select_parallel (zset_parallel (W := W) lib env) cmd args
    simp only [handledBy, handleZset, handle, select]
    generalize Branch.select ((zsetBranches lib env).take 7) cmd args = x at taken
    generalize Branch.select (zsetRequests lib) cmd args = y at taken
    cases taken with
    | none => exact Sim.pure _
    | some meets => exact meets.tryCatch fun e => Sim.pure _

theorem sim_answer (args : List Bytes) :
    Sim Holds (Dispatcher.answer lib env args) (answer lib env args) := by
  cases args with
  | nil => exact Sim.pure _
  | cons word words =>
    rw [answer_routed]
    exact sim_handle lib env (toUpper word) (word :: words)

/-- The server answers a command as the store does. -/
theorem dispatch_alike {d : Dispatcher W D} {A : IdealStore W D} (holds : Holds d A)
    (args : List Bytes) :
    Outcome.Alike (fun x y => Holds x.1 y.1 ∧ x.2 = y.2) (Dispatcher.dispatch lib env d args)
      (dispatch lib env A args) :=
  (sim_answer lib env args).outcome holds

end

end IdealStore

end FastGraph
