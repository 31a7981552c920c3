import FastGraph.Dispatch.Proofs.Calls
import FastGraph.Kv.Proofs.Lifetime

/-!
# Times to live on their way to the clock

The number of `EX`, `PX`, `EXPIRE` or `PEXPIRE` is multiplied, tested for its sign and added to
the clock in 64 bits, and none of this is checked. A key lives as long as asked for exactly
where the deadline fits into the 64 bits, or where a `SET` takes the wrapped number for none.
-/

namespace FastGraph.Dispatcher
open Program RespEncoder

/-- A call of a command that gives the key a time to live of `ms` milliseconds, and a value if it
stores one. -/
inductive Asks : List Bytes → Bytes → Int → Option Bytes → Prop where
  | setEx {word key val opt num : Bytes} {n : Int} (named : toUpper word = str "SET")
      (option : toUpper opt = str "EX") (read : stoll num = .ok n) :
      Asks [word, key, val, opt, num] key (1000 * n) (some val)
  | setPx {word key val opt num : Bytes} {n : Int} (named : toUpper word = str "SET")
      (option : toUpper opt = str "PX") (read : stoll num = .ok n) :
      Asks [word, key, val, opt, num] key n (some val)
  | expire {word key num : Bytes} {n : Int} (named : toUpper word = str "EXPIRE")
      (read : stoll num = .ok n) : Asks [word, key, num] key (1000 * n) none
  | pexpire {word key num : Bytes} {n : Int} (named : toUpper word = str "PEXPIRE")
      (read : stoll num = .ok n) : Asks [word, key, num] key n none

/-- The option of `SET` and the command that take a time to live in units of so many
milliseconds. -/
inductive TakesUnit : Bytes → Bytes → Int → Prop where
  | seconds : TakesUnit (str "EX") (str "EXPIRE") 1000
  | milliseconds : TakesUnit (str "PX") (str "PEXPIRE") 1

section
variable {W D : Type} {env : Env} {d : Dispatcher W D} {α : Type}

/-- One option of `SET` with its number. -/
theorem outcome_setOption {name cmd opt num : Bytes} {unit n ttlMs : Int}
    (takes : TakesUnit name cmd unit) (option : toUpper opt = name) (read : stoll num = .ok n) :
    (setOption opt num ttlMs : Action W D Int).outcome d =
      Outcome.returned (d, toInt64 (unit * n)) := by
  unfold setOption
  cases takes with
  | seconds =>
    rw [if_pos option, outcome_bind (outcome_number read), mul_comm]
    rfl
  | milliseconds =>
    have other : ¬ str "PX" = str "EX" := by decide
    obtain ⟨low, high⟩ := stoll_range read
    rw [option, if_neg other, if_pos rfl, one_mul, toInt64_of_range low high]
    exact outcome_number read

/-- The loop over the options of `SET` where there is one option only. -/
theorem outcome_setOptions_single {opt num : Bytes} {ttlMs ms : Int}
    (option : (setOption opt num ttlMs : Action W D Int).outcome d = Outcome.returned (d, ms)) :
    (setOptions [opt, num] ttlMs : Action W D Int).outcome d = Outcome.returned (d, ms) := by
  unfold setOptions
  rw [outcome_bind option]
  rfl

theorem outcome_expiry {num key : Bytes} {f : Int → Int} {n : Int} {kv : KVEngine} {done : Bool}
    (read : stoll num = .ok n) (called : d.kv.expire key (f n) env.now = some (kv, done)) :
    ((number .stoll (stoll num) >>= fun n => do
      let ok ← onKv fun kv => kv.expire key (f n) env.now
      pure (flag ok) : Action W D Bytes)).outcome d =
      Outcome.returned ({ d with kv := kv }, flag done) := by
  rw [outcome_bind (outcome_number read), outcome_bind (outcome_onKv called)]
  rfl

end

section
variable {W D : Type} [Zero W] [One W] [Add W] [LT W] [DecidableLT W]
variable [Inhabited D] [BEq D] [LT D] [DecidableLT D] [LE D] [DecidableLE D]
variable (lib : FloatLib W D) (env : Env) {d : Dispatcher W D} {args : List Bytes}
variable {key v : Bytes} {ms : Int} {stored : Option Bytes}

/-- The deadline of a `SET` or an `EXPIRE`. -/
def deadlineOf (now ms : Int) (stored : Option Bytes) : Option Int :=
  if stored.isSome ∧ toInt64 ms ≤ 0 then none else some (toInt64 (now + ms))

/-- The commands of `handle_kv` are not those of the persistence. -/
theorem not_mem_persistent {name : Bytes}
    (mem : name ∈ [str "SET", str "EXPIRE", str "PEXPIRE"]) : name ∉ Handler.persistent := by
  revert name
  decide

/-- `SET` with options that can be read stores the value, with the lifetime they give. -/
theorem dispatch_set {A : ExpiringMap Bytes Bytes} (rep : KVEngine.Represents d.kv A)
    (key val : Bytes) {word : Bytes} {tail : List Bytes} {ttlMs : Int} (named : toUpper word = str "SET")
    (options : (setOptions tail (-1) : Action W D Int).outcome d = Outcome.returned (d, ttlMs)) :
    ∃ kv inserted, d.kv.set key val ttlMs env.now = some (kv, inserted) ∧
      dispatch lib env d (word :: key :: val :: tail) =
        Outcome.returned ({ d with kv := kv }, okReply) ∧
      KVEngine.Represents kv
        (A.put key val (if 0 < ttlMs then some (toInt64 (env.now + ttlMs)) else none)) := by
  obtain ⟨kv, called, rep'⟩ := KVEngine.set_spec rep key val ttlMs env.now
  refine ⟨kv, _, called, ?_, rep'⟩
  unfold dispatch
  rw [answer_taken lib env (h := .kv) (b := ⟨str "SET", (3 ≤ ·), Dispatcher.set env⟩)
    (by simp [branches, kvBranches]) (not_mem_persistent (by simp)) named
    (by simp)]
  change (setOptions tail (-1) >>= _ : Action W D Bytes).outcome d = _
  rw [outcome_bind options, outcome_bind (outcome_onKv called)]
  rfl

/-- `EXPIRE` and `PEXPIRE` give a stored key another deadline. -/
theorem dispatch_expire {A : ExpiringMap Bytes Bytes} (rep : KVEngine.Represents d.kv A)
    {name cmd word key num : Bytes} {unit n : Int} (takes : TakesUnit name cmd unit)
    (named : toUpper word = cmd) (read : stoll num = .ok n) (value : A.value key = some v) :
    ∃ kv, dispatch lib env d [word, key, num] =
        Outcome.returned ({ d with kv := kv }, flag true) ∧
      KVEngine.Represents kv (A.rearm key (some (toInt64 (env.now + unit * n)))) := by
  obtain ⟨kv, called, rep'⟩ := KVEngine.expire_spec rep key (toInt64 (unit * n)) env.now
  rw [value] at called
  refine ⟨kv, ?_, by simpa [KVEngine.idealExpire, value, toInt64_add_toInt64] using rep'⟩
  unfold dispatch
  cases takes with
  | seconds =>
    rw [answer_taken lib env (h := .kv) (b := ⟨str "EXPIRE", (3 ≤ ·), Dispatcher.expire env⟩)
      (by simp [branches, kvBranches]) (not_mem_persistent (by simp)) named rfl]
    rw [mul_comm] at called
    exact outcome_expiry (f := fun n => toInt64 (n * 1000)) read called
  | milliseconds =>
    rw [answer_taken lib env (h := .kv) (b := ⟨str "PEXPIRE", (3 ≤ ·), Dispatcher.pexpire env⟩)
      (by simp [branches, kvBranches]) (not_mem_persistent (by simp)) named rfl]
    obtain ⟨low, high⟩ := stoll_range read
    rw [one_mul, toInt64_of_range low high] at called
    exact outcome_expiry (f := id) read called

/-- A command that asks for a time to live succeeds and leaves the key with its value and a
deadline in 64 bits. -/
theorem dispatch_asks {A : ExpiringMap Bytes Bytes} (rep : KVEngine.Represents d.kv A)
    (asks : Asks args key ms stored) (value : stored.or (A.value key) = some v) :
    ∃ kv reply A', dispatch lib env d args = Outcome.returned ({ d with kv := kv }, reply) ∧
      (reply = okReply ∨ reply = flag true) ∧ KVEngine.Represents kv A' ∧ A'.value key = some v ∧
        A'.deadline key = deadlineOf env.now ms stored := by
  -- What the two kinds of command leave.
  have sets (key val : Bytes) {name cmd word opt num : Bytes} {unit n : Int} (named : toUpper word = str "SET")
      (takes : TakesUnit name cmd unit) (option : toUpper opt = name) (read : stoll num = .ok n) :
      ∃ kv reply A', dispatch lib env d [word, key, val, opt, num] =
          Outcome.returned ({ d with kv := kv }, reply) ∧
        (reply = okReply ∨ reply = flag true) ∧ KVEngine.Represents kv A' ∧
          A'.value key = some val ∧ A'.deadline key = deadlineOf env.now (unit * n) (some val) := by
    obtain ⟨kv, -, -, returned, rep'⟩ := dispatch_set lib env rep key val named
      (outcome_setOptions_single (outcome_setOption takes option read))
    refine ⟨kv, okReply, _, returned, Or.inl rfl, rep', by simp [ExpiringMap.put], ?_⟩
    by_cases positive : 0 < toInt64 (unit * n)
    · simp [ExpiringMap.put, deadlineOf, positive, toInt64_add_toInt64]
    · simp [ExpiringMap.put, deadlineOf, positive, not_lt.mp positive]
  have expires {name cmd word key num : Bytes} {unit n : Int} (named : toUpper word = cmd)
      (takes : TakesUnit name cmd unit) (read : stoll num = .ok n) (value : A.value key = some v) :
      ∃ kv reply A', dispatch lib env d [word, key, num] =
          Outcome.returned ({ d with kv := kv }, reply) ∧
        (reply = okReply ∨ reply = flag true) ∧ KVEngine.Represents kv A' ∧
          A'.value key = some v ∧ A'.deadline key = deadlineOf env.now (unit * n) none := by
    obtain ⟨kv, returned, rep'⟩ := dispatch_expire lib env rep takes named read value
    exact ⟨kv, flag true, _, returned, Or.inr rfl, rep', value,
      by simp [ExpiringMap.rearm, deadlineOf]⟩
  cases asks with
  | setEx named option read =>
    cases value
    exact sets _ _ named .seconds option read
  | @setPx word key val opt num n named option read =>
    cases value
    have found := sets key v named .milliseconds option read
    rwa [one_mul] at found
  | expire named read => exact expires named .seconds read value
  | pexpire named read =>
    have found := expires named .milliseconds read value
    rwa [one_mul] at found

/-- The command succeeds and the key is kept for the time asked for, or it answers with an error
and changes nothing. -/
def Honours (d : Dispatcher W D) (args : List Bytes) (key v : Bytes) (ms : Int) : Prop :=
  ∃ d' reply, dispatch lib env d args = Outcome.returned (d', reply) ∧
    ((reply = okReply ∨ reply = flag true) ∧ d'.kv.KeptUntil key v env.now (env.now + ms) ∨
      str "-ERR " <+: reply ∧ d' = d)

/-- A positive time to live for a key that is stored, or stored by the command, is honoured
exactly if the deadline fits into 64 bits, or the command is a `SET` whose number of
milliseconds does not look positive in them. -/
theorem honours_iff (history : List KVEngine.Timed)
    (reached : KVEngine.run history .empty = some d.kv) (asks : Asks args key ms stored)
    (value : stored = some v ∨ stored = none ∧ d.kv.map.get key = some (some v))
    (positive : 0 < ms) (clock : 0 ≤ env.now) :
    Honours lib env d args key v ms ↔
      env.now + ms < 2 ^ 63 ∨ stored.isSome = true ∧ toInt64 ms ≤ 0 := by
  obtain ⟨kv₀, ran, rep⟩ := KVEngine.run_refines KVEngine.represents_empty history
  rw [reached] at ran
  cases ran
  have holds : stored.or ((KVEngine.idealRun history .empty).value key) = some v := by
    rcases value with rfl | ⟨rfl, found⟩
    · rfl
    · rw [rep.get_map] at found
      exact Option.some.inj found
  obtain ⟨kv, reply, A', returned, succeeds, rep', value', deadline'⟩ :=
    dispatch_asks lib env rep asks holds
  have kept := KVEngine.keptUntil_iff rep' value' (show env.now < env.now + ms by omega)
  have honours : Honours lib env d args key v ms ↔
      kv.KeptUntil key v env.now (env.now + ms) := by
    constructor
    · intro ⟨d', reply', same, honest⟩
      rw [returned] at same
      cases same
      rcases honest with ⟨-, kept⟩ | ⟨error, -⟩
      · exact kept
      · rcases succeeds with rfl | rfl
        · exact absurd error (by decide)
        · exact absurd error (by decide)
    · intro kept
      exact ⟨_, reply, returned, Or.inl ⟨succeeds, kept⟩⟩
  rw [honours, kept, deadline', deadlineOf]
  split
  · rename_i wrapped
    simp [wrapped]
  · rename_i armed
    simp only [armed, or_false, Option.some.injEq, forall_eq']
    have range := toInt64_range (env.now + ms)
    constructor
    · intro late
      omega
    · intro small
      rw [toInt64_of_range (by omega) small]

end

/-- A key that is given ten seconds. -/
theorem honours_iff_ten_seconds :
    Honours wholeLib calmEnv fresh [str "set", str "k", str "v", str "ex", str "10"] (str "k")
        (str "v") (1000 * 10) ↔
      (0 : Int) + 1000 * 10 < 2 ^ 63 ∨ (some (str "v")).isSome = true ∧ toInt64 (1000 * 10) ≤ 0 :=
  honours_iff wholeLib calmEnv [] rfl
    (.setEx (by decide) (by decide) (by decide)) (Or.inl rfl)
    (by decide) (by decide)

/-- A key that is to live for some 292 million years is gone at the next tick. -/
theorem expire_overflows :
    ∃ d d', dispatch wholeLib calmEnv fresh [str "SET", str "k", str "v"] =
        Outcome.returned (d, okReply) ∧
      dispatch wholeLib calmEnv d [str "EXPIRE", str "k", str "9223372036854776"] =
        Outcome.returned (d', flag true) ∧
      ((d'.kv.tick 1).bind fun kv => (kv.get (str "k") 1).map Prod.snd) = some none ∧
      ¬ Honours wholeLib calmEnv d [str "EXPIRE", str "k", str "9223372036854776"] (str "k") (str "v")
        (1000 * 9223372036854776) := by
  refine ⟨_, _, rfl, rfl, by decide, ?_⟩
  intro ⟨d', reply, returned, honest⟩
  cases returned
  rcases honest with ⟨-, kept⟩ | ⟨error, -⟩
  · have spares : KVEngine.Spares (str "k") 0 (1000 * 9223372036854776) [⟨1, .tick⟩] :=
      ⟨List.pairwise_singleton _ _, by simp, by simp [KVEngine.Call.touches]⟩
    obtain ⟨e, ran, held, -⟩ := kept _ 1 spares (by simp) (by decide) (by decide)
    cases ran
    exact absurd held (by decide)
  · exact absurd error (by decide)

end FastGraph.Dispatcher
