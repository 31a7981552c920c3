import FastGraph.Dispatch.Proofs.TimeToLive

/-!
# Two ways of giving a key a lifetime

`SET` with `EX` or `PX`, and `SET` followed at once by `EXPIRE` or `PEXPIRE`. For a positive
number they leave the same map. For any other number the option of `SET` is dropped and the
value has no deadline, where the second command sets one that has been reached.
-/

namespace FastGraph

namespace KVEngine
variable {e e' : KVEngine} {A A' : ExpiringMap Bytes Bytes} {key v : Bytes} {now later t dl : Int}

/-- `get` and `ttl` of every key answer alike at the time `t`. -/
def Alike (e e' : KVEngine) (t : Int) : Prop :=
  ∀ key, (e.get key t).map Prod.snd = (e'.get key t).map Prod.snd ∧ e.ttl key t = e'.ttl key t

/-- `Alike` for the abstract maps. -/
theorem Represents.alike_iff (rep : Represents e A) (rep' : Represents e' A') :
    e.Alike e' t ↔
      ∀ key, A.read key t = A'.read key t ∧ idealTtl A key t = idealTtl A' key t := by
  apply forall_congr'
  intro key
  obtain ⟨e₁, got, -⟩ := get_spec rep key t
  obtain ⟨e₂, got', -⟩ := get_spec rep' key t
  simp [got, got', ttl_spec rep, ttl_spec rep']

/-- Two engines that stand for one map answer alike after any run. -/
theorem Represents.alike_run (rep : Represents e A) (rep' : Represents e' A)
    (calls : List Timed) (t : Int) :
    ∃ e₁ e₂, run calls e = some e₁ ∧ run calls e' = some e₂ ∧ e₁.Alike e₂ t := by
  obtain ⟨e₁, ran, rep₁⟩ := run_refines rep calls
  obtain ⟨e₂, ran', rep₂⟩ := run_refines rep' calls
  exact ⟨e₁, e₂, ran, ran', (rep₁.alike_iff rep₂).mpr fun key => ⟨rfl, rfl⟩⟩

/-- A value without a deadline and one whose deadline has been reached differ after a tick. -/
theorem not_alike_tick (rep : Represents e (A.put key v none))
    (rep' : Represents e' (A.put key v (some dl))) (passed : dl ≤ now) :
    ¬ ∃ e₁ e₂, run [⟨now, .tick⟩] e = some e₁ ∧ run [⟨now, .tick⟩] e' = some e₂ ∧
      e₁.Alike e₂ now := by
  intro ⟨e₁, e₂, ran, ran', alike⟩
  obtain ⟨e₁', ran₁, rep₁⟩ := run_refines rep [⟨now, .tick⟩]
  obtain ⟨e₂', ran₂, rep₂⟩ := run_refines rep' [⟨now, .tick⟩]
  rw [ran₁] at ran
  cases ran
  rw [ran₂] at ran'
  cases ran'
  obtain ⟨same, -⟩ := (rep₁.alike_iff rep₂).mp alike key
  have kept : ((A.put key v none).sweep now).read key now = some v := by
    simp [ExpiringMap.read, ExpiringMap.reached, ExpiringMap.sweep, ExpiringMap.put]
  have gone : ((A.put key v (some dl)).sweep now).read key now = none := by
    rw [ExpiringMap.read_eq_none_iff]
    exact Or.inr (ExpiringMap.value_sweep_of_due ⟨dl, by simp [ExpiringMap.put], passed⟩).1
  have absurdity : some v = none := kept.symm.trans (same.trans gone)
  cases absurdity

/-- Where nothing comes between, they differ unless the deadline is taken for none. -/
theorem alike_put_iff (rep : Represents e (A.put key v none))
    (rep' : Represents e' (A.put key v (some dl))) (passed : dl ≤ now) :
    (∀ t, now ≤ t → e.Alike e' t) ↔ dl < 0 := by
  simp only [rep.alike_iff rep']
  constructor
  · intro alike
    obtain ⟨same, -⟩ := alike now le_rfl key
    by_contra nonneg
    have kept : (A.put key v none).read key now = some v := by
      simp [ExpiringMap.read, ExpiringMap.reached, ExpiringMap.put]
    have gone : (A.put key v (some dl)).read key now = none := by
      rw [ExpiringMap.read_eq_none_iff, ExpiringMap.reached_iff]
      exact Or.inl ⟨dl, by simp [ExpiringMap.put], not_lt.mp nonneg, passed⟩
    have absurdity : some v = none := kept.symm.trans (same.trans gone)
    cases absurdity
  · intro negative t _ other
    by_cases self : other = key
    · subst self
      have notReached : ¬ (0 ≤ dl ∧ dl ≤ t) := by omega
      simp [ExpiringMap.read, ExpiringMap.reached, idealTtl, ExpiringMap.put, negative, notReached]
    · simp [ExpiringMap.read, ExpiringMap.reached, idealTtl, ExpiringMap.put, self]

end KVEngine

namespace Dispatcher
open Program RespEncoder

section
variable {W D : Type} [Zero W] [One W] [Add W] [LT W] [DecidableLT W]
variable [Inhabited D] [BEq D] [LT D] [DecidableLT D] [LE D] [DecidableLE D]
variable (lib : FloatLib W D) (env : Env) {d : Dispatcher W D}

/-- `SET` with an option and a number that does not overflow leaves the key-value engine as
`SET` and the command of the same unit do, exactly if the number is positive; and where no call
or tick comes before the reading, also if the deadline is negative. -/
theorem set_expire_agree_iff (history : List KVEngine.Timed)
    (reached : KVEngine.run history .empty = some d.kv) {name cmd : Bytes} {unit n : Int}
    (takes : TakesUnit name cmd unit) {set opt expire key v num : Bytes}
    (named : toUpper set = str "SET") (option : toUpper opt = name) (named' : toUpper expire = cmd)
    (read : stoll num = .ok n) (fits : -2 ^ 63 ≤ unit * n ∧ unit * n < 2 ^ 63)
    (sum : -2 ^ 63 ≤ env.now + unit * n ∧ env.now + unit * n < 2 ^ 63) :
    ∃ d₁ d₂ d₃, dispatch lib env d [set, key, v, opt, num] = Outcome.returned (d₁, okReply) ∧
      dispatch lib env d [set, key, v] = Outcome.returned (d₂, okReply) ∧
      dispatch lib env d₂ [expire, key, num] = Outcome.returned (d₃, flag true) ∧
      ((∀ calls t, (∀ c ∈ calls, env.now ≤ c.now ∧ c.now ≤ t) → env.now ≤ t →
          calls.Pairwise (·.now ≤ ·.now) →
          ∃ e₁ e₃, KVEngine.run calls d₁.kv = some e₁ ∧ KVEngine.run calls d₃.kv = some e₃ ∧
            e₁.Alike e₃ t) ↔ 0 < n) ∧
      ((∀ t, env.now ≤ t → d₁.kv.Alike d₃.kv t) ↔ 0 < n ∨ env.now + unit * n < 0) := by
  obtain ⟨kv₀, ran, rep⟩ := KVEngine.run_refines KVEngine.represents_empty history
  rw [reached] at ran
  cases ran
  generalize KVEngine.idealRun history .empty = A at rep
  obtain ⟨kv₁, -, -, returned₁, rep₁⟩ := dispatch_set lib env rep key v named
    (outcome_setOptions_single (outcome_setOption takes option read))
  obtain ⟨kv₂, -, -, returned₂, rep₂⟩ := dispatch_set lib env rep key v named
    (show (setOptions [] (-1) : Action W D Int).outcome d = Outcome.returned (d, -1) from rfl)
  have stored (deadline : Option Int) : (A.put key v deadline).value key = some v := by
    simp [ExpiringMap.put]
  obtain ⟨kv₃, returned₃, rep₃⟩ := dispatch_expire lib env (d := { d with kv := kv₂ }) rep₂ takes
    named' read (stored _)
  rw [ExpiringMap.rearm_put, toInt64_of_range sum.1 sum.2] at rep₃
  rw [toInt64_of_range fits.1 fits.2, toInt64_of_range sum.1 sum.2] at rep₁
  refine ⟨_, _, _, returned₁, returned₂, returned₃, ?_⟩
  have unitPos : 0 < unit := by cases takes <;> decide
  by_cases positive : 0 < n
  · have timePos : 0 < unit * n := Int.mul_pos unitPos positive
    rw [if_pos timePos] at rep₁
    simp only [positive, true_or, iff_true]
    exact ⟨fun calls t _ _ _ => rep₁.alike_run rep₃ calls t, fun t _ =>
      (rep₁.alike_iff rep₃).mpr fun key => ⟨rfl, rfl⟩⟩
  · have timeNeg : unit * n ≤ 0 := Int.mul_nonpos_of_nonneg_of_nonpos unitPos.le (not_lt.mp positive)
    rw [if_neg (by omega)] at rep₁
    have passed : env.now + unit * n ≤ env.now := by omega
    simp only [positive, false_or, iff_false]
    refine ⟨?_, KVEngine.alike_put_iff rep₁ rep₃ passed⟩
    intro alike
    exact KVEngine.not_alike_tick rep₁ rep₃ passed
      (alike [⟨env.now, .tick⟩] env.now (by simp) le_rfl (by simp))

end

/-- A key that is given ten seconds in either way. -/
theorem set_expire_agree_iff_ten_seconds :
    ∃ d₁ d₂ d₃,
      dispatch wholeLib calmEnv fresh [str "set", str "k", str "v", str "ex", str "10"] =
        Outcome.returned (d₁, okReply) ∧
      dispatch wholeLib calmEnv fresh [str "set", str "k", str "v"] =
        Outcome.returned (d₂, okReply) ∧
      dispatch wholeLib calmEnv d₂ [str "expire", str "k", str "10"] =
        Outcome.returned (d₃, flag true) ∧
      ((∀ calls t, (∀ c ∈ calls, (0 : Int) ≤ c.now ∧ c.now ≤ t) → (0 : Int) ≤ t →
          calls.Pairwise (·.now ≤ ·.now) →
          ∃ e₁ e₃, KVEngine.run calls d₁.kv = some e₁ ∧ KVEngine.run calls d₃.kv = some e₃ ∧
            e₁.Alike e₃ t) ↔ (0 : Int) < 10) ∧
      ((∀ t, (0 : Int) ≤ t → d₁.kv.Alike d₃.kv t) ↔ (0 : Int) < 10 ∨ (0 : Int) + 1000 * 10 < 0) :=
  set_expire_agree_iff wholeLib calmEnv [] rfl .seconds (by decide) (by decide)
    (by decide) (by decide) (by decide) (by decide)

/-- With the number zero the option is dropped, and the command expires the key. -/
theorem set_expire_zero :
    ∃ d₁ d₂ d₃,
      dispatch wholeLib calmEnv fresh [str "SET", str "k", str "v", str "EX", str "0"] =
        Outcome.returned (d₁, okReply) ∧
      dispatch wholeLib calmEnv fresh [str "SET", str "k", str "v"] =
        Outcome.returned (d₂, okReply) ∧
      dispatch wholeLib calmEnv d₂ [str "EXPIRE", str "k", str "0"] =
        Outcome.returned (d₃, flag true) ∧
      (d₁.kv.get (str "k") 0).map Prod.snd = some (some (str "v")) ∧
      d₁.kv.ttl (str "k") 0 = some (-1) ∧
      (d₃.kv.get (str "k") 0).map Prod.snd = some none ∧ ¬ d₁.kv.Alike d₃.kv 0 := by
  refine ⟨_, _, _, rfl, rfl, rfl, by decide, by decide, by decide, ?_⟩
  intro alike
  exact absurd (alike (str "k")).1 (by decide)

end Dispatcher

end FastGraph
