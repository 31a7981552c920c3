import FastGraph.Kv.Proofs.KvEngine

/-!
# What the engine reports over a run

Properties of every run, each proved of the abstract map and carried to the engine by
`run_refines`. In a run of `set`, `get`, `exists`, `del`, `ttl` and `tick` a read finds
exactly what the last write stored, until its deadline. And a key whose deadline has been
reached stays gone exactly as long as no `expire` or `persist` reaches it while it is still
in the table; the same holds of a key whose deadline an `expire` has set to a time already
past, if that time is not negative.
-/

namespace FastGraph.KVEngine
open RobinHoodMap TTLManager

section
variable {A : ExpiringMap Bytes Bytes} {key v : Bytes} {now later t d : Int}

/-! ### Reads find the last write -/

/-- The calls that neither set nor clear the deadline of a stored value. -/
def Call.plain : Call → Bool
  | .expire _ _ => false
  | .persist _ => false
  | _ => true

/-- The call is a `set` or a `del` of the key. -/
def Call.writes (key : Bytes) : Call → Bool
  | .set k _ _ => k = key
  | .del k => k = key
  | _ => false

/-- The deadline that a `set` computes fits into `Ms`. -/
def Timed.fits (c : Timed) : Prop :=
  match c.call with
  | .set _ _ ttlMs => c.now + ttlMs < 2 ^ 63
  | _ => True

/-- The most recent `set` or `del` of the key. -/
def lastWrite (key : Bytes) (history : List Timed) : Option Timed :=
  history.reverse.find? fun c => c.call.writes key

theorem lastWrite_append (history : List Timed) (c : Timed) :
    lastWrite key (history ++ [c]) =
      if c.call.writes key then some c else lastWrite key history := by
  unfold lastWrite
  rw [List.reverse_append, List.reverse_singleton, List.singleton_append, List.find?_cons]
  cases c.call.writes key <;> rfl

/-- What a write leaves under its key: a value and perhaps a deadline. -/
def written : Option Timed → Option (Bytes × Option Int)
  | some ⟨t₀, .set _ v ttlMs⟩ => some (v, if 0 < ttlMs then some (t₀ + ttlMs) else none)
  | _ => none

/-- The map shows under the key what was written, or the entry has been evicted at or after
its deadline. -/
inductive Tracks (A : ExpiringMap Bytes Bytes) (key : Bytes) (now : Int) :
    Option (Bytes × Option Int) → Prop
  | stored {w : Option (Bytes × Option Int)} (value : A.value key = w.map Prod.fst)
      (deadline : A.deadline key = w.bind Prod.snd)
      (nonneg : ∀ d, A.deadline key = some d → 0 ≤ d) : Tracks A key now w
  | evicted {v : Bytes} {d : Int} (value : A.value key = none)
      (deadline : A.deadline key = none) (passed : d ≤ now) : Tracks A key now (some (v, some d))

variable {w : Option (Bytes × Option Int)}

/-- Time passes, and the entry of the key is untouched. -/
theorem Tracks.unchanged {B : ExpiringMap Bytes Bytes} (tracks : Tracks A key now w)
    (before : now ≤ later) (value : B.value key = A.value key)
    (deadline : B.deadline key = A.deadline key) : Tracks B key later w := by
  cases tracks with
  | stored value' deadline' nonneg =>
    exact .stored (value.trans value') (deadline.trans deadline') (by rwa [deadline])
  | evicted value' deadline' passed =>
    exact .evicted (value.trans value') (deadline.trans deadline') (passed.trans before)

/-- The entry of the key is taken out after its deadline. -/
theorem Tracks.taken {B : ExpiringMap Bytes Bytes} (tracks : Tracks A key now w)
    (due : ∃ d, A.deadline key = some d ∧ d ≤ later) (value : B.value key = none)
    (deadline : B.deadline key = none) : Tracks B key later w := by
  obtain ⟨d, armed, passed⟩ := due
  cases tracks with
  | stored value' deadline' nonneg =>
    rw [armed] at deadline'
    obtain ⟨⟨v, d'⟩, rfl, rfl⟩ := Option.bind_eq_some_iff.mp deadline'.symm
    exact .evicted value deadline passed
  | evicted value' deadline' passed' =>
    rw [armed] at deadline'
    cases deadline'

/-- One step of a run: a call keeps the map in step with the last write. -/
theorem Tracks.call {last : Option Timed} (tracks : Tracks A key now (written last)) {c : Timed}
    (plain : c.call.plain) (before : now ≤ c.now) (nonneg : 0 ≤ c.now) (fits : c.fits) :
    Tracks (idealCall A c.now c.call).1 key c.now
      (written (if c.call.writes key then some c else last)) := by
  obtain ⟨τ, c⟩ := c
  have looked : ∀ k, Tracks (A.look k τ) key τ (written last) := by
    intro k
    rcases ExpiringMap.look_drop_or_same A k τ with ⟨out, due⟩ | ⟨same, -⟩
    · rw [out]
      by_cases self : key = k
      · subst self
        obtain ⟨d, armed, -, passed⟩ := ExpiringMap.reached_iff.mp due
        exact tracks.taken ⟨d, armed, passed⟩ (by simp [ExpiringMap.drop])
          (by simp [ExpiringMap.drop])
      · exact tracks.unchanged before (by simp [ExpiringMap.drop, self])
          (by simp [ExpiringMap.drop, self])
    · rw [same]
      exact tracks.unchanged before rfl rfl
  cases c with
  | set k v ttlMs =>
    by_cases self : key = k
    · subst self
      simp only [Call.writes, decide_true, if_true, idealCall, written]
      by_cases positive : 0 < ttlMs
      · have exact : toInt64 (τ + ttlMs) = τ + ttlMs := by
          apply toInt64_of_range
          · dsimp only at nonneg
            omega
          · exact fits
        rw [if_pos positive, if_pos positive, exact]
        refine .stored (by simp [ExpiringMap.put]) (by simp [ExpiringMap.put]) ?_
        intro d armed
        simp only [ExpiringMap.put, Function.update_self, Option.some.injEq] at armed
        dsimp only at nonneg
        omega
      · rw [if_neg positive, if_neg positive]
        exact .stored (by simp [ExpiringMap.put]) (by simp [ExpiringMap.put])
          (by simp [ExpiringMap.put])
    · have other : k ≠ key := fun h => self h.symm
      simp only [Call.writes, other, decide_false, Bool.false_eq_true, if_false, idealCall]
      exact tracks.unchanged before (by simp [ExpiringMap.put, self])
        (by simp [ExpiringMap.put, self])
  | get k => exact looked k
  | del k =>
    by_cases self : key = k
    · subst self
      simp only [Call.writes, decide_true, if_true, idealCall, written]
      exact .stored (by simp [ExpiringMap.drop]) (by simp [ExpiringMap.drop])
        (by simp [ExpiringMap.drop])
    · have other : k ≠ key := fun h => self h.symm
      simp only [Call.writes, other, decide_false, Bool.false_eq_true, if_false, idealCall]
      exact tracks.unchanged before (by simp [ExpiringMap.drop, self])
        (by simp [ExpiringMap.drop, self])
  | existsKey k => exact looked k
  | expire k ttlMs => cases plain
  | persist k => cases plain
  | ttl k => exact tracks.unchanged before rfl rfl
  | tick =>
    simp only [Call.writes, Bool.false_eq_true, if_false, idealCall]
    by_cases due : ∃ d, A.deadline key = some d ∧ d ≤ τ
    · obtain ⟨value, deadline⟩ := ExpiringMap.value_sweep_of_due due
      exact tracks.taken due value deadline
    · obtain ⟨value, deadline⟩ := ExpiringMap.value_sweep_of_not_due due
      exact tracks.unchanged before value deadline

/-- What a read finds in a map that is in step with the last write. -/
theorem Tracks.read (tracks : Tracks A key now w) (before : now ≤ t) :
    A.read key t = some v ↔ ∃ d, w = some (v, d) ∧ ∀ d', d = some d' → t < d' := by
  rw [ExpiringMap.read_eq_some_iff]
  cases tracks with
  | stored value deadline nonneg =>
    rw [value]
    rcases w with _ | ⟨v', d⟩
    · simp
    · cases d with
      | none => simp [ExpiringMap.reached, deadline]
      | some d =>
        have pos := nonneg d deadline
        simp [ExpiringMap.reached, deadline, pos, and_comm]
  | evicted value deadline passed =>
    rw [value]
    simp only [reduceCtorEq, and_false, Option.some.injEq, Prod.mk.injEq, false_iff]
    rintro ⟨d', ⟨-, rfl⟩, ahead⟩
    have := ahead _ rfl
    omega

/-- A run keeps the abstract map in step with the last write. -/
theorem tracks_idealRun (history : List Timed) (plain : ∀ c ∈ history, c.call.plain)
    (steady : history.Pairwise (·.now ≤ ·.now)) (nonneg : ∀ c ∈ history, 0 ≤ c.now)
    (fits : ∀ c ∈ history, c.fits) (later : ∀ c ∈ history, c.now ≤ t) :
    Tracks (idealRun history .empty) key t (written (lastWrite key history)) := by
  induction history using List.reverseRecOn generalizing t with
  | nil => exact .stored rfl rfl nofun
  | append_singleton history c ih =>
    rw [List.pairwise_append] at steady
    have last : c ∈ history ++ [c] := by simp
    have earlier : ∀ c' ∈ history, c' ∈ history ++ [c] := by
      intro c' mem
      simp [mem]
    have tracks := ih (fun c' mem => plain c' (earlier c' mem)) steady.1
      (fun c' mem => nonneg c' (earlier c' mem)) (fun c' mem => fits c' (earlier c' mem))
      (fun c' mem => steady.2.2 c' mem c (List.mem_singleton_self c))
    rw [idealRun_append, lastWrite_append]
    exact (tracks.call (plain c last) le_rfl (nonneg c last) (fits c last)).unchanged
      (later c last) rfl rfl

/-- After every run of `set`, `get`, `exists`, `del`, `ttl` and `tick`, `get` and `exists`
report the value of the last `set` until its deadline, wherever the run ticked. -/
theorem read_last_write (history : List Timed) (key : Bytes) (t : Int)
    (plain : ∀ c ∈ history, c.call.plain) (steady : history.Pairwise (·.now ≤ ·.now))
    (nonneg : ∀ c ∈ history, 0 ≤ c.now) (fits : ∀ c ∈ history, c.fits)
    (later : ∀ c ∈ history, c.now ≤ t) :
    ∃ e e₁ e₂ found, run history empty = some e ∧ e.get key t = some (e₁, found) ∧
      e.existsKey key t = some (e₂, found.isSome) ∧
      ∀ v, found = some v ↔ ∃ t₀ ttlMs, lastWrite key history = some ⟨t₀, .set key v ttlMs⟩ ∧
        (ttlMs ≤ 0 ∨ t < t₀ + ttlMs) := by
  obtain ⟨e, ran, rep⟩ := run_refines represents_empty history
  obtain ⟨e₁, got, -⟩ := get_spec rep key t
  obtain ⟨e₂, tested, -⟩ := existsKey_spec rep key t
  refine ⟨e, e₁, e₂, _, ran, got, tested, ?_⟩
  intro v
  have tracks : Tracks (idealRun history .empty) key t (written (lastWrite key history)) :=
    tracks_idealRun history plain steady nonneg fits later
  rw [tracks.read le_rfl]
  cases last : lastWrite key history with
  | none => simp [written]
  | some c =>
    have writes : c.call.writes key = true := by
      simpa using List.find?_some last
    obtain ⟨t₀, c⟩ := c
    cases c with
    | set k v' ttlMs =>
      obtain rfl : k = key := by simpa [Call.writes] using writes
      by_cases positive : 0 < ttlMs
      · have notNeg : ¬ ttlMs ≤ 0 := by omega
        simp only [written, if_pos positive, Option.some.injEq, Prod.mk.injEq, Timed.mk.injEq,
          Call.set.injEq, true_and]
        constructor
        · rintro ⟨d, ⟨rfl, rfl⟩, ahead⟩
          exact ⟨t₀, ttlMs, ⟨rfl, rfl, rfl⟩, Or.inr (ahead _ rfl)⟩
        · rintro ⟨t₁, ttl₁, ⟨rfl, rfl, rfl⟩, neg | ahead⟩
          · exact absurd neg notNeg
          · refine ⟨_, ⟨rfl, rfl⟩, ?_⟩
            rintro d' ⟨⟩
            exact ahead
      · have notPos : ttlMs ≤ 0 := by omega
        simp only [written, if_neg positive, Option.some.injEq, Prod.mk.injEq, Timed.mk.injEq,
          Call.set.injEq, true_and]
        constructor
        · rintro ⟨d, ⟨rfl, rfl⟩, -⟩
          exact ⟨t₀, ttlMs, ⟨rfl, rfl, rfl⟩, Or.inl notPos⟩
        · rintro ⟨t₁, ttl₁, ⟨rfl, rfl, rfl⟩, -⟩
          exact ⟨none, ⟨rfl, rfl⟩, nofun⟩
    | del k => simp [written]
    | get k => cases writes
    | existsKey k => cases writes
    | expire k ttlMs => cases writes
    | persist k => cases writes
    | ttl k => cases writes
    | tick => cases writes

theorem read_last_write_after_tick :
    ∃ e e₁ e₂ found,
      run [⟨0, .set (str "a") (str "x") 10⟩, ⟨5, .tick⟩] empty = some e ∧
      e.get (str "a") 7 = some (e₁, found) ∧ e.existsKey (str "a") 7 = some (e₂, found.isSome) ∧
      ∀ v, found = some v ↔ ∃ t₀ ttlMs,
        lastWrite (str "a") [⟨0, .set (str "a") (str "x") 10⟩, ⟨5, .tick⟩] =
          some ⟨t₀, .set (str "a") v ttlMs⟩ ∧ (ttlMs ≤ 0 ∨ 7 < t₀ + ttlMs) :=
  read_last_write [⟨0, .set (str "a") (str "x") 10⟩, ⟨5, .tick⟩] (str "a") 7 (by decide)
    (by decide) (by decide) (by simp [Timed.fits]) (by decide)

/-! ### Expired keys stay gone -/

/-- The call is a `set` of the key. -/
def Call.sets (key : Bytes) : Call → Bool
  | .set k _ _ => k = key
  | _ => false

/-- The call takes the deadline of a key that is still in the table away, or moves it to a
time that `get` does not take for a deadline in the past. -/
def Revives (e : KVEngine) (key : Bytes) (now : Int) : Call → Prop
  | .expire k ttlMs => k = key ∧ e.map.get key ≠ some none ∧
      ¬ (0 ≤ toInt64 (now + ttlMs) ∧ toInt64 (now + ttlMs) ≤ now)
  | .persist k => k = key ∧ e.map.get key ≠ some none
  | _ => False

/-- `Revives` for the abstract map. -/
def IdealRevives (A : ExpiringMap Bytes Bytes) (key : Bytes) (now : Int) : Call → Prop
  | .expire k ttlMs => k = key ∧ A.value key ≠ none ∧
      ¬ (0 ≤ toInt64 (now + ttlMs) ∧ toInt64 (now + ttlMs) ≤ now)
  | .persist k => k = key ∧ A.value key ≠ none
  | _ => False

theorem Represents.revives {e : KVEngine} (rep : Represents e A) (key : Bytes) (now : Int)
    (c : Call) : Revives e key now c ↔ IdealRevives A key now c := by
  cases c <;> simp [Revives, IdealRevives, rep.get_map]

/-- One step: a call other than a `set` of the key keeps it gone unless it revives it. -/
theorem read_idealCall_none_iff (gone : A.read key now = none) {c : Call}
    (noSet : c.sets key = false) :
    (idealCall A now c).1.read key now = none ↔ ¬ IdealRevives A key now c := by
  have kept : ∀ B : ExpiringMap Bytes Bytes, B.read key now = none →
      (B.read key now = none ↔ ¬ False) := fun B h => by simp [h]
  cases c with
  | set k v ttlMs =>
    have other : key ≠ k := by
      rintro rfl
      simp [Call.sets] at noSet
    exact kept _ (by rw [idealCall, ExpiringMap.read_put_of_ne other, gone])
  | get k => exact kept _ (ExpiringMap.read_look_none gone)
  | del k => exact kept _ (ExpiringMap.read_drop_none gone)
  | existsKey k => exact kept _ (ExpiringMap.read_look_none gone)
  | ttl k => exact kept _ gone
  | tick => exact kept _ (ExpiringMap.read_sweep_none gone)
  | expire k ttlMs =>
    simp only [idealCall, idealExpire, IdealRevives]
    by_cases same : k = key
    · subst same
      cases stored : A.value k with
      | none => simp [gone]
      | some v =>
        rw [ExpiringMap.read_eq_none_iff, ExpiringMap.reached_iff]
        simp [ExpiringMap.rearm, stored]
    · have other : key ≠ k := fun h => same h.symm
      split
      · simp [ExpiringMap.read_rearm_of_ne other, gone, same]
      · simp [gone, same]
  | persist k =>
    simp only [idealCall, idealPersist, IdealRevives]
    by_cases same : k = key
    · subst same
      rcases ExpiringMap.read_eq_none_iff.mp gone with due | missing
      · obtain ⟨d, armed, nonneg, passed⟩ := ExpiringMap.reached_iff.mp due
        rw [armed, Option.getD_some, if_neg (by omega), ExpiringMap.read_eq_none_iff,
          ExpiringMap.reached_iff]
        simp [ExpiringMap.rearm]
      · have out : ∀ d, (A.rearm k d).read k now = none := fun d =>
          ExpiringMap.read_eq_none_iff.mpr (Or.inr missing)
        split
        · simp [gone, missing]
        · simp [out, missing]
    · have other : key ≠ k := fun h => same h.symm
      split
      · simp [gone, same]
      · simp [ExpiringMap.read_rearm_of_ne other, gone, same]

/-- A whole run: a key is gone at all times of a run from `now` on exactly if it is gone at
`now` and no call of the run revives it. -/
theorem read_idealRun_none_iff {calls : List Timed} (steady : calls.Pairwise (·.now ≤ ·.now))
    (after : ∀ c ∈ calls, now ≤ c.now) (noSet : ∀ c ∈ calls, c.call.sets key = false) :
    (∀ pre t, pre <+: calls → now ≤ t → (∀ c ∈ pre, c.now ≤ t) →
      (idealRun pre A).read key t = none) ↔
    A.read key now = none ∧ ∀ pre c, pre ++ [c] <+: calls →
      ¬ IdealRevives (idealRun pre A) key c.now c.call := by
  have upTo : ∀ pre c, pre ++ [c] <+: calls → c ∈ calls ∧ ∀ c' ∈ pre, c'.now ≤ c.now := by
    intro pre c cut
    have ordered := steady.sublist cut.sublist
    rw [List.pairwise_append] at ordered
    exact ⟨cut.subset (by simp), fun c' mem => ordered.2.2 c' mem c (by simp)⟩
  constructor
  · intro gone
    refine ⟨gone [] now (List.nil_prefix) le_rfl (by simp), ?_⟩
    intro pre c cut
    obtain ⟨mem, ordered⟩ := upTo pre c cut
    have before := gone pre c.now ((List.prefix_append _ _).trans cut) (after c mem) ordered
    rw [← read_idealCall_none_iff before (noSet c mem)]
    have upon := gone (pre ++ [c]) c.now cut (after c mem) (by
      intro c' mem'
      rw [List.mem_append, List.mem_singleton] at mem'
      rcases mem' with mem' | rfl
      · exact ordered c' mem'
      · exact le_rfl)
    rwa [idealRun_append] at upon
  · rintro ⟨gone, quiet⟩ pre
    induction pre using List.reverseRecOn with
    | nil =>
      intro t _ before _
      exact ExpiringMap.read_none_mono before gone
    | append_singleton pre c ih =>
      intro t cut _ past
      obtain ⟨mem, ordered⟩ := upTo pre c cut
      have before := ih c.now ((List.prefix_append _ _).trans cut) (after c mem) ordered
      have upon := (read_idealCall_none_iff before (noSet c mem)).mpr (quiet pre c cut)
      rw [idealRun_append]
      exact ExpiringMap.read_none_mono (past c (by simp)) upon

/-- `get` after a run answers what the abstract run reads. -/
theorem Represents.get_run {e : KVEngine} (rep : Represents e A) (calls : List Timed)
    (key : Bytes) (t : Int) :
    ∃ e₁ e₂, run calls e = some e₁ ∧ Represents e₁ (idealRun calls A) ∧
      e₁.get key t = some (e₂, (idealRun calls A).read key t) := by
  obtain ⟨e₁, ran, rep₁⟩ := run_refines rep calls
  obtain ⟨e₂, got, -⟩ := get_spec rep₁ key t
  exact ⟨e₁, e₂, ran, rep₁, got⟩

/-- No call of a run revives the key, for the engine and for the abstract map. -/
theorem Represents.quiet_iff {e : KVEngine} (rep : Represents e A) (calls : List Timed)
    (key : Bytes) :
    (∀ pre c e₁, pre ++ [c] <+: calls → run pre e = some e₁ →
      ¬ Revives e₁ key c.now c.call) ↔
    ∀ pre c, pre ++ [c] <+: calls → ¬ IdealRevives (idealRun pre A) key c.now c.call := by
  constructor
  · intro quiet pre c cut
    obtain ⟨e₁, ran, rep₁⟩ := run_refines rep pre
    rw [← rep₁.revives]
    exact quiet pre c e₁ cut ran
  · intro quiet pre c e₁ cut ran
    obtain ⟨e₂, ran₂, rep₂⟩ := run_refines rep pre
    rw [ran] at ran₂
    obtain rfl := Option.some.inj ran₂
    rw [rep₂.revives]
    exact quiet pre c cut

/-- From a reachable state in which the deadline `d` of the key has been reached, every run
without a `set` of the key keeps it gone if and only if `d` is not negative and no call
revives the key. -/
theorem stays_expired_iff {history calls : List Timed} {e : KVEngine} {key : Bytes} {d now : Int}
    (reachable : run history empty = some e) (armed : Holds e.deadlines key d) (passed : d ≤ now)
    (steady : calls.Pairwise (·.now ≤ ·.now)) (after : ∀ c ∈ calls, now ≤ c.now)
    (noSet : ∀ c ∈ calls, c.call.sets key = false) :
    (∀ pre t, pre <+: calls → now ≤ t → (∀ c ∈ pre, c.now ≤ t) →
      ∃ e₁ e₂ e₃, run pre e = some e₁ ∧ e₁.get key t = some (e₂, none) ∧
        e₁.existsKey key t = some (e₃, false)) ↔
    0 ≤ d ∧ ∀ pre c e₁, pre ++ [c] <+: calls → run pre e = some e₁ →
      ¬ Revives e₁ key c.now c.call := by
  obtain ⟨e', ran, rep⟩ := run_refines represents_empty history
  rw [reachable] at ran
  obtain rfl := Option.some.inj ran
  have sound : (idealRun history .empty).Sound :=
    sound_idealRun ExpiringMap.sound_empty history
  generalize idealRun history .empty = A at rep sound
  have deadline := (rep.deadline key d).mp armed
  have goneIff : A.read key now = none ↔ 0 ≤ d := by
    rw [ExpiringMap.read_eq_none_iff, ExpiringMap.reached_iff]
    constructor
    · rintro (⟨d', armed', nonneg, -⟩ | missing)
      · rw [deadline] at armed'
        obtain rfl := Option.some.inj armed'
        exact nonneg
      · rw [sound key missing] at deadline
        cases deadline
    · intro nonneg
      exact Or.inl ⟨d, deadline, nonneg, passed⟩
  have reads : ∀ pre t, (∃ e₁ e₂ e₃, run pre e = some e₁ ∧ e₁.get key t = some (e₂, none) ∧
      e₁.existsKey key t = some (e₃, false)) ↔ (idealRun pre A).read key t = none := by
    intro pre t
    obtain ⟨e₁, e₂, ran, rep₁, got⟩ := rep.get_run pre key t
    obtain ⟨e₃, tested, -⟩ := existsKey_spec rep₁ key t
    simp [ran, got, tested]
  simp only [reads]
  rw [read_idealRun_none_iff steady after noSet, goneIff, rep.quiet_iff]

theorem stays_expired_iff_tick :
    ∃ e, run [⟨0, .set (str "a") (str "x") 10⟩] empty = some e ∧
      ((∀ pre t, pre <+: [⟨30, .tick⟩] → 20 ≤ t → (∀ c ∈ pre, c.now ≤ t) →
        ∃ e₁ e₂ e₃, run pre e = some e₁ ∧ e₁.get (str "a") t = some (e₂, none) ∧
          e₁.existsKey (str "a") t = some (e₃, false)) ↔
      0 ≤ (10 : Int) ∧ ∀ pre (c : Timed) e₁, pre ++ [c] <+: [⟨30, .tick⟩] → run pre e = some e₁ →
        ¬ Revives e₁ (str "a") c.now c.call) :=
  ⟨_, rfl, stays_expired_iff
    (rfl : run [⟨0, .set (str "a") (str "x") 10⟩] empty = some _)
    ⟨0, by decide, by decide, by decide⟩ (by decide) (by decide) (by decide) (by decide)⟩

/-- `persist` on a key that has expired but has not been evicted brings its value back, and so
does `expire` with a deadline ahead. -/
theorem persist_and_expire_revive :
    ∃ e, run [⟨0, .set (str "a") (str "x") 10⟩] empty = some e ∧
      e.deadlines.getExpiry (str "a") = 10 ∧
      (e.get (str "a") 20).map Prod.snd = some none ∧
      ((run [⟨20, .persist (str "a")⟩] e).bind fun e => (e.get (str "a") 20).map Prod.snd) =
        some (some (str "x")) ∧
      ((run [⟨20, .expire (str "a") 5⟩] e).bind fun e => (e.get (str "a") 20).map Prod.snd) =
        some (some (str "x")) :=
  ⟨_, rfl, by decide, by decide, by decide, by decide⟩

/-! ### Deadlines in the past -/

/-- A stored key whose deadline has been set to a time up to `now` is gone exactly if that
time is not negative. -/
theorem read_rearm_past (stored : A.value key = some v) (passed : d ≤ now) :
    (A.rearm key (some d)).read key now = none ↔ 0 ≤ d := by
  rw [ExpiringMap.read_eq_none_iff, ExpiringMap.reached_iff]
  simp [ExpiringMap.rearm, stored, passed]

/-- `expire` of a stored key with a lifetime that is not positive takes effect at once, and for
every run without a `set` of the key, if and only if the deadline it computes is not negative
and no call of the run revives the key. -/
theorem expire_past_gone_iff {history calls : List Timed} {e : KVEngine} {key v : Bytes}
    {now ttlMs : Int} (reachable : run history empty = some e)
    (present : e.map.get key = some (some v)) (past : ttlMs ≤ 0)
    (fits : -2 ^ 63 ≤ now + ttlMs ∧ now + ttlMs < 2 ^ 63)
    (steady : calls.Pairwise (·.now ≤ ·.now)) (after : ∀ c ∈ calls, now ≤ c.now)
    (noSet : ∀ c ∈ calls, c.call.sets key = false) :
    ∃ e', e.expire key ttlMs now = some (e', true) ∧
      ((∀ pre t, pre <+: calls → now ≤ t → (∀ c ∈ pre, c.now ≤ t) →
        ∃ e₁ e₂, run pre e' = some e₁ ∧ e₁.get key t = some (e₂, none)) ↔
      0 ≤ now + ttlMs ∧ ∀ pre c e₁, pre ++ [c] <+: calls → run pre e' = some e₁ →
        ¬ Revives e₁ key c.now c.call) := by
  obtain ⟨e₀, ran, rep⟩ := run_refines represents_empty history
  rw [reachable] at ran
  obtain rfl := Option.some.inj ran
  generalize idealRun history .empty = A at rep
  have stored : A.value key = some v := by
    rw [rep.get_map] at present
    exact Option.some.inj present
  obtain ⟨e', expired, rep'⟩ := expire_spec rep key ttlMs now
  rw [stored] at expired
  have sum : toInt64 (now + ttlMs) = now + ttlMs := toInt64_of_range fits.1 fits.2
  have armed : idealExpire A key ttlMs now = A.rearm key (some (now + ttlMs)) := by
    simp [idealExpire, stored, sum]
  rw [armed] at rep'
  have passed : now + ttlMs ≤ now := by omega
  have reads : ∀ pre t, (∃ e₁ e₂, run pre e' = some e₁ ∧ e₁.get key t = some (e₂, none)) ↔
      (idealRun pre (A.rearm key (some (now + ttlMs)))).read key t = none := by
    intro pre t
    obtain ⟨e₁, e₂, ran, -, got⟩ := rep'.get_run pre key t
    simp [ran, got]
  refine ⟨e', expired, ?_⟩
  simp only [reads]
  rw [read_idealRun_none_iff steady after noSet, read_rearm_past stored passed, rep'.quiet_iff]

theorem expire_past_gone_iff_tick :
    ∃ e, run [⟨0, .set (str "a") (str "x") 0⟩] empty = some e ∧
      ∃ e', e.expire (str "a") (-5) 20 = some (e', true) ∧
      ((∀ pre t, pre <+: [⟨30, .tick⟩] → 20 ≤ t → (∀ c ∈ pre, c.now ≤ t) →
        ∃ e₁ e₂, run pre e' = some e₁ ∧ e₁.get (str "a") t = some (e₂, none)) ↔
      0 ≤ (20 : Int) + -5 ∧ ∀ pre (c : Timed) e₁, pre ++ [c] <+: [⟨30, .tick⟩] →
        run pre e' = some e₁ → ¬ Revives e₁ (str "a") c.now c.call) :=
  ⟨_, rfl, expire_past_gone_iff
    (rfl : run [⟨0, .set (str "a") (str "x") 0⟩] empty = some _)
    (by decide : _ = some (some (str "x"))) (by decide) (by decide) (by decide) (by decide)
    (by decide)⟩

/-- A deadline before the clock's zero is read as no deadline: the value stays until a tick. -/
theorem expire_past_still_read :
    ∃ e e', run [⟨0, .set (str "a") (str "x") 0⟩] empty = some e ∧
      e.expire (str "a") (-1) 0 = some (e', true) ∧
      (e'.get (str "a") 0).map Prod.snd = some (some (str "x")) ∧
      ((run [⟨0, .tick⟩] e').bind fun e => (e.get (str "a") 0).map Prod.snd) = some none :=
  ⟨_, _, rfl, rfl, by decide, by decide⟩

end

end FastGraph.KVEngine
