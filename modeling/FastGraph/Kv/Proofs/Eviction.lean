import FastGraph.Kv.Proofs.KvEngine

/-!
# What eviction takes out and who can tell

In every state a run reaches the deadlines belong to stored keys, and `tick` takes out
exactly the keys whose deadline has come. Whether `tick` ran before a call shows in what
the call returns exactly where the call meets a key that `tick` would have taken out and
does not make the expiry check of `get` itself.
-/

namespace FastGraph.KVEngine
open RobinHoodMap TTLManager

section
variable {e e' : KVEngine} {A : ExpiringMap Bytes Bytes} {m m' : RobinHoodMap} {k v : Bytes}
  {d t : Int}

/-! ### tick -/

/-- Every key with a deadline is stored, and `tick` at `t` leaves exactly the keys without a
deadline up to `t`, with their values and deadlines. -/
theorem tick_run (cs : List Timed) :
    ∃ e, run cs .empty = some e ∧
      (∀ k d, Holds e.deadlines k d → ∃ v, Binds e.map k v) ∧
      ∀ t, ∃ e', e.tick t = some e' ∧
        (∀ k v, Binds e'.map k v ↔ Binds e.map k v ∧ ∀ d, Holds e.deadlines k d → t < d) ∧
        ∀ k d, Holds e'.deadlines k d ↔ Holds e.deadlines k d ∧ t < d := by
  obtain ⟨e, ran, rep⟩ := run_refines represents_empty cs
  have sound := sound_idealRun ExpiringMap.sound_empty cs
  refine ⟨e, ran, ?_, ?_⟩
  · intro k d held
    rw [rep.deadline] at held
    cases stored : (idealRun cs .empty).value k with
    | none =>
      rw [sound k stored] at held
      cases held
    | some v => exact ⟨v, (rep.value k v).mpr stored⟩
  · intro t
    obtain ⟨e', ticked, rep'⟩ := tick_spec rep t
    refine ⟨e', ticked, ?_, ?_⟩
    · intro k v
      rw [rep'.value, rep.value]
      simp only [rep.deadline]
      by_cases due : ∃ d, (idealRun cs .empty).deadline k = some d ∧ d ≤ t
      · obtain ⟨gone, -⟩ := ExpiringMap.value_sweep_of_due due
        obtain ⟨d, held, passed⟩ := due
        rw [gone]
        constructor
        · intro stored
          cases stored
        · intro ⟨_, ahead⟩
          exact absurd (ahead d held) (not_lt.mpr passed)
      · obtain ⟨kept, -⟩ := ExpiringMap.value_sweep_of_not_due due
        rw [kept]
        constructor
        · intro stored
          exact ⟨stored, fun d held => not_le.mp fun passed => due ⟨d, held, passed⟩⟩
        · exact And.left
    · intro k d
      rw [rep'.deadline, rep.deadline]
      simp [ExpiringMap.sweep, Option.filter_eq_some_iff]

/-! ### The number of keys -/

theorem size_pos (wf : m.WellFormed) (bound : Binds m k v) : 0 < m.size := by
  obtain ⟨i, c, hi, at_i, -⟩ := bound
  rw [← wf.counted]
  apply Finset.card_pos.mpr
  exact ⟨i, Finset.mem_filter.mpr ⟨Finset.mem_range.mpr hi, by rw [at_i]; rfl⟩⟩

/-- Dropping keys takes the number of stored ones down exactly if one of them is stored. -/
theorem dropAll_size (keys : List Bytes) (wf : m.WellFormed) (dropped : dropAll keys m = some m') :
    m'.size ≤ m.size ∧ (m'.size = m.size ↔ ∀ k ∈ keys, ∀ v, ¬ Binds m k v) := by
  induction keys generalizing m with
  | nil =>
    cases dropped
    simp
  | cons key keys ih =>
    obtain ⟨m₁, deleted, step, wf₁, wasThere, size₁, binds₁⟩ := RobinHoodMap.del_spec wf key
    simp only [dropAll, step, Option.bind_eq_bind, Option.bind_some] at dropped
    obtain ⟨fewer, same⟩ := ih wf₁ dropped
    cases deleted with
    | true =>
      obtain ⟨w, bound⟩ := wasThere.mp rfl
      have pos := size_pos wf bound
      rw [if_pos rfl] at size₁
      refine ⟨by omega, iff_of_false (by omega) ?_⟩
      intro unbound
      exact unbound key (by simp) w bound
    | false =>
      have unbound : ∀ v, ¬ Binds m key v := fun v bound => by
        have := wasThere.mpr ⟨v, bound⟩
        cases this
      rw [if_neg (by simp)] at size₁
      rw [size₁] at fewer same
      refine ⟨fewer, same.trans ?_⟩
      simp only [binds₁, List.forall_mem_cons]
      constructor
      · intro later
        refine ⟨unbound, fun k mem v bound => ?_⟩
        by_cases here : k = key
        · subst here
          exact unbound v bound
        · exact later k mem v ⟨here, bound⟩
      · rintro ⟨-, later⟩ k mem v ⟨-, bound⟩
        exact later k mem v bound

/-- `tick` changes the number of keys exactly if a deadline has come. -/
theorem size_tick (rep : Represents e A) (sound : A.Sound) (ticked : e.tick t = some e') :
    e'.size = e.size ↔ ∀ k d, A.deadline k = some d → ¬ d ≤ t := by
  obtain ⟨-, -, evicted⟩ := evictExpired_spec rep.deadlines t
  cases run : dropAll (e.deadlines.evictExpired t).2 e.map with
  | none => simp [tick, run] at ticked
  | some m =>
    simp only [tick, run, Option.bind_eq_bind, Option.bind_some, Option.some.injEq] at ticked
    subst ticked
    have unstored : ∀ k d, A.deadline k = some d → A.value k ≠ none := by
      intro k d held missing
      rw [sound k missing] at held
      cases held
    refine (dropAll_size _ rep.map run).2.trans ?_
    simp only [evicted, rep.deadline, rep.value]
    constructor
    · intro gone k d held passed
      exact unstored k d held
        (Option.eq_none_iff_forall_ne_some.mpr fun v => gone k ⟨d, held, passed⟩ v)
    · intro ahead k due
      obtain ⟨d, held, passed⟩ := due
      exact absurd passed (ahead k d held)

/-! ### What shows -/

/-- The calls of which the result is compared. -/
inductive Query where
  | set (key val : Bytes) (ttlMs : Int)
  | del (key : Bytes)
  | existsKey (key : Bytes)
  | expire (key : Bytes) (ttlMs : Int)
  | persist (key : Bytes)
  | ttl (key : Bytes)
  | size
  deriving DecidableEq, Repr

/-- The call that a query is, unless it is `size`. -/
def Query.call : Query → Option Call
  | .set key val ttlMs => some (.set key val ttlMs)
  | .del key => some (.del key)
  | .existsKey key => some (.existsKey key)
  | .expire key ttlMs => some (.expire key ttlMs)
  | .persist key => some (.persist key)
  | .ttl key => some (.ttl key)
  | .size => none

/-- What a query made at the time `now` returns. -/
def answer (e : KVEngine) (now : Int) (q : Query) : Option Reply :=
  match q.call with
  | some c => (e.call now c).map Prod.snd
  | none => some (.ms e.size)

/-- The query meets a key that is stored although its deadline has come, and does not treat it
as gone: `exists` makes the check of `get`, which a negative deadline escapes, and `persist`
takes a negative deadline for none. -/
def Stale (e : KVEngine) (t : Int) : Query → Prop
  | .set key _ _ => ∃ d, Holds e.deadlines key d ∧ d ≤ t
  | .del key => ∃ d, Holds e.deadlines key d ∧ d ≤ t
  | .existsKey key => ∃ d, Holds e.deadlines key d ∧ d ≤ t ∧ d < 0
  | .expire key _ => ∃ d, Holds e.deadlines key d ∧ d ≤ t
  | .persist key => ∃ d, Holds e.deadlines key d ∧ d ≤ t ∧ 0 ≤ d
  | .ttl key => ∃ d, Holds e.deadlines key d ∧ d ≤ t
  | .size => ∃ key d, Holds e.deadlines key d ∧ d ≤ t

/-- `Stale`, of the abstract map. -/
def IdealStale (A : ExpiringMap Bytes Bytes) (t : Int) : Query → Prop
  | .set key _ _ => ∃ d, A.deadline key = some d ∧ d ≤ t
  | .del key => ∃ d, A.deadline key = some d ∧ d ≤ t
  | .existsKey key => ∃ d, A.deadline key = some d ∧ d ≤ t ∧ d < 0
  | .expire key _ => ∃ d, A.deadline key = some d ∧ d ≤ t
  | .persist key => ∃ d, A.deadline key = some d ∧ d ≤ t ∧ 0 ≤ d
  | .ttl key => ∃ d, A.deadline key = some d ∧ d ≤ t
  | .size => ∃ key d, A.deadline key = some d ∧ d ≤ t

theorem Represents.stale (rep : Represents e A) (t : Int) (q : Query) :
    Stale e t q ↔ IdealStale A t q := by
  cases q <;> simp only [Stale, IdealStale, rep.deadline]

theorem call_answer (rep : Represents e A) (now : Int) (c : Call) :
    (e.call now c).map Prod.snd = some (idealCall A now c).2 := by
  obtain ⟨e', step, -⟩ := call_refines rep now c
  rw [step]
  rfl

/-- What a sweep makes of a key: it is gone if its deadline has come, and else as before. -/
theorem sweep_cases (sound : A.Sound) (k : Bytes) (t : Int) :
    (∃ v d, A.value k = some v ∧ A.deadline k = some d ∧ d ≤ t ∧
      (A.sweep t).value k = none ∧ (A.sweep t).deadline k = none) ∨
    ((∀ d, A.deadline k = some d → ¬ d ≤ t) ∧
      (A.sweep t).value k = A.value k ∧ (A.sweep t).deadline k = A.deadline k) := by
  by_cases due : ∃ d, A.deadline k = some d ∧ d ≤ t
  · have swept := ExpiringMap.value_sweep_of_due due
    obtain ⟨d, held, passed⟩ := due
    cases stored : A.value k with
    | none =>
      rw [sound k stored] at held
      cases held
    | some v => exact Or.inl ⟨v, d, rfl, held, passed, swept⟩
  · exact Or.inr ⟨fun d held passed => due ⟨d, held, passed⟩, ExpiringMap.value_sweep_of_not_due due⟩

/-- The key of a query that does not look at deadlines: a sweep shows exactly if the deadline
has come. -/
theorem sweep_shows_iff (sound : A.Sound) (reply : ExpiringMap Bytes Bytes → Reply)
    (congr : ∀ B : ExpiringMap Bytes Bytes, B.value k = A.value k → B.deadline k = A.deadline k →
      reply B = reply A)
    (differs : ∀ v d, A.value k = some v → A.deadline k = some d → d ≤ t →
      (A.sweep t).value k = none → reply (A.sweep t) ≠ reply A) :
    reply (A.sweep t) = reply A ↔ ¬ ∃ d, A.deadline k = some d ∧ d ≤ t := by
  rcases sweep_cases sound k t with ⟨v, d, stored, held, passed, gone, -⟩ | ⟨ahead, value, deadline⟩
  · exact iff_of_false (differs v d stored held passed gone) (not_not.mpr ⟨d, held, passed⟩)
  · exact iff_of_true (congr _ value deadline) fun ⟨d, held, passed⟩ => ahead d held passed

/-- A call is answered alike before and after a sweep unless it meets a stale key. -/
theorem idealCall_sweep_iff (sound : A.Sound) (t : Int) {q : Query} {c : Call}
    (isCall : q.call = some c) :
    (idealCall (A.sweep t) t c).2 = (idealCall A t c).2 ↔ ¬ IdealStale A t q := by
  cases q with
  | set key val ttlMs =>
    cases isCall
    apply sweep_shows_iff sound (fun B => (idealCall B t (.set key val ttlMs)).2)
    · intro B value _
      simp [idealCall, value]
    · intro v d stored _ _ gone
      simp [idealCall, stored, gone]
  | del key =>
    cases isCall
    apply sweep_shows_iff sound (fun B => (idealCall B t (.del key)).2)
    · intro B value _
      simp [idealCall, value]
    · intro v d stored _ _ gone
      simp [idealCall, stored, gone]
  | expire key ttlMs =>
    cases isCall
    apply sweep_shows_iff sound (fun B => (idealCall B t (.expire key ttlMs)).2)
    · intro B value _
      simp [idealCall, value]
    · intro v d stored _ _ gone
      simp [idealCall, stored, gone]
  | ttl key =>
    cases isCall
    apply sweep_shows_iff sound (fun B => (idealCall B t (.ttl key)).2)
    · intro B value deadline
      simp [idealCall, idealTtl, value, deadline]
    · intro v d stored held passed gone
      simp only [idealCall, idealTtl, stored, held, gone, ne_eq, Reply.ms.injEq]
      simp only [Option.isNone_none, if_true, Option.isNone_some, Bool.false_eq_true, if_false,
        Option.getD_some]
      split <;> omega
  | existsKey key =>
    cases isCall
    rcases sweep_cases sound key t with
      ⟨v, d, stored, held, passed, gone, cleared⟩ | ⟨ahead, value, deadline⟩
    · have after : (A.sweep t).read key t = none := ExpiringMap.read_eq_none_iff.mpr (Or.inr gone)
      have before : (A.read key t).isSome = decide (d < 0) := by
        by_cases negative : d < 0
        · simp [ExpiringMap.read, ExpiringMap.reached, held, stored, negative, not_le.mpr negative]
        · simp [ExpiringMap.read, ExpiringMap.reached, held, negative, passed, not_lt.mp negative]
      simp only [idealCall, after, before, held, Reply.flag.injEq, Option.isSome_none,
        Option.some.injEq, exists_eq_left', passed, true_and, IdealStale]
      by_cases negative : d < 0 <;> simp [negative]
    · have same : (idealCall (A.sweep t) t (.existsKey key)).2 = (idealCall A t (.existsKey key)).2 := by
        simp [idealCall, ExpiringMap.read_congr value deadline]
      refine iff_of_true same ?_
      rintro ⟨d, held, passed, -⟩
      exact ahead d held passed
  | persist key =>
    cases isCall
    rcases sweep_cases sound key t with
      ⟨v, d, stored, held, passed, gone, cleared⟩ | ⟨ahead, value, deadline⟩
    · simp only [idealCall, cleared, held, Reply.flag.injEq, Option.getD_none, Option.getD_some,
        Option.some.injEq, exists_eq_left', passed, true_and, IdealStale]
      by_cases negative : 0 ≤ d <;> simp [negative]
    · have same : (idealCall (A.sweep t) t (.persist key)).2 = (idealCall A t (.persist key)).2 := by
        simp [idealCall, deadline]
      refine iff_of_true same ?_
      rintro ⟨d, held, passed, -⟩
      exact ahead d held passed
  | size => cases isCall

/-- Whether `tick` ran just before a query shows in the result exactly if the query meets a
stale key. -/
theorem tick_unobserved_iff (cs : List Timed) :
    ∃ e, run cs .empty = some e ∧ ∀ t q,
      ((e.tick t).bind fun e' => e'.answer t q) = e.answer t q ↔ ¬ Stale e t q := by
  obtain ⟨e, ran, rep⟩ := run_refines represents_empty cs
  have sound := sound_idealRun ExpiringMap.sound_empty cs
  refine ⟨e, ran, ?_⟩
  intro t q
  obtain ⟨e', ticked, rep'⟩ := tick_spec rep t
  rw [ticked, Option.bind_some, rep.stale]
  cases isCall : q.call with
  | some c =>
    simp only [answer, isCall, call_answer rep, call_answer rep', Option.some.injEq]
    exact idealCall_sweep_iff sound t isCall
  | none =>
    cases q with
    | size =>
      simp only [answer, isCall, Option.some.injEq, Reply.ms.injEq, Nat.cast_inj, IdealStale]
      rw [size_tick rep sound ticked]
      simp only [not_exists, not_and]
    | set | del | existsKey | expire | persist | ttl => cases isCall

/-- A key whose deadline has come has no time left before `tick` and is missing after it. -/
theorem ttl_after_tick :
    ((run [⟨0, .set (str "a") (str "x") 10⟩] .empty).bind fun e => e.answer 20 (.ttl (str "a"))) =
        some (.ms 0) ∧
      ((run [⟨0, .set (str "a") (str "x") 10⟩] .empty).bind fun e =>
        (e.tick 20).bind fun e' => e'.answer 20 (.ttl (str "a"))) = some (.ms (-2)) := by
  decide

end

end FastGraph.KVEngine
