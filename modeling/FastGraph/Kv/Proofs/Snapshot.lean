import FastGraph.Kv.Snapshot
import FastGraph.Kv.Proofs.Lifetime

/-!
# What a snapshot misses

Calls between two iterations of `all_entries` may move the entry of a key that none of them
names: `set` and `grow` away from its slot, `del` and an eviction back over the hole. A key
is listed once for each time the loop comes to its slot. So it is listed once altogether
exactly when the calls take it out of the slots that have been read as often as into them.
-/

namespace FastGraph.KVEngine
open RobinHoodMap TTLManager

section
variable {e e' : KVEngine} {A : ExpiringMap Bytes Bytes} {s s' : Scanning} {c : Call}
  {key v : Bytes} {now : Int} {n : Nat}

/-! ### Keys that are not named -/

theorem untouched_of_unnamed (unnamed : c.key? ≠ some key) : c.touches key = false := by
  cases c <;> simp_all [Call.key?, Call.touches]

/-- A key without a deadline keeps its value, and gets no deadline, unless a call names it. -/
theorem idealCall_unnamed (now : Int) (value : A.value key = some v) (unarmed : A.deadline key = none)
    (unnamed : c.key? ≠ some key) :
    (idealCall A now c).1.value key = some v ∧ (idealCall A now c).1.deadline key = none := by
  have early : ∀ d, A.deadline key = some d → now < d := by simp [unarmed]
  obtain ⟨value', deadline'⟩ := idealCall_untouched (untouched_of_unnamed unnamed) early
  exact ⟨value'.trans value, deadline'.trans unarmed⟩

/-- The slot holds the key. -/
def Lies (e : KVEngine) (key : Bytes) (i : Nat) : Prop :=
  (slot e.map.entries i).empty = false ∧ (slot e.map.entries i).key = key

theorem behind_iff : s.behind key = true ↔ ∃ i, i < s.i ∧ Lies s.engine key i := by
  simp [Scanning.behind, Lies]

theorem Lies.unique (wf : e.map.WellFormed) {i j : Nat} (here : Lies e key i)
    (there : Lies e key j) : i = j :=
  wf.slots.distinct i j _ _ (wf.probed.occupied_lt here.1) (wf.probed.occupied_lt there.1)
    (view_of_occupied here.1) (view_of_occupied there.1) (here.2.trans there.2.symm)

/-- A stored key lies in a slot, with its value. -/
theorem Represents.lies (rep : Represents e A) (value : A.value key = some v) :
    ∃ i, Lies e key i := by
  obtain ⟨i, c, -, at_i, item⟩ := (rep.value key v).mpr value
  obtain ⟨occupied, -, same⟩ := occupied_of_view at_i
  rw [item] at same
  exact ⟨i, occupied, congrArg Item.key same⟩

theorem Represents.value_of_lies (rep : Represents e A) (value : A.value key = some v)
    (lies : Lies e key n) : (slot e.map.entries n).val = v := by
  have held : RobinHood.Has e.map.capacity (view e.map.entries) (slot e.map.entries n).item :=
    ⟨n, _, rep.map.probed.occupied_lt lies.1, view_of_occupied lies.1, rfl⟩
  have bound : Binds e.map (slot e.map.entries n).key (slot e.map.entries n).val :=
    (rep.map.probed.has_iff.mp held).2
  rw [rep.value, lies.2, value] at bound
  exact (Option.some.inj bound).symm

/-! ### One step and a whole scan -/

/-- The engine holds the key with the value and without a deadline. -/
def Stores (e : KVEngine) (key v : Bytes) : Prop :=
  ∃ A, Represents e A ∧ A.value key = some v ∧ A.deadline key = none

theorem Stores.listed (stores : Stores e key v) (lies : Lies e key n) :
    e.listed now n = some (key, v, -1) := by
  obtain ⟨A, rep, value, unarmed⟩ := stores
  refine listed_eq_some.mpr ⟨lies.1, lies.2, rep.value_of_lies value lies, ?_, by omega⟩
  rw [rep.getExpiry, unarmed]
  rfl

/-- An iteration comes to the slot of the key or it does not. -/
theorem Stores.iterate (stores : Stores s.engine key v)
    (taken : s.step (.iterate now) = some s') :
    Stores s'.engine key v ∧ ∃ n, s'.entriesOf key = s.entriesOf key ++ List.replicate n (key, v, -1) ∧
      n + (s.behind key).toNat = (s'.behind key).toNat := by
  simp only [Scanning.step] at taken
  split at taken
  · cases taken
    refine ⟨stores, ?_⟩
    have reads : ∀ b, Scanning.behind ⟨s.engine, s.i + 1, b⟩ key = true ↔
        s.behind key = true ∨ Lies s.engine key s.i := by
      intro b
      simp only [behind_iff, Nat.lt_succ_iff_lt_or_eq]
      constructor
      · rintro ⟨i, earlier | same, lies⟩
        · exact Or.inl ⟨i, earlier, lies⟩
        · exact Or.inr (same ▸ lies)
      · rintro (⟨i, earlier, lies⟩ | lies)
        · exact ⟨i, Or.inl earlier, lies⟩
        · exact ⟨s.i, Or.inr rfl, lies⟩
    by_cases lies : Lies s.engine key s.i
    · have new : s.behind key = false := by
        rw [Bool.eq_false_iff, ne_eq, behind_iff]
        intro ⟨i, earlier, there⟩
        obtain ⟨A, rep, -⟩ := stores
        have same := there.unique rep.map lies
        omega
      have now_read := (reads (s.result ++ (s.engine.listed now s.i).toList)).mpr (Or.inr lies)
      refine ⟨1, ?_, by rw [now_read, new]; rfl⟩
      simp [Scanning.entriesOf, stores.listed lies]
    · refine ⟨0, ?_, ?_⟩
      · cases entry : s.engine.listed now s.i with
        | none => simp [Scanning.entriesOf]
        | some x =>
          obtain ⟨k, w, d⟩ := x
          obtain ⟨occupied, same, -⟩ := listed_eq_some.mp entry
          have differ : k ≠ key := by
            intro named
            exact lies ⟨occupied, same.trans named⟩
          simp [Scanning.entriesOf, differ]
      · rw [Nat.zero_add]
        congr 1
        rw [Bool.eq_iff_iff, reads]
        simp [lies]
  · cases taken

/-- A call moves the entry over the position of the scan or it does not. -/
theorem Stores.call {c : Timed} (stores : Stores s.engine key v)
    (unnamed : c.call.key? ≠ some key) (taken : s.step (.call c) = some s') :
    Stores s'.engine key v ∧ s'.entriesOf key = s.entriesOf key := by
  obtain ⟨A, rep, value, unarmed⟩ := stores
  obtain ⟨e', step, rep'⟩ := call_refines rep c.now c.call
  simp only [Scanning.step, step, Option.bind_eq_bind, Option.bind_some, Option.some.injEq] at taken
  subst taken
  obtain ⟨value', unarmed'⟩ := idealCall_unnamed c.now value unarmed unnamed
  exact ⟨⟨_, rep', value', unarmed'⟩, rfl⟩

/-- One step: the entries pushed under the key, the moves over the position of the scan and
the side on which the key lies balance. -/
theorem Stores.step {step : ScanStep} (stores : Stores s.engine key v)
    (unnamed : step.key? ≠ some key) (taken : s.step step = some s') :
    Stores s'.engine key v ∧ ∃ n, s'.entriesOf key = s.entriesOf key ++ List.replicate n (key, v, -1) ∧
      n + (s.behind key).toNat + (Scanning.crosses key false s s' step).toNat =
        (Scanning.crosses key true s s' step).toNat + (s'.behind key).toNat := by
  cases step with
  | iterate now =>
    obtain ⟨stores', n, pushed, balance⟩ := stores.iterate taken
    exact ⟨stores', n, pushed, by simpa [Scanning.crosses] using balance⟩
  | call c =>
    obtain ⟨stores', same⟩ := stores.call unnamed taken
    refine ⟨stores', 0, by simpa using same, ?_⟩
    simp only [Scanning.crosses]
    cases s.behind key <;> cases s'.behind key <;> rfl

/-- A sequence of steps balances as its steps do. -/
theorem Stores.run {steps : List ScanStep} (stores : Stores s.engine key v)
    (unnamed : ∀ step ∈ steps, step.key? ≠ some key) (ran : Scanning.run steps s = some s') :
    Stores s'.engine key v ∧ ∃ n, s'.entriesOf key = s.entriesOf key ++ List.replicate n (key, v, -1) ∧
      n + (s.behind key).toNat + Scanning.crossings key false steps s =
        Scanning.crossings key true steps s + (s'.behind key).toNat := by
  induction steps generalizing s with
  | nil =>
    cases ran
    exact ⟨stores, 0, by simp, by simp [Scanning.crossings]⟩
  | cons step steps ih =>
    simp only [Scanning.run, Option.bind_eq_bind, Option.bind_eq_some_iff] at ran
    obtain ⟨s₁, taken, rest⟩ := ran
    obtain ⟨stores₁, n₁, pushed₁, balance₁⟩ :=
      stores.step (unnamed step List.mem_cons_self) taken
    obtain ⟨stores', n, pushed, balance⟩ :=
      ih stores₁ (fun step held => unnamed step (List.mem_cons_of_mem _ held)) rest
    refine ⟨stores', n₁ + n, ?_, ?_⟩
    · rw [pushed, pushed₁, List.append_assoc, List.replicate_add]
    · simp only [Scanning.crossings, taken]
      omega

/-- When the loop has been left every stored key lies in a slot that has been read. -/
theorem Stores.behind_of_ended (stores : Stores s.engine key v) (ended : s.ended = true) :
    s.behind key = true := by
  obtain ⟨A, rep, value, -⟩ := stores
  obtain ⟨i, lies⟩ := rep.lies value
  have inside := rep.map.probed.occupied_lt lies.1
  have left : s.engine.map.capacity ≤ s.i := by simpa [Scanning.ended] using ended
  exact behind_iff.mpr ⟨i, by omega, lies⟩

/-- A key that is stored without a deadline and that no call names during a scan is listed
exactly once, with its value, if and only if the calls move its entry out of the slots that
have been read as often as into them. -/
theorem listed_once_iff (history : List Timed) (steps : List ScanStep)
    (reached : KVEngine.run history empty = some e) (live : e.map.get key = some (some v))
    (unarmed : ∀ d, ¬ Holds e.deadlines key d)
    (unnamed : ∀ step ∈ steps, step.key? ≠ some key)
    (ran : Scanning.run steps (scanning e) = some s) (ended : s.ended = true) :
    s.entriesOf key = [(key, v, -1)] ↔
      Scanning.crossings key true steps (scanning e) =
        Scanning.crossings key false steps (scanning e) := by
  obtain ⟨e₁, ran₁, rep⟩ := run_refines represents_empty history
  rw [reached] at ran₁
  cases ran₁
  have stores : Stores (scanning e).engine key v := by
    refine ⟨_, rep, ?_, ?_⟩
    · have found := rep.get_map key
      rw [live] at found
      exact (Option.some.inj found).symm
    · rw [Option.eq_none_iff_forall_ne_some]
      intro d held
      exact unarmed d ((rep.deadline key d).mpr held)
  obtain ⟨stores', n, pushed, balance⟩ := stores.run unnamed ran
  have start : (scanning e).behind key = false := rfl
  have none_yet : (scanning e).entriesOf key = [] := rfl
  rw [start, stores'.behind_of_ended ended] at balance
  have once : List.replicate n (key, v, (-1 : Int)) = [(key, v, -1)] ↔ n = 1 := by
    constructor
    · intro same
      simpa using congrArg List.length same
    · rintro rfl
      rfl
  rw [pushed, none_yet, List.nil_append, once]
  simp only [Bool.toNat_false, Bool.toNat_true] at balance
  omega

/-- `a` and `q` have the same home slot. While the scan stands behind the slot of `a`, another
key is read. -/
theorem listed_once_iff_read :
    ∃ e s, e.map.get (str "q") = some (some (str "2")) ∧ s.ended = true ∧
      (Scanning.entriesOf s (str "q") = [(str "q", str "2", -1)] ↔
        Scanning.crossings (str "q") true
            (List.replicate 13 (.iterate 0) ++ .call ⟨0, .get (str "a")⟩ ::
              List.replicate 3 (.iterate 0)) (scanning e) =
          Scanning.crossings (str "q") false
            (List.replicate 13 (.iterate 0) ++ .call ⟨0, .get (str "a")⟩ ::
              List.replicate 3 (.iterate 0)) (scanning e)) :=
  ⟨_, _, by decide, by decide,
    listed_once_iff [⟨0, .set (str "a") (str "1") 0⟩, ⟨0, .set (str "q") (str "2") 0⟩] _
      rfl (by decide) (by rintro d ⟨i, inside, -⟩; exact absurd inside (Nat.not_lt_zero i))
      (by decide) rfl (by decide)⟩

/-- `del` of `a` shifts `q` back into the slot that has just been read: the snapshot does not
have it. -/
theorem shifted_back :
    ∃ e s, KVEngine.run [⟨0, .set (str "a") (str "1") 0⟩, ⟨0, .set (str "q") (str "2") 0⟩] empty =
        some e ∧
      e.map.get (str "q") = some (some (str "2")) ∧ (∀ d, ¬ Holds e.deadlines (str "q") d) ∧
      Scanning.run (List.replicate 13 (.iterate 0) ++ .call ⟨0, .del (str "a")⟩ ::
        List.replicate 3 (.iterate 0)) (scanning e) = some s ∧
      s.ended = true ∧ s.engine.map.get (str "q") = some (some (str "2")) ∧
      s.entriesOf (str "q") = [] :=
  ⟨_, _, rfl, by decide, by rintro d ⟨i, inside, -⟩; exact absurd inside (Nat.not_lt_zero i),
    rfl, by decide, by decide, by decide⟩

end

end FastGraph.KVEngine
