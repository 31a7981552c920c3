import FastGraph.Kv.Proofs.KvEngine

/-!
# How long a key is kept

A key that no call touches keeps its value until its deadline, whatever else the engine does,
and no longer than that. A `get`, `exists` or `ttl` of the key does not touch it.
-/

namespace FastGraph.KVEngine
open TTLManager

section
variable {e : KVEngine} {A : ExpiringMap Bytes Bytes} {c : Call} {key v : Bytes} {now t₀ upto : Int}

/-- The call may store, drop or rearm the key. -/
def Call.touches (key : Bytes) : Call → Bool
  | .set k _ _ => k = key
  | .del k => k = key
  | .expire k _ => k = key
  | .persist k => k = key
  | _ => false

/-- Before its deadline a key is changed by no call that does not touch it. -/
theorem idealCall_untouched (untouched : c.touches key = false)
    (early : ∀ d, A.deadline key = some d → now < d) :
    (idealCall A now c).1.value key = A.value key ∧
      (idealCall A now c).1.deadline key = A.deadline key := by
  have other : ∀ {k : Bytes}, decide (k = key) = false → key ≠ k := by
    intro k differ same
    exact of_decide_eq_false differ same.symm
  have look : ∀ k, (A.look k now).value key = A.value key ∧
      (A.look k now).deadline key = A.deadline key := by
    intro k
    unfold ExpiringMap.look
    split
    · rename_i due
      have differ : key ≠ k := by
        rintro rfl
        obtain ⟨d, armed, -, passed⟩ := ExpiringMap.reached_iff.mp due
        exact absurd passed (by have := early d armed; omega)
      simp [ExpiringMap.drop, differ]
    · exact ⟨rfl, rfl⟩
  cases c with
  | set k val ttlMs => simp [idealCall, ExpiringMap.put, other untouched]
  | get k => exact look k
  | del k => simp [idealCall, ExpiringMap.drop, other untouched]
  | existsKey k => exact look k
  | expire k ttlMs =>
    simp only [idealCall, idealExpire]
    split
    · simp [ExpiringMap.rearm, other untouched]
    · exact ⟨rfl, rfl⟩
  | persist k =>
    simp only [idealCall, idealPersist]
    split
    · exact ⟨rfl, rfl⟩
    · simp [ExpiringMap.rearm, other untouched]
  | ttl k => exact ⟨rfl, rfl⟩
  | tick =>
    cases armed : A.deadline key with
    | none => simp [idealCall, ExpiringMap.sweep, armed]
    | some d =>
      have ahead := early d armed
      simp [idealCall, ExpiringMap.sweep, armed, ahead]

/-- The calls are made one after another from `t₀` on and before `upto`, and none of them
touches the key. -/
structure Spares (key : Bytes) (t₀ upto : Int) (calls : List Timed) : Prop where
  ordered : calls.Pairwise (·.now ≤ ·.now)
  within : ∀ c ∈ calls, t₀ ≤ c.now ∧ c.now < upto
  untouched : ∀ c ∈ calls, c.call.touches key = false

/-- From `t₀` on and before `upto` the key stays in the table and can be read, whatever calls are
made that do not touch it. -/
def KeptUntil (e : KVEngine) (key v : Bytes) (t₀ upto : Int) : Prop :=
  ∀ calls t, Spares key t₀ upto calls → (∀ c ∈ calls, c.now ≤ t) → t₀ ≤ t → t < upto →
    ∃ e', run calls e = some e' ∧ e'.map.get key = some (some v) ∧
      (e'.get key t).map Prod.snd = some (some v)

/-- Calls before the deadline leave the key as it was. -/
theorem idealRun_spares {calls : List Timed} (spares : Spares key t₀ upto calls)
    (late : ∀ d, A.deadline key = some d → upto ≤ d) :
    (idealRun calls A).value key = A.value key ∧
      (idealRun calls A).deadline key = A.deadline key := by
  induction calls generalizing A with
  | nil => exact ⟨rfl, rfl⟩
  | cons c calls ih =>
    obtain ⟨ordered, within, untouched⟩ := spares
    have first := within c List.mem_cons_self
    have early : ∀ d, A.deadline key = some d → c.now < d := by
      intro d armed
      have := late d armed
      omega
    obtain ⟨value, deadline⟩ := idealCall_untouched (untouched c List.mem_cons_self) early
    have rest : Spares key t₀ upto calls :=
      ⟨ordered.of_cons, fun c mem => within c (List.mem_cons_of_mem _ mem),
        fun c mem => untouched c (List.mem_cons_of_mem _ mem)⟩
    obtain ⟨value', deadline'⟩ := ih (A := (idealCall A c.now c.call).1) rest (by rwa [deadline])
    exact ⟨value'.trans value, deadline'.trans deadline⟩

/-- A stored key is kept until `upto` exactly if it has no deadline before. -/
theorem keptUntil_iff (rep : Represents e A) (value : A.value key = some v) (ahead : t₀ < upto) :
    KeptUntil e key v t₀ upto ↔ ∀ d, A.deadline key = some d → upto ≤ d := by
  constructor
  · intro kept d armed
    by_contra early
    -- The timer goes off at the deadline, or at once if that has passed.
    have spares : Spares key t₀ upto [⟨max t₀ d, .tick⟩] := by
      refine ⟨List.pairwise_singleton _ _, ?_, ?_⟩
      · simp only [List.mem_singleton, forall_eq]
        omega
      · simp [Call.touches]
    obtain ⟨e', ran, held, -⟩ := kept _ (max t₀ d) spares (by simp [le_total]) (by omega) (by omega)
    obtain ⟨e₁, ran₁, rep₁⟩ := run_refines rep [⟨max t₀ d, .tick⟩]
    rw [ran₁] at ran
    cases ran
    rw [rep₁.get_map] at held
    have swept : (A.sweep (max t₀ d)).value key = none := by
      simp [ExpiringMap.sweep, armed]
    have gone : (idealRun [⟨max t₀ d, .tick⟩] A).value key = none := swept
    rw [gone] at held
    cases held
  · intro late calls t spares _ from_start before
    obtain ⟨e', ran, rep'⟩ := run_refines rep calls
    obtain ⟨value', deadline'⟩ := idealRun_spares spares late
    refine ⟨e', ran, by rw [rep'.get_map, value', value], ?_⟩
    obtain ⟨e'', got, -⟩ := get_spec rep' key t
    rw [got, Option.map_some]
    congr 1
    rw [ExpiringMap.read_eq_some_iff, value', value]
    refine ⟨?_, rfl⟩
    rw [Bool.eq_false_iff, ne_eq, ExpiringMap.reached_iff, deadline']
    rintro ⟨d, armed, -, passed⟩
    have := late d armed
    omega

end

end FastGraph.KVEngine
