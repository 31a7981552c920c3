import FastGraph.Kv.Proofs.Ttl

/-!
# Runs of the expiry heap

Whatever the order of the calls and the readings of the clock, the heap is the finite map from
keys to the deadlines that were set last and not since removed or evicted.
-/

namespace FastGraph.TTLManager
open BinaryHeap

/-- The calls that change the deadlines, each with the reading of the clock it takes. -/
inductive Call where
  | setExpiry (key : Bytes) (ttlMs now : Int)
  | removeExpiry (key : Bytes)
  | evictExpired (now : Int)
  deriving DecidableEq, Repr

/-- The state after a call. -/
def apply (t : TTLManager) : Call → TTLManager
  | .setExpiry key ttlMs now => t.setExpiry key ttlMs now
  | .removeExpiry key => t.removeExpiry key
  | .evictExpired now => (t.evictExpired now).1

def run (calls : List Call) (t : TTLManager) : TTLManager := calls.foldl apply t

/-- The addition of `set_expiry` does not overflow. -/
def Call.InRange : Call → Prop
  | .setExpiry _ ttlMs now => -2 ^ 63 ≤ now + ttlMs ∧ now + ttlMs < 2 ^ 63
  | _ => True

/-- The deadlines of the keys that have one. -/
abbrev Deadlines := Bytes → Option Int

/-- What a call does to the deadlines. -/
def Deadlines.apply (m : Deadlines) : Call → Deadlines
  | .setExpiry key ttlMs now => fun k => if k = key then some (now + ttlMs) else m k
  | .removeExpiry key => fun k => if k = key then none else m k
  | .evictExpired now => fun k => (m k).filter (now < ·)

def Deadlines.run (calls : List Call) (m : Deadlines) : Deadlines := calls.foldl Deadlines.apply m

/-- The heap and the map have the same deadlines. -/
structure Represents (t : TTLManager) (m : Deadlines) : Prop where
  wellFormed : WellFormed t
  holds : ∀ k d, Holds t k d ↔ m k = some d

section
variable {t : TTLManager} {m : Deadlines}

theorem represents_empty : Represents empty fun _ => none :=
  ⟨wellFormed_empty, fun _ _ => iff_of_false not_holds_empty nofun⟩

/-- One call. -/
theorem Represents.apply (rep : Represents t m) {c : Call} (inRange : c.InRange) :
    Represents (t.apply c) (m.apply c) := by
  obtain ⟨wf, holds⟩ := rep
  cases c with
  | setExpiry key ttlMs now =>
    obtain ⟨wf', holds'⟩ := setExpiry_spec wf key ttlMs now
    refine ⟨wf', fun k d => ?_⟩
    refine (holds' k d).trans ?_
    simp only [Deadlines.apply, toInt64_of_range inRange.1 inRange.2]
    split
    · rw [Option.some.injEq, eq_comm]
    · exact holds k d
  | removeExpiry key =>
    obtain ⟨wf', holds', -⟩ := removeExpiry_spec wf key
    refine ⟨wf', fun k d => ?_⟩
    refine (holds' k d).trans ?_
    simp only [Deadlines.apply, holds]
    split
    · rename_i same
      exact iff_of_false (fun both => both.1 same) nofun
    · rename_i other
      exact and_iff_right other
  | evictExpired now =>
    obtain ⟨wf', holds', -⟩ := evictExpired_spec wf now
    refine ⟨wf', fun k d => ?_⟩
    refine (holds' k d).trans ?_
    rw [Deadlines.apply, holds, Option.filter_eq_some_iff, decide_eq_true_iff]

theorem Represents.run (rep : Represents t m) {calls : List Call} (inRange : ∀ c ∈ calls, c.InRange) :
    Represents (run calls t) (m.run calls) := by
  induction calls generalizing t m with
  | nil => exact rep
  | cons c calls ih =>
    have first := rep.apply (inRange c List.mem_cons_self)
    exact ih first fun c' mem => inRange c' (List.mem_cons_of_mem c mem)

theorem Represents.getExpiry (rep : Represents t m) (k : Bytes) : t.getExpiry k = (m k).getD (-1) := by
  cases armed : m k with
  | none =>
    refine rep.wellFormed.indexed.getExpiry_none fun d held => ?_
    rw [(rep.holds k d).mp held] at armed
    cases armed
  | some d => exact rep.wellFormed.indexed.getExpiry_eq ((rep.holds k d).mpr armed)

end

/-- What the heap and its answers are when the deadlines are `m`. -/
structure Answers (t : TTLManager) (m : Deadlines) : Prop where
  /-- Each key with a deadline is in one entry, and every entry has its own. -/
  entries : ∀ k d, m k = some d ↔ ∃ i, i < t.heap.size ∧ (t.entry i).key = k ∧ (t.entry i).expiresAt = d
  distinct : ∀ i j, i < t.heap.size → j < t.heap.size → (t.entry i).key = (t.entry j).key → i = j
  ordered : ∀ i, 0 < i → i < t.heap.size → (t.entry ((i - 1) / 2)).expiresAt ≤ (t.entry i).expiresAt
  index : ∀ k i, t.index.find k = some i ↔ i < t.heap.size ∧ (t.entry i).key = k
  heapIdx : ∀ i, i < t.heap.size → (t.entry i).heapIdx = i
  getExpiry : ∀ k, t.getExpiry k = (m k).getD (-1)
  evicted : ∀ now k, k ∈ (t.evictExpired now).2 ↔ ∃ d, m k = some d ∧ d ≤ now
  once : ∀ now, (t.evictExpired now).2.Nodup
  sorted : ∀ now, (t.evictExpired now).2.Pairwise fun k k' => (m k).getD (-1) ≤ (m k').getD (-1)
  others : ∀ now, Represents (t.evictExpired now).1 fun k => (m k).filter (now < ·)

theorem Represents.answers {t : TTLManager} {m : Deadlines} (rep : Represents t m) : Answers t m where
  entries k d := (rep.holds k d).symm
  distinct i j hi hj same := rep.wellFormed.indexed.located.inj hi hj same
  ordered := rep.wellFormed.ordered
  index := rep.wellFormed.indexed.find
  heapIdx := rep.wellFormed.indexed.heapIdx
  getExpiry := rep.getExpiry
  evicted now k := by
    rw [(evictExpired_spec rep.wellFormed now).2.2]
    simp only [rep.holds]
  once now := (evictExpired_order rep.wellFormed now).1
  sorted now := by
    refine (evictExpired_order rep.wellFormed now).2.imp_of_mem fun {k k'} mem mem' le => ?_
    obtain ⟨d, held, -⟩ := ((evictExpired_spec rep.wellFormed now).2.2 k).mp mem
    obtain ⟨d', held', -⟩ := ((evictExpired_spec rep.wellFormed now).2.2 k').mp mem'
    rw [(rep.holds k d).mp held, (rep.holds k' d').mp held']
    exact le d d' held held'
  others now := rep.apply (c := .evictExpired now) trivial

/-- After every sequence of calls the heap answers as the map of the deadlines. -/
theorem run_answers (calls : List Call) (inRange : ∀ c ∈ calls, c.InRange) :
    Answers (run calls empty) (Deadlines.run calls fun _ => none) :=
  (represents_empty.run inRange).answers

theorem run_answers_two :
    Answers (run [.setExpiry (str "a") 30 0, .setExpiry (str "b") 10 5, .evictExpired 15] empty)
      (Deadlines.run [.setExpiry (str "a") 30 0, .setExpiry (str "b") 10 5, .evictExpired 15]
        fun _ => none) :=
  run_answers _ (by simp [Call.InRange])

end FastGraph.TTLManager
