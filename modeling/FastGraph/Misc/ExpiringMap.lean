import FastGraph.Misc.Bytes

/-!
# Maps whose entries may expire

A map from keys to values in which a key may carry a deadline. Reading a key at or after a
non-negative deadline finds nothing, whether or not the entry has been taken out.
-/

namespace FastGraph

/-- A map in which a key may carry a deadline. -/
structure ExpiringMap (K V : Type) where
  value : K → Option V
  deadline : K → Option Int

namespace ExpiringMap
variable {K V : Type} {A : ExpiringMap K V} {k k' : K} {v : V} {d : Option Int} {now later : Int}

/-- The map without entries. -/
def empty : ExpiringMap K V := ⟨fun _ => none, fun _ => none⟩

/-- Deadlines are set for stored keys only. -/
def Sound (A : ExpiringMap K V) : Prop := ∀ k, A.value k = none → A.deadline k = none

/-- The deadline of `k` has been reached. -/
def reached (A : ExpiringMap K V) (k : K) (now : Int) : Bool :=
  (A.deadline k).any fun d => 0 ≤ d ∧ d ≤ now

/-- The value of `k` at the time `now`. -/
def read (A : ExpiringMap K V) (k : K) (now : Int) : Option V :=
  if A.reached k now then none else A.value k

/-- Every entry with a deadline up to `now` is taken out. -/
def sweep (A : ExpiringMap K V) (now : Int) : ExpiringMap K V where
  value k := if (A.deadline k).any (· ≤ now) then none else A.value k
  deadline k := (A.deadline k).filter (now < ·)

section
variable [DecidableEq K]

/-- `k` is stored with the value `v` and the deadline `d`, if any. -/
def put (A : ExpiringMap K V) (k : K) (v : V) (d : Option Int) : ExpiringMap K V :=
  ⟨Function.update A.value k (some v), Function.update A.deadline k d⟩

/-- `k` is taken out. -/
def drop (A : ExpiringMap K V) (k : K) : ExpiringMap K V :=
  ⟨Function.update A.value k none, Function.update A.deadline k none⟩

/-- `k` gets another deadline, or none. -/
def rearm (A : ExpiringMap K V) (k : K) (d : Option Int) : ExpiringMap K V :=
  ⟨A.value, Function.update A.deadline k d⟩

/-- `k` is taken out if its deadline has been reached. -/
def look (A : ExpiringMap K V) (k : K) (now : Int) : ExpiringMap K V :=
  if A.reached k now then A.drop k else A

end

theorem sound_empty : (empty : ExpiringMap K V).Sound := fun _ _ => rfl

/-! ### Reading -/

theorem reached_iff : A.reached k now = true ↔ ∃ d, A.deadline k = some d ∧ 0 ≤ d ∧ d ≤ now := by
  unfold reached
  cases A.deadline k <;> simp

theorem reached_mono (before : now ≤ later) (due : A.reached k now = true) :
    A.reached k later = true := by
  rw [reached_iff] at due ⊢
  obtain ⟨d, found, nonneg, passed⟩ := due
  exact ⟨d, found, nonneg, passed.trans before⟩

theorem read_eq_some_iff : A.read k now = some v ↔ A.reached k now = false ∧ A.value k = some v := by
  unfold read
  split
  · rename_i due
    simp [due]
  · rename_i notDue
    simp [notDue]

theorem read_eq_none_iff : A.read k now = none ↔ A.reached k now = true ∨ A.value k = none := by
  unfold read
  split
  · rename_i due
    simp [due]
  · rename_i notDue
    simp [notDue]

/-- What is gone stays gone while the map does not change. -/
theorem read_none_mono (before : now ≤ later) (gone : A.read k now = none) :
    A.read k later = none := by
  rw [read_eq_none_iff] at gone ⊢
  exact gone.imp (reached_mono before) id

/-- A read depends on the entry of its key only. -/
theorem read_congr {B : ExpiringMap K V} (value : A.value k = B.value k)
    (deadline : A.deadline k = B.deadline k) : A.read k now = B.read k now := by
  simp [read, reached, value, deadline]

/-! ### Sweeping -/

theorem value_sweep_of_due (due : ∃ d, A.deadline k = some d ∧ d ≤ now) :
    (A.sweep now).value k = none ∧ (A.sweep now).deadline k = none := by
  obtain ⟨d, found, passed⟩ := due
  simp [sweep, found, passed]

theorem value_sweep_of_not_due (notDue : ¬ ∃ d, A.deadline k = some d ∧ d ≤ now) :
    (A.sweep now).value k = A.value k ∧ (A.sweep now).deadline k = A.deadline k := by
  cases found : A.deadline k with
  | none => simp [sweep, found]
  | some d =>
    have ahead : now < d := by
      by_contra behind
      exact notDue ⟨d, found, not_lt.mp behind⟩
    simp [sweep, found, ahead, not_le.mpr ahead]

/-- Sweeping brings nothing back. -/
theorem read_sweep_none (gone : A.read k now = none) : (A.sweep now).read k now = none := by
  by_cases due : ∃ d, A.deadline k = some d ∧ d ≤ now
  · rw [read_eq_none_iff]
    exact Or.inr (value_sweep_of_due due).1
  · obtain ⟨value, deadline⟩ := value_sweep_of_not_due due
    rw [read_congr value deadline, gone]

theorem Sound.sweep (sound : A.Sound) : (A.sweep now).Sound := by
  intro k missing
  by_cases due : ∃ d, A.deadline k = some d ∧ d ≤ now
  · exact (value_sweep_of_due due).2
  · obtain ⟨value, deadline⟩ := value_sweep_of_not_due due
    rw [value] at missing
    rw [deadline, sound k missing]

/-! ### The other operations -/

section
variable [DecidableEq K]

theorem look_drop_or_same (A : ExpiringMap K V) (k : K) (now : Int) :
    A.look k now = A.drop k ∧ A.reached k now = true ∨ A.look k now = A ∧ A.reached k now = false := by
  unfold look
  cases A.reached k now <;> simp

/-- Looking a key up at a time does not change what is read from then on. -/
theorem read_look_none (gone : A.read k now = none) : (A.look k' now).read k now = none := by
  rcases look_drop_or_same A k' now with ⟨out, -⟩ | ⟨same, -⟩
  · rw [out]
    by_cases other : k = k'
    · rw [read_eq_none_iff]
      exact Or.inr (by simp [drop, other])
    · rw [read_congr (B := A) (by simp [drop, other]) (by simp [drop, other]), gone]
  · rw [same, gone]

theorem read_drop_none (gone : A.read k now = none) : (A.drop k').read k now = none := by
  by_cases other : k = k'
  · rw [read_eq_none_iff]
    exact Or.inr (by simp [drop, other])
  · rw [read_congr (B := A) (by simp [drop, other]) (by simp [drop, other]), gone]

theorem read_put_of_ne (other : k ≠ k') : (A.put k' v d).read k now = A.read k now :=
  read_congr (by simp [put, other]) (by simp [put, other])

theorem read_rearm_of_ne (other : k ≠ k') : (A.rearm k' d).read k now = A.read k now :=
  read_congr rfl (by simp [rearm, other])

/-- A deadline given to a key right after its value replaces the one stored with it. -/
theorem rearm_put (A : ExpiringMap K V) (k : K) (v : V) (d d' : Option Int) :
    (A.put k v d).rearm k d' = A.put k v d' := by
  simp [put, rearm]

/-! ### Deadlines that stay -/

theorem deadline_of_drop {x : Int} (held : (A.drop k').deadline k = some x) :
    A.deadline k = some x := by
  simp only [drop, Function.update_apply] at held
  split at held
  · cases held
  · exact held

theorem deadline_of_look {x : Int} (held : (A.look k' now).deadline k = some x) :
    A.deadline k = some x := by
  unfold look at held
  split at held
  · exact deadline_of_drop held
  · exact held

/-! ### Soundness -/

theorem Sound.put (sound : A.Sound) : (A.put k v d).Sound := by
  intro k' missing
  by_cases same : k' = k
  · simp [ExpiringMap.put, same] at missing
  · simp only [ExpiringMap.put, Function.update_of_ne same] at missing ⊢
    exact sound k' missing

theorem Sound.drop (sound : A.Sound) : (A.drop k).Sound := by
  intro k' missing
  by_cases same : k' = k
  · simp [ExpiringMap.drop, same]
  · simp only [ExpiringMap.drop, Function.update_of_ne same] at missing ⊢
    exact sound k' missing

theorem Sound.rearm (sound : A.Sound) (stored : d = none ∨ A.value k ≠ none) :
    (A.rearm k d).Sound := by
  intro k' missing
  by_cases same : k' = k
  · subst same
    rcases stored with rfl | stored
    · simp [ExpiringMap.rearm]
    · exact absurd missing stored
  · simp only [ExpiringMap.rearm, Function.update_of_ne same]
    exact sound k' missing

theorem Sound.look (sound : A.Sound) : (A.look k now).Sound := by
  rcases look_drop_or_same A k now with ⟨out, -⟩ | ⟨same, -⟩
  · rw [out]
    exact sound.drop
  · rw [same]
    exact sound

end

end ExpiringMap

end FastGraph
