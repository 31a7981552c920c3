import Mathlib.Data.List.Induction

/-!
# Histories of a register

A register holds at most one value for each pair of a key and an id. What it holds after a
history of changes is the last value that was put there and that nothing has taken away since.
Renaming the keys does not matter to a key that keeps its changes apart from those of the others.
-/

namespace FastGraph

/-- A change of a register: a value is put, a value is dropped if it is the one that stands, or
everything under an id is cleared. -/
inductive Mark (κ ι α : Type) where
  | put (key : κ) (id : ι) (value : α)
  | drop (key : κ) (id : ι) (value : α)
  | clear (id : ι)

namespace Mark

variable {κ κ' ι α : Type}

/-- The change with its key renamed. -/
def rename (f : κ → κ') : Mark κ ι α → Mark κ' ι α
  | put key id value => put (f key) id value
  | drop key id value => drop (f key) id value
  | clear id => clear id

/-- The key a change is for. -/
def key : Mark κ ι α → Option κ
  | put key _ _ => some key
  | drop key _ _ => some key
  | clear _ => none

/-- The change leaves `value` standing under `key` and `id`. -/
def Leaves (key : κ) (id : ι) (value : α) : Mark κ ι α → Prop
  | put key' id' _ => ¬ (key' = key ∧ id' = id)
  | drop key' id' value' => ¬ (key' = key ∧ id' = id ∧ value' = value)
  | clear id' => id' ≠ id

/-- The last value that was put under `key` and `id` is `value`, and it still stands. -/
def Stands (marks : List (Mark κ ι α)) (key : κ) (id : ι) (value : α) : Prop :=
  ∃ before after, marks = before ++ put key id value :: after ∧
    ∀ m ∈ after, m.Leaves key id value

section
variable [DecidableEq κ] [DecidableEq ι] [DecidableEq α]

/-- A register after a change. -/
def on (r : κ → ι → Option α) : Mark κ ι α → κ → ι → Option α
  | put key id value => fun k i => if k = key ∧ i = id then some value else r k i
  | drop key id value => fun k i =>
    if k = key ∧ i = id ∧ r key id = some value then none else r k i
  | clear id => fun k i => if i = id then none else r k i

/-- What an empty register holds after a history. -/
def register (marks : List (Mark κ ι α)) : κ → ι → Option α :=
  marks.foldl on fun _ _ => none

variable {marks : List (Mark κ ι α)} {k : κ} {i : ι} {a : α}

@[simp] theorem register_nil : register ([] : List (Mark κ ι α)) = fun _ _ => none := rfl

theorem register_append_singleton (marks : List (Mark κ ι α)) (m : Mark κ ι α) :
    register (marks ++ [m]) = m.on (register marks) := by
  rw [register, List.foldl_append]
  rfl

/-- What a register holds behind one change. -/
theorem on_eq_some {r : κ → ι → Option α} {m : Mark κ ι α} :
    m.on r k i = some a ↔ m = put k i a ∨ r k i = some a ∧ m.Leaves k i a := by
  cases m with
  | put key id value =>
    simp only [on, Leaves, put.injEq]
    by_cases here : k = key ∧ i = id
    · obtain ⟨rfl, rfl⟩ := here
      simp
    · rw [if_neg here]
      have apart : ¬ (key = k ∧ id = i) := fun same => here ⟨same.1.symm, same.2.symm⟩
      constructor
      · exact fun held => Or.inr ⟨held, apart⟩
      · rintro (⟨rfl, rfl, -⟩ | ⟨held, -⟩)
        · exact absurd ⟨rfl, rfl⟩ here
        · exact held
  | drop key id value =>
    simp only [on, Leaves, reduceCtorEq, false_or]
    split
    · rename_i here
      obtain ⟨rfl, rfl, held⟩ := here
      rw [held]
      simp
    · rename_i apart
      refine (and_iff_left_of_imp ?_).symm
      rintro held ⟨rfl, rfl, rfl⟩
      exact apart ⟨rfl, rfl, held⟩
  | clear id =>
    simp only [on, Leaves, reduceCtorEq, false_or]
    split
    · rename_i here
      simp [here]
    · rename_i apart
      exact (and_iff_left fun same => apart same.symm).symm

/-- What a register holds behind a `drop` it held before. -/
theorem on_drop_eq_some {r : κ → ι → Option α} {key : κ} {id : ι} {value : α} :
    (drop key id value).on r k i = some a ↔
      r k i = some a ∧ (drop key id value).Leaves k i a :=
  on_eq_some.trans (or_iff_right (by simp))

/-- What a register holds behind a `clear` it held before. -/
theorem on_clear_eq_some {r : κ → ι → Option α} {id : ι} :
    ((clear id : Mark κ ι α).on r k i = some a) ↔
      r k i = some a ∧ (clear id : Mark κ ι α).Leaves k i a :=
  on_eq_some.trans (or_iff_right (by simp))

omit [DecidableEq κ] [DecidableEq ι] [DecidableEq α] in
theorem not_stands_nil : ¬ Stands ([] : List (Mark κ ι α)) k i a := by
  rintro ⟨before, after, cut, -⟩
  simp at cut

omit [DecidableEq κ] [DecidableEq ι] [DecidableEq α] in
theorem stands_append_singleton {m : Mark κ ι α} :
    Stands (marks ++ [m]) k i a ↔ m = put k i a ∨ Stands marks k i a ∧ m.Leaves k i a := by
  constructor
  · rintro ⟨before, after, cut, leaves⟩
    rcases List.eq_nil_or_concat after with rfl | ⟨after, last, rfl⟩
    · exact Or.inl (List.append_inj' cut rfl).2 |>.imp_left fun same => (List.cons.inj same).1
    · rw [List.concat_eq_append] at cut leaves
      rw [← List.cons_append, ← List.append_assoc] at cut
      obtain ⟨rfl, same⟩ := List.append_inj' cut rfl
      obtain rfl := (List.cons.inj same).1
      exact Or.inr ⟨⟨before, after, rfl, fun m mem => leaves m (by simp [mem])⟩,
        leaves m (by simp)⟩
  · rintro (rfl | ⟨⟨before, after, rfl, leaves⟩, last⟩)
    · exact ⟨marks, [], rfl, by simp⟩
    · refine ⟨before, after ++ [m], by simp, fun m' mem => ?_⟩
      rcases List.mem_append.mp mem with earlier | here
      · exact leaves m' earlier
      · rw [List.mem_singleton.mp here]
        exact last

/-- The register holds what stands. -/
theorem register_eq_some : register marks k i = some a ↔ Stands marks k i a := by
  induction marks using List.reverseRecOn with
  | nil => simpa using not_stands_nil
  | append_singleton marks m ih =>
    rw [register_append_singleton, on_eq_some, stands_append_singleton, ih]

/-- Nothing stands under a key for which nothing was put. -/
theorem register_eq_none (absent : ∀ i a, put k i a ∉ marks) : register marks k i = none := by
  rw [Option.eq_none_iff_forall_ne_some]
  intro a held
  obtain ⟨before, after, rfl, -⟩ := register_eq_some.mp held
  exact absent i a (by simp)

variable [DecidableEq κ']

/-- A key whose changes keep apart from those of the other keys holds under its new name what it
held. -/
theorem register_rename {f : κ → κ'}
    (apart : ∀ m ∈ marks, ∀ k', m.key = some k' → f k' = f k → k' = k) :
    register (marks.map (rename f)) (f k) = register marks k := by
  induction marks using List.reverseRecOn with
  | nil => rfl
  | append_singleton marks m ih =>
    have before := ih fun m mem => apart m (by simp [mem])
    have own := apart m (by simp)
    rw [List.map_append, List.map_singleton, register_append_singleton, register_append_singleton]
    funext i
    cases m with
    | put key id value =>
      have same : f k = f key ↔ k = key :=
        ⟨fun named => (own key rfl named.symm).symm, fun equal => by rw [equal]⟩
      simp only [rename, on, same, before]
    | drop key id value =>
      have same : f k = f key ↔ k = key :=
        ⟨fun named => (own key rfl named.symm).symm, fun equal => by rw [equal]⟩
      by_cases here : k = key
      · subst here
        simp only [rename, on, before]
      · simp only [rename, on, same, here, false_and, if_false, before]
    | clear id => simp only [rename, on, before]

end

end Mark

end FastGraph
