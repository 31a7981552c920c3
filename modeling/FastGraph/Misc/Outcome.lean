import FastGraph.Misc.Bytes

/-!
# Outcomes

What a call of the program can do: return a value, throw, or neither, because a loop does
not end or the behaviour is undefined. Loops whose end is not evident take an explicit
number of iterations and do not return when it runs out.
-/

namespace FastGraph

/-- `none` is a call that does not return; `some (.error e)` lets the exception `e` escape. -/
abbrev Outcome (ε α : Type) := ExceptT ε Option α

namespace Outcome

variable {ε α β : Type}

/-- The call returns `a`. -/
def returned (a : α) : Outcome ε α := ExceptT.mk (some (.ok a))

/-- The call throws `e`. -/
def threw (e : ε) : Outcome ε α := ExceptT.mk (some (.error e))

/-- The call neither returns nor throws. -/
def stuck : Outcome ε α := ExceptT.mk none

/-- A call without exceptions that may fail to return. -/
def ofOption : Option α → Outcome ε α
  | some a => returned a
  | none => stuck

/-- A call that returns or throws. -/
def ofExcept : Except ε α → Outcome ε α
  | .ok a => returned a
  | .error e => threw e

@[simp] theorem pure_eq (a : α) : (pure a : Outcome ε α) = returned a := rfl

@[simp] theorem returned_bind (a : α) (f : α → Outcome ε β) : (returned a >>= f) = f a := rfl

@[simp] theorem threw_bind (e : ε) (f : α → Outcome ε β) : (threw e >>= f) = threw e := rfl

@[simp] theorem stuck_bind (f : α → Outcome ε β) : ((stuck : Outcome ε α) >>= f) = stuck := rfl

/-- The three things a call can do. -/
theorem cases (x : Outcome ε α) : x = stuck ∨ (∃ e, x = threw e) ∨ ∃ a, x = returned a := by
  match x with
  | none => exact Or.inl rfl
  | some (.error e) => exact Or.inr (Or.inl ⟨e, rfl⟩)
  | some (.ok a) => exact Or.inr (Or.inr ⟨a, rfl⟩)

@[simp] theorem returned_inj {a b : α} : (returned a : Outcome ε α) = returned b ↔ a = b := by
  constructor
  · intro same
    cases same
    rfl
  · rintro rfl
    rfl

@[simp] theorem stuck_ne_returned {a : α} : (stuck : Outcome ε α) ≠ returned a := by
  intro same
  cases same

@[simp] theorem threw_ne_returned {e : ε} {a : α} : (threw e : Outcome ε α) ≠ returned a := by
  intro same
  cases same

@[simp] theorem ofOption_eq_returned {x : Option α} {a : α} :
    (ofOption x : Outcome ε α) = returned a ↔ x = some a := by
  cases x with
  | none => exact iff_of_false stuck_ne_returned (by simp)
  | some b => exact returned_inj.trans Option.some_inj.symm

@[simp] theorem ofExcept_eq_returned {x : Except ε α} {a : α} :
    ofExcept x = returned a ↔ x = .ok a := by
  cases x with
  | error e => exact iff_of_false threw_ne_returned (by simp)
  | ok b => exact returned_inj.trans (by simp)

@[simp] theorem stuck_ne_threw {e : ε} : (stuck : Outcome ε α) ≠ threw e := by
  intro same
  cases same

@[simp] theorem returned_ne_threw {a : α} {e : ε} : returned a ≠ threw e := by
  intro same
  cases same

theorem bind_eq_threw {x : Outcome ε α} {f : α → Outcome ε β} {e : ε} :
    x >>= f = threw e ↔ x = threw e ∨ ∃ a, x = returned a ∧ f a = threw e := by
  rcases cases x with rfl | ⟨e', rfl⟩ | ⟨a, rfl⟩
  · exact iff_of_false (by intro same; cases same) (by rintro (same | ⟨a, same, -⟩) <;> cases same)
  · constructor
    · intro same
      cases same
      exact Or.inl rfl
    · rintro (same | ⟨a, same, -⟩)
      · cases same
        rfl
      · cases same
  · rw [returned_bind]
    constructor
    · intro same
      exact Or.inr ⟨a, rfl, same⟩
    · rintro (same | ⟨b, same, thrown⟩)
      · cases same
      · cases same
        exact thrown

/-- A sequence of calls returns if each of them does. -/
theorem bind_eq_returned {x : Outcome ε α} {f : α → Outcome ε β} {b : β} :
    x >>= f = returned b ↔ ∃ a, x = returned a ∧ f a = returned b := by
  rcases cases x with rfl | ⟨e, rfl⟩ | ⟨a, rfl⟩ <;> simp

@[simp] theorem returned_ne_stuck {a : α} : (returned a : Outcome ε α) ≠ stuck := by
  intro same
  cases same

/-- A sequence of calls is stuck in the first if the others end. -/
theorem bind_eq_stuck {x : Outcome ε α} {f : α → Outcome ε β} (ends : ∀ a, f a ≠ stuck)
    (stopped : x >>= f = stuck) : x = stuck := by
  rcases cases x with same | ⟨e, rfl⟩ | ⟨a, rfl⟩
  · exact same
  · cases stopped
  · exact absurd stopped (ends a)

end Outcome

/-- A loop whose calls all return. -/
theorem mapM_eq_pure {m : Type → Type} [Monad m] [LawfulMonad m] {α β : Type} {f : α → m β}
    {g : α → β} {l : List α} (returns : ∀ a ∈ l, f a = pure (g a)) :
    l.mapM f = pure (l.map g) := by
  induction l with
  | nil => rfl
  | cons a l ih =>
    rw [List.mapM_cons, returns a (by simp), ih fun a mem => returns a (List.mem_cons_of_mem _ mem)]
    simp

/-- A loop whose calls return at most one value each. -/
theorem mapM_eq_map {α β ε : Type} {f : α → Except ε β} {g : α → β} {l : List α} {r : List β}
    (value : ∀ a b, f a = .ok b → b = g a) (ran : l.mapM f = .ok r) : r = l.map g := by
  induction l generalizing r with
  | nil =>
    cases ran
    rfl
  | cons a l ih =>
    rw [List.mapM_cons] at ran
    cases first : f a with
    | error e =>
      rw [first] at ran
      cases ran
    | ok b =>
      rw [first] at ran
      cases rest : l.mapM f with
      | error e =>
        rw [rest] at ran
        cases ran
      | ok r' =>
        rw [rest] at ran
        cases ran
        rw [value a b first, ih rest, List.map_cons]

end FastGraph
