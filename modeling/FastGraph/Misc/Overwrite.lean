import Mathlib.Data.List.Basic

/-!
# Loops that write to one place

Every item of a list writes a value to a place or leaves the place as it is. What is there after
the loop is what the last item that writes has written, so that a second loop changes nothing.
-/

namespace FastGraph

variable {α β σ : Type} {f : α → Option β}

/-- What is in the place after the loop. -/
def overwrite (f : α → Option β) (l : List α) (b : β) : β := l.foldl (fun b a => (f a).getD b) b

/-- A loop leaves the place as it is or writes what it would write to any other. -/
theorem overwrite_cases (f : α → Option β) (l : List α) :
    (∀ b, overwrite f l b = b) ∨ ∃ c, ∀ b, overwrite f l b = c := by
  induction l with
  | nil => exact Or.inl fun _ => rfl
  | cons a l ih =>
    rcases ih with same | ⟨c, writes⟩
    · cases written : f a with
      | none =>
        left
        intro b
        exact (same _).trans (congrArg (Option.getD · b) written)
      | some c =>
        right
        exact ⟨c, fun b => (same _).trans (congrArg (Option.getD · b) written)⟩
    · exact Or.inr ⟨c, fun b => writes _⟩

theorem overwrite_idem (l : List α) (b : β) : overwrite f l (overwrite f l b) = overwrite f l b := by
  rcases overwrite_cases f l with same | ⟨c, writes⟩
  · exact same _
  · rw [writes, writes]

/-- A loop over a state, seen at the one place that `read` reads. -/
theorem read_foldl {step : σ → α → σ} (read : σ → β)
    (writes : ∀ s a, read (step s a) = (f a).getD (read s)) (l : List α) (s : σ) :
    read (l.foldl step s) = overwrite f l (read s) := by
  induction l generalizing s with
  | nil => rfl
  | cons a l ih =>
    rw [List.foldl_cons, ih, writes]
    rfl

end FastGraph
