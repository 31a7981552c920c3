import Mathlib.Data.List.Basic

/-!
# Words

The maximal runs of elements other than a separator, in their order. They are what a list is cut
into at every separator, the empty pieces between two separators left out.
-/

namespace FastGraph

section
variable {α : Type} [DecidableEq α] {sep : α} {w l : List α}

/-- The maximal runs of elements other than `sep`. -/
def words (sep : α) (l : List α) : List (List α) := (l.splitOn sep).filter (· ≠ [])

theorem words_of_notMem (clean : sep ∉ w) : words sep w = if w = [] then [] else [w] := by
  rw [words, List.splitOn_eq_singleton clean]
  by_cases nothing : w = []
  · simp [nothing]
  · simp [nothing]

theorem words_cons (clean : sep ∉ w) (l : List α) :
    words sep (w ++ sep :: l) = (if w = [] then [] else [w]) ++ words sep l := by
  rw [words, List.splitOn_append_cons_self_of_not_mem clean, words]
  by_cases nothing : w = []
  · simp [nothing]
  · simp [nothing]

/-- Words that are joined by one separator each are the words of what they give. -/
theorem words_intercalate {ws : List (List α)} (some : ws ≠ [])
    (clean : ∀ w ∈ ws, w ≠ [] ∧ sep ∉ w) : words sep ([sep].intercalate ws) = ws := by
  rw [words, List.splitOn_intercalate sep (fun w mem => (clean w mem).2) some, List.filter_eq_self]
  intro w mem
  exact decide_eq_true (clean w mem).1

end

end FastGraph
