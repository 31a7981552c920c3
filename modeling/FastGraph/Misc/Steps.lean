import Mathlib.Data.List.Basic

/-!
# Runs of a step relation

Steps that a system takes under labels, in any order that the relation allows. What every step
keeps holds after every run, and a measure that the steps of a kind lower bounds the length of a
run of that kind.
-/

namespace FastGraph

variable {S L : Type}

/-- The labels of the steps from one state to another, the last one added at the end. -/
inductive Steps (step : S → L → S → Prop) (s : S) : List L → S → Prop where
  | refl : Steps step s [] s
  | snoc {t u : S} {labels : List L} {l : L} (steps : Steps step s labels t) (last : step t l u) :
    Steps step s (labels ++ [l]) u

namespace Steps

variable {step : S → L → S → Prop} {s t u : S} {labels more : List L}

theorem single {l : L} (one : step s l t) : Steps step s [l] t := snoc refl one

theorem trans (first : Steps step s labels t) (second : Steps step t more u) :
    Steps step s (labels ++ more) u := by
  induction second with
  | refl => rwa [List.append_nil]
  | snoc _ last ih =>
    rw [← List.append_assoc]
    exact snoc ih last

/-- What every step keeps, every run keeps. -/
theorem keeps {I : S → Prop} (kept : ∀ {s l t}, I s → step s l t → I t) (holds : I s)
    (steps : Steps step s labels t) : I t := by
  induction steps with
  | refl => exact holds
  | snoc _ last ih => exact kept ih last

/-- A relation between what has happened and the state, kept by every step that is taken where
the invariant holds. -/
theorem keeps_history {I : S → Prop} {R : List L → S → Prop}
    (kept : ∀ {s l t}, I s → step s l t → I t)
    (recorded : ∀ {labels s l t}, I s → R labels s → step s l t → R (labels ++ [l]) t)
    (holds : I s) (empty : R [] s) (steps : Steps step s labels t) : R labels t := by
  induction steps with
  | refl => exact empty
  | snoc steps last ih => exact recorded (keeps kept holds steps) ih last

/-- A run of steps that lower a measure is no longer than the measure. -/
theorem length_le {I : S → Prop} {quiet : L → Prop} (measure : S → Nat)
    (kept : ∀ {s l t}, I s → step s l t → I t)
    (lowers : ∀ {s l t}, I s → quiet l → step s l t → measure t < measure s)
    (holds : I s) (steps : Steps step s labels t) (all : ∀ l ∈ labels, quiet l) :
    labels.length + measure t ≤ measure s := by
  induction steps with
  | refl => simp
  | @snoc t u labels l steps last ih =>
    have before := ih (fun l mem => all l (List.mem_append_left _ mem))
    have lower := lowers (keeps kept holds steps) (all l (by simp)) last
    simp only [List.length_append, List.length_cons, List.length_nil]
    omega

end Steps

end FastGraph
