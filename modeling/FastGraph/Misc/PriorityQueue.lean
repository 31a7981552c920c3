import Mathlib.Data.List.Basic
import Mathlib.Data.Prod.Lex
import Mathlib.Order.Basic

/-!
# Priority queues of pairs

`std::priority_queue<std::pair<W, int>, …, std::greater<…>>` is the list of its elements. Its
top is a least pair in the lexicographic order of `std::pair`; pairs of which neither is less
have equal parts, so it does not matter which of them is taken.
-/

namespace FastGraph.PriorityQueue
variable {W : Type} [LT W] [DecidableLT W]

/-- `operator<` of `std::pair`. -/
def less (a b : W × Int) : Bool := decide (a.1 < b.1 ∨ ¬ b.1 < a.1 ∧ a.2 < b.2)

/-- `top` and `pop`: the least element and the others. -/
def pop : List (W × Int) → Option ((W × Int) × List (W × Int))
  | [] => none
  | x :: xs =>
    match pop xs with
    | none => some (x, [])
    | some (y, ys) => if less y x then some (y, x :: ys) else some (x, y :: ys)

theorem pop_perm {l rest : List (W × Int)} {x : W × Int} (popped : pop l = some (x, rest)) :
    l.Perm (x :: rest) := by
  induction l generalizing x rest with
  | nil => cases popped
  | cons a l ih =>
    rw [pop] at popped
    split at popped
    · rename_i empty
      cases popped
      cases l with
      | nil => exact List.Perm.refl _
      | cons b l =>
        rw [pop] at empty
        split at empty
        · cases empty
        · split at empty <;> cases empty
    · rename_i y ys later
      have perm := ih later
      split at popped
      · cases popped
        exact (perm.cons a).trans (List.Perm.swap _ _ _)
      · cases popped
        exact perm.cons a

theorem pop_eq_none {l : List (W × Int)} (empty : pop l = none) : l = [] := by
  cases l with
  | nil => rfl
  | cons a l =>
    rw [pop] at empty
    split at empty
    · cases empty
    · split at empty <;> cases empty

section
variable {W : Type} [LinearOrder W] {l rest : List (W × Int)} {x : W × Int}

theorem less_iff {a b : W × Int} : less a b = true ↔ toLex a < toLex b := by
  rw [less, decide_eq_true_iff, Prod.Lex.toLex_lt_toLex]
  constructor
  · intro less
    rcases less with smaller | ⟨notGreater, second⟩
    · exact Or.inl smaller
    · rcases (not_lt.mp notGreater).lt_or_eq with smaller | same
      · exact Or.inl smaller
      · exact Or.inr ⟨same, second⟩
  · intro less
    rcases less with smaller | ⟨same, second⟩
    · exact Or.inl smaller
    · exact Or.inr ⟨same.le.not_gt, second⟩

/-- The top is a least pair. -/
theorem pop_least (popped : pop l = some (x, rest)) : ∀ y ∈ l, toLex x ≤ toLex y := by
  induction l generalizing x rest with
  | nil => cases popped
  | cons a l ih =>
    rw [pop] at popped
    split at popped
    · rename_i empty
      cases popped
      rw [pop_eq_none empty]
      intro y mem
      rw [List.mem_singleton.mp mem]
    · rename_i y ys later
      have least := ih later
      have top : y ∈ l := (pop_perm later).mem_iff.mpr List.mem_cons_self
      split at popped
      · rename_i smaller
        cases popped
        intro z mem
        rcases List.mem_cons.mp mem with rfl | old
        · exact (less_iff.mp smaller).le
        · exact least z old
      · rename_i notSmaller
        cases popped
        rw [less_iff, not_lt] at notSmaller
        intro z mem
        rcases List.mem_cons.mp mem with rfl | old
        · exact le_refl _
        · exact notSmaller.trans (least z old)

omit [LinearOrder W] in
/-- Pairs under a map that keeps their order. -/
theorem pop_map [LT W] [DecidableLT W] {f : W × Int → W × Int}
    (same : ∀ a ∈ l, ∀ b ∈ l, less (f a) (f b) = less a b) :
    pop (l.map f) = (pop l).map fun top => (f top.1, top.2.map f) := by
  induction l with
  | nil => rfl
  | cons a l ih =>
    have later := ih fun b mem b' mem' =>
      same b (List.mem_cons_of_mem _ mem) b' (List.mem_cons_of_mem _ mem')
    rw [List.map_cons, pop, later, pop]
    cases popped : pop l with
    | none => rfl
    | some top =>
      obtain ⟨y, ys⟩ := top
      have mem : y ∈ l := (pop_perm popped).mem_iff.mpr List.mem_cons_self
      simp only [Option.map_some, same y (List.mem_cons_of_mem _ mem) a List.mem_cons_self]
      split <;> rfl

end

end FastGraph.PriorityQueue
