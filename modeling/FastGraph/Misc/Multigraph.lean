import Mathlib.Data.List.Count

/-!
# Multigraphs as lists of arrows

The arrows of a directed multigraph in the order in which they were put in. What leaves a vertex and
what enters it are parts of that one list, so that the two directions cannot disagree.
-/

namespace FastGraph.Multigraph

/-- An arrow with a label. -/
structure Arrow (V L : Type) where
  source : V
  target : V
  label : L
  deriving DecidableEq, Repr

variable {V L : Type}

/-- The same arrow seen from its other end. -/
def Arrow.reversed (a : Arrow V L) : Arrow V L := ⟨a.target, a.source, a.label⟩

section
variable [DecidableEq V]

/-- What leaves a vertex: the other ends of its arrows with their labels. -/
def leaving (arrows : List (Arrow V L)) (v : V) : List (V × L) :=
  (arrows.filter (·.source = v)).map fun a => (a.target, a.label)

/-- What enters a vertex. -/
def entering (arrows : List (Arrow V L)) (v : V) : List (V × L) :=
  leaving (arrows.map Arrow.reversed) v

variable {arrows : List (Arrow V L)} {v : V}

@[simp] theorem leaving_nil : leaving ([] : List (Arrow V L)) v = [] := rfl

@[simp] theorem entering_nil : entering ([] : List (Arrow V L)) v = [] := rfl

theorem leaving_cons (a : Arrow V L) :
    leaving (a :: arrows) v =
      if v = a.source then (a.target, a.label) :: leaving arrows v else leaving arrows v := by
  unfold leaving
  by_cases here : v = a.source
  · rw [if_pos here, List.filter_cons_of_pos (by simp [here])]
    rfl
  · rw [if_neg here, List.filter_cons_of_neg (by simpa using Ne.symm here)]

theorem leaving_append (arrows' : List (Arrow V L)) :
    leaving (arrows ++ arrows') v = leaving arrows v ++ leaving arrows' v := by
  rw [leaving, List.filter_append, List.map_append]
  rfl

/-- A new arrow is the last one that leaves its source. -/
theorem leaving_snoc (a : Arrow V L) :
    leaving (arrows ++ [a]) v =
      if v = a.source then leaving arrows v ++ [(a.target, a.label)] else leaving arrows v := by
  rw [leaving_append, leaving_cons, leaving_nil]
  split
  · rfl
  · rw [List.append_nil]

/-- Taking arrows out takes them out at their sources, and keeps the order of the others. -/
theorem leaving_filter (p : Arrow V L → Bool) :
    leaving (arrows.filter p) v = (leaving arrows v).filter fun x => p ⟨v, x.1, x.2⟩ := by
  induction arrows with
  | nil => rfl
  | cons a arrows ih =>
    by_cases kept : p a = true
    · rw [List.filter_cons_of_pos kept, leaving_cons, leaving_cons, ih]
      split
      · rename_i here
        subst here
        exact (List.filter_cons_of_pos (p := fun x : V × L => p ⟨a.source, x.1, x.2⟩) kept).symm
      · rfl
    · rw [List.filter_cons_of_neg kept, leaving_cons, ih]
      split
      · rename_i here
        subst here
        exact (List.filter_cons_of_neg (p := fun x : V × L => p ⟨a.source, x.1, x.2⟩) kept).symm
      · rfl

theorem any_leaving (p : V × L → Bool) :
    (leaving arrows v).any p = arrows.any fun a => a.source = v && p (a.target, a.label) := by
  rw [leaving, List.any_map, List.any_filter]
  simp

theorem countP_leaving (p : V × L → Bool) :
    (leaving arrows v).countP p = arrows.countP fun a => a.source = v && p (a.target, a.label) := by
  rw [leaving, List.countP_map, List.countP_filter]
  refine List.countP_congr fun a _ => ?_
  simp [and_comm]

end

end FastGraph.Multigraph
