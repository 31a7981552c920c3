import FastGraph.Misc.Bytes

/-!
# Streams of frames

A prefix of a concatenation of frames is some whole frames followed by a proper prefix of
the next one. This is all that a reader of framed streams needs to know about where the
stream may be cut. The prefixes of a run of steps are treated last.
-/

namespace FastGraph

variable {α β : Type}

/-- A list that begins a concatenation begins its first part properly or contains it. -/
theorem prefix_append_cases {p xs ys : List β} (pre : p <+: xs ++ ys) :
    (p <+: xs ∧ p ≠ xs) ∨ ∃ q, p = xs ++ q ∧ q <+: ys := by
  obtain ⟨tail, whole⟩ := pre
  rcases List.append_eq_append_iff.mp whole with ⟨more, rfl, _⟩ | ⟨q, rfl, rest⟩
  · cases more with
    | nil => exact Or.inr ⟨[], by simp, List.nil_prefix⟩
    | cons b more => exact Or.inl ⟨List.prefix_append _ _, by simp⟩
  · exact Or.inr ⟨q, rfl, ⟨tail, rest.symm⟩⟩

/-- What is left of a stream of frames after the whole frames of a prefix: nothing, or a
proper prefix of the next frame. -/
def PartialFrame (frame : α → List β) (xs : List α) (q : List β) : Prop :=
  (xs = [] ∧ q = []) ∨ ∃ x rest, xs = x :: rest ∧ q <+: frame x ∧ q ≠ frame x

/-- Where a stream of frames may be cut. -/
theorem prefix_flatMap_split (frame : α → List β) (xs : List α) {p : List β}
    (pre : p <+: xs.flatMap frame) :
    ∃ whole rest q, xs = whole ++ rest ∧ p = whole.flatMap frame ++ q ∧
      PartialFrame frame rest q := by
  induction xs generalizing p with
  | nil =>
    have empty : p = [] := by simpa using pre
    exact ⟨[], [], [], rfl, by simp [empty], Or.inl ⟨rfl, rfl⟩⟩
  | cons x xs ih =>
    rw [List.flatMap_cons] at pre
    rcases prefix_append_cases pre with ⟨inFrame, short⟩ | ⟨q, rfl, later⟩
    · exact ⟨[], x :: xs, p, rfl, rfl, Or.inr ⟨x, xs, rfl, inFrame, short⟩⟩
    · obtain ⟨whole, rest, q', rfl, rfl, partialFrame⟩ := ih later
      exact ⟨x :: whole, rest, q', rfl, by simp, partialFrame⟩

/-- A partial frame that is the whole of what is left means that nothing is left. -/
theorem PartialFrame.eq_nil {frame : α → List β} {xs : List α} {q : List β}
    (left : PartialFrame frame xs q) (whole : q = xs.flatMap frame) : xs = [] ∧ q = [] := by
  rcases left with done | ⟨x, rest, rfl, inFrame, short⟩
  · exact done
  · exfalso
    have length := inFrame.length_le
    rw [whole, List.flatMap_cons, List.length_append] at length
    apply short
    apply inFrame.eq_of_length
    rw [whole, List.flatMap_cons, List.length_append]
    omega

/-- A proper prefix of the next frame does not begin with that frame. -/
theorem PartialFrame.not_prefix {frame : α → List β} {x : α} {xs : List α} {q : List β}
    (left : PartialFrame frame (x :: xs) q) : ¬ frame x <+: q := by
  rintro whole
  rcases left with ⟨none, -⟩ | ⟨y, rest, same, inFrame, short⟩
  · cases none
  · cases same
    exact short (inFrame.eq_of_length (le_antisymm inFrame.length_le whole.length_le))

/-- A partial frame begins what is left of the stream. -/
theorem PartialFrame.isPrefix {frame : α → List β} {xs : List α} {q : List β}
    (left : PartialFrame frame xs q) : q <+: xs.flatMap frame := by
  rcases left with ⟨rfl, rfl⟩ | ⟨x, rest, rfl, inFrame, -⟩
  · exact List.nil_prefix
  · rw [List.flatMap_cons]
    exact inFrame.trans (List.prefix_append _ _)

/-- What begins a stream that ends in a partial frame begins the stream of all the frames. -/
theorem PartialFrame.prefix_flatMap {frame : α → List β} {xs xs' : List α} {p q : List β}
    (left : PartialFrame frame xs' q) (cut : p <+: xs.flatMap frame ++ q) :
    p <+: (xs ++ xs').flatMap frame := by
  rw [List.flatMap_append]
  exact cut.trans ((List.prefix_append_right_inj _).mpr left.isPrefix)

/-- What comes before a partial frame has no whole frame that is not among those before it. -/
theorem whole_frames_prefix {frame : α → List β} {xs ys xs' ys' : List α} {tail more : List β}
    (same : xs ++ xs' = ys ++ ys') (left : PartialFrame frame ys' more)
    (stream : xs.flatMap frame ++ tail = ys.flatMap frame ++ more) :
    ∃ zs, ys = xs ++ zs ∧ xs' = zs ++ ys' := by
  rcases List.append_eq_append_iff.mp same with ⟨zs, rfl, rfl⟩ | ⟨zs, rfl, rfl⟩
  · exact ⟨zs, rfl, rfl⟩
  · cases zs with
    | nil => exact ⟨[], by simp, rfl⟩
    | cons z zs =>
      rw [List.flatMap_append, List.append_assoc, List.append_cancel_left_eq, List.flatMap_cons,
        List.append_assoc] at stream
      exact absurd ⟨_, stream⟩ left.not_prefix

/-- The whole frames of a stream that has been received so far are determined by it. -/
theorem whole_frames_iff {frame : α → List β} {xs ys xs' ys' : List α} {q more : List β}
    (same : xs ++ xs' = ys ++ ys') (left : PartialFrame frame xs' q) (beyond : List β)
    (left' : PartialFrame frame ys' more)
    (stream : (xs.flatMap frame ++ q) ++ beyond = ys.flatMap frame ++ more) :
    xs = ys ↔ ys.flatMap frame <+: xs.flatMap frame ++ q := by
  constructor
  · rintro rfl
    exact List.prefix_append _ _
  · intro received
    rw [List.append_assoc] at stream
    obtain ⟨zs, rfl, rfl⟩ := whole_frames_prefix same left' stream
    cases zs with
    | nil => rw [List.append_nil]
    | cons z zs =>
      rw [List.flatMap_append, List.prefix_append_right_inj, List.flatMap_cons] at received
      exact absurd ((List.prefix_append _ _).trans received) left.not_prefix

/-- A property of every prefix of a run is a property of every step: it holds of all prefixes
if and only if no step breaks it. -/
theorem forall_prefix_iff {P : List α → Prop} {Q : List α → α → Prop} (base : P [])
    (step : ∀ pre a, P pre → (P (pre ++ [a]) ↔ Q pre a)) (l : List α) :
    (∀ pre, pre <+: l → P pre) ↔ ∀ pre a, pre ++ [a] <+: l → Q pre a := by
  constructor
  · intro holds pre a cut
    exact (step pre a (holds pre ((List.prefix_append _ _).trans cut))).mp (holds _ cut)
  · intro steps pre
    induction pre using List.reverseRecOn with
    | nil => exact fun _ => base
    | append_singleton pre a ih =>
      intro cut
      exact (step pre a (ih ((List.prefix_append _ _).trans cut))).mpr (steps pre a cut)

end FastGraph
