import Mathlib.Data.List.Basic

/-!
# Readers that may run short

A reader takes a value off the front of a file and gives a value also if there is not enough left
for one: it then takes everything. Readers one after the other and counted repetitions of readers
are such readers too. If anything is left behind them, all of what they read was there.
-/

namespace FastGraph

section
variable {α γ B : Type} {read : List B → α × List B} {read' : List B → γ × List B}
  {enc : α → List B} {enc' : γ → List B} {valid : α → Prop} {valid' : γ → Prop} {f : List B} {n : Nat}

/-- The values of a reader seen through a function. -/
def readMap (g : α → γ) (read : List B → α × List B) (f : List B) : γ × List B :=
  (g (read f).1, (read f).2)

/-- One reader and then another. -/
def readPair (read : List B → α × List B) (read' : List B → γ × List B) (f : List B) :
    (α × γ) × List B :=
  (((read f).1, (read' (read f).2).1), (read' (read f).2).2)

/-- The reader takes off the front what the valid values look like, or everything if nothing there
looks like one. -/
structure ReadsOff (read : List B → α × List B) (enc : α → List B) (valid : α → Prop) : Prop where
  whole : ∀ x rest, valid x → read (enc x ++ rest) = (x, rest)
  cases : ∀ f, valid (read f).1 ∧ f = enc (read f).1 ++ (read f).2 ∨
    (read f).2 = [] ∧ ∀ x, valid x → ¬ enc x <+: f

namespace ReadsOff

/-- What is left is the end of the file. -/
theorem suffix (reads : ReadsOff read enc valid) (f : List B) : (read f).2 <:+ f := by
  rcases reads.cases f with ⟨-, split⟩ | ⟨nothing, -⟩
  · exact ⟨_, split.symm⟩
  · rw [nothing]
    exact List.nil_suffix

theorem nil (reads : ReadsOff read enc valid) : (read []).2 = [] :=
  List.eq_nil_of_suffix_nil (reads.suffix [])

/-- If something is left, the value was there. -/
theorem of_left (reads : ReadsOff read enc valid) (left : (read f).2 ≠ []) :
    valid (read f).1 ∧ f = enc (read f).1 ++ (read f).2 :=
  (reads.cases f).resolve_right fun short => left short.1

/-- What holds of the rest if a value is there holds of what the reader leaves. -/
theorem forall_rest_iff (reads : ReadsOff read enc valid) {P : List B → Prop} (nothing : P []) :
    (∀ x rest, valid x → f = enc x ++ rest → P rest) ↔ P (read f).2 := by
  constructor
  · intro each
    rcases reads.cases f with ⟨isValid, split⟩ | ⟨empty, -⟩
    · exact each _ _ isValid split
    · rw [empty]
      exact nothing
  · rintro holds x rest isValid rfl
    rwa [reads.whole x rest isValid] at holds

/-- The values seen through a function that can be undone. -/
theorem map (reads : ReadsOff read enc valid) (g : α → γ) (back : γ → α)
    (forth : ∀ x, valid x → valid' (g x) ∧ back (g x) = x)
    (undo : ∀ y, valid' y → valid (back y) ∧ g (back y) = y) :
    ReadsOff (readMap g read) (fun y => enc (back y)) valid' where
  whole y rest isValid := by
    obtain ⟨isValid', same⟩ := undo y isValid
    rw [readMap, reads.whole _ rest isValid', same]
  cases f := by
    refine (reads.cases f).imp ?_ ?_
    · intro ⟨isValid, split⟩
      obtain ⟨isValid', same⟩ := forth _ isValid
      refine ⟨isValid', ?_⟩
      rw [readMap]
      rwa [same]
    · intro ⟨nothing, unlike⟩
      exact ⟨nothing, fun y isValid => unlike _ (undo y isValid).1⟩

/-- One reader and then another that depends on what was read. -/
theorem bind {first : γ → α} (reads : ReadsOff read enc valid) (next : α → List B → γ × List B)
    (reads' : ∀ a, valid a → ReadsOff (next a) enc' fun c => valid' c ∧ first c = a)
    (ends : ∀ a, (next a []).2 = []) :
    ReadsOff (fun f => next (read f).1 (read f).2) (fun c => enc (first c) ++ enc' c)
      (fun c => valid (first c) ∧ valid' c) where
  whole c rest isValid := by
    rw [List.append_assoc, reads.whole _ _ isValid.1]
    exact (reads' _ isValid.1).whole c rest ⟨isValid.2, rfl⟩
  cases f := by
    rcases reads.cases f with ⟨isValid, split⟩ | ⟨nothing, unlike⟩
    · have then' := reads' _ isValid
      rcases then'.cases (read f).2 with ⟨⟨isValid', same⟩, split'⟩ | ⟨nothing, unlike⟩
      · refine Or.inl ⟨⟨(congrArg valid same).mpr isValid, isValid'⟩, ?_⟩
        rw [same, List.append_assoc, ← split']
        exact split
      · refine Or.inr ⟨nothing, fun c isValid' begins => ?_⟩
        obtain ⟨rest, whole⟩ := begins
        rw [List.append_assoc] at whole
        have read_eq := reads.whole _ (enc' c ++ rest) isValid'.1
        rw [whole] at read_eq
        refine unlike c ⟨isValid'.2, by rw [read_eq]⟩ ?_
        rw [read_eq]
        exact List.prefix_append _ _
    · refine Or.inr ⟨?_, fun c isValid' begins => ?_⟩
      · rw [nothing]
        exact ends _
      · exact unlike _ isValid'.1 ((List.prefix_append _ _).trans begins)

theorem pair (reads : ReadsOff read enc valid) (reads' : ReadsOff read' enc' valid') :
    ReadsOff (readPair read read') (fun p => enc p.1 ++ enc' p.2)
      (fun p => valid p.1 ∧ valid' p.2) := by
  refine reads.bind (fun a f => ((a, (read' f).1), (read' f).2)) (fun a _ => ?_) ?_
  · exact reads'.map (Prod.mk a) Prod.snd (fun c isValid => ⟨⟨isValid, rfl⟩, rfl⟩)
      (fun p isValid => ⟨isValid.1, Prod.ext isValid.2.symm rfl⟩)
  · exact fun a => reads'.nil

end ReadsOff

/-! ### Repetitions -/

/-- The reader `n` times. -/
def readMany (read : List B → α × List B) : Nat → List B → List α × List B
  | 0, f => ([], f)
  | n + 1, f => ((read f).1 :: (readMany read n (read f).2).1, (readMany read n (read f).2).2)

/-- The files before and after each time. -/
def eachPass (read : List B → α × List B) : Nat → List B → List (List B × List B)
  | 0, _ => []
  | n + 1, f => (f, (read f).2) :: eachPass read n (read f).2

theorem length_readMany (read : List B → α × List B) (n : Nat) (f : List B) :
    (readMany read n f).1.length = n := by
  induction n generalizing f with
  | zero => rfl
  | succ n ih => rw [readMany, List.length_cons, ih]

/-- Passes that all take something are no more than what they take. -/
theorem length_passes_le (shrink : ∀ p ∈ eachPass read n f, p.2.length < p.1.length) :
    n + (readMany read n f).2.length ≤ f.length := by
  induction n generalizing f with
  | zero => exact Nat.le_of_eq (Nat.zero_add _)
  | succ n ih =>
    obtain ⟨first, later⟩ := List.forall_mem_cons.mp shrink
    have rest := ih later
    rw [readMany]
    dsimp only at first ⊢
    omega

namespace ReadsOff

theorem many (reads : ReadsOff read enc valid) (n : Nat) :
    ReadsOff (readMany read n) (fun xs => xs.flatMap enc)
      (fun xs => (∀ x ∈ xs, valid x) ∧ xs.length = n) := by
  induction n with
  | zero =>
    refine ⟨fun xs rest isValid => ?_, fun f => Or.inl ⟨⟨nofun, rfl⟩, rfl⟩⟩
    rw [List.length_eq_zero_iff.mp isValid.2]
    rfl
  | succ n ih =>
    refine ⟨fun xs rest isValid => ?_, fun f => ?_⟩
    · cases xs with
      | nil => exact absurd isValid.2 (Nat.zero_ne_add_one n)
      | cons x xs =>
        obtain ⟨first, later⟩ := List.forall_mem_cons.mp isValid.1
        rw [readMany, List.flatMap_cons, List.append_assoc, reads.whole x _ first]
        rw [ih.whole xs rest ⟨later, Nat.succ.inj isValid.2⟩]
    · rcases (reads.pair ih).cases f with ⟨⟨first, later, length⟩, split⟩ | ⟨nothing, unlike⟩
      · refine Or.inl ⟨⟨List.forall_mem_cons.mpr ⟨first, later⟩, ?_⟩, split⟩
        exact congrArg Nat.succ length
      · refine Or.inr ⟨nothing, fun xs isValid begins => ?_⟩
        cases xs with
        | nil => exact absurd isValid.2 (Nat.zero_ne_add_one n)
        | cons x xs =>
          obtain ⟨first, later⟩ := List.forall_mem_cons.mp isValid.1
          exact unlike (x, xs) ⟨first, later, Nat.succ.inj isValid.2⟩ begins

/-- A count and as many values. -/
theorem counted {readCount : List B → Nat × List B} {encCount : Nat → List B} {fits : Nat → Prop}
    (counts : ReadsOff readCount encCount fits) (reads : ReadsOff read enc valid) :
    ReadsOff (fun f => readMany read (readCount f).1 (readCount f).2)
      (fun xs => encCount xs.length ++ xs.flatMap enc)
      (fun xs => fits xs.length ∧ ∀ x ∈ xs, valid x) :=
  counts.bind (readMany read) (fun n _ => reads.many n) fun n => (reads.many n).nil

/-- Values take at least one element, so that a reader takes one if there is any. -/
theorem shrinks_iff (reads : ReadsOff read enc valid) (some : ∀ x, enc x ≠ []) :
    (read f).2.length < f.length ↔ f ≠ [] := by
  constructor
  · rintro less rfl
    exact absurd less (Nat.not_lt_zero _)
  · intro nonempty
    rcases reads.cases f with ⟨-, split⟩ | ⟨nothing, -⟩
    · have taken := List.length_pos_iff.mpr (some (read f).1)
      have total := congrArg List.length split
      rw [List.length_append] at total
      omega
    · rw [nothing]
      exact List.length_pos_iff.mpr nonempty

/-- Every pass takes something if and only if something is left for the last one. -/
theorem passes_shrink_iff (reads : ReadsOff read enc valid) (some : ∀ x, enc x ≠ []) :
    (∀ p ∈ eachPass read n f, p.2.length < p.1.length) ↔
      n = 0 ∨ (readMany read (n - 1) f).2 ≠ [] := by
  induction n generalizing f with
  | zero => exact iff_of_true nofun (Or.inl rfl)
  | succ n ih =>
    rw [eachPass, List.forall_mem_cons, ih, reads.shrinks_iff some, or_iff_right (Nat.succ_ne_zero n),
      Nat.add_sub_cancel]
    cases n with
    | zero => exact and_iff_left (Or.inl rfl)
    | succ n =>
      rw [or_iff_right (Nat.succ_ne_zero n), Nat.add_sub_cancel, readMany]
      refine and_iff_right_of_imp fun left => ?_
      rintro rfl
      rw [reads.nil, (reads.many n).nil] at left
      exact left rfl

end ReadsOff

end

end FastGraph
