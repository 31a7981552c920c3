import Mathlib.Data.Prod.Lex
import FastGraph.Misc.Ranking

/-!
# An ascending list in step with a table

The elements are pairs of a score and a member, strictly ascending, and the table has one score
for each member of the list. An element is taken out of both, or put into both at the place to
which a search comes that stops between the smaller elements and the others.
-/

namespace FastGraph.Ranking

section
variable {α : Type} [LinearOrder α] {P : α → Prop} {xs ys : List α} {x k : α}

/-- What smaller elements share holds of the list if it holds of the last one. -/
theorem Ascending.of_last (asc : Ascending (xs ++ ys)) (down : ∀ x y, x ≤ y → P y → P x)
    (last : ∀ rest y, xs = rest ++ [y] → P y) (mem : x ∈ xs) : P x := by
  rcases List.eq_nil_or_concat xs with rfl | ⟨rest, y, rfl⟩
  · cases mem
  · rw [List.concat_eq_append] at *
    have front := (List.pairwise_append.mp asc).1
    apply down x y ?_ (last rest y rfl)
    rcases List.mem_append.mp mem with before | here
    · exact ((List.pairwise_append.mp front).2.2 x before y (List.mem_singleton_self y)).le
    · exact (List.mem_singleton.mp here).le

/-- It fails of the list if it fails of the first one. -/
theorem Ascending.not_of_first (asc : Ascending (xs ++ ys)) (down : ∀ x y, x ≤ y → P y → P x)
    (first : ∀ y rest, ys = y :: rest → ¬ P y) (mem : x ∈ ys) : ¬ P x := by
  cases ys with
  | nil => cases mem
  | cons y rest =>
    intro holds
    apply first y rest rfl
    rcases List.mem_cons.mp mem with rfl | later
    · exact holds
    · exact down y x (List.rel_of_pairwise_cons (List.pairwise_append.mp asc).2.1 later).le holds

end

section
variable {S M : Type} [LinearOrder S] [LinearOrder M] {score : M → Option S}
  {ks xs ys : List (S ×ₗ M)} {s : S} {m : M}

/-- The list is strictly ascending, and its elements are the entries of the table. -/
structure InStep (score : M → Option S) (ks : List (S ×ₗ M)) : Prop where
  ascending : Ascending ks
  entries : ∀ m s, score m = some s ↔ toLex (s, m) ∈ ks

theorem inStep_nil : InStep (fun _ : M => (none : Option S)) [] :=
  ⟨List.Pairwise.nil, by simp⟩

/-- The table determines the list. -/
theorem InStep.eq (inStep : InStep score xs) (inStep' : InStep score ys) : xs = ys := by
  have perm : xs.Perm ys := by
    rw [List.perm_ext_iff_of_nodup inStep.ascending.nodup inStep'.ascending.nodup]
    intro k
    rw [show k = toLex ((ofLex k).1, (ofLex k).2) from rfl, ← inStep.entries, inStep'.entries]
  exact (inStep.ascending.ascending_eq perm).symm.trans
    (inStep'.ascending.ascending_eq (List.Perm.refl ys))

theorem InStep.unique (inStep : InStep score ks) {s s' : S} (mem : toLex (s, m) ∈ ks)
    (mem' : toLex (s', m) ∈ ks) : s = s' :=
  Option.some.inj (((inStep.entries m s).mpr mem).symm.trans ((inStep.entries m s').mpr mem'))

/-- No member is in the list twice. -/
theorem InStep.nodup (inStep : InStep score ks) : (ks.map fun k => (ofLex k).2).Nodup := by
  refine List.Nodup.map_on ?_ inStep.ascending.nodup
  intro x memX y memY same
  refine ofLex.injective (Prod.ext ?_ same)
  have memY' : toLex ((ofLex y).1, (ofLex x).2) ∈ ks := by
    rw [same]
    exact memY
  exact inStep.unique memX memY'

/-- The members of the list are those with a score. -/
theorem InStep.mem_members (inStep : InStep score ks) :
    m ∈ ks.map (fun k => (ofLex k).2) ↔ (score m).isSome := by
  rw [List.mem_map, Option.isSome_iff_exists]
  constructor
  · intro ⟨k, mem, own⟩
    refine ⟨(ofLex k).1, (inStep.entries m _).mpr ?_⟩
    rw [← own]
    exact mem
  · intro ⟨s, scored⟩
    exact ⟨toLex (s, m), (inStep.entries m s).mp scored, rfl⟩

/-- An element that is in the list is the first one behind the smaller ones. -/
theorem InStep.first (inStep : InStep score (xs ++ ys)) (scored : score m = some s)
    (small : ∀ x ∈ xs, x < toLex (s, m)) (big : ∀ y ∈ ys, ¬ y < toLex (s, m)) :
    ∃ rest, ys = toLex (s, m) :: rest := by
  rcases List.mem_append.mp ((inStep.entries m s).mp scored) with before | behind
  · exact absurd (small _ before) (lt_irrefl _)
  · cases ys with
    | nil => cases behind
    | cons y rest =>
      refine ⟨rest, ?_⟩
      rcases List.mem_cons.mp behind with here | later
      · rw [here]
      · have ahead := List.rel_of_pairwise_cons (List.pairwise_append.mp inStep.ascending).2.1 later
        exact absurd ahead (big y (by simp))

/-- An element is taken out of the list and of the table. -/
theorem InStep.erase [DecidableEq M] (inStep : InStep score (xs ++ toLex (s, m) :: ys)) :
    InStep (fun m' => if m' = m then none else score m') (xs ++ ys) := by
  have distinct := inStep.ascending.nodup
  rw [List.nodup_middle, List.nodup_cons] at distinct
  have smaller : (xs ++ ys).Sublist (xs ++ toLex (s, m) :: ys) :=
    (List.Sublist.refl _).append (List.sublist_cons_self _ _)
  refine ⟨inStep.ascending.sublist smaller, ?_⟩
  intro m' s'
  have entries := inStep.entries m' s'
  rw [List.mem_append, List.mem_cons] at entries
  by_cases same : m' = m
  · subst same
    rw [if_pos rfl]
    refine iff_of_false nofun fun held => ?_
    have same := inStep.unique (smaller.subset held) (List.mem_append_right xs List.mem_cons_self)
    rw [same] at held
    exact distinct.1 held
  · have other : toLex (s', m') ≠ toLex (s, m) := by
      simp [same]
    simp [same, entries, other]

/-- The members that pass a test are left. -/
theorem InStep.filter (inStep : InStep score ks) (passes : M → Bool) :
    InStep (fun m => if passes m then score m else none) (ks.filter fun k => passes (ofLex k).2) := by
  refine ⟨List.Pairwise.filter _ inStep.ascending, ?_⟩
  intro m s
  rw [List.mem_filter, ofLex_toLex]
  cases passes m with
  | false => simp
  | true => simpa using inStep.entries m s

/-- A new element is put between the smaller ones and the others. -/
theorem InStep.insert [DecidableEq M] (inStep : InStep score (xs ++ ys)) (unscored : score m = none)
    (small : ∀ x ∈ xs, x < toLex (s, m)) (big : ∀ y ∈ ys, ¬ y < toLex (s, m)) :
    InStep (fun m' => if m' = m then some s else score m') (xs ++ toLex (s, m) :: ys) := by
  have absent (s' : S) : toLex (s', m) ∉ xs ++ ys := by
    rw [← inStep.entries, unscored]
    simp
  obtain ⟨front, behind, across⟩ := List.pairwise_append.mp inStep.ascending
  constructor
  · refine List.pairwise_append.mpr ⟨front, List.pairwise_cons.mpr ⟨?_, behind⟩, ?_⟩
    · intro y mem
      apply lt_of_le_of_ne (not_lt.mp (big y mem))
      intro same
      rw [← same] at mem
      exact absent s (List.mem_append_right xs mem)
    · intro x memX y memY
      rcases List.mem_cons.mp memY with rfl | later
      · exact small x memX
      · exact across x memX y later
  · intro m' s'
    have entries := inStep.entries m' s'
    rw [List.mem_append] at entries
    by_cases same : m' = m
    · subst same
      have nowhere := absent s'
      rw [List.mem_append, not_or] at nowhere
      simp [nowhere.1, nowhere.2, eq_comm]
    · simp [same, entries]

end

end FastGraph.Ranking
