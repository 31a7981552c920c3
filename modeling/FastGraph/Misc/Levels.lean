import FastGraph.Misc.BreadthFirst
import Mathlib.Data.Finset.Card
import Mathlib.Data.Nat.Find

/-!
# The levels of a breadth-first search

A vertex is on the level of the shortest walks to it. A search that takes the vertices in the
order in which they were met meets each of them with the level after that of the vertex it
comes from, and these are the exact ones: at any time the vertices to expand are on two
neighboring levels, and all vertices of lower levels have been expanded.
-/

namespace FastGraph.BreadthFirst

section
variable {V : Type} {succ : V → List V} {s v x : V} {i j k : Nat}

/-- A walk of `k` steps ends at `v`, and no shorter one. -/
def Level (succ : V → List V) (s v : V) (k : Nat) : Prop :=
  v ∈ layer succ s k ∧ ∀ j < k, v ∉ layer succ s j

theorem level_source (succ : V → List V) (s : V) : Level succ s s 0 :=
  ⟨List.mem_singleton_self s, fun _ less => absurd less (Nat.not_lt_zero _)⟩

theorem Level.le (level : Level succ s v k) (mem : v ∈ layer succ s j) : k ≤ j := by
  by_contra less
  exact level.2 j (by omega) mem

theorem Level.unique (level : Level succ s v k) (level' : Level succ s v j) : k = j :=
  Nat.le_antisymm (level.le level'.1) (level'.le level.1)

theorem exists_level (mem : v ∈ layer succ s i) : ∃ k, Level succ s v k := by
  classical
  have some : ∃ k, v ∈ layer succ s k := ⟨i, mem⟩
  exact ⟨Nat.find some, Nat.find_spec some, fun j less => Nat.find_min some less⟩

theorem mem_layer_succ : x ∈ layer succ s (k + 1) ↔ ∃ v ∈ layer succ s k, x ∈ succ v :=
  List.mem_flatMap

variable {E P : List (V × Nat)}

theorem map_fst_append_level (P : List (V × Nat)) (new : List V) (k : Nat) :
    (P ++ new.map (·, k)).map Prod.fst = P.map Prod.fst ++ new := by
  simp [Function.comp_def]

/-- The invariant of the search. -/
structure Graded (succ : V → List V) (s : V) (E P : List (V × Nat)) : Prop where
  levels : ∀ e ∈ E ++ P, Level succ s e.1 e.2
  distinct : ((E ++ P).map Prod.fst).Nodup
  ordered : (E ++ P).Pairwise fun e e' => e.2 ≤ e'.2
  near : ∀ e ∈ P, ∀ e' ∈ P, e'.2 ≤ e.2 + 1
  closed : ∀ e ∈ E, ∀ x ∈ succ e.1, x ∈ (E ++ P).map Prod.fst
  source : s ∈ (E ++ P).map Prod.fst

/-- A vertex that was met is expanded if its level is below all that are still to expand. -/
theorem Graded.expanded (graded : Graded succ s E P) (below : ∀ e ∈ P, i < e.2)
    (mem : v ∈ layer succ s i) (met : v ∈ (E ++ P).map Prod.fst) : v ∈ E.map Prod.fst := by
  rw [List.map_append, List.mem_append] at met
  refine met.resolve_right ?_
  intro pending
  obtain ⟨e, among, rfl⟩ := List.mem_map.mp pending
  have less := (graded.levels e (List.mem_append_right _ among)).le mem
  exact absurd (below e among) (by omega)

/-- All vertices below the levels that are still to expand are expanded. -/
theorem Graded.lower (graded : Graded succ s E P) (below : ∀ e ∈ P, i < e.2)
    (mem : v ∈ layer succ s i) : v ∈ E.map Prod.fst := by
  induction i generalizing v with
  | zero =>
    have same : v = s := List.mem_singleton.mp mem
    exact graded.expanded below mem (same ▸ graded.source)
  | succ i ih =>
    obtain ⟨u, before, next⟩ := mem_layer_succ.mp mem
    have done := ih (fun e among => Nat.lt_of_succ_lt (below e among)) before
    obtain ⟨e, among, rfl⟩ := List.mem_map.mp done
    exact graded.expanded below mem (graded.closed e among v next)

/-- All vertices up to the levels that are still to expand were met. -/
theorem Graded.met (graded : Graded succ s E P) (upTo : ∀ e ∈ P, i ≤ e.2)
    (mem : v ∈ layer succ s i) : v ∈ (E ++ P).map Prod.fst := by
  cases i with
  | zero =>
    rw [show v = s from List.mem_singleton.mp mem]
    exact graded.source
  | succ i =>
    obtain ⟨u, before, next⟩ := mem_layer_succ.mp mem
    obtain ⟨e, among, rfl⟩ := List.mem_map.mp (graded.lower upTo before)
    exact graded.closed e among v next

theorem graded_start (succ : V → List V) (s : V) : Graded succ s [] [(s, 0)] := by
  refine ⟨?_, List.nodup_singleton s, List.pairwise_singleton _ _, ?_, ?_, List.mem_singleton_self s⟩
  · intro e mem
    rw [List.mem_singleton.mp mem]
    exact level_source succ s
  · intro e mem e' mem'
    rw [List.mem_singleton.mp mem, List.mem_singleton.mp mem']
    exact Nat.le_succ 0
  · intro e mem
    cases mem

variable [DecidableEq V]

/-- What was expanded and what is still to expand, in the order in which it was met and with the
levels. -/
inductive Levels (succ : V → List V) (s : V) : List (V × Nat) → List (V × Nat) → Prop where
  | start : Levels succ s [] [(s, 0)]
  | step {E P : List (V × Nat)} {v : V} {k : Nat} (levels : Levels succ s E ((v, k) :: P)) :
      Levels succ s (E ++ [(v, k)])
        (P ++ (firsts ((E ++ (v, k) :: P).map Prod.fst) (succ v)).map (·, k + 1))

/-- Expanding a vertex. -/
theorem Graded.step (graded : Graded succ s E ((v, k) :: P)) :
    Graded succ s (E ++ [(v, k)])
      (P ++ (firsts ((E ++ (v, k) :: P).map Prod.fst) (succ v)).map (·, k + 1)) := by
  generalize found : firsts ((E ++ (v, k) :: P).map Prod.fst) (succ v) = new
  have here : (v, k) ∈ E ++ (v, k) :: P := List.mem_append_right _ List.mem_cons_self
  have split : E ++ [(v, k)] ++ (P ++ new.map (·, k + 1)) =
      E ++ (v, k) :: P ++ new.map (·, k + 1) := by simp
  have behind : ∀ e ∈ P, k ≤ e.2 := by
    intro e mem
    have ordered := (List.pairwise_append.mp graded.ordered).2.1
    exact List.rel_of_pairwise_cons ordered mem
  have front : ∀ e ∈ E ++ (v, k) :: P, e.2 ≤ k + 1 := by
    intro e mem
    rcases List.mem_append.mp mem with before | pending
    · have := (List.pairwise_append.mp graded.ordered).2.2 e before (v, k) List.mem_cons_self
      exact Nat.le_succ_of_le this
    · exact graded.near (v, k) List.mem_cons_self e pending
  have added : ∀ e ∈ new.map (·, k + 1), e.2 = k + 1 := by
    intro e mem
    obtain ⟨x, -, rfl⟩ := List.mem_map.mp mem
    rfl
  refine ⟨?_, ?_, ?_, ?_, ?_, ?_⟩
  · rw [split]
    intro e mem
    rcases List.mem_append.mp mem with old | last
    · exact graded.levels e old
    · obtain ⟨x, among, rfl⟩ := List.mem_map.mp last
      rw [← found, mem_firsts] at among
      refine ⟨mem_layer_succ.mpr ⟨v, (graded.levels _ here).1, among.2⟩, ?_⟩
      -- a vertex of a level up to that of `v` was met before
      intro j less shorter
      refine among.1 (graded.met ?_ shorter)
      intro e mem
      rcases List.mem_cons.mp mem with rfl | later
      · exact Nat.le_of_lt_succ less
      · exact (Nat.le_of_lt_succ less).trans (behind e later)
  · rw [split, map_fst_append_level, ← found]
    exact nodup_append_firsts (succ v) graded.distinct
  · rw [split, List.pairwise_append]
    refine ⟨graded.ordered, ?_, ?_⟩
    · rw [List.pairwise_map]
      exact List.pairwise_of_forall fun _ _ => le_refl _
    · intro e mem e' mem'
      rw [added e' mem']
      exact front e mem
  · intro e mem e' mem'
    have least : k ≤ e.2 := by
      rcases List.mem_append.mp mem with old | last
      · exact behind e old
      · rw [added e last]
        exact Nat.le_succ k
    have most : e'.2 ≤ k + 1 := by
      rcases List.mem_append.mp mem' with old | last
      · exact front e' (List.mem_append_right _ (List.mem_cons_of_mem _ old))
      · exact (added e' last).le
    omega
  · intro e mem x next
    rw [split, map_fst_append_level, List.mem_append]
    rcases List.mem_append.mp mem with before | last
    · exact Or.inl (graded.closed e before x next)
    · rw [List.mem_singleton.mp last] at next
      by_cases old : x ∈ (E ++ (v, k) :: P).map Prod.fst
      · exact Or.inl old
      · rw [← found, mem_firsts]
        exact Or.inr ⟨old, next⟩
  · rw [split, List.map_append]
    exact List.mem_append_left _ graded.source

theorem Levels.graded (levels : Levels succ s E P) : Graded succ s E P := by
  induction levels with
  | start => exact graded_start succ s
  | step levels ih => exact ih.step

/-- A search that has ended has expanded all that can be reached. -/
theorem Levels.complete (levels : Levels succ s E []) (mem : v ∈ layer succ s i) :
    v ∈ E.map Prod.fst :=
  levels.graded.lower (fun _ none => by cases none) mem

/-- A search meets no more vertices than there are in a set that no arc leaves. -/
theorem Levels.length_le {U : Finset V} (levels : Levels succ s E P) (source : s ∈ U)
    (closed : ∀ u ∈ U, ∀ x ∈ succ u, x ∈ U) : (E ++ P).length ≤ U.card := by
  have inside : ∀ i, ∀ u ∈ layer succ s i, u ∈ U := by
    intro i
    induction i with
    | zero =>
      intro u mem
      rw [show u = s from List.mem_singleton.mp mem]
      exact source
    | succ i ih =>
      intro u mem
      obtain ⟨u', before, next⟩ := mem_layer_succ.mp mem
      exact closed u' (ih u' before) u next
  rw [← List.length_map Prod.fst, ← List.toFinset_card_of_nodup levels.graded.distinct]
  apply Finset.card_le_card
  intro u mem
  obtain ⟨e, among, rfl⟩ := List.mem_map.mp (List.mem_toFinset.mp mem)
  exact inside e.2 e.1 (levels.graded.levels e among).1

/-- A vertex of level `k` is met after at least `k` others. -/
theorem Levels.level_lt (levels : Levels succ s E P) : ∀ e ∈ E ++ P, e.2 < (E ++ P).length := by
  induction levels with
  | start => simp
  | @step E P v k levels ih =>
    intro e mem
    have split : ∀ new : List V, (E ++ [(v, k)] ++ (P ++ new.map (·, k + 1))) =
        E ++ (v, k) :: P ++ new.map (·, k + 1) := by simp
    rw [split] at mem ⊢
    rw [List.length_append]
    rcases List.mem_append.mp mem with old | new
    · exact Nat.lt_of_lt_of_le (ih e old) (Nat.le_add_right _ _)
    · have here : k < (E ++ (v, k) :: P).length :=
        ih (v, k) (List.mem_append_right _ List.mem_cons_self)
      have some := List.length_pos_of_mem new
      obtain ⟨x, -, rfl⟩ := List.mem_map.mp new
      show k + 1 < _
      omega

/-- The search is in one state after each number of vertices, and goes on while there are vertices to
expand. -/
theorem Levels.linear {E' P' : List (V × Nat)} (levels : Levels succ s E P)
    (levels' : Levels succ s E' P') :
    (E.length = E'.length → E = E' ∧ P = P') ∧ (E.length < E'.length → P ≠ []) := by
  induction levels' generalizing E P with
  | start =>
    refine ⟨?_, fun shorter => absurd shorter (Nat.not_lt_zero _)⟩
    intro empty
    cases levels with
    | start => exact ⟨rfl, rfl⟩
    | step levels => simp at empty
  | @step E' P' v k levels' ih =>
    constructor
    · intro same
      cases levels with
      | start => simp at same
      | @step E P u j levels =>
        obtain ⟨rfl, rest⟩ := (ih levels).1 (by simpa using same)
        cases rest
        exact ⟨rfl, rfl⟩
    · intro shorter
      rw [List.length_append, List.length_singleton] at shorter
      rcases Nat.lt_succ_iff_lt_or_eq.mp shorter with before | last
      · exact (ih levels).2 before
      · rw [((ih levels).1 last).2]
        exact List.cons_ne_nil _ _

/-- All searches end with the same list. -/
theorem Levels.unique {E' : List (V × Nat)} (levels : Levels succ s E [])
    (levels' : Levels succ s E' []) : E = E' := by
  rcases Nat.lt_trichotomy E.length E'.length with shorter | same | longer
  · exact absurd rfl ((levels.linear levels').2 shorter)
  · exact ((levels.linear levels').1 same).1
  · exact absurd rfl ((levels'.linear levels).2 longer)

/-! ### The search for a target -/

variable {t u : V} {l Q R : List V}

/-- The search for a target is a search. -/
theorem Search.levels (search : Search succ s t Q R) :
    ∃ E P, Levels succ s E P ∧ E.map Prod.fst = Q ∧ P.map Prod.fst = R := by
  induction search with
  | start => exact ⟨[], [(s, 0)], .start, rfl, rfl⟩
  | @step Q R v search missing ih =>
    obtain ⟨E, P, levels, rfl, pending⟩ := ih
    obtain ⟨⟨_, k⟩, P, rfl, rfl, rfl⟩ := List.map_eq_cons_iff.mp pending
    refine ⟨_, _, levels.step, by simp, ?_⟩
    rw [map_fst_append_level, List.map_append, List.map_cons]

/-- A vertex is met from the level before its own. -/
theorem Discovers.level (discovers : Discovers succ s t u x) :
    ∃ k, Level succ s u k ∧ Level succ s x (k + 1) := by
  obtain ⟨Q, R, search, next, new⟩ := discovers
  obtain ⟨E, P, levels, rfl, pending⟩ := search.levels
  obtain ⟨⟨_, k⟩, P, rfl, rfl, rfl⟩ := List.map_eq_cons_iff.mp pending
  refine ⟨k, levels.graded.levels _ (List.mem_append_right _ List.mem_cons_self),
    levels.step.graded.levels (x, k + 1) ?_⟩
  refine List.mem_append_right _ (List.mem_append_right _ (List.mem_map_of_mem ?_))
  rw [mem_firsts, List.map_append]
  exact ⟨new, next⟩

/-- The walk back from a vertex has one vertex more than its level. -/
theorem Back.level (back : Back (Discovers succ s t) s x l) :
    ∃ k, Level succ s x k ∧ l.length = k + 1 := by
  induction back with
  | source => exact ⟨0, level_source succ s, rfl⟩
  | step first back ih =>
    obtain ⟨k, level, length⟩ := ih
    obtain ⟨k', level', next⟩ := first.level
    rw [level'.unique level] at next
    exact ⟨k + 1, next, by rw [List.length_cons, length]⟩

/-- A search for a target that has ended without it. -/
theorem Search.unreachable (search : Search succ s t Q []) (differ : s ≠ t) (i : Nat) :
    t ∉ layer succ s i := by
  intro mem
  obtain ⟨E, P, levels, rfl, pending⟩ := search.levels
  rw [List.map_eq_nil_iff] at pending
  subst pending
  exact search.missing differ (List.mem_append_left _ (levels.complete mem))

end

end FastGraph.BreadthFirst
