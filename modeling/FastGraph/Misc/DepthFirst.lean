import Mathlib.Algebra.Order.BigOperators.Group.Finset
import Mathlib.Data.Finset.Card
import Mathlib.Logic.Relation

/-!
# Depth-first search with a stack

A vertex is marked when it is taken from the stack, so that it can be there more than once. The
vertices on the stack and the arcs of those not yet visited bound what is still to be done.
-/

namespace FastGraph.DepthFirst

variable {V : Type} {succ : V → List V} {s u v : V}

/-- Arcs lead from `s` to `v`. -/
abbrev Reaches (succ : V → List V) (s v : V) : Prop :=
  Relation.ReflTransGen (fun u x => x ∈ succ u) s v

/-- A set that holds `s` and that no arc leaves holds all that `s` reaches. -/
theorem Reaches.mem {C : V → Prop} (reaches : Reaches succ s v) (source : C s)
    (closed : ∀ u, C u → ∀ x ∈ succ u, C x) : C v := by
  induction reaches with
  | refl => exact source
  | tail before next ih => exact closed _ ih _ next

variable [DecidableEq V] {D S : List V} {U : Finset V}

/-- The vertices visited so far, and the stack from its top. -/
inductive Visits (succ : V → List V) (s : V) : List V → List V → Prop where
  | start : Visits succ s [] [s]
  | skip {D S : List V} {v : V} (visits : Visits succ s D (v :: S)) (old : v ∈ D) : Visits succ s D S
  | visit {D S : List V} {v : V} (visits : Visits succ s D (v :: S)) (new : v ∉ D) :
      Visits succ s (D ++ [v]) (((succ v).filter (· ∉ D ++ [v])).reverse ++ S)

theorem Visits.nodup (visits : Visits succ s D S) : D.Nodup := by
  induction visits with
  | start => exact List.nodup_nil
  | skip visits old ih => exact ih
  | visit visits new ih =>
    rw [← List.concat_eq_append]
    exact ih.concat new

theorem Visits.reaches (visits : Visits succ s D S) (mem : u ∈ D ∨ u ∈ S) : Reaches succ s u := by
  induction visits generalizing u with
  | start => exact List.mem_singleton.mp (mem.resolve_left List.not_mem_nil) ▸ .refl
  | skip visits old ih => exact ih (mem.imp_right (List.mem_cons_of_mem _))
  | @visit D S v visits new ih =>
    have here := ih (Or.inr List.mem_cons_self)
    rw [List.mem_append, List.mem_append, List.mem_reverse] at mem
    rcases mem with (before | last) | (next | pending)
    · exact ih (Or.inl before)
    · exact List.mem_singleton.mp last ▸ here
    · exact here.tail (List.mem_filter.mp next).1
    · exact ih (Or.inr (List.mem_cons_of_mem _ pending))

theorem Visits.source (visits : Visits succ s D S) : s ∈ D ∨ s ∈ S := by
  induction visits with
  | start => exact Or.inr (List.mem_singleton_self s)
  | @skip D S v visits old ih =>
    rcases ih with before | pending
    · exact Or.inl before
    · rcases List.mem_cons.mp pending with rfl | later
      · exact Or.inl old
      · exact Or.inr later
  | visit visits new ih => grind

/-- The arcs of a vertex that was visited lead to the visited vertices or onto the stack. -/
theorem Visits.closed (visits : Visits succ s D S) (mem : u ∈ D) {x : V} (next : x ∈ succ u) :
    x ∈ D ∨ x ∈ S := by
  induction visits generalizing u with
  | start => cases mem
  | @skip D S v visits old ih =>
    rcases ih mem next with before | pending
    · exact Or.inl before
    · rcases List.mem_cons.mp pending with rfl | later
      · exact Or.inl old
      · exact Or.inr later
  | @visit D S v visits new ih =>
    by_cases known : x ∈ D ++ [v]
    · exact Or.inl known
    · right
      rcases List.mem_append.mp mem with before | last
      · rcases ih before next with old | pending
        · exact absurd (List.mem_append_left _ old) known
        · rcases List.mem_cons.mp pending with rfl | later
          · exact absurd (List.mem_append_right _ (List.mem_singleton_self x)) known
          · exact List.mem_append_right _ later
      · rw [List.mem_singleton.mp last] at next
        apply List.mem_append_left
        rw [List.mem_reverse, List.mem_filter]
        exact ⟨next, decide_eq_true known⟩

/-- A search that has ended has visited what the source reaches. -/
theorem Visits.mem_iff (visits : Visits succ s D []) : v ∈ D ↔ Reaches succ s v := by
  constructor
  · intro mem
    exact visits.reaches (Or.inl mem)
  · intro reaches
    exact reaches.mem (visits.source.resolve_right List.not_mem_nil)
      fun u mem x next => (visits.closed mem next).resolve_right List.not_mem_nil

/-- The vertices still to be taken from the stack, at most. -/
def remaining (succ : V → List V) (U : Finset V) (D S : List V) : Nat :=
  S.length + ∑ u ∈ U \ D.toFinset, (succ u).length

theorem remaining_visit (inside : v ∈ U) (new : v ∉ D) :
    remaining succ U (D ++ [v]) (((succ v).filter (· ∉ D ++ [v])).reverse ++ S) <
      remaining succ U D (v :: S) := by
  have fewer : U \ (D ++ [v]).toFinset = (U \ D.toFinset).erase v := by
    ext u
    simp only [List.toFinset_append, Finset.mem_sdiff, Finset.mem_union, List.mem_toFinset,
      List.mem_singleton, Finset.mem_erase]
    tauto
  have here : v ∈ U \ D.toFinset :=
    Finset.mem_sdiff.mpr ⟨inside, fun mem => new (List.mem_toFinset.mp mem)⟩
  have sum := Finset.add_sum_erase _ (fun u => (succ u).length) here
  have pushed := List.length_filter_le (fun x => decide (x ∉ D ++ [v])) (succ v)
  simp only [remaining, fewer, List.length_append, List.length_reverse, List.length_cons]
  omega

end FastGraph.DepthFirst
