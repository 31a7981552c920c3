import Mathlib.Data.List.Pairwise

/-!
# Extents

Ranges of an address space, each an offset and a length. Two are apart when neither reaches
into the other; an empty one may lie anywhere. Blocks that are taken in turn from the free end
of an area lie apart when each starts where all the earlier ones have ended.
-/

namespace FastGraph

/-- The range of `size` addresses from `offset` on. -/
structure Extent where
  offset : Nat
  size : Nat
  deriving DecidableEq, Repr

namespace Extent

/-- The first address after the range. -/
def stop (e : Extent) : Nat := e.offset + e.size

/-- The ranges have no address in common. -/
def Apart (e f : Extent) : Prop := 0 < e.size → 0 < f.size → e.stop ≤ f.offset ∨ f.stop ≤ e.offset

instance (e f : Extent) : Decidable (e.Apart f) := by
  unfold Apart
  infer_instance

/-- An address of the range. -/
def Holds (e : Extent) (a : Nat) : Prop := e.offset ≤ a ∧ a < e.stop

section
variable {e f : Extent} {es : List Extent}

theorem Apart.symm (apart : e.Apart f) : f.Apart e := fun hf he => (apart he hf).symm

/-- To be apart is to have no address in common. -/
theorem apart_iff : e.Apart f ↔ ∀ a, e.Holds a → ¬ f.Holds a := by
  unfold Apart Holds stop
  constructor
  · intro apart a in_e in_f
    have := apart (by omega) (by omega)
    omega
  · intro disjoint he hf
    have start_e := disjoint e.offset
    have start_f := disjoint f.offset
    omega

/-- Two ranges that both start at the beginning have it in common, unless one is empty. -/
theorem not_apart_of_start (start_e : e.offset = 0) (start_f : f.offset = 0) (he : 0 < e.size)
    (hf : 0 < f.size) : ¬ e.Apart f := by
  rw [apart_iff]
  intro disjoint
  have holds_e : e.Holds 0 := ⟨Nat.le_of_eq start_e, by unfold stop; omega⟩
  have holds_f : f.Holds 0 := ⟨Nat.le_of_eq start_f, by unfold stop; omega⟩
  exact disjoint 0 holds_e holds_f

theorem apart_of_size_eq_zero (empty : f.size = 0) : e.Apart f := fun _ hf => by omega

/-- A range that starts where the others have ended is apart from them. -/
theorem pairwise_concat (apart : es.Pairwise Apart) (ended : ∀ e ∈ es, e.stop ≤ f.offset) :
    (es ++ [f]).Pairwise Apart := by
  rw [List.pairwise_append]
  refine ⟨apart, List.pairwise_singleton _ _, ?_⟩
  intro e mem g mem_g
  obtain rfl := List.mem_singleton.mp mem_g
  exact fun _ _ => Or.inl (ended e mem)

end

end Extent

end FastGraph
