import FastGraph.Misc.UnorderedMap
import Mathlib.Logic.Function.Basic

/-!
# Maps under other keys

A map is another one with its keys renamed and its values translated if every entry of the other
is found under the new key, and no two keys that are in use get the same one. Keys that are not in
use may be renamed to anything, so a key can be given a new name when it comes into use, also one
that another key had before.
-/

namespace FastGraph

variable {A B V W : Type} [DecidableEq A] [DecidableEq B]

/-- The entries of `m` are those of `m'` under the keys that `ρ` gives them. -/
structure Rekeyed (ρ : A → B) (f : V → W) (m : UnorderedMap A V) (m' : UnorderedMap B W) :
    Prop where
  inj : ∀ a b, (m.find a).isSome → (m.find b).isSome → ρ a = ρ b → a = b
  find : ∀ a v, m.find a = some v → m'.find (ρ a) = some (f v)
  size : m'.size = m.size

namespace Rekeyed

variable {ρ : A → B} {f f' : V → W} {m : UnorderedMap A V} {m' : UnorderedMap B W} {a : A} {b : B}
  {v : V}

theorem empty : Rekeyed ρ f ∅ ∅ := ⟨by simp, by simp, rfl⟩

/-- Another value under a key that is in use. -/
theorem set (rekeyed : Rekeyed ρ f m m') (used : (m.find a).isSome) (v : V) :
    Rekeyed ρ f (m.set a v) (m'.set (ρ a) (f v)) := by
  have old (x : A) (found : ((m.set a v).find x).isSome) : (m.find x).isSome := by
    rw [UnorderedMap.find_set] at found
    split at found
    · rename_i here
      rwa [here]
    · exact found
  obtain ⟨w, held⟩ := Option.isSome_iff_exists.mp used
  refine ⟨fun x y inX inY => rekeyed.inj x y (old x inX) (old y inY), ?_, ?_⟩
  · intro x u found
    rw [UnorderedMap.find_set] at found
    split at found
    · rename_i here
      rw [here, ← Option.some.inj found, UnorderedMap.find_set_self]
    · rename_i other
      have apart : ρ x ≠ ρ a :=
        fun same => other (rekeyed.inj x a (by rw [found]; rfl) used same)
      rw [UnorderedMap.find_set, if_neg apart, rekeyed.find x u found]
  · rw [UnorderedMap.size_set, UnorderedMap.size_set, rekeyed.find a w held, held]
    exact rekeyed.size

theorem erase (rekeyed : Rekeyed ρ f m m') (used : (m.find a).isSome) :
    Rekeyed ρ f (m.erase a) (m'.erase (ρ a)) := by
  have old (x : A) (found : ((m.erase a).find x).isSome) : (m.find x).isSome := by
    rw [UnorderedMap.find_erase] at found
    split at found
    · cases found
    · exact found
  obtain ⟨w, held⟩ := Option.isSome_iff_exists.mp used
  refine ⟨fun x y inX inY => rekeyed.inj x y (old x inX) (old y inY), ?_, ?_⟩
  · intro x u found
    rw [UnorderedMap.find_erase] at found
    split at found
    · cases found
    · rename_i other
      have apart : ρ x ≠ ρ a :=
        fun same => other (rekeyed.inj x a (by rw [found]; rfl) used same)
      rw [UnorderedMap.find_erase, if_neg apart, rekeyed.find x u found]
  · rw [UnorderedMap.size_erase, UnorderedMap.size_erase, rekeyed.find a w held, held,
      rekeyed.size]
    rfl

/-- A key comes into use under a name that is free, with a translation that is the same for the
values there were. -/
theorem extend (rekeyed : Rekeyed ρ f m m') (unused : m.find a = none) (free : m'.find b = none)
    (same : ∀ x u, m.find x = some u → f' u = f u) (v : V) :
    Rekeyed (Function.update ρ a b) f' (m.set a v) (m'.set b (f' v)) := by
  have old (x : A) (other : x ≠ a) (found : ((m.set a v).find x).isSome) : (m.find x).isSome := by
    rwa [UnorderedMap.find_set, if_neg other] at found
  have taken (x : A) (found : (m.find x).isSome) : ρ x ≠ b := by
    rintro rfl
    obtain ⟨u, held⟩ := Option.isSome_iff_exists.mp found
    rw [rekeyed.find x u held] at free
    cases free
  refine ⟨?_, ?_, ?_⟩
  · intro x y inX inY
    by_cases atX : x = a
    · by_cases atY : y = a
      · exact fun _ => atX.trans atY.symm
      · subst atX
        rw [Function.update_self, Function.update_of_ne atY]
        exact fun clash => absurd clash.symm (taken y (old y atY inY))
    · by_cases atY : y = a
      · subst atY
        rw [Function.update_self, Function.update_of_ne atX]
        exact fun clash => absurd clash (taken x (old x atX inX))
      · rw [Function.update_of_ne atX, Function.update_of_ne atY]
        exact rekeyed.inj x y (old x atX inX) (old y atY inY)
  · intro x u found
    by_cases here : x = a
    · subst here
      rw [UnorderedMap.find_set_self] at found
      rw [Function.update_self, UnorderedMap.find_set_self, Option.some.inj found]
    · rw [UnorderedMap.find_set, if_neg here] at found
      have apart : ρ x ≠ b := taken x (by rw [found]; rfl)
      rw [Function.update_of_ne here, UnorderedMap.find_set, if_neg apart, same x u found,
        rekeyed.find x u found]
  · rw [UnorderedMap.size_set, UnorderedMap.size_set, unused, free, rekeyed.size]
    rfl

end Rekeyed

end FastGraph
