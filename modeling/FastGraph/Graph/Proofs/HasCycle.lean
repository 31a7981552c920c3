import FastGraph.Graph.Dfs
import FastGraph.Graph.Proofs.Paths

/-!
# The recursion of `dfs_has_cycle` ends

A call of `visit` colors a white node, and no node becomes white again. The calls that are open
at one time are thus of different nodes, so that the recursion is no deeper than their number.
-/

namespace FastGraph.HasCycle

variable {W : Type} {g : DynamicGraph W} {U : Finset Int} {color color' color'' : UnorderedMap Int Int}
  {node x : Int} {c : Int}

/-- No node is white in the second coloring that is not in the first. -/
def Fades (color color' : UnorderedMap Int Int) : Prop :=
  ∀ x, colorOf color' x = 0 → colorOf color x = 0

theorem Fades.refl (color : UnorderedMap Int Int) : Fades color color := fun _ white => white

theorem Fades.trans (first : Fades color color') (second : Fades color' color'') :
    Fades color color'' := fun x white => first x (second x white)

theorem colorOf_set (color : UnorderedMap Int Int) (node c x : Int) :
    colorOf (color.set node c) x = if x = node then c else colorOf color x := by
  unfold colorOf
  rw [UnorderedMap.find_set]
  split <;> rfl

theorem fades_set (other : c ≠ 0) : Fades color (color.set node c) := by
  intro x white
  rw [colorOf_set] at white
  split at white
  · exact absurd white other
  · exact white

/-- The white nodes. -/
def whites (U : Finset Int) (color : UnorderedMap Int Int) : Finset Int :=
  U.filter fun x => colorOf color x = 0

theorem Fades.card_le (fades : Fades color color') :
    (whites U color').card ≤ (whites U color).card := by
  apply Finset.card_le_card
  intro x white
  rw [whites, Finset.mem_filter] at white ⊢
  exact ⟨white.1, fades x white.2⟩

/-- Coloring a white node leaves fewer. -/
theorem whites_set (inside : node ∈ U) (white : colorOf color node = 0) (other : c ≠ 0) :
    (whites U (color.set node c)).card < (whites U color).card := by
  apply Finset.card_lt_card
  rw [Finset.ssubset_iff_of_subset]
  · refine ⟨node, Finset.mem_filter.mpr ⟨inside, white⟩, ?_⟩
    rw [whites, Finset.mem_filter, colorOf_set, if_pos rfl]
    exact fun both => other both.2
  · intro x mem
    rw [whites, Finset.mem_filter] at mem ⊢
    exact ⟨mem.1, fades_set other x mem.2⟩

/-- The loop over the edges ends if the calls it makes do. -/
theorem visitEdges_returns
    {visit : UnorderedMap Int Int → Int → Option (Bool × UnorderedMap Int Int)}
    (visits : ∀ color' node, Fades color color' → node ∈ U → colorOf color' node = 0 →
      ∃ found color'', visit color' node = some (found, color'') ∧ Fades color' color'')
    {edges : List (Edge W)} (inside : ∀ e ∈ edges, e.toId ∈ U) (fades : Fades color color') :
    ∃ found color'', visitEdges visit edges color' = some (found, color'') ∧
      Fades color color'' := by
  induction edges generalizing color' with
  | nil => exact ⟨false, color', rfl, fades⟩
  | cons e edges ih =>
    have rest := fun x mem => inside x (List.mem_cons_of_mem e mem)
    rw [visitEdges]
    split
    · exact ⟨true, color', rfl, fades⟩
    · split
      · rename_i white
        obtain ⟨found, after, called, fades'⟩ :=
          visits color' e.toId fades (inside e List.mem_cons_self) white
        have fades'' := fades.trans fades'
        cases found with
        | true => exact ⟨true, after, by simp [called], fades''⟩
        | false =>
          obtain ⟨found, last, looped, fades'''⟩ := ih rest fades''
          exact ⟨found, last, by simp [called, looped], fades'''⟩
      · exact ih rest fades

/-- A call for a white node ends within as many calls as there are white nodes. -/
theorem visit_returns (closed : ∀ u, ∀ e ∈ g.neighbors u, e.toId ∈ U) {fuel : Nat}
    (inside : node ∈ U) (white : colorOf color node = 0)
    (enough : (whites U color).card ≤ fuel) :
    ∃ found color', visit g fuel color node = some (found, color') ∧ Fades color color' := by
  induction fuel generalizing color node with
  | zero =>
    have none := Finset.card_eq_zero.mp (Nat.le_zero.mp enough)
    have mem : node ∈ whites U color := Finset.mem_filter.mpr ⟨inside, white⟩
    rw [none] at mem
    cases mem
  | succ fuel ih =>
    have fewer := whites_set inside white (show (1 : Int) ≠ 0 by decide)
    have visits (color' : UnorderedMap Int Int) (n : Int) (fades : Fades (color.set node 1) color')
        (inside : n ∈ U) (white : colorOf color' n = 0) :
        ∃ found color'', visit g fuel color' n = some (found, color'') ∧ Fades color' color'' := by
      have less := fades.card_le (U := U)
      exact ih inside white (by omega)
    obtain ⟨found, color', looped, fades⟩ :=
      visitEdges_returns visits (closed node) (Fades.refl _)
    have gray : Fades color (color.set node 1) := fades_set (by decide)
    rw [visit]
    simp only [looped, Option.bind_eq_bind, Option.bind_some]
    split
    · exact ⟨true, color', rfl, gray.trans fades⟩
    · exact ⟨false, color'.set node 2, rfl, (gray.trans fades).trans (fades_set (by decide))⟩

theorem visitAll_returns (closed : ∀ u, ∀ e ∈ g.neighbors u, e.toId ∈ U) {fuel : Nat}
    (enough : U.card ≤ fuel) {ids : List Int} (inside : ∀ id ∈ ids, id ∈ U)
    (color : UnorderedMap Int Int) : ∃ found, visitAll g fuel ids color = some found := by
  induction ids generalizing color with
  | nil => exact ⟨false, rfl⟩
  | cons id ids ih =>
    have rest := fun x mem => inside x (List.mem_cons_of_mem id mem)
    rw [visitAll]
    split
    · rename_i white
      have few := (Finset.card_filter_le U fun x => colorOf color x = 0).trans enough
      obtain ⟨found, color', called, -⟩ := visit_returns closed (inside id List.mem_cons_self) white few
      cases found with
      | true => exact ⟨true, by simp [called]⟩
      | false =>
        obtain ⟨found, looped⟩ := ih rest color'
        exact ⟨found, by simp [called, looped]⟩
    · exact ih rest color

end FastGraph.HasCycle

namespace FastGraph
open HasCycle

/-- `dfs_has_cycle` ends for every graph and every order of its nodes. -/
theorem dfsHasCycle_returns {W : Type} (g : DynamicGraph W) :
    ∃ N, ∀ fuel, N ≤ fuel → ∀ order, ∃ found, dfsHasCycle fuel g order = some found := by
  have closed (u : Int) (e : Edge W) (among : e ∈ g.neighbors u) :
      e.toId ∈ (g.nodes.toList.map Prod.fst).toFinset ∪ Dijkstra.endpoints g 0 :=
    Finset.mem_union_right _ (Dijkstra.mem_endpoints among 0)
  refine ⟨_, fun fuel enough order => visitAll_returns closed enough ?_ ∅⟩
  intro id mem
  apply Finset.mem_union_left
  rw [List.mem_toFinset]
  exact ((order.perm g.nodes.toList).map Prod.fst).subset mem

end FastGraph
