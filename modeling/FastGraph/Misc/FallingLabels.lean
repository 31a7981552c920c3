import FastGraph.Misc.ShortestPaths

/-!
# Label-correcting search with machine weights

There are finitely many weights of a machine and their sums are rounded, so nothing is assumed of
the addition here, and of the order only that it is strict. Labels fall finitely often in any graph,
so the search ends. The predecessors lead back to the source if no label falls along a closed walk.
-/

namespace FastGraph.ShortestPaths
variable {V W : Type}

/-! ### The labels of a walk -/

section
variable [Add W] [LT W] {succ : V → List (V × W)} {s u v x : V} {c d e w : W}

/-- The labels that a walk from `u` with the label `d` can give to its ends. A vertex is followed up
with its label or with one that has been lowered since, which is no difference where sums grow with
their parts. -/
inductive HandsOn (succ : V → List (V × W)) (u : V) (d : W) : V → W → Prop where
  | nil : HandsOn succ u d u d
  | snoc {v x : V} {e c w : W} (walk : HandsOn succ u d v e) (above : c = e ∨ e < c)
      (arc : (x, w) ∈ succ v) : HandsOn succ u d x (c + w)

theorem HandsOn.trans {d' d'' : W} (first : HandsOn succ u d v d') (last : HandsOn succ v d' x d'') :
    HandsOn succ u d x d'' := by
  induction last with
  | nil => exact first
  | snoc walk above arc ih => exact ih.snoc above arc

theorem HandsOn.inside {U : Finset V} [Zero W] (closed : Closed succ s U)
    (walk : HandsOn succ s 0 v d) : v ∈ U := by
  induction walk with
  | nil => exact closed.source
  | snoc walk above arc ih => exact closed.arcs _ ih _ arc

/-- No closed walk at a vertex from which `goal` can be reached lowers a label that the vertex can
get. -/
def Steady [Zero W] (succ : V → List (V × W)) (s : V) (goal : V → Prop) : Prop :=
  ∀ v d d', HandsOn succ s 0 v d → goal v → HandsOn succ v d v d' → ¬ d' < d

end

/-! ### One label is lowered -/

section
variable [DecidableEq V] {dist : V → Option W} {v x : V} {c d e w : W}

/-- A label after one was lowered. -/
theorem label_update (here : Function.update dist x (some c) v = some d) :
    v = x ∧ d = c ∨ v ≠ x ∧ dist v = some d := by
  by_cases same : v = x
  · subst same
    rw [Function.update_self] at here
    exact Or.inl ⟨rfl, (Option.some.inj here).symm⟩
  · rw [Function.update_of_ne same] at here
    exact Or.inr ⟨same, here⟩

/-- A label is no greater after one was lowered. -/
theorem lowered [LT W] [IsStrictOrder W (· < ·)] (worse : Worse (dist x) d) (label : dist v = some e)
    (above : c = e ∨ e < c) :
    ∃ e', Function.update dist x (some d) v = some e' ∧ (c = e' ∨ e' < c) := by
  by_cases same : v = x
  · subst same
    refine ⟨d, Function.update_self .., Or.inr ?_⟩
    rcases above with rfl | above
    · exact worse _ label
    · exact trans_of (· < ·) (worse _ label) above
  · exact ⟨e, by rw [Function.update_of_ne same, label], above⟩

theorem improve_eq [Add W] [LT W] [DecidableLT W] (c : W) (u : V) (st : State V W) (x : V) (w : W) :
    improve c u st (x, w) = if Worse (st.dist x) (c + w) then
      ⟨Function.update st.dist x (some (c + w)), Function.update st.parent x (some u),
        (c + w, x) :: st.queue⟩
    else st := rfl

end

/-! ### What a search keeps -/

section
variable [Zero W] [Add W] [LT W]

/-- A label is that of its predecessor and an arc, unless the predecessor is the mark `stop`. -/
def Linked (succ : V → List (V × W)) (stop : V) (st : State V W) (v : V) (d : W) : Prop :=
  st.parent v = some stop ∨ ∃ u e c w, st.parent v = some u ∧ (v, w) ∈ succ u ∧
    st.dist u = some e ∧ (c = e ∨ e < c) ∧ d = c + w

/-- What is true of every search: labels that were queued have only been lowered, and labels were
handed on along walks from the source, last by the predecessors. -/
structure Handed (succ : V → List (V × W)) (s stop : V) (st : State V W) : Prop where
  entries : ∀ c v, (c, v) ∈ st.queue → ∃ d, st.dist v = some d ∧ (c = d ∨ d < c)
  labels : ∀ v d, st.dist v = some d → HandsOn succ s 0 v d
  links : ∀ v d, st.dist v = some d → Linked succ stop st v d

/-- The predecessors of the vertices that can reach the goal lead to the mark. -/
def Returning (goal : V → Prop) (stop : V) (st : State V W) : Prop :=
  ∀ v d, st.dist v = some d → goal v → Leads stop st.parent v

variable [DecidableEq V] {succ : V → List (V × W)} {s stop u v x : V} {goal : V → Prop}
  {st : State V W} {c d e w : W} {rest : List (W × V)}

/-- The predecessors of a vertex do not lead past one whose label it lowers. -/
theorem Handed.leads_update (handed : Handed succ s stop st) (steady : Steady succ s goal)
    (final : goal x) (above : c = e ∨ e < c) (arc : (x, w) ∈ succ u)
    (worse : Worse (st.dist x) (c + w)) {y : V} (leads : Leads stop st.parent y)
    (here : st.dist y = some d) (walk : HandsOn succ y d u e) :
    Leads stop (Function.update st.parent x (some u)) y := by
  induction leads generalizing d with
  | done => exact .done
  | @next y p back leads ih =>
    by_cases same : y = x
    · subst same
      exact absurd (worse d here) (steady y d _ (handed.labels y d here) final (walk.snoc above arc))
    · refine .next (by rw [Function.update_of_ne same, back]) ?_
      rcases handed.links y d here with mark | ⟨p', e', c', w', back', arc', label', above', rfl⟩
      · rw [back] at mark
        cases mark
        exact .done
      · rw [back] at back'
        cases back'
        exact ih label' ((HandsOn.nil.snoc above' arc').trans walk)

variable [DecidableLT W]

/-- One arc keeps the predecessors leading to the mark. -/
theorem Returning.improve (returning : Returning goal stop st) (handed : Handed succ s stop st)
    (steady : Steady succ s goal) (closed : ∀ u, ∀ arc ∈ succ u, goal arc.1 → goal u)
    (label : st.dist u = some e) (above : c = e ∨ e < c) (arc : (x, w) ∈ succ u) :
    Returning goal stop (improve c u st (x, w)) := by
  rw [improve_eq]
  split
  · rename_i worse
    -- from `u` the predecessors lead to the mark, if `x` can reach the goal
    have source (final : goal x) : Leads stop (Function.update st.parent x (some u)) u :=
      handed.leads_update steady final above arc worse
        (returning u e label (closed u _ arc final)) label .nil
    have others {y : V} (leads : Leads stop st.parent y) : ∀ d, st.dist y = some d → goal y →
        Leads stop (Function.update st.parent x (some u)) y := by
      induction leads with
      | done => exact fun _ _ _ => .done
      | @next y p back leads ih =>
        intro d here final
        by_cases same : y = x
        · subst same
          exact .next (Function.update_self ..) (source final)
        · refine .next (by rw [Function.update_of_ne same, back]) ?_
          rcases handed.links y d here with mark | ⟨p', e', c', w', back', arc', label', -, -⟩
          · rw [back] at mark
            cases mark
            exact .done
          · rw [back] at back'
            cases back'
            exact ih e' label' (closed p _ arc' final)
    intro v d here final
    rcases label_update here with ⟨rfl, rfl⟩ | ⟨-, old⟩
    · exact .next (Function.update_self ..) (source final)
    · exact others (returning v d old final) d old final
  · exact returning

variable [IsStrictOrder W (· < ·)]

/-- One arc keeps what is true of every search. -/
theorem Handed.improve (handed : Handed succ s stop st) (label : st.dist u = some e)
    (above : c = e ∨ e < c) (arc : (x, w) ∈ succ u) :
    Handed succ s stop (improve c u st (x, w)) := by
  rw [improve_eq]
  split
  · rename_i worse
    refine ⟨?_, ?_, ?_⟩
    · intro c' v mem
      rcases List.mem_cons.mp mem with same | old
      · cases same
        exact ⟨c + w, Function.update_self .., Or.inl rfl⟩
      · obtain ⟨d, here, above'⟩ := handed.entries c' v old
        exact lowered worse here above'
    · intro v d here
      rcases label_update here with ⟨rfl, rfl⟩ | ⟨-, old⟩
      · exact (handed.labels u e label).snoc above arc
      · exact handed.labels v d old
    · intro v d here
      rcases label_update here with ⟨rfl, rfl⟩ | ⟨other, old⟩
      · obtain ⟨e', label', above'⟩ := lowered worse label above
        exact Or.inr ⟨u, e', c, w, Function.update_self .., arc, label', above', rfl⟩
      · have kept : Function.update st.parent x (some u) v = st.parent v :=
          Function.update_of_ne other ..
        rcases handed.links v d old with mark | ⟨p, e', c', w', back, arc', label', above', sum⟩
        · exact Or.inl (kept.trans mark)
        · obtain ⟨e'', label'', above''⟩ := lowered worse label' above'
          exact Or.inr ⟨p, e'', c', w', kept.trans back, arc', label'', above'', sum⟩
  · exact handed

/-! ### Following up a label -/

theorem Handed.expand {arcs : List (V × W)} (handed : Handed succ s stop st)
    (label : st.dist u = some e) (above : c = e ∨ e < c) (among : ∀ arc ∈ arcs, arc ∈ succ u) :
    Handed succ s stop (ShortestPaths.expand c u st arcs) ∧
      (∀ goal, Steady succ s goal → (∀ u, ∀ arc ∈ succ u, goal arc.1 → goal u) →
        Returning goal stop st → Returning goal stop (ShortestPaths.expand c u st arcs)) := by
  induction arcs generalizing st e with
  | nil => exact ⟨handed, fun _ _ _ returning => returning⟩
  | cons arc arcs ih =>
    obtain ⟨x, w⟩ := arc
    have mem := among (x, w) List.mem_cons_self
    obtain ⟨e', label', above'⟩ : ∃ e', (ShortestPaths.improve c u st (x, w)).dist u = some e' ∧
        (c = e' ∨ e' < c) := by
      rw [improve_eq]
      split
      · rename_i worse
        exact lowered worse label above
      · exact ⟨e, label, above⟩
    obtain ⟨after, returns⟩ := ih (handed.improve label above mem) label' above'
      fun arc later => among arc (List.mem_cons_of_mem _ later)
    refine ⟨after, fun goal steady closed returning => ?_⟩
    exact returns goal steady closed (returning.improve handed steady closed label above mem)

/-- Following up a label keeps what is true of every search, and the predecessors leading to the
mark. -/
theorem Handed.settle (handed : Handed succ s stop st) (next : st.queue.Perm ((c, v) :: rest)) :
    Handed succ s stop (settle succ c v rest st) ∧
      (∀ goal, Steady succ s goal → (∀ u, ∀ arc ∈ succ u, goal arc.1 → goal u) →
        Returning goal stop st → Returning goal stop (settle succ c v rest st)) := by
  obtain ⟨e, label, above⟩ := handed.entries c v (next.mem_iff.mpr List.mem_cons_self)
  have popped : Handed succ s stop { st with queue := rest } := by
    refine ⟨fun c' v' mem => ?_, handed.labels, handed.links⟩
    exact handed.entries c' v' (next.mem_iff.mpr (List.mem_cons_of_mem _ mem))
  unfold ShortestPaths.settle
  split
  · exact ⟨popped, fun _ _ _ returning => returning⟩
  · exact popped.expand label above fun arc mem => mem

end

end FastGraph.ShortestPaths
