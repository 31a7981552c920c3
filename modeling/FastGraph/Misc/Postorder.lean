import FastGraph.Misc.DepthFirst

/-!
# Depth-first search by recursion

A call for a vertex is open until the calls for its successors have returned, and then the vertex
is finished. The vertices in the order in which they are finished are the topological order from
its end, unless a successor is met whose call is still open, and then there is a cycle.
-/

namespace FastGraph.DepthFirst

section
variable {V : Type} {succ : V → List V} {met : Prop} {G D D' D₁ xs ys : List V} {u v x y : V}

/-- At least one arc leads from `s` to `v`. -/
abbrev Leads (succ : V → List V) (s v : V) : Prop := Relation.TransGen (fun u x => x ∈ succ u) s v

/-- A cycle can be reached from `s`. -/
def ReachesCycle (succ : V → List V) (s : V) : Prop := ∃ v, Reaches succ s v ∧ Leads succ v v

theorem ReachesCycle.of_mem (cycle : ReachesCycle succ y) (next : y ∈ succ x) :
    ReachesCycle succ x := by
  obtain ⟨v, reaches, loop⟩ := cycle
  exact ⟨v, reaches.head next, loop⟩

/-- The calls for `xs` one after the other, with `G` the vertices whose calls are open, the last
one first. The vertices `D` are finished before and `D'` afterwards. Vertices of `G` are met only if
`met` holds. -/
inductive Finishes (succ : V → List V) (met : Prop) : List V → List V → List V → List V → Prop where
  | done {G D : List V} : Finishes succ met G D [] D
  | old {G D xs D' : List V} {x : V} (known : x ∈ D ∨ met ∧ x ∈ G)
      (rest : Finishes succ met G D xs D') : Finishes succ met G D (x :: xs) D'
  | new {G D D₁ xs D' : List V} {x : V} (white : x ∉ G ∧ x ∉ D)
      (call : Finishes succ met (x :: G) D (succ x) D₁)
      (rest : Finishes succ met G (D₁ ++ [x]) xs D') : Finishes succ met G D (x :: xs) D'

/-- The calls for `xs` up to one that meets a vertex whose call is open. -/
inductive Meets (succ : V → List V) : List V → List V → List V → Prop where
  | here {G D xs : List V} {x : V} (gray : x ∈ G) : Meets succ G D (x :: xs)
  | call {G D xs : List V} {x : V} (call : Meets succ (x :: G) D (succ x)) : Meets succ G D (x :: xs)
  | rest {G D D₁ xs : List V} {x : V} (rest : Meets succ G D₁ xs) : Meets succ G D (x :: xs)

/-! ### What is finished -/

theorem Finishes.subset (finishes : Finishes succ met G D xs D') : D ⊆ D' := by
  induction finishes with
  | done => exact List.Subset.refl _
  | old known rest ih => exact ih
  | new white call rest inner outer =>
    exact fun u mem => outer (List.mem_append_left _ (inner mem))

theorem Finishes.nodup (finishes : Finishes succ met G D xs D') (distinct : D.Nodup)
    (apart : ∀ v ∈ G, v ∉ D) : D'.Nodup ∧ ∀ v ∈ G, v ∉ D' := by
  induction finishes with
  | done => exact ⟨distinct, apart⟩
  | old known rest ih => exact ih distinct apart
  | @new G D D₁ xs D' x white call rest inner outer =>
    have apart' : ∀ v ∈ x :: G, v ∉ D := List.forall_mem_cons.mpr ⟨white.2, apart⟩
    obtain ⟨distinct₁, apart₁⟩ := inner distinct apart'
    obtain ⟨notIn, apart₁⟩ := List.forall_mem_cons.mp apart₁
    refine outer ?_ ?_
    · rw [← List.concat_eq_append]
      exact distinct₁.concat notIn
    · intro v mem last
      rcases List.mem_append.mp last with before | same
      · exact apart₁ v mem before
      · rw [List.mem_singleton.mp same] at mem
        exact white.1 mem

/-- All of `xs` are finished unless their calls are open. -/
theorem Finishes.finished (finishes : Finishes succ met G D xs D') (mem : y ∈ xs) :
    y ∈ D' ∨ met ∧ y ∈ G := by
  induction finishes with
  | done => cases mem
  | old known rest ih =>
    rcases List.mem_cons.mp mem with rfl | later
    · exact known.imp_left fun before => rest.subset before
    · exact ih later
  | new white call rest inner outer =>
    rcases List.mem_cons.mp mem with rfl | later
    · exact Or.inl (rest.subset (List.mem_append_right _ (List.mem_singleton_self _)))
    · exact outer later

/-- The arcs of the finished vertices lead to finished vertices or such whose calls are open. -/
theorem Finishes.closed (finishes : Finishes succ met G D xs D')
    (before : ∀ u ∈ D, ∀ y ∈ succ u, y ∈ D ∨ y ∈ G) : ∀ u ∈ D', ∀ y ∈ succ u, y ∈ D' ∨ y ∈ G := by
  induction finishes with
  | done => exact before
  | old known rest ih => exact ih before
  | @new G D D₁ xs D' x white call rest inner outer =>
    have before₁ := inner fun u mem y next => (before u mem y next).imp_right (List.mem_cons_of_mem x)
    refine outer fun u mem y next => ?_
    have somewhere : y ∈ D₁ ∨ y ∈ x :: G := by
      rcases List.mem_append.mp mem with old | last
      · exact before₁ u old y next
      · rw [List.mem_singleton.mp last] at next
        exact (call.finished next).imp_right And.right
    rcases somewhere with done | gray
    · exact Or.inl (List.mem_append_left _ done)
    · rcases List.mem_cons.mp gray with rfl | above
      · exact Or.inl (List.mem_append_right _ (List.mem_singleton_self _))
      · exact Or.inr above

theorem Finishes.reaches (finishes : Finishes succ met G D xs D') (mem : v ∈ D') :
    v ∈ D ∨ ∃ x ∈ xs, Reaches succ x v := by
  induction finishes with
  | done => exact Or.inl mem
  | old known rest ih =>
    refine (ih mem).imp_right ?_
    intro ⟨x, among, reaches⟩
    exact ⟨x, List.mem_cons_of_mem _ among, reaches⟩
  | @new G D D₁ xs D' x white call rest inner outer =>
    rcases outer mem with before | ⟨x', among, reaches⟩
    · rcases List.mem_append.mp before with done | last
      · refine (inner done).imp_right ?_
        intro ⟨y, next, reaches⟩
        exact ⟨x, List.mem_cons_self, reaches.head next⟩
      · exact Or.inr ⟨x, List.mem_cons_self, List.mem_singleton.mp last ▸ .refl⟩
    · exact Or.inr ⟨x', List.mem_cons_of_mem _ among, reaches⟩

/-- A search from the start finishes what the vertices reach. -/
theorem Finishes.mem_iff (finishes : Finishes succ met [] [] xs D') :
    v ∈ D' ↔ ∃ x ∈ xs, Reaches succ x v := by
  constructor
  · intro mem
    exact (finishes.reaches mem).resolve_left List.not_mem_nil
  · intro ⟨x, among, reaches⟩
    have source := (finishes.finished among).resolve_right fun both => List.not_mem_nil both.2
    have closed := finishes.closed (fun u mem => absurd mem List.not_mem_nil)
    exact reaches.mem source fun u mem y next => (closed u mem y next).resolve_right List.not_mem_nil

/-! ### The order -/

/-- All arcs lead to vertices in front. -/
def Sorted (succ : V → List V) (D : List V) : Prop :=
  ∀ pre u post, D = pre ++ u :: post → ∀ y ∈ succ u, y ∈ pre

theorem sorted_nil : Sorted succ [] := by
  intro pre u post cut
  simp at cut

theorem Sorted.concat (sorted : Sorted succ D) (next : ∀ y ∈ succ x, y ∈ D) :
    Sorted succ (D ++ [x]) := by
  intro pre u post cut y mem
  rcases List.eq_nil_or_concat post with rfl | ⟨post, z, rfl⟩
  · obtain ⟨rfl, same⟩ := List.append_inj' cut rfl
    rw [← List.head_eq_of_cons_eq same] at mem
    exact next y mem
  · rw [List.concat_eq_append, ← List.cons_append, ← List.append_assoc] at cut
    obtain ⟨rfl, -⟩ := List.append_inj' cut rfl
    exact sorted pre u post rfl y mem

/-- A search that meets no open call puts the vertices behind their successors. -/
theorem Finishes.sorted (finishes : Finishes succ False G D xs D') (sorted : Sorted succ D) :
    Sorted succ D' := by
  induction finishes with
  | done => exact sorted
  | old known rest ih => exact ih sorted
  | new white call rest inner outer =>
    exact outer ((inner sorted).concat fun y next => (call.finished next).resolve_right And.left)

/-- A sorted list has a vertex's successors with it, at lower positions. -/
theorem Sorted.idxOf_lt [DecidableEq V] (sorted : Sorted succ D) (mem : u ∈ D) (next : y ∈ succ u) :
    y ∈ D ∧ D.idxOf y < D.idxOf u := by
  obtain ⟨pre, post, rfl, first⟩ := List.eq_append_cons_of_mem mem
  have before := sorted pre u post rfl y next
  refine ⟨List.mem_append_left _ before, ?_⟩
  rw [List.idxOf_append_of_mem before, List.idxOf_append_of_notMem first, List.idxOf_cons_self]
  have := List.idxOf_lt_length_of_mem before
  omega

/-- In a sorted list without repetitions the vertices stand behind their successors. -/
theorem sorted_iff (distinct : D.Nodup) : Sorted succ D ↔ ∀ u ∈ D, ∀ y ∈ succ u, [y, u].Sublist D := by
  constructor
  · intro sorted u mem y next
    obtain ⟨pre, post, rfl⟩ := List.append_of_mem mem
    have before := sorted pre u post rfl y next
    have behind : u ∈ u :: post := List.mem_cons_self
    exact (List.singleton_sublist.mpr before).append (List.singleton_sublist.mpr behind)
  · intro behind pre u post cut y next
    subst cut
    have notLater : u ∉ post := (List.nodup_cons.mp (List.nodup_append.mp distinct).2.1).1
    have sublist := behind u (List.mem_append_right _ List.mem_cons_self) y next
    obtain ⟨front, back, split, inPre, inPost⟩ := List.sublist_append_iff.mp sublist
    cases front with
    | nil =>
      -- `u` would be twice in what follows
      rw [List.nil_append] at split
      subst split
      exact absurd (inPost.tail.subset (List.mem_singleton_self u)) notLater
    | cons z front =>
      rw [List.cons_append, List.cons.injEq] at split
      rw [split.1]
      exact inPre.subset List.mem_cons_self

theorem Sorted.not_leads (sorted : Sorted succ D) (mem : v ∈ D) : ¬ Leads succ v v := by
  classical
  have lower : ∀ w, Leads succ v w → w ∈ D ∧ D.idxOf w < D.idxOf v := by
    intro w leads
    induction leads with
    | single next => exact sorted.idxOf_lt mem next
    | tail before next ih =>
      obtain ⟨inside, less⟩ := sorted.idxOf_lt ih.1 next
      exact ⟨inside, less.trans ih.2⟩
  intro leads
  exact absurd (lower v leads).2 (lt_irrefl _)

theorem Sorted.not_reachesCycle (sorted : Sorted succ D) (mem : x ∈ D) : ¬ ReachesCycle succ x := by
  classical
  intro ⟨v, reaches, leads⟩
  exact sorted.not_leads (reaches.mem mem fun u inside y next => (sorted.idxOf_lt inside next).1) leads

/-! ### Cycles -/

/-- An open call leads to the vertices whose turn it is. -/
def Above (succ : V → List V) (G xs : List V) : Prop := ∀ u ∈ G, ∀ x ∈ xs, Leads succ u x

theorem Above.tail (above : Above succ G (x :: xs)) : Above succ G xs :=
  fun u mem y later => above u mem y (List.mem_cons_of_mem x later)

theorem Above.call (above : Above succ G (x :: xs)) : Above succ (x :: G) (succ x) := by
  intro u mem y next
  rcases List.mem_cons.mp mem with rfl | gray
  · exact .single next
  · exact (above u gray x List.mem_cons_self).tail next

/-- Without cycles no open call is met. -/
theorem Finishes.unmet (finishes : Finishes succ met G D xs D') (above : Above succ G xs)
    (acyclic : ∀ x ∈ xs, ¬ ReachesCycle succ x) : Finishes succ False G D xs D' := by
  induction finishes with
  | done => exact .done
  | @old G D xs D' x known rest ih =>
    refine .old (Or.inl ?_) (ih above.tail fun y later => acyclic y (List.mem_cons_of_mem x later))
    refine known.resolve_right fun both => acyclic x List.mem_cons_self ⟨x, .refl, ?_⟩
    exact above x both.2 x List.mem_cons_self
  | @new G D D₁ xs D' x white call rest inner outer =>
    refine .new white (inner above.call fun y next cycle => ?_)
      (outer above.tail fun y later => acyclic y (List.mem_cons_of_mem x later))
    exact acyclic x List.mem_cons_self (cycle.of_mem next)

/-- An open call that is met closes a cycle. -/
theorem Meets.reachesCycle (meets : Meets succ G D xs) (above : Above succ G xs) :
    ∃ x ∈ xs, ReachesCycle succ x := by
  induction meets with
  | @here G D xs x gray =>
    exact ⟨x, List.mem_cons_self, x, .refl, above x gray x List.mem_cons_self⟩
  | @call G D xs x call ih =>
    obtain ⟨y, next, cycle⟩ := ih above.call
    exact ⟨x, List.mem_cons_self, cycle.of_mem next⟩
  | @rest G D D₁ xs x rest ih =>
    obtain ⟨y, among, cycle⟩ := ih above.tail
    exact ⟨y, List.mem_cons_of_mem x among, cycle⟩

end

end FastGraph.DepthFirst
