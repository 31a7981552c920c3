import FastGraph.Misc.Alike

/-!
# Programs on a part of the state

A part of a state can be read and replaced, and what was not replaced stays. A program works
within a part if it reads and changes nothing else. Programs that work within parts that do not
overlap do not see each other: of any sequence of them, those within one part return what they
return without the others.
-/

namespace FastGraph

/-- A part of a state. -/
structure Part (σ τ : Type) where
  get : σ → τ
  put : σ → τ → σ
  get_put : ∀ s t, get (put s t) = t
  put_put : ∀ s t t', put (put s t) t' = put s t'
  put_get : ∀ s, put s (get s) = s

namespace Part

variable {σ τ υ : Type}

/-- Replacing one part and replacing the other are independent. -/
def Apart (P : Part σ τ) (Q : Part σ υ) : Prop :=
  ∀ s t u, P.put (Q.put s u) t = Q.put (P.put s t) u

/-- A part is not changed where one apart from it is replaced. -/
theorem Apart.get_put {P : Part σ τ} {Q : Part σ υ} (apart : P.Apart Q) (s : σ) (u : υ) :
    P.get (Q.put s u) = P.get s := by
  have same : P.put (Q.put s u) (P.get s) = Q.put s u := by rw [apart, P.put_get]
  rw [← same, P.get_put]

end Part

namespace Program

variable {ε σ τ α β : Type} {P : Part σ τ}

/-- The program reads and changes nothing but the part. -/
def Within (P : Part σ τ) (p : Program σ ε α) : Prop :=
  ∃ q : Program τ ε α, ∀ s, p.run s = (q.run (P.get s)).map fun r => (r.1, P.put s r.2)

theorem Within.pure (a : α) : Within P (Pure.pure a : Program σ ε α) := by
  refine ⟨Pure.pure a, ?_⟩
  intro s
  change some (Except.ok a, s) = some (Except.ok a, P.put s (P.get s))
  rw [P.put_get]

theorem Within.bind {p : Program σ ε β} {f : β → Program σ ε α} (first : Within P p)
    (rest : ∀ b, Within P (f b)) : Within P (p >>= f) := by
  obtain ⟨q, here⟩ := first
  choose g there using rest
  refine ⟨q >>= g, ?_⟩
  intro s
  rw [run_bind, run_bind, here]
  cases q.run (P.get s) with
  | none => rfl
  | some r =>
    obtain ⟨r, t⟩ := r
    cases r with
    | error e => rfl
    | ok b =>
      change (f b).run (P.put s t) = ((g b).run t).map _
      rw [there, P.get_put]
      simp only [P.put_put]

theorem Within.tryCatch {p : Program σ ε α} {h : ε → Program σ ε α} (body : Within P p)
    (handler : ∀ e, Within P (h e)) : Within P (tryCatch p h) := by
  obtain ⟨q, here⟩ := body
  choose k there using handler
  refine ⟨MonadExcept.tryCatch q k, ?_⟩
  intro s
  rw [run_tryCatch, run_tryCatch, here]
  cases q.run (P.get s) with
  | none => rfl
  | some r =>
    obtain ⟨r, t⟩ := r
    cases r with
    | ok a => rfl
    | error e =>
      change (h e).run (P.put s t) = ((k e).run t).map _
      rw [there, P.get_put]
      simp only [P.put_put]

/-- A call that looks at the part and replaces it. -/
theorem within_call {f : σ → Outcome ε (σ × α)} (g : τ → Outcome ε (τ × α))
    (same : ∀ s, f s = g (P.get s) >>= fun r => Outcome.returned (P.put s r.1, r.2)) :
    Within P (call f) := by
  refine ⟨call g, ?_⟩
  intro s
  have called := same s
  rcases Outcome.cases (g (P.get s)) with ends | ⟨e, ends⟩ | ⟨⟨t, a⟩, ends⟩
  · rw [ends] at called
    rw [run_call_stuck called, run_call_stuck ends]
    rfl
  · rw [ends] at called
    rw [run_call_threw called, run_call_threw ends, Option.map_some, P.put_get]
  · rw [ends] at called
    rw [run_call_returned called, run_call_returned ends]
    rfl

/-- A question about the part. -/
theorem within_ask (f : τ → Outcome ε α) : Within P (ask fun s => f (P.get s)) := by
  refine within_call (fun t => f t >>= fun a => Outcome.returned (t, a)) ?_
  intro s
  rcases Outcome.cases (f (P.get s)) with ends | ⟨e, ends⟩ | ⟨a, ends⟩ <;>
    simp [ends, P.put_get]

/-- Only the part matters for a program that works within it. -/
theorem Within.sim {p : Program σ ε α} (within : Within P p) :
    Sim (fun s t => P.get s = P.get t) p p := by
  obtain ⟨q, here⟩ := within
  intro s t same
  rw [here, here, same]
  cases q.run (P.get t) with
  | none => exact .none
  | some r => exact .some ⟨rfl, (P.get_put s r.2).trans (P.get_put t r.2).symm⟩

/-- A program leaves the parts that are apart from its own as they are. -/
theorem Within.get_eq {υ : Type} {Q : Part σ υ} {p : Program σ ε α} (within : Within P p)
    (apart : Q.Apart P) {s s' : σ} {r : Except ε α} (ran : p.run s = some (r, s')) :
    Q.get s' = Q.get s := by
  obtain ⟨q, here⟩ := within
  rw [here] at ran
  obtain ⟨⟨r', t⟩, -, same⟩ := Option.map_eq_some_iff.mp ran
  cases same
  exact apart.get_put s t

/-! ### Sequences -/

/-- Programs one after the other, with all their results. -/
def runAll : List (Program σ ε α) → Program σ ε (List α)
  | [] => pure []
  | p :: ps => do
    let a ← p
    let as ← runAll ps
    pure (a :: as)

theorem runAll_cons {p : Program σ ε α} {ps : List (Program σ ε α)} {s s' : σ} {as : List α} :
    (runAll (p :: ps)).outcome s = Outcome.returned (s', as) ↔
      ∃ t a as', p.outcome s = Outcome.returned (t, a) ∧
        (runAll ps).outcome t = Outcome.returned (s', as') ∧ as = a :: as' := by
  constructor
  · intro ran
    obtain ⟨t, a, first, ran⟩ := outcome_bind_returned ran
    obtain ⟨t', as', rest, last⟩ := outcome_bind_returned ran
    cases last
    exact ⟨t, a, as', first, rest, rfl⟩
  · rintro ⟨t, a, as', first, rest, rfl⟩
    unfold runAll
    rw [outcome_bind first, outcome_bind rest]
    rfl

/-- Programs that work within a part return the same from states that agree on it. -/
theorem runAll_same {ps : List (Program σ ε α)} (within : ∀ p ∈ ps, Within P p) {s t s' : σ}
    {as : List α} (same : P.get s = P.get t)
    (ran : (runAll ps).outcome s = Outcome.returned (s', as)) :
    ∃ t', (runAll ps).outcome t = Outcome.returned (t', as) ∧ P.get t' = P.get s' := by
  induction ps generalizing s t as with
  | nil =>
    cases ran
    exact ⟨t, rfl, same.symm⟩
  | cons p ps ih =>
    obtain ⟨s₁, a, as', first, rest, rfl⟩ := runAll_cons.mp ran
    have alike := (within p List.mem_cons_self).sim.outcome same.symm
    obtain ⟨⟨t₁, b⟩, first', same₁, rfl⟩ := alike.of_returned first
    obtain ⟨t', rest', same'⟩ :=
      ih (fun p mem => within p (List.mem_cons_of_mem _ mem)) same₁.symm rest
    exact ⟨t', runAll_cons.mpr ⟨t₁, b, as', first', rest', rfl⟩, same'⟩

/-- A program that returns leaves the other parts as they are. -/
theorem Within.outcome_get_eq {υ : Type} {Q : Part σ υ} {p : Program σ ε α} (within : Within P p)
    (apart : Q.Apart P) {s s' : σ} {a : α} (ran : p.outcome s = Outcome.returned (s', a)) :
    Q.get s' = Q.get s := by
  have ran' : p.run s = some (.ok a, s') := by
    unfold outcome at ran
    split at ran
    · cases ran
    · cases ran
    · rename_i ends
      cases ran
      exact ends
  exact within.get_eq apart ran'

section
variable {ι : Type} [DecidableEq ι] {τ : ι → Type} {P : ∀ i, Part σ (τ i)}
  {tasks : List (ι × Program σ ε α)} {s s' : σ} {as : List α}

/-- The tasks of one part. -/
def ofPart (i : ι) (tasks : List (ι × Program σ ε α)) : List (Program σ ε α) :=
  (tasks.filter fun x => x.1 = i).map Prod.snd

/-- The results of the tasks of one part. -/
def resultsOf (i : ι) (tasks : List (ι × Program σ ε α)) (as : List α) : List α :=
  ((tasks.zip as).filter fun x => x.1.1 = i).map Prod.snd

theorem within_ofPart (within : ∀ x ∈ tasks, Within (P x.1) x.2) (i : ι) :
    ∀ p ∈ ofPart i tasks, Within (P i) p := by
  intro p mem
  obtain ⟨⟨j, q⟩, listed, rfl⟩ := List.mem_map.mp mem
  obtain ⟨among, own⟩ := List.mem_filter.mp listed
  obtain rfl : j = i := by simpa using own
  exact within _ among

/-- Of tasks that work within parts apart from each other, those of one part return what they
return without the others, and leave their part as it is left with them. -/
theorem runAll_ofPart (apart : ∀ i j, i ≠ j → (P i).Apart (P j))
    (within : ∀ x ∈ tasks, Within (P x.1) x.2)
    (ran : (runAll (tasks.map Prod.snd)).outcome s = Outcome.returned (s', as)) (i : ι) :
    ∃ t, (runAll (ofPart i tasks)).outcome s = Outcome.returned (t, resultsOf i tasks as) ∧
      (P i).get t = (P i).get s' := by
  induction tasks generalizing s as with
  | nil =>
    cases ran
    exact ⟨_, rfl, rfl⟩
  | cons x tasks ih =>
    obtain ⟨j, p⟩ := x
    have own := within (j, p) List.mem_cons_self
    have others : ∀ x ∈ tasks, Within (P x.1) x.2 :=
      fun x mem => within x (List.mem_cons_of_mem _ mem)
    obtain ⟨s₁, a, as', first, rest, rfl⟩ := runAll_cons.mp ran
    obtain ⟨t, ran', same⟩ := ih others rest
    by_cases here : j = i
    · subst here
      refine ⟨t, ?_, same⟩
      simp only [ofPart, resultsOf, List.zip_cons_cons, List.filter_cons, decide_true, if_true,
        List.map_cons]
      exact runAll_cons.mpr ⟨s₁, a, _, first, ran', rfl⟩
    · -- the first task is of another part: the tasks of this one do not see what it has done
      have unseen : (P i).get s₁ = (P i).get s :=
        own.outcome_get_eq (apart i j (Ne.symm here)) first
      obtain ⟨t', ran'', same'⟩ := runAll_same (within_ofPart others i) unseen ran'
      refine ⟨t', ?_, same'.trans same⟩
      simpa only [ofPart, resultsOf, List.zip_cons_cons, List.filter_cons, here, decide_false,
        Bool.false_eq_true, if_false] using ran''

/-- Tasks that work within parts apart from each other return if those of each part return without
the others. -/
theorem runAll_returns (apart : ∀ i j, i ≠ j → (P i).Apart (P j))
    (within : ∀ x ∈ tasks, Within (P x.1) x.2)
    (parts : ∀ i, ∃ t as, (runAll (ofPart i tasks)).outcome s = Outcome.returned (t, as)) :
    ∃ s' as, (runAll (tasks.map Prod.snd)).outcome s = Outcome.returned (s', as) := by
  induction tasks generalizing s with
  | nil => exact ⟨s, [], rfl⟩
  | cons x tasks ih =>
    obtain ⟨j, p⟩ := x
    have own := within (j, p) List.mem_cons_self
    have others : ∀ x ∈ tasks, Within (P x.1) x.2 :=
      fun x mem => within x (List.mem_cons_of_mem _ mem)
    have head : ofPart j ((j, p) :: tasks) = p :: ofPart j tasks := by simp [ofPart]
    obtain ⟨t, as, ran⟩ := parts j
    rw [head] at ran
    obtain ⟨s₁, a, as', first, rest, rfl⟩ := runAll_cons.mp ran
    have later : ∀ i, ∃ t as, (runAll (ofPart i tasks)).outcome s₁ = Outcome.returned (t, as) := by
      intro i
      by_cases here : j = i
      · subst here
        exact ⟨t, as', rest⟩
      · obtain ⟨t, as, ran⟩ := parts i
        have skipped : ofPart i ((j, p) :: tasks) = ofPart i tasks := by simp [ofPart, here]
        rw [skipped] at ran
        have unseen : (P i).get s₁ = (P i).get s :=
          own.outcome_get_eq (apart i j (Ne.symm here)) first
        obtain ⟨t', ran', -⟩ := runAll_same (within_ofPart others i) unseen.symm ran
        exact ⟨t', as, ran'⟩
    obtain ⟨s', as'', all⟩ := ih others later
    exact ⟨s', a :: as'', runAll_cons.mpr ⟨s₁, a, as'', first, all, rfl⟩⟩

end

end Program

end FastGraph
