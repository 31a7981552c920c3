import FastGraph.Misc.Outcome

/-!
# Programs with state and exceptions

A program runs in a state and returns, throws or does not end; what it did to the state before
it threw stays done. `wp d p Q` holds of a state if `Q` holds of the result and the state that
`p` leaves, and `d` holds if `p` does not end: `d` is `True` for partial correctness and
`False` for total correctness. Since programs are deterministic the rules are equations.
-/

namespace FastGraph

/-- A program on a state `σ` that may throw an `ε`. -/
abbrev Program (σ ε α : Type) := ExceptT ε (StateT σ Option) α

namespace Program
variable {σ τ ε α β : Type}

/-- How a program ends. -/
def run (p : Program σ ε α) (s : σ) : Option (Except ε α × σ) := StateT.run (ExceptT.run p) s

/-- The program that does what `f` says. -/
def ofRun (f : σ → Option (Except ε α × σ)) : Program σ ε α := ExceptT.mk (StateT.mk f)

/-- A call with the state as an argument. If it throws it has not changed the state. -/
def call (f : σ → Outcome ε (σ × α)) : Program σ ε α := ofRun fun s =>
  match f s with
  | none => none
  | some (.error e) => some (.error e, s)
  | some (.ok (s', a)) => some (.ok a, s')

/-- A call that does not change the state. -/
def ask (f : σ → Outcome ε α) : Program σ ε α := call fun s => do
  let a ← f s
  pure (s, a)

/-- A change of the state. -/
def change (f : σ → σ) : Program σ ε Unit := call fun s => pure (f s, ())

/-- The outcome of a program for a caller that does not see the state after an exception. -/
def outcome (p : Program σ ε α) (s : σ) : Outcome ε (σ × α) :=
  match p.run s with
  | none => Outcome.stuck
  | some (.error e, _) => Outcome.threw e
  | some (.ok a, s') => Outcome.returned (s', a)

/-- `Q` holds of how the program ends, and `d` if it does not. -/
def wp (d : Prop) (p : Program σ ε α) (Q : Except ε α → σ → Prop) (s : σ) : Prop :=
  match p.run s with
  | none => d
  | some (r, s') => Q r s'

theorem run_bind (p : Program σ ε β) (f : β → Program σ ε α) (s : σ) :
    (p >>= f).run s = match p.run s with
      | none => none
      | some (.ok b, s') => (f b).run s'
      | some (.error e, s') => some (.error e, s') := by
  change (p.run s).bind _ = _
  match p.run s with
  | none => rfl
  | some (.ok b, s') => rfl
  | some (.error e, s') => rfl

theorem run_tryCatch (p : Program σ ε α) (h : ε → Program σ ε α) (s : σ) :
    (tryCatch p h).run s = match p.run s with
      | none => none
      | some (.ok a, s') => some (.ok a, s')
      | some (.error e, s') => (h e).run s' := by
  change (p.run s).bind _ = _
  match p.run s with
  | none => rfl
  | some (.ok a, s') => rfl
  | some (.error e, s') => rfl

/-- A call comes out as its function does. -/
theorem outcome_call (f : σ → Outcome ε (σ × α)) (s : σ) : (call f).outcome s = f s := by
  unfold outcome
  change (match (match f s with
    | none => none
    | some (.error e) => some (.error e, s)
    | some (.ok (s', a)) => some (.ok a, s') : Option (Except ε α × σ)) with
    | none => Outcome.stuck
    | some (.error e, _) => Outcome.threw e
    | some (.ok a, s') => Outcome.returned (s', a)) = _
  match f s with
  | none => rfl
  | some (.error e) => rfl
  | some (.ok (s', a)) => rfl

theorem outcome_ask (f : σ → Outcome ε α) (s : σ) :
    (ask f).outcome s = f s >>= fun a => Outcome.returned (s, a) := outcome_call _ s

/-- A program after one that returns. -/
theorem outcome_bind {p : Program σ ε β} {f : β → Program σ ε α} {s s' : σ} {b : β}
    (returned : p.outcome s = Outcome.returned (s', b)) :
    (p >>= f).outcome s = (f b).outcome s' := by
  unfold outcome at returned ⊢
  rw [run_bind]
  split at returned
  · cases returned
  · cases returned
  · rename_i ran
    cases returned
    rw [ran]

/-- What comes before has returned. -/
theorem outcome_bind_returned {p : Program σ ε β} {f : β → Program σ ε α} {s s'' : σ} {a : α}
    (returned : (p >>= f).outcome s = Outcome.returned (s'', a)) :
    ∃ s' b, p.outcome s = Outcome.returned (s', b) ∧
      (f b).outcome s' = Outcome.returned (s'', a) := by
  unfold outcome at returned ⊢
  rw [run_bind] at returned
  match ran : p.run s with
  | none =>
    rw [ran] at returned
    cases returned
  | some (.error e, s') =>
    rw [ran] at returned
    cases returned
  | some (.ok b, s') =>
    rw [ran] at returned
    exact ⟨s', b, rfl, returned⟩

/-- A program that returns has nothing for the handler. -/
theorem outcome_tryCatch {p : Program σ ε α} {h : ε → Program σ ε α} {s s' : σ} {a : α}
    (returned : p.outcome s = Outcome.returned (s', a)) :
    (tryCatch p h).outcome s = Outcome.returned (s', a) := by
  unfold outcome at returned ⊢
  rw [run_tryCatch]
  split at returned
  · cases returned
  · cases returned
  · rename_i ran
    rw [ran]
    exact returned

variable {d : Prop} {p : Program σ ε α} {Q R : Except ε α → σ → Prop} {s : σ}

@[simp] theorem wp_pure (a : α) : wp d (pure a : Program σ ε α) Q s = Q (.ok a) s := rfl

@[simp] theorem wp_throw (e : ε) : wp d (throw e : Program σ ε α) Q s = Q (.error e) s := rfl

theorem wp_bind (f : α → Program σ ε β) (Q : Except ε β → σ → Prop) :
    wp d (p >>= f) Q s = wp d p (fun r s' =>
      match r with
      | .ok a => wp d (f a) Q s'
      | .error e => Q (.error e) s') s := by
  change wp d (p >>= f) Q s = match p.run s with
    | none => d
    | some (r, s') => _
  unfold wp
  rw [run_bind]
  match p.run s with
  | none => rfl
  | some (.ok a, s') => rfl
  | some (.error e, s') => rfl

theorem wp_tryCatch (h : ε → Program σ ε α) :
    wp d (tryCatch p h) Q s = wp d p (fun r s' =>
      match r with
      | .ok a => Q (.ok a) s'
      | .error e => wp d (h e) Q s') s := by
  unfold wp
  rw [run_tryCatch]
  match p.run s with
  | none => rfl
  | some (.ok a, s') => rfl
  | some (.error e, s') => rfl

@[simp] theorem wp_change (f : σ → σ) (Q : Except ε Unit → σ → Prop) :
    wp d (change f) Q s = Q (.ok ()) (f s) := rfl

theorem wp_mono (p : Program σ ε α) (implies : ∀ r s', Q r s' → R r s') (holds : wp d p Q s) :
    wp d p R s := by
  unfold wp at holds ⊢
  split at holds
  · exact holds
  · exact implies _ _ holds

/-- A postcondition that always holds. -/
theorem wp_of_forall (p : Program σ ε α) (all : ∀ r s', Q r s') : wp True p Q s := by
  unfold wp
  split
  · trivial
  · exact all _ _

/-! ### What a program returns -/

/-- Every value that the program returns satisfies `P`. -/
def Yields (p : Program σ ε α) (P : α → Prop) : Prop :=
  ∀ s, wp True p (fun r _ => ∀ a, r = .ok a → P a) s

variable {P : α → Prop}

theorem Yields.pure {a : α} (holds : P a) : Yields (pure a : Program σ ε α) P := by
  intro s a' same
  cases same
  exact holds

theorem Yields.bind {p : Program σ ε β} {f : β → Program σ ε α} (rest : ∀ b, Yields (f b) P) :
    Yields (p >>= f) P := by
  intro s
  rw [wp_bind]
  apply wp_of_forall
  intro r s'
  cases r with
  | ok b => exact rest b s'
  | error e =>
    intro a same
    cases same

theorem Yields.tryCatch {p : Program σ ε α} {h : ε → Program σ ε α} (body : Yields p P)
    (handler : ∀ e, Yields (h e) P) : Yields (tryCatch p h) P := by
  intro s
  rw [wp_tryCatch]
  refine wp_mono p ?_ (body s)
  intro r s' holds
  cases r with
  | ok a => exact holds
  | error e => exact handler e s'

theorem Yields.outcome {p : Program σ ε α} (yields : Yields p P) {s s' : σ} {a : α}
    (returned : p.outcome s = Outcome.returned (s', a)) : P a := by
  have holds := yields s
  unfold wp at holds
  unfold Program.outcome at returned
  split at returned
  · cases returned
  · cases returned
  · rename_i ends
    cases returned
    rw [ends] at holds
    exact holds _ rfl

/-! ### What a program does to the state -/

/-- The states before and after the program are related by `R`, however it ends. -/
def Moves (p : Program σ ε α) (R : σ → σ → Prop) : Prop := ∀ s, wp True p (fun _ s' => R s s') s

/-- The states before and after the program are related by `R` if it throws. -/
def Fails (p : Program σ ε α) (R : σ → σ → Prop) : Prop :=
  ∀ s, wp True p (fun r s' => ∀ e, r = .error e → R s s') s

variable {S : σ → σ → Prop}

theorem Moves.fails {p : Program σ ε α} (moves : Moves p S) : Fails p S :=
  fun s => wp_mono p (fun _ _ related _ _ => related) (moves s)

theorem Moves.pure [Std.Refl S] (a : α) : Moves (pure a : Program σ ε α) S :=
  fun s => Std.Refl.refl (r := S) s

theorem Moves.bind [IsTrans σ S] {p : Program σ ε β} {f : β → Program σ ε α} (first : Moves p S)
    (rest : ∀ b, Moves (f b) S) : Moves (p >>= f) S := by
  intro s
  rw [wp_bind]
  refine wp_mono p ?_ (first s)
  intro r s' related
  cases r with
  | ok b => exact wp_mono (f b) (fun _ s'' later => IsTrans.trans s s' s'' related later) (rest b s')
  | error e => exact related

theorem Fails.pure (a : α) : Fails (pure a : Program σ ε α) S := by
  intro s e same
  cases same

/-- A call that relates the states around it if it returns. -/
theorem moves_call [Std.Refl S] {f : σ → Outcome ε (σ × α)}
    (related : ∀ s s' a, f s = Outcome.returned (s', a) → S s s') : Moves (call f) S := by
  intro s
  change (match (match f s with
    | none => none
    | some (.error e) => some (.error e, s)
    | some (.ok (s', a)) => some (.ok a, s') : Option (Except ε α × σ)) with
    | none => True
    | some (_, s') => S s s')
  match ends : f s with
  | none => trivial
  | some (.error e) => exact Std.Refl.refl s
  | some (.ok (s', a)) => exact related s s' a ends

theorem moves_ask [Std.Refl S] (f : σ → Outcome ε α) : Moves (ask f) S := by
  apply moves_call
  intro s s' a returned
  obtain ⟨b, -, same⟩ := Outcome.bind_eq_returned.mp returned
  cases same
  exact Std.Refl.refl s

theorem Fails.bind [IsTrans σ S] {p : Program σ ε β} {f : β → Program σ ε α} (first : Moves p S)
    (rest : ∀ b, Fails (f b) S) : Fails (p >>= f) S := by
  intro s
  rw [wp_bind]
  refine wp_mono p ?_ (first s)
  intro r s' related
  cases r with
  | ok b =>
    refine wp_mono (f b) ?_ (rest b s')
    intro r' s'' later e thrown
    exact IsTrans.trans s s' s'' related (later e thrown)
  | error e =>
    intro e' _
    exact related

/-- A program whose last part does not throw. -/
theorem Fails.last {p : Program σ ε β} {f : β → α} (first : Fails p S) :
    Fails (p >>= fun b => Pure.pure (f b)) S := by
  intro s
  rw [wp_bind]
  refine wp_mono p ?_ (first s)
  intro r s' failed
  cases r with
  | ok b =>
    intro e same
    cases same
  | error e =>
    intro _ _
    exact failed e rfl

/-- A call that throws has not changed the state. -/
theorem fails_call [Std.Refl S] (f : σ → Outcome ε (σ × α)) : Fails (call f) S := by
  intro s
  change (match (match f s with
    | none => none
    | some (.error e) => some (.error e, s)
    | some (.ok (s', a)) => some (.ok a, s') : Option (Except ε α × σ)) with
    | none => True
    | some (r, s') => ∀ e, r = .error e → S s s')
  match f s with
  | none => trivial
  | some (.error e) =>
    intro _ _
    exact Std.Refl.refl s
  | some (.ok (s', a)) =>
    intro e same
    cases same

/-- A program that catches and then returns has run to its end, or `S` relates the states. -/
theorem Fails.caught {p : Program σ ε α} (fails : Fails p S) {h : ε → α} {s s' : σ} {a : α}
    (returned : (tryCatch p fun e => Pure.pure (h e)).outcome s = Outcome.returned (s', a)) :
    p.outcome s = Outcome.returned (s', a) ∨ S s s' := by
  have failed := fails s
  unfold wp at failed
  unfold outcome at returned ⊢
  rw [run_tryCatch] at returned
  match ends : p.run s with
  | none =>
    rw [ends] at returned
    cases returned
  | some (.ok a', s'') =>
    rw [ends] at returned
    exact Or.inl returned
  | some (.error e, s'') =>
    rw [ends] at returned failed
    cases returned
    exact Or.inr (failed e rfl)

/-! ### Invariants -/

variable {stops throws : Prop} {I : σ → Prop}

/-- From a state in `I` the program ends in a state in `I`, unless `stops`, and it does not throw,
unless `throws`. -/
def Keeps (stops throws : Prop) (I : σ → Prop) (p : Program σ ε α) : Prop :=
  ∀ s, I s → wp stops p (fun r s' => I s' ∧ ∀ e, r = .error e → throws) s

theorem Keeps.pure (a : α) : Keeps stops throws I (Pure.pure a : Program σ ε α) := by
  intro s inside
  refine ⟨inside, ?_⟩
  intro e same
  cases same

theorem Keeps.bind {p : Program σ ε β} {f : β → Program σ ε α} (first : Keeps stops throws I p)
    (rest : ∀ b, Keeps stops throws I (f b)) : Keeps stops throws I (p >>= f) := by
  intro s inside
  rw [wp_bind]
  refine wp_mono p ?_ (first s inside)
  intro r s' ⟨inside', thrown⟩
  cases r with
  | ok b => exact rest b s' inside'
  | error e => exact ⟨inside', fun _ _ => thrown e rfl⟩

theorem Keeps.mono {stops' throws' : Prop} {p : Program σ ε α} (keeps : Keeps stops throws I p)
    (implies : stops → stops') (implies' : throws → throws') : Keeps stops' throws' I p := by
  intro s inside
  have holds := keeps s inside
  unfold wp at holds ⊢
  split
  · rename_i ends
    rw [ends] at holds
    exact implies holds
  · rename_i ends
    rw [ends] at holds
    exact ⟨holds.1, fun e same => implies' (holds.2 e same)⟩

theorem Keeps.tryCatch {throws' : Prop} {p : Program σ ε α} {h : ε → Program σ ε α}
    (body : Keeps stops throws' I p) (handler : ∀ e, Keeps stops throws I (h e)) :
    Keeps stops throws I (tryCatch p h) := by
  intro s inside
  rw [wp_tryCatch]
  refine wp_mono p ?_ (body s inside)
  intro r s' ⟨inside', _⟩
  cases r with
  | ok a =>
    refine ⟨inside', ?_⟩
    intro e same
    cases same
  | error e => exact handler e s' inside'

theorem keeps_call {f : σ → Outcome ε (σ × α)} (ends : ∀ s, I s → f s = Outcome.stuck → stops)
    (thrown : ∀ s e, I s → f s = Outcome.threw e → throws)
    (kept : ∀ s s' a, I s → f s = Outcome.returned (s', a) → I s') :
    Keeps stops throws I (call f) := by
  intro s inside
  change (match (match f s with
    | none => none
    | some (.error e) => some (.error e, s)
    | some (.ok (s', a)) => some (.ok a, s') : Option (Except ε α × σ)) with
    | none => stops
    | some (r, s') => I s' ∧ ∀ e, r = .error e → throws)
  match result : f s with
  | none => exact ends s inside result
  | some (.error e) => exact ⟨inside, fun _ _ => thrown s e inside result⟩
  | some (.ok (s', a)) =>
    refine ⟨kept s s' a inside result, ?_⟩
    intro e same
    cases same

theorem keeps_ask {f : σ → Outcome ε α} (ends : ∀ s, I s → f s = Outcome.stuck → stops)
    (thrown : ∀ s e, I s → f s = Outcome.threw e → throws) : Keeps stops throws I (ask f) := by
  apply keeps_call
  · intro s inside stuck
    exact ends s inside (Outcome.bind_eq_stuck (fun _ => Outcome.returned_ne_stuck) stuck)
  · intro s e inside threw
    rcases Outcome.bind_eq_threw.mp threw with first | ⟨a, -, last⟩
    · exact thrown s e inside first
    · exact absurd last Outcome.returned_ne_threw
  · intro s s' a inside returned
    obtain ⟨b, -, same⟩ := Outcome.bind_eq_returned.mp returned
    cases same
    exact inside

theorem Keeps.outcome {p : Program σ ε α} (keeps : Keeps stops throws I p) {s s' : σ} {a : α}
    (inside : I s) (returned : p.outcome s = Outcome.returned (s', a)) : I s' := by
  have holds := keeps s inside
  unfold wp at holds
  unfold Program.outcome at returned
  split at returned
  · cases returned
  · cases returned
  · rename_i ends
    cases returned
    rw [ends] at holds
    exact holds.1

/-- A program that neither goes on for ever nor throws returns. -/
theorem Keeps.returns {p : Program σ ε α} (keeps : Keeps False False I p) {s : σ} (inside : I s) :
    ∃ s' a, p.outcome s = Outcome.returned (s', a) := by
  have holds := keeps s inside
  unfold wp at holds
  unfold Program.outcome
  match ends : p.run s with
  | none =>
    rw [ends] at holds
    exact holds.elim
  | some (.error e, s') =>
    rw [ends] at holds
    exact (holds.2 e rfl).elim
  | some (.ok a, s') => exact ⟨s', a, rfl⟩

/-! ### Programs that read -/

theorem run_ask (f : σ → Outcome ε α) (s : σ) : (ask f).run s = (f s).run.map (·, s) := by
  change (match ((f s >>= fun a => Outcome.returned (s, a) : Outcome ε (σ × α)) :
      Option (Except ε (σ × α))) with
    | none => none
    | some (.error e) => some (.error e, s)
    | some (.ok (t, a)) => some (.ok a, t) : Option (Except ε α × σ)) = _
  rcases Outcome.cases (f s) with same | ⟨e, same⟩ | ⟨a, same⟩ <;> rw [same] <;> rfl

/-- The program ends in the same way in two states and changes neither. -/
def Same (p : Program σ ε α) (s s' : σ) : Prop :=
  ∃ r : Option (Except ε α), p.run s = r.map (·, s) ∧ p.run s' = r.map (·, s')

variable {s' : σ}

theorem Same.pure (a : α) : Same (Pure.pure a : Program σ ε α) s s' := ⟨some (.ok a), rfl, rfl⟩

theorem Same.bind {p : Program σ ε β} {f : β → Program σ ε α} (first : Same p s s')
    (rest : ∀ b, Same (f b) s s') : Same (p >>= f) s s' := by
  obtain ⟨r, ran, ran'⟩ := first
  simp only [Same, run_bind, ran, ran']
  cases r with
  | none => exact ⟨none, rfl, rfl⟩
  | some r =>
    cases r with
    | ok b => exact rest b
    | error e => exact ⟨some (.error e), rfl, rfl⟩

theorem Same.tryCatch {p : Program σ ε α} {h : ε → Program σ ε α} (body : Same p s s')
    (handler : ∀ e, Same (h e) s s') : Same (tryCatch p h) s s' := by
  obtain ⟨r, ran, ran'⟩ := body
  simp only [Same, run_tryCatch, ran, ran']
  cases r with
  | none => exact ⟨none, rfl, rfl⟩
  | some r =>
    cases r with
    | ok a => exact ⟨some (.ok a), rfl, rfl⟩
    | error e => exact handler e

/-- A question that is answered alike. -/
theorem same_ask {f : σ → Outcome ε α} (alike : f s = f s') : Same (ask f) s s' :=
  ⟨(f s).run, run_ask f s, by rw [run_ask, alike]⟩

theorem Same.outcome {p : Program σ ε α} (same : Same p s s') :
    Prod.snd <$> p.outcome s = Prod.snd <$> p.outcome s' := by
  obtain ⟨r, ran, ran'⟩ := same
  simp only [Program.outcome, ran, ran']
  cases r with
  | none => rfl
  | some r => cases r <;> rfl

/-! ### Programs that end -/

/-- The program returns or throws. -/
def Ends (p : Program σ ε α) (s : σ) : Prop := p.run s ≠ none

theorem ends_pure (a : α) : Ends (pure a : Program σ ε α) s := by
  intro never
  cases never

theorem ends_bind {p : Program σ ε β} {f : β → Program σ ε α} :
    Ends (p >>= f) s ↔ Ends p s ∧ ∀ s' b, p.run s = some (.ok b, s') → Ends (f b) s' := by
  unfold Ends
  rw [run_bind]
  match p.run s with
  | none => simp
  | some (.ok b, s') => simp
  | some (.error e, s') => simp

theorem ends_call {f : σ → Outcome ε (σ × α)} : Ends (call f) s ↔ f s ≠ Outcome.stuck := by
  change (match f s with
    | none => none
    | some (.error e) => some (.error e, s)
    | some (.ok (s', a)) => some (.ok a, s') : Option (Except ε α × σ)) ≠ none ↔ _
  rcases Outcome.cases (f s) with same | ⟨e, same⟩ | ⟨⟨s', a⟩, same⟩
  · rw [same]
    exact iff_of_false (fun ends => ends rfl) (fun ends => ends rfl)
  · rw [same]
    exact iff_of_true (fun never => by cases never) (fun never => by cases never)
  · rw [same]
    exact iff_of_true (fun never => by cases never) (fun never => by cases never)

theorem ends_ask {f : σ → Outcome ε α} : Ends (ask f) s ↔ f s ≠ Outcome.stuck := by
  rw [ask, ends_call]
  refine not_congr ⟨Outcome.bind_eq_stuck fun _ => Outcome.returned_ne_stuck, ?_⟩
  intro stuck
  rw [stuck]
  rfl

/-- A program whose exceptions are all caught returns if it ends. -/
theorem ends_iff_caught {p : Program σ ε α} {h : ε → α} :
    Ends p s ↔ ∃ s' a, (tryCatch p fun e => pure (h e)).outcome s = Outcome.returned (s', a) := by
  unfold Ends Program.outcome
  rw [run_tryCatch]
  match p.run s with
  | none =>
    refine iff_of_false (fun ends => ends rfl) ?_
    intro ⟨s', a, same⟩
    cases same
  | some (.ok a, s') => exact iff_of_true (fun never => by cases never) ⟨s', a, rfl⟩
  | some (.error e, s') => exact iff_of_true (fun never => by cases never) ⟨s', h e, rfl⟩

end Program

end FastGraph
