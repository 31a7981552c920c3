import FastGraph.Misc.Program

/-!
# Programs that do alike

Two calls end alike if neither returns, or both throw the same exception, or both return and
their results are related; two programs do alike if this holds from every pair of related states,
with the same result. The rules follow the ways programs are put together, so that two
implementations of the operations of a program may be exchanged for each other.
-/

namespace FastGraph

variable {ε α β γ δ σ τ : Type}

/-- The two calls end in the same way and their results are related. -/
inductive Outcome.Alike (R : α → β → Prop) : Outcome ε α → Outcome ε β → Prop where
  | stuck : Alike R Outcome.stuck Outcome.stuck
  | threw (e : ε) : Alike R (Outcome.threw e) (Outcome.threw e)
  | returned {a : α} {b : β} (related : R a b) : Alike R (Outcome.returned a) (Outcome.returned b)

namespace Outcome.Alike

variable {R : α → β → Prop} {Q : γ → δ → Prop} {x : Outcome ε α} {y : Outcome ε β}

theorem refl (x : Outcome ε α) : Alike Eq x x := by
  rcases Outcome.cases x with same | ⟨e, same⟩ | ⟨a, same⟩ <;> rw [same]
  · exact stuck
  · exact threw e
  · exact returned rfl

theorem mono {S : α → β → Prop} (alike : Alike R x y) (implies : ∀ a b, R a b → S a b) :
    Alike S x y := by
  cases alike with
  | stuck => exact stuck
  | threw e => exact threw e
  | returned related => exact returned (implies _ _ related)

theorem bind {f : α → Outcome ε γ} {g : β → Outcome ε δ} (first : Alike R x y)
    (rest : ∀ a b, R a b → Alike Q (f a) (g b)) : Alike Q (x >>= f) (y >>= g) := by
  cases first with
  | stuck => exact stuck
  | threw e => exact threw e
  | returned related => exact rest _ _ related

/-- What the one call returns, the other returns in a related form. -/
theorem of_returned {b : β} (alike : Alike R x y) (same : y = Outcome.returned b) :
    ∃ a, x = Outcome.returned a ∧ R a b := by
  cases alike with
  | stuck => cases same
  | threw e => cases same
  | returned related =>
    cases same
    exact ⟨_, rfl, related⟩

end Outcome.Alike

namespace Program

variable {R : σ → τ → Prop} {S : α → β → Prop}

/-- From related states the two programs end with the same result in related states. -/
def Sim (R : σ → τ → Prop) (p : Program σ ε α) (q : Program τ ε α) : Prop :=
  ∀ s t, R s t → Option.Rel (fun x y => x.1 = y.1 ∧ R x.2 y.2) (p.run s) (q.run t)

theorem Sim.pure (a : α) :
    Sim R (Pure.pure a : Program σ ε α) (Pure.pure a : Program τ ε α) :=
  fun _ _ related => .some ⟨rfl, related⟩

theorem Sim.bind {p : Program σ ε β} {q : Program τ ε β} {f : β → Program σ ε α}
    {g : β → Program τ ε α} (first : Sim R p q) (rest : ∀ b, Sim R (f b) (g b)) :
    Sim R (p >>= f) (q >>= g) := by
  intro s t related
  have ends := first s t related
  rw [run_bind, run_bind]
  generalize p.run s = x at ends
  generalize q.run t = y at ends
  cases ends with
  | none => exact .none
  | @some x y same =>
    obtain ⟨r, s'⟩ := x
    obtain ⟨r', t'⟩ := y
    obtain ⟨rfl, related'⟩ := same
    cases r with
    | ok b => exact rest b s' t' related'
    | error e => exact .some ⟨rfl, related'⟩

theorem Sim.tryCatch {p : Program σ ε α} {q : Program τ ε α} {h : ε → Program σ ε α}
    {k : ε → Program τ ε α} (body : Sim R p q) (handler : ∀ e, Sim R (h e) (k e)) :
    Sim R (tryCatch p h) (tryCatch q k) := by
  intro s t related
  have ends := body s t related
  rw [run_tryCatch, run_tryCatch]
  generalize p.run s = x at ends
  generalize q.run t = y at ends
  cases ends with
  | none => exact .none
  | @some x y same =>
    obtain ⟨r, s'⟩ := x
    obtain ⟨r', t'⟩ := y
    obtain ⟨rfl, related'⟩ := same
    cases r with
    | ok a => exact .some ⟨rfl, related'⟩
    | error e => exact handler e s' t' related'

theorem run_call_stuck {f : σ → Outcome ε (σ × α)} {s : σ} (same : f s = Outcome.stuck) :
    (call f).run s = none := by
  unfold call ofRun run
  simp only [ExceptT.run, StateT.run, ExceptT.mk, StateT.mk, same]
  rfl

theorem run_call_threw {f : σ → Outcome ε (σ × α)} {s : σ} {e : ε}
    (same : f s = Outcome.threw e) : (call f).run s = some (.error e, s) := by
  unfold call ofRun run
  simp only [ExceptT.run, StateT.run, ExceptT.mk, StateT.mk, same]
  rfl

theorem run_call_returned {f : σ → Outcome ε (σ × α)} {s s' : σ} {a : α}
    (same : f s = Outcome.returned (s', a)) : (call f).run s = some (.ok a, s') := by
  unfold call ofRun run
  simp only [ExceptT.run, StateT.run, ExceptT.mk, StateT.mk, same]
  rfl

theorem Sim.outcome {p : Program σ ε α} {q : Program τ ε α} (sim : Sim R p q) {s : σ} {t : τ}
    (related : R s t) :
    Outcome.Alike (fun x y => R x.1 y.1 ∧ x.2 = y.2) (p.outcome s) (q.outcome t) := by
  have ends := sim s t related
  unfold Program.outcome
  generalize p.run s = x at ends
  generalize q.run t = y at ends
  cases ends with
  | none => exact .stuck
  | @some x y same =>
    obtain ⟨r, s'⟩ := x
    obtain ⟨r', t'⟩ := y
    obtain ⟨rfl, related'⟩ := same
    cases r with
    | ok a => exact .returned ⟨related', rfl⟩
    | error e => exact .threw e

end Program

end FastGraph
