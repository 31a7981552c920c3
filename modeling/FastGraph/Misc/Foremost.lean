import FastGraph.Misc.ShortestPaths
import Mathlib.Data.Prod.Lex
import Mathlib.Data.Finset.Max

/-!
# The first label taken of a target

A search takes a least label each time, of equal ones that of the least vertex, and stops when
it takes one of the target. Where weights can be negative this need not be the least label of the
target. The walk that leads to it is foremost: behind any common beginning, each of its labels is
at most some label of any other walk to the target. All foremost walks have one weight, so which
label is taken is a matter of the graph.
-/

namespace FastGraph.ShortestPaths
variable {V W : Type}

/-! ### Routes -/

section
variable [AddCommGroup W] {succ : V → List (V × W)} {s t v : V} {c : W} {e m : W × V}
  {l X Y A B : List (W × V)}

/-- The labels along a walk from `s`, the last one first. -/
inductive Route (succ : V → List (V × W)) (s : V) : List (W × V) → Prop where
  | start : Route succ s [(0, s)]
  | step {l : List (W × V)} {e : W × V} {x : V} {w : W} (route : Route succ s (e :: l))
      (arc : (x, w) ∈ succ e.2) : Route succ s ((e.1 + w, x) :: e :: l)

theorem Route.walk (route : Route succ s (e :: l)) : Walk succ s e.2 e.1 := by
  generalize same : e :: l = l' at route
  induction route generalizing e l with
  | start =>
    cases same
    exact .nil
  | step route arc ih =>
    cases same
    exact (ih rfl).snoc arc

/-- What is behind the last label of a longer route. -/
theorem Route.behind {e' : W × V} (route : Route succ s (e :: e' :: l)) :
    Route succ s (e' :: l) ∧ ∃ w, (e.2, w) ∈ succ e'.2 ∧ e.1 = e'.1 + w := by
  cases route with
  | step route arc => exact ⟨route, _, arc, rfl⟩

theorem Route.suffix (route : Route succ s (X ++ e :: l)) : Route succ s (e :: l) := by
  induction X with
  | nil => exact route
  | cons x X ih =>
    apply ih
    cases X with
    | nil => exact route.behind.1
    | cons y X => exact route.behind.1

/-- Two routes through one label can be exchanged behind it. -/
theorem Route.splice (one : Route succ s (X ++ m :: A)) (two : Route succ s (Y ++ m :: B)) :
    Route succ s (Y ++ m :: A) := by
  induction Y with
  | nil => exact one.suffix
  | cons y Y ih =>
    cases Y with
    | nil =>
      obtain ⟨_, w, arc, sum⟩ := two.behind
      have whole := (one.suffix).step arc
      rw [← sum] at whole
      exact whole
    | cons y' Y =>
      obtain ⟨before, w, arc, sum⟩ := two.behind
      have whole := (ih before).step arc
      rw [← sum] at whole
      exact whole

theorem Route.begins (route : Route succ s l) : ∃ X, l = X ++ [(0, s)] := by
  induction route with
  | start => exact ⟨[], rfl⟩
  | @step l e x w route arc ih =>
    obtain ⟨X, same⟩ := ih
    exact ⟨(e.1 + w, x) :: X, by rw [same]; rfl⟩

theorem Walk.route (walk : Walk succ s v c) : ∃ l, Route succ s ((c, v) :: l) := by
  induction walk with
  | nil => exact ⟨[], .start⟩
  | snoc walk arc ih =>
    obtain ⟨l, route⟩ := ih
    exact ⟨_, route.step arc⟩

/-- The route ends at `t`. -/
def EndsAt (t : V) (l : List (W × V)) : Prop := ∃ c l', l = (c, t) :: l'

section
variable [LinearOrder W] [LinearOrder V]

/-- Behind every beginning that `l` has in common with a route to `t`, each label of `l` is at
most some label of the route. -/
def Leading (succ : V → List (V × W)) (s t : V) (l : List (W × V)) : Prop :=
  ∀ X m A Y, l = X ++ m :: A → Route succ s (Y ++ m :: A) → EndsAt t (Y ++ m :: A) →
    ∀ x ∈ X, ∃ y ∈ Y, toLex x ≤ toLex y

/-- A route to `t` that keeps ahead of all others. -/
structure Foremost (succ : V → List (V × W)) (s t : V) (l : List (W × V)) : Prop where
  route : Route succ s l
  ends : EndsAt t l
  leading : Leading succ s t l

omit [AddCommGroup W] in
/-- A greatest label of a list. -/
theorem exists_greatest (nonempty : X ≠ []) : ∃ x ∈ X, ∀ y ∈ X, toLex y ≤ toLex x := by
  obtain ⟨x, mem, greatest⟩ := Finset.exists_max_image X.toFinset toLex
    (List.toFinset_nonempty_iff X |>.mpr nonempty)
  refine ⟨x, List.mem_toFinset.mp mem, ?_⟩
  intro y among
  exact greatest y (List.mem_toFinset.mpr among)

theorem Foremost.nil_of_nil (foremost : Foremost succ s t (m :: A))
    (other : Foremost succ s t (Y ++ m :: B)) : Y = [] := by
  rw [List.eq_nil_iff_forall_not_mem]
  intro y mem
  have ends : EndsAt t ([] ++ m :: B) := by
    obtain ⟨c, l', same⟩ := foremost.ends
    cases same
    exact ⟨c, B, rfl⟩
  obtain ⟨x, none, -⟩ := other.leading Y m B [] rfl other.route.suffix ends y mem
  cases none

omit [AddCommGroup W] [LinearOrder W] [LinearOrder V] in
theorem EndsAt.splice {A' : List (W × V)} (ends : EndsAt t (Y ++ m :: A)) :
    EndsAt t (Y ++ m :: A') := by
  obtain ⟨c, l', same⟩ := ends
  cases Y with
  | nil =>
    cases same
    exact ⟨c, A', rfl⟩
  | cons y Y =>
    cases same
    exact ⟨c, _, rfl⟩

/-- Two foremost routes through one label have equal weights. -/
theorem Foremost.head_eq (foremost : Foremost succ s t (X ++ m :: A))
    (other : Foremost succ s t (Y ++ m :: B)) :
    (X ++ m :: A).head? = (Y ++ m :: B).head? := by
  induction length : X.length using Nat.strongRecOn generalizing X Y m A B with
  | ind n ih =>
    by_cases empty : X = []
    · subst empty
      rw [foremost.nil_of_nil other]
      rfl
    · by_cases empty' : Y = []
      · subst empty'
        exact absurd (other.nil_of_nil foremost) empty
      · -- the greatest labels of both routes behind `m` are one label
        obtain ⟨x, mem, greatest⟩ := exists_greatest empty
        obtain ⟨y, mem', le⟩ := foremost.leading X m A Y rfl (foremost.route.splice other.route)
          other.ends.splice x mem
        obtain ⟨x', mem'', le'⟩ := other.leading Y m B X rfl (other.route.splice foremost.route)
          foremost.ends.splice y mem'
        have same : x = y := toLex.injective (le.antisymm (le'.trans (greatest x' mem'')))
        subst same
        obtain ⟨X₁, X₂, rfl⟩ := List.append_of_mem mem
        obtain ⟨Y₁, Y₂, rfl⟩ := List.append_of_mem mem'
        rw [List.append_assoc, List.cons_append] at foremost other ⊢
        rw [List.append_assoc, List.cons_append]
        refine ih X₁.length ?_ foremost other rfl
        rw [← length, List.length_append, List.length_cons]
        omega

/-- All foremost routes have one weight. -/
theorem Foremost.unique {c' : W} {l' : List (W × V)} (foremost : Foremost succ s t ((c, t) :: l))
    (other : Foremost succ s t ((c', t) :: l')) : c = c' := by
  obtain ⟨X, same⟩ := foremost.route.begins
  obtain ⟨Y, same'⟩ := other.route.begins
  rw [same] at foremost
  rw [same'] at other
  have heads := foremost.head_eq other
  rw [← same, ← same'] at heads
  cases heads
  rfl

omit [LinearOrder V] in
/-- Without negative weights the last label of a route is the greatest. -/
theorem Route.le_last [IsOrderedAddMonoid W] (nonneg : ∀ v, ∀ arc ∈ succ v, 0 ≤ arc.2)
    (route : Route succ s (e :: l)) : ∀ y ∈ e :: l, y.1 ≤ e.1 := by
  induction l generalizing e with
  | nil =>
    intro y mem
    rw [List.mem_singleton.mp mem]
  | cons e' l ih =>
    obtain ⟨before, w, arc, sum⟩ := route.behind
    intro y mem
    rcases List.mem_cons.mp mem with rfl | earlier
    · exact le_refl _
    · rw [sum]
      exact (ih before y earlier).trans (le_add_of_nonneg_right (nonneg _ _ arc))

/-- Without negative weights a foremost walk weighs least. -/
theorem Foremost.least [IsOrderedAddMonoid W] (nonneg : ∀ v, ∀ arc ∈ succ v, 0 ≤ arc.2)
    (foremost : Foremost succ s t ((c, t) :: l)) {c' : W} (walk : Walk succ s t c') : c ≤ c' := by
  obtain ⟨l', route⟩ := walk.route
  obtain ⟨X, same⟩ := foremost.route.begins
  obtain ⟨Y, same'⟩ := route.begins
  have ends : EndsAt t (Y ++ [(0, s)]) := ⟨c', l', same'.symm⟩
  cases X with
  | nil =>
    cases same
    exact walk.nonneg nonneg
  | cons x X =>
    obtain ⟨rfl, -⟩ := List.cons.inj same
    obtain ⟨y, mem, le⟩ := foremost.leading _ (0, s) [] Y same (same' ▸ route) ends (c, t)
      List.mem_cons_self
    have among : y ∈ (c', t) :: l' := by
      rw [same']
      exact List.mem_append_left _ mem
    exact (Prod.Lex.monotone_fst (toLex (c, t)) (toLex y) le).trans (route.le_last nonneg y among)

end

end

/-! ### Following up the arcs of a vertex -/

section
variable [DecidableEq V] [AddCommGroup W] [LinearOrder W] {succ : V → List (V × W)} {s t v : V}
  {c : W} {st : State V W} {e : W × V} {arcs : List (V × W)}

theorem improved_expand (c : W) (v : V) (st : State V W) (arcs : List (V × W)) :
    Improved st.dist (expand c v st arcs).dist := by
  induction arcs generalizing st with
  | nil => exact .refl _
  | cons arc arcs ih => exact (improved_improve c v st arc).trans (ih _)

theorem relaxed_expand (c : W) (v : V) (st : State V W) (arcs : List (V × W)) :
    Relaxed (expand c v st arcs).dist c arcs := by
  induction arcs generalizing st with
  | nil =>
    intro arc mem
    cases mem
  | cons arc arcs ih =>
    intro arc' mem
    rcases List.mem_cons.mp mem with rfl | later
    · obtain ⟨d, here, least⟩ : ∃ d, (improve c v st arc').dist arc'.1 = some d ∧
          d ≤ c + arc'.2 := by
        unfold improve
        split
        · exact ⟨_, Function.update_self .., le_refl _⟩
        · rename_i kept
          unfold Worse at kept
          push Not at kept
          exact kept
      obtain ⟨d', here', less⟩ := improved_expand c v (improve c v st arc') arcs _ d here
      exact ⟨d', here', less.trans least⟩
    · exact ih _ arc' later

/-- What is in the queue was there, or an arc has put it there. -/
theorem mem_expand (mem : e ∈ (expand c v st arcs).queue) :
    e ∈ st.queue ∨ ∃ arc ∈ arcs, e = (c + arc.2, arc.1) := by
  induction arcs generalizing st with
  | nil => exact Or.inl mem
  | cons arc arcs ih =>
    rcases ih mem with before | ⟨arc', later, same⟩
    · unfold improve at before
      split at before
      · rcases List.mem_cons.mp before with rfl | old
        · exact Or.inr ⟨arc, List.mem_cons_self, rfl⟩
        · exact Or.inl old
      · exact Or.inl before
    · exact Or.inr ⟨arc', List.mem_cons_of_mem _ later, same⟩

/-- The label of a vertex is still to be followed up. -/
def Waiting (st : State V W) (t : V) : Prop := ∀ d, st.dist t = some d → (d, t) ∈ st.queue

theorem Waiting.expand (waiting : Waiting st t) : Waiting (expand c v st arcs) t := by
  induction arcs generalizing st with
  | nil => exact waiting
  | cons arc arcs ih =>
    apply ih
    intro d here
    unfold improve at here ⊢
    split at here
    · rename_i worse
      rw [if_pos worse]
      change Function.update st.dist arc.1 (some (c + arc.2)) t = some d at here
      by_cases same : t = arc.1
      · rw [same, Function.update_self, Option.some_inj] at here
        rw [same, ← here]
        exact List.mem_cons_self
      · rw [Function.update_of_ne same] at here
        exact List.mem_cons_of_mem _ (waiting d here)
    · rename_i kept
      rw [if_neg kept]
      exact waiting d here

theorem Waiting.settle {rest : List (W × V)} (waiting : Waiting st t)
    (next : st.queue.Perm ((c, v) :: rest)) (other : v ≠ t) :
    Waiting (settle succ c v rest st) t := by
  have start : Waiting { st with queue := rest } t := by
    intro d here
    refine (List.mem_cons.mp (next.mem_iff.mp (waiting d here))).resolve_left ?_
    intro same
    exact other (Prod.ext_iff.mp same).2.symm
  unfold ShortestPaths.settle
  split
  · exact start
  · exact start.expand

end

/-! ### The race -/

section
variable [AddCommGroup W] [LinearOrder W] [LinearOrder V] {succ : V → List (V × W)} {s t v : V}
  {c : W} {st : State V W} {e m : W × V} {l Y A : List (W × V)}

/-- How a label came into the queue: by a route whose earlier labels were followed up and have
kept ahead. -/
structure Story (succ : V → List (V × W)) (s t : V) (dist : V → Option W) (e : W × V)
    (l : List (W × V)) : Prop where
  route : Route succ s (e :: l)
  done : ∀ p ∈ l, p.2 ≠ t ∧ Relaxed dist p.1 (succ p.2)
  leading : Leading succ s t l

/-- A search that has always taken a least label, and none of `t`. -/
structure Racing (succ : V → List (V × W)) (s t : V) (st : State V W) : Prop where
  covered : Covered succ s st
  waiting : Waiting st t
  stories : ∀ e ∈ st.queue, ∃ l, Story succ s t st.dist e l

theorem racing_initial (succ : V → List (V × W)) (s t stop : V) :
    Racing succ s t (initial s stop : State V W) := by
  refine ⟨covered_initial succ s stop, ?_, ?_⟩
  · intro d here
    rcases ite_eq_iff.mp here with ⟨rfl, zero⟩ | ⟨-, unlabelled⟩
    · cases zero
      exact List.mem_singleton_self _
    · cases unlabelled
  · intro e mem
    rw [List.mem_singleton.mp mem]
    refine ⟨[], .start, fun p none => (by cases none), ?_⟩
    intro X m A Y empty
    cases X <;> cases empty

variable [IsOrderedAddMonoid W]

/-- A route whose labels behind `m` come before all that is in the queue has been followed. -/
theorem Route.followed (covered : Covered succ s st) (least : ∀ e' ∈ st.queue, toLex e ≤ toLex e')
    (relaxed : Relaxed st.dist m.1 (succ m.2)) {y : W × V}
    (route : Route succ s (y :: Y ++ m :: A)) (before : ∀ y' ∈ Y, toLex y' < toLex e) :
    ∃ d, st.dist y.2 = some d ∧ d ≤ y.1 := by
  induction Y generalizing y with
  | nil =>
    obtain ⟨-, w, arc, sum⟩ := route.behind
    rw [sum]
    exact relaxed _ arc
  | cons y' Y ih =>
    obtain ⟨rest, w, arc, sum⟩ := route.behind
    obtain ⟨d, here, less⟩ := ih rest fun y'' mem => before y'' (List.mem_cons_of_mem _ mem)
    have lower : toLex (d, y'.2) ≤ toLex y' :=
      Prod.Lex.toLex_mono (show (d, y'.2) ≤ y' from ⟨less, le_refl _⟩)
    have smaller := lower.trans_lt (before y' List.mem_cons_self)
    have relaxed' : Relaxed st.dist d (succ y'.2) := by
      refine (covered.labels y'.2 d here).resolve_left ?_
      intro queued
      exact absurd smaller (not_lt.mpr (least _ queued))
    obtain ⟨d', here', less'⟩ := relaxed' _ arc
    refine ⟨d', here', less'.trans ?_⟩
    rw [sum]
    exact add_le_add_left less w

/-- A label that is taken has kept ahead. -/
theorem Racing.leading (racing : Racing succ s t st) (least : ∀ e' ∈ st.queue, toLex e ≤ toLex e')
    (story : Story succ s t st.dist e l) : Leading succ s t (e :: l) := by
  intro X m A Y same route ends x mem
  cases X with
  | nil => cases mem
  | cons e' X =>
    obtain ⟨rfl, rfl⟩ := List.cons.inj same
    rcases List.mem_cons.mp mem with rfl | later
    · by_contra none
      push Not at none
      obtain ⟨other, relaxed⟩ := story.done m (by simp)
      cases Y with
      | nil =>
        obtain ⟨c, l', ends⟩ := ends
        cases ends
        exact other rfl
      | cons y Y =>
        obtain ⟨d, here, less⟩ := route.followed racing.covered least relaxed
          fun y' among => none y' (List.mem_cons_of_mem _ among)
        obtain ⟨c, l', ends⟩ := ends
        cases ends
        have first := least _ (racing.waiting d here)
        have second : toLex (d, t) ≤ toLex (c, t) :=
          Prod.Lex.toLex_mono (show (d, t) ≤ (c, t) from ⟨less, le_refl t⟩)
        exact absurd (none _ List.mem_cons_self) (not_lt.mpr (first.trans second))
    · exact story.leading X m A Y rfl route ends x later

/-- Following up a least label keeps the race, if it is not one of `t`. -/
theorem Racing.settle {rest : List (W × V)} (racing : Racing succ s t st)
    (next : st.queue.Perm ((c, v) :: rest)) (other : v ≠ t)
    (least : ∀ e' ∈ st.queue, toLex (c, v) ≤ toLex e') :
    Racing succ s t (settle succ c v rest st) := by
  refine ⟨racing.covered.settle next, racing.waiting.settle next other, ?_⟩
  have inQueue : ∀ e ∈ rest, e ∈ st.queue :=
    fun e mem => next.mem_iff.mpr (List.mem_cons_of_mem _ mem)
  unfold ShortestPaths.settle
  split
  · intro e mem
    exact racing.stories e (inQueue e mem)
  · have improved := improved_expand c v { st with queue := rest } (succ v)
    have relaxed := relaxed_expand c v { st with queue := rest } (succ v)
    intro e mem
    rcases mem_expand mem with old | ⟨arc, among, rfl⟩
    · obtain ⟨l, story⟩ := racing.stories e (inQueue e old)
      refine ⟨l, story.route, ?_, story.leading⟩
      intro p earlier
      exact ⟨(story.done p earlier).1, (story.done p earlier).2.improve improved⟩
    · obtain ⟨l, story⟩ := racing.stories (c, v) (next.mem_iff.mpr List.mem_cons_self)
      refine ⟨(c, v) :: l, story.route.step among, ?_, racing.leading least story⟩
      intro p earlier
      rcases List.mem_cons.mp earlier with rfl | before
      · exact ⟨other, relaxed⟩
      · exact ⟨(story.done p before).1, (story.done p before).2.improve improved⟩

/-- The first label of `t` that is taken ends a foremost route. -/
theorem Racing.foremost (racing : Racing succ s t st) (mem : (c, t) ∈ st.queue)
    (least : ∀ e' ∈ st.queue, toLex (c, t) ≤ toLex e') :
    ∃ l, Foremost succ s t ((c, t) :: l) := by
  obtain ⟨l, story⟩ := racing.stories (c, t) mem
  exact ⟨l, story.route, ⟨c, l, rfl⟩, racing.leading least story⟩

/-- If the queue is empty, no walk leads to `t`. -/
theorem Racing.unreachable (racing : Racing succ s t st) (ended : st.queue = []) :
    ¬ Walk succ s t c := by
  intro walk
  have relaxed : ∀ v d, st.dist v = some d → Relaxed st.dist d (succ v) := by
    intro v d label
    refine (racing.covered.labels v d label).resolve_left ?_
    rw [ended]
    exact List.not_mem_nil
  obtain ⟨ds, source⟩ := racing.covered.source
  obtain ⟨d, here, -⟩ := walk.label relaxed source
  have queued := racing.waiting d here
  rw [ended] at queued
  cases queued

end

end FastGraph.ShortestPaths
