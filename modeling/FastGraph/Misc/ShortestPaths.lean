import Mathlib.Algebra.Order.Group.Defs
import Mathlib.Algebra.BigOperators.Group.Finset.Basic
import Mathlib.Algebra.Order.BigOperators.Group.Finset
import Mathlib.Data.Finset.Card
import Mathlib.Data.List.Nodup

/-!
# Label-correcting search for shortest paths

A search keeps a label and a predecessor for every vertex it has reached and a queue of
labels to follow up, in any order. Weights are of any linearly ordered group and may be
negative. The search ends exactly if no cycle that can be reached has a negative weight, and
then the predecessors lead back to the source.
-/

namespace FastGraph.ShortestPaths
variable {V W : Type}

section
variable [AddCommGroup W]

/-- The walks from `u` to `v` and their weights. -/
inductive Walk (succ : V → List (V × W)) (u : V) : V → W → Prop where
  | nil : Walk succ u u 0
  | snoc {v x : V} {c w : W} (walk : Walk succ u v c) (arc : (x, w) ∈ succ v) :
      Walk succ u x (c + w)

variable {succ : V → List (V × W)}

theorem Walk.trans {u v x : V} {c c' : W} (first : Walk succ u v c) (last : Walk succ v x c') :
    Walk succ u x (c + c') := by
  induction last with
  | nil => simpa using first
  | snoc walk arc ih =>
    rw [← add_assoc]
    exact ih.snoc arc

theorem Walk.single {u x : V} {w : W} (arc : (x, w) ∈ succ u) : Walk succ u x w := by
  have walk : Walk succ u x (0 + w) := Walk.nil.snoc arc
  simpa using walk

/-! ### Renaming -/

variable {V' : Type} {succ' : V' → List (V' × W)} {f : V → V'} {U : V → Prop} {u v : V} {x : V'} {c : W}

/-- A walk from one of the vertices `U`, which no arc leaves, stays among them. -/
theorem Walk.stays (walk : Walk succ u v c) (start : U u)
    (closed : ∀ v, U v → ∀ arc ∈ succ v, U arc.1) : U v := by
  induction walk with
  | nil => exact start
  | snoc walk arc ih => exact closed _ ih _ arc

/-- The walks from renamed vertices are the renamed walks. -/
theorem Walk.of_map (start : U u) (closed : ∀ v, U v → ∀ arc ∈ succ v, U arc.1)
    (same : ∀ v, U v → succ' (f v) = (succ v).map fun arc => (f arc.1, arc.2))
    (walk : Walk succ' (f u) x c) : ∃ v, U v ∧ f v = x ∧ Walk succ u v c := by
  induction walk with
  | nil => exact ⟨u, start, rfl, .nil⟩
  | snoc walk arc ih =>
    obtain ⟨v, inside, rfl, before⟩ := ih
    rw [same v inside] at arc
    obtain ⟨⟨y, w⟩, mem, renamed⟩ := List.mem_map.mp arc
    cases renamed
    exact ⟨y, closed v inside _ mem, rfl, before.snoc mem⟩

theorem walk_map_iff (start : U u) (inside : U v) (closed : ∀ v, U v → ∀ arc ∈ succ v, U arc.1)
    (same : ∀ v, U v → succ' (f v) = (succ v).map fun arc => (f arc.1, arc.2))
    (injective : ∀ u v, U u → U v → f u = f v → u = v) :
    Walk succ' (f u) (f v) c ↔ Walk succ u v c := by
  constructor
  · intro walk
    obtain ⟨v', inside', named, walk'⟩ := walk.of_map start closed same
    rw [← injective v' v inside' inside named]
    exact walk'
  · clear inside
    intro walk
    induction walk with
    | nil => exact .nil
    | @snoc v y c w walk arc ih =>
      have mem : (f y, w) ∈ succ' (f v) := by
        rw [same v (walk.stays start closed)]
        exact List.mem_map.mpr ⟨(y, w), arc, rfl⟩
      exact ih.snoc mem

end

section
variable [LT W] [DecidableLT W]

/-- No label, or one that is greater. -/
def Worse (d : Option W) (c : W) : Prop := ∀ d', d = some d' → c < d'

instance decidableWorse (d : Option W) (c : W) : Decidable (Worse d c) :=
  match d with
  | none => isTrue fun _ none => by cases none
  | some d => decidable_of_iff (c < d) ⟨fun less d' same => by cases same; exact less,
      fun all => all d rfl⟩

/-- A vertex has a smaller label than the one followed up. -/
def Stale (d : Option W) (c : W) : Prop := ∃ d', d = some d' ∧ d' < c

instance decidableStale (d : Option W) (c : W) : Decidable (Stale d c) :=
  match d with
  | none => isFalse fun ⟨_, unlabelled, _⟩ => by cases unlabelled
  | some d => decidable_of_iff (d < c) ⟨fun less => ⟨d, rfl, less⟩,
      fun ⟨_, same, less⟩ => by cases same; exact less⟩

end

section
variable [LinearOrder W]

/-- Labels of the second assignment are not greater. -/
def Improved (dist dist' : V → Option W) : Prop :=
  ∀ v d, dist v = some d → ∃ d', dist' v = some d' ∧ d' ≤ d

theorem Improved.refl (dist : V → Option W) : Improved dist dist :=
  fun _ d here => ⟨d, here, le_refl d⟩

theorem Improved.trans {dist dist' dist'' : V → Option W} (first : Improved dist dist')
    (last : Improved dist' dist'') : Improved dist dist'' := by
  intro v d here
  obtain ⟨d', here', less⟩ := first v d here
  obtain ⟨d'', here'', less'⟩ := last v d' here'
  exact ⟨d'', here'', less'.trans less⟩

theorem improved_update [DecidableEq V] {dist : V → Option W} {x : V} {c : W}
    (worse : Worse (dist x) c) : Improved dist (Function.update dist x (some c)) := by
  intro v d here
  by_cases same : v = x
  · subst same
    exact ⟨c, Function.update_self v _ _, (worse d here).le⟩
  · exact ⟨d, by rw [Function.update_of_ne same, here], le_refl d⟩

end

/-! ### Trails -/

section
variable [AddCommGroup W] [LinearOrder W] {succ : V → List (V × W)} {s : V}
  {dist dist' : V → Option W} {l : List V} {v x y : V} {c w : W}

/-- No cycle that can be reached from `s` has a negative weight. -/
def NoNegativeCycle (succ : V → List (V × W)) (s : V) : Prop :=
  ∀ v c c', Walk succ s v c → Walk succ v v c' → 0 ≤ c'

/-- A path without repeated vertices from `s`, each of whose initial parts weighs no less
than the label of its end. -/
inductive Trail (succ : V → List (V × W)) (s : V) (dist : V → Option W) :
    List V → V → W → Prop where
  | start {d : W} (here : dist s = some d) (least : d ≤ 0) : Trail succ s dist [s] s 0
  | snoc {l : List V} {v x : V} {c w d : W} (trail : Trail succ s dist l v c)
      (arc : (x, w) ∈ succ v) (new : x ∉ l) (here : dist x = some d) (least : d ≤ c + w) :
      Trail succ s dist (l ++ [x]) x (c + w)

theorem Trail.improve (trail : Trail succ s dist l v c) (improved : Improved dist dist') :
    Trail succ s dist' l v c := by
  induction trail with
  | start here least =>
    obtain ⟨d', here', less⟩ := improved s _ here
    exact .start here' (less.trans least)
  | snoc trail arc new here least ih =>
    obtain ⟨d', here', less⟩ := improved _ _ here
    exact ih.snoc arc new here' (less.trans least)

theorem Trail.walk (trail : Trail succ s dist l v c) : Walk succ s v c := by
  induction trail with
  | start => exact .nil
  | snoc trail arc new here least ih => exact ih.snoc arc

/-- A trail passes each of its vertices with a weight that is no less than its label. -/
theorem Trail.through (trail : Trail succ s dist l v c) (mem : y ∈ l) :
    ∃ d c₁ c₂, dist y = some d ∧ d ≤ c₁ ∧ Walk succ s y c₁ ∧ Walk succ y v c₂ ∧ c₁ + c₂ = c := by
  induction trail with
  | start here least =>
    rw [List.mem_singleton] at mem
    subst mem
    exact ⟨_, 0, 0, here, least, .nil, .nil, add_zero 0⟩
  | @snoc l v x c w d trail arc new here least ih =>
    rcases List.mem_append.mp mem with before | last
    · obtain ⟨d', c₁, c₂, here', least', walk, rest, sum⟩ := ih before
      exact ⟨d', c₁, c₂ + w, here', least', walk, rest.snoc arc, by rw [← add_assoc, sum]⟩
    · rw [List.mem_singleton] at last
      subst last
      exact ⟨d, c + w, 0, here, least, trail.walk.snoc arc, .nil, add_zero _⟩

theorem Trail.end_mem (trail : Trail succ s dist l v c) : v ∈ l := by
  cases trail with
  | start => exact List.mem_singleton_self s
  | snoc => simp

theorem Trail.label (trail : Trail succ s dist l v c) : ∃ d, dist v = some d ∧ d ≤ c := by
  cases trail with
  | start here least => exact ⟨_, here, least⟩
  | snoc trail arc new here least => exact ⟨_, here, least⟩

theorem Trail.nodup (trail : Trail succ s dist l v c) : l.Nodup := by
  induction trail with
  | start => exact List.nodup_singleton s
  | snoc trail arc new here least ih =>
    rw [← List.concat_eq_append]
    exact ih.concat new

/-- A vertex whose label an arc improves is new to the trail. -/
theorem Trail.new [IsOrderedAddMonoid W] (trail : Trail succ s dist l v c)
    (sound : NoNegativeCycle succ s) (arc : (x, w) ∈ succ v) (worse : Worse (dist x) (c + w)) :
    x ∉ l := by
  intro mem
  obtain ⟨d, c₁, c₂, here, least, walk, rest, sum⟩ := trail.through mem
  have cycle := sound x c₁ (c₂ + w) walk (rest.snoc arc)
  have less := worse d here
  have closed : c₁ + (c₂ + w) = c + w := by rw [← add_assoc, sum]
  rw [← closed] at less
  exact absurd (least.trans (le_add_of_nonneg_right cycle)) (not_le.mpr less)

/-! ### Finite graphs -/

/-- The ends and the weights of the walks of a length. -/
def level (succ : V → List (V × W)) (s : V) : Nat → List (V × W)
  | 0 => [(s, 0)]
  | k + 1 => (level succ s k).flatMap fun p => (succ p.1).map fun arc => (arc.1, p.2 + arc.2)

theorem Trail.level (trail : Trail succ s dist l v c) :
    ∃ k, l.length = k + 1 ∧ (v, c) ∈ level succ s k := by
  induction trail with
  | start => exact ⟨0, rfl, List.mem_singleton_self _⟩
  | @snoc l v x c w d trail arc new here least ih =>
    obtain ⟨k, length, mem⟩ := ih
    refine ⟨k + 1, by rw [List.length_append, length, List.length_singleton], ?_⟩
    exact List.mem_flatMap.mpr ⟨(v, c), mem, List.mem_map.mpr ⟨(x, w), arc, rfl⟩⟩

/-- A set of vertices that contains the source and that no arc leaves. -/
structure Closed (succ : V → List (V × W)) (s : V) (U : Finset V) : Prop where
  source : s ∈ U
  arcs : ∀ v ∈ U, ∀ arc ∈ succ v, arc.1 ∈ U

omit [LinearOrder W] in
theorem Closed.walk {U : Finset V} (closed : Closed succ s U) (walk : Walk succ s v c) : v ∈ U := by
  induction walk with
  | nil => exact closed.source
  | snoc walk arc ih => exact closed.arcs _ ih _ arc

theorem Trail.inside {U : Finset V} (closed : Closed succ s U) (trail : Trail succ s dist l v c) :
    ∀ y ∈ l, y ∈ U := by
  induction trail with
  | start =>
    intro y mem
    rw [List.mem_singleton.mp mem]
    exact closed.source
  | @snoc l v x c w d trail arc new here least ih =>
    intro y mem
    rcases List.mem_append.mp mem with before | last
    · exact ih y before
    · rw [List.mem_singleton.mp last]
      exact closed.arcs v (ih v trail.end_mem) (x, w) arc

/-- The weights of the walks that can be trails. -/
def costs (succ : V → List (V × W)) (s : V) (U : Finset V) : Finset W :=
  ((List.range U.card).flatMap fun k => (level succ s k).map Prod.snd).toFinset

theorem Trail.mem_costs {U : Finset V} (closed : Closed succ s U)
    (trail : Trail succ s dist l v c) : c ∈ costs succ s U := by
  classical
  obtain ⟨k, length, mem⟩ := trail.level
  have few : l.length ≤ U.card := by
    rw [← List.toFinset_card_of_nodup trail.nodup]
    apply Finset.card_le_card
    intro y here
    exact trail.inside closed y (List.mem_toFinset.mp here)
  refine List.mem_toFinset.mpr (List.mem_flatMap.mpr ⟨k, List.mem_range.mpr (by omega), ?_⟩)
  exact List.mem_map.mpr ⟨(v, c), mem, rfl⟩

end

/-! ### The search -/

/-- What a search knows: labels, predecessors, and the labels to follow up. -/
structure State (V W : Type) where
  dist : V → Option W
  parent : V → Option V
  queue : List (W × V)

/-- The predecessors lead to `stop`. -/
inductive Leads (stop : V) (parent : V → Option V) : V → Prop where
  | done : Leads stop parent stop
  | next {v p : V} (here : parent v = some p) (leads : Leads stop parent p) : Leads stop parent v

section
variable [DecidableEq V] [Add W] [LT W] [DecidableLT W]

/-- One arc of a vertex `v` that is followed up with the label `c`. -/
def improve (c : W) (v : V) (st : State V W) (arc : V × W) : State V W :=
  if Worse (st.dist arc.1) (c + arc.2) then
    { dist := Function.update st.dist arc.1 (some (c + arc.2))
      parent := Function.update st.parent arc.1 (some v)
      queue := (c + arc.2, arc.1) :: st.queue }
  else st

/-- All arcs of the vertex. -/
def expand (c : W) (v : V) (st : State V W) (arcs : List (V × W)) : State V W :=
  arcs.foldl (improve c v) st

/-- Following up one label. -/
def settle (succ : V → List (V × W)) (c : W) (v : V) (rest : List (W × V)) (st : State V W) :
    State V W :=
  if Stale (st.dist v) c then { st with queue := rest }
  else expand c v { st with queue := rest } (succ v)

/-- Before the search. -/
def initial [Zero W] (s stop : V) : State V W where
  dist := fun v => if v = s then some 0 else none
  parent := fun v => if v = s then some stop else none
  queue := [(0, s)]

/-! ### How far labels sink -/

/-- How many weights a label can still sink to. -/
def height (S : Finset W) : Option W → Nat
  | none => S.card
  | some d => (S.filter (· < d)).card

variable {U : Finset V} {st : State V W} {v : V} {c : W}

omit [DecidableEq V] [Add W] in
theorem height_lt [IsStrictOrder W (· < ·)] {S : Finset W} {d : Option W} (mem : c ∈ S) (worse : Worse d c) :
    height S (some c) < height S d := by
  cases d with
  | none =>
    apply Finset.card_lt_card
    refine (Finset.ssubset_iff_of_subset (Finset.filter_subset _ _)).mpr ⟨c, mem, ?_⟩
    exact fun below => irrefl_of (· < ·) c (Finset.mem_filter.mp below).2
  | some d =>
    have less := worse d rfl
    apply Finset.card_lt_card
    refine (Finset.ssubset_iff_of_subset ?_).mpr ⟨c, Finset.mem_filter.mpr ⟨mem, less⟩, ?_⟩
    · intro e below
      rw [Finset.mem_filter] at below ⊢
      exact ⟨below.1, trans_of (· < ·) below.2 less⟩
    · exact fun below => irrefl_of (· < ·) c (Finset.mem_filter.mp below).2

/-- A bound of the labels that will be followed up. -/
def budget (S : Finset W) (U : Finset V) (st : State V W) : Nat :=
  st.queue.length + 2 * ∑ v ∈ U, height S (st.dist v)

theorem budget_improve [IsStrictOrder W (· < ·)] {S : Finset W} {arc : V × W} (inside : arc.1 ∈ U)
    (mem : Worse (st.dist arc.1) (c + arc.2) → c + arc.2 ∈ S) :
    budget S U (improve c v st arc) ≤ budget S U st := by
  unfold ShortestPaths.improve
  split
  · rename_i worse
    have lower := height_lt (mem worse) worse
    have sums : ∑ y ∈ U, height S (Function.update st.dist arc.1 (some (c + arc.2)) y) <
        ∑ y ∈ U, height S (st.dist y) := by
      apply Finset.sum_lt_sum
      · intro y _
        by_cases same : y = arc.1
        · rw [same, Function.update_self]
          exact lower.le
        · rw [Function.update_of_ne same]
      · exact ⟨arc.1, inside, by rw [Function.update_self]; exact lower⟩
    simp only [budget, List.length_cons]
    omega
  · exact le_refl _

end

/-! ### The search ends -/

section
variable [DecidableEq V] [AddCommGroup W] [LinearOrder W]
variable {succ : V → List (V × W)} {s stop : V} {U : Finset V} {st : State V W} {l : List V}
  {v x : V} {c w : W}

theorem improved_improve (c : W) (v : V) (st : State V W) (arc : V × W) :
    Improved st.dist (improve c v st arc).dist := by
  unfold improve
  split
  · rename_i worse
    exact improved_update worse
  · exact .refl _

/-- A label is explained by its predecessor, unless that is the mark `stop`. -/
def Explained (succ : V → List (V × W)) (stop : V) (st : State V W) (v : V) (d : W) : Prop :=
  ∃ p, st.parent v = some p ∧
    (p = stop ∨ ∃ d' w, st.dist p = some d' ∧ (v, w) ∈ succ p ∧ d' + w ≤ d)

/-- What is true of a search in a graph without negative cycles: a label to follow up is the
weight of a trail, and predecessors explain the labels and lead back. -/
structure Sound (succ : V → List (V × W)) (s stop : V) (st : State V W) : Prop where
  entries : ∀ e ∈ st.queue, ∃ l, Trail succ s st.dist l e.2 e.1
  reached : ∀ v d, st.dist v = some d → ∃ c, Walk succ s v c
  explained : ∀ v d, st.dist v = some d → Explained succ stop st v d
  leads : ∀ v d, st.dist v = some d → Leads stop st.parent v

variable [IsOrderedAddMonoid W]

/-- The predecessors of a vertex do not lead past one whose label its arc improves. -/
theorem Sound.leads_update (sound : Sound succ s stop st) (cycles : NoNegativeCycle succ s)
    (arc : (x, w) ∈ succ v) (worse : Worse (st.dist x) (c + w)) {y : V} {d c₁ : W}
    (leads : Leads stop st.parent y) (here : st.dist y = some d) (walk : Walk succ y v c₁)
    (less : d + c₁ ≤ c) : Leads stop (Function.update st.parent x (some v)) y := by
  induction leads generalizing d c₁ with
  | done => exact .done
  | @next y p parent leads ih =>
    have other : y ≠ x := by
      rintro rfl
      obtain ⟨c₀, reached⟩ := sound.reached y d here
      have cycle := cycles y c₀ (c₁ + w) reached (walk.snoc arc)
      have longer := add_le_add_left less w
      rw [add_assoc] at longer
      exact absurd (worse d here) (not_lt.mpr ((le_add_of_nonneg_right cycle).trans longer))
    refine .next (by rw [Function.update_of_ne other, parent]) ?_
    obtain ⟨p', parent', cause⟩ := sound.explained y d here
    rw [parent, Option.some_inj] at parent'
    subst parent'
    rcases cause with rfl | ⟨d', w', label, arc', explained⟩
    · exact .done
    · apply ih label ((Walk.single arc').trans walk)
      rw [← add_assoc]
      exact (add_le_add_left explained c₁).trans less

/-- One arc keeps a search sound. -/
theorem Sound.improve (sound : Sound succ s stop st) (cycles : NoNegativeCycle succ s)
    (trail : Trail succ s st.dist l v c) (arc : (x, w) ∈ succ v) :
    Sound succ s stop (improve c v st (x, w)) := by
  unfold ShortestPaths.improve
  split
  · rename_i worse
    have improved := improved_update worse
    have new := trail.new cycles arc worse
    have other : v ≠ x := by
      rintro rfl
      exact new trail.end_mem
    obtain ⟨dv, label, least⟩ := trail.label
    have label' : Function.update st.dist x (some (c + w)) v = some dv := by
      rw [Function.update_of_ne other, label]
    have leads : Leads stop (Function.update st.parent x (some v)) v :=
      sound.leads_update cycles arc worse (sound.leads v dv label) label .nil
        (by rw [add_zero]; exact least)
    have root : Leads stop (Function.update st.parent x (some v)) x :=
      .next (by rw [Function.update_self]) leads
    refine ⟨?_, ?_, ?_, ?_⟩
    · intro e mem
      rcases List.mem_cons.mp mem with rfl | old
      · exact ⟨l ++ [x], (trail.improve improved).snoc arc new (Function.update_self ..) (le_refl _)⟩
      · obtain ⟨l', trail'⟩ := sound.entries e old
        exact ⟨l', trail'.improve improved⟩
    · intro y d here
      change Function.update st.dist x (some (c + w)) y = some d at here
      by_cases same : y = x
      · subst same
        exact ⟨c + w, trail.walk.snoc arc⟩
      · rw [Function.update_of_ne same] at here
        exact sound.reached y d here
    · intro y d here
      change Function.update st.dist x (some (c + w)) y = some d at here
      by_cases same : y = x
      · subst same
        rw [Function.update_self, Option.some_inj] at here
        subst here
        exact ⟨v, Function.update_self .., Or.inr ⟨dv, w, label', arc, add_le_add_left least w⟩⟩
      · rw [Function.update_of_ne same] at here
        obtain ⟨p, parent, cause⟩ := sound.explained y d here
        refine ⟨p, (Function.update_of_ne same _ _).trans parent, ?_⟩
        rcases cause with stopped | ⟨d', w', label₀, arc', explained⟩
        · exact Or.inl stopped
        · obtain ⟨d'', label₁, less⟩ := improved p d' label₀
          exact Or.inr ⟨d'', w', label₁, arc', (add_le_add_left less w').trans explained⟩
    · intro y d here
      change Function.update st.dist x (some (c + w)) y = some d at here
      by_cases same : y = x
      · rw [same]
        exact root
      · rw [Function.update_of_ne same] at here
        -- The old chain of `y` meets `x`, and goes on as the chain of `x`, or it is as it was.
        have chain : ∀ z, Leads stop st.parent z →
            Leads stop (Function.update st.parent x (some v)) z := by
          intro z old
          induction old with
          | done => exact .done
          | @next z p parent old ih =>
            by_cases same : z = x
            · rw [same]
              exact root
            · exact .next (by rw [Function.update_of_ne same, parent]) ih
        exact chain y (sound.leads y d here)
  · exact sound

/-- All arcs of a vertex keep a search sound and do not raise the bound. -/
theorem Sound.expand (closed : Closed succ s U) (cycles : NoNegativeCycle succ s)
    {arcs : List (V × W)} (among : ∀ arc ∈ arcs, arc ∈ succ v) (sound : Sound succ s stop st)
    (trail : Trail succ s st.dist l v c) :
    Sound succ s stop (expand c v st arcs) ∧
      budget (costs succ s U) U (expand c v st arcs) ≤ budget (costs succ s U) U st := by
  induction arcs generalizing st with
  | nil => exact ⟨sound, le_refl _⟩
  | cons arc arcs ih =>
    have mem := among arc List.mem_cons_self
    have next := sound.improve cycles trail mem
    have inside := closed.arcs v (trail.inside closed v trail.end_mem) arc mem
    have cost : Worse (st.dist arc.1) (c + arc.2) → c + arc.2 ∈ costs succ s U := by
      intro worse
      have new := trail.new cycles mem worse
      have label : Function.update st.dist arc.1 (some (c + arc.2)) arc.1 = some (c + arc.2) :=
        Function.update_self ..
      exact ((trail.improve (improved_update worse)).snoc mem new label (le_refl _)).mem_costs closed
    obtain ⟨rest, fewer⟩ := ih (fun arc' later => among arc' (List.mem_cons_of_mem _ later)) next
      (trail.improve (improved_improve c v st arc))
    exact ⟨rest, fewer.trans (budget_improve inside cost)⟩

end

section
variable [DecidableEq V] [AddCommGroup W] [LinearOrder W]
variable {succ : V → List (V × W)} {s stop : V} {U : Finset V} {st : State V W}
  {v x : V} {c w : W} {rest : List (W × V)}

theorem sound_initial (succ : V → List (V × W)) (s stop : V) :
    Sound succ s stop (initial s stop : State V W) := by
  have label : (initial s stop : State V W).dist s = some 0 := if_pos rfl
  have only : ∀ v d, (initial s stop : State V W).dist v = some d → v = s := by
    intro v d here
    exact (ite_eq_iff.mp here).elim And.left fun both => by cases both.2
  have root : (initial s stop : State V W).parent s = some stop := if_pos rfl
  refine ⟨?_, ?_, ?_, ?_⟩
  · intro e mem
    rw [List.mem_singleton.mp mem]
    exact ⟨[s], .start label (le_refl 0)⟩
  · intro v d here
    rw [only v d here]
    exact ⟨0, .nil⟩
  · intro v d here
    rw [only v d here]
    exact ⟨stop, root, Or.inl rfl⟩
  · intro v d here
    rw [only v d here]
    exact .next root .done

variable [IsOrderedAddMonoid W]

/-- Following up a label keeps a search sound and lowers the bound. -/
theorem Sound.settle (closed : Closed succ s U) (cycles : NoNegativeCycle succ s)
    (sound : Sound succ s stop st) (next : st.queue.Perm ((c, v) :: rest)) :
    Sound succ s stop (settle succ c v rest st) ∧
      budget (costs succ s U) U (settle succ c v rest st) < budget (costs succ s U) U st := by
  have shorter : budget (costs succ s U) U { st with queue := rest } <
      budget (costs succ s U) U st := by
    have length := next.length_eq
    simp only [budget, length, List.length_cons]
    omega
  have sound' : Sound succ s stop { st with queue := rest } :=
    ⟨fun e mem => sound.entries e (next.mem_iff.mpr (List.mem_cons_of_mem _ mem)), sound.reached,
      sound.explained, sound.leads⟩
  unfold ShortestPaths.settle
  split
  · exact ⟨sound', shorter⟩
  · obtain ⟨l, trail⟩ := sound.entries (c, v) (next.mem_iff.mpr List.mem_cons_self)
    obtain ⟨after, fewer⟩ := sound'.expand closed cycles (fun arc mem => mem) trail
    exact ⟨after, fewer.trans_lt shorter⟩

end

/-! ### What holds when the queue is empty -/

section
variable [AddCommGroup W] [LinearOrder W] {succ : V → List (V × W)} {dist dist' : V → Option W}
  {v : V} {c : W}

/-- The labels of the ends of some arcs are no greater than the arcs allow. -/
def Relaxed (dist : V → Option W) (c : W) (arcs : List (V × W)) : Prop :=
  ∀ arc ∈ arcs, ∃ d, dist arc.1 = some d ∧ d ≤ c + arc.2

theorem Relaxed.improve {arcs : List (V × W)} (relaxed : Relaxed dist c arcs)
    (improved : Improved dist dist') : Relaxed dist' c arcs := by
  intro arc mem
  obtain ⟨d, here, less⟩ := relaxed arc mem
  obtain ⟨d', here', less'⟩ := improved arc.1 d here
  exact ⟨d', here', less'.trans less⟩

/-- Where all arcs are relaxed, a walk leads to labels that are no greater than it allows. -/
theorem Walk.label [IsOrderedAddMonoid W]
    (relaxed : ∀ v d, dist v = some d → Relaxed dist d (succ v)) {u : V} {d : W}
    (start : dist u = some d) (walk : Walk succ u v c) :
    ∃ d', dist v = some d' ∧ d' ≤ d + c := by
  induction walk with
  | nil => exact ⟨d, start, by rw [add_zero]⟩
  | snoc walk arc ih =>
    obtain ⟨d', here, less⟩ := ih
    obtain ⟨d'', here', less'⟩ := relaxed _ d' here _ arc
    refine ⟨d'', here', less'.trans ?_⟩
    rw [← add_assoc]
    exact add_le_add_left less _

end

section
variable [DecidableEq V] [AddCommGroup W] [LinearOrder W] {succ : V → List (V × W)} {s stop : V}
  {st : State V W} {v x : V} {c w : W} {rest : List (W × V)}

/-- The source has a label, what is to be followed up was reached, and a label is still to be
followed up or its arcs are relaxed. -/
structure Covered (succ : V → List (V × W)) (s : V) (st : State V W) : Prop where
  source : ∃ d, st.dist s = some d
  queued : ∀ e ∈ st.queue, (∃ d, st.dist e.2 = some d) ∧ ∃ c, Walk succ s e.2 c
  labels : ∀ v d, st.dist v = some d → (d, v) ∈ st.queue ∨ Relaxed st.dist d (succ v)

/-- The same while the arcs of `v` are followed up with the label `c`, `arcs` being done. -/
structure Covering (succ : V → List (V × W)) (s : V) (v : V) (c : W) (arcs : List (V × W))
    (st : State V W) : Prop where
  source : ∃ d, st.dist s = some d
  queued : ∀ e ∈ st.queue, (∃ d, st.dist e.2 = some d) ∧ ∃ c, Walk succ s e.2 c
  others : ∀ y d, y ≠ v → st.dist y = some d → (d, y) ∈ st.queue ∨ Relaxed st.dist d (succ y)
  own : ∀ d, st.dist v = some d → (d, v) ∈ st.queue ∨ c ≤ d
  done : Relaxed st.dist c arcs

theorem Covering.improve {arcs : List (V × W)} (covering : Covering succ s v c arcs st) {c₀ : W}
    (reached : Walk succ s v c₀) {arc : V × W} (mem : arc ∈ succ v) :
    Covering succ s v c (arcs ++ [arc]) (improve c v st arc) := by
  obtain ⟨⟨ds, source⟩, queued, others, own, done⟩ := covering
  unfold ShortestPaths.improve
  split
  · rename_i worse
    have improved := improved_update worse
    have here : Function.update st.dist arc.1 (some (c + arc.2)) arc.1 = some (c + arc.2) :=
      Function.update_self ..
    refine ⟨?_, ?_, ?_, ?_, ?_⟩
    · obtain ⟨d', source', -⟩ := improved s ds source
      exact ⟨d', source'⟩
    · intro e inQueue
      rcases List.mem_cons.mp inQueue with rfl | old
      · exact ⟨⟨_, here⟩, _, reached.snoc mem⟩
      · obtain ⟨⟨d, label⟩, walk⟩ := queued e old
        obtain ⟨d', label', -⟩ := improved e.2 d label
        exact ⟨⟨d', label'⟩, walk⟩
    · intro y d other label
      change Function.update st.dist arc.1 (some (c + arc.2)) y = some d at label
      by_cases same : y = arc.1
      · rw [same, here, Option.some_inj] at label
        subst label same
        exact Or.inl List.mem_cons_self
      · rw [Function.update_of_ne same] at label
        rcases others y d other label with queued | relaxed
        · exact Or.inl (List.mem_cons_of_mem _ queued)
        · exact Or.inr (relaxed.improve improved)
    · intro d label
      change Function.update st.dist arc.1 (some (c + arc.2)) v = some d at label
      by_cases same : v = arc.1
      · rw [same, here, Option.some_inj] at label
        subst label same
        exact Or.inl List.mem_cons_self
      · rw [Function.update_of_ne same] at label
        rcases own d label with queued | less
        · exact Or.inl (List.mem_cons_of_mem _ queued)
        · exact Or.inr less
    · intro arc' mem
      rcases List.mem_append.mp mem with before | last
      · exact done.improve improved arc' before
      · rw [List.mem_singleton.mp last]
        exact ⟨_, here, le_refl _⟩
  · rename_i kept
    refine ⟨⟨ds, source⟩, queued, others, own, ?_⟩
    intro arc' inDone
    rcases List.mem_append.mp inDone with before | last
    · exact done arc' before
    · rw [List.mem_singleton.mp last]
      unfold Worse at kept
      push Not at kept
      exact kept

theorem Covering.expand {arcs done : List (V × W)} (covering : Covering succ s v c done st)
    {c₀ : W} (reached : Walk succ s v c₀) (among : ∀ arc ∈ arcs, arc ∈ succ v) :
    Covering succ s v c (done ++ arcs) (expand c v st arcs) := by
  induction arcs generalizing st done with
  | nil =>
    rw [List.append_nil]
    exact covering
  | cons arc arcs ih =>
    have next := ih (covering.improve reached (among arc List.mem_cons_self))
      fun arc' later => among arc' (List.mem_cons_of_mem _ later)
    rw [List.append_assoc] at next
    exact next

/-- Following up a label loses no other. -/
theorem Covered.settle [IsOrderedAddMonoid W] (covered : Covered succ s st)
    (next : st.queue.Perm ((c, v) :: rest)) :
    Covered succ s (settle succ c v rest st) := by
  have kept : ∀ y d, (d, y) ∈ st.queue → (d, y) ≠ (c, v) → (d, y) ∈ rest := by
    intro y d mem other
    exact (List.mem_cons.mp (next.mem_iff.mp mem)).resolve_left other
  have queued : ∀ e ∈ rest, (∃ d, st.dist e.2 = some d) ∧ ∃ c, Walk succ s e.2 c :=
    fun e mem => covered.queued e (next.mem_iff.mpr (List.mem_cons_of_mem _ mem))
  unfold ShortestPaths.settle
  split
  · rename_i stale
    refine ⟨covered.source, queued, ?_⟩
    intro y d label
    rcases covered.labels y d label with queued | relaxed
    · left
      apply kept y d queued
      rintro same
      cases same
      obtain ⟨d', label', less⟩ := stale
      rw [show st.dist v = some c from label, Option.some_inj] at label'
      exact absurd (label' ▸ less) (lt_irrefl _)
    · exact Or.inr relaxed
  · rename_i fresh
    have start : Covering succ s v c [] { st with queue := rest } := by
      refine ⟨covered.source, queued, ?_, ?_, fun arc mem => by cases mem⟩
      · intro y d other label
        rcases covered.labels y d label with queued | relaxed
        · left
          apply kept y d queued
          rintro same
          cases same
          exact other rfl
        · exact Or.inr relaxed
      · intro d label
        right
        by_contra greater
        exact fresh ⟨d, label, not_le.mp greater⟩
    obtain ⟨-, c₀, reached⟩ := covered.queued (c, v) (next.mem_iff.mpr List.mem_cons_self)
    obtain ⟨source, queued, others, own, done⟩ := start.expand reached fun arc mem => mem
    refine ⟨source, queued, ?_⟩
    intro y d label
    by_cases same : y = v
    · subst same
      rcases own d label with queued | less
      · exact Or.inl queued
      · right
        intro arc mem
        obtain ⟨d', here, less'⟩ := done arc (by simpa using mem)
        exact ⟨d', here, less'.trans (add_le_add_left less arc.2)⟩
    · exact others y d same label

omit [DecidableEq V] in
/-- A search that has ended shows that there is no negative cycle. -/
theorem Covered.noNegativeCycle [IsOrderedAddMonoid W] (covered : Covered succ s st) (ended : st.queue = []) :
    NoNegativeCycle succ s := by
  have relaxed : ∀ v d, st.dist v = some d → Relaxed st.dist d (succ v) := by
    intro v d label
    rcases covered.labels v d label with queued | done
    · rw [ended] at queued
      cases queued
    · exact done
  obtain ⟨ds, source⟩ := covered.source
  intro v c c' walk cycle
  obtain ⟨d, here, -⟩ := walk.label relaxed source
  obtain ⟨d', here', less⟩ := cycle.label relaxed here
  rw [here, Option.some_inj] at here'
  subst here'
  exact (le_add_iff_nonneg_right d).mp less

theorem covered_initial (succ : V → List (V × W)) (s stop : V) :
    Covered succ s (initial s stop : State V W) := by
  refine ⟨⟨0, if_pos rfl⟩, ?_, ?_⟩
  · intro e mem
    rw [List.mem_singleton.mp mem]
    exact ⟨⟨0, if_pos rfl⟩, 0, .nil⟩
  intro v d here
  left
  rcases ite_eq_iff.mp here with ⟨rfl, zero⟩ | ⟨-, unlabelled⟩
  · cases zero
    exact List.mem_singleton_self _
  · cases unlabelled

end

/-! ### Least labels -/

section
variable [DecidableEq V] [AddCommGroup W] [LinearOrder W] {succ : V → List (V × W)} {s stop : V}
  {st : State V W} {v x : V} {c w : W} {rest : List (W × V)}

/-- The labels are weights of walks. -/
structure Weighed (succ : V → List (V × W)) (s : V) (st : State V W) : Prop where
  source : ∃ d, st.dist s = some d ∧ d ≤ 0
  labels : ∀ v d, st.dist v = some d → Walk succ s v d
  queued : ∀ e ∈ st.queue, Walk succ s e.2 e.1

theorem weighed_initial (succ : V → List (V × W)) (s stop : V) :
    Weighed succ s (initial s stop : State V W) := by
  refine ⟨⟨0, if_pos rfl, le_refl 0⟩, ?_, ?_⟩
  · intro v d here
    rcases ite_eq_iff.mp here with ⟨rfl, zero⟩ | ⟨-, unlabelled⟩
    · cases zero
      exact .nil
    · cases unlabelled
  · intro e mem
    rw [List.mem_singleton.mp mem]
    exact .nil

theorem Weighed.improve (weighed : Weighed succ s st) (walk : Walk succ s v c)
    (arc : (x, w) ∈ succ v) : Weighed succ s (improve c v st (x, w)) := by
  unfold ShortestPaths.improve
  split
  · rename_i worse
    obtain ⟨ds, source, least⟩ := weighed.source
    obtain ⟨ds', source', less⟩ := improved_update worse s ds source
    refine ⟨⟨ds', source', less.trans least⟩, ?_, ?_⟩
    · intro y d here
      change Function.update st.dist x (some (c + w)) y = some d at here
      by_cases same : y = x
      · rw [same, Function.update_self, Option.some_inj] at here
        rw [same, ← here]
        exact walk.snoc arc
      · rw [Function.update_of_ne same] at here
        exact weighed.labels y d here
    · intro e mem
      rcases List.mem_cons.mp mem with rfl | old
      · exact walk.snoc arc
      · exact weighed.queued e old
  · exact weighed

theorem Weighed.expand {arcs : List (V × W)} (weighed : Weighed succ s st)
    (walk : Walk succ s v c) (among : ∀ arc ∈ arcs, arc ∈ succ v) :
    Weighed succ s (expand c v st arcs) := by
  induction arcs generalizing st with
  | nil => exact weighed
  | cons arc arcs ih =>
    exact ih (weighed.improve walk (among arc List.mem_cons_self))
      fun arc' later => among arc' (List.mem_cons_of_mem _ later)

theorem Weighed.settle (weighed : Weighed succ s st) (next : st.queue.Perm ((c, v) :: rest)) :
    Weighed succ s (settle succ c v rest st) := by
  have start : Weighed succ s { st with queue := rest } :=
    ⟨weighed.source, weighed.labels,
      fun e mem => weighed.queued e (next.mem_iff.mpr (List.mem_cons_of_mem _ mem))⟩
  unfold ShortestPaths.settle
  split
  · exact start
  · exact start.expand (weighed.queued (c, v) (next.mem_iff.mpr List.mem_cons_self))
      fun arc mem => mem

omit [DecidableEq V] in
/-- When the queue is empty no walk weighs less than the label of its end. -/
theorem Covered.least [IsOrderedAddMonoid W] (covered : Covered succ s st)
    (weighed : Weighed succ s st) (ended : st.queue = []) (walk : Walk succ s v c) :
    ∃ d, st.dist v = some d ∧ d ≤ c := by
  have relaxed : ∀ v d, st.dist v = some d → Relaxed st.dist d (succ v) := by
    intro v d label
    refine (covered.labels v d label).resolve_left ?_
    rw [ended]
    exact List.not_mem_nil
  obtain ⟨ds, source, least⟩ := weighed.source
  obtain ⟨d, here, less⟩ := walk.label relaxed source
  exact ⟨d, here, less.trans (add_le_of_nonpos_left least)⟩

end

/-! ### Weights that are not negative -/

section
variable [DecidableEq V] [AddCommGroup W] [LinearOrder W] {succ : V → List (V × W)} {s stop : V}
  {st : State V W} {known : V → Prop} {v x : V} {c w m : W} {rest : List (W × V)}

/-- A search that takes a least label each time, the last one being `m`, and has followed up
those of the known vertices: these are final, and the others are still to be followed up. -/
structure Ahead (known : V → Prop) (m : W) (st : State V W) : Prop where
  distinct : st.queue.Nodup
  queued : ∀ e ∈ st.queue, m ≤ e.1 ∧ ∃ d, st.dist e.2 = some d ∧ d ≤ e.1
  waiting : ∀ v d, st.dist v = some d → ¬ known v → (d, v) ∈ st.queue
  final : ∀ v, known v → ∃ d, st.dist v = some d ∧ d ≤ m ∧ ∀ c, (c, v) ∈ st.queue → d < c

theorem ahead_initial (s stop : V) : Ahead (fun _ => False) 0 (initial s stop : State V W) := by
  refine ⟨List.nodup_singleton _, ?_, ?_, fun _ none => none.elim⟩
  · intro e mem
    rw [List.mem_singleton.mp mem]
    exact ⟨le_refl 0, 0, if_pos rfl, le_refl 0⟩
  · intro v d here _
    rcases ite_eq_iff.mp here with ⟨rfl, zero⟩ | ⟨-, unlabelled⟩
    · cases zero
      exact List.mem_singleton_self _
    · cases unlabelled

/-- An arc improves no label of a known vertex. -/
theorem Ahead.improve (ahead : Ahead known m st) (above : m ≤ c + w) :
    Ahead known m (improve c v st (x, w)) := by
  unfold ShortestPaths.improve
  split
  · rename_i worse
    have unknown : ¬ known x := by
      intro old
      obtain ⟨d, here, least, -⟩ := ahead.final x old
      exact absurd (worse d here) (not_lt.mpr (least.trans above))
    have new : (c + w, x) ∉ st.queue := by
      intro mem
      obtain ⟨-, d, here, least⟩ := ahead.queued _ mem
      exact absurd (worse d here) (not_lt.mpr least)
    refine ⟨List.nodup_cons.mpr ⟨new, ahead.distinct⟩, ?_, ?_, ?_⟩
    · intro e mem
      rcases List.mem_cons.mp mem with rfl | old
      · exact ⟨above, c + w, Function.update_self .., le_refl _⟩
      · obtain ⟨bound, d, here, least⟩ := ahead.queued e old
        refine ⟨bound, ?_⟩
        by_cases same : e.2 = x
        · rw [same] at here
          exact ⟨c + w, by rw [same]; exact Function.update_self .., (worse d here).le.trans least⟩
        · exact ⟨d, (Function.update_of_ne same _ _).trans here, least⟩
    · intro y d here unknown'
      change Function.update st.dist x (some (c + w)) y = some d at here
      by_cases same : y = x
      · rw [same, Function.update_self, Option.some_inj] at here
        rw [same, ← here]
        exact List.mem_cons_self
      · rw [Function.update_of_ne same] at here
        exact List.mem_cons_of_mem _ (ahead.waiting y d here unknown')
    · intro y old
      have other : y ≠ x := fun same => unknown (same ▸ old)
      obtain ⟨d, here, least, before⟩ := ahead.final y old
      refine ⟨d, (Function.update_of_ne other _ _).trans here, least, ?_⟩
      intro c' mem
      rcases List.mem_cons.mp mem with same | old'
      · exact absurd (Prod.ext_iff.mp same).2 other
      · exact before c' old'
  · exact ahead

theorem Ahead.expand [IsOrderedAddMonoid W] {arcs : List (V × W)}
    (nonneg : ∀ arc ∈ arcs, 0 ≤ arc.2) (ahead : Ahead known c st) :
    Ahead known c (expand c v st arcs) := by
  induction arcs generalizing st with
  | nil => exact ahead
  | cons arc arcs ih =>
    have above : c ≤ c + arc.2 := le_add_of_nonneg_right (nonneg arc List.mem_cons_self)
    exact ih (fun arc' later => nonneg arc' (List.mem_cons_of_mem _ later)) (ahead.improve above)

omit [DecidableEq V] [AddCommGroup W] in
/-- A label that is taken is stale if its vertex is known, and else it is that of the vertex. -/
theorem Ahead.taken (ahead : Ahead known m st) (next : st.queue.Perm ((c, v) :: rest))
    (least : ∀ e ∈ st.queue, c ≤ e.1) :
    (known v → Stale (st.dist v) c) ∧ (¬ known v → st.dist v = some c) := by
  have mem : (c, v) ∈ st.queue := next.mem_iff.mpr List.mem_cons_self
  constructor
  · intro old
    obtain ⟨d, here, -, before⟩ := ahead.final v old
    exact ⟨d, here, before c mem⟩
  · intro unknown
    obtain ⟨-, d, here, less⟩ := ahead.queued _ mem
    rw [here, less.antisymm (least _ (ahead.waiting v d here unknown))]

/-- Following up a least label makes its vertex known. -/
theorem Ahead.settle [IsOrderedAddMonoid W] (ahead : Ahead known m st)
    (next : st.queue.Perm ((c, v) :: rest)) (least : ∀ e ∈ st.queue, c ≤ e.1)
    (nonneg : ∀ arc ∈ succ v, 0 ≤ arc.2) :
    Ahead (fun u => u = v ∨ known u) c (settle succ c v rest st) := by
  obtain ⟨old, new⟩ := ahead.taken next least
  have inQueue : ∀ e ∈ rest, e ∈ st.queue :=
    fun e mem => next.mem_iff.mpr (List.mem_cons_of_mem _ mem)
  have mem : (c, v) ∈ st.queue := next.mem_iff.mpr List.mem_cons_self
  have distinct := next.nodup_iff.mp ahead.distinct
  rw [List.nodup_cons] at distinct
  have bound := (ahead.queued _ mem).1
  have start : Ahead (fun u => u = v ∨ known u) c { st with queue := rest } := by
    refine ⟨distinct.2, ?_, ?_, ?_⟩
    · intro e among
      exact ⟨least e (inQueue e among), (ahead.queued e (inQueue e among)).2⟩
    · intro y d here unknown
      rw [not_or] at unknown
      have among := next.mem_iff.mp (ahead.waiting y d here unknown.2)
      refine (List.mem_cons.mp among).resolve_left ?_
      intro same
      exact unknown.1 (Prod.ext_iff.mp same).2
    · intro y either
      by_cases before : known y
      · obtain ⟨d, here, less, after⟩ := ahead.final y before
        exact ⟨d, here, less.trans bound, fun c' among => after c' (inQueue _ among)⟩
      · obtain rfl := either.resolve_right before
        refine ⟨c, new before, le_refl c, ?_⟩
        intro c' among
        refine lt_of_le_of_ne (least _ (inQueue _ among)) ?_
        rintro rfl
        exact distinct.1 among
  unfold ShortestPaths.settle
  split
  · exact start
  · exact start.expand nonneg

omit [DecidableEq V] in
theorem Walk.nonneg [IsOrderedAddMonoid W] (nonneg : ∀ v, ∀ arc ∈ succ v, 0 ≤ arc.2)
    (walk : Walk succ v x c) : 0 ≤ c := by
  induction walk with
  | nil => exact le_refl 0
  | snoc walk arc ih => exact add_nonneg ih (nonneg _ _ arc)

omit [DecidableEq V] in
/-- Without negative weights there is no negative cycle. -/
theorem noNegativeCycle_of_nonneg [IsOrderedAddMonoid W]
    (nonneg : ∀ v, ∀ arc ∈ succ v, 0 ≤ arc.2) : NoNegativeCycle succ s :=
  fun _ _ _ _ cycle => cycle.nonneg nonneg

end

/-! ### Predecessors without negative weights -/

section
variable [DecidableEq V] [AddCommGroup W] [LinearOrder W] {succ : V → List (V × W)} {s stop : V}
  {st : State V W} {link link' : V → V → W → Prop} {v x : V} {c w : W}

/-- The source keeps its label and the mark, and every other label comes from that of its
predecessor by a link. -/
structure Recorded (link : V → V → W → Prop) (s stop : V) (st : State V W) : Prop where
  source : st.dist s = some 0 ∧ st.parent s = some stop
  others : ∀ x d, st.dist x = some d → x ≠ s →
    ∃ p d' w, st.parent x = some p ∧ st.dist p = some d' ∧ link p x w ∧ d' + w ≤ d

theorem recorded_initial (link : V → V → W → Prop) (s stop : V) :
    Recorded link s stop (initial s stop : State V W) := by
  refine ⟨⟨if_pos rfl, if_pos rfl⟩, ?_⟩
  intro x d here other
  exact absurd ((if_neg other).symm.trans here) (by simp)

variable [IsOrderedAddMonoid W]

/-- A label that is lowered gets a new link, and the other links are kept. -/
theorem Recorded.update (recorded : Recorded link s stop st) (low : 0 ≤ c) (nonneg : 0 ≤ w)
    (label : ∃ d, st.dist v = some d ∧ d ≤ c) (worse : Worse (st.dist x) (c + w))
    (linked : link' v x w) (kept : ∀ p y w, y ≠ x → link p y w → link' p y w)
    (queue : List (W × V)) : Recorded link' s stop
      ⟨Function.update st.dist x (some (c + w)), Function.update st.parent x (some v), queue⟩ := by
  obtain ⟨⟨zero, mark⟩, others⟩ := recorded
  obtain ⟨d, here, le⟩ := label
  have notSource : x ≠ s := by
    rintro rfl
    exact absurd (worse 0 zero) (not_lt.mpr (add_nonneg low nonneg))
  -- a loop of a non-negative weight improves no label
  have notSelf : v ≠ x := by
    rintro rfl
    exact absurd (worse d here) (not_lt.mpr (le.trans (le_add_of_nonneg_right nonneg)))
  refine ⟨⟨?_, ?_⟩, ?_⟩
  · exact (Function.update_of_ne (Ne.symm notSource) _ _).trans zero
  · exact (Function.update_of_ne (Ne.symm notSource) _ _).trans mark
  · intro y e labelled other
    dsimp only at labelled ⊢
    by_cases same : y = x
    · subst same
      rw [Function.update_self, Option.some_inj] at labelled
      subst labelled
      refine ⟨v, d, w, Function.update_self _ _ _, ?_, linked, add_le_add_left le w⟩
      rw [Function.update_of_ne notSelf, here]
    · rw [Function.update_of_ne same] at labelled
      obtain ⟨p, d', w', parent, before, link, sum⟩ := others y e labelled other
      obtain ⟨d'', after, less⟩ := improved_update worse p d' before
      refine ⟨p, d'', w', ?_, after, kept p y w' same link, (add_le_add_left less w').trans sum⟩
      rw [Function.update_of_ne same, parent]

theorem Recorded.improve (recorded : Recorded link s stop st) (low : 0 ≤ c) (nonneg : 0 ≤ w)
    (label : ∃ d, st.dist v = some d ∧ d ≤ c) (linked : link v x w) :
    Recorded link s stop (improve c v st (x, w)) := by
  unfold ShortestPaths.improve
  split
  · rename_i worse
    exact recorded.update low nonneg label worse linked (fun _ _ _ _ => id) _
  · exact recorded

theorem Recorded.expand {arcs : List (V × W)} (recorded : Recorded link s stop st) (low : 0 ≤ c)
    (label : ∃ d, st.dist v = some d ∧ d ≤ c)
    (linked : ∀ arc ∈ arcs, link v arc.1 arc.2 ∧ 0 ≤ arc.2) :
    Recorded link s stop (expand c v st arcs) := by
  induction arcs generalizing st with
  | nil => exact recorded
  | cons arc arcs ih =>
    obtain ⟨first, nonneg⟩ := linked arc List.mem_cons_self
    obtain ⟨d, here, le⟩ := label
    obtain ⟨d', here', less⟩ := improved_improve c v st arc v d here
    exact ih (recorded.improve low nonneg ⟨d, here, le⟩ first) ⟨d', here', less.trans le⟩
      fun arc' later => linked arc' (List.mem_cons_of_mem _ later)

/-- Following up a label. -/
theorem Recorded.settle (recorded : Recorded link s stop st) (rest : List (W × V)) (low : 0 ≤ c)
    (label : ∃ d, st.dist v = some d ∧ d ≤ c)
    (linked : ∀ arc ∈ succ v, link v arc.1 arc.2 ∧ 0 ≤ arc.2) :
    Recorded link s stop (settle succ c v rest st) := by
  have start : Recorded link s stop { st with queue := rest } := ⟨recorded.source, recorded.others⟩
  unfold ShortestPaths.settle
  split
  · exact start
  · exact start.expand low label linked

end

end FastGraph.ShortestPaths
