import FastGraph.Index.Proofs.SkipList
import FastGraph.Misc.Walls
import FastGraph.Misc.WithNan

/-!
# Skip lists with NaN scores

An element with a NaN score goes to the front of its list, no search steps on it, and it is never
taken out. What is out of order in the list is walled off by such elements, so that an element
that some query finds is also found by the search that takes it out.
-/

namespace FastGraph.SkipList
open Tower WithNan

section
variable {E : Type}

/-- The place of an item in the order of the list. -/
def placeOf : Item (WithNan E) → Option (E ×ₗ Bytes)
  | (num s, m) => some (toLex (s, m))
  | (nan, _) => none

/-- The place of a tower. -/
def place (t : Tower (Item (WithNan E))) : Option (E ×ₗ Bytes) := placeOf t.item

/-- The score of a place. -/
def scoreAt (k : E ×ₗ Bytes) : E := (ofLex k).1

variable {t : Tower (Item (WithNan E))} {s : E} {m : Bytes} {score : WithNan E}

theorem place_eq_some {k : E ×ₗ Bytes} : place t = some k ↔ t.item = (num (ofLex k).1, (ofLex k).2) := by
  unfold place
  obtain ⟨score, member⟩ := t.item
  cases score with
  | nan => simp [placeOf]
  | num x =>
    simp only [placeOf, Option.some.injEq, Prod.mk.injEq, num.injEq]
    constructor
    · rintro rfl
      exact ⟨rfl, rfl⟩
    · rintro ⟨rfl, rfl⟩
      rfl

theorem place_eq_none : place t = none ↔ t.item.1 = nan := by
  unfold place
  obtain ⟨score, member⟩ := t.item
  cases score <;> simp [placeOf]

variable [LinearOrder E]

theorem faithful_num : Faithful (num : E → WithNan E) :=
  ⟨fun _ _ => Iff.rfl, fun x y => by rw [num_beq_num, beq_iff_eq]⟩

theorem lessItem_num : lessItem (num s) m t.item = true ↔ Below place (· < toLex (s, m)) t := by
  unfold Below place
  obtain ⟨score, member⟩ := t.item
  cases score with
  | nan => simp [lessItem, placeOf]
  | num x => simp [lessItem, placeOf, Prod.Lex.toLex_lt_toLex]

theorem lessItem_nan : lessItem nan m t.item = false := by
  simp [lessItem]

theorem isAtItem_num : isAtItem (num s) m t.item = true ↔ place t = some (toLex (s, m)) := by
  unfold place
  obtain ⟨score, member⟩ := t.item
  cases score with
  | nan => simp [isAtItem, placeOf]
  | num x => simp [isAtItem, placeOf, and_comm]

theorem isAtItem_nan : isAtItem nan m t.item = false := by
  simp [isAtItem]

theorem scoreAt_mono (a b : E ×ₗ Bytes) (le : a ≤ b) : scoreAt a ≤ scoreAt b := by
  rcases Prod.Lex.le_iff.mp le with smaller | ⟨equal, -⟩
  · exact smaller.le
  · exact equal.le

/-! ### Stops -/

variable {l : SkipList (WithNan E)} {pre post ts : List (Tower (Item (WithNan E)))}
  {b : Item (WithNan E) → Bool} {P : E ×ₗ Bytes → Prop}

omit [LinearOrder E] in
/-- Where a search stops, in terms of heights. -/
theorem Shape.stops (shape : Shape l (pre ++ post))
    (same : ∀ t, b t.item = true ↔ Below place P t) (leapt : Leapt b pre) (held : Held b post) :
    Stops place Tower.height P pre post := by
  constructor
  · intro front y back cut above
    have fails : b y.item = false := by
      rw [← Bool.not_eq_true, same]
      exact above
    obtain ⟨x, mem, passes, j, shown, hidden⟩ := leapt front y back cut fails
    refine ⟨x, mem, (same x).mp passes, ?_⟩
    rw [shape.shows_iff (by simp [cut, mem])] at shown
    rw [← Bool.not_eq_true, shape.shows_iff (by simp [cut])] at hidden
    omega
  · intro front x back cut below
    obtain ⟨y, mem, fails, shown⟩ := held front x back cut ((same x).mpr below)
    refine ⟨y, mem, ?_, ?_⟩
    · rw [← same, fails]
      simp
    · have memX : x ∈ pre ++ post := by simp [cut]
      have ground := (shape.heights x memX).1
      have top := shown (x.height - 1) ((shape.shows_iff memX _).mpr (by omega))
      rw [shape.shows_iff (by simp [cut, mem])] at top
      omega

theorem Shape.stops_cut (shape : Shape l (pre ++ post)) (cut : Cut (num s) m pre post) :
    Stops place Tower.height (· < toLex (s, m)) pre post :=
  shape.stops (fun _ => lessItem_num) cut.leapt cut.held

/-- A search for a NaN stops at once. -/
theorem cut_nan (cut : Cut nan m pre post) : pre = [] := by
  rcases List.eq_nil_or_concat pre with rfl | ⟨rest, x, rfl⟩
  · rfl
  · have passes := cut.front rest x (List.concat_eq_append)
    rw [lessItem_nan] at passes
    cases passes

/-! ### Lists that are watched -/

/-- What is out of order is walled off, the members have names in `names`, and only elements in
`live` are exposed. -/
structure Watched (names : Bytes → Prop) (live : E ×ₗ Bytes → Prop) (l : SkipList (WithNan E))
    (ts : List (Tower (Item (WithNan E)))) : Prop where
  shape : Shape l ts
  named : ∀ t ∈ ts, names t.item.2
  guarded : Guarded place Tower.height ts
  exposed : ∀ k, Exposed place Tower.height scoreAt ts k → live k

variable {names : Bytes → Prop} {live live' : E ×ₗ Bytes → Prop} {coins : List Bool}
  {ts' : List (Tower (Item (WithNan E)))} {l' : SkipList (WithNan E)}

theorem Watched.mono (watched : Watched names live l ts) (le : ∀ k, live k → live' k) :
    Watched names live' l ts :=
  ⟨watched.shape, watched.named, watched.guarded, fun k exposed => le k (watched.exposed k exposed)⟩

theorem watched_empty : Watched names live (SkipList.empty : SkipList (WithNan E)) [] := by
  refine ⟨shape_empty, by simp, guarded_nil, ?_⟩
  rintro k ⟨front, x, rest, cut, -⟩
  simp at cut

/-- `remove` leaves no element exposed at the place. -/
theorem Removed.watched {done : Bool} (removed : Removed l ts score m l' ts' done)
    (watched : Watched names live l ts) (shape : Shape l' ts') :
    Watched names (fun k => live k ∧ score ≠ num (ofLex k).1 ∨ live k ∧ m ≠ (ofLex k).2) l' ts' := by
  -- an element is still live if it was and is at another place
  have other (k : E ×ₗ Bytes) (was : live k) (free : score = num (ofLex k).1 → m = (ofLex k).2 → False) :
      live k ∧ score ≠ num (ofLex k).1 ∨ live k ∧ m ≠ (ofLex k).2 := by
    by_cases same : score = num (ofLex k).1
    · exact Or.inr ⟨was, free same⟩
    · exact Or.inl ⟨was, same⟩
  cases removed with
  | @absent pre post split cut missing same same' =>
    subst same same' split
    refine ⟨shape, watched.named, watched.guarded, ?_⟩
    intro k exposed
    refine other k (watched.exposed k exposed) ?_
    rintro rfl rfl
    refine (watched.shape.stops_cut cut).not_exposed scoreAt_mono watched.guarded ?_ exposed
    intro x rest first here
    have fails := missing x rest first
    rw [isAtItem_num.mpr here] at fails
    cases fails
  | @present pre t post split cut here result scores =>
    subst split result
    cases score with
    | nan =>
      rw [isAtItem_nan] at here
      cases here
    | num s =>
      have own := isAtItem_num.mp here
      have placed : place t ≠ none := by
        rw [own]
        exact Option.some_ne_none _
      refine ⟨shape, ?_, watched.guarded.erase placed, ?_⟩
      · intro u mem
        apply watched.named
        rcases List.mem_append.mp mem with before | after <;> simp [*]
      · intro k exposed
        refine other k (watched.exposed k (exposed.of_erase placed)) ?_
        rintro same rfl
        obtain rfl := num.inj same
        exact (watched.shape.stops_cut cut).not_exposed_erase scoreAt_mono watched.guarded own exposed

/-- An element that is put where a search for it stops is the only one that is new. -/
theorem Watched.added {t : Tower (Item (WithNan E))} (watched : Watched names live l (pre ++ post))
    (cut : Cut score m pre post) (absent : ∀ s, score = num s → ∀ x rest, post = x :: rest →
      place x ≠ some (toLex (s, m)))
    (item : t.item = (score, m)) (name : names m) (shape : Shape l' (pre ++ t :: post)) :
    Watched names (fun k => live k ∨ score = num (ofLex k).1 ∧ m = (ofLex k).2) l'
      (pre ++ t :: post) := by
  have named : ∀ u ∈ pre ++ t :: post, names u.item.2 := by
    intro u mem
    rw [List.mem_append, List.mem_cons] at mem
    rcases mem with before | rfl | after
    · exact watched.named u (by simp [before])
    · rw [item]
      exact name
    · exact watched.named u (by simp [after])
  cases score with
  | nan =>
    obtain rfl := cut_nan cut
    have nowhere : place t = none := by
      rw [place_eq_none, item]
    exact ⟨shape, named, watched.guarded.cons nowhere, fun k exposed =>
      Or.inl (watched.exposed k (exposed.of_cons nowhere))⟩
  | num s =>
    have stops := watched.shape.stops_cut cut
    have here : place t = some (toLex (s, m)) := place_eq_some.mpr item
    refine ⟨shape, named, watched.guarded.insert stops here (absent s rfl), ?_⟩
    intro k exposed
    rcases exposed.of_insert scoreAt_mono stops here with rfl | old
    · exact Or.inr ⟨rfl, rfl⟩
    · exact Or.inl (watched.exposed k old)

/-- `insert` exposes no element but the new one. -/
theorem Inserted.watched (inserted : Inserted l ts coins score m l' ts')
    (watched : Watched names live l ts) (name : names m) (shape : Shape l' ts') :
    Watched names (fun k => live k ∨ score = num (ofLex k).1 ∧ m = (ofLex k).2) l' ts' := by
  cases inserted with
  | present split cut here same same' =>
    subst same same'
    exact watched.mono fun k was => Or.inl was
  | @fresh pre post t split cut absent unscored item result scores =>
    subst split result
    refine watched.added cut ?_ item name shape
    rintro s rfl x rest first here
    have fails := absent x rest first
    rw [isAtItem_num.mpr here] at fails
    cases fails
  | @moved old l₁ done pre₀ post₀ pre post t split cut₀ absent scored differs removed shape₁ cut item
      result scores =>
    subst split result
    have watched₁ := (removed.watched watched shape₁).mono fun k was => was.elim And.left And.left
    refine watched₁.added cut ?_ item name shape
    rintro s rfl
    have stops₀ := watched.shape.stops_cut cut₀
    have absent₀ : ∀ x rest, post₀ = x :: rest → place x ≠ some (toLex (s, m)) := by
      intro x rest first here
      have fails := absent x rest first
      rw [isAtItem_num.mpr here] at fails
      cases fails
    have stops := shape₁.stops_cut cut
    cases removed with
    | absent split _ _ _ same =>
      exact stops₀.absent watched.guarded absent₀ same.symm stops
    | @present m₁ z m₂ split _ here result _ =>
      refine stops₀.absent_erase watched.guarded absent₀ split ?_ result.symm stops
      intro nowhere
      cases old with
      | nan =>
        rw [isAtItem_nan] at here
        cases here
      | num x =>
        rw [isAtItem_num.mp here] at nowhere
        cases nowhere

/-! ### Queries -/

omit [LinearOrder E] in
/-- What a query collects stands behind nothing but what it collects. -/
theorem mem_takeWhile_items {q : Item (WithNan E) → Bool} {x : Item (WithNan E)}
    (mem : x ∈ (items ts).takeWhile q) :
    ∃ mid t back, ts = mid ++ t :: back ∧ t.item = x ∧ q x = true ∧ ∀ u ∈ mid, q u.item = true := by
  induction ts with
  | nil => cases mem
  | cons u us ih =>
    rw [items, List.map_cons, List.takeWhile_cons] at mem
    split at mem
    · rename_i passes
      rcases List.mem_cons.mp mem with rfl | later
      · exact ⟨[], u, us, rfl, rfl, passes, by simp⟩
      · obtain ⟨mid, t, back, rfl, item, passes', all⟩ := ih later
        refine ⟨u :: mid, t, back, rfl, item, passes', ?_⟩
        intro v memV
        rcases List.mem_cons.mp memV with rfl | memV
        · exact passes
        · exact all v memV
    · cases mem

theorem below_minScore (minScore : WithNan E) (t : Tower (Item (WithNan E))) :
    decide (t.item.1 < minScore) = true ↔ Below place (fun r => num (scoreAt r) < minScore) t := by
  rw [decide_eq_true_iff]
  constructor
  · intro less
    cases score : t.item.1 with
    | nan =>
      rw [score] at less
      exact absurd less not_nan_lt
    | num x =>
      rw [score] at less
      exact ⟨toLex (x, t.item.2), place_eq_some.mpr (Prod.ext score rfl), less⟩
  · rintro ⟨k, here, less⟩
    rw [place_eq_some.mp here]
    exact less

theorem placed_of_le {maxScore : WithNan E} (le : t.item.1 ≤ maxScore) : place t ≠ none := by
  rw [Ne, place_eq_none]
  intro nowhere
  rw [nowhere] at le
  exact not_nan_le le

/-- A query returns exposed elements only. -/
theorem Watched.rangeByScore (watched : Watched names live l ts) (minScore maxScore : WithNan E) :
    ∃ results, l.rangeByScore minScore maxScore = some results ∧
      ∀ x ∈ results, names x.2 ∧ ∃ k, x = (num (ofLex k).1, (ofLex k).2) ∧ live k := by
  obtain ⟨pre, post, rfl, -, -, leapt, held, run⟩ :=
    watched.shape.rangeByScore minScore maxScore
  refine ⟨_, run, ?_⟩
  intro x mem
  obtain ⟨mid, t, back, rfl, rfl, le, all⟩ := mem_takeWhile_items mem
  refine ⟨watched.named t (by simp), ?_⟩
  have stops := watched.shape.stops (below_minScore minScore) leapt held
  have placed : ∀ y ∈ mid, place y ≠ none := fun y memY =>
    placed_of_le (of_decide_eq_true (all y memY))
  obtain ⟨k, here⟩ := Option.ne_none_iff_exists'.mp (placed_of_le (of_decide_eq_true le))
  have down (a b : E ×ₗ Bytes) (less : a ≤ b) (below : num (scoreAt b) < minScore) :
      num (scoreAt a) < minScore :=
    num_lt_of_le (scoreAt_mono a b less) below
  have above := stops.not_below watched.guarded.suffix here down placed
  refine ⟨k, place_eq_some.mp here, watched.exposed k ⟨pre ++ mid, t, back, by simp, here, ?_⟩⟩
  refine stops.not_walled ?_ placed
  intro r below
  cases minScore with
  | nan => exact absurd below not_lt_nan
  | num m => exact (num_lt_num.mp below).trans_le (not_lt.mp above)

/-- An exposed element is returned by the query for its score. -/
theorem Watched.found (watched : Watched names live l ts) {k : E ×ₗ Bytes}
    (exposed : Exposed place Tower.height scoreAt ts k) :
    ∃ results, l.rangeByScore (num (ofLex k).1) (num (ofLex k).1) = some results ∧
      (num (ofLex k).1, (ofLex k).2) ∈ results := by
  obtain ⟨pre, post, rfl, -, -, leapt, held, run⟩ :=
    watched.shape.rangeByScore (num (ofLex k).1) (num (ofLex k).1)
  refine ⟨_, run, ?_⟩
  have stops := watched.shape.stops (below_minScore _) leapt held
  obtain ⟨front, x, rest, cut, here, clear⟩ := exposed
  have low (r : E ×ₗ Bytes) (less : num (scoreAt r) < num (ofLex k).1) : r < k :=
    not_le.mp fun le => absurd (scoreAt_mono _ _ le) (not_le.mpr less)
  rcases split_append cut with ⟨mid, rfl, rfl⟩ | ⟨mid, rfl, rfl⟩
  · exact (stops.not_mem watched.guarded (by simp) here low).elim
  · have all : ∀ y ∈ mid, y.item.1 ≤ num (ofLex k).1 := by
      intro y mem
      by_contra above
      refine clear (stops.walled watched.guarded here ?_ (fun r less => less) ⟨y, mem, ?_⟩)
      · intro a b le less
        exact num_lt_num.mpr ((scoreAt_mono a b le).trans_lt (num_lt_num.mp less))
      · intro p hereY
        by_contra less
        rw [place_eq_some.mp hereY, num_le_num] at above
        exact above (scoreAt_mono _ _ (not_le.mp less).le)
    have item := place_eq_some.mp here
    rw [items, List.map_append, List.takeWhile_append_of_pos]
    · simp [item]
    · intro y mem
      obtain ⟨u, memU, rfl⟩ := List.mem_map.mp mem
      exact decide_eq_true (all u memU)

end

end FastGraph.SkipList
