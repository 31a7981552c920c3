import FastGraph.Index.SkipList
import FastGraph.Misc.Towers

/-!
# The shape of a skip list

The heap of a skip list is laid out as its head followed by a list of towers. That holds
for every order of the scores, also for comparisons that are no order: a search stops at
one place of the list on all levels, and what it leaves in `update` are the last towers of
the chains in front of that place.
-/

namespace FastGraph.SkipList
open Tower

section
variable {S : Type}

/-- What the towers of a skip list hold. -/
abbrev Item (S : Type) := S × Bytes

/-- The heap as a store of items and pointers. -/
def view (heap : UnorderedMap Nat (SkipNode S)) : Lookup (Item S) :=
  fun a => (heap.find a).map fun node => ((node.score, node.member), node.forward)

variable {heap heap' : UnorderedMap Nat (SkipNode S)} {ts pre post front back xs ys : List (Tower (Item S))}
  {cur t n h : Tower (Item S)} {i k a : Nat} {b : Item S → Bool} {before : SkipNode S → Bool}

theorem view_eq_none_iff : view heap a = none ↔ heap.find a = none := by
  simp [view]

theorem find_of_view {item : Item S} {f : List (Option Nat)} (stored : view heap a = some (item, f)) :
    ∃ node, heap.find a = some node ∧ node.score = item.1 ∧ node.member = item.2 ∧
      node.forward = f := by
  obtain ⟨node, found, same⟩ := Option.map_eq_some_iff.mp stored
  obtain ⟨rfl, rfl⟩ := Prod.ext_iff.mp same
  exact ⟨node, found, rfl, rfl, rfl⟩

/-- A tower's pointer at a level it shows on. -/
theorem forward_of_record (record : Record (view heap) t back) (shown : t.shows i = true) :
    forward heap t.addr i = some (nextAt i back) := by
  obtain ⟨f, stored, -, links⟩ := record
  obtain ⟨node, found, -, -, rfl⟩ := find_of_view stored
  simp [forward, found, links i shown]

/-- Setting a pointer that the node has. -/
theorem setForward_spec {item : Item S} {f : List (Option Nat)} (stored : view heap a = some (item, f))
    (inside : k < f.length) (q : Option Nat) :
    ∃ heap', setForward heap a k q = some heap' ∧ view heap' a = some (item, f.set k q) ∧
      (∀ a', a' ≠ a → view heap' a' = view heap a') ∧ heap'.size = heap.size := by
  obtain ⟨node, found, score, member, rfl⟩ := find_of_view stored
  refine ⟨_, by simp only [setForward, found, Option.bind_eq_bind, Option.bind_some,
    if_pos inside]; rfl, ?_, ?_, ?_⟩
  · simp [view, score, member]
  · intro a' other
    simp [view, UnorderedMap.find_set, other]
  · rw [UnorderedMap.size_set, found]
    rfl

/-! ### Searches -/

/-- The list begins with a tower that is not `before` the place searched for and shows on all
levels up to `i`, or it is empty. -/
def Barrier (b : Item S → Bool) (i : Nat) (ts : List (Tower (Item S))) : Prop :=
  ts = [] ∨ ∃ x rest, ts = x :: rest ∧ b x.item = false ∧ ∀ j, j ≤ i → x.shows j = true

/-- A tower that shows on a level shows on all levels below. -/
def Solid (t : Tower (Item S)) : Prop := ∀ i j, j ≤ i → t.shows i = true → t.shows j = true

/-- The list is empty or ends in a tower that is `before` the place searched for and shows on
all levels up to `i`. -/
def Passed (b : Item S → Bool) (i : Nat) (ts : List (Tower (Item S))) : Prop :=
  ts = [] ∨ ∃ rest x, ts = rest ++ [x] ∧ b x.item = true ∧ ∀ j, j ≤ i → x.shows j = true

theorem Barrier.anti {j : Nat} (barrier : Barrier b i ts) (below : j ≤ i) : Barrier b j ts := by
  rcases barrier with none | ⟨x, rest, first, fails, shown⟩
  · exact Or.inl none
  · exact Or.inr ⟨x, rest, first, fails, fun k small => shown k (small.trans below)⟩

theorem Passed.lastAt (passed : Passed b i ts) {j : Nat} (below : j ≤ i) :
    lastAt j cur ts = lastAt i cur ts := by
  rcases passed with rfl | ⟨rest, x, rfl, -, shown⟩
  · rfl
  · rw [lastAt_append, lastAt_append, lastAt_cons, lastAt_cons, shown j below, shown i le_rfl,
      if_pos rfl, if_pos rfl]
    rfl

/-- Every tower of the list that is not `before` the place searched for is overtopped by a later
one that is. -/
def Leapt (b : Item S → Bool) (ts : List (Tower (Item S))) : Prop :=
  ∀ front y back, ts = front ++ y :: back → b y.item = false →
    ∃ x ∈ back, b x.item = true ∧ ∃ j, x.shows j = true ∧ y.shows j = false

/-- Every tower of the list that is `before` the place searched for stands behind one that is not
and that shows on all its levels. -/
def Held (b : Item S → Bool) (ts : List (Tower (Item S))) : Prop :=
  ∀ front x back, ts = front ++ x :: back → b x.item = true →
    ∃ y ∈ front, b y.item = false ∧ ∀ j, x.shows j = true → y.shows j = true

theorem leapt_nil : Leapt b [] := by
  intro front y back cut
  simp at cut

theorem held_nil : Held b [] := by
  intro front x back cut
  simp at cut

theorem Leapt.append (first : Leapt b xs) (second : Leapt b ys) : Leapt b (xs ++ ys) := by
  intro front y back cut stops
  rcases split_append cut with ⟨mid, split, rfl⟩ | ⟨mid, -, split⟩
  · obtain ⟨x, mem, passes⟩ := first front y mid split stops
    exact ⟨x, List.mem_append_left ys mem, passes⟩
  · exact second mid y back split stops

/-- Towers that do not show on the level of a later one are overtopped by it. -/
theorem leapt_hidden (hidden : HiddenAt i xs) (passes : b t.item = true) (shown : t.shows i = true) :
    Leapt b (xs ++ [t]) := by
  intro front y back cut stops
  rcases split_append cut with ⟨mid, split, rfl⟩ | ⟨mid, -, split⟩
  · exact ⟨t, by simp, passes, i, shown, hidden y (by simp [split])⟩
  · cases mid with
    | nil =>
      obtain ⟨rfl, -⟩ := List.cons.inj split
      rw [passes] at stops
      cases stops
    | cons m mid => simp at split

/-- A tower that shows on all levels of the towers behind it holds them. -/
theorem Held.cons (held : Held b ys) (stops : b t.item = false)
    (covers : ∀ x ∈ xs, ∀ j, x.shows j = true → t.shows j = true) : Held b (t :: xs ++ ys) := by
  intro front x back cut passes
  rcases split_append cut with ⟨mid, split, -⟩ | ⟨mid, rfl, split⟩
  · cases front with
    | nil =>
      obtain ⟨rfl, -⟩ := List.cons.inj split
      rw [passes] at stops
      cases stops
    | cons f front =>
      obtain ⟨rfl, rfl⟩ := List.cons.inj split
      exact ⟨t, by simp, stops, covers x (by simp)⟩
  · obtain ⟨y, mem, stops', shows⟩ := held mid x back split passes
    exact ⟨y, by simp [mem], stops', shows⟩

/-- The walk along level `i` stops behind the last tower it may enter: what lies between it and
the next barrier does not show on that level. -/
theorem walk_spec (same : ∀ node, before node = b (node.score, node.member)) {fuel : Nat}
    {gap rest : List (Tower (Item S))} (laid : Laid (view heap) (front ++ cur :: gap ++ rest))
    (solid : ∀ t ∈ gap, Solid t) (shown : cur.shows i = true) (barrier : Barrier b i rest)
    (low : ∀ t ∈ gap, ∀ j, i < j → t.shows j = false) (held : Held b rest)
    (enough : gap.length < fuel) :
    ∃ w g n, gap = w ++ g ++ n ∧ walk heap before i fuel cur.addr = some (lastAt i cur w).addr ∧
      HiddenAt i g ∧ Barrier b i (n ++ rest) ∧ Passed b i w ∧ Leapt b w ∧ Held b (n ++ rest) := by
  induction fuel generalizing front cur gap with
  | zero => omega
  | succ fuel ih =>
    have record : Record (view heap) cur (gap ++ rest) := laid front cur (gap ++ rest) (by simp)
    rw [walk, forward_of_record record shown]
    cases next : nextAt i (gap ++ rest) with
    | none =>
      have hidden := nextAt_eq_none_iff.mp next
      exact ⟨[], gap, [], by simp, rfl, fun t mem => hidden t (by simp [mem]), barrier, Or.inl rfl,
        leapt_nil, held⟩
    | some a =>
      obtain ⟨pre, x, post, cut, rfl, shows, hidden⟩ := nextAt_eq_some next
      have recordX : Record (view heap) x post := laid (front ++ cur :: pre) x post (by
        rw [List.append_assoc, List.cons_append, cut]; simp)
      obtain ⟨f, stored, -, -⟩ := recordX
      obtain ⟨node, found, score, member, -⟩ := find_of_view stored
      have test : before node = b x.item := by
        rw [same, score, member]
      simp only [Option.bind_eq_bind, Option.bind_some, found, test]
      rcases split_append cut with ⟨mid, rfl, rfl⟩ | ⟨mid, rfl, rfl⟩
      · -- the next tower lies in front of the barrier
        have solidX : ∀ j, j ≤ i → x.shows j = true := fun j below => solid x (by simp) i j below shows
        cases passes : b x.item with
        | false =>
          rw [if_neg (by simp)]
          refine ⟨[], pre, x :: mid, by simp, rfl, hidden, Or.inr ⟨x, mid ++ rest, rfl, passes, solidX⟩,
            Or.inl rfl, leapt_nil, held.cons passes ?_⟩
          intro y mem j shownY
          apply solidX
          by_contra above
          rw [low y (by simp [mem]) j (not_le.mp above)] at shownY
          cases shownY
        | true =>
          rw [if_pos rfl]
          have laid' : Laid (view heap) (front ++ cur :: pre ++ x :: mid ++ rest) := by
            simpa using laid
          simp only [List.length_append, List.length_cons] at enough
          obtain ⟨w, g, n, rfl, run, hidden', barrier', passed', leapt', held'⟩ := ih laid'
            (fun t mem => solid t (by simp [mem])) shows (fun t mem => low t (by simp [mem]))
            (by omega)
          refine ⟨pre ++ x :: w, g, n, by simp, ?_, hidden', barrier', ?_, ?_, held'⟩
          · rw [run, lastAt_append, lastAt_cons, shows, if_pos rfl]
          · rcases passed' with rfl | ⟨w', y, rfl, hy, solidY⟩
            · exact Or.inr ⟨pre, x, rfl, passes, solidX⟩
            · exact Or.inr ⟨pre ++ x :: w', y, by simp, hy, solidY⟩
          · rw [List.append_cons]
            exact (leapt_hidden hidden passes shows).append leapt'
      · -- the next tower is the barrier or lies behind it
        have hiddenGap : HiddenAt i gap := fun t mem => hidden t (by simp [mem])
        have stops : b x.item = false := by
          rcases barrier with none | ⟨y, rest', first, fails, shownY⟩
          · simp at none
          · cases mid with
            | nil =>
              rw [List.nil_append, List.cons.injEq] at first
              rw [first.1, fails]
            | cons m mid =>
              rw [List.cons_append, List.cons.injEq] at first
              have clash := hidden m (by simp)
              rw [first.1, shownY i le_rfl] at clash
              cases clash
        rw [stops, if_neg (by simp)]
        exact ⟨[], gap, [], by simp, rfl, hiddenGap, barrier, Or.inl rfl, leapt_nil, held⟩

/-- The search from level `i - 1` down leaves in `update` the last towers of the chains in
front of the place where it stops. -/
theorem searchLoop_spec (same : ∀ node, before node = b (node.score, node.member))
    {gap rest : List (Tower (Item S))} (laid : Laid (view heap) (front ++ cur :: gap ++ rest))
    (solid : ∀ t ∈ gap, Solid t) (shown : ∀ j, j < i → cur.shows j = true)
    (barrier : Barrier b i rest) (low : ∀ t ∈ gap, ∀ j, i ≤ j → t.shows j = false)
    (held : Held b rest) (enough : gap.length < heap.size) (update : Nat → Option Nat) :
    ∃ w g n update', gap = w ++ g ++ n ∧
      searchLoop heap before i cur.addr update = some ((lastAt 0 cur w).addr, update') ∧
      (∀ j, j < i → update' j = some (lastAt j cur w).addr) ∧ (∀ j, i ≤ j → update' j = update j) ∧
      (0 < i → HiddenAt 0 g) ∧ Barrier b 0 (n ++ rest) ∧ Passed b 0 w ∧ Leapt b w ∧
      Held b (n ++ rest) := by
  induction i generalizing front cur gap rest update with
  | zero =>
    exact ⟨[], gap, [], update, by simp, rfl, by simp, by simp, by simp, barrier, Or.inl rfl,
      leapt_nil, held⟩
  | succ i ih =>
    obtain ⟨w, g, n, rfl, run, hidden, barrier₁, passed₁, leapt₁, held₁⟩ := walk_spec same laid solid
      (shown i (Nat.lt_succ_self i)) (barrier.anti (Nat.le_succ i)) low held enough
    have stops : ∃ pre, front ++ cur :: (w ++ g ++ n) ++ rest =
        pre ++ lastAt i cur w :: g ++ (n ++ rest) := by
      rcases passed₁ with rfl | ⟨w', x, rfl, -, shownX⟩
      · exact ⟨front, by simp [lastAt]⟩
      · refine ⟨front ++ cur :: w', ?_⟩
        rw [lastAt_append, lastAt_cons, shownX i le_rfl, if_pos rfl]
        simp [lastAt]
    obtain ⟨pre, stops⟩ := stops
    rw [stops] at laid
    have shown' : ∀ j, j ≤ i → (lastAt i cur w).shows j = true := by
      intro j below
      rw [← passed₁.lastAt below]
      exact shows_lastAt (shown j (Nat.lt_succ_of_le below))
    have low₁ : ∀ t ∈ g, ∀ j, i ≤ j → t.shows j = false := by
      intro t mem j above
      rcases above.eq_or_lt with rfl | higher
      · exact hidden t mem
      · exact low t (by simp [mem]) j higher
    obtain ⟨w₂, g₂, n₂, update', rfl, rest', written, kept, hidden₂, barrier₂, passed₂, leapt₂,
      held₂⟩ := ih laid (fun t mem => solid t (by simp [mem])) (fun j below => shown' j below.le)
      barrier₁ low₁ held₁
      (by simp only [List.length_append] at enough ⊢; omega)
      (fun j => if j = i then some (lastAt i cur w).addr else update j)
    have inGap : HiddenAt i w₂ := fun t mem => hidden t (by simp [mem])
    refine ⟨w ++ w₂, g₂, n₂ ++ n, update', by simp, ?_, ?_, ?_, ?_, by simpa using barrier₂, ?_,
      leapt₁.append leapt₂, by simpa using held₂⟩
    · rw [searchLoop, run]
      simp only [Option.bind_eq_bind, Option.bind_some]
      rw [rest', lastAt_append, passed₁.lastAt (Nat.zero_le i)]
    · intro j small
      rcases Nat.lt_succ_iff_lt_or_eq.mp small with below | rfl
      · rw [written j below, lastAt_append, passed₁.lastAt below.le]
      · rw [kept j le_rfl, if_pos rfl, lastAt_append, lastAt_of_hidden inGap]
    · intro j big
      rw [kept j (by omega), if_neg (by omega)]
    · intro _
      cases i with
      | zero => exact fun t mem => hidden t (by simp [mem])
      | succ i => exact hidden₂ (Nat.succ_pos i)
    · rcases passed₂ with rfl | ⟨w', x, rfl, hx, shownX⟩
      · rw [List.append_nil]
        rcases passed₁ with rfl | ⟨w', x, rfl, hx, shownX⟩
        · exact Or.inl rfl
        · exact Or.inr ⟨w', x, rfl, hx, fun j below => shownX j (by omega)⟩
      · exact Or.inr ⟨w ++ w', x, by simp, hx, shownX⟩

/-! ### The invariant -/

variable [Inhabited S] {l : SkipList S}

/-- The head as a tower. -/
def headTower (l : SkipList S) : Tower (Item S) := full l.head (default, []) skipMaxLevel

/-- The skip list consists of its head and the towers `ts`. -/
structure Shape (l : SkipList S) (ts : List (Tower (Item S))) : Prop where
  laid : Laid (view l.heap) (headTower l :: ts)
  distinct : ((headTower l :: ts).map addr).Nodup
  whole : ∀ t ∈ ts, t = full t.addr t.item t.height
  heights : ∀ t ∈ ts, 1 ≤ t.height ∧ t.height ≤ l.level
  level : 1 ≤ l.level ∧ l.level ≤ skipMaxLevel
  fresh : ∀ a, l.nextAddr ≤ a → view l.heap a = none
  heapSize : l.heap.size = ts.length + 1
  size : l.size = ts.length

omit [Inhabited S] in
theorem solid_of_whole (whole : t = full t.addr t.item t.height) : Solid t := by
  intro i j below shown
  rw [whole] at shown ⊢
  simp only [full, decide_eq_true_eq] at shown ⊢
  omega

omit [Inhabited S] in
theorem hiddenAt_of_heights (whole : ∀ t ∈ ts, t = full t.addr t.item t.height)
    (low : ∀ t ∈ ts, t.height ≤ i) : HiddenAt i ts := by
  intro t mem
  rw [whole t mem]
  simp only [full, decide_eq_false_iff_not]
  have := low t mem
  omega

theorem shows_headTower (small : i < skipMaxLevel) : (headTower l).shows i = true := by
  simpa [headTower, full] using small

theorem Shape.shows_iff (shape : Shape l ts) (mem : t ∈ ts) (i : Nat) :
    t.shows i = true ↔ i < t.height := by
  rw [shape.whole t mem]
  simp [full]

theorem Shape.stored (shape : Shape l (pre ++ t :: post)) : Record (view l.heap) t post :=
  shape.laid (headTower l :: pre) t post (by simp)

theorem Shape.addr_lt (shape : Shape l ts) (mem : t ∈ headTower l :: ts) : t.addr < l.nextAddr := by
  by_contra above
  obtain ⟨pre, post, cut⟩ := List.append_of_mem mem
  obtain ⟨f, stored, -⟩ := shape.laid pre t post cut
  rw [shape.fresh t.addr (not_lt.mp above)] at stored
  cases stored

/-- A search of the whole list finds a place on all levels. -/
theorem Shape.search (shape : Shape l ts)
    (same : ∀ node, before node = b (node.score, node.member)) (update : Nat → Option Nat) :
    ∃ pre post update', ts = pre ++ post ∧
      l.search before update = some ((lastAt 0 (headTower l) pre).addr, update') ∧
      (∀ j, j < l.level → update' j = some (lastAt j (headTower l) pre).addr) ∧
      (∀ x rest, post = x :: rest → b x.item = false) ∧
      (∀ rest x, pre = rest ++ [x] → b x.item = true) ∧ Leapt b pre ∧ Held b post ∧
      forward l.heap (lastAt 0 (headTower l) pre).addr 0 = some (post.head?.map addr) := by
  obtain ⟨bottom, top⟩ := shape.level
  have laid : Laid (view l.heap) ([] ++ headTower l :: ts ++ []) := by simpa using shape.laid
  have low : ∀ t ∈ ts, ∀ j, l.level ≤ j → t.shows j = false := by
    intro t mem j above
    have top := (shape.heights t mem).2
    rw [shape.whole t mem]
    simp only [full, decide_eq_false_iff_not]
    omega
  obtain ⟨w, g, n, update', cut, run, written, -, hidden, barrier, passed, leapt, held⟩ :=
    searchLoop_spec (i := l.level) same laid (fun t mem => solid_of_whole (shape.whole t mem))
      (fun j below => shows_headTower (by omega)) (Or.inl rfl) low held_nil
      (by rw [shape.heapSize]; omega) update
  have ground : ∀ t ∈ ts, t.shows 0 = true := by
    intro t mem
    rw [shape.whole t mem]
    have := shape.heights t mem
    simp only [full, decide_eq_true_eq]
    omega
  have noGap : g = [] := by
    cases g with
    | nil => rfl
    | cons x g =>
      have clash := hidden (by omega) x (by simp)
      rw [ground x (by simp [cut])] at clash
      cases clash
  rw [noGap, List.append_nil] at cut
  rw [List.append_nil] at barrier held
  refine ⟨w, n, update', cut, run, written, ?_, ?_, leapt, held, ?_⟩
  · rintro x rest rfl
    rcases barrier with none | ⟨y, rest', first, fails, -⟩
    · cases none
    · rw [List.cons.injEq] at first
      rw [first.1, fails]
  · rintro rest x rfl
    rcases passed with none | ⟨rest', y, last, passes, -⟩
    · simp at none
    · rw [(List.append_inj' last rfl).2 |> List.cons.inj |>.1, passes]
  · obtain ⟨front, back, split, behind⟩ := lastAt_split 0 (headTower l) w
    have record := shape.laid front (lastAt 0 (headTower l) w) (back ++ n) (by
      rw [cut, ← List.cons_append, split]; simp)
    rw [forward_of_record record (shows_lastAt (shows_headTower (by decide))),
      behind.nextAt_append]
    cases n with
    | nil => rfl
    | cons x n => rw [nextAt_cons, ground x (by simp [cut]), if_pos rfl]; rfl

/-! ### Linking a new node -/

theorem randomLevel_range (coins : List Bool) {lvl : Nat} (bottom : 1 ≤ lvl)
    (top : lvl ≤ skipMaxLevel) :
    1 ≤ randomLevel coins lvl ∧ randomLevel coins lvl ≤ skipMaxLevel := by
  induction coins generalizing lvl with
  | nil => exact ⟨bottom, top⟩
  | cons c coins ih =>
    cases c with
    | false => exact ⟨bottom, top⟩
    | true =>
      rw [randomLevel]
      split
      · rename_i small
        exact ih (by omega) small
      · exact ⟨bottom, top⟩

omit [Inhabited S] in
/-- One iteration of the linking loop: the new tower appears on the chain of level `k`. -/
theorem linkAt_spec {update : Nat → Option Nat}
    (laid : Laid (view heap) (h :: pre ++ n.window 0 k :: post))
    (distinct : ((h :: pre ++ n :: post).map addr).Nodup) (base : h.shows k = true)
    (below : k < n.height) (written : update k = some (lastAt k h pre).addr) :
    ∃ heap', linkAt n.addr update heap k = some heap' ∧
      Laid (view heap') (h :: pre ++ n.window 0 (k + 1) :: post) ∧ heap'.size = heap.size ∧
      ∀ a, (view heap' a).isSome = (view heap a).isSome := by
  obtain ⟨front, back, split, behind⟩ := lastAt_split k h pre
  have shown : (lastAt k h pre).shows k = true := shows_lastAt base
  have hiddenK : HiddenAt k [n.window 0 k] := by
    intro t mem
    rw [List.mem_singleton.mp mem]
    simp [window]
  obtain ⟨f, stored, length, links⟩ := laid (h :: pre) (n.window 0 k) post rfl
  have record := laid front (lastAt k h pre) (back ++ n.window 0 k :: post) (by
    rw [split]; simp)
  have next : forward heap (lastAt k h pre).addr k = some (nextAt k post) := by
    rw [forward_of_record record shown, behind.nextAt_append, nextAt_cons, hiddenK _ (by simp)]
    rfl
  obtain ⟨heap₁, set₁, own₁, frame₁, size₁⟩ := setForward_spec (k := k) stored
    (by rw [length]; exact below) (nextAt k post)
  have distinctW : ((h :: pre ++ n.window 0 k :: post).map addr).Nodup := by
    simpa [window] using distinct
  have laid₁ : Laid (view heap₁) (h :: pre ++ n.window 0 k :: post) := by
    refine laid.own distinctW stored (List.length_set) ?_ own₁ frame₁
    intro i visible
    rw [List.getElem?_set_ne]
    rintro rfl
    simp [window] at visible
  have apart : ∀ t ∈ h :: pre, ∀ u ∈ n.window 0 k :: post, t.addr ≠ u.addr := by
    intro t memT u memU
    rw [List.map_append, List.nodup_append] at distinctW
    exact distinctW.2.2 _ (List.mem_map_of_mem memT) _ (List.mem_map_of_mem memU)
  obtain ⟨g, storedU, lengthU, linksU⟩ := laid₁ front (lastAt k h pre)
    (back ++ n.window 0 k :: post) (by rw [split]; simp)
  have insideU : k < g.length := by
    have some := linksU k shown
    by_contra out
    rw [List.getElem?_eq_none (not_lt.mp out)] at some
    cases some
  obtain ⟨heap₂, set₂, own₂, frame₂, size₂⟩ := setForward_spec storedU insideU (some n.addr)
  refine ⟨heap₂, ?_, ?_, by rw [size₂, size₁], ?_⟩
  · rw [linkAt, written]
    simp only [Option.bind_eq_bind, Option.bind_some, next]
    rw [show setForward heap n.addr k (nextAt k post) = some heap₁ from set₁]
    exact set₂
  · refine laid₁.relink (w := n.window 0 (k + 1)) (k := k) ?_ apart rfl rfl rfl ?_ base ?_ storedU
      ?_ frame₂
    · rw [List.map_append, List.nodup_append] at distinct
      exact distinct.1
    · intro i other
      simp only [window, decide_eq_decide]
      omega
    · intro _ f' stored'
      rw [own₁] at stored'
      obtain rfl := (Prod.ext_iff.mp (Option.some.inj stored')).2
      rw [List.getElem?_set_self (by rw [length]; exact below)]
    · rw [own₂, nextAt_cons, if_pos (by simp [window])]
      rfl
  · intro a
    by_cases self : a = (lastAt k h pre).addr
    · subst self
      rw [own₂]
      rw [frame₁ _ (apart _ (by simp [split]) _ (by simp))] at storedU
      rw [storedU]
      rfl
    · rw [frame₂ a self]
      by_cases new : a = n.addr
      · subst new
        rw [show view heap₁ n.addr = _ from own₁, show view heap n.addr = _ from stored]
        rfl
      · rw [frame₁ a new]

omit [Inhabited S] in
/-- The linking loop over the levels below `k`. -/
theorem linkLoop_spec {update : Nat → Option Nat}
    (laid : Laid (view heap) (h :: pre ++ n.window 0 0 :: post))
    (distinct : ((h :: pre ++ n :: post).map addr).Nodup) (base : ∀ j, j < k → h.shows j = true)
    (below : k ≤ n.height) (written : ∀ j, j < k → update j = some (lastAt j h pre).addr) :
    ∃ heap', (List.range k).foldlM (linkAt n.addr update) heap = some heap' ∧
      Laid (view heap') (h :: pre ++ n.window 0 k :: post) ∧ heap'.size = heap.size ∧
      ∀ a, (view heap' a).isSome = (view heap a).isSome := by
  induction k with
  | zero => exact ⟨heap, rfl, laid, rfl, fun _ => rfl⟩
  | succ k ih =>
    obtain ⟨heap₁, run₁, laid₁, size₁, same₁⟩ := ih (fun j small => base j (by omega)) (by omega)
      (fun j small => written j (by omega))
    obtain ⟨heap', run', laid', size', same'⟩ := linkAt_spec laid₁ distinct
      (base k (Nat.lt_succ_self k)) below (written k (Nat.lt_succ_self k))
    refine ⟨heap', ?_, laid', by rw [size', size₁], fun a => by rw [same' a, same₁ a]⟩
    rw [List.range_succ, List.foldlM_append, run₁]
    simp [run']

variable [BEq S] [LT S] [DecidableLT S]

omit [BEq S] [LT S] [DecidableLT S] in
/-- The end of `insert` puts a new tower at the place that the search found. -/
theorem Shape.insertNew (shape : Shape l (pre ++ post)) {update : Nat → Option Nat}
    (written : ∀ j, j < l.level → update j = some (lastAt j (headTower l) pre).addr)
    (coins : List Bool) (score : S) (member : Bytes) :
    ∃ l', l.insertNew update coins score member = some l' ∧
      Shape l' (pre ++ full l.nextAddr (score, member) (randomLevel coins 1) :: post) ∧
      l'.memberScores = l.memberScores.set member score := by
  obtain ⟨one, top⟩ := randomLevel_range coins le_rfl (by decide)
  generalize chosen : randomLevel coins 1 = lvl at one top
  obtain ⟨levelOne, levelTop⟩ := shape.level
  have fresh := shape.fresh l.nextAddr le_rfl
  have apart : ∀ t ∈ headTower l :: (pre ++ post), t.addr ≠ l.nextAddr :=
    fun t mem => (shape.addr_lt mem).ne
  have distinct : ((headTower l :: pre ++ full l.nextAddr (score, member) lvl :: post).map
      addr).Nodup := by
    have old := shape.distinct
    rw [← List.cons_append] at old
    rw [List.map_append]
    change ((headTower l :: pre).map addr ++ l.nextAddr :: post.map addr).Nodup
    rw [List.nodup_middle, List.nodup_cons, ← List.map_append]
    refine ⟨?_, old⟩
    rw [List.mem_map]
    rintro ⟨t, mem, same⟩
    exact apart t mem same
  -- the new node before it is linked: a tower that shows nowhere
  have laid₀ : Laid (view (l.heap.set l.nextAddr (SkipNode.make lvl score member)))
      (headTower l :: pre ++ (full l.nextAddr (score, member) lvl).window 0 0 :: post) := by
    apply Laid.insert_hidden
    · apply shape.laid.congr
      intro t mem
      simp [view, UnorderedMap.find_set, apart t mem]
    · intro i
      simp [window]
    · exact ⟨List.replicate lvl none, by simp [view, SkipNode.make, window, full],
        by simp [window, full]⟩
  have written' : ∀ j, j < lvl → (if l.level ≤ j ∧ j < lvl then some l.head else update j) =
      some (lastAt j (headTower l) pre).addr := by
    intro j small
    split
    · rename_i above
      rw [lastAt_of_hidden (hiddenAt_of_heights (fun t mem => shape.whole t (by simp [mem]))
        fun t mem => (shape.heights t (by simp [mem])).2.trans above.1)]
      rfl
    · exact written j (by omega)
  obtain ⟨heap', run, laid', size', same'⟩ := linkLoop_spec (k := lvl) laid₀ distinct
    (fun j small => shows_headTower (by omega)) le_rfl written'
  refine ⟨_, by simp only [SkipList.insertNew, chosen, Option.bind_eq_bind]; rw [show
    (List.range lvl).foldlM (linkAt l.nextAddr _) _ = some heap' from run]; rfl, ?_, rfl⟩
  refine ⟨?_, distinct, ?_, ?_, ?_, ?_, ?_, ?_⟩
  · have shown : (full l.nextAddr (score, member) lvl).window 0 lvl =
        full l.nextAddr (score, member) lvl := by
      simp [window, full]
    rw [shown] at laid'
    exact laid'
  · intro t mem
    rcases List.mem_append.mp mem with before | after
    · exact shape.whole t (by simp [before])
    · rcases List.mem_cons.mp after with rfl | after
      · rfl
      · exact shape.whole t (by simp [after])
  · intro t mem
    dsimp only
    have old : t ∈ pre ++ post → 1 ≤ t.height ∧ t.height ≤ if l.level < lvl then lvl else l.level := by
      intro mem
      have := shape.heights t mem
      split <;> omega
    rcases List.mem_append.mp mem with before | after
    · exact old (by simp [before])
    · rcases List.mem_cons.mp after with rfl | after
      · simp only [full]
        split <;> omega
      · exact old (by simp [after])
  · dsimp only
    split <;> omega
  · intro a above
    dsimp only at above ⊢
    rw [← Option.not_isSome_iff_eq_none, same', Option.not_isSome_iff_eq_none]
    have other : a ≠ l.nextAddr := by omega
    rw [view_eq_none_iff, UnorderedMap.find_set, if_neg other, ← view_eq_none_iff]
    exact shape.fresh a (by omega)
  · dsimp only
    rw [size', UnorderedMap.size_set, view_eq_none_iff.mp fresh, shape.heapSize]
    simp [Nat.add_assoc]
  · dsimp only
    rw [shape.size]
    simp [Nat.add_assoc]

/-! ### Unlinking a node -/

omit [Inhabited S] [BEq S] [LT S] [DecidableLT S] in
/-- One iteration of the unlinking loop: the target disappears from the chain of level `k`. -/
theorem unlinkAt_spec (laid : Laid (view heap) (h :: pre ++ t.window k t.height :: post))
    (distinct : ((h :: pre ++ t :: post).map addr).Nodup) (base : h.shows k = true)
    (below : k < t.height) :
    ∃ heap', forward heap (lastAt k h pre).addr k = some (some t.addr) ∧
      forward heap t.addr k = some (nextAt k post) ∧
      setForward heap (lastAt k h pre).addr k (nextAt k post) = some heap' ∧
      Laid (view heap') (h :: pre ++ t.window (k + 1) t.height :: post) ∧
      heap'.size = heap.size ∧ ∀ a, (view heap' a).isSome = (view heap a).isSome := by
  obtain ⟨front, back, split, behind⟩ := lastAt_split k h pre
  have shown : (lastAt k h pre).shows k = true := shows_lastAt base
  have visible : (t.window k t.height).shows k = true := by
    simpa [window] using below
  obtain ⟨g, storedU, lengthU, linksU⟩ := laid front (lastAt k h pre)
    (back ++ t.window k t.height :: post) (by rw [split]; simp)
  have recordU : Record (view heap) (lastAt k h pre) (back ++ t.window k t.height :: post) :=
    ⟨g, storedU, lengthU, linksU⟩
  have insideU : k < g.length := by
    have some := linksU k shown
    by_contra out
    rw [List.getElem?_eq_none (not_lt.mp out)] at some
    cases some
  obtain ⟨heap', set, own, frame, size⟩ := setForward_spec storedU insideU (nextAt k post)
  have distinctW : ((h :: pre ++ t.window k t.height :: post).map addr).Nodup := by
    simpa [window] using distinct
  have apart : ∀ x ∈ h :: pre, ∀ y ∈ t.window k t.height :: post, x.addr ≠ y.addr := by
    intro x memX y memY
    rw [List.map_append, List.nodup_append] at distinctW
    exact distinctW.2.2 _ (List.mem_map_of_mem memX) _ (List.mem_map_of_mem memY)
  refine ⟨heap', ?_, ?_, set, ?_, size, ?_⟩
  · rw [forward_of_record recordU shown, behind.nextAt_append, nextAt_cons, visible, if_pos rfl]
    rfl
  · have own : Record (view heap) (t.window k t.height) post := laid (h :: pre) _ post rfl
    rw [← forward_of_record own visible]
    rfl
  · refine laid.relink (w := t.window (k + 1) t.height) (k := k) ?_ apart rfl rfl rfl ?_ base ?_
      storedU ?_ frame
    · rw [List.map_append, List.nodup_append] at distinct
      exact distinct.1
    · intro i other
      simp only [window, decide_eq_decide]
      omega
    · intro clash
      simp [window] at clash
    · rw [own, nextAt_cons, if_neg (by simp [window])]
  · intro a
    by_cases self : a = (lastAt k h pre).addr
    · rw [self, own, storedU]
      rfl
    · rw [frame a self]

omit [Inhabited S] [BEq S] [LT S] [DecidableLT S] in
/-- The unlinking loop from level `k` on: it ends where the target has no more levels. -/
theorem unlinkLoop_spec {update : Nat → Option Nat} {todo level : Nat}
    (laid : Laid (view heap) (h :: pre ++ t.window k t.height :: post))
    (distinct : ((h :: pre ++ t :: post).map addr).Nodup)
    (base : ∀ j, j < level → h.shows j = true) (upTo : k ≤ t.height) (below : t.height ≤ level)
    (written : ∀ j, j < level → update j = some (lastAt j h pre).addr) (left : k + todo = level) :
    ∃ heap', unlinkLoop t.addr update todo k heap = some heap' ∧
      Laid (view heap') (h :: pre ++ t.window t.height t.height :: post) ∧
      heap'.size = heap.size ∧ ∀ a, (view heap' a).isSome = (view heap a).isSome := by
  induction todo generalizing heap k with
  | zero =>
    obtain rfl : k = t.height := by omega
    exact ⟨heap, rfl, laid, rfl, fun _ => rfl⟩
  | succ todo ih =>
    have here : update k = some (lastAt k h pre).addr := written k (by omega)
    rcases Nat.lt_or_ge k t.height with inside | above
    · obtain ⟨heap₁, next, after, set, laid₁, size₁, same₁⟩ :=
        unlinkAt_spec laid distinct (base k (by omega)) inside
      obtain ⟨heap', run, laid', size', same'⟩ := ih laid₁ inside (by omega)
      refine ⟨heap', ?_, laid', by rw [size', size₁], fun a => by rw [same' a, same₁ a]⟩
      simp [unlinkLoop, here, next, after, set, run]
    · obtain rfl : k = t.height := by omega
      obtain ⟨front, back, split, behind⟩ := lastAt_split t.height h pre
      have record : Record (view heap) (lastAt t.height h pre)
          (back ++ t.window t.height t.height :: post) :=
        laid front _ _ (by rw [split]; simp)
      have next : forward heap (lastAt t.height h pre).addr t.height =
          some (nextAt t.height post) := by
        rw [forward_of_record record (shows_lastAt (base t.height (by omega))),
          behind.nextAt_append, nextAt_cons, if_neg (by simp [window])]
      have notTarget : nextAt t.height post ≠ some t.addr := by
        intro same
        obtain ⟨_, x, _, rfl, clash, -, -⟩ := nextAt_eq_some same
        rw [List.map_append, List.nodup_append] at distinct
        have once := distinct.2.1
        rw [List.map_cons, List.nodup_cons] at once
        exact once.1 (List.mem_map.mpr ⟨x, by simp, clash⟩)
      refine ⟨heap, ?_, laid, rfl, fun _ => rfl⟩
      simp [unlinkLoop, here, next, notTarget]

omit [BEq S] [LT S] [DecidableLT S] in
/-- Lowering the level keeps it above all towers. -/
theorem shrinkLevel_spec (laid : Laid (view heap) (headTower l :: ts))
    (whole : ∀ t ∈ ts, t = full t.addr t.item t.height) {level : Nat}
    (range : 1 ≤ level ∧ level ≤ skipMaxLevel) (heights : ∀ t ∈ ts, t.height ≤ level) :
    ∃ level', shrinkLevel heap l.head level = some level' ∧ 1 ≤ level' ∧ level' ≤ level ∧
      ∀ t ∈ ts, t.height ≤ level' := by
  induction level with
  | zero => omega
  | succ level ih =>
    cases level with
    | zero => exact ⟨1, rfl, le_rfl, le_rfl, heights⟩
    | succ level =>
      have record := laid [] (headTower l) ts rfl
      have next : forward heap l.head (level + 1) = some (nextAt (level + 1) ts) :=
        forward_of_record record (shows_headTower (by omega))
      rw [shrinkLevel, next]
      cases above : nextAt (level + 1) ts with
      | some a => exact ⟨level + 2, rfl, by omega, le_rfl, heights⟩
      | none =>
        have hidden := nextAt_eq_none_iff.mp above
        obtain ⟨level', run, bottom, top, heights'⟩ := ih (by omega) (by
          intro t mem
          have shown := hidden t mem
          rw [whole t mem] at shown
          simp only [full, decide_eq_false_iff_not] at shown
          omega)
        exact ⟨level', run, bottom, by omega, heights'⟩

omit [BEq S] [LT S] [DecidableLT S] in
/-- The middle of `remove` takes the tower out at which the search stopped. -/
theorem Shape.unlink (shape : Shape l (pre ++ t :: post)) {update : Nat → Option Nat}
    (written : ∀ j, j < l.level → update j = some (lastAt j (headTower l) pre).addr)
    (scores : UnorderedMap Bytes S) :
    ∃ heap level, unlinkLoop t.addr update l.level 0 l.heap = some heap ∧
      shrinkLevel (heap.erase t.addr) l.head l.level = some level ∧
      Shape { l with
        heap := heap.erase t.addr, level := level, memberScores := scores, size := l.size - 1 }
        (pre ++ post) := by
  obtain ⟨levelOne, levelTop⟩ := shape.level
  have mem : t ∈ pre ++ t :: post := by simp
  have whole := shape.whole t mem
  have rest : ∀ x ∈ pre ++ post, x ∈ pre ++ t :: post := by
    intro x mem
    rcases List.mem_append.mp mem with before | after
    · simp [before]
    · simp [after]
  have distinct : ((headTower l :: pre ++ t :: post).map addr).Nodup := by
    simpa using shape.distinct
  have apart : ∀ x ∈ headTower l :: (pre ++ post), x.addr ≠ t.addr := by
    have once := distinct
    rw [List.map_append, List.map_cons (f := addr) (a := t), List.nodup_middle, List.nodup_cons,
      ← List.map_append] at once
    intro x mem same
    exact once.1 (List.mem_map.mpr ⟨x, by simpa using mem, same⟩)
  have start : t.window 0 t.height = t := by
    rw [whole]
    simp [window, full]
  obtain ⟨heap, run, laid, size, same⟩ := unlinkLoop_spec (k := 0)
    (by rw [start]; exact shape.laid) distinct (fun j small => shows_headTower (by omega))
    (Nat.zero_le _) (shape.heights t mem).2 written (Nat.zero_add _)
  have laid' : Laid (view (heap.erase t.addr)) (headTower l :: (pre ++ post)) := by
    apply (laid.drop_hidden fun i => by simp [window]).congr
    intro x mem
    simp [view, UnorderedMap.find_erase, apart x mem]
  have stored : (heap.find t.addr).isSome = true := by
    have held := same t.addr
    obtain ⟨f, here, -⟩ := shape.stored
    rw [here] at held
    simpa [view] using held
  obtain ⟨level, shrunk, bottom, top, heights⟩ := shrinkLevel_spec laid'
    (fun x mem => shape.whole x (rest x mem)) shape.level
    fun x mem => (shape.heights x (rest x mem)).2
  refine ⟨heap, level, run, shrunk, laid', ?_, fun x mem => shape.whole x (rest x mem),
    fun x mem => ⟨(shape.heights x (rest x mem)).1, heights x mem⟩, ⟨bottom, by dsimp only; omega⟩,
    ?_, ?_, ?_⟩
  · have once := distinct
    rw [List.map_append, List.map_cons (f := addr) (a := t), List.nodup_middle, List.nodup_cons,
      ← List.map_append] at once
    exact once.2
  · intro a above
    dsimp only
    rw [view_eq_none_iff, UnorderedMap.find_erase]
    split
    · rfl
    · rw [← view_eq_none_iff, ← Option.not_isSome_iff_eq_none, same,
        Option.not_isSome_iff_eq_none]
      exact shape.fresh a above
  · dsimp only
    rw [UnorderedMap.size_erase, if_pos stored, size, shape.heapSize]
    simp [Nat.add_assoc]
  · dsimp only
    rw [shape.size]
    simp

end

end FastGraph.SkipList
